/-
  Tokens: the maximal runs without separators in a text.

  A text may be cut into chunks.  A token of the text then comes in one or more
  pieces, each of them a token of its chunk (`pieces`).

    - `flatten_pieces`, `map_flatten_pieces`: the pieces are the tokens of the
      chunks, put together they are the tokens of the text;
    - `filter_of_harmless`: of the tokens with a property the chunks have the same
      ones as the text if the cuts are harmless to it;
    - `filter_append_iff`: in a plain text only then, and further tokens are noticed.
-/
import Mathlib.Data.List.ReduceOption
import Mathlib.Tactic

namespace Tokens

variable {α : Type} (sep : α → Bool)

/-! ## Tokens and their pieces -/

/-- What has been read, unless it is empty. -/
def flush {β : Type} : List β → List (List β)
  | [] => []
  | c :: l => [c :: l]

/-- The tokens of a text, of the first of which `cur` has been read. -/
def tokensFrom : List α → List α → List (List α)
  | cur, [] => flush cur
  | cur, c :: l => if sep c then flush cur ++ tokensFrom [] l else tokensFrom (cur ++ [c]) l

/-- The tokens of a text. -/
def tokens (l : List α) : List (List α) := tokensFrom sep [] l

/-- The text of some chunks, with a mark before each. -/
def marks (cs : List (List α)) : List (Option α) := cs.flatMap fun c => none :: c.map some

/-- The tokens of a marked text by their pieces; of the first `ps` are those before the last mark,
    and `cur` what has been read since. -/
def piecesFrom : List (List α) → List α → List (Option α) → List (List (List α))
  | ps, cur, [] => flush (ps ++ flush cur)
  | ps, cur, none :: l => piecesFrom (ps ++ flush cur) [] l
  | ps, cur, some c :: l =>
    if sep c then flush (ps ++ flush cur) ++ piecesFrom [] [] l else piecesFrom ps (cur ++ [c]) l

/-- The tokens of a text in chunks, by their pieces. -/
def pieces (cs : List (List α)) : List (List (List α)) := piecesFrom sep [] [] (marks cs)

variable {sep} {cs : List (List α)} {q : List α → Bool}

@[simp] theorem flatten_flush {β : Type} (l : List β) : (flush l).flatten = l := by
  cases l <;> simp [flush]

theorem ne_nil_of_mem_flush {β : Type} {l t : List β} (h : t ∈ flush l) : t ≠ [] := by
  cases l with
  | nil => cases h
  | cons c l => simp_all [flush]

theorem map_flatten_flush {ps : List (List α)} (h : ∀ p ∈ ps, p ≠ []) :
    (flush ps).map List.flatten = flush ps.flatten := by
  cases ps with
  | nil => rfl
  | cons p ps =>
    cases p with
    | nil => exact absurd rfl (h [] (by simp))
    | cons c p => simp [flush]

/-- Pieces are not empty. -/
theorem ne_nil_of_mem_append {ps : List (List α)} {cur p : List α} (h : ∀ p ∈ ps, p ≠ [])
    (hp : p ∈ ps ++ flush cur) : p ≠ [] := by
  rcases List.mem_append.1 hp with hp | hp
  · exact h p hp
  · exact ne_nil_of_mem_flush hp

theorem map_flatten_piecesFrom {ps : List (List α)} {cur : List α} {l : List (Option α)}
    (h : ∀ p ∈ ps, p ≠ []) :
    (piecesFrom sep ps cur l).map List.flatten =
      tokensFrom sep (ps.flatten ++ cur) l.reduceOption := by
  have happ : ∀ {ps : List (List α)} {cur : List α}, (∀ p ∈ ps, p ≠ []) →
      (flush (ps ++ flush cur)).map List.flatten = flush (ps.flatten ++ cur) := by
    intro ps cur h
    rw [map_flatten_flush fun p hp => ne_nil_of_mem_append h hp]
    simp
  induction l generalizing ps cur with
  | nil => simp [piecesFrom, tokensFrom, happ h]
  | cons o l ih =>
    cases o with
    | none =>
      rw [piecesFrom, ih fun p hp => ne_nil_of_mem_append h hp]
      simp
    | some c =>
      rw [piecesFrom, List.reduceOption_cons_of_some, tokensFrom]
      split_ifs
      · rw [List.map_append, happ h, ih (by simp)]
        simp
      · rw [ih h, List.append_assoc]

theorem flatten_piecesFrom {ps : List (List α)} {cur l : List α} :
    (piecesFrom sep ps cur (l.map some ++ marks cs)).flatten =
      ps ++ tokensFrom sep cur l ++ cs.flatMap (tokens sep) := by
  induction cs generalizing ps cur l with
  | nil =>
    induction l generalizing ps cur with
    | nil => simp [piecesFrom, tokensFrom, marks]
    | cons c l ih =>
      rw [List.map_cons, List.cons_append, piecesFrom, tokensFrom]
      split_ifs
      · rw [List.flatten_append, ih]; simp
      · rw [ih]
  | cons d cs ihcs =>
    induction l generalizing ps cur with
    | nil =>
      have hmarks : marks (d :: cs) = none :: (d.map some ++ marks cs) := by simp [marks]
      rw [List.map_nil, List.nil_append, hmarks, piecesFrom, ihcs, tokensFrom]
      simp [tokens]
    | cons c l ih =>
      rw [List.map_cons, List.cons_append, piecesFrom, tokensFrom]
      split_ifs
      · rw [List.flatten_append, ih]; simp
      · rw [ih]

/-- **The pieces are the tokens of the chunks.** -/
theorem flatten_pieces (cs : List (List α)) :
    (pieces sep cs).flatten = cs.flatMap (tokens sep) := by
  have h : (piecesFrom sep [] [] (([] : List α).map some ++ marks cs)).flatten =
      [] ++ tokensFrom sep [] [] ++ cs.flatMap (tokens sep) := flatten_piecesFrom
  simpa [pieces, tokensFrom, flush] using h

/-- **Put together, the pieces are the tokens of the text.** -/
theorem map_flatten_pieces (cs : List (List α)) :
    (pieces sep cs).map List.flatten = tokens sep cs.flatten := by
  have hmarks : (marks cs).reduceOption = cs.flatten := by
    induction cs with
    | nil => rfl
    | cons c cs ih =>
      have hsome : (c.map some).reduceOption = c := by simp [List.reduceOption, List.filterMap_map]
      rw [marks, List.flatMap_cons, ← marks, List.cons_append, List.reduceOption_cons_of_none,
        List.reduceOption_append, ih, hsome, List.flatten_cons]
  rw [pieces, map_flatten_piecesFrom (by simp), hmarks]
  rfl

/-- A token has a piece, and none of its pieces is empty. -/
theorem piecesFrom_ne_nil {ps : List (List α)} {cur : List α} {l : List (Option α)}
    {g : List (List α)} (h : ∀ p ∈ ps, p ≠ []) (hg : g ∈ piecesFrom sep ps cur l) :
    g ≠ [] ∧ ∀ p ∈ g, p ≠ [] := by
  have hflush : ∀ {ps : List (List α)} {cur : List α}, (∀ p ∈ ps, p ≠ []) →
      g ∈ flush (ps ++ flush cur) → g ≠ [] ∧ ∀ p ∈ g, p ≠ [] := by
    intro ps cur h hg
    refine ⟨ne_nil_of_mem_flush hg, fun p hp => ?_⟩
    have hmem : p ∈ ps ++ flush cur := by
      rw [← flatten_flush (ps ++ flush cur)]
      exact List.mem_flatten.2 ⟨g, hg, hp⟩
    exact ne_nil_of_mem_append h hmem
  induction l generalizing ps cur with
  | nil => exact hflush h hg
  | cons o l ih =>
    cases o with
    | none => exact ih (fun p hp => ne_nil_of_mem_append h hp) hg
    | some c =>
      rw [piecesFrom] at hg
      split_ifs at hg
      · rcases List.mem_append.1 hg with hg | hg
        · exact hflush h hg
        · exact ih (by simp) hg
      · exact ih h hg

theorem pieces_ne_nil {g : List (List α)} (hg : g ∈ pieces sep cs) : g ≠ [] ∧ ∀ p ∈ g, p ≠ [] :=
  piecesFrom_ne_nil (by simp) hg

/-! ## The tokens with a property -/

/-- A token of more than one piece neither has the property nor do its pieces. -/
def Harmless (q : List α → Bool) (gs : List (List (List α))) : Prop :=
  ∀ g ∈ gs, 1 < g.length → q g.flatten = false ∧ ∀ p ∈ g, q p = false

/-- The tokens with the property are distinct, and none of the tokens has it again behind its
    start. -/
structure Plain (q : List α → Bool) (ts : List (List α)) : Prop where
  nodup : (ts.filter q).Nodup
  start : ∀ t ∈ ts, ∀ u v, t = u ++ v → u ≠ [] → q v = false

variable {gs : List (List (List α))}

/-- **Harmless cuts**: the chunks have the tokens of the text that have the property. -/
theorem filter_of_harmless (h : Harmless q gs) (hne : ∀ g ∈ gs, g ≠ []) :
    gs.flatten.filter q = (gs.map List.flatten).filter q := by
  induction gs with
  | nil => rfl
  | cons g gs ih =>
    have hg : g.filter q = [g.flatten].filter q := by
      obtain ⟨p, ps, rfl⟩ := List.exists_cons_of_ne_nil (hne g (by simp))
      cases ps with
      | nil => simp
      | cons p' ps =>
        obtain ⟨hwhole, hparts⟩ := h (p :: p' :: ps) (by simp) (by simp)
        rw [List.filter_eq_nil_iff.2 fun x hx => by simp [hparts x hx]]
        exact (List.filter_eq_nil_iff.2 fun x hx => by
          rw [List.mem_singleton.1 hx, hwhole]; exact Bool.false_ne_true).symm
    rw [List.flatten_cons, List.filter_append, hg, ih (fun g hg => h g (by simp [hg]))
      (fun g hg => hne g (by simp [hg])), List.map_cons, ← List.filter_append]
    rfl

section Plain

-- a token with the property keeps it when it goes on
variable (hq : ∀ u v, q u = true → q (u ++ v) = true)
  (hlater : ∀ g ∈ gs, ∀ p ∈ g.tail, q p = false) (hne : ∀ g ∈ gs, g ≠ [] ∧ ∀ p ∈ g, p ≠ [])
include hq hlater hne

/-- Of a token, at most the first piece has the property, and then the token has it. -/
theorem filter_token {g : List (List α)} (hg : g ∈ gs) : g.filter q = [] ∨
    q g.flatten = true ∧ ∃ p ps, g = p :: ps ∧ g.filter q = [p] := by
  obtain ⟨p, ps, rfl⟩ := List.exists_cons_of_ne_nil (hne g hg).1
  have htail : ps.filter q = [] := List.filter_eq_nil_iff.2 fun x hx => by simp [hlater _ hg x hx]
  cases hp : q p
  · exact .inl (by simp [hp, htail])
  · exact .inr ⟨hq _ _ hp, p, ps, rfl, by simp [hp, htail]⟩

/-- The chunks have at most as many tokens with the property. -/
theorem length_filter_le :
    (gs.flatten.filter q).length ≤ ((gs.map List.flatten).filter q).length := by
  induction gs with
  | nil => exact le_rfl
  | cons g gs ih =>
    have ih := ih (fun g hg => hlater g (by simp [hg])) fun g hg => hne g (by simp [hg])
    rw [List.flatten_cons, List.filter_append, List.length_append, List.map_cons, List.filter_cons]
    rcases filter_token hq hlater hne (List.mem_cons_self) with hnil | ⟨hwhole, p, ps, -, hone⟩
    · rw [hnil, List.length_nil, Nat.zero_add]
      split_ifs
      · exact ih.trans (Nat.le_succ _)
      · exact ih
    · rw [hone, if_pos hwhole, List.length_cons, List.length_cons, List.length_nil]
      omega

/-- If they have the same ones, the cuts are harmless. -/
theorem harmless_of_filter (h : gs.flatten.filter q = (gs.map List.flatten).filter q) :
    Harmless q gs := by
  induction gs with
  | nil => intro g hg; cases hg
  | cons g gs ih =>
    have hlater' : ∀ g ∈ gs, ∀ p ∈ g.tail, q p = false := fun g hg => hlater g (by simp [hg])
    have hne' : ∀ g ∈ gs, g ≠ [] ∧ ∀ p ∈ g, p ≠ [] := fun g hg => hne g (by simp [hg])
    have hle := length_filter_le hq hlater' hne'
    rw [List.flatten_cons, List.filter_append, List.map_cons, List.filter_cons] at h
    -- the token on top, and the others
    have hsplit : gs.flatten.filter q = (gs.map List.flatten).filter q ∧
        (1 < g.length → q g.flatten = false ∧ ∀ p ∈ g, q p = false) := by
      rcases filter_token hq hlater hne (List.mem_cons_self) with hnil | ⟨hwhole, p, ps, rfl, hone⟩
      · rw [hnil, List.nil_append] at h
        cases hwhole : q g.flatten
        · rw [hwhole, if_neg Bool.false_ne_true] at h
          exact ⟨h, fun _ => ⟨rfl, fun p hp => by simpa using List.filter_eq_nil_iff.1 hnil p hp⟩⟩
        · -- the token is missing in the chunks
          rw [hwhole, if_pos rfl] at h
          rw [h, List.length_cons] at hle
          omega
      · rw [hone, if_pos hwhole, List.singleton_append, List.cons.injEq] at h
        refine ⟨h.2, fun hlen => ?_⟩
        -- the first piece is the token
        have hrest : ps.flatten = [] := by simpa using h.1
        cases ps with
        | nil => simp at hlen
        | cons p' ps =>
          have hp' : p' = [] := (List.append_eq_nil_iff.1 hrest).1
          exact absurd hp' ((hne (p :: p' :: ps) (by simp)).2 p' (by simp))
    intro g' hg'
    rcases List.mem_cons.1 hg' with rfl | hg'
    · exact hsplit.2
    · exact ih hlater' hne' hsplit.1 g' hg'

end Plain

/-- **In a plain text** the chunks have its tokens with the property, and `extra` besides, only if
    the cuts are harmless and there are none besides; `extra` is taken from the chunks. -/
theorem filter_append_iff {extra : List (List α)} (hq : ∀ u v, q u = true → q (u ++ v) = true)
    (P : Plain q (tokens sep cs.flatten))
    (hextra : ∀ t ∈ extra, t ∈ (cs.flatMap (tokens sep)).filter q) :
    (cs.flatMap (tokens sep)).filter q ++ extra = (tokens sep cs.flatten).filter q ↔
      Harmless q (pieces sep cs) ∧ extra = [] := by
  have hne : ∀ g ∈ pieces sep cs, g ≠ [] ∧ ∀ p ∈ g, p ≠ [] := fun g => pieces_ne_nil
  obtain ⟨hnodup, hstart⟩ := P
  rw [← flatten_pieces] at hextra ⊢
  rw [← map_flatten_pieces] at hnodup hstart ⊢
  constructor
  · intro h
    have hlater : ∀ g ∈ pieces sep cs, ∀ p ∈ g.tail, q p = false := by
      intro g hg p hp
      obtain ⟨p₀, ps, rfl⟩ := List.exists_cons_of_ne_nil (hne g hg).1
      obtain ⟨u, v, huv⟩ := List.append_of_mem hp
      have hflat : (p₀ :: ps).flatten = (p₀ ++ u.flatten) ++ (p ++ v.flatten) := by
        rw [List.tail_cons] at huv
        simp [huv]
      have hfalse := hstart _ (List.mem_map_of_mem hg) _ _ hflat (by simp [(hne _ hg).2 p₀])
      cases hqp : q p
      · rfl
      · rw [hq p _ hqp] at hfalse; cases hfalse
    have hnil : extra = [] := by
      rw [List.eq_nil_iff_forall_not_mem]
      intro t ht
      rw [← h, List.nodup_append'] at hnodup
      exact hnodup.2.2 (hextra t ht) ht
    rw [hnil, List.append_nil] at h
    exact ⟨harmless_of_filter hq hlater hne h, hnil⟩
  · rintro ⟨hharmless, rfl⟩
    rw [List.append_nil]
    exact filter_of_harmless hharmless fun g hg => (hne g hg).1

end Tokens
