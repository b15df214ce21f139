/-
  Several writers on one image, each at its own pace.

  Every writer has a list of writes; into what pieces it divides them and when it
  stores a piece is its own.  If all writes agree with one image `t`, then so
  does what is stored, whoever stores first.

    - `Image.covers`: the bytes that a list of writes reaches;
    - `Writers`: the invariant, from what each writer has still to store;
    - `Writers.store`: storing a piece keeps it;
    - `Writers.done`: the writes of a writer that has nothing left to store.
-/
import NvmfHdfs.Lib.Image

namespace Image

/-- The byte at `a` is reached by one of the writes. -/
def covers (ws : List (ℕ × List UInt8)) (a : ℕ) : Prop :=
  ∃ w ∈ ws, w.1 ≤ a ∧ a < w.1 + w.2.length

/-- The writes store what `t` holds. -/
def Agrees (t : Image) (ws : List (ℕ × List UInt8)) : Prop :=
  ∀ w ∈ ws, t.slice w.1 w.2.length = w.2

variable {t m : Image} {ws : List (ℕ × List UInt8)} {p a : ℕ} {b b' : List UInt8}

@[simp] theorem covers_nil : ¬ covers [] a := by
  rintro ⟨w, hw, -⟩
  exact absurd hw List.not_mem_nil

theorem covers_cons {w : ℕ × List UInt8} :
    covers (w :: ws) a ↔ (w.1 ≤ a ∧ a < w.1 + w.2.length) ∨ covers ws a := by
  simp only [covers, List.mem_cons, exists_eq_or_imp]

/-- A write that is divided in two. -/
theorem covers_append : covers ((p, b ++ b') :: ws) a ↔
    (p ≤ a ∧ a < p + b.length) ∨ covers ((p + b.length, b') :: ws) a := by
  rw [covers_cons, covers_cons, ← or_assoc]
  refine or_congr_left ?_
  dsimp only
  rw [List.length_append]
  omega

theorem covers_skip : covers ((p, []) :: ws) a ↔ covers ws a := by
  rw [covers_cons]
  refine or_iff_right ?_
  simp

theorem Agrees.tail {w : ℕ × List UInt8} (h : Agrees t (w :: ws)) : Agrees t ws :=
  fun w' hw' => h w' (List.mem_cons_of_mem w hw')

/-- The parts of a write that agrees. -/
theorem Agrees.split (h : Agrees t ((p, b ++ b') :: ws)) :
    t.slice p b.length = b ∧ Agrees t ((p + b.length, b') :: ws) := by
  have hw : t.slice p (b ++ b').length = b ++ b' := h (p, b ++ b') List.mem_cons_self
  have hlen : (b ++ b').length = b.length + b'.length := List.length_append
  constructor
  · have hs := slice_slice t p (b ++ b').length 0 b.length (by omega)
    rwa [hw, List.drop_zero, List.take_left, Nat.add_zero, eq_comm] at hs
  · intro w hmem
    rcases List.mem_cons.1 hmem with rfl | hmem
    · have hs := slice_slice t p (b ++ b').length b.length b'.length (by omega)
      rwa [hw, List.drop_left, List.take_length, eq_comm] at hs
    · exact h.tail w hmem

/-- A piece that agrees with `t` is stored as in `t`. -/
theorem patch_of_agrees (h : t.slice p b.length = b) :
    m.patch p b a = if p ≤ a ∧ a < p + b.length then t a else m a := by
  split_ifs with ha
  · have heq : (m.patch p b).slice p b.length = t.slice p b.length :=
      (slice_patch m p b).trans h.symm
    exact slice_eq_iff.1 heq a ha.1 ha.2
  · exact patch_outside ha

end Image

open Image

variable {ν : Type} [DecidableEq ν] {t m₀ m : Image} {ws left : ν → List (ℕ × List UInt8)}
  {v : ν} {p a : ℕ} {b b' : List UInt8} {l : List (ℕ × List UInt8)}

/-- The invariant of writers with the writes `ws`, of which `left` is left, on an image that
    held `m₀` at first. -/
structure Writers (t m₀ : Image) (ws : ν → List (ℕ × List UInt8)) (m : Image)
    (left : ν → List (ℕ × List UInt8)) : Prop where
  agrees : ∀ v, Agrees t (left v)
  stored : ∀ v a, covers (ws v) a → m a = t a ∨ covers (left v) a
  inside : ∀ v a, covers (left v) a → covers (ws v) a
  kept : ∀ a, (∀ v, ¬ covers (ws v) a) → m a = m₀ a

namespace Writers

omit [DecidableEq ν] in
/-- Before anything is stored. -/
theorem start (h : ∀ v, Agrees t (left v)) (hc : ∀ v a, covers (left v) a ↔ covers (ws v) a) :
    Writers t m ws m left :=
  ⟨h, fun v a hws => .inr ((hc v a).2 hws), fun v a => (hc v a).1, fun _ _ => rfl⟩

variable (h : Writers t m₀ ws m left)
include h

/-- What is left of one writer shrinks to `l` while some bytes of it are stored. -/
theorem shrink {m' : Image} (hl : Agrees t l) (hsub : ∀ a, covers l a → covers (left v) a)
    (hm : ∀ a, m' a = m a ∨ m' a = t a ∧ covers (left v) a)
    (hstored : ∀ a, covers (left v) a → m' a = t a ∨ covers l a) :
    Writers t m₀ ws m' (Function.update left v l) := by
  refine ⟨?_, ?_, ?_, fun a ha => ?_⟩
  · exact (Function.forall_update_iff left fun _ l => Agrees t l).2 ⟨hl, fun v' _ => h.agrees v'⟩
  · refine (Function.forall_update_iff left fun v' l =>
      ∀ a, covers (ws v') a → m' a = t a ∨ covers l a).2 ⟨fun a hws => ?_, fun v' _ a hws => ?_⟩
    · rcases h.stored v a hws with hs | hs
      · exact .inl ((hm a).elim (·.trans hs) And.left)
      · exact hstored a hs
    · refine (h.stored v' a hws).imp_left fun hs => ?_
      exact (hm a).elim (·.trans hs) And.left
  · exact (Function.forall_update_iff left fun v' l => ∀ a, covers l a → covers (ws v') a).2
      ⟨fun a ha => h.inside v a (hsub a ha), fun v' _ => h.inside v'⟩
  · refine ((hm a).resolve_right fun hm => ?_).trans (h.kept a ha)
    exact ha v (h.inside v a hm.2)

/-- **Storing a first piece** of what is left. -/
theorem store (hv : left v = (p, b ++ b') :: l) :
    Writers t m₀ ws (m.patch p b) (Function.update left v ((p + b.length, b') :: l)) := by
  obtain ⟨hpiece, hrest⟩ := (hv ▸ h.agrees v).split
  have hcov : ∀ a, covers (left v) a ↔
      (p ≤ a ∧ a < p + b.length) ∨ covers ((p + b.length, b') :: l) a := by
    intro a
    rw [hv, covers_append]
  refine h.shrink hrest (fun a ha => (hcov a).2 (.inr ha)) (fun a => ?_) fun a ha => ?_
  · rw [patch_of_agrees hpiece]
    split_ifs with hp
    · exact .inr ⟨rfl, (hcov a).2 (.inl hp)⟩
    · exact .inl rfl
  · rw [patch_of_agrees hpiece]
    split_ifs with hp
    · exact .inl rfl
    · exact .inr (((hcov a).1 ha).resolve_left hp)

/-- Going on to the next write when a write is stored whole. -/
theorem next (hv : left v = (p, []) :: l) : Writers t m₀ ws m (Function.update left v l) := by
  have hcov : ∀ a, covers (left v) a ↔ covers l a := by
    intro a
    rw [hv, covers_skip]
  exact h.shrink (hv ▸ h.agrees v).tail (fun a => (hcov a).2) (fun a => .inl rfl)
    fun a ha => .inr ((hcov a).1 ha)

omit [DecidableEq ν] in
/-- **A writer with nothing left** has stored all its writes. -/
theorem done {w : ℕ × List UInt8} (hws : Agrees t (ws v)) (hv : ∀ a, ¬ covers (left v) a)
    (hw : w ∈ ws v) : m.slice w.1 w.2.length = w.2 := by
  rw [← hws w hw, length_slice]
  exact slice_congr fun a h1 h2 => (h.stored v a ⟨w, hw, h1, h2⟩).resolve_right (hv a)

end Writers
