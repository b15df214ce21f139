/-
  Work lists: a stack of items, each of which is replaced by further items and
  yields some results.

  The items below a list may make up a finite tree (`Grows`): a list grows to
  `out` in `n` steps if each of its items, and each item these are replaced by,
  is worked on once.  The tree does not depend on the order of the items.

    - `Grows.perm`, `Grows.append`: the items in any order, and of two lists;
    - `run_eq`: the loop ends after `n` steps, with the results of the tree.
-/
import Mathlib.Tactic

namespace Worklist

variable {α β : Type} (step : α → List α × List β)

/-- The loop, in at most `k` turns: the item on top of the stack, the end of the list, gives
    way to further items. -/
def run : ℕ → List α → List β → Option (List β)
  | 0, _, _ => none
  | k + 1, todo, done =>
    match todo.getLast? with
    | none => some done
    | some a => run k (todo.dropLast ++ (step a).1) (done ++ (step a).2)

/-- The items of a list grow to the results `out` in `n` steps. -/
inductive Grows : List α → ℕ → Multiset β → Prop
  | nil : Grows [] 0 0
  | cons {a : α} {l : List α} {m n : ℕ} {out out' : Multiset β} (ha : Grows (step a).1 m out)
      (hl : Grows l n out') : Grows (a :: l) (m + 1 + n) (↑(step a).2 + out + out')

variable {step} {a : α} {l l' : List α} {k m n : ℕ} {out out' : Multiset β}

namespace Grows

theorem append (h : Grows step l m out) (h' : Grows step l' n out') :
    Grows step (l ++ l') (m + n) (out + out') := by
  induction h with
  | nil => rwa [List.nil_append, Nat.zero_add, zero_add]
  | @cons a l i j _ _ ha _ _ ih =>
    rw [List.cons_append, Nat.add_assoc (i + 1) j n, add_assoc (G := Multiset β)]
    exact .cons ha ih

/-- The first item grows and the others do. -/
theorem uncons (h : Grows step (a :: l) n out) : ∃ m n' o o', Grows step (step a).1 m o ∧
    Grows step l n' o' ∧ n = m + 1 + n' ∧ out = ↑(step a).2 + o + o' := by
  cases h with
  | cons ha hl => exact ⟨_, _, _, _, ha, hl, rfl, rfl⟩

/-- The items may come in any order. -/
theorem perm (hp : l.Perm l') (h : Grows step l n out) : Grows step l' n out := by
  induction hp generalizing n out with
  | nil => exact h
  | cons a _ ih =>
    obtain ⟨m, n', o, o', ha, hl, rfl, rfl⟩ := h.uncons
    exact .cons ha (ih hl)
  | swap a b l =>
    obtain ⟨m, n', o, o', hb, hal, rfl, rfl⟩ := h.uncons
    obtain ⟨m', n', o', o'', ha, hl, rfl, rfl⟩ := hal.uncons
    have hswap := Grows.cons ha (.cons hb hl)
    rwa [show m' + 1 + (m + 1 + n') = m + 1 + (m' + 1 + n') by omega,
      show (↑(step a).2 + o' + (↑(step b).2 + o + o'') : Multiset β) =
        ↑(step b).2 + o + (↑(step a).2 + o' + o'') by abel] at hswap
  | trans _ _ ih ih' => exact ih' (ih h)

end Grows

/-- **The loop ends** after as many steps as the items need to grow, and the results are theirs,
    in some order. -/
theorem run_eq {done : List β} (h : Grows step l n out) (hk : n < k) :
    ∃ res, run step k l done = some res ∧ (res : Multiset β) = ↑done + out := by
  induction k generalizing l n out done with
  | zero => omega
  | succ k ih =>
    rw [run]
    rcases List.eq_nil_or_concat l with rfl | ⟨l, a, rfl⟩
    · cases h with
      | nil => exact ⟨done, rfl, (add_zero _).symm⟩
    · -- the item on top grows, and what it gives way to lies on the others
      rw [List.concat_eq_append] at h ⊢
      obtain ⟨m, n, o, o', ha, hl, rfl, rfl⟩ := (h.perm (List.perm_append_singleton a l)).uncons
      rw [List.getLast?_append_cons, List.getLast?_singleton, List.dropLast_concat]
      obtain ⟨res, hrun, hres⟩ : ∃ res,
          run step k (l ++ (step a).1) (done ++ (step a).2) = some res ∧
          (res : Multiset β) = ↑(done ++ (step a).2) + (o' + o) := ih (hl.append ha) (by omega)
      refine ⟨res, hrun, ?_⟩
      rw [hres, ← Multiset.coe_add]
      abel

/-- The number of turns does not matter as long as they are enough. -/
theorem run_mono {done res : List β} (h : run step k l done = some res) (hk : k ≤ m) :
    run step m l done = some res := by
  induction k generalizing l m done with
  | zero => cases h
  | succ k ih =>
    obtain ⟨m, rfl⟩ : ∃ m', m = m' + 1 := ⟨m - 1, by omega⟩
    rw [run] at h ⊢
    split at h
    · exact h
    · exact ih h (by omega)

end Worklist
