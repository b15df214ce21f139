/-
  First-fit allocation from a set that only grows.

  `Fits u₀ l u`: starting from the used set `u₀`, elements were taken one after
  the other (`l`, newest first), each the least one unused; in between the used
  set may have grown in any other way, and it is `u` now.

    - `Fits.above`: what is taken later is greater, also when it is taken from
      a larger set;
    - `Fits.sorted`: each element is taken once, in increasing order;
    - `Fits.fresh`: it was unused at the start, and has been used since;
    - `Fits.length_le`, `Fits.length_unused`: how many there can be, and how many
      are left.
-/
import Mathlib.Order.Bounds.Basic
import Mathlib.Tactic

universe u

namespace FirstFit
variable {α : Type u} [LinearOrder α]

/-- Elements taken first-fit from a growing set, the newest first. -/
inductive Fits (u₀ : Set α) : List α → Set α → Prop
  | nil : Fits u₀ [] u₀
  | grow {l u u'} : Fits u₀ l u → u ⊆ u' → Fits u₀ l u'
  | take {l u a} : Fits u₀ l u → IsLeast uᶜ a → Fits u₀ (a :: l) (insert a u)

namespace Fits
variable {u₀ u v : Set α} {l : List α} {a b : α}

theorem subset (h : Fits u₀ l u) : u₀ ⊆ u := by
  induction h with
  | nil => exact subset_rfl
  | grow _ hu ih => exact ih.trans hu
  | take _ _ ih => exact ih.trans (Set.subset_insert _ _)

/-- Everything up to an element taken is used. -/
theorem filled (h : Fits u₀ l u) (ha : a ∈ l) : Set.Iic a ⊆ u := by
  induction h with
  | nil => cases ha
  | grow _ hu ih => exact (ih ha).trans hu
  | @take l u b _ hb ih =>
    rcases List.mem_cons.1 ha with rfl | ha
    · intro c hc
      rcases eq_or_lt_of_le (Set.mem_Iic.1 hc) with rfl | hlt
      · exact Set.mem_insert _ _
      · by_contra hnot
        exact absurd (hb.2 fun hu => hnot (Set.mem_insert_of_mem _ hu)) (not_le.2 hlt)
    · exact (ih ha).trans (Set.subset_insert _ _)

/-- **What is taken later is greater**, also from a larger set. -/
theorem above (h : Fits u₀ l u) (hv : u ⊆ v) (hb : IsLeast vᶜ b) (ha : a ∈ l) : a < b := by
  by_contra hle
  exact hb.1 (hv (h.filled ha (not_lt.1 hle)))

/-- **Elements are taken in increasing order.** -/
theorem sorted (h : Fits u₀ l u) : l.Pairwise (· > ·) := by
  induction h with
  | nil => exact .nil
  | grow _ _ ih => exact ih
  | take h hb ih => exact List.pairwise_cons.2 ⟨fun a ha => h.above subset_rfl hb ha, ih⟩

/-- **An element that is taken** was unused at the start, and is used from then on. -/
theorem fresh (h : Fits u₀ l u) (ha : a ∈ l) : a ∉ u₀ ∧ a ∈ u := by
  refine ⟨?_, h.filled ha Set.self_mem_Iic⟩
  induction h with
  | nil => cases ha
  | grow _ _ ih => exact ih ha
  | take h hb ih =>
    rcases List.mem_cons.1 ha with rfl | ha
    · exact fun hu => hb.1 (h.subset hu)
    · exact ih ha

/-- No more elements are taken than were unused. -/
theorem length_le (h : Fits u₀ l u) {free : List α} (hfree : ∀ a ∈ l, a ∉ u₀ → a ∈ free) :
    l.length ≤ free.length :=
  (List.subperm_of_subset (h.sorted.imp ne_of_gt) fun _ ha => hfree _ ha (h.fresh ha).1).length_le

/-- **What is unused shrinks by what is taken**, if nothing else is used. -/
theorem length_unused (h : Fits u₀ l u) (hu : ∀ a ∈ u, a ∈ u₀ ∨ a ∈ l) {p : α → Prop}
    (hl : ∀ a ∈ l, p a) {free₀ free : List α} (hn₀ : free₀.Nodup) (hn : free.Nodup)
    (h₀ : ∀ a, a ∈ free₀ ↔ p a ∧ a ∉ u₀) (hf : ∀ a, a ∈ free ↔ p a ∧ a ∉ u) :
    l.length + free.length = free₀.length := by
  have hdisj : l.Disjoint free := fun a ha hfree => ((hf a).1 hfree).2 (h.fresh ha).2
  have hnodup : (l ++ free).Nodup := List.Nodup.append (h.sorted.imp ne_of_gt) hn hdisj
  rw [← List.length_append]
  refine ((List.perm_ext_iff_of_nodup hnodup hn₀).2 fun a => ?_).length_eq
  rw [List.mem_append, hf, h₀]
  constructor
  · rintro (ha | ⟨hp, hnot⟩)
    · exact ⟨hl a ha, (h.fresh ha).1⟩
    · exact ⟨hp, fun hin => hnot (h.subset hin)⟩
  · rintro ⟨hp, hnot⟩
    by_cases hin : a ∈ u
    · exact .inl ((hu a hin).resolve_left hnot)
    · exact .inr ⟨hp, hin⟩

end Fits

end FirstFit
