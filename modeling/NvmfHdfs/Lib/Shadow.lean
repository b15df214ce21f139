/-
  Lists in which an element can hide the one after it.

  A reader goes through a list and sees its elements; after one that meets `p`
  it does not see the next (`visible p l`).  A hidden element hides nothing.

    - `not_both`: of two neighbours, the first of which meets `p`, one is hidden;
    - `forall_visible_iff`: what it takes that all elements but one stay
      visible, also where that one meets `p`.
-/
import Mathlib.Data.List.Nodup
import Mathlib.Tactic

namespace Shadow

variable {α : Type*} {p p' : α → Prop} [DecidablePred p] [DecidablePred p'] {l : List α}
  {x y z c : α}

/-- The elements that are seen. -/
def visible (p : α → Prop) [DecidablePred p] : List α → List α
  | [] => []
  | [x] => [x]
  | x :: y :: l => if p x then x :: visible p l else x :: visible p (y :: l)

theorem visible_sublist (p : α → Prop) [DecidablePred p] (l : List α) :
    (visible p l).Sublist l := by
  fun_induction visible p l with
  | case1 => exact List.Sublist.refl _
  | case2 => exact List.Sublist.refl _
  | case3 x y l hx ih => exact (ih.cons y).cons_cons x
  | case4 x y l hx ih => exact ih.cons_cons x

theorem visible_map {β : Type*} (f : β → α) (l : List β) :
    visible p (l.map f) = (visible (fun x => p (f x)) l).map f := by
  fun_induction visible (fun x => p (f x)) l with
  | case1 => rfl
  | case2 => rfl
  | case3 x y l hx ih => rw [List.map_cons, List.map_cons, visible, if_pos hx, ih, List.map_cons]
  | case4 x y l hx ih => rw [List.map_cons, List.map_cons, visible, if_neg hx, List.map_cons, ← ih,
      List.map_cons]

/-! ## Neighbours -/

theorem pair_infix_cons {a : α} :
    [x, y] <:+: a :: l ↔ x = a ∧ l.head? = some y ∨ [x, y] <:+: l := by
  rw [List.infix_cons_iff, List.cons_prefix_cons]
  cases l with
  | nil => simp
  | cons b l => simp [List.cons_prefix_cons, eq_comm]

theorem fst_mem (h : [x, y] <:+: l) : x ∈ l := h.subset (by simp)

theorem snd_mem (h : [x, y] <:+: l) : y ∈ l := h.subset (by simp)

theorem exists_getElem? (h : [x, y] <:+: l) : ∃ i, l[i]? = some x ∧ l[i + 1]? = some y := by
  induction l with
  | nil => simp at h
  | cons a l ih =>
    rcases pair_infix_cons.1 h with ⟨rfl, hy⟩ | h
    · exact ⟨0, rfl, by rw [← hy, List.head?_eq_getElem?]; rfl⟩
    · obtain ⟨i, hx, hy⟩ := ih h
      exact ⟨i + 1, hx, hy⟩

/-- Neighbours do not change places. -/
theorem not_swap (hnd : l.Nodup) (h : [x, y] <:+: l) : ¬ [y, x] <:+: l := by
  intro h'
  obtain ⟨i, hx, hy⟩ := exists_getElem? h
  obtain ⟨k, hy', hx'⟩ := exists_getElem? h'
  have hi : i < l.length := (List.getElem?_eq_some_iff.1 hx).1
  have hk : k < l.length := (List.getElem?_eq_some_iff.1 hy').1
  have h1 : i = k + 1 := (List.getElem?_inj hi hnd).1 (hx.trans hx'.symm)
  have h2 : k = i + 1 := (List.getElem?_inj hk hnd).1 (hy'.trans hy.symm)
  omega

theorem pair_ne (hnd : l.Nodup) (h : [x, y] <:+: l) : x ≠ y := by
  rintro rfl
  exact not_swap hnd h h

theorem mem_tail {a : α} (hnd : (a :: l).Nodup) (hx : x ∈ l) {l' : List α} (h : x ∈ a :: l') :
    x ∈ l' := by
  rcases List.mem_cons.1 h with rfl | h
  · exact absurd hx (List.nodup_cons.1 hnd).1
  · exact h

/-- **Of two neighbours**, the first of which meets `p`, one is hidden. -/
theorem not_both (hnd : l.Nodup) (h : [x, y] <:+: l) (hp : p x) :
    ¬ (x ∈ visible p l ∧ y ∈ visible p l) := by
  rintro ⟨hx, hy⟩
  fun_induction visible p l with
  | case1 => simp at h
  | case2 => simp [pair_infix_cons] at h
  | case3 a b l ha ih =>
    have hsub := (visible_sublist p l).subset
    obtain ⟨hnab, hnd'⟩ := List.nodup_cons.1 hnd
    obtain ⟨hnb, hnd''⟩ := List.nodup_cons.1 hnd'
    rcases pair_infix_cons.1 h with ⟨rfl, hb⟩ | h
    · -- the second is hidden by the first
      obtain rfl := Option.some.inj hb
      exact hnb (hsub (mem_tail hnd List.mem_cons_self hy))
    · rcases pair_infix_cons.1 h with ⟨rfl, -⟩ | h
      · exact hnb (hsub (mem_tail hnd List.mem_cons_self hx))
      · exact ih hnd'' h (mem_tail hnd (List.mem_cons_of_mem b (fst_mem h)) hx)
          (mem_tail hnd (List.mem_cons_of_mem b (snd_mem h)) hy)
  | case4 a b l ha ih =>
    rcases pair_infix_cons.1 h with ⟨rfl, -⟩ | h
    · exact ha hp
    · exact ih (List.nodup_cons.1 hnd).2 h (mem_tail hnd (fst_mem h) hx)
        (mem_tail hnd (snd_mem h) hy)

/-- A hidden element has a visible one before it that meets `p`. -/
theorem exists_of_notMem (hz : z ∈ l) (hn : z ∉ visible p l) :
    ∃ x ∈ visible p l, [x, z] <:+: l ∧ p x := by
  fun_induction visible p l with
  | case1 => cases hz
  | case2 => exact absurd hz hn
  | case3 a b l ha ih =>
    obtain ⟨hza, hn⟩ := not_or.1 (List.mem_cons.not.1 hn)
    rcases List.mem_cons.1 ((List.mem_cons.1 hz).resolve_left hza) with rfl | hz
    · exact ⟨a, List.mem_cons_self, pair_infix_cons.2 (.inl ⟨rfl, rfl⟩), ha⟩
    · obtain ⟨x, hx, hxz, hpx⟩ := ih hz hn
      exact ⟨x, List.mem_cons_of_mem a hx, List.infix_cons (List.infix_cons hxz), hpx⟩
  | case4 a b l ha ih =>
    obtain ⟨hza, hn⟩ := not_or.1 (List.mem_cons.not.1 hn)
    obtain ⟨x, hx, hxz, hpx⟩ := ih ((List.mem_cons.1 hz).resolve_left hza) hn
    exact ⟨x, List.mem_cons_of_mem a hx, List.infix_cons hxz, hpx⟩

/-! ## All but one -/

/-- Only `c` hides an element or is hidden, and it is hidden where it would hide one. -/
structure Harmless (p : α → Prop) (c : α) (l : List α) : Prop where
  others : ∀ x y, [x, y] <:+: l → p x → x = c ∨ y = c
  self : ∀ y, [c, y] <:+: l → p c → ∃ x, [x, c] <:+: l ∧ p x

/-- Every element but `c` is visible. -/
theorem Harmless.mem_visible (h : Harmless p c l) (hnd : l.Nodup) (hz : z ∈ l) (hc : z ≠ c) :
    z ∈ visible p l := by
  by_contra hn
  obtain ⟨x, hx, hxz, hpx⟩ := exists_of_notMem hz hn
  rcases h.others x z hxz hpx with rfl | rfl
  · -- the element before `x` hides it, as none hides that one
    obtain ⟨w, hwx, hpw⟩ := h.self z hxz hpx
    have hw : w ∈ visible p l := by
      by_contra hnw
      obtain ⟨v, -, hvw, hpv⟩ := exists_of_notMem (fst_mem hwx) hnw
      rcases h.others v w hvw hpv with rfl | rfl
      · exact not_swap hnd hwx hvw
      · exact pair_ne hnd hwx rfl
    exact not_both hnd hwx hpw ⟨hw, hx⟩
  · exact hc rfl

/-- The one element is hidden exactly if the one before it meets `p`. -/
theorem Harmless.mem_visible_iff (h : Harmless p c l) (hnd : l.Nodup) (hc : c ∈ l) :
    c ∈ visible p l ↔ ¬ ∃ x, [x, c] <:+: l ∧ p x := by
  constructor
  · rintro hv ⟨x, hx, hpx⟩
    exact not_both hnd hx hpx ⟨h.mem_visible hnd (fst_mem hx) (pair_ne hnd hx), hv⟩
  · intro hx
    by_contra hn
    obtain ⟨x, -, hxc, hpx⟩ := exists_of_notMem hc hn
    exact hx ⟨x, hxc, hpx⟩

omit [DecidablePred p] [DecidablePred p'] in
/-- Where `c` meets `p` as well. -/
theorem harmless_marked (hp' : ∀ x ∈ l, p' x ↔ p x ∨ x = c)
    (h1 : ∀ x y, [x, y] <:+: l → p x → x = c ∨ y = c)
    (h2 : ∀ y, [c, y] <:+: l → ∃ x, [x, c] <:+: l ∧ p x) : Harmless p' c l := by
  refine ⟨fun x y hxy hpx => ?_, fun y hcy _ => ?_⟩
  · rcases (hp' x (fst_mem hxy)).1 hpx with hpx | rfl
    · exact h1 x y hxy hpx
    · exact .inl rfl
  · obtain ⟨x, hxc, hpx⟩ := h2 y hcy
    exact ⟨x, hxc, (hp' x (fst_mem hxc)).2 (.inl hpx)⟩

/-- **All but `c` stay visible**, also where `c` meets `p`, exactly if only `c` hides one or is
    hidden, and `c` has none to hide or is hidden itself. -/
theorem forall_visible_iff (hnd : l.Nodup) (hp' : ∀ x ∈ l, p' x ↔ p x ∨ x = c) :
    (∀ z ∈ l, z ≠ c → z ∈ visible p l ∧ z ∈ visible p' l) ↔
      (∀ x y, [x, y] <:+: l → p x → x = c ∨ y = c) ∧
        ∀ y, [c, y] <:+: l → ∃ x, [x, c] <:+: l ∧ p x := by
  constructor
  · intro h
    refine ⟨fun x y hxy hpx => ?_, fun y hcy => ?_⟩
    · by_contra hne
      obtain ⟨hx, hy⟩ := not_or.1 hne
      exact not_both hnd hxy hpx ⟨(h x (fst_mem hxy) hx).1, (h y (snd_mem hxy) hy).1⟩
    · have hy := (h y (snd_mem hcy) (pair_ne hnd hcy).symm).2
      have hpc : p' c := (hp' c (fst_mem hcy)).2 (.inr rfl)
      have hc : c ∉ visible p' l := fun hc => not_both hnd hcy hpc ⟨hc, hy⟩
      obtain ⟨x, -, hxc, hpx⟩ := exists_of_notMem (fst_mem hcy) hc
      exact ⟨x, hxc, ((hp' x (fst_mem hxc)).1 hpx).resolve_right (pair_ne hnd hxc)⟩
  · rintro ⟨h1, h2⟩ z hz hne
    have h : Harmless p c l := ⟨h1, fun y hcy _ => h2 y hcy⟩
    exact ⟨h.mem_visible hnd hz hne, (harmless_marked hp' h1 h2).mem_visible hnd hz hne⟩

end Shadow
