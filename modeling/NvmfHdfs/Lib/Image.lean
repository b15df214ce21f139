/-
  Byte images: what a block device holds, as a function from addresses to bytes.

  `slice m p n` are the `n` bytes from address `p`, `patch m p bs` the image
  with `bs` stored there.  The lemmas say what a patch changes and what it
  leaves, and which of many patches a byte comes from; the last part is the
  little-endian encoding of unsigned integers.
-/
import Mathlib.Tactic

/-- A byte image. -/
abbrev Image := ℕ → UInt8

namespace Image

/-- The `n` bytes from address `p`. -/
def slice (m : Image) (p n : ℕ) : List UInt8 := (List.range n).map fun i => m (p + i)

/-- The image with the bytes `bs` stored from address `p`. -/
def patch (m : Image) (p : ℕ) (bs : List UInt8) : Image :=
  fun a => if p ≤ a then bs[a - p]?.getD (m a) else m a

@[simp] theorem length_slice (m : Image) (p n : ℕ) : (m.slice p n).length = n := by simp [slice]

theorem getElem?_slice (m : Image) (p n i : ℕ) :
    (m.slice p n)[i]? = if i < n then some (m (p + i)) else none := by
  unfold slice; split_ifs with h
  · simp [h]
  · simp; omega

/-- A slice inside a slice. -/
theorem slice_slice (m : Image) (p n k l : ℕ) (h : k + l ≤ n) :
    ((m.slice p n).drop k).take l = m.slice (p + k) l := by
  apply List.ext_getElem?; intro i
  rw [List.getElem?_take, List.getElem?_drop, getElem?_slice, getElem?_slice]
  split_ifs <;> first | rfl | (congr 2; omega)

theorem slice_congr {m m' : Image} {p n : ℕ} (h : ∀ a, p ≤ a → a < p + n → m a = m' a) :
    m.slice p n = m'.slice p n :=
  List.map_congr_left fun i hi => h _ (by omega) (by have := List.mem_range.1 hi; omega)

theorem slice_eq_iff {m m' : Image} {p n : ℕ} :
    m.slice p n = m'.slice p n ↔ ∀ a, p ≤ a → a < p + n → m a = m' a := by
  refine ⟨fun h a h1 h2 => ?_, slice_congr⟩
  have hi : (m.slice p n)[a - p]? = (m'.slice p n)[a - p]? := by rw [h]
  rw [getElem?_slice, getElem?_slice, if_pos (by omega), if_pos (by omega),
    Nat.add_sub_cancel' h1] at hi
  exact Option.some.inj hi

/-! ## What a patch changes -/

theorem patch_of_lt {m : Image} {p a : ℕ} {bs : List UInt8} (h : a < p) : m.patch p bs a = m a := by
  simp [patch, show ¬ p ≤ a by omega]

theorem patch_of_ge {m : Image} {p a : ℕ} {bs : List UInt8} (h : p + bs.length ≤ a) :
    m.patch p bs a = m a := by
  simp [patch, List.getElem?_eq_none (show bs.length ≤ a - p by omega)]

/-- A patch leaves every byte outside its range. -/
theorem patch_outside {m : Image} {p a : ℕ} {bs : List UInt8}
    (h : ¬ (p ≤ a ∧ a < p + bs.length)) : m.patch p bs a = m a := by
  rcases Nat.lt_or_ge a p with h' | h'
  · exact patch_of_lt h'
  · exact patch_of_ge (by omega)

theorem patch_add {m : Image} {p i : ℕ} {bs : List UInt8} (h : i < bs.length) :
    m.patch p bs (p + i) = bs[i] := by
  simp [patch, h]

/-- Reading back what was stored. -/
theorem slice_patch (m : Image) (p : ℕ) (bs : List UInt8) :
    (m.patch p bs).slice p bs.length = bs := by
  apply List.ext_getElem?; intro i
  rw [getElem?_slice]; split_ifs with h
  · rw [patch_add h, List.getElem?_eq_getElem h]
  · exact (List.getElem?_eq_none (by omega)).symm

theorem patch_nil (m : Image) (p : ℕ) : m.patch p [] = m := by
  funext a; exact patch_outside (by simp)

/-- Storing in two parts. -/
theorem patch_append (m : Image) (p : ℕ) (bs bs' : List UInt8) :
    m.patch p (bs ++ bs') = (m.patch p bs).patch (p + bs.length) bs' := by
  funext a
  unfold patch
  by_cases h1 : p ≤ a
  · by_cases h2 : p + bs.length ≤ a
    · rw [if_pos h1, if_pos h2, if_pos h1, List.getElem?_append_right (by omega),
        List.getElem?_eq_none (l := bs) (by omega), Option.getD_none, Nat.sub_sub]
    · rw [if_pos h1, if_neg h2, if_pos h1, List.getElem?_append_left (by omega)]
  · rw [if_neg h1, if_neg (by omega), if_neg h1]

/-- Storing elsewhere leaves a slice. -/
theorem slice_patch_disjoint {m : Image} {p q n : ℕ} {bs : List UInt8}
    (h : p + bs.length ≤ q ∨ q + n ≤ p) : (m.patch p bs).slice q n = m.slice q n :=
  slice_congr fun a h1 h2 => patch_outside (by omega)

/-! ## Many patches -/

/-- The image after the writes `ws` (an address and bytes each), in order. -/
def patches (m : Image) (ws : List (ℕ × List UInt8)) : Image :=
  ws.foldl (fun m w => m.patch w.1 w.2) m

/-- The byte at `a` of the last of the writes that reaches it. -/
def lastAt : List (ℕ × List UInt8) → ℕ → Option UInt8
  | [], _ => none
  | w :: ws, a => (lastAt ws a).or (if w.1 ≤ a then w.2[a - w.1]? else none)

theorem patches_apply (ws : List (ℕ × List UInt8)) (m : Image) (a : ℕ) :
    m.patches ws a = (lastAt ws a).getD (m a) := by
  induction ws generalizing m with
  | nil => rfl
  | cons w ws ih =>
    have hone : m.patch w.1 w.2 a = (if w.1 ≤ a then w.2[a - w.1]? else none).getD (m a) := by
      unfold patch; split_ifs <;> rfl
    rw [patches, List.foldl_cons, ← patches, ih, hone, lastAt]
    cases lastAt ws a <;> rfl

theorem patches_concat (m : Image) (ws : List (ℕ × List UInt8)) (p : ℕ) (bs : List UInt8) :
    m.patches (ws ++ [(p, bs)]) = (m.patches ws).patch p bs := by
  rw [patches, patches, List.foldl_append]; rfl

/-- Moving all writes by `q`. -/
theorem lastAt_shift (ws : List (ℕ × List UInt8)) (q x : ℕ) :
    lastAt (ws.map fun w => (q + w.1, w.2)) (q + x) = lastAt ws x := by
  induction ws with
  | nil => rfl
  | cons w ws ih =>
    rw [List.map_cons, lastAt, ih, lastAt]
    simp only [Nat.add_le_add_iff_left, Nat.add_sub_add_left]

/-- A write reaches the byte. -/
theorem exists_of_lastAt {ws : List (ℕ × List UInt8)} {a : ℕ} {v : UInt8}
    (h : lastAt ws a = some v) : ∃ w ∈ ws, w.1 ≤ a ∧ a < w.1 + w.2.length := by
  induction ws with
  | nil => cases h
  | cons w ws ih =>
    rw [lastAt] at h
    cases hl : lastAt ws a with
    | some v' =>
      obtain ⟨w', hw', hr⟩ := ih (hl.trans (by rw [hl] at h; exact h))
      exact ⟨w', List.mem_cons_of_mem _ hw', hr⟩
    | none =>
      rw [hl, Option.none_or] at h
      split_ifs at h with hle
      obtain ⟨hlt, -⟩ := List.getElem?_eq_some_iff.1 h
      exact ⟨w, List.mem_cons_self, hle, by omega⟩

/-- Two writes that do not meet. -/
def Apart (w w' : ℕ × List UInt8) : Prop :=
  w.1 + w.2.length ≤ w'.1 ∨ w'.1 + w'.2.length ≤ w.1

theorem Apart.symm {w w' : ℕ × List UInt8} (h : Apart w w') : Apart w' w := Or.symm h

/-- Of writes that do not meet, the one that reaches a byte gives it. -/
theorem lastAt_eq_some {ws : List (ℕ × List UInt8)} {a : ℕ} {v : UInt8} (hd : ws.Pairwise Apart) :
    lastAt ws a = some v ↔ ∃ w ∈ ws, w.1 ≤ a ∧ w.2[a - w.1]? = some v := by
  induction ws with
  | nil => simp [lastAt]
  | cons w ws ih =>
    obtain ⟨hw, hd⟩ := List.pairwise_cons.1 hd
    have ih := ih hd
    simp only [lastAt, List.mem_cons, exists_eq_or_imp]
    by_cases hr : w.1 ≤ a ∧ w.2[a - w.1]? = some v
    · have hnone : lastAt ws a = none := by
        cases hl : lastAt ws a with
        | none => rfl
        | some v' =>
          obtain ⟨w', hw', h1, h2⟩ := exists_of_lastAt hl
          obtain ⟨hlt, -⟩ := List.getElem?_eq_some_iff.1 hr.2
          have := hw w' hw'
          unfold Apart at this
          omega
      rw [hnone, Option.none_or, if_pos hr.1]
      exact ⟨fun h => .inl ⟨hr.1, h⟩, fun _ => hr.2⟩
    · rw [← ih]
      cases hl : lastAt ws a with
      | some v' => simp [hr]
      | none =>
        rw [Option.none_or]
        split_ifs with hle <;> simp_all

/-- **Writes that do not meet commute.** -/
theorem patches_perm {ws ws' : List (ℕ × List UInt8)} (m : Image) (hd : ws.Pairwise Apart)
    (hp : ws'.Perm ws) : m.patches ws' = m.patches ws := by
  have hd' : ws'.Pairwise Apart := (hp.pairwise_iff Apart.symm).2 hd
  funext a
  have hlast : lastAt ws' a = lastAt ws a := by
    refine Option.ext fun v => ?_
    rw [lastAt_eq_some hd', lastAt_eq_some hd]
    simp only [hp.mem_iff]
  rw [patches_apply, patches_apply, hlast]

/-- Each of many writes that do not meet is read back. -/
theorem slice_patches {ws : List (ℕ × List UInt8)} {w : ℕ × List UInt8} (m : Image)
    (hd : ws.Pairwise Apart) (hw : w ∈ ws) : (m.patches ws).slice w.1 w.2.length = w.2 := by
  apply List.ext_getElem?; intro i
  rw [getElem?_slice]
  split_ifs with hi
  · have hlast : lastAt ws (w.1 + i) = some w.2[i] :=
      (lastAt_eq_some hd).2 ⟨w, hw, Nat.le_add_right _ _, by rw [Nat.add_sub_cancel_left]; simp⟩
    rw [patches_apply, hlast, List.getElem?_eq_getElem hi]; rfl
  · exact (List.getElem?_eq_none (Nat.le_of_not_lt hi)).symm

/-- A byte that no write reaches is left. -/
theorem patches_outside {ws : List (ℕ × List UInt8)} {m : Image} {a : ℕ}
    (h : ∀ w ∈ ws, ¬ (w.1 ≤ a ∧ a < w.1 + w.2.length)) : m.patches ws a = m a := by
  have hnone : lastAt ws a = none := by
    cases hl : lastAt ws a with
    | none => rfl
    | some v =>
      obtain ⟨w, hw, hr⟩ := exists_of_lastAt hl
      exact absurd hr (h w hw)
  rw [patches_apply, hnone]; rfl

/-! ## Little-endian integers -/

/-- The `n` low bytes of `v`, least significant first. -/
def leBytes : ℕ → ℕ → List UInt8
  | 0, _ => []
  | n + 1, v => UInt8.ofNat (v % 256) :: leBytes n (v / 256)

/-- The value of a little-endian byte string. -/
def leValue : List UInt8 → ℕ
  | [] => 0
  | b :: bs => b.toNat + 256 * leValue bs

@[simp] theorem length_leBytes : ∀ n v, (leBytes n v).length = n
  | 0, _ => rfl
  | n + 1, v => by rw [leBytes, List.length_cons, length_leBytes n]

theorem leValue_leBytes : ∀ n v, leValue (leBytes n v) = v % 256 ^ n
  | 0, v => by simp [leBytes, leValue, Nat.mod_one]
  | n + 1, v => by
    have h : (UInt8.ofNat (v % 256)).toNat = v % 256 := by simp
    rw [leBytes, leValue, leValue_leBytes n, h, pow_succ, mul_comm (256 ^ n), Nat.mod_mul]

theorem leValue_lt : ∀ bs, leValue bs < 256 ^ bs.length
  | [] => by simp [leValue]
  | b :: bs => by
    have h1 := leValue_lt bs
    have h2 : b.toNat < 256 := b.toNat_lt
    rw [leValue, List.length_cons, pow_succ]; omega

theorem leBytes_leValue : ∀ bs, leBytes bs.length (leValue bs) = bs
  | [] => rfl
  | b :: bs => by
    have hb : b.toNat < 256 := b.toNat_lt
    have hmod : (b.toNat + 256 * leValue bs) % 256 = b.toNat := by omega
    have hdiv : (b.toNat + 256 * leValue bs) / 256 = leValue bs := by omega
    rw [List.length_cons, leBytes, leValue, hmod, hdiv, leBytes_leValue bs]
    simp

/-- Byte strings of one length are told apart by their values. -/
theorem leValue_inj {bs bs' : List UInt8} (hl : bs.length = bs'.length) :
    leValue bs = leValue bs' ↔ bs = bs' := by
  refine ⟨fun h => ?_, congrArg leValue⟩
  rw [← leBytes_leValue bs, ← leBytes_leValue bs', hl, h]

/-- The bytes of a field are kept by a patch exactly if the value in it is. -/
theorem field_kept_iff {m : Image} {p i n : ℕ} {bs : List UInt8} (h : i + n ≤ bs.length) :
    (∀ a, p + i ≤ a → a < p + i + n → m.patch p bs a = m a) ↔
      leValue ((bs.drop i).take n) = leValue (((m.slice p bs.length).drop i).take n) := by
  have hbs : (bs.drop i).take n = (m.patch p bs).slice (p + i) n := by
    rw [← slice_slice _ p bs.length i n h, slice_patch]
  rw [hbs, slice_slice _ _ _ _ _ h, leValue_inj (by simp), slice_eq_iff]

end Image
