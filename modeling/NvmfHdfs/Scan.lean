/-
  The two scans of the bitmap module: `bitmap_availableblockid` collects free
  slots for an allocation, `bitmap_usedblockid` the used ones.

  Both copies of the module (`lisafuse` and the client in `MFS`) hold the same
  bodies.  A bitmap of `size` slots is a block of at least `size` bits.

    - `bitmapAvailableblockid_pos`: a request of at least one slot gets the first
      clear indices; the request is met by an exit tested after the store, so a
      request of none gets all of them (`bitmapAvailableblockid_zero`);
    - `bitmapUsedblockid_eq`: the used scan lists the set indices, as long as the
      byte length of its list is an `int`;
    - `calls_set`: setting the indices of a list adds exactly these.
-/
import Mathlib.Data.List.Sort
import NvmfHdfs.BitmapSet

namespace Bitmap

open CInt

/-! ## The functions of the copies -/

/-- The scans of a bitmap module. -/
structure Scans where
  bitmapUsedblockid : List UInt8 → ℕ → ℕ → ℕ → Option (List ℤ × ℕ)
  bitmapAvailableblockid : ℕ → ℕ → List UInt8 → Option (List ℕ)

/-- `lisafuse/bitmap.c`. -/
def lisafuseScans : Scans := ⟨bitmapUsedblockid, bitmapAvailableblockid⟩

/-- `client/MFS/bitmap.cpp`: the same bodies. -/
def mfsScans : Scans := ⟨bitmapUsedblockid, bitmapAvailableblockid⟩

/-- The scans of a copy. -/
def Copy.scans : Copy → Scans
  | lisafuse => lisafuseScans
  | mfs => mfsScans

@[simp] theorem Copy.scans_used (c : Copy) :
    c.scans.bitmapUsedblockid = Bitmap.bitmapUsedblockid := by cases c <;> rfl

@[simp] theorem Copy.scans_available (c : Copy) :
    c.scans.bitmapAvailableblockid = Bitmap.bitmapAvailableblockid := by cases c <;> rfl

/-! ## Free slots -/

variable {p p' : List UInt8} {size n i : ℕ}

/-- The clear indices below `size`, in order. -/
def clears (p : List UInt8) (size : ℕ) : List ℕ := (List.range size).filter fun i => !bit p i

theorem clears_eq (p : List UInt8) (size : ℕ) : clears p size = clearFrom p 0 size := by
  rw [clears, clearFrom, List.range_eq_range']

@[simp] theorem mem_clears : i ∈ clears p size ↔ i < size ∧ bit p i = false := by
  simp [clears]

theorem pairwise_clears (p : List UInt8) (size : ℕ) : (clears p size).Pairwise (· < ·) :=
  List.pairwise_lt_range.filter _

theorem length_clears_le (p : List UInt8) (size : ℕ) : (clears p size).length ≤ size :=
  (List.length_filter_le _ _).trans_eq List.length_range

/-- A slot of the bitmap is in a byte of it. -/
theorem byte_lt (h : size ≤ 8 * p.length) (hi : i < size) : i / 8 < p.length := by omega

theorem scanFree_some (h : size ≤ 8 * p.length) (k i index : ℕ) (hk : i + k ≤ size) :
    ∃ l, scanFree p size n k i index = some l :=
  Option.isSome_iff_exists.1 (scanFree_isSome size n k i index fun _ _ hj => byte_lt h (by omega))

/-- A request of at least one slot gets the first clear indices. -/
theorem bitmapAvailableblockid_pos (h : size ≤ 8 * p.length) (hn : n ≠ 0) :
    bitmapAvailableblockid n size p = some ((clears p size).take n) := by
  obtain ⟨l, hl⟩ := scanFree_some (n := n) h size 0 0 (by omega)
  rw [bitmapAvailableblockid, hl, scanFree_eq_some (by omega) (by omega) hl, clears_eq,
    Nat.sub_zero]

/-- Past a request of none, the exit is never taken. -/
theorem scanFree_zero {k index : ℕ} {l : List ℕ} (hk : i + k ≤ size) (hindex : index ≠ 0)
    (h : scanFree p size 0 k i index = some l) : l = clearFrom p i k := by
  induction k generalizing i index l with
  | zero => simpa [scanFree, clearFrom] using h.symm
  | succ k ih =>
    simp only [scanFree, Option.bind_eq_bind, Option.bind_eq_some_iff] at h
    obtain ⟨g, hg, h⟩ := h
    obtain ⟨-, rfl⟩ := bitmapGet_eq_some (by omega) hg
    rw [clearFrom, List.range'_succ, List.filter_cons]
    cases hb : bit p i
    · simp only [hb, Bool.false_eq_true, if_false, if_true, Nat.add_one_ne_zero] at h
      obtain ⟨l', hl', h⟩ := Option.bind_eq_some_iff.1 h
      rw [← Option.some.inj h, ih (by omega) (by omega) hl']
      simp [clearFrom]
    · simp only [hb, if_true, Nat.one_ne_zero, if_false, hindex] at h
      rw [ih (by omega) hindex h]
      simp [clearFrom]

/-- A request of none stops at once where the first slot is used; else it gets every clear
    index. -/
theorem bitmapAvailableblockid_zero (h : size ≤ 8 * p.length) (hs : size ≠ 0) :
    bitmapAvailableblockid 0 size p = some (if bit p 0 then [] else clears p size) := by
  obtain ⟨k, rfl⟩ := Nat.exists_eq_succ_of_ne_zero hs
  rw [bitmapAvailableblockid, scanFree, bind_of_eq_some (bitmapGet_eq (byte_lt h (by omega)))]
  cases hb : bit p 0
  · obtain ⟨l, hl⟩ := scanFree_some (n := 0) h k 1 1 (by omega)
    have hclear := scanFree_zero (by omega) Nat.one_ne_zero hl
    rw [clears_eq, clearFrom, List.range'_succ, List.filter_cons]
    simp [hb, hl, hclear, clearFrom]
  · simp

/-- What an allocation of `n` slots is to store: as many clear indices as there are, up to `n`,
    the least ones in order. -/
structure Allocates (p : List UInt8) (n size : ℕ) (l : List ℕ) : Prop where
  length : l.length = min n (clears p size).length
  sorted : l.Pairwise (· < ·)
  clear : ∀ i ∈ l, i < size ∧ bit p i = false
  least : ∀ i ∈ l, ∀ j < i, bit p j = false → j ∈ l

theorem allocates_take (p : List UInt8) (n size : ℕ) :
    Allocates p n size ((clears p size).take n) where
  length := List.length_take
  sorted := (pairwise_clears p size).take
  clear i hi := mem_clears.1 (List.mem_of_mem_take hi)
  least i hi j hj hb := by
    -- `j` is in the list, and what is beyond the first `n` is larger than `i`
    have hi' := (mem_clears.1 (List.mem_of_mem_take hi)).1
    have hmem : j ∈ clears p size := mem_clears.2 ⟨hj.trans hi', hb⟩
    rw [← List.take_append_drop n (clears p size), List.mem_append] at hmem
    refine hmem.resolve_right fun hdrop => ?_
    have hsplit := pairwise_clears p size
    rw [← List.take_append_drop n (clears p size), List.pairwise_append] at hsplit
    exact absurd (hsplit.2.2 i hi j hdrop) (by omega)

/-- **The allocation scan** stores what it is to store exactly if it is asked for at least one
    slot, has no slots to look at, or finds the first one used. -/
theorem available_allocates_iff (c : Copy) (h : size ≤ 8 * p.length) :
    (∃ l, c.scans.bitmapAvailableblockid n size p = some l ∧ Allocates p n size l) ↔
      n ≠ 0 ∨ size = 0 ∨ bit p 0 = true := by
  rw [Copy.scans_available]
  have hnil : Allocates p 0 size [] := by simpa using allocates_take p 0 size
  by_cases hn : n = 0
  · subst hn
    rcases Nat.eq_zero_or_pos size with rfl | hs
    · simpa [bitmapAvailableblockid, scanFree] using hnil
    rw [bitmapAvailableblockid_zero h (by omega)]
    constructor
    · rintro ⟨l, hl, A⟩
      have hlen : l = [] := by simpa using A.length
      refine .inr (.inr ?_)
      by_contra hb
      rw [if_neg hb, hlen, Option.some.injEq] at hl
      have h0 : 0 ∈ clears p size := mem_clears.2 ⟨hs, by simpa using hb⟩
      simp [hl] at h0
    · rintro (hn | hs' | hb)
      · exact absurd rfl hn
      · omega
      · exact ⟨[], by rw [if_pos hb], hnil⟩
  · simp only [ne_eq, hn, not_false_eq_true, true_or, iff_true]
    exact ⟨_, bitmapAvailableblockid_pos h hn, allocates_take p n size⟩

/-- A request of two slots with the second one used. -/
theorem available_allocates_iff_two : ∃ l,
    Copy.mfs.scans.bitmapAvailableblockid 2 5 [2] = some l ∧ Allocates [2] 2 5 l :=
  (available_allocates_iff .mfs (by decide)).2 (.inl (by decide))

/-- A request of none on one free slot stores its index and returns 1. -/
theorem available_none_stores :
    ¬ ∃ l, Copy.lisafuse.scans.bitmapAvailableblockid 0 1 [0] = some l ∧ Allocates [0] 0 1 l := by
  rintro ⟨l, hl, A⟩
  have hl0 : l = [0] := Option.some.inj (hl.symm.trans rfl)
  have hlen := A.length
  rw [hl0] at hlen
  simp at hlen

/-! ## Used slots -/

/-- The set indices below `size`, in order. -/
def sets (p : List UInt8) (size : ℕ) : List ℕ := (List.range size).filter (bit p)

@[simp] theorem mem_sets : i ∈ sets p size ↔ i < size ∧ bit p i = true := by
  simp [sets]

theorem pairwise_sets (p : List UInt8) (size : ℕ) : (sets p size).Pairwise (· < ·) :=
  List.pairwise_lt_range.filter _

theorem length_sets_le (p : List UInt8) (size : ℕ) : (sets p size).length ≤ size :=
  (List.length_filter_le _ _).trans_eq List.length_range

/-- The list of the used slots, filled up with `-1`. -/
def usedList (p : List UInt8) (size : ℕ) : List ℤ :=
  (sets p size).map Nat.cast ++ List.replicate (size - (sets p size).length) (-1)

/-- The used scan lists the set indices, as long as the byte length of its list is an `int`. -/
theorem bitmapUsedblockid_eq (h : size ≤ 8 * p.length) :
    bitmapUsedblockid p size 0 size =
      if size < 2 ^ 29 then some (usedList p size, (sets p size).length) else none := by
  rw [bitmapUsedblockid, Nat.sub_zero]
  split_ifs with h1 h2
  · obtain ⟨l, hl⟩ := Option.isSome_iff_exists.1
      (scanUsed_isSome (p := p) size (k := size) (i := 0) fun j _ h2 => byte_lt h (by omega))
    obtain ⟨hsets, -⟩ := scanUsed_eq_some (by omega) hl
    rw [← List.range_eq_range'] at hsets
    rw [bind_of_eq_some hl, hsets]
    rfl
  · omega
  · omega
  · rfl

theorem take_usedList (p : List UInt8) (size : ℕ) :
    (usedList p size).take (sets p size).length = (sets p size).map Nat.cast := by
  rw [usedList, List.take_append_of_le_length (by simp), List.take_of_length_le (by simp)]

/-- The lists of the two scans share out the slots. -/
structure Partition (size : ℕ) (used : List ℤ) (len : ℕ) (free : List ℕ) : Prop where
  length : used.length = size
  len_le : len ≤ size
  usedSorted : (used.take len).Pairwise (· < ·)
  freeSorted : free.Pairwise (· < ·)
  disjoint : ∀ i ∈ free, (i : ℤ) ∉ used.take len
  covers : ∀ x : ℤ, (x ∈ used.take len ∨ ∃ i ∈ free, x = i) ↔ 0 ≤ x ∧ x < size
  rest : ∀ x ∈ used.drop len, x = -1

theorem partition_scans (p : List UInt8) (size : ℕ) :
    Partition size (usedList p size) (sets p size).length (clears p size) where
  length := by
    have := length_sets_le p size
    simp [usedList]; omega
  len_le := length_sets_le p size
  usedSorted := by
    rw [take_usedList, List.pairwise_map]
    exact (pairwise_sets p size).imp Int.ofNat_lt.2
  freeSorted := pairwise_clears p size
  disjoint i hi := by
    rw [take_usedList, List.mem_map]
    rintro ⟨j, hj, hji⟩
    rw [Int.ofNat_inj.1 hji, mem_sets] at hj
    simp [(mem_clears.1 hi).2] at hj
  covers x := by
    rw [take_usedList, List.mem_map]
    constructor
    · rintro (⟨i, hi, rfl⟩ | ⟨i, hi, rfl⟩)
      · exact ⟨by omega, by exact_mod_cast (mem_sets.1 hi).1⟩
      · exact ⟨by omega, by exact_mod_cast (mem_clears.1 hi).1⟩
    · rintro ⟨h0, hx⟩
      obtain ⟨i, rfl⟩ := Int.eq_ofNat_of_zero_le h0
      have hi : i < size := by exact_mod_cast hx
      cases hb : bit p i
      · exact .inr ⟨i, mem_clears.2 ⟨hi, hb⟩, rfl⟩
      · exact .inl ⟨i, mem_sets.2 ⟨hi, hb⟩, rfl⟩
  rest x hx := by
    rw [usedList, List.drop_append_of_le_length (by simp), List.drop_of_length_le (by simp)] at hx
    exact List.eq_of_mem_replicate (by simpa using hx)

/-! ## After an allocation -/

/-- Setting the indices of a list, one call after the other, adds exactly these. -/
theorem calls_set (c : Copy) (l : List ℕ) (h : size ≤ 8 * p.length) (hl : ∀ i ∈ l, i < size) :
    ∃ vs p', c.functions.calls size (l.map Op.set) p = some (vs, p') ∧ p'.length = p.length ∧
      ∀ j, bit p' j = (bit p j || decide (j ∈ l)) := by
  induction l generalizing p with
  | nil => exact ⟨[], p, rfl, rfl, by simp⟩
  | cons i l ih =>
    have hi : i < size := hl i (by simp)
    have hsome : (bitmapSet i p size).isSome := bitmapSet_isSome (byte_lt h hi)
    obtain ⟨⟨b, p₁⟩, hset⟩ := Option.isSome_iff_exists.1 hsome
    obtain ⟨-, hlen, hbit⟩ := bitmapSet_eq_some hi hset
    obtain ⟨vs, p', hcalls, hlen', hbit'⟩ := ih (p := p₁) (by omega) fun j hj => hl j (by simp [hj])
    have hcall : c.functions.call size p (.set i) = some (b.toNat, p₁) := by
      cases c <;> exact congrArg (Option.map _) hset
    refine ⟨b.toNat :: vs, p', ?_, hlen'.trans hlen, fun j => ?_⟩
    · rw [List.map_cons, Functions.calls, bind_of_eq_some hcall]
      dsimp only
      rw [bind_of_eq_some hcalls]
    · rw [hbit', hbit]
      simp [Bool.or_assoc]

/-- The used indices after clear indices were set are the old ones merged with these. -/
theorem sets_merge {l : List ℕ} (hl : l.Pairwise (· < ·)) (hclear : ∀ i ∈ l, i ∈ clears p size)
    (hbit : ∀ j, bit p' j = (bit p j || decide (j ∈ l))) :
    sets p' size = List.merge (sets p size) l (· ≤ ·) := by
  have hle : ∀ {l : List ℕ}, l.Pairwise (· < ·) → l.Pairwise (· ≤ ·) := fun h => h.imp Nat.le_of_lt
  have hnodup : (sets p size ++ l).Nodup := by
    rw [List.nodup_append']
    refine ⟨(pairwise_sets p size).nodup, hl.nodup, fun i hs hi => ?_⟩
    simp [(mem_clears.1 (hclear i hi)).2] at hs
  have hperm : (sets p' size).Perm (sets p size ++ l) := by
    rw [List.perm_ext_iff_of_nodup (pairwise_sets p' size).nodup hnodup]
    intro i
    rw [mem_sets, hbit, List.mem_append, mem_sets, Bool.or_eq_true, decide_eq_true_eq]
    constructor
    · rintro ⟨hi, hb | hmem⟩
      · exact .inl ⟨hi, hb⟩
      · exact .inr hmem
    · rintro (⟨hi, hb⟩ | hmem)
      · exact ⟨hi, .inl hb⟩
      · exact ⟨(mem_clears.1 (hclear i hmem)).1, .inr hmem⟩
  exact (hperm.trans (List.merge_perm_append _).symm).eq_of_pairwise' (hle (pairwise_sets p' size))
    ((hle (pairwise_sets p size)).merge (hle hl))

theorem clears_filter {l : List ℕ} (hbit : ∀ j, bit p' j = (bit p j || decide (j ∈ l))) :
    clears p' size = (clears p size).filter (· ∉ l) := by
  rw [clears, clears, List.filter_filter]
  refine List.filter_congr fun j _ => ?_
  rw [hbit, Bool.not_or, Bool.and_comm, decide_not]

/-- The scans share out the slots, and after the slots of any allocation were set they do so
    again: the new slots have been merged into the used ones and taken out of the free ones, and
    every other bit is as before. -/
def ScansAgree (c : Copy) (p : List UInt8) (size : ℕ) : Prop :=
  ∃ used len free, c.scans.bitmapUsedblockid p size 0 size = some (used, len) ∧
    c.scans.bitmapAvailableblockid size size p = some free ∧ Partition size used len free ∧
    ∀ n, 1 ≤ n → n ≤ size → ∃ new vs p' used' len' free',
      c.scans.bitmapAvailableblockid n size p = some new ∧
      c.functions.calls size (new.map Op.set) p = some (vs, p') ∧
      c.scans.bitmapUsedblockid p' size 0 size = some (used', len') ∧
      c.scans.bitmapAvailableblockid size size p' = some free' ∧
      Partition size used' len' free' ∧
      used'.take len' = List.merge (used.take len) (new.map Nat.cast) (· ≤ ·) ∧
      free' = free.filter (· ∉ new) ∧ ∀ i ∉ new, bit p' i = bit p i

/-- A request of as many slots as there are gets every clear one. -/
theorem bitmapAvailableblockid_all (h : size ≤ 8 * p.length) :
    bitmapAvailableblockid size size p = some (clears p size) := by
  rcases Nat.eq_zero_or_pos size with rfl | hs
  · rfl
  · rw [bitmapAvailableblockid_pos h (by omega), List.take_of_length_le (length_clears_le p size)]

/-- **The scans agree** on every bitmap exactly if the byte length of the used list is an `int`. -/
theorem scans_agree_iff (c : Copy) (h : size ≤ 8 * p.length) :
    ScansAgree c p size ↔ size < 2 ^ 29 := by
  unfold ScansAgree
  simp only [Copy.scans_used, Copy.scans_available]
  constructor
  · rintro ⟨used, len, free, hused, -⟩
    rw [bitmapUsedblockid_eq h] at hused
    by_contra hs
    rw [if_neg hs] at hused
    cases hused
  · intro hs
    refine ⟨_, _, _, by rw [bitmapUsedblockid_eq h, if_pos hs], bitmapAvailableblockid_all h,
      partition_scans p size, fun n hn hns => ?_⟩
    have A := allocates_take p n size
    obtain ⟨vs, p', hcalls, hlen, hbit⟩ := calls_set c _ h fun i hi => (A.clear i hi).1
    have h' : size ≤ 8 * p'.length := by omega
    refine ⟨_, vs, p', _, _, _, bitmapAvailableblockid_pos h (by omega), hcalls,
      by rw [bitmapUsedblockid_eq h', if_pos hs], bitmapAvailableblockid_all h',
      partition_scans p' size, ?_, clears_filter hbit, fun i hi => by simp [hbit, hi]⟩
    rw [take_usedList, take_usedList, sets_merge A.sorted (fun i => List.mem_of_mem_take) hbit]
    exact List.map_merge (by simp)

theorem scans_agree_iff_five : ScansAgree .mfs [2] 5 :=
  (scans_agree_iff .mfs (by decide)).2 (by decide)

/-- From `2 ^ 29` slots on, the used scan writes past the memory it asked for. -/
theorem scans_disagree : ¬ ScansAgree .lisafuse (List.replicate (2 ^ 26) 0) (2 ^ 29) := by
  rintro ⟨used, len, free, hused, -⟩
  have hnone : bitmapUsedblockid (List.replicate (2 ^ 26) 0) (2 ^ 29) 0 (2 ^ 29) = none :=
    if_neg (by norm_num)
  rw [Copy.scans_used, hnone] at hused
  cases hused

end Bitmap
