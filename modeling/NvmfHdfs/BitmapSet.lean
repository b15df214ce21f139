/-
  The bitmap module as a finite set of indices.

  `bitmap.c` (the file systems) and `bitmap.cpp` (the client in `MFS`) hold the
  same code.  A sequence of calls with one `size` starts from `bitmap_init`; a
  set adds its index, an unset removes it, and an index from `size` on is out of
  range of every call.

    - `Represents`: the block of memory holds the set, in the bytes that
      `bitmap_init` allocates;
    - `Represents.step`: every call is inside the block and does to the set what
      its name says;
    - `bitmap_refines_set`: after any calls, of either copy.
-/
import NvmfHdfs.Bitmap

namespace Bitmap

open CInt

/-! ## The functions -/

/-- `bitmap_init`. -/
def bitmapInit (size : ℕ) : List UInt8 := List.replicate (size / 8 + 1) 0

/-- `bitmap_unset`: the byte it returns and the bitmap after it. -/
def bitmapUnset (index : ℕ) (p : List UInt8) (size : ℕ) : Option (UInt8 × List UInt8) :=
  if size ≤ index then some (0, p) else do
    let b ← p[index / 8]?
    let b' := b &&& ~~~ mask (index % 8)
    some (b', p.set (index / 8) b')

/-- The functions of a bitmap module. -/
structure Functions where
  bitmapInit : ℕ → List UInt8
  bitmapSet : ℕ → List UInt8 → ℕ → Option (UInt8 × List UInt8)
  bitmapUnset : ℕ → List UInt8 → ℕ → Option (UInt8 × List UInt8)
  bitmapGet : ℕ → List UInt8 → ℕ → Option ℕ

/-- `lisafuse/bitmap.c`. -/
def lisafuse : Functions := ⟨bitmapInit, bitmapSet, bitmapUnset, bitmapGet⟩

/-- `client/MFS/bitmap.cpp`: the same bodies. -/
def mfs : Functions := ⟨bitmapInit, bitmapSet, bitmapUnset, bitmapGet⟩

/-- The copies of the module. -/
inductive Copy where
  | lisafuse
  | mfs

/-- The functions of a copy. -/
def Copy.functions : Copy → Functions
  | lisafuse => Bitmap.lisafuse
  | mfs => Bitmap.mfs

/-! ## Calls -/

/-- A call, with its index. -/
inductive Op where
  | set (index : ℕ)
  | unset (index : ℕ)
  | get (index : ℕ)
deriving DecidableEq, Repr

/-- The index of a call. -/
def Op.index : Op → ℕ
  | set i | unset i | get i => i

/-- One call: what it returns and the bitmap after it. -/
def Functions.call (F : Functions) (size : ℕ) (p : List UInt8) : Op → Option (ℕ × List UInt8)
  | .set i => (F.bitmapSet i p size).map fun r => (r.1.toNat, r.2)
  | .unset i => (F.bitmapUnset i p size).map fun r => (r.1.toNat, r.2)
  | .get i => (F.bitmapGet i p size).map fun v => (v, p)

/-- Calls one after the other, all with one size: what they return and the bitmap at the end. -/
def Functions.calls (F : Functions) (size : ℕ) : List Op → List UInt8 → Option (List ℕ × List UInt8)
  | [], p => some ([], p)
  | op :: ops, p => do
    let (v, p) ← F.call size p op
    let (vs, p) ← F.calls size ops p
    some (v :: vs, p)

/-! ## The set -/

/-- What a call makes of a set of indices below `size`. -/
def Op.apply (size : ℕ) (A : Finset ℕ) : Op → Finset ℕ
  | set i => if i < size then insert i A else A
  | unset i => A.erase i
  | get _ => A

/-- The set after calls on the empty set. -/
def setOf (size : ℕ) (ops : List Op) : Finset ℕ := ops.foldl (Op.apply size) ∅

/-- The last set or unset of an index is a set. -/
def LastSet (i : ℕ) (ops : List Op) : Prop :=
  (ops.filter fun op => op = .set i ∨ op = .unset i).getLast? = some (.set i)

theorem mem_apply {size i : ℕ} {A : Finset ℕ} (op : Op) : i ∈ op.apply size A ↔
    op = .set i ∧ i < size ∨ op ≠ .unset i ∧ i ∈ A := by
  cases op with
  | set j =>
    rw [Op.apply]
    split_ifs with hj
    · simp only [Finset.mem_insert, Op.set.injEq]
      constructor
      · rintro (rfl | h)
        · exact .inl ⟨rfl, hj⟩
        · exact .inr ⟨nofun, h⟩
      · rintro (⟨rfl, -⟩ | ⟨-, h⟩)
        · exact .inl rfl
        · exact .inr h
    · simp only [Op.set.injEq]
      constructor
      · exact fun h => .inr ⟨nofun, h⟩
      · rintro (⟨rfl, hi⟩ | ⟨-, h⟩)
        · exact absurd hi hj
        · exact h
  | unset j => simp [Op.apply, eq_comm]
  | get j => simp [Op.apply]

theorem lastSet_append {i : ℕ} {ops : List Op} (op : Op) : LastSet i (ops ++ [op]) ↔
    op = .set i ∨ op ≠ .unset i ∧ LastSet i ops := by
  rw [LastSet, LastSet, List.filter_append]
  by_cases hs : op = .set i
  · simp [hs]
  · by_cases hu : op = .unset i
    · simp [hu]
    · simp [hs, hu]

/-- The set holds the indices in range whose last set or unset is a set. -/
theorem mem_setOf {size i : ℕ} (ops : List Op) : i ∈ setOf size ops ↔ i < size ∧ LastSet i ops := by
  induction ops using List.reverseRecOn with
  | nil => simp [setOf, LastSet]
  | append_singleton ops op ih =>
    rw [setOf, List.foldl_append, List.foldl_cons, List.foldl_nil, mem_apply, ← setOf, ih,
      lastSet_append]
    tauto

/-! ## The bitmap represents the set -/

variable {size i : ℕ} {p p' : List UInt8} {A : Finset ℕ}

/-- Clearing a bit of a byte under the complement of its mask. -/
theorem testBit_and_not_mask {b : UInt8} {r k : ℕ} (h : r < 8) (hk : k < 8) :
    (b &&& ~~~ mask r).toNat.testBit k = (b.toNat.testBit k && decide (r ≠ k)) := by
  have hm : (~~~ mask r).toNat.testBit k = decide (r ≠ k) := by
    interval_cases r <;> interval_cases k <;> rfl
  rw [UInt8.toNat_and, Nat.testBit_and, hm]

/-- Replacing one byte changes the bits in it. -/
theorem bit_set {b : UInt8} {j k : ℕ} (h : j / 8 < p.length) : bit (p.set (j / 8) b) k =
    if k / 8 = j / 8 then b.toNat.testBit (k % 8) else bit p k := by
  unfold bit
  split_ifs with hk
  · rw [hk, List.getElem?_set_self h, Option.getD_some]
  · rw [List.getElem?_set_ne (Ne.symm hk)]

/-- `bitmap_unset` clears the one bit. -/
theorem bitmapUnset_eq (h : i / 8 < p.length) (hi : i < size) : ∃ b p',
    bitmapUnset i p size = some (b, p') ∧ p'.length = p.length ∧
      ∀ j, bit p' j = (bit p j && decide (i ≠ j)) := by
  have hget := List.getElem?_eq_getElem h
  refine ⟨_, _, by rw [bitmapUnset, if_neg (by omega), bind_of_eq_some hget], List.length_set, ?_⟩
  intro j
  rw [bit_set h]
  split_ifs with hj
  · rw [testBit_and_not_mask (Nat.mod_lt _ (by decide)) (Nat.mod_lt _ (by decide)), bit, hj, hget,
      Option.getD_some]
    congr 2
    exact propext ⟨fun h => by omega, fun h => by omega⟩
  · have hne : i ≠ j := by rintro rfl; exact hj rfl
    simp [hne]

/-- The block of memory of a set of indices below `size`. -/
structure Represents (size : ℕ) (p : List UInt8) (A : Finset ℕ) : Prop where
  length : p.length = size / 8 + 1
  mem : ∀ i, i ∈ A ↔ i < size ∧ bit p i = true

theorem represents_init (size : ℕ) : Represents size (bitmapInit size) ∅ := by
  refine ⟨List.length_replicate, fun i => ?_⟩
  have hbit : bit (bitmapInit size) i = false := by
    rw [bit, bitmapInit, List.getElem?_replicate]
    split_ifs
    · simp
    · simp
  simp [hbit]

namespace Represents
variable (R : Represents size p A)
include R

theorem byte_lt (hi : i < size) : i / 8 < p.length := by
  rw [R.length]; omega

/-- `bitmap_set` adds the index. -/
theorem set (i : ℕ) : ∃ b p', bitmapSet i p size = some (b, p') ∧
    Represents size p' ((Op.set i).apply size A) ∧ (size ≤ i → p' = p) := by
  rcases Nat.lt_or_ge i size with hi | hi
  · have hsome : (bitmapSet i p size).isSome := bitmapSet_isSome (R.byte_lt hi)
    obtain ⟨⟨b, p'⟩, hset⟩ := Option.isSome_iff_exists.1 hsome
    obtain ⟨-, hlen, hbit⟩ := bitmapSet_eq_some hi hset
    refine ⟨b, p', hset, ⟨hlen.trans R.length, fun j => ?_⟩, fun h => absurd h (by omega)⟩
    rw [Op.apply, if_pos hi, Finset.mem_insert, R.mem, hbit, Bool.or_eq_true, decide_eq_true_eq]
    constructor
    · rintro (rfl | ⟨hj, hb⟩)
      · exact ⟨hi, .inr rfl⟩
      · exact ⟨hj, .inl hb⟩
    · rintro ⟨hj, hb | rfl⟩
      · exact .inr ⟨hj, hb⟩
      · exact .inl rfl
  · refine ⟨0, p, by rw [bitmapSet, if_pos hi], ?_, fun _ => rfl⟩
    rw [Op.apply, if_neg (by omega)]
    exact R

/-- `bitmap_unset` removes the index. -/
theorem unset (i : ℕ) : ∃ b p', bitmapUnset i p size = some (b, p') ∧
    Represents size p' ((Op.unset i).apply size A) ∧ (size ≤ i → p' = p) := by
  rcases Nat.lt_or_ge i size with hi | hi
  · obtain ⟨b, p', hunset, hlen, hbit⟩ := bitmapUnset_eq (R.byte_lt hi) hi
    refine ⟨b, p', hunset, ⟨hlen.trans R.length, fun j => ?_⟩, fun h => absurd h (by omega)⟩
    rw [Op.apply, Finset.mem_erase, R.mem, hbit, Bool.and_eq_true, decide_eq_true_eq]
    constructor
    · rintro ⟨hne, hj, hb⟩
      exact ⟨hj, hb, hne.symm⟩
    · rintro ⟨hj, hb, hne⟩
      exact ⟨hne.symm, hj, hb⟩
  · refine ⟨0, p, by rw [bitmapUnset, if_pos hi], ?_, fun _ => rfl⟩
    have hmem : i ∉ A := fun h => by
      have := ((R.mem i).1 h).1
      omega
    rw [Op.apply, Finset.erase_eq_of_notMem hmem]
    exact R

/-- `bitmap_get` tells membership. -/
theorem get (i : ℕ) : bitmapGet i p size = some (if i ∈ A then 1 else 0) := by
  rcases Nat.lt_or_ge i size with hi | hi
  · rw [bitmapGet_eq (R.byte_lt hi)]
    simp only [R.mem]
  · have hmem : i ∉ A := fun h => by
      have := ((R.mem i).1 h).1
      omega
    rw [bitmapGet, if_pos hi, if_neg hmem]

/-- **A call of either copy** stays inside the block and does to the set what its name says. -/
theorem step (copy : Copy) (op : Op) : ∃ v p', copy.functions.call size p op = some (v, p') ∧
    Represents size p' (op.apply size A) ∧ (size ≤ op.index → p' = p) ∧
      ∀ i, op = .get i → p' = p ∧ v = if i ∈ A then 1 else 0 := by
  have hcall : copy.functions = lisafuse := by cases copy <;> rfl
  rw [hcall]
  cases op with
  | set i =>
    obtain ⟨b, p', h, hR, hsame⟩ := R.set i
    exact ⟨_, p', congrArg (Option.map _) h, hR, hsame, by rintro _ ⟨⟩⟩
  | unset i =>
    obtain ⟨b, p', h, hR, hsame⟩ := R.unset i
    exact ⟨_, p', congrArg (Option.map _) h, hR, hsame, by rintro _ ⟨⟩⟩
  | get i =>
    refine ⟨_, p, congrArg (Option.map _) (R.get i), R, fun _ => rfl, ?_⟩
    rintro j ⟨⟩
    exact ⟨rfl, rfl⟩

/-- Calls one after the other. -/
theorem calls (copy : Copy) (ops : List Op) : ∃ vs p', copy.functions.calls size ops p =
    some (vs, p') ∧ Represents size p' (ops.foldl (Op.apply size) A) := by
  induction ops generalizing p A with
  | nil => exact ⟨[], p, rfl, R⟩
  | cons op ops ih =>
    obtain ⟨v, p₁, hcall, R₁, -⟩ := R.step copy op
    obtain ⟨vs, p', hcalls, R'⟩ := ih R₁
    refine ⟨v :: vs, p', ?_, R'⟩
    rw [Functions.calls, bind_of_eq_some hcall]
    dsimp only
    rw [bind_of_eq_some hcalls]

end Represents

/-- **The bitmap module refines a finite set.**  After any calls from `bitmap_init`, of either
    copy, the block is the one allocated, the next call stays inside it, one with an index out
    of range changes nothing, and `bitmap_get` returns 1 exactly for an index in range whose
    last set or unset was a set. -/
theorem bitmap_refines_set (copy : Copy) (size : ℕ) (ops : List Op) (op : Op) :
    ∃ vs p v p', copy.functions.calls size ops (copy.functions.bitmapInit size) = some (vs, p) ∧
      copy.functions.call size p op = some (v, p') ∧
      p.length = (copy.functions.bitmapInit size).length ∧ p'.length = p.length ∧
      (size ≤ op.index → p' = p) ∧
      ∀ i, op = .get i → p' = p ∧ (v = 1 ↔ i < size ∧ LastSet i ops) ∧ (v = 0 ∨ v = 1) := by
  have hinit : copy.functions.bitmapInit = bitmapInit := by cases copy <;> rfl
  rw [hinit]
  obtain ⟨vs, p, hcalls, R⟩ := (represents_init size).calls copy ops
  obtain ⟨v, p', hcall, R', hsame, hget⟩ := R.step copy op
  refine ⟨vs, p, v, p', hcalls, hcall, R.length.trans (represents_init size).length.symm,
    R'.length.trans R.length.symm, hsame, ?_⟩
  rintro i rfl
  obtain ⟨hp, hv⟩ := hget i rfl
  rw [hv, ← mem_setOf, setOf]
  refine ⟨hp, ?_, ?_⟩
  · split_ifs with h
    · simp [h]
    · simp [h]
  · split_ifs
    · exact .inr rfl
    · exact .inl rfl

end Bitmap
