/-
  The areas of a device, in the order of `hdfslowfs.h`:

    |-- sb --|-- bm --|-- bi --|-- path --|-- csm0 --|-- data0 --|-- csm1 --| ...

  * `Area.extent`: where an area starts and how long it is, as the macros and
    `lfs_open` compute it;
  * `areas_in_order`: on a device within `int` every area ends before the next
    one starts, so no two of them meet, and the records `lfs_release` stores lie
    in the `block_info` table.
-/
import NvmfHdfs.Geometry

namespace Layout

open CInt

/-- The areas: the metadata, and the two of each slot. -/
inductive Area where
  | superblock
  | bitmap
  | blockInfo
  | extraInfo
  | csm (slot : ℕ)
  | data (slot : ℕ)
deriving DecidableEq, Repr

namespace Area

/-- An area of a device with `n` slots. -/
def Valid (n : ℕ) : Area → Prop
  | csm i | data i => i < n
  | _ => True

/-- The place of an area in the order of the layout. -/
def place : Area → ℕ
  | superblock => 0
  | bitmap => 1
  | blockInfo => 2
  | extraInfo => 3
  | csm i => 2 * i + 4
  | data i => 2 * i + 5

/-- The start and the length of an area. -/
def extent (dev bs : ℕ) : Area → Option (ℕ × ℕ)
  | superblock => some (0, sizeofSuperBlock)
  | bitmap => (bitmapSize dev bs).map fun size => (bitmapOffset, size)
  | blockInfo => (infoOffset dev bs).map fun off => (off, blockNum dev bs * sizeofBlockInfo)
  | extraInfo => (extraOffset dev bs).map fun off => (off, blockNum dev bs * sizeofBlockExtraInfo)
  | csm i => (dataOffset dev bs).map fun off => (toU64 (off + i * bs : ℕ), 2 * mbSize)
  | data i => (dataOffset dev bs).map fun off =>
    (toU64 (off + i * bs + 2 * mbSize : ℕ), bs - 2 * mbSize)

/-- The start of an area, from the slot count. -/
def start (n bs : ℕ) : Area → ℕ
  | superblock => 0
  | bitmap => bitmapOffset
  | blockInfo => infoStart n
  | extraInfo => extraStart n
  | csm i => dataStart n + i * bs
  | data i => dataStart n + i * bs + 2 * mbSize

/-- The length of an area, from the slot count. -/
def length (n bs : ℕ) : Area → ℕ
  | superblock => sizeofSuperBlock
  | bitmap => bitmapBytes n
  | blockInfo => n * sizeofBlockInfo
  | extraInfo => n * sizeofBlockExtraInfo
  | csm _ => 2 * mbSize
  | data _ => bs - 2 * mbSize

/-- No two areas have the same place. -/
theorem place_inj {a b : Area} (h : a.place = b.place) : a = b := by
  cases a <;> cases b <;> simp only [place] at h <;> first | rfl | omega | (congr 1; omega)

end Area

namespace Untruncated
variable {dev bs : ℕ} (U : Untruncated dev bs)
include U

/-- The slots start and end below `2 ^ 33`. -/
theorem slot_lt {i : ℕ} (hi : i < blockNum dev bs) :
    dataStart (blockNum dev bs) + i * bs + bs < 2 ^ 34 := by
  have h1 := U.blockNum_mul_le
  have h2 := U.int
  have h3 := U.extraStart_lt
  have h4 := U.blockNum_lt
  have h5 : (i + 1) * bs ≤ blockNum dev bs * (bs + blockInfoSize) :=
    Nat.mul_le_mul hi (by omega)
  have h6 : dataStart (blockNum dev bs) < 2 ^ 33 := by
    unfold dataStart sizeofBlockExtraInfo; omega
  rw [Nat.succ_mul] at h5
  omega

/-- No macro overflows, and the areas are where the slot count says. -/
theorem extent_eq (hmb : 2 * mbSize ≤ bs) {a : Area} (ha : a.Valid (blockNum dev bs)) :
    a.extent dev bs = some (a.start (blockNum dev bs) bs, a.length (blockNum dev bs) bs) := by
  cases a with
  | superblock => rfl
  | bitmap => rw [Area.extent, U.bitmapSize_eq]; rfl
  | blockInfo => rw [Area.extent, U.infoOffset_eq]; rfl
  | extraInfo => rw [Area.extent, U.extraOffset_eq]; rfl
  | csm i =>
    have h := U.slot_lt ha
    rw [Area.extent, U.dataOffset_eq, Option.map_some, toU64_of_lt (by omega)]
    rfl
  | data i =>
    have h := U.slot_lt ha
    rw [Area.extent, U.dataOffset_eq, Option.map_some, toU64_of_lt (by omega)]
    rfl

end Untruncated

namespace Area
variable {n bs i : ℕ} {b : Area}

/-- The metadata areas start one after the other, and the slots behind them. -/
theorem metadata_le_start (n bs : ℕ) (b : Area) : (1 ≤ b.place → bitmapOffset ≤ b.start n bs) ∧
    (2 ≤ b.place → infoStart n ≤ b.start n bs) ∧ (3 ≤ b.place → extraStart n ≤ b.start n bs) ∧
    (4 ≤ b.place → dataStart n ≤ b.start n bs) := by
  have h1 := bitmap_before_info n
  have h2 := info_before_extra n
  have h3 := extra_before_data n
  cases b <;> simp only [place, start] <;> omega

/-- The areas after the csm area of a slot start at its end or later. -/
theorem data_le_start (hmb : 2 * mbSize ≤ bs) (h : 2 * i + 4 < b.place) :
    dataStart n + i * bs + 2 * mbSize ≤ b.start n bs := by
  cases b with
  | csm j =>
    simp only [place, start] at *
    have hmul : (i + 1) * bs ≤ j * bs := Nat.mul_le_mul_right _ (by omega)
    rw [Nat.succ_mul] at hmul
    omega
  | data j =>
    simp only [place, start] at *
    have hmul : i * bs ≤ j * bs := Nat.mul_le_mul_right _ (by omega)
    omega
  | _ => simp only [place] at h; omega

/-- The areas after a slot start at its end or later. -/
theorem slot_le_start (h : 2 * i + 5 < b.place) :
    dataStart n + i * bs + bs ≤ b.start n bs := by
  cases b with
  | csm j | data j =>
    simp only [place, start] at *
    have hmul : (i + 1) * bs ≤ j * bs := Nat.mul_le_mul_right _ (by omega)
    rw [Nat.succ_mul] at hmul
    omega
  | _ => simp only [place] at h; omega

/-- An area ends before the ones after it start. -/
theorem end_le_start (hmb : 2 * mbSize ≤ bs) {a : Area} (hab : a.place < b.place) :
    a.start n bs + a.length n bs ≤ b.start n bs := by
  obtain ⟨h1, h2, h3, h4⟩ := metadata_le_start n bs b
  have hinfo := bitmap_before_info n
  have hextra := info_before_extra n
  have hdata := extra_before_data n
  cases a with
  | superblock => rw [start, Nat.zero_add]; exact h1 hab
  | bitmap => exact hinfo.le.trans (h2 hab)
  | blockInfo => exact hextra.le.trans (h3 hab)
  | extraInfo => exact hdata.le.trans (h4 hab)
  | csm i => exact data_le_start hmb hab
  | data i =>
    have hend : dataStart n + i * bs + bs ≤ b.start n bs := slot_le_start hab
    change dataStart n + i * bs + 2 * mbSize + (bs - 2 * mbSize) ≤ _
    omega

end Area

/-- **The areas of a device are disjoint.**  With at least one slot, a block size of 2 MB or more
    and a device size within `int`, no macro overflows, and every area ends before the ones
    after it start: the superblock, the bitmap, the two tables, and the csm and data areas of
    the slots one after the other.  The record of a slot lies in the `block_info` table. -/
theorem areas_in_order {dev bs : ℕ} (hslot : 512 + bs + blockInfoSize ≤ dev)
    (hint : dev - 512 < 2 ^ 31) (hmb : 2 * mbSize ≤ bs) :
    (∀ a b : Area, a.Valid (blockNum dev bs) → b.Valid (blockNum dev bs) → a ≠ b →
      ∃ s l s' l', a.extent dev bs = some (s, l) ∧ b.extent dev bs = some (s', l') ∧
        (a.place < b.place → s + l ≤ s') ∧ (s + l ≤ s' ∨ s' + l' ≤ s)) ∧
    ∀ i < blockNum dev bs, ∃ off, infoOffset dev bs = some off ∧
      off ≤ toU64 (off + i * sizeofBlockInfo : ℕ) ∧
      toU64 (off + i * sizeofBlockInfo : ℕ) + sizeofBlockInfo ≤
        off + blockNum dev bs * sizeofBlockInfo := by
  have U : Untruncated dev bs := ⟨hslot, hint⟩
  constructor
  · intro a b ha hb hne
    refine ⟨_, _, _, _, U.extent_eq hmb ha, U.extent_eq hmb hb, Area.end_le_start hmb, ?_⟩
    rcases Nat.lt_trichotomy a.place b.place with h | h | h
    · exact .inl (Area.end_le_start hmb h)
    · exact absurd (Area.place_inj h) hne
    · exact .inr (Area.end_le_start hmb h)
  · intro i hi
    have hoff := U.infoStart_lt
    have hn := U.blockNum_lt
    refine ⟨_, U.infoOffset_eq, ?_⟩
    rw [toU64_of_lt (by unfold sizeofBlockInfo; omega)]
    unfold sizeofBlockInfo
    omega

/-- Two slots of 128 MB in 300 million bytes. -/
theorem areas_in_order_two_slots :
    (∀ a b : Area, a.Valid (blockNum 300000000 (2 ^ 27)) →
      b.Valid (blockNum 300000000 (2 ^ 27)) → a ≠ b →
      ∃ s l s' l', a.extent 300000000 (2 ^ 27) = some (s, l) ∧
        b.extent 300000000 (2 ^ 27) = some (s', l') ∧
        (a.place < b.place → s + l ≤ s') ∧ (s + l ≤ s' ∨ s' + l' ≤ s)) ∧
    ∀ i < blockNum 300000000 (2 ^ 27), ∃ off, infoOffset 300000000 (2 ^ 27) = some off ∧
      off ≤ toU64 (off + i * sizeofBlockInfo : ℕ) ∧
      toU64 (off + i * sizeofBlockInfo : ℕ) + sizeofBlockInfo ≤
        off + blockNum 300000000 (2 ^ 27) * sizeofBlockInfo :=
  areas_in_order (by decide) (by decide) (by decide)

end Layout
