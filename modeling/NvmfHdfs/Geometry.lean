/-
  What the layout macros compute, and for which superblocks it is a layout.

  * `Geometry`: a superblock with at least one slot and a device size within
    `int`; there every macro has the value its name promises (`infoOffset_eq`,
    `dataOffset_eq`, ...), as a function of the slot count alone.
  * `covers_iff`: the sizes cover what they are meant to hold, and the reader
    and the writer of the bitmap agree on its length, exactly for device sizes
    within `int`.
  * `lastSlotFits_iff`: the last slot ends on the device exactly when the
    remainder of the division by the slot cost pays for the rounding.
-/
import NvmfHdfs.Layout

namespace Layout

open CInt

/-- A superblock with at least one slot from which the cast of `ceil` cuts nothing. -/
structure Untruncated (devsize blocksize : ℕ) : Prop where
  slot : 512 + blocksize + blockInfoSize ≤ devsize
  int : devsize - 512 < 2 ^ 31

/-- A superblock with at least one slot whose device size is an `int`. -/
structure Geometry (devsize blocksize : ℕ) : Prop extends Untruncated devsize blocksize where
  small : devsize < 2 ^ 31

/-! ## The areas, from the slot count -/

/-- Bytes of the bitmap of `n` slots. -/
def bitmapBytes (n : ℕ) : ℕ := n / 8 + 1

/-- Start of the `block_info` table of `n` slots. -/
def infoStart (n : ℕ) : ℕ := bitmapOffset + (bitmapBytes n / 512 + 1) * 512

/-- The end of the records of `n` slots. -/
def tableEnd (n : ℕ) : ℕ := infoStart n + n * sizeofBlockInfo

/-- Start of the extra-info table of `n` slots. -/
def extraStart (n : ℕ) : ℕ := infoStart n + (n * sizeofBlockInfo / 512 + 1) * 512

/-- Start of slot 0 of `n` slots. -/
def dataStart (n : ℕ) : ℕ := extraStart n + (n * sizeofBlockExtraInfo / 512 + 1) * 512

theorem bitmap_before_info (n : ℕ) : bitmapOffset + bitmapBytes n < infoStart n := by
  unfold infoStart; omega

theorem info_before_extra (n : ℕ) : infoStart n + n * sizeofBlockInfo < extraStart n := by
  unfold extraStart; omega

theorem extra_before_data (n : ℕ) : extraStart n + n * sizeofBlockExtraInfo < dataStart n := by
  unfold dataStart; omega

/-- The table lies at least a sector, and so a record, behind the superblock. -/
theorem superblock_before_info (n : ℕ) : bitmapOffset + sizeofBlockInfo ≤ infoStart n := by
  refine Nat.add_le_add_left ?_ _
  exact (show sizeofBlockInfo ≤ 512 by decide).trans (Nat.le_mul_of_pos_left _ (Nat.succ_pos _))

theorem superblock_before_data (n : ℕ) : bitmapOffset ≤ dataStart n := by
  have h1 := bitmap_before_info n
  have h2 := info_before_extra n
  have h3 := extra_before_data n
  omega

theorem slot_bit_lt {n i : ℕ} (h : i < n) : i / 8 < bitmapBytes n := by
  unfold bitmapBytes; omega

/-! ## The operands of `BLOCK_NUM` -/

theorem numer_eq {dev : ℕ} (h : 512 ≤ dev) (h' : dev < 2 ^ 64) : numer dev = dev - 512 := by
  unfold numer toU64; omega

theorem denom_eq {bs : ℕ} (h : bs + blockInfoSize < 2 ^ 64) : denom bs = bs + blockInfoSize :=
  toU64_of_lt h

theorem blockNum_eq {dev bs : ℕ} (h : 512 + bs + blockInfoSize ≤ dev) (h' : dev < 2 ^ 64) :
    blockNum dev bs = (dev - 512) / (bs + blockInfoSize) := by
  rw [blockNum, numer_eq (by omega) h', denom_eq (by omega)]

theorem blockNum_eq_zero {dev bs : ℕ} (h : 512 ≤ dev) (h' : dev < 2 ^ 64) (hbs : bs < 2 ^ 32)
    (hslot : dev < 512 + bs + blockInfoSize) : blockNum dev bs = 0 := by
  have h3 : blockInfoSize = 4129 := rfl
  rw [blockNum, numer_eq h h', denom_eq (by omega)]
  exact Nat.div_eq_of_lt (by omega)

/-- The cast of `ceil` does nothing to a non-negative `int`. -/
theorem castNum_of_int {d den : ℕ} (h : d < 2 ^ 31) : castNum d den = d / den := by
  rw [castNum, toInt_natCast h, toU64_of_lt (by omega)]

/-- The quotient under the cast is far below `2 ^ 64`. -/
theorem castNum_mul_lt {num : ℤ} {den : ℕ} (h : blockInfoSize ≤ den) :
    castNum num den * sizeofBlockExtraInfo < 2 ^ 64 := by
  have h1 : castNum num den * den ≤ toU64 (toInt num) := Nat.div_mul_le_self _ _
  have h2 := toU64_lt (toInt num)
  have h3 : castNum num den * sizeofBlockExtraInfo ≤ castNum num den * den :=
    Nat.mul_le_mul_left _ (by unfold blockInfoSize sizeofBlockInfo sizeofBlockExtraInfo at *; omega)
  omega

theorem blockNum_mul_lt {dev bs : ℕ} (h : bs + blockInfoSize < 2 ^ 64) :
    blockNum dev bs * sizeofBlockExtraInfo < 2 ^ 64 := by
  have h1 : blockNum dev bs * denom bs ≤ numer dev := Nat.div_mul_le_self _ _
  have h2 : numer dev < 2 ^ 64 := toU64_lt _
  have h3 : blockNum dev bs * sizeofBlockExtraInfo ≤ blockNum dev bs * denom bs := by
    refine Nat.mul_le_mul_left _ ?_
    rw [denom_eq h]; unfold blockInfoSize; omega
  omega

theorem ceilInt_eq_some {x d y : ℕ} :
    ceilInt x d = some y ↔ x / d + 1 < 2 ^ 31 ∧ x / d + 1 = y := by
  unfold ceilInt; split_ifs with h
  · exact ⟨fun he => ⟨h, Option.some.inj he⟩, fun he => congrArg some he.2⟩
  · exact ⟨nofun, fun he => absurd he.1 h⟩

theorem ceilInt_of_lt {x d : ℕ} (h : x / d + 1 < 2 ^ 31) : ceilInt x d = some (x / d + 1) :=
  ceilInt_eq_some.2 ⟨h, rfl⟩

/-- The offset after an area of `space` sectors, where the product is an `int`. -/
theorem area_end (off space : ℕ) (h : space * 512 < 2 ^ 31) (ho : off < 2 ^ 63) :
    int? ((space : ℤ) * 512) = some ((space * 512 : ℕ) : ℤ) ∧
      toU64 (off + (space * 512 : ℕ) : ℤ) = off + space * 512 := by
  refine ⟨int?_eq_some.2 ⟨⟨by omega, by omega⟩, by omega⟩, ?_⟩
  unfold toU64; omega

/-! ## The macros of a small device -/

namespace Untruncated
variable {dev bs : ℕ} (U : Untruncated dev bs)
include U

theorem blockNum_eq : blockNum dev bs = (dev - 512) / (bs + blockInfoSize) :=
  Layout.blockNum_eq U.slot (by have := U.int; omega)

/-- The slots and their share of the metadata fit behind the first 512 bytes. -/
theorem blockNum_mul_le : blockNum dev bs * (bs + blockInfoSize) ≤ dev - 512 := by
  rw [U.blockNum_eq]; exact Nat.div_mul_le_self _ _

theorem blockNum_lt : blockNum dev bs < 520105 := by
  have h1 := U.blockNum_mul_le
  have h2 := U.int
  have h3 : blockNum dev bs * blockInfoSize ≤ blockNum dev bs * (bs + blockInfoSize) :=
    Nat.mul_le_mul_left _ (by omega)
  unfold blockInfoSize sizeofBlockInfo sizeofBlockExtraInfo at *
  omega

theorem castNum_eq : castNum (numer dev) (denom bs) = blockNum dev bs := by
  have h1 := U.slot
  have h2 := U.int
  rw [numer_eq (by omega) (by omega), castNum_of_int (by omega), U.blockNum_eq,
    denom_eq (by omega)]

theorem bitmapSize_eq : bitmapSize dev bs = some (bitmapBytes (blockNum dev bs)) := by
  have h := U.blockNum_lt
  rw [bitmapSize, bitmapSizeOf, U.castNum_eq, ceilInt_of_lt (by omega)]; rfl

theorem bitmapSpace_eq :
    bitmapSpace dev bs = some (bitmapBytes (blockNum dev bs) / 512 + 1) := by
  have h := U.blockNum_lt
  rw [bitmapSpace, bind_of_eq_some U.bitmapSize_eq]
  exact ceilInt_of_lt (by unfold bitmapBytes; omega)

theorem infoSpace_eq :
    infoSpace dev bs = some (blockNum dev bs * sizeofBlockInfo / 512 + 1) := by
  have h := U.blockNum_lt
  rw [infoSpace, U.castNum_eq, toU64_of_lt (by unfold sizeofBlockInfo; omega)]
  exact ceilInt_of_lt (by unfold sizeofBlockInfo; omega)

theorem extraSpace_eq :
    extraSpace dev bs = some (blockNum dev bs * sizeofBlockExtraInfo / 512 + 1) := by
  have h := U.blockNum_lt
  rw [extraSpace, U.castNum_eq, toU64_of_lt (by unfold sizeofBlockExtraInfo; omega)]
  exact ceilInt_of_lt (by unfold sizeofBlockExtraInfo; omega)

theorem infoStart_lt : infoStart (blockNum dev bs) < 2 ^ 20 := by
  have h := U.blockNum_lt
  unfold infoStart bitmapBytes bitmapOffset sizeofSuperBlock; omega

theorem extraStart_lt : extraStart (blockNum dev bs) < 2 ^ 25 := by
  have h1 := U.blockNum_lt
  have h2 := U.infoStart_lt
  unfold extraStart sizeofBlockInfo; omega

theorem infoOffset_eq : infoOffset dev bs = some (infoStart (blockNum dev bs)) := by
  obtain ⟨h1, h2⟩ := area_end bitmapOffset (bitmapBytes (blockNum dev bs) / 512 + 1)
    (by have := U.blockNum_lt; unfold bitmapBytes; omega)
    (by unfold bitmapOffset sizeofSuperBlock; omega)
  rw [infoOffset, bind_of_eq_some U.bitmapSpace_eq, bind_of_eq_some h1, h2]; rfl

theorem extraOffset_eq : extraOffset dev bs = some (extraStart (blockNum dev bs)) := by
  obtain ⟨h1, h2⟩ := area_end (infoStart (blockNum dev bs))
    (blockNum dev bs * sizeofBlockInfo / 512 + 1)
    (by have := U.blockNum_lt; unfold sizeofBlockInfo; omega) (by have := U.infoStart_lt; omega)
  rw [extraOffset, bind_of_eq_some U.infoOffset_eq, bind_of_eq_some U.infoSpace_eq,
    bind_of_eq_some h1, h2]
  rfl

theorem dataOffset_eq : dataOffset dev bs = some (dataStart (blockNum dev bs)) := by
  obtain ⟨h1, h2⟩ := area_end (extraStart (blockNum dev bs))
    (blockNum dev bs * sizeofBlockExtraInfo / 512 + 1)
    (by have := U.blockNum_lt; unfold sizeofBlockExtraInfo; omega)
    (by have := U.extraStart_lt; omega)
  rw [dataOffset, bind_of_eq_some U.extraOffset_eq, bind_of_eq_some U.extraSpace_eq,
    bind_of_eq_some h1, h2]
  rfl

end Untruncated

/-- The reader of the bitmap computes the same length as its writer. -/
theorem Geometry.readBitmapSize_eq {dev bs : ℕ} (G : Geometry dev bs) :
    readBitmapSize (toInt dev) (toInt bs) = some (bitmapBytes (blockNum dev bs)) := by
  have h1 := G.slot
  have h2 := G.small
  have h3 : blockInfoSize = 4129 := rfl
  have hnum : int? (toInt dev - 512) = some ((dev - 512 : ℕ) : ℤ) := by
    rw [toInt_natCast h2, int?_eq_some]; exact ⟨⟨by omega, by omega⟩, by omega⟩
  have hb : int? (toInt bs + 1) = some ((bs + 1 : ℕ) : ℤ) := by
    rw [toInt_natCast (by omega), int?_eq_some]; exact ⟨⟨by omega, by omega⟩, by omega⟩
  have hden : toU64 (((bs + 1 : ℕ) : ℤ) + sizeofBlockInfo + sizeofBlockExtraInfo) =
      bs + blockInfoSize := by
    unfold toU64 sizeofBlockInfo sizeofBlockExtraInfo; omega
  rw [readBitmapSize, bind_of_eq_some hnum, bind_of_eq_some hb, hden, if_neg (by omega),
    ← G.bitmapSize_eq, bitmapSize, denom_eq (by omega), numer_eq (by omega) (by omega)]

/-- Where the block size is an `int`, the bitmap is written back with the length it is
    read with. -/
theorem bitmapSize_of_read {dev bs len : ℕ} (hbs : bs < 2 ^ 31)
    (h : readBitmapSize (toInt dev) (toInt bs) = some len) : bitmapSize dev bs = some len := by
  rw [readBitmapSize] at h
  obtain ⟨num, hnum, h⟩ := Option.bind_eq_some_iff.1 h
  obtain ⟨b, hb, h⟩ := Option.bind_eq_some_iff.1 h
  obtain ⟨hr, hnum⟩ := int?_eq_some.1 hnum
  obtain ⟨-, hb⟩ := int?_eq_some.1 hb
  rw [toInt_natCast hbs] at hb
  have hden : toU64 (b + sizeofBlockInfo + sizeofBlockExtraInfo) = denom bs := by
    rw [← hb, denom]; unfold blockInfoSize sizeofBlockInfo sizeofBlockExtraInfo; congr 1
  have hcast : toInt num = toInt (numer dev) := by
    rw [← hnum]
    unfold IsInt at hr
    unfold numer toU64 toInt at *
    split_ifs at * <;> omega
  rw [hden] at h
  dsimp only at h
  split_ifs at h
  rw [bitmapSize, ← h, bitmapSizeOf, bitmapSizeOf, castNum, castNum, hcast]

/-- The `block_info` table starts behind the bitmap. -/
theorem infoOffset_gt {dev bs off len : ℕ} (h : infoOffset dev bs = some off)
    (hl : bitmapSize dev bs = some len) : bitmapOffset + len < off ∧ off < 2 ^ 32 := by
  rw [infoOffset, bitmapSpace] at h
  obtain ⟨space, hs, h⟩ := Option.bind_eq_some_iff.1 h
  obtain ⟨bytes, hb, h⟩ := Option.bind_eq_some_iff.1 h
  obtain ⟨len', hl', hs⟩ := Option.bind_eq_some_iff.1 hs
  obtain rfl := Option.some.inj (hl.symm.trans hl')
  obtain ⟨-, hsp⟩ := ceilInt_eq_some.1 hs
  obtain ⟨hr, hb⟩ := int?_eq_some.1 hb
  have hoff := Option.some.inj h
  unfold IsInt at hr
  unfold toU64 bitmapOffset sizeofSuperBlock at *
  omega

/-- `DATA_OFFSET` lies behind `INFO_OFFSET`, and not far behind. -/
theorem dataOffset_gt {dev bs off : ℕ} (h : dataOffset dev bs = some off) :
    ∃ info, infoOffset dev bs = some info ∧ bitmapOffset < info ∧ info ≤ off ∧ off < 2 ^ 34 := by
  rw [dataOffset, extraOffset] at h
  obtain ⟨extra, he, h⟩ := Option.bind_eq_some_iff.1 h
  obtain ⟨info, hi, he⟩ := Option.bind_eq_some_iff.1 he
  obtain ⟨ispace, hs, he⟩ := Option.bind_eq_some_iff.1 he
  obtain ⟨ibytes, hb, he⟩ := Option.bind_eq_some_iff.1 he
  obtain ⟨espace, hs', h⟩ := Option.bind_eq_some_iff.1 h
  obtain ⟨ebytes, hb', h⟩ := Option.bind_eq_some_iff.1 h
  obtain ⟨hr, hib⟩ := int?_eq_some.1 hb
  obtain ⟨hr', heb⟩ := int?_eq_some.1 hb'
  have he := Option.some.inj he
  have h := Option.some.inj h
  have hsize : ∃ len, bitmapSize dev bs = some len := by
    rw [infoOffset, bitmapSpace] at hi
    obtain ⟨space, hsp, -⟩ := Option.bind_eq_some_iff.1 hi
    obtain ⟨len, hl, -⟩ := Option.bind_eq_some_iff.1 hsp
    exact ⟨len, hl⟩
  obtain ⟨len, hl⟩ := hsize
  obtain ⟨h1, h2⟩ := infoOffset_gt hi hl
  refine ⟨info, hi, ?_, ?_, ?_⟩
  all_goals unfold IsInt at hr hr'; unfold toU64 at *; omega

/-- Multiplied by the block size, the slots are far from overflowing. -/
theorem slots_mul_lt {dev bs : ℕ} (hbs : bs < 2 ^ 32) :
    blockNum dev bs * bs + 2 ^ 34 < 2 ^ 64 := by
  have h3 : blockInfoSize = 4129 := rfl
  have h1 : blockNum dev bs * denom bs ≤ numer dev := Nat.div_mul_le_self _ _
  have h2 : numer dev < 2 ^ 64 := toU64_lt _
  rw [denom_eq (by omega), Nat.mul_add, h3] at h1
  rcases Nat.lt_or_ge (blockNum dev bs) (2 ^ 31) with hN | hN
  · have : blockNum dev bs * bs ≤ 2 ^ 31 * 2 ^ 32 := Nat.mul_le_mul hN.le hbs.le
    omega
  · omega

/-! ## Which superblocks the sizes are right for -/

/-- The sizes cover what they hold, and `read_bitmap` reads what `lfs_open` writes back. -/
def Covers (dev bs : ℕ) : Prop :=
  ∃ size space ispace espace len, bitmapSize dev bs = some size ∧
    bitmapSpace dev bs = some space ∧ infoSpace dev bs = some ispace ∧
    extraSpace dev bs = some espace ∧ readBitmapSize (toInt dev) (toInt bs) = some len ∧
    blockNum dev bs ≤ 8 * size ∧ size ≤ space * 512 ∧ infoSize dev bs ≤ ispace * 512 ∧
    extraSize dev bs ≤ espace * 512 ∧ len = size

theorem Geometry.covers {dev bs : ℕ} (G : Geometry dev bs) : Covers dev bs := by
  have h := G.blockNum_lt
  refine ⟨_, _, _, _, _, G.bitmapSize_eq, G.bitmapSpace_eq, G.infoSpace_eq, G.extraSpace_eq,
    G.readBitmapSize_eq, ?_, ?_, ?_, ?_, rfl⟩
  · unfold bitmapBytes; omega
  · omega
  · rw [infoSize, toU64_of_lt (by unfold sizeofBlockInfo; omega)]; omega
  · rw [extraSize, toU64_of_lt (by unfold sizeofBlockExtraInfo; omega)]; omega

/-- `EXTRA_SPACE` is the strictest of the sizes: it covers the table only if the cast loses
    no slot, and it is an `int` only below `2 ^ 28` slots. -/
theorem extraSpace_covers {dev bs espace : ℕ} (hbs : bs < 2 ^ 32)
    (h : extraSpace dev bs = some espace) (hc : extraSize dev bs ≤ espace * 512) :
    blockNum dev bs ≤ castNum (numer dev) (denom bs) ∧
      castNum (numer dev) (denom bs) < 2 ^ 28 := by
  have h3 : blockInfoSize = 4129 := rfl
  have hden := denom_eq (show bs + blockInfoSize < 2 ^ 64 by omega)
  have hq : castNum (numer dev) (denom bs) * sizeofBlockExtraInfo < 2 ^ 64 :=
    castNum_mul_lt (by omega)
  have hN : blockNum dev bs * sizeofBlockExtraInfo < 2 ^ 64 := blockNum_mul_lt (by omega)
  rw [extraSpace, toU64_of_lt hq, ceilInt_eq_some] at h
  rw [extraSize, toU64_of_lt hN] at hc
  unfold sizeofBlockExtraInfo at *
  omega

/-- A cast that truncates loses slots, or makes the sizes leave `int`. -/
theorem castNum_truncates {d B : ℕ} (hd : 2 ^ 31 ≤ d) (hd' : d < 2 ^ 64) (hB : 0 < B)
    (hB' : B < 2 ^ 33) (hN : B ≤ d) :
    castNum d B < d / B ∨ 2 ^ 28 ≤ castNum d B := by
  unfold castNum
  rcases Nat.lt_or_ge (d % 2 ^ 32) (2 ^ 31) with hr | hr
  · -- the low word is a non-negative `int`: at least `2 ^ 32` bytes are lost
    have ht : toU64 (toInt d) = d % 2 ^ 32 := by
      unfold toInt toU64; split_ifs <;> omega
    left; rw [ht]
    rcases Nat.lt_or_ge (d % 2 ^ 32) B with hlt | hge
    · rw [Nat.div_eq_of_lt hlt]; exact Nat.div_pos hN hB
    · calc d % 2 ^ 32 / B < d % 2 ^ 32 / B + 1 := Nat.lt_succ_self _
        _ = (d % 2 ^ 32 + B) / B := (Nat.add_div_right _ hB).symm
        _ ≤ d / B := Nat.div_le_div_right (by omega)
  · -- a negative `int` becomes a divisor's multiple near `2 ^ 64`
    have ht : toU64 (toInt d) = 2 ^ 64 - 2 ^ 32 + d % 2 ^ 32 := by
      unfold toInt toU64; split_ifs <;> omega
    right; rw [ht, Nat.le_div_iff_mul_le hB]; omega

/-- Sizes that are right come from a device size within `int`. -/
theorem Covers.small {dev bs : ℕ} (hdev : dev < 2 ^ 64) (hbs : bs < 2 ^ 32)
    (hslot : 512 + bs + blockInfoSize ≤ dev) (h : Covers dev bs) : dev < 2 ^ 31 := by
  have h3 : blockInfoSize = 4129 := rfl
  obtain ⟨size, space, ispace, espace, len, -, -, -, hes, hlen, -, -, -, hec, -⟩ := h
  by_contra hbig
  obtain ⟨h1, h2⟩ := extraSpace_covers hbs hes hec
  rw [Layout.blockNum_eq hslot hdev] at h1
  rw [numer_eq (by omega) hdev, denom_eq (by omega)] at h1 h2
  rcases Nat.lt_or_ge (dev - 512) (2 ^ 31) with hd | hd
  · -- `dev_size` wraps to a negative `int`, from which 512 cannot be taken
    simp only [readBitmapSize, Option.bind_eq_bind, Option.bind_eq_some_iff] at hlen
    obtain ⟨num, hnum, -⟩ := hlen
    obtain ⟨hr, -⟩ := int?_eq_some.1 hnum
    unfold IsInt toInt at hr; split_ifs at hr <;> omega
  · rcases castNum_truncates hd (by omega) (show 0 < bs + blockInfoSize by omega) (by omega)
      (by omega) with h | h <;> omega

/-- **The sizes are right exactly for device sizes within `int`.** -/
theorem covers_iff {dev bs : ℕ} (hdev : dev < 2 ^ 64) (hbs : bs < 2 ^ 32)
    (hslot : 512 + bs + blockInfoSize ≤ dev) : Covers dev bs ↔ dev < 2 ^ 31 :=
  ⟨Covers.small hdev hbs hslot, fun h => Geometry.covers ⟨⟨hslot, by omega⟩, h⟩⟩

/-- One slot of 128 MB. -/
theorem covers_iff_one_slot :
    Covers (2 ^ 28 + 5000) (2 ^ 27) ↔ 2 ^ 28 + 5000 < 2 ^ 31 :=
  covers_iff (by decide) (by decide) (by decide)

/-- Four gigabytes in slots of 128 MB: the cast leaves no slot at all. -/
theorem not_covers_4G : (2 ^ 32 + 512 < 2 ^ 64 ∧ 2 ^ 27 < 2 ^ 32 ∧
    512 + 2 ^ 27 + blockInfoSize ≤ 2 ^ 32 + 512) ∧ ¬ Covers (2 ^ 32 + 512) (2 ^ 27) :=
  ⟨by decide, fun h => absurd (h.small (by decide) (by decide) (by decide)) (by decide)⟩

/-! ## Where the last slot ends -/

/-- The last slot ends on the device. -/
def LastSlotFits (dev bs : ℕ) : Prop :=
  ∃ off, dataOffset dev bs = some off ∧ off + blockNum dev bs * bs ≤ dev

theorem Untruncated.lastSlotFits {dev bs : ℕ} (U : Untruncated dev bs) : LastSlotFits dev bs ↔
    dataStart (blockNum dev bs) + blockNum dev bs * bs ≤ dev := by
  simp [LastSlotFits, U.dataOffset_eq]

theorem dataStart_eq (n : ℕ) : dataStart n =
    2056 + 4096 * n + 512 * (n / 16) + 512 * (bitmapBytes n / 512) := by
  unfold dataStart extraStart infoStart bitmapOffset sizeofSuperBlock sizeofBlockInfo
    sizeofBlockExtraInfo
  omega

/-- **The last slot ends on the device exactly when the rounding is paid for**: by 33 bytes
    of every slot and the remainder of the division by the slot cost. -/
theorem lastSlotFits_iff {dev bs : ℕ} (hslot : 512 + bs + blockInfoSize ≤ dev)
    (hint : dev - 512 < 2 ^ 31) :
    LastSlotFits dev bs ↔
      1544 + 512 * (blockNum dev bs / 16) + 512 * (bitmapBytes (blockNum dev bs) / 512) ≤
        33 * blockNum dev bs + (dev - 512) % (bs + blockInfoSize) := by
  have U : Untruncated dev bs := ⟨hslot, hint⟩
  have hdiv := Nat.div_add_mod (dev - 512) (bs + blockInfoSize)
  rw [← U.blockNum_eq, mul_comm, Nat.mul_add] at hdiv
  rw [U.lastSlotFits, dataStart_eq]
  unfold blockInfoSize sizeofBlockInfo sizeofBlockExtraInfo at *
  omega

/-- Two slots of 128 MB in 300 million bytes. -/
theorem lastSlotFits_iff_two_slots : LastSlotFits 300000000 (2 ^ 27) ↔
    1544 + 512 * (blockNum 300000000 (2 ^ 27) / 16) +
        512 * (bitmapBytes (blockNum 300000000 (2 ^ 27)) / 512) ≤
      33 * blockNum 300000000 (2 ^ 27) + (300000000 - 512) % (2 ^ 27 + blockInfoSize) :=
  lastSlotFits_iff (by decide) (by decide)

/-- A device with room for the cost of one slot of 128 MB and not a byte more. -/
theorem not_lastSlotFits_exact : (512 + 2 ^ 27 + blockInfoSize ≤ 134222369 ∧
    134222369 - 512 < 2 ^ 31) ∧ ¬ LastSlotFits 134222369 (2 ^ 27) := by
  refine ⟨by decide, ?_⟩
  rw [Untruncated.lastSlotFits ⟨by decide, by decide⟩]; decide +kernel

/-- From 1766 slots on the 33 bytes of each slot pay for all the rounding. -/
theorem lastSlotFits_of_many {dev bs : ℕ} (U : Untruncated dev bs)
    (h : 1766 ≤ blockNum dev bs) : LastSlotFits dev bs := by
  have hdiv := Nat.div_add_mod (dev - 512) (bs + blockInfoSize)
  rw [← U.blockNum_eq, mul_comm, Nat.mul_add] at hdiv
  rw [U.lastSlotFits, dataStart_eq]
  unfold blockInfoSize sizeofBlockInfo sizeofBlockExtraInfo bitmapBytes at *
  omega

end Layout
