/-
  The metadata of the client's block device (`client/MFS`): the macros of its
  `common.h` and the bitmap it keeps on the device.

    |-- superblock --|-- bitmap --|-- block_info table --| ... |-- block 1 --|-- block 2 ...

  One block is reserved for the metadata whatever the size of the device, and
  the record of a block has 6416 bytes here.

    - `metadata_below_iff`: the table ends below the first block exactly on
      devices of fewer than 20920 blocks;
    - `persists_iff`: a bitmap comes back from the device exactly if everything
      from its ninth byte on was in memory already, as `read_bitmap` asks `fread`
      for the size of the pointer.
-/
import NvmfHdfs.Bitmap
import NvmfHdfs.Blocklist.SlotIds

namespace Blocklist

open CInt Layout

/-! ## The macros -/

/-- `sizeof(struct block_info)`: 16 bytes of integers and 3200 `short`s. -/
def sizeofBlockInfo : ℕ := 6416

/-- `BITMAP_SIZE`: `(int)((int)BLOCK_NUM/8.0+1)`, the quotient on `double`. -/
def bitmapSize (devsize : ℕ) : ℤ := (toInt (blockNum devsize) + 8).tdiv 8

/-- `INFO_SIZE`. -/
def infoSize (devsize : ℕ) : ℕ := toU64 (blockNum devsize * sizeofBlockInfo)

/-- `INFO_OFFSET`. -/
def infoOffset (devsize : ℕ) : ℕ := toU64 (bitmapOffset + bitmapSize devsize)

/-- `DATA_OFFSET`. -/
def dataOffset (devsize : ℕ) : ℕ := toU64 (infoOffset devsize + infoSize devsize)

variable {dev : ℕ}

theorem blockNum_pos (h : 2 * blockSize ≤ dev) : 1 ≤ blockNum dev := by
  unfold blockNum blockSize at *; omega

theorem blockNum_lt (h : dev < 2 ^ 64) : blockNum dev < 2 ^ 37 := by
  unfold blockNum blockSize; omega

/-- The size of the bitmap, as long as the number of blocks is an `int`. -/
theorem bitmapSize_eq (h : 2 * blockSize ≤ dev) (hn : blockNum dev < 2 ^ 31) :
    bitmapSize dev = blockNum dev / 8 + 1 := by
  have h1 := blockNum_pos h
  rw [bitmapSize, toInt_of_isInt ⟨by omega, hn⟩, Int.tdiv_eq_ediv_of_nonneg (by omega)]
  omega

/-- The cast to `int` bounds the size of the bitmap. -/
theorem bitmapSize_bounds (dev : ℕ) : -2 ^ 28 ≤ bitmapSize dev ∧ bitmapSize dev ≤ 2 ^ 28 := by
  obtain ⟨h1, h2⟩ := isInt_toInt (blockNum dev)
  have habs := Int.natAbs_tdiv (toInt (blockNum dev) + 8) 8
  rw [← bitmapSize] at habs
  change (bitmapSize dev).natAbs = (toInt (blockNum dev) + 8).natAbs / 8 at habs
  omega

/-- `INFO_SIZE` is in range on every device. -/
theorem infoSize_eq (h : 2 * blockSize ≤ dev) (h' : dev < 2 ^ 64) :
    (infoSize dev : ℤ) = blockNum dev * 6416 := by
  have h1 := blockNum_pos h
  have h2 := blockNum_lt h'
  exact toU64_of_nonneg (by unfold sizeofBlockInfo; omega) (by unfold sizeofBlockInfo; omega)

/-- `DATA_OFFSET` too, also where the size of the bitmap is not. -/
theorem dataOffset_eq (h : 2 * blockSize ≤ dev) (h' : dev < 2 ^ 64) :
    (dataOffset dev : ℤ) = 520 + bitmapSize dev + blockNum dev * 6416 := by
  have h1 := blockNum_pos h
  have h2 := blockNum_lt h'
  obtain ⟨hb1, hb2⟩ := bitmapSize_bounds dev
  have hsum : 0 ≤ 520 + bitmapSize dev + blockNum dev * 6416 := by
    by_cases hn : blockNum dev < 2 ^ 31
    · rw [bitmapSize_eq h hn]; omega
    · omega
  rw [dataOffset, infoOffset, toU64_add, infoSize_eq h h']
  exact toU64_of_nonneg hsum (by unfold bitmapOffset sizeofSuperBlock; omega)

/-! ## The layout -/

/-- The metadata areas lie in order below the first block, and the bitmap has a bit for every
    block. -/
structure MetadataBelow (dev : ℕ) : Prop where
  covers : blockNum dev ≤ 8 * bitmapSize dev
  superblock : sizeofSuperBlock ≤ bitmapOffset
  bitmap : bitmapOffset + bitmapSize dev ≤ infoOffset dev
  table : infoOffset dev + blockNum dev * sizeofBlockInfo ≤ dataOffset dev
  below : dataOffset dev ≤ blockSize
  blocks : ∀ id, 1 ≤ id → id ≤ blockNum dev → ∀ a ∈ slot id, (dataOffset dev : ℤ) ≤ a

/-- **The metadata stays below the first block** exactly on devices of fewer than 20920
    blocks. -/
theorem metadata_below_iff (h : 2 * blockSize ≤ dev) (h' : dev < 2 ^ 64) :
    MetadataBelow dev ↔ dev < 20920 * blockSize := by
  have h1 := blockNum_pos h
  have hdata := dataOffset_eq h h'
  have hdev : dev < 20920 * blockSize ↔ blockNum dev ≤ 20918 := by
    unfold blockNum blockSize at *; omega
  rw [hdev]
  constructor
  · intro M
    by_contra hn
    -- past 2 ^ 31 blocks the size of the bitmap is wrong, but the table alone is too long
    have hbelow : (dataOffset dev : ℤ) ≤ 134217728 := by exact_mod_cast M.below
    by_cases hint : blockNum dev < 2 ^ 31
    · rw [bitmapSize_eq h hint] at hdata
      omega
    · have hb := (bitmapSize_bounds dev).1
      omega
  · intro hn
    have hsize := bitmapSize_eq h (by omega)
    have hoff : (infoOffset dev : ℤ) = 520 + bitmapSize dev :=
      toU64_of_nonneg (show (0 : ℤ) ≤ 520 + bitmapSize dev by omega)
        (show 520 + bitmapSize dev < (2 : ℤ) ^ 64 by omega)
    have hbelow : (dataOffset dev : ℤ) ≤ 134217728 := by omega
    refine ⟨by omega, le_rfl, hoff.ge, ?_, by exact_mod_cast hbelow, fun id hid _ a ha => ?_⟩
    · rw [hdata, hoff]; rfl
    · have hlow : id * 134217728 ≤ a := ha.1
      omega

/-- The device of the client. -/
theorem metadata_below_iff_devSize : MetadataBelow devSize :=
  (metadata_below_iff (by decide) (by decide)).2 (by decide)

/-- On a device of 20920 blocks the table reaches into block 1. -/
theorem metadata_meets_block : ¬ MetadataBelow (20920 * blockSize) := by
  intro M
  have hn : blockNum (20920 * blockSize) = 20919 := rfl
  have hdata : (dataOffset (20920 * blockSize) : ℤ) = _ := dataOffset_eq (by decide) (by decide)
  have hbelow : (dataOffset (20920 * blockSize) : ℤ) ≤ 134217728 := by exact_mod_cast M.below
  rw [bitmapSize_eq (by decide) (by rw [hn]; decide), hn] at hdata
  omega

/-! ## The bitmap on the device -/

/-- `sizeof(p_bitmap)`, the size of a pointer. -/
def sizeofPointer : ℕ := 8

/-- `write_bitmap`: what it returns (`dev_size` and `block_size` are not used there). -/
def writeBitmap (fd : Descriptor) (len : ℤ) (buf : List UInt8) : Option (ℤ × Descriptor) := do
  let fd ← fd.lseek bitmapOffset
  if 0 ≤ len ∧ len ≤ buf.length then do
    let fd ← fd.write (buf.take len.toNat)
    some (toInt len, fd)
  else none

/-- `read_bitmap`, where the memory `malloc` returns holds `mem`. -/
def readBitmap (fd : Descriptor) (dev_size : ℕ) (mem : Image) :
    Option (List UInt8 × Descriptor) := do
  let fd ← fd.lseek bitmapOffset
  -- `fread(p_bitmap,1,sizeof(p_bitmap),fd)`, into `BITMAP_SIZE` bytes
  if sizeofPointer ≤ bitmapSize dev_size then do
    let (bytes, fd) ← fd.read sizeofPointer
    some (bytes ++ (mem.slice 0 (bitmapSize dev_size).toNat).drop sizeofPointer, fd)
  else none

/-- A bitmap written to the device is read back, bit for bit. -/
def Persists (fd : Descriptor) (dev : ℕ) (mem : Image) (buf : List UInt8) : Prop :=
  ∃ ret fd' p fd'', writeBitmap fd (bitmapSize dev) buf = some (ret, fd') ∧
    readBitmap fd' dev mem = some (p, fd'') ∧ p = buf ∧
    ∀ i : ℕ, i < blockNum dev → Bitmap.bitmapGet i p (blockNum dev).toNat =
      Bitmap.bitmapGet i buf (blockNum dev).toNat

variable {fd fd' : Descriptor} {mem : Image} {buf : List UInt8}

theorem writeBitmap_eq (fd : Descriptor) (hbuf : (buf.length : ℤ) = bitmapSize dev) :
    writeBitmap fd (bitmapSize dev) buf = some (toInt (bitmapSize dev),
      ⟨fd.image.patch bitmapOffset buf, bitmapOffset + buf.length⟩) := by
  have hb := (bitmapSize_bounds dev).2
  have hwrite : Descriptor.write ⟨fd.image, bitmapOffset⟩ buf =
      some ⟨fd.image.patch bitmapOffset buf, bitmapOffset + buf.length⟩ :=
    Descriptor.write_eq_some.2 ⟨show 520 + buf.length ≤ 2 ^ 63 by omega, rfl⟩
  rw [writeBitmap, bind_of_eq_some (Bitmap.lseek_bitmapOffset fd), if_pos ⟨by omega, by omega⟩,
    ← hbuf, Int.toNat_natCast, List.take_length, bind_of_eq_some hwrite]

theorem readBitmap_eq (fd : Descriptor) (mem : Image) (h : 8 ≤ bitmapSize dev) :
    readBitmap fd dev mem = some (fd.image.slice bitmapOffset 8 ++
      (mem.slice 0 (bitmapSize dev).toNat).drop 8, ⟨fd.image, bitmapOffset + 8⟩) := by
  have hread : Descriptor.read ⟨fd.image, bitmapOffset⟩ sizeofPointer =
      some (fd.image.slice bitmapOffset 8, ⟨fd.image, bitmapOffset + 8⟩) :=
    Descriptor.read_eq_some.2 ⟨show 528 ≤ 2 ^ 63 by norm_num, rfl, rfl⟩
  rw [readBitmap, bind_of_eq_some (Bitmap.lseek_bitmapOffset fd),
    if_pos (show (sizeofPointer : ℤ) ≤ _ from h), bind_of_eq_some hread]
  rfl

/-- A bitmap of fewer bytes than a pointer is overrun. -/
theorem readBitmap_none (fd : Descriptor) (mem : Image) (h : ¬ 8 ≤ bitmapSize dev) :
    readBitmap fd dev mem = none := by
  rw [readBitmap, bind_of_eq_some (Bitmap.lseek_bitmapOffset fd),
    if_neg (show ¬ (sizeofPointer : ℤ) ≤ _ from h)]

/-- What is read of a bitmap on the device: its first eight bytes. -/
theorem slice_patch_eight (m : Image) (p : ℕ) (h : 8 ≤ buf.length) :
    (m.patch p buf).slice p 8 = buf.take 8 := by
  have hs := Image.slice_slice (m.patch p buf) p buf.length 0 8 (by omega)
  rw [Image.slice_patch, List.drop_zero, Nat.add_zero] at hs
  exact hs.symm

/-- **A bitmap persists** exactly if it has at least eight bytes and the memory `malloc` returns
    holds the others already. -/
theorem persists_iff (fd : Descriptor) (mem : Image) (hbuf : (buf.length : ℤ) = bitmapSize dev) :
    Persists fd dev mem buf ↔
      8 ≤ bitmapSize dev ∧ (mem.slice 0 buf.length).drop 8 = buf.drop 8 := by
  unfold Persists
  have hlen : (bitmapSize dev).toNat = buf.length := by omega
  simp only [writeBitmap_eq fd hbuf, Option.some.injEq, Prod.mk.injEq]
  constructor
  · rintro ⟨ret, fd', p, fd'', ⟨rfl, rfl⟩, hread, hp, -⟩
    by_cases h8 : 8 ≤ bitmapSize dev
    · refine ⟨h8, ?_⟩
      rw [readBitmap_eq _ _ h8, slice_patch_eight _ _ (by omega), hlen, Option.some.injEq,
        Prod.mk.injEq, hp] at hread
      have hsplit := hread.1.trans (List.take_append_drop 8 buf).symm
      exact List.append_cancel_left hsplit
    · rw [readBitmap_none _ _ h8] at hread
      cases hread
  · rintro ⟨h8, hmem⟩
    refine ⟨_, _, _, _, ⟨rfl, rfl⟩, readBitmap_eq _ _ h8, ?_⟩
    have hp : (fd.image.patch bitmapOffset buf).slice bitmapOffset 8 ++
        (mem.slice 0 (bitmapSize dev).toNat).drop 8 = buf := by
      rw [slice_patch_eight _ _ (by omega), hlen, hmem, List.take_append_drop]
    exact ⟨hp, fun i _ => by rw [hp]⟩

/-- On a device of 57 blocks the bitmap has eight bytes. -/
theorem persists_iff_eight :
    Persists ⟨fun _ => 0, 0⟩ (57 * blockSize) (fun _ => 0) (List.replicate 8 255) := by
  have hsize : bitmapSize (57 * blockSize) = 8 := bitmapSize_eq (by decide) (by decide)
  exact (persists_iff _ _ (by rw [hsize]; rfl)).2 ⟨hsize.ge, rfl⟩

/-- On the device of the client, a bitmap with every bit set comes back without most of them
    where `malloc` returns zeros. -/
theorem bitmap_not_persistent :
    ¬ Persists ⟨fun _ => 0, 0⟩ devSize (fun _ => 0) (List.replicate 400 255) := by
  rintro ⟨ret, fd', p, fd'', -, hread, rfl, -⟩
  have hsize : bitmapSize devSize = 400 := bitmapSize_eq (by decide) (by decide)
  rw [readBitmap_eq _ _ (by omega), hsize, Option.some.injEq, Prod.mk.injEq] at hread
  have hninth := congrArg (·[8]?) hread.1
  rw [List.getElem?_append_right (by simp), List.getElem?_drop, Image.getElem?_slice,
    List.getElem?_replicate] at hninth
  simp at hninth

end Blocklist
