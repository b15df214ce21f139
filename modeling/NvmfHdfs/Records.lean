/-
  The on-disk records of `hdfslowfs.h`: the superblock (the fields the mounts
  read) and `struct block_info`, little-endian at the offsets the compiler
  gives their fields.
-/
import NvmfHdfs.Lib.Image
import NvmfHdfs.Layout

namespace Records

open Image Layout

/-- `MK_SUPER_MAGIC`. -/
def mkSuperMagic : ℕ := 0xabcdefa

/-- `struct super_block`. -/
structure SuperBlock where
  s_magic : ℕ
  s_block_size : ℕ
  s_dev_size : ℕ

/-- The superblock in the first bytes of a device. -/
def SuperBlock.decode (bs : List UInt8) : SuperBlock where
  s_magic := leValue (bs.take 4)
  s_block_size := leValue ((bs.drop 4).take 4)
  s_dev_size := leValue ((bs.drop 16).take 8)

/-- The first bytes of a device with superblock `sb`, the other fields being zero. -/
def SuperBlock.encode (sb : SuperBlock) : List UInt8 :=
  leBytes 4 sb.s_magic ++ leBytes 4 sb.s_block_size ++ leBytes 8 0 ++ leBytes 8 sb.s_dev_size

theorem leValue_take_lt {bs : List UInt8} {n : ℕ} : leValue (bs.take n) < 256 ^ n :=
  lt_of_lt_of_le (leValue_lt _)
    (Nat.pow_le_pow_right (by norm_num) (by rw [List.length_take]; exact min_le_left _ _))

theorem SuperBlock.s_block_size_lt (bs : List UInt8) : (decode bs).s_block_size < 2 ^ 32 :=
  lt_of_lt_of_eq leValue_take_lt (by norm_num)

/-- `struct block_info`, with the four bytes of padding at its end. -/
structure BlockInfo where
  b_creat_time : ℕ
  b_update_time : ℕ
  b_csm_length : ℕ
  b_data_length : ℕ
  b_block_id : ℕ
  padding : ℕ

/-- The bytes of a record. -/
def BlockInfo.encode (bi : BlockInfo) : List UInt8 :=
  leBytes 4 bi.b_creat_time ++ leBytes 4 bi.b_update_time ++ leBytes 8 bi.b_csm_length ++
    leBytes 8 bi.b_data_length ++ leBytes 4 bi.b_block_id ++ leBytes 4 bi.padding

/-- The record in 32 bytes. -/
def BlockInfo.decode (bs : List UInt8) : BlockInfo where
  b_creat_time := leValue (bs.take 4)
  b_update_time := leValue ((bs.drop 4).take 4)
  b_csm_length := leValue ((bs.drop 8).take 8)
  b_data_length := leValue ((bs.drop 16).take 8)
  b_block_id := leValue ((bs.drop 24).take 4)
  padding := leValue ((bs.drop 28).take 4)

@[simp] theorem BlockInfo.length_encode (bi : BlockInfo) : bi.encode.length = sizeofBlockInfo := by
  simp [encode, sizeofBlockInfo]

/-- Cutting a field out of a concatenation. -/
theorem take_drop_append {p m q : List UInt8} {i n : ℕ} (hp : p.length = i) (hm : m.length = n) :
    ((p ++ m ++ q).drop i).take n = m := by
  rw [List.append_assoc, List.drop_left' hp, List.take_left' hm]

/-- A record is read back as it was stored, each field in its width. -/
theorem BlockInfo.decode_encode (bi : BlockInfo) : BlockInfo.decode bi.encode =
    ⟨bi.b_creat_time % 2 ^ 32, bi.b_update_time % 2 ^ 32, bi.b_csm_length % 2 ^ 64,
      bi.b_data_length % 2 ^ 64, bi.b_block_id % 2 ^ 32, bi.padding % 2 ^ 32⟩ := by
  have h4 : (256 : ℕ) ^ 4 = 2 ^ 32 := by norm_num
  have h8 : (256 : ℕ) ^ 8 = 2 ^ 64 := by norm_num
  have e : ∀ a b c d f g : List UInt8, a.length = 4 → b.length = 4 → c.length = 8 →
      d.length = 8 → f.length = 4 → g.length = 4 →
      BlockInfo.decode (a ++ b ++ c ++ d ++ f ++ g) =
        ⟨leValue a, leValue b, leValue c, leValue d, leValue f, leValue g⟩ := by
    intro a b c d f g ha hb hc hd hf hg
    have h1 : (a ++ b ++ c ++ d ++ f ++ g).take 4 = a := by
      simp only [List.append_assoc]; exact List.take_left' ha
    have h2 := take_drop_append (p := a) (q := c ++ d ++ f ++ g) ha hb
    have h3 := take_drop_append (p := a ++ b) (q := d ++ f ++ g) (i := 8) (by simp [ha, hb]) hc
    have h5 := take_drop_append (p := a ++ b ++ c) (q := f ++ g) (i := 16)
      (by simp [ha, hb, hc]) hd
    have h6 := take_drop_append (p := a ++ b ++ c ++ d) (q := g) (i := 24)
      (by simp [ha, hb, hc, hd]) hf
    have h7 := take_drop_append (p := a ++ b ++ c ++ d ++ f) (q := []) (i := 28)
      (by simp [ha, hb, hc, hd, hf]) hg
    simp only [List.append_assoc, List.append_nil] at h1 h2 h3 h5 h6 h7 ⊢
    simp only [BlockInfo.decode, h1, h2, h3, h5, h6, h7]
  rw [BlockInfo.encode, e _ _ _ _ _ _ (length_leBytes ..) (length_leBytes ..) (length_leBytes ..)
    (length_leBytes ..) (length_leBytes ..) (length_leBytes ..)]
  simp only [leValue_leBytes, h4, h8]

/-- Record `i` of the `block_info` table at `off`. -/
def infoAt (m : Image) (off i : ℕ) : BlockInfo :=
  BlockInfo.decode (m.slice (off + i * sizeofBlockInfo) sizeofBlockInfo)

/-- A record stored whole is the record read. -/
theorem infoAt_patch_same {m : Image} {off i : ℕ} (bi : BlockInfo) :
    infoAt (m.patch (off + i * sizeofBlockInfo) bi.encode) off i = BlockInfo.decode bi.encode := by
  have := slice_patch m (off + i * sizeofBlockInfo) bi.encode
  rw [BlockInfo.length_encode] at this
  rw [infoAt, this]

/-- Storing outside a record leaves it. -/
theorem infoAt_patch_disjoint {m : Image} {off i p : ℕ} {bs : List UInt8}
    (h : p + bs.length ≤ off + i * sizeofBlockInfo ∨
      off + i * sizeofBlockInfo + sizeofBlockInfo ≤ p) :
    infoAt (m.patch p bs) off i = infoAt m off i := by
  rw [infoAt, infoAt, slice_patch_disjoint h]

end Records
