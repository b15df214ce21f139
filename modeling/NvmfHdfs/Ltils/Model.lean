/-
  `ltils.c`: the mounted file system with one table of files.

  One entry of `file` serves the meta file and the data file of a slot.  Each
  entry caches the position of the one descriptor in 32 bits (`cur_offset`).
  The parts that `ltils.c` and `rewrite.c` have in common (the scan of the
  records, the names listed, the modes reported) are those of `rewrite.c`.
  `main` does not clear `file`, so what it holds at first is a parameter.  A
  step is undefined (`none`) where the C code has no defined behaviour: besides
  the cases of `rewrite.c`, a handle below 3 and a read of an empty file, whose
  `data_size` is not initialised.
-/
import NvmfHdfs.Rewrite.Mount

namespace Ltils

open CInt CText Layout Bitmap Path Records
open Rewrite (Stat infoGet findInfo lengthOf modeDir modeReg nameLoop enoent)

/-- `struct file_directory`. -/
structure FileDirectory where
  csm_name : List Char
  data_name : List Char
  block_id : ℕ
  c_offset : ℕ
  real_offset : ℕ
  csize : ℕ
  dsize : ℕ
  file_fd : ℕ
  flag : ℕ
  cur_offset : ℕ

/-- The globals. -/
structure Lfs where
  fd : Descriptor
  dev_size : ℕ
  block_size : ℕ
  file : ℕ → FileDirectory

namespace Lfs

/-- `BLOCK_NUM(dev_size,block_size)`. -/
def num (s : Lfs) : ℕ := blockNum s.dev_size s.block_size

/-- `int bit_size=BLOCK_NUM(dev_size,block_size)`; a negative one is not a size. -/
def bitSize (s : Lfs) : Option ℕ :=
  if 0 ≤ toInt s.num then some (toInt s.num).toNat else none

/-- `int bi_len=INFO_SIZE(dev_size,block_size)`; a negative one is not a length. -/
def biLen (s : Lfs) : Option ℕ :=
  let bi_len := toInt (infoSize s.dev_size s.block_size)
  if 0 ≤ bi_len then some bi_len.toNat else none

/-- Assigning entry `i` of `file`. -/
def setFile (s : Lfs) (i : ℕ) (e : FileDirectory) : Lfs :=
  { s with file := Function.update s.file i e }

end Lfs

/-- `DATA_OFFSET(dev_size, block_size) + i * block_size`. -/
def slotOffset (s : Lfs) (i : ℕ) : Option ℕ := do
  let off ← dataOffset s.dev_size s.block_size
  some (toU64 (off + i * s.block_size : ℕ))

/-! ## getattr and readdir -/

/-- The reads of `lfs_getattrr` and `lfs_readdir`: the `block_info` table, the used slots and
    the descriptor after both were read. -/
def readUsed (s : Lfs) : Option (List UInt8 × List ℕ × Descriptor) := do
  let bi_len ← s.biLen
  let off ← infoOffset s.dev_size s.block_size
  let fd ← s.fd.lseek off
  let (bi, fd) ← fd.read bi_len
  let (p_bitmap, fd) ← readBitmap fd (toInt s.dev_size) (toInt s.block_size)
  let bit_size ← s.bitSize
  let (bm_list, bm_list_len) ← bitmapUsedblockid p_bitmap bit_size 0 bit_size
  some (bi, (bm_list.take bm_list_len).map Int.toNat, fd)

/-- Storing the length of a record, as `uint32_t`, and the length stored. -/
def noteLength (e : FileDirectory) (r : BlockInfo) : Kind → FileDirectory × ℕ
  | .metaFile => ({ e with csize := toU32 r.b_csm_length }, toU32 r.b_csm_length)
  | .dataFile => ({ e with dsize := toU32 r.b_data_length }, toU32 r.b_data_length)

/-- `lfs_getattrr`. -/
def lfsGetattrr (s : Lfs) (path : List Char) : Option (Stat × Lfs) := do
  let (k, b_block_id) ← parsePath path
  let st_mode := if path = ['/'] then modeDir else modeReg
  let (bi, bm_list, fd) ← readUsed s
  let s := { s with fd := fd }
  match ← findInfo bi b_block_id bm_list with
  | none => some (⟨st_mode, 0⟩, s)
  | some (i, r) => do
    let c_offset ← slotOffset s i
    let (e, size) := noteLength { s.file i with block_id := r.b_block_id, c_offset := c_offset } r k
    some (⟨st_mode, size⟩, s.setFile i e)

/-- Printing a name into the table entry. -/
def setName (e : FileDirectory) (name : List Char) : Kind → FileDirectory
  | .metaFile => { e with csm_name := name }
  | .dataFile => { e with data_name := name }

/-- Printing a name into its entry. -/
def putName (k : Kind) (i : ℕ) (name : List Char) (s : Lfs) : Lfs :=
  s.setFile i (setName (s.file i) name k)

/-- The loop of `lfs_readdir`. -/
def listLoop (k : Kind) : List UInt8 → List ℕ → Lfs → Option (List (List Char) × Lfs) :=
  nameLoop (putName k) k

/-- `lfs_readdir`: the value it returns and the names it passes to `filler`. -/
def lfsReaddir (s : Lfs) (path : List Char) : Option ((ℤ × List (List Char)) × Lfs) := do
  let (k, _) ← parsePath path
  if path ≠ ['/'] then some ((enoent, []), s) else do
    let (bi, bm_list, fd) ← readUsed s
    let (names, s) ← listLoop k bi bm_list { s with fd := fd }
    some ((0, ['.'] :: ['.', '.'] :: names), s)

/-! ## open -/

/-- The lookup loop of `lfs_open`, whose `int i` runs up to `BLOCK_NUM` inclusive. -/
def findFile (file : ℕ → FileDirectory) (n : ℕ) (b_block_id : ℤ) : Option (Option ℕ) :=
  match (List.range (n + 1)).find? fun i => (file i).block_id == toU32 b_block_id with
  | some i => if i < 2 ^ 31 then some (some i) else none
  | none => if n + 1 < 2 ^ 31 then some none else none

/-- The end of `lfs_open`: `flag`, and `real_offset` for a data file. -/
def setFlag (e : FileDirectory) : Kind → FileDirectory
  | .metaFile => { e with flag := 1 }
  | .dataFile => { e with flag := 0, real_offset := toU64 (e.c_offset + 2 * mbSize : ℕ) }

/-- `lfs_open`: `fi->fh` and the state after it. -/
def lfsOpen (s : Lfs) (path : List Char) : Option (ℕ × Lfs) := do
  let (k, b_block_id) ← parsePath path
  let found ← findFile s.file s.num b_block_id
  let (p_bitmap, fd) ← readBitmap s.fd (toInt s.dev_size) (toInt s.block_size)
  let s := { s with fd := fd }
  match found with
  | some i =>
    let fh := i + 3
    some (fh, s.setFile i (setFlag { s.file i with file_fd := toU32 fh } k))
  | none => do
    let bit_size ← s.bitSize
    let availablelist ← bitmapAvailableblockid 1 bit_size p_bitmap
    let data_block_id ← availablelist.head?
    let c_offset ← slotOffset s data_block_id
    let fh := data_block_id + 3
    let (_, p_bitmap) ← bitmapSet data_block_id p_bitmap bit_size
    let len ← bitmapSize s.dev_size s.block_size
    let fd ← writeBitmap s.fd len p_bitmap
    let e := { s.file data_block_id with
      c_offset := c_offset, block_id := toU32 b_block_id, file_fd := toU32 fh }
    some (fh, { s with fd := fd }.setFile data_block_id (setFlag e k))

/-! ## write and read -/

/-- `dev_offset` of `lfs_write2`. -/
def devOffset (s : Lfs) (fh offset : ℕ) : ℕ := toU64 ((s.file (fh - 3)).real_offset + offset : ℕ)

/-- The seek of `lfs_write2`, skipped if the `cur_offset` of the entry says so. -/
def seekTo (s : Lfs) (fh dev_offset : ℕ) : Option Descriptor :=
  if (s.file (fh - 3)).cur_offset ≠ dev_offset then s.fd.lseek dev_offset else some s.fd

/-- `lfs_write2` of `buf` (`size` is its length). -/
def lfsWrite2 (s : Lfs) (fh : ℕ) (buf : List UInt8) (offset : ℕ) : Option (ℤ × Lfs) :=
  if fh < 3 then none else do
    let e := s.file (fh - 3)
    let dev_offset := devOffset s fh offset
    let fd ← seekTo s fh dev_offset
    let fd ← fd.write buf
    some (toInt buf.length, { s with fd := fd }.setFile (fh - 3) { e with
      csize := toU32 (e.csize + buf.length : ℕ)
      dsize := toU32 (e.dsize + buf.length : ℕ)
      cur_offset := toU32 (dev_offset + buf.length : ℕ) })

/-- `offset > len && size > (len - offset)`, with `len - offset` on `long` and then converted to
    `size_t`. -/
def illegal (len size offset : ℕ) : Prop := len < offset ∧ toU64 ((len : ℤ) - offset) < size

instance (len size offset : ℕ) : Decidable (illegal len size offset) :=
  inferInstanceAs (Decidable (_ ∧ _))

/-- `lfs_read`: the value it returns and what it puts into `buf`. -/
def lfsRead (s : Lfs) (fh size offset : ℕ) : Option ((ℤ × List UInt8) × Lfs) :=
  if fh < 3 then none else
    let e := s.file (fh - 3)
    if 0 < e.csize then
      if illegal e.csize size offset then some ((0, []), s) else do
        let fd ← s.fd.lseek (toU64 (e.c_offset + offset : ℕ))
        let (buf, fd) ← fd.read size
        some ((toInt size, buf), { s with fd := fd })
    else if 0 < e.dsize then
      if illegal e.dsize size offset then some ((0, []), s) else do
        let fd ← s.fd.lseek (toU64 (e.c_offset + 2 * mbSize + offset : ℕ))
        let (buf, fd) ← fd.read size
        some ((toInt size, buf), { s with fd := fd })
    else none

/-! ## main and the mounted system -/

/-- An entry of zero bytes. -/
def zeroEntry : FileDirectory := ⟨[], [], 0, 0, 0, 0, 0, 0, 0, 0⟩

/-- `main` up to `fuse_main`, on a device it can open, with what `malloc` left in `file`. -/
def main (image : Image) (file : ℕ → FileDirectory) : Option Lfs := do
  let (sbBytes, fd) ← (⟨image, 0⟩ : Descriptor).read sizeofSuperBlock
  let sb := SuperBlock.decode sbBytes
  if sb.s_magic ≠ mkSuperMagic then none else
    some { fd := fd, dev_size := sb.s_dev_size, block_size := sb.s_block_size, file := file }

/-- The calls of the file system that do anything. -/
inductive Call where
  | getattr (path : List Char)
  | readdir (path : List Char)
  | open (path : List Char)
  | write (fh : ℕ) (buf : List UInt8) (offset : ℕ)
  | read (fh size offset : ℕ)

/-- What a call hands back. -/
inductive Reply where
  | attr (st : Stat)
  | entries (ret : ℤ) (names : List (List Char))
  | opened (fh : ℕ)
  | wrote (ret : ℤ)
  | bytes (ret : ℤ) (buf : List UInt8)

/-- One call. -/
def step (s : Lfs) : Call → Option (Reply × Lfs)
  | .getattr path => (lfsGetattrr s path).map fun r => (.attr r.1, r.2)
  | .readdir path => (lfsReaddir s path).map fun r => (.entries r.1.1 r.1.2, r.2)
  | .open path => (lfsOpen s path).map fun r => (.opened r.1, r.2)
  | .write fh buf offset => (lfsWrite2 s fh buf offset).map fun r => (.wrote r.1, r.2)
  | .read fh size offset => (lfsRead s fh size offset).map fun r => (.bytes r.1.1 r.1.2, r.2)

/-- The mounted file system. -/
def system : Machine Lfs Call Reply := ⟨step⟩

end Ltils
