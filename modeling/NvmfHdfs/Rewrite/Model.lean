/-
  `rewrite.c`: the mounted file system.

  The state holds the device descriptor with its real position and the globals
  of the file.  The three tables are total functions, zero-filled when the
  mount starts; their index `BLOCK_NUM`, which the lookup loops read, is a cell
  of its own.  A step is undefined (`none`) where the C code has no defined
  behaviour: a scan past its buffer, a bitmap access past its block, the slot
  number `-1` of a full bitmap, a macro that leaves `int`.
-/
import NvmfHdfs.Bitmap
import NvmfHdfs.Path
import NvmfHdfs.Records
import NvmfHdfs.Lib.CText
import NvmfHdfs.Lib.Machine

namespace Rewrite

open CInt CText Layout Bitmap Path Records

/-- `struct file_meta` and `struct file_data`. -/
structure FileEntry where
  block_id : ℕ
  size : ℕ
  name : List Char

/-- `struct file_fd`. -/
structure FileFd where
  block_id : ℕ
  data_block_id : ℕ
  size : ℕ
  dev_offset : ℕ
  fd : ℕ
  flag : ℕ

/-- The globals. -/
structure Lfs where
  fd : Descriptor
  cur_offset : ℕ
  dev_size : ℕ
  block_size : ℕ
  block_id_use : ℕ
  p_bitmap : List UInt8
  pMeta : ℕ → FileEntry
  pData : ℕ → FileEntry
  pFd : ℕ → FileFd

namespace Lfs

/-- `BLOCK_NUM(dev_size,block_size)`. -/
def num (s : Lfs) : ℕ := blockNum s.dev_size s.block_size

/-- `int bit_size=BLOCK_NUM(dev_size,block_size)`; a negative one is not a size. -/
def bitSize (s : Lfs) : Option ℕ :=
  if 0 ≤ toInt s.num then some (toInt s.num).toNat else none

/-- `int bi_len=INFO_SIZE(dev_size,block_size)`; a negative one is not a length. -/
def biLen (s : Lfs) : Option ℕ :=
  let bi_len := toInt (infoSize s.dev_size s.block_size)
  if 0 ≤ bi_len then some bi_len.toNat else none

/-- The table of a kind of files. -/
def files (s : Lfs) : Kind → ℕ → FileEntry
  | .metaFile => s.pMeta
  | .dataFile => s.pData

/-- Assigning entry `i` of the table of a kind of files. -/
def setFile (s : Lfs) (k : Kind) (i : ℕ) (e : FileEntry) : Lfs :=
  match k with
  | .metaFile => { s with pMeta := Function.update s.pMeta i e }
  | .dataFile => { s with pData := Function.update s.pData i e }

/-- The index into `pFd` of the file of kind `k` in slot `i`. -/
def handle (s : Lfs) (k : Kind) (i : ℕ) : ℕ :=
  match k with
  | .metaFile => i + 3
  | .dataFile => i + s.num + 2

end Lfs

/-! ## Reading the metadata -/

/-- `bi[i]` in the block of memory `bi`. -/
def infoGet (bi : List UInt8) (i : ℕ) : Option BlockInfo :=
  if (i + 1) * sizeofBlockInfo ≤ bi.length then
    some (BlockInfo.decode ((bi.drop (i * sizeofBlockInfo)).take sizeofBlockInfo))
  else none

/-- The start of `lfs_getattrr` and `lfs_readdir`: the `block_info` table, the used slots
    and the descriptor after both were read. -/
def readUsed (s : Lfs) : Option (List UInt8 × List ℕ × Descriptor) := do
  let bi_len ← s.biLen
  let off ← infoOffset s.dev_size s.block_size
  let fd ← s.fd.lseek off
  let (bi, fd) ← fd.read bi_len
  let (p_bitmap, fd) ← readBitmap fd (toInt s.dev_size) (toInt s.block_size)
  let bit_size ← s.bitSize
  let (bm_list, bm_list_len) ← bitmapUsedblockid p_bitmap bit_size 0 bit_size
  some (bi, (bm_list.take bm_list_len).map Int.toNat, fd)

/-! ## getattr and readdir -/

/-- The fields of `struct stat` that are set. -/
structure Stat where
  st_mode : ℕ
  st_size : ℤ
deriving DecidableEq, Repr

/-- `S_IFDIR | 0755`. -/
def modeDir : ℕ := 0o040755

/-- `S_IFREG | 0644`. -/
def modeReg : ℕ := 0o100644

/-- The scan of `lfs_getattrr` for the first used slot whose record has the id. -/
def findInfo (bi : List UInt8) (b_block_id : ℤ) : List ℕ → Option (Option (ℕ × BlockInfo))
  | [] => some none
  | i :: l => do
    let r ← infoGet bi i
    if r.b_block_id = toU32 b_block_id then some (some (i, r)) else findInfo bi b_block_id l

/-- The length a record holds for a kind of files. -/
def lengthOf (r : BlockInfo) : Kind → ℕ
  | .metaFile => r.b_csm_length
  | .dataFile => r.b_data_length

/-- `lfs_getattrr`. -/
def lfsGetattrr (s : Lfs) (path : List Char) : Option (Stat × Lfs) := do
  let (k, b_block_id) ← parsePath path
  let st_mode := if path = ['/'] then modeDir else modeReg
  let (bi, bm_list, fd) ← readUsed s
  let s := { s with fd := fd }
  match ← findInfo bi b_block_id bm_list with
  | none => some (⟨st_mode, 0⟩, s)
  | some (i, r) =>
    let e : FileEntry := ⟨toU64 b_block_id, lengthOf r k, (s.files k i).name⟩
    some (⟨st_mode, toI64 e.size⟩, s.setFile k i e)

/-- `"blk_%d_1001.meta"` and `"blk_%d"`. -/
def listName (k : Kind) (id : ℤ) : List Char :=
  ['b', 'l', 'k', '_'] ++ printInt id ++
    match k with
    | .metaFile => ['_', '1', '0', '0', '1', '.', 'm', 'e', 't', 'a']
    | .dataFile => []

/-- The loop of `lfs_readdir` in either program: the names passed to `filler`, each printed into
    the 20 bytes of its table entry first, which is what `put` does. -/
def nameLoop {σ : Type} (put : ℕ → List Char → σ → σ) (k : Kind) (bi : List UInt8) :
    List ℕ → σ → Option (List (List Char) × σ)
  | [], s => some ([], s)
  | i :: l, s => do
    let r ← infoGet bi i
    let name := listName k (toInt r.b_block_id)
    if name.length < 20 then do
      let (names, s) ← nameLoop put k bi l (put i name s)
      some (name :: names, s)
    else none

/-- Printing a name into its entry. -/
def putName (k : Kind) (i : ℕ) (name : List Char) (s : Lfs) : Lfs :=
  s.setFile k i { s.files k i with name := name }

/-- The loop of `lfs_readdir`. -/
def listLoop (k : Kind) : List UInt8 → List ℕ → Lfs → Option (List (List Char) × Lfs) :=
  nameLoop (putName k) k

/-- `-ENOENT`. -/
def enoent : ℤ := -2

/-- `lfs_readdir`: the value it returns and the names it passes to `filler`. -/
def lfsReaddir (s : Lfs) (path : List Char) : Option ((ℤ × List (List Char)) × Lfs) := do
  let (k, _) ← parsePath path
  if path ≠ ['/'] then some ((enoent, []), s) else do
    let (bi, bm_list, fd) ← readUsed s
    let (names, s) ← listLoop k bi bm_list { s with fd := fd }
    some ((0, ['.'] :: ['.', '.'] :: names), s)

/-! ## open -/

/-- The lookup loops of `lfs_open`, whose `int i` runs up to `BLOCK_NUM` inclusive. -/
def findFile (tab : ℕ → FileEntry) (n : ℕ) (b_block_id : ℤ) : Option (Option ℕ) :=
  match (List.range (n + 1)).find? fun i => (tab i).block_id == toU64 b_block_id with
  | some i => if i < 2 ^ 31 then some (some i) else none
  | none => if n + 1 < 2 ^ 31 then some none else none

/-- `DATA_OFFSET + data_block_id * block_size`, plus `2*MB_SIZE` for a data file. -/
def areaOffset (s : Lfs) (k : Kind) (i : ℕ) : Option ℕ := do
  let off ← dataOffset s.dev_size s.block_size
  match k with
  | .metaFile => some (toU64 (off + i * s.block_size : ℕ))
  | .dataFile => some (toU64 (off + i * s.block_size + 2 * mbSize : ℕ))

/-- The meta branch of `lfs_open` for a file that is not in `pMeta`. -/
def openMetaNew (s : Lfs) (b_block_id : ℤ) : Option (ℕ × Lfs) := do
  let bit_size ← s.bitSize
  let (p_bitmap, fd) ← readBitmap s.fd (toInt s.dev_size) (toInt s.block_size)
  let availablelist ← bitmapAvailableblockid 1 bit_size p_bitmap
  let data_block_id ← availablelist.head?
  let fh := data_block_id + 3
  let dev_offset ← areaOffset s .metaFile data_block_id
  let (_, p_bitmap) ← bitmapSet data_block_id p_bitmap bit_size
  let len ← bitmapSize s.dev_size s.block_size
  let fd ← writeBitmap fd len p_bitmap
  some (fh, { s with
    fd := fd
    pMeta := Function.update s.pMeta data_block_id
      { s.pMeta data_block_id with block_id := toU64 b_block_id }
    pFd := Function.update s.pFd fh
      ⟨toU64 b_block_id, data_block_id, (s.pFd fh).size, dev_offset, fh, 0⟩ })

/-- The data branch of `lfs_open` for a file that is not in `pData`: the bitmap is the
    global one. -/
def openDataNew (s : Lfs) (b_block_id : ℤ) : Option (ℕ × Lfs) := do
  let bit_size ← s.bitSize
  let availablelist ← bitmapAvailableblockid 1 bit_size s.p_bitmap
  let data_block_id ← availablelist.head?
  let fh := data_block_id + s.num + 2
  let dev_offset ← areaOffset s .dataFile data_block_id
  let (_, p_bitmap) ← bitmapSet data_block_id s.p_bitmap bit_size
  let len ← bitmapSize s.dev_size s.block_size
  let fd ← writeBitmap s.fd len p_bitmap
  some (fh, { s with
    fd := fd
    block_id_use := s.block_id_use + 1
    p_bitmap := p_bitmap
    pData := Function.update s.pData data_block_id
      { s.pData data_block_id with block_id := toU64 b_block_id }
    pFd := Function.update s.pFd fh
      ⟨toU64 b_block_id, data_block_id, (s.pFd fh).size, dev_offset, fh, 1⟩ })

/-- `lfs_open`: `fi->fh` and the state after it. -/
def lfsOpen (s : Lfs) (path : List Char) : Option (ℕ × Lfs) := do
  let (k, b_block_id) ← parsePath path
  match k with
  | .metaFile =>
    match ← findFile s.pMeta s.num b_block_id with
    | some i =>
      -- `data_block_id` is still `-1` where it is stored
      let fh := i + 3
      let e := { s.pFd fh with fd := fh, data_block_id := toU64 (-1) }
      some (fh, { s with pFd := Function.update s.pFd fh e })
    | none => openMetaNew s b_block_id
  | .dataFile =>
    match ← if s.block_id_use ≠ 0 then findFile s.pData s.num b_block_id else some none with
    | some i =>
      let fh := i + s.num + 2
      let e := { s.pFd fh with fd := fh, data_block_id := i }
      some (fh, { s with pFd := Function.update s.pFd fh e })
    | none => openDataNew s b_block_id

/-! ## release, write and read -/

/-- The record `lfs_release` stores for a handle: a local variable `bi`, whose other fields
    keep what the stack held. -/
def releaseInfo (e : FileFd) (bi : BlockInfo) : BlockInfo :=
  let bi := { bi with b_block_id := toU32 e.block_id }
  if e.flag = 0 then { bi with b_csm_length := e.size } else { bi with b_data_length := e.size }

/-- `bi_offset` of `lfs_release`. -/
def releaseOffset (s : Lfs) (fh : ℕ) : Option ℕ := do
  let off ← infoOffset s.dev_size s.block_size
  some (toU64 (off + (s.pFd fh).data_block_id * sizeofBlockInfo : ℕ))

/-- `lfs_release`, with the initial content of its local variable `bi`. -/
def lfsRelease (s : Lfs) (fh : ℕ) (bi : BlockInfo) : Option Lfs := do
  let bi_offset ← releaseOffset s fh
  let fd ← s.fd.lseek bi_offset
  let fd ← fd.write (releaseInfo (s.pFd fh) bi).encode
  some { s with fd := fd, cur_offset := toU64 (bi_offset + sizeofBlockInfo : ℕ) }

/-- `dev_offset` of `lfs_write` and `lfs_read`: `pFd[fh].dev_offset + offset` on `uint64_t`. -/
def devOffset (s : Lfs) (fh offset : ℕ) : ℕ := toU64 ((s.pFd fh).dev_offset + offset : ℕ)

/-- The seek of `lfs_write` and `lfs_read`, skipped if `cur_offset` says so. -/
def seekTo (s : Lfs) (dev_offset : ℕ) : Option Descriptor :=
  if s.cur_offset ≠ dev_offset then s.fd.lseek dev_offset else some s.fd

/-- `lfs_write` of `buf` (`size` is its length). -/
def lfsWrite (s : Lfs) (fh : ℕ) (buf : List UInt8) (offset : ℕ) : Option (ℤ × Lfs) := do
  let dev_offset := devOffset s fh offset
  let fd ← seekTo s dev_offset
  let fd ← fd.write buf
  some (toInt buf.length, { s with
    fd := fd
    cur_offset := toU64 (dev_offset + buf.length : ℕ)
    pFd := Function.update s.pFd fh
      { s.pFd fh with size := toU64 ((s.pFd fh).size + buf.length : ℕ) } })

/-- `lfs_read`: the value it returns and what it puts into `buf`. -/
def lfsRead (s : Lfs) (fh size offset : ℕ) : Option ((ℤ × List UInt8) × Lfs) := do
  let dev_offset := devOffset s fh offset
  let fd ← seekTo s dev_offset
  let (buf, fd) ← fd.read size
  some ((toInt size, buf), { s with
    fd := fd
    cur_offset := toU64 (dev_offset + size : ℕ) })

/-! ## main and the mounted system -/

/-- `main` up to `fuse_main`, on a device it can open: the mounted state. -/
def main (image : Image) : Option Lfs := do
  let (sbBytes, fd) ← (⟨image, 0⟩ : Descriptor).read sizeofSuperBlock
  let sb := SuperBlock.decode sbBytes
  if sb.s_magic ≠ mkSuperMagic then none else do
    let (p_bitmap, fd) ← readBitmap fd (toInt sb.s_dev_size) (toInt sb.s_block_size)
    some {
      fd := fd
      cur_offset := 0
      dev_size := sb.s_dev_size
      block_size := sb.s_block_size
      block_id_use := 0
      p_bitmap := p_bitmap
      pMeta := fun _ => ⟨0, 0, []⟩
      pData := fun _ => ⟨0, 0, []⟩
      pFd := fun _ => ⟨0, 0, 0, 0, 0, 0⟩ }

/-- The calls of the file system. -/
inductive Call where
  | getattr (path : List Char)
  | readdir (path : List Char)
  | open (path : List Char)
  | read (fh size offset : ℕ)
  | write (fh : ℕ) (buf : List UInt8) (offset : ℕ)
  | release (fh : ℕ) (bi : BlockInfo)

/-- What a call hands back. -/
inductive Reply where
  | attr (st : Stat)
  | entries (ret : ℤ) (names : List (List Char))
  | opened (fh : ℕ)
  | bytes (ret : ℤ) (buf : List UInt8)
  | wrote (ret : ℤ)
  | released

/-- One call. -/
def step (s : Lfs) : Call → Option (Reply × Lfs)
  | .getattr path => (lfsGetattrr s path).map fun r => (.attr r.1, r.2)
  | .readdir path => (lfsReaddir s path).map fun r => (.entries r.1.1 r.1.2, r.2)
  | .open path => (lfsOpen s path).map fun r => (.opened r.1, r.2)
  | .read fh size offset => (lfsRead s fh size offset).map fun r => (.bytes r.1.1 r.1.2, r.2)
  | .write fh buf offset => (lfsWrite s fh buf offset).map fun r => (.wrote r.1, r.2)
  | .release fh bi => (lfsRelease s fh bi).map fun s' => (.released, s')

/-- The mounted file system. -/
def system : Machine Lfs Call Reply := ⟨step⟩

end Rewrite
