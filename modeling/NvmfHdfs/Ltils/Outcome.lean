/-
  What a call does, case by case.

  `Outcome s c r s'` lists the ways a call `c` can take the state `s` to `s'`
  with reply `r`, each with the facts the code has established on that path:

    - `getattrMiss`, `getattrHit`: the scan of the used slots for the id;
    - `readdirOther`, `readdirRoot`;
    - `openFound`, `openNew`: the file is in the table, or takes a slot;
    - `write`;
    - `read`, `readIllegal`: by the first length that is positive.

  `step_outcome` is the inversion of `step`; the invariants are proved from it.
-/
import NvmfHdfs.Ltils.Model

namespace Ltils

open CInt Layout Bitmap Path Records
open Rewrite (Stat usedSlots lookup slotName findInfo_slice nameLoop_eq_some enoent modeOf
  lengthOf)

variable {s s' : Lfs} {m : Image} {path : List Char} {off n i : ℕ}

/-- The state of `rewrite.c` with the same device. -/
def asRewrite (s : Lfs) : Rewrite.Lfs where
  fd := s.fd
  cur_offset := 0
  dev_size := s.dev_size
  block_size := s.block_size
  block_id_use := 0
  p_bitmap := []
  pMeta := fun _ => ⟨0, 0, []⟩
  pData := fun _ => ⟨0, 0, []⟩
  pFd := fun _ => ⟨0, 0, 0, 0, 0, 0⟩

/-- Both programs read the records and the bitmap the same way. -/
theorem readUsed_eq (s : Lfs) : readUsed s = Rewrite.readUsed (asRewrite s) := rfl

/-- What `lfs_getattrr` and `lfs_readdir` have read, and where the descriptor is then. -/
theorem readUsed_eq_some {bi : List UInt8} {used : List ℕ} {fd : Descriptor}
    (h : readUsed s = some (bi, used, fd)) : ∃ off n len k,
      infoOffset s.dev_size s.block_size = some off ∧ s.bitSize = some n ∧
      readBitmapSize (toInt s.dev_size) (toInt s.block_size) = some len ∧
      bi = s.fd.image.slice off k ∧ used = usedSlots s.fd.image n ∧
      fd = ⟨s.fd.image, bitmapOffset + len⟩ ∧ ∀ j < n, j / 8 < len := by
  rw [readUsed_eq] at h
  have hread := Rewrite.readUsed_eq_some h
  exact hread

/-- The entry of a file whose record `lfs_getattr` found. -/
def noted (e : FileDirectory) (r : BlockInfo) (c_offset : ℕ) (k : Kind) : FileDirectory :=
  (noteLength { e with block_id := r.b_block_id, c_offset := c_offset } r k).1

/-- Only `flag` and `real_offset` are assigned. -/
theorem with_block_id (e : FileDirectory) (flag real_offset : ℕ) :
    { e with flag := flag, real_offset := real_offset }.block_id = e.block_id := rfl

@[simp] theorem setFlag_block_id (e : FileDirectory) (k : Kind) :
    (setFlag e k).block_id = e.block_id := by
  cases k with
  | metaFile => rfl
  | dataFile => exact with_block_id e _ _

/-- The entry of a file that takes slot `i`. -/
def opened (e : FileDirectory) (b : ℤ) (c_offset i : ℕ) (k : Kind) : FileDirectory :=
  setFlag { e with c_offset := c_offset, block_id := toU32 b, file_fd := toU32 (i + 3 : ℕ) } k

/-- The entry after `n` bytes were written up to `dev_offset + n`. -/
def written (e : FileDirectory) (dev_offset n : ℕ) : FileDirectory :=
  { e with
    csize := toU32 (e.csize + n : ℕ)
    dsize := toU32 (e.dsize + n : ℕ)
    cur_offset := toU32 (dev_offset + n : ℕ) }

/-- The length `lfs_read` checks. -/
def readLen (e : FileDirectory) : ℕ := if 0 < e.csize then e.csize else e.dsize

/-- The start of the area `lfs_read` reads. -/
def readBase (e : FileDirectory) : ℕ := if 0 < e.csize then e.c_offset else e.c_offset + 2 * mbSize

/-- The ways a call takes a state to the next. -/
inductive Outcome (s : Lfs) : Call → Reply → Lfs → Prop
  | getattrMiss {path k b off n len} (hp : parsePath path = some (k, b))
      (hoff : infoOffset s.dev_size s.block_size = some off) (hn : s.bitSize = some n)
      (hlen : readBitmapSize (toInt s.dev_size) (toInt s.block_size) = some len)
      (hcov : ∀ j < n, j / 8 < len) (hl : lookup s.fd.image off n b = none) :
      Outcome s (.getattr path) (.attr ⟨modeOf path, 0⟩)
        { s with fd := ⟨s.fd.image, bitmapOffset + len⟩ }
  | getattrHit {path k b off n len i c} (hp : parsePath path = some (k, b))
      (hoff : infoOffset s.dev_size s.block_size = some off) (hn : s.bitSize = some n)
      (hlen : readBitmapSize (toInt s.dev_size) (toInt s.block_size) = some len)
      (hcov : ∀ j < n, j / 8 < len) (hl : lookup s.fd.image off n b = some i)
      (hc : slotOffset s i = some c) :
      Outcome s (.getattr path)
        (.attr ⟨modeOf path, toU32 (lengthOf (infoAt s.fd.image off i) k)⟩)
        (({ s with fd := ⟨s.fd.image, bitmapOffset + len⟩ } : Lfs).setFile i
          (noted (s.file i) (infoAt s.fd.image off i) c k))
  | readdirOther {path k b} (hp : parsePath path = some (k, b)) (h : path ≠ ['/']) :
      Outcome s (.readdir path) (.entries enoent []) s
  | readdirRoot {off n len file}
      (hoff : infoOffset s.dev_size s.block_size = some off) (hn : s.bitSize = some n)
      (hlen : readBitmapSize (toInt s.dev_size) (toInt s.block_size) = some len)
      (hcov : ∀ j < n, j / 8 < len)
      (hd : ∀ j, file j = { s.file j with data_name := (file j).data_name }) :
      Outcome s (.readdir ['/'])
        (.entries 0 (['.'] :: ['.', '.'] ::
          (usedSlots s.fd.image n).map (slotName s.fd.image off)))
        { s with fd := ⟨s.fd.image, bitmapOffset + len⟩, file := file }
  | openFound {path k b i len} (hp : parsePath path = some (k, b))
      (hf : findFile s.file s.num b = some (some i))
      (hlen : readBitmapSize (toInt s.dev_size) (toInt s.block_size) = some len) :
      Outcome s (.open path) (.opened (i + 3))
        (({ s with fd := ⟨s.fd.image, bitmapOffset + len⟩ } : Lfs).setFile i
          (setFlag { s.file i with file_fd := toU32 (i + 3 : ℕ) } k))
  | openNew {path k b n len wlen i c v p} (hp : parsePath path = some (k, b))
      (hf : findFile s.file s.num b = some none) (hn : s.bitSize = some n)
      (hlen : readBitmapSize (toInt s.dev_size) (toInt s.block_size) = some len)
      (hfree : firstFree (bit (s.fd.image.slice bitmapOffset len)) n = some i)
      (hc : slotOffset s i = some c)
      (hset : bitmapSet i (s.fd.image.slice bitmapOffset len) n = some (v, p))
      (hw : bitmapSize s.dev_size s.block_size = some wlen) (hwl : wlen ≤ p.length) :
      Outcome s (.open path) (.opened (i + 3))
        (({ s with fd := ⟨s.fd.image.patch bitmapOffset (p.take wlen), bitmapOffset + wlen⟩ } :
          Lfs).setFile i (opened (s.file i) b c i k))
  | write {fh buf offset fd} (hfh : 3 ≤ fh) (hs : seekTo s fh (devOffset s fh offset) = some fd)
      (hw : fd.pos + buf.length ≤ Descriptor.offMax) :
      Outcome s (.write fh buf offset) (.wrote (toInt buf.length))
        (({ s with fd := ⟨fd.image.patch fd.pos buf, fd.pos + buf.length⟩ } : Lfs).setFile (fh - 3)
          (written (s.file (fh - 3)) (devOffset s fh offset) buf.length))
  | read {fh size offset p} (hfh : 3 ≤ fh) (hl : 0 < readLen (s.file (fh - 3)))
      (hill : ¬ illegal (readLen (s.file (fh - 3))) size offset)
      (hp : p = toU64 (readBase (s.file (fh - 3)) + offset : ℕ))
      (hr : p + size ≤ Descriptor.offMax) :
      Outcome s (.read fh size offset) (.bytes (toInt size) (s.fd.image.slice p size))
        { s with fd := ⟨s.fd.image, p + size⟩ }
  | readIllegal {fh size offset} (hfh : 3 ≤ fh)
      (hill : illegal (readLen (s.file (fh - 3))) size offset) :
      Outcome s (.read fh size offset) (.bytes 0 []) s

/-! ## The inversion of a step -/

theorem getattr_outcome {st : Stat} (h : lfsGetattrr s path = some (st, s')) :
    Outcome s (.getattr path) (.attr st) s' := by
  unfold lfsGetattrr at h
  obtain ⟨⟨k, b⟩, hp, h⟩ := Option.bind_eq_some_iff.1 h
  obtain ⟨⟨bi, used, fd⟩, hu, h⟩ := Option.bind_eq_some_iff.1 h
  obtain ⟨r, hr, h⟩ := Option.bind_eq_some_iff.1 h
  obtain ⟨off, n, len, c, hoff, hn, hlen, rfl, rfl, rfl, hcov⟩ := readUsed_eq_some hu
  have hr' := findInfo_slice hr
  cases hl : lookup s.fd.image off n b with
  | none =>
    rw [lookup] at hl
    rw [hl] at hr'; subst hr'
    cases h; exact .getattrMiss hp hoff hn hlen hcov hl
  | some i =>
    have hl' := hl
    rw [lookup] at hl'
    rw [hl'] at hr'; subst hr'
    obtain ⟨c_offset, hc, h⟩ := Option.bind_eq_some_iff.1 h
    cases h
    have := Outcome.getattrHit (s := s) hp hoff hn hlen hcov hl hc
    cases k <;> exact this

/-- The listing loop changes names only. -/
theorem listLoop_eq_some {k : ℕ} {l : List ℕ} {names : List (List Char)}
    (h : listLoop .dataFile (m.slice off k) l s = some (names, s')) :
    names = l.map (slotName m off) ∧ ∃ file, s' = { s with file := file } ∧
      ∀ j, file j = { s.file j with data_name := (file j).data_name } := by
  obtain ⟨hnames, hkept⟩ := nameLoop_eq_some h
  refine ⟨hnames, hkept (fun u => ∃ file, u = { s with file := file } ∧
    ∀ j, file j = { s.file j with data_name := (file j).data_name }) ?_ ?_⟩
  · exact ⟨s.file, rfl, fun j => rfl⟩
  rintro i name u ⟨file, rfl, hd⟩
  refine ⟨_, rfl, fun j => ?_⟩
  dsimp only
  rw [Function.update_apply]
  split_ifs with hj
  · subst hj
    dsimp only [setName]
    rw [hd j]
  · exact hd j

theorem readdir_outcome {r : ℤ × List (List Char)} (h : lfsReaddir s path = some (r, s')) :
    Outcome s (.readdir path) (.entries r.1 r.2) s' := by
  unfold lfsReaddir at h
  obtain ⟨⟨k, b⟩, hp, h⟩ := Option.bind_eq_some_iff.1 h
  dsimp only at h
  split_ifs at h with hroot
  · cases h; exact .readdirOther hp hroot
  · obtain rfl : path = ['/'] := by simpa using hroot
    rw [parsePath_root] at hp; cases hp
    obtain ⟨⟨bi, used, fd⟩, hu, h⟩ := Option.bind_eq_some_iff.1 h
    obtain ⟨⟨names, s₁⟩, hl, h⟩ := Option.bind_eq_some_iff.1 h
    cases h
    obtain ⟨off, n, len, c, hoff, hn, hlen, rfl, rfl, rfl, hcov⟩ := readUsed_eq_some hu
    obtain ⟨rfl, file, rfl, hd⟩ := listLoop_eq_some hl
    exact .readdirRoot hoff hn hlen hcov hd

theorem open_outcome {fh : ℕ} (h : lfsOpen s path = some (fh, s')) :
    Outcome s (.open path) (.opened fh) s' := by
  unfold lfsOpen at h
  obtain ⟨⟨k, b⟩, hp, h⟩ := Option.bind_eq_some_iff.1 h
  obtain ⟨o, hf, h⟩ := Option.bind_eq_some_iff.1 h
  obtain ⟨⟨p, fd⟩, hr, h⟩ := Option.bind_eq_some_iff.1 h
  obtain ⟨len, hlen, rfl, rfl⟩ := readBitmap_eq_some hr
  cases o with
  | some i => cases h; exact .openFound hp hf hlen
  | none =>
    obtain ⟨n, hn, h⟩ := Option.bind_eq_some_iff.1 h
    obtain ⟨l, ha, h⟩ := Option.bind_eq_some_iff.1 h
    obtain ⟨i, hi, h⟩ := Option.bind_eq_some_iff.1 h
    obtain ⟨c, hc, h⟩ := Option.bind_eq_some_iff.1 h
    obtain ⟨⟨v, p'⟩, hset, h⟩ := Option.bind_eq_some_iff.1 h
    obtain ⟨wlen, hw, h⟩ := Option.bind_eq_some_iff.1 h
    obtain ⟨fd', hwr, h⟩ := Option.bind_eq_some_iff.1 h
    cases h
    obtain ⟨hwl, rfl⟩ := writeBitmap_eq_some hwr
    exact .openNew hp hf hn hlen (firstFree_of_head ha hi) hc hset hw hwl

theorem write_outcome {fh offset : ℕ} {buf : List UInt8} {r : ℤ}
    (h : lfsWrite2 s fh buf offset = some (r, s')) :
    Outcome s (.write fh buf offset) (.wrote r) s' := by
  unfold lfsWrite2 at h
  split_ifs at h with hfh
  obtain ⟨fd, hs, h⟩ := Option.bind_eq_some_iff.1 h
  obtain ⟨fd', hw, h⟩ := Option.bind_eq_some_iff.1 h
  simp only [Option.some.injEq, Prod.mk.injEq] at h
  obtain ⟨rfl, rfl⟩ := h
  obtain ⟨hle, rfl⟩ := Descriptor.write_eq_some.1 hw
  exact .write (Nat.le_of_not_lt hfh) hs hle

/-- The end of `lfs_read`, in either area. -/
theorem read_at {fh size offset : ℕ} {ret : ℤ} {buf : List UInt8} (hfh : 3 ≤ fh)
    (hl : 0 < readLen (s.file (fh - 3))) (hill : ¬ illegal (readLen (s.file (fh - 3))) size offset)
    (h : (do
      let fd ← s.fd.lseek (toU64 (readBase (s.file (fh - 3)) + offset : ℕ))
      let (buf, fd) ← fd.read size
      some ((toInt size, buf), { s with fd := fd })) = some ((ret, buf), s')) :
    Outcome s (.read fh size offset) (.bytes ret buf) s' := by
  obtain ⟨fd, hs, h⟩ := Option.bind_eq_some_iff.1 h
  obtain ⟨⟨buf, fd'⟩, hr, h⟩ := Option.bind_eq_some_iff.1 h
  simp only [Option.some.injEq, Prod.mk.injEq] at h
  obtain ⟨⟨rfl, rfl⟩, rfl⟩ := h
  obtain ⟨-, rfl⟩ := Descriptor.lseek_eq_some.1 hs
  obtain ⟨hle, rfl, rfl⟩ := Descriptor.read_eq_some.1 hr
  exact .read hfh hl hill rfl hle

theorem read_outcome {fh size offset : ℕ} {ret : ℤ} {buf : List UInt8}
    (h : lfsRead s fh size offset = some ((ret, buf), s')) :
    Outcome s (.read fh size offset) (.bytes ret buf) s' := by
  unfold lfsRead at h
  dsimp only at h
  split_ifs at h with hfh hc hill hd hill
  · cases h; exact .readIllegal (Nat.le_of_not_lt hfh) (by rwa [readLen, if_pos hc])
  · have hlen : readLen (s.file (fh - 3)) = (s.file (fh - 3)).csize := if_pos hc
    have hbase : readBase (s.file (fh - 3)) = (s.file (fh - 3)).c_offset := if_pos hc
    rw [← hlen] at hc hill
    rw [← hbase] at h
    exact read_at (Nat.le_of_not_lt hfh) hc hill h
  · cases h; exact .readIllegal (Nat.le_of_not_lt hfh) (by rwa [readLen, if_neg hc])
  · have hlen : readLen (s.file (fh - 3)) = (s.file (fh - 3)).dsize := if_neg hc
    have hbase : readBase (s.file (fh - 3)) = (s.file (fh - 3)).c_offset + 2 * mbSize := if_neg hc
    rw [← hlen] at hd hill
    rw [← hbase] at h
    exact read_at (Nat.le_of_not_lt hfh) hd hill h

/-- **What a step can do.** -/
theorem step_outcome {c : Call} {r : Reply} (h : system.step s c = some (r, s')) :
    Outcome s c r s' := by
  change step s c = some (r, s') at h
  cases c <;> simp only [step, Option.map_eq_some_iff, Prod.mk.injEq, Prod.exists] at h
  case getattr => obtain ⟨_, _, h', rfl, rfl⟩ := h; exact getattr_outcome h'
  case readdir => obtain ⟨_, _, _, h', rfl, rfl⟩ := h; exact readdir_outcome h'
  case «open» => obtain ⟨_, _, h', rfl, rfl⟩ := h; exact open_outcome h'
  case write => obtain ⟨_, _, h', rfl, rfl⟩ := h; exact write_outcome h'
  case read => obtain ⟨_, _, _, h', rfl, rfl⟩ := h; exact read_outcome h'

end Ltils
