/-
  `ltils.c` as a store of the files that `rewrite.c` has.

  A file is a kind and a slot.  A write goes to the data file of its slot; a
  read is one of the meta file once the entry has a csm length, and else one of
  the data file.

    - `fileOk`: transfers end within the file;
    - `fileOp`: what they ask of the store;
    - `fileProgram`: the store, over all mounts.
-/
import NvmfHdfs.Ltils.CrashStore
import NvmfHdfs.Rewrite.FileStore

namespace Ltils

open CInt Layout Bitmap Path Records Operations
open Rewrite (superBlock superBlock_congr areas areaBytes areaShift)

variable {s s' : Lfs} {c : Call} {r : Reply} {tr : Trace} {fh offset : ℕ} {sb : SuperBlock}
  {buf : List UInt8}

/-- The kind of the file that `lfs_read` reads in a slot. -/
def readKind (e : FileDirectory) : Kind := if 0 < e.csize then .metaFile else .dataFile

theorem areaShift_readKind (e : FileDirectory) : areaShift (readKind e) = readShift e := by
  unfold readKind readShift
  split_ifs <;> rfl

/-- The calls of a store of files: those of a store of slots whose reads end within the file. -/
def fileOk : Machine.Guard Lfs Call Reply := fun tr s c => slotOk tr s c ∧
  match c with
  | .read fh size offset => ¬ illegal (readLen (s.file (fh - 3))) size offset →
      offset + size ≤ areaBytes s.block_size (readKind (s.file (fh - 3)))
  | .write .. | .getattr _ | .readdir _ | .open _ => True

instance (tr : Trace) (s : Lfs) : ∀ c, Decidable (fileOk tr s c)
  | .read fh size offset => inferInstanceAs (Decidable (slotOk tr s _ ∧
      (¬ illegal (readLen (s.file (fh - 3))) size offset →
        offset + size ≤ areaBytes s.block_size (readKind (s.file (fh - 3))))))
  | .write .. | .getattr _ | .readdir _ | .open _ =>
    inferInstanceAs (Decidable (slotOk tr s _ ∧ True))

/-- What a call asks of the store, and what it answers; a read that is illegal asks nothing. -/
def fileOp (_tr : Trace) (e : Machine.Event Lfs Call Reply) :
    Option (Store.Op (Kind × ℕ) × List UInt8) :=
  match e.input, e.output with
  | .read fh size offset, .bytes _ buf =>
    if illegal (readLen (e.pre.file (fh - 3))) size offset then none else
      some (.read (readKind (e.pre.file (fh - 3)), fh - 3) offset size, buf)
  | .write fh buf offset, .wrote _ => some (.write (.dataFile, fh - 3) offset buf, [])
  | _, _ => none

/-- Where a file is in its slot. -/
theorem areas_start (hmb : 2 * mbSize < sb.s_block_size) (k : Kind) (i : ℕ) :
    (areas sb hmb).start (k, i) = (slotRegions sb).start i + areaShift k := rfl

namespace SlotMount
variable (H : SlotMount sb tr s) (G : Geometry sb.s_dev_size sb.s_block_size)
  (hmb : 2 * mbSize < sb.s_block_size)
include H G

/-- A call that is no write leaves the files. -/
theorem files_kept (ho : Outcome s c r s') (hc : ∀ fh buf offset, c ≠ .write fh buf offset) :
    (areas sb hmb).contents s'.fd.image = (areas sb hmb).contents s.fd.image := by
  refine Regions.contents_congr _ ?_
  rintro a ⟨f, x, -, rfl⟩
  refine H.data_kept G ho hc ?_
  dsimp only [areas]
  rw [Nat.add_assoc, Nat.add_assoc]
  exact Nat.le_add_right ..

/-- A write changes its data file only. -/
theorem file_written (hok : slotOk tr s (.write fh buf offset))
    (ho : Outcome s (.write fh buf offset) r s') :
    (areas sb hmb).contents s'.fd.image =
      Function.update ((areas sb hmb).contents s.fd.image) (.dataFile, fh - 3)
        (((areas sb hmb).contents s.fd.image (.dataFile, fh - 3)).patch offset buf) := by
  obtain ⟨hplaced, -⟩ := H.place.real_offset _ hok.2.1
  obtain ⟨hlt, -, -⟩ := H.place_eq G hplaced
  have hlen : (areas sb hmb).len (.dataFile, fh - 3) = areaBytes sb.s_block_size .dataFile :=
    if_pos hlt
  have hend := hok.2.2
  rw [H.block_size] at hend
  have hstart := areas_start hmb .dataFile (fh - 3)
  rw [areaShift] at hstart
  rw [H.write_image G hok ho, ← Nat.add_assoc, ← hstart]
  refine Regions.contents_patch (areas sb hmb) ?_
  rw [hlen, areaBytes]
  omega

/-- A read delivers what its file holds. -/
theorem file_read {size : ℕ} {ret : ℤ} (hok : fileOk tr s (.read fh size offset))
    (ho : Outcome s (.read fh size offset) (.bytes ret buf) s')
    (hill : ¬ illegal (readLen (s.file (fh - 3))) size offset) :
    buf = ((areas sb hmb).contents s.fd.image (readKind (s.file (fh - 3)), fh - 3)).slice
      offset size := by
  obtain ⟨hbuf, -⟩ := H.read_image G hok.1 ho hill
  obtain ⟨hlt, -, -⟩ := H.place_eq G (hok.1.2 hill).1
  have hlen : (areas sb hmb).len (readKind (s.file (fh - 3)), fh - 3) =
      areaBytes sb.s_block_size (readKind (s.file (fh - 3))) := if_pos hlt
  rw [Regions.slice_contents _ (by rw [hlen, ← H.block_size]; exact hok.2 hill), hbuf,
    ← areaShift_readKind, ← Nat.add_assoc, areas_start]

/-- A call that asks nothing of the store leaves the files. -/
theorem files_silent (ho : Outcome s c r s') (he : fileOp tr ⟨s, c, r⟩ = none) :
    (areas sb hmb).contents s'.fd.image = (areas sb hmb).contents s.fd.image := by
  refine H.files_kept G hmb ho ?_
  rintro fh buf offset rfl
  cases ho with
  | write => cases he

/-- A transfer does to the files what it asks of the store. -/
theorem files_matched {op : Store.Op (Kind × ℕ)} {bs : List UInt8} (hok : fileOk tr s c)
    (ho : Outcome s c r s') (he : fileOp tr ⟨s, c, r⟩ = some (op, bs)) :
    Store.machine.step ((areas sb hmb).contents s.fd.image) op =
      some (bs, (areas sb hmb).contents s'.fd.image) := by
  unfold fileOp at he
  split at he
  case h_1 fh size offset ret buf hc hr =>
    dsimp only at hc hr
    subst hc hr
    split_ifs at he with hill
    cases he
    rw [H.files_kept G hmb ho (by rintro _ _ _ ⟨⟩), H.file_read G hmb hok ho hill]
    rfl
  case h_2 fh buf offset ret hc hr =>
    dsimp only at hc hr
    subst hc hr
    cases he
    rw [H.file_written G hmb hok.1 ho]
    rfl
  case h_3 => cases he

end SlotMount

/-- `ltils.c` as a store of files that may crash. -/
def fileProgram (G : Geometry sb.s_dev_size sb.s_block_size) (hmb : 2 * mbSize < sb.s_block_size) :
    StoreProgram system fileOk (fun s => s.fd.image) start (areas sb hmb) where
  Inv := SlotMount sb
  event := fileOp
  header := bitmapOffset
  inv_step H hok hst := H.step G hok.1 (step_outcome hst)
  header_step H hok hst _ ha := H.before_slots G hok.1 (step_outcome hst) ha
  silent H _ hst he := H.files_silent G hmb (step_outcome hst) he
  matched H hok hst he := H.files_matched G hmb hok (step_outcome hst) he
  disk_start := start_image
  inv_start := SlotMount.again

end Ltils
