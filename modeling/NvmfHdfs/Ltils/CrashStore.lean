/-
  `ltils.c` over all its mounts as a store of slots that may crash.

  A write on the handle of a data file goes 2 MB behind the start of its slot; a
  read begins at the start of the slot once the entry has a csm length, which
  any write gives it.  So the files of the store are whole slots.

    - `placed`, `forData`: the slots whose entry has their place, and those whose
      handle was given to a data file;
    - `placeInv_step`: their entries keep it;
    - `slotOk`: transfers are on such handles and stay in the slot, and none
      relies on a stale cursor;
    - `crashes_refine_slots`: every lifetime of a device reads and writes like a
      store of slots with torn writes, and what was written is durable.
-/
import NvmfHdfs.Areas
import NvmfHdfs.Ltils.Cursor
import NvmfHdfs.Mounts

namespace Ltils

open CInt Layout Bitmap Path Records Operations
open Rewrite (superBlock superBlock_congr lookup lookup_eq_some blankDevice)

variable {s s' : Lfs} {image m : Image} {c : Call} {r : Reply} {tr : Trace} {k : Kind}
  {a fh i offset : ℕ} {sb : SuperBlock}

/-! ## The places in the table -/

/-- The slot whose place a call stores in its entry: that of the record `lfs_getattr` finds, or
    of a new file. -/
def placedBy (e : Machine.Event Lfs Call Reply) : Option ℕ :=
  match e.input, e.output with
  | .getattr path, _ => do
    let (_, b) ← parsePath path
    let off ← infoOffset e.pre.dev_size e.pre.block_size
    let n ← e.pre.bitSize
    lookup e.pre.fd.image off n b
  | .open path, .opened fh => (parsePath path).bind fun x =>
    if findFile e.pre.file e.pre.num x.2 = some none then some (fh - 3) else none
  | _, _ => none

/-- The entry whose `real_offset` a call sets: that of a data file which is opened. -/
def openedData (e : Machine.Event Lfs Call Reply) : Option ℕ :=
  match e.input, e.output with
  | .open path, .opened fh => (parsePath path).bind fun x =>
    if x.1 = .dataFile then some (fh - 3) else none
  | _, _ => none

/-- The entry of a slot has its place. -/
def placed (tr : Trace) (i : ℕ) : Prop := ∃ e ∈ tr, placedBy e = some i

instance (tr : Trace) (i : ℕ) : Decidable (placed tr i) :=
  inferInstanceAs (Decidable (∃ e ∈ tr, placedBy e = some i))

/-- The handle of a slot was given to a data file when its entry had its place. -/
def forData : Trace → ℕ → Prop
  | [], _ => False
  | e :: tr, i => openedData e = some i ∧ placed (e :: tr) i ∨ forData tr i

instance decForData : ∀ (tr : Trace) (i : ℕ), Decidable (forData tr i)
  | [], _ => .isFalse id
  | e :: tr, i =>
    have := decForData tr i
    inferInstanceAs (Decidable (openedData e = some i ∧ placed (e :: tr) i ∨ forData tr i))

theorem placed_cons {e : Machine.Event Lfs Call Reply} :
    placed (e :: tr) i ↔ placedBy e = some i ∨ placed tr i := by
  simp [placed]

theorem placedBy_open {path : List Char} {b : ℤ} (hp : parsePath path = some (k, b))
    (hf : findFile s.file s.num b = some none) :
    placedBy ⟨s, .open path, .opened (i + 3)⟩ = some i := by
  simp [placedBy, hp, hf]

theorem openedData_open {path : List Char} {b : ℤ} (hp : parsePath path = some (k, b)) :
    openedData ⟨s, .open path, .opened (i + 3)⟩ = if k = .dataFile then some i else none := by
  simp [openedData, hp]

theorem with_c_offset (e : FileDirectory) (flag real_offset : ℕ) :
    { e with flag := flag, real_offset := real_offset }.c_offset = e.c_offset := rfl

theorem with_real_offset (e : FileDirectory) (flag real_offset : ℕ) :
    { e with flag := flag, real_offset := real_offset }.real_offset = real_offset := rfl

@[simp] theorem setFlag_c_offset (e : FileDirectory) (k : Kind) :
    (setFlag e k).c_offset = e.c_offset := by
  cases k with
  | metaFile => rfl
  | dataFile => exact with_c_offset e _ _

theorem setFlag_metaFile (e : FileDirectory) :
    (setFlag e .metaFile).real_offset = e.real_offset := rfl

theorem setFlag_dataFile (e : FileDirectory) :
    (setFlag e .dataFile).real_offset = toU64 (e.c_offset + 2 * mbSize : ℕ) :=
  with_real_offset e _ _

/-- The place of a slot depends on the sizes only. -/
theorem slotOffset_congr (ho : Outcome s c r s') (i : ℕ) : slotOffset s' i = slotOffset s i := by
  rw [slotOffset, slotOffset, ho.dev_size, ho.block_size]

/-- A slot that a call places gets its place. -/
theorem Outcome.places (ho : Outcome s c r s') (h : placedBy ⟨s, c, r⟩ = some i) :
    i < s.num ∧ slotOffset s i = some (s'.file i).c_offset := by
  cases ho with
  | getattrMiss hp hoff hn hlen hcov hl =>
    simp [placedBy, hp, hoff, hn, hl] at h
  | @getattrHit path k b off n len j c hp hoff hn hlen hcov hl hc =>
    simp only [placedBy, hp, hoff, hn, hl, Option.bind_eq_bind, Option.bind_some] at h
    obtain rfl := Option.some.inj h
    refine ⟨(lookup_eq_some.1 hl).1.1.trans_le (bitSize_le hn).1, ?_⟩
    dsimp only [Lfs.setFile]
    rw [hc, Function.update_self]
    cases k <;> rfl
  | openFound hp hf hlen =>
    simp [placedBy, hp, hf] at h
  | @openNew path k b n len wlen j c v p hp hf hn hlen hfree hc hset hw hwl =>
    obtain rfl := Option.some.inj ((placedBy_open hp hf).symm.trans h)
    refine ⟨(firstFree_eq_some.1 hfree).1.trans_le (bitSize_le hn).1, ?_⟩
    dsimp only [Lfs.setFile]
    rw [hc, Function.update_self]
    simp only [opened, setFlag_c_offset]
  | _ => cases h

/-- Other places are kept. -/
theorem Outcome.c_offset (ho : Outcome s c r s') (h : placedBy ⟨s, c, r⟩ ≠ some i) :
    (s'.file i).c_offset = (s.file i).c_offset := by
  cases ho with
  | @getattrHit path k b off n len j c hp hoff hn hlen hcov hl hc =>
    dsimp only [Lfs.setFile]
    rw [Function.update_of_ne]
    rintro rfl
    exact h (by simp [placedBy, hp, hoff, hn, hl])
  | readdirRoot _ _ _ _ hd =>
    dsimp only
    rw [hd i]
  | @openFound path k b j len hp hf hlen =>
    dsimp only [Lfs.setFile]
    rw [Function.update_apply]
    split_ifs with hj
    · rw [hj, setFlag_c_offset]
    · rfl
  | @openNew path k b n len wlen j c v p hp hf hn hlen hfree hc hset hw hwl =>
    dsimp only [Lfs.setFile]
    rw [Function.update_of_ne]
    rintro rfl
    exact h (placedBy_open hp hf)
  | write =>
    dsimp only [Lfs.setFile]
    rw [Function.update_apply]
    split_ifs with hj
    · rw [hj]
      rfl
    · rfl
  | _ => rfl

/-- Opening a data file sets `real_offset` behind the csm area. -/
theorem Outcome.opens_data (ho : Outcome s c r s') (h : openedData ⟨s, c, r⟩ = some i) :
    (s'.file i).real_offset = toU64 ((s'.file i).c_offset + 2 * mbSize : ℕ) := by
  cases ho with
  | @openFound path k b j len hp hf hlen =>
    rw [openedData_open hp] at h
    obtain ⟨rfl, rfl⟩ : k = .dataFile ∧ j = i := by simpa using h
    dsimp only [Lfs.setFile]
    rw [Function.update_self, setFlag_c_offset, setFlag_dataFile]
  | @openNew path k b n len wlen j c v p hp hf hn hlen hfree hc hset hw hwl =>
    rw [openedData_open hp] at h
    obtain ⟨rfl, rfl⟩ : k = .dataFile ∧ j = i := by simpa using h
    dsimp only [Lfs.setFile]
    rw [Function.update_self, opened, setFlag_c_offset, setFlag_dataFile]
  | _ => cases h

/-- No other call sets `real_offset`. -/
theorem Outcome.real_offset (ho : Outcome s c r s') (h : openedData ⟨s, c, r⟩ ≠ some i) :
    (s'.file i).real_offset = (s.file i).real_offset := by
  cases ho with
  | @getattrHit path k b off n len j c hp hoff hn hlen hcov hl hc =>
    dsimp only [Lfs.setFile]
    rw [Function.update_apply]
    split_ifs with hj
    · rw [hj]
      cases k <;> rfl
    · rfl
  | readdirRoot _ _ _ _ hd =>
    dsimp only
    rw [hd i]
  | @openFound path k b j len hp hf hlen =>
    rw [openedData_open hp] at h
    dsimp only [Lfs.setFile]
    rw [Function.update_apply]
    split_ifs with hj
    · rw [hj]
      cases k with
      | metaFile => rw [setFlag_metaFile]
      | dataFile => exact absurd (by simp [hj]) h
    · rfl
  | @openNew path k b n len wlen j c v p hp hf hn hlen hfree hc hset hw hwl =>
    rw [openedData_open hp] at h
    dsimp only [Lfs.setFile]
    rw [Function.update_apply]
    split_ifs with hj
    · rw [hj]
      cases k with
      | metaFile => rw [opened, setFlag_metaFile]
      | dataFile => exact absurd (by simp [hj]) h
    · rfl
  | write =>
    dsimp only [Lfs.setFile]
    rw [Function.update_apply]
    split_ifs with hj
    · rw [hj]
      rfl
    · rfl
  | _ => rfl

/-- The invariant of the table: places are those of the slots, and `real_offset` is behind the
    csm area. -/
structure PlaceInv (tr : Trace) (s : Lfs) : Prop where
  c_offset : ∀ i, placed tr i → i < s.num ∧ slotOffset s i = some (s.file i).c_offset
  real_offset : ∀ i, forData tr i → placed tr i ∧
    (s.file i).real_offset = toU64 ((s.file i).c_offset + 2 * mbSize : ℕ)

/-- **The entries keep their places**, whatever is called. -/
theorem placeInv_step (H : PlaceInv tr s) (ho : Outcome s c r s') :
    PlaceInv (⟨s, c, r⟩ :: tr) s' := by
  have hplaced : ∀ i, placed (⟨s, c, r⟩ :: tr) i →
      i < s.num ∧ slotOffset s i = some (s'.file i).c_offset := by
    intro i hi
    by_cases hnew : placedBy ⟨s, c, r⟩ = some i
    · exact ho.places hnew
    · rw [ho.c_offset hnew]
      exact H.c_offset i ((placed_cons.1 hi).resolve_left hnew)
  refine ⟨fun i hi => ?_, fun i hi => ?_⟩
  · rw [ho.num, slotOffset_congr ho]
    exact hplaced i hi
  · by_cases hopen : openedData ⟨s, c, r⟩ = some i
    · refine ⟨?_, ho.opens_data hopen⟩
      rcases hi with hi | hi
      · exact hi.2
      · exact placed_cons.2 (.inr (H.real_offset i hi).1)
    · obtain ⟨hold, hreal⟩ := H.real_offset i (hi.resolve_left fun h => hopen h.1)
      have hi : placed (⟨s, c, r⟩ :: tr) i := placed_cons.2 (.inr hold)
      -- a place that is stored again is the same
      have hsame := (H.c_offset i hold).2.symm.trans (hplaced i hi).2
      rw [ho.real_offset hopen, hreal, Option.some.inj hsame]
      exact ⟨hi, rfl⟩

/-! ## The slots as regions -/

/-- The slots of a device. -/
def slotRegions (sb : SuperBlock) : Regions ℕ :=
  .rows (dataStart (blockNum sb.s_dev_size sb.s_block_size)) sb.s_block_size
    (blockNum sb.s_dev_size sb.s_block_size)

/-- Where `lfs_read` begins in a slot. -/
def readShift (e : FileDirectory) : ℕ := if 0 < e.csize then 0 else 2 * mbSize

theorem readBase_eq (e : FileDirectory) : readBase e = e.c_offset + readShift e := by
  unfold readBase readShift
  split_ifs <;> rfl

/-- The calls of a store of slots: a read is on the handle of a slot whose entry has its place, a
    write on one given to a data file, both end within the slot, and none relies on a stale
    cursor. -/
def slotOk : Machine.Guard Lfs Call Reply := fun tr s c => streamOk tr s c ∧
  match c with
  | .read fh size offset => ¬ illegal (readLen (s.file (fh - 3))) size offset →
      placed tr (fh - 3) ∧ readShift (s.file (fh - 3)) + offset + size ≤ s.block_size
  | .write fh buf offset => forData tr (fh - 3) ∧ 2 * mbSize + offset + buf.length ≤ s.block_size
  | .getattr _ | .readdir _ | .open _ => True

instance (tr : Trace) (s : Lfs) : ∀ c, Decidable (slotOk tr s c)
  | .read fh size offset => inferInstanceAs (Decidable (streamOk tr s _ ∧
      (¬ illegal (readLen (s.file (fh - 3))) size offset →
        placed tr (fh - 3) ∧ readShift (s.file (fh - 3)) + offset + size ≤ s.block_size)))
  | .write fh buf offset => inferInstanceAs (Decidable (streamOk tr s _ ∧
      forData tr (fh - 3) ∧ 2 * mbSize + offset + buf.length ≤ s.block_size))
  | .getattr _ | .readdir _ | .open _ => inferInstanceAs (Decidable (streamOk tr s _ ∧ True))

/-- What a call asks of the store, and what it answers; a read that is illegal asks nothing. -/
def slotOp (_tr : Trace) (e : Machine.Event Lfs Call Reply) :
    Option (Store.Op ℕ × List UInt8) :=
  match e.input, e.output with
  | .read fh size offset, .bytes _ buf =>
    if illegal (readLen (e.pre.file (fh - 3))) size offset then none else
      some (.read (fh - 3) (readShift (e.pre.file (fh - 3)) + offset) size, buf)
  | .write fh buf offset, .wrote _ => some (.write (fh - 3) (2 * mbSize + offset) buf, [])
  | _, _ => none

/-! ## One call -/

/-- The invariant of a mount of a device with the superblock `sb`. -/
structure SlotMount (sb : SuperBlock) (tr : Trace) (s : Lfs) : Prop where
  dev_size : s.dev_size = sb.s_dev_size
  block_size : s.block_size = sb.s_block_size
  superblock : superBlock s.fd.image = sb
  stream : StreamInv tr s
  place : PlaceInv tr s

theorem slotMount_main {file : ℕ → FileDirectory} (hm : main image file = some s) :
    SlotMount (superBlock image) [] s := by
  obtain ⟨hd, hb, -⟩ := main_sizes hm
  refine ⟨hd, hb, by rw [main_eq_some hm], nofun, fun i hi => ?_, fun i hi => hi.elim⟩
  obtain ⟨e, he, -⟩ := hi
  cases he

namespace SlotMount
variable (H : SlotMount sb tr s) (G : Geometry sb.s_dev_size sb.s_block_size)
include H G

/-- A slot that is placed is where its entry says. -/
theorem place_eq (hi : placed tr i) : i < blockNum sb.s_dev_size sb.s_block_size ∧
    (s.file i).c_offset = (slotRegions sb).start i ∧
    (slotRegions sb).start i + sb.s_block_size < 2 ^ 34 := by
  obtain ⟨hlt, hc⟩ := H.place.c_offset i hi
  rw [Lfs.num, H.dev_size, H.block_size] at hlt
  have hend : dataStart (blockNum sb.s_dev_size sb.s_block_size) + i * sb.s_block_size +
      sb.s_block_size < 2 ^ 34 := G.slot_lt hlt
  refine ⟨hlt, ?_, hend⟩
  rw [slotOffset, H.dev_size, H.block_size, G.dataOffset_eq] at hc
  have hc := Option.some.inj hc
  rw [toU64_of_lt (by omega)] at hc
  exact hc.symm

/-- Where a write goes. -/
theorem write_place (hi : forData tr (fh - 3)) {n : ℕ}
    (hn : 2 * mbSize + offset + n ≤ s.block_size) :
    devOffset s fh offset = (slotRegions sb).start (fh - 3) + (2 * mbSize + offset) ∧
      2 * mbSize + offset + n ≤ (slotRegions sb).len (fh - 3) := by
  obtain ⟨hplaced, hreal⟩ := H.place.real_offset _ hi
  obtain ⟨hlt, hc, hend⟩ := H.place_eq G hplaced
  rw [H.block_size] at hn
  have hdata : toU64 ((slotRegions sb).start (fh - 3) + 2 * mbSize : ℕ) =
      (slotRegions sb).start (fh - 3) + 2 * mbSize := toU64_of_lt (by omega)
  constructor
  · rw [devOffset, hreal, hc, hdata, toU64_of_lt (by omega), Nat.add_assoc]
  · exact hn.trans_eq (if_pos hlt).symm

/-- Where a write finds the descriptor. -/
theorem write_image {buf : List UInt8} (hok : slotOk tr s (.write fh buf offset))
    (ho : Outcome s (.write fh buf offset) r s') :
    s'.fd.image = s.fd.image.patch
      ((slotRegions sb).start (fh - 3) + (2 * mbSize + offset)) buf := by
  obtain ⟨hstream, hfor, hn⟩ := hok
  cases ho with
  | write hfh hs hw =>
    rw [H.stream.seek hstream hs, (H.write_place G hfor hn).1]
    rfl

/-- What a call stores before the slots is at most a bitmap. -/
theorem before_slots (hok : slotOk tr s c) (ho : Outcome s c r s') (ha : a < bitmapOffset) :
    s'.fd.image a = s.fd.image a := by
  cases c with
  | write fh buf offset =>
    rw [H.write_image G hok ho]
    refine Image.patch_of_lt (ha.trans_le ?_)
    dsimp only [slotRegions, Regions.rows]
    rw [Nat.add_assoc]
    exact (superblock_before_data _).trans (Nat.le_add_right ..)
  | «open» path =>
    cases ho with
    | openFound => rfl
    | openNew => exact Image.patch_of_lt ha
  | _ => cases ho <;> rfl

/-- A call that is no write leaves what is behind the metadata. -/
theorem data_kept (ho : Outcome s c r s') (hc : ∀ fh buf offset, c ≠ .write fh buf offset)
    (ha : dataStart (blockNum sb.s_dev_size sb.s_block_size) ≤ a) :
    s'.fd.image a = s.fd.image a := by
  cases ho with
  | @openNew path k b n len wlen i c v p hp hf hn hlen hfree hc hset hw hwl =>
    rw [H.dev_size, H.block_size] at hw
    obtain rfl := Option.some.inj (G.bitmapSize_eq.symm.trans hw)
    have h1 := bitmap_before_info (blockNum sb.s_dev_size sb.s_block_size)
    have h2 := info_before_extra (blockNum sb.s_dev_size sb.s_block_size)
    have h3 := extra_before_data (blockNum sb.s_dev_size sb.s_block_size)
    have hlen : (p.take (bitmapBytes (blockNum sb.s_dev_size sb.s_block_size))).length ≤
        bitmapBytes (blockNum sb.s_dev_size sb.s_block_size) := List.length_take_le ..
    refine Image.patch_of_ge (le_trans ?_ ha)
    omega
  | write => exact absurd rfl (hc _ _ _)
  | _ => rfl

/-- So it leaves the slots. -/
theorem contents_kept (ho : Outcome s c r s') (hc : ∀ fh buf offset, c ≠ .write fh buf offset) :
    (slotRegions sb).contents s'.fd.image = (slotRegions sb).contents s.fd.image := by
  refine Regions.contents_congr _ ?_
  rintro a ⟨i, x, -, rfl⟩
  refine H.data_kept G ho hc ?_
  dsimp only [slotRegions, Regions.rows]
  rw [Nat.add_assoc]
  exact Nat.le_add_right ..

/-- The invariant is kept. -/
theorem step (hok : slotOk tr s c) (ho : Outcome s c r s') :
    SlotMount sb (⟨s, c, r⟩ :: tr) s' := by
  refine ⟨ho.dev_size.trans H.dev_size, ho.block_size.trans H.block_size, ?_,
    H.stream.step hok.1 ho, placeInv_step H.place ho⟩
  rw [← H.superblock]
  exact superBlock_congr fun a ha => H.before_slots G hok ho ha

/-- Where a read finds its bytes. -/
theorem read_image {size : ℕ} {ret : ℤ} {buf : List UInt8}
    (hok : slotOk tr s (.read fh size offset))
    (ho : Outcome s (.read fh size offset) (.bytes ret buf) s')
    (hill : ¬ illegal (readLen (s.file (fh - 3))) size offset) :
    buf = s.fd.image.slice ((slotRegions sb).start (fh - 3) +
        (readShift (s.file (fh - 3)) + offset)) size ∧
      readShift (s.file (fh - 3)) + offset + size ≤ (slotRegions sb).len (fh - 3) := by
  obtain ⟨hplaced, hn⟩ := hok.2 hill
  obtain ⟨hlt, hc, hend⟩ := H.place_eq G hplaced
  rw [H.block_size] at hn
  refine ⟨?_, hn.trans_eq (if_pos hlt).symm⟩
  cases ho with
  | read hfh hl _ hp hr =>
    rw [hp, readBase_eq, hc, toU64_of_lt (by omega), Nat.add_assoc]
  | readIllegal hfh hill' => exact absurd hill' hill

/-- A read delivers what its slot holds. -/
theorem read_slot {size : ℕ} {ret : ℤ} {buf : List UInt8}
    (hok : slotOk tr s (.read fh size offset))
    (ho : Outcome s (.read fh size offset) (.bytes ret buf) s')
    (hill : ¬ illegal (readLen (s.file (fh - 3))) size offset) :
    buf = ((slotRegions sb).contents s.fd.image (fh - 3)).slice
      (readShift (s.file (fh - 3)) + offset) size := by
  obtain ⟨hbuf, hlen⟩ := H.read_image G hok ho hill
  rw [Regions.slice_contents _ hlen]
  exact hbuf

end SlotMount

/-! ## All mounts -/

/-- `main` with what `malloc` leaves in `file`. -/
def start (file : ℕ → FileDirectory) (image : Image) : Option Lfs := main image file

theorem start_image {file : ℕ → FileDirectory} (hm : start file m = some s) : s.fd.image = m := by
  rw [main_eq_some hm]

/-- A mount of a device on which the superblock of the last mount is left. -/
theorem SlotMount.again {file : ℕ → FileDirectory} (H : SlotMount sb tr s)
    (hm : ∀ a < bitmapOffset, m a = s.fd.image a) (hstart : start file m = some s') :
    SlotMount sb [] s' := by
  rw [← H.superblock, ← superBlock_congr hm]
  exact slotMount_main hstart

/-- `ltils.c` as a store of slots that may crash. -/
def slotProgram (G : Geometry sb.s_dev_size sb.s_block_size) :
    StoreProgram system slotOk (fun s => s.fd.image) start (slotRegions sb) where
  Inv := SlotMount sb
  event := slotOp
  header := bitmapOffset
  inv_step H hok hst := H.step G hok (step_outcome hst)
  header_step H hok hst _ ha := H.before_slots G hok (step_outcome hst) ha
  silent := by
    intro tr s c r s' H hok hst he
    refine H.contents_kept G (step_outcome hst) ?_
    rintro fh buf offset rfl
    cases step_outcome hst with
    | write => cases he
  matched := by
    intro tr s c r s' op bs H hok hst he
    have ho := step_outcome hst
    unfold slotOp at he
    split at he
    case h_1 fh size offset ret buf hc hr =>
      dsimp only at hc hr
      subst hc hr
      split_ifs at he with hill
      cases he
      rw [H.contents_kept G ho nofun, H.read_slot G hok ho hill]
      rfl
    case h_2 fh buf offset ret hc hr =>
      dsimp only at hc hr
      subst hc hr
      cases he
      rw [H.write_image G hok ho,
        Regions.contents_patch _ (H.write_place G hok.2.1 hok.2.2).2]
      rfl
    case h_3 => cases he
  disk_start := start_image
  inv_start := SlotMount.again

/-- **`ltils.c` over all its mounts is a store of slots with torn writes.**  On a device whose size
    is an `int`, with a slot, whatever `malloc` leaves in the table, every lifetime whose writes
    are on handles given to data files, whose reads are on those of slots that were found or taken
    in the same mount, which stay in the slot and do not rely on a stale cursor, reads and writes
    like such a store: a write of the slot 2 MB behind its offset, a read of the slot at its
    offset, or 2 MB behind it if the entry has no csm length.  A crash tears the slot that is being
    written, if any, and nothing else; and what was written is durable. -/
theorem crashes_refine_slots {tr : List (MountEvent Lfs Call Reply (ℕ → FileDirectory))}
    (G : Geometry (superBlock image).s_dev_size (superBlock image).s_block_size)
    (h : Lifetime system slotOk (fun s => s.fd.image) start image tr s) :
    Store.crashMachine.Does ((slotRegions (superBlock image)).contents image)
      (Simulation.historyOf (crashEvent system slotOp (slotRegions (superBlock image))) tr)
      ((slotRegions (superBlock image)).contents s.fd.image) ∧
    Store.Durable
      (Simulation.historyOf (crashEvent system slotOp (slotRegions (superBlock image))) tr)
      ((slotRegions (superBlock image)).contents s.fd.image) :=
  (slotProgram G).run (fun _ _ hm => slotMount_main hm) h

/-- A data file is written, and a second write is cut off; in the next mount the slot is found by
    its record and written again. -/
theorem crashes_refine_slots_found : ∃ tr s,
    lifetimeExec system slotOk (fun s : Lfs => s.fd.image) start zeroFile blankDevice
      [.call (.call (.open (dataPath 1))), .call (.call (.write 3 [7, 8] 1)),
      .crash (.call (.write 3 [9, 9] 0)) (fun a => a % 2 = 0) zeroFile,
      .call (.call (.getattr (dataPath 0))), .call (.call (.open (dataPath 0))),
      .call (.call (.write 3 [5] 3)), .call (.call (.read 3 1 0))] = some (tr, s) ∧
    ((slotRegions (superBlock blankDevice)).contents s.fd.image 0).slice (2 * mbSize) 4 =
      [9, 7, 8, 5] ∧
    Store.crashMachine.Does ((slotRegions (superBlock blankDevice)).contents blankDevice)
      (Simulation.historyOf (crashEvent system slotOp (slotRegions (superBlock blankDevice))) tr)
      ((slotRegions (superBlock blankDevice)).contents s.fd.image) ∧
    Store.Durable
      (Simulation.historyOf (crashEvent system slotOp (slotRegions (superBlock blankDevice))) tr)
      ((slotRegions (superBlock blankDevice)).contents s.fd.image) := by
  obtain ⟨tr, s, he, hl, hbytes⟩ := Machine.exists_exec
    ((uOperation system).crashing (fun s => s.fd.image) start) (mountOk slotOk)
    (start zeroFile blankDevice)
    [.call (.call (.open (dataPath 1))), .call (.call (.write 3 [7, 8] 1)),
      .crash (.call (.write 3 [9, 9] 0)) (fun a => a % 2 = 0) zeroFile,
      .call (.call (.getattr (dataPath 0))), .call (.call (.open (dataPath 0))),
      .call (.call (.write 3 [5] 3)), .call (.call (.read 3 1 0))]
    (fun _ s => ((slotRegions (superBlock blankDevice)).contents s.fd.image 0).slice
      (2 * mbSize) 4 = [9, 7, 8, 5])
    (by decide +kernel)
  exact ⟨tr, s, he, hbytes, crashes_refine_slots
    ⟨⟨by decide +kernel, by decide +kernel⟩, by decide +kernel⟩ ⟨zeroFile, hl⟩⟩

end Ltils
