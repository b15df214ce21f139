/-
  The `block_info` table over all mounts of `rewrite.c`.

  Only `lfs_release` stores records, that of the slot its handle has; a handle
  that has lost its slot stores one before the table, and one of the slot behind
  the last stores it behind.

    - `recordOk`: writes stay behind the table;
    - `storedLength`, `storedNames`: what the records in the store say;
    - `recordProgram`: the table is a store of records that may crash;
    - `records_durable`: a record that a release stored is there, over all mounts,
      until the next release of its slot, and is what `lfs_getattr` and
      `lfs_readdir` answer from.
-/
import NvmfHdfs.Rewrite.CrashStore
import NvmfHdfs.Rewrite.Listing
import NvmfHdfs.Rewrite.Progress

namespace Rewrite

open CInt Layout Bitmap Path Records Operations

variable {s s' : Lfs} {image : Image} {c : Call} {r : Reply} {tr : Trace} {sb : SuperBlock}
  {fh a : ℕ} {bi : BlockInfo} {path : List Char} {k : Kind} {b : ℤ}

/-! ## What is answered -/

/-- `lfs_getattr` answers with the length in the first used record of the block. -/
theorem Sound.getattr_answer (S : Sound s) (G : Geometry s.dev_size s.block_size)
    (hp : parsePath path = some (k, b)) :
    (lfsGetattrr s path).map Prod.fst = some ⟨modeOf path, (recordSlot s b).elim 0 fun i =>
      toI64 (lengthOf (infoAt s.fd.image s.infoOff i) k)⟩ := by
  obtain ⟨⟨st, s'⟩, hst⟩ := Option.isSome_iff_exists.1 (S.lfsGetattrr_isSome G hp)
  rw [hst, Option.map_some]
  cases getattr_outcome hst with
  | getattrMiss hp' hoff hn hlen hcov hl =>
    cases hp.symm.trans hp'
    rw [S.infoOff_of hoff hn hlen hcov] at hl
    rw [hl]
    rfl
  | getattrHit hp' hoff hn hlen hcov hl =>
    cases hp.symm.trans hp'
    rw [S.infoOff_of hoff hn hlen hcov] at hl
    rw [hl, Option.elim_some, Lfs.infoOff, hoff, Option.getD_some]

/-- `lfs_readdir` answers with the names in the used records. -/
theorem Sound.readdir_answer (S : Sound s) (G : Geometry s.dev_size s.block_size) :
    (lfsReaddir s ['/']).map Prod.fst = some (0, ['.'] :: ['.', '.'] ::
      (usedSlots s.fd.image s.count).map (slotName s.fd.image s.infoOff)) := by
  obtain ⟨⟨⟨ret, names⟩, s'⟩, hst⟩ := Option.isSome_iff_exists.1 (S.lfsReaddir_isSome G)
  obtain rfl : ret = 0 := by
    cases readdir_outcome hst with
    | readdirOther hp hne => exact absurd rfl hne
    | readdirRoot => rfl
  rw [hst, Option.map_some, S.readdir_names hst]

/-! ## The table as regions -/

/-- The records of a device. -/
def recordRegions (sb : SuperBlock) : Regions ℕ :=
  .rows (infoStart (blockNum sb.s_dev_size sb.s_block_size)) sizeofBlockInfo
    (blockNum sb.s_dev_size sb.s_block_size)

/-- Writes store nothing up to the end of the table. -/
def recordOk : Machine.Guard Lfs Call Reply := fun _ s c =>
  match c with
  | .write .. => Misses s c 0 (tableEnd s.num)
  | .getattr _ | .readdir _ | .open _ | .read .. | .release .. => True

instance (tr : Trace) (s : Lfs) : ∀ c, Decidable (recordOk tr s c)
  | .write fh buf offset =>
    inferInstanceAs (Decidable (Misses s (.write fh buf offset) 0 (tableEnd s.num)))
  | .getattr _ | .readdir _ | .open _ | .read .. | .release .. => .isTrue trivial

/-- What a call stores in the table. -/
def recordOp (_tr : Trace) (e : Machine.Event Lfs Call Reply) :
    Option (Store.Op ℕ × List UInt8) :=
  match e.input with
  | .release fh bi =>
    if (e.pre.pFd fh).data_block_id < e.pre.num then
      some (.write (e.pre.pFd fh).data_block_id 0 (releaseInfo (e.pre.pFd fh) bi).encode, [])
    else none
  | _ => none

theorem recordOp_release : recordOp tr ⟨s, .release fh bi, r⟩ =
    if (s.pFd fh).data_block_id < s.num then
      some (.write (s.pFd fh).data_block_id 0 (releaseInfo (s.pFd fh) bi).encode, [])
    else none := rfl

/-- The record of a slot in the store. -/
def storedRecord (m : Store ℕ) (i : ℕ) : BlockInfo :=
  BlockInfo.decode ((m i).slice 0 sizeofBlockInfo)

/-- The length that the store has for a file: that in the first record of a used slot which names
    its block, or 0. -/
def storedLength (m : Store ℕ) (used : List ℕ) (k : Kind) (b : ℤ) : ℤ :=
  (used.find? fun i => (storedRecord m i).b_block_id == toU32 b).elim 0 fun i =>
    toI64 (lengthOf (storedRecord m i) k)

/-- The names in the store, of the used slots in their order. -/
def storedNames (m : Store ℕ) (used : List ℕ) : List (List Char) :=
  ['.'] :: ['.', '.'] :: used.map fun i =>
    listName .dataFile (toInt (storedRecord m i).b_block_id)

/-! ## One call -/

/-- A mount of a device with the superblock `sb`, which stays there. -/
structure RecordMount (sb : SuperBlock) (tr : Trace) (s : Lfs) : Prop where
  mount : ∃ m, superBlock m = sb ∧ Mount m recordOk tr s
  superblock : superBlock s.fd.image = sb

theorem recordMount_main (hm : main image = some s) : RecordMount (superBlock image) [] s :=
  ⟨⟨image, rfl, s, hm, .nil⟩, by rw [main_image hm]⟩

namespace RecordMount
variable (H : RecordMount sb tr s) (G : Geometry sb.s_dev_size sb.s_block_size)
include H

theorem num : s.num = blockNum sb.s_dev_size sb.s_block_size := by
  obtain ⟨⟨m, rfl, h⟩, -⟩ := H
  exact h.num

theorem slots : SlotInv s := by
  obtain ⟨⟨m, -, h⟩, -⟩ := H
  exact h.slotInv

include G

theorem geometry : Geometry s.dev_size s.block_size := by
  obtain ⟨⟨m, rfl, h⟩, -⟩ := H
  exact h.geometry G

/-- A call stores nothing in the superblock. -/
theorem superblock_kept (hok : recordOk tr s c) (ho : Outcome s c r s') (ha : a < bitmapOffset) :
    s'.fd.image a = s.fd.image a := by
  refine ho.superblock ?_ ha
  cases c with
  | write fh buf offset =>
    have hle : bitmapOffset ≤ tableEnd s.num :=
      ((Nat.le_add_right ..).trans (superblock_before_info _)).trans (Nat.le_add_right ..)
    exact Misses.sub hok le_rfl hle
  | release fh bi => exact release_misses (H.geometry G) H.slots
  | _ =>
    intro x hx
    cases hx

/-- Where a release stores its record: in the slot of its handle, or beside the table. -/
theorem release_image (ho : Outcome s (.release fh bi) r s') : ∃ off,
    s'.fd.image = s.fd.image.patch off (releaseInfo (s.pFd fh) bi).encode ∧
      (off = infoStart s.num + (s.pFd fh).data_block_id * sizeofBlockInfo ∨
        (s.pFd fh).data_block_id = toU64 (-1) ∧ off + sizeofBlockInfo = infoStart s.num) := by
  have hG := H.geometry G
  have hinfo : s.infoOff = infoStart s.num := by
    rw [Lfs.infoOff, hG.infoOffset_eq, Option.getD_some, Lfs.num]
  cases ho with
  | @release _ _ off hoff hw =>
    have T := tableStart_of_release (by have := hG.slot; have := hG.small; omega) hoff
    refine ⟨off, rfl, ?_⟩
    rw [← hinfo]
    rcases H.slots fh with hle | hlost
    · exact .inl (T.release_slot hle hoff)
    · exact .inr ⟨hlost, T.release_lost hlost hoff⟩

/-- A call that stores no record leaves the table. -/
theorem records_kept (hok : recordOk tr s c) (ho : Outcome s c r s')
    (he : recordOp tr ⟨s, c, r⟩ = none) :
    (recordRegions sb).contents s'.fd.image = (recordRegions sb).contents s.fd.image := by
  refine Regions.contents_congr _ ?_
  rintro a ⟨i, x, hx, rfl⟩
  obtain ⟨hi, hx⟩ := lt_of_lt_ite hx
  dsimp only [recordRegions, Regions.rows]
  rw [← H.num] at hi ⊢
  have hmul : (i + 1) * sizeofBlockInfo ≤ s.num * sizeofBlockInfo := Nat.mul_le_mul_right _ hi
  rw [Nat.succ_mul] at hmul
  have hlt : infoStart s.num + i * sizeofBlockInfo + x < tableEnd s.num := by
    unfold tableEnd
    omega
  cases c with
  | write fh buf offset => exact ho.image_of_misses hok nofun (Nat.zero_le _) hlt
  | «open» path =>
    have hwrite : ∀ {wlen : ℕ} {p : List UInt8}, bitmapSize s.dev_size s.block_size = some wlen →
        s.fd.image.patch bitmapOffset (p.take wlen) (infoStart s.num + i * sizeofBlockInfo + x) =
          s.fd.image (infoStart s.num + i * sizeofBlockInfo + x) := by
      intro wlen p hw
      obtain rfl := Option.some.inj ((H.geometry G).bitmapSize_eq.symm.trans hw)
      have hlen : (p.take (bitmapBytes s.num)).length ≤ bitmapBytes s.num := List.length_take_le ..
      have hend := bitmap_before_info s.num
      refine Image.patch_of_ge ?_
      change bitmapOffset + (p.take (bitmapBytes s.num)).length ≤ _
      omega
    cases ho with
    | openFound => rfl
    | openMeta _ _ _ _ _ _ _ hw _ => exact hwrite hw
    | openData _ _ _ _ _ _ hw _ => exact hwrite hw
  | release fh bi =>
    obtain ⟨off, himage, hoff⟩ := H.release_image G ho
    rw [himage]
    rcases hoff with rfl | ⟨-, hoff⟩
    · -- the slot behind the last one
      have hid : s.num ≤ (s.pFd fh).data_block_id := by
        by_contra hlt
        rw [recordOp_release, if_pos (Nat.not_le.1 hlt)] at he
        cases he
      refine Image.patch_of_lt (hlt.trans_le ?_)
      exact Nat.add_le_add_left (Nat.mul_le_mul_right _ hid) _
    · refine Image.patch_of_ge ?_
      rw [BlockInfo.length_encode, hoff]
      exact (Nat.le_add_right ..).trans (Nat.le_add_right ..)
  | getattr path =>
    cases ho with
    | getattrMiss => rfl
    | @getattrHit _ k => cases k <;> rfl
  | readdir path => cases ho <;> rfl
  | read fh size offset =>
    cases ho with
    | read hs hr => rw [seekTo_eq_some hs]

/-- A release of a handle with a slot. -/
theorem record_stored (ho : Outcome s (.release fh bi) r s')
    (hid : (s.pFd fh).data_block_id < s.num) :
    (recordRegions sb).contents s'.fd.image =
      Function.update ((recordRegions sb).contents s.fd.image) (s.pFd fh).data_block_id
        (((recordRegions sb).contents s.fd.image (s.pFd fh).data_block_id).patch 0
          (releaseInfo (s.pFd fh) bi).encode) := by
  obtain ⟨off, himage, hoff⟩ := H.release_image G ho
  have hoff : off = (recordRegions sb).start (s.pFd fh).data_block_id + 0 := by
    rcases hoff with hoff | ⟨hlost, -⟩
    · rw [hoff, H.num]
      rfl
    · have hnum : s.num < 520105 := (H.geometry G).blockNum_lt
      rw [hlost] at hid
      unfold toU64 at hid
      omega
  rw [himage, hoff]
  refine Regions.contents_patch _ ?_
  rw [Nat.zero_add, BlockInfo.length_encode]
  rw [H.num] at hid
  exact (if_pos hid).ge

theorem sound : Sound s := by
  have hG := H.geometry G
  obtain ⟨⟨m, rfl, h⟩, -⟩ := H
  have hbs : (superBlock m).s_block_size < 2 ^ 31 := by
    have := G.slot
    have := G.small
    omega
  exact h.sound hbs

/-- The record of a slot in the store is that in the table. -/
theorem storedRecord_eq {i : ℕ} (hi : i < s.num) :
    storedRecord ((recordRegions sb).contents s.fd.image) i = infoAt s.fd.image s.infoOff i := by
  have hrow : (recordRegions sb).len i = sizeofBlockInfo := if_pos (H.num ▸ hi)
  rw [storedRecord, Regions.slice_contents _ (by rw [hrow, Nat.zero_add]), infoAt, Lfs.infoOff,
    (H.geometry G).infoOffset_eq, Option.getD_some, ← Lfs.num, H.num]
  rfl

/-- `lfs_getattr` answers from the store. -/
theorem getattr_stored (hp : parsePath path = some (k, b)) :
    (lfsGetattrr s path).map Prod.fst = some ⟨modeOf path,
      storedLength ((recordRegions sb).contents s.fd.image) (usedSlots s.fd.image s.num) k b⟩ := by
  have S := H.sound G
  have hG := H.geometry G
  have hfind : recordSlot s b = (usedSlots s.fd.image s.num).find? fun i =>
      (storedRecord ((recordRegions sb).contents s.fd.image) i).b_block_id == toU32 b := by
    rw [recordSlot, S.count_eq hG, lookup]
    exact List.find?_congr fun i hi => by rw [H.storedRecord_eq G (mem_usedSlots.1 hi).1]
  rw [S.getattr_answer hG hp, storedLength, ← hfind]
  cases hslot : recordSlot s b with
  | none => rw [Option.elim_none, Option.elim_none]
  | some i =>
    have hi : i < s.num := by
      rw [← S.count_eq hG]
      exact (lookup_eq_some.1 hslot).1.1
    rw [Option.elim_some, Option.elim_some, H.storedRecord_eq G hi]

/-- `lfs_readdir` lists the store. -/
theorem readdir_stored : (lfsReaddir s ['/']).map Prod.fst = some (0,
    storedNames ((recordRegions sb).contents s.fd.image) (usedSlots s.fd.image s.num)) := by
  have S := H.sound G
  have hG := H.geometry G
  rw [S.readdir_answer hG, S.count_eq hG, storedNames]
  refine congrArg (fun l => some ((0 : ℤ), ['.'] :: ['.', '.'] :: l)) ?_
  refine List.map_congr_left fun i hi => ?_
  rw [slotName, H.storedRecord_eq G (mem_usedSlots.1 hi).1]

end RecordMount

/-! ## All mounts -/

/-- The `block_info` table as a store of records that may crash. -/
def recordProgram (G : Geometry sb.s_dev_size sb.s_block_size) :
    StoreProgram system recordOk (fun s => s.fd.image) start (recordRegions sb) where
  Inv := RecordMount sb
  event := recordOp
  header := bitmapOffset
  inv_step := by
    intro tr s c r s' H hok hst
    have hsuper : superBlock s'.fd.image = superBlock s.fd.image :=
      superBlock_congr fun a ha => H.superblock_kept G hok (step_outcome hst) ha
    obtain ⟨⟨m, hm, h⟩, hsb⟩ := H
    exact ⟨⟨m, hm, h.snoc hok hst⟩, hsuper.trans hsb⟩
  header_step H hok hst _ ha := H.superblock_kept G hok (step_outcome hst) ha
  silent H hok hst he := H.records_kept G hok (step_outcome hst) he
  matched := by
    intro tr s c r s' op bs H hok hst he
    have ho := step_outcome hst
    cases c with
    | release fh bi =>
      rw [recordOp_release] at he
      split_ifs at he with hid
      cases he
      rw [H.record_stored G ho hid]
      rfl
    | _ => cases he
  disk_start := main_image
  inv_start := by
    intro tr s m memory s' H hm hstart
    rw [← H.superblock, ← superBlock_congr hm]
    exact recordMount_main hstart

/-- **Records are durable.**  On a device whose size is an `int`, with a slot, however often it is
    unmounted or a call is cut off by a crash, as long as writes stay behind the table: it is a
    store of records, one for each slot, in which only a release writes, that of the slot its
    handle has; a crash tears the record that is being stored, if any, and no other; what a release
    stored is there until the next one of its slot; and the store together with the bitmap says
    what `lfs_getattr` answers for every path, and `lfs_readdir` for the root. -/
theorem records_durable {tr : List (MountEvent Lfs Call Reply Unit)}
    (G : Geometry (superBlock image).s_dev_size (superBlock image).s_block_size)
    (h : Lifetime system recordOk (fun s => s.fd.image) start image tr s) :
    Store.crashMachine.Does ((recordRegions (superBlock image)).contents image)
      (Simulation.historyOf (crashEvent system recordOp (recordRegions (superBlock image))) tr)
      ((recordRegions (superBlock image)).contents s.fd.image) ∧
    Store.Durable
      (Simulation.historyOf (crashEvent system recordOp (recordRegions (superBlock image))) tr)
      ((recordRegions (superBlock image)).contents s.fd.image) ∧
    (∀ path k b, parsePath path = some (k, b) → (lfsGetattrr s path).map Prod.fst =
      some ⟨modeOf path, storedLength ((recordRegions (superBlock image)).contents s.fd.image)
        (usedSlots s.fd.image s.num) k b⟩) ∧
    (lfsReaddir s ['/']).map Prod.fst =
      some (0, storedNames ((recordRegions (superBlock image)).contents s.fd.image)
        (usedSlots s.fd.image s.num)) := by
  have hmain : ∀ memory s₀, start memory image = some s₀ → RecordMount (superBlock image) [] s₀ :=
    fun _ _ hm => recordMount_main hm
  obtain ⟨hdoes, hdurable⟩ := (recordProgram G).run hmain h
  have H : RecordMount (superBlock image) (mountTrace tr) s := (recordProgram G).inv_run hmain h
  exact ⟨hdoes, hdurable, fun path k b hp => H.getattr_stored G hp, H.readdir_stored G⟩

/-- The records of the blank device. -/
def blankRecords : Regions ℕ := recordRegions (superBlock blankDevice)

/-- A data file is written and released, and opening another one is cut off. -/
theorem records_durable_released : ∃ tr s,
    lifetimeExec system recordOk (fun s : Lfs => s.fd.image) start () blankDevice
      [.call (.call (.open (dataPath 1))), .call (.call (.write 6 [7, 8] 1)),
      .call (.call (.release 6 noRecord)),
      .crash (.call (.open (dataPath 2))) (fun a => a % 2 = 0) ()] = some (tr, s) ∧
    storedLength (blankRecords.contents s.fd.image) (usedSlots s.fd.image s.num) .dataFile 1 = 2 ∧
    Store.crashMachine.Does (blankRecords.contents blankDevice)
      (Simulation.historyOf (crashEvent system recordOp blankRecords) tr)
      (blankRecords.contents s.fd.image) ∧
    Store.Durable (Simulation.historyOf (crashEvent system recordOp blankRecords) tr)
      (blankRecords.contents s.fd.image) ∧
    (∀ path k b, parsePath path = some (k, b) → (lfsGetattrr s path).map Prod.fst =
      some ⟨modeOf path, storedLength (blankRecords.contents s.fd.image)
        (usedSlots s.fd.image s.num) k b⟩) ∧
    (lfsReaddir s ['/']).map Prod.fst =
      some (0, storedNames (blankRecords.contents s.fd.image) (usedSlots s.fd.image s.num)) := by
  obtain ⟨tr, s, he, hl, hlength⟩ := Machine.exists_exec
    ((uOperation system).crashing (fun s => s.fd.image) start) (mountOk recordOk)
    (start () blankDevice)
    [.call (.call (.open (dataPath 1))), .call (.call (.write 6 [7, 8] 1)),
      .call (.call (.release 6 noRecord)),
      .crash (.call (.open (dataPath 2))) (fun a => a % 2 = 0) ()]
    (fun _ s => storedLength (blankRecords.contents s.fd.image)
      (usedSlots s.fd.image s.num) .dataFile 1 = 2)
    (by decide +kernel)
  exact ⟨tr, s, he, hlength, records_durable
    ⟨⟨by decide +kernel, by decide +kernel⟩, by decide +kernel⟩ ⟨(), hl⟩⟩

end Rewrite
