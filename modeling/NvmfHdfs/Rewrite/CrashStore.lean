/-
  `rewrite.c` over all its mounts as a store of files that may crash.

  A crash leaves the areas as they are, except the one that is being written,
  of which it may leave any of the bytes; so it tears at most one file.

    - `misses_superblock`: no call of a store changes the superblock;
    - `crashes_refine_store`: every lifetime of a device reads and writes like a
      store of files with torn writes, and what was written is durable.
-/
import NvmfHdfs.Mounts
import NvmfHdfs.Rewrite.FileStore
import NvmfHdfs.Rewrite.Lifetime

namespace Rewrite

open CInt Layout Bitmap Path Records Operations

variable {s s' : Lfs} {image : Image} {c : Call} {r : Reply} {sb : SuperBlock}

/-! ## One mount -/

/-- A release stores nothing in the superblock. -/
theorem release_misses {fh : ℕ} {bi : BlockInfo} (G : Geometry s.dev_size s.block_size)
    (H : SlotInv s) : Misses s (.release fh bi) 0 bitmapOffset := by
  have hinfo : s.infoOff = infoStart s.num := by
    rw [Lfs.infoOff, G.infoOffset_eq, Option.getD_some, Lfs.num]
  have hgt := superblock_before_info s.num
  intro x hx
  obtain ⟨off, hoff, rfl⟩ := Option.map_eq_some_iff.1 hx
  have T := tableStart_of_release (by have := G.slot; have := G.small; omega) hoff
  refine .inr (.inr ?_)
  dsimp only
  -- a handle that has lost its slot stores the record before the table
  rcases H fh with hle | hlost
  · rw [T.release_slot hle hoff, hinfo]
    exact ((Nat.le_add_right ..).trans hgt).trans (Nat.le_add_right ..)
  · refine Nat.le_of_add_le_add_right (b := sizeofBlockInfo) ?_
    rw [T.release_lost hlost hoff, hinfo]
    exact hgt

/-- A call of a store stores nothing in the superblock. -/
theorem misses_superblock {tr : Trace}
    (G : Geometry (superBlock image).s_dev_size (superBlock image).s_block_size)
    (hmb : 2 * mbSize < (superBlock image).s_block_size) (h : Mount image storeOk tr s)
    (hok : storeOk tr s c) (ho : Outcome s c r s') : Misses s c 0 bitmapOffset := by
  cases c with
  | write fh buf offset =>
    obtain ⟨f, hown, hlen⟩ := hok.2
    obtain ⟨hdev, -⟩ := devOffset_owner hmb G h hown ((Nat.le_add_right ..).trans hlen)
    obtain ⟨fd, hs, -, -⟩ := ho.write_inv
    have hfd := (cursorInv_run (h.mono And.left)).seek hok.1 hs
    obtain ⟨-, hpos⟩ := Descriptor.mk.inj ((seekTo_eq_some hs).symm.trans hfd)
    intro x hx
    obtain rfl := Option.some.inj hx
    refine .inr (.inr ?_)
    dsimp only
    rw [hpos, hdev]
    dsimp only [areas]
    simp only [Nat.add_assoc]
    exact (superblock_before_data _).trans (Nat.le_add_right ..)
  | release fh bi => exact release_misses (h.geometry G) h.slotInv
  | _ =>
    intro x hx
    cases hx

/-! ## All mounts -/

/-- `main` with the tables that `malloc` gives it zero-filled. -/
def start (_memory : Unit) (image : Image) : Option Lfs := main image

/-- A mount is one of a device with the superblock `sb`, which stays there. -/
structure StoreMount (sb : SuperBlock) (tr : Trace) (s : Lfs) : Prop where
  mount : ∃ m, superBlock m = sb ∧ Mount m storeOk tr s
  superblock : superBlock s.fd.image = sb

theorem storeMount_main (hm : main image = some s) : StoreMount (superBlock image) [] s :=
  ⟨⟨image, rfl, s, hm, .nil⟩, by rw [main_image hm]⟩

/-- `rewrite.c` as a store of files that may crash. -/
def storeProgram (G : Geometry sb.s_dev_size sb.s_block_size) (hmb : 2 * mbSize < sb.s_block_size) :
    StoreProgram system storeOk (fun s => s.fd.image) start (areas sb hmb) where
  Inv := StoreMount sb
  event := fileOp
  header := bitmapOffset
  header_step := by
    rintro tr s c r s' ⟨⟨m, rfl, h⟩, -⟩ hok hst a ha
    have ho := step_outcome hst
    exact ho.superblock (misses_superblock G hmb h hok ho) ha
  inv_step := by
    rintro tr s c r s' ⟨⟨m, rfl, h⟩, hsb⟩ hok hst
    refine ⟨⟨m, rfl, h.snoc hok hst⟩, ?_⟩
    have ho := step_outcome hst
    rw [← hsb]
    exact superBlock_congr fun a ha => ho.superblock (misses_superblock G hmb h hok ho) ha
  silent := by
    rintro tr s c r s' ⟨⟨m, rfl, h⟩, -⟩ hok hst he
    exact ((storeSim G hmb).silent ⟨h, rfl⟩ hok hst he).2.symm
  matched := by
    rintro tr s c r s' op bs ⟨⟨m, rfl, h⟩, -⟩ hok hst he
    obtain ⟨m', hm', -, rfl⟩ := (storeSim G hmb).matched ⟨h, rfl⟩ hok hst he
    exact hm'
  disk_start := main_image
  inv_start := by
    rintro tr s m memory s' ⟨-, rfl⟩ hm hstart
    rw [← superBlock_congr hm]
    exact storeMount_main hstart

/-- **`rewrite.c` over all its mounts is a store of files with torn writes.**  On a device whose
    size is an `int`, with a slot and with slots of more than 2 MB, every lifetime whose transfers
    stay in the area of the file their handle was given to in the same mount, and do not rely on a
    stale cursor, reads and writes like such a store: a crash tears the file that is being written,
    if any, and nothing else.  A byte that a write stored is in its file, after any number of
    mounts and crashes, until a later write reaches it. -/
theorem crashes_refine_store {tr : List (MountEvent Lfs Call Reply Unit)}
    (G : Geometry (superBlock image).s_dev_size (superBlock image).s_block_size)
    (hmb : 2 * mbSize < (superBlock image).s_block_size)
    (h : Lifetime system storeOk (fun s => s.fd.image) start image tr s) :
    Store.crashMachine.Does ((areas (superBlock image) hmb).contents image)
      (Simulation.historyOf (crashEvent system fileOp (areas (superBlock image) hmb)) tr)
      ((areas (superBlock image) hmb).contents s.fd.image) ∧
    Store.Durable
      (Simulation.historyOf (crashEvent system fileOp (areas (superBlock image) hmb)) tr)
      ((areas (superBlock image) hmb).contents s.fd.image) :=
  (storeProgram G hmb).run (fun _ _ hm => storeMount_main hm) h

theorem blank_slot : 2 * mbSize < (superBlock blankDevice).s_block_size := by decide +kernel

/-- The areas of the blank device. -/
def blankAreas : Regions (Kind × ℕ) := areas (superBlock blankDevice) blank_slot

/-- A data file is written, a second write is cut off, and another file is written in the next
    mount. -/
theorem crashes_refine_store_torn : ∃ tr s,
    lifetimeExec system storeOk (fun s : Lfs => s.fd.image) start () blankDevice
      [.call (.call (.open (dataPath 1))), .call (.call (.write 6 [7, 8] 1)),
      .crash (.call (.write 6 [9, 9] 0)) (fun a => a % 2 = 0) (),
      .call (.call (.open (dataPath 1))), .call (.call (.write 7 [3] 0)), .restart ()] =
        some (tr, s) ∧
    (blankAreas.contents s.fd.image (.dataFile, 0)).slice 0 3 = [9, 7, 8] ∧
    Store.crashMachine.Does (blankAreas.contents blankDevice)
      (Simulation.historyOf (crashEvent system fileOp blankAreas) tr)
      (blankAreas.contents s.fd.image) ∧
    Store.Durable (Simulation.historyOf (crashEvent system fileOp blankAreas) tr)
      (blankAreas.contents s.fd.image) := by
  obtain ⟨tr, s, he, hl, hbytes⟩ := Machine.exists_exec
    ((uOperation system).crashing (fun s => s.fd.image) start) (mountOk storeOk)
    (start () blankDevice)
    [.call (.call (.open (dataPath 1))), .call (.call (.write 6 [7, 8] 1)),
      .crash (.call (.write 6 [9, 9] 0)) (fun a => a % 2 = 0) (),
      .call (.call (.open (dataPath 1))), .call (.call (.write 7 [3] 0)), .restart ()]
    (fun _ s => (blankAreas.contents s.fd.image (.dataFile, 0)).slice 0 3 = [9, 7, 8])
    (by decide +kernel)
  exact ⟨tr, s, he, hbytes, crashes_refine_store
    ⟨⟨by decide +kernel, by decide +kernel⟩, by decide +kernel⟩ blank_slot ⟨(), hl⟩⟩

end Rewrite
