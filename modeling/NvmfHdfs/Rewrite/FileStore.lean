/-
  The mounted device as a store of files.

  A file is a kind and a slot; its bytes are those of its area.  On a device
  whose size is an `int`, the bitmap and the records lie before all areas, so
  only `lfs_write` stores anything in one.

    - `areas`: the areas of the slots, as regions of the device;
    - `Outcome.before_areas`: no call but `lfs_write` changes an area;
    - `storeOk`: transfers stay in the area of the file their handle was last
      given to, and none relies on a stale cursor;
    - `device_refines_store`: every run that meets `storeOk` reads and writes
      like a store of files, which starts as what the areas hold.
-/
import NvmfHdfs.Areas
import NvmfHdfs.Lib.Store
import NvmfHdfs.Rewrite.Area
import NvmfHdfs.Rewrite.Cursor
import NvmfHdfs.Rewrite.Length

namespace Rewrite

open CInt Layout Bitmap Path Records

variable {s s' : Lfs} {image : Image} {c : Call} {r : Reply} {tr : Trace} {k : Kind}
  {fh i a offset : ℕ}

/-! ## The areas as regions -/

/-- The length of the area of a kind of files. -/
def areaBytes (bs : ℕ) : Kind → ℕ
  | .metaFile => 2 * mbSize
  | .dataFile => bs - 2 * mbSize

theorem areaLen_eq (s : Lfs) : areaLen s k = areaBytes s.block_size k := by
  cases k <;> rfl

/-- A byte of a slot is in one of its two areas only. -/
theorem areaBytes_inj {bs x y : ℕ} {k k' : Kind} (hx : x < areaBytes bs k)
    (hy : y < areaBytes bs k') (h : areaShift k + x = areaShift k' + y) : k = k' := by
  cases k <;> cases k' <;> simp only [areaBytes, areaShift] at * <;> first | rfl | omega

theorem areaShift_add_lt {bs x : ℕ} (hmb : 2 * mbSize < bs) (hx : x < areaBytes bs k) :
    areaShift k + x < bs := by
  cases k <;> simp only [areaBytes, areaShift] at * <;> omega

theorem lt_of_lt_ite {p : Prop} [Decidable p] {x l : ℕ} (h : x < if p then l else 0) :
    p ∧ x < l := by
  split_ifs at h with hp
  · exact ⟨hp, h⟩
  · exact absurd h (Nat.not_lt_zero x)

/-- The areas of the files of a device; a slot that it does not have has none. -/
def areas (sb : SuperBlock) (hmb : 2 * mbSize < sb.s_block_size) : Regions (Kind × ℕ) where
  start f := dataStart (blockNum sb.s_dev_size sb.s_block_size) + f.2 * sb.s_block_size +
    areaShift f.1
  len f :=
    if f.2 < blockNum sb.s_dev_size sb.s_block_size then areaBytes sb.s_block_size f.1 else 0
  inj := by
    rintro ⟨k, i⟩ ⟨k', i'⟩ x y hx hy h
    dsimp only at hx hy h
    replace hx := (lt_of_lt_ite hx).2
    replace hy := (lt_of_lt_ite hy).2
    have hlt := areaShift_add_lt hmb hx
    have hlt' := areaShift_add_lt hmb hy
    have hsum : sb.s_block_size * i + (areaShift k + x) =
        sb.s_block_size * i' + (areaShift k' + y) := by
      rw [Nat.mul_comm _ i, Nat.mul_comm _ i']; omega
    have hi : i = i' := by
      have hdiv := congrArg (· / sb.s_block_size) hsum
      simpa only [Nat.mul_add_div (show 0 < sb.s_block_size by omega), Nat.div_eq_of_lt hlt,
        Nat.div_eq_of_lt hlt', Nat.add_zero] using hdiv
    subst hi
    have hshift : areaShift k + x = areaShift k' + y := Nat.add_left_cancel hsum
    rw [areaBytes_inj hx hy hshift]

/-! ## Only writes reach the areas -/

/-- **No call but `lfs_write` changes an area**: what the others store lies before the areas. -/
theorem Outcome.before_areas (G : Geometry s.dev_size s.block_size) (H : SlotInv s)
    (ho : Outcome s c r s') (hc : ∀ fh buf offset, c ≠ .write fh buf offset)
    (ha : dataStart s.num ≤ a) : s'.fd.image a = s.fd.image a := by
  have h1 := bitmap_before_info s.num
  have h2 := info_before_extra s.num
  have h3 := extra_before_data s.num
  have hbitmap : ∀ {wlen : ℕ} {p : List UInt8}, bitmapSize s.dev_size s.block_size = some wlen →
      s.fd.image.patch bitmapOffset (p.take wlen) a = s.fd.image a := by
    intro wlen p hw
    obtain rfl := Option.some.inj (G.bitmapSize_eq.symm.trans hw)
    refine Image.patch_of_ge ?_
    have hlen : (p.take (bitmapBytes s.num)).length ≤ bitmapBytes s.num := List.length_take_le ..
    change bitmapOffset + (p.take (bitmapBytes s.num)).length ≤ a
    omega
  cases ho <;> try rfl
  case getattrHit k _ _ _ _ _ _ _ _ _ _ _ => cases k <;> rfl
  case openMeta hw _ => exact hbitmap hw
  case openData hw _ => exact hbitmap hw
  case read hs hr => rw [seekTo_eq_some hs]
  case write => exact absurd rfl (hc _ _ _)
  case release fh bi off hoff hw =>
    have T := tableStart_of_release (by have := G.slot; have := G.small; omega) hoff
    have hinfo : s.infoOff = infoStart s.num := by
      rw [Lfs.infoOff, G.infoOffset_eq, Option.getD_some, Lfs.num]
    have hend : off + sizeofBlockInfo ≤ dataStart s.num := by
      rcases H fh with hle | hlost
      · rw [T.release_slot hle hoff, hinfo]
        have hmul := Nat.mul_le_mul_right sizeofBlockInfo hle
        unfold extraStart dataStart sizeofBlockInfo sizeofBlockExtraInfo at *
        omega
      · have := T.release_lost hlost hoff
        omega
    exact Image.patch_of_ge (by rw [BlockInfo.length_encode]; omega)

/-! ## The store -/

/-- The calls of a store: no transfer relies on a stale cursor, and each ends within the area of
    the file its handle was last given to. -/
def storeOk : Machine.Guard Lfs Call Reply := fun tr s c => cursorOk tr s c ∧
  match c with
  | .read fh size offset => ∃ f ∈ owner tr fh, offset + size ≤ areaLen s f.1
  | .write fh buf offset => ∃ f ∈ owner tr fh, offset + buf.length ≤ areaLen s f.1
  | .getattr _ | .readdir _ | .open _ | .release .. => True

instance (tr : Trace) (s : Lfs) : ∀ c, Decidable (storeOk tr s c)
  | .read fh size offset => inferInstanceAs (Decidable
      (cursorOk tr s _ ∧ ∃ f ∈ owner tr fh, offset + size ≤ areaLen s f.1))
  | .write fh buf offset => inferInstanceAs (Decidable
      (cursorOk tr s _ ∧ ∃ f ∈ owner tr fh, offset + buf.length ≤ areaLen s f.1))
  | .getattr _ | .readdir _ | .open _ | .release .. =>
    inferInstanceAs (Decidable (cursorOk tr s _ ∧ True))

/-- What a call asks of the store, and what it answers. -/
def fileOp (tr : Trace) (e : Machine.Event Lfs Call Reply) :
    Option (Store.Op (Kind × ℕ) × List UInt8) :=
  match e.input, e.output with
  | .read fh size offset, .bytes _ buf => (owner tr fh).map fun f => (.read f offset size, buf)
  | .write fh buf offset, .wrote _ => (owner tr fh).map fun f => (.write f offset buf, [])
  | _, _ => none

variable (hmb : 2 * mbSize < (superBlock image).s_block_size) {f : Kind × ℕ}

/-- Where a transfer on a handle goes. -/
theorem devOffset_owner (G : Geometry (superBlock image).s_dev_size (superBlock image).s_block_size)
    (h : Mount image storeOk tr s) (hown : owner tr fh = some f)
    (hlen : offset ≤ areaLen s f.1) :
    devOffset s fh offset = (areas (superBlock image) hmb).start f + offset ∧
      (areas (superBlock image) hmb).len f = areaLen s f.1 := by
  obtain ⟨k, i⟩ := f
  obtain ⟨hd, hb⟩ := h.sizes
  have hG : Geometry s.dev_size s.block_size := by rw [hd, hb]; exact G
  obtain ⟨hi, hst⟩ := areaInv_run h fh k i hown
  have hslot := hG.slot
  have hsmall := hG.small
  obtain ⟨off, hoff, hstart⟩ := (areaOffset_eq_some (by omega) (hb ▸ hmb) hi).1 hst
  obtain rfl := Option.some.inj (hG.dataOffset_eq.symm.trans hoff)
  have hlt : dataStart (blockNum s.dev_size s.block_size) + i * s.block_size + s.block_size <
      2 ^ 34 := hG.slot_lt hi
  have hshift := areaShift_add_len (k := k) (hb ▸ hmb : 2 * mbSize < s.block_size)
  constructor
  · rw [devOffset, hstart, toU64_of_lt (by dsimp only at hlen; omega), hd, hb]
    rfl
  · rw [areaLen_eq, hb]
    refine if_pos ?_
    rw [Lfs.num, hd, hb] at hi
    exact hi

/-- A step that is no write leaves the files. -/
theorem contents_step (G : Geometry (superBlock image).s_dev_size (superBlock image).s_block_size)
    (h : Mount image storeOk tr s) (ho : Outcome s c r s')
    (hc : ∀ fh buf offset, c ≠ .write fh buf offset) :
    (areas (superBlock image) hmb).contents s.fd.image =
      (areas (superBlock image) hmb).contents s'.fd.image := by
  refine Regions.contents_congr _ ?_
  rintro a ⟨f, x, -, rfl⟩
  refine (ho.before_areas (h.geometry G) h.slotInv hc ?_).symm
  rw [h.num]
  dsimp only [areas]
  omega

/-- A read delivers what the file holds. -/
theorem read_step {size : ℕ} {ret : ℤ} {buf : List UInt8}
    (G : Geometry (superBlock image).s_dev_size (superBlock image).s_block_size)
    (h : Mount image storeOk tr s) (hok : storeOk tr s (.read fh size offset))
    (ho : Outcome s (.read fh size offset) (.bytes ret buf) s') (hown : owner tr fh = some f) :
    buf = ((areas (superBlock image) hmb).contents s.fd.image f).slice offset size := by
  obtain ⟨f', hf', hlen⟩ := hok.2
  obtain rfl := Option.some.inj (hown.symm.trans hf')
  obtain ⟨hdev, hreg⟩ := devOffset_owner hmb G h hown ((Nat.le_add_right ..).trans hlen)
  obtain ⟨fd, hs, hr, -⟩ := ho.read_inv
  rw [(cursorInv_run (h.mono And.left)).seek hok.1 hs, hdev] at hr
  rw [Regions.slice_contents _ (hreg ▸ hlen)]
  exact (Reply.bytes.inj hr).2

/-- A write changes its file only. -/
theorem write_step {buf : List UInt8}
    (G : Geometry (superBlock image).s_dev_size (superBlock image).s_block_size)
    (h : Mount image storeOk tr s) (hok : storeOk tr s (.write fh buf offset))
    (ho : Outcome s (.write fh buf offset) r s') (hown : owner tr fh = some f) :
    (areas (superBlock image) hmb).contents s'.fd.image =
      Function.update ((areas (superBlock image) hmb).contents s.fd.image) f
        (((areas (superBlock image) hmb).contents s.fd.image f).patch offset buf) := by
  obtain ⟨f', hf', hlen⟩ := hok.2
  obtain rfl := Option.some.inj (hown.symm.trans hf')
  obtain ⟨hdev, hreg⟩ := devOffset_owner hmb G h hown ((Nat.le_add_right ..).trans hlen)
  obtain ⟨fd, hs, -, rfl⟩ := ho.write_inv
  rw [(cursorInv_run (h.mono And.left)).seek hok.1 hs, hdev]
  exact Regions.contents_patch _ (hreg ▸ hlen)

/-- The simulation of the device by a store of files. -/
def storeSim (G : Geometry (superBlock image).s_dev_size (superBlock image).s_block_size)
    (hmb : 2 * mbSize < (superBlock image).s_block_size) :
    Simulation system storeOk (Store.machine : Machine (Store (Kind × ℕ)) _ _) where
  Rel tr s m := Mount image storeOk tr s ∧ m = (areas (superBlock image) hmb).contents s.fd.image
  event := fileOp
  silent := by
    rintro tr s m c r s' ⟨h, rfl⟩ hok hst he
    have ho := step_outcome hst
    refine ⟨h.snoc hok hst, contents_step hmb G h ho ?_⟩
    rintro fh buf offset rfl
    -- a write is on a handle with an owner, and no silent step
    obtain ⟨f, hf, -⟩ := hok.2
    obtain ⟨fd, -, rfl, -⟩ := ho.write_inv
    simp [fileOp, Option.mem_def.1 hf] at he
  matched := by
    rintro tr s m c r s' op bs ⟨h, rfl⟩ hok hst he
    have ho := step_outcome hst
    unfold fileOp at he
    split at he
    case h_1 fh size offset ret buf hc hr =>
      dsimp only at hc hr
      subst hc hr
      obtain ⟨f, hown, he⟩ := Option.map_eq_some_iff.1 he
      obtain ⟨rfl, rfl⟩ := Prod.mk.inj he
      have hsame := contents_step hmb G h ho nofun
      refine ⟨_, ?_, h.snoc hok hst, hsame⟩
      rw [read_step hmb G h hok ho hown]
      rfl
    case h_2 fh buf offset ret hc hr =>
      dsimp only at hc hr
      subst hc hr
      obtain ⟨f, hown, he⟩ := Option.map_eq_some_iff.1 he
      obtain ⟨rfl, rfl⟩ := Prod.mk.inj he
      exact ⟨_, rfl, h.snoc hok hst, (write_step hmb G h hok ho hown).symm⟩
    case h_3 => cases he

theorem main_image (hm : main image = some s) : s.fd.image = image := by
  obtain ⟨len, -, rfl⟩ := main_eq_some hm
  rfl

/-- A run of the device is one of the store. -/
theorem store_run (G : Geometry (superBlock image).s_dev_size (superBlock image).s_block_size)
    (hmb : 2 * mbSize < (superBlock image).s_block_size) (h : Mount image storeOk tr s) :
    Store.machine.Does ((areas (superBlock image) hmb).contents image)
      (Simulation.historyOf fileOp tr) ((areas (superBlock image) hmb).contents s.fd.image) := by
  obtain ⟨s₀, hm, hr⟩ := h
  obtain ⟨m, hd, -, rfl⟩ := (storeSim G hmb).run hr ⟨⟨s₀, hm, .nil⟩, rfl⟩
  rwa [main_image hm] at hd

/-- **The mounted device is a store of files.**  On a device whose size is an `int`, with a slot
    and with slots of more than 2 MB, every run whose transfers stay in the area of the file their
    handle was last given to, and do not rely on a stale cursor, reads and writes like a store that
    starts with what the areas held when it was mounted, and leaves in the areas what the store
    holds.  The next such read delivers what was last written to the file, through any handle, and
    else what its area held. -/
theorem device_refines_store
    (G : Geometry (superBlock image).s_dev_size (superBlock image).s_block_size)
    (hmb : 2 * mbSize < (superBlock image).s_block_size) (h : Mount image storeOk tr s) :
    Store.machine.Does ((areas (superBlock image) hmb).contents image)
      (Simulation.historyOf fileOp tr) ((areas (superBlock image) hmb).contents s.fd.image) ∧
    ∀ fh size offset ret buf s' f, storeOk tr s (.read fh size offset) → owner tr fh = some f →
      system.step s (.read fh size offset) = some (.bytes ret buf, s') →
      buf = (((areas (superBlock image) hmb).contents image f).patches
        (Store.writesTo f (Simulation.historyOf fileOp tr))).slice offset size := by
  refine ⟨store_run G hmb h, fun fh size offset ret buf s' f hok hown hst => ?_⟩
  have hd := store_run G hmb (h.snoc hok hst)
  have hop : fileOp tr ⟨s, .read fh size offset, .bytes ret buf⟩ =
      some (.read f offset size, buf) := by
    simp only [fileOp, hown, Option.map_some]
  rw [Simulation.historyOf, hop] at hd
  exact Store.does_reply [] hd

/-- A meta file is opened and a data file written; the next read of the data file is one of the
    store. -/
theorem device_refines_store_data : ∃ tr s, mountExec blankDevice storeOk
      [.open (metaPath 1 1001), .open (dataPath 1), .write 6 [7, 8] 1] = some (tr, s) ∧
    storeOk tr s (.read 6 2 0) ∧ owner tr 6 = some (.dataFile, 0) ∧
    Store.machine.Does ((areas (superBlock blankDevice) (by decide +kernel)).contents blankDevice)
      (Simulation.historyOf fileOp tr)
      ((areas (superBlock blankDevice) (by decide +kernel)).contents s.fd.image) ∧
    ∀ fh size offset ret buf s' f, storeOk tr s (.read fh size offset) → owner tr fh = some f →
      system.step s (.read fh size offset) = some (.bytes ret buf, s') →
      buf = (((areas (superBlock blankDevice) (by decide +kernel)).contents blankDevice f).patches
        (Store.writesTo f (Simulation.historyOf fileOp tr))).slice offset size := by
  obtain ⟨tr, s, he, hm, hok, hown⟩ := Machine.exists_exec system storeOk (main blankDevice)
    [.open (metaPath 1 1001), .open (dataPath 1), .write 6 [7, 8] 1]
    (fun tr s => storeOk tr s (.read 6 2 0) ∧ owner tr 6 = some (.dataFile, 0)) (by decide +kernel)
  exact ⟨tr, s, he, hok, hown, device_refines_store
    ⟨⟨by decide +kernel, by decide +kernel⟩, by decide +kernel⟩ _ hm⟩

end Rewrite
