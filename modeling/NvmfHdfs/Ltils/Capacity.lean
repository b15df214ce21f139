/-
  How many files `ltils.c` can still make.

  No slot is ever freed.  A new file takes one, and so does one whose `lfs_open`
  is cut off after its byte of the bitmap was stored.

    - `markedSlot`: the slot that a step leaves marked, for a file or for nobody;
    - `marked_run`: they are taken first-fit, over all mounts;
    - `openNew_isSome`: a new file has a handle while a slot is clear;
    - `capacity`: the clear slots, the files made and the slots lost add up to
      the slots that were clear at first, and a new file can be made exactly
      while one is left.
-/
import NvmfHdfs.FullDevice
import NvmfHdfs.Ltils.Lifetime
import NvmfHdfs.Rewrite.Served

namespace Ltils

open CInt Layout Bitmap Path Records FirstFit Operations
open Rewrite (superBlock superBlock_congr clearSlots blankDevice)

variable {s s' : Lfs} {image m : Image} {k : Kind} {b : ℤ} {i : ℕ} {path : List Char}
  {tr : History} {e : LifeEvent}

/-! ## The slots that are marked -/

/-- The slot that a step leaves marked. -/
def markedSlot (e : LifeEvent) : Option ℕ := (newSlot e).or (lostSlot e)

/-- The slots marked so far, the newest first. -/
def markedSince (tr : History) : List ℕ := tr.filterMap markedSlot

/-- A step gives a slot to a file, or loses one, but not both. -/
theorem newSlot_or_lost (e : LifeEvent) : newSlot e = none ∨ lostSlot e = none := by
  obtain ⟨s, x, o⟩ := e
  cases x with
  | call q => exact .inr rfl
  | restart file => exact .inl rfl
  | crash q kept file => exact .inl rfl

theorem markedSince_cons :
    markedSince (e :: tr) = (markedSlot e).toList ++ markedSince tr := by
  unfold markedSince
  rw [List.filterMap_cons]
  cases markedSlot e <;> rfl

theorem mem_markedSince : i ∈ markedSince tr ↔ i ∈ newSlots tr ∨ i ∈ lostSlots tr := by
  induction tr with
  | nil => simp [markedSince, newSlots, lostSlots]
  | cons e tr ih =>
    rw [markedSince_cons, newSlots_cons, lostSlots_cons, markedSlot]
    rcases newSlot_or_lost e with h | h
    · simp only [h, Option.none_or, Option.toList_none, List.nil_append, List.mem_append, ih]
      tauto
    · simp only [h, Option.or_none, Option.toList_none, List.nil_append, List.mem_append, ih]
      tauto

theorem length_markedSince :
    (markedSince tr).length = (newSlots tr).length + (lostSlots tr).length := by
  induction tr with
  | nil => rfl
  | cons e tr ih =>
    rw [markedSince_cons, newSlots_cons, lostSlots_cons, markedSlot]
    simp only [List.length_append, ih]
    rcases newSlot_or_lost e with h | h
    · rw [h, Option.none_or]
      simp only [Option.toList_none, List.length_nil]
      omega
    · rw [h, Option.or_none]
      simp only [Option.toList_none, List.length_nil]
      omega

/-- The slots marked are taken one by one, whatever is cut off. -/
def MarkedInv (image : Image) (tr : History) (s : Lfs) : Prop :=
  Fits (marked (used s.num image)) (markedSince tr) (marked (used s.num s.fd.image))

/-- A step that leaves the bitmap and takes no slot. -/
theorem MarkedInv.quiet (h : MarkedInv image tr s) (he : markedSlot e = none)
    (hn : s'.num = s.num) (hbits : ∀ j < s.num, diskBit s'.fd.image j = diskBit s.fd.image j) :
    MarkedInv image (e :: tr) s' := by
  have h : Fits _ _ _ := h
  have hslot : ∀ j < s.num, diskBit s'.fd.image j =
      (diskBit s.fd.image j || decide (none = some j)) := fun j hj => by simp [hbits j hj]
  rw [MarkedInv, markedSince_cons, he, hn]
  exact h.grow (marked_used hslot)

/-- Every step of a lifetime takes the least clear slot, if any. -/
theorem MarkedInv.step {x : LifeInput} {o : Option (Answer Reply)} (h : MarkedInv image tr s)
    (H : LifeInv image tr s)
    (G : Geometry (superBlock image).s_dev_size (superBlock image).s_block_size)
    (hok : Machine.crashOk lifeOk tr s x) (hstep : lifetime.step s x = some (o, s')) :
    MarkedInv image (⟨s, x, o⟩ :: tr) s' := by
  have hG : Geometry s.dev_size s.block_size := by rw [H.dev_size, H.block_size]; exact G
  have hn : s'.num = s.num := by
    have H' := H.step G hok hstep
    rw [Lfs.num, Lfs.num, H'.dev_size, H'.block_size, H.dev_size, H.block_size]
  have hfits : Fits _ _ _ := h
  cases x with
  | call q =>
    obtain ⟨y, rfl, hst⟩ := Machine.crashing_call hstep
    rcases uOperation_cases hst with ⟨c, r, rfl, rfl, hc⟩ | ⟨hq, rfl⟩
    · have E := effect_of_call hG hok hc
      rw [MarkedInv, markedSince_cons, hn]
      have hslot : markedSlot ⟨s, .call (.call c), some (.reply r)⟩ = takes s c := Option.or_none ..
      rw [hslot]
      exact fits_marked hfits E.bits E.least
    · refine h.quiet ?_ hn fun j _ => rfl
      cases q with
      | call c => exact absurd rfl (hq c)
      | _ => rfl
  | restart file =>
    obtain ⟨rfl, hm⟩ := Machine.crashing_restart hstep
    refine h.quiet rfl hn fun j _ => ?_
    rw [main_eq_some hm]
  | crash q kept file =>
    obtain ⟨rfl, y, t, hst, hm⟩ := Machine.crashing_crash hstep
    have hdisk : s'.fd.image = Image.torn kept s.fd.image t.fd.image := by rw [main_eq_some hm]
    rcases uOperation_cases hst with ⟨c, r, rfl, rfl, hc⟩ | ⟨hq, rfl⟩
    · have E := effect_of_call hG hok hc
      rw [MarkedInv, markedSince_cons, hn, hdisk]
      have hleast : ∀ i ∈ keptSlot kept (takes s c), i < s.num ∧
          IsLeast (marked (used s.num s.fd.image))ᶜ i :=
        fun i hi => E.least i (Option.filter_eq_some_iff.1 hi).1
      exact fits_marked hfits (fun j hj => E.torn hj) hleast
    · refine h.quiet ?_ hn fun j _ => ?_
      · cases q with
        | call c => exact absurd rfl (hq c)
        | _ => rfl
      · rw [hdisk, Image.torn_self]

/-- **They are taken first-fit** in every lifetime. -/
theorem marked_run (G : Geometry (superBlock image).s_dev_size (superBlock image).s_block_size)
    (h : Life image tr s) : LifeInv image tr s ∧ MarkedInv image tr s := by
  obtain ⟨file, s₀, hm, hr⟩ := h
  refine hr.invariant (fun tr s => LifeInv image tr s ∧ MarkedInv image tr s) ?_ ?_
  · refine ⟨lifeInv_run G ⟨file, s₀, hm, .nil⟩, ?_⟩
    rw [MarkedInv, main_eq_some hm]
    exact .nil
  · rintro tr s x o s' ⟨H, h⟩ hok hst
    exact ⟨H.step G hok hst, h.step H G hok hst⟩

/-! ## A new file -/

/-- **A new file has a handle** while a slot is clear. -/
theorem openNew_isSome (G : Geometry s.dev_size s.block_size) (hp : parsePath path = some (k, b))
    (hf : findFile s.file s.num b = some none)
    (hfree : ∃ i < s.num, diskBit s.fd.image i = false) : (lfsOpen s path).isSome = true := by
  have hlen := length_withBitmap s
  have hnum : s.num < 520105 := G.blockNum_lt
  have hsmall : bitmapBytes s.num < 2 ^ 32 := by
    unfold bitmapBytes
    omega
  -- the slot is found and marked as `rewrite.c` does it
  obtain ⟨l, i, v, p, ha, hi, hset, hw, hwr⟩ : ∃ l i v p,
      bitmapAvailableblockid 1 s.num (s.fd.image.slice bitmapOffset (bitmapBytes s.num)) =
        some l ∧ l.head? = some i ∧
      bitmapSet i (s.fd.image.slice bitmapOffset (bitmapBytes s.num)) s.num = some (v, p) ∧
      bitmapSize s.dev_size s.block_size = some p.length ∧
      ∀ fd : Descriptor, (writeBitmap fd p.length p).isSome = true := by
    refine (sound_withBitmap G).alloc_isSome G ((Image.length_slice _ _ _).trans hlen.symm) ?_
    obtain ⟨i, hi, hclear⟩ := hfree
    exact ⟨i, hi, (bit_slice (slot_bit_lt hi)).trans hclear⟩
  obtain ⟨fd, hfd⟩ := Option.isSome_iff_exists.1
    (hwr ⟨s.fd.image, bitmapOffset + bitmapBytes s.num⟩)
  have hsize : s.bitSize = some s.num := Rewrite.Sound.bitSize_eq (s := withBitmap s) G
  have hc : slotOffset s i = some (toU64 (dataStart s.num + i * s.block_size : ℕ)) := by
    rw [slotOffset, bind_of_eq_some G.dataOffset_eq]
    rfl
  have hread : readBitmap s.fd (toInt s.dev_size) (toInt s.block_size) =
      some (s.fd.image.slice bitmapOffset (bitmapBytes s.num),
        ⟨s.fd.image, bitmapOffset + bitmapBytes s.num⟩) :=
    readBitmap_eq G.readBitmapSize_eq hsmall
  rw [lfsOpen, bind_of_eq_some hp]
  dsimp only
  rw [bind_of_eq_some hf, bind_of_eq_some hread]
  dsimp only
  -- the sizes are those before the descriptor moved
  have hsize : Lfs.bitSize { s with fd := ⟨s.fd.image, bitmapOffset + bitmapBytes s.num⟩ } =
    some s.num := hsize
  have hc : slotOffset { s with fd := ⟨s.fd.image, bitmapOffset + bitmapBytes s.num⟩ } i =
    some (toU64 (dataStart s.num + i * s.block_size : ℕ)) := hc
  rw [bind_of_eq_some hsize, bind_of_eq_some ha, bind_of_eq_some hi, bind_of_eq_some hc,
    bind_of_eq_some hset]
  dsimp only
  rw [bind_of_eq_some hw, bind_of_eq_some hfd]
  rfl

/-- **Capacity.**  On a device whose size is an `int`, with a slot, however often it is unmounted
    or a call is cut off by a crash, as long as nothing is written before the areas: the slots that
    are clear, those given to new files and those lost in crashes add up to the slots that were
    clear at first; and a file that is not in the table finds a clear slot exactly if fewer have
    been given or lost than were clear. -/
theorem capacity (G : Geometry (superBlock image).s_dev_size (superBlock image).s_block_size)
    (h : Life image tr s) :
    (newSlots tr).length + (lostSlots tr).length + clearSlots s.fd.image = clearSlots image ∧
    ∀ path k b, parsePath path = some (k, b) → findFile s.file s.num b = some none →
      ((lfsOpen s path).isSome = true ↔
        (newSlots tr).length + (lostSlots tr).length < clearSlots image) := by
  obtain ⟨H, hfits⟩ := marked_run G h
  have hG : Geometry s.dev_size s.block_size := by rw [H.dev_size, H.block_size]; exact G
  have hsb : superBlock s.fd.image = superBlock image := superBlock_congr H.superblock
  have hn : blockNum (superBlock image).s_dev_size (superBlock image).s_block_size = s.num := by
    rw [Lfs.num, H.dev_size, H.block_size]
  have hclear : ∀ m : Image, ∀ i, i ∈ (List.range s.num).filter (fun i => !diskBit m i) ↔
      i < s.num ∧ i ∉ marked (used s.num m) := by
    intro m i
    simp only [List.mem_filter, List.mem_range, mem_marked, used]
    simp +contextual
  have hsum : (newSlots tr).length + (lostSlots tr).length + clearSlots s.fd.image =
      clearSlots image := by
    rw [← length_markedSince, clearSlots, clearSlots, hsb, hn]
    refine hfits.length_unused ?_ ?_ (List.nodup_range.filter _) (List.nodup_range.filter _)
      (hclear image) (hclear s.fd.image)
    · intro i hi
      simp only [mem_marked, used, Bool.and_eq_true, decide_eq_true_eq] at hi ⊢
      have hbit := hi.2
      rw [H.bits i hi.1] at hbit
      simp only [Bool.or_eq_true, decide_eq_true_eq, or_assoc] at hbit
      exact hbit.imp (fun h => ⟨hi.1, h⟩) mem_markedSince.2
    · intro i hi
      have hin := (hfits.fresh hi).2
      simp only [mem_marked, used, Bool.and_eq_true, decide_eq_true_eq] at hin
      exact hin.1
  refine ⟨hsum, fun path k b hp hf => ?_⟩
  constructor
  · intro hsome
    by_contra hle
    have hnone : clearSlots s.fd.image = 0 := by omega
    rw [clearSlots, hsb, hn, List.length_eq_zero_iff, List.filter_eq_nil_iff] at hnone
    rw [lfsOpen_full hp (findFile_none hf) fun i hi => by
      simpa using hnone i (List.mem_range.2 hi)] at hsome
    cases hsome
  · intro hlt
    have hpos : 0 < clearSlots s.fd.image := by omega
    rw [clearSlots, hsb, hn] at hpos
    obtain ⟨i, hi⟩ := List.exists_mem_of_length_pos hpos
    obtain ⟨hi, hbit⟩ := List.mem_filter.1 hi
    exact openNew_isSome hG hp hf ⟨i, List.mem_range.1 hi, by simpa using hbit⟩

/-- A file is opened, and the open of the next one is cut off: two slots are left. -/
theorem capacity_lost : ∃ tr s, lifeExec zeroFile blankDevice
      [.call (.call (.open (dataPath 1))),
      .crash (.call (.open (dataPath 2))) (fun a => a % 2 = 0) zeroFile] = some (tr, s) ∧
    newSlots tr = [0] ∧ lostSlots tr = [1] ∧ clearSlots blankDevice = 4 ∧
    (newSlots tr).length + (lostSlots tr).length + clearSlots s.fd.image =
      clearSlots blankDevice ∧
    ∀ path k b, parsePath path = some (k, b) → findFile s.file s.num b = some none →
      ((lfsOpen s path).isSome = true ↔
        (newSlots tr).length + (lostSlots tr).length < clearSlots blankDevice) := by
  obtain ⟨tr, s, he, hl, hnew, hlost⟩ := Machine.exists_exec lifetime (Machine.crashOk lifeOk)
    (main blankDevice zeroFile)
    [.call (.call (.open (dataPath 1))),
      .crash (.call (.open (dataPath 2))) (fun a => a % 2 = 0) zeroFile]
    (fun tr _ => newSlots tr = [0] ∧ lostSlots tr = [1]) (by decide +kernel)
  exact ⟨tr, s, he, hnew, hlost, by decide +kernel, capacity
    ⟨⟨by decide +kernel, by decide +kernel⟩, by decide +kernel⟩ ⟨zeroFile, hl⟩⟩

end Ltils
