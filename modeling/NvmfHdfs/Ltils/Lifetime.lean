/-
  A device over all its mounts by `ltils.c`.

  The bitmap is read from the device at each `lfs_open` and written back with one
  bit more, so that a crash while it is written leaves the old one or the new
  one.  The records are never written.

    - `lifetime`: the operations of a mount, unmounting and crashes;
    - `lifeOk`: `lfs_write2` stores nothing before the end of the records;
    - `slots_account`: the slots given to new files increase over all mounts,
      and the slots marked are those of the first device, those given, and those
      a crash cut off after the bitmap was written;
    - `answers_eq`: what `lfs_getattr` and `lfs_readdir` answer, from the records
      of the first device and the slots marked since.
-/
import NvmfHdfs.Lib.Crash
import NvmfHdfs.Lib.FirstFit
import NvmfHdfs.Ltils.Owner
import NvmfHdfs.Operations
import NvmfHdfs.Rewrite.Progress

namespace Ltils

open CInt Layout Bitmap Path Records FirstFit Operations
open Rewrite (superBlock superBlock_congr lookup usedSlots usedSlots_info slotName modeOf lengthOf
  findInfo_isSome findInfo_slice nameLoop_isSome blankDevice)

variable {s s' : Lfs} {image m : Image} {c : Call} {r : Reply} {k : Kind} {b : ℤ} {a i j : ℕ}
  {q : Request Call} {kept : ℕ → Bool} {path : List Char}

/-! ## The machine -/

/-- What happens to a device: a request, unmounting and mounting again, or a crash.  The memory is
    what `malloc` leaves in `file`. -/
abbrev LifeInput := CrashInput (Request Call) (ℕ → FileDirectory)

/-- A step of a lifetime. -/
abbrev LifeEvent := Machine.Event Lfs LifeInput (Option (Answer Reply))

/-- The operations of the mounts of a device, unmounting it and mounting it again, and crashes. -/
def lifetime : Machine Lfs LifeInput (Option (Answer Reply)) :=
  (uOperation system).crashing (fun s => s.fd.image) fun file image => main image file

/-- The steps taken over all mounts, the newest first. -/
abbrev History := List LifeEvent

/-- Where `lfs_write2` stores its bytes. -/
def writePos (s : Lfs) (fh offset : ℕ) : ℕ :=
  if (s.file (fh - 3)).cur_offset = devOffset s fh offset then s.fd.pos else devOffset s fh offset

/-- A call that stores nothing before the end of the records, an allocation apart. -/
def writesBehind (s : Lfs) : Call → Prop
  | .write fh buf offset => buf = [] ∨ tableEnd s.num ≤ writePos s fh offset
  | .getattr _ | .readdir _ | .open _ | .read .. => True

instance (s : Lfs) : ∀ c, Decidable (writesBehind s c)
  | .write fh buf offset =>
    inferInstanceAs (Decidable (buf = [] ∨ tableEnd s.num ≤ writePos s fh offset))
  | .getattr _ | .readdir _ | .open _ | .read .. => .isTrue trivial

/-- A request that stores nothing before the end of the records. -/
def lifeOk : Lfs → Request Call → Prop := requestOk writesBehind

instance (s : Lfs) (q : Request Call) : Decidable (lifeOk s q) :=
  inferInstanceAs (Decidable (requestOk _ s q))

/-- What a device goes through, from its first mount. -/
def Life (image : Image) (tr : History) (s : Lfs) : Prop :=
  ∃ file s₀, main image file = some s₀ ∧ lifetime.Run (Machine.crashOk lifeOk) s₀ tr s

/-- Mounting a device for the first time and making the given requests. -/
def lifeExec (file : ℕ → FileDirectory) (image : Image)
    (xs : List LifeInput) : Option (History × Lfs) :=
  Machine.execFrom lifetime (Machine.crashOk lifeOk) (main image file) xs

/-- The slot a call takes for a new file. -/
def takes (s : Lfs) : Call → Option ℕ
  | .open path => (parsePath path).bind fun x =>
    if findFile s.file s.num x.2 = some none then (lfsOpen s path).map fun y => y.1 - 3 else none
  | .getattr _ | .readdir _ | .write .. | .read .. => none

/-- The slot that a step gives to a new file. -/
def newSlot (e : LifeEvent) : Option ℕ :=
  match e.input with
  | .call (.call c) => takes e.pre c
  | _ => none

/-- The slot that a crash leaves marked for nobody. -/
def lostSlot (e : LifeEvent) : Option ℕ :=
  match e.input with
  | .crash (.call c) kept _ => (takes e.pre c).filter fun i => kept (bitmapOffset + i / 8)
  | _ => none

/-- The slots given to new files, the newest first. -/
def newSlots (tr : History) : List ℕ := tr.filterMap newSlot

/-- The slots lost in crashes. -/
def lostSlots (tr : History) : List ℕ := tr.filterMap lostSlot

/-! ## One call -/

theorem takes_new (hp : parsePath path = some (k, b))
    (hf : findFile s.file s.num b = some none) (ho : lfsOpen s path = some (i + 3, s')) :
    takes s (.open path) = some i := by
  rw [takes, hp, Option.bind_some, if_pos hf, ho, Option.map_some, Nat.add_sub_cancel]

/-- The slots marked on a device with `n` slots. -/
def used (n : ℕ) (m : Image) : ℕ → Bool := fun i => decide (i < n) && diskBit m i

/-- What a call changes of the device before the areas: the bit of the slot it takes. -/
structure Effect (s s' : Lfs) (slot : Option ℕ) : Prop where
  dev_size : s'.dev_size = s.dev_size
  block_size : s'.block_size = s.block_size
  superblock : ∀ a < bitmapOffset, s'.fd.image a = s.fd.image a
  records : ∀ a, infoStart s.num ≤ a → a < tableEnd s.num → s'.fd.image a = s.fd.image a
  bits : ∀ j < s.num, diskBit s'.fd.image j = (diskBit s.fd.image j || decide (slot = some j))
  least : ∀ i ∈ slot, i < s.num ∧ IsLeast (marked (used s.num s.fd.image))ᶜ i

/-- A call that takes no slot and stores behind the records. -/
theorem Effect.of_same (ho : Outcome s c r s')
    (h : ∀ a < tableEnd s.num, s'.fd.image a = s.fd.image a) : Effect s s' none := by
  have hend : bitmapOffset + bitmapBytes s.num < infoStart s.num := bitmap_before_info s.num
  have hle : infoStart s.num ≤ tableEnd s.num := Nat.le_add_right _ _
  refine ⟨ho.dev_size, ho.block_size, fun a ha => h a (by omega), fun a _ ha => h a ha,
    fun j hj => ?_, nofun⟩
  have hbyte := slot_bit_lt hj
  rw [diskBit_congr (h _ (by omega))]
  simp

/-- A call that takes a slot. -/
theorem Effect.of_new {n len : ℕ} {v : UInt8} {p : List UInt8}
    (G : Geometry s.dev_size s.block_size) (hd : s'.dev_size = s.dev_size)
    (hb : s'.block_size = s.block_size) (hn : s.bitSize = some n)
    (hlen : readBitmapSize (toInt s.dev_size) (toInt s.block_size) = some len)
    (hfree : firstFree (bit (s.fd.image.slice bitmapOffset len)) n = some i)
    (hset : bitmapSet i (s.fd.image.slice bitmapOffset len) n = some (v, p))
    (himage : s'.fd.image = s.fd.image.patch bitmapOffset (p.take (bitmapBytes s.num))) :
    Effect s s' (some i) := by
  have hslot := G.slot
  have hsmall := G.small
  obtain ⟨-, hbits⟩ := alloc_bits (by omega) hlen hfree hset G.bitmapSize_eq
  have hend : bitmapOffset + bitmapBytes s.num < infoStart s.num := bitmap_before_info s.num
  have hplen : (p.take (bitmapBytes s.num)).length ≤ bitmapBytes s.num := List.length_take_le ..
  refine ⟨hd, hb, fun a ha => ?_, fun a ha _ => ?_, fun j _ => ?_, fun i' hi' => ?_⟩
  · rw [himage]
    exact Image.patch_of_lt ha
  · rw [himage]
    exact Image.patch_of_ge (by omega)
  · rw [himage]
    refine (hbits j).trans ?_
    simp [eq_comm]
  · obtain rfl := Option.some.inj hi'
    obtain ⟨hin, hi8, hclear⟩ := clear_of_firstFree hfree hset
    have hnum := (bitSize_le hn).1
    refine ⟨hin.trans_le hnum, firstFree_isLeast (firstFree_eq_some.2 ⟨hin, ?_, fun j hj => ?_⟩)⟩
    · simp [used, hclear]
    · have hj8 : j / 8 < len := by omega
      have hbit := (firstFree_eq_some.1 hfree).2.2 j hj
      rw [bit_slice hj8] at hbit
      simp only [used, hbit, Bool.and_true, decide_eq_true_eq]
      omega

theorem seekTo_writePos {fh offset : ℕ} {fd : Descriptor}
    (h : seekTo s fh (devOffset s fh offset) = some fd) :
    fd = ⟨s.fd.image, writePos s fh offset⟩ := by
  unfold seekTo at h
  unfold writePos
  by_cases hskip : (s.file (fh - 3)).cur_offset = devOffset s fh offset
  · rw [if_neg (by simpa using hskip)] at h
    rw [if_pos hskip, ← Option.some.inj h]
  · rw [if_pos hskip] at h
    rw [if_neg hskip]
    exact (Descriptor.lseek_eq_some.1 h).2

/-- **What a call changes** before the areas. -/
theorem effect_of_call (G : Geometry s.dev_size s.block_size) (hok : writesBehind s c)
    (hst : system.step s c = some (r, s')) : Effect s s' (takes s c) := by
  have ho := step_outcome hst
  cases c with
  | getattr path => exact .of_same ho fun a _ => by cases ho <;> rfl
  | readdir path => exact .of_same ho fun a _ => by cases ho <;> rfl
  | read fh size offset => exact .of_same ho fun a _ => by cases ho <;> rfl
  | write fh buf offset =>
    refine .of_same ho fun a ha => ?_
    cases ho with
    | @write _ _ _ fd hfh hs hw =>
      obtain rfl := seekTo_writePos hs
      refine Image.patch_outside fun hr => ?_
      rcases hok with rfl | hle
      · exact absurd hr.2 (by simpa using hr.1)
      · exact absurd (hle.trans hr.1) (Nat.not_le.2 ha)
  | «open» path =>
    obtain ⟨⟨fh, t⟩, hopen, he⟩ := Option.map_eq_some_iff.1 hst
    cases he
    cases ho with
    | @openFound _ k b i len hp hf hlen =>
      have htakes : takes s (.open path) = none := by
        rw [takes, hp, Option.bind_some, if_neg (by rw [hf]; simp)]
      rw [htakes]
      exact .of_same (.openFound hp hf hlen) fun a _ => rfl
    | @openNew _ k b n len wlen i c v p hp hf hn hlen hfree hc hset hw hwl =>
      rw [takes_new hp hf hopen]
      obtain rfl := Option.some.inj (G.bitmapSize_eq.symm.trans hw)
      exact .of_new G rfl rfl hn hlen hfree hset rfl

/-! ## Crashes -/

variable {slot : Option ℕ} {n : ℕ}

/-- The slot that stays marked when a crash leaves only some bytes. -/
def keptSlot (kept : ℕ → Bool) (slot : Option ℕ) : Option ℕ :=
  slot.filter fun i => kept (bitmapOffset + i / 8)

/-- **A torn bitmap** is the old one or the new one: only one byte of it changes. -/
theorem Effect.torn (E : Effect s s' slot) (hj : j < s.num) :
    diskBit (Image.torn kept s.fd.image s'.fd.image) j =
      (diskBit s.fd.image j || decide (keptSlot kept slot = some j)) := by
  have hbits := E.bits j hj
  cases hk : kept (bitmapOffset + j / 8) with
  | true =>
    have hbyte : Image.torn kept s.fd.image s'.fd.image (bitmapOffset + j / 8) =
        s'.fd.image (bitmapOffset + j / 8) := if_pos hk
    rw [diskBit_congr hbyte, hbits]
    congr 2
    rw [keptSlot, Option.filter_eq_some_iff]
    exact propext ⟨fun h => ⟨h, hk⟩, And.left⟩
  | false =>
    have hbyte : Image.torn kept s.fd.image s'.fd.image (bitmapOffset + j / 8) =
        s.fd.image (bitmapOffset + j / 8) := if_neg (by simp [hk])
    rw [diskBit_congr hbyte]
    have hnone : keptSlot kept slot ≠ some j := by
      intro h
      rw [keptSlot, Option.filter_eq_some_iff, hk] at h
      exact absurd h.2 (by simp)
    simp [hnone]

theorem marked_used (h : ∀ j < n, diskBit m j = (diskBit image j || decide (slot = some j))) :
    marked (used n image) ⊆ marked (used n m) := by
  intro j hj
  simp only [mem_marked, used, Bool.and_eq_true, decide_eq_true_eq] at hj ⊢
  exact ⟨hj.1, by rw [h j hj.1, hj.2, Bool.true_or]⟩

theorem marked_used_insert (hi : i < n)
    (h : ∀ j < n, diskBit m j = (diskBit image j || decide (some i = some j))) :
    marked (used n m) = insert i (marked (used n image)) := by
  ext j
  simp only [Set.mem_insert_iff, mem_marked, used, Bool.and_eq_true, decide_eq_true_eq]
  constructor
  · rintro ⟨hj, hbit⟩
    rw [h j hj] at hbit
    by_cases hij : j = i
    · exact .inl hij
    · exact .inr ⟨hj, by simpa [Ne.symm hij] using hbit⟩
  · rintro (rfl | ⟨hj, hbit⟩)
    · exact ⟨hi, by rw [h j hi]; simp⟩
    · exact ⟨hj, by rw [h j hj, hbit, Bool.true_or]⟩

/-- Slots that are marked one by one are taken first-fit. -/
theorem fits_marked {u₀ : Set ℕ} {l : List ℕ} (h : Fits u₀ l (marked (used n image)))
    (hbits : ∀ j < n, diskBit m j = (diskBit image j || decide (slot = some j)))
    (hleast : ∀ i ∈ slot, i < n ∧ IsLeast (marked (used n image))ᶜ i) :
    Fits u₀ (slot.toList ++ l) (marked (used n m)) := by
  cases slot with
  | none => exact h.grow (marked_used hbits)
  | some i =>
    obtain ⟨hi, hleast⟩ := hleast i rfl
    rw [marked_used_insert hi hbits]
    exact h.take hleast

/-! ## The invariant -/

variable {tr : History} {e : LifeEvent}

/-- The invariant over all mounts of a device. -/
structure LifeInv (image : Image) (tr : History) (s : Lfs) : Prop where
  dev_size : s.dev_size = (superBlock image).s_dev_size
  block_size : s.block_size = (superBlock image).s_block_size
  superblock : ∀ a < bitmapOffset, s.fd.image a = image a
  records : ∀ a, infoStart s.num ≤ a → a < tableEnd s.num → s.fd.image a = image a
  bits : ∀ j < s.num, diskBit s.fd.image j =
    (diskBit image j || decide (j ∈ newSlots tr) || decide (j ∈ lostSlots tr))
  fits : Fits (marked (used s.num image)) (newSlots tr) (marked (used s.num s.fd.image))

theorem newSlots_cons : newSlots (e :: tr) = (newSlot e).toList ++ newSlots tr := by
  unfold newSlots
  rw [List.filterMap_cons]
  cases newSlot e <;> rfl

theorem lostSlots_cons : lostSlots (e :: tr) = (lostSlot e).toList ++ lostSlots tr := by
  unfold lostSlots
  rw [List.filterMap_cons]
  cases lostSlot e <;> rfl

namespace LifeInv
variable (H : LifeInv image tr s)
include H

/-- The bits after a step that marks at most one slot. -/
theorem bits_step (hn : s'.num = s.num) (hslot : slot = newSlot e ∧ lostSlot e = none ∨
      slot = lostSlot e ∧ newSlot e = none)
    (hbits : ∀ j < s.num, diskBit s'.fd.image j =
      (diskBit s.fd.image j || decide (slot = some j))) (j : ℕ) (hj : j < s'.num) :
    diskBit s'.fd.image j = (diskBit image j || decide (j ∈ newSlots (e :: tr)) ||
      decide (j ∈ lostSlots (e :: tr))) := by
  rw [hn] at hj
  rw [hbits j hj, H.bits j hj, newSlots_cons, lostSlots_cons]
  rcases hslot with ⟨rfl, hnone⟩ | ⟨rfl, hnone⟩
  · rw [hnone, Bool.eq_iff_iff]
    simp only [Bool.or_eq_true, decide_eq_true_eq, List.mem_append, Option.mem_toList,
      Option.toList_none, List.not_mem_nil, false_or]
    tauto
  · rw [hnone, Bool.eq_iff_iff]
    simp only [Bool.or_eq_true, decide_eq_true_eq, List.mem_append, Option.mem_toList,
      Option.toList_none, List.not_mem_nil, false_or]
    tauto

/-- A call keeps the invariant. -/
theorem call {y : Option (Answer Reply)} (E : Effect s s' (takes s c)) :
    LifeInv image (⟨s, .call (.call c), y⟩ :: tr) s' := by
  have hn : s'.num = s.num := by rw [Lfs.num, Lfs.num, E.dev_size, E.block_size]
  refine ⟨E.dev_size.trans H.dev_size, E.block_size.trans H.block_size,
    fun a ha => (E.superblock a ha).trans (H.superblock a ha), fun a h1 h2 => ?_,
    H.bits_step hn (.inl ⟨rfl, rfl⟩) E.bits, ?_⟩
  · rw [hn] at h1 h2
    exact (E.records a h1 h2).trans (H.records a h1 h2)
  · rw [hn, newSlots_cons]
    exact fits_marked H.fits E.bits E.least

/-- A step that leaves the state keeps the invariant. -/
theorem idle (hnew : newSlot e = none) (hlost : lostSlot e = none) :
    LifeInv image (e :: tr) s := by
  refine ⟨H.dev_size, H.block_size, H.superblock, H.records,
    H.bits_step rfl (.inl ⟨hnew.symm, hlost⟩) fun j _ => by simp, ?_⟩
  rw [newSlots_cons, hnew]
  exact H.fits

/-- Starting again, on a device on which a crash may have marked a slot. -/
theorem start {file : ℕ → FileDirectory} (hsuper : ∀ a < bitmapOffset, m a = s.fd.image a)
    (hrecords : ∀ a, infoStart s.num ≤ a → a < tableEnd s.num → m a = s.fd.image a)
    (hbits : ∀ j < s.num, diskBit m j = (diskBit s.fd.image j || decide (lostSlot e = some j)))
    (hnew : newSlot e = none) (hm : main m file = some s') : LifeInv image (e :: tr) s' := by
  have hsb : superBlock m = superBlock image :=
    superBlock_congr fun a ha => (hsuper a ha).trans (H.superblock a ha)
  obtain ⟨hd, hb, -⟩ := main_sizes hm
  have hdisk : s'.fd.image = m := by rw [main_eq_some hm]
  have hn : s'.num = s.num := by
    rw [Lfs.num, Lfs.num, hd, hb, hsb, H.dev_size, H.block_size]
  refine ⟨by rw [hd, hsb], by rw [hb, hsb], fun a ha => ?_, fun a h1 h2 => ?_,
    H.bits_step hn (.inr ⟨rfl, hnew⟩) (by rw [hdisk]; exact hbits), ?_⟩
  · rw [hdisk, hsuper a ha, H.superblock a ha]
  · rw [hn] at h1 h2
    rw [hdisk, hrecords a h1 h2, H.records a h1 h2]
  · rw [hn, hdisk, newSlots_cons, hnew]
    exact H.fits.grow (marked_used hbits)

end LifeInv

/-- Every step of a lifetime keeps the invariant. -/
theorem LifeInv.step {x : LifeInput}
    {o : Option (Answer Reply)} (H : LifeInv image tr s)
    (G : Geometry (superBlock image).s_dev_size (superBlock image).s_block_size)
    (hok : Machine.crashOk lifeOk tr s x) (h : lifetime.step s x = some (o, s')) :
    LifeInv image (⟨s, x, o⟩ :: tr) s' := by
  have hG : Geometry s.dev_size s.block_size := by rw [H.dev_size, H.block_size]; exact G
  cases x with
  | call q =>
    obtain ⟨y, rfl, hst⟩ := Machine.crashing_call h
    rcases uOperation_cases hst with ⟨c, r, rfl, rfl, hc⟩ | ⟨hq, rfl⟩
    · exact H.call (effect_of_call hG hok hc)
    · cases q with
      | call c => exact absurd rfl (hq c)
      | _ => exact H.idle rfl rfl
  | restart file =>
    obtain ⟨rfl, hm⟩ := Machine.crashing_restart h
    exact H.start (fun _ _ => rfl) (fun _ _ _ => rfl) (fun j _ => by simp [lostSlot]) rfl hm
  | crash q kept file =>
    obtain ⟨rfl, y, t, hst, hm⟩ := Machine.crashing_crash h
    rcases uOperation_cases hst with ⟨c, r, rfl, rfl, hc⟩ | ⟨hq, rfl⟩
    · have E := effect_of_call hG hok hc
      exact H.start (fun a ha => Image.torn_of_eq (E.superblock a ha))
        (fun a h1 h2 => Image.torn_of_eq (E.records a h1 h2)) (fun j hj => E.torn hj) rfl hm
    · have hlost : lostSlot ⟨t, .crash q kept file, none⟩ = none := by
        cases q with
        | call c => exact absurd rfl (hq c)
        | _ => rfl
      refine H.start (fun a _ => Image.torn_of_eq rfl) (fun a _ _ => Image.torn_of_eq rfl)
        (fun j _ => ?_) rfl hm
      rw [hlost, diskBit_congr (Image.torn_of_eq rfl)]
      simp

/-- The invariant holds in every state of every lifetime. -/
theorem lifeInv_run (G : Geometry (superBlock image).s_dev_size (superBlock image).s_block_size)
    (h : Life image tr s) : LifeInv image tr s := by
  obtain ⟨file, s₀, hm, hr⟩ := h
  have hdisk : s₀.fd.image = image := by rw [main_eq_some hm]
  obtain ⟨hd, hb, -⟩ := main_sizes hm
  refine hr.invariant (LifeInv image) ?_ fun ih hok hst => ih.step G hok hst
  refine ⟨hd, hb, fun a _ => by rw [hdisk], fun a _ _ => by rw [hdisk], fun j _ => ?_, ?_⟩
  · simp [hdisk, newSlots, lostSlots]
  · rw [hdisk]
    exact .nil

/-- **Which slots are marked.**  On a device whose size is an `int`, with a slot, however often it
    is unmounted or a call is cut off by a crash, as long as nothing is written before the areas:
    the slots given to new files increase, and each was clear at first; and the slots marked on the
    device are those marked at first, those given since, and those a crash cut off after the bitmap
    was written. -/
theorem slots_account (G : Geometry (superBlock image).s_dev_size (superBlock image).s_block_size)
    (h : Life image tr s) :
    (newSlots tr).Pairwise (· > ·) ∧ (∀ i ∈ newSlots tr, diskBit image i = false) ∧
    ∀ i < s.num, diskBit s.fd.image i = true ↔
      diskBit image i = true ∨ i ∈ newSlots tr ∨ i ∈ lostSlots tr := by
  have H := lifeInv_run G h
  refine ⟨H.fits.sorted, fun i hi => ?_, fun i hi => ?_⟩
  · obtain ⟨hnot, hin⟩ := H.fits.fresh hi
    simp only [mem_marked, used, Bool.and_eq_true, decide_eq_true_eq, not_and] at hnot hin
    simpa using hnot hin.1
  · rw [H.bits i hi]
    simp only [Bool.or_eq_true, decide_eq_true_eq, or_assoc]

/-- A crash that leaves the slot of a file marked, another mount, and a file after the lost
    slot. -/
theorem slots_account_crash : ∃ tr s, lifeExec zeroFile blankDevice
      [.crash (.call (.open (dataPath 1))) (fun a => a % 2 = 0) zeroFile,
      .call (.call (.open (dataPath 2))), .call (.call (.write 4 [7] 0)),
      .restart zeroFile] = some (tr, s) ∧
    newSlots tr = [1] ∧ lostSlots tr = [0] ∧
    (newSlots tr).Pairwise (· > ·) ∧ (∀ i ∈ newSlots tr, diskBit blankDevice i = false) ∧
    ∀ i < s.num, diskBit s.fd.image i = true ↔
      diskBit blankDevice i = true ∨ i ∈ newSlots tr ∨ i ∈ lostSlots tr := by
  obtain ⟨tr, s, he, hl, hnew, hlost⟩ := Machine.exists_exec lifetime (Machine.crashOk lifeOk)
    (main blankDevice zeroFile)
    [.crash (.call (.open (dataPath 1))) (fun a => a % 2 = 0) zeroFile,
      .call (.call (.open (dataPath 2))), .call (.call (.write 4 [7] 0)),
      .restart zeroFile]
    (fun tr _ => newSlots tr = [1] ∧ lostSlots tr = [0]) (by decide +kernel)
  exact ⟨tr, s, he, hnew, hlost, slots_account
    ⟨⟨by decide +kernel, by decide +kernel⟩, by decide +kernel⟩ ⟨zeroFile, hl⟩⟩

/-! ## The answers -/

/-- The state as one of `rewrite.c`, with some bitmap in memory. -/
def withBitmap (s : Lfs) : Rewrite.Lfs :=
  { asRewrite s with p_bitmap := List.replicate (bitmapBytes s.num) 0 }

theorem length_withBitmap (s : Lfs) : (withBitmap s).p_bitmap.length = bitmapBytes s.num :=
  List.length_replicate ..

theorem sound_withBitmap (G : Geometry s.dev_size s.block_size) : Rewrite.Sound (withBitmap s) := by
  refine ⟨?_, ?_⟩
  · rw [length_withBitmap]; exact G.readBitmapSize_eq
  · rw [length_withBitmap]; exact G.bitmapSize_eq

/-- The metadata is read whole. -/
theorem readUsed_total (G : Geometry s.dev_size s.block_size) : readUsed s =
    some (s.fd.image.slice (infoStart s.num) (s.num * sizeofBlockInfo), usedSlots s.fd.image s.num,
      ⟨s.fd.image, bitmapOffset + bitmapBytes s.num⟩) := by
  have hoff : (withBitmap s).infoOff = infoStart s.num := by
    rw [Rewrite.Lfs.infoOff]
    change (infoOffset s.dev_size s.block_size).getD 0 = _
    rw [G.infoOffset_eq]
    rfl
  -- nothing that is read depends on the bitmap in memory
  have h : Rewrite.readUsed (withBitmap s) = _ := (sound_withBitmap G).readUsed_eq G
  rw [hoff, length_withBitmap] at h
  exact h

/-- `lfs_getattr` answers with the length in the first used record of the block, in 32 bits. -/
theorem getattr_answer (G : Geometry s.dev_size s.block_size) (hp : parsePath path = some (k, b)) :
    (lfsGetattrr s path).map Prod.fst = some ⟨modeOf path,
      (lookup s.fd.image (infoStart s.num) s.num b).elim 0 fun i =>
        toU32 (lengthOf (infoAt s.fd.image (infoStart s.num) i) k)⟩ := by
  have hfind : (Rewrite.findInfo
      (s.fd.image.slice (infoStart s.num) (s.num * sizeofBlockInfo)) b
      (usedSlots s.fd.image s.num)).isSome = true := findInfo_isSome fun i => usedSlots_info
  obtain ⟨o, ho⟩ := Option.isSome_iff_exists.1 hfind
  have ho' := findInfo_slice ho
  rw [lfsGetattrr, bind_of_eq_some hp]
  dsimp only
  rw [bind_of_eq_some (readUsed_total G)]
  dsimp only
  rw [bind_of_eq_some ho, lookup]
  cases hl : (usedSlots s.fd.image s.num).find? fun i =>
      (infoAt s.fd.image (infoStart s.num) i).b_block_id == toU32 b with
  | none =>
    rw [hl, Option.map_none] at ho'
    subst ho'
    rfl
  | some i =>
    rw [hl, Option.map_some] at ho'
    subst ho'
    have hslot : ∃ c, slotOffset { s with fd := ⟨s.fd.image, bitmapOffset + bitmapBytes s.num⟩ } i =
        some c := ⟨_, bind_of_eq_some G.dataOffset_eq _⟩
    obtain ⟨c, hc⟩ := hslot
    dsimp only
    rw [bind_of_eq_some hc]
    cases k <;> rfl

/-- `lfs_readdir` answers with the names in the used records. -/
theorem readdir_answer (G : Geometry s.dev_size s.block_size) :
    (lfsReaddir s ['/']).map Prod.fst = some (0, ['.'] :: ['.', '.'] ::
      (usedSlots s.fd.image s.num).map (slotName s.fd.image (infoStart s.num))) := by
  have hloop : (listLoop .dataFile (s.fd.image.slice (infoStart s.num) (s.num * sizeofBlockInfo))
      (usedSlots s.fd.image s.num)
      { s with fd := ⟨s.fd.image, bitmapOffset + bitmapBytes s.num⟩ }).isSome = true :=
    nameLoop_isSome fun i => usedSlots_info
  obtain ⟨⟨names, t⟩, hl⟩ := Option.isSome_iff_exists.1 hloop
  obtain ⟨hnames, -⟩ := listLoop_eq_some hl
  rw [lfsReaddir, bind_of_eq_some parsePath_root]
  dsimp only
  rw [if_neg (by simp), bind_of_eq_some (readUsed_total G)]
  dsimp only
  rw [bind_of_eq_some hl, hnames]
  rfl

/-- The slots a history leaves marked on a device with `n` slots. -/
def markedSlots (image : Image) (tr : History) (n : ℕ) : List ℕ :=
  (List.range n).filter fun i =>
    diskBit image i || decide (i ∈ newSlots tr) || decide (i ∈ lostSlots tr)

/-- The first of them whose record on the first device names the block. -/
def recordOf (image : Image) (tr : History) (n : ℕ) (b : ℤ) : Option ℕ :=
  (markedSlots image tr n).find? fun i => (infoAt image (infoStart n) i).b_block_id == toU32 b

theorem recordOf_lt (h : recordOf image tr n b = some i) : i < n :=
  List.mem_range.1 (List.mem_filter.1 (List.mem_of_find?_eq_some h)).1

theorem elim_congr {α β : Type} {x : β} {f g : α → β} :
    ∀ {o : Option α}, (∀ y, o = some y → f y = g y) → o.elim x f = o.elim x g
  | none, _ => rfl
  | some y, h => h y rfl

namespace LifeInv
variable (H : LifeInv image tr s)
include H

theorem usedSlots_eq : usedSlots s.fd.image s.num = markedSlots image tr s.num :=
  List.filter_congr fun i hi => H.bits i (List.mem_range.1 hi)

/-- The records are those of the first device. -/
theorem infoAt_eq (hi : i < s.num) :
    infoAt s.fd.image (infoStart s.num) i = infoAt image (infoStart s.num) i := by
  have hmul : (i + 1) * sizeofBlockInfo ≤ s.num * sizeofBlockInfo := Nat.mul_le_mul_right _ hi
  rw [Nat.succ_mul] at hmul
  unfold infoAt
  rw [Image.slice_congr fun a h1 h2 => H.records a (by omega) (by unfold tableEnd; omega)]

theorem lookup_eq : lookup s.fd.image (infoStart s.num) s.num b = recordOf image tr s.num b := by
  rw [lookup, recordOf, ← H.usedSlots_eq]
  refine List.find?_congr fun i hi => ?_
  rw [H.infoAt_eq (Rewrite.mem_usedSlots.1 hi).1]

theorem map_slotName : (usedSlots s.fd.image s.num).map (slotName s.fd.image (infoStart s.num)) =
    (markedSlots image tr s.num).map (slotName image (infoStart s.num)) := by
  rw [← H.usedSlots_eq]
  refine List.map_congr_left fun i hi => ?_
  rw [slotName, slotName, H.infoAt_eq (Rewrite.mem_usedSlots.1 hi).1]

end LifeInv

/-- **`ltils.c` never records a length.**  Over all mounts of a device whose size is an `int`, with
    a slot, as long as nothing is written before the areas, `lfs_getattr` answers with the mode the
    path has and the length in the record the first device has for the first slot marked since; and
    `lfs_readdir` of the root lists the block numbers in the records the first device has for the
    slots marked. -/
theorem answers_eq (G : Geometry (superBlock image).s_dev_size (superBlock image).s_block_size)
    (h : Life image tr s) (hp : parsePath path = some (k, b)) :
    (lfsGetattrr s path).map Prod.fst = some ⟨modeOf path, (recordOf image tr s.num b).elim 0
      fun i => toU32 (lengthOf (infoAt image (infoStart s.num) i) k)⟩ ∧
    (lfsReaddir s ['/']).map Prod.fst = some (0, ['.'] :: ['.', '.'] ::
      (markedSlots image tr s.num).map (slotName image (infoStart s.num))) := by
  have H := lifeInv_run G h
  have hG : Geometry s.dev_size s.block_size := by rw [H.dev_size, H.block_size]; exact G
  constructor
  · rw [getattr_answer hG hp, H.lookup_eq, elim_congr fun i hi => ?_]
    rw [H.infoAt_eq (recordOf_lt hi)]
  · rw [readdir_answer hG, H.map_slotName]

/-- A file whose byte is lost to `lfs_getattr`, and the directory of the slots marked. -/
theorem answers_eq_written : ∃ tr s, lifeExec zeroFile blankDevice
      [.call (.call (.open (dataPath 1))), .call (.call (.write 3 [7] 0)),
      .crash (.call (.open (dataPath 2))) (fun a => a % 2 = 0) zeroFile] = some (tr, s) ∧
    markedSlots blankDevice tr s.num = [0, 1] ∧
    (lfsGetattrr s (dataPath 1)).map Prod.fst = some ⟨modeOf (dataPath 1),
      (recordOf blankDevice tr s.num 1).elim 0
        fun i => toU32 (lengthOf (infoAt blankDevice (infoStart s.num) i) .dataFile)⟩ ∧
    (lfsReaddir s ['/']).map Prod.fst = some (0, ['.'] :: ['.', '.'] ::
      (markedSlots blankDevice tr s.num).map (slotName blankDevice (infoStart s.num))) := by
  obtain ⟨tr, s, he, hl, hslots⟩ := Machine.exists_exec lifetime (Machine.crashOk lifeOk)
    (main blankDevice zeroFile)
    [.call (.call (.open (dataPath 1))), .call (.call (.write 3 [7] 0)),
      .crash (.call (.open (dataPath 2))) (fun a => a % 2 = 0) zeroFile]
    (fun tr s => markedSlots blankDevice tr s.num = [0, 1]) (by decide +kernel)
  exact ⟨tr, s, he, hslots, answers_eq ⟨⟨by decide +kernel, by decide +kernel⟩, by decide +kernel⟩
    ⟨zeroFile, hl⟩ (by decide +kernel)⟩

end Ltils
