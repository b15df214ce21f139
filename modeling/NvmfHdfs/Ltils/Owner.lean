/-
  Which slot a block gets in `ltils.c`.

  A slot belongs to the block in `file[slot].block_id`.  `lfs_open` finds the
  first entry of its block, or takes the first slot clear on the device;
  `lfs_getattr` stores the id of a record it finds into the entry of the record,
  whatever it held, and `/` asks for the id 0 that a slot without a record has.

    - `given`: the slots `lfs_open` has given;
    - `ownOk`: `lfs_getattr` finds no record in a slot that was given to another
      block, and none of a block before the slot it was given;
    - `slots_kept`: in every such run a block always gets its slot, and no other
      block does;
    - `slot_lost`: `/` looked at between two opens of a file.
-/
import NvmfHdfs.Geometry
import NvmfHdfs.Ltils.Mount

namespace Ltils

open CInt Layout Bitmap Path Records
open Rewrite (superBlock lookup lookup_eq_some blankDevice)

variable {s s' : Lfs} {image : Image} {c : Call} {r : Reply} {tr : Trace} {b : ℤ} {i : ℕ}

/-- The slot in which `lfs_getattr` finds the record of a block. -/
def scanSlot (s : Lfs) (b : ℤ) : Option ℕ :=
  lookup s.fd.image ((infoOffset s.dev_size s.block_size).getD 0) (s.bitSize.getD 0) b

/-- The block and the slot of an open. -/
def givenBy (e : Machine.Event Lfs Call Reply) : Option (ℤ × ℕ) :=
  match e.input, e.output with
  | .open path, .opened fh => (parsePath path).map fun x => (x.2, fh - 3)
  | _, _ => none

/-- The slots `lfs_open` has given: the block id and the slot. -/
def given (tr : Trace) : List (ℤ × ℕ) := tr.filterMap givenBy

/-- Runs of opens, `lfs_getattr` and listings (and reads) in which
    * the ids of the files opened are not 0;
    * a record that `lfs_getattr` finds is that of its entry, or in a slot not given to a block,
      behind the slot of its own. -/
def ownOk : Machine.Guard Lfs Call Reply := fun tr s c =>
  match c with
  | .open path => ∀ x ∈ parsePath path, x.2 ≠ 0
  | .getattr path => ∀ x ∈ parsePath path, ∀ i ∈ scanSlot s x.2,
      (s.file i).block_id = toU32 x.2 ∨ ∀ p ∈ given tr, p.2 ≠ i ∧ (p.1 = x.2 → p.2 < i)
  | .readdir _ | .read .. => True
  | .write .. => False

instance (tr : Trace) (s : Lfs) : ∀ c, Decidable (ownOk tr s c)
  | .open path => inferInstanceAs (Decidable (∀ x ∈ parsePath path, x.2 ≠ 0))
  | .getattr path => inferInstanceAs (Decidable (∀ x ∈ parsePath path, ∀ i ∈ scanSlot s x.2,
      (s.file i).block_id = toU32 x.2 ∨ ∀ p ∈ given tr, p.2 ≠ i ∧ (p.1 = x.2 → p.2 < i)))
  | .readdir _ | .read .. => .isTrue trivial
  | .write .. => .isFalse id

/-- A block gets the same slot every time, and no other block gets it. -/
def SlotsKept (tr : Trace) : Prop := ∀ p ∈ given tr, ∀ q ∈ given tr, p.1 = q.1 ↔ p.2 = q.2

/-! ## Allocations -/

/-- A new slot was clear on the device, and the bitmap on the device has that one bit more. -/
theorem alloc_bits {n len wlen : ℕ} {v : UInt8} {p : List UInt8} (hbs : s.block_size < 2 ^ 31)
    (hlen : readBitmapSize (toInt s.dev_size) (toInt s.block_size) = some len)
    (hfree : firstFree (bit (s.fd.image.slice bitmapOffset len)) n = some i)
    (hset : bitmapSet i (s.fd.image.slice bitmapOffset len) n = some (v, p))
    (hw : bitmapSize s.dev_size s.block_size = some wlen) :
    diskBit s.fd.image i = false ∧ ∀ j,
      diskBit (s.fd.image.patch bitmapOffset (p.take wlen)) j =
        (diskBit s.fd.image j || decide (j = i)) := by
  obtain rfl := Option.some.inj ((bitmapSize_of_read hbs hlen).symm.trans hw)
  obtain ⟨hin, hi, hclear⟩ := clear_of_firstFree hfree hset
  obtain ⟨-, hplen, hbit⟩ := bitmapSet_eq_some hin hset
  rw [Image.length_slice] at hplen
  refine ⟨hclear, fun j => ?_⟩
  by_cases hj : j / 8 < len
  · rw [diskBit_patch hplen.ge hj, hbit, bit_slice hj]
  · have hji : j ≠ i := by rintro rfl; exact hj hi
    have hle : (p.take len).length ≤ j / 8 := by rw [List.length_take]; omega
    rw [diskBit_congr (Image.patch_of_ge (Nat.add_le_add_left hle _)), decide_eq_false hji,
      Bool.or_false]

/-! ## The invariant -/

/-- The slot of a block: its first entry. -/
structure SlotOf (s : Lfs) (p : ℤ × ℕ) : Prop where
  isInt : IsInt p.1
  ne_zero : p.1 ≠ 0
  le : p.2 ≤ s.num
  entry : (s.file p.2).block_id = toU32 p.1
  first : ∀ j < p.2, (s.file j).block_id ≠ toU32 p.1

/-- Every entry in use belongs to a marked slot, and what was given is still the slot of its
    block. -/
structure OwnInv (tr : Trace) (s : Lfs) : Prop where
  block : s.block_size < 2 ^ 31
  marked : ∀ j, (s.file j).block_id ≠ 0 → diskBit s.fd.image j = true
  slot : ∀ p ∈ given tr, SlotOf s p

theorem toU32_ne_zero (hb : IsInt b) (h : b ≠ 0) : toU32 b ≠ 0 := by
  intro h0
  have hz : toU32 0 = 0 := by unfold toU32; rfl
  rw [← hz] at h0
  exact h ((toU32_inj hb (by unfold IsInt; omega)).1 h0)

theorem mem_given {p : ℤ × ℕ} : p ∈ given (⟨s, c, r⟩ :: tr) ↔
    givenBy ⟨s, c, r⟩ = some p ∨ p ∈ given tr := by
  unfold given
  rw [List.filterMap_cons]
  cases givenBy ⟨s, c, r⟩ <;> simp [eq_comm]

theorem givenBy_open {path : List Char} {k : Kind} {fh : ℕ} (hp : parsePath path = some (k, b)) :
    givenBy ⟨s, .open path, .opened fh⟩ = some (b, fh - 3) := by
  unfold givenBy; dsimp only
  rw [hp, Option.map_some]

/-- Entries that keep their owner. -/
theorem SlotOf.congr {p : ℤ × ℕ} (h : SlotOf s p) (hn : s'.num = s.num)
    (hfile : ∀ j, (s'.file j).block_id = (s.file j).block_id) : SlotOf s' p :=
  ⟨h.isInt, h.ne_zero, hn ▸ h.le, (hfile _).trans h.entry,
    fun j hj => (hfile j).trans_ne (h.first j hj)⟩

/-- An entry that is assigned to a block, if it is not the slot and not a second entry before
    it. -/
theorem SlotOf.assign {p : ℤ × ℕ} {e : FileDirectory} (h : SlotOf s p) (hn : s'.num = s.num)
    (hfile : s'.file = Function.update s.file i e) (hslot : p.2 ≠ i)
    (hfirst : i < p.2 → e.block_id ≠ toU32 p.1) : SlotOf s' p := by
  refine ⟨h.isInt, h.ne_zero, hn ▸ h.le, ?_, fun j hj => ?_⟩
  · rw [hfile, Function.update_of_ne hslot]; exact h.entry
  · rw [hfile, Function.update_apply]
    split_ifs with hji
    · exact hfirst (hji ▸ hj)
    · exact h.first j hj

namespace OwnInv
variable (H : OwnInv tr s)
include H

/-- **The slots are kept.** -/
theorem kept : SlotsKept tr := by
  intro p hp q hq
  have P := H.slot p hp
  have Q := H.slot q hq
  constructor
  · intro h
    rcases Nat.lt_trichotomy p.2 q.2 with hlt | heq | hlt
    · exact absurd (h ▸ P.entry) (Q.first _ hlt)
    · exact heq
    · exact absurd (h ▸ Q.entry) (P.first _ hlt)
  · intro h
    have hids := P.entry
    rw [h, Q.entry] at hids
    exact ((toU32_inj Q.isInt P.isInt).1 hids).symm

/-- A call that marks no slot, changes no owner, and gives a block its slot, if any. -/
theorem keep (ho : Outcome s c r s') (hgiven : ∀ p, givenBy ⟨s, c, r⟩ = some p → SlotOf s p)
    (himage : s'.fd.image = s.fd.image) (hfile : ∀ j, (s'.file j).block_id = (s.file j).block_id) :
    OwnInv (⟨s, c, r⟩ :: tr) s' := by
  refine ⟨by rw [ho.block_size]; exact H.block, fun j hj => ?_, fun p hp => ?_⟩
  · rw [himage]; rw [hfile] at hj; exact H.marked j hj
  · have hslot : SlotOf s p := (mem_given.1 hp).elim (hgiven p) (H.slot p)
    exact hslot.congr ho.num hfile

/-- A block that is in no entry takes a slot that was given to nobody. -/
theorem alloc {path : List Char} {k : Kind} {e : FileDirectory}
    (ho : Outcome s (.open path) (.opened (i + 3)) s') (hp : parsePath path = some (k, b))
    (hb : b ≠ 0) (hnone : ∀ j ≤ s.num, (s.file j).block_id ≠ toU32 b) (hle : i ≤ s.num)
    (hclear : diskBit s.fd.image i = false)
    (hbits : ∀ j, diskBit s'.fd.image j = (diskBit s.fd.image j || decide (j = i)))
    (hfile : s'.file = Function.update s.file i e) (hown : e.block_id = toU32 b) :
    OwnInv (⟨s, .open path, .opened (i + 3)⟩ :: tr) s' := by
  have hself : (s'.file i).block_id = toU32 b := by rw [hfile, Function.update_self, hown]
  have hother : ∀ j, j ≠ i → s'.file j = s.file j := fun j hj => by
    rw [hfile, Function.update_of_ne hj]
  refine ⟨by rw [ho.block_size]; exact H.block, fun j hj => ?_, fun q hq => ?_⟩
  · rw [hbits]
    by_cases hji : j = i
    · simp [hji]
    · rw [hother j hji] at hj
      rw [H.marked j hj, Bool.true_or]
  · rw [mem_given, givenBy_open hp, Nat.add_sub_cancel] at hq
    rcases hq with hq | hq
    · obtain rfl := Option.some.inj hq
      refine ⟨parsePath_isInt hp, hb, by rw [ho.num]; exact hle, hself, fun j hj => ?_⟩
      rw [hother j (Nat.ne_of_lt hj)]
      exact hnone j (hj.le.trans hle)
    · have Q := H.slot q hq
      refine Q.assign ho.num hfile ?_ fun _ => ?_
      · rintro rfl
        have := H.marked _ (Q.entry.trans_ne (toU32_ne_zero Q.isInt Q.ne_zero))
        rw [hclear] at this; cases this
      · rw [hown, ← Q.entry]
        exact (hnone q.2 Q.le).symm

/-- `lfs_getattr` fills the entry of a record. -/
theorem note {path : List Char} {k : Kind} {e : FileDirectory}
    (ho : Outcome s (.getattr path) r s') (hok : ownOk tr s (.getattr path))
    (hp : parsePath path = some (k, b)) (hscan : scanSlot s b = some i)
    (hused : diskBit s.fd.image i = true) (himage : s'.fd.image = s.fd.image)
    (hfile : s'.file = Function.update s.file i e) (hown : e.block_id = toU32 b) :
    OwnInv (⟨s, .getattr path, r⟩ :: tr) s' := by
  rcases hok _ hp i hscan with hsame | hfree
  · refine H.keep ho (by rintro _ ⟨⟩) himage fun j => ?_
    rw [hfile, Function.update_apply]
    split_ifs with hj
    · rw [hown, hj, hsame]
    · rfl
  · refine ⟨by rw [ho.block_size]; exact H.block, fun j hj => ?_, fun p hpg => ?_⟩
    · rw [himage]
      by_cases hji : j = i
      · rw [hji]; exact hused
      · rw [hfile, Function.update_of_ne hji] at hj; exact H.marked j hj
    · have hpg : p ∈ given tr := (mem_given.1 hpg).resolve_left (by rintro ⟨⟩)
      have P := H.slot p hpg
      obtain ⟨hslot, hbehind⟩ := hfree p hpg
      refine P.assign ho.num hfile hslot fun hlt hid => ?_
      rw [hown, toU32_inj (parsePath_isInt hp) P.isInt] at hid
      exact absurd (hbehind hid.symm) (Nat.not_lt_of_lt hlt)

/-- **Every step of such a run keeps the invariant.** -/
theorem step (hok : ownOk tr s c) (ho : Outcome s c r s') : OwnInv (⟨s, c, r⟩ :: tr) s' := by
  have hkeep := H.keep ho
  cases ho with
  | getattrMiss => exact hkeep (by rintro _ ⟨⟩) rfl fun _ => rfl
  | @getattrHit path k b off n len i c hp hoff hn hlen hcov hl hc =>
    have hscan : scanSlot s b = some i := by
      rw [scanSlot, hoff, Option.getD_some, hn, Option.getD_some]; exact hl
    obtain ⟨⟨-, hused⟩, hid, -⟩ := lookup_eq_some.1 hl
    refine H.note (.getattrHit hp hoff hn hlen hcov hl hc) hok hp hscan hused rfl rfl ?_
    rw [← hid]; cases k <;> rfl
  | readdirOther => exact hkeep (by rintro _ ⟨⟩) rfl fun _ => rfl
  | readdirRoot hoff hn hlen hcov hd =>
    exact hkeep (by rintro _ ⟨⟩) rfl fun j => by dsimp only; rw [hd j]
  | @openFound path k b i len hp hf hlen =>
    obtain ⟨hle, hid, hfirst⟩ := findFile_found hf
    refine hkeep (fun p hpg => ?_) rfl fun j => ?_
    · rw [givenBy_open hp, Nat.add_sub_cancel] at hpg
      obtain rfl := Option.some.inj hpg
      exact ⟨parsePath_isInt hp, hok _ hp, hle, hid, hfirst⟩
    · dsimp only [Lfs.setFile]
      rw [Function.update_apply]
      split_ifs with hj
      · subst hj; exact setFlag_block_id _ k
      · rfl
  | @openNew path k b n len wlen i c v p hp hf hn hlen hfree hc hset hw hwl =>
    obtain ⟨hclear, hbits⟩ := alloc_bits H.block hlen hfree hset hw
    have hle : i ≤ s.num := (firstFree_eq_some.1 hfree).1.le.trans (bitSize_le hn).1
    refine H.alloc (.openNew hp hf hn hlen hfree hc hset hw hwl) hp (hok _ hp)
      (findFile_none hf) hle hclear hbits rfl ?_
    cases k <;> rfl
  | write => exact hok.elim
  | read => exact hkeep (by rintro _ ⟨⟩) rfl fun _ => rfl
  | readIllegal => exact hkeep (by rintro _ ⟨⟩) rfl fun _ => rfl

end OwnInv

/-- **A slot once given stays with its block.**  In every run from a table of zeros, a block gets
    the same slot at every open, for its meta file and its data file, and no other block gets
    it. -/
theorem slots_kept (hbs : (superBlock image).s_block_size < 2 ^ 31)
    (h : Mount image zeroFile ownOk tr s) : SlotsKept tr := by
  obtain ⟨s₀, hm, hr⟩ := h
  have H₀ : OwnInv [] s₀ := by
    obtain ⟨-, hb, hf⟩ := main_sizes hm
    refine ⟨by rw [hb]; exact hbs, fun j hj => ?_, by rintro _ ⟨⟩⟩
    rw [hf] at hj
    exact absurd rfl hj
  exact (hr.invariant OwnInv H₀ fun ih hok hst => ih.step hok (step_outcome hst)).kept

/-- Both files of a block, another block, a listing, and the first file again. -/
theorem slots_kept_two : ∃ tr s,
    mountExec blankDevice zeroFile ownOk [.open (metaPath 1 1001), .open (dataPath 1),
      .open (dataPath 2), .readdir ['/'], .open (dataPath 1)] = some (tr, s) ∧
    given tr = [(1, 0), (2, 1), (1, 0), (1, 0)] ∧ SlotsKept tr := by
  obtain ⟨tr, s, he, hm, hg⟩ := Machine.exists_exec system ownOk (main blankDevice zeroFile)
    [.open (metaPath 1 1001), .open (dataPath 1), .open (dataPath 2), .readdir ['/'],
      .open (dataPath 1)]
    (fun tr _ => given tr = [(1, 0), (2, 1), (1, 0), (1, 0)]) (by decide +kernel)
  exact ⟨tr, s, he, hg, slots_kept (by decide +kernel) hm⟩

/-- `/` has the id 0, like the record of a slot that was never written: the entry of the file
    is lost, and the file gets a second slot. -/
theorem slot_lost : ∃ tr s,
    mountExec blankDevice zeroFile Machine.anyStep
      [.open (dataPath 1), .getattr ['/'], .open (dataPath 1)] = some (tr, s) ∧
    Mount blankDevice zeroFile Machine.anyStep tr s ∧ given tr = [(1, 1), (1, 0)] ∧
    ¬ SlotsKept tr := by
  obtain ⟨tr, s, he, hm, hg⟩ := Machine.exists_exec system Machine.anyStep
    (main blankDevice zeroFile)
    [.open (dataPath 1), .getattr ['/'], .open (dataPath 1)]
    (fun tr _ => given tr = [(1, 1), (1, 0)]) (by decide +kernel)
  refine ⟨tr, s, he, hm, hg, fun h => ?_⟩
  have := (h (1, 1) (by rw [hg]; simp) (1, 0) (by rw [hg]; simp)).1 rfl
  cases this

end Ltils
