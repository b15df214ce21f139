/-
  The two copies of the bitmap.

  `lfs_open` allocates for a meta file from a copy freshly read from the device
  (which hides the global one) and for a data file from the global copy; each
  writes its copy back whole.

    - `bitmaps_coherent`: in every run without an allocation for a meta file
      the copies agree, and the used slots on the device are those at the mount
      and those handed out since;
    - `bitmaps_differ`: one meta file.
-/
import NvmfHdfs.Rewrite.Ownership

namespace Rewrite

open CInt Layout Bitmap Path Records

variable {s s' s₀ : Lfs} {image : Image} {c : Call} {r : Reply} {tr : Trace}

/-- The calls that keep the copies of the bitmap equal.
    * A meta file that is opened is in its table;
    * the slot of a file found in its table is used (which it is if its id is not 0);
    * nothing is stored in the bitmap. -/
def coherentOk : Machine.Guard Lfs Call Reply := fun _ s c =>
  match c with
  | .open path => ∀ x ∈ parsePath path, (x.1 = .metaFile → s.finds x.1 x.2 ≠ none) ∧
      ∀ i ∈ s.finds x.1 x.2, i < s.count → x.2 ≠ 0 ∨ diskBit s.fd.image i = true
  | .write .. | .release .. => Misses s c bitmapOffset (bitmapEnd s.count)
  | .getattr _ | .readdir _ | .read .. => True

instance (tr : Trace) (s : Lfs) : ∀ c, Decidable (coherentOk tr s c)
  | .open path => inferInstanceAs (Decidable (∀ x ∈ parsePath path,
      (x.1 = .metaFile → s.finds x.1 x.2 ≠ none) ∧
      ∀ i ∈ s.finds x.1 x.2, i < s.count → x.2 ≠ 0 ∨ diskBit s.fd.image i = true))
  | .write .. | .release .. =>
    inferInstanceAs (Decidable (Misses s _ bitmapOffset (bitmapEnd s.count)))
  | .getattr _ | .readdir _ | .read .. => .isTrue trivial

theorem coherentOk_misses (h : coherentOk tr s c) :
    Misses s c bitmapOffset (bitmapEnd s.count) := by
  cases c with
  | write => exact h
  | release => exact h
  | _ => exact nofun

/-- The slot is handed out by a step of the run. -/
def HandedOut (tr : Trace) (i : ℕ) : Prop := ∃ k b, (k, b, i) ∈ handed tr

theorem handedOut_cons {i : ℕ} : HandedOut (⟨s, c, r⟩ :: tr) i ↔
    (∃ k b, handedBy ⟨s, c, r⟩ = some (k, b, i)) ∨ HandedOut tr i := by
  unfold HandedOut handed
  rw [List.filterMap_cons]
  cases handedBy ⟨s, c, r⟩ with
  | none => simp
  | some x =>
    simp only [List.mem_cons, Option.some.injEq]
    constructor
    · rintro ⟨k, b, h | h⟩
      · exact .inl ⟨k, b, h.symm⟩
      · exact .inr ⟨k, b, h⟩
    · rintro (⟨k, b, h⟩ | ⟨k, b, h⟩)
      · exact ⟨k, b, .inl h.symm⟩
      · exact ⟨k, b, .inr h⟩

/-- The invariant of a run from a mount that found the slots `used` marked. -/
structure CoherentInv (used : ℕ → Bool) (tr : Trace) (s : Lfs) : Prop where
  sound : Sound s
  coherent : Slots.Coherent s.count (slots s)
  marked : Slots.Marked s.count (slots s)
  stored : ∀ i < s.count, diskBit s.fd.image i = true ↔ used i = true ∨ HandedOut tr i

/-- No meta file takes a slot. -/
theorem no_take_meta (hok : coherentOk tr s c) (i b : ℕ) :
    eventOf s c r ≠ .take .metaFile i b := by
  intro he
  obtain ⟨path, fh, z, rfl, rfl, hp, hf, -⟩ := eventOf_eq_take he
  exact (hok _ hp).1 rfl hf

/-- A slot is used or taken exactly if it is used or handed out. -/
theorem CoherentInv.taken {used : ℕ → Bool} {i : ℕ} (H : CoherentInv used tr s)
    (hok : coherentOk tr s c) (ho : Outcome s c r s') (hi : i < s.count) :
    (diskBit s.fd.image i = true ∨ ∃ k b, eventOf s c r = .take k i b) ↔
      (diskBit s.fd.image i = true ∨ ∃ k b, handedBy ⟨s, c, r⟩ = some (k, b, i)) := by
  constructor
  · rintro (h | ⟨k, b, h⟩)
    · exact .inl h
    · obtain ⟨path, fh, z, rfl, rfl, hp, -, rfl⟩ := eventOf_eq_take h
      exact .inr ⟨k, z, handedBy_open hp⟩
  · rintro (h | ⟨k, b, h⟩)
    · exact .inl h
    · obtain ⟨path, fh, rfl, rfl, hp, rfl⟩ := handedBy_eq_some h
      cases hf : s.finds k b with
      | none =>
        right
        refine ⟨k, toU64 b, ?_⟩
        rw [eventOf, hp, Option.map_some, Option.getD_some, if_neg (by rw [hf]; simp)]
      | some j =>
        -- a file that is found has a slot that is used
        left
        rw [ho.found_handle hp hf, slotOf_handle] at hi ⊢
        rcases (hok _ hp).2 j hf hi with hb | hd
        · have hne : (slots s).table k j ≠ 0 :=
            (finds_eq_some hf).2.trans_ne (toU64_ne_zero hp hb)
          have := (H.marked k j hne).2
          simpa [slots, hi] using this
        · exact hd

theorem CoherentInv.step {used : ℕ → Bool} (H : CoherentInv used tr s) (hok : coherentOk tr s c)
    (ho : Outcome s c r s') : CoherentInv used (⟨s, c, r⟩ :: tr) s' := by
  have hst := H.sound.simulates ho (coherentOk_misses hok)
  have hcount := ho.count H.sound
  refine ⟨H.sound.step ho, ?_, ?_, ?_⟩
  · rw [hcount]; exact Slots.coherent_step H.coherent hst (no_take_meta hok)
  · rw [hcount]; exact Slots.marked_step H.coherent H.marked hst
  · intro i hi
    rw [hcount] at hi
    have hstep := Slots.stored_step H.coherent hst hi
    have hs' : (slots s').stored i = diskBit s'.fd.image i := by simp [slots, hcount, hi]
    have hs : (slots s).stored i = diskBit s.fd.image i := by simp [slots, hi]
    rw [hs', hs, H.taken hok ho hi, H.stored i hi] at hstep
    rw [hstep, handedOut_cons, or_assoc, or_comm (a := HandedOut tr i)]

theorem coherentInv_main (hbs : (superBlock image).s_block_size < 2 ^ 31)
    (hm : main image = some s) : CoherentInv (diskBit image) [] s := by
  have himage : s.fd.image = image := by obtain ⟨len, -, rfl⟩ := main_eq_some hm; rfl
  refine ⟨sound_main hbs hm, ?_, ?_, ?_⟩
  · intro i hi
    simp only [slots, main_bit hm hi]
  · intro k i hne
    obtain ⟨len, -, rfl⟩ := main_eq_some hm
    cases k <;> exact absurd rfl hne
  · intro i _
    rw [himage]
    simp [HandedOut, handed]

theorem coherentInv_run (hbs : (superBlock image).s_block_size < 2 ^ 31)
    (h : Mount image coherentOk tr s) : CoherentInv (diskBit image) tr s := by
  obtain ⟨s₀, hm, hr⟩ := h
  refine hr.invariant (CoherentInv (diskBit image)) (coherentInv_main hbs hm) ?_
  intro tr s c r s' ih hok hst
  exact ih.step hok (step_outcome hst)

/-- **The copies of the bitmap agree and no allocation is lost**, in every run without an
    allocation for a meta file. -/
theorem bitmaps_coherent (hdev : 512 ≤ (superBlock image).s_dev_size)
    (hsmall : (superBlock image).s_dev_size < 2 ^ 31) (h : Mount image coherentOk tr s) :
    ∀ i < blockNum (superBlock image).s_dev_size (superBlock image).s_block_size,
      bit s.p_bitmap i = diskBit s.fd.image i ∧
        (diskBit s.fd.image i = true ↔ diskBit image i = true ∨ HandedOut tr i) := by
  intro i hi
  have hbs : (superBlock image).s_block_size < 2 ^ 32 := SuperBlock.s_block_size_lt _
  have hslot : 512 + (superBlock image).s_block_size + blockInfoSize ≤
      (superBlock image).s_dev_size := by
    by_contra hslot
    rw [blockNum_eq_zero hdev (by omega) hbs (by omega)] at hi
    omega
  have H := coherentInv_run (by omega) h
  have hcount : s.count = s.num := by
    refine H.sound.count_eq ?_
    rw [h.sizes.1, h.sizes.2]
    exact ⟨⟨hslot, by omega⟩, hsmall⟩
  rw [← h.num, ← hcount] at hi
  refine ⟨?_, H.stored i hi⟩
  have := H.coherent i hi
  simpa [slots, hi] using this

/-- Two data files, one of them opened twice. -/
theorem bitmaps_coherent_data : ∃ tr s, mountExec blankDevice coherentOk
      [.open (dataPath 1), .open (dataPath 2), .write 6 [1] 0, .open (dataPath 1)] =
        some (tr, s) ∧
    ∀ i < blockNum (superBlock blankDevice).s_dev_size (superBlock blankDevice).s_block_size,
      bit s.p_bitmap i = diskBit s.fd.image i ∧
        (diskBit s.fd.image i = true ↔ diskBit blankDevice i = true ∨ HandedOut tr i) := by
  obtain ⟨tr, s, he, hm, -⟩ := Machine.exists_exec system coherentOk (main blankDevice)
    [.open (dataPath 1), .open (dataPath 2), .write 6 [1] 0, .open (dataPath 1)]
    (fun _ _ => True) (by decide +kernel)
  exact ⟨tr, s, he, bitmaps_coherent (by decide +kernel) (by decide +kernel) hm⟩

/-- One meta file: its slot is marked on the device and not in memory.  Two meta files and
    a data file: the second slot handed out is no longer marked. -/
theorem bitmaps_differ :
    (∃ tr s, mountExec blankDevice Machine.anyStep [.open (metaPath 1 1001)] = some (tr, s) ∧
      Mount blankDevice Machine.anyStep tr s ∧ 0 < s.num ∧
      ¬ bit s.p_bitmap 0 = diskBit s.fd.image 0) ∧
    ∃ tr s, mountExec blankDevice Machine.anyStep [.open (metaPath 1 1001),
        .open (metaPath 2 1001), .open (dataPath 1)] = some (tr, s) ∧
      Mount blankDevice Machine.anyStep tr s ∧ 1 < s.num ∧
      (.metaFile, 2, 1) ∈ handed tr ∧ ¬ diskBit s.fd.image 1 = true := by
  constructor
  · obtain ⟨tr, s, he, hm, hP⟩ := Machine.exists_exec system Machine.anyStep (main blankDevice)
      [.open (metaPath 1 1001)]
      (fun _ s => 0 < s.num ∧ ¬ bit s.p_bitmap 0 = diskBit s.fd.image 0) (by decide +kernel)
    exact ⟨tr, s, he, hm, hP⟩
  · obtain ⟨tr, s, he, hm, hP⟩ := Machine.exists_exec system Machine.anyStep (main blankDevice)
      [.open (metaPath 1 1001), .open (metaPath 2 1001), .open (dataPath 1)]
      (fun tr s => 1 < s.num ∧ (.metaFile, 2, 1) ∈ handed tr ∧ ¬ diskBit s.fd.image 1 = true)
      (by decide +kernel)
    exact ⟨tr, s, he, hm, hP⟩

end Rewrite
