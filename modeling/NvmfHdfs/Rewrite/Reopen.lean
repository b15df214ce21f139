/-
  Opening a file again.

  A file that was opened is in its table, and the next `lfs_open` finds it
  there: no slot is taken.  The data branch stores the slot into
  `pFd[fh].data_block_id` again; the meta branch stores `data_block_id` before it
  assigns the slot to it, which is `-1`.

    - `reopenOk`: the calls after which the file is still found in its slot and
      no other file has its handle;
    - `ReopenInv`: what such calls keep;
    - `reopen_harmless_iff`: opening the file again changes nothing exactly if it
      is a data file, or a meta file that was found in its table before;
    - `reopen_loses_slot`: a meta file opened twice.
-/
import NvmfHdfs.Rewrite.Remount

namespace Rewrite

open CInt Layout Bitmap Path Records

variable {s s' s₁ s₂ : Lfs} {image : Image} {c : Call} {r : Reply} {tr : Trace} {k : Kind}
  {b : ℤ} {fh i : ℕ} {path : List Char} {known : Bool}

/-- The slot in which `lfs_getattr` finds the record of a block. -/
def scanSlot (s : Lfs) (b : ℤ) : Option ℕ := lookup s.fd.image s.infoOff (s.bitSize.getD 0) b

theorem scanSlot_eq {off n : ℕ} (hoff : infoOffset s.dev_size s.block_size = some off)
    (hn : s.bitSize = some n) : scanSlot s b = lookup s.fd.image off n b := by
  rw [scanSlot, Lfs.infoOff, hoff, Option.getD_some, hn, Option.getD_some]

/-- The calls that leave the file of kind `k` and id `b`, with handle `fh`, where it is: all
    but an `lfs_open` that gives its handle to another file, and an `lfs_getattr` that writes
    another id into its entry or its id into an entry before. -/
def reopenOk (k : Kind) (b : ℤ) (fh : ℕ) : Machine.Guard Lfs Call Reply := fun _ s c =>
  match c with
  | .getattr path => ∀ x ∈ parsePath path, x.1 = k → ∀ j ∈ scanSlot s x.2,
      (x.2 = b → slotOf s k fh ≤ j) ∧ (x.2 ≠ b → j ≠ slotOf s k fh)
  | .open path => ∀ x ∈ parsePath path, x ≠ (k, b) → ∀ j ∈ openSlot s x.1 x.2,
      s.handle x.1 j ≠ fh
  | .readdir _ | .read .. | .write .. | .release .. => True

instance (k : Kind) (b : ℤ) (fh : ℕ) (tr : Trace) (s : Lfs) :
    ∀ c, Decidable (reopenOk k b fh tr s c)
  | .getattr path => inferInstanceAs (Decidable (∀ x ∈ parsePath path, x.1 = k →
      ∀ j ∈ scanSlot s x.2, (x.2 = b → slotOf s k fh ≤ j) ∧ (x.2 ≠ b → j ≠ slotOf s k fh)))
  | .open path => inferInstanceAs (Decidable (∀ x ∈ parsePath path, x ≠ (k, b) →
      ∀ j ∈ openSlot s x.1 x.2, s.handle x.1 j ≠ fh))
  | .readdir _ | .read .. | .write .. | .release .. => .isTrue trivial

/-- What opening a file again leaves as it was. -/
structure Harmless (fh fh' : ℕ) (s s' : Lfs) : Prop where
  handle : fh' = fh
  disk : ∀ i, diskBit s'.fd.image i = diskBit s.fd.image i
  cached : s'.p_bitmap = s.p_bitmap
  data_block_id : (s'.pFd fh).data_block_id = (s.pFd fh).data_block_id
  dev_offset : (s'.pFd fh).dev_offset = (s.pFd fh).dev_offset
  block_id : (s'.pFd fh).block_id = (s.pFd fh).block_id
  size : (s'.pFd fh).size = (s.pFd fh).size
  flag : (s'.pFd fh).flag = (s.pFd fh).flag

/-- What `lfs_open` stores into `data_block_id` for a file it finds in slot `i`. -/
def foundSlot (k : Kind) (i : ℕ) : ℕ :=
  match k with
  | .metaFile => toU64 (-1)
  | .dataFile => i

/-! ## The invariant -/

/-- The handle has lost its slot: a meta file that was in the table (`known`) at the first of
    the opens, or was opened again since. -/
def lostSlot (k : Kind) (b : ℤ) (known : Bool) (tr : Trace) : Bool :=
  decide (k = .metaFile) && (known || !(handlesOf (k, b) tr).isEmpty)

/-- The file is found in the slot of its handle, which the handle holds unless it is lost. -/
structure ReopenInv (k : Kind) (b : ℤ) (fh : ℕ) (known : Bool) (tr : Trace) (s : Lfs) : Prop where
  isInt : IsInt b
  block : s.block_size < 2 ^ 32
  found : s.finds k b = some (slotOf s k fh)
  handle : s.handle k (slotOf s k fh) = fh
  slot : (s.pFd fh).data_block_id = if lostSlot k b known tr then toU64 (-1) else slotOf s k fh

theorem finds_eq_some_iff : s.finds k b = some i ↔
    (k = .dataFile → s.block_id_use ≠ 0) ∧ i ≤ s.num ∧ (s.files k i).block_id = toU64 b ∧
      ∀ j < i, (s.files k j).block_id ≠ toU64 b := by
  unfold Lfs.finds
  split_ifs with h
  · simp [h.1, h.2]
  · rw [List.find?_range_eq_some]
    simp only [beq_iff_eq, List.mem_range, Nat.lt_succ_iff, Bool.not_eq_true', beq_eq_false_iff_ne]
    tauto

/-- No slot is the `-1` of a lost one. -/
theorem slot_ne_lost (hb : s.block_size < 2 ^ 32) (hi : i ≤ s.num) : i ≠ toU64 (-1) := by
  have hlt : s.num * sizeofBlockExtraInfo < 2 ^ 64 := blockNum_mul_lt (by
    have h3 : blockInfoSize = 4129 := rfl
    omega)
  unfold toU64 sizeofBlockExtraInfo at *
  omega

/-- Only an `lfs_open` of the file gives a handle for it. -/
theorem handlesOf_other {f : Kind × ℤ} (h : ∀ path, c = .open path → parsePath path ≠ some f) :
    handlesOf f (⟨s, c, r⟩ :: tr) = handlesOf f tr := by
  unfold handlesOf
  rw [List.filterMap_cons]
  cases c with
  | «open» path => cases r <;> simp [h path rfl]
  | _ => rfl

theorem other_open {f f' : Kind × ℤ} (hp : parsePath path = some f') (hne : f' ≠ f) :
    ∀ path', Call.open path = .open path' → parsePath path' ≠ some f := by
  rintro _ ⟨⟩ h
  exact hne (Option.some.inj (hp.symm.trans h))

/-- Another file is given another handle. -/
theorem other_handle {k' : Kind} {b' : ℤ} {h : ℕ} (hok : reopenOk k b fh tr s (.open path))
    (hp : parsePath path = some (k', b')) (hne : (k', b') ≠ (k, b))
    (ho : Outcome s (.open path) (.opened h) s') : h ≠ fh := by
  obtain ⟨j, hj, rfl, -, -⟩ := ho.opened hp
  exact hok _ hp hne j hj

namespace ReopenInv
variable (H : ReopenInv k b fh known tr s)
include H

/-- A call that is no open of the file, and leaves its entries and its handle alone. -/
theorem keep (ho : Outcome s c r s') (hc : ∀ path, c = .open path → parsePath path ≠ some (k, b))
    (huse : s.block_id_use ≤ s'.block_id_use)
    (hat : (s'.files k (slotOf s k fh)).block_id = (s.files k (slotOf s k fh)).block_id)
    (hbefore : ∀ j < slotOf s k fh, (s'.files k j).block_id = (s.files k j).block_id ∨
      (s'.files k j).block_id ≠ toU64 b)
    (hfd : (s'.pFd fh).data_block_id = (s.pFd fh).data_block_id) :
    ReopenInv k b fh known (⟨s, c, r⟩ :: tr) s' := by
  obtain ⟨hu, hle, hid, hne⟩ := finds_eq_some_iff.1 H.found
  have hslot : slotOf s' k fh = slotOf s k fh := by unfold slotOf; rw [ho.num]
  refine ⟨H.isInt, by rw [ho.block_size]; exact H.block, ?_, ?_, ?_⟩
  · rw [hslot, finds_eq_some_iff]
    refine ⟨fun hk => ?_, by rw [ho.num]; exact hle, hat.trans hid, fun j hj => ?_⟩
    · have := hu hk; omega
    · rcases hbefore j hj with h | h
      · rw [h]; exact hne j hj
      · exact h
  · rw [hslot, ho.handle]; exact H.handle
  · rw [hfd, hslot, lostSlot, handlesOf_other hc]; exact H.slot

/-- A new slot for another file. -/
theorem alloc {k' : Kind} {b' : ℤ} {j : ℕ} {e : FileEntry}
    (ho : Outcome s (.open path) (.opened (s.handle k' j)) s')
    (hp : parsePath path = some (k', b')) (hne : (k', b') ≠ (k, b))
    (hfh : s.handle k' j ≠ fh) (he : e.block_id = toU64 b')
    (huse : s.block_id_use ≤ s'.block_id_use) (hfiles : s'.files = (s.setFile k' j e).files)
    (hfd : (s'.pFd fh).data_block_id = (s.pFd fh).data_block_id) :
    ReopenInv k b fh known (⟨s, .open path, .opened (s.handle k' j)⟩ :: tr) s' := by
  refine H.keep ho (other_open hp hne) huse ?_ (fun i hi => ?_) hfd
  · rw [hfiles, files_setFile, if_neg]
    rintro ⟨rfl, rfl⟩; exact hfh H.handle
  · rw [hfiles, files_setFile]
    split_ifs with h
    · obtain ⟨rfl, rfl⟩ := h
      right
      rw [he, ne_eq, toU64_inj (parsePath_isInt hp) H.isInt]
      rintro rfl; exact hne rfl
    · exact .inl rfl

/-- An id stored into the entry of the slot in which its record is found. -/
theorem noted {k' : Kind} {b' : ℤ} {j : ℕ} {e : FileEntry}
    (hok : reopenOk k b fh tr s (.getattr path)) (ho : Outcome s (.getattr path) r s')
    (hp : parsePath path = some (k', b')) (hscan : scanSlot s b' = some j)
    (he : e.block_id = toU64 b') (huse : s'.block_id_use = s.block_id_use)
    (hfiles : s'.files = (s.setFile k' j e).files) (hfd : s'.pFd = s.pFd) :
    ReopenInv k b fh known (⟨s, .getattr path, r⟩ :: tr) s' := by
  refine H.keep ho (by rintro _ ⟨⟩) huse.ge ?_ (fun i hi => ?_) (by rw [hfd])
  · rw [hfiles, files_setFile]
    split_ifs with h
    · obtain ⟨rfl, rfl⟩ := h
      have hb : b' = b := by
        by_contra hb
        exact (hok _ hp rfl _ hscan).2 hb rfl
      rw [he, hb]
      exact (finds_eq_some H.found).2.symm
    · rfl
  · rw [hfiles, files_setFile]
    split_ifs with h
    · obtain ⟨rfl, rfl⟩ := h
      right
      rw [he, ne_eq, toU64_inj (parsePath_isInt hp) H.isInt]
      intro hb
      have := (hok _ hp rfl _ hscan).1 hb
      omega
    · exact .inl rfl

/-- Opening the file again: it is found in its slot. -/
theorem open_again {fh' : ℕ} (hp : parsePath path = some (k, b))
    (ho : Outcome s (.open path) (.opened fh') s') :
    fh' = fh ∧ s' = { s with pFd := Function.update s.pFd fh { s.pFd fh with
      fd := fh, data_block_id := foundSlot k (slotOf s k fh) } } := by
  cases ho with
  | @openFound _ k' _ i hp' hf huse =>
    cases hp.symm.trans hp'
    have hi : i = slotOf s k fh :=
      Option.some.inj ((finds_of_found hf huse).symm.trans H.found)
    subst hi
    rw [H.handle]
    cases k <;> exact ⟨rfl, rfl⟩
  | openMeta hp' hf => cases hp.symm.trans hp'; cases H.found.symm.trans (finds_of_meta hf)
  | openData hp' hf => cases hp.symm.trans hp'; cases H.found.symm.trans (finds_of_data hf)

theorem again {fh' : ℕ} (hp : parsePath path = some (k, b))
    (ho : Outcome s (.open path) (.opened fh') s') :
    ReopenInv k b fh known (⟨s, .open path, .opened fh'⟩ :: tr) s' := by
  obtain ⟨rfl, rfl⟩ := H.open_again hp ho
  have hmem :
      handlesOf (k, b) (⟨s, .open path, .opened fh'⟩ :: tr) = fh' :: handlesOf (k, b) tr := by
    unfold handlesOf
    rw [List.filterMap_cons]
    dsimp only
    rw [if_pos hp]
  refine ⟨H.isInt, H.block, ?_, H.handle, ?_⟩
  · exact (by cases k <;> rfl : _ = _).trans H.found
  · dsimp only
    rw [Function.update_self, lostSlot, hmem]
    cases k with
    | metaFile => simp [foundSlot]
    | dataFile => rfl

/-- **A step that meets the condition keeps the file where it is.** -/
theorem step (hok : reopenOk k b fh tr s c) (ho : Outcome s c r s') :
    ReopenInv k b fh known (⟨s, c, r⟩ :: tr) s' := by
  have hkeep := H.keep ho
  cases ho with
  | getattrMiss => exact hkeep (by rintro _ ⟨⟩) le_rfl rfl (fun _ _ => .inl rfl) rfl
  | @getattrHit path k' b' off n len j hp hoff hn hlen hcov hl =>
    have hscan : scanSlot s b' = some j := (scanSlot_eq hoff hn).trans hl
    refine H.noted (e := ⟨toU64 b', lengthOf (infoAt s.fd.image off j) k', (s.files k' j).name⟩) hok
      (.getattrHit hp hoff hn hlen hcov hl) hp hscan rfl ?_ ?_ ?_
    all_goals cases k' <;> rfl
  | readdirOther => exact hkeep (by rintro _ ⟨⟩) le_rfl rfl (fun _ _ => .inl rfl) rfl
  | readdirRoot hoff hn hlen hcov hd =>
    refine hkeep (by rintro _ ⟨⟩) le_rfl ?_ (fun i _ => .inl ?_) rfl
    · cases k with
      | metaFile => rfl
      | dataFile => exact (hd _).1
    · cases k with
      | metaFile => rfl
      | dataFile => exact (hd i).1
  | read => exact hkeep (by rintro _ ⟨⟩) le_rfl rfl (fun _ _ => .inl rfl) rfl
  | write =>
    refine hkeep (by rintro _ ⟨⟩) le_rfl rfl (fun _ _ => .inl rfl) ?_
    exact update_keeps FileFd.data_block_id (by rfl) fh
  | release => exact hkeep (by rintro _ ⟨⟩) le_rfl rfl (fun _ _ => .inl rfl) rfl
  | @openFound path k' b' j hp hf huse =>
    by_cases hself : (k', b') = (k, b)
    · obtain ⟨rfl, rfl⟩ := Prod.mk.inj hself
      exact H.again hp (.openFound hp hf huse)
    · have hfh := other_handle hok hp hself (.openFound hp hf huse)
      refine hkeep (other_open hp hself) le_rfl ?_ (fun i _ => .inl ?_) ?_
      · cases k <;> rfl
      · cases k <;> rfl
      · dsimp only; rw [Function.update_of_ne hfh.symm]
  | @openMeta path b' _ _ _ i _ _ _ hp hf hn hlen hfree hoff hset hw hwl =>
    have hself : (Kind.metaFile, b') ≠ (k, b) := by
      rintro ⟨⟩; cases H.found.symm.trans (finds_of_meta hf)
    have hopen := Outcome.openMeta hp hf hn hlen hfree hoff hset hw hwl
    have hfh := other_handle hok hp hself hopen
    refine H.alloc hopen hp hself hfh rfl le_rfl rfl ?_
    dsimp only; rw [Function.update_of_ne hfh.symm]
  | @openData path b' _ _ i _ _ _ hp hf hn hfree hoff hset hw hwl =>
    have hself : (Kind.dataFile, b') ≠ (k, b) := by
      rintro ⟨⟩; cases H.found.symm.trans (finds_of_data hf)
    have hopen := Outcome.openData hp hf hn hfree hoff hset hw hwl
    have hfh := other_handle hok hp hself hopen
    refine H.alloc hopen hp hself hfh rfl (Nat.le_succ _) rfl ?_
    dsimp only; rw [Function.update_of_ne hfh.symm]

end ReopenInv

/-! ## The first open and the second -/

/-- A file in entry `i` and no entry before, with the handle of the slot. -/
theorem reopenInv_of (known : Bool) (i : ℕ) (hint : IsInt b) (ho : Outcome s₁ c r s₂)
    (hbl : s₁.block_size < 2 ^ 32) (huse : k = .dataFile → s₂.block_id_use ≠ 0) (hle : i ≤ s₁.num)
    (hid : (s₂.files k i).block_id = toU64 b)
    (hbefore : ∀ j < i, (s₂.files k j).block_id ≠ toU64 b)
    (hd : (s₂.pFd (s₁.handle k i)).data_block_id =
      if lostSlot k b known [] then toU64 (-1) else i) :
    ReopenInv k b (s₁.handle k i) known [] s₂ := by
  have hslot : slotOf s₂ k (s₁.handle k i) = i := by rw [← ho.handle, slotOf_handle]
  refine ⟨hint, by rw [ho.block_size]; exact hbl, ?_, ?_, ?_⟩
  · rw [hslot, finds_eq_some_iff, ho.num]
    exact ⟨huse, hle, hid, hbefore⟩
  · rw [hslot, ho.handle]
  · rw [hslot]; exact hd

/-- After the first of the opens.  The first data file of a mount is not looked up: no entry
    before its slot may hold the id. -/
theorem reopenInv_open (hbl : s₁.block_size < 2 ^ 32) (hp : parsePath path = some (k, b))
    (ho : lfsOpen s₁ path = some (fh, s₂))
    (hfirst : k = .dataFile → s₁.block_id_use = 0 →
      ∀ j < slotOf s₁ k fh, (s₁.files k j).block_id ≠ toU64 b) :
    ReopenInv k b fh (s₁.finds k b).isSome [] s₂ := by
  have ho := open_outcome ho
  have hof := fun known i => reopenInv_of (k := k) known i (parsePath_isInt hp) ho hbl
  cases ho with
  | @openFound _ _ _ i hp' hf huse =>
    cases hp.symm.trans hp'
    have hf' := finds_of_found hf huse
    obtain ⟨-, hle, hid, hne⟩ := finds_eq_some_iff.1 hf'
    rw [hf', Option.isSome_some]
    refine hof _ _ huse hle ?_ (fun j hj => ?_) ?_
    · exact (by cases k <;> rfl : _ = _).trans hid
    · exact (by cases k <;> rfl : _ = _).trans_ne (hne j hj)
    · dsimp only
      rw [Function.update_self]
      cases k <;> rfl
  | @openMeta _ _ _ _ _ i _ _ _ hp' hf hn hlen hfree =>
    cases hp.symm.trans hp'
    have hle : i ≤ s₁.num := (slot_lt_num hn hfree).le
    have hnone := finds_of_meta hf
    rw [hnone, Option.isSome_none]
    refine hof _ _ nofun hle ?_ (fun j hj => ?_) ?_
    · dsimp only [Lfs.files]; rw [Function.update_self]
    · dsimp only [Lfs.files]
      rw [Function.update_of_ne hj.ne]
      exact finds_eq_none hnone nofun j (hj.le.trans hle)
    · dsimp only; rw [Function.update_self]; rfl
  | @openData _ _ _ _ i _ _ _ hp' hf hn hfree =>
    cases hp.symm.trans hp'
    have hle : i ≤ s₁.num := (slot_lt_num hn hfree).le
    have hnone := finds_of_data hf
    rw [slotOf_handle] at hfirst
    rw [hnone, Option.isSome_none]
    refine hof _ _ (fun _ => Nat.succ_ne_zero _) hle ?_ (fun j hj => ?_) ?_
    · dsimp only [Lfs.files]; rw [Function.update_self]
    · dsimp only [Lfs.files]
      rw [Function.update_of_ne hj.ne]
      by_cases huse : s₁.block_id_use = 0
      · exact hfirst rfl huse j hj
      · exact finds_eq_none hnone (fun _ => huse) j (hj.le.trans hle)
    · dsimp only; rw [Function.update_self]; rfl

/-- **When opening again is harmless.**  A file was opened in a mount; since then no other file
    was given its handle and `lfs_getattr` left its entry and those before alone.  Opening it
    again gives the same handle, marks no slot and keeps the entry of the handle exactly if it
    is a data file, or a meta file that was found in its table by an open before. -/
theorem reopen_harmless_iff {tr₁ : Trace} {path' : List Char} {fh' : ℕ}
    (h₁ : Mount image Machine.anyStep tr₁ s₁) (hp : parsePath path = some (k, b))
    (ho : lfsOpen s₁ path = some (fh, s₂))
    (hfirst : k = .dataFile → s₁.block_id_use = 0 →
      ∀ j < slotOf s₁ k fh, (s₁.files k j).block_id ≠ toU64 b)
    (hr : system.Run (reopenOk k b fh) s₂ tr s) (hp' : parsePath path' = some (k, b))
    (ho' : lfsOpen s path' = some (fh', s')) :
    Harmless fh fh' s s' ↔
      (k = .metaFile → (s₁.finds k b).isSome = true ∨ handlesOf (k, b) tr ≠ []) := by
  have hbl : s₁.block_size < 2 ^ 32 := by rw [h₁.sizes.2]; exact SuperBlock.s_block_size_lt _
  have H := hr.invariant _ (reopenInv_open hbl hp ho hfirst)
    fun ih hok hst => ih.step hok (step_outcome hst)
  obtain ⟨rfl, rfl⟩ := H.open_again hp' (open_outcome ho')
  have hle : slotOf s k fh' ≤ s.num := (finds_eq_some_iff.1 H.found).2.1
  have hne := slot_ne_lost H.block hle
  have hkept : ∀ {α : Type} (g : FileFd → α) (e : FileFd), g e = g (s.pFd fh') →
      g (Function.update s.pFd fh' e fh') = g (s.pFd fh') :=
    fun g e h => update_keeps g h fh'
  have hlost : lostSlot k b (s₁.finds k b).isSome tr = true ↔
      k = .metaFile ∧ ((s₁.finds k b).isSome = true ∨ handlesOf (k, b) tr ≠ []) := by
    simp [lostSlot]
  constructor
  · rintro h rfl
    have hd := h.data_block_id
    dsimp only at hd
    rw [Function.update_self, H.slot] at hd
    by_contra hnot
    rw [if_neg (fun hl => hnot (hlost.1 hl).2)] at hd
    exact hne hd.symm
  · intro hcond
    refine ⟨rfl, fun _ => rfl, rfl, ?_, hkept FileFd.dev_offset _ rfl, hkept FileFd.block_id _ rfl,
      hkept FileFd.size _ rfl, hkept FileFd.flag _ rfl⟩
    dsimp only
    rw [Function.update_self, H.slot]
    cases k with
    | metaFile => rw [if_pos (hlost.2 ⟨rfl, hcond rfl⟩)]; rfl
    | dataFile => rw [if_neg (fun hl => nomatch (hlost.1 hl).1)]; rfl

/-- A data file opened again on a fresh device, after a write, a release and another open. -/
theorem reopen_harmless_iff_data : ∃ s₁ s₂ tr s s',
    mountExec blankDevice Machine.anyStep [] = some ([], s₁) ∧
    lfsOpen s₁ (dataPath 1) = some (6, s₂) ∧
    Machine.exec system (reopenOk .dataFile 1 6)
      [.open (dataPath 2), .write 6 [7] 0, .release 6 noRecord] ([], s₂) = some (tr, s) ∧
    lfsOpen s (dataPath 1) = some (6, s') ∧
    (Harmless 6 6 s s' ↔ (Kind.dataFile = .metaFile →
      (s₁.finds .dataFile 1).isSome = true ∨ handlesOf (.dataFile, 1) tr ≠ [])) := by
  obtain ⟨tr₁, s₁, he, hm, rfl, hslot, ho⟩ := Machine.exists_exec system Machine.anyStep
    (main blankDevice) []
    (fun tr s => tr = [] ∧ slotOf s .dataFile 6 = 0 ∧
      (lfsOpen s (dataPath 1)).any (fun o => decide (o.1 = 6) &&
        (Machine.exec system (reopenOk .dataFile 1 6)
          [.open (dataPath 2), .write 6 [7] 0, .release 6 noRecord] ([], o.2)).any fun x =>
            decide ((lfsOpen x.2 (dataPath 1)).map Prod.fst = some 6)) = true) (by decide +kernel)
  obtain ⟨⟨fh, s₂⟩, ho, h⟩ := (Option.any_eq_true _ _).1 ho
  obtain ⟨hfh, h⟩ := Bool.and_eq_true_iff.1 h
  obtain rfl : fh = 6 := of_decide_eq_true hfh
  obtain ⟨⟨tr, s⟩, hrun, h⟩ := (Option.any_eq_true _ _).1 h
  obtain ⟨⟨fh', s'⟩, ho', rfl⟩ := Option.map_eq_some_iff.1 (of_decide_eq_true h)
  have hp : parsePath (dataPath 1) = some (.dataFile, 1) := by decide +kernel
  refine ⟨s₁, s₂, tr, s, s', he, ho, hrun, ho', ?_⟩
  exact reopen_harmless_iff hm hp ho
    (fun _ _ j hj => absurd (hslot ▸ hj) (Nat.not_lt_zero j)) (Machine.exec_run .nil hrun) hp ho'

/-- A meta file opened twice in a row: the handle loses slot 0. -/
theorem reopen_loses_slot : ∃ tr s s',
    mountExec blankDevice Machine.anyStep [.open (metaPath 1 1001)] = some (tr, s) ∧
    Mount blankDevice Machine.anyStep tr s ∧ handlesOf (.metaFile, 1) tr = [3] ∧
    lfsOpen s (metaPath 1 1001) = some (3, s') ∧ (s.pFd 3).data_block_id = 0 ∧
    (s'.pFd 3).data_block_id = 2 ^ 64 - 1 ∧ ¬ Harmless 3 3 s s' := by
  obtain ⟨tr, s, he, hm, hh, hd, ho⟩ := Machine.exists_exec system Machine.anyStep
    (main blankDevice)
    [.open (metaPath 1 1001)]
    (fun tr s => handlesOf (.metaFile, 1) tr = [3] ∧ (s.pFd 3).data_block_id = 0 ∧
      (lfsOpen s (metaPath 1 1001)).map (fun x => (x.1, (x.2.pFd 3).data_block_id)) =
        some (3, 2 ^ 64 - 1)) (by decide +kernel)
  obtain ⟨⟨fh, s'⟩, ho, hx⟩ := Option.map_eq_some_iff.1 ho
  obtain ⟨rfl, hd'⟩ := Prod.mk.inj hx
  refine ⟨tr, s, s', he, hm, hh, ho, hd, hd', fun h => ?_⟩
  have := h.data_block_id
  rw [hd, hd'] at this
  cases this

end Rewrite
