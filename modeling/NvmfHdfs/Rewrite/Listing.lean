/-
  What `lfs_readdir` lists.

  The listing is rebuilt from the bitmap and the records: one name
  `"blk_<id>"` for every used slot, whatever the files in it were.

    - `listOk`: only data files are opened, and nothing but their releases
      writes their records;
    - `ListInv`: every file opened has a slot of its own, which is marked, and
      whose record names its block once the file was released;
    - `listing_right`: in every such run the listing is the files opened;
    - `listing_wrong`: one meta file.
-/
import NvmfHdfs.Rewrite.Coherence
import NvmfHdfs.Rewrite.Length
import NvmfHdfs.Rewrite.Progress

namespace Rewrite

open CInt Layout Bitmap Path Records

variable {s s' : Lfs} {image : Image} {c : Call} {r : Reply} {tr : Trace} {k : Kind} {b : ℤ}
  {fh i : ℕ} {path : List Char}

/-! ## Opens and releases of a run -/

/-- The paths opened. -/
def openedPaths (tr : Trace) : List (List Char) :=
  tr.filterMap fun e =>
    match e.input with
    | .open path => some path
    | _ => none

/-- The handles released. -/
def releases (tr : Trace) : List ℕ :=
  tr.filterMap fun e =>
    match e.input with
    | .release fh _ => some fh
    | _ => none

/-- Every file opened was released. -/
def AllReleased (tr : Trace) (s : Lfs) : Prop :=
  ∀ x ∈ handed tr, s.handle x.1 x.2.2 ∈ releases tr

instance (tr : Trace) (s : Lfs) : Decidable (AllReleased tr s) :=
  inferInstanceAs (Decidable (∀ x ∈ handed tr, s.handle x.1 x.2.2 ∈ releases tr))

/-- `"/blk_<id>"` or the name of the meta file, as `lfs_readdir` would print it. -/
def pathOf (x : Kind × ℤ × ℕ) : List Char := '/' :: listName x.1 x.2.1

/-- The calls that keep the listing right.
    * `lfs_getattr` of a data file finds the record of that very file, if one;
    * a file opened is a data file, under the name its id prints to, and the id is not 0;
    * nothing is written into the bitmap and the records;
    * a handle is released only after it was handed out. -/
def listOk : Machine.Guard Lfs Call Reply := fun tr s c =>
  match c with
  | .getattr path => ∀ x ∈ parsePath path, x.1 = .dataFile →
      ∀ i ∈ recordSlot s x.2, (s.pData i).block_id = toU64 x.2
  | .open path => ∀ x ∈ parsePath path,
      x.1 = .dataFile ∧ x.2 ≠ 0 ∧ path = '/' :: listName x.1 x.2
  | .write .. => Misses s c bitmapOffset (bitmapEnd s.count) ∧
      Misses s c s.infoOff (s.infoOff + s.count * sizeofBlockInfo)
  | .release fh _ => ∃ x ∈ handed tr, s.handle x.1 x.2.2 = fh
  | .readdir _ | .read .. => True

instance (tr : Trace) (s : Lfs) : ∀ c, Decidable (listOk tr s c)
  | .getattr path => inferInstanceAs (Decidable (∀ x ∈ parsePath path, x.1 = .dataFile →
      ∀ i ∈ recordSlot s x.2, (s.pData i).block_id = toU64 x.2))
  | .open path => inferInstanceAs (Decidable (∀ x ∈ parsePath path,
      x.1 = .dataFile ∧ x.2 ≠ 0 ∧ path = '/' :: listName x.1 x.2))
  | .write .. => inferInstanceAs (Decidable (Misses s _ _ _ ∧ Misses s _ _ _))
  | .release fh _ => inferInstanceAs (Decidable (∃ x ∈ handed tr, s.handle x.1 x.2.2 = fh))
  | .readdir _ | .read .. => .isTrue trivial

/-! ## The invariant -/

/-- A data file in its slot. -/
structure FileAt (s : Lfs) (b : ℤ) (i : ℕ) : Prop where
  path : parsePath ('/' :: listName .dataFile b) = some (.dataFile, b)
  ne_zero : b ≠ 0
  lt : i < s.count
  entry : (s.pData i).block_id = toU64 b
  block_id : (s.pFd (s.handle .dataFile i)).block_id = toU64 b
  slot : (s.pFd (s.handle .dataFile i)).data_block_id = i

theorem FileAt.isInt (F : FileAt s b i) : IsInt b := parsePath_isInt F.path

theorem FileAt.congr (F : FileAt s b i) (hcount : s'.count = s.count) (hnum : s'.num = s.num)
    (hentry : (s'.pData i).block_id = (s.pData i).block_id)
    (hid : (s'.pFd (s.handle .dataFile i)).block_id = (s.pFd (s.handle .dataFile i)).block_id)
    (hslot : (s'.pFd (s.handle .dataFile i)).data_block_id =
      (s.pFd (s.handle .dataFile i)).data_block_id) : FileAt s' b i := by
  have hh : s'.handle .dataFile i = s.handle .dataFile i := by rw [Lfs.handle, Lfs.handle, hnum]
  refine ⟨F.path, F.ne_zero, hcount ▸ F.lt, hentry.trans F.entry, ?_, ?_⟩
  · rw [hh, hid, F.block_id]
  · rw [hh, hslot, F.slot]

/-- What a run that meets `listOk` keeps. -/
structure ListInv (tr : Trace) (s : Lfs) : Prop where
  coherent : CoherentInv (fun _ => false) tr s
  block : s.block_size < 2 ^ 32
  table : handed tr ≠ [] → TableAt s
  paths : openedPaths tr = (handed tr).map pathOf
  file : ∀ k b i, (k, b, i) ∈ handed tr → k = .dataFile ∧ FileAt s b i
  one : ∀ k b i j, (k, b, i) ∈ handed tr → (k, b, j) ∈ handed tr → i = j
  entries : ∀ i, (s.pData i).block_id ≠ 0 → HandedOut tr i
  use : handed tr ≠ [] → s.block_id_use ≠ 0
  released : ∀ fh ∈ releases tr, ∃ x ∈ handed tr, s.handle x.1 x.2.2 = fh
  recorded : ∀ k b i, (k, b, i) ∈ handed tr → s.handle k i ∈ releases tr →
    (record s i).b_block_id = toU32 b

theorem handed_open (hp : parsePath path = some (k, b)) :
    handed (⟨s, .open path, .opened (s.handle k i)⟩ :: tr) = (k, b, i) :: handed tr :=
  List.filterMap_cons_some ((handedBy_open hp).trans (by rw [slotOf_handle]))

theorem handle_num (h : s'.num = s.num) (k : Kind) (i : ℕ) : s'.handle k i = s.handle k i := by
  cases k <;> simp only [Lfs.handle, h]

theorem handle_inj {j : ℕ} (h : s.handle k i = s.handle k j) : i = j := by
  rw [← slotOf_handle s k i, h, slotOf_handle]

theorem listOk_coherent (hok : listOk tr s (.open path)) : coherentOk tr s (.open path) := by
  rintro ⟨k, b⟩ hp
  obtain ⟨rfl, hb, -⟩ := hok _ hp
  exact ⟨nofun, fun _ _ _ => .inl hb⟩

namespace ListInv
variable (H : ListInv tr s)
include H

/-- A call that opens and releases nothing and leaves the tables and the records. -/
theorem quiet (ho : Outcome s c r s') (hok : coherentOk tr s c)
    (hh : handedBy ⟨s, c, r⟩ = none) (hp : openedPaths (⟨s, c, r⟩ :: tr) = openedPaths tr)
    (hr : releases (⟨s, c, r⟩ :: tr) = releases tr)
    (hdata : ∀ i, (s'.pData i).block_id = (s.pData i).block_id)
    (hid : ∀ fh, (s'.pFd fh).block_id = (s.pFd fh).block_id)
    (hslot : ∀ fh, (s'.pFd fh).data_block_id = (s.pFd fh).data_block_id)
    (huse : s'.block_id_use = s.block_id_use) (hrec : ∀ i < s.count, record s' i = record s i) :
    ListInv (⟨s, c, r⟩ :: tr) s' := by
  have hhanded : handed (⟨s, c, r⟩ :: tr) = handed tr := List.filterMap_cons_none hh
  have hhandle := handle_num ho.num
  refine ⟨H.coherent.step hok ho, ho.block_size ▸ H.block, ?_, ?_, ?_, ?_, ?_, ?_, ?_, ?_⟩
  · rw [hhanded]
    exact fun hne => (H.table hne).step H.coherent.sound ho
  · rw [hp, hhanded, H.paths]
  · intro k b i hx
    rw [hhanded] at hx
    obtain ⟨hk, F⟩ := H.file k b i hx
    exact ⟨hk, F.congr (ho.count H.coherent.sound) ho.num (hdata i) (hid _) (hslot _)⟩
  · rw [hhanded]; exact H.one
  · intro i hne
    rw [hdata] at hne
    rw [HandedOut, hhanded]
    exact H.entries i hne
  · rw [hhanded, huse]; exact H.use
  · rw [hr, hhanded]
    intro fh hfh
    obtain ⟨x, hx, he⟩ := H.released fh hfh
    exact ⟨x, hx, (hhandle _ _).trans he⟩
  · rw [hr, hhanded]
    intro k b i hx hrel
    rw [hhandle] at hrel
    rw [hrec i (H.file k b i hx).2.lt]
    exact H.recorded k b i hx hrel

/-- A file found in its table is one that was handed out, in the slot it has. -/
theorem handed_of_finds (hp : parsePath path = some (.dataFile, b)) (hb : b ≠ 0)
    (hf : s.finds .dataFile b = some i) : (.dataFile, b, i) ∈ handed tr := by
  have hentry : (s.pData i).block_id = toU64 b := (finds_eq_some hf).2
  obtain ⟨k, b', hx⟩ := H.entries i (hentry.trans_ne (toU64_ne_zero hp hb))
  obtain ⟨rfl, F⟩ := H.file k b' i hx
  obtain rfl : b' = b :=
    (toU64_inj F.isInt (parsePath_isInt hp)).1 (F.entry.symm.trans hentry)
  exact hx

/-- A file not found in its table was not handed out. -/
theorem not_handed_of_finds (hf : s.finds .dataFile b = none) :
    ∀ k i, (k, b, i) ∉ handed tr := by
  intro k i hx
  have huse := H.use (List.ne_nil_of_mem hx)
  obtain ⟨rfl, F⟩ := H.file k b i hx
  exact finds_eq_none hf (fun _ => huse) i (F.lt.le.trans (count_le_num s)) F.entry

/-- Opening a file again. -/
theorem reopen {e : FileFd} (hok : coherentOk tr s (.open path))
    (ho : Outcome s (.open path) (.opened (s.handle .dataFile i))
      { s with pFd := Function.update s.pFd (s.handle .dataFile i) e })
    (hid : e.block_id = (s.pFd (s.handle .dataFile i)).block_id) (hslot : e.data_block_id = i)
    (hp : parsePath path = some (.dataFile, b)) (hpath : path = '/' :: listName .dataFile b)
    (hmem : (.dataFile, b, i) ∈ handed tr) :
    ListInv (⟨s, .open path, .opened (s.handle .dataFile i)⟩ :: tr)
      { s with pFd := Function.update s.pFd (s.handle .dataFile i) e } := by
  have hhanded : handed (⟨s, .open path, .opened (s.handle .dataFile i)⟩ :: tr) =
      (.dataFile, b, i) :: handed tr := handed_open hp
  have hold : ∀ x ∈ (.dataFile, b, i) :: handed tr, x ∈ handed tr := by
    intro x hx
    rcases List.mem_cons.1 hx with rfl | hx
    · exact hmem
    · exact hx
  have hcount := ho.count H.coherent.sound
  have hcoh := H.coherent.step hok ho
  have hT := (H.table (List.ne_nil_of_mem hmem)).step H.coherent.sound ho
  refine ⟨hcoh, H.block, fun _ => hT, ?_, ?_, ?_, ?_, ?_, ?_, ?_⟩
  · rw [hhanded, List.map_cons, ← H.paths, pathOf, ← hpath]; rfl
  · intro k' b' j hx
    rw [hhanded] at hx
    obtain ⟨rfl, F⟩ := H.file k' b' j (hold _ hx)
    refine ⟨rfl, F.congr hcount rfl rfl ?_ ?_⟩
    · exact update_keeps FileFd.block_id hid _
    · dsimp only
      rw [Function.update_apply]
      split_ifs with hj
      · rw [hslot, F.slot, handle_inj hj]
      · rfl
  · rw [hhanded]
    intro k' b' j j' hx hx'
    exact H.one k' b' j j' (hold _ hx) (hold _ hx')
  · intro j hne
    obtain ⟨k', b', hx⟩ := H.entries j hne
    rw [HandedOut, hhanded]
    exact ⟨k', b', List.mem_cons_of_mem _ hx⟩
  · exact fun _ => H.use (List.ne_nil_of_mem hmem)
  · intro fh hfh
    obtain ⟨x, hx, he⟩ := H.released fh hfh
    rw [hhanded]
    exact ⟨x, List.mem_cons_of_mem _ hx, he⟩
  · rw [hhanded]
    intro k' b' j hx hrel
    rw [record, ho.infoOff]
    exact H.recorded k' b' j (hold _ hx) hrel

/-- A release of a file stores its record. -/
theorem release {bi : BlockInfo} {r : Reply} (hx : ∃ x ∈ handed tr, s.handle x.1 x.2.2 = fh)
    (ho : Outcome s (.release fh bi) r s') : ListInv (⟨s, .release fh bi, r⟩ :: tr) s' := by
  obtain ⟨⟨k, b, i⟩, hx, hfh⟩ := hx
  obtain ⟨rfl, F⟩ := H.file k b i hx
  change s.handle .dataFile i = fh at hfh
  subst hfh
  have hle : (s.pFd (s.handle .dataFile i)).data_block_id ≤ s.num :=
    F.slot.trans_le (F.lt.le.trans (count_le_num s))
  have hcount := ho.count H.coherent.sound
  have T := H.table (List.ne_nil_of_mem hx)
  have hT := T.step H.coherent.sound ho
  have hok : coherentOk tr s (.release (s.handle .dataFile i) bi) := T.release_misses hle
  have hcoh := H.coherent.step hok ho
  have hother := fun j => T.record_other (j := j) (.inl hle) ho
  have hself := T.record_self hle ho
  rw [F.slot] at hother hself
  cases ho with
  | @release _ _ off hro hwl =>
    refine ⟨hcoh, H.block, fun _ => hT, H.paths, ?_, H.one, H.entries, H.use, ?_, ?_⟩
    · intro k' b' j hx'
      obtain ⟨hk, F'⟩ := H.file k' b' j hx'
      exact ⟨hk, F'.congr hcount rfl rfl rfl rfl⟩
    · intro fh hrel
      rcases List.mem_cons.1 hrel with rfl | hrel
      · exact ⟨_, hx, rfl⟩
      · exact H.released fh hrel
    · intro k' b' j hx' hrel
      obtain ⟨rfl, F'⟩ := H.file k' b' j hx'
      by_cases hj : j = i
      · subst hj
        rw [hself, releaseInfo_block_id, F'.block_id, toU32_toU64]
      · rw [hother j (Ne.symm hj)]
        refine H.recorded _ b' j hx' ?_
        rcases List.mem_cons.1 hrel with h | h
        · exact absurd (handle_inj h) hj
        · exact h

/-- A slot clear in memory was not handed out. -/
theorem not_handed_of_clear (hi : i < s.count) (hfree : bit s.p_bitmap i = false) :
    ∀ k b, (k, b, i) ∉ handed tr := by
  intro k b hx
  have hdisk := (H.coherent.stored i hi).2 (.inr ⟨k, b, hx⟩)
  have hsame := H.coherent.coherent i hi
  simp only [slots, hi, decide_true, Bool.true_and] at hsame
  rw [← hsame, hfree] at hdisk
  cases hdisk

/-- A new data file. -/
theorem alloc {e : FileEntry} {e' : FileFd} (hok : coherentOk tr s (.open path))
    (ho : Outcome s (.open path) (.opened (s.handle .dataFile i)) s')
    (hp : parsePath path = some (.dataFile, b)) (hpath : path = '/' :: listName .dataFile b)
    (hb : b ≠ 0) (hf : s.finds .dataFile b = none) (hi : i < s.count)
    (hfree : bit s.p_bitmap i = false) (hdata : s'.pData = Function.update s.pData i e)
    (he : e.block_id = toU64 b) (hfd : s'.pFd = Function.update s.pFd (s.handle .dataFile i) e')
    (he' : e'.block_id = toU64 b) (hslot : e'.data_block_id = i)
    (huse : s'.block_id_use = s.block_id_use + 1) (T : TableAt s)
    (hrec : ∀ j, record s' j = record s j) :
    ListInv (⟨s, .open path, .opened (s.handle .dataFile i)⟩ :: tr) s' := by
  have hhanded : handed (⟨s, .open path, .opened (s.handle .dataFile i)⟩ :: tr) =
      (.dataFile, b, i) :: handed tr := handed_open hp
  have hhandle := handle_num ho.num
  have hcount := ho.count H.coherent.sound
  have hfile := H.not_handed_of_finds hf
  have hplace := H.not_handed_of_clear hi hfree
  refine ⟨H.coherent.step hok ho, ho.block_size ▸ H.block, fun _ => T.step H.coherent.sound ho,
    ?_, ?_, ?_, ?_, ?_, ?_, ?_⟩
  · rw [hhanded, List.map_cons, ← H.paths, pathOf, ← hpath]; rfl
  · rw [hhanded]
    intro k' b' j hx
    rcases List.mem_cons.1 hx with hx | hx
    · cases hx
      refine ⟨rfl, hpath ▸ hp, hb, hcount.symm ▸ hi, ?_, ?_, ?_⟩
      · rw [hdata, Function.update_self, he]
      · rw [hhandle, hfd, Function.update_self, he']
      · rw [hhandle, hfd, Function.update_self, hslot]
    · obtain ⟨rfl, F⟩ := H.file k' b' j hx
      have hj : j ≠ i := fun h => hplace _ _ (h ▸ hx)
      have hne : s.handle .dataFile j ≠ s.handle .dataFile i := fun h => hj (handle_inj h)
      refine ⟨rfl, F.congr hcount ho.num ?_ ?_ ?_⟩
      · rw [hdata, Function.update_of_ne hj]
      · rw [hfd, Function.update_of_ne hne]
      · rw [hfd, Function.update_of_ne hne]
  · rw [hhanded]
    intro k' b' j j' hx hx'
    rcases List.mem_cons.1 hx with hx | hx <;> rcases List.mem_cons.1 hx' with hx' | hx'
    · cases hx; cases hx'; rfl
    · cases hx; exact absurd hx' (hfile _ _)
    · cases hx'; exact absurd hx (hfile _ _)
    · exact H.one k' b' j j' hx hx'
  · intro j hne
    rw [HandedOut, hhanded]
    by_cases hj : j = i
    · subst hj; exact ⟨_, _, List.mem_cons_self⟩
    · rw [hdata, Function.update_of_ne hj] at hne
      obtain ⟨k', b', hx⟩ := H.entries j hne
      exact ⟨k', b', List.mem_cons_of_mem _ hx⟩
  · intro _; rw [huse]; exact Nat.succ_ne_zero _
  · intro fh hfh
    obtain ⟨x, hx, hh⟩ := H.released fh hfh
    rw [hhanded]
    exact ⟨x, List.mem_cons_of_mem _ hx, (hhandle _ _).trans hh⟩
  · rw [hhanded]
    intro k' b' j hx hrel
    rw [hrec]
    have hrel' : s.handle k' j ∈ releases tr := hhandle k' j ▸ hrel
    rcases List.mem_cons.1 hx with hx | hx
    · -- the handle of a slot that was free was never released
      cases hx
      obtain ⟨⟨k'', b'', j'⟩, hmem, hh⟩ := H.released _ hrel'
      obtain ⟨rfl, -⟩ := H.file k'' b'' j' hmem
      have hj : j' = i := handle_inj hh
      subst hj
      exact absurd hmem (hplace _ _)
    · exact H.recorded k' b' j hx hrel'

/-- **A step that meets `listOk` keeps the invariant.** -/
theorem step (hok : listOk tr s c) (ho : Outcome s c r s') : ListInv (⟨s, c, r⟩ :: tr) s' := by
  have hquiet := H.quiet ho
  have hinfo := ho.infoOff
  cases ho with
  | getattrMiss =>
    exact hquiet trivial rfl rfl rfl (fun _ => rfl) (fun _ => rfl) (fun _ => rfl) rfl
      fun j _ => record_of_image hinfo rfl j
  | @getattrHit _ k b _ _ _ i hp hoff hn hlen hcov hl =>
    rw [H.coherent.sound.infoOff_of hoff hn hlen hcov] at hl
    cases k with
    | metaFile =>
      exact hquiet trivial rfl rfl rfl (fun _ => rfl) (fun _ => rfl) (fun _ => rfl) rfl
        fun j _ => record_of_image hinfo rfl j
    | dataFile =>
      refine hquiet trivial rfl rfl rfl (fun j => ?_) (fun _ => rfl) (fun _ => rfl) rfl
        fun j _ => record_of_image hinfo rfl j
      -- the entry names the file already
      dsimp only [Lfs.setFile]
      rw [Function.update_apply]
      split_ifs with hj
      · rw [hj]; exact (hok _ hp rfl _ hl).symm
      · rfl
  | readdirOther =>
    exact hquiet trivial rfl rfl rfl (fun _ => rfl) (fun _ => rfl) (fun _ => rfl) rfl
      fun _ _ => rfl
  | readdirRoot hoff hn hlen hcov hd =>
    exact hquiet trivial rfl rfl rfl (fun j => (hd j).1) (fun _ => rfl) (fun _ => rfl) rfl
      fun j _ => record_of_image hinfo rfl j
  | openFound hp hf huse =>
    obtain ⟨rfl, hb, hpath⟩ := hok _ hp
    have hfinds := finds_of_found hf huse
    exact H.reopen (listOk_coherent hok) (.openFound hp hf huse) rfl rfl hp hpath
      (H.handed_of_finds hp hb hfinds)
  | openMeta hp => cases (hok _ hp).1
  | openData hp hf hn hfree hoff hset hw hwl =>
    obtain ⟨-, hb, hpath⟩ := hok _ hp
    obtain ⟨hi, htake, hplen, hbit⟩ := H.coherent.sound.dataSlot hn hfree hset hw
    obtain ⟨hlt, hclear, -⟩ := firstFree_eq_some.1 hi
    have T := H.coherent.sound.tableAt_of_area H.block hoff
    exact H.alloc (listOk_coherent hok) (.openData hp hf hn hfree hoff hset hw hwl) hp hpath hb
      (finds_of_data hf) hlt hclear rfl rfl rfl rfl rfl rfl T
      (T.record_alloc hplen hinfo (by rw [htake]))
  | read hs hr =>
    exact hquiet trivial rfl rfl rfl (fun _ => rfl) (fun _ => rfl) (fun _ => rfl) rfl
      fun j _ => record_of_image hinfo (by rw [seekTo_eq_some hs]) j
  | write hs hw =>
    refine hquiet hok.1 rfl rfl rfl (fun _ => rfl) ?_ ?_ rfl
      (record_of_misses (.write hs hw) (by rintro path ⟨⟩) hok.2)
    · exact fun j => update_keeps FileFd.block_id (by rfl) j
    · exact fun j => update_keeps FileFd.data_block_id (by rfl) j
  | release hro hw => exact H.release hok (.release hro hw)

end ListInv

/-- The invariant of a run from a mount that found no slot marked. -/
theorem listInv_run (hbs : (superBlock image).s_block_size < 2 ^ 31)
    (hempty : ∀ i < blockNum (superBlock image).s_dev_size (superBlock image).s_block_size,
      diskBit image i = false) (h : Mount image listOk tr s) : ListInv tr s := by
  obtain ⟨s₀, hm, hr⟩ := h
  refine hr.invariant ListInv ?_ fun ih hok hst => ih.step hok (step_outcome hst)
  have hcoh := coherentInv_main hbs hm
  obtain ⟨hdev, hblock⟩ := main_sizes hm
  have hnum : s₀.num = blockNum (superBlock image).s_dev_size (superBlock image).s_block_size := by
    rw [Lfs.num, hdev, hblock]
  have hdata : ∀ i, (s₀.pData i).block_id = 0 := by
    obtain ⟨len, -, rfl⟩ := main_eq_some hm; exact fun _ => rfl
  have hnone : ∀ x, x ∉ handed [] := fun x => List.not_mem_nil
  refine ⟨⟨hcoh.sound, hcoh.coherent, hcoh.marked, fun i hi => ?_⟩, by omega, fun h => ?_, rfl,
    fun k b i hx => ?_, fun k b i j hx => ?_, fun i hne => ?_, fun h => ?_, fun fh hfh => ?_,
    fun k b i hx => ?_⟩
  · rw [hcoh.stored i hi, hempty i (hnum ▸ hi.trans_le (count_le_num s₀))]
  · exact absurd rfl h
  · exact absurd hx (hnone _)
  · exact absurd hx (hnone _)
  · exact absurd (hdata i) hne
  · exact absurd rfl h
  · exact absurd hfh List.not_mem_nil
  · exact absurd hx (hnone _)

/-! ## The listing -/

/-- `lfs_readdir` lists one name for every used slot. -/
theorem Sound.readdir_names {ret : ℤ} {names : List (List Char)} (S : Sound s)
    (h : lfsReaddir s ['/'] = some ((ret, names), s')) : names = ['.'] :: ['.', '.'] ::
      (usedSlots s.fd.image s.count).map (slotName s.fd.image s.infoOff) := by
  cases readdir_outcome h with
  | readdirOther hp hne => exact absurd rfl hne
  | readdirRoot hoff hn hlen hcov hd =>
    rw [Lfs.infoOff, hoff, Option.getD_some, S.count_of_cover hn hlen hcov]

theorem listName_inj {b b' : ℤ} (h : parsePath ('/' :: listName .dataFile b) = some (.dataFile, b))
    (h' : parsePath ('/' :: listName .dataFile b') = some (.dataFile, b'))
    (he : listName .dataFile b = listName .dataFile b') : b = b' := by
  rw [he, h'] at h
  cases h; rfl

namespace ListInv
variable (H : ListInv tr s) (hrel : AllReleased tr s)
include H hrel

/-- The name listed for a slot is that of the file in it. -/
theorem slotName_handed (hx : (k, b, i) ∈ handed tr) :
    slotName s.fd.image s.infoOff i = listName .dataFile b := by
  have hid := H.recorded k b i hx (hrel _ hx)
  rw [record] at hid
  rw [slotName, hid, toInt_toU32 (H.file k b i hx).2.isInt]

/-- **Every file opened is found again** by the scan of `lfs_getattrr`. -/
theorem recordSlot_handed (hx : (k, b, i) ∈ handed tr) : recordSlot s b = some i := by
  obtain ⟨-, F⟩ := H.file k b i hx
  refine lookup_eq_some.2 ⟨⟨F.lt, (H.coherent.stored i F.lt).2 (.inr ⟨k, b, hx⟩)⟩,
    H.recorded k b i hx (hrel _ hx), fun j hj hused hid => ?_⟩
  have hjlt := hj.trans F.lt
  obtain ⟨k', b', hx'⟩ := ((H.coherent.stored j hjlt).1 hused).resolve_left (by simp)
  have hid' := H.recorded k' b' j hx' (hrel _ hx')
  rw [record] at hid'
  obtain ⟨rfl, F'⟩ := H.file k' b' j hx'
  obtain ⟨rfl, -⟩ := H.file k b i hx
  have hb : b' = b := (toU32_inj F'.isInt F.isInt).1 (hid'.symm.trans hid)
  subst hb
  exact hj.ne (H.one _ _ _ _ hx' hx)

/-- The names listed for the used slots are the files opened, each once. -/
theorem listed : ((usedSlots s.fd.image s.count).map (slotName s.fd.image s.infoOff)).Nodup ∧
    ∀ name, name ∈ (usedSlots s.fd.image s.count).map (slotName s.fd.image s.infoOff) ↔
      '/' :: name ∈ openedPaths tr := by
  have hused : ∀ i ∈ usedSlots s.fd.image s.count, ∃ b, (.dataFile, b, i) ∈ handed tr := by
    intro i hi
    obtain ⟨hlt, hbit⟩ := mem_usedSlots.1 hi
    obtain ⟨k, b, hx⟩ := ((H.coherent.stored i hlt).1 hbit).resolve_left (by simp)
    obtain ⟨rfl, -⟩ := H.file k b i hx
    exact ⟨b, hx⟩
  constructor
  · refine List.Nodup.map_on ?_ (List.nodup_range.filter _)
    intro i hi j hj he
    obtain ⟨b, hx⟩ := hused i hi
    obtain ⟨b', hx'⟩ := hused j hj
    rw [H.slotName_handed hrel hx, H.slotName_handed hrel hx'] at he
    have hb := listName_inj (H.file _ b i hx).2.path (H.file _ b' j hx').2.path he
    subst hb
    exact H.one _ _ _ _ hx hx'
  · intro name
    rw [H.paths, List.mem_map, List.mem_map]
    constructor
    · rintro ⟨i, hi, rfl⟩
      obtain ⟨b, hx⟩ := hused i hi
      exact ⟨_, hx, by rw [H.slotName_handed hrel hx]; rfl⟩
    · rintro ⟨⟨k, b, i⟩, hx, he⟩
      obtain ⟨rfl, F⟩ := H.file k b i hx
      refine ⟨i, mem_usedSlots.2 ⟨F.lt, (H.coherent.stored i F.lt).2 (.inr ⟨_, b, hx⟩)⟩, ?_⟩
      rw [H.slotName_handed hrel hx]
      exact List.tail_eq_of_cons_eq he

end ListInv

/-- A listing is `"."`, `".."` and the names of the files opened, each once. -/
def ListsFiles (tr : Trace) (names : List (List Char)) : Prop :=
  ∃ files, names = ['.'] :: ['.', '.'] :: files ∧ files.Nodup ∧
    ∀ name, name ∈ files ↔ '/' :: name ∈ openedPaths tr

/-- `lfs_getattrr` of a name finds the record of the file opened under it, and on a device
    whose size is an `int` it is defined. -/
def FindsRecord (tr : Trace) (s : Lfs) (name : List Char) : Prop :=
  ∃ x ∈ handed tr, pathOf x = '/' :: name ∧ parsePath ('/' :: name) = some (x.1, x.2.1) ∧
    recordSlot s x.2.1 = some x.2.2 ∧
    (∀ st s', lfsGetattrr s ('/' :: name) = some (st, s') →
      st.st_size = toI64 (lengthOf (record s x.2.2) x.1)) ∧
    (Geometry s.dev_size s.block_size → (lfsGetattrr s ('/' :: name)).isSome = true)

/-- **The listing is the files opened**, in every run that opens data files only and in which
    every file was released.  On a device whose size is an `int` there is one. -/
theorem listing_right (hbs : (superBlock image).s_block_size < 2 ^ 31)
    (hempty : ∀ i < blockNum (superBlock image).s_dev_size (superBlock image).s_block_size,
      diskBit image i = false) (h : Mount image listOk tr s) (hrel : AllReleased tr s) :
    (Geometry s.dev_size s.block_size → (lfsReaddir s ['/']).isSome = true) ∧
    (∀ ret names s', lfsReaddir s ['/'] = some ((ret, names), s') → ListsFiles tr names) ∧
    ∀ name, '/' :: name ∈ openedPaths tr → FindsRecord tr s name := by
  have H := listInv_run hbs hempty h
  have S := H.coherent.sound
  refine ⟨S.lfsReaddir_isSome, fun ret names s' hr => ?_, fun name hname => ?_⟩
  · obtain ⟨hnodup, hmem⟩ := H.listed hrel
    exact ⟨_, S.readdir_names hr, hnodup, hmem⟩
  · rw [H.paths, List.mem_map] at hname
    obtain ⟨⟨k, b, i⟩, hx, he⟩ := hname
    obtain ⟨rfl, F⟩ := H.file k b i hx
    have hslot := H.recordSlot_handed hrel hx
    have hp : parsePath ('/' :: name) = some (.dataFile, b) := he ▸ F.path
    exact ⟨_, hx, he, hp, hslot, fun st s' hg => S.st_size hp hslot hg,
      fun G => S.lfsGetattrr_isSome G hp⟩

/-- Two data files, opened, written and released. -/
theorem listing_right_data : ∃ tr s, mountExec blankDevice listOk
      [.open (dataPath 2), .open (dataPath 1), .write 6 [1] 0, .write 7 [1] 0,
        .release 6 noRecord, .release 7 noRecord] = some (tr, s) ∧
    (Geometry s.dev_size s.block_size → (lfsReaddir s ['/']).isSome = true) ∧
    (∀ ret names s', lfsReaddir s ['/'] = some ((ret, names), s') → ListsFiles tr names) ∧
    ∀ name, '/' :: name ∈ openedPaths tr → FindsRecord tr s name := by
  obtain ⟨tr, s, he, hm, hrel⟩ := Machine.exists_exec system listOk (main blankDevice)
    [.open (dataPath 2), .open (dataPath 1), .write 6 [1] 0, .write 7 [1] 0,
      .release 6 noRecord, .release 7 noRecord] AllReleased (by decide +kernel)
  exact ⟨tr, s, he, listing_right (by decide +kernel) (by decide +kernel) hm hrel⟩

/-- One meta file, opened, written and released: a data file is listed. -/
theorem listing_wrong : ∃ tr s s', mountExec blankDevice Machine.anyStep
      [.open (metaPath 1 1001), .write 3 [1] 0, .release 3 noRecord] = some (tr, s) ∧
    Mount blankDevice Machine.anyStep tr s ∧ AllReleased tr s ∧
    openedPaths tr = [metaPath 1 1001] ∧
    lfsReaddir s ['/'] = some ((0, [['.'], ['.', '.'], listName .dataFile 1]), s') ∧
    ¬ ListsFiles tr [['.'], ['.', '.'], listName .dataFile 1] := by
  obtain ⟨tr, s, he, hm, hrel, hpaths, hr⟩ := Machine.exists_exec system Machine.anyStep
    (main blankDevice)
    [.open (metaPath 1 1001), .write 3 [1] 0, .release 3 noRecord]
    (fun tr s => AllReleased tr s ∧ openedPaths tr = [metaPath 1 1001] ∧
      (lfsReaddir s ['/']).map (fun x => x.1) =
        some (0, [['.'], ['.', '.'], listName .dataFile 1])) (by decide +kernel)
  obtain ⟨⟨x, s'⟩, hr, rfl⟩ := Option.map_eq_some_iff.1 hr
  refine ⟨tr, s, s', he, hm, hrel, hpaths, hr, ?_⟩
  rintro ⟨files, hnames, -, hmem⟩
  simp only [List.cons.injEq, true_and] at hnames
  have h := (hmem (listName .dataFile 1)).1 (by rw [← hnames]; exact List.mem_singleton_self _)
  rw [hpaths] at h
  exact absurd h (by decide +kernel)

end Rewrite
