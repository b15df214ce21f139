/-
  Which requests are answered.

  A new file takes at most one slot, in memory and on the device, also if its
  `lfs_open` is cut off by a crash; and unmounting frees none.

    - `Wanted`: a request whose path fits the buffers of its scans, or whose
      transfer fits an `off_t`;
    - `newFiles`: the new files so far;
    - `Tried`: the slots marked are those marked at first and one for each;
    - `requests_served`: in every lifetime of a device, every such request is
      answered, that of a new file as long as there were fewer of them than
      slots were clear at first.
-/
import NvmfHdfs.Rewrite.Lifetime
import NvmfHdfs.Rewrite.Progress

namespace Slots

open Bitmap Path

variable {β : Type} {n : ℕ} {a a' : Slots β} {e : Event β}

/-- The stored copy gets at most the slot that is newly taken. -/
theorem stored_grows_by (hc : Covered a) (hs : Step n a e a') {j : ℕ}
    (hj : j ∈ marked a'.stored) : j ∈ marked a.stored ∨ ∃ k, e.taken = some (k, j) := by
  cases hs with
  | idle => exact .inl hj
  | note => exact .inl hj
  | reopen => exact .inl hj
  | takeMeta =>
    rw [marked_update] at hj
    rcases hj with rfl | hj
    · exact .inr ⟨_, rfl⟩
    · exact .inl hj
  | takeData =>
    rw [marked_update] at hj
    rcases hj with rfl | hj
    · exact .inr ⟨_, rfl⟩
    · exact .inl (hc hj)

end Slots

namespace Rewrite

open CInt Layout Bitmap Path Records Slots Operations

variable {s s' t : Lfs} {image m : Image} {c : Call} {r : Reply} {q : Request Call}
  {tr : History} {x : LifeInput} {o : Option (Answer Reply)} {i j : ℕ}

/-! ## Requests -/

/-- Where a transfer finds the descriptor. -/
def transferPos (s : Lfs) (fh offset : ℕ) : ℕ :=
  if s.cur_offset = devOffset s fh offset then s.fd.pos else devOffset s fh offset

/-- A transfer of `n` bytes stays within an `off_t`. -/
def Reaches (s : Lfs) (fh offset n : ℕ) : Prop :=
  transferPos s fh offset < Descriptor.offMax ∧ transferPos s fh offset + n ≤ Descriptor.offMax

instance (s : Lfs) (fh offset n : ℕ) : Decidable (Reaches s fh offset n) :=
  inferInstanceAs (Decidable (_ ∧ _))

/-- A call whose path fits the buffers of its scans, or whose transfer fits an `off_t`. -/
def Wanted (s : Lfs) : Call → Prop
  | .getattr path | .readdir path | .open path => (parsePath path).isSome = true
  | .read fh size offset => Reaches s fh offset size
  | .write fh buf offset => Reaches s fh offset buf.length
  | .release fh _ => ∀ off ∈ releaseOffset s fh, off + sizeofBlockInfo ≤ Descriptor.offMax

instance (s : Lfs) : ∀ c, Decidable (Wanted s c)
  | .getattr path | .readdir path | .open path =>
    inferInstanceAs (Decidable ((parsePath path).isSome = true))
  | .read fh size offset => inferInstanceAs (Decidable (Reaches s fh offset size))
  | .write fh buf offset => inferInstanceAs (Decidable (Reaches s fh offset buf.length))
  | .release fh _ => inferInstanceAs (Decidable
      (∀ off ∈ releaseOffset s fh, off + sizeofBlockInfo ≤ Descriptor.offMax))

/-- A request to open a file that is in no table. -/
def isNew (s : Lfs) : Request Call → Bool
  | .call (.open path) => (parsePath path).any fun x => (s.finds x.1 x.2).isNone
  | _ => false

/-- The new files so far, also those whose `lfs_open` was cut off. -/
def newFiles : History → ℕ
  | [] => 0
  | ⟨s, .call q, _⟩ :: tr | ⟨s, .crash q _ _, _⟩ :: tr => (isNew s q).toNat + newFiles tr
  | ⟨_, .restart _, _⟩ :: tr => newFiles tr

/-- A slot is taken for a new file only. -/
theorem isNew_of_taken {y : Kind × ℕ} (h : (eventOf s c r).taken = some y) :
    isNew s (.call c) = true := by
  cases c with
  | getattr path =>
    cases hp : (parsePath path).bind fun x =>
      (recordSlot s x.2).map fun i => Slots.Event.note x.1 i (toU64 x.2) with
    | none => rw [eventOf, hp] at h; cases h
    | some e =>
      rw [eventOf, hp] at h
      obtain ⟨x, -, he⟩ := Option.bind_eq_some_iff.1 hp
      obtain ⟨i, -, rfl⟩ := Option.map_eq_some_iff.1 he
      cases h
  | «open» path =>
    cases r with
    | opened fh =>
      cases hp : parsePath path with
      | none => rw [eventOf, hp] at h; cases h
      | some x =>
        rw [eventOf, hp, Option.map_some, Option.getD_some] at h
        split_ifs at h with hf
        · cases h
        · simpa [isNew, hp] using hf
    | _ => cases h
  | _ => cases h

/-! ## The slots that were tried -/

variable {T : Finset ℕ}

/-- The slots marked are those marked on the first device and those tried since. -/
def Tried (image : Image) (T : Finset ℕ) (s : Lfs) : Prop :=
  ∀ j < s.count, diskBit s.fd.image j = true → diskBit image j = true ∨ j ∈ T

/-- A request tries one slot at most, and only for a new file; so it does when it is cut off. -/
theorem Tried.request (h : Tried image T s) (H : LifeInv image tr s) {y : Answer Reply}
    (hok : lifeOk s q) (hst : (uOperation system).step s q = some (y, s')) :
    ∃ T' : Finset ℕ, T'.card ≤ (isNew s q).toNat + T.card ∧
      ∀ j < s.count, diskBit s.fd.image j = true ∨ diskBit s'.fd.image j = true →
        diskBit image j = true ∨ j ∈ T' := by
  rcases uOperation_cases hst with ⟨c, r, rfl, rfl, hc⟩ | ⟨-, rfl⟩
  · have ho := step_outcome hc
    have hstep := H.sound.simulates ho (Misses.sub hok (Nat.zero_le _) le_rfl)
    have hcount := ho.count H.sound
    cases ht : (eventOf s c r).taken with
    | none =>
      refine ⟨T, Nat.le_add_left _ _, fun j hj hbit => h j hj ?_⟩
      rcases hbit with hbit | hbit
      · exact hbit
      · rcases stored_grows_by H.covered hstep (mem_stored.2 ⟨hcount.symm ▸ hj, hbit⟩)
          with hin | ⟨k, hk⟩
        · exact (mem_stored.1 hin).2
        · rw [ht] at hk; cases hk
    | some x =>
      obtain ⟨k, i⟩ := x
      refine ⟨insert i T, ?_, fun j hj hbit => ?_⟩
      · rw [isNew_of_taken ht]
        exact (Finset.card_insert_le _ _).trans_eq (Nat.add_comm _ _)
      · have hold : diskBit s.fd.image j = true → diskBit image j = true ∨ j ∈ insert i T :=
          fun hbit => (h j hj hbit).imp_right fun hin => Finset.mem_insert_of_mem hin
        rcases hbit with hbit | hbit
        · exact hold hbit
        · rcases stored_grows_by H.covered hstep (mem_stored.2 ⟨hcount.symm ▸ hj, hbit⟩)
            with hin | ⟨k', hk⟩
          · exact hold (mem_stored.1 hin).2
          · obtain ⟨-, rfl⟩ := Prod.mk.inj (Option.some.inj (ht.symm.trans hk))
            exact .inr (Finset.mem_insert_self _ _)
  · refine ⟨T, Nat.le_add_left _ _, fun j hj hbit => h j hj ?_⟩
    exact hbit.elim id id

/-- Every step of a lifetime tries one slot for each new file. -/
theorem Tried.step (h : Tried image T s) (H : LifeInv image tr s)
    (hbs : (superBlock image).s_block_size < 2 ^ 31) (hok : Machine.crashOk lifeOk tr s x)
    (hst : lifetime.step s x = some (o, s')) (hcard : T.card ≤ newFiles tr) :
    ∃ T' : Finset ℕ, T'.card ≤ newFiles (⟨s, x, o⟩ :: tr) ∧ Tried image T' s' := by
  have hcount : s'.count = s.count := by
    have H' := H.step hbs hok hst
    exact H.sound.count_congr H'.sound (H'.dev_size.trans H.dev_size.symm)
      (H'.block_size.trans H.block_size.symm)
  unfold Tried
  rw [hcount]
  cases x with
  | call q =>
    obtain ⟨y, rfl, hq⟩ := Machine.crashing_call hst
    obtain ⟨T', hle, hT'⟩ := h.request H hok hq
    refine ⟨T', hle.trans (Nat.add_le_add_left hcard _), fun j hj hbit => hT' j hj (.inr hbit)⟩
  | restart tables =>
    obtain ⟨rfl, hm⟩ := Machine.crashing_restart hst
    refine ⟨T, hcard, ?_⟩
    rw [(mounted_of_main hm).disk]
    exact h
  | crash q kept tables =>
    obtain ⟨rfl, y, t, hq, hm⟩ := Machine.crashing_crash hst
    obtain ⟨T', hle, hT'⟩ := h.request H hok hq
    refine ⟨T', hle.trans (Nat.add_le_add_left hcard _), fun j hj hbit => hT' j hj ?_⟩
    rw [(mounted_of_main hm).disk] at hbit
    rcases Image.torn_cases kept s.fd.image t.fd.image (bitmapOffset + j / 8) with he | he
    · exact .inl (by rwa [diskBit_congr he] at hbit)
    · exact .inr (by rwa [diskBit_congr he] at hbit)

/-- The slots tried in a lifetime are no more than its new files. -/
theorem tried_run (hbs : (superBlock image).s_block_size < 2 ^ 31)
    (h : Life image (Machine.crashOk lifeOk) tr s) :
    ∃ T : Finset ℕ, T.card ≤ newFiles tr ∧ Tried image T s := by
  obtain ⟨tables, s₀, hm, hr⟩ := h
  have M := mounted_of_main hm
  refine (hr.invariant (fun tr s => LifeInv image tr s ∧
    ∃ T : Finset ℕ, T.card ≤ newFiles tr ∧ Tried image T s) ?_ ?_).2
  · refine ⟨lifeInv_main hbs M, ∅, Nat.zero_le _, fun j _ hbit => .inl ?_⟩
    rwa [M.disk] at hbit
  · rintro tr s x o s' ⟨H, T, hcard, hT⟩ hok hst
    exact ⟨H.step hbs hok hst, hT.step H hbs hok hst hcard⟩

/-! ## The answers -/

/-- A seek to a position within an `off_t`. -/
theorem seekTo_isSome {fh offset n : ℕ} (h : Reaches s fh offset n) :
    seekTo s (devOffset s fh offset) = some ⟨s.fd.image, transferPos s fh offset⟩ := by
  obtain ⟨hlt, -⟩ := h
  unfold transferPos at hlt ⊢
  unfold seekTo
  by_cases hskip : s.cur_offset = devOffset s fh offset
  · rw [if_neg (not_not.2 hskip), if_pos hskip]
  · rw [if_neg hskip] at hlt
    rw [if_pos hskip, if_neg hskip]
    exact Descriptor.lseek_eq_some.2 ⟨hlt, rfl⟩

theorem lfsWrite_isSome {fh offset : ℕ} {buf : List UInt8} (h : Reaches s fh offset buf.length) :
    (lfsWrite s fh buf offset).isSome = true := by
  rw [lfsWrite]
  dsimp only
  rw [bind_of_eq_some (seekTo_isSome h), bind_of_eq_some (Descriptor.write_eq_some.2 ⟨h.2, rfl⟩)]
  rfl

theorem lfsRead_isSome {fh size offset : ℕ} (h : Reaches s fh offset size) :
    (lfsRead s fh size offset).isSome = true := by
  rw [lfsRead]
  dsimp only
  rw [bind_of_eq_some (seekTo_isSome h),
    bind_of_eq_some (Descriptor.read_eq_some.2 ⟨h.2, rfl, rfl⟩)]
  rfl

theorem lfsRelease_isSome {fh : ℕ} (bi : BlockInfo) (G : Geometry s.dev_size s.block_size)
    (h : ∀ off ∈ releaseOffset s fh, off + sizeofBlockInfo ≤ Descriptor.offMax) :
    (lfsRelease s fh bi).isSome = true := by
  obtain ⟨off, hoff⟩ : ∃ off, releaseOffset s fh = some off := by
    rw [releaseOffset, bind_of_eq_some G.infoOffset_eq]
    exact ⟨_, rfl⟩
  have hle := h off hoff
  have hpos : 0 < sizeofBlockInfo := by decide
  rw [lfsRelease, bind_of_eq_some hoff,
    bind_of_eq_some (Descriptor.lseek_eq_some.2 ⟨by omega, rfl⟩),
    bind_of_eq_some (Descriptor.write_eq_some.2 ⟨by rw [BlockInfo.length_encode]; exact hle, rfl⟩)]
  rfl

/-- A call that is wanted has a result, a new file as long as there is a free slot. -/
theorem step_isSome (S : Sound s) (G : Geometry s.dev_size s.block_size) (hw : Wanted s c)
    (hfree : isNew s (.call c) = true → ∀ k, ∃ i < s.num, s.marks k i = false) :
    (system.step s c).isSome = true := by
  cases c with
  | getattr path =>
    obtain ⟨⟨k, b⟩, hp⟩ := Option.isSome_iff_exists.1 hw
    exact Option.isSome_map.trans (S.lfsGetattrr_isSome G hp)
  | readdir path =>
    obtain ⟨⟨k, b⟩, hp⟩ := Option.isSome_iff_exists.1 hw
    refine Option.isSome_map.trans ?_
    by_cases hroot : path = ['/']
    · rw [hroot]
      exact S.lfsReaddir_isSome G
    · rw [lfsReaddir, bind_of_eq_some hp]
      dsimp only
      rw [if_pos hroot]
      rfl
  | «open» path =>
    obtain ⟨⟨k, b⟩, hp⟩ := Option.isSome_iff_exists.1 hw
    refine Option.isSome_map.trans (S.lfsOpen_isSome G hp fun hnone => hfree ?_ k)
    simp [isNew, hp, hnone]
  | read fh size offset => exact Option.isSome_map.trans (lfsRead_isSome hw)
  | write fh buf offset => exact Option.isSome_map.trans (lfsWrite_isSome hw)
  | release fh bi => exact Option.isSome_map.trans (lfsRelease_isSome bi G hw)

/-- The number of slots that are clear on a device. -/
def clearSlots (image : Image) : ℕ :=
  ((List.range (blockNum (superBlock image).s_dev_size (superBlock image).s_block_size)).filter
    fun i => !diskBit image i).length

/-- A slot that is clear at first and was never tried. -/
theorem exists_untried (h : T.card < clearSlots image) : ∃ i ∉ T,
    i < blockNum (superBlock image).s_dev_size (superBlock image).s_block_size ∧
      diskBit image i = false := by
  by_contra hall
  push Not at hall
  refine absurd h (Nat.not_lt.2 ?_)
  refine (List.toFinset_card_of_nodup (List.nodup_range.filter _)).symm.trans_le
    (Finset.card_le_card fun i hi => ?_)
  obtain ⟨hlt, hclear⟩ := List.mem_filter.1 (List.mem_toFinset.1 hi)
  by_contra hnot
  exact hall i hnot (List.mem_range.1 hlt) (by simpa using hclear)

/-- **Requests are answered.**  On a device whose size is an `int`, with a slot, however often it
    is unmounted or a call is cut off by a crash, with anything in the tables, and as long as
    transfers and releases stay out of the superblock and the bitmap: every request whose path fits
    the buffers of its scans and whose transfer fits an `off_t` is answered, except that there may
    be no more new files than slots were clear at first. -/
theorem requests_served
    (G : Geometry (superBlock image).s_dev_size (superBlock image).s_block_size)
    (h : Life image (Machine.crashOk lifeOk) tr s) (hq : requestOk Wanted s q)
    (hroom : isNew s q = true → newFiles tr < clearSlots image) :
    ((uOperation system).step s q).isSome = true := by
  have hslot := G.slot
  have hsmall := G.small
  have hbs : (superBlock image).s_block_size < 2 ^ 31 := by omega
  have H := lifeInv_run hbs h
  have hG : Geometry s.dev_size s.block_size := by rw [H.dev_size, H.block_size]; exact G
  cases q with
  | call c =>
    refine Option.isSome_map.trans (step_isSome H.sound hG hq fun hnew k => ?_)
    obtain ⟨T, hcard, hT⟩ := tried_run hbs h
    obtain ⟨i, hi, hlt, hclear⟩ := exists_untried (hcard.trans_lt (hroom hnew))
    rw [← H.dev_size, ← H.block_size] at hlt
    have hcount : i < s.count := by rw [H.sound.count_eq hG]; exact hlt
    have hdisk : diskBit s.fd.image i = false := by
      by_contra hset
      rcases hT i hcount (by simpa using hset) with hold | hin
      · rw [hclear] at hold; cases hold
      · exact hi hin
    refine ⟨i, hlt, ?_⟩
    cases k with
    | metaFile => exact hdisk
    | dataFile =>
      -- what is marked in memory is marked on the device
      by_contra hset
      have hbit : bit s.p_bitmap i = true := Bool.eq_true_of_not_eq_false hset
      have hin : i ∈ marked (slots s).cached := mem_cached.2 ⟨hcount, hbit⟩
      rw [(mem_stored.1 (H.covered hin)).2] at hdisk
      cases hdisk
  | _ => rfl

/-- Two data files and, after a remount, a meta file take three of the four slots, and another meta
    file takes the fourth. -/
theorem requests_served_last : ∃ tr s, lifeExec zeroTables blankDevice
      [.call (.call (.open (dataPath 1))), .call (.call (.open (dataPath 2))),
      .restart zeroTables, .call (.call (.open (metaPath 3 1001)))] = some (tr, s) ∧
    isNew s (.call (.open (metaPath 4 1001))) = true ∧ newFiles tr = 3 ∧
    clearSlots blankDevice = 4 ∧
    ((uOperation system).step s (.call (.open (metaPath 4 1001)))).isSome = true := by
  obtain ⟨tr, s, he, hl, hnew, hfiles⟩ := Machine.exists_exec lifetime (Machine.crashOk lifeOk)
    (mainOn zeroTables blankDevice)
    [.call (.call (.open (dataPath 1))), .call (.call (.open (dataPath 2))),
      .restart zeroTables, .call (.call (.open (metaPath 3 1001)))]
    (fun tr s => isNew s (.call (.open (metaPath 4 1001))) = true ∧ newFiles tr = 3)
    (by decide +kernel)
  have hclear : clearSlots blankDevice = 4 := by decide +kernel
  refine ⟨tr, s, he, hnew, hfiles, hclear, requests_served
    ⟨⟨by decide +kernel, by decide +kernel⟩, by decide +kernel⟩ ⟨zeroTables, hl⟩ ?_ fun _ => ?_⟩
  · exact (by decide +kernel : (parsePath (metaPath 4 1001)).isSome = true)
  · rw [hfiles, hclear]
    decide

end Rewrite
