/-
  What a release changes.

  `lfs_release` fills the id and one length of a local record and stores the
  record whole: the times, the other length and the padding are what the stack
  held.  It goes to the slot of the handle, which a meta file opened again has
  lost.

    - `ChangesOwn`: only the id and the length of the file change, in the record
      of its slot;
    - `ReleaseFits`: what the stack and the handle must hold for that;
    - `release_own_iff`: it is so exactly then;
    - `release_clobbers`: the release of a data file clears the length of its
      meta file.
-/
import NvmfHdfs.Rewrite.Length
import NvmfHdfs.Rewrite.Reopen

namespace Rewrite

open CInt Layout Bitmap Path Records

variable {s s' : Lfs} {m image : Image} {c : Call} {r : Reply} {tr : Trace} {k : Kind} {b : ℤ}
  {fh i off : ℕ} {bi : BlockInfo}

/-! ## The fields of a record -/

/-- The other file of a block. -/
def otherKind : Kind → Kind
  | .metaFile => .dataFile
  | .dataFile => .metaFile

/-- The place of the length of a kind of files in a record. -/
def lengthField : Kind → ℕ
  | .metaFile => 8
  | .dataFile => 16

/-- The device bytes of `b_block_id` and of the length of a kind of files in record `i`. -/
def OwnField (s : Lfs) (k : Kind) (i a : ℕ) : Prop :=
  (s.infoOff + i * sizeofBlockInfo + lengthField k ≤ a ∧
    a < s.infoOff + i * sizeofBlockInfo + lengthField k + 8) ∨
  (s.infoOff + i * sizeofBlockInfo + 24 ≤ a ∧ a < s.infoOff + i * sizeofBlockInfo + 28)

instance (s : Lfs) (k : Kind) (i a : ℕ) : Decidable (OwnField s k i a) :=
  inferInstanceAs (Decidable (_ ∨ _))

/-- Nothing on the device changes but the id and the length of the file of kind `k` in record
    `i`. -/
def ChangesOwn (s s' : Lfs) (k : Kind) (i : ℕ) : Prop :=
  ∀ a, ¬ OwnField s k i a → s'.fd.image a = s.fd.image a

/-- The length `lfs_release` stores for a kind of files: the size in the handle goes into the
    field its flag names, and `bi` keeps what it holds in the other one. -/
def lengthStored (e : FileFd) (bi : BlockInfo) (k : Kind) : ℕ :=
  if e.flag = 0 ↔ k = .metaFile then e.size else lengthOf bi k

/-- What a release stores in a record besides the id and the length of a kind of files is there
    already: the times and the padding that `bi` holds, and the length of the other kind. -/
structure RestFits (k : Kind) (e : FileFd) (bi r : BlockInfo) : Prop where
  creat : bi.b_creat_time % 2 ^ 32 = r.b_creat_time
  update : bi.b_update_time % 2 ^ 32 = r.b_update_time
  padding : bi.padding % 2 ^ 32 = r.padding
  length : lengthStored e bi (otherKind k) % 2 ^ 64 = lengthOf r (otherKind k)

/-- Everything a release stores is there already. -/
structure WholeFits (k : Kind) (e : FileFd) (bi r : BlockInfo) : Prop
    extends RestFits k e bi r where
  own : lengthStored e bi k % 2 ^ 64 = lengthOf r k
  id : e.block_id % 2 ^ 32 = r.b_block_id

/-- The record of the slot a handle holds; for the slot `-1`, the bytes before the table. -/
def handleRecord (s : Lfs) (fh : ℕ) : BlockInfo :=
  if (s.pFd fh).data_block_id = toU64 (-1) then
    BlockInfo.decode (s.fd.image.slice (s.infoOff - sizeofBlockInfo) sizeofBlockInfo)
  else record s (s.pFd fh).data_block_id

/-- The condition for the release of a handle to leave the rest alone, where `i` is the slot of
    its file.
    * A handle that holds the slot: the rest of what is stored is in record `i` already.
    * Any other handle: all of it is in the record of the slot it holds. -/
def ReleaseFits (s : Lfs) (k : Kind) (i fh : ℕ) (bi : BlockInfo) : Prop :=
  if (s.pFd fh).data_block_id = i then RestFits k (s.pFd fh) bi (record s i)
  else WholeFits k (s.pFd fh) bi (handleRecord s fh)

/-! ## Storing a record -/

/-- Two records have the times, the length of a kind of files and the padding in common. -/
structure SameRest (k : Kind) (w r : BlockInfo) : Prop where
  creat : w.b_creat_time = r.b_creat_time
  update : w.b_update_time = r.b_update_time
  length : lengthOf w k = lengthOf r k
  padding : w.padding = r.padding

/-- The fields of the record that `lfs_release` stores. -/
theorem decode_releaseInfo (e : FileFd) (bi : BlockInfo) :
    BlockInfo.decode (releaseInfo e bi).encode =
      ⟨bi.b_creat_time % 2 ^ 32, bi.b_update_time % 2 ^ 32, lengthStored e bi .metaFile % 2 ^ 64,
        lengthStored e bi .dataFile % 2 ^ 64, e.block_id % 2 ^ 32, bi.padding % 2 ^ 32⟩ := by
  rw [BlockInfo.decode_encode, releaseInfo]
  unfold lengthStored lengthOf
  by_cases hflag : e.flag = 0
  · simp [hflag, toU32_natCast]
  · simp [hflag, toU32_natCast]

theorem lengthOf_releaseInfo (e : FileFd) (bi : BlockInfo) (k : Kind) :
    lengthOf (BlockInfo.decode (releaseInfo e bi).encode) k = lengthStored e bi k % 2 ^ 64 := by
  rw [decode_releaseInfo]
  cases k <;> rfl

theorem restFits_iff {e : FileFd} {w : BlockInfo} :
    RestFits k e bi w ↔
      SameRest (otherKind k) (BlockInfo.decode (releaseInfo e bi).encode) w := by
  have hlen := lengthOf_releaseInfo e bi (otherKind k)
  constructor
  · rintro ⟨h1, h2, h3, h4⟩
    refine ⟨?_, ?_, hlen.trans h4, ?_⟩
    · rw [decode_releaseInfo]; exact h1
    · rw [decode_releaseInfo]; exact h2
    · rw [decode_releaseInfo]; exact h3
  · rintro ⟨h1, h2, h3, h4⟩
    rw [decode_releaseInfo] at h1 h2 h4
    exact ⟨h1, h2, h4, hlen.symm.trans h3⟩

theorem wholeFits_iff {e : FileFd} {w : BlockInfo} :
    WholeFits k e bi w ↔ BlockInfo.decode (releaseInfo e bi).encode = w := by
  rw [decode_releaseInfo]
  constructor
  · rintro ⟨⟨h1, h2, h3, h4⟩, h5, h6⟩
    cases k <;> (dsimp only [otherKind, lengthOf] at h4 h5; rw [h1, h2, h3, h4, h5, h6])
  · rintro rfl
    cases k <;> exact ⟨⟨rfl, rfl, rfl, rfl⟩, rfl, rfl⟩

/-- Bytes `[f, f + n)` of what is stored at `p` are there already. -/
def Keeps (m : Image) (p : ℕ) (bs : List UInt8) (f n : ℕ) : Prop :=
  ∀ a, p + f ≤ a → a < p + f + n → m.patch p bs a = m a

variable {p : ℕ} {bs : List UInt8}

/-- The fields one by one. -/
theorem keeps_iff (hbs : bs.length = sizeofBlockInfo) {f n : ℕ} (h : f + n ≤ sizeofBlockInfo) :
    Keeps m p bs f n ↔ Image.leValue ((bs.drop f).take n) =
      Image.leValue (((m.slice p sizeofBlockInfo).drop f).take n) := by
  have := Image.field_kept_iff (m := m) (p := p) (hbs ▸ h)
  rwa [hbs] at this

theorem Keeps.append {f n l : ℕ} (h : Keeps m p bs f n) (h' : Keeps m p bs (f + n) l) :
    Keeps m p bs f (n + l) := by
  intro a h1 h2
  rcases Nat.lt_or_ge a (p + f + n) with hlt | hge
  · exact h a h1 hlt
  · exact h' a (by omega) (by omega)

/-- The rest of a record stored is there already. -/
theorem sameRest_iff (hbs : bs.length = sizeofBlockInfo) :
    SameRest k (BlockInfo.decode bs) (BlockInfo.decode (m.slice p sizeofBlockInfo)) ↔
      Keeps m p bs 0 4 ∧ Keeps m p bs 4 4 ∧ Keeps m p bs (lengthField k) 8 ∧
        Keeps m p bs 28 4 := by
  have hlen : Keeps m p bs (lengthField k) 8 ↔ lengthOf (BlockInfo.decode bs) k =
      lengthOf (BlockInfo.decode (m.slice p sizeofBlockInfo)) k := by
    cases k with
    | metaFile => exact keeps_iff hbs (by decide)
    | dataFile => exact keeps_iff hbs (by decide)
  rw [hlen, keeps_iff hbs (by decide), keeps_iff hbs (by decide), keeps_iff hbs (by decide)]
  exact ⟨fun ⟨h1, h2, h3, h4⟩ => ⟨h1, h2, h3, h4⟩, fun ⟨h1, h2, h3, h4⟩ => ⟨h1, h2, h3, h4⟩⟩

/-- The whole record stored is there already. -/
theorem decode_eq_iff (hbs : bs.length = sizeofBlockInfo) :
    BlockInfo.decode bs = BlockInfo.decode (m.slice p sizeofBlockInfo) ↔
      ∀ a, m.patch p bs a = m a := by
  have hfields : BlockInfo.decode bs = BlockInfo.decode (m.slice p sizeofBlockInfo) ↔
      Keeps m p bs 0 4 ∧ Keeps m p bs 4 4 ∧ Keeps m p bs 8 8 ∧ Keeps m p bs 16 8 ∧
        Keeps m p bs 24 4 ∧ Keeps m p bs 28 4 := by
    rw [keeps_iff hbs (by decide), keeps_iff hbs (by decide), keeps_iff hbs (by decide),
      keeps_iff hbs (by decide), keeps_iff hbs (by decide), keeps_iff hbs (by decide)]
    exact BlockInfo.mk.injEq .. ▸ Iff.rfl
  rw [hfields]
  constructor
  · rintro ⟨h0, h4, h8, h16, h24, h28⟩ a
    have hall : Keeps m p bs 0 sizeofBlockInfo :=
      ((((h0.append h4).append h8).append h16).append h24).append h28
    by_cases hin : p ≤ a ∧ a < p + sizeofBlockInfo
    · exact hall a hin.1 hin.2
    · exact Image.patch_outside (by omega)
  · intro h
    exact ⟨fun a _ _ => h a, fun a _ _ => h a, fun a _ _ => h a, fun a _ _ => h a,
      fun a _ _ => h a, fun a _ _ => h a⟩

/-- Storing a record at its place changes only the fields of a kind exactly if the rest is there
    already. -/
theorem own_place_iff (hbs : bs.length = sizeofBlockInfo)
    (hp : p = s.infoOff + i * sizeofBlockInfo) :
    (∀ a, ¬ OwnField s k i a → m.patch p bs a = m a) ↔
      SameRest (otherKind k) (BlockInfo.decode bs)
        (BlockInfo.decode (m.slice p sizeofBlockInfo)) := by
  rw [sameRest_iff hbs]
  constructor
  · intro h
    refine ⟨fun a h1 h2 => h a ?_, fun a h1 h2 => h a ?_, fun a h1 h2 => h a ?_,
      fun a h1 h2 => h a ?_⟩
    all_goals cases k <;> simp only [OwnField, otherKind, lengthField, ← hp] at * <;> omega
  · rintro ⟨h0, h4, hlen, h28⟩ a ha
    by_cases hin : p ≤ a ∧ a < p + 32
    · have hcase : a < p + 4 ∨ (p + 4 ≤ a ∧ a < p + 8) ∨
          (p + lengthField (otherKind k) ≤ a ∧ a < p + lengthField (otherKind k) + 8) ∨
          p + 28 ≤ a := by
        cases k <;> simp only [OwnField, otherKind, lengthField, ← hp] at * <;> omega
      rcases hcase with h | h | h | h
      · exact h0 a hin.1 h
      · exact h4 a h.1 h.2
      · exact hlen a h.1 h.2
      · exact h28 a h hin.2
    · exact Image.patch_outside (by rw [hbs]; exact hin)

/-- Storing a record elsewhere does so exactly if it is there already. -/
theorem other_place_iff (hbs : bs.length = sizeofBlockInfo)
    (hp : p + sizeofBlockInfo ≤ s.infoOff + i * sizeofBlockInfo ∨
      s.infoOff + i * sizeofBlockInfo + sizeofBlockInfo ≤ p) :
    (∀ a, ¬ OwnField s k i a → m.patch p bs a = m a) ↔
      BlockInfo.decode bs = BlockInfo.decode (m.slice p sizeofBlockInfo) := by
  rw [decode_eq_iff hbs]
  refine ⟨fun h a => ?_, fun h a _ => h a⟩
  by_cases hin : p ≤ a ∧ a < p + bs.length
  · refine h a ?_
    rw [hbs] at hin
    unfold sizeofBlockInfo at *
    cases k <;> simp only [OwnField, lengthField, sizeofBlockInfo] <;> omega
  · exact Image.patch_outside hin

/-! ## The slot of an open handle -/

theorem openSlot_le (h : openSlot s k b = some i) : i ≤ s.num := by
  rcases Option.or_eq_some_iff.1 h with hf | ⟨-, hn⟩
  · exact (finds_eq_some hf).1
  · obtain ⟨n, hn, hi⟩ := Option.bind_eq_some_iff.1 hn
    exact (slot_lt_num hn hi).le

theorem Mount.handle_slot {ok : Machine.Guard Lfs Call Reply} (h : Mount image ok tr s) :
    ∀ fh ∈ handlesOf (k, b) tr, slotOf s k fh ≤ s.num := by
  obtain ⟨s₀, -, hr⟩ := h
  refine hr.invariant (fun tr s => ∀ fh ∈ handlesOf (k, b) tr, slotOf s k fh ≤ s.num) nofun ?_
  intro tr s c r s' ih _ hst fh hfh
  have ho := step_outcome hst
  have hslot : slotOf s' k fh = slotOf s k fh := by unfold slotOf; rw [ho.num]
  rw [hslot, ho.num]
  rcases mem_handlesOf_cons hfh with ⟨path, rfl, rfl, hp⟩ | hfh
  · obtain ⟨i, hi, rfl, -, -⟩ := ho.opened hp
    rw [slotOf_handle]
    exact openSlot_le hi
  · exact ih fh hfh

/-! ## Releasing -/

/-- A handle that has not the slot is released elsewhere. -/
theorem TableStart.release_elsewhere (T : TableStart s)
    (hslot : (s.pFd fh).data_block_id ≤ s.num ∨ (s.pFd fh).data_block_id = toU64 (-1))
    (hne : (s.pFd fh).data_block_id ≠ i) (ho : releaseOffset s fh = some off) :
    off + sizeofBlockInfo ≤ s.infoOff + i * sizeofBlockInfo ∨
      s.infoOff + i * sizeofBlockInfo + sizeofBlockInfo ≤ off := by
  rcases hslot with hle | hlost
  · rw [T.release_slot hle ho]
    unfold sizeofBlockInfo
    omega
  · left
    rw [T.release_lost hlost ho]
    exact Nat.le_add_right _ _

/-- What the device holds where a handle is released. -/
theorem TableStart.held_eq (T : TableStart s)
    (hslot : (s.pFd fh).data_block_id ≤ s.num ∨ (s.pFd fh).data_block_id = toU64 (-1))
    (ho : releaseOffset s fh = some off) :
    BlockInfo.decode (s.fd.image.slice off sizeofBlockInfo) = handleRecord s fh := by
  unfold handleRecord
  rcases hslot with hle | hlost
  · rw [if_neg (slot_ne_lost T.block hle), T.release_slot hle ho]
    rfl
  · rw [if_pos hlost, ← T.release_lost hlost ho, Nat.add_sub_cancel]

/-- **What a release changes.**  Releasing a handle of a file that was opened in a mount changes
    nothing but the id and the length of the file in the record of its slot exactly if
      - the handle holds the slot, and the times and the padding of `bi`, and what it or the
        handle has for the length of the other kind, are those in the record; or
      - the handle holds another slot, and the id and the length of the handle are those in the
        record of that slot too. -/
theorem release_own_iff (h : Mount image Machine.anyStep tr s)
    (hopen : fh ∈ handlesOf (k, b) tr) (hr : lfsRelease s fh bi = some s') :
    ChangesOwn s s' k (slotOf s k fh) ↔ ReleaseFits s k (slotOf s k fh) fh bi := by
  have hb : s.block_size < 2 ^ 32 := by rw [h.sizes.2]; exact SuperBlock.s_block_size_lt _
  have hle := h.handle_slot fh hopen
  cases release_outcome hr with
  | @release _ _ off ho hw =>
    have T := tableStart_of_release hb ho
    have hlen := BlockInfo.length_encode (releaseInfo (s.pFd fh) bi)
    unfold ReleaseFits
    by_cases hd : (s.pFd fh).data_block_id = slotOf s k fh
    · rw [if_pos hd, restFits_iff]
      have hoff : off = s.infoOff + slotOf s k fh * sizeofBlockInfo := by
        rw [← hd] at hle ⊢
        exact T.release_slot hle ho
      have hrec : record s (slotOf s k fh) =
          BlockInfo.decode (s.fd.image.slice off sizeofBlockInfo) := by rw [hoff]; rfl
      rw [hrec]
      exact own_place_iff hlen hoff
    · rw [if_neg hd, wholeFits_iff, ← T.held_eq (h.slotInv fh) ho]
      exact other_place_iff hlen (T.release_elsewhere (h.slotInv fh) hd ho)

/-- A meta file of two bytes was released; releasing the data file of its block leaves the rest
    alone, if the stack holds the length of the meta file. -/
theorem release_own_iff_held : ∃ tr s s',
    mountExec blankDevice Machine.anyStep [.open (metaPath 1 1001), .open (dataPath 1),
      .write 3 [1, 2] 0, .release 3 noRecord, .write 6 [5, 6, 7] 0] = some (tr, s) ∧
    lfsRelease s 6 { noRecord with b_csm_length := 2 } = some s' ∧
    (record s' 0).b_csm_length = 2 ∧ (record s' 0).b_data_length = 3 ∧
    (ChangesOwn s s' .dataFile (slotOf s .dataFile 6) ↔
      ReleaseFits s .dataFile (slotOf s .dataFile 6) 6 { noRecord with b_csm_length := 2 }) := by
  obtain ⟨tr, s, he, hm, hopen, hr⟩ := Machine.exists_exec system Machine.anyStep (main blankDevice)
    [.open (metaPath 1 1001), .open (dataPath 1), .write 3 [1, 2] 0, .release 3 noRecord,
      .write 6 [5, 6, 7] 0]
    (fun tr s => 6 ∈ handlesOf (.dataFile, 1) tr ∧
      (lfsRelease s 6 { noRecord with b_csm_length := 2 }).any (fun s' =>
        decide ((record s' 0).b_csm_length = 2 ∧ (record s' 0).b_data_length = 3)) = true)
    (by decide +kernel)
  obtain ⟨s', hr, h⟩ := (Option.any_eq_true _ _).1 hr
  obtain ⟨hcsm, hdata⟩ := of_decide_eq_true h
  exact ⟨tr, s, s', he, hr, hcsm, hdata, release_own_iff hm hopen hr⟩

/-- A meta file of two bytes is released, then the data file of its block: the length of the
    meta file is cleared. -/
theorem release_clobbers : ∃ tr s s',
    mountExec blankDevice Machine.anyStep [.open (metaPath 1 1001), .open (dataPath 1),
      .write 3 [1, 2] 0, .release 3 noRecord] = some (tr, s) ∧
    Mount blankDevice Machine.anyStep tr s ∧ 6 ∈ handlesOf (.dataFile, 1) tr ∧
    lfsRelease s 6 noRecord = some s' ∧ (record s 0).b_csm_length = 2 ∧
    (record s' 0).b_csm_length = 0 ∧ ¬ ChangesOwn s s' .dataFile (slotOf s .dataFile 6) := by
  obtain ⟨tr, s, he, hm, hopen, hlen, hr⟩ := Machine.exists_exec system Machine.anyStep
    (main blankDevice)
    [.open (metaPath 1 1001), .open (dataPath 1), .write 3 [1, 2] 0, .release 3 noRecord]
    (fun tr s => 6 ∈ handlesOf (.dataFile, 1) tr ∧ (record s 0).b_csm_length = 2 ∧
      (lfsRelease s 6 noRecord).any (fun s' => decide ((record s' 0).b_csm_length = 0 ∧
        ¬ OwnField s .dataFile (slotOf s .dataFile 6) (1032 + 8) ∧
        s'.fd.image (1032 + 8) ≠ s.fd.image (1032 + 8))) = true) (by decide +kernel)
  obtain ⟨s', hr, h⟩ := (Option.any_eq_true _ _).1 hr
  obtain ⟨hzero, hown, hne⟩ := of_decide_eq_true h
  exact ⟨tr, s, s', he, hm, hopen, hr, hlen, hzero, fun h => hne (h _ hown)⟩

end Rewrite
