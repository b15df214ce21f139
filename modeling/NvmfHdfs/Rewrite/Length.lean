/-
  The length of a file.

  `lfs_write` adds the number of bytes to `pFd[fh].size`, `lfs_release` stores
  that sum in the record of the slot, and `lfs_getattrr` reports it from the
  first used slot whose record names the block.

    - `lengthOk`: the calls after the first open that leave the handle, the
      record and the slot of the file to it;
    - `LengthInv`: the sum travels from the handle into the record;
    - `reported_length_iff`: in every such run the length reported is the
      furthest end of a write exactly if the sum of the sizes is;
    - `length_of_overwrite`: the same byte written twice.
-/
import NvmfHdfs.Rewrite.Ownership

namespace Rewrite

open CInt Layout Bitmap Path Records

variable {s s' s₁ s₂ : Lfs} {m image : Image} {c : Call} {r : Reply} {tr : Trace} {k : Kind}
  {b : ℤ} {fh i : ℕ} {path : List Char}

/-! ## Writes and releases of a run -/

/-- The writes on a handle: offset and size. -/
def writesOn (fh : ℕ) (tr : Trace) : List (ℕ × ℕ) :=
  tr.filterMap fun e =>
    match e.input with
    | .write fh' buf offset => if fh' = fh then some (offset, buf.length) else none
    | _ => none

theorem writesOn_write (s : Lfs) (fh fh' offset : ℕ) (buf : List UInt8) (r : Reply) (tr : Trace) :
    writesOn fh (⟨s, .write fh' buf offset, r⟩ :: tr) =
      if fh' = fh then (offset, buf.length) :: writesOn fh tr else writesOn fh tr := by
  unfold writesOn
  rw [List.filterMap_cons]
  dsimp only
  by_cases h : fh' = fh
  · rw [if_pos h, if_pos h]
  · rw [if_neg h, if_neg h]

/-- The sum of the sizes. -/
def total (ws : List (ℕ × ℕ)) : ℕ := (ws.map Prod.snd).sum

/-- The maximum of offset + size. -/
def furthest (ws : List (ℕ × ℕ)) : ℕ := (ws.map fun w => w.1 + w.2).foldr max 0

/-- The handle was released after its last write, and no other handle was released into its
    slot since. -/
def synced (fh i : ℕ) : Trace → Bool
  | [] => false
  | e :: tr =>
    match e.input with
    | .write fh' _ _ => decide (fh' ≠ fh) && synced fh i tr
    | .release fh' _ =>
      decide (fh' = fh) || decide ((e.pre.pFd fh').data_block_id ≠ i) && synced fh i tr
    | _ => synced fh i tr

/-- Nothing is stored into the byte of the bitmap that holds bit `i`. -/
def MissesBit (s : Lfs) (c : Call) (i : ℕ) : Prop :=
  Misses s c (bitmapOffset + i / 8) (bitmapOffset + i / 8 + 1)

/-- The calls that leave the file of kind `k` and id `b`, in slot `i` with handle `fh`, alone:
    * opening it finds it in its slot;
    * a new file gets neither its handle nor, as a data file, rewrites the bitmap without
      its slot;
    * it is released while its handle still has its slot, and a release of another handle
      stores no record of the block in a slot before;
    * nothing is written into its bit or the records up to its own. -/
def lengthOk (k : Kind) (b : ℤ) (i fh : ℕ) : Machine.Guard Lfs Call Reply := fun _ s c =>
  match c with
  | .open path => ∀ x ∈ parsePath path, (x = (k, b) → s.finds k b = some i) ∧
      (s.finds x.1 x.2 = none → ∀ j ∈ newSlot s x.1, s.handle x.1 j ≠ fh ∧
        (x.1 = .dataFile → bit s.p_bitmap i = true ∨ j = i))
  | .write .. => MissesBit s c i ∧ Misses s c s.infoOff (s.infoOff + (i + 1) * sizeofBlockInfo)
  | .release fh' _ => (fh' = fh → (s.pFd fh).data_block_id = i) ∧
      (fh' ≠ fh → MissesBit s c i ∧ ((s.pFd fh').data_block_id < i →
        toU32 (s.pFd fh').block_id ≠ toU32 b))
  | .getattr _ | .readdir _ | .read .. => True

instance (k : Kind) (b : ℤ) (i fh : ℕ) (tr : Trace) (s : Lfs) :
    ∀ c, Decidable (lengthOk k b i fh tr s c)
  | .open path => inferInstanceAs (Decidable (∀ x ∈ parsePath path,
      (x = (k, b) → s.finds k b = some i) ∧
      (s.finds x.1 x.2 = none → ∀ j ∈ newSlot s x.1, s.handle x.1 j ≠ fh ∧
        (x.1 = .dataFile → bit s.p_bitmap i = true ∨ j = i))))
  | .write fh' buf offset => inferInstanceAs (Decidable
      (Misses s (.write fh' buf offset) _ _ ∧ Misses s (.write fh' buf offset) _ _))
  | .release fh' bi => inferInstanceAs (Decidable ((fh' = fh → (s.pFd fh).data_block_id = i) ∧
      (fh' ≠ fh → Misses s (.release fh' bi) _ _ ∧ ((s.pFd fh').data_block_id < i →
        toU32 (s.pFd fh').block_id ≠ toU32 b))))
  | .getattr _ | .readdir _ | .read .. => .isTrue trivial

/-! ## Where releases land -/

/-- The slot of a handle is one of the slots, or the `-1` of a meta file opened again. -/
def SlotInv (s : Lfs) : Prop :=
  ∀ fh, (s.pFd fh).data_block_id ≤ s.num ∨ (s.pFd fh).data_block_id = toU64 (-1)

theorem SlotInv.update {e : FileFd} {j n : ℕ} (H : SlotInv s)
    (h : e.data_block_id ≤ s.num ∨ e.data_block_id = toU64 (-1)) (hn : n = s.num) (fh : ℕ) :
    (Function.update s.pFd j e fh).data_block_id ≤ n ∨
      (Function.update s.pFd j e fh).data_block_id = toU64 (-1) := by
  subst hn
  rw [Function.update_apply]
  split_ifs with hj
  · exact h
  · exact H fh

theorem SlotInv.step (H : SlotInv s) (ho : Outcome s c r s') : SlotInv s' := by
  have hn := ho.num
  cases ho with
  | @getattrHit _ k _ _ _ _ _ _ _ _ _ _ => cases k <;> exact H
  | @openFound _ k _ i hp hf huse =>
    refine H.update ?_ hn
    cases k with
    | metaFile => exact .inr rfl
    | dataFile => exact .inl (finds_eq_some (finds_of_found hf huse)).1
  | openMeta hp hf hn' hlen hfree =>
    exact H.update (.inl (slot_lt_num hn' hfree).le) hn
  | openData hp hf hn' hfree =>
    exact H.update (.inl (slot_lt_num hn' hfree).le) hn
  | write => exact H.update (H _) hn
  | _ => exact H

theorem Mount.slotInv {ok : Machine.Guard Lfs Call Reply} (h : Mount image ok tr s) :
    SlotInv s := by
  obtain ⟨s₀, hm, hr⟩ := h
  refine hr.invariant_state SlotInv ?_ fun ih _ hst => ih.step (step_outcome hst)
  obtain ⟨len, -, rfl⟩ := main_eq_some hm
  exact fun _ => .inl (Nat.zero_le _)

/-- The `block_info` table starts behind the start of the bitmap. -/
structure TableStart (s : Lfs) : Prop where
  block : s.block_size < 2 ^ 32
  info : infoOffset s.dev_size s.block_size = some s.infoOff
  gt : bitmapOffset < s.infoOff
  lt : s.infoOff < 2 ^ 32

/-- Where `lfs_release` stores anything, the table has a start. -/
theorem tableStart_of_release {off : ℕ} (hb : s.block_size < 2 ^ 32)
    (ho : releaseOffset s fh = some off) : TableStart s := by
  obtain ⟨info, hinfo, -⟩ := Option.bind_eq_some_iff.1 ho
  have hoff : s.infoOff = info := by rw [Lfs.infoOff, hinfo, Option.getD_some]
  rw [← hoff] at hinfo
  obtain ⟨space, hspace, -⟩ := Option.bind_eq_some_iff.1 hinfo
  obtain ⟨len, hlen, -⟩ := Option.bind_eq_some_iff.1 hspace
  obtain ⟨h1, h2⟩ := infoOffset_gt hinfo hlen
  exact ⟨hb, hinfo, by omega, h2⟩

/-- A release through a handle with a slot stores the record of the slot. -/
theorem TableStart.release_slot (T : TableStart s) {off : ℕ}
    (hd : (s.pFd fh).data_block_id ≤ s.num) (ho : releaseOffset s fh = some off) :
    off = s.infoOff + (s.pFd fh).data_block_id * sizeofBlockInfo := by
  unfold releaseOffset at ho
  rw [bind_of_eq_some T.info] at ho
  have hlt : s.num * sizeofBlockExtraInfo < 2 ^ 64 := blockNum_mul_lt (by
    have h := T.block
    have h3 : blockInfoSize = 4129 := rfl
    omega)
  have h2 := T.lt
  rw [← Option.some.inj ho, toU64_of_lt]
  unfold sizeofBlockInfo sizeofBlockExtraInfo at *
  omega

/-- A release through a handle that has lost its slot stores a record before the table. -/
theorem TableStart.release_lost (T : TableStart s) {off : ℕ}
    (hd : (s.pFd fh).data_block_id = toU64 (-1)) (ho : releaseOffset s fh = some off) :
    off + sizeofBlockInfo = s.infoOff := by
  unfold releaseOffset at ho
  rw [bind_of_eq_some T.info, hd] at ho
  have h1 := T.gt
  have h2 := T.lt
  have hoff := Option.some.inj ho
  rw [← hoff]
  unfold toU64 sizeofBlockInfo bitmapOffset sizeofSuperBlock at *
  omega

/-- The `block_info` table lies behind the bitmap. -/
structure TableAt (s : Lfs) : Prop where
  block : s.block_size < 2 ^ 32
  info : infoOffset s.dev_size s.block_size = some s.infoOff
  gt : bitmapOffset + s.p_bitmap.length < s.infoOff
  lt : s.infoOff < 2 ^ 32

theorem Sound.tableAt (S : Sound s) (hb : s.block_size < 2 ^ 32) {off : ℕ}
    (h : infoOffset s.dev_size s.block_size = some off) : TableAt s := by
  have hoff : s.infoOff = off := by rw [Lfs.infoOff, h, Option.getD_some]
  rw [← hoff] at h
  obtain ⟨h1, h2⟩ := infoOffset_gt h S.write
  exact ⟨hb, h, h1, h2⟩

/-- A state in which a slot has an area has its table behind the bitmap. -/
theorem Sound.tableAt_of_area (S : Sound s) (hb : s.block_size < 2 ^ 32) {off : ℕ}
    (h : areaOffset s k i = some off) : TableAt s := by
  obtain ⟨d, hd, -⟩ := Option.bind_eq_some_iff.1 h
  obtain ⟨info, hinfo, -⟩ := dataOffset_gt hd
  exact S.tableAt hb hinfo

theorem TableAt.step (T : TableAt s) (S : Sound s) (ho : Outcome s c r s') : TableAt s' := by
  constructor
  · rw [ho.block_size]; exact T.block
  · rw [ho.dev_size, ho.block_size, ho.infoOff]; exact T.info
  · rw [ho.infoOff, ho.bitmap_length S]; exact T.gt
  · rw [ho.infoOff]; exact T.lt

theorem TableAt.start (T : TableAt s) : TableStart s := by
  have := T.gt
  exact ⟨T.block, T.info, by omega, T.lt⟩

/-- A release through a handle with a slot leaves the bitmap. -/
theorem TableAt.release_misses {bi : BlockInfo} (T : TableAt s)
    (hd : (s.pFd fh).data_block_id ≤ s.num) :
    Misses s (.release fh bi) bitmapOffset (bitmapEnd s.count) := by
  intro x hx
  obtain ⟨off, hro, rfl⟩ := Option.map_eq_some_iff.1 hx
  have hoff := T.start.release_slot hd hro
  have hgt := T.gt
  have hle := count_le_bits s
  right; right
  dsimp only
  unfold bitmapEnd
  omega

/-! ## The invariant -/

/-- The value of `flag` for a kind of files. -/
def flagOf : Kind → ℕ
  | .metaFile => 0
  | .dataFile => 1

/-- The record of slot `j`. -/
def record (s : Lfs) (j : ℕ) : BlockInfo := infoAt s.fd.image s.infoOff j

/-- The handle belongs to the file and holds the sum, the slot is marked, no record before
    its own names the block, and its own is up to date once it is synced. -/
structure LengthInv (k : Kind) (b : ℤ) (i fh : ℕ) (tr : Trace) (s : Lfs) : Prop where
  sound : Sound s
  table : TableAt s
  slotInv : SlotInv s
  lt : i < s.count
  block_id : (s.pFd fh).block_id = toU64 b
  flag : (s.pFd fh).flag = flagOf k
  size : (s.pFd fh).size = total (writesOn fh tr) % 2 ^ 64
  stored : diskBit s.fd.image i = true
  cached : k = .dataFile → bit s.p_bitmap i = true
  before : ∀ j < i, (record s j).b_block_id ≠ toU32 b
  recorded : synced fh i tr = true → (record s i).b_block_id = toU32 b ∧
    lengthOf (record s i) k = total (writesOn fh tr) % 2 ^ 64

/-- A release stores the id of the handle. -/
theorem releaseInfo_block_id (e : FileFd) (bi : BlockInfo) :
    (BlockInfo.decode (releaseInfo e bi).encode).b_block_id = toU32 e.block_id := by
  have hmod := Nat.mod_eq_of_lt (toU32_lt e.block_id)
  rw [BlockInfo.decode_encode, releaseInfo]
  split_ifs
  · exact hmod
  · exact hmod

/-- A release stores the length of the handle, in the field of its kind. -/
theorem releaseInfo_length {e : FileFd} (bi : BlockInfo) (hflag : e.flag = flagOf k) :
    lengthOf (BlockInfo.decode (releaseInfo e bi).encode) k = e.size % 2 ^ 64 := by
  rw [BlockInfo.decode_encode, releaseInfo, hflag]
  cases k with
  | metaFile => rfl
  | dataFile => rfl

/-- The records are those of the image. -/
theorem record_of_image (hinfo : s'.infoOff = s.infoOff) (himage : s'.fd.image = s.fd.image)
    (j : ℕ) : record s' j = record s j := by
  rw [record, record, hinfo, himage]

/-- The records survive a new bitmap. -/
theorem TableAt.record_alloc (T : TableAt s) {p : List UInt8} (hp : p.length = s.p_bitmap.length)
    (hinfo : s'.infoOff = s.infoOff) (himage : s'.fd.image = s.fd.image.patch bitmapOffset p)
    (j : ℕ) : record s' j = record s j := by
  have := T.gt
  rw [record, record, hinfo, himage]
  exact infoAt_patch_disjoint (.inl (by rw [hp]; omega))

/-- The records survive a call that stores nothing into them. -/
theorem record_of_misses {n : ℕ} (ho : Outcome s c r s') (hc : ∀ path, c ≠ .open path)
    (hm : Misses s c s.infoOff (s.infoOff + n * sizeofBlockInfo)) :
    ∀ j < n, record s' j = record s j := by
  intro j hj
  have hmul : (j + 1) * sizeofBlockInfo ≤ n * sizeofBlockInfo := Nat.mul_le_mul_right _ hj
  rw [Nat.succ_mul] at hmul
  rw [record, record, ho.infoOff, infoAt, infoAt]
  congr 1
  exact Image.slice_congr fun a h1 h2 => ho.image_of_misses hm hc (by omega) (by omega)

theorem diskBit_of_missesBit (ho : Outcome s c r s') (hc : ∀ path, c ≠ .open path)
    (hm : MissesBit s c i) : diskBit s'.fd.image i = diskBit s.fd.image i :=
  diskBit_congr (ho.image_of_misses hm hc le_rfl (by omega))

/-- A release leaves the records of the other slots. -/
theorem TableAt.record_release (T : TableAt s) {off j : ℕ} {bs : List UInt8}
    (hslot : (s.pFd fh).data_block_id ≤ s.num ∨ (s.pFd fh).data_block_id = toU64 (-1))
    (hbs : bs.length = sizeofBlockInfo) (ho : releaseOffset s fh = some off)
    (hj : (s.pFd fh).data_block_id ≠ j) :
    infoAt (m.patch off bs) s.infoOff j = infoAt m s.infoOff j := by
  rcases hslot with hd | hd
  · rw [T.start.release_slot hd ho]
    refine infoAt_patch_disjoint ?_
    rw [hbs]
    rcases Nat.lt_or_gt_of_ne hj with h | h
    · have hmul : ((s.pFd fh).data_block_id + 1) * sizeofBlockInfo ≤ j * sizeofBlockInfo :=
        Nat.mul_le_mul_right _ h
      rw [Nat.succ_mul] at hmul
      left; omega
    · have hmul : (j + 1) * sizeofBlockInfo ≤ (s.pFd fh).data_block_id * sizeofBlockInfo :=
        Nat.mul_le_mul_right _ h
      rw [Nat.succ_mul] at hmul
      right; omega
  · have := T.start.release_lost hd ho
    exact infoAt_patch_disjoint (.inl (by rw [hbs]; omega))

/-- After a release the records of the other slots are what they were. -/
theorem TableAt.record_other (T : TableAt s) {bi : BlockInfo} {j : ℕ}
    (hslot : (s.pFd fh).data_block_id ≤ s.num ∨ (s.pFd fh).data_block_id = toU64 (-1))
    (ho : Outcome s (.release fh bi) r s') (hj : (s.pFd fh).data_block_id ≠ j) :
    record s' j = record s j := by
  have hinfo := ho.infoOff
  cases ho with
  | @release _ _ off hro hwl =>
    rw [record, hinfo]
    exact T.record_release hslot (BlockInfo.length_encode _) hro hj

/-- After a release the record of its slot is the one stored. -/
theorem TableAt.record_self (T : TableAt s) {bi : BlockInfo}
    (hle : (s.pFd fh).data_block_id ≤ s.num) (ho : Outcome s (.release fh bi) r s') :
    record s' (s.pFd fh).data_block_id = BlockInfo.decode (releaseInfo (s.pFd fh) bi).encode := by
  have hinfo := ho.infoOff
  cases ho with
  | @release _ _ off hro hwl =>
    rw [record, hinfo]
    dsimp only
    rw [T.start.release_slot hle hro]
    exact infoAt_patch_same _

/-- A release stores behind the bitmap. -/
theorem TableAt.diskBit_release (T : TableAt s) {bi : BlockInfo}
    (hle : (s.pFd fh).data_block_id ≤ s.num) (hi : i < s.count)
    (ho : Outcome s (.release fh bi) r s') : diskBit s'.fd.image i = diskBit s.fd.image i := by
  cases ho with
  | @release _ _ off hro hwl =>
    have hoff := T.start.release_slot hle hro
    have hgt := T.gt
    have hbits := hi.trans_le (count_le_bits s)
    refine diskBit_congr (Image.patch_of_lt ?_)
    omega

theorem release_pFd {bi : BlockInfo} (ho : Outcome s (.release fh bi) r s') :
    s'.pFd = s.pFd ∧ s'.p_bitmap = s.p_bitmap := by
  cases ho
  exact ⟨rfl, rfl⟩

namespace LengthInv
variable (H : LengthInv k b i fh tr s)
include H

/-- A call that leaves the handle, the bit and the records of the file alone. -/
theorem quiet (ho : Outcome s c r s') (hid : (s'.pFd fh).block_id = (s.pFd fh).block_id)
    (hflag : (s'.pFd fh).flag = (s.pFd fh).flag) (hsize : (s'.pFd fh).size = (s.pFd fh).size)
    (hbit : diskBit s'.fd.image i = true) (hcached : k = .dataFile → bit s'.p_bitmap i = true)
    (hrec : ∀ j ≤ i, record s' j = record s j)
    (hw : writesOn fh (⟨s, c, r⟩ :: tr) = writesOn fh tr)
    (hsy : synced fh i (⟨s, c, r⟩ :: tr) = true → synced fh i tr = true) :
    LengthInv k b i fh (⟨s, c, r⟩ :: tr) s' := by
  refine ⟨H.sound.step ho, H.table.step H.sound ho, H.slotInv.step ho, ?_, ?_, ?_, ?_, hbit,
    hcached, ?_, ?_⟩
  · rw [ho.count H.sound]; exact H.lt
  · rw [hid, H.block_id]
  · rw [hflag, H.flag]
  · rw [hsize, hw, H.size]
  · intro j hj; rw [hrec j hj.le]; exact H.before j hj
  · intro h; rw [hrec i le_rfl, hw]; exact H.recorded (hsy h)

/-- Filling a table entry or looking a file up changes nothing about the file. -/
theorem still (ho : Outcome s c r s') (himage : s'.fd.image = s.fd.image)
    (hp : s'.p_bitmap = s.p_bitmap) (hid : (s'.pFd fh).block_id = (s.pFd fh).block_id)
    (hflag : (s'.pFd fh).flag = (s.pFd fh).flag) (hsize : (s'.pFd fh).size = (s.pFd fh).size)
    (hw : writesOn fh (⟨s, c, r⟩ :: tr) = writesOn fh tr)
    (hsy : synced fh i (⟨s, c, r⟩ :: tr) = true → synced fh i tr = true) :
    LengthInv k b i fh (⟨s, c, r⟩ :: tr) s' := by
  refine H.quiet ho hid hflag hsize ?_ ?_ ?_ hw hsy
  · rw [himage]; exact H.stored
  · rw [hp]; exact H.cached
  · exact fun j _ => record_of_image ho.infoOff himage j

/-- A new file with another handle, after which the slot is still marked. -/
theorem alloc {fh' : ℕ} {e : FileFd} {p : List UInt8}
    (ho : Outcome s (.open path) (.opened fh') s')
    (himage : s'.fd.image = s.fd.image.patch bitmapOffset p)
    (hplen : p.length = s.p_bitmap.length) (hbit : bit p i = true)
    (hcached : k = .dataFile → bit s'.p_bitmap i = true)
    (hfd : s'.pFd = Function.update s.pFd fh' e) (hne : fh' ≠ fh) :
    LengthInv k b i fh (⟨s, .open path, .opened fh'⟩ :: tr) s' := by
  have hsame : s'.pFd fh = s.pFd fh := by rw [hfd, Function.update_of_ne hne.symm]
  refine H.quiet ho (by rw [hsame]) (by rw [hsame]) (by rw [hsame]) ?_ hcached ?_ rfl id
  · rw [himage, diskBit_write hplen H.lt]; exact hbit
  · exact fun j _ => H.table.record_alloc hplen ho.infoOff himage j

theorem write {fh' offset : ℕ} {buf : List UInt8} {r : Reply}
    (hok : lengthOk k b i fh tr s (.write fh' buf offset))
    (ho : Outcome s (.write fh' buf offset) r s') :
    LengthInv k b i fh (⟨s, .write fh' buf offset, r⟩ :: tr) s' := by
  have hbit := diskBit_of_missesBit ho nofun hok.1
  have hrec : ∀ j ≤ i, record s' j = record s j :=
    fun j hj => record_of_misses ho nofun hok.2 j (Nat.lt_succ_of_le hj)
  obtain ⟨fd, -, rfl, rfl⟩ := ho.write_inv
  by_cases hf : fh' = fh
  · subst hf
    refine ⟨H.sound.step ho, H.table.step H.sound ho, H.slotInv.step ho, ?_, ?_, ?_, ?_,
      hbit.trans H.stored, H.cached, ?_, ?_⟩
    · rw [ho.count H.sound]; exact H.lt
    · dsimp only; rw [Function.update_self]; exact H.block_id
    · dsimp only; rw [Function.update_self]; exact H.flag
    · dsimp only
      rw [Function.update_self, toU64_natCast, H.size, writesOn_write, if_pos rfl]
      simp only [total, List.map_cons, List.sum_cons]
      omega
    · intro j hj; rw [hrec j hj.le]; exact H.before j hj
    · intro h; simp [synced] at h
  · have hsame : ∀ e, Function.update s.pFd fh' e fh = s.pFd fh :=
      fun e => Function.update_of_ne (Ne.symm hf) ..
    refine H.quiet ho ?_ ?_ ?_ (hbit.trans H.stored) H.cached hrec ?_ ?_
    · dsimp only; rw [hsame]
    · dsimp only; rw [hsame]
    · dsimp only; rw [hsame]
    · rw [writesOn_write, if_neg hf]
    · intro h; simpa [synced, hf] using h

/-- A release of the file stores its record. -/
theorem release_own {bi : BlockInfo} {r : Reply} (hd : (s.pFd fh).data_block_id = i)
    (ho : Outcome s (.release fh bi) r s') :
    LengthInv k b i fh (⟨s, .release fh bi, r⟩ :: tr) s' := by
  have hle : (s.pFd fh).data_block_id ≤ s.num := hd ▸ H.lt.le.trans (count_le_num s)
  have hself := H.table.record_self hle ho
  rw [hd] at hself
  obtain ⟨hfd, hcached⟩ := release_pFd ho
  refine ⟨H.sound.step ho, H.table.step H.sound ho, H.slotInv.step ho, ?_, ?_, ?_, ?_,
    (H.table.diskBit_release hle H.lt ho).trans H.stored, hcached ▸ H.cached, ?_, ?_⟩
  · rw [ho.count H.sound]; exact H.lt
  · rw [hfd]; exact H.block_id
  · rw [hfd]; exact H.flag
  · rw [hfd]; exact H.size
  · intro j hj
    rw [H.table.record_other (H.slotInv fh) ho (by omega)]
    exact H.before j hj
  · intro _
    rw [hself]
    refine ⟨?_, ?_⟩
    · rw [releaseInfo_block_id, H.block_id, toU32_toU64]
    · rw [releaseInfo_length bi H.flag, H.size, Nat.mod_mod]; rfl

/-- A release of another file leaves the record, or stores another one's id before it. -/
theorem release_other {fh' : ℕ} {bi : BlockInfo} {r : Reply} (hf : fh' ≠ fh)
    (hok : lengthOk k b i fh tr s (.release fh' bi)) (ho : Outcome s (.release fh' bi) r s') :
    LengthInv k b i fh (⟨s, .release fh' bi, r⟩ :: tr) s' := by
  obtain ⟨hmiss, hid⟩ := hok.2 hf
  have hbit := diskBit_of_missesBit ho (by rintro _ ⟨⟩) hmiss
  have hother := fun j => H.table.record_other (j := j) (H.slotInv fh') ho
  obtain ⟨hfd, hcached⟩ := release_pFd ho
  refine ⟨H.sound.step ho, H.table.step H.sound ho, H.slotInv.step ho, ?_, ?_, ?_, ?_,
    hbit.trans H.stored, hcached ▸ H.cached, ?_, ?_⟩
  · rw [ho.count H.sound]; exact H.lt
  · rw [hfd]; exact H.block_id
  · rw [hfd]; exact H.flag
  · rw [hfd]; exact H.size
  · intro j hj
    by_cases hd : (s.pFd fh').data_block_id = j
    · subst hd
      rw [H.table.record_self (hj.le.trans (H.lt.le.trans (count_le_num s))) ho,
        releaseInfo_block_id]
      exact hid hj
    · rw [hother j hd]
      exact H.before j hj
  · intro hsy
    have hsy' : (s.pFd fh').data_block_id ≠ i ∧ synced fh i tr = true := by
      simpa [synced, hf] using hsy
    rw [hother i hsy'.1]
    exact H.recorded hsy'.2

theorem release {fh' : ℕ} {bi : BlockInfo} {r : Reply}
    (hok : lengthOk k b i fh tr s (.release fh' bi)) (ho : Outcome s (.release fh' bi) r s') :
    LengthInv k b i fh (⟨s, .release fh' bi, r⟩ :: tr) s' := by
  by_cases hf : fh' = fh
  · subst hf
    exact H.release_own (hok.1 rfl) ho
  · exact H.release_other hf hok ho

/-- **A step that leaves the file alone keeps the invariant.** -/
theorem step (hok : lengthOk k b i fh tr s c) (ho : Outcome s c r s') :
    LengthInv k b i fh (⟨s, c, r⟩ :: tr) s' := by
  have hstill := H.still ho
  cases ho with
  | getattrMiss => exact hstill rfl rfl rfl rfl rfl rfl id
  | @getattrHit _ k _ _ _ _ _ _ _ _ _ _ =>
    cases k <;> exact hstill rfl rfl rfl rfl rfl rfl id
  | readdirOther => exact hstill rfl rfl rfl rfl rfl rfl id
  | readdirRoot => exact hstill rfl rfl rfl rfl rfl rfl id
  | read hs hr => exact hstill (by rw [seekTo_eq_some hs]) rfl rfl rfl rfl rfl id
  | write hs hw => exact H.write hok (.write hs hw)
  | release hro hw => exact H.release hok (.release hro hw)
  | @openFound _ k' _ j =>
    -- the entry keeps all but `fd` and `data_block_id`
    have hkeep : ∀ {α : Type} (g : FileFd → α) (e : FileFd), g e = g (s.pFd (s.handle k' j)) →
        g (Function.update s.pFd (s.handle k' j) e fh) = g (s.pFd fh) :=
      fun g e h => update_keeps g h fh
    refine hstill rfl rfl ?_ ?_ ?_ rfl id
    · exact hkeep FileFd.block_id _ rfl
    · exact hkeep FileFd.flag _ rfl
    · exact hkeep FileFd.size _ rfl
  | openMeta hp hf hn hlen hfree hoff hset hw hwl =>
    obtain ⟨-, htake, hplen, hbit⟩ := H.sound.metaSlot hn hlen hfree hset hw
    obtain ⟨hne, -⟩ := (hok _ hp).2 (finds_of_meta hf) _ (newSlot_meta hn hfree hset)
    refine H.alloc (.openMeta hp hf hn hlen hfree hoff hset hw hwl) (by dsimp only; rw [htake])
      hplen ?_ H.cached rfl hne
    rw [hbit i H.lt, H.stored, Bool.true_or]
  | openData hp hf hn hfree hoff hset hw hwl =>
    obtain ⟨-, htake, hplen, hbit⟩ := H.sound.dataSlot hn hfree hset hw
    obtain ⟨hne, hmark⟩ := (hok _ hp).2 (finds_of_data hf) _ (newSlot_data hn hfree)
    refine H.alloc (.openData hp hf hn hfree hoff hset hw hwl) (by dsimp only; rw [htake])
      hplen ?_ (fun hk => ?_) rfl hne
    · rw [hbit i]
      rcases hmark rfl with h | rfl
      · rw [h, Bool.true_or]
      · simp
    · dsimp only
      rw [hbit i, H.cached hk, Bool.true_or]

end LengthInv

/-! ## The first open and the length reported -/

/-- After the first open of a file that is not in its table, on a handle never written, and
    with no record of the block in a slot before. -/
theorem lengthInv_open (S : Sound s₁) (hbl : s₁.block_size < 2 ^ 32) (hI : SlotInv s₁)
    (hp : parsePath path = some (k, b)) (hnew : s₁.finds k b = none)
    (ho : lfsOpen s₁ path = some (fh, s₂)) (hsize : (s₁.pFd fh).size = 0)
    (hrec : ∀ j < slotOf s₁ k fh, (record s₁ j).b_block_id ≠ toU32 b) :
    LengthInv k b (slotOf s₁ k fh) fh [] s₂ := by
  have ho := open_outcome ho
  have hS := S.step ho
  have hI' := hI.step ho
  have hcount := ho.count S
  have hinfo := ho.infoOff
  have hT := fun h => TableAt.step h S ho
  cases ho with
  | openFound hp' hf huse =>
    cases hp.symm.trans hp'
    cases hnew.symm.trans (finds_of_found hf huse)
  | openMeta hp' hf hn hlen hfree hoff hset hw hwl =>
    cases hp.symm.trans hp'
    rw [slotOf_handle] at hrec ⊢
    obtain ⟨hi, htake, hplen, hbit⟩ := S.metaSlot hn hlen hfree hset hw
    have hlt := (firstFree_eq_some.1 hi).1
    have T := S.tableAt_of_area hbl hoff
    refine ⟨hS, hT T, hI', hcount.symm ▸ hlt, ?_, ?_, ?_, ?_, nofun, ?_, nofun⟩
    · dsimp only; rw [Function.update_self]
    · dsimp only; rw [Function.update_self]; rfl
    · dsimp only; rw [Function.update_self]; exact hsize
    · dsimp only; rw [htake, diskBit_write hplen hlt, hbit _ hlt]; simp
    · intro j hj
      rw [T.record_alloc hplen hinfo (by rw [htake]) j]
      exact hrec j hj
  | openData hp' hf hn hfree hoff hset hw hwl =>
    cases hp.symm.trans hp'
    rw [slotOf_handle] at hrec ⊢
    obtain ⟨hi, htake, hplen, hbit⟩ := S.dataSlot hn hfree hset hw
    have hlt := (firstFree_eq_some.1 hi).1
    have T := S.tableAt_of_area hbl hoff
    refine ⟨hS, hT T, hI', hcount.symm ▸ hlt, ?_, ?_, ?_, ?_, fun _ => ?_, ?_, nofun⟩
    · dsimp only; rw [Function.update_self]
    · dsimp only; rw [Function.update_self]; rfl
    · dsimp only; rw [Function.update_self]; exact hsize
    · dsimp only; rw [htake, diskBit_write hplen hlt, hbit]; simp
    · dsimp only; rw [hbit]; simp
    · intro j hj
      rw [T.record_alloc hplen hinfo (by rw [htake]) j]
      exact hrec j hj

/-- `lfs_getattr` reports the length in the record the scan finds. -/
theorem Sound.st_size {st : Stat} (S : Sound s) (hp : parsePath path = some (k, b))
    (hfound : recordSlot s b = some i) (hg : lfsGetattrr s path = some (st, s')) :
    st.st_size = toI64 (lengthOf (record s i) k) := by
  cases getattr_outcome hg with
  | getattrMiss hp' hoff hn hlen hcov hl =>
    cases hp.symm.trans hp'
    rw [S.infoOff_of hoff hn hlen hcov] at hl
    cases hfound.symm.trans hl
  | @getattrHit _ _ _ off _ _ _ hp' hoff hn hlen hcov hl =>
    cases hp.symm.trans hp'
    rw [S.infoOff_of hoff hn hlen hcov] at hl
    cases hfound.symm.trans hl
    have hinfo : s.infoOff = off := by rw [Lfs.infoOff, hoff, Option.getD_some]
    rw [record, hinfo]

/-- A synced file is reported with the sum of the sizes. -/
theorem LengthInv.reported {st : Stat} (H : LengthInv k b i fh tr s)
    (hsync : synced fh i tr = true) (hp : parsePath path = some (k, b))
    (hg : lfsGetattrr s path = some (st, s')) : st.st_size = toI64 (total (writesOn fh tr)) := by
  obtain ⟨hid, hlen⟩ := H.recorded hsync
  have hfound : recordSlot s b = some i :=
    lookup_eq_some.2 ⟨⟨H.lt, H.stored⟩, hid, fun j hj _ => H.before j hj⟩
  rw [H.sound.st_size hp hfound hg, hlen, toI64_mod]

/-- **The length reported.**  A file is opened for the first time in a mount, its handle is
    written (and released and opened again) in any way, other files are too, and it is
    released last: `lfs_getattr` reports the furthest end of a write exactly if the sum of
    the sizes is the furthest end. -/
theorem reported_length_iff {tr₁ : Trace} {path' : List Char} {st : Stat}
    (hbs : (superBlock image).s_block_size < 2 ^ 31) (h₁ : Mount image Machine.anyStep tr₁ s₁)
    (hp : parsePath path = some (k, b)) (hnew : s₁.finds k b = none)
    (ho : lfsOpen s₁ path = some (fh, s₂)) (hsize : (s₁.pFd fh).size = 0)
    (hrec : ∀ j < slotOf s₁ k fh, (record s₁ j).b_block_id ≠ toU32 b)
    (hr : system.Run (lengthOk k b (slotOf s₁ k fh) fh) s₂ tr s)
    (hsync : synced fh (slotOf s₁ k fh) tr = true) (hp' : parsePath path' = some (k, b))
    (hg : lfsGetattrr s path' = some (st, s')) :
    st.st_size = furthest (writesOn fh tr) ↔
      toI64 (total (writesOn fh tr)) = furthest (writesOn fh tr) := by
  have hbl : s₁.block_size < 2 ^ 32 := by rw [h₁.sizes.2]; exact SuperBlock.s_block_size_lt _
  have H₂ := lengthInv_open (h₁.sound hbs) hbl h₁.slotInv hp hnew ho hsize hrec
  have H := hr.invariant _ H₂ fun ih hok hst => ih.step hok (step_outcome hst)
  rw [H.reported hsync hp' hg]

/-- Opening `/blk_1` on a fresh device, two bytes in order, a release, and `lfs_getattr`. -/
theorem reported_length_iff_in_order : ∃ s₁ s₂ tr s s' st,
    mountExec blankDevice Machine.anyStep [] = some ([], s₁) ∧
    lfsOpen s₁ (dataPath 1) = some (6, s₂) ∧
    Machine.exec system (lengthOk .dataFile 1 0 6)
      [.write 6 [1] 0, .write 6 [2] 1, .release 6 noRecord] ([], s₂) = some (tr, s) ∧
    lfsGetattrr s (dataPath 1) = some (st, s') ∧
    (st.st_size = furthest (writesOn 6 tr) ↔
      toI64 (total (writesOn 6 tr)) = furthest (writesOn 6 tr)) := by
  obtain ⟨tr₁, s₁, he, hm, rfl, hnew, hsize, hslot, ho⟩ :=
    Machine.exists_exec system Machine.anyStep (main blankDevice) []
    (fun tr s => tr = [] ∧ s.finds .dataFile 1 = none ∧ (s.pFd 6).size = 0 ∧
      slotOf s .dataFile 6 = 0 ∧
      (lfsOpen s (dataPath 1)).any (fun o => decide (o.1 = 6) &&
        (Machine.exec system (lengthOk .dataFile 1 0 6)
          [.write 6 [1] 0, .write 6 [2] 1, .release 6 noRecord] ([], o.2)).any fun x =>
            synced 6 0 x.1 && (lfsGetattrr x.2 (dataPath 1)).isSome) = true) (by decide +kernel)
  obtain ⟨⟨fh, s₂⟩, ho, h⟩ := (Option.any_eq_true _ _).1 ho
  obtain ⟨hfh, h⟩ := Bool.and_eq_true_iff.1 h
  obtain rfl : fh = 6 := of_decide_eq_true hfh
  obtain ⟨⟨tr, s⟩, hrun, h⟩ := (Option.any_eq_true _ _).1 h
  obtain ⟨hsync, hg⟩ := Bool.and_eq_true_iff.1 h
  obtain ⟨⟨st, s'⟩, hg⟩ := Option.isSome_iff_exists.1 hg
  refine ⟨s₁, s₂, tr, s, s', st, he, ho, hrun, hg, ?_⟩
  have hp : parsePath (dataPath 1) = some (.dataFile, 1) := by decide +kernel
  rw [← hslot] at hsync hrun
  exact reported_length_iff (by decide +kernel) hm hp hnew ho hsize
    (by rw [hslot]; exact fun j hj => absurd hj (Nat.not_lt_zero j)) (Machine.exec_run .nil hrun)
    hsync hp hg

/-- The byte at 0 written twice: the length reported is 2. -/
theorem length_of_overwrite : ∃ tr s st s',
    mountExec blankDevice Machine.anyStep
      [.open (dataPath 1), .write 6 [1] 0, .write 6 [2] 0, .release 6 noRecord] = some (tr, s) ∧
    Mount blankDevice Machine.anyStep tr s ∧ writesOn 6 tr = [(0, 1), (0, 1)] ∧
    lfsGetattrr s (dataPath 1) = some (st, s') ∧ st.st_size = 2 ∧
    st.st_size ≠ furthest (writesOn 6 tr) := by
  obtain ⟨tr, s, he, hm, hw, hg⟩ := Machine.exists_exec system Machine.anyStep (main blankDevice)
    [.open (dataPath 1), .write 6 [1] 0, .write 6 [2] 0, .release 6 noRecord]
    (fun tr s => writesOn 6 tr = [(0, 1), (0, 1)] ∧
      (lfsGetattrr s (dataPath 1)).map (fun x => x.1.st_size) = some 2) (by decide +kernel)
  obtain ⟨⟨st, s'⟩, hg, hsize⟩ := Option.map_eq_some_iff.1 hg
  dsimp only at hsize
  refine ⟨tr, s, st, s', he, hm, hw, hg, hsize, ?_⟩
  rw [hw, hsize]; decide

end Rewrite
