/-
  What a second mount finds of the first.

  A mount starts with empty tables.  `lfs_getattrr` fills the entry of a file
  from its record, but nothing restores `pFd[fh].dev_offset`, and the data
  branch of `lfs_open` does not look at its table before the first allocation
  (`block_id_use`).

    - `lastByte`: the byte the first mount last wrote at a place of a file;
    - `deviceAfter`: the device it leaves, from what its calls store, and
      `idLeft`: the id it leaves in a record, from its releases;
    - `remount_restores_iff`: `getattr`, `open` and `read` after a remount give
      the bytes back and mark no slot exactly for a meta file whose id is left
      in the record of a marked slot, and whose bytes are left at their offset
      in the file, counted from the start of the device;
    - `remount_loses_data`: one byte of a data file, and one of a meta file.
-/
import NvmfHdfs.Rewrite.Length

namespace Rewrite

open CInt Layout Bitmap Path Records

variable {s s' s₀ : Lfs} {image m : Image} {c : Call} {r : Reply} {tr : Trace} {path : List Char}
  {k : Kind} {b : ℤ} {a i size offset : ℕ} {buf : List UInt8}

/-! ## What the first mount wrote -/

/-- The byte last written at place `x` of a file, through a handle of it. -/
def lastByte (f : Kind × ℤ) : Trace → ℕ → Option UInt8
  | [], _ => none
  | e :: tr, x =>
    match e.input with
    | .write fh buf offset =>
      if fh ∈ handlesOf f tr ∧ offset ≤ x ∧ x < offset + buf.length then buf[x - offset]?
      else lastByte f tr x
    | _ => lastByte f tr x

/-- The bytes are those last written from `offset` on, wherever something was written. -/
def KeepsBytes (tr : Trace) (f : Kind × ℤ) (offset : ℕ) (buf : List UInt8) : Prop :=
  ∀ j < buf.length, ∀ v ∈ lastByte f tr (offset + j), buf[j]? = some v

/-- Bytes of a device are those last written exactly if each of them is. -/
theorem keepsBytes_slice {f : Kind × ℤ} : KeepsBytes tr f offset (m.slice a size) ↔
    ∀ j < size, ∀ v ∈ lastByte f tr (offset + j), m (a + j) = v := by
  unfold KeepsBytes
  rw [Image.length_slice]
  refine forall₄_congr fun j hj v hv => ?_
  rw [Image.getElem?_slice, if_pos hj, Option.some.injEq]

/-! ## What the first mount left on the device -/

/-- The bitmap a new file takes its slot from. -/
def bitmapUsed (s : Lfs) : Kind → Option (List UInt8)
  | .metaFile => (readBitmapSize (toInt s.dev_size) (toInt s.block_size)).map
      (s.fd.image.slice bitmapOffset)
  | .dataFile => some s.p_bitmap

/-- The bitmap `lfs_open` stores for a new file. -/
def bitmapStored (s : Lfs) (k : Kind) : Option (List UInt8) := do
  let bit_size ← s.bitSize
  let data_block_id ← newSlot s k
  let p_bitmap ← bitmapUsed s k
  let (_, p_bitmap) ← bitmapSet data_block_id p_bitmap bit_size
  let len ← bitmapSize s.dev_size s.block_size
  some (p_bitmap.take len)

/-- What a step stores on the device: an address and bytes. -/
def storedBy (e : Machine.Event Lfs Call Reply) : Option (ℕ × List UInt8) :=
  match e.input with
  | .open path => (parsePath path).bind fun x =>
      if (e.pre.finds x.1 x.2).isSome then none
      else (bitmapStored e.pre x.1).map fun p => (bitmapOffset, p)
  | .write _ buf _ => (stores e.pre e.input).map fun x => (x.1, buf)
  | .release fh bi =>
      (stores e.pre e.input).map fun x => (x.1, (releaseInfo (e.pre.pFd fh) bi).encode)
  | .getattr _ | .readdir _ | .read .. => none

/-- The device that calls leave of `image`. -/
def deviceAfter (image : Image) : Trace → Image
  | [] => image
  | e :: tr => (storedBy e).elim (deviceAfter image tr) fun w =>
      (deviceAfter image tr).patch w.1 w.2

theorem storedBy_open {k : Kind} {b : ℤ} (hp : parsePath path = some (k, b)) :
    storedBy ⟨s, .open path, r⟩ = if (s.finds k b).isSome then none
      else (bitmapStored s k).map fun p => (bitmapOffset, p) := by
  unfold storedBy
  dsimp only
  rw [hp, Option.bind_some]

theorem bitmapStored_eq {n len : ℕ} {v : UInt8} {p p' : List UInt8} (hn : s.bitSize = some n)
    (hi : newSlot s k = some i) (hp : bitmapUsed s k = some p)
    (hset : bitmapSet i p n = some (v, p')) (hw : bitmapSize s.dev_size s.block_size = some len) :
    bitmapStored s k = some (p'.take len) := by
  rw [bitmapStored, bind_of_eq_some hn, bind_of_eq_some hi, bind_of_eq_some hp,
    bind_of_eq_some hset]
  dsimp only
  rw [bind_of_eq_some hw]

/-- A step changes on the device what it stores there. -/
theorem Outcome.image_stored (h : Outcome s c r s') : s'.fd.image =
    (storedBy ⟨s, c, r⟩).elim s.fd.image fun w => s.fd.image.patch w.1 w.2 := by
  cases h with
  | @getattrHit _ k => cases k <;> rfl
  | openFound hp hf huse =>
    rw [storedBy_open hp, if_pos (by rw [finds_of_found hf huse]; rfl)]; rfl
  | openMeta hp hf hn hlen hfree hoff hset hw hwl =>
    have hbits := bitmapStored_eq hn (newSlot_meta hn hfree hset) (by rw [bitmapUsed, hlen]; rfl)
      hset hw
    rw [storedBy_open hp, if_neg (by rw [finds_of_meta hf]; simp), hbits]; rfl
  | openData hp hf hn hfree hoff hset hw hwl =>
    have hbits := bitmapStored_eq hn (newSlot_data hn hfree) rfl hset hw
    rw [storedBy_open hp, if_neg (by rw [finds_of_data hf]; simp), hbits]; rfl
  | read hs => rw [seekTo_eq_some hs]; rfl
  | write hs => rw [seekTo_eq_some hs]; rfl
  | release ho => rw [storedBy, stores, ho]; rfl
  | _ => rfl

/-- **The device of a mount** is the first device with what the calls stored, in order. -/
theorem Mount.image_eq {ok : Machine.Guard Lfs Call Reply} (h : Mount image ok tr s) :
    s.fd.image = deviceAfter image tr := by
  obtain ⟨s₀, hm, hr⟩ := h
  refine hr.invariant (fun tr s => s.fd.image = deviceAfter image tr) ?_ ?_
  · obtain ⟨len, -, rfl⟩ := main_eq_some hm
    rfl
  · intro tr s c r s' ih _ hst
    rw [(step_outcome hst).image_stored, ih, deviceAfter]

/-! ## The id left in a record -/

/-- The id in the record at an address. -/
def idAt (m : Image) (a : ℕ) : ℕ := (BlockInfo.decode (m.slice a sizeofBlockInfo)).b_block_id

/-- The id a step releases into the record at address `a`. -/
def releasedId (a : ℕ) (e : Machine.Event Lfs Call Reply) : Option ℕ :=
  match e.input with
  | .release fh _ =>
    if releaseOffset e.pre fh = some a then some (toU32 (e.pre.pFd fh).block_id) else none
  | _ => none

/-- A step stores nothing into the id of the record at address `a`. -/
def MissesId (a : ℕ) (e : Machine.Event Lfs Call Reply) : Prop :=
  ∀ w ∈ storedBy e, w.1 + w.2.length ≤ a + 24 ∨ a + 28 ≤ w.1

instance (a : ℕ) (e : Machine.Event Lfs Call Reply) : Decidable (MissesId a e) :=
  inferInstanceAs (Decidable (∀ w ∈ storedBy e, _ ∨ _))

/-- The id that calls leave in the record at address `a`.
    * A release into the record leaves the id of its handle.
    * A step that stores nothing into the id leaves what was there.
    * Any other step (a write over the record, a release across it) leaves what its bytes say. -/
def idLeft (image : Image) (a : ℕ) : Trace → ℕ
  | [] => idAt image a
  | e :: tr => (releasedId a e).getD <|
      if MissesId a e then idLeft image a tr else idAt (deviceAfter image (e :: tr)) a

theorem idAt_eq (m : Image) (a : ℕ) : idAt m a = Image.leValue (m.slice (a + 24) 4) := by
  show Image.leValue (((m.slice a sizeofBlockInfo).drop 24).take 4) = _
  rw [Image.slice_slice _ _ _ _ _ (by decide)]

/-- What is released into a record is a record with the id. -/
theorem storedBy_of_releasedId {e : Machine.Event Lfs Call Reply} {id : ℕ}
    (h : releasedId a e = some id) : ∃ bs : List UInt8, storedBy e = some (a, bs) ∧
      bs.length = sizeofBlockInfo ∧ (BlockInfo.decode bs).b_block_id = id := by
  obtain ⟨s, c, r⟩ := e
  cases c with
  | release fh bi =>
    unfold releasedId at h
    dsimp only at h
    split_ifs at h with hoff
    obtain rfl := Option.some.inj h
    refine ⟨(releaseInfo (s.pFd fh) bi).encode, ?_, BlockInfo.length_encode _,
      releaseInfo_block_id _ _⟩
    rw [storedBy, stores, hoff]; rfl
  | _ => cases h

/-- **The id left** is the one in the record on the device. -/
theorem idLeft_eq (image : Image) (a : ℕ) (tr : Trace) :
    idLeft image a tr = idAt (deviceAfter image tr) a := by
  induction tr with
  | nil => rfl
  | cons e tr ih =>
    rw [idLeft]
    cases hid : releasedId a e with
    | some id =>
      obtain ⟨bs, hst, hlen, hbs⟩ := storedBy_of_releasedId hid
      rw [Option.getD_some, deviceAfter, hst, Option.elim_some, idAt, ← hlen, Image.slice_patch,
        hbs]
    | none =>
      rw [Option.getD_none]
      split_ifs with hmiss
      · rw [ih, deviceAfter, idAt_eq, idAt_eq]
        cases hst : storedBy e with
        | none => rfl
        | some w =>
          have hw := hmiss w hst
          exact (congrArg _ (Image.slice_patch_disjoint (by omega))).symm
      · rfl

/-! ## What a second mount reads of it -/

/-- `int bit_size` of a mount of a device. -/
def slotCount (sb : SuperBlock) : ℕ := (toInt (blockNum sb.s_dev_size sb.s_block_size)).toNat

/-- The address of record `i`. -/
def recordAddr (sb : SuperBlock) (i : ℕ) : ℕ :=
  (infoOffset sb.s_dev_size sb.s_block_size).getD 0 + i * sizeofBlockInfo

/-- Where a read through a handle with `dev_offset` 0 ends up in a mount in which nothing was
    read or written before: at `offset`, but right behind the bitmap for offset 0, as the seek
    is left out. -/
def strayAddr (sb : SuperBlock) (offset : ℕ) : ℕ :=
  if toU64 offset = 0 then bitmapOffset + (bitmapSize sb.s_dev_size sb.s_block_size).getD 0
  else toU64 offset

/-- What calls on a device must leave of a file for the next mount to restore it.
    * It is a meta file.
    * Its id is left in the record of a slot that is left marked.
    * Each byte last written to the file in the range is left where the read ends up. -/
structure Restorable (image : Image) (tr : Trace) (k : Kind) (b : ℤ) (size offset : ℕ) : Prop where
  kind : k = .metaFile
  named : ∃ i < slotCount (superBlock (deviceAfter image tr)),
    diskBit (deviceAfter image tr) i = true ∧
      idLeft image (recordAddr (superBlock (deviceAfter image tr)) i) tr = toU32 b
  bytes : ∀ j < size, ∀ v ∈ lastByte (k, b) tr (offset + j),
    deviceAfter image tr (strayAddr (superBlock (deviceAfter image tr)) offset + j) = v

/-- Mounting a device, then `lfs_getattrr`, `lfs_open` and `lfs_read` of a file: the states
    before and after the open, and the bytes read. -/
def remountRead (image : Image) (path : List Char) (size offset : ℕ) :
    Option (Lfs × Lfs × List UInt8) := do
  let t₀ ← main image
  let (_, t₁) ← lfsGetattrr t₀ path
  let (fh, t₂) ← lfsOpen t₁ path
  let ((_, buf), _) ← lfsRead t₂ fh size offset
  some (t₁, t₂, buf)

/-- No slot is marked on the device that was not. -/
def NoNewBit (s s' : Lfs) : Prop :=
  ∀ i < s.num, diskBit s'.fd.image i = true → diskBit s.fd.image i = true

/-- The state after `lfs_getattr` of a fresh mount of `m`: what it found of the file is in its
    table, and nothing else is in memory. -/
structure Fresh (m : Image) (b : ℤ) (k : Kind) (s : Lfs) : Prop where
  sound : Sound s
  image : s.fd.image = m
  pos : s.fd.pos = bitmapOffset + s.p_bitmap.length
  dev_size : s.dev_size = (superBlock m).s_dev_size
  block_size : s.block_size = (superBlock m).s_block_size
  count : s.count = slotCount (superBlock m)
  bits : ∀ i < s.count, bit s.p_bitmap i = diskBit s.fd.image i
  unused : s.block_id_use = 0
  cursor : s.cur_offset = 0
  handles : ∀ fh, (s.pFd fh).dev_offset = 0
  entry : ∀ i, (s.files k i).block_id = if recordSlot s b = some i then toU64 b else 0

theorem slotCount_eq {n : ℕ} (hd : s.dev_size = (superBlock m).s_dev_size)
    (hb : s.block_size = (superBlock m).s_block_size) (hn : s.bitSize = some n) :
    n = slotCount (superBlock m) := by
  unfold Lfs.bitSize Lfs.num at hn
  rw [hd, hb] at hn
  split_ifs at hn
  exact (Option.some.inj hn).symm

theorem fresh_of_getattr {t₀ t₁ : Lfs} {st : Stat} (hbs : (superBlock m).s_block_size < 2 ^ 31)
    (hm : main m = some t₀) (hp : parsePath path = some (k, b))
    (hg : lfsGetattrr t₀ path = some (st, t₁)) : Fresh m b k t₁ := by
  have S := sound_main hbs hm
  have ho := getattr_outcome hg
  obtain ⟨hd, hb⟩ := main_sizes hm
  have hcount := ho.count S
  have hbits : ∀ i < t₀.count, bit t₀.p_bitmap i = diskBit t₀.fd.image i := fun i => main_bit hm
  obtain ⟨len, -, h₀⟩ := main_eq_some hm
  have hempty : ∀ k i, (t₀.files k i).block_id = 0 := by rw [h₀]; intro k i; cases k <;> rfl
  have hfd : ∀ fh, (t₀.pFd fh).dev_offset = 0 := by rw [h₀]; exact fun _ => rfl
  have huse : t₀.block_id_use = 0 := by rw [h₀]; rfl
  have hcur : t₀.cur_offset = 0 := by rw [h₀]; rfl
  have hrec : t₁.fd.image = t₀.fd.image → recordSlot t₁ b = recordSlot t₀ b := by
    intro h; rw [recordSlot, recordSlot, h, ho.infoOff, hcount]
  have himage : t₀.fd.image = m := by rw [h₀]; rfl
  have hslots : ∀ n len, t₀.bitSize = some n →
      readBitmapSize (toInt t₀.dev_size) (toInt t₀.block_size) = some len →
      (∀ j < n, j / 8 < len) → t₀.count = slotCount (superBlock m) := by
    intro n len hn hlen hcov
    rw [← S.count_of_cover hn hlen hcov, slotCount_eq hd hb hn]
  have hlength : ∀ len, readBitmapSize (toInt t₀.dev_size) (toInt t₀.block_size) = some len →
      bitmapOffset + len = bitmapOffset + t₀.p_bitmap.length := by
    intro len hlen
    rw [Option.some.inj (hlen.symm.trans S.read)]
  have hstep := S.step ho
  cases ho with
  | getattrMiss hp' hoff hn hlen hcov hl =>
    cases hp.symm.trans hp'
    rw [S.infoOff_of hoff hn hlen hcov] at hl
    refine ⟨hstep, himage, hlength _ hlen, hd, hb, hcount.trans (hslots _ _ hn hlen hcov),
      by rw [hcount]; exact hbits, huse, hcur, hfd, fun i => ?_⟩
    rw [hrec rfl, hl, if_neg (by simp)]
    exact hempty k i
  | @getattrHit _ _ _ _ _ _ j hp' hoff hn hlen hcov hl =>
    cases hp.symm.trans hp'
    rw [S.infoOff_of hoff hn hlen hcov] at hl
    refine ⟨hstep, by cases k <;> exact himage, by cases k <;> exact hlength _ hlen,
      by cases k <;> exact hd, by cases k <;> exact hb, hcount.trans (hslots _ _ hn hlen hcov), ?_,
      by cases k <;> exact huse, by cases k <;> exact hcur, by cases k <;> exact hfd,
      fun i => ?_⟩
    · rw [hcount]; cases k <;> exact hbits
    · rw [hrec (by cases k <;> rfl), hl, files_setFile]
      by_cases hij : i = j
      · subst hij; simp
      · rw [if_neg (by simp [hij]), if_neg (by simp [Ne.symm hij])]
        exact (by cases k <;> rfl : _ = _).trans (hempty k i)

namespace Fresh
variable {t t₂ : Lfs} {fh : ℕ}

/-- The meta file of a block with a record is found, and its handle is at 0. -/
theorem open_found (F : Fresh m b .metaFile t) (hp : parsePath path = some (.metaFile, b))
    (hrec : (recordSlot t b).isSome = true) (ho : lfsOpen t path = some (fh, t₂)) :
    t₂.fd = t.fd ∧ t₂.cur_offset = 0 ∧ (t₂.pFd fh).dev_offset = 0 := by
  obtain ⟨i, hi⟩ := Option.isSome_iff_exists.1 hrec
  have hle : i ≤ t.num := by
    obtain ⟨⟨hi', -⟩, -, -⟩ := lookup_eq_some.1 hi
    exact (hi'.le).trans (count_le_num t)
  have hentry : (t.files .metaFile i).block_id = toU64 b := by rw [F.entry, if_pos hi]
  cases open_outcome ho with
  | openFound hp' hf huse =>
    refine ⟨rfl, F.cursor, ?_⟩
    dsimp only
    rw [Function.update_self]
    exact F.handles _
  | openMeta hp' hf =>
    cases hp.symm.trans hp'
    exact absurd hentry (finds_eq_none (finds_of_meta hf) nofun i hle)
  | openData hp' => cases hp.symm.trans hp'

/-- Any other file takes a new slot. -/
theorem open_new (F : Fresh m b k t) (hp : parsePath path = some (k, b)) (hb : b ≠ 0)
    (hrec : ¬ (k = .metaFile ∧ (recordSlot t b).isSome = true))
    (ho : lfsOpen t path = some (fh, t₂)) : ¬ NoNewBit t t₂ := by
  intro hnew
  have hin : ∀ i, i < t.count → i < t.num := fun i hi => hi.trans_le (count_le_num t)
  cases open_outcome ho with
  | @openFound _ _ _ i hp' hf huse =>
    cases hp.symm.trans hp'
    cases k with
    | dataFile => exact huse rfl F.unused
    | metaFile =>
      have hi := (finds_eq_some (finds_of_found hf huse)).2
      rw [F.entry] at hi
      split_ifs at hi with hr
      · exact hrec ⟨rfl, by rw [hr]; rfl⟩
      · exact toU64_ne_zero hp hb hi.symm
  | @openMeta _ _ _ _ _ i _ _ p hp' hf hn hlen hfree hoff hset hw hwl =>
    obtain ⟨hi, htake, hplen, hbit⟩ := F.sound.metaSlot hn hlen hfree hset hw
    obtain ⟨hlt, hclear, -⟩ := firstFree_eq_some.1 hi
    have := hnew i (hin i hlt)
    dsimp only at this
    rw [htake, diskBit_write hplen hlt, hbit i hlt, hclear] at this
    exact absurd (this (by simp)) (by simp)
  | @openData _ _ _ _ i _ _ p hp' hf hn hfree hoff hset hw hwl =>
    obtain ⟨hi, htake, hplen, hbit⟩ := F.sound.dataSlot hn hfree hset hw
    obtain ⟨hlt, hclear, -⟩ := firstFree_eq_some.1 hi
    rw [F.bits i hlt] at hclear
    have := hnew i (hin i hlt)
    dsimp only at this
    rw [htake, diskBit_write hplen hlt, hbit i, hclear] at this
    exact absurd (this (by simp)) (by simp)

/-- `lfs_getattr` has found a record of the file exactly if its id is in the record of a marked
    slot. -/
theorem recordSlot_isSome (F : Fresh m b k t) : (recordSlot t b).isSome = true ↔
    ∃ i < slotCount (superBlock m), diskBit m i = true ∧
      idAt m (recordAddr (superBlock m) i) = toU32 b := by
  have hinfo : t.infoOff =
      (infoOffset (superBlock m).s_dev_size (superBlock m).s_block_size).getD 0 := by
    rw [Lfs.infoOff, F.dev_size, F.block_size]
  rw [recordSlot, F.image, F.count, hinfo, lookup, List.find?_isSome]
  simp only [mem_usedSlots, beq_iff_eq, and_assoc]
  rfl

/-- Where a read through a handle at 0 ends up. -/
theorem strayAddr_eq (F : Fresh m b k t) (offset : ℕ) :
    strayAddr (superBlock m) offset = if toU64 offset = 0 then t.fd.pos else toU64 offset := by
  have hsize : bitmapSize (superBlock m).s_dev_size (superBlock m).s_block_size =
      some t.p_bitmap.length := by
    rw [← F.dev_size, ← F.block_size]; exact F.sound.write
  rw [strayAddr, hsize, Option.getD_some, F.pos]

/-- A read through such a handle. -/
theorem read_stray {t₃ : Lfs} {ret : ℤ} (F : Fresh m b k t) (hfd : t₂.fd = t.fd)
    (hcur : t₂.cur_offset = 0) (hdev : (t₂.pFd fh).dev_offset = 0)
    (hr : lfsRead t₂ fh size offset = some ((ret, buf), t₃)) :
    buf = m.slice (strayAddr (superBlock m) offset) size := by
  obtain ⟨fd, hs, he, -⟩ := (read_outcome hr).read_inv
  rw [(Reply.bytes.inj he).2, seekTo_eq_some hs, devOffset, hdev, hcur, hfd, Nat.zero_add, F.image,
    F.strayAddr_eq]
  dsimp only
  simp only [eq_comm]

end Fresh

theorem not_keepsBytes {f : Kind × ℤ} {v w : UInt8} (h : lastByte f tr 0 = some v) (hne : w ≠ v) :
    ¬ KeepsBytes tr f 0 [w] := by
  intro hk
  have := hk 0 (by simp) v h
  exact hne (by simpa using this)

end Rewrite
