/-
  Opening a new file on a full device.

  `bitmap_availableblockid` stores no slot then, and both programs go on with the
  `-1` that `data_block_id` was initialised with: the entry before the table is
  assigned, `bitmap_set` shifts by `-1`, and `lfs_open` returns 0.  This is no
  defined behaviour (`lfsOpen` is `none` there); `lfsOpenRet` follows what the
  program does on the machines in use.  The entry before the table is a place of
  its own, and `0x01<<-1` some byte, a parameter.

    - `FailsCleanly`: an error is returned and nothing is changed;
    - `full_open_unclean`: that is never so.
-/
import NvmfHdfs.Rewrite.Mount
import NvmfHdfs.Ltils.Mount

open CInt Layout Bitmap Path Records

/-! ## rewrite.c -/

namespace Rewrite

variable {s s' : Lfs} {path : List Char} {k : Kind} {b : ℤ} {fh : ℕ} {ret : ℤ} {byte : UInt8}

/-- The handle of the slot `-1`. -/
def fullHandle (s : Lfs) : Kind → ℕ
  | .metaFile => 2
  | .dataFile => s.num + 1

/-- `bitmap_set(-1, p_bitmap, bit_size)`, where `-1/8` is 0. -/
def setBefore (p_bitmap : List UInt8) (byte : UInt8) : Option (List UInt8) := do
  let p ← p_bitmap[0]?
  some (p_bitmap.set 0 (p ||| byte))

/-- The rest of `lfs_open` with `data_block_id` `-1`, on the bitmap it has looked at. -/
def openFull (byte : UInt8) (s : Lfs) (k : Kind) (b_block_id : ℤ) (p_bitmap : List UInt8)
    (fd : Descriptor) : Option (ℕ × Lfs) := do
  let off ← dataOffset s.dev_size s.block_size
  let p_bitmap ← setBefore p_bitmap byte
  let len ← bitmapSize s.dev_size s.block_size
  let fd ← writeBitmap fd len p_bitmap
  let fh := fullHandle s k
  match k with
  | .metaFile =>
    some (fh, { s with
      fd := fd
      pFd := Function.update s.pFd fh ⟨toU64 b_block_id, toU64 (-1), (s.pFd fh).size,
        toU64 ((off : ℤ) - s.block_size), fh, 0⟩ })
  | .dataFile =>
    some (fh, { s with
      fd := fd
      block_id_use := s.block_id_use + 1
      p_bitmap := p_bitmap
      pFd := Function.update s.pFd fh ⟨toU64 b_block_id, toU64 (-1), (s.pFd fh).size,
        toU64 ((off : ℤ) - s.block_size + 2 * mbSize), fh, 1⟩ })

/-- The lookup of a branch of `lfs_open`. -/
def lookFor (s : Lfs) (b_block_id : ℤ) : Kind → Option (Option ℕ)
  | .metaFile => findFile s.pMeta s.num b_block_id
  | .dataFile => if s.block_id_use ≠ 0 then findFile s.pData s.num b_block_id else some none

/-- The bitmap a branch of `lfs_open` looks at, and the descriptor then. -/
def consult (s : Lfs) : Kind → Option (List UInt8 × Descriptor)
  | .metaFile => readBitmap s.fd (toInt s.dev_size) (toInt s.block_size)
  | .dataFile => some (s.p_bitmap, s.fd)

/-- `lfs_open` with the value it returns, on a full bitmap too. -/
def lfsOpenRet (byte : UInt8) (s : Lfs) (path : List Char) : Option (ℤ × ℕ × Lfs) := do
  let (k, b_block_id) ← parsePath path
  let found ← lookFor s b_block_id k
  match found with
  | some _ => (lfsOpen s path).map fun o => (0, o)
  | none => do
    let bit_size ← s.bitSize
    let (p_bitmap, fd) ← consult s k
    let availablelist ← bitmapAvailableblockid 1 bit_size p_bitmap
    match availablelist with
    | [] => (openFull byte s k b_block_id p_bitmap fd).map fun o => (0, o)
    | _ :: _ => (lfsOpen s path).map fun o => (0, o)

/-- The branch of `lfs_open` for a file that is not in its table. -/
def openNew (s : Lfs) (b_block_id : ℤ) : Kind → Option (ℕ × Lfs)
  | .metaFile => openMetaNew s b_block_id
  | .dataFile => openDataNew s b_block_id

/-- `lfs_open` looks the file up first. -/
theorem lfsOpen_eq (hp : parsePath path = some (k, b)) : ∃ g : ℕ → ℕ × Lfs, lfsOpen s path =
    lookFor s b k >>= fun found => match found with
      | some i => some (g i)
      | none => openNew s b k := by
  rw [lfsOpen, bind_of_eq_some hp]
  cases k with
  | metaFile => exact ⟨_, rfl⟩
  | dataFile =>
    unfold lookFor
    by_cases huse : s.block_id_use ≠ 0
    · dsimp only; rw [if_pos huse, if_pos huse]; exact ⟨_, rfl⟩
    · dsimp only; rw [if_neg huse, if_neg huse]; exact ⟨fun _ => (0, s), rfl⟩

/-- A new file takes the first entry of the list. -/
theorem openNew_eq_some {o : ℕ × Lfs} (h : openNew s b k = some o) : ∃ n p fd i l,
    s.bitSize = some n ∧ consult s k = some (p, fd) ∧
      bitmapAvailableblockid 1 n p = some (i :: l) := by
  cases k with
  | metaFile =>
    obtain ⟨n, hn, h⟩ := Option.bind_eq_some_iff.1 h
    obtain ⟨⟨p, fd⟩, hb, h⟩ := Option.bind_eq_some_iff.1 h
    obtain ⟨l, hl, h⟩ := Option.bind_eq_some_iff.1 h
    obtain ⟨i, hi, -⟩ := Option.bind_eq_some_iff.1 h
    obtain ⟨l, rfl⟩ := List.head?_eq_some_iff.1 hi
    exact ⟨n, p, fd, i, l, hn, hb, hl⟩
  | dataFile =>
    obtain ⟨n, hn, h⟩ := Option.bind_eq_some_iff.1 h
    obtain ⟨l, hl, h⟩ := Option.bind_eq_some_iff.1 h
    obtain ⟨i, hi, -⟩ := Option.bind_eq_some_iff.1 h
    obtain ⟨l, rfl⟩ := List.head?_eq_some_iff.1 hi
    exact ⟨n, _, _, i, l, hn, rfl, hl⟩

/-- Where `lfsOpen` is defined, `lfsOpenRet` agrees with it. -/
theorem lfsOpenRet_of_lfsOpen {o : ℕ × Lfs} (h : lfsOpen s path = some o) :
    lfsOpenRet byte s path = some (0, o) := by
  obtain ⟨⟨k, b⟩, hp, -⟩ := Option.bind_eq_some_iff.1 h
  obtain ⟨g, hg⟩ := lfsOpen_eq (s := s) hp
  have h' := hg.symm.trans h
  obtain ⟨found, hf, h'⟩ := Option.bind_eq_some_iff.1 h'
  rw [lfsOpenRet, bind_of_eq_some hp]
  dsimp only
  rw [bind_of_eq_some hf, h]
  cases found with
  | some i => rfl
  | none =>
    obtain ⟨n, p, fd, i, l, hn, hb, hl⟩ := openNew_eq_some h'
    dsimp only
    rw [bind_of_eq_some hn, bind_of_eq_some hb]
    dsimp only
    rw [bind_of_eq_some hl]
    rfl

/-- Every slot is marked in the bitmap a branch of `lfs_open` looks at. -/
def Full (s : Lfs) (k : Kind) : Prop :=
  ∀ i < s.num, (match k with
    | .metaFile => diskBit s.fd.image i
    | .dataFile => bit s.p_bitmap i) = true

instance : Decidable (Full s k) := inferInstanceAs (Decidable (∀ i < s.num, _ = true))

/-- An outcome of `lfs_open`: an error, and nothing is changed. -/
def FailsCleanly (s : Lfs) (o : Option (ℤ × ℕ × Lfs)) : Prop :=
  ∃ ret fh s', o = some (ret, fh, s') ∧ ret ≠ 0 ∧ s'.fd.image = s.fd.image ∧
    s'.p_bitmap = s.p_bitmap ∧ s'.pMeta = s.pMeta ∧ s'.pData = s.pData ∧ s'.pFd = s.pFd

/-- The allocating branches of `lfs_open` have no defined outcome on a full device. -/
theorem lfsOpen_full (hp : parsePath path = some (k, b)) (hnew : s.finds k b = none)
    (hfull : Full s k) : lfsOpen s path = none := by
  refine Option.eq_none_iff_forall_ne_some.2 ?_
  rintro ⟨fh, t⟩ ho
  have ho := open_outcome ho
  generalize Reply.opened fh = r at ho
  cases ho with
  | openFound hp' hf huse =>
    cases hp.symm.trans hp'
    cases hnew.symm.trans (finds_of_found hf huse)
  | openMeta hp' hf hn hlen hfree hoff hset =>
    cases hp.symm.trans hp'
    obtain ⟨-, -, hclear⟩ := clear_of_firstFree hfree hset
    exact absurd ((hfull _ (slot_lt_num hn hfree)).symm.trans hclear) (by decide)
  | openData hp' hf hn hfree =>
    cases hp.symm.trans hp'
    obtain ⟨-, hclear, -⟩ := firstFree_eq_some.1 hfree
    exact absurd ((hfull _ (slot_lt_num hn hfree)).symm.trans hclear) (by decide)

/-- **What is returned on a full device**: 0, and a handle of the slot `-1`. -/
theorem lfsOpenRet_full (hp : parsePath path = some (k, b)) (hnew : s.finds k b = none)
    (hfull : Full s k) (ho : lfsOpenRet byte s path = some (ret, fh, s')) :
    ret = 0 ∧ fh = fullHandle s k ∧ (s'.pFd fh).data_block_id = toU64 (-1) := by
  have hnone := lfsOpen_full hp hnew hfull
  unfold lfsOpenRet at ho
  rw [bind_of_eq_some hp, hnone] at ho
  obtain ⟨found, -, ho⟩ := Option.bind_eq_some_iff.1 ho
  cases found with
  | some i => cases ho
  | none =>
    obtain ⟨n, -, ho⟩ := Option.bind_eq_some_iff.1 ho
    obtain ⟨⟨p, fd⟩, -, ho⟩ := Option.bind_eq_some_iff.1 ho
    obtain ⟨l, -, ho⟩ := Option.bind_eq_some_iff.1 ho
    cases l with
    | cons i l => cases ho
    | nil =>
      obtain ⟨⟨fh', t⟩, hf, he⟩ := Option.map_eq_some_iff.1 ho
      cases he
      unfold openFull at hf
      obtain ⟨off, -, hf⟩ := Option.bind_eq_some_iff.1 hf
      obtain ⟨p', -, hf⟩ := Option.bind_eq_some_iff.1 hf
      obtain ⟨len, -, hf⟩ := Option.bind_eq_some_iff.1 hf
      obtain ⟨fd', -, hf⟩ := Option.bind_eq_some_iff.1 hf
      cases k with
      | metaFile => cases hf; exact ⟨rfl, rfl, by dsimp only; rw [Function.update_self]⟩
      | dataFile => cases hf; exact ⟨rfl, rfl, by dsimp only; rw [Function.update_self]⟩

end Rewrite

/-! ## ltils.c -/

namespace Ltils

variable {s s' : Lfs} {path : List Char} {k : Kind} {b : ℤ} {fh : ℕ} {ret : ℤ} {byte : UInt8}

/-- `lfs_open` with the value it returns, on a full bitmap too: there the assignments go to the
    entry before the table. -/
def lfsOpenRet (byte : UInt8) (s : Lfs) (path : List Char) : Option (ℤ × ℕ × Lfs) := do
  let (_, b_block_id) ← parsePath path
  let found ← findFile s.file s.num b_block_id
  match found with
  | some _ => (lfsOpen s path).map fun o => (0, o)
  | none => do
    let bit_size ← s.bitSize
    let (p_bitmap, fd) ← readBitmap s.fd (toInt s.dev_size) (toInt s.block_size)
    let availablelist ← bitmapAvailableblockid 1 bit_size p_bitmap
    match availablelist with
    | [] => do
      let p_bitmap ← Rewrite.setBefore p_bitmap byte
      let len ← bitmapSize s.dev_size s.block_size
      let fd ← writeBitmap fd len p_bitmap
      some (0, 2, { s with fd := fd })
    | _ :: _ => (lfsOpen s path).map fun o => (0, o)

/-- Where `lfsOpen` is defined, `lfsOpenRet` agrees with it. -/
theorem lfsOpenRet_of_lfsOpen {o : ℕ × Lfs} (h : lfsOpen s path = some o) :
    lfsOpenRet byte s path = some (0, o) := by
  have h' := h
  obtain ⟨⟨k, b⟩, hp, h'⟩ := Option.bind_eq_some_iff.1 h'
  obtain ⟨found, hf, h'⟩ := Option.bind_eq_some_iff.1 h'
  rw [lfsOpenRet, bind_of_eq_some hp]
  dsimp only
  rw [bind_of_eq_some hf, h]
  cases found with
  | some i => rfl
  | none =>
    obtain ⟨⟨p, fd⟩, hb, h'⟩ := Option.bind_eq_some_iff.1 h'
    obtain ⟨n, hn, h'⟩ := Option.bind_eq_some_iff.1 h'
    have hn : s.bitSize = some n := hn
    obtain ⟨l, hl, h'⟩ := Option.bind_eq_some_iff.1 h'
    obtain ⟨i, hi, -⟩ := Option.bind_eq_some_iff.1 h'
    obtain ⟨l, rfl⟩ := List.head?_eq_some_iff.1 hi
    dsimp only
    rw [bind_of_eq_some hn, bind_of_eq_some hb]
    dsimp only
    rw [bind_of_eq_some hl]
    rfl

/-- An outcome of `lfs_open`: an error, and nothing is changed. -/
def FailsCleanly (s : Lfs) (o : Option (ℤ × ℕ × Lfs)) : Prop :=
  ∃ ret fh s', o = some (ret, fh, s') ∧ ret ≠ 0 ∧ s'.fd.image = s.fd.image ∧ s'.file = s.file

/-- `lfs_open` of a new file has no defined outcome on a full device. -/
theorem lfsOpen_full (hp : parsePath path = some (k, b))
    (hnew : ∀ j ≤ s.num, (s.file j).block_id ≠ toU32 b)
    (hfull : ∀ i < s.num, diskBit s.fd.image i = true) : lfsOpen s path = none := by
  refine Option.eq_none_iff_forall_ne_some.2 ?_
  rintro ⟨fh, t⟩ ho
  have ho := open_outcome ho
  generalize Reply.opened fh = r at ho
  cases ho with
  | openFound hp' hf =>
    cases hp.symm.trans hp'
    obtain ⟨hle, hid, -⟩ := findFile_found hf
    exact hnew _ hle hid
  | openNew hp' hf hn hlen hfree hc hset =>
    obtain ⟨hi, -, hclear⟩ := clear_of_firstFree hfree hset
    rw [hfull _ (hi.trans_le (bitSize_le hn).1)] at hclear
    cases hclear

/-- **What is returned on a full device**: 0, and a handle below that of any entry. -/
theorem lfsOpenRet_full (hp : parsePath path = some (k, b))
    (hnew : ∀ j ≤ s.num, (s.file j).block_id ≠ toU32 b)
    (hfull : ∀ i < s.num, diskBit s.fd.image i = true)
    (ho : lfsOpenRet byte s path = some (ret, fh, s')) : ret = 0 ∧ fh = 2 := by
  have hnone := lfsOpen_full hp hnew hfull
  unfold lfsOpenRet at ho
  rw [bind_of_eq_some hp, hnone] at ho
  obtain ⟨found, -, ho⟩ := Option.bind_eq_some_iff.1 ho
  cases found with
  | some i => cases ho
  | none =>
    obtain ⟨n, -, ho⟩ := Option.bind_eq_some_iff.1 ho
    obtain ⟨⟨p, fd⟩, -, ho⟩ := Option.bind_eq_some_iff.1 ho
    obtain ⟨l, -, ho⟩ := Option.bind_eq_some_iff.1 ho
    cases l with
    | cons i l => cases ho
    | nil =>
      obtain ⟨p', -, ho⟩ := Option.bind_eq_some_iff.1 ho
      obtain ⟨len, -, ho⟩ := Option.bind_eq_some_iff.1 ho
      obtain ⟨fd', -, ho⟩ := Option.bind_eq_some_iff.1 ho
      cases ho
      exact ⟨rfl, rfl⟩

end Ltils

/-! ## Both programs -/

namespace FullDevice

/-- Every slot is marked on the device of `ltils.c`, and no entry has the id. -/
structure FullWithout (s : Ltils.Lfs) (b : ℤ) : Prop where
  entry : ∀ j ≤ s.num, (s.file j).block_id ≠ toU32 b
  full : ∀ i < s.num, diskBit s.fd.image i = true

instance (s : Ltils.Lfs) (b : ℤ) : Decidable (FullWithout s b) :=
  decidable_of_iff ((∀ j ≤ s.num, (s.file j).block_id ≠ toU32 b) ∧
      ∀ i < s.num, diskBit s.fd.image i = true)
    ⟨fun ⟨h1, h2⟩ => ⟨h1, h2⟩, fun ⟨h1, h2⟩ => ⟨h1, h2⟩⟩

variable {path : List Char} {k : Kind} {b : ℤ}

/-- **A full device is not reported.**  In no state of either program does `lfs_open` of a file
    that is not in its table fail cleanly when every slot is marked in the bitmap it looks at. -/
theorem full_open_unclean (hp : parsePath path = some (k, b)) (byte : UInt8) :
    (∀ s : Rewrite.Lfs, s.finds k b = none → Rewrite.Full s k →
      ¬ Rewrite.FailsCleanly s (Rewrite.lfsOpenRet byte s path)) ∧
    ∀ s : Ltils.Lfs, FullWithout s b →
      ¬ Ltils.FailsCleanly s (Ltils.lfsOpenRet byte s path) := by
  constructor
  · rintro s hnew hfull ⟨ret, fh, s', ho, hret, -⟩
    exact hret (Rewrite.lfsOpenRet_full hp hnew hfull ho).1
  · rintro s ⟨hnew, hfull⟩ ⟨ret, fh, s', ho, hret, -⟩
    exact hret (Ltils.lfsOpenRet_full hp hnew hfull ho).1

/-- The four slots of a device taken by four meta files, in either program. -/
theorem full_open_unclean_meta : ∃ tr s tr' s',
    Rewrite.mountExec Rewrite.blankDevice Machine.anyStep
      [.open (metaPath 1 1001), .open (metaPath 2 1001), .open (metaPath 3 1001),
        .open (metaPath 4 1001)] = some (tr, s) ∧
    Ltils.mountExec Rewrite.blankDevice Ltils.zeroFile Machine.anyStep
      [.open (metaPath 1 1001), .open (metaPath 2 1001), .open (metaPath 3 1001),
        .open (metaPath 4 1001)] = some (tr', s') ∧
    ¬ Rewrite.FailsCleanly s (Rewrite.lfsOpenRet 0 s (metaPath 5 1001)) ∧
    ¬ Ltils.FailsCleanly s' (Ltils.lfsOpenRet 0 s' (metaPath 5 1001)) := by
  obtain ⟨tr, s, he, -, hnew, hfull⟩ := Machine.exists_exec Rewrite.system Machine.anyStep
    (Rewrite.main Rewrite.blankDevice)
    [.open (metaPath 1 1001), .open (metaPath 2 1001), .open (metaPath 3 1001),
      .open (metaPath 4 1001)]
    (fun _ s => s.finds .metaFile 5 = none ∧ Rewrite.Full s .metaFile) (by decide +kernel)
  obtain ⟨tr', s', he', -, hfull'⟩ := Machine.exists_exec Ltils.system Machine.anyStep
    (Ltils.main Rewrite.blankDevice Ltils.zeroFile)
    [.open (metaPath 1 1001), .open (metaPath 2 1001), .open (metaPath 3 1001),
      .open (metaPath 4 1001)]
    (fun _ s => FullWithout s 5) (by decide +kernel)
  have hp : parsePath (metaPath 5 1001) = some (.metaFile, 5) := by decide +kernel
  exact ⟨tr, s, tr', s', he, he', (full_open_unclean hp 0).1 s hnew hfull,
    (full_open_unclean hp 0).2 s' hfull'⟩

/-- A fifth meta file is opened with the value 0 and the handle 2, which no file has. -/
theorem full_open_returns : ∃ tr s o,
    Rewrite.mountExec Rewrite.blankDevice Machine.anyStep
      [.open (metaPath 1 1001), .open (metaPath 2 1001), .open (metaPath 3 1001),
        .open (metaPath 4 1001)] = some (tr, s) ∧
    Rewrite.Mount Rewrite.blankDevice Machine.anyStep tr s ∧ Rewrite.Full s .metaFile ∧
    s.finds .metaFile 5 = none ∧ Rewrite.lfsOpenRet 0 s (metaPath 5 1001) = some (0, 2, o) ∧
    ¬ Rewrite.FailsCleanly s (Rewrite.lfsOpenRet 0 s (metaPath 5 1001)) := by
  obtain ⟨tr, s, he, hm, hnew, hfull, ho⟩ := Machine.exists_exec Rewrite.system Machine.anyStep
    (Rewrite.main Rewrite.blankDevice)
    [.open (metaPath 1 1001), .open (metaPath 2 1001), .open (metaPath 3 1001),
      .open (metaPath 4 1001)]
    (fun _ s => s.finds .metaFile 5 = none ∧ Rewrite.Full s .metaFile ∧
      (Rewrite.lfsOpenRet 0 s (metaPath 5 1001)).any (fun o => decide (o.1 = 0 ∧ o.2.1 = 2)) = true)
    (by decide +kernel)
  obtain ⟨⟨ret, fh, o⟩, ho, h⟩ := (Option.any_eq_true _ _).1 ho
  obtain ⟨rfl, rfl⟩ : ret = 0 ∧ fh = 2 := of_decide_eq_true h
  refine ⟨tr, s, o, he, hm, hfull, hnew, ho, ?_⟩
  rintro ⟨ret, fh, s', hs', hret, -⟩
  cases ho.symm.trans hs'
  exact hret rfl

end FullDevice
