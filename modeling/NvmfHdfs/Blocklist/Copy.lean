/-
  Copying the blocks.

  `write2disk` of `write2Client.cpp` copies a file into a slot of the device,
  with a loop that does not depend on how much each `fread` delivers.  The one
  of `init.cpp` seeks in the file it reads instead.

    - `copyAll`: `write2disk` called on many records;
    - `blocks_copied`: the files are in their slots, whatever the order;
    - `reports_length_iff`: the value returned is the length of the file exactly
      if the file does not fill the slot;
    - `reads_once_iff`: when the loop of `init.cpp` reads its file once and ends.
-/
import NvmfHdfs.Blocklist.DataNode
import NvmfHdfs.Lib.Fread

namespace Blocklist

open CInt CText

variable {files : List Char → Option (List UInt8)} {disk disk' : Descriptor}

/-! ## write2disk of the data node -/

/-- `write2disk` of `write2Client.cpp` with any `fread`. -/
def write2diskWith (F : Fread 1024) (files : List Char → Option (List UInt8)) (disk : Descriptor)
    (path_vec : List Char) (blk_id : ℤ) : Option (ℤ × Descriptor) := do
  let path ← trimPath path_vec
  let fp ← files path
  -- `fseek` to a negative position fails
  let disk ← if 0 ≤ blk_id then disk.lseek (blk_id * blockSize).toNat else some disk
  let disk ← F.copy (fp.length + 1) 0 fp disk
  let end_off := disk.pos
  some ((end_off % blockSize : ℕ), disk)

variable {path name bs : List Char}

/-- The data node's `write2disk` does not depend on what each `fread` delivers. -/
theorem write2diskWith_eq (F : Fread 1024) (id : ℕ) (h : trimPath path = some name) :
    write2diskWith F files disk path id = write2disk files disk path id := by
  rw [write2disk_eq id h]
  exact storeFile_of_loop id h (fun fp disk => F.copy (fp.length + 1) 0 fp disk)
    fun _ _ hpos => F.copy_eq (Nat.lt_succ_self _) hpos

/-- A call of `write2disk`. -/
structure CopyCall where
  path_vec : List Char
  blk_id : ℤ

namespace CopyCall

/-- The content of the file of the record: its path is the one given, without the last six
    characters. -/
def bytes (files : List Char → Option (List UInt8)) (c : CopyCall) : Option (List UInt8) :=
  if 6 ≤ c.path_vec.length then files (c.path_vec.take (c.path_vec.length - 6)) else none

/-- This is the file `write2disk` opens. -/
theorem bytes_eq (c : CopyCall) : c.bytes files = (trimPath c.path_vec).bind files := by
  unfold bytes trimPath
  split_ifs
  · rfl
  · rfl

/-- The start of the slot. -/
def slot (c : CopyCall) : ℕ := c.blk_id.toNat * blockSize

/-- The slot id is an `int` from 0 on; the file exists and fits a slot. -/
structure Ok (files : List Char → Option (List UInt8)) (c : CopyCall) : Prop where
  nonneg : 0 ≤ c.blk_id
  int : c.blk_id < 2 ^ 31
  file : ∃ bs, c.bytes files = some bs ∧ bs.length ≤ blockSize

/-- What the call writes. -/
def write (files : List Char → Option (List UInt8)) (c : CopyCall) : ℕ × List UInt8 :=
  (c.slot, (c.bytes files).getD [])

variable {c : CopyCall} {bs : List UInt8}

theorem Ok.slot_le (h : c.Ok files) : c.slot + blockSize < Descriptor.offMax := by
  have := h.nonneg
  have := h.int
  unfold slot blockSize Descriptor.offMax
  omega

theorem Ok.length_le (h : c.Ok files) (hbs : c.bytes files = some bs) :
    bs.length ≤ blockSize := by
  obtain ⟨bs', hbs', hlen⟩ := h.file
  rwa [Option.some.inj (hbs.symm.trans hbs')]

/-- **What one call does**: the file goes to the start of its slot. -/
theorem Ok.run (h : c.Ok files) (F : Fread 1024) (disk : Descriptor)
    (hbs : c.bytes files = some bs) :
    write2diskWith F files disk c.path_vec c.blk_id =
      some (((bs.length % blockSize : ℕ) : ℤ),
        ⟨disk.image.patch c.slot bs, c.slot + bs.length⟩) := by
  have hslot := h.slot_le
  have hlen := h.length_le hbs
  obtain ⟨name, hname, hfile⟩ := Option.bind_eq_some_iff.1 (c.bytes_eq.symm.trans hbs)
  obtain ⟨id, hid⟩ := Int.eq_ofNat_of_zero_le h.nonneg
  have hpos : c.slot = id * blockSize := by rw [slot, hid]; rfl
  have hseek : disk.lseek c.slot = some ⟨disk.image, c.slot⟩ :=
    Descriptor.lseek_eq_some.2 ⟨by omega, rfl⟩
  have hwrite : (⟨disk.image, c.slot⟩ : Descriptor).write bs =
      some ⟨disk.image.patch c.slot bs, c.slot + bs.length⟩ :=
    Descriptor.write_eq_some.2 ⟨show c.slot + bs.length ≤ _ by omega, rfl⟩
  rw [hid, write2diskWith_eq F id hname, write2disk_eq id hname, storeFile, bind_of_eq_some hfile,
    ← hpos, bind_of_eq_some hseek, bind_of_eq_some hwrite]
  dsimp only
  rw [hpos, Nat.mul_add_mod_self_right]

end CopyCall

/-! ## Many calls -/

/-- The calls of `write2disk` for many records, call `i` with the `fread` of `Fs i`. -/
def copyAll (Fs : ℕ → Fread 1024) (files : List Char → Option (List UInt8)) :
    List CopyCall → Descriptor → Option Descriptor
  | [], disk => some disk
  | c :: cs, disk => do
    let (_, disk) ← write2diskWith (Fs 0) files disk c.path_vec c.blk_id
    copyAll (fun i => Fs (i + 1)) files cs disk

/-- Every file is at the start of its slot, and nothing else was changed. -/
structure Copied (files : List Char → Option (List UInt8)) (cs : List CopyCall)
    (disk disk' : Descriptor) : Prop where
  stored : ∀ c ∈ cs, ∀ bs ∈ c.bytes files, disk'.image.slice c.slot bs.length = bs
  kept : ∀ a, (∀ c ∈ cs, ∀ bs ∈ c.bytes files, ¬ (c.slot ≤ a ∧ a < c.slot + bs.length)) →
    disk'.image a = disk.image a

variable {cs cs' : List CopyCall} {Fs Fs' : ℕ → Fread 1024}

/-- The calls are writes, one after the other. -/
theorem copyAll_eq (Fs : ℕ → Fread 1024) (disk : Descriptor) (h : ∀ c ∈ cs, c.Ok files) :
    ∃ pos, copyAll Fs files cs disk =
      some ⟨disk.image.patches (cs.map (CopyCall.write files)), pos⟩ := by
  induction cs generalizing disk Fs with
  | nil => exact ⟨disk.pos, rfl⟩
  | cons c cs ih =>
    have hc := h c List.mem_cons_self
    obtain ⟨bs, hbs, -⟩ := hc.file
    have hwrite : c.write files = (c.slot, bs) := by rw [CopyCall.write, hbs]; rfl
    obtain ⟨pos, hpos⟩ := ih (fun i => Fs (i + 1)) ⟨disk.image.patch c.slot bs, c.slot + bs.length⟩
      fun c' hc' => h c' (List.mem_cons_of_mem c hc')
    refine ⟨pos, ?_⟩
    rw [copyAll, bind_of_eq_some (hc.run (Fs 0) disk hbs)]
    dsimp only
    rw [hpos, List.map_cons, hwrite]
    rfl

/-- Slots with different ids do not meet. -/
theorem writes_apart (h : ∀ c ∈ cs, c.Ok files) (hd : (cs.map CopyCall.blk_id).Nodup) :
    (cs.map (CopyCall.write files)).Pairwise Image.Apart := by
  rw [List.pairwise_map]
  refine (List.pairwise_map.1 hd).imp_of_mem fun {c c'} hc hc' hne => ?_
  obtain ⟨bs, hbs, hlen⟩ := (h c hc).file
  obtain ⟨bs', hbs', hlen'⟩ := (h c' hc').file
  have h0 := (h c hc).nonneg
  have h0' := (h c' hc').nonneg
  have hne : c.blk_id.toNat ≠ c'.blk_id.toNat := by omega
  simp only [Image.Apart, CopyCall.write, hbs, hbs', Option.getD_some, CopyCall.slot]
  rcases Nat.lt_or_gt_of_ne hne with hlt | hlt
  · have hmul := Nat.mul_le_mul_right blockSize hlt
    rw [Nat.succ_mul] at hmul
    left; omega
  · have hmul := Nat.mul_le_mul_right blockSize hlt
    rw [Nat.succ_mul] at hmul
    right; omega

/-- **Every block is stored in its slot**, whole and nowhere else, in whatever order the records
    are taken. -/
theorem blocks_copied (h : ∀ c ∈ cs, c.Ok files) (hd : (cs.map CopyCall.blk_id).Nodup) :
    ∃ disk', copyAll Fs files cs disk = some disk' ∧ Copied files cs disk disk' ∧
      ∀ Fs' cs', cs'.Perm cs →
        ∃ disk'', copyAll Fs' files cs' disk = some disk'' ∧ disk''.image = disk'.image := by
  have hap := writes_apart h hd
  obtain ⟨pos, hrun⟩ := copyAll_eq Fs disk h
  refine ⟨_, hrun, ⟨fun c hc bs hbs => ?_, fun a ha => ?_⟩, fun Fs' cs' hp => ?_⟩
  · have hwrite : c.write files = (c.slot, bs) := by rw [CopyCall.write, hbs]; rfl
    have hslice := Image.slice_patches disk.image hap (List.mem_map_of_mem hc)
    rwa [hwrite] at hslice
  · refine Image.patches_outside fun w hw => ?_
    obtain ⟨c, hc, rfl⟩ := List.mem_map.1 hw
    obtain ⟨bs, hbs, -⟩ := (h c hc).file
    rw [CopyCall.write, hbs]
    exact ha c hc bs hbs
  · obtain ⟨pos', hrun'⟩ := copyAll_eq Fs' disk fun c hc => h c (hp.mem_iff.1 hc)
    exact ⟨_, hrun', Image.patches_perm disk.image hap (hp.map _)⟩

/-- The paths `a_1001` and `b_1001`, as they are read, with the slots 2 and 1. -/
def sampleCalls : List CopyCall :=
  [⟨['a', '_', '1', '0', '0', '1', '\n'], 2⟩, ⟨['b', '_', '1', '0', '0', '1', '\n'], 1⟩]

/-- The file `b` holds two bytes, any other one. -/
def callFiles (name : List Char) : Option (List UInt8) :=
  if name = ['b'] then some [7, 8] else some [9]

theorem sampleCalls_ok : ∀ c ∈ sampleCalls, c.Ok callFiles := by
  intro c hc
  rcases List.mem_cons.1 hc with rfl | hc
  · exact ⟨by decide, by decide, [9], by decide +kernel, by decide⟩
  · obtain rfl := List.mem_singleton.1 hc
    exact ⟨by decide, by decide, [7, 8], by decide +kernel, by decide⟩

theorem blocks_copied_sample : ∃ disk',
    copyAll (fun _ => Fread.full (by decide)) callFiles sampleCalls ⟨fun _ => 0, 0⟩ =
      some disk' ∧ Copied callFiles sampleCalls ⟨fun _ => 0, 0⟩ disk' ∧
      ∀ Fs' cs', cs'.Perm sampleCalls → ∃ disk'',
        copyAll Fs' callFiles cs' ⟨fun _ => 0, 0⟩ = some disk'' ∧
          disk''.image = disk'.image :=
  blocks_copied sampleCalls_ok (by decide)

/-! ## The length returned -/

/-- `write2disk` stores the file in its slot and returns the number of bytes stored. -/
def ReportsLength (F : Fread 1024) (files : List Char → Option (List UInt8)) (disk : Descriptor)
    (c : CopyCall) : Prop :=
  ∃ bs ret disk', c.bytes files = some bs ∧
    write2diskWith F files disk c.path_vec c.blk_id = some (ret, disk') ∧
    disk'.image = disk.image.patch c.slot bs ∧ ret = bs.length

variable {c : CopyCall} {bs : List UInt8}

/-- The position behind the file is the start of the next slot if the file fills its own. -/
theorem CopyCall.Ok.reportsLength (h : c.Ok files) (F : Fread 1024)
    (hbs : c.bytes files = some bs) :
    ReportsLength F files disk c ↔ bs.length % blockSize = bs.length := by
  have hrun := h.run F disk hbs
  constructor
  · rintro ⟨bs', ret, disk', hbs', hw, -, hret⟩
    obtain rfl := Option.some.inj (hbs.symm.trans hbs')
    cases hrun.symm.trans hw
    exact Nat.cast_injective hret
  · intro hmod
    exact ⟨bs, _, _, hbs, hrun, rfl, by rw [hmod]⟩

/-- **The length is returned** exactly for a file that does not fill its slot. -/
theorem reports_length_iff (h : c.Ok files) (F : Fread 1024) (hbs : c.bytes files = some bs) :
    ReportsLength F files disk c ↔ bs.length < blockSize := by
  rw [h.reportsLength F hbs]
  constructor
  · intro hmod
    rw [← hmod]
    exact Nat.mod_lt _ (by decide)
  · exact Nat.mod_eq_of_lt

/-- The file `a` of one byte in slot 2. -/
theorem reports_length_iff_sample :
    ReportsLength (Fread.full (by decide)) callFiles ⟨fun _ => 0, 0⟩
      ⟨['a', '_', '1', '0', '0', '1', '\n'], 2⟩ ↔ ([9] : List UInt8).length < blockSize :=
  reports_length_iff (sampleCalls_ok _ List.mem_cons_self) _ (by decide +kernel)

/-- A file of 128 MB: the length returned is 0. -/
theorem reports_full_wrong :
    ¬ ReportsLength (Fread.full (by decide)) (fun _ => some (List.replicate blockSize 0))
      ⟨fun _ => 0, 0⟩ ⟨['a', '_', '1', '0', '0', '1', '\n'], 2⟩ := by
  have hbs : CopyCall.bytes (fun _ => some (List.replicate blockSize 0))
      ⟨['a', '_', '1', '0', '0', '1', '\n'], 2⟩ = some (List.replicate blockSize 0) := rfl
  have hok : CopyCall.Ok (fun _ => some (List.replicate blockSize 0))
      ⟨['a', '_', '1', '0', '0', '1', '\n'], 2⟩ :=
    ⟨by decide, by decide, _, hbs, by rw [List.length_replicate]⟩
  rw [hok.reportsLength _ hbs, List.length_replicate]
  decide

/-! ## write2disk of init.cpp -/

/-- The loop of `write2disk` in `init.cpp` on a file opened for reading, from call `i` of `fread`
    and position `pos` on, in fewer than `k` turns: the positions it reads and where the stream
    stands at the end.  It is the stream itself that is moved to the slot, and the `fwrite` to
    it fails. -/
def initLoop (F : Fread 1024) (bytes : List UInt8) (blk_id : ℤ) :
    ℕ → ℕ → ℕ → Option (List ℕ × ℕ)
  | 0, _, _ => none
  | k + 1, i, pos =>
    let len := F.count i (bytes.drop pos)
    if len = 0 then some ([], pos) else do
      let next := if 0 ≤ blk_id then (blk_id * blockSize).toNat else pos + len
      let (read, stop) ← initLoop F bytes blk_id k (i + 1) next
      some (List.range' pos len ++ read, stop)

/-- `write2disk` of `init.cpp`: the value it returns and the positions it reads. -/
def initWrite2disk (F : Fread 1024) (bytes : List UInt8) (blk_id : ℤ) (k : ℕ) :
    Option (ℤ × List ℕ) := do
  let (read, end_off) ← initLoop F bytes blk_id k 0 0
  some ((end_off % blockSize : ℕ), read)

/-- `write2disk` ends, and has read every byte of the file exactly once. -/
def ReadsOnce (F : Fread 1024) (bytes : List UInt8) (blk_id : ℤ) : Prop :=
  ∃ k ret read, initWrite2disk F bytes blk_id k = some (ret, read) ∧
    ∀ p < bytes.length, read.count p = 1

variable {F : Fread 1024} {bytes : List UInt8} {id : ℕ}

/-- A turn of the loop: it goes on from the slot. -/
theorem initLoop_turn {k i pos : ℕ} (hpos : pos < bytes.length) :
    initLoop F bytes id (k + 1) i pos = (initLoop F bytes id k (i + 1) (id * blockSize)).map
      fun x => (List.range' pos (F.count i (bytes.drop pos)) ++ x.1, x.2) := by
  have hlen : F.count i (bytes.drop pos) ≠ 0 := by
    rw [ne_eq, F.count_eq_zero, List.drop_eq_nil_iff]
    omega
  have hnext : ((id : ℤ) * blockSize).toNat = id * blockSize := by
    rw [← Nat.cast_mul, Int.toNat_natCast]
  rw [initLoop, if_neg hlen, if_pos (Int.natCast_nonneg id), hnext]
  dsimp only
  cases initLoop F bytes id k (i + 1) (id * blockSize) with
  | none => rfl
  | some x => rfl

/-- At the end of the file the loop ends. -/
theorem initLoop_end {k i pos : ℕ} (hpos : bytes.length ≤ pos) :
    initLoop F bytes id (k + 1) i pos = some ([], pos) := by
  rw [initLoop, List.drop_eq_nil_of_le hpos, if_pos (F.count_nil i)]

/-- The loop never ends once the place it seeks to is in the file. -/
theorem initLoop_none (hid : id * blockSize < bytes.length) :
    ∀ {k i pos : ℕ}, pos < bytes.length → initLoop F bytes id k i pos = none
  | 0, _, _, _ => rfl
  | k + 1, i, pos, hpos => by rw [initLoop_turn hpos, initLoop_none hid hid]; rfl

/-- Seeking behind the file, the loop ends after the first turn. -/
theorem initLoop_once (hne : bytes ≠ []) (hid : bytes.length ≤ id * blockSize) (k : ℕ) :
    initLoop F bytes id (k + 2) 0 0 =
      some (List.range' 0 (F.count 0 bytes), id * blockSize) := by
  rw [initLoop_turn (List.length_pos_iff.2 hne), initLoop_end hid, Option.map_some,
    List.append_nil, List.drop_zero]

/-- The bytes read by a loop that ends. -/
theorem initLoop_read {k stop : ℕ} {read : List ℕ} (hne : bytes ≠ [])
    (h : initLoop F bytes id k 0 0 = some (read, stop)) :
    bytes.length ≤ id * blockSize ∧ read = List.range' 0 (F.count 0 bytes) := by
  have hpos := List.length_pos_iff.2 hne
  have hid : bytes.length ≤ id * blockSize := by
    by_contra hlt
    rw [initLoop_none (Nat.lt_of_not_le hlt) hpos] at h
    cases h
  refine ⟨hid, ?_⟩
  match k with
  | 0 => cases h
  | 1 => rw [initLoop_turn hpos] at h; cases h
  | k + 2 => rw [initLoop_once hne hid] at h; cases h; rfl

theorem count_range' (n p : ℕ) : (List.range' 0 n).count p = if p < n then 1 else 0 := by
  rw [List.Nodup.count (List.nodup_range' 1)]
  simp

/-- A file that is not empty is read once exactly if it lies before the slot and the first
    `fread` delivers all of it. -/
theorem readsOnce_of_ne_nil (hne : bytes ≠ []) : ReadsOnce F bytes id ↔
    bytes.length ≤ id * blockSize ∧ F.count 0 bytes = bytes.length := by
  constructor
  · rintro ⟨k, ret, read, h, honce⟩
    obtain ⟨⟨read', stop⟩, hl, h⟩ := Option.bind_eq_some_iff.1 h
    cases h
    obtain ⟨hid, rfl⟩ := initLoop_read hne hl
    refine ⟨hid, le_antisymm (F.le_left 0 bytes) ?_⟩
    by_contra hlt
    have hcount := honce (F.count 0 bytes) (Nat.lt_of_not_le hlt)
    rw [count_range', if_neg (lt_irrefl _)] at hcount
    cases hcount
  · rintro ⟨hid, hall⟩
    refine ⟨2, _, _, by rw [initWrite2disk, bind_of_eq_some (initLoop_once hne hid 0)], ?_⟩
    intro p hp
    rw [count_range', hall, if_pos hp]

/-- **When the loop of `init.cpp` reads its file once and ends**: if the file is empty, or if
    the slot is not the first and the first `fread` delivers the whole file. -/
theorem reads_once_iff {blk_id : ℤ} (h : 0 ≤ blk_id) :
    ReadsOnce F bytes blk_id ↔ bytes = [] ∨ (0 < blk_id ∧ F.count 0 bytes = bytes.length) := by
  obtain ⟨id, rfl⟩ := Int.eq_ofNat_of_zero_le h
  by_cases hne : bytes = []
  · subst hne
    refine ⟨fun _ => .inl rfl, fun _ => ⟨1, 0, [], ?_, fun p hp => absurd hp (Nat.not_lt_zero p)⟩⟩
    rw [initWrite2disk, bind_of_eq_some (initLoop_end (Nat.le_refl 0))]
    rfl
  · have hpos := List.length_pos_iff.2 hne
    rw [readsOnce_of_ne_nil hne, or_iff_right hne]
    refine and_congr_left fun hall => ?_
    -- what one `fread` delivers fits any slot
    have hle := F.le_size 0 bytes
    constructor
    · intro hid
      by_contra hzero
      obtain rfl : id = 0 := by omega
      omega
    · intro hid
      have hmul : 1 * blockSize ≤ id * blockSize := Nat.mul_le_mul_right _ (by omega)
      have hsize : 1024 ≤ blockSize := by decide
      omega

/-- A file of 1000 bytes for slot 3 is read once; one of 2000 bytes is not, as the first `fread`
    delivers 1024 of them. -/
theorem reads_once_iff_slot :
    ReadsOnce (Fread.full (by decide)) (List.replicate 1000 7) 3 ∧
      ¬ ReadsOnce (Fread.full (by decide)) (List.replicate 2000 7) 3 := by
  have hlen : ∀ n, (List.replicate n (7 : UInt8)).length = n := fun n => List.length_replicate
  constructor
  · refine (reads_once_iff (by decide)).2 (.inr ⟨by decide, ?_⟩)
    simp only [Fread.count_full, hlen]
    decide
  · intro h
    rcases (reads_once_iff (by decide)).1 h with hnil | ⟨-, hall⟩
    · have hzero := hlen 2000
      rw [hnil] at hzero
      cases hzero
    · simp only [Fread.count_full, hlen] at hall
      exact absurd hall (by decide)

/-- One byte and the slot 0: the loop reads it again and again. -/
theorem reads_forever : ¬ ReadsOnce (Fread.full (by decide)) [7] 0 := by
  rintro ⟨k, ret, read, h, -⟩
  obtain ⟨x, hl, -⟩ := Option.bind_eq_some_iff.1 h
  have hnone : initLoop (Fread.full (by decide)) [7] (0 : ℕ) k 0 0 = none :=
    initLoop_none (by decide) (by decide)
  cases hnone.symm.trans hl

end Blocklist
