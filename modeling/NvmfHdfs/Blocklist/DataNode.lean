/-
  `write2Client.cpp`: a data node takes its records and writes its blocks.

  `getinfo` reads the records two lines at a time; `write2disk`, whose call
  stands in a comment there, takes six characters from the end of the path (the
  line read is still with its newline) and copies the file of that name into
  the slot.

    - `write2disk_eq`: what it does to the device;
    - `HandedOver`: the records come back as they were written, and each leads
      to the file of its block and to its slot;
    - `handed_over_iff`: exactly if every generation stamp has four digits;
    - `handed_over_wrong`: the generation stamp 10000.
-/
import NvmfHdfs.Blocklist.RoundTrip
import NvmfHdfs.Lib.Descriptor
import NvmfHdfs.Path

namespace Blocklist

open CInt CText Path

variable {files : List Char → Option (List UInt8)} {disk : Descriptor} {path : List Char}

/-! ## write2disk -/

/-- `BLOCK_SIZE`. -/
def blockSize : ℕ := 128 * 1024 * 1024

/-- `path[strlen(path) - 6] = '\0'`; a shorter path is written before its start. -/
def trimPath (path : List Char) : Option (List Char) :=
  if 6 ≤ path.length then some (path.take (path.length - 6)) else none

/-- The loop over `fread` and `fwrite`, with buffers of 1024 bytes, in at most `k` turns. -/
def copyLoop : ℕ → List UInt8 → Descriptor → Option Descriptor
  | 0, _, disk => some disk
  | k + 1, bytes, disk =>
    let buf := bytes.take 1024
    if buf.length = 0 then some disk else do
      let disk ← disk.write buf
      copyLoop k (bytes.drop 1024) disk

/-- `write2disk` with the files `fopen` can open: the value it returns and the device. -/
def write2disk (files : List Char → Option (List UInt8)) (disk : Descriptor)
    (path_vec : List Char) (blk_id : ℤ) : Option (ℤ × Descriptor) := do
  let path ← trimPath path_vec
  let fp ← files path
  -- `fseek` to a negative position fails
  let disk ← if 0 ≤ blk_id then disk.lseek (blk_id * blockSize).toNat else some disk
  let disk ← copyLoop (fp.length + 1) fp disk
  let end_off := disk.pos
  some ((end_off % blockSize : ℕ), disk)

/-- Copying a file to a place of the device. -/
def storeFile (files : List Char → Option (List UInt8)) (disk : Descriptor) (name : List Char)
    (pos : ℕ) : Option (ℤ × Descriptor) := do
  let bytes ← files name
  let disk ← disk.lseek pos
  let disk ← disk.write bytes
  some ((disk.pos % blockSize : ℕ), disk)

/-- **The copy loop** writes the bytes one after the other. -/
theorem copyLoop_eq : ∀ {k : ℕ} {bytes : List UInt8} {disk : Descriptor}, bytes.length < k →
    disk.pos ≤ Descriptor.offMax → copyLoop k bytes disk = disk.write bytes
  | k + 1, bytes, disk, hk, hpos => by
    rw [copyLoop]
    rcases Nat.eq_zero_or_pos bytes.length with h0 | hlen
    · obtain rfl := List.length_eq_zero_iff.1 h0
      rw [Descriptor.write_nil hpos, if_pos (by rfl)]
    · have hdrop : (bytes.drop 1024).length < k := by rw [List.length_drop]; omega
      have htake : (bytes.take 1024).length ≠ 0 := by rw [List.length_take]; omega
      rw [if_neg htake, ← Descriptor.write_append (List.take_append_drop 1024 bytes)]
      refine Option.bind_congr fun disk' hw => ?_
      obtain ⟨hle, rfl⟩ := Descriptor.write_eq_some.1 hw
      exact copyLoop_eq hdrop hle

/-- Any loop that copies a file stores the file of the trimmed path in slot `blk_id`. -/
theorem storeFile_of_loop {name : List Char} (id : ℕ) (h : trimPath path = some name)
    (loop : List UInt8 → Descriptor → Option Descriptor)
    (hloop : ∀ bytes disk, disk.pos ≤ Descriptor.offMax → loop bytes disk = disk.write bytes) :
    (do
      let path ← trimPath path
      let fp ← files path
      let disk ← if 0 ≤ (id : ℤ) then disk.lseek ((id : ℤ) * blockSize).toNat else some disk
      let disk ← loop fp disk
      some (((disk.pos % blockSize : ℕ) : ℤ), disk)) =
    storeFile files disk name (id * blockSize) := by
  rw [bind_of_eq_some h, storeFile]
  refine Option.bind_congr fun bytes _ => ?_
  have hpos : ((id : ℤ) * blockSize).toNat = id * blockSize := by
    rw [← Nat.cast_mul, Int.toNat_natCast]
  rw [if_pos (Int.natCast_nonneg id), hpos]
  refine Option.bind_congr fun disk' hd => ?_
  obtain ⟨hlt, rfl⟩ := Descriptor.lseek_eq_some.1 hd
  dsimp only
  rw [hloop bytes _ (Nat.le_of_lt hlt)]

/-- **What `write2disk` does**: the file of the trimmed path goes to slot `blk_id`. -/
theorem write2disk_eq {name : List Char} (id : ℕ) (h : trimPath path = some name) :
    write2disk files disk path id = storeFile files disk name (id * blockSize) :=
  storeFile_of_loop id h (fun fp disk => copyLoop (fp.length + 1) fp disk)
    fun _ _ hpos => copyLoop_eq (Nat.lt_succ_self _) hpos

/-! ## getinfo -/

/-- The loop of `getinfo` over the lines left: what `buf` and `tbuf` hold in each turn.  A last
    line with no line after it leaves `tbuf` without a value. -/
def getinfo : List (List Char) → Option (List (List Char × List Char))
  | [] => some []
  | [_] => none
  | line :: line' :: ls => do
    let rest ← getinfo ls
    some ((cstr line, cstr line') :: rest)

/-- An entry that is written in two lines. -/
structure Entry.Ok (e : Entry) : Prop where
  line : IsLine 1024 e.path
  nonneg : 0 ≤ e.id
  int : e.id < 2 ^ 31

/-- The two lines of an entry, as they are read. -/
def Entry.pair (e : Entry) : List Char × List Char := (e.path ++ ['\n'], printInt e.id ++ ['\n'])

/-- The two lines of an entry. -/
def Entry.lines (e : Entry) : List (List Char) := [e.path, printInt e.id]

variable {e : Entry} {es : List Entry}

theorem Entry.Ok.isLine_id (h : e.Ok) : IsLine 1024 (printInt e.id) := by
  obtain ⟨n, hn⟩ := Int.eq_ofNat_of_zero_le h.nonneg
  have hlt := h.int
  have hline : IsLine 1024 ([] ++ printInt n) := isLine_numbered (by decide) (by omega)
  rwa [List.nil_append, ← hn] at hline

theorem Entry.Ok.atoi_pair (h : e.Ok) : atoi e.pair.2 = e.id := by
  obtain ⟨n, hn⟩ := Int.eq_ofNat_of_zero_le h.nonneg
  have hlt := h.int
  rw [Entry.pair, hn, printInt_natCast, atoi_digits_append (by omega) (by decide),
    toInt_natCast (by omega)]

theorem flatMap_record (es : List Entry) :
    es.flatMap Entry.record = unlines (es.flatMap Entry.lines) := by
  induction es with
  | nil => rfl
  | cons e es ih =>
    rw [List.flatMap_cons, ih]
    simp [Entry.record, recordOf, Entry.lines]

theorem getinfo_lines (h : ∀ e ∈ es, e.Ok) :
    getinfo ((es.flatMap Entry.lines).map (· ++ ['\n'])) = some (es.map Entry.pair) := by
  induction es with
  | nil => rfl
  | cons e es ih =>
    have he := h e List.mem_cons_self
    have ih := ih fun e' he' => h e' (List.mem_cons_of_mem e he')
    simp only [List.flatMap_cons, Entry.lines, List.cons_append, List.nil_append, List.map_cons]
    rw [getinfo, bind_of_eq_some ih, he.line.cstr, he.isLine_id.cstr, Entry.pair]

/-- **The records are read back.** -/
theorem getinfo_records (h : ∀ e ∈ es, e.Ok) :
    getinfo (fgetsAll 1024 (es.flatMap Entry.record)) = some (es.map Entry.pair) := by
  have hfit : ∀ l ∈ es.flatMap Entry.lines, IsLine 1024 l := by
    intro l hl
    obtain ⟨e, he, hl⟩ := List.mem_flatMap.1 hl
    rcases List.mem_cons.1 hl with rfl | hl
    · exact (h e he).line
    · rw [List.mem_singleton.1 hl]
      exact (h e he).isLine_id
  rw [flatMap_record, fgetsAll_unlines hfit, getinfo_lines h]

/-! ## The three outputs -/

/-- The outputs of `getfileblk`. -/
inductive Node where
  | slave1
  | slave2
  | node
deriving DecidableEq

/-- The output of a host. -/
def nodeOf (host : List Char) : Node :=
  if host = slave1Name then .slave1 else if host = slave2Name then .slave2 else .node

/-- The output of a data node. -/
def Outputs.of (o : Outputs) : Node → List Char
  | .slave1 => o.slave1
  | .slave2 => o.slave2
  | .node => o.node

theorem outputsOf_of (es : List Entry) (n : Node) :
    (outputsOf es).of n = (es.filter fun e => nodeOf e.host = n).flatMap Entry.record := by
  have hhost : ∀ host, (host = slave1Name ↔ nodeOf host = .slave1) ∧
      (host = slave2Name ↔ nodeOf host = .slave2) ∧
      (host ≠ slave1Name ∧ host ≠ slave2Name ↔ nodeOf host = .node) := by
    intro host
    have hne : slave1Name ≠ slave2Name := by decide
    unfold nodeOf
    split_ifs <;> simp_all
  cases n <;> simp only [Outputs.of, outputsOf, recordsOf, hhost]

/-- What a data node reads of its output. -/
theorem getinfo_output (h : ∀ e ∈ es, e.Ok) (n : Node) :
    getinfo (fgetsAll 1024 ((outputsOf es).of n)) =
      some ((es.filter fun e => nodeOf e.host = n).map Entry.pair) := by
  rw [outputsOf_of, getinfo_records fun e he => h e (List.mem_of_mem_filter he)]

/-- The entries of a listing are written in two lines each. -/
theorem entriesOf_ok {bs : List Block} (h : ∀ b ∈ bs, IsLine 1024 b.token)
    (hlen : bs.length < 2 ^ 31) : ∀ e ∈ entriesOf bs, e.Ok := by
  intro e he
  obtain ⟨⟨b, k⟩, hx, rfl⟩ := List.mem_map.1 he
  obtain ⟨-, hk, hb⟩ := List.mem_zipIdx hx
  have hlt : (k : ℤ) < 2 ^ 31 := by omega
  exact ⟨h b (hb ▸ List.getElem_mem _), Int.natCast_nonneg k, hlt⟩

/-! ## Tokens with a generation stamp -/

/-- A record on its way: the token `<pool>:blk_<blk>_<gs>` and the slot id. -/
structure Record where
  pool : List Char
  blk : List Char
  gs : ℕ
  id : ℕ

namespace Record

/-- The token without its generation stamp. -/
def base (r : Record) : List Char := r.pool ++ [':', 'b', 'l', 'k', '_'] ++ r.blk

/-- The token. -/
def token (r : Record) : List Char := r.base ++ '_' :: Nat.toDigits 10 r.gs

/-- A token that fits the line buffer, a generation stamp from 1001 on and a positive `int`
    as slot id. -/
structure Ok (r : Record) : Prop where
  line : IsLine 1024 r.token
  gs : 1001 ≤ r.gs
  pos : 1 ≤ r.id
  int : r.id < 2 ^ 31

instance (r : Record) : Decidable r.Ok :=
  decidable_of_iff (IsLine 1024 r.token ∧ 1001 ≤ r.gs ∧ 1 ≤ r.id ∧ r.id < 2 ^ 31)
    ⟨fun ⟨h1, h2, h3, h4⟩ => ⟨h1, h2, h3, h4⟩, fun ⟨h1, h2, h3, h4⟩ => ⟨h1, h2, h3, h4⟩⟩

end Record

/-- The records as `getfileblk` writes them. -/
def slaveText (rs : List Record) : List Char := rs.flatMap fun r => recordOf r.token r.id

/-- A pair read is a record: its token, with the newline, and its slot id, with which
    `write2disk` copies the file of the block, which has no generation stamp in its name, to
    its slot. -/
structure Delivered (p : List Char × List Char) (r : Record) : Prop where
  token : p.1 = r.token ++ ['\n']
  id : atoi p.2 = r.id
  stored : ∀ files disk, write2disk files disk p.1 (atoi p.2) =
    storeFile files disk r.base (r.id * blockSize)

/-- The records are read back in order, and every one of them is delivered. -/
def HandedOver (rs : List Record) : Prop :=
  ∃ pairs, getinfo (fgetsAll 1024 (slaveText rs)) = some pairs ∧ List.Forall₂ Delivered pairs rs

variable {r : Record} {rs : List Record}

/-- The entry of a record. -/
def Record.entry (r : Record) : Entry := ⟨r.token, r.id, slave1Name⟩

theorem Record.Ok.entry (h : r.Ok) : r.entry.Ok := by
  have hint := h.int
  have hlt : (r.id : ℤ) < 2 ^ 31 := by omega
  exact ⟨h.line, Int.natCast_nonneg _, hlt⟩

theorem getinfo_slaveText (h : ∀ r ∈ rs, r.Ok) :
    getinfo (fgetsAll 1024 (slaveText rs)) = some (rs.map fun r => r.entry.pair) := by
  have htext : slaveText rs = (rs.map Record.entry).flatMap Entry.record := by
    rw [List.flatMap_map]
    rfl
  have hok : ∀ e ∈ rs.map Record.entry, e.Ok := by
    intro e he
    obtain ⟨r, hr, rfl⟩ := List.mem_map.1 he
    exact (h r hr).entry
  rw [htext, getinfo_records hok, List.map_map]
  rfl

/-! ## The trimmed path -/

theorem Record.Ok.digits (h : r.Ok) : 4 ≤ (Nat.toDigits 10 r.gs).length := by
  by_contra hlt
  have := (Nat.length_toDigits_le_iff (b := 10) (by decide) (by decide)).1 (Nat.le_of_not_lt hlt)
  have := h.gs
  omega

/-- The trim leaves the token up to four characters before its end and before the `_`. -/
theorem trimPath_token (h : r.Ok) : trimPath (r.token ++ ['\n']) =
    some (r.token.take (r.base.length + ((Nat.toDigits 10 r.gs).length - 4))) := by
  have hd := h.digits
  have hlen : r.token.length = r.base.length + 1 + (Nat.toDigits 10 r.gs).length := by
    rw [Record.token, List.length_append, List.length_cons]
    omega
  have hbase : 5 ≤ r.base.length := by
    simp only [Record.base, List.length_append, List.length_cons, List.length_nil]
    omega
  rw [trimPath, List.length_append, List.length_singleton, if_pos (by omega),
    List.take_append_of_le_length (by omega)]
  congr 2
  omega

/-- **The trim takes exactly the generation stamp** if this has four digits. -/
theorem trimPath_eq_base (h : r.Ok) :
    trimPath (r.token ++ ['\n']) = some r.base ↔ r.gs < 10000 := by
  have hd := h.digits
  have hiff : (Nat.toDigits 10 r.gs).length ≤ 4 ↔ r.gs < 10000 :=
    Nat.length_toDigits_le_iff (by decide) (by decide)
  rw [trimPath_token h, Option.some.injEq, ← hiff]
  constructor
  · intro heq
    have hlen := congrArg List.length heq
    rw [List.length_take, Record.token, List.length_append, List.length_cons] at hlen
    omega
  · intro hle
    rw [Nat.sub_eq_zero_of_le hle, Nat.add_zero, Record.token, List.take_left]

/-! ## The hand-over -/

/-- Storing tells the names of files apart. -/
theorem storeFile_inj {name name' : List Char} {pos : ℕ} (hpos : pos < 2 ^ 63)
    (h : ∀ files disk, storeFile files disk name' pos = storeFile files disk name pos) :
    name' = name := by
  by_contra hne
  -- only `name` exists, and it is empty
  have hname : storeFile (fun n => if n = name then some [] else none) ⟨fun _ => 0, 0⟩ name pos ≠
      none := by
    have hseek : Descriptor.lseek ⟨fun _ => 0, 0⟩ pos = some ⟨fun _ => 0, pos⟩ := if_pos hpos
    have hwrite : Descriptor.write ⟨fun _ => 0, pos⟩ [] = some ⟨fun _ => 0, pos⟩ :=
      Descriptor.write_eq_some.2 ⟨Nat.le_of_lt hpos, by rw [Image.patch_nil]; rfl⟩
    rw [storeFile, bind_of_eq_some (if_pos rfl), bind_of_eq_some hseek, bind_of_eq_some hwrite]
    exact Option.some_ne_none _
  refine hname ?_
  rw [← h, storeFile, if_neg hne]
  rfl

theorem delivered_iff (h : r.Ok) : Delivered r.entry.pair r ↔ r.gs < 10000 := by
  have hid : atoi r.entry.pair.2 = r.id := h.entry.atoi_pair
  have hpos : r.id * blockSize < 2 ^ 63 := by
    have := h.int
    rw [blockSize]
    omega
  have hwrite : ∀ files disk, write2disk files disk r.entry.pair.1 (atoi r.entry.pair.2) =
      storeFile files disk (r.token.take (r.base.length + ((Nat.toDigits 10 r.gs).length - 4)))
        (r.id * blockSize) := by
    intro files disk
    rw [hid]
    exact write2disk_eq r.id (trimPath_token h)
  rw [← trimPath_eq_base h, trimPath_token h, Option.some.injEq]
  constructor
  · rintro ⟨-, -, hs⟩
    exact storeFile_inj hpos fun files disk => (hwrite files disk).symm.trans (hs files disk)
  · intro heq
    exact ⟨rfl, hid, fun files disk => by rw [hwrite, heq]⟩

theorem handedOver_iff_delivered (h : ∀ r ∈ rs, r.Ok) :
    HandedOver rs ↔ ∀ r ∈ rs, Delivered r.entry.pair r := by
  rw [HandedOver, getinfo_slaveText h]
  simp only [Option.some.injEq, exists_eq_left', List.forall₂_map_left_iff, List.forall₂_same]

/-- **The hand-over works exactly for generation stamps of four digits.** -/
theorem handed_over_iff (h : ∀ r ∈ rs, r.Ok) : HandedOver rs ↔ ∀ r ∈ rs, r.gs < 10000 := by
  rw [handedOver_iff_delivered h]
  exact forall₂_congr fun r hr => delivered_iff (h r hr)

/-- The records of the blocks 1 and 2, whose generation stamps are 1001 and 9999. -/
def sampleRecords : List Record := [⟨['B', 'P'], ['1'], 1001, 1⟩, ⟨['B', 'P'], ['2'], 9999, 2⟩]

theorem handed_over_sample : HandedOver sampleRecords :=
  (handed_over_iff (by decide +kernel)).2 (by decide)

/-- The record of block 1 with the generation stamp 10000. -/
def restamped : Record := ⟨['B', 'P'], ['1'], 10000, 1⟩

/-- With the generation stamp 10000, a data node looks for `BP:blk_1_`. -/
theorem handed_over_wrong : (∀ r ∈ [restamped], r.Ok) ∧
    trimPath (restamped.token ++ ['\n']) = some (restamped.base ++ ['_']) ∧
    ¬ HandedOver [restamped] := by
  have hok : restamped.Ok := by decide +kernel
  refine ⟨by decide +kernel, by decide +kernel, fun h => ?_⟩
  have hd := (handedOver_iff_delivered (by decide +kernel)).1 h restamped List.mem_cons_self
  exact absurd ((delivered_iff hok).1 hd) (by decide)

end Blocklist
