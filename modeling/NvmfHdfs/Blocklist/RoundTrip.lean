/-
  `init.cpp` reads back what `readhdfs.cpp` writes.

  The two programs share no definition of the format: the writer puts the
  lines of a block one after the other, the reader finds the blocks by the
  prefix of their first line and takes two lines after it.

    - `parseLoop_lines`: over the lines of a listing the parse loop pushes the
      token and the first host of every block;
    - `emitAll_eq`: over aligned vectors the output loop writes every record to
      the output of its host;
    - `getfileblk_writeFilesblk`: the round trip;
    - `getfileblk_huge`: more blocks than an `int` counts.
-/
import NvmfHdfs.Blocklist.Reader
import NvmfHdfs.Blocklist.Writer

namespace Blocklist

open CInt CText

variable {l : List Char} {ls xs : List (List Char)} {v : Vectors} {f : HdfsFile}
  {files : List HdfsFile}

/-! ## Lines the parse loop skips -/

/-- A line that is not taken for a header. -/
structure Plain (l : List Char) : Prop where
  file : isFile l = false
  block : isBlock l = false

instance (l : List Char) : Decidable (Plain l) :=
  decidable_of_iff (isFile l = false ∧ isBlock l = false)
    ⟨fun ⟨h1, h2⟩ => ⟨h1, h2⟩, fun ⟨h1, h2⟩ => ⟨h1, h2⟩⟩

theorem isPrefixOf_append {p : List Char} {c : Char} (h : c ∉ p) :
    p.isPrefixOf (l ++ [c]) = p.isPrefixOf l := by
  rw [Bool.eq_iff_iff, List.isPrefixOf_iff_prefix, List.isPrefixOf_iff_prefix,
    List.prefix_concat_iff]
  constructor
  · rintro (rfl | hp)
    · exact absurd (List.mem_append_right l List.mem_cons_self) h
    · exact hp
  · exact .inr

theorem isFile_line : isFile (l ++ ['\n']) = isFile l := isPrefixOf_append (by decide)

theorem isBlock_line : isBlock (l ++ ['\n']) = isBlock l := isPrefixOf_append (by decide)

theorem parseLoop_skip (h : IsLine 1024 l) (hp : Plain l) :
    parseLoop ((l ++ ['\n']) :: ls) v = parseLoop ls v := by
  rw [parseLoop, h.cstr, isFile_line, isBlock_line, hp.file, hp.block]
  rfl

theorem parseLoop_skips (h : ∀ x ∈ xs, IsLine 1024 x ∧ Plain x) :
    parseLoop (xs.map (· ++ ['\n']) ++ ls) v = parseLoop ls v := by
  induction xs with
  | nil => rfl
  | cons x xs ih =>
    obtain ⟨hx, hp⟩ := h x List.mem_cons_self
    rw [List.map_cons, List.cons_append, parseLoop_skip hx hp,
      ih fun y hy => h y (List.mem_cons_of_mem x hy)]

/-! ## Blocks -/

/-- The first host of a block. -/
def Block.first (b : Block) : List Char := b.hosts.headD []

/-- A block that is written with a host, in lines that fit, and whose later hosts are not
    taken for headers. -/
structure Block.Ok (b : Block) : Prop where
  token : IsLine 1024 b.token
  live : b.hosts ≠ []
  host : ∀ host ∈ b.hosts, IsLine 1024 host ∧ host.length ≤ 48
  plain : ∀ host ∈ b.hosts.tail, Plain host

instance (b : Block) : Decidable b.Ok :=
  decidable_of_iff (IsLine 1024 b.token ∧ b.hosts ≠ [] ∧
      (∀ host ∈ b.hosts, IsLine 1024 host ∧ host.length ≤ 48) ∧ ∀ host ∈ b.hosts.tail, Plain host)
    ⟨fun ⟨h1, h2, h3, h4⟩ => ⟨h1, h2, h3, h4⟩, fun ⟨h1, h2, h3, h4⟩ => ⟨h1, h2, h3, h4⟩⟩

/-- The vectors after a list of blocks. -/
def pushBlocks (v : Vectors) (bs : List Block) : Vectors :=
  { v with
    path_vec := v.path_vec ++ bs.map Block.token
    datanode := v.datanode ++ bs.map Block.first }

@[simp] theorem pushBlocks_nil (v : Vectors) : pushBlocks v [] = v := by
  simp only [pushBlocks, List.map_nil, List.append_nil]

theorem pushBlocks_cons (b : Block) (bs : List Block) :
    pushBlocks (pushBlock v b.token b.first) bs = pushBlocks v (b :: bs) := by
  simp only [pushBlocks, pushBlock, List.map_cons, List.append_assoc, List.singleton_append]

theorem pushBlocks_append (bs bs' : List Block) :
    pushBlocks (pushBlocks v bs) bs' = pushBlocks v (bs ++ bs') := by
  simp only [pushBlocks, List.map_append, List.append_assoc]

/-- A word with a number at its end is a line. -/
theorem isLine_numbered {word : List Char} {j : ℕ} (h : IsLine 1000 word) (hj : j < 2 ^ 31) :
    IsLine 1024 (word ++ printInt j) := by
  rw [printInt_natCast]
  have hlen : (Nat.toDigits 10 j).length ≤ 10 :=
    (Nat.length_toDigits_le_iff (by decide) (by decide)).2 (by omega)
  refine ⟨fun hm => ?_, fun hm => ?_, ?_⟩
  · rcases List.mem_append.1 hm with hm | hm
    · exact h.newline hm
    · exact absurd (isDigit_toDigits _ hm) (by decide)
  · rcases List.mem_append.1 hm with hm | hm
    · exact h.nul hm
    · exact absurd (isDigit_toDigits _ hm) (by decide)
  · have hword := h.short
    rw [List.length_append]
    omega

/-- The first line of a block. -/
theorem isLine_blockLine {j : ℕ} (hj : j < 2 ^ 31) : IsLine 1024 (blockWord ++ printInt j) :=
  isLine_numbered (by decide) hj

/-- **A block is read**: its token and its first host. -/
theorem parseLoop_block {b : Block} {j : ℕ} (h : b.Ok) (hj : j < 2 ^ 31) :
    parseLoop ((blockLines j b).map (· ++ ['\n']) ++ ls) v =
      parseLoop ls (pushBlock v b.token b.first) := by
  obtain ⟨token, hosts⟩ := b
  obtain ⟨htoken, hlive, hhost, hplain⟩ := h
  cases hosts with
  | nil => exact absurd rfl hlive
  | cons host hosts =>
    have hfile : isFile (blockWord ++ printInt j) = false := rfl
    have hblock : isBlock (blockWord ++ printInt j) = true := rfl
    have hfirst := (hhost host List.mem_cons_self).1
    simp only [blockLines, List.map_cons, List.cons_append]
    rw [parseLoop, (isLine_blockLine hj).cstr, isFile_line, isBlock_line, hfile, hblock]
    simp only [Bool.false_eq_true, if_false, if_true, Option.bind_eq_bind, Option.bind_some,
      htoken.cstr, hfirst.cstr, chop_append]
    -- the other hosts are skipped
    exact parseLoop_skips fun x hx => ⟨(hhost x (List.mem_cons_of_mem host hx)).1, hplain x hx⟩

theorem parseLoop_blocks : ∀ {bs : List Block} {j : ℕ} {v : Vectors}, (∀ b ∈ bs, b.Ok) →
    j + bs.length ≤ 2 ^ 31 →
    parseLoop ((blocksLines j bs).map (· ++ ['\n']) ++ ls) v = parseLoop ls (pushBlocks v bs)
  | [], j, v, _, _ => by simp [blocksLines]
  | b :: bs, j, v, h, hj => by
    rw [List.length_cons] at hj
    have hbs : ∀ b' ∈ bs, b'.Ok := fun b' hb' => h b' (List.mem_cons_of_mem b hb')
    rw [blocksLines, List.map_append, List.append_assoc,
      parseLoop_block (h b List.mem_cons_self) (by omega), parseLoop_blocks hbs (by omega),
      pushBlocks_cons]

/-- A block whose lines fit the buffer. -/
structure Block.Fits (b : Block) : Prop where
  token : IsLine 1024 b.token
  host : ∀ host ∈ b.hosts, IsLine 1024 host

theorem Block.Ok.fits {b : Block} (h : b.Ok) : b.Fits :=
  ⟨h.token, fun host hhost => (h.host host hhost).1⟩

theorem isLine_blocksLines : ∀ {bs : List Block} {j : ℕ}, (∀ b ∈ bs, b.Fits) →
    j + bs.length ≤ 2 ^ 31 → ∀ l ∈ blocksLines j bs, IsLine 1024 l
  | b :: bs, j, h, hj, l, hl => by
    rw [List.length_cons] at hj
    obtain ⟨htoken, hhost⟩ := h b List.mem_cons_self
    rcases List.mem_append.1 hl with hl | hl
    · rcases List.mem_cons.1 hl with rfl | hl
      · exact isLine_blockLine (by omega)
      · rcases List.mem_cons.1 hl with rfl | hl
        · exact htoken
        · exact hhost l hl
    · exact isLine_blocksLines (fun b' hb' => h b' (List.mem_cons_of_mem b hb')) (by omega) l hl

/-- Every line of a listing fits the buffer. -/
theorem isLine_lines (hname : ∀ f ∈ files, IsLine 1024 f.name)
    (hblock : ∀ f ∈ files, ∀ b ∈ blocks f, b.Fits) : ∀ l ∈ files.flatMap lines, IsLine 1024 l := by
  intro l hl
  obtain ⟨f, hf, hl⟩ := List.mem_flatMap.1 hl
  rcases List.mem_cons.1 hl with rfl | hl
  · exact hname f hf
  · exact isLine_blocksLines (hblock f hf) ((Nat.zero_add _).trans_le (length_blocks f).le) l hl

/-! ## Files -/

/-- A file that is written completely, in lines that fit and are read as they are meant. -/
structure FileOk (f : HdfsFile) : Prop extends Complete f where
  name : IsLine 1024 f.name
  plain : Plain f.name
  block : ∀ b ∈ blocks f, b.Ok

instance (f : HdfsFile) : Decidable (FileOk f) :=
  decidable_of_iff (Complete f ∧ IsLine 1024 f.name ∧ Plain f.name ∧ ∀ b ∈ blocks f, b.Ok)
    ⟨fun ⟨h1, h2, h3, h4⟩ => ⟨h1, h2, h3, h4⟩, fun ⟨h1, h2, h3, h4⟩ => ⟨h1, h2, h3, h4⟩⟩

/-- The blocks of a listing. -/
def listing (files : List HdfsFile) : List Block := files.flatMap blocks

theorem parseLoop_file (h : FileOk f) :
    parseLoop ((lines f).map (· ++ ['\n']) ++ ls) v = parseLoop ls (pushBlocks v (blocks f)) := by
  have hlen := length_blocks f
  rw [lines, List.map_cons, List.cons_append, parseLoop_skip h.name h.plain,
    parseLoop_blocks h.block (by omega)]

/-- **The parse loop over a listing** pushes the token and the first host of every block. -/
theorem parseLoop_lines (h : ∀ f ∈ files, FileOk f) :
    parseLoop ((files.flatMap lines).map (· ++ ['\n'])) v =
      some (pushBlocks v (listing files)) := by
  induction files generalizing v with
  | nil => simp [parseLoop, listing]
  | cons f files ih =>
    rw [List.flatMap_cons, List.map_append, parseLoop_file (h f List.mem_cons_self),
      ih fun f' hf' => h f' (List.mem_cons_of_mem f hf'), pushBlocks_append, listing, listing,
      List.flatMap_cons]

/-! ## The outputs -/

/-- What is written for a block: its path, its slot id and its data node. -/
structure Entry where
  path : List Char
  id : ℤ
  host : List Char

/-- The record of an entry. -/
def Entry.record (e : Entry) : List Char := recordOf e.path e.id

/-- The vectors hold the entries from index `i` on. -/
def Aligned (v : Vectors) (i : ℕ) (es : List Entry) : Prop :=
  ∀ j (h : j < es.length), v.path_vec[i + j]? = some es[j].path ∧
    v.blk_id[i + j]? = some es[j].id ∧ v.datanode[i + j]? = some es[j].host

theorem Aligned.tail {i : ℕ} {e : Entry} {es : List Entry} (h : Aligned v i (e :: es)) :
    Aligned v (i + 1) es := by
  intro j hj
  have := h (j + 1) (Nat.succ_lt_succ hj)
  rwa [List.getElem_cons_succ, ← Nat.add_assoc, Nat.add_right_comm] at this

/-- **The output loop over aligned vectors** writes every record to the output of its host. -/
theorem emitAll_eq : ∀ {es : List Entry} {i : ℕ} {o : Outputs}, Aligned v i es →
    (∀ e ∈ es, e.record.length < 2000) →
    emitAll v es.length i o = some (es.foldl (fun o e => o.write e.host e.record) o)
  | [], _, _, _, _ => rfl
  | e :: es, i, o, h, hlen => by
    obtain ⟨hpath, hid, hhost⟩ := h 0 (Nat.succ_pos _)
    rw [Nat.add_zero] at hpath hid hhost
    have hrec : (recordOf e.path e.id).length < 2000 := hlen e List.mem_cons_self
    have hemit : emit v i o = some (o.write e.host e.record) := by
      rw [emit, bind_of_eq_some hpath, bind_of_eq_some hid, bind_of_eq_some hhost]
      exact if_pos hrec
    rw [List.length_cons, emitAll, bind_of_eq_some hemit, List.foldl_cons,
      emitAll_eq h.tail fun e' he' => hlen e' (List.mem_cons_of_mem e he')]

/-- The records of the entries whose host meets `p`, in order. -/
def recordsOf (p : List Char → Bool) (es : List Entry) : List Char :=
  (es.filter fun e => p e.host).flatMap Entry.record

theorem recordsOf_cons (p : List Char → Bool) (e : Entry) (es : List Entry) :
    recordsOf p (e :: es) = (if p e.host then e.record else []) ++ recordsOf p es := by
  rw [recordsOf, List.filter_cons]
  split_ifs
  · rw [List.flatMap_cons, recordsOf]
  · rw [List.nil_append, recordsOf]

/-- The outputs of the entries: `slave1` and `slave2` get their own, `node` the others. -/
def outputsOf (es : List Entry) : Outputs where
  slave1 := recordsOf (· = slave1Name) es
  slave2 := recordsOf (· = slave2Name) es
  node := recordsOf (fun host => host ≠ slave1Name ∧ host ≠ slave2Name) es

/-- Outputs one after the other. -/
def Outputs.append (o o' : Outputs) : Outputs :=
  ⟨o.slave1 ++ o'.slave1, o.slave2 ++ o'.slave2, o.node ++ o'.node⟩

theorem write_append (o : Outputs) (e : Entry) (es : List Entry) :
    (o.write e.host e.record).append (outputsOf es) = o.append (outputsOf (e :: es)) := by
  simp only [Outputs.append, outputsOf, recordsOf_cons, Outputs.write]
  have hne : slave2Name ≠ slave1Name := by decide
  by_cases h1 : e.host = slave1Name
  · simp [h1, hne.symm]
  · by_cases h2 : e.host = slave2Name
    · simp [h2, hne]
    · simp [h1, h2]

theorem foldl_write (es : List Entry) (o : Outputs) :
    es.foldl (fun o e => o.write e.host e.record) o = o.append (outputsOf es) := by
  induction es generalizing o with
  | nil => simp [Outputs.append, outputsOf, recordsOf]
  | cons e es ih => rw [List.foldl_cons, ih, write_append]

/-! ## The round trip -/

/-- The entries of a listing: every block with its number, from 1 on. -/
def entriesOf (bs : List Block) : List Entry :=
  (bs.zipIdx 1).map fun x => ⟨x.1.token, x.2, x.1.first⟩

theorem length_entriesOf (bs : List Block) : (entriesOf bs).length = bs.length := by
  simp [entriesOf]

/-- The vectors of a listing hold its entries. -/
theorem aligned_entriesOf (bs : List Block) :
    Aligned ⟨bs.map Block.token, (List.range bs.length).map fun i : ℕ => (i : ℤ) + 1,
      bs.map Block.first, []⟩ 0 (entriesOf bs) := by
  intro j hj
  have hj' : j < bs.length := hj.trans_eq (length_entriesOf bs)
  simp [entriesOf, hj', add_comm]

/-- The record of a block fits its buffer. -/
theorem length_record {bs : List Block} (h : ∀ b ∈ bs, IsLine 1024 b.token)
    (hlen : bs.length < 2 ^ 31) : ∀ e ∈ entriesOf bs, e.record.length < 2000 := by
  intro e he
  obtain ⟨⟨b, k⟩, hx, rfl⟩ := List.mem_map.1 he
  obtain ⟨-, hk, hb⟩ := List.mem_zipIdx hx
  have htoken := (h b (hb ▸ List.getElem_mem _)).short
  exact length_recordOf (Nat.lt_of_succ_lt htoken) (by omega)

/-- **What `getfileblk` makes of the blocks it has read.** -/
theorem getfileblk_of_parse {text : List Char} {bs : List Block}
    (h : ∀ b ∈ bs, IsLine 1024 b.token)
    (hp : parseLoop (fgetsAll 1024 text) ⟨[], [], [], []⟩ = some (pushBlocks ⟨[], [], [], []⟩ bs)) :
    getfileblk text =
      if bs.length < 2 ^ 31 then some (outputsOf (entriesOf bs), []) else none := by
  have hv : pushBlocks ⟨[], [], [], []⟩ bs =
      ⟨bs.map Block.token, [], bs.map Block.first, []⟩ := rfl
  rw [getfileblk, bind_of_eq_some hp, hv, pushIds]
  dsimp only
  rw [List.length_map]
  split_ifs with hlen
  · rw [bind_of_eq_some rfl]
    dsimp only
    have halign := aligned_entriesOf bs
    rw [List.nil_append, List.length_map, ← length_entriesOf,
      emitAll_eq (length_entriesOf _ ▸ halign) (length_record h hlen), foldl_write]
    rfl
  · rfl

/-- **What `getfileblk` makes of a listing** that `readhdfs` wrote. -/
theorem getfileblk_listing (h : ∀ f ∈ files, FileOk f) : ∃ text,
    writeFilesblk files = some text ∧ getfileblk text =
      if (listing files).length < 2 ^ 31 then some (outputsOf (entriesOf (listing files)), [])
      else none := by
  refine ⟨_, writeFilesblk_eq fun f hf => (h f hf).toComplete, ?_⟩
  have htoken : ∀ b ∈ listing files, IsLine 1024 b.token := by
    intro b hb
    obtain ⟨f, hf, hb⟩ := List.mem_flatMap.1 hb
    exact ((h f hf).block b hb).token
  refine getfileblk_of_parse htoken ?_
  rw [fgetsAll_unlines (isLine_lines (fun f hf => (h f hf).name) fun f hf b hb =>
    ((h f hf).block b hb).fits), parseLoop_lines h]

/-- **The block list is read back**: of every listing `readhdfs` writes, `getfileblk` writes
    each block with its number to the output of its first host, exactly if the number of
    blocks is an `int`. -/
theorem getfileblk_writeFilesblk (h : ∀ f ∈ files, FileOk f) : ∃ text,
    writeFilesblk files = some text ∧
      (getfileblk text = some (outputsOf (entriesOf (listing files)), []) ↔
        (listing files).length < 2 ^ 31) := by
  obtain ⟨text, hw, hg⟩ := getfileblk_listing h
  refine ⟨text, hw, ?_⟩
  rw [hg]
  split_ifs with hlen
  · exact ⟨fun _ => hlen, fun _ => rfl⟩
  · exact ⟨nofun, fun h => absurd h hlen⟩

/-- `"/a"` with two blocks, the first one on two hosts, and the empty `"/b"`. -/
def sampleFiles : List HdfsFile :=
  [⟨['/', 'a'], 2, 1, 2, [['t', '1'], ['t', '2']], [[slave1Name, ['n']], [['n']]]⟩,
    ⟨['/', 'b'], 0, 1, 2, [], []⟩]

theorem getfileblk_writeFilesblk_sample : ∃ text, writeFilesblk sampleFiles = some text ∧
    (getfileblk text = some (outputsOf (entriesOf (listing sampleFiles)), []) ↔
      (listing sampleFiles).length < 2 ^ 31) :=
  getfileblk_writeFilesblk (by decide +kernel)

/-! ## More blocks than an `int` counts -/

/-- File `/a<i>` of `n` blocks of 128 MB, each on `slave1`. -/
def bigFile (n i : ℕ) : HdfsFile :=
  ⟨['/', 'a'] ++ printInt i, n * 2 ^ 27, 2 ^ 27, 1, List.replicate n ['t'],
    List.replicate n [slave1Name]⟩

theorem blknum_bigFile {n : ℕ} (h : n < 2 ^ 31) (i : ℕ) : blknum (bigFile n i) = some n := by
  have hn : (n * 2 ^ 27 + 2 ^ 27 - 1) / 2 ^ 27 = n := by omega
  rw [blknum, bigFile]
  dsimp only
  rw [if_neg (by decide), hn, if_pos h]

theorem blockCount_bigFile {n : ℕ} (h : n < 2 ^ 31) (i : ℕ) : blockCount (bigFile n i) = n := by
  rw [blockCount, blknum_bigFile h, Option.getD_some]
  split_ifs with h0
  · have h0 : n * 2 ^ 27 = 0 := h0
    omega
  · rfl

theorem blocks_bigFile {n : ℕ} (h : n < 2 ^ 31) (i : ℕ) :
    blocks (bigFile n i) = List.replicate n ⟨['t'], [slave1Name]⟩ := by
  have hblock : ∀ j ∈ List.range n, block? (bigFile n i) j = some ⟨['t'], [slave1Name]⟩ := by
    intro j hj
    have hj := List.mem_range.1 hj
    rw [block?, bigFile]
    simp only [List.getElem?_replicate, if_pos hj]
    rfl
  rw [blocks, blockCount_bigFile h,
    List.filterMap_eq_map_iff_forall_eq_some.2 hblock, List.map_const', List.length_range]

theorem bigFile_ok {n i : ℕ} (h : n < 2 ^ 31) (hi : i < 2 ^ 31) : FileOk (bigFile n i) := by
  have hblocks : ∀ b ∈ blocks (bigFile n i), b = ⟨['t'], [slave1Name]⟩ := by
    intro b hb
    rw [blocks_bigFile h] at hb
    exact List.eq_of_mem_replicate hb
  have hok : Block.Ok ⟨['t'], [slave1Name]⟩ := by decide
  have hname : IsLine 1024 (['/', 'a'] ++ printInt i) := isLine_numbered (by decide) hi
  have hplain : Plain (['/', 'a'] ++ printInt i) := ⟨rfl, rfl⟩
  refine ⟨⟨by rw [blknum_bigFile h]; rfl, ?_, ?_, ?_⟩, hname, hplain, ?_⟩
  · rw [blockCount_bigFile h, bigFile, List.length_replicate]
  · rw [blockCount_bigFile h, bigFile, List.length_replicate]
  · intro b hb host hhost
    rw [hblocks b hb] at hhost
    exact (hok.host host hhost).2
  · intro b hb
    rw [hblocks b hb]
    exact hok

/-- `m` files of `n` blocks. -/
def bigListing (m n : ℕ) : List HdfsFile := (List.range m).map (bigFile n)

theorem bigListing_ok {m n : ℕ} (hm : m < 2 ^ 31) (hn : n < 2 ^ 31) :
    ∀ f ∈ bigListing m n, FileOk f := by
  intro f hf
  obtain ⟨i, hi, rfl⟩ := List.mem_map.1 hf
  exact bigFile_ok hn ((List.mem_range.1 hi).trans hm)

theorem length_bigListing {m n : ℕ} (hn : n < 2 ^ 31) :
    (listing (bigListing m n)).length = m * n := by
  have hlen : (fun f => (blocks f).length) ∘ bigFile n = fun _ => n := by
    funext i
    rw [Function.comp_apply, blocks_bigFile hn, List.length_replicate]
  rw [listing, bigListing, List.length_flatMap, List.map_map, hlen]
  simp

/-- 2048 files of `2^20` blocks: the number of the last block is not an `int`. -/
theorem getfileblk_huge : ∃ text, (∀ f ∈ bigListing (2 ^ 11) (2 ^ 20), FileOk f) ∧
    writeFilesblk (bigListing (2 ^ 11) (2 ^ 20)) = some text ∧ getfileblk text = none ∧
    ¬ getfileblk text =
      some (outputsOf (entriesOf (listing (bigListing (2 ^ 11) (2 ^ 20)))), []) := by
  have hn : 2 ^ 20 < 2 ^ 31 := Nat.pow_lt_pow_right (by decide) (by decide)
  have hok := bigListing_ok (m := 2 ^ 11) (Nat.pow_lt_pow_right (by decide) (by decide)) hn
  obtain ⟨text, hw, hg⟩ := getfileblk_listing hok
  rw [length_bigListing hn, if_neg (by norm_num)] at hg
  refine ⟨text, hok, hw, hg, ?_⟩
  rw [hg]
  exact nofun

end Blocklist
