/-
  `readhdfs.cpp` as a whole: the walk of the directories, then for each file what
  the HDFS client and `hdfs fsck` say of it.

  What these answer is a parameter (`Hdfs`).  The loop over the output of
  `hdfs fsck` may append tokens it has seen before (`lastWords`); `main` takes
  only as many tokens as the file has blocks, from the front.

    - `readhdfs`: `main`, from the root to `filesname` and `filesblk`;
    - `Described`: what is asked of the answers about a file;
    - `blocks_extra`, `fileOk_extra`: tokens behind those of the blocks do not
      matter;
    - `tree_listed`: the two files list every file below the root once, and
      `getfileblk` makes of `filesblk` the records of all their blocks.
-/
import NvmfHdfs.Blocklist.Fsck
import NvmfHdfs.Blocklist.RoundTrip
import NvmfHdfs.Blocklist.Walk

namespace Blocklist

open CInt CText Tokens

/-! ## main -/

/-- `hdfsFileInfo` of a file, the fields that are looked at. -/
structure PathInfo where
  mSize : ℕ
  mBlockSize : ℕ
  mReplication : ℕ

/-- What the HDFS client and `hdfs fsck <file> -files -blocks -locations` answer. -/
structure Hdfs where
  hdfsListDirectory : List Char → List HdfsFileInfo
  hdfsGetPathInfo : List Char → PathInfo
  hdfsGetHosts : List Char → List (List (List Char))
  fsck : List Char → List Char

/-- A file with the words found for it. -/
def toFile (h : Hdfs) (name : List Char) (words : List (List Char)) : HdfsFile where
  name := name
  mSize := (h.hdfsGetPathInfo name).mSize
  mBlockSize := (h.hdfsGetPathInfo name).mBlockSize
  mReplication := (h.hdfsGetPathInfo name).mReplication
  words := words
  hosts := h.hdfsGetHosts name

/-- The loop over the files, each with the loop over its pipe in at most `k` turns. -/
def filesOf (h : Hdfs) (k : ℕ) : List (List Char) → Option (List HdfsFile)
  | [] => some []
  | name :: names => do
    let words ← collect (h.fsck name) k
    let rest ← filesOf h k names
    some (toFile h name words :: rest)

/-- `main`: what it writes to `filesname` and to `filesblk`, each loop in at most `k` turns. -/
def readhdfs (h : Hdfs) (path : List Char) (k : ℕ) : Option (List Char × List Char) := do
  let files ← walk h.hdfsListDirectory path k
  let infos ← filesOf h k files
  let filesblk ← writeFilesblk infos
  some (unlines files, filesblk)

/-! ## The answers about a file -/

variable {h : Hdfs} {name : List Char} {names : List (List Char)} {f : HdfsFile} {k : ℕ}
  {extra : List (List Char)}

/-- A file with the block tokens that `hdfs fsck` prints for it. -/
def described (h : Hdfs) (name : List Char) : HdfsFile := toFile h name (blockTokens (h.fsck name))

/-- `hdfs fsck` prints a text in which the chunks cut no token in a way that matters, and with
    the block tokens in it the file can be written and read back. -/
structure Described (h : Hdfs) (name : List Char) : Prop where
  newline : (h.fsck name).getLast? = some '\n'
  zero : nul ∉ h.fsck name
  cuts : CutsHarmless (h.fsck name)
  file : FileOk (described h name)

/-- The loop over the pipe ends with the block tokens, and those of the last chunk again. -/
theorem Described.collect_eq (hd : Described h name)
    (hk : (fgetsAll 1024 (h.fsck name)).length + 2 ≤ k) :
    collect (h.fsck name) k = some (blockTokens (h.fsck name) ++ lastWords (h.fsck name)) := by
  let o : FsckOutput := ⟨h.fsck name, hd.newline, hd.zero⟩
  have hflat := flatten_fgetsAll (h.fsck name) (show 1 < 1024 by decide)
  have hsame := filter_of_harmless hd.cuts fun g hg => (pieces_ne_nil hg).1
  rw [flatten_pieces, map_flatten_pieces, hflat] at hsame
  have hwords : (fgetsAll 1024 (h.fsck name)).flatMap wordsOf = blockTokens (h.fsck name) :=
    o.words_chunks.trans hsame
  rw [← hwords]
  exact o.collect_eq hk

/-! ## Tokens behind those of the blocks -/

/-- Words behind those that the blocks take are not looked at. -/
theorem blocks_extra (hlen : blockCount f ≤ f.words.length) :
    blocks { f with words := f.words ++ extra } = blocks f := by
  refine List.filterMap_congr fun j hj => ?_
  have hj : j < blockCount f := List.mem_range.1 hj
  rw [block?, block?]
  dsimp only
  rw [List.getElem?_append_left (hj.trans_le hlen)]

theorem fileOk_extra (hf : FileOk f) : FileOk { f with words := f.words ++ extra } := by
  have hblocks : blocks { f with words := f.words ++ extra } = blocks f := blocks_extra hf.words
  have hlen : blockCount f ≤ (f.words ++ extra).length := by
    rw [List.length_append]
    exact hf.words.trans (Nat.le_add_right _ _)
  refine ⟨⟨hf.count, hlen, hf.hosts, ?_⟩, hf.name, hf.plain, ?_⟩
  · rw [hblocks]
    exact hf.host
  · rw [hblocks]
    exact hf.block

/-- The file as `main` has it. -/
def collected (h : Hdfs) (name : List Char) : HdfsFile :=
  toFile h name (blockTokens (h.fsck name) ++ lastWords (h.fsck name))

theorem Described.collected (hd : Described h name) :
    FileOk (collected h name) ∧ blocks (collected h name) = blocks (described h name) :=
  ⟨fileOk_extra hd.file, blocks_extra hd.file.words⟩

/-- What `main` has of the files. -/
theorem filesOf_eq (hd : ∀ name ∈ names, Described h name)
    (hk : ∀ name ∈ names, (fgetsAll 1024 (h.fsck name)).length + 2 ≤ k) :
    filesOf h k names = some (names.map (collected h)) := by
  induction names with
  | nil => rfl
  | cons name names ih =>
    have hwords := (hd name List.mem_cons_self).collect_eq (hk name List.mem_cons_self)
    have ih := ih (fun n hn => hd n (List.mem_cons_of_mem name hn))
      fun n hn => hk n (List.mem_cons_of_mem name hn)
    rw [filesOf, bind_of_eq_some hwords, bind_of_eq_some ih]
    rfl

/-- Their blocks are those that `hdfs fsck` prints. -/
theorem listing_collected (hd : ∀ name ∈ names, Described h name) :
    listing (names.map (collected h)) = listing (names.map (described h)) := by
  rw [listing, listing, List.flatMap_map, List.flatMap_map]
  exact List.flatMap_congr fun name hn => (hd name hn).collected.2

/-! ## The whole of main -/

variable {d : Directory}

/-- Turns that are enough for every loop. -/
def mostTurns (h : Hdfs) (d : Directory) : ℕ :=
  d.content.dirs + 2 +
    (d.content.files.map fun name => (fgetsAll 1024 (h.fsck name)).length + 2).sum

/-- What `main` writes of the files that the walk has found, and what `getfileblk` makes of it. -/
theorem readhdfs_eq {files : List (List Char)} (hperm : files.Perm d.content.files)
    (hwalk : ∀ k, d.content.dirs + 2 ≤ k → walk h.hdfsListDirectory d.path k = some files)
    (hd : ∀ name ∈ files, Described h name) : ∃ text,
    (∀ k, mostTurns h d ≤ k → readhdfs h d.path k = some (unlines files, text)) ∧
    getfileblk text = if (listing (files.map (described h))).length < 2 ^ 31 then
      some (outputsOf (entriesOf (listing (files.map (described h)))), []) else none := by
  have hok : ∀ f ∈ files.map (collected h), FileOk f := by
    intro f hf
    obtain ⟨name, hn, rfl⟩ := List.mem_map.1 hf
    exact (hd name hn).collected.1
  obtain ⟨text, hwrite, hget⟩ := getfileblk_listing hok
  refine ⟨text, fun k hk => ?_, ?_⟩
  · have hturns : ∀ name ∈ files, (fgetsAll 1024 (h.fsck name)).length + 2 ≤ k := by
      intro name hn
      have hmem : (fgetsAll 1024 (h.fsck name)).length + 2 ∈
          d.content.files.map fun name => (fgetsAll 1024 (h.fsck name)).length + 2 :=
        List.mem_map.2 ⟨name, hperm.mem_iff.1 hn, rfl⟩
      have hle := List.le_sum_of_mem hmem
      unfold mostTurns at hk
      omega
    rw [readhdfs, bind_of_eq_some (hwalk k (by unfold mostTurns at hk; omega)),
      bind_of_eq_some (filesOf_eq hd hturns), bind_of_eq_some hwrite]
  · rwa [listing_collected hd] at hget

/-- **The listing of a tree.**  If the client lists the tree below a directory, and `hdfs fsck`
    describes every file of it (in chunks that cut no token in a way that matters, with as many
    block tokens as it has blocks at least, and with lines that are read back), then `main` ends,
    `filesname` has every file once, and `getfileblk` makes of `filesblk` the records of all their
    blocks, numbered in the order of `filesname`, as long as their number is an `int`; a token that
    the loop has collected twice is in none of them. -/
theorem tree_listed (hl : d.Lists h.hdfsListDirectory)
    (hd : ∀ name ∈ d.content.files, Described h name) : ∃ files text,
    files.Perm d.content.files ∧ files.Nodup ∧
    (∀ k, mostTurns h d ≤ k → readhdfs h d.path k = some (unlines files, text)) ∧
    getfileblk text = if (listing (files.map (described h))).length < 2 ^ 31 then
      some (outputsOf (entriesOf (listing (files.map (described h)))), []) else none := by
  obtain ⟨files, hperm, hwalk⟩ := walk_files hl
  obtain ⟨text, hmain, hget⟩ := readhdfs_eq hperm hwalk fun name hn => hd name (hperm.mem_iff.1 hn)
  exact ⟨files, text, hperm, hperm.nodup_iff.2 (d.nodup.sublist d.content.files_sublist), hmain,
    hget⟩

/-- A client with the files `/a`, of two blocks, and `/d/b`, which is empty. -/
def sampleHdfs : Hdfs where
  hdfsListDirectory := sampleInfos
  hdfsGetPathInfo name := ⟨if name = ['/', 'a'] then 2 else 0, 1, 1⟩
  hdfsGetHosts _ := [[slave1Name], [['n']]]
  fsck name := if name = ['/', 'a'] then
    "0. BP-1:blk_1_1001 len=1\n1. BP-1:blk_2_1002 len=1\n".toList else "Status\n".toList

theorem sample_lists : sampleTree.Lists sampleHdfs.hdfsListDirectory :=
  ⟨by decide, by decide, ⟨by decide, trivial, trivial⟩, trivial⟩

theorem sample_described : ∀ name ∈ sampleTree.content.files, Described sampleHdfs name := by
  intro name hn
  rcases List.mem_cons.1 hn with rfl | hn
  · exact ⟨by decide +kernel, by decide +kernel,
      by unfold CutsHarmless Tokens.Harmless; decide +kernel, by decide +kernel⟩
  · obtain rfl := List.mem_singleton.1 hn
    exact ⟨by decide +kernel, by decide +kernel,
      by unfold CutsHarmless Tokens.Harmless; decide +kernel, by decide +kernel⟩

/-- The last line of what is printed of `/a` has a token, which the loop collects twice. -/
theorem tree_listed_sample : ∃ files text,
    files.Perm sampleTree.content.files ∧ files.Nodup ∧
    (∀ k, mostTurns sampleHdfs sampleTree ≤ k →
      readhdfs sampleHdfs sampleTree.path k = some (unlines files, text)) ∧
    getfileblk text = if (listing (files.map (described sampleHdfs))).length < 2 ^ 31 then
      some (outputsOf (entriesOf (listing (files.map (described sampleHdfs)))), []) else none :=
  tree_listed sample_lists sample_described

end Blocklist
