/-
  `readhdfs.cpp`: writing `filesblk`.

  For each file, `main` has what the HDFS client and `hdfs fsck` said of it
  (`HdfsFile`) and writes its path, then for each block a line `block<j>`, the
  block's token and the hosts of its copies.  A block without a token or a host
  list, or a host name that overruns its buffer, is undefined (`none`).

    - `lines`: the lines of a file, from its blocks;
    - `writeFilesblk_eq`: what is written is these lines, file by file.
-/
import NvmfHdfs.Lib.CInt
import NvmfHdfs.Lib.CText

namespace Blocklist

open CInt CText

/-! ## main -/

/-- What `main` reads of a file: its path and the fields of `hdfsFileInfo`, the words that
    start with `BP-` in what `hdfs fsck` prints (`words`), and for each block the hosts of
    `hdfsGetHosts` up to the `NULL`. -/
structure HdfsFile where
  name : List Char
  mSize : ℕ
  mBlockSize : ℕ
  mReplication : ℕ
  words : List (List Char)
  hosts : List (List (List Char))

/-- `int blknum=ceil((double)mSize/(double)mBlockSize)`, for sizes a `double` holds. -/
def blknum (f : HdfsFile) : Option ℕ :=
  if f.mBlockSize = 0 then none else
    let n := (f.mSize + f.mBlockSize - 1) / f.mBlockSize
    if n < 2 ^ 31 then some n else none

/-- The loop over the hosts of a block, with `k` of the `cpnum` copies to go. -/
def writeHosts : ℕ → List (List Char) → Option (List Char)
  | 0, _ => some []
  | _ + 1, [] => some []
  | k + 1, host :: hosts => do
    -- `char a[50]`
    if host.length + 1 < 50 then
      let rest ← writeHosts k hosts
      some (host ++ '\n' :: rest)
    else none

/-- `"block"`. -/
def blockWord : List Char := ['b', 'l', 'o', 'c', 'k']

/-- The loop over the blocks, `k` of them from `j` on. -/
def writeBlocks (f : HdfsFile) : ℕ → ℕ → Option (List Char)
  | 0, _ => some []
  | k + 1, j => do
    let word ← f.words[j]?
    let hosts ← f.hosts[j]?
    let hostLines ← writeHosts f.mReplication hosts
    let rest ← writeBlocks f k (j + 1)
    some (blockWord ++ printInt j ++ '\n' :: word ++ '\n' :: hostLines ++ rest)

/-- What `main` writes for a file. -/
def writeFile (f : HdfsFile) : Option (List Char) := do
  let n ← blknum f
  let blocks ← writeBlocks f (if f.mSize = 0 then 0 else n) 0
  some (f.name ++ '\n' :: blocks)

/-- What `main` writes to `filesblk`. -/
def writeFilesblk : List HdfsFile → Option (List Char)
  | [] => some []
  | f :: files => do
    let text ← writeFile f
    let rest ← writeFilesblk files
    some (text ++ rest)

/-! ## The listing -/

/-- A block: its token and its live hosts. -/
structure Block where
  token : List Char
  hosts : List (List Char)

/-- Block `j` of a file, as far as `main` writes it. -/
def block? (f : HdfsFile) (j : ℕ) : Option Block := do
  let word ← f.words[j]?
  let hosts ← f.hosts[j]?
  some ⟨word, hosts.take f.mReplication⟩

/-- The number of blocks of a file. -/
def blockCount (f : HdfsFile) : ℕ := if f.mSize = 0 then 0 else (blknum f).getD 0

/-- The blocks of a file. -/
def blocks (f : HdfsFile) : List Block := (List.range (blockCount f)).filterMap (block? f)

/-- The lines of block `j`. -/
def blockLines (j : ℕ) (b : Block) : List (List Char) :=
  (blockWord ++ printInt j) :: b.token :: b.hosts

/-- The lines of a list of blocks, numbered from `j`. -/
def blocksLines : ℕ → List Block → List (List Char)
  | _, [] => []
  | j, b :: bs => blockLines j b ++ blocksLines (j + 1) bs

/-- The lines of a file. -/
def lines (f : HdfsFile) : List (List Char) := f.name :: blocksLines 0 (blocks f)

/-! ## What is written -/

/-- A file whose `blknum` is defined, with a token and a host list for every block and host
    names that fit their buffer. -/
structure Complete (f : HdfsFile) : Prop where
  count : (blknum f).isSome = true
  words : blockCount f ≤ f.words.length
  hosts : blockCount f ≤ f.hosts.length
  host : ∀ b ∈ blocks f, ∀ host ∈ b.hosts, host.length ≤ 48

instance (f : HdfsFile) : Decidable (Complete f) :=
  decidable_of_iff ((blknum f).isSome = true ∧ blockCount f ≤ f.words.length ∧
      blockCount f ≤ f.hosts.length ∧ ∀ b ∈ blocks f, ∀ host ∈ b.hosts, host.length ≤ 48)
    ⟨fun ⟨h1, h2, h3, h4⟩ => ⟨h1, h2, h3, h4⟩, fun ⟨h1, h2, h3, h4⟩ => ⟨h1, h2, h3, h4⟩⟩

variable {f : HdfsFile} {files : List HdfsFile}

theorem blknum_lt {n : ℕ} (h : blknum f = some n) : n < 2 ^ 31 := by
  unfold blknum at h
  split_ifs at h with hbs
  dsimp only at h
  split_ifs at h with hlt
  rwa [← Option.some.inj h]

/-- The number of blocks is an `int`. -/
theorem length_blocks (f : HdfsFile) : (blocks f).length < 2 ^ 31 := by
  have hle : (blocks f).length ≤ blockCount f :=
    (List.length_filterMap_le _ _).trans_eq List.length_range
  refine hle.trans_lt ?_
  rw [blockCount]
  split_ifs
  · exact Nat.two_pow_pos 31
  · cases h : blknum f with
    | none => exact Nat.two_pow_pos 31
    | some n => exact blknum_lt h

theorem writeHosts_eq : ∀ {k : ℕ} {hosts : List (List Char)},
    (∀ host ∈ hosts.take k, host.length ≤ 48) → writeHosts k hosts = some (unlines (hosts.take k))
  | 0, _, _ => rfl
  | k + 1, [], _ => rfl
  | k + 1, host :: hosts, h => by
    have hhost : host.length ≤ 48 := h host List.mem_cons_self
    have ih : writeHosts k hosts = some (unlines (hosts.take k)) :=
      writeHosts_eq fun x hx => h x (List.mem_cons_of_mem host hx)
    rw [writeHosts, if_pos (by omega), ih, List.take_succ_cons, unlines_cons]
    rfl

theorem writeBlocks_eq : ∀ {k j : ℕ} {bs : List Block},
    (List.range' j k).map (block? f) = bs.map some →
    (∀ b ∈ bs, ∀ host ∈ b.hosts, host.length ≤ 48) →
    writeBlocks f k j = some (unlines (blocksLines j bs))
  | 0, _, [], _, _ => rfl
  | k + 1, j, b :: bs, h, hh => by
    rw [List.range'_succ, List.map_cons, List.map_cons, List.cons.injEq] at h
    obtain ⟨hb, h⟩ := h
    obtain ⟨word, hword, hb⟩ := Option.bind_eq_some_iff.1 hb
    obtain ⟨hosts, hhosts, hb⟩ := Option.bind_eq_some_iff.1 hb
    obtain rfl := Option.some.inj hb
    have ih := writeBlocks_eq h fun b' hb' => hh b' (List.mem_cons_of_mem _ hb')
    have hw := writeHosts_eq (hh _ List.mem_cons_self)
    rw [writeBlocks, bind_of_eq_some hword, bind_of_eq_some hhosts, bind_of_eq_some hw,
      bind_of_eq_some ih]
    simp only [blocksLines, blockLines, List.cons_append, unlines_cons, unlines_append,
      List.append_assoc]

theorem map_eq_of_isSome {α β : Type} {g : α → Option β} {l : List α}
    (h : ∀ x ∈ l, (g x).isSome = true) : l.map g = (l.filterMap g).map some := by
  induction l with
  | nil => rfl
  | cons x l ih =>
    obtain ⟨y, hy⟩ := Option.isSome_iff_exists.1 (h x List.mem_cons_self)
    rw [List.filterMap_cons_some hy, List.map_cons, List.map_cons, hy,
      ih fun z hz => h z (List.mem_cons_of_mem x hz)]

namespace Complete
variable (h : Complete f)
include h

/-- No block is missing. -/
theorem block?_eq : (List.range (blockCount f)).map (block? f) = (blocks f).map some := by
  have hsome : ∀ j ∈ List.range (blockCount f), (block? f j).isSome = true := by
    intro j hj
    have hj := List.mem_range.1 hj
    rw [block?, List.getElem?_eq_getElem (hj.trans_le h.words),
      List.getElem?_eq_getElem (hj.trans_le h.hosts)]
    rfl
  exact map_eq_of_isSome hsome

/-- **What is written for a file are its lines.** -/
theorem writeFile_eq : writeFile f = some (unlines (lines f)) := by
  obtain ⟨n, hn⟩ := Option.isSome_iff_exists.1 h.count
  have hcount : (if f.mSize = 0 then 0 else n) = blockCount f := by
    rw [blockCount, hn, Option.getD_some]
  have hb := h.block?_eq
  rw [List.range_eq_range'] at hb
  rw [writeFile, bind_of_eq_some hn, hcount, bind_of_eq_some (writeBlocks_eq hb h.host), lines,
    unlines_cons]

end Complete

/-- **What is written to `filesblk` are the lines of the files.** -/
theorem writeFilesblk_eq (h : ∀ f ∈ files, Complete f) :
    writeFilesblk files = some (unlines (files.flatMap lines)) := by
  induction files with
  | nil => rfl
  | cons f files ih =>
    rw [writeFilesblk, bind_of_eq_some (h f List.mem_cons_self).writeFile_eq,
      bind_of_eq_some (ih fun f' hf' => h f' (List.mem_cons_of_mem f hf')), List.flatMap_cons,
      unlines_append]

end Blocklist
