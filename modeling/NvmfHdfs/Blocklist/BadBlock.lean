/-
  A block without hosts in the block list.

  The writer puts no host line for it; the reader takes the line after its
  token for its host all the same.  This is the header of the next block of the
  file, which is lost, or the path of the next file, or (at the end of the
  text) the token again.

    - `parseLoop_recorded`: over a listing the parse loop pushes the blocks that
      no block before them hides;
    - `Unmoved`: with and without the hosts of a block, every other block is
      written once, and to the same output;
    - `bad_block_local_iff`: for which blocks of which listings this holds;
    - `bad_block_hides`: a block of which the next one of the file is lost.
-/
import NvmfHdfs.Blocklist.DataNode
import NvmfHdfs.Lib.Shadow

namespace Blocklist

open CInt CText Path Shadow

variable {b c : Block} {bs rs : List Block} {f : HdfsFile} {files : List HdfsFile}
  {ls : List (List Char)} {v : Vectors}

/-! ## Listings -/

/-- A block of which `main` writes no host. -/
def Hostless (b : Block) : Prop := b.hosts = []

instance : DecidablePred Hostless := fun b => inferInstanceAs (Decidable (b.hosts = []))

/-- A block as it is written, with or without hosts: its token is a word that starts with
    `BP-`, its lines fit, and no host is taken for a header. -/
structure Block.Listed (b : Block) : Prop where
  token : IsLine 1024 b.token
  word : ['B', 'P', '-'] <+: b.token
  host : ∀ host ∈ b.hosts, IsLine 1024 host ∧ host.length ≤ 48 ∧ Plain host

instance (b : Block) : Decidable b.Listed :=
  decidable_of_iff (IsLine 1024 b.token ∧ ['B', 'P', '-'] <+: b.token ∧
      ∀ host ∈ b.hosts, IsLine 1024 host ∧ host.length ≤ 48 ∧ Plain host)
    ⟨fun ⟨h1, h2, h3⟩ => ⟨h1, h2, h3⟩, fun ⟨h1, h2, h3⟩ => ⟨h1, h2, h3⟩⟩

/-- A file that is written completely, with a path that has a `/` and is not taken for a
    header. -/
structure Listed (f : HdfsFile) : Prop extends Complete f where
  name : IsLine 1024 f.name
  slash : '/' ∈ f.name
  plain : Plain f.name
  block : ∀ b ∈ blocks f, b.Listed

instance (f : HdfsFile) : Decidable (Listed f) :=
  decidable_of_iff (Complete f ∧ IsLine 1024 f.name ∧ '/' ∈ f.name ∧ Plain f.name ∧
      ∀ b ∈ blocks f, b.Listed)
    ⟨fun ⟨h1, h2, h3, h4, h5⟩ => ⟨h1, h2, h3, h4, h5⟩,
      fun ⟨h1, h2, h3, h4, h5⟩ => ⟨h1, h2, h3, h4, h5⟩⟩

/-- The blocks of a listing, if in each file those that meet `p` hide the next one. -/
def visibleIn (p : Block → Prop) [DecidablePred p] (files : List HdfsFile) : List Block :=
  files.flatMap fun f => visible p (blocks f)

/-- The blocks that are recorded. -/
def recorded (files : List HdfsFile) : List Block := visibleIn Hostless files

/-! ## The parse loop -/

/-- What the outputs show of a block: its token and its data node. -/
def Block.seen (b : Block) : List Char × Node := (b.token, nodeOf b.first)

theorem nodeOf_other {c : Char} {l : List Char} (hc : c ∈ l) (h1 : c ∉ slave1Name)
    (h2 : c ∉ slave2Name) : nodeOf l = .node := by
  have hne1 : l ≠ slave1Name := fun heq => h1 (heq ▸ hc)
  have hne2 : l ≠ slave2Name := fun heq => h2 (heq ▸ hc)
  rw [nodeOf, if_neg hne1, if_neg hne2]

namespace Block.Listed
variable (h : b.Listed)
include h

theorem fits : b.Fits := ⟨h.token, fun host hhost => (h.host host hhost).1⟩

theorem plain : Plain b.token := by
  obtain ⟨l, hl⟩ := h.word
  rw [← hl]
  exact ⟨rfl, rfl⟩

theorem ok (hb : ¬ Hostless b) : b.Ok :=
  ⟨h.token, hb, fun host hhost => ⟨(h.host host hhost).1, (h.host host hhost).2.1⟩,
    fun host hhost => (h.host host (List.mem_of_mem_tail hhost)).2.2⟩

/-- The lines after the header of a block, where they are skipped. -/
theorem skip : parseLoop ((b.token :: b.hosts).map (· ++ ['\n']) ++ ls) v = parseLoop ls v :=
  parseLoop_skips fun x hx => by
    rcases List.mem_cons.1 hx with rfl | hx
    · exact ⟨h.token, h.plain⟩
    · exact ⟨(h.host x hx).1, (h.host x hx).2.2⟩

/-- A block without hosts takes the next line for its host. -/
theorem parseLoop_hostless (hb : Hostless b) {j : ℕ} (hj : j < 2 ^ 31) {line : List Char}
    (hline : IsLine 1024 line) :
    parseLoop ((blockLines j b).map (· ++ ['\n']) ++ (line ++ ['\n']) :: ls) v =
      parseLoop ls (pushBlock v b.token line) := by
  obtain ⟨token, hosts⟩ := b
  obtain rfl : hosts = [] := hb
  have hfile : isFile (blockWord ++ printInt j) = false := rfl
  have hblock : isBlock (blockWord ++ printInt j) = true := rfl
  simp only [blockLines, List.map_cons, List.map_nil, List.cons_append, List.nil_append]
  rw [parseLoop, (isLine_blockLine hj).cstr, isFile_line, isBlock_line, hfile, hblock]
  simp only [Bool.false_eq_true, if_false, if_true, Option.bind_eq_bind, Option.bind_some,
    h.token.cstr, hline.cstr, chop_append]

/-- At the end of the text, it is its token without the last character. -/
theorem parseLoop_last (hb : Hostless b) {j : ℕ} (hj : j < 2 ^ 31) :
    parseLoop ((blockLines j b).map (· ++ ['\n'])) v =
      some (pushBlock v b.token b.token.dropLast) := by
  obtain ⟨token, hosts⟩ := b
  obtain rfl : hosts = [] := hb
  have hfile : isFile (blockWord ++ printInt j) = false := rfl
  have hblock : isBlock (blockWord ++ printInt j) = true := rfl
  have hchop : chop token = some token.dropLast := by
    obtain ⟨l, rfl⟩ := h.word
    rfl
  simp only [blockLines, List.map_cons, List.map_nil]
  rw [parseLoop, (isLine_blockLine hj).cstr, isFile_line, isBlock_line, hfile, hblock]
  simp only [Bool.false_eq_true, if_false, if_true, Option.bind_eq_bind, Option.bind_some,
    h.token.cstr, chop_append, hchop]

/-- The block after a block without hosts is lost: its header is taken for the host, and its
    other lines are skipped. -/
theorem parseLoop_hides (hc : c.Listed) (hb : Hostless b) {j : ℕ} (hj : j + 1 < 2 ^ 31) :
    parseLoop ((blockLines j b ++ blockLines (j + 1) c).map (· ++ ['\n']) ++ ls) v =
      parseLoop ls (pushBlock v b.token (blockWord ++ printInt (j + 1 : ℕ))) := by
  have hline : IsLine 1024 (blockWord ++ printInt (j + 1 : ℕ)) := isLine_blockLine hj
  have hlines : (blockLines (j + 1) c).map (· ++ ['\n']) =
      (blockWord ++ printInt (j + 1 : ℕ) ++ ['\n']) :: (c.token :: c.hosts).map (· ++ ['\n']) := rfl
  rw [List.map_append, List.append_assoc, hlines, List.cons_append,
    h.parseLoop_hostless hb (by omega) hline, hc.skip]

end Block.Listed

/-- What may follow the blocks of a file: the path of the next one, or nothing. -/
inductive Follows : List (List Char) → Prop where
  | eof : Follows []
  | path {name : List Char} (hline : IsLine 1024 name) (hslash : '/' ∈ name) (hplain : Plain name)
      (ls : List (List Char)) : Follows ((name ++ ['\n']) :: ls)

theorem seen_hostless (hb : Hostless b) {line : List Char} (hline : nodeOf line = .node) :
    Block.seen ⟨b.token, [line]⟩ = b.seen := by
  obtain ⟨token, hosts⟩ := b
  obtain rfl : hosts = [] := hb
  exact Prod.ext rfl hline

/-- **The blocks of a file are read**, but for the hidden ones. -/
theorem parseLoop_visible (hf : Follows ls) (h : ∀ b ∈ bs, b.Listed) {j : ℕ}
    (hj : j + bs.length ≤ 2 ^ 31) :
    ∃ rs, rs.map Block.seen = (visible Hostless bs).map Block.seen ∧
      parseLoop ((blocksLines j bs).map (· ++ ['\n']) ++ ls) v =
        parseLoop ls (pushBlocks v rs) := by
  fun_induction visible Hostless bs generalizing j v with
  | case1 => exact ⟨[], rfl, by rw [pushBlocks_nil]; rfl⟩
  | case2 b =>
    have hb := h b List.mem_cons_self
    have hj : j < 2 ^ 31 := by simpa using hj
    rw [blocksLines, blocksLines, List.append_nil]
    by_cases hl : Hostless b
    · cases hf with
      | eof =>
        obtain ⟨l, hword⟩ := hb.word
        have hnode : nodeOf b.token.dropLast = .node := by
          rw [← hword]
          exact nodeOf_other (c := 'B') List.mem_cons_self (by decide) (by decide)
        exact ⟨[⟨b.token, [b.token.dropLast]⟩], by
          rw [List.map_singleton, List.map_singleton, seen_hostless hl hnode],
          by rw [List.append_nil, hb.parseLoop_last hl hj]; rfl⟩
      | @path name hline hslash hplain ls =>
        have hnode : nodeOf name = .node := nodeOf_other hslash (by decide) (by decide)
        exact ⟨[⟨b.token, [name]⟩], by
          rw [List.map_singleton, List.map_singleton, seen_hostless hl hnode],
          by rw [hb.parseLoop_hostless hl hj hline, parseLoop_skip hline hplain]; rfl⟩
    · exact ⟨[b], rfl, parseLoop_block (hb.ok hl) hj⟩
  | case3 x y l hx ih =>
    have hj' : j + 2 + l.length ≤ 2 ^ 31 := by
      rw [List.length_cons, List.length_cons] at hj
      omega
    have hnode : nodeOf (blockWord ++ printInt (j + 1 : ℕ)) = .node :=
      nodeOf_other (c := 'b') List.mem_cons_self (by decide) (by decide)
    obtain ⟨rs, hseen, hrs⟩ := ih (v := pushBlock v x.token (blockWord ++ printInt (j + 1 : ℕ)))
      (fun b hb => h b (by simp [hb])) hj'
    refine ⟨⟨x.token, [blockWord ++ printInt (j + 1 : ℕ)]⟩ :: rs, ?_, ?_⟩
    · rw [List.map_cons, List.map_cons, hseen, seen_hostless hx hnode]
    · rw [blocksLines, blocksLines, ← List.append_assoc, List.map_append, List.append_assoc,
        (h x List.mem_cons_self).parseLoop_hides (h y (by simp)) hx (by omega), hrs]
      exact congrArg (parseLoop ls) (pushBlocks_cons ⟨x.token, [_]⟩ rs)
  | case4 x y l hx ih =>
    have hj' : j + 1 + (y :: l).length ≤ 2 ^ 31 := by
      rw [List.length_cons] at hj
      omega
    obtain ⟨rs, hseen, hrs⟩ := ih (v := pushBlock v x.token x.first)
      (fun b hb => h b (List.mem_cons_of_mem x hb)) hj'
    refine ⟨x :: rs, by rw [List.map_cons, List.map_cons, hseen], ?_⟩
    rw [blocksLines, List.map_append, List.append_assoc,
      parseLoop_block ((h x List.mem_cons_self).ok hx) (by omega), hrs, pushBlocks_cons]

/-- The lines of a listing. -/
theorem follows_lines (h : ∀ f ∈ files, Listed f) :
    Follows ((files.flatMap lines).map (· ++ ['\n'])) := by
  cases files with
  | nil => exact .eof
  | cons f files =>
    have hf := h f List.mem_cons_self
    exact .path hf.name hf.slash hf.plain _

/-- **The parse loop over a listing** pushes the recorded blocks. -/
theorem parseLoop_recorded (h : ∀ f ∈ files, Listed f) :
    ∃ rs, rs.map Block.seen = (recorded files).map Block.seen ∧
      parseLoop ((files.flatMap lines).map (· ++ ['\n'])) v = some (pushBlocks v rs) := by
  induction files generalizing v with
  | nil => exact ⟨[], rfl, by rw [pushBlocks_nil]; rfl⟩
  | cons f files ih =>
    have hf := h f List.mem_cons_self
    have hfiles : ∀ f' ∈ files, Listed f' := fun f' hf' => h f' (List.mem_cons_of_mem f hf')
    have hlen := length_blocks f
    obtain ⟨rs, hseen, hrs⟩ := parseLoop_visible (v := v) (j := 0) (follows_lines hfiles) hf.block
      (by omega)
    obtain ⟨rs', hseen', hrs'⟩ := ih (v := pushBlocks v rs) hfiles
    refine ⟨rs ++ rs', ?_, ?_⟩
    · rw [List.map_append, hseen, hseen', ← List.map_append]
      rfl
    · rw [List.flatMap_cons, List.map_append, lines, List.map_cons, List.cons_append, parseLoop_skip
        hf.name hf.plain, hrs, hrs', pushBlocks_append]

/-- **What `getfileblk` makes of a listing** that may have blocks without hosts. -/
theorem getfileblk_recorded (h : ∀ f ∈ files, Listed f) : ∃ text rs,
    writeFilesblk files = some text ∧ rs.map Block.seen = (recorded files).map Block.seen ∧
      (∀ b ∈ rs, IsLine 1024 b.token) ∧
      getfileblk text =
        if rs.length < 2 ^ 31 then some (outputsOf (entriesOf rs), []) else none := by
  obtain ⟨rs, hseen, hrs⟩ := parseLoop_recorded (v := ⟨[], [], [], []⟩) h
  have htoken : ∀ b ∈ rs, IsLine 1024 b.token := by
    intro b hb
    have hb := hseen ▸ List.mem_map_of_mem hb
    obtain ⟨c, hc, heq⟩ := List.mem_map.1 hb
    obtain ⟨f, hf, hc⟩ := List.mem_flatMap.1 hc
    have hc := (h f hf).block c ((visible_sublist _ _).subset hc)
    have htoken : c.token = b.token := congrArg Prod.fst heq
    exact htoken ▸ hc.token
  refine ⟨_, rs, writeFilesblk_eq fun f hf => (h f hf).toComplete, hseen, htoken,
    getfileblk_of_parse htoken ?_⟩
  rw [fgetsAll_unlines (isLine_lines (fun f hf => (h f hf).name) fun f hf b hb =>
    ((h f hf).block b hb).fits), hrs]

/-! ## The outputs -/

/-- How often a token is in an output, as its data node reads it. -/
def copies (output token : List Char) : Option ℕ :=
  (getinfo (fgetsAll 1024 output)).map fun pairs => (pairs.map Prod.fst).count (token ++ ['\n'])

/-- A token is written exactly once, to the output `n`. -/
def Placed (o : Outputs) (token : List Char) (n : Node) : Prop :=
  ∀ m, copies (o.of m) token = some (if m = n then 1 else 0)

theorem copies_outputs (h : ∀ b ∈ rs, IsLine 1024 b.token) (hlen : rs.length < 2 ^ 31)
    (token : List Char) (n : Node) :
    copies ((outputsOf (entriesOf rs)).of n) token =
      some ((rs.map Block.seen).count (token, n)) := by
  have hseen : (entriesOf rs).map (fun e => (e.path, nodeOf e.host)) = rs.map Block.seen := by
    nth_rewrite 2 [← List.zipIdx_map_fst 1 rs]
    rw [List.map_map, entriesOf, List.map_map]
    rfl
  rw [copies, getinfo_output (entriesOf_ok h hlen), Option.map_some, List.map_map, ← hseen]
  rw [List.count_eq_countP, List.countP_map, List.countP_filter]
  rw [List.count_eq_countP, List.countP_map]
  refine congrArg some (List.countP_congr fun e _ => ?_)
  simp [Entry.pair]

/-- Of tokens that are distinct, the recorded ones are placed. -/
theorem placed_iff (h : ∀ b ∈ rs, IsLine 1024 b.token) (hlen : rs.length < 2 ^ 31)
    (hseen : rs.map Block.seen = bs.map Block.seen) (hnd : (bs.map Block.token).Nodup)
    (token : List Char) (n : Node) :
    Placed (outputsOf (entriesOf rs)) token n ↔ ∃ b ∈ bs, b.seen = (token, n) := by
  rw [← List.mem_map]
  simp only [Placed, copies_outputs h hlen, Option.some.injEq, hseen]
  constructor
  · intro hp
    have hone := hp n
    rw [if_pos rfl] at hone
    exact List.count_pos_iff.1 (by omega)
  · intro hmem m
    have hnd' : (bs.map Block.seen).Nodup := List.Nodup.of_map Prod.fst (by rwa [List.map_map])
    rw [hnd'.count]
    congr 1
    rw [eq_iff_iff]
    constructor
    · intro hmem'
      obtain ⟨b, hb, heq⟩ := List.mem_map.1 hmem
      obtain ⟨b', hb', heq'⟩ := List.mem_map.1 hmem'
      have htoken : b'.token = b.token :=
        (congrArg Prod.fst heq').trans (congrArg Prod.fst heq).symm
      obtain rfl := List.inj_on_of_nodup_map hnd hb' hb htoken
      exact congrArg Prod.snd (heq'.symm.trans heq)
    · rintro rfl
      exact hmem

/-! ## The listing without the hosts of a block -/

/-- The file where `hosts[j][0]` is `NULL`. -/
def noHosts (f : HdfsFile) (j : ℕ) : HdfsFile := { f with hosts := f.hosts.set j [] }

/-- A block, without its hosts if it is `b`. -/
def bare (b x : Block) : Block := if x.token = b.token then ⟨x.token, []⟩ else x

variable {j : ℕ}

theorem getElem?_blocks (h : Complete f) (i : ℕ) :
    (blocks f)[i]? = if i < blockCount f then block? f i else none := by
  have heq := congrArg (·[i]?) h.block?_eq
  simp only [List.getElem?_map] at heq
  split_ifs with hi
  · rw [List.getElem?_range hi] at heq
    cases hb : (blocks f)[i]? with
    | none => rw [hb] at heq; cases heq
    | some b =>
      rw [hb] at heq
      exact (Option.some.inj heq).symm
  · rw [List.getElem?_eq_none (by simpa using hi)] at heq
    simpa using heq.symm

theorem block?_noHosts (f : HdfsFile) (j i : ℕ) : block? (noHosts f j) i =
    (block? f i).map fun b => if i = j then ⟨b.token, []⟩ else b := by
  rw [block?, block?, noHosts]
  dsimp only
  rw [List.getElem?_set]
  cases f.words[i]? with
  | none => rfl
  | some word =>
    by_cases hij : i = j
    · subst hij
      cases hh : f.hosts[i]? with
      | none =>
        have := List.getElem?_eq_none_iff.1 hh
        simp [Nat.not_lt.2 this]
      | some hosts =>
        have := (List.getElem?_eq_some_iff.1 hh).1
        simp [this]
    · rw [if_neg (Ne.symm hij)]
      cases f.hosts[i]? with
      | none => rfl
      | some hosts => simp [hij]

theorem complete_noHosts (h : Complete f) (j : ℕ) : Complete (noHosts f j) := by
  refine ⟨h.count, h.words, h.hosts.trans_eq List.length_set.symm, fun b hb => ?_⟩
  obtain ⟨i, hi, hb⟩ := List.mem_filterMap.1 hb
  rw [block?_noHosts] at hb
  obtain ⟨b', hb', rfl⟩ := Option.map_eq_some_iff.1 hb
  split_ifs
  · simp
  · exact h.host b' (List.mem_filterMap.2 ⟨i, hi, hb'⟩)

/-- Only the block loses its hosts. -/
theorem blocks_noHosts (h : Complete f) (hnd : ((blocks f).map Block.token).Nodup)
    (hb : (blocks f)[j]? = some b) : blocks (noHosts f j) = (blocks f).map (bare b) := by
  apply List.ext_getElem?
  intro i
  have hbare : ∀ x, (blocks f)[i]? = some x →
      (if i = j then ⟨x.token, []⟩ else x) = bare b x := by
    intro x hx
    have hxt : ((blocks f).map Block.token)[i]? = some x.token := by rw [List.getElem?_map, hx]; rfl
    have hbt : ((blocks f).map Block.token)[j]? = some b.token := by rw [List.getElem?_map, hb]; rfl
    have hiff : i = j ↔ x.token = b.token := by
      rw [← List.getElem?_inj (List.getElem?_eq_some_iff.1 hxt).1 hnd, hxt, hbt, Option.some.injEq]
    rw [bare]
    simp only [hiff]
  have hcount : blockCount (noHosts f j) = blockCount f := rfl
  have hi := getElem?_blocks h i
  rw [getElem?_blocks (complete_noHosts h j), block?_noHosts, hcount, List.getElem?_map]
  by_cases hlt : i < blockCount f
  · rw [if_pos hlt] at hi ⊢
    rw [← hi]
    exact Option.map_congr hbare
  · rw [if_neg hlt] at hi ⊢
    rw [hi]
    rfl

theorem bare_eq_self {x : Block} (h : x.token ≠ b.token) : bare b x = x := if_neg h

theorem hostless_bare (x : Block) : Hostless (bare b x) ↔ Hostless x ∨ x.token = b.token := by
  unfold bare
  split_ifs with h <;> simp [Hostless, h]

theorem Block.Listed.bare (h : c.Listed) : (bare b c).Listed := by
  unfold Blocklist.bare
  split_ifs
  · exact ⟨h.token, h.word, fun host hhost => by cases hhost⟩
  · exact h

/-- The second listing: the same files, where `b` has no hosts. -/
structure Second (files files' : List HdfsFile) (b : Block) : Prop where
  listed : ∀ f ∈ files', Listed f
  blocks : files'.map blocks = files.map fun f => (blocks f).map (bare b)

theorem second_noHosts {before after : List HdfsFile} (h : ∀ g ∈ before ++ f :: after, Listed g)
    (hnd : ((listing (before ++ f :: after)).map Block.token).Nodup)
    (hb : (blocks f)[j]? = some b) :
    Second (before ++ f :: after) (before ++ noHosts f j :: after) b := by
  have hf := h f (by simp)
  rw [listing, List.flatMap_append, List.flatMap_cons, List.map_append, List.map_append] at hnd
  obtain ⟨-, hnd, hbefore⟩ := List.nodup_append.1 hnd
  obtain ⟨hndf, -, hafter⟩ := List.nodup_append.1 hnd
  have hbf : b.token ∈ (blocks f).map Block.token := List.mem_map_of_mem (List.mem_of_getElem? hb)
  have hblocks := blocks_noHosts hf.toComplete hndf hb
  have hself : ∀ g, (∀ x ∈ blocks g, x.token ≠ b.token) → (blocks g).map (bare b) = blocks g :=
    fun g hg => (List.map_congr_left fun x hx => bare_eq_self (hg x hx)).trans (List.map_id _)
  constructor
  · intro g hg
    rcases List.mem_append.1 hg with hg | hg
    · exact h g (List.mem_append_left _ hg)
    · rcases List.mem_cons.1 hg with rfl | hg
      · refine ⟨complete_noHosts hf.toComplete j, hf.name, hf.slash, hf.plain, fun x hx => ?_⟩
        rw [hblocks] at hx
        obtain ⟨y, hy, rfl⟩ := List.mem_map.1 hx
        exact (hf.block y hy).bare
      · exact h g (List.mem_append_right _ (List.mem_cons_of_mem f hg))
  · rw [List.map_append, List.map_append, List.map_cons, List.map_cons, hblocks]
    congr 1
    · refine List.map_congr_left fun g hg => (hself g fun x hx => ?_).symm
      exact hbefore _ (List.mem_map_of_mem (List.mem_flatMap.2 ⟨g, hg, hx⟩)) _
        (List.mem_append_left _ hbf)
    · congr 1
      refine List.map_congr_left fun g hg => (hself g fun x hx => ?_).symm
      exact (hafter _ hbf _ (List.mem_map_of_mem (List.mem_flatMap.2 ⟨g, hg, hx⟩))).symm

/-! ## Both texts -/

/-- With and without the hosts of `b`, `getfileblk` writes the token of every other block exactly
    once, and to the same output. -/
def Unmoved (files files' : List HdfsFile) (b : Block) : Prop :=
  ∃ text text' o o' info info', writeFilesblk files = some text ∧
    writeFilesblk files' = some text' ∧ getfileblk text = some (o, info) ∧
    getfileblk text' = some (o', info') ∧
    ∀ c ∈ listing files, c.token ≠ b.token → ∃ n, Placed o c.token n ∧ Placed o' c.token n

variable {files' : List HdfsFile} {p : Block → Prop} [DecidablePred p]

theorem visibleIn_sublist (p : Block → Prop) [DecidablePred p] (files : List HdfsFile) :
    (visibleIn p files).Sublist (listing files) := by
  induction files with
  | nil => exact List.Sublist.refl _
  | cons f files ih => exact (visible_sublist p (blocks f)).append ih

theorem recorded_second (s : Second files files' b) :
    recorded files' = (visibleIn (fun x => Hostless (bare b x)) files).map (bare b) := by
  have hrec : recorded files' = (files'.map blocks).flatMap (visible Hostless) := by
    rw [List.flatMap_map]
    rfl
  rw [hrec, s.blocks, List.flatMap_map, visibleIn, List.map_flatMap]
  exact congrArg (fun g => files.flatMap g) (funext fun f => visible_map (bare b) (blocks f))

theorem token_bare (b x : Block) : (bare b x).token = x.token := by
  unfold bare
  split_ifs <;> rfl

/-- Of the blocks `V` of a listing `L`, written with other hosts (`g`): where one is placed whose
    hosts are not changed. -/
theorem placed_map_iff {V L : List Block} {g : Block → Block} (h : ∀ b ∈ rs, IsLine 1024 b.token)
    (hlen : rs.length < 2 ^ 31) (hseen : rs.map Block.seen = (V.map g).map Block.seen)
    (hg : ∀ x, (g x).token = x.token) (hgc : g c = c) (hsub : V.Sublist L)
    (hnd : (L.map Block.token).Nodup) (hc : c ∈ L) (n : Node) :
    Placed (outputsOf (entriesOf rs)) c.token n ↔ c ∈ V ∧ nodeOf c.first = n := by
  have hndV : ((V.map g).map Block.token).Nodup := by
    rw [List.map_map, show Block.token ∘ g = Block.token from funext hg]
    exact hnd.sublist (hsub.map _)
  rw [placed_iff h hlen hseen hndV]
  constructor
  · rintro ⟨k, hk, hseen⟩
    obtain ⟨y, hy, rfl⟩ := List.mem_map.1 hk
    have htoken : y.token = c.token := (hg y).symm.trans (congrArg Prod.fst hseen)
    obtain rfl := List.inj_on_of_nodup_map hnd (hsub.subset hy) hc htoken
    rw [hgc] at hseen
    exact ⟨hy, congrArg Prod.snd hseen⟩
  · rintro ⟨hv, hn⟩
    exact ⟨c, List.mem_map.2 ⟨c, hv, hgc⟩, Prod.ext rfl hn⟩

theorem unmoved_iff (h : ∀ f ∈ files, Listed f) (s : Second files files' b)
    (hnd : ((listing files).map Block.token).Nodup) :
    Unmoved files files' b ↔ (recorded files).length < 2 ^ 31 ∧ (recorded files').length < 2 ^ 31 ∧
      ∀ c ∈ listing files, c.token ≠ b.token →
        c ∈ recorded files ∧ c ∈ visibleIn (fun x => Hostless (bare b x)) files := by
  obtain ⟨text, rs, hw, hseen, hline, hg⟩ := getfileblk_recorded h
  obtain ⟨text', rs', hw', hseen', hline', hg'⟩ := getfileblk_recorded s.listed
  have hlen : rs.length = (recorded files).length := by simpa using congrArg List.length hseen
  have hlen' : rs'.length = (recorded files').length := by simpa using congrArg List.length hseen'
  have hplaced : rs.length < 2 ^ 31 → rs'.length < 2 ^ 31 → ∀ c ∈ listing files,
      c.token ≠ b.token → ((∃ n, Placed (outputsOf (entriesOf rs)) c.token n ∧
        Placed (outputsOf (entriesOf rs')) c.token n) ↔
        c ∈ recorded files ∧ c ∈ visibleIn (fun x => Hostless (bare b x)) files) := by
    intro h1 h2 c hc hne
    have hiff := placed_map_iff (g := id) hline h1 (by rw [List.map_id]; exact hseen)
      (fun _ => rfl) rfl (visibleIn_sublist _ files) hnd hc
    have hiff' := placed_map_iff hline' h2 (by rw [← recorded_second s]; exact hseen')
      (token_bare b) (bare_eq_self hne) (visibleIn_sublist _ files) hnd hc
    simp only [hiff, hiff']
    constructor
    · rintro ⟨n, ⟨hc1, -⟩, hc2, -⟩
      exact ⟨hc1, hc2⟩
    · rintro ⟨hc1, hc2⟩
      exact ⟨nodeOf c.first, ⟨hc1, rfl⟩, hc2, rfl⟩
  constructor
  · rintro ⟨t, t', o, o', info, info', ht, ht', ho, ho', hall⟩
    obtain rfl := Option.some.inj (hw.symm.trans ht)
    obtain rfl := Option.some.inj (hw'.symm.trans ht')
    rw [hg] at ho
    rw [hg'] at ho'
    split_ifs at ho with h1
    split_ifs at ho' with h2
    obtain ⟨rfl, -⟩ := Prod.mk.inj (Option.some.inj ho)
    obtain ⟨rfl, -⟩ := Prod.mk.inj (Option.some.inj ho')
    exact ⟨hlen ▸ h1, hlen' ▸ h2, fun c hc hne => (hplaced h1 h2 c hc hne).1 (hall c hc hne)⟩
  · rintro ⟨h1, h2, hall⟩
    rw [← hlen] at h1
    rw [← hlen'] at h2
    rw [if_pos h1] at hg
    rw [if_pos h2] at hg'
    exact ⟨text, text', _, _, _, _, hw, hw', hg, hg', fun c hc hne =>
      (hplaced h1 h2 c hc hne).2 (hall c hc hne)⟩

/-! ## When one block without hosts is harmless -/

/-- The block before `b` in its file has no hosts. -/
def AfterHostless (files : List HdfsFile) (b : Block) : Prop :=
  ∃ f ∈ files, ∃ x, [x, b] <:+: blocks f ∧ Hostless x

/-- The listings and blocks for which it is: no other block without hosts has a next one in its
    file, unless this is `b`; and `b` has none, unless it is the next one of such a block. -/
structure Spared (files : List HdfsFile) (b : Block) : Prop where
  others : ∀ f ∈ files, ∀ x y, [x, y] <:+: blocks f → Hostless x → x = b ∨ y = b
  self : ∀ f ∈ files, ∀ y, [b, y] <:+: blocks f → ∃ x, [x, b] <:+: blocks f ∧ Hostless x
  -- the number of the records is an `int`
  count : (listing files).length < 2 ^ 31 ∨
    (listing files).length = 2 ^ 31 ∧ AfterHostless files b

/-- A block is in one file. -/
theorem file_unique (hnd : (listing files).Nodup) {g : HdfsFile} (hf : f ∈ files) (hg : g ∈ files)
    (hcf : c ∈ blocks f) (hcg : c ∈ blocks g) : f = g := by
  by_contra hne
  have hsymm : Std.Symm (Function.onFun List.Disjoint blocks) := ⟨fun _ _ h => h.symm⟩
  exact (List.nodup_flatMap.1 hnd).2.forall hf hg hne hcf hcg

theorem mem_visibleIn (hnd : (listing files).Nodup) (hf : f ∈ files) (hc : c ∈ blocks f) :
    c ∈ visibleIn p files ↔ c ∈ visible p (blocks f) := by
  constructor
  · intro hv
    obtain ⟨g, hg, hv⟩ := List.mem_flatMap.1 hv
    rwa [file_unique hnd hf hg hc ((visible_sublist p _).subset hv)]
  · exact fun hv => List.mem_flatMap.2 ⟨f, hf, hv⟩

/-- How many blocks are seen, if only `b` can be hidden. -/
theorem length_visibleIn (hnd : (listing files).Nodup)
    (h : ∀ f ∈ files, Harmless p b (blocks f)) (hf : f ∈ files) (hb : b ∈ blocks f) :
    (b ∈ visible p (blocks f) → (visibleIn p files).length = (listing files).length) ∧
      (b ∉ visible p (blocks f) → (visibleIn p files).length + 1 = (listing files).length) := by
  have hsub := visibleIn_sublist p files
  have hall : ∀ z ∈ listing files, z = b ∨ z ∈ visibleIn p files := by
    intro z hz
    obtain ⟨g, hg, hzg⟩ := List.mem_flatMap.1 hz
    by_cases hne : z = b
    · exact .inl hne
    · exact .inr ((mem_visibleIn hnd hg hzg).2 ((h g hg).mem_visible
        ((List.nodup_flatMap.1 hnd).1 g hg) hzg hne))
  rw [← mem_visibleIn hnd hf hb]
  constructor
  · intro hmem
    refine le_antisymm hsub.length_le (List.subperm_of_subset hnd fun z hz => ?_).length_le
    rcases hall z hz with rfl | hz
    · exact hmem
    · exact hz
  · intro hmem
    have hcons : (b :: visibleIn p files).Nodup := List.nodup_cons.2 ⟨hmem, hnd.sublist hsub⟩
    have hle : b :: visibleIn p files ⊆ listing files :=
      List.cons_subset.2 ⟨List.mem_flatMap.2 ⟨f, hf, hb⟩, hsub.subset⟩
    have hge : listing files ⊆ b :: visibleIn p files := fun z hz => List.mem_cons.2 (hall z hz)
    exact le_antisymm (List.subperm_of_subset hcons hle).length_le
      (List.subperm_of_subset hnd hge).length_le

/-- The number of the records, in one text or the other, is an `int`. -/
theorem length_lt_iff (hnd : (listing files).Nodup)
    (h : ∀ f ∈ files, Harmless p b (blocks f)) (hf : f ∈ files) (hb : b ∈ blocks f)
    (hp : ∀ x, [x, b] <:+: blocks f → (p x ↔ Hostless x)) :
    (visibleIn p files).length < 2 ^ 31 ↔ (listing files).length < 2 ^ 31 ∨
      (listing files).length = 2 ^ 31 ∧ AfterHostless files b := by
  have hvis := (h f hf).mem_visible_iff ((List.nodup_flatMap.1 hnd).1 f hf) hb
  have hafter : AfterHostless files b ↔ ∃ x, [x, b] <:+: blocks f ∧ p x := by
    constructor
    · rintro ⟨g, hg, x, hx, hl⟩
      obtain rfl := file_unique hnd hf hg hb (snd_mem hx)
      exact ⟨x, hx, (hp x hx).2 hl⟩
    · rintro ⟨x, hx, hl⟩
      exact ⟨f, hf, x, hx, (hp x hx).1 hl⟩
  obtain ⟨hseen, hhidden⟩ := length_visibleIn hnd h hf hb
  by_cases hl : AfterHostless files b
  · have := hhidden fun hv => hvis.1 hv (hafter.1 hl)
    simp only [hl, and_true]
    omega
  · have := hseen (hvis.2 fun hx => hl (hafter.2 hx))
    simp only [hl, and_false, or_false]
    omega

theorem spared_iff (hnd : ((listing files).map Block.token).Nodup) (hf : f ∈ files)
    (hb : b ∈ blocks f) : Spared files b ↔ (recorded files).length < 2 ^ 31 ∧
      (visibleIn (fun x => Hostless (bare b x)) files).length < 2 ^ 31 ∧
      ∀ c ∈ listing files, c.token ≠ b.token →
        c ∈ recorded files ∧ c ∈ visibleIn (fun x => Hostless (bare b x)) files := by
  have hndl : (listing files).Nodup := List.Nodup.of_map _ hnd
  have hndg : ∀ g ∈ files, (blocks g).Nodup := (List.nodup_flatMap.1 hndl).1
  have hbl : b ∈ listing files := List.mem_flatMap.2 ⟨f, hf, hb⟩
  have htoken : ∀ c ∈ listing files, c.token = b.token ↔ c = b := fun c hc =>
    ⟨fun heq => List.inj_on_of_nodup_map hnd hc hbl heq, congrArg Block.token⟩
  have hbare : ∀ g ∈ files, ∀ x ∈ blocks g, Hostless (bare b x) ↔ Hostless x ∨ x = b := by
    intro g hg x hx
    rw [hostless_bare, htoken x (List.mem_flatMap.2 ⟨g, hg, hx⟩)]
  have hfile : ∀ g ∈ files, (∀ z ∈ blocks g, z ≠ b → z ∈ visible Hostless (blocks g) ∧
      z ∈ visible (fun x => Hostless (bare b x)) (blocks g)) ↔
      (∀ x y, [x, y] <:+: blocks g → Hostless x → x = b ∨ y = b) ∧
        ∀ y, [b, y] <:+: blocks g → ∃ x, [x, b] <:+: blocks g ∧ Hostless x :=
    fun g hg => forall_visible_iff (hndg g hg) (hbare g hg)
  -- the two bounds are one, if only `b` can be hidden
  have hcount : (∀ g ∈ files, (∀ x y, [x, y] <:+: blocks g → Hostless x → x = b ∨ y = b) ∧
        ∀ y, [b, y] <:+: blocks g → ∃ x, [x, b] <:+: blocks g ∧ Hostless x) →
      ((recorded files).length < 2 ^ 31 ↔ (listing files).length < 2 ^ 31 ∨
        (listing files).length = 2 ^ 31 ∧ AfterHostless files b) ∧
      ((visibleIn (fun x => Hostless (bare b x)) files).length < 2 ^ 31 ↔
        (listing files).length < 2 ^ 31 ∨
          (listing files).length = 2 ^ 31 ∧ AfterHostless files b) := by
    intro hall
    constructor
    · exact length_lt_iff hndl (fun g hg => ⟨(hall g hg).1, fun y hy _ => (hall g hg).2 y hy⟩) hf hb
        fun x _ => Iff.rfl
    · refine length_lt_iff hndl (fun g hg => harmless_marked (hbare g hg) (hall g hg).1
        (hall g hg).2) hf hb fun x hx => ?_
      rw [hbare f hf x (fst_mem hx), or_iff_left (pair_ne (hndg f hf) hx)]
  constructor
  · rintro ⟨hothers, hself, hint⟩
    have hall := fun g hg => And.intro (hothers g hg) (hself g hg)
    refine ⟨(hcount hall).1.2 hint, (hcount hall).2.2 hint, fun c hc hne => ?_⟩
    obtain ⟨g, hg, hcg⟩ := List.mem_flatMap.1 hc
    obtain ⟨h1, h2⟩ := (hfile g hg).2 (hall g hg) c hcg fun heq => hne (congrArg _ heq)
    exact ⟨(mem_visibleIn hndl hg hcg).2 h1, (mem_visibleIn hndl hg hcg).2 h2⟩
  · rintro ⟨h1, -, h3⟩
    have hall := fun g hg => (hfile g hg).1 fun z hz hne => by
      have hzl : z ∈ listing files := List.mem_flatMap.2 ⟨g, hg, hz⟩
      obtain ⟨hz1, hz2⟩ := h3 z hzl fun heq => hne ((htoken z hzl).1 heq)
      exact ⟨(mem_visibleIn hndl hg hz).1 hz1, (mem_visibleIn hndl hg hz).1 hz2⟩
    exact ⟨fun g hg => (hall g hg).1, fun g hg => (hall g hg).2, (hcount hall).1.1 h1⟩

/-- **A bad block stays local** exactly if it is spared. -/
theorem bad_block_local_iff {before after : List HdfsFile}
    (h : ∀ g ∈ before ++ f :: after, Listed g)
    (hnd : ((listing (before ++ f :: after)).map Block.token).Nodup)
    (hb : (blocks f)[j]? = some b) :
    Unmoved (before ++ f :: after) (before ++ noHosts f j :: after) b ↔
      Spared (before ++ f :: after) b := by
  have s := second_noHosts h hnd hb
  rw [unmoved_iff h s hnd, recorded_second s, List.length_map,
    spared_iff hnd (by simp) (List.mem_of_getElem? hb)]

/-- `"/a"` with two blocks, `BP-1` on `slave1` and `BP-2` on `slave2`. -/
def twoBlocks : HdfsFile :=
  ⟨['/', 'a'], 2, 1, 1, [['B', 'P', '-', '1'], ['B', 'P', '-', '2']], [[slave1Name], [slave2Name]]⟩

/-- `BP-2` is the last block of its file. -/
theorem bad_block_local_iff_last :
    Unmoved ([] ++ twoBlocks :: []) ([] ++ noHosts twoBlocks 1 :: [])
      ⟨['B', 'P', '-', '2'], [slave2Name]⟩ := by
  have hblocks : blocks twoBlocks =
      [⟨['B', 'P', '-', '1'], [slave1Name]⟩, ⟨['B', 'P', '-', '2'], [slave2Name]⟩] := rfl
  refine (bad_block_local_iff (by decide +kernel) (by decide +kernel) rfl).2
    ⟨fun f hf x y hxy hx => ?_, fun f hf y hy => ?_, .inl (by decide +kernel)⟩
  · obtain rfl : f = twoBlocks := by simpa using hf
    have hmem := fst_mem hxy
    rw [hblocks] at hmem
    rcases List.mem_cons.1 hmem with rfl | hmem
    · cases hx
    · obtain rfl := List.mem_singleton.1 hmem
      cases hx
  · obtain rfl : f = twoBlocks := by simpa using hf
    rw [hblocks] at hy
    simp [pair_infix_cons] at hy

/-- Without the host of `BP-1`, `BP-2` is in no output. -/
theorem bad_block_hides : (∀ f ∈ [twoBlocks], Listed f) ∧
    ((listing [twoBlocks]).map Block.token).Nodup ∧
    (∃ text, writeFilesblk [noHosts twoBlocks 0] = some text ∧
      getfileblk text = some (⟨[], [], recordOf ['B', 'P', '-', '1'] 1⟩, [])) ∧
    ¬ Unmoved [twoBlocks] [noHosts twoBlocks 0] ⟨['B', 'P', '-', '1'], [slave1Name]⟩ := by
  have hlisted : ∀ f ∈ [twoBlocks], Listed f := by decide +kernel
  have hnd : ((listing [twoBlocks]).map Block.token).Nodup := by decide +kernel
  refine ⟨hlisted, hnd, ⟨_, rfl, rfl⟩, fun h => ?_⟩
  have s : Second ([] ++ twoBlocks :: []) ([] ++ noHosts twoBlocks 0 :: [])
      ⟨['B', 'P', '-', '1'], [slave1Name]⟩ := second_noHosts hlisted hnd rfl
  have hmem := (((unmoved_iff hlisted s hnd).1 h).2.2 ⟨['B', 'P', '-', '2'], [slave2Name]⟩
    (List.mem_of_getElem? (i := 1) rfl) (by decide)).2
  have hseen : visibleIn (fun x => Hostless (bare ⟨['B', 'P', '-', '1'], [slave1Name]⟩ x))
      [twoBlocks] = [⟨['B', 'P', '-', '1'], [slave1Name]⟩] := rfl
  rw [hseen] at hmem
  simp at hmem

end Blocklist
