/-
  From the name node's listing to the device: `readhdfs`, `init`, and the data
  nodes.

  Every data node takes its output of `getfileblk` as `slave1` and makes the
  calls of `write2disk` that stand in a comment in its `getinfo`.

    - `pipeline`: the programs one after the other, up to the calls the data
      nodes make;
    - `OnNode`: the file of a block is on the data node of its first host, under
      the token without a generation stamp of four digits;
    - `callsOf_outputs`: the calls of a data node are those for its entries;
    - `tree_copied`: every block of every file of a tree gets a slot of its own
      and is in it when its data node has finished, whatever the schedule.
-/
import NvmfHdfs.Blocklist.Nodes
import NvmfHdfs.Blocklist.Readhdfs

namespace Blocklist

open CInt CText Path Image

/-! ## The programs one after the other -/

/-- The calls of `write2disk` for the records that a data node reads in its output. -/
def callsOf (o : Outputs) (v : Node) : Option (List CopyCall) :=
  (getinfo (fgetsAll 1024 (o.of v))).map fun pairs => pairs.map fun p => ⟨p.1, atoi p.2⟩

/-- `readhdfs`, `init`, and `getinfo` on each data node: the calls each one makes. -/
def pipeline (h : Hdfs) (path : List Char) (k : ℕ) : Option (Node → List CopyCall) := do
  let (_, filesblk) ← readhdfs h path k
  let (o, _) ← getfileblk filesblk
  let slave1 ← callsOf o .slave1
  let slave2 ← callsOf o .slave2
  let node ← callsOf o .node
  some fun
    | .slave1 => slave1
    | .slave2 => slave2
    | .node => node

variable {fs : Node → List Char → Option (List UInt8)} {b : Block} {bs : List Block}
  {bytes : List UInt8} {e : Entry} {es : List Entry} {v : Node} {c : CopyCall} {i : ℕ}

/-- The file of a block is on the data node of its first host, has at most 128 MB, and is named
    as the token without its generation stamp, which has four digits. -/
structure OnNode (fs : Node → List Char → Option (List UInt8)) (b : Block) (bytes : List UInt8) :
    Prop where
  file : ∃ base gs, b.token = base ++ '_' :: Nat.toDigits 10 gs ∧ 1000 ≤ gs ∧ gs < 10000 ∧
    fs (nodeOf b.first) base = some bytes
  length : bytes.length ≤ blockSize

/-! ## The calls of a data node -/

/-- The call for an entry. -/
def Entry.call (e : Entry) : CopyCall := ⟨e.path ++ ['\n'], e.id⟩

theorem slot_call (path host : List Char) (i : ℕ) :
    (Entry.call ⟨path, (i : ℕ), host⟩).slot = i * blockSize := by
  rw [CopyCall.slot, Entry.call, Int.toNat_natCast]

/-- **The calls of a data node** are those for the entries with its host. -/
theorem callsOf_outputs (h : ∀ e ∈ es, e.Ok) (v : Node) : callsOf (outputsOf es) v =
    some ((es.filter fun e => nodeOf e.host = v).map Entry.call) := by
  rw [callsOf, getinfo_output h, Option.map_some, List.map_map]
  refine congrArg some (List.map_congr_left fun e he => ?_)
  have hid := (h e (List.mem_of_mem_filter he)).atoi_pair
  rw [Function.comp_apply, hid]
  rfl

/-- The entry of block `i`. -/
theorem mem_entriesOf : e ∈ entriesOf bs ↔
    ∃ i, ∃ hi : i < bs.length, e = ⟨bs[i].token, (i + 1 : ℕ), bs[i].first⟩ := by
  rw [entriesOf, List.mem_map]
  constructor
  · rintro ⟨⟨b, k⟩, hx, rfl⟩
    obtain ⟨hk, hlt, hb⟩ := List.mem_zipIdx hx
    obtain ⟨i, rfl⟩ : ∃ i, k = i + 1 := ⟨k - 1, by omega⟩
    exact ⟨i, by omega, by simp [hb]⟩
  · rintro ⟨i, hi, rfl⟩
    refine ⟨(bs[i], i + 1), ?_, rfl⟩
    rw [List.mem_zipIdx_iff_le_and_getElem?_sub]
    exact ⟨Nat.le_add_left 1 i, by simp [hi]⟩

/-- No slot id is given twice. -/
theorem nodup_entriesOf (bs : List Block) : ((entriesOf bs).map Entry.id).Nodup := by
  have hids : (entriesOf bs).map Entry.id = (List.range' 1 bs.length).map fun k : ℕ => (k : ℤ) := by
    rw [entriesOf, List.map_map, ← List.zipIdx_map_snd, List.map_map]
    rfl
  rw [hids]
  exact (List.nodup_range' 1).map Nat.cast_injective

/-- The trim of the line of a token leaves the name of the file. -/
theorem OnNode.bytes_eq (h : OnNode fs b bytes) (id : ℤ) :
    (Entry.call ⟨b.token, id, b.first⟩).bytes (fs (nodeOf b.first)) = some bytes := by
  obtain ⟨base, gs, htoken, hge, hlt, hfile⟩ := h.file
  have hdigits : (Nat.toDigits 10 gs).length = 4 := by
    refine le_antisymm ?_ ?_
    · exact (Nat.length_toDigits_le_iff (by decide) (by decide)).2 hlt
    · refine Nat.lt_of_not_le fun hle => ?_
      have hsmall := (Nat.length_toDigits_le_iff (b := 10) (by decide) (by decide)).1 hle
      omega
  have hlen : (b.token ++ ['\n']).length = base.length + 6 := by
    rw [htoken, List.length_append, List.length_append, List.length_cons, hdigits]
    rfl
  have htrim : trimPath (b.token ++ ['\n']) = some base := by
    rw [trimPath, if_pos (by omega), hlen, Nat.add_sub_cancel, htoken, List.append_assoc,
      List.take_left]
  rw [CopyCall.bytes_eq, Entry.call, htrim, Option.bind_some, hfile]

/-- The calls of the nodes for a list of blocks. -/
def nodesCalls (bs : List Block) (v : Node) : List CopyCall :=
  ((entriesOf bs).filter fun e => nodeOf e.host = v).map Entry.call

theorem mem_nodesCalls : c ∈ nodesCalls bs v ↔ ∃ i, ∃ hi : i < bs.length,
    nodeOf bs[i].first = v ∧ c = Entry.call ⟨bs[i].token, (i + 1 : ℕ), bs[i].first⟩ := by
  simp only [nodesCalls, List.mem_map, List.mem_filter, mem_entriesOf, decide_eq_true_eq]
  constructor
  · rintro ⟨e, ⟨⟨i, hi, rfl⟩, hv⟩, rfl⟩
    exact ⟨i, hi, hv, rfl⟩
  · rintro ⟨i, hi, hv, rfl⟩
    exact ⟨_, ⟨⟨i, hi, rfl⟩, hv⟩, rfl⟩

/-- The calls are in order if the files are there. -/
theorem nodesCalls_ok (hlen : bs.length < 2 ^ 31) (hb : ∀ b ∈ bs, ∃ bytes, OnNode fs b bytes)
    (v : Node) : ∀ c ∈ nodesCalls bs v, c.Ok (fs v) := by
  intro c hc
  obtain ⟨i, hi, rfl, rfl⟩ := mem_nodesCalls.1 hc
  obtain ⟨bytes, hbytes⟩ := hb bs[i] (List.getElem_mem hi)
  have hint : ((i + 1 : ℕ) : ℤ) < 2 ^ 31 := by omega
  exact ⟨Int.natCast_nonneg _, hint, bytes, hbytes.bytes_eq _, hbytes.length⟩

theorem nodesCalls_distinct (bs : List Block) : DistinctSlots (nodesCalls bs) := by
  constructor
  · intro v
    have hsub : (((entriesOf bs).filter fun e => nodeOf e.host = v).map Entry.id).Sublist
        ((entriesOf bs).map Entry.id) := List.filter_sublist.map Entry.id
    have hids : (nodesCalls bs v).map CopyCall.blk_id =
        ((entriesOf bs).filter fun e => nodeOf e.host = v).map Entry.id := by
      rw [nodesCalls, List.map_map]
      rfl
    rw [hids]
    exact (nodup_entriesOf bs).sublist hsub
  · intro v v' hne c hc c' hc' heq
    obtain ⟨i, hi, rfl, rfl⟩ := mem_nodesCalls.1 hc
    obtain ⟨j, hj, rfl, rfl⟩ := mem_nodesCalls.1 hc'
    have hij : ((i + 1 : ℕ) : ℤ) = (j + 1 : ℕ) := heq
    obtain rfl : i = j := by omega
    exact hne rfl

/-! ## The whole way -/

variable {h : Hdfs} {d : Directory} {files : List (List Char)} {k : ℕ} {text : List Char}

/-- The data nodes on their way with the blocks `bs`, on a device that held `image`: one that has
    not finished can move, block `i` of one that has finished is in slot `i + 1`, and nothing
    but the blocks in their slots is changed. -/
structure Copying (fs : Node → List Char → Option (List UInt8)) (bs : List Block) (image : Image)
    (s : Cluster Node) : Prop where
  moves : ∀ v, ¬ (s.node v).Finished → ∃ x, ((nodes fs).step s (v, x)).isSome = true
  stored : ∀ i (hi : i < bs.length) bytes, OnNode fs bs[i] bytes →
    (s.node (nodeOf bs[i].first)).Finished →
    s.image.slice ((i + 1) * blockSize) bytes.length = bytes
  kept : ∀ a, (∀ i (hi : i < bs.length) bytes, OnNode fs bs[i] bytes →
    ¬ ((i + 1) * blockSize ≤ a ∧ a < (i + 1) * blockSize + bytes.length)) → s.image a = image a

/-- The calls the data nodes make are those for the blocks of the listing. -/
theorem pipeline_eq (hr : readhdfs h d.path k = some (unlines files, text))
    (hg : getfileblk text = some (outputsOf (entriesOf bs), []))
    (hes : ∀ e ∈ entriesOf bs, e.Ok) : pipeline h d.path k = some (nodesCalls bs) := by
  rw [pipeline, bind_of_eq_some hr]
  dsimp only
  rw [bind_of_eq_some hg]
  dsimp only
  rw [bind_of_eq_some (callsOf_outputs hes .slave1), bind_of_eq_some (callsOf_outputs hes .slave2),
    bind_of_eq_some (callsOf_outputs hes .node)]
  refine congrArg some (funext fun v => ?_)
  cases v <;> rfl

/-- **From a tree of files to the device.**  If the client lists the tree below a directory, `hdfs
    fsck` describes its files, the file of every block is on its data node, and an `int` counts the
    blocks, then the programs end and give every block a slot of its own, and every schedule of the
    data nodes has an end and copies the blocks to their slots. -/
theorem tree_copied (hl : d.Lists h.hdfsListDirectory)
    (hd : ∀ name ∈ d.content.files, Described h name)
    (hb : ∀ b ∈ listing (d.content.files.map (described h)), ∃ bytes, OnNode fs b bytes)
    (hlen : (listing (d.content.files.map (described h))).length < 2 ^ 31) :
    ∃ (calls : Node → List CopyCall) (bs : List Block) (most : ℕ),
      bs.Perm (listing (d.content.files.map (described h))) ∧
      (∀ k, mostTurns h d ≤ k → pipeline h d.path k = some calls) ∧
      ∀ image tr s, (nodes fs).Run Machine.anyStep (startAll image calls) tr s →
        tr.length ≤ most ∧ Copying fs bs image s := by
  obtain ⟨files, hperm, hwalk⟩ := walk_files hl
  have hfiles : ∀ name ∈ files, Described h name := fun name hn => hd name (hperm.mem_iff.1 hn)
  obtain ⟨text, hmain, hget⟩ := readhdfs_eq hperm hwalk hfiles
  -- the blocks in the order in which the walk has found the files
  generalize hbs : listing (files.map (described h)) = bs at hget
  have hblocks : bs.Perm (listing (d.content.files.map (described h))) := by
    rw [← hbs]
    exact (hperm.map _).flatMap_right _
  rw [← hblocks.length_eq] at hlen
  rw [if_pos hlen] at hget
  have hfile : ∀ b ∈ bs, ∃ bytes, OnNode fs b bytes := fun b hmem => hb b (hblocks.mem_iff.1 hmem)
  have htoken : ∀ b ∈ bs, IsLine 1024 b.token := by
    intro b hmem
    rw [← hbs] at hmem
    obtain ⟨f, hf, hmem⟩ := List.mem_flatMap.1 hmem
    obtain ⟨name, hn, rfl⟩ := List.mem_map.1 hf
    exact ((hfiles name hn).file.block b hmem).token
  have hok := nodesCalls_ok hlen hfile
  refine ⟨nodesCalls bs, bs, totalWork fs (startAll (fun _ => 0) (nodesCalls bs)), hblocks,
    fun k hk => pipeline_eq (hmain k hk) hget (entriesOf_ok htoken hlen), fun image tr s hr => ?_⟩
  obtain ⟨t, ht⟩ := exists_target hok (nodesCalls_distinct bs)
  obtain ⟨H, hwork⟩ := copiers_run (copyInv_start hok ht) hr
  refine ⟨(Nat.le_add_right _ _).trans hwork, fun v => H.can_move, fun i hi bytes hon hv => ?_,
    fun a ha => H.kept hok fun v c hc bytes hbytes => ?_⟩
  · have hstored := H.stored (ht _) hv (mem_nodesCalls.2 ⟨i, hi, rfl, rfl⟩) (hon.bytes_eq _)
    rwa [slot_call] at hstored
  · obtain ⟨i, hi, rfl, rfl⟩ := mem_nodesCalls.1 hc
    obtain ⟨bytes', hon⟩ := hfile bs[i] (List.getElem_mem hi)
    obtain rfl := Option.some.inj ((hon.bytes_eq _).symm.trans hbytes)
    rw [slot_call]
    exact ha i hi bytes' hon

/-- The files on the data nodes of the sample tree. -/
def sampleNodeFiles : Node → List Char → Option (List UInt8)
  | .slave1, name => if name = "BP-1:blk_1".toList then some [7] else none
  | .slave2, _ => none
  | .node, name => if name = "BP-1:blk_2".toList then some [8, 9] else none

theorem sample_onNode : ∀ b ∈ listing (sampleTree.content.files.map (described sampleHdfs)),
    ∃ bytes, OnNode sampleNodeFiles b bytes := by
  intro b hb
  have hlisting : (listing (sampleTree.content.files.map (described sampleHdfs))).map
      (fun b => (b.token, b.hosts)) = [("BP-1:blk_1_1001".toList, [slave1Name]),
        ("BP-1:blk_2_1002".toList, [['n']])] := by decide +kernel
  have hmem : (b.token, b.hosts) ∈ (listing (sampleTree.content.files.map
      (described sampleHdfs))).map (fun b => (b.token, b.hosts)) := List.mem_map.2 ⟨b, hb, rfl⟩
  obtain ⟨token, hosts⟩ := b
  rw [hlisting] at hmem
  rcases List.mem_cons.1 hmem with heq | hmem
  · obtain ⟨rfl, rfl⟩ := Prod.mk.inj heq
    exact ⟨[7], ⟨"BP-1:blk_1".toList, 1001, by decide +kernel, by decide, by decide,
      by decide +kernel⟩, by decide⟩
  · obtain ⟨rfl, rfl⟩ := Prod.mk.inj (List.mem_singleton.1 hmem)
    exact ⟨[8, 9], ⟨"BP-1:blk_2".toList, 1002, by decide +kernel, by decide, by decide,
      by decide +kernel⟩, by decide⟩

theorem tree_copied_sample : ∃ (calls : Node → List CopyCall) (bs : List Block) (most : ℕ),
    bs.Perm (listing (sampleTree.content.files.map (described sampleHdfs))) ∧
    (∀ k, mostTurns sampleHdfs sampleTree ≤ k →
      pipeline sampleHdfs sampleTree.path k = some calls) ∧
    ∀ image tr s, (nodes sampleNodeFiles).Run Machine.anyStep (startAll image calls) tr s →
      tr.length ≤ most ∧ Copying sampleNodeFiles bs image s :=
  tree_copied sample_lists sample_described sample_onNode (by decide +kernel)

end Blocklist
