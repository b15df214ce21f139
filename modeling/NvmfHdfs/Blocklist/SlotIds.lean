/-
  The slot ids of `getfileblk`, over any text.

  The allocation from the bitmap stands in comments there: the ids are counted
  from 1, split over the three outputs, and nothing compares them with
  `BLOCK_NUM`.

    - `parseLoop_eq_some`: over any lines, a parse loop that is defined pushes a
      block for every block record;
    - `slotIds_perm`: the ids of the three outputs are 1 to their number;
    - `slots_on_device_iff`: they are slots of the device exactly if the text
      has at most `BLOCK_NUM` block records;
    - `slots_beyond_device`: a file of 3200 blocks.
-/
import NvmfHdfs.Blocklist.DataNode

namespace Blocklist

open CInt CText Path

/-! ## The device -/

/-- `dev_size`. -/
def devSize : ℕ := 429496729600

/-- `BLOCK_NUM(devsize,blocksize)`. -/
def blockNum (devsize : ℕ) : ℤ := (devsize / blockSize : ℕ) - 1

/-- The bytes of slot `id`. -/
def slot (id : ℤ) : Set ℤ := Set.Ico (id * blockSize) ((id + 1) * blockSize)

/-- Slot ids that are distinct, each from 1 to `BLOCK_NUM`, of slots that are disjoint and on
    the device. -/
structure OnDevice (ids : List ℤ) : Prop where
  nodup : ids.Nodup
  range : ∀ id ∈ ids, 1 ≤ id ∧ id ≤ blockNum devSize
  disjoint : ids.Pairwise fun i j => ∀ a ∈ slot i, a ∉ slot j
  inside : ∀ id ∈ ids, slot id ⊆ Set.Ico 0 devSize

/-- The ids a data node reads of its output and hands to `write2disk`. -/
def slotIds (output : List Char) : Option (List ℤ) :=
  (getinfo (fgetsAll 1024 output)).map fun pairs => pairs.map fun p => atoi p.2

/-- The ids in the three outputs together are slots of the device. -/
def SlotsOnDevice (o : Outputs) : Prop :=
  ∃ ids1 ids2 ids3, slotIds o.slave1 = some ids1 ∧ slotIds o.slave2 = some ids2 ∧
    slotIds o.node = some ids3 ∧ OnDevice (ids1 ++ ids2 ++ ids3)

/-- The number of block records in the lines of a text: a block line takes the two lines after
    it. -/
def blockRecords : List (List Char) → ℕ
  | [] => 0
  | line :: ls =>
    if isBlock (cstr line) then
      match ls with
      | [] | [_] => 1
      | _ :: _ :: ls => blockRecords ls + 1
    else blockRecords ls

variable {ls : List (List Char)} {v v' : Vectors} {text info : List Char} {o : Outputs}
  {bs : List Block}

/-! ## The parse loop over any lines -/

theorem fileLine_eq_some {buf : List Char} (hid : v.blk_id = []) (h : fileLine buf v = some v') :
    v' = v := by
  obtain ⟨out, hout, h⟩ := Option.bind_eq_some_iff.1 h
  split_ifs at h
  obtain rfl := Option.some.inj h
  obtain ⟨path_vec, blk_id, datanode, writeinfo⟩ := v
  dsimp only at hid hout
  subst hid
  cases path_vec with
  | cons path paths => exact nomatch hout
  | nil =>
    obtain rfl := Option.some.inj hout
    rw [List.append_nil]

/-- The first half of a turn leaves vectors without ids as they are: at a `file` line, the id
    of a path would be read. -/
theorem turn_eq_some {buf : List Char} {k : Vectors → Option Vectors} (hid : v.blk_id = [])
    (h : (if isFile buf then fileLine buf v >>= k else some v >>= k) = some v') :
    k v = some v' := by
  split_ifs at h
  · obtain ⟨w, hw, h⟩ := Option.bind_eq_some_iff.1 h
    rwa [fileLine_eq_some hid hw] at h
  · exact h

theorem parseLoop_other {line : List Char} (hid : v.blk_id = []) (hb : ¬ isBlock (cstr line) = true)
    (h : parseLoop (line :: ls) v = some v') : parseLoop ls v = some v' := by
  rw [parseLoop] at h
  have h := turn_eq_some hid h
  beta_reduce at h
  rwa [if_neg hb] at h

/-- A block line takes the next two lines; at the end of the text, itself. -/
theorem parseLoop_record {line : List Char} (hid : v.blk_id = []) (hb : isBlock (cstr line) = true)
    (h : parseLoop (line :: ls) v = some v') : ∃ token host,
      chop (cstr (ls.headD line)) = some token ∧
        parseLoop (ls.drop 2) (pushBlock v token host) = some v' := by
  rw [parseLoop] at h
  have h := turn_eq_some hid h
  beta_reduce at h
  rw [if_pos hb] at h
  rcases ls with - | ⟨line', - | ⟨line'', ls⟩⟩
  all_goals
    obtain ⟨token, htoken, h⟩ := Option.bind_eq_some_iff.1 h
    obtain ⟨host, -, h⟩ := Option.bind_eq_some_iff.1 h
    exact ⟨token, host, htoken, h⟩

/-- **A parse loop that is defined** pushes a block for every block record. -/
theorem parseLoop_eq_some (hls : ∀ l ∈ ls, Filled 1023 l) (hid : v.blk_id = [])
    (h : parseLoop ls v = some v') :
    ∃ bs, bs.length = blockRecords ls ∧ (∀ b ∈ bs, IsLine 1024 b.token) ∧ v' = pushBlocks v bs := by
  fun_induction blockRecords ls generalizing v with
  | case1 =>
    obtain rfl := Option.some.inj h
    exact ⟨[], rfl, by simp, (pushBlocks_nil _).symm⟩
  | case2 line hb =>
    obtain ⟨token, host, htoken, h⟩ := parseLoop_record hid hb h
    have hline := (hls line List.mem_cons_self).isLine htoken
    exact ⟨[⟨token, [host]⟩], rfl, by simpa using hline, (Option.some.inj h).symm⟩
  | case3 line hb line' =>
    obtain ⟨token, host, htoken, h⟩ := parseLoop_record hid hb h
    have hline := (hls line' (by simp)).isLine htoken
    exact ⟨[⟨token, [host]⟩], rfl, by simpa using hline, (Option.some.inj h).symm⟩
  | case4 line hb line' line'' ls ih =>
    obtain ⟨token, host, htoken, h⟩ := parseLoop_record hid hb h
    have hline := (hls line' (by simp)).isLine htoken
    have hls' : ∀ l ∈ ls, Filled 1023 l := fun l hl => hls l (by simp [hl])
    obtain ⟨bs, hlen, hbs, rfl⟩ := ih (v := pushBlock v token host) hls' hid h
    refine ⟨⟨token, [host]⟩ :: bs, by rw [List.length_cons, hlen], ?_, ?_⟩
    · exact List.forall_mem_cons.2 ⟨hline, hbs⟩
    · exact pushBlocks_cons ⟨token, [host]⟩ bs
  | case5 line ls hb ih =>
    exact ih (fun l hl => hls l (List.mem_cons_of_mem _ hl)) hid (parseLoop_other hid hb h)

/-- **What `getfileblk` does, where it is defined**: it writes the entries of as many blocks as
    the text has block records. -/
theorem getfileblk_eq_some (h : getfileblk text = some (o, info)) :
    ∃ bs, bs.length = blockRecords (fgetsAll 1024 text) ∧ bs.length < 2 ^ 31 ∧
      (∀ b ∈ bs, IsLine 1024 b.token) ∧ o = outputsOf (entriesOf bs) := by
  obtain ⟨v, hv, -⟩ := Option.bind_eq_some_iff.1 h
  obtain ⟨bs, hlen, htoken, rfl⟩ := parseLoop_eq_some (fun l hl => filled_fgetsAll hl) rfl hv
  rw [getfileblk_of_parse htoken hv] at h
  split_ifs at h with hint
  obtain ⟨rfl, -⟩ := Prod.mk.inj (Option.some.inj h)
  exact ⟨bs, hlen, hint, htoken, rfl⟩

/-! ## The slot ids -/

theorem slotIds_output {es : List Entry} (h : ∀ e ∈ es, e.Ok) (n : Node) :
    slotIds ((outputsOf es).of n) =
      some ((es.filter fun e => nodeOf e.host = n).map Entry.id) := by
  rw [slotIds, getinfo_output h, Option.map_some, List.map_map]
  congr 1
  exact List.map_congr_left fun e he => (h e (List.mem_of_mem_filter he)).atoi_pair

/-- Every entry is in one of the outputs. -/
theorem filter_nodes_perm (es : List Entry) :
    ((es.filter fun e => nodeOf e.host = .slave1) ++ (es.filter fun e => nodeOf e.host = .slave2) ++
      es.filter fun e => nodeOf e.host = .node).Perm es := by
  induction es with
  | nil => rfl
  | cons e es ih =>
    simp only [List.filter_cons]
    cases hn : nodeOf e.host with
    | slave1 => simpa using ih
    | slave2 =>
      rw [List.append_assoc] at ih ⊢
      simpa using List.perm_middle.trans (ih.cons e)
    | node => simpa using List.perm_middle.trans (ih.cons e)

/-- **The ids of the three outputs** are 1 to their number. -/
theorem slotIds_perm (hlen : bs.length < 2 ^ 31) (h : ∀ b ∈ bs, IsLine 1024 b.token) :
    ∃ ids1 ids2 ids3, slotIds (outputsOf (entriesOf bs)).slave1 = some ids1 ∧
      slotIds (outputsOf (entriesOf bs)).slave2 = some ids2 ∧
      slotIds (outputsOf (entriesOf bs)).node = some ids3 ∧
      (ids1 ++ ids2 ++ ids3).Perm ((List.range' 1 bs.length).map Nat.cast) := by
  have hok := entriesOf_ok h hlen
  refine ⟨_, _, _, slotIds_output hok .slave1, slotIds_output hok .slave2,
    slotIds_output hok .node, ?_⟩
  have hids : (entriesOf bs).map Entry.id = (List.range' 1 bs.length).map Nat.cast := by
    rw [← List.zipIdx_map_snd 1 bs, List.map_map, entriesOf, List.map_map]
    rfl
  rw [← List.map_append, ← List.map_append, ← hids]
  exact (filter_nodes_perm _).map Entry.id

/-! ## The slots -/

theorem disjoint_slot {i j : ℤ} (h : i ≠ j) : ∀ a ∈ slot i, a ∉ slot j := by
  rintro a ⟨hi, hi'⟩ ⟨hj, hj'⟩
  rw [blockSize] at *
  omega

theorem blockNum_devSize : blockNum devSize = 3199 := by
  rw [blockNum, devSize, blockSize]
  norm_num

theorem slot_subset {id : ℤ} (h1 : 1 ≤ id) (h2 : id ≤ blockNum devSize) :
    slot id ⊆ Set.Ico 0 devSize := by
  rw [blockNum_devSize] at h2
  rintro a ⟨ha, ha'⟩
  rw [blockSize] at ha ha'
  rw [devSize]
  constructor <;> omega

/-- The ids from 1 to `n`, split over three outputs, are slots of the device up to
    `BLOCK_NUM`. -/
theorem onDevice_iff {ids : List ℤ} {n : ℕ} (h : ids.Perm ((List.range' 1 n).map Nat.cast)) :
    OnDevice ids ↔ n ≤ blockNum devSize := by
  have hmem : ∀ id : ℤ, id ∈ ids ↔ 1 ≤ id ∧ id ≤ n := by
    intro id
    rw [h.mem_iff, List.mem_map]
    constructor
    · rintro ⟨k, hk, rfl⟩
      have := List.mem_range'_1.1 hk
      omega
    · rintro ⟨h1, h2⟩
      exact ⟨id.toNat, List.mem_range'_1.2 (by omega), by omega⟩
  constructor
  · intro hon
    rw [blockNum_devSize] at *
    rcases Nat.eq_zero_or_pos n with rfl | hn
    · omega
    · exact blockNum_devSize ▸ (hon.range n ((hmem n).2 ⟨by omega, le_refl _⟩)).2
  · intro hle
    have hnodup : ids.Nodup := h.nodup_iff.2 (List.Nodup.map Nat.cast_injective List.nodup_range')
    have hrange : ∀ id ∈ ids, 1 ≤ id ∧ id ≤ blockNum devSize := fun id hid =>
      ⟨((hmem id).1 hid).1, ((hmem id).1 hid).2.trans hle⟩
    exact ⟨hnodup, hrange, hnodup.imp disjoint_slot, fun id hid =>
      slot_subset (hrange id hid).1 (hrange id hid).2⟩

theorem slotsOnDevice_iff (hlen : bs.length < 2 ^ 31) (h : ∀ b ∈ bs, IsLine 1024 b.token) :
    SlotsOnDevice (outputsOf (entriesOf bs)) ↔ bs.length ≤ blockNum devSize := by
  obtain ⟨ids1, ids2, ids3, h1, h2, h3, hperm⟩ := slotIds_perm hlen h
  rw [← onDevice_iff hperm]
  constructor
  · rintro ⟨i1, i2, i3, e1, e2, e3, hon⟩
    obtain rfl := Option.some.inj (h1.symm.trans e1)
    obtain rfl := Option.some.inj (h2.symm.trans e2)
    obtain rfl := Option.some.inj (h3.symm.trans e3)
    exact hon
  · exact fun hon => ⟨ids1, ids2, ids3, h1, h2, h3, hon⟩

/-- **The slot ids stay on the device** exactly for texts of at most `BLOCK_NUM` block
    records. -/
theorem slots_on_device_iff (h : getfileblk text = some (o, info)) :
    SlotsOnDevice o ↔ blockRecords (fgetsAll 1024 text) ≤ blockNum devSize := by
  obtain ⟨bs, hlen, hint, htoken, rfl⟩ := getfileblk_eq_some h
  rw [slotsOnDevice_iff hint htoken, hlen]

/-- Four block records, for each of the three nodes. -/
def fourBlocks : List Char := unlines
  [['b', 'l', 'o', 'c', 'k', '0'], ['t'], slave1Name, ['b', 'l', 'o', 'c', 'k', '1'], ['u'], ['h'],
    ['b', 'l', 'o', 'c', 'k', '2'], ['v'], slave2Name, ['b', 'l', 'o', 'c', 'k', '0'], ['w'],
    slave1Name]

theorem slots_on_device_iff_four :
    SlotsOnDevice ⟨recordOf ['t'] 1 ++ recordOf ['w'] 4, recordOf ['v'] 3, recordOf ['u'] 2⟩ := by
  have h : getfileblk fourBlocks = some (⟨recordOf ['t'] 1 ++ recordOf ['w'] 4, recordOf ['v'] 3,
    recordOf ['u'] 2⟩, []) := rfl
  have hfour : blockRecords (fgetsAll 1024 fourBlocks) = 4 := rfl
  rw [slots_on_device_iff h, hfour, blockNum_devSize]
  norm_num

/-- A file of 3200 blocks: the last one gets the slot behind the device. -/
theorem slots_beyond_device : ∃ text o info, writeFilesblk (bigListing 1 3200) = some text ∧
    getfileblk text = some (o, info) ∧ ¬ SlotsOnDevice o := by
  have hn : 3200 < 2 ^ 31 := by norm_num
  have hok := bigListing_ok (m := 1) (by norm_num) hn
  have hlen : (listing (bigListing 1 3200)).length = 3200 := length_bigListing hn
  obtain ⟨text, hw, hg⟩ := getfileblk_listing hok
  rw [if_pos (hlen.trans_lt hn)] at hg
  refine ⟨text, _, _, hw, hg, fun h => ?_⟩
  have htoken : ∀ b ∈ listing (bigListing 1 3200), IsLine 1024 b.token := by
    intro b hb
    obtain ⟨f, hf, hb⟩ := List.mem_flatMap.1 hb
    exact ((hok f hf).block b hb).token
  rw [slotsOnDevice_iff (hlen.trans_lt hn) htoken, hlen, blockNum_devSize] at h
  omega

end Blocklist
