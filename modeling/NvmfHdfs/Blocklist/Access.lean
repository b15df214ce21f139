/-
  The accesses of `getfileblk` to its vectors.

  At a `file` line `path_vec` and `blk_id` are cleared, `datanode` is not, and
  the ids are pushed only after the loop.  Here a run that ends in undefined
  behaviour says in which: an access beyond a vector, beyond a buffer, or a
  counter that leaves `int`; and `buf` is the memory it is, so that what
  `strcpy(namebuf, buf + 5)` finds there is known.

    - `turns`: the turns of the `while` loop over the lines of a text;
    - `Access.getfileblk`: `getfileblk` with the fault that ends it; where
      `getfileblk` is defined, it does the same (`getfileblk_of_some`);
    - `vectors_aligned_iff`: every access is made and in range, and each path is
      beside the host line that followed it, exactly for orderly texts;
    - `vectors_out_of_range`: a `file` line behind a block record.
-/
import NvmfHdfs.Lib.Faults
import NvmfHdfs.Blocklist.Reader

namespace Blocklist

open CInt CText Faults

/-! ## The turns of the loop -/

/-- A turn of the `while` loop: a `file` line, with the string at `buf + 5`; a block line and the
    two lines read after it, if there are any; another line. -/
inductive Turn where
  | file (behind : List Char)
  | block (buf : List Char) (line line' : Option (List Char))
  | other

/-- `buf` after `fgets` has stored a line and its zero. -/
def stored (line buf : List Char) : List Char := line ++ nul :: buf.drop (line.length + 1)

/-- `buf` after `buf[strlen(buf) - 1] = '\0'`, for a string that is not empty. -/
def chopped (buf : List Char) : List Char := buf.set ((cstr buf).length - 1) nul

/-- The turns over the lines left, with what `buf` holds. -/
def turns : List Char → List (List Char) → List Turn
  | _, [] => []
  | buf, line :: ls =>
    -- behind a line of four characters is what earlier lines have left
    if isFile (cstr line) then
      .file (cstr ((stored line buf).drop 5)) :: turns (stored line buf) ls
    else if isBlock (cstr line) then
      match ls with
      | [] => [.block (cstr line) none none]
      | [line'] => [.block (cstr line) (some line') none]
      | line' :: line'' :: ls =>
        .block (cstr line) (some line') (some line'') ::
          turns (chopped (stored line'' (chopped (stored line' (stored line buf))))) ls
    else .other :: turns (stored line buf) ls

/-- The turns over a text, from `char buf[1024] = "\0"`. -/
def turnsOf (text : List Char) : List Turn := turns (List.replicate 1024 nul) (fgetsAll 1024 text)

namespace Turn

/-- What a block line pushes: where a line is missing, `buf` loses another character. -/
def pair? : Turn → Option (List Char × List Char)
  | .block buf line line' => do
    let token ← chop ((line.map cstr).getD buf)
    let host ← chop ((line'.map cstr).getD token)
    some (token, host)
  | _ => none

/-- The turn overruns no buffer: `char namebuf[20]`, and `buf` and `namebuf` before their start. -/
def Fits : Turn → Prop
  | .file behind => 0 < behind.length ∧ behind.length < 20
  | .block buf line line' => (pair? (.block buf line line')).isSome = true
  | .other => True

instance : DecidablePred Fits
  | .file behind => inferInstanceAs (Decidable (0 < behind.length ∧ behind.length < 20))
  | .block buf line line' =>
    inferInstanceAs (Decidable ((pair? (.block buf line line')).isSome = true))
  | .other => .isTrue trivial

def isFile : Turn → Bool
  | .file _ => true
  | _ => false

def isBlock : Turn → Bool
  | .block .. => true
  | _ => false

end Turn

/-! ## The runs with their faults -/

/-- What ends a run: an access beyond a vector, one beyond a buffer, a counter that leaves
    `int`. -/
inductive Fault where
  | range
  | buffer
  | counter
deriving DecidableEq

namespace Access

/-- `fileRecords`. -/
def fileRecords (blk_id : List ℤ) : ℕ → List (List Char) → Except Fault (List Char)
  | _, [] => .ok []
  | i, path :: paths => do
    let id ← orFault .range blk_id[i]?
    let outinfo := path ++ ' ' :: (printInt id ++ ['\n'])
    if outinfo.length < 20 then do
      let rest ← fileRecords blk_id (i + 1) paths
      .ok (outinfo ++ rest)
    else .error .buffer

/-- `fileLine`, with the string at `buf + 5`. -/
def fileLine (behind : List Char) (v : Vectors) : Except Fault Vectors := do
  let out ← fileRecords v.blk_id 0 v.path_vec
  if 0 < behind.length ∧ behind.length < 20 then
    .ok { v with path_vec := [], blk_id := [], writeinfo := v.writeinfo ++ out }
  else .error .buffer

/-- A turn of the `while` loop. -/
def turn (v : Vectors) : Turn → Except Fault Vectors
  | .file behind => fileLine behind v
  | .block buf line line' => do
    let (token, host) ← orFault .buffer (Turn.pair? (.block buf line line'))
    .ok (pushBlock v token host)
  | .other => .ok v

/-- The `while` loop. -/
def parseLoop (ts : List Turn) (v : Vectors) : Except Fault Vectors := ts.foldlM turn v

/-- `pushIds`. -/
def pushIds (v : Vectors) : Except Fault Vectors := orFault .counter (Blocklist.pushIds v)

/-- `emit`. -/
def emit (v : Vectors) (i : ℕ) (o : Outputs) : Except Fault Outputs := do
  let path ← orFault .range v.path_vec[i]?
  let id ← orFault .range v.blk_id[i]?
  let host ← orFault .range v.datanode[i]?
  if (recordOf path id).length < 2000 then .ok (o.write host (recordOf path id))
  else .error .buffer

/-- `emitAll`. -/
def emitAll (v : Vectors) : ℕ → ℕ → Outputs → Except Fault Outputs
  | 0, _, o => .ok o
  | k + 1, i, o => do
    let o ← emit v i o
    emitAll v k (i + 1) o

/-- The vectors the output loop runs over. -/
def finalVectors (filesblk : List Char) : Except Fault Vectors := do
  let v ← parseLoop (turnsOf filesblk) ⟨[], [], [], []⟩
  pushIds v

/-- `getfileblk`. -/
def getfileblk (filesblk : List Char) : Except Fault (Outputs × List Char) := do
  let v ← finalVectors filesblk
  let o ← emitAll v v.path_vec.length 0 ⟨[], [], []⟩
  .ok (o, v.writeinfo)

end Access

variable {buf behind line : List Char} {ls : List (List Char)} {v v' : Vectors} {o : Outputs}
  {t : Turn} {ts : List Turn} {text : List Char}

/-! ### Where it is defined -/

theorem isBlock_of_isFile (h : isFile buf = true) : isBlock buf = false := by
  rcases buf with - | ⟨c, buf⟩
  · cases h
  · rw [isFile, List.isPrefixOf, Bool.and_eq_true, beq_iff_eq] at h
    rw [isBlock, List.isPrefixOf, ← h.1]
    rfl

theorem fileRecords_toOption (blk_id : List ℤ) (i : ℕ) (paths : List (List Char)) :
    (Access.fileRecords blk_id i paths).toOption = fileRecords blk_id i paths := by
  induction paths generalizing i with
  | nil => rfl
  | cons path paths ih => simp [Access.fileRecords, fileRecords, ih]

/-- A string of more than five characters in `buf` goes on at `buf + 5`. -/
theorem length_behind (h : 5 < (cstr line).length) :
    (cstr ((stored line buf).drop 5)).length = (cstr line).length - 5 := by
  rw [stored, cstr_drop h.le, List.length_drop]

theorem fileLine_of_some (h : fileLine (cstr line) v = some v') :
    Access.fileLine (cstr ((stored line buf).drop 5)) v = .ok v' := by
  obtain ⟨out, hout, h⟩ := Option.bind_eq_some_iff.1 h
  rw [← fileRecords_toOption, toOption_eq_some] at hout
  split_ifs at h with hlen
  have hlong : (cstr ((stored line buf).drop 5)).length = (cstr line).length - 5 :=
    length_behind hlen.1
  rw [Access.fileLine, hout, ok_bind, if_pos (by omega), ← Option.some.inj h]

theorem parseLoop_nil (v : Vectors) : Access.parseLoop [] v = .ok v := rfl

theorem parseLoop_cons (t : Turn) (ts : List Turn) (v : Vectors) :
    Access.parseLoop (t :: ts) v = Access.turn v t >>= Access.parseLoop ts := rfl

theorem turn_block {line line' : Option (List Char)} {p : List Char × List Char}
    (hp : (Turn.block buf line line').pair? = some p) :
    Access.turn v (.block buf line line') = .ok (pushBlock v p.1 p.2) := by
  simp [Access.turn, hp]

/-- The turns are those of the loop. -/
theorem parseLoop_of_some (h : parseLoop ls v = some v') (buf : List Char) :
    Access.parseLoop (turns buf ls) v = .ok v' := by
  fun_induction turns buf ls generalizing v with
  | case1 => rw [parseLoop_nil, Option.some.inj h]
  | case2 buf line ls hf ih =>
    rw [parseLoop, if_pos hf, isBlock_of_isFile hf] at h
    obtain ⟨w, hw, h⟩ := Option.bind_eq_some_iff.1 h
    rw [parseLoop_cons, Access.turn, fileLine_of_some hw, ok_bind]
    exact ih h
  | case3 buf line hf hb =>
    rw [parseLoop, if_neg hf, Option.bind_eq_bind, Option.bind_some] at h
    beta_reduce at h
    rw [if_pos hb] at h
    obtain ⟨token, htoken, h⟩ := Option.bind_eq_some_iff.1 h
    obtain ⟨host, hhost, h⟩ := Option.bind_eq_some_iff.1 h
    have hp : (Turn.block (cstr line) none none).pair? = some (token, host) := by
      simp [Turn.pair?, htoken, hhost]
    rw [parseLoop_cons, turn_block hp, ok_bind, parseLoop_nil, Option.some.inj h]
  | case4 buf line hf hb line' =>
    rw [parseLoop, if_neg hf, Option.bind_eq_bind, Option.bind_some] at h
    beta_reduce at h
    rw [if_pos hb] at h
    obtain ⟨token, htoken, h⟩ := Option.bind_eq_some_iff.1 h
    obtain ⟨host, hhost, h⟩ := Option.bind_eq_some_iff.1 h
    have hp : (Turn.block (cstr line) (some line') none).pair? = some (token, host) := by
      simp [Turn.pair?, htoken, hhost]
    rw [parseLoop_cons, turn_block hp, ok_bind, parseLoop_nil, Option.some.inj h]
  | case5 buf line hf hb line' line'' ls ih =>
    rw [parseLoop, if_neg hf, Option.bind_eq_bind, Option.bind_some] at h
    beta_reduce at h
    rw [if_pos hb] at h
    obtain ⟨token, htoken, h⟩ := Option.bind_eq_some_iff.1 h
    obtain ⟨host, hhost, h⟩ := Option.bind_eq_some_iff.1 h
    have hp : (Turn.block (cstr line) (some line') (some line'')).pair? = some (token, host) := by
      simp [Turn.pair?, htoken, hhost]
    rw [parseLoop_cons, turn_block hp, ok_bind]
    exact ih h
  | case6 buf line ls hf hb ih =>
    rw [parseLoop, if_neg hf, Option.bind_eq_bind, Option.bind_some] at h
    beta_reduce at h
    rw [if_neg hb] at h
    rw [parseLoop_cons]
    exact ih h

theorem emitAll_toOption (v : Vectors) (k i : ℕ) (o : Outputs) :
    (Access.emitAll v k i o).toOption = emitAll v k i o := by
  induction k generalizing i o with
  | zero => rfl
  | succ k ih => simp [Access.emitAll, emitAll, Access.emit, emit, ih, Option.bind_assoc]

/-- **Where it is defined**, `getfileblk` does the same. -/
theorem getfileblk_of_some {r : Outputs × List Char} (h : getfileblk text = some r) :
    Access.getfileblk text = .ok r := by
  obtain ⟨w, hw, h⟩ := Option.bind_eq_some_iff.1 h
  obtain ⟨v, hv, h⟩ := Option.bind_eq_some_iff.1 h
  obtain ⟨o, ho, h⟩ := Option.bind_eq_some_iff.1 h
  have hfinal : Access.finalVectors text = .ok v := by
    rw [Access.finalVectors, turnsOf, parseLoop_of_some hw, ok_bind, Access.pushIds, hv,
      orFault_some]
  rw [← emitAll_toOption, toOption_eq_some] at ho
  rw [Access.getfileblk, hfinal, ok_bind, ho, ok_bind, ← Option.some.inj h]

/-! ## Aligned vectors -/

/-- A line without the newline at its end. -/
def bareLine (line : List Char) : List Char :=
  if line.getLast? = some '\n' then line.dropLast else line

/-- The line behind each block line, and the line behind that one. -/
def records : List Turn → List (Option (List Char) × Option (List Char))
  | [] => []
  | .block _ line line' :: ts => (line.map bareLine, line'.map bareLine) :: records ts
  | _ :: ts => records ts

/-- Every access is made and in range: nothing on the way is undefined, after which C promises
    nothing of the vectors; and in the output loop every path is a line behind a block line, and
    what is beside it is the line that followed it. -/
structure VectorsAligned (text : List Char) : Prop where
  range : ∃ r, Access.getfileblk text = .ok r
  host : ∀ v : Vectors, Access.finalVectors text = .ok v →
    ∀ (i : ℕ) path, v.path_vec[i]? = some path → ∃ host, v.datanode[i]? = some host ∧
      (records (turnsOf text))[i]? = some (some path, some host)

/-- A line that ends in a newline, and no character before it ends the string. -/
structure Terminated (line : List Char) : Prop where
  nul : nul ∉ line
  newline : line.getLast? = some '\n'

namespace Turn

/-- A block line has both lines behind it. -/
def Whole : Turn → Prop
  | .block _ line line' => (∃ l, line = some l ∧ Terminated l) ∧ ∃ l, line' = some l ∧ Terminated l
  | _ => True

/-- What the block lines push. -/
def pairs (ts : List Turn) : List (List Char × List Char) := ts.filterMap pair?

@[simp] theorem pairs_nil : pairs [] = [] := rfl

@[simp] theorem pairs_file (buf : List Char) (ts : List Turn) :
    pairs (.file buf :: ts) = pairs ts := rfl

@[simp] theorem pairs_other (ts : List Turn) : pairs (.other :: ts) = pairs ts := rfl

theorem pairs_block {t : Turn} {p : List Char × List Char} (hp : t.pair? = some p)
    (ts : List Turn) : pairs (t :: ts) = p :: pairs ts := List.filterMap_cons_some hp

end Turn

/-- No line overruns a buffer, no `file` line is behind a block record, there are not more blocks
    than an `int` counts, and each block line has both lines behind it. -/
structure Orderly (text : List Char) : Prop where
  fits : ∀ t ∈ turnsOf text, t.Fits
  file : (turnsOf text).Pairwise fun t t' => t.isBlock = true → t'.isFile = false
  count : (records (turnsOf text)).length < 2 ^ 31
  whole : ∀ t ∈ turnsOf text, t.Whole

/-! ### One turn -/

/-- At a `file` line the ids of all paths are read, and there are none. -/
theorem turn_file (hid : v.blk_id = []) : Access.turn v (.file behind) =
    if v.path_vec = [] then
      if (Turn.file behind).Fits then .ok v else .error .buffer
    else .error .range := by
  obtain ⟨path_vec, blk_id, datanode, writeinfo⟩ := v
  obtain rfl : blk_id = [] := hid
  cases path_vec with
  | nil =>
    by_cases hfit : 0 < behind.length ∧ behind.length < 20
    · simp [Access.turn, Access.fileLine, Access.fileRecords, Turn.Fits, hfit]
    · simp [Access.turn, Access.fileLine, Access.fileRecords, Turn.Fits, hfit]
  | cons path paths => simp [Access.turn, Access.fileLine, Access.fileRecords]

theorem turn_unfit {line line' : Option (List Char)} (h : ¬ (Turn.block buf line line').Fits) :
    Access.turn v (.block buf line line') = .error .buffer := by
  have hp : (Turn.block buf line line').pair? = none := by simpa [Turn.Fits] using h
  simp [Access.turn, hp]

/-! ### The loop -/

/-- **When the loop ends**: no buffer is overrun, and a `file` line does not follow a path. -/
theorem parseLoop_isOk (hid : v.blk_id = []) : (∃ v', Access.parseLoop ts v = .ok v') ↔
    (∀ t ∈ ts, t.Fits) ∧ (v.path_vec ≠ [] → ∀ t ∈ ts, t.isFile = false) ∧
      ts.Pairwise fun t t' => t.isBlock = true → t'.isFile = false := by
  induction ts generalizing v with
  | nil => simp [parseLoop_nil]
  | cons t ts ih =>
    rw [parseLoop_cons]
    cases t with
    | file behind =>
      rw [turn_file hid]
      by_cases hv : v.path_vec = []
      · by_cases hfit : (Turn.file behind).Fits
        · simp [hv, hfit, ih hid, Turn.isBlock]
        · simp [hv, hfit]
      · simp [hv, Turn.isFile]
    | block buf line line' =>
      by_cases hfit : (Turn.block buf line line').Fits
      · obtain ⟨p, hp⟩ := Option.isSome_iff_exists.1 hfit
        have hv : (pushBlock v p.1 p.2).path_vec ≠ [] := by simp [pushBlock]
        rw [turn_block hp, ok_bind, ih (v := pushBlock v p.1 p.2) hid]
        simp [hfit, hv, Turn.isFile, Turn.isBlock]
        tauto
      · rw [turn_unfit hfit]
        simp [hfit]
    | other =>
      have hfit : Turn.other.Fits := trivial
      simp [Access.turn, ih hid, hfit, Turn.isFile, Turn.isBlock]

/-- **What the loop leaves**: a path and a host for every block line. -/
theorem parseLoop_eq_ok (hid : v.blk_id = []) (h : Access.parseLoop ts v = .ok v') :
    (∀ t ∈ ts, t.Fits) ∧ v' = { v with
      path_vec := v.path_vec ++ (Turn.pairs ts).map Prod.fst
      datanode := v.datanode ++ (Turn.pairs ts).map Prod.snd } := by
  induction ts generalizing v with
  | nil =>
    rw [parseLoop_nil] at h
    cases h
    simp
  | cons t ts ih =>
    rw [parseLoop_cons] at h
    rw [List.forall_mem_cons]
    cases t with
    | file buf =>
      rw [turn_file hid] at h
      split_ifs at h with hv hfit
      · obtain ⟨hts, rfl⟩ := ih hid h
        exact ⟨⟨hfit, hts⟩, by simp⟩
      · cases h
      · cases h
    | block buf line line' =>
      by_cases hfit : (Turn.block buf line line').Fits
      · obtain ⟨p, hp⟩ := Option.isSome_iff_exists.1 hfit
        rw [turn_block hp] at h
        obtain ⟨hts, rfl⟩ := ih (v := pushBlock v p.1 p.2) hid h
        exact ⟨⟨hfit, hts⟩, by simp [Turn.pairs_block hp, pushBlock]⟩
      · rw [turn_unfit hfit] at h
        cases h
    | other =>
      obtain ⟨hts, rfl⟩ := ih hid h
      exact ⟨⟨trivial, hts⟩, by simp⟩

/-! ### The output loop -/

/-- The vectors of the output loop. -/
theorem finalVectors_eq_ok (h : Access.finalVectors text = .ok v) :
    (∀ t ∈ turnsOf text, t.Fits) ∧ (Turn.pairs (turnsOf text)).length < 2 ^ 31 ∧
      v.path_vec = (Turn.pairs (turnsOf text)).map Prod.fst ∧
      v.datanode = (Turn.pairs (turnsOf text)).map Prod.snd ∧
      v.blk_id = (List.range v.path_vec.length).map fun i : ℕ => (i : ℤ) + 1 := by
  obtain ⟨w, hw, h⟩ := bind_eq_ok.1 h
  obtain ⟨hfit, rfl⟩ := parseLoop_eq_ok rfl hw
  rw [Access.pushIds, Blocklist.pushIds] at h
  split_ifs at h with hlen
  · cases h
    exact ⟨hfit, by simpa using hlen, rfl, rfl, by simp⟩
  · cases h

theorem finalVectors_isOk : (∃ v, Access.finalVectors text = .ok v) ↔
    (∃ w, Access.parseLoop (turnsOf text) ⟨[], [], [], []⟩ = .ok w) ∧
      (Turn.pairs (turnsOf text)).length < 2 ^ 31 := by
  constructor
  · rintro ⟨v, hv⟩
    obtain ⟨w, hw, -⟩ := bind_eq_ok.1 hv
    exact ⟨⟨w, hw⟩, (finalVectors_eq_ok hv).2.1⟩
  · rintro ⟨⟨w, hw⟩, hlen⟩
    obtain ⟨-, rfl⟩ := parseLoop_eq_ok rfl hw
    rw [Access.finalVectors, hw, ok_bind, Access.pushIds, Blocklist.pushIds,
      if_pos (by simpa using hlen)]
    exact ⟨_, rfl⟩

/-- The output loop ends, in vectors that are long enough and with records that fit. -/
theorem emitAll_ok {k i : ℕ} (hpath : i + k ≤ v.path_vec.length)
    (hid : v.path_vec.length ≤ v.blk_id.length) (hhost : v.path_vec.length ≤ v.datanode.length)
    (hrec : ∀ path ∈ v.path_vec, ∀ id ∈ v.blk_id, (recordOf path id).length < 2000) :
    ∃ o', Access.emitAll v k i o = .ok o' := by
  induction k generalizing i o with
  | zero => exact ⟨o, rfl⟩
  | succ k ih =>
    have hemit : ∃ o', Access.emit v i o = .ok o' := by
      rw [Access.emit, List.getElem?_eq_getElem (by omega), List.getElem?_eq_getElem (by omega),
        List.getElem?_eq_getElem (by omega)]
      simp only [orFault_some, ok_bind]
      rw [if_pos (hrec _ (List.getElem_mem _) _ (List.getElem_mem _))]
      exact ⟨_, rfl⟩
    obtain ⟨o', ho'⟩ := hemit
    rw [Access.emitAll, ho', ok_bind]
    exact ih (by omega)

/-- What a block line pushes as path is a line, without its last character. -/
theorem pair_short {line' line'' : Option (List Char)} {p : List Char × List Char}
    (hline : line.length < 1024) (hline' : ∀ l ∈ line', l.length < 1024)
    (hp : (Turn.block (cstr line) line' line'').pair? = some p) : p.1.length < 1024 := by
  obtain ⟨token, htoken, hp⟩ := Option.bind_eq_some_iff.1 hp
  obtain ⟨host, -, hp⟩ := Option.bind_eq_some_iff.1 hp
  cases hp
  refine (length_chop_le htoken).trans_lt ?_
  cases line' with
  | none => exact (length_cstr_le _).trans_lt hline
  | some l => exact (length_cstr_le _).trans_lt (hline' l rfl)

/-- The paths pushed fit `buf`. -/
theorem pairs_short (hls : ∀ line ∈ ls, line.length < 1024) :
    ∀ t ∈ turns buf ls, ∀ p ∈ t.pair?, p.1.length < 1024 := by
  fun_induction turns buf ls with
  | case1 => simp
  | case2 buf line ls hf ih =>
    rw [List.forall_mem_cons] at hls ⊢
    exact ⟨nofun, ih hls.2⟩
  | case3 buf line hf hb =>
    rw [List.forall_mem_singleton] at hls ⊢
    exact fun p hp => pair_short hls (by simp) hp
  | case4 buf line hf hb line' =>
    rw [List.forall_mem_cons, List.forall_mem_singleton] at hls
    rw [List.forall_mem_singleton]
    exact fun p hp => pair_short hls.1 (by simpa using hls.2) hp
  | case5 buf line hf hb line' line'' ls ih =>
    rw [List.forall_mem_cons, List.forall_mem_cons, List.forall_mem_cons] at hls
    obtain ⟨hline, hline', -, hls⟩ := hls
    rw [List.forall_mem_cons]
    exact ⟨fun p hp => pair_short hline (by simpa using hline') hp, ih hls⟩
  | case6 buf line ls hf hb ih =>
    rw [List.forall_mem_cons] at hls ⊢
    exact ⟨nofun, ih hls.2⟩

/-- **When the run ends**: when the loop does, and an `int` counts the paths. -/
theorem getfileblk_isOk : (∃ r, Access.getfileblk text = .ok r) ↔
    ∃ v, Access.finalVectors text = .ok v := by
  constructor
  · rintro ⟨r, hr⟩
    obtain ⟨v, hv, -⟩ := bind_eq_ok.1 hr
    exact ⟨v, hv⟩
  · rintro ⟨v, hv⟩
    obtain ⟨-, hlen, hpath, hhost, hid⟩ := finalVectors_eq_ok hv
    have hrec : ∀ path ∈ v.path_vec, ∀ id ∈ v.blk_id, (recordOf path id).length < 2000 := by
      intro path hp id hi
      rw [hpath] at hp
      obtain ⟨p, hpair, rfl⟩ := List.mem_map.1 hp
      obtain ⟨t, ht, hp⟩ := List.mem_filterMap.1 hpair
      rw [hid, hpath, List.length_map] at hi
      obtain ⟨k, hk, rfl⟩ := List.mem_map.1 hi
      have hk := List.mem_range.1 hk
      have hshort : p.1.length < 1024 :=
        pairs_short (fun line hl => Nat.lt_succ_of_le (filled_fgetsAll hl).short) t ht p hp
      exact length_recordOf (k := k + 1) hshort (by omega)
    obtain ⟨o, ho⟩ := emitAll_ok (i := 0) (o := ⟨[], [], []⟩) (Nat.zero_add _).le
      (by rw [hid, List.length_map, List.length_range]) (by rw [hpath, hhost]; simp) hrec
    rw [Access.getfileblk, hv, ok_bind, ho, ok_bind]
    exact ⟨_, rfl⟩

/-! ### The lines behind the block lines -/

/-- A line loses its newline if it ends in one, and nothing else. -/
theorem chop_cstr_iff : chop (cstr line) = some (bareLine line) ↔ Terminated line := by
  constructor
  · intro h
    have hpre : cstr line <+: line := List.takeWhile_prefix _
    have hle := hpre.length_le
    cases hstr : cstr line with
    | nil => rw [hstr] at h; cases h
    | cons c cs =>
      rw [hstr] at h hle
      have hlen := congrArg List.length (Option.some.inj h)
      rw [List.length_dropLast, List.length_cons, Nat.add_sub_cancel] at hlen
      rw [List.length_cons] at hle
      unfold bareLine at hlen
      split_ifs at hlen with hnl
      · rw [List.length_dropLast] at hlen
        have hself : cstr line = line := hpre.eq_of_length (by rw [hstr, List.length_cons]; omega)
        refine ⟨fun hm => ?_, hnl⟩
        rw [← hself] at hm
        simpa using List.mem_takeWhile_imp hm
      · omega
  · rintro ⟨hnul, hnl⟩
    obtain ⟨l, rfl⟩ := List.getLast?_eq_some_iff.1 hnl
    rw [cstr_of_notMem hnul, chop_append]
    simp [bareLine]

/-- What a block line pushes are the lines behind it exactly if it has both. -/
theorem pair_whole {line line' : Option (List Char)} {p : List Char × List Char}
    (hp : (Turn.block buf line line').pair? = some p) :
    (line.map bareLine, line'.map bareLine) = (some p.1, some p.2) ↔
      (Turn.block buf line line').Whole := by
  obtain ⟨token, htoken, hp⟩ := Option.bind_eq_some_iff.1 hp
  obtain ⟨host, hhost, hp⟩ := Option.bind_eq_some_iff.1 hp
  cases hp
  rw [Prod.mk.injEq]
  refine and_congr ?_ ?_
  · cases line with
    | none => simp
    | some l =>
      rw [Option.map_some, Option.getD_some] at htoken
      simp only [Option.map_some, Option.some.injEq, exists_eq_left']
      rw [← chop_cstr_iff, htoken, Option.some.injEq, eq_comm]
  · cases line' with
    | none => simp
    | some l =>
      rw [Option.map_some, Option.getD_some] at hhost
      simp only [Option.map_some, Option.some.injEq, exists_eq_left']
      rw [← chop_cstr_iff, hhost, Option.some.injEq, eq_comm]

/-- The records, where no buffer is overrun: as many as the pairs pushed, and these pairs exactly
    if every block line has both lines behind it. -/
theorem records_iff (hfit : ∀ t ∈ ts, t.Fits) :
    (records ts).length = (Turn.pairs ts).length ∧
      (records ts = (Turn.pairs ts).map (fun p => (some p.1, some p.2)) ↔ ∀ t ∈ ts, t.Whole) := by
  induction ts with
  | nil => simp [records]
  | cons t ts ih =>
    rw [List.forall_mem_cons] at hfit ⊢
    obtain ⟨ht, hts⟩ := hfit
    obtain ⟨hlen, hiff⟩ := ih hts
    cases t with
    | file buf => exact ⟨hlen, hiff.trans (by simp [Turn.Whole])⟩
    | block buf line line' =>
      obtain ⟨p, hp⟩ := Option.isSome_iff_exists.1 ht
      rw [Turn.pairs_block hp, records]
      refine ⟨by simp [hlen], ?_⟩
      rw [List.map_cons, List.cons.injEq, pair_whole hp, hiff]
    | other => exact ⟨hlen, hiff.trans (by simp [Turn.Whole])⟩

/-- Two vectors beside a list of records, index by index. -/
theorem beside_iff {ps : List (List Char × List Char)}
    {rs : List (Option (List Char) × Option (List Char))} (hlen : rs.length = ps.length) :
    (∀ (i : ℕ) path, (ps.map Prod.fst)[i]? = some path →
      ∃ host, (ps.map Prod.snd)[i]? = some host ∧ rs[i]? = some (some path, some host)) ↔
    rs = ps.map fun p => (some p.1, some p.2) := by
  constructor
  · intro h
    refine List.ext_getElem (by simpa using hlen) fun i h1 h2 => ?_
    have hi : i < ps.length := by simpa using h2
    obtain ⟨host, hhost, hr⟩ := h i (ps[i]).1 (by simp [hi])
    rw [List.getElem?_map, List.getElem?_eq_getElem hi, Option.map_some] at hhost
    rw [List.getElem?_eq_getElem h1] at hr
    cases hhost
    simpa using hr
  · rintro rfl i path hi
    rw [List.getElem?_map, Option.map_eq_some_iff] at hi
    obtain ⟨p, hp, rfl⟩ := hi
    exact ⟨p.2, by simp [hp], by simp [hp]⟩

/-- **The vectors are aligned** exactly for orderly texts. -/
theorem vectors_aligned_iff (text : List Char) : VectorsAligned text ↔ Orderly text := by
  have hok : (∃ r, Access.getfileblk text = .ok r) ↔
      ((∀ t ∈ turnsOf text, t.Fits) ∧
        (turnsOf text).Pairwise fun t t' => t.isBlock = true → t'.isFile = false) ∧
      (Turn.pairs (turnsOf text)).length < 2 ^ 31 := by
    rw [getfileblk_isOk, finalVectors_isOk, parseLoop_isOk rfl]
    simp
  constructor
  · rintro ⟨hrun, hhost⟩
    obtain ⟨⟨hfit, hfile⟩, hlen⟩ := hok.1 hrun
    obtain ⟨hlen', hiff⟩ := records_iff hfit
    obtain ⟨v, hv⟩ := getfileblk_isOk.1 hrun
    obtain ⟨-, -, hpath, hdata, -⟩ := finalVectors_eq_ok hv
    have hbeside := hhost v hv
    rw [hpath, hdata, beside_iff hlen'] at hbeside
    exact ⟨hfit, hfile, hlen' ▸ hlen, hiff.1 hbeside⟩
  · rintro ⟨hfit, hfile, hlen, hwhole⟩
    obtain ⟨hlen', hiff⟩ := records_iff hfit
    refine ⟨hok.2 ⟨⟨hfit, hfile⟩, hlen' ▸ hlen⟩, fun v hv => ?_⟩
    obtain ⟨-, -, hpath, hdata, -⟩ := finalVectors_eq_ok hv
    rw [hpath, hdata, beside_iff hlen']
    exact hiff.2 hwhole

/-- A block record and a `file` line behind it. -/
def fileBehind : List Char :=
  unlines [['b', 'l', 'o', 'c', 'k', '0'], ['B', 'P', '-', '1'], slave1Name,
    ['f', 'i', 'l', 'e', ':', '/', 'b']]

/-- At the `file` line the id of the first path is read, and no id was pushed. -/
theorem vectors_out_of_range :
    Access.getfileblk fileBehind = .error .range ∧ ¬ VectorsAligned fileBehind := by
  have h : Access.getfileblk fileBehind = .error .range := by rfl
  refine ⟨h, fun ha => ?_⟩
  obtain ⟨r, hr⟩ := ha.range
  rw [h] at hr
  cases hr

end Blocklist
