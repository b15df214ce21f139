/-
  The path parsing of `lfs_getattrr`, `lfs_readdir` and `lfs_open`:

    sscanf(path, "%*[^_]_%[^_]_", out_block_id);  atoi(out_block_id)
    sscanf(path, "%*[^.].%s", out_meta);          strcmp(out_meta, "meta")

  into buffers of 20 bytes, over paths whose characters are single bytes.
-/
import NvmfHdfs.Lib.CInt
import NvmfHdfs.Lib.CText

namespace Path

open CInt

/-- The two kinds of files of a block. -/
inductive Kind where
  | metaFile
  | dataFile
deriving DecidableEq, Repr

theorem Kind.forall {p : Kind → Prop} : (∀ k, p k) ↔ p .metaFile ∧ p .dataFile := by
  constructor
  · intro h; exact ⟨h _, h _⟩
  · rintro ⟨hm, hd⟩ k
    cases k with
    | metaFile => exact hm
    | dataFile => exact hd

instance (p : Kind → Prop) [DecidablePred p] : Decidable (∀ k, p k) :=
  decidable_of_iff _ Kind.forall.symm

/-- `"%*[^c]c"`: the input after the first `c`, unless `c` comes first or not at all. -/
def skipPast (c : Char) (path : List Char) : Option (List Char) :=
  match path.takeWhile (· ≠ c), path.dropWhile (· ≠ c) with
  | _ :: _, _ :: rest => some rest
  | _, _ => none

/-- `isspace`. -/
def isSpace (c : Char) : Bool := c = ' ' ∨ 9 ≤ c.toNat ∧ c.toNat ≤ 13

/-- `out_block_id`. -/
def scanBlockId (path : List Char) : List Char :=
  ((skipPast '_' path).getD []).takeWhile (· ≠ '_')

/-- `out_meta`. -/
def scanMeta (path : List Char) : List Char :=
  (((skipPast '.' path).getD []).dropWhile isSpace).takeWhile fun c => !isSpace c

/-- `strtol(s, NULL, 10)` on a 64-bit `long`. -/
def strtol (s : List Char) : ℤ :=
  let digits (l : List Char) : ℤ := Nat.ofDigitChars 10 (l.takeWhile Char.isDigit) 0
  match s.dropWhile isSpace with
  | '-' :: l => max (-digits l) (-2 ^ 63)
  | '+' :: l => min (digits l) (2 ^ 63 - 1)
  | l => min (digits l) (2 ^ 63 - 1)

/-- `atoi`, which is `(int)strtol` in the C library in use. -/
def atoi (s : List Char) : ℤ := toInt (strtol s)

/-- The kind and `b_block_id` of a path; a scan that overruns its buffer is undefined. -/
def parsePath (path : List Char) : Option (Kind × ℤ) :=
  if (scanMeta path).length < 20 ∧ (scanBlockId path).length < 20 then
    some (if scanMeta path = ['m', 'e', 't', 'a'] then .metaFile else .dataFile,
      atoi (scanBlockId path))
  else none

theorem parsePath_isInt {path : List Char} {k : Kind} {b : ℤ} (h : parsePath path = some (k, b)) :
    IsInt b := by
  unfold parsePath at h; split_ifs at h <;> simp only [Option.some.injEq, Prod.mk.injEq] at h <;>
    exact h.2 ▸ isInt_toInt _

theorem parsePath_root : parsePath ['/'] = some (.dataFile, 0) := by decide +kernel

/-! ## The paths of the files of a block -/

/-- `"/blk_<id>"`. -/
def dataPath (id : ℕ) : List Char := ['/', 'b', 'l', 'k', '_'] ++ Nat.toDigits 10 id

/-- `"/blk_<id>_<gs>.meta"`. -/
def metaPath (id gs : ℕ) : List Char :=
  dataPath id ++ '_' :: (Nat.toDigits 10 gs ++ ['.', 'm', 'e', 't', 'a'])

theorem digit_ne {n : ℕ} {c d : Char} (hc : c ∈ Nat.toDigits 10 n) (hd : d.isDigit = false) :
    c ≠ d := by
  rintro rfl
  rw [CText.isDigit_toDigits c hc] at hd; cases hd

theorem takeWhile_digits {n : ℕ} {d : Char} (hd : d.isDigit = false) (l : List Char) :
    (Nat.toDigits 10 n ++ d :: l).takeWhile (· ≠ d) = Nat.toDigits 10 n := by
  rw [List.takeWhile_append_of_pos fun c hc => by simpa using digit_ne hc hd]
  simp

/-- `atoi` of a printed number with no digit behind it, up to the conversion to `int`. -/
theorem atoi_digits_append {n : ℕ} {rest : List Char} (h : n < 2 ^ 63)
    (hrest : rest.takeWhile Char.isDigit = []) : atoi (Nat.toDigits 10 n ++ rest) = toInt n := by
  obtain ⟨c, l, hl⟩ := List.exists_cons_of_ne_nil (Nat.toDigits_ne_nil (n := n) (b := 10))
  have hc : c.isDigit = true := CText.isDigit_toDigits c (by rw [hl]; exact List.mem_cons_self)
  have hsp : isSpace c = false := by
    unfold isSpace
    simp only [Char.isDigit, Bool.and_eq_true, decide_eq_true_eq, UInt32.le_iff_toNat_le] at hc
    have h1 : 48 ≤ c.toNat := hc.1
    simp only [decide_eq_false_iff_not, not_or, not_and]
    exact ⟨by rintro rfl; revert h1; decide, fun _ => by omega⟩
  have htw : (Nat.toDigits 10 n ++ rest).takeWhile Char.isDigit = Nat.toDigits 10 n := by
    rw [List.takeWhile_append_of_pos CText.isDigit_toDigits, hrest, List.append_nil]
  have hneg : c ≠ '-' := by rintro rfl; revert hc; decide
  have hpos : c ≠ '+' := by rintro rfl; revert hc; decide
  unfold atoi strtol
  rw [hl, List.cons_append, List.dropWhile_cons_of_neg (by simp [hsp]), ← List.cons_append, ← hl]
  split
  · rename_i l' h'; rw [hl] at h'; exact absurd (List.cons.inj h').1 hneg
  · rename_i l' h'; rw [hl] at h'; exact absurd (List.cons.inj h').1 hpos
  · simp only [htw, Nat.ofDigitChars_ten_toDigits]
    rw [min_eq_left (by omega)]

theorem atoi_toDigits {n : ℕ} (h : n < 2 ^ 63) : atoi (Nat.toDigits 10 n) = toInt n := by
  have happ : atoi (Nat.toDigits 10 n ++ []) = toInt n := atoi_digits_append h rfl
  rwa [List.append_nil] at happ

/-- `atoi` of a printed negative number. -/
theorem atoi_neg_toDigits {n : ℕ} (h : n ≤ 2 ^ 63) :
    atoi ('-' :: Nat.toDigits 10 n) = toInt (-n) := by
  have htw : (Nat.toDigits 10 n).takeWhile Char.isDigit = Nat.toDigits 10 n :=
    List.takeWhile_eq_self_iff.2 CText.isDigit_toDigits
  have hstrtol : strtol ('-' :: Nat.toDigits 10 n) = -n := by
    unfold strtol
    rw [List.dropWhile_cons_of_neg (by decide)]
    simp only [htw, Nat.ofDigitChars_ten_toDigits]
    rw [max_eq_left (by omega)]
  rw [atoi, hstrtol]

theorem length_toDigits_lt {n : ℕ} (h : n < 2 ^ 63) : (Nat.toDigits 10 n).length < 20 :=
  Nat.lt_succ_of_le ((Nat.length_toDigits_le_iff (by decide) (by decide)).2 (by omega))

theorem skipPast_dataPath (id : ℕ) (l : List Char) :
    skipPast '_' (dataPath id ++ l) = some (Nat.toDigits 10 id ++ l) := by
  simp [skipPast, dataPath]

/-- A path with one underscore and no dot is one of a data file, with the number behind the
    underscore. -/
theorem parsePath_blk {l : List Char} (hlen : l.length < 20) (hunder : '_' ∉ l) (hdot : '.' ∉ l) :
    parsePath (['/', 'b', 'l', 'k', '_'] ++ l) = some (.dataFile, atoi l) := by
  have hid : scanBlockId (['/', 'b', 'l', 'k', '_'] ++ l) = l := by
    have hskip : skipPast '_' (['/', 'b', 'l', 'k', '_'] ++ l) = some l := by simp [skipPast]
    rw [scanBlockId, hskip, Option.getD_some, List.takeWhile_eq_self_iff]
    intro c hc
    simpa using fun h : c = '_' => hunder (h ▸ hc)
  have hmeta : scanMeta (['/', 'b', 'l', 'k', '_'] ++ l) = [] := by
    have hdrop : (['/', 'b', 'l', 'k', '_'] ++ l).dropWhile (· ≠ '.') = [] := by
      rw [List.dropWhile_eq_nil_iff]
      intro c hc
      have hpre : '.' ∉ ['/', 'b', 'l', 'k', '_'] := by decide
      rcases List.mem_append.1 hc with hc | hc
      · simpa using fun h : c = '.' => hpre (h ▸ hc)
      · simpa using fun h : c = '.' => hdot (h ▸ hc)
    have hskip : skipPast '.' (['/', 'b', 'l', 'k', '_'] ++ l) = none := by
      unfold skipPast; rw [hdrop]; split <;> simp_all
    rw [scanMeta, hskip]; rfl
  rw [parsePath, hid, hmeta, if_pos ⟨by decide, hlen⟩]; rfl

/-- A data path is parsed to its kind and id. -/
theorem parsePath_dataPath {id : ℕ} (h : id < 2 ^ 63) :
    parsePath (dataPath id) = some (.dataFile, toInt id) := by
  rw [dataPath, parsePath_blk (length_toDigits_lt h) (fun hc => digit_ne hc (by decide) rfl)
    (fun hc => digit_ne hc (by decide) rfl), atoi_toDigits h]

/-- A meta path is parsed to its kind and id, whatever the generation stamp. -/
theorem parsePath_metaPath {id gs : ℕ} (h : id < 2 ^ 63) :
    parsePath (metaPath id gs) = some (.metaFile, toInt id) := by
  have h1 : scanBlockId (metaPath id gs) = Nat.toDigits 10 id := by
    rw [scanBlockId, metaPath, skipPast_dataPath, Option.getD_some, takeWhile_digits (by decide)]
  have h2 : scanMeta (metaPath id gs) = ['m', 'e', 't', 'a'] := by
    have hpre : ∀ c ∈ dataPath id ++ '_' :: Nat.toDigits 10 gs, c ≠ '.' := by
      intro c hc
      simp only [dataPath, List.mem_append, List.mem_cons] at hc
      rcases hc with ((rfl | rfl | rfl | rfl | rfl | hc) | hc) | rfl | hc
      all_goals first | decide | exact digit_ne hc (by decide) | cases hc
    have hsplit : metaPath id gs =
        (dataPath id ++ '_' :: Nat.toDigits 10 gs) ++ '.' :: ['m', 'e', 't', 'a'] := by
      simp [metaPath]
    have : skipPast '.' (metaPath id gs) = some ['m', 'e', 't', 'a'] := by
      rw [skipPast, hsplit, List.takeWhile_append_of_pos fun c hc => by simpa using hpre c hc,
        List.dropWhile_append_of_pos fun c hc => by simpa using hpre c hc]
      simp [dataPath]
    rw [scanMeta, this]; decide
  have h3 := length_toDigits_lt h
  rw [parsePath, h1, h2, if_pos ⟨by decide, h3⟩, atoi_toDigits h]; rfl

/-! ## Names and blocks -/

/-- A path of a block: its data file, or its meta file with any generation stamp. -/
inductive NameOf (id : ℕ) : List Char → Prop
  | data : NameOf id (dataPath id)
  | «meta» (gs : ℕ) : NameOf id (metaPath id gs)

/-- The ids stored for a path: on `uint64_t` in the tables of `rewrite.c`, on `uint32_t` in the
    table of `ltils.c` and the records. -/
def storedIds (path : List Char) : Option (ℕ × ℕ) :=
  (parsePath path).map fun p => (toU64 p.2, toU32 p.2)

/-- The paths of the blocks `x` and `y` tell the blocks apart.
    * No scan overruns its buffer, and the kind is right.
    * All paths of a block have the same id stored.
    * The id stored for a path of `x` is one stored for a path of `y` only if `x = y`. -/
structure NamesTell (x y : ℕ) : Prop where
  data : ∀ z ∈ [x, y], (parsePath (dataPath z)).map Prod.fst = some .dataFile
  «meta» : ∀ z ∈ [x, y], ∀ gs, (parsePath (metaPath z gs)).map Prod.fst = some .metaFile
  same : ∀ z ∈ [x, y], ∀ p p', NameOf z p → NameOf z p' → storedIds p = storedIds p'
  only : ∀ p p', NameOf x p → NameOf y p' →
    (storedIds p).map Prod.fst = (storedIds p').map Prod.fst ∨
      (storedIds p).map Prod.snd = (storedIds p').map Prod.snd → x = y

/-- The ids stored for the paths of a block. -/
theorem storedIds_name {id : ℕ} {p : List Char} (h : id < 2 ^ 63) (hp : NameOf id p) :
    storedIds p = some (toU64 (toInt id), toU32 (toInt id)) := by
  cases hp with
  | data => rw [storedIds, parsePath_dataPath h]; rfl
  | «meta» gs => rw [storedIds, parsePath_metaPath h]; rfl

/-- **Names tell blocks apart in 32 bits.** -/
theorem names_tell_iff {x y : ℕ} (hx : x < 2 ^ 63) (hy : y < 2 ^ 63) :
    NamesTell x y ↔ (x % 2 ^ 32 = y % 2 ^ 32 → x = y) := by
  have hlt : ∀ z ∈ [x, y], z < 2 ^ 63 := by
    rintro z hz
    rcases List.mem_cons.1 hz with rfl | hz
    · exact hx
    · exact List.mem_singleton.1 hz ▸ hy
  constructor
  · intro h hmod
    refine h.only _ _ .data .data (.inl ?_)
    rw [storedIds_name hx .data, storedIds_name hy .data, toInt_eq_iff.2 hmod]
  · intro h
    refine ⟨fun z hz => ?_, fun z hz gs => ?_, fun z hz p p' hp hp' => ?_, fun p p' hp hp' he => ?_⟩
    · rw [parsePath_dataPath (hlt z hz)]; rfl
    · rw [parsePath_metaPath (hlt z hz)]; rfl
    · rw [storedIds_name (hlt z hz) hp, storedIds_name (hlt z hz) hp']
    · rw [storedIds_name hx hp, storedIds_name hy hp'] at he
      have hid : toInt x = toInt y := by
        rcases he with he | he
        · exact (toU64_inj (isInt_toInt x) (isInt_toInt y)).1 (Option.some.inj he)
        · exact (toU32_inj (isInt_toInt x) (isInt_toInt y)).1 (Option.some.inj he)
      exact h (toInt_eq_iff.1 hid)

theorem names_tell_iff_two : NamesTell 1 2 ↔ (1 % 2 ^ 32 = 2 % 2 ^ 32 → 1 = 2) :=
  names_tell_iff (by decide) (by decide)

/-- The blocks 1 and 2 ^ 32 + 1 are one file. -/
theorem names_collide : ¬ NamesTell 1 (2 ^ 32 + 1) := by
  intro h
  refine absurd (h.only _ _ .data .data (.inl ?_)) (by decide)
  decide +kernel

end Path
