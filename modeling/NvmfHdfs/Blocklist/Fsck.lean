/-
  The block tokens that `readhdfs.cpp` collects from the output of `hdfs fsck`.

  The loop reads the pipe in chunks, up to a newline or 1023 characters, and goes
  on until `feof`, which is true only after a read past the end; the last read
  leaves `string1` as it was.

    - `collectLoop_eq`: the words are those of each chunk, and once more those of
      the last one;
    - `collects_iff`: they are the block tokens of the text exactly if the last
      chunk has none, as long as the ends of the chunks cut no token in a way that
      matters, and in a plain text only then.
-/
import NvmfHdfs.Lib.CText
import NvmfHdfs.Lib.Tokens
import NvmfHdfs.Path

namespace Blocklist

open CText Path Tokens

/-! ## The functions -/

/-- A stream: the characters left, and what `feof` returns. -/
structure Stream where
  rest : List Char
  eof : Bool

/-- The characters up to a newline, at most `k`, and the stream behind them. -/
def takeLine : ℕ → List Char → List Char × Stream
  | 0, l => ([], ⟨l, false⟩)
  | _ + 1, [] => ([], ⟨[], true⟩)
  | k + 1, c :: l =>
    if c = '\n' then ([c], ⟨l, false⟩) else (c :: (takeLine k l).1, (takeLine k l).2)

/-- `fgets(buf,n,fp)`, which leaves the buffer where nothing is left to read. -/
def fgets (buf : Option (List Char)) (n : ℕ) (fp : Stream) : Option (List Char) × Stream :=
  match takeLine (n - 1) fp.rest with
  | ([], fp) => (buf, fp)
  | (c :: l, fp) => (some (c :: l), fp)

/-- `word[0] == 'B' && word[1] == 'P' && word[2] == '-'`. -/
def isBlockToken (word : List Char) : Bool :=
  word[0]? = some 'B' && word[1]? = some 'P' && word[2]? = some '-'

/-- The loop over `ss >> word`: the words it keeps of the string in a buffer. -/
def wordsOf (string1 : List Char) : List (List Char) :=
  (tokens isSpace (cstr string1)).filter isBlockToken

/-- `while (!feof(fp))`, in at most `k` turns; a `string1` that was never filled is undefined. -/
def collectLoop : ℕ → Stream → Option (List Char) → List (List Char) → Option (List (List Char))
  | 0, _, _, _ => none
  | k + 1, fp, string1, words =>
    if fp.eof then some words else
      match fgets string1 1024 fp with
      | (none, _) => none
      | (some string1, fp) => collectLoop k fp (some string1) (words ++ wordsOf string1)

/-- What is in `words` after the loop over a text. -/
def collect (text : List Char) (k : ℕ) : Option (List (List Char)) :=
  collectLoop k ⟨text, false⟩ none []

/-! ## The loop -/

variable {m k : ℕ} {text : List Char}

/-- The first buffer that is filled is what one `fgets` takes. -/
theorem fill_takeLine (c : Char) (l : List Char) : (takeLine (k + 1) (c :: l)).1 ≠ [] ∧
    fill m (k + 1) (c :: l) =
      (takeLine (k + 1) (c :: l)).1 :: fill m m (takeLine (k + 1) (c :: l)).2.rest := by
  induction l generalizing c k with
  | nil =>
    rw [takeLine, fill]
    cases k with
    | zero => split_ifs <;> simp_all [takeLine]
    | succ k => split_ifs <;> simp_all [takeLine, fill]
  | cons d l ih =>
    rw [takeLine, fill]
    cases k with
    | zero => split_ifs <;> simp_all [takeLine]
    | succ k =>
      obtain ⟨-, hfill⟩ := ih (k := k) d
      split_ifs with h1 h2
      · exact ⟨List.cons_ne_nil _ _, rfl⟩
      · exact absurd (.inl h1) h2
      · simp_all
      · rw [hfill]
        exact ⟨List.cons_ne_nil _ _, rfl⟩

/-- The end of a text with a newline at its end is not met while reading it. -/
theorem takeLine_newline (h : text.getLast? = some '\n') : (takeLine k text).2.eof = false ∧
    ((takeLine k text).2.rest = [] ∨ (takeLine k text).2.rest.getLast? = some '\n') := by
  induction text generalizing k with
  | nil => cases h
  | cons c l ih =>
    cases k with
    | zero => exact ⟨rfl, .inr h⟩
    | succ k =>
      rw [takeLine]
      cases l with
      | nil =>
        rw [List.getLast?_singleton, Option.some.injEq] at h
        rw [if_pos h]
        exact ⟨rfl, .inl rfl⟩
      | cons d l =>
        rw [List.getLast?_cons_cons] at h
        split_ifs
        · exact ⟨rfl, .inr h⟩
        · exact ih h

/-- One `fgets` takes the first chunk of a text with a newline at its end, and does not meet the
    end of the stream. -/
theorem fgets_chunk (string1 : Option (List Char)) (hne : text ≠ [])
    (h : text.getLast? = some '\n') : ∃ chunk rest,
      fgets string1 1024 ⟨text, false⟩ = (some chunk, ⟨rest, false⟩) ∧
      fgetsAll 1024 text = chunk :: fgetsAll 1024 rest ∧
      (rest = [] ∨ rest.getLast? = some '\n') := by
  obtain ⟨c, l, rfl⟩ := List.exists_cons_of_ne_nil hne
  obtain ⟨hbuf, hfill⟩ : (takeLine 1023 (c :: l)).1 ≠ [] ∧ fill 1023 1023 (c :: l) =
      (takeLine 1023 (c :: l)).1 :: fill 1023 1023 (takeLine 1023 (c :: l)).2.rest :=
    fill_takeLine c l
  obtain ⟨heof, hrest⟩ : (takeLine 1023 (c :: l)).2.eof = false ∧ _ := takeLine_newline h
  rcases hline : takeLine 1023 (c :: l) with ⟨buf, rest, eof⟩
  rw [hline] at hbuf hfill heof hrest
  obtain ⟨d, buf, rfl⟩ := List.exists_cons_of_ne_nil hbuf
  dsimp only at heof
  subst heof
  refine ⟨d :: buf, rest, ?_, hfill, hrest⟩
  unfold fgets
  rw [hline]

/-- The words of each chunk, and once more those of what is in `string1` at the end. -/
theorem collectLoop_eq {string1 : Option (List Char)} {words : List (List Char)}
    (h : text = [] ∨ text.getLast? = some '\n') (hk : (fgetsAll 1024 text).length + 2 ≤ k) :
    collectLoop k ⟨text, false⟩ string1 words = ((fgetsAll 1024 text).getLast?.or string1).map
      fun s => words ++ (fgetsAll 1024 text).flatMap wordsOf ++ wordsOf s := by
  induction k generalizing text string1 words with
  | zero => omega
  | succ k ih =>
    rw [collectLoop, if_neg Bool.false_ne_true]
    by_cases hne : text = []
    · -- the read past the end
      subst hne
      obtain ⟨k, rfl⟩ : ∃ j, k = j + 1 := ⟨k - 1, by omega⟩
      cases string1 with
      | none => simp [fgets, takeLine, fgetsAll, fill]
      | some s => simp [fgets, takeLine, fgetsAll, fill, collectLoop]
    · obtain ⟨chunk, rest, hfgets, hall, hrest⟩ := fgets_chunk string1 hne (h.resolve_left hne)
      rw [hall, List.length_cons] at hk
      rw [hfgets]
      dsimp only
      rw [ih hrest (by omega), hall, List.flatMap_cons, List.getLast?_cons]
      cases (fgetsAll 1024 rest).getLast? <;> simp

/-! ## The words and the block tokens -/

/-- What `hdfs fsck` prints: a text with a newline at its end and no zero character. -/
structure FsckOutput where
  text : List Char
  newline : text.getLast? = some '\n'
  zero : nul ∉ text

/-- The block tokens of a text. -/
def blockTokens (text : List Char) : List (List Char) :=
  (tokens isSpace text).filter isBlockToken

/-- The loop ends, with the block tokens of the text in `words`. -/
def Collects (o : FsckOutput) : Prop := ∃ words,
  (∀ k, (fgetsAll 1024 o.text).length + 2 ≤ k → collect o.text k = some words) ∧
    words = blockTokens o.text

/-- A token that the ends of the chunks cut is no block token, and looks like none from there. -/
def CutsHarmless (text : List Char) : Prop :=
  Tokens.Harmless isBlockToken (pieces isSpace (fgetsAll 1024 text))

/-- The block tokens are distinct, and no token has `BP-` behind its start. -/
def PlainText (text : List Char) : Prop := Tokens.Plain isBlockToken (tokens isSpace text)

/-- The block tokens of the last chunk. -/
def lastWords (text : List Char) : List (List Char) :=
  ((fgetsAll 1024 text).getLast?.map wordsOf).getD []

/-- A token goes on as a block token. -/
theorem isBlockToken_append (u v : List Char) (h : isBlockToken u = true) :
    isBlockToken (u ++ v) = true := by
  obtain - | ⟨a, - | ⟨b, - | ⟨c, u⟩⟩⟩ := u <;> simp_all [isBlockToken]

namespace FsckOutput
variable (o : FsckOutput)

/-- There is no zero character in a chunk. -/
theorem wordsOf_chunk {chunk : List Char} (h : chunk ∈ fgetsAll 1024 o.text) :
    wordsOf chunk = (tokens isSpace chunk).filter isBlockToken := by
  have hsub : nul ∉ chunk := by
    intro hc
    refine o.zero ?_
    rw [← flatten_fgetsAll o.text (show 1 < 1024 by decide)]
    exact List.mem_flatten.2 ⟨chunk, h, hc⟩
  rw [wordsOf, cstr_of_notMem hsub]

/-- The words of the chunks are the block tokens among the tokens of the chunks. -/
theorem words_chunks : (fgetsAll 1024 o.text).flatMap wordsOf =
    ((fgetsAll 1024 o.text).flatMap (tokens isSpace)).filter isBlockToken := by
  rw [List.filter_flatMap]
  exact List.flatMap_congr fun chunk h => o.wordsOf_chunk h

/-- The loop ends with the words of the chunks, and those of the last one again. -/
theorem collect_eq {k : ℕ} (hk : (fgetsAll 1024 o.text).length + 2 ≤ k) : collect o.text k =
    some ((fgetsAll 1024 o.text).flatMap wordsOf ++ lastWords o.text) := by
  have hne : fgetsAll 1024 o.text ≠ [] := by
    intro h
    have hflat := flatten_fgetsAll o.text (show 1 < 1024 by decide)
    have hlast := o.newline
    rw [← hflat, h] at hlast
    cases hlast
  rw [collect, collectLoop_eq (.inr o.newline) hk, lastWords,
    List.getLast?_eq_getLast_of_ne_nil hne]
  simp

theorem collects_eq : Collects o ↔
    (fgetsAll 1024 o.text).flatMap wordsOf ++ lastWords o.text = blockTokens o.text := by
  constructor
  · rintro ⟨words, hrun, rfl⟩
    exact Option.some.inj ((o.collect_eq le_rfl).symm.trans (hrun _ le_rfl))
  · exact fun h => ⟨_, fun k hk => o.collect_eq hk, h⟩

theorem lastWords_mem {word : List Char} (h : word ∈ lastWords o.text) :
    word ∈ (fgetsAll 1024 o.text).flatMap wordsOf := by
  rw [lastWords] at h
  cases hlast : (fgetsAll 1024 o.text).getLast? with
  | none => rw [hlast] at h; cases h
  | some chunk =>
    rw [hlast] at h
    exact List.mem_flatMap.2 ⟨chunk, List.mem_of_getLast? hlast, h⟩

end FsckOutput

/-- **The loop collects the block tokens** of a text whose chunks cut no token in a way that
    matters exactly if the last chunk has none.  Of a plain text it collects them only then. -/
theorem collects_iff (o : FsckOutput) :
    (CutsHarmless o.text → (Collects o ↔ lastWords o.text = [])) ∧
      (PlainText o.text → (Collects o ↔ CutsHarmless o.text ∧ lastWords o.text = [])) := by
  have hflat := flatten_fgetsAll o.text (show 1 < 1024 by decide)
  rw [o.collects_eq, o.words_chunks, blockTokens]
  refine ⟨fun hcut => ?_, fun hplain => ?_⟩
  · have hsame := filter_of_harmless hcut fun g hg => (pieces_ne_nil hg).1
    rw [flatten_pieces, map_flatten_pieces, hflat] at hsame
    rw [hsame, List.append_right_eq_self]
  · have hextra : ∀ word ∈ lastWords o.text,
        word ∈ ((fgetsAll 1024 o.text).flatMap (tokens isSpace)).filter isBlockToken := by
      intro word h
      rw [← o.words_chunks]
      exact o.lastWords_mem h
    have hiff := filter_append_iff isBlockToken_append (hflat.symm ▸ hplain) hextra
    rwa [hflat] at hiff

/-- A block and a last line without one. -/
def sampleOutput : FsckOutput where
  text := "0. BP-1:blk_1 len=9\nStatus: HEALTHY\n".toList
  newline := by decide +kernel
  zero := by decide +kernel

theorem collects_iff_sample : Collects sampleOutput :=
  ((collects_iff sampleOutput).1 (by unfold CutsHarmless Tokens.Harmless; decide +kernel)).2
    (by decide +kernel)

/-- The only line is the last one: its token is in `words` twice. -/
theorem last_line_twice : ¬ Collects ⟨"BP-1\n".toList, by decide +kernel, by decide +kernel⟩ := by
  rintro ⟨words, hrun, rfl⟩
  have htwice : collect "BP-1\n".toList 3 = some ["BP-1".toList, "BP-1".toList] := by
    decide +kernel
  have hone : blockTokens "BP-1\n".toList = ["BP-1".toList] := by decide +kernel
  have hthree := hrun 3 (by decide +kernel)
  rw [htwice, hone] at hthree
  simp at hthree

end Blocklist
