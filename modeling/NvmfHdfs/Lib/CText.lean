/-
  Text as C programs read and write it.

  A buffer is the list of its characters; the string in it ends at the first
  zero.  A file is the text in it, and `fgetsAll` is the sequence of buffers
  that `fgets` fills until it returns `NULL`.

    - `fgetsAll_unlines`: lines written one by one are read back one by one,
      if each fits the buffer.
-/
import Mathlib.Data.List.TakeWhile
import Mathlib.Data.Nat.Digits.Lemmas
import Mathlib.Tactic

namespace CText

/-! ## Strings -/

/-- `'\0'`. -/
def nul : Char := Char.ofNat 0

/-- The string in a buffer. -/
def cstr (buf : List Char) : List Char := buf.takeWhile (· ≠ nul)

/-- `buf[strlen(buf)-1]='\0'`, undefined for an empty string. -/
def chop : List Char → Option (List Char)
  | [] => none
  | c :: l => some (c :: l).dropLast

/-- `"%d"`. -/
def printInt (z : ℤ) : List Char :=
  if z < 0 then '-' :: Nat.toDigits 10 z.natAbs else Nat.toDigits 10 z.natAbs

theorem cstr_of_notMem {l : List Char} (h : nul ∉ l) : cstr l = l :=
  List.takeWhile_eq_self_iff.2 fun c hc => by
    simp only [ne_eq, decide_eq_true_eq]
    rintro rfl
    exact h hc

/-- A zero character ends the string, whatever is behind it. -/
theorem cstr_append_nul (l m : List Char) : cstr (l ++ nul :: m) = cstr l := by
  induction l with
  | nil => simp [cstr]
  | cons c l ih =>
    unfold cstr at ih ⊢
    rw [List.cons_append, List.takeWhile_cons, List.takeWhile_cons, ih]

/-- The string from a place inside it on. -/
theorem cstr_drop {l m : List Char} {k : ℕ} (h : k ≤ (cstr l).length) :
    cstr ((l ++ nul :: m).drop k) = (cstr l).drop k := by
  induction k generalizing l with
  | zero => rw [List.drop_zero, List.drop_zero, cstr_append_nul]
  | succ k ih =>
    cases l with
    | nil => cases h
    | cons c l =>
      by_cases hc : c = nul
      · rw [cstr, List.takeWhile_cons, if_neg (by simpa using hc)] at h
        cases h
      · have hcons : cstr (c :: l) = c :: cstr l := by
          rw [cstr, List.takeWhile_cons, if_pos (by simpa using hc)]; rfl
        rw [hcons] at h ⊢
        exact ih (Nat.le_of_succ_le_succ h)

theorem length_cstr_le (l : List Char) : (cstr l).length ≤ l.length :=
  (List.takeWhile_prefix _).length_le

theorem length_chop_le {l l' : List Char} (h : chop l = some l') : l'.length ≤ l.length := by
  cases l with
  | nil => cases h
  | cons c l =>
    rw [← Option.some.inj h, List.length_dropLast]
    exact Nat.sub_le _ _

@[simp] theorem chop_append (l : List Char) (c : Char) : chop (l ++ [c]) = some l := by
  cases l with
  | nil => rfl
  | cons d l =>
    rw [List.cons_append, chop, ← List.cons_append, List.dropLast_concat]

theorem isDigit_toDigits {n : ℕ} : ∀ c ∈ Nat.toDigits 10 n, c.isDigit = true :=
  fun _ hc => Nat.isDigit_of_mem_toDigits (by decide) (by decide) hc

theorem printInt_natCast (n : ℕ) : printInt n = Nat.toDigits 10 n := by
  rw [printInt, if_neg (by omega), Int.natAbs_natCast]

/-! ## Lines -/

/-- The buffers filled from a text, where the one being filled takes `k` more characters
    and the next ones take `m`. -/
def fill (m : ℕ) : ℕ → List Char → List (List Char)
  | _, [] => []
  | 0, _ :: _ => []
  | k + 1, c :: cs =>
    if c = '\n' ∨ k = 0 then [c] :: fill m m cs
    else
      match fill m k cs with
      | [] => [[c]]
      | l :: ls => (c :: l) :: ls

/-- The buffers that `fgets(buf,n,f)` fills until it returns `NULL`: up to a newline, which
    is kept, and at most `n-1` characters. -/
def fgetsAll (n : ℕ) (text : List Char) : List (List Char) := fill (n - 1) (n - 1) text

/-- A buffer as `fgets` fills it: of at most `k` characters, and nothing after a newline. -/
structure Filled (k : ℕ) (buf : List Char) : Prop where
  newline : '\n' ∉ buf.dropLast
  short : buf.length ≤ k

/-- Lines, each with a newline at its end. -/
def unlines (ls : List (List Char)) : List Char := ls.flatMap (· ++ ['\n'])

/-- A string that is one line for a buffer of `n` characters. -/
structure IsLine (n : ℕ) (l : List Char) : Prop where
  newline : '\n' ∉ l
  nul : nul ∉ l
  short : l.length + 1 < n

instance (n : ℕ) (l : List Char) : Decidable (IsLine n l) :=
  decidable_of_iff ('\n' ∉ l ∧ nul ∉ l ∧ l.length + 1 < n)
    ⟨fun ⟨h1, h2, h3⟩ => ⟨h1, h2, h3⟩, fun ⟨h1, h2, h3⟩ => ⟨h1, h2, h3⟩⟩

variable {n : ℕ} {l : List Char} {ls ls' : List (List Char)}

@[simp] theorem unlines_nil : unlines [] = [] := rfl

@[simp] theorem unlines_cons : unlines (l :: ls) = l ++ '\n' :: unlines ls := by
  simp [unlines]

@[simp] theorem unlines_append : unlines (ls ++ ls') = unlines ls ++ unlines ls' :=
  List.flatMap_append

theorem filled_cons {k : ℕ} {c : Char} {buf : List Char} (hc : c ≠ '\n') (h : Filled k buf) :
    Filled (k + 1) (c :: buf) := by
  refine ⟨fun hm => ?_, Nat.succ_le_succ h.short⟩
  cases buf with
  | nil => cases hm
  | cons d buf =>
    rw [List.dropLast_cons_cons] at hm
    rcases List.mem_cons.1 hm with heq | hm
    · exact hc heq.symm
    · exact h.newline hm

/-- The first buffer takes `k` characters at most, the others `m`. -/
theorem filled_fill (m k : ℕ) (text : List Char) :
    (∀ buf ∈ (fill m k text).head?, Filled k buf) ∧ ∀ buf ∈ (fill m k text).tail, Filled m buf := by
  have hone : ∀ k (c : Char), Filled (k + 1) [c] := fun k c =>
    ⟨List.not_mem_nil, Nat.succ_le_succ (Nat.zero_le k)⟩
  fun_induction fill m k text with
  | case1 => exact ⟨by simp, by simp⟩
  | case2 => exact ⟨by simp, by simp⟩
  | case3 k c cs hc ih =>
    refine ⟨by simpa using hone k c, fun buf hbuf => ?_⟩
    rw [List.tail_cons] at hbuf
    cases hfill : fill m m cs with
    | nil => rw [hfill] at hbuf; cases hbuf
    | cons l ls =>
      rw [hfill] at hbuf ih
      rcases List.mem_cons.1 hbuf with rfl | hbuf
      · exact ih.1 buf rfl
      · exact ih.2 buf hbuf
  | case4 k c cs hc hfill ih => exact ⟨by simpa using hone k c, by simp⟩
  | case5 k c cs hc l ls hfill ih =>
    rw [hfill] at ih
    refine ⟨fun buf hbuf => ?_, ih.2⟩
    obtain rfl := Option.some.inj hbuf
    exact filled_cons (fun heq => hc (.inl heq)) (ih.1 l rfl)

/-- **Every buffer is filled** up to a newline, or its size. -/
theorem filled_fgetsAll {text buf : List Char} (h : buf ∈ fgetsAll n text) :
    Filled (n - 1) buf := by
  obtain ⟨hhead, htail⟩ := filled_fill (n - 1) (n - 1) text
  rw [fgetsAll] at h
  cases hfill : fill (n - 1) (n - 1) text with
  | nil => rw [hfill] at h; cases h
  | cons l ls =>
    rw [hfill] at h hhead htail
    rcases List.mem_cons.1 h with rfl | h
    · exact hhead buf rfl
    · exact htail buf h

/-- What is left of a buffer without its last character is a line. -/
theorem Filled.isLine {k : ℕ} {buf : List Char} (h : Filled k buf) (hc : chop (cstr buf) = some l) :
    IsLine (k + 1) l := by
  have hpre : cstr buf <+: buf := List.takeWhile_prefix _
  cases hstr : cstr buf with
  | nil => rw [hstr] at hc; cases hc
  | cons c cs =>
    rw [hstr] at hc hpre
    obtain rfl := Option.some.inj hc
    have hdrop : (c :: cs).dropLast <+: buf.dropLast := by
      refine List.prefix_of_prefix_length_le ((List.dropLast_prefix _).trans hpre)
        (List.dropLast_prefix _) ?_
      rw [List.length_dropLast, List.length_dropLast]
      exact Nat.sub_le_sub_right hpre.length_le 1
    refine ⟨fun hm => h.newline (hdrop.subset hm), fun hm => ?_, ?_⟩
    · have hmem : nul ∈ cstr buf := hstr ▸ List.dropLast_subset _ hm
      simpa using List.mem_takeWhile_imp hmem
    · have := hpre.length_le
      have := h.short
      rw [List.length_dropLast, List.length_cons] at *
      omega

/-- The buffers together are the text. -/
theorem flatten_fill {m k : ℕ} (text : List Char) (hm : m ≠ 0) (hk : k ≠ 0) :
    (fill m k text).flatten = text := by
  fun_induction fill m k text with
  | case1 => rfl
  | case2 => exact absurd rfl hk
  | case3 k c cs hc ih => simp [ih hm]
  | case4 k c cs hc hfill ih =>
    have hcs := ih (fun h => hc (.inr h))
    rw [hfill] at hcs
    simp [← hcs]
  | case5 k c cs hc l ls hfill ih =>
    have hcs := ih (fun h => hc (.inr h))
    rw [hfill] at hcs
    simpa using hcs

theorem flatten_fgetsAll (text : List Char) (hn : 1 < n) : (fgetsAll n text).flatten = text :=
  flatten_fill text (by omega) (by omega)

/-- A line that fits is filled at once. -/
theorem fill_line {m : ℕ} {text : List Char} : ∀ {l : List Char} {k : ℕ}, '\n' ∉ l →
    l.length < k → fill m k (l ++ '\n' :: text) = (l ++ ['\n']) :: fill m m text
  | [], k + 1, _, _ => by simp [fill]
  | c :: l, k + 1, hnl, hlen => by
    have hc : c ≠ '\n' := fun h => hnl (h ▸ List.mem_cons_self)
    have hk : k ≠ 0 := by
      rintro rfl
      simp only [List.length_cons] at hlen
      omega
    have hnl' : '\n' ∉ l := fun h => hnl (List.mem_cons_of_mem c h)
    rw [List.cons_append, fill, if_neg (by simp [hc, hk]),
      fill_line hnl' (Nat.lt_of_succ_lt_succ hlen)]
    rfl

theorem fgetsAll_line {text : List Char} (h : IsLine n l) :
    fgetsAll n (l ++ '\n' :: text) = (l ++ ['\n']) :: fgetsAll n text :=
  fill_line h.newline (by have := h.short; omega)

/-- **Lines are read back.** -/
theorem fgetsAll_unlines (h : ∀ l ∈ ls, IsLine n l) :
    fgetsAll n (unlines ls) = ls.map (· ++ ['\n']) := by
  induction ls with
  | nil => rw [unlines_nil, fgetsAll]; unfold fill; rfl
  | cons l ls ih =>
    rw [unlines_cons, fgetsAll_line (h l List.mem_cons_self),
      ih fun l' hl' => h l' (List.mem_cons_of_mem l hl'), List.map_cons]

/-- The string of a line as it is read. -/
theorem IsLine.cstr (h : IsLine n l) : cstr (l ++ ['\n']) = l ++ ['\n'] :=
  cstr_of_notMem fun hm => by
    rcases List.mem_append.1 hm with hm | hm
    · exact h.nul hm
    · exact absurd hm (by decide)

end CText
