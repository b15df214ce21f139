/-
  `bitmap.c`: the slot bitmap.

  A bitmap is the block of bytes the C code allocates for it; an access beyond
  the block is undefined (`none`).  Each function is modelled as written, and
  one lemma says what it does in terms of the bits (`bit`).
-/
import Mathlib.Data.Nat.Bitwise
import NvmfHdfs.Lib.Descriptor
import NvmfHdfs.Layout

namespace Bitmap

open CInt Layout

/-! ## The functions -/

/-- `0x01<<r` as an `unsigned char`. -/
def mask (r : ℕ) : UInt8 := UInt8.ofNat (1 <<< r)

/-- `bitmap_get`. -/
def bitmapGet (index : ℕ) (p : List UInt8) (size : ℕ) : Option ℕ :=
  if size ≤ index then some 0 else do
    let b ← p[index / 8]?
    some (if 0 < b &&& mask (index % 8) then 1 else 0)

/-- `bitmap_set`: the byte it returns and the bitmap after it. -/
def bitmapSet (index : ℕ) (p : List UInt8) (size : ℕ) : Option (UInt8 × List UInt8) :=
  if size ≤ index then some (0, p) else do
    let b ← p[index / 8]?
    let b' := b ||| mask (index % 8)
    some (b', p.set (index / 8) b')

/-- The loop of `bitmap_usedblockid`: the used indices among the next `k` from `i`. -/
def scanUsed (p : List UInt8) (size : ℕ) : ℕ → ℕ → Option (List ℕ)
  | 0, _ => some []
  | k + 1, i => do
    let g ← bitmapGet i p size
    let l ← scanUsed p size k (i + 1)
    some (if 0 < g then i :: l else l)

/-- `bitmap_usedblockid`: the list it allocates (filled up with `-1`) and `*list_len`. -/
def bitmapUsedblockid (p : List UInt8) (size start stop : ℕ) : Option (List ℤ × ℕ) :=
  -- `int len=(end-start)*sizeof(int)`
  if (stop - start) * 4 < 2 ^ 31 then do
    let l ← scanUsed p size (stop - start) start
    some (l.map Nat.cast ++ List.replicate (stop - start - l.length) (-1), l.length)
  else none

/-- The loop of `bitmap_availableblockid` over the next `k` indices from `i`, with `index`
    entries stored so far: the entries it goes on to store. -/
def scanFree (p : List UInt8) (size n : ℕ) : ℕ → ℕ → ℕ → Option (List ℕ)
  | 0, _, _ => some []
  | k + 1, i, index => do
    let g ← bitmapGet i p size
    if g = 0 then
      if index + 1 = n then some [i] else do
        let l ← scanFree p size n k (i + 1) (index + 1)
        some (i :: l)
    else if index = n then some [] else scanFree p size n k (i + 1) index

/-- `bitmap_availableblockid`: the entries stored in `availablelist` (it returns their number). -/
def bitmapAvailableblockid (n size : ℕ) (p : List UInt8) : Option (List ℕ) :=
  scanFree p size n size 0 0

/-- `read_bitmap`. -/
def readBitmap (fd : Descriptor) (dev_size block_size : ℤ) : Option (List UInt8 × Descriptor) := do
  let len ← readBitmapSize dev_size block_size
  let fd ← fd.lseek bitmapOffset
  fd.read len

/-- `write_bitmap` (`dev_size` and `block_size` are not used there). -/
def writeBitmap (fd : Descriptor) (len : ℕ) (buf : List UInt8) : Option Descriptor := do
  let fd ← fd.lseek bitmapOffset
  if len ≤ buf.length then fd.write (buf.take len) else none

/-! ## Bits -/

/-- Bit `i` of a byte string. -/
def bit (p : List UInt8) (i : ℕ) : Bool := (p[i / 8]?.getD 0).toNat.testBit (i % 8)

theorem toNat_mask {r : ℕ} (h : r < 8) : (mask r).toNat = 2 ^ r := by
  interval_cases r <;> rfl

/-- Testing a bit of a byte under its mask. -/
theorem and_mask_pos {b : UInt8} {r : ℕ} (h : r < 8) :
    0 < b &&& mask r ↔ b.toNat.testBit r = true := by
  rw [UInt8.lt_iff_toNat_lt, UInt8.toNat_and, toNat_mask h, Nat.and_two_pow]
  cases b.toNat.testBit r <;> simp

/-- Setting a bit of a byte under its mask. -/
theorem testBit_or_mask {b : UInt8} {r k : ℕ} (h : r < 8) :
    (b ||| mask r).toNat.testBit k = (b.toNat.testBit k || decide (r = k)) := by
  rw [UInt8.toNat_or, toNat_mask h, Nat.testBit_or, Nat.testBit_two_pow]

theorem bitmapGet_eq {index size : ℕ} {p : List UInt8} (h : index / 8 < p.length) :
    bitmapGet index p size = some (if index < size ∧ bit p index then 1 else 0) := by
  unfold bitmapGet bit
  rcases Nat.lt_or_ge index size with hi | hi
  · rw [if_neg (by omega), List.getElem?_eq_getElem h]
    simp [hi, and_mask_pos (Nat.mod_lt index (by decide : 0 < 8))]
  · rw [if_pos hi, if_neg (by omega)]

theorem bitmapGet_eq_some {index size v : ℕ} {p : List UInt8} (hi : index < size)
    (h : bitmapGet index p size = some v) : index / 8 < p.length ∧
      v = if bit p index then 1 else 0 := by
  have hlen : index / 8 < p.length := by
    by_contra hl
    rw [bitmapGet, if_neg (by omega), List.getElem?_eq_none (by omega)] at h
    cases h
  rw [bitmapGet_eq hlen] at h
  exact ⟨hlen, by simpa [hi] using h.symm⟩

/-- `bitmap_set` sets the one bit. -/
theorem bitmapSet_eq_some {index size : ℕ} {p p' : List UInt8} {b : UInt8} (hi : index < size)
    (h : bitmapSet index p size = some (b, p')) : index / 8 < p.length ∧ p'.length = p.length ∧
      ∀ j, bit p' j = (bit p j || decide (j = index)) := by
  simp only [bitmapSet, show ¬ size ≤ index by omega, if_false, Option.bind_eq_bind,
    Option.bind_eq_some_iff, Option.some.injEq, Prod.mk.injEq] at h
  obtain ⟨b₀, hb₀, -, rfl⟩ := h
  obtain ⟨hlen, rfl⟩ := List.getElem?_eq_some_iff.1 hb₀
  refine ⟨hlen, List.length_set, fun j => ?_⟩
  unfold bit
  by_cases hj : index / 8 = j / 8
  · rw [← hj, List.getElem?_set_self hlen, List.getElem?_eq_getElem hlen]
    simp only [Option.getD_some, testBit_or_mask (Nat.mod_lt index (by decide : 0 < 8))]
    congr 2; exact propext ⟨fun h => by omega, fun h => by omega⟩
  · rw [List.getElem?_set_ne hj]
    have hne : j ≠ index := by rintro rfl; exact hj rfl
    simp [hne]

theorem bitmapSet_isSome {index size : ℕ} {p : List UInt8} (h : index / 8 < p.length) :
    (bitmapSet index p size).isSome := by
  unfold bitmapSet; split_ifs
  · rfl
  · rw [List.getElem?_eq_getElem h]; rfl

/-! ## The scans -/

theorem scanUsed_eq_some {p : List UInt8} {size : ℕ} : ∀ {k i : ℕ} {l : List ℕ}, i + k ≤ size →
    scanUsed p size k i = some l → l = (List.range' i k).filter (bit p) ∧
      ∀ j, i ≤ j → j < i + k → j / 8 < p.length
  | 0, i, l, _, h => by
    simp only [scanUsed, Option.some.injEq] at h; subst h
    exact ⟨rfl, fun j h1 h2 => by omega⟩
  | k + 1, i, l, hk, h => by
    simp only [scanUsed, Option.bind_eq_bind, Option.bind_eq_some_iff] at h
    obtain ⟨g, hg, l', hl', h⟩ := h
    obtain ⟨hlen, rfl⟩ := bitmapGet_eq_some (by omega) hg
    obtain ⟨rfl, hl⟩ := scanUsed_eq_some (by omega) hl'
    refine ⟨?_, fun j h1 h2 => ?_⟩
    · rw [List.range'_succ, List.filter_cons]
      cases hb : bit p i <;> simp [hb] at h ⊢ <;> exact h.symm
    · rcases Nat.eq_or_lt_of_le h1 with rfl | h1
      · exact hlen
      · exact hl j h1 (by omega)

theorem scanUsed_isSome {p : List UInt8} (size : ℕ) : ∀ {k i : ℕ},
    (∀ j, i ≤ j → j < i + k → j / 8 < p.length) → (scanUsed p size k i).isSome
  | 0, _, _ => rfl
  | k + 1, i, h => by
    obtain ⟨l, hl⟩ := Option.isSome_iff_exists.1
      (scanUsed_isSome (p := p) size (k := k) (i := i + 1)
        fun j h1 h2 => h j (by omega) (by omega))
    simp [scanUsed, bitmapGet_eq (h i le_rfl (by omega)), hl]

/-- `bitmap_usedblockid` lists the set bits in order. -/
theorem bitmapUsedblockid_eq_some {p : List UInt8} {size n : ℕ} {l : List ℤ}
    (h : bitmapUsedblockid p size 0 size = some (l, n)) :
    l.take n = ((List.range size).filter (bit p)).map Nat.cast ∧
      ∀ j < size, j / 8 < p.length := by
  simp only [bitmapUsedblockid, Nat.sub_zero, Option.bind_eq_bind] at h
  split_ifs at h
  obtain ⟨u, hu, h⟩ := Option.bind_eq_some_iff.1 h
  simp only [Option.some.injEq, Prod.mk.injEq] at h
  obtain ⟨rfl, rfl⟩ := h
  obtain ⟨rfl, hlen⟩ := scanUsed_eq_some (by omega) hu
  refine ⟨?_, fun j hj => hlen j (Nat.zero_le j) (by omega)⟩
  rw [List.range_eq_range', List.take_append_of_le_length (by simp),
    List.take_of_length_le (by simp)]

theorem bitmapUsedblockid_isSome {p : List UInt8} {size : ℕ} (hs : size * 4 < 2 ^ 31)
    (h : ∀ j < size, j / 8 < p.length) : (bitmapUsedblockid p size 0 size).isSome := by
  obtain ⟨l, hl⟩ := Option.isSome_iff_exists.1
    (scanUsed_isSome (p := p) size (k := size) (i := 0) fun j _ h2 => h j (by omega))
  rw [bitmapUsedblockid, if_pos (by omega), Nat.sub_zero, bind_of_eq_some hl]
  rfl

/-- The clear indices among the next `k` from `i`, in order. -/
def clearFrom (p : List UInt8) (i k : ℕ) : List ℕ := (List.range' i k).filter fun j => !bit p j

/-- With entries still wanted, the scan stores the clear indices until it has them. -/
theorem scanFree_eq_some {p : List UInt8} {size n : ℕ} : ∀ {k i index : ℕ} {l : List ℕ},
    i + k ≤ size → index < n → scanFree p size n k i index = some l →
    l = (clearFrom p i k).take (n - index)
  | 0, i, index, l, _, _, h => by
    simp only [scanFree, Option.some.injEq] at h; subst h
    simp [clearFrom]
  | k + 1, i, index, l, hk, hn, h => by
    simp only [scanFree, Option.bind_eq_bind, Option.bind_eq_some_iff] at h
    obtain ⟨g, hg, h⟩ := h
    obtain ⟨-, rfl⟩ := bitmapGet_eq_some (by omega) hg
    have htake : n - index = n - (index + 1) + 1 := by omega
    rw [clearFrom, List.range'_succ, List.filter_cons]
    cases hb : bit p i <;> simp only [hb, Bool.not_false, Bool.not_true, if_true, if_false,
      Bool.false_eq_true, Nat.one_ne_zero] at h ⊢
    · rw [htake, List.take_succ_cons]
      split_ifs at h with hlast
      · rw [← Option.some.inj h, ← hlast, Nat.sub_self, List.take_zero]
      · obtain ⟨l', hl', h⟩ := Option.bind_eq_some_iff.1 h
        rw [← Option.some.inj h, scanFree_eq_some (by omega) (by omega) hl', clearFrom]
    · rw [if_neg (by omega)] at h
      exact scanFree_eq_some (by omega) hn h

theorem scanFree_isSome {p : List UInt8} (size n : ℕ) : ∀ (k i index : ℕ),
    (∀ j, i ≤ j → j < i + k → j / 8 < p.length) → (scanFree p size n k i index).isSome
  | 0, _, _, _ => rfl
  | k + 1, i, index, h => by
    have hnext : ∀ j, i + 1 ≤ j → j < i + 1 + k → j / 8 < p.length :=
      fun j h1 h2 => h j (by omega) (by omega)
    have ih := fun index => scanFree_isSome size n k (i + 1) index hnext
    obtain ⟨l, hl⟩ := Option.isSome_iff_exists.1 (ih (index + 1))
    rw [scanFree, bind_of_eq_some (bitmapGet_eq (h i le_rfl (by omega)))]
    by_cases hg : i < size ∧ bit p i = true
    · rw [if_pos hg, if_neg Nat.one_ne_zero]
      split_ifs
      · rfl
      · exact ih index
    · rw [if_neg hg, if_pos rfl, bind_of_eq_some hl]
      split_ifs <;> rfl

/-- The first index below `n` whose bit is clear. -/
def firstFree (b : ℕ → Bool) (n : ℕ) : Option ℕ := (List.range n).find? fun j => !b j

theorem firstFree_eq_some {b : ℕ → Bool} {n i : ℕ} :
    firstFree b n = some i ↔ i < n ∧ b i = false ∧ ∀ j < i, b j = true := by
  unfold firstFree
  rw [List.find?_range_eq_some]
  simp; tauto

theorem firstFree_congr {b b' : ℕ → Bool} {n : ℕ} (h : ∀ j < n, b j = b' j) :
    firstFree b n = firstFree b' n := by
  ext i
  rw [firstFree_eq_some, firstFree_eq_some]
  constructor
  · rintro ⟨hi, hf, hb⟩
    exact ⟨hi, h i hi ▸ hf, fun j hj => h j (hj.trans hi) ▸ hb j hj⟩
  · rintro ⟨hi, hf, hb⟩
    exact ⟨hi, (h i hi).trans hf, fun j hj => (h j (hj.trans hi)).trans (hb j hj)⟩

/-- `bitmap_availableblockid` for one slot finds the first clear bit. -/
theorem bitmapAvailableblockid_one {p : List UInt8} {size : ℕ} {l : List ℕ}
    (h : bitmapAvailableblockid 1 size p = some l) : l = (firstFree (bit p) size).toList := by
  rw [firstFree, ← List.head?_filter, ← List.take_one, List.range_eq_range']
  exact scanFree_eq_some (by omega) Nat.one_pos h

/-- The one entry of the list is the first clear bit. -/
theorem firstFree_of_head {p : List UInt8} {size i : ℕ} {l : List ℕ}
    (h : bitmapAvailableblockid 1 size p = some l) (hi : l.head? = some i) :
    firstFree (bit p) size = some i := by
  rwa [bitmapAvailableblockid_one h, Option.head?_toList] at hi

theorem bitmapAvailableblockid_one_eq {p : List UInt8} {size : ℕ}
    (h : ∀ j < size, j / 8 < p.length) :
    bitmapAvailableblockid 1 size p = some (firstFree (bit p) size).toList := by
  obtain ⟨l, hl⟩ := Option.isSome_iff_exists.1
    (scanFree_isSome (p := p) size 1 size 0 0 fun j _ h2 => h j (by omega))
  rw [← bitmapAvailableblockid_one hl]; exact hl

/-! ## The bitmap on the device -/

/-- Bit `i` of the bitmap an image holds at `BITMAP_OFFSET`. -/
def diskBit (m : Image) (i : ℕ) : Bool := (m (bitmapOffset + i / 8)).toNat.testBit (i % 8)

theorem lseek_bitmapOffset (fd : Descriptor) :
    fd.lseek bitmapOffset = some ⟨fd.image, bitmapOffset⟩ :=
  Descriptor.lseek_eq_some.2 ⟨by decide, rfl⟩

theorem readBitmap_eq_some {fd fd' : Descriptor} {dev bs : ℤ} {p : List UInt8}
    (h : readBitmap fd dev bs = some (p, fd')) : ∃ len, readBitmapSize dev bs = some len ∧
      p = fd.image.slice bitmapOffset len ∧ fd' = ⟨fd.image, bitmapOffset + len⟩ := by
  simp only [readBitmap, Option.bind_eq_bind, Option.bind_eq_some_iff] at h
  obtain ⟨len, hlen, fd₁, h1, h2⟩ := h
  obtain ⟨-, rfl⟩ := Descriptor.lseek_eq_some.1 h1
  obtain ⟨-, h3, h4⟩ := Descriptor.read_eq_some.1 h2
  exact ⟨len, hlen, h3, h4⟩

theorem readBitmap_eq {fd : Descriptor} {dev bs : ℤ} {len : ℕ}
    (h : readBitmapSize dev bs = some len) (hl : len < 2 ^ 32) : readBitmap fd dev bs =
      some (fd.image.slice bitmapOffset len, ⟨fd.image, bitmapOffset + len⟩) := by
  rw [readBitmap, bind_of_eq_some h, bind_of_eq_some (lseek_bitmapOffset fd),
    Descriptor.read_eq_some]
  exact ⟨show 520 + len ≤ 2 ^ 63 by omega, rfl, rfl⟩

theorem writeBitmap_eq_some {fd fd' : Descriptor} {len : ℕ} {buf : List UInt8}
    (h : writeBitmap fd len buf = some fd') : len ≤ buf.length ∧
      fd' = ⟨fd.image.patch bitmapOffset (buf.take len), bitmapOffset + len⟩ := by
  simp only [writeBitmap, Option.bind_eq_bind, Option.bind_eq_some_iff] at h
  obtain ⟨fd₁, h1, h2⟩ := h
  obtain ⟨-, rfl⟩ := Descriptor.lseek_eq_some.1 h1
  split_ifs at h2 with hl
  obtain ⟨-, h3⟩ := Descriptor.write_eq_some.1 h2
  refine ⟨hl, ?_⟩
  rw [h3, List.length_take, min_eq_left hl]

theorem writeBitmap_eq {fd : Descriptor} {len : ℕ} {buf : List UInt8} (h : len ≤ buf.length)
    (hl : len < 2 ^ 32) : writeBitmap fd len buf =
      some ⟨fd.image.patch bitmapOffset (buf.take len), bitmapOffset + len⟩ := by
  rw [writeBitmap, bind_of_eq_some (lseek_bitmapOffset fd), if_pos h, Descriptor.write_eq_some,
    List.length_take, min_eq_left h]
  exact ⟨show 520 + len ≤ 2 ^ 63 by omega, rfl⟩

/-- The bits of a bitmap read from the device are those on it. -/
theorem bit_slice {m : Image} {len i : ℕ} (h : i / 8 < len) :
    bit (m.slice bitmapOffset len) i = diskBit m i := by
  rw [bit, diskBit, Image.getElem?_slice, if_pos h, Option.getD_some]

/-- The free index found in a bitmap from the device, and set there, is clear on the device. -/
theorem clear_of_firstFree {m : Image} {len n i : ℕ} {v : UInt8} {p : List UInt8}
    (hfree : firstFree (bit (m.slice bitmapOffset len)) n = some i)
    (hset : bitmapSet i (m.slice bitmapOffset len) n = some (v, p)) :
    i < n ∧ i / 8 < len ∧ diskBit m i = false := by
  obtain ⟨hi, hclear, -⟩ := firstFree_eq_some.1 hfree
  obtain ⟨hi8, -, -⟩ := bitmapSet_eq_some hi hset
  rw [Image.length_slice] at hi8
  rw [bit_slice hi8] at hclear
  exact ⟨hi, hi8, hclear⟩

/-- The bits on the device after a bitmap was written to it. -/
theorem diskBit_patch {m : Image} {len i : ℕ} {buf : List UInt8} (hl : len ≤ buf.length)
    (h : i / 8 < len) : diskBit (m.patch bitmapOffset (buf.take len)) i = bit buf i := by
  unfold diskBit bit
  rw [Image.patch_add (by rw [List.length_take]; omega), List.getElem_take,
    List.getElem?_eq_getElem (by omega), Option.getD_some]

theorem diskBit_congr {m m' : Image} {i : ℕ}
    (h : m (bitmapOffset + i / 8) = m' (bitmapOffset + i / 8)) : diskBit m i = diskBit m' i := by
  unfold diskBit; rw [h]

/-! ## Bits as a set -/

/-- The slots marked by bits. -/
def marked (f : ℕ → Bool) : Set ℕ := {i | f i = true}

theorem mem_marked {f : ℕ → Bool} {i : ℕ} : i ∈ marked f ↔ f i = true := Iff.rfl

/-- The first slot clear is the least one that is not marked. -/
theorem firstFree_isLeast {f : ℕ → Bool} {n i : ℕ} (h : firstFree f n = some i) :
    IsLeast (marked f)ᶜ i := by
  obtain ⟨-, hclear, hbefore⟩ := firstFree_eq_some.1 h
  refine ⟨by simp [marked, hclear], fun j hj => ?_⟩
  by_contra hlt
  exact hj (hbefore j (Nat.lt_of_not_le hlt))

theorem marked_update (f : ℕ → Bool) (i : ℕ) :
    marked (Function.update f i true) = insert i (marked f) := by
  ext j
  by_cases h : j = i
  · subst h; simp [marked]
  · simp [marked, h]

end Bitmap
