/-
  The names `lfs_readdir` lists, on their way back to the records.

  A name is printed with `"%d"` from the `uint32_t` of a record, so that ids from
  `2 ^ 31` on appear as negative numbers.  `lfs_getattrr` compares the `int` it
  parses with that `uint32_t`, stores it into a `uint64_t`, and `lfs_open` compares
  the `int` it parses with this.

    - `atoi_printInt`: printing and parsing an `int`;
    - `NameDecodes`, `listed_name_decodes`: the comparisons hold for every id.
-/
import NvmfHdfs.Rewrite.Progress

namespace Rewrite

open CInt CText Layout Bitmap Path Records

variable {s s' : Lfs} {z b : ℤ} {i j n : ℕ}

/-! ## Printing and parsing -/

/-- The characters of a printed number. -/
theorem digit_of_mem_printInt {c : Char} (h : c ∈ printInt z) : c = '-' ∨ c.isDigit = true := by
  unfold printInt at h
  split_ifs at h
  · rcases List.mem_cons.1 h with rfl | h
    · exact .inl rfl
    · exact .inr (isDigit_toDigits c h)
  · exact .inr (isDigit_toDigits c h)

/-- An `int` is printed and parsed back. -/
theorem atoi_printInt (h : IsInt z) : atoi (printInt z) = z := by
  have hz := toInt_of_isInt h
  unfold IsInt at h
  unfold printInt
  split_ifs with hneg
  · rw [atoi_neg_toDigits (by omega), show -(z.natAbs : ℤ) = z by omega, hz]
  · rw [atoi_toDigits (by omega), show (z.natAbs : ℤ) = z by omega, hz]

/-- The path of a listed name is parsed to the `int` that was printed. -/
theorem parsePath_listName (h : IsInt z) :
    parsePath ('/' :: listName .dataFile z) = some (.dataFile, z) := by
  have hnot : ∀ c : Char, c ≠ '-' → c.isDigit = false → c ∉ printInt z := by
    intro c hne hc hmem
    rcases digit_of_mem_printInt hmem with rfl | hdigit
    · exact hne rfl
    · rw [hc] at hdigit; cases hdigit
  have hlen := length_printInt h
  rw [listName, List.append_nil]
  have hparse := parsePath_blk (l := printInt z) (by omega) (hnot _ (by decide) (by decide))
    (hnot _ (by decide) (by decide))
  rw [atoi_printInt h] at hparse
  exact hparse

example : parsePath ['/', 'b', 'l', 'k', '_', '-', '5'] = some (.dataFile, -5) := by decide +kernel

/-! ## The comparisons -/

/-- The `int` printed from a record equals its id in the scan of `lfs_getattrr`. -/
theorem toU32_toInt {id : ℕ} (h : id < 2 ^ 32) : toU32 (toInt id) = id := by
  unfold toU32 toInt; split_ifs <;> omega

/-- `lfs_open` finds an id at the latest where the table holds it. -/
theorem findFile_le {tab : ℕ → FileEntry} (hi : (tab i).block_id = toU64 b) (hin : i ≤ n)
    (hint : i < 2 ^ 31) : ∃ j ≤ i, findFile tab n b = some (some j) := by
  have hsome : ((List.range (n + 1)).find? fun i => (tab i).block_id == toU64 b).isSome := by
    rw [List.find?_isSome]
    exact ⟨i, List.mem_range.2 (by omega), by simpa using hi⟩
  obtain ⟨j, hj⟩ := Option.isSome_iff_exists.1 hsome
  have hji : j ≤ i := by
    by_contra hlt
    have hbefore := (List.find?_range_eq_some.1 hj).2.2 i (by omega)
    simp [hi] at hbefore
  refine ⟨j, hji, ?_⟩
  rw [findFile, hj]
  exact if_pos (by omega)

/-- What becomes of the name printed from a record with the id `id`.
    * It fits its field, and its path is one of a data file.
    * The scan of `lfs_getattrr` stops at a record exactly if it has that id.
    * On a device whose size is an `int`, a mounted program answers an `lfs_getattrr` of it.
    * After an `lfs_getattrr` that had such a record to find, the entry of the record it found
      holds an id by which `lfs_open` finds it, or one before. -/
structure NameDecodes (id : ℕ) (b : ℤ) : Prop where
  fits : (listName .dataFile (toInt id)).length < 20
  parsed : parsePath ('/' :: listName .dataFile (toInt id)) = some (.dataFile, b)
  scanned : ∀ bi i r l, infoGet bi i = some r →
    findInfo bi b (i :: l) = if r.b_block_id = id then some (some (i, r)) else findInfo bi b l
  answered : ∀ s, Sound s → Geometry s.dev_size s.block_size →
    (lfsGetattrr s ('/' :: listName .dataFile (toInt id))).isSome = true
  stored : ∀ s st s' n i, lfsGetattrr s ('/' :: listName .dataFile (toInt id)) = some (st, s') →
    s.bitSize = some n → i ∈ usedSlots s.fd.image n →
    (infoAt s.fd.image s.infoOff i).b_block_id = id →
    ∃ j ≤ i, (infoAt s.fd.image s.infoOff j).b_block_id = id ∧
      (s'.pData j).block_id = toU64 b ∧ ∃ l ≤ j, findFile s'.pData s'.num b = some (some l)

/-- **Listed names decode** to the record they were printed from, for every 32-bit id. -/
theorem listed_name_decodes {id : ℕ} (h : id < 2 ^ 32) : NameDecodes id (toInt id) := by
  have hint := isInt_toInt (id : ℤ)
  have hcmp := toU32_toInt h
  refine ⟨length_listName hint, parsePath_listName hint, fun bi i r l hr => ?_,
    fun s S G => S.lfsGetattrr_isSome G (parsePath_listName hint),
    fun s st s' n i hget hn hi hid => ?_⟩
  · rw [findInfo, bind_of_eq_some hr, hcmp]
  · obtain ⟨hin, hused⟩ := mem_usedSlots.1 hi
    cases getattr_outcome hget with
    | getattrMiss hp hoff hn' _ _ hl =>
      -- the scan would have stopped at the record
      cases (parsePath_listName hint).symm.trans hp
      cases hn.symm.trans hn'
      rw [Lfs.infoOff, hoff, Option.getD_some] at hid
      have hnot := List.find?_eq_none.1 hl i hi
      simp [hid, hcmp] at hnot
    | @getattrHit _ _ _ off _ len j hp hoff hn' _ _ hl =>
      cases (parsePath_listName hint).symm.trans hp
      cases hn.symm.trans hn'
      obtain ⟨⟨hjn, -⟩, hjid, hbefore⟩ := lookup_eq_some.1 hl
      rw [Lfs.infoOff, hoff, Option.getD_some] at hid ⊢
      have hji : j ≤ i := by
        by_contra hlt
        exact hbefore i (by omega) hused (hid.trans hcmp.symm)
      have hentry : ∀ e : FileEntry, e.block_id = toU64 (toInt id) →
          (Function.update s.pData j e j).block_id = toU64 (toInt id) := by
        intro e he; rw [Function.update_self, he]
      refine ⟨j, hji, hjid.trans hcmp, hentry _ rfl, ?_⟩
      exact findFile_le (hentry _ rfl) (hjn.le.trans (bitSize_le_num hn))
        (hjn.trans (bitSize_lt hn))

/-- An id that is printed as a negative number. -/
theorem listed_name_decodes_negative : NameDecodes (2 ^ 32 - 5) (toInt (2 ^ 32 - 5 : ℕ)) :=
  listed_name_decodes (by decide)

end Rewrite
