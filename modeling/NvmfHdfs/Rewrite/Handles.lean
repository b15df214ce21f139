/-
  The handle table and the allocations of `main`.

  `lfs_open` numbers the handles of meta files from 3 and those of data files
  from `BLOCK_NUM + 2`; the lookup loops run up to `BLOCK_NUM` inclusive; and
  `malloc` is given the macro `BLOCK_NUM` without parentheses around it, and 3
  bytes where 3 entries are meant.

    - `tableEntries`, `fdEntries`: the whole entries `main` allocates;
    - `tableIndices`, `fdIndices`: the entries a call uses;
    - `handle_table_wrong`: on every device with a slot the last meta file shares
      its handle with the first data file, and the first lookup reads past its
      table;
    - `handle_shared`: a data file and a meta file with one handle.
-/
import NvmfHdfs.Rewrite.Ownership

namespace Rewrite

open CInt Layout Bitmap Path Records

variable {s : Lfs} {image : Image} {tr : Trace} {k : Kind} {i j : ℕ}

/-! ## What `main` allocates -/

/-- `sizeof(struct file_meta)` and `sizeof(struct file_data)`: 36 bytes of fields, aligned to 8. -/
def sizeofFileEntry : ℕ := 40

/-- `sizeof(struct file_fd)`: 41 bytes of fields, aligned to 8. -/
def sizeofFileFd : ℕ := 48

/-- `sizeof(struct file_meta)*BLOCK_NUM(dev_size,block_size)`: the product comes first. -/
def tableBytes (s : Lfs) : ℕ :=
  toU64 (sizeofFileEntry * numer s.dev_size : ℕ) / denom s.block_size

/-- `sizeof(struct file_fd)*(2*BLOCK_NUM(dev_size,block_size))+3`. -/
def fdBytes (s : Lfs) : ℕ :=
  toU64 (sizeofFileFd * (toU64 (2 * numer s.dev_size : ℕ) / denom s.block_size) + 3 : ℕ)

/-- The whole entries of `pMeta` and of `pData`. -/
def tableEntries (s : Lfs) : ℕ := tableBytes s / sizeofFileEntry

/-- The whole entries of `pFd`. -/
def fdEntries (s : Lfs) : ℕ := fdBytes s / sizeofFileFd

/-- The tables have no more entries than there are slots. -/
theorem tableEntries_le (s : Lfs) : tableEntries s ≤ s.num := by
  have hmod :
      toU64 (sizeofFileEntry * numer s.dev_size : ℕ) ≤ sizeofFileEntry * numer s.dev_size := by
    rw [toU64_natCast]; exact Nat.mod_le _ _
  calc tableEntries s
      ≤ sizeofFileEntry * numer s.dev_size / denom s.block_size / sizeofFileEntry :=
        Nat.div_le_div_right (Nat.div_le_div_right hmod)
    _ = sizeofFileEntry * numer s.dev_size / sizeofFileEntry / denom s.block_size :=
        Nat.div_right_comm ..
    _ = s.num := by rw [Nat.mul_div_cancel_left _ (by decide)]; rfl

/-- `pFd` has at most one entry more than two for each slot. -/
theorem fdEntries_le (s : Lfs) : fdEntries s ≤ 2 * s.num + 1 := by
  have hmod : ∀ n, toU64 (n : ℕ) ≤ n := fun n => by rw [toU64_natCast]; exact Nat.mod_le _ _
  have hdouble : 2 * numer s.dev_size / denom s.block_size ≤ 2 * s.num + 1 := by
    rcases Nat.eq_zero_or_pos (denom s.block_size) with h0 | hpos
    · rw [h0, Nat.div_zero]; exact Nat.zero_le _
    · have hlt : numer s.dev_size < (s.num + 1) * denom s.block_size :=
        Nat.lt_mul_of_div_lt (Nat.lt_succ_self _) hpos
      have hmul : 2 * numer s.dev_size < (2 * s.num + 1 + 1) * denom s.block_size := by
        calc 2 * numer s.dev_size < 2 * ((s.num + 1) * denom s.block_size) := by omega
          _ = (2 * s.num + 1 + 1) * denom s.block_size := by ring
      exact Nat.lt_succ_iff.1 ((Nat.div_lt_iff_lt_mul hpos).2 hmul)
  have hentries : toU64 (2 * numer s.dev_size : ℕ) / denom s.block_size ≤ 2 * s.num + 1 :=
    (Nat.div_le_div_right (hmod _)).trans hdouble
  calc fdEntries s
      ≤ (sizeofFileFd * (toU64 (2 * numer s.dev_size : ℕ) / denom s.block_size) + 3) /
          sizeofFileFd := Nat.div_le_div_right (hmod _)
    _ = toU64 (2 * numer s.dev_size : ℕ) / denom s.block_size := by unfold sizeofFileFd; omega
    _ ≤ 2 * s.num + 1 := hentries

/-! ## What a call uses -/

/-- The entries a lookup loop reads: up to the one it finds, or up to `BLOCK_NUM`, with an
    `int i`. -/
def lookupIndices (s : Lfs) (k : Kind) (b : ℤ) : List ℕ :=
  if k = .dataFile ∧ s.block_id_use = 0 then []
  else List.range (min ((s.finds k b).getD s.num + 1) (2 ^ 31))

/-- The handle a call is given by `lfs_open`. -/
def openedHandle (s : Lfs) (c : Call) : Option ℕ :=
  match step s c with
  | some (.opened fh, _) => some fh
  | _ => none

/-- The entries of the table of a kind of files that a call uses. -/
def tableIndices (s : Lfs) (k : Kind) (c : Call) : List ℕ :=
  match c with
  | .open path =>
    match parsePath path with
    | some (k', b) =>
      if k' = k then lookupIndices s k b ++ ((openedHandle s c).map (slotOf s k)).toList else []
    | none => []
  | _ => []

/-- The handles `lfs_open` has given. -/
def openHandles (tr : Trace) : List ℕ := tr.filterMap fun e => openedHandle e.pre e.input

/-- The entries of `pFd` that a call uses: the one it opens, or the one of a handle that was
    opened. -/
def fdIndices (tr : Trace) (s : Lfs) (c : Call) : List ℕ :=
  match c with
  | .open _ => (openedHandle s c).toList
  | .read fh _ _ | .write fh _ _ | .release fh _ => if fh ∈ openHandles tr then [fh] else []
  | .getattr _ | .readdir _ => []

/-! ## Distinct handles and table bounds -/

/-- The files of a mount have handles of their own. -/
def HandlesDistinct (s : Lfs) : Prop :=
  ∀ k i k' j, i < s.num → j < s.num → s.handle k i = s.handle k' j → (k, i) = (k', j)

/-- Every call of every run of a mount uses entries that `main` allocated. -/
def IndicesInside (image : Image) : Prop :=
  ∀ tr s c, Mount image Machine.anyStep tr s →
    (∀ k, ∀ i ∈ tableIndices s k c, i < tableEntries s) ∧ ∀ fh ∈ fdIndices tr s c, fh < fdEntries s

/-- Handles of different kinds meet only between the last slot and the first. -/
theorem handle_meta_eq_data (hi : i < s.num) :
    s.handle .metaFile i = s.handle .dataFile j ↔ i + 1 = s.num ∧ j = 0 := by
  simp only [Lfs.handle]
  omega

theorem not_handlesDistinct (hN : 0 < s.num) : ¬ HandlesDistinct s := by
  intro h
  have hlast : s.num - 1 < s.num := Nat.sub_lt hN Nat.one_pos
  have heq : s.handle .metaFile (s.num - 1) = s.handle .dataFile 0 :=
    (handle_meta_eq_data hlast).2 ⟨Nat.sub_add_cancel hN, rfl⟩
  cases h _ _ _ _ hlast hN heq

/-- The lookup of the first meta file reads entry `BLOCK_NUM`. -/
theorem not_indicesInside (hm : main image = some s) (hN : s.num < 2 ^ 31) :
    ¬ IndicesInside image := by
  intro h
  have hp : parsePath (metaPath 1 1001) = some (.metaFile, 1) := by decide +kernel
  have hnone : s.finds .metaFile 1 = none := by
    obtain ⟨len, -, rfl⟩ := main_eq_some hm
    rw [Lfs.finds, if_neg (by simp), List.find?_range_eq_none]
    intro i _
    have h1 : toU64 1 = 1 := by unfold toU64; rfl
    simp [Lfs.files, mounted, h1]
  have hmem : s.num ∈ tableIndices s .metaFile (.open (metaPath 1 1001)) := by
    rw [tableIndices]
    simp only [hp, if_true]
    refine List.mem_append_left _ ?_
    rw [lookupIndices, if_neg (by simp), hnone, Option.getD_none, List.mem_range]
    omega
  have hlt := (h [] s (.open (metaPath 1 1001)) ⟨s, hm, .nil⟩).1 _ _ hmem
  have hle := tableEntries_le s
  omega

/-- **The handle table is wrong on every device with a slot.**  The last meta file has the handle
    of the first data file, and no other two files share one; the first lookup reads entry
    `BLOCK_NUM` of a table with at most `BLOCK_NUM` entries; and the handle of the last data
    file is past the end of `pFd`. -/
theorem handle_table_wrong (hm : main image = some s) (hN : 0 < s.num) :
    ¬ (HandlesDistinct s ∧ IndicesInside image) ∧
    (∀ k i k' j, i < s.num → j < s.num → (k, i) ≠ (k', j) → (s.handle k i = s.handle k' j ↔
      (k, i + 1, k', j) = (.metaFile, s.num, .dataFile, 0) ∨
        (k, i, k', j + 1) = (.dataFile, 0, .metaFile, s.num))) ∧
    (s.num < 2 ^ 31 → ¬ IndicesInside image) ∧
    fdEntries s ≤ s.handle .dataFile (s.num - 1) := by
  refine ⟨fun h => not_handlesDistinct hN h.1, ?_, not_indicesInside hm, ?_⟩
  · intro k i k' j hi hj hne
    cases k <;> cases k'
    · simp only [Lfs.handle, ne_eq, Prod.mk.injEq, true_and, reduceCtorEq, false_and, and_false,
        or_self, iff_false] at *
      omega
    · rw [handle_meta_eq_data hi]; simp
    · rw [eq_comm, handle_meta_eq_data hj]; simp [and_comm]
    · simp only [Lfs.handle, ne_eq, Prod.mk.injEq, true_and, reduceCtorEq, false_and, and_false,
        or_self, iff_false] at *
      omega
  · have hle := fdEntries_le s
    simp only [Lfs.handle]
    omega

theorem handle_table_wrong_blank : ∃ s, main blankDevice = some s ∧ 0 < s.num ∧
    ¬ (HandlesDistinct s ∧ IndicesInside blankDevice) := by
  have h : (main blankDevice).any (fun s => decide (0 < s.num)) = true := by decide +kernel
  obtain ⟨s, hm, hN⟩ := (Option.any_eq_true _ _).1 h
  have hN := of_decide_eq_true hN
  exact ⟨s, hm, hN, (handle_table_wrong hm hN).1⟩

/-- A data file gets slot 0, three meta files slots 1 to 3, and the last of them has the handle of
    the data file, 6. -/
theorem handle_shared : ∃ tr s, mountExec blankDevice Machine.anyStep
      [.open (dataPath 1), .open (metaPath 2 1001), .open (metaPath 3 1001),
        .open (metaPath 4 1001)] = some (tr, s) ∧
    Mount blankDevice Machine.anyStep tr s ∧
    handed tr = [(.metaFile, 4, 3), (.metaFile, 3, 2), (.metaFile, 2, 1), (.dataFile, 1, 0)] ∧
    openHandles tr = [6, 5, 4, 6] ∧ ¬ (HandlesDistinct s ∧ IndicesInside blankDevice) := by
  obtain ⟨tr, s, he, hm, hN, hh, ho⟩ := Machine.exists_exec system Machine.anyStep
    (main blankDevice)
    [.open (dataPath 1), .open (metaPath 2 1001), .open (metaPath 3 1001),
      .open (metaPath 4 1001)]
    (fun tr s => 0 < s.num ∧
      handed tr = [(.metaFile, 4, 3), (.metaFile, 3, 2), (.metaFile, 2, 1), (.dataFile, 1, 0)] ∧
      openHandles tr = [6, 5, 4, 6]) (by decide +kernel)
  exact ⟨tr, s, he, hm, hh, ho, fun h => not_handlesDistinct hN h.1⟩

end Rewrite
