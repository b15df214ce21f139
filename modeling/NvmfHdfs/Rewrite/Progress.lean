/-
  Calls that have a result.

  On a device whose size is an `int`, nothing in `lfs_getattrr`, `lfs_readdir`
  and `lfs_open` leaves its buffers or `int`: for a path that can be parsed each
  is defined, `lfs_open` as long as a slot is free.

    - `readUsed_eq`: what is read of the metadata;
    - `lfsGetattrr_isSome`, `lfsReaddir_isSome`, `lfsOpen_isSome`.
-/
import NvmfHdfs.Rewrite.Mount

namespace Rewrite

open CInt CText Layout Bitmap Path Records

variable {s : Lfs} {m : Image} {path : List Char} {k : Kind} {b : ℤ} {off n : ℕ} {l : List ℕ}

/-! ## The scans of the records -/

/-- The scan for an id stays inside a table that holds all its slots. -/
theorem findInfo_isSome (h : ∀ i ∈ l, (i + 1) * sizeofBlockInfo ≤ n) :
    (findInfo (m.slice off n) b l).isSome = true := by
  induction l with
  | nil => rfl
  | cons i l ih =>
    rw [findInfo, infoGet_slice_eq (h i List.mem_cons_self)]
    simp only [Option.bind_eq_bind, Option.bind_some]
    split_ifs
    · rfl
    · exact ih fun j hj => h j (List.mem_cons_of_mem i hj)

/-- An `int` prints in at most 11 characters. -/
theorem length_printInt {z : ℤ} (h : IsInt z) : (printInt z).length ≤ 11 := by
  have hd : (Nat.toDigits 10 z.natAbs).length ≤ 10 := by
    rw [Nat.length_toDigits_le_iff (by decide) (by decide)]
    unfold IsInt at h; omega
  unfold printInt
  split_ifs
  · rw [List.length_cons]; omega
  · omega

/-- The name of a data file fits into its 20 bytes. -/
theorem length_listName {z : ℤ} (h : IsInt z) : (listName .dataFile z).length < 20 := by
  have := length_printInt h
  simp only [listName, List.length_append, List.length_cons, List.length_nil]
  omega

/-- The listing loop ends if the records it prints are in the table that was read. -/
theorem nameLoop_isSome {σ : Type} {put : ℕ → List Char → σ → σ} {t : σ}
    (h : ∀ i ∈ l, (i + 1) * sizeofBlockInfo ≤ n) :
    (nameLoop put .dataFile (m.slice off n) l t).isSome = true := by
  induction l generalizing t with
  | nil => rfl
  | cons i l ih =>
    rw [nameLoop, bind_of_eq_some (infoGet_slice_eq (h i List.mem_cons_self))]
    dsimp only
    have hname := length_listName (isInt_toInt (infoAt m off i).b_block_id)
    obtain ⟨⟨names, t'⟩, hx⟩ := Option.isSome_iff_exists.1
      (ih (t := put i (listName .dataFile (toInt (infoAt m off i).b_block_id)) t)
        fun j hj => h j (List.mem_cons_of_mem i hj))
    rw [if_pos hname, hx]; rfl

/-- The records of the used slots lie in the table. -/
theorem usedSlots_info {i : ℕ} (h : i ∈ usedSlots m n) :
    (i + 1) * sizeofBlockInfo ≤ n * sizeofBlockInfo :=
  Nat.mul_le_mul_right _ (mem_usedSlots.1 h).1

/-! ## The calls -/

namespace Sound
variable (S : Sound s) (G : Geometry s.dev_size s.block_size)
include S G

theorem bitmap_length : s.p_bitmap.length = bitmapBytes s.num :=
  Option.some.inj (S.read.symm.trans G.readBitmapSize_eq)

omit S in
theorem bitSize_eq : s.bitSize = some s.num := by
  have h : s.num < 520105 := G.blockNum_lt
  have hi : toInt s.num = s.num := toInt_natCast (by omega)
  rw [Lfs.bitSize, hi, if_pos (by omega)]; rfl

omit S in
theorem biLen_eq : s.biLen = some (s.num * sizeofBlockInfo) := by
  have h : s.num < 520105 := G.blockNum_lt
  have hsize : infoSize s.dev_size s.block_size = s.num * sizeofBlockInfo :=
    toU64_of_lt (by unfold sizeofBlockInfo Lfs.num at *; omega)
  have hi : toInt (s.num * sizeofBlockInfo : ℕ) = (s.num * sizeofBlockInfo : ℕ) :=
    toInt_natCast (by unfold sizeofBlockInfo; omega)
  rw [Lfs.biLen, hsize, hi, if_pos (by omega)]; rfl

omit S in
theorem infoOff_eq : infoOffset s.dev_size s.block_size = some s.infoOff := by
  rw [Lfs.infoOff, G.infoOffset_eq]; rfl

/-- A bitmap read from the device has a byte for every slot. -/
theorem slot_byte {i : ℕ} (h : i < s.num) : i / 8 < s.p_bitmap.length :=
  (slot_bit_lt h).trans_eq (S.bitmap_length G).symm

/-- `lfs_getattrr` and `lfs_readdir` read the whole table and the used slots. -/
theorem readUsed_eq : readUsed s = some (s.fd.image.slice s.infoOff (s.num * sizeofBlockInfo),
    usedSlots s.fd.image s.num, ⟨s.fd.image, bitmapOffset + s.p_bitmap.length⟩) := by
  have hnum : s.num < 520105 := G.blockNum_lt
  have hoff : s.infoOff < 2 ^ 20 := by
    rw [Lfs.infoOff, G.infoOffset_eq]; exact G.infoStart_lt
  have hseek : s.fd.lseek s.infoOff = some ⟨s.fd.image, s.infoOff⟩ :=
    Descriptor.lseek_eq_some.2 ⟨hoff.trans (by decide), rfl⟩
  have hread : (⟨s.fd.image, s.infoOff⟩ : Descriptor).read (s.num * sizeofBlockInfo) =
      some (_, _) :=
    Descriptor.read_eq_some.2
      ⟨by dsimp only; unfold Descriptor.offMax sizeofBlockInfo; omega, rfl, rfl⟩
  have hlen : s.p_bitmap.length < 2 ^ 32 := by
    rw [S.bitmap_length G]; unfold bitmapBytes; omega
  have hscan : (bitmapUsedblockid (s.fd.image.slice bitmapOffset s.p_bitmap.length) s.num 0
      s.num).isSome = true :=
    bitmapUsedblockid_isSome (by omega) fun j hj => by
      rw [Image.length_slice]; exact S.slot_byte G hj
  obtain ⟨⟨used, u⟩, hu⟩ := Option.isSome_iff_exists.1 hscan
  have h : readUsed s = some (s.fd.image.slice s.infoOff (s.num * sizeofBlockInfo),
      (used.take u).map Int.toNat, ⟨s.fd.image, bitmapOffset + s.p_bitmap.length⟩) := by
    unfold readUsed
    rw [bind_of_eq_some (biLen_eq G), bind_of_eq_some (infoOff_eq G), bind_of_eq_some hseek,
      bind_of_eq_some hread]
    dsimp only
    rw [bind_of_eq_some (readBitmap_eq S.read hlen)]
    dsimp only
    rw [bind_of_eq_some (bitSize_eq G), bind_of_eq_some hu]
  rw [h]
  obtain ⟨hl, -⟩ := bitmapUsedblockid_eq_some hu
  have hcast : Int.toNat ∘ (Nat.cast : ℕ → ℤ) = id := by funext j; simp
  rw [hl, List.map_map, hcast, List.map_id]
  have hused : (List.range s.num).filter (bit (s.fd.image.slice bitmapOffset s.p_bitmap.length)) =
      usedSlots s.fd.image s.num :=
    List.filter_congr fun j hj => bit_slice (S.slot_byte G (List.mem_range.1 hj))
  rw [hused]

/-- **`lfs_getattr` has a result** for every path that can be parsed. -/
theorem lfsGetattrr_isSome (hp : parsePath path = some (k, b)) :
    (lfsGetattrr s path).isSome = true := by
  have hscan : (findInfo (s.fd.image.slice s.infoOff (s.num * sizeofBlockInfo)) b
      (usedSlots s.fd.image s.num)).isSome = true := findInfo_isSome fun i => usedSlots_info
  obtain ⟨o, ho⟩ := Option.isSome_iff_exists.1 hscan
  rw [lfsGetattrr, bind_of_eq_some hp]
  dsimp only
  rw [bind_of_eq_some (S.readUsed_eq G)]
  dsimp only
  rw [bind_of_eq_some ho]
  cases o <;> rfl

/-- **`lfs_readdir` lists the root.** -/
theorem lfsReaddir_isSome : (lfsReaddir s ['/']).isSome = true := by
  have hloop : (listLoop .dataFile (s.fd.image.slice s.infoOff (s.num * sizeofBlockInfo))
      (usedSlots s.fd.image s.num)
      { s with fd := ⟨s.fd.image, bitmapOffset + s.p_bitmap.length⟩ }).isSome = true :=
    nameLoop_isSome fun i => usedSlots_info
  obtain ⟨⟨names, s'⟩, hl⟩ := Option.isSome_iff_exists.1 hloop
  rw [lfsReaddir, bind_of_eq_some parsePath_root]
  dsimp only
  rw [if_neg (by simp), bind_of_eq_some (S.readUsed_eq G)]
  dsimp only
  rw [bind_of_eq_some hl]; rfl

/-- A new slot is found, marked and stored. -/
theorem alloc_isSome {p : List UInt8} (hlen : p.length = s.p_bitmap.length)
    (hfree : ∃ i < s.num, bit p i = false) : ∃ l i v p',
    bitmapAvailableblockid 1 s.num p = some l ∧ l.head? = some i ∧
      bitmapSet i p s.num = some (v, p') ∧ bitmapSize s.dev_size s.block_size = some p'.length ∧
      ∀ fd : Descriptor, (writeBitmap fd p'.length p').isSome = true := by
  have hbyte : ∀ j < s.num, j / 8 < p.length := fun j hj => hlen ▸ S.slot_byte G hj
  obtain ⟨i, hi⟩ : ∃ i, firstFree (bit p) s.num = some i := by
    refine Option.isSome_iff_exists.1 (List.find?_isSome.2 ?_)
    obtain ⟨i, hi, hclear⟩ := hfree
    exact ⟨i, List.mem_range.2 hi, by rw [hclear]; rfl⟩
  have hin : i < s.num := (firstFree_eq_some.1 hi).1
  have hsome : (bitmapSet i p s.num).isSome = true := bitmapSet_isSome (hbyte i hin)
  obtain ⟨⟨v, p'⟩, hset⟩ := Option.isSome_iff_exists.1 hsome
  obtain ⟨-, hplen, -⟩ := bitmapSet_eq_some hin hset
  have hp' : p'.length = s.p_bitmap.length := hplen.trans hlen
  refine ⟨_, i, v, p', bitmapAvailableblockid_one_eq hbyte, ?_, hset, ?_, fun fd => ?_⟩
  · rw [hi]; rfl
  · rw [hp']; exact S.write
  · have hnum : s.num < 520105 := G.blockNum_lt
    have hsmall : p'.length < 2 ^ 32 := by
      rw [hp', S.bitmap_length G]; unfold bitmapBytes; omega
    rw [writeBitmap_eq le_rfl hsmall]; rfl

omit S in
theorem areaOffset_isSome (k : Kind) (i : ℕ) : ∃ off, areaOffset s k i = some off := by
  rw [areaOffset, bind_of_eq_some G.dataOffset_eq]
  cases k <;> exact ⟨_, rfl⟩

omit S in
theorem findFile_isSome (tab : ℕ → FileEntry) (b : ℤ) : ∃ o, findFile tab s.num b = some o := by
  have hnum : s.num < 520105 := G.blockNum_lt
  unfold findFile
  split
  · rename_i i hi
    have := List.mem_range.1 (List.mem_of_find?_eq_some hi)
    exact ⟨_, if_pos (by omega)⟩
  · exact ⟨_, if_pos (by omega)⟩

theorem openMetaNew_isSome (hfree : ∃ i < s.num, diskBit s.fd.image i = false) :
    (openMetaNew s b).isSome = true := by
  have hnum : s.num < 520105 := G.blockNum_lt
  have hsmall : s.p_bitmap.length < 2 ^ 32 := by
    rw [S.bitmap_length G]; unfold bitmapBytes; omega
  obtain ⟨l, i, v, p', ha, hi, hset, hw, hwr⟩ :=
    S.alloc_isSome G (p := s.fd.image.slice bitmapOffset s.p_bitmap.length)
      (Image.length_slice _ _ _) (by
        obtain ⟨i, hi, hclear⟩ := hfree
        exact ⟨i, hi, (bit_slice (S.slot_byte G hi)).trans hclear⟩)
  obtain ⟨off, hoff⟩ := areaOffset_isSome G .metaFile i
  obtain ⟨fd, hfd⟩ := Option.isSome_iff_exists.1
    (hwr ⟨s.fd.image, bitmapOffset + s.p_bitmap.length⟩)
  rw [openMetaNew, bind_of_eq_some (bitSize_eq G), bind_of_eq_some (readBitmap_eq S.read hsmall)]
  dsimp only
  rw [bind_of_eq_some ha, bind_of_eq_some hi, bind_of_eq_some hoff, bind_of_eq_some hset]
  dsimp only
  rw [bind_of_eq_some hw, bind_of_eq_some hfd]; rfl

theorem openDataNew_isSome (hfree : ∃ i < s.num, bit s.p_bitmap i = false) :
    (openDataNew s b).isSome = true := by
  obtain ⟨l, i, v, p', ha, hi, hset, hw, hwr⟩ := S.alloc_isSome G rfl hfree
  obtain ⟨off, hoff⟩ := areaOffset_isSome G .dataFile i
  obtain ⟨fd, hfd⟩ := Option.isSome_iff_exists.1 (hwr s.fd)
  rw [openDataNew, bind_of_eq_some (bitSize_eq G), bind_of_eq_some ha, bind_of_eq_some hi,
    bind_of_eq_some hoff, bind_of_eq_some hset]
  dsimp only
  rw [bind_of_eq_some hw, bind_of_eq_some hfd]; rfl

/-- **`lfs_open` has a result** as long as a slot is free for a file that it does not find. -/
theorem lfsOpen_isSome (hp : parsePath path = some (k, b))
    (hfree : s.finds k b = none → ∃ i < s.num, s.marks k i = false) :
    (lfsOpen s path).isSome = true := by
  obtain ⟨o, ho⟩ := findFile_isSome G (s.files k) b
  rw [lfsOpen, bind_of_eq_some hp]
  cases k with
  | metaFile =>
    dsimp only
    have ho' : findFile s.pMeta s.num b = some o := ho
    rw [bind_of_eq_some ho']
    cases o with
    | none => exact S.openMetaNew_isSome G (hfree (finds_of_meta ho'))
    | some i => rfl
  | dataFile =>
    dsimp only
    have ho' : findFile s.pData s.num b = some o := ho
    split_ifs with huse
    · rw [bind_of_eq_some ho']
      cases o with
      | none => exact S.openDataNew_isSome G (hfree (finds_of_data (.inr ho')))
      | some i => rfl
    · rw [bind_of_eq_some rfl]
      exact S.openDataNew_isSome G (hfree (finds_of_data (.inl (not_not.1 huse))))

end Sound

end Rewrite
