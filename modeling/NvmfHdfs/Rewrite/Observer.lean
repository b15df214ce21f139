/-
  Looking at one file and opening another.

  `lfs_getattr` stores the id it parsed into the table that `lfs_open` searches,
  in the entry of the first used slot whose record holds that id.  The record
  may be older than the file that owns the slot.

    - `SameOpen`: opening a file gives the same handle and marks the same slots
      in two states;
    - `QuietFor`: a call finds no record that takes the entry of the file, or
      that gives it an earlier one;
    - `observer_iff`: a call of `lfs_getattr` or `lfs_readdir` does not matter for
      `lfs_open` exactly if it is quiet;
    - `getattr_takes_entry`: `lfs_getattr` of `/` before a file is opened again.
-/
import NvmfHdfs.Rewrite.Reopen

namespace Rewrite

open CInt Layout Bitmap Path Records

variable {s s' : Lfs} {c : Call} {r : Reply} {path : List Char} {k : Kind} {b : ℤ} {i j v : ℕ}

/-! ## What opening a file shows -/

/-- The handle given (and with it the slot), and the bitmaps on the device and in memory. -/
def viewOf (o : ℕ × Lfs) : ℕ × (ℕ → Bool) × (ℕ → Bool) :=
  (o.1, diskBit o.2.fd.image, bit o.2.p_bitmap)

/-- What `lfs_open` shows. -/
def openView (s : Lfs) (path : List Char) : Option (ℕ × (ℕ → Bool) × (ℕ → Bool)) :=
  (lfsOpen s path).map viewOf

/-- Opening a file shows the same in both states. -/
def SameOpen (s s' : Lfs) (path : List Char) : Prop := openView s' path = openView s path

/-- A call of `lfs_getattr` that leaves the lookup of a file alone: the record found in slot `j`
    is of the file itself and the file is found in `j` or before, or it is of another one and
    the file is not found in `j`. -/
def QuietFor (s : Lfs) (k : Kind) (b : ℤ) : Call → Prop
  | .getattr path => (k = .dataFile → s.block_id_use ≠ 0) →
      ∀ x ∈ parsePath path, x.1 = k → ∀ j ∈ scanSlot s x.2,
        (x.2 = b → ∃ i ∈ s.finds k b, i ≤ j) ∧ (x.2 ≠ b → s.finds k b ≠ some j)
  | _ => True

/-! ## States that differ in the tables only -/

/-- Two states with the same device, the same bitmap in memory and the same sizes. -/
structure SameCore (s s' : Lfs) : Prop where
  dev_size : s'.dev_size = s.dev_size
  block_size : s'.block_size = s.block_size
  image : s'.fd.image = s.fd.image
  p_bitmap : s'.p_bitmap = s.p_bitmap
  block_id_use : s'.block_id_use = s.block_id_use

theorem SameCore.symm (C : SameCore s s') : SameCore s' s :=
  ⟨C.dev_size.symm, C.block_size.symm, C.image.symm, C.p_bitmap.symm, C.block_id_use.symm⟩

/-- The lookup loop of `lfs_open`, by what it finds. -/
theorem findFile_of_finds (hk : k = .dataFile → s.block_id_use ≠ 0) :
    findFile (s.files k) s.num b =
      match s.finds k b with
      | some i => if i < 2 ^ 31 then some (some i) else none
      | none => if s.num + 1 < 2 ^ 31 then some none else none := by
  rw [Lfs.finds, if_neg fun h => hk h.1 h.2]
  rfl

/-- The same step in two computations that look the same afterwards. -/
theorem map_bind_congr {α β γ : Type} {x : Option α} {f g : α → Option β} {v : β → γ}
    (h : ∀ a, (f a).map v = (g a).map v) : (x >>= f).map v = (x >>= g).map v := by
  cases x with
  | none => rfl
  | some a => exact h a

namespace SameCore
variable (C : SameCore s s')
include C

theorem num : s'.num = s.num := by rw [Lfs.num, Lfs.num, C.dev_size, C.block_size]

theorem bitSize : s'.bitSize = s.bitSize := by rw [Lfs.bitSize, Lfs.bitSize, C.num]

theorem areaOffset (k : Kind) (i : ℕ) : areaOffset s' k i = areaOffset s k i := by
  unfold Rewrite.areaOffset; rw [C.dev_size, C.block_size]

/-- The bitmap is read after a seek. -/
theorem readBitmap (dev bs : ℤ) : readBitmap s'.fd dev bs = readBitmap s.fd dev bs := by
  unfold Bitmap.readBitmap Descriptor.lseek; rw [C.image]

theorem writeBitmap (len : ℕ) (p : List UInt8) :
    writeBitmap s'.fd len p = writeBitmap s.fd len p := by
  unfold Bitmap.writeBitmap Descriptor.lseek; rw [C.image]

theorem openMetaNew : (openMetaNew s' b).map viewOf = (openMetaNew s b).map viewOf := by
  unfold Rewrite.openMetaNew
  rw [C.bitSize, C.dev_size, C.block_size, C.readBitmap]
  refine map_bind_congr fun n => map_bind_congr fun x => map_bind_congr fun l =>
    map_bind_congr fun i => ?_
  rw [C.areaOffset]
  refine map_bind_congr fun off => map_bind_congr fun y => map_bind_congr fun len =>
    map_bind_congr fun fd => ?_
  simp only [Option.map_some, viewOf, C.p_bitmap]

theorem openDataNew : (openDataNew s' b).map viewOf = (openDataNew s b).map viewOf := by
  unfold Rewrite.openDataNew
  rw [C.bitSize, C.dev_size, C.block_size, C.p_bitmap, C.num]
  refine map_bind_congr fun n => map_bind_congr fun l => map_bind_congr fun i => ?_
  rw [C.areaOffset]
  refine map_bind_congr fun off => map_bind_congr fun y => map_bind_congr fun len => ?_
  rw [C.writeBitmap]
  exact map_bind_congr fun fd => rfl

/-- The lookup loop, where it runs. -/
theorem findFile_congr (hk : k = .dataFile → s.block_id_use ≠ 0)
    (hf : s'.finds k b = s.finds k b) :
    findFile (s'.files k) s'.num b = findFile (s.files k) s.num b := by
  rw [findFile_of_finds hk, findFile_of_finds fun h => C.block_id_use ▸ hk h, hf, C.num]

/-- A file that is looked up with the same result is opened with the same result. -/
theorem openView (hp : parsePath path = some (k, b)) (hf : s'.finds k b = s.finds k b) :
    openView s' path = openView s path := by
  unfold Rewrite.openView lfsOpen
  rw [bind_of_eq_some hp, bind_of_eq_some hp]
  cases k with
  | metaFile =>
    have hfile : findFile s'.pMeta s'.num b = findFile s.pMeta s.num b :=
      C.findFile_congr (k := .metaFile) (by rintro ⟨⟩) hf
    dsimp only
    rw [hfile]
    refine map_bind_congr fun o => ?_
    cases o with
    | none => dsimp only; exact C.openMetaNew
    | some i => simp only [Option.map_some, viewOf, C.image, C.p_bitmap]
  | dataFile =>
    dsimp only
    rw [C.block_id_use]
    by_cases huse : s.block_id_use = 0
    · rw [if_neg (not_not_intro huse), if_neg (not_not_intro huse), bind_of_eq_some rfl,
        bind_of_eq_some rfl]
      exact C.openDataNew
    · have hfile : findFile s'.pData s'.num b = findFile s.pData s.num b :=
        C.findFile_congr (k := .dataFile) (fun _ => huse) hf
      rw [if_pos huse, if_pos huse, hfile]
      refine map_bind_congr fun o => ?_
      cases o with
      | none => dsimp only; exact C.openDataNew
      | some i => simp only [Option.map_some, viewOf, C.image, C.p_bitmap, C.num]

/-- A file found in a marked slot in one state, and not in this slot in the other, is opened
    with another result. -/
theorem openView_ne (hp : parsePath path = some (k, b)) (hf : s.finds k b = some j)
    (hf' : s'.finds k b ≠ some j) (hj : j < 2 ^ 31) (hmark : diskBit s.fd.image j = true) :
    Rewrite.openView s' path ≠ Rewrite.openView s path := by
  obtain ⟨huse, -⟩ := finds_eq_some_iff.1 hf
  have hfound : findFile (s.files k) s.num b = some (some j) := by
    rw [findFile_of_finds huse, hf]
    exact if_pos hj
  have hview :
      Rewrite.openView s path = some (s.handle k j, diskBit s.fd.image, bit s.p_bitmap) := by
    unfold Rewrite.openView lfsOpen
    rw [bind_of_eq_some hp]
    cases k with
    | metaFile =>
      have hfound : findFile s.pMeta s.num b = some (some j) := hfound
      dsimp only
      rw [bind_of_eq_some hfound]; rfl
    | dataFile =>
      have hfound : findFile s.pData s.num b = some (some j) := hfound
      dsimp only
      rw [if_pos (huse rfl), bind_of_eq_some hfound]; rfl
  rw [hview]
  intro h
  obtain ⟨⟨fh, t⟩, ho, hv⟩ := Option.map_eq_some_iff.1 h
  obtain ⟨hfh, -, hbit⟩ : fh = s.handle k j ∧ diskBit t.fd.image = diskBit s.fd.image ∧
      bit t.p_bitmap = bit s.p_bitmap := by simpa [viewOf] using hv
  have hhandle : ∀ i, s'.handle k i = s.handle k j → i = j := by
    intro i hi
    cases k <;> simp only [Lfs.handle, C.num] at hi <;> omega
  cases open_outcome ho with
  | openFound hp' hff hu =>
    cases hp.symm.trans hp'
    exact hf' (hhandle _ hfh ▸ finds_of_found hff hu)
  | openMeta hp' hff hn hlen hfree hoff hset =>
    -- the slot taken was clear on the device
    cases hp.symm.trans hp'
    obtain rfl := hhandle _ hfh
    obtain ⟨-, -, hclear⟩ := clear_of_firstFree hfree hset
    rw [C.image, hmark] at hclear
    cases hclear
  | @openData _ _ _ _ i _ _ _ hp' hff hn hfree hoff hset =>
    -- the slot taken is marked in memory now
    cases hp.symm.trans hp'
    obtain ⟨hi, hclear, -⟩ := firstFree_eq_some.1 hfree
    obtain ⟨-, -, hb⟩ := bitmapSet_eq_some hi hset
    have hset := congrFun hbit i
    dsimp only at hset
    rw [hb, ← C.p_bitmap, hclear] at hset
    simp at hset

end SameCore

/-! ## The lookup after a call -/

namespace SameCore
variable (C : SameCore s s')
include C

/-- A file is found where it was if nothing changed up to there. -/
theorem finds_of_some (hf : s.finds k b = some i)
    (hat : (s'.files k i).block_id = toU64 b)
    (hbefore : ∀ l < i, (s'.files k l).block_id ≠ toU64 b) : s'.finds k b = some i := by
  obtain ⟨huse, hle, -, -⟩ := finds_eq_some_iff.1 hf
  exact finds_eq_some_iff.2 ⟨fun hk => C.block_id_use ▸ huse hk, C.num ▸ hle, hat, hbefore⟩

theorem finds_of_same (h : ∀ i, (s'.files k i).block_id = (s.files k i).block_id) :
    s'.finds k b = s.finds k b := by
  refine Option.ext fun i => ?_
  rw [finds_eq_some_iff, finds_eq_some_iff, C.num, C.block_id_use, h]
  simp only [h]

/-- Nothing is found where nothing is searched. -/
theorem finds_of_unused (hk : k = .dataFile ∧ s.block_id_use = 0) :
    s'.finds k b = s.finds k b := by
  unfold Lfs.finds
  rw [C.block_id_use, if_pos hk, if_pos hk]

/-- The id of the file stored into entry `j`, behind the entry in which it is found. -/
theorem finds_noted_behind (hq : ∃ i ∈ s.finds k b, i ≤ j)
    (hfiles : ∀ i, (s'.files k i).block_id = if i = j then toU64 b else (s.files k i).block_id) :
    s'.finds k b = s.finds k b := by
  obtain ⟨i, hf, hij⟩ := hq
  obtain ⟨-, -, hid, hbefore⟩ := finds_eq_some_iff.1 hf
  rw [hf]
  refine C.finds_of_some hf ?_ fun l hl => ?_
  · rw [hfiles, hid, ite_self]
  · rw [hfiles, if_neg (by omega)]
    exact hbefore l hl

/-- The id of the file stored into entry `j`, before the entry in which it is found. -/
theorem finds_noted_before (huse : k = .dataFile → s.block_id_use ≠ 0) (hj : j ≤ s.num)
    (hq : ¬ ∃ i ∈ s.finds k b, i ≤ j)
    (hfiles : ∀ i, (s'.files k i).block_id = if i = j then toU64 b else (s.files k i).block_id) :
    s'.finds k b = some j := by
  refine finds_eq_some_iff.2 ⟨fun hk => C.block_id_use ▸ huse hk, C.num ▸ hj, ?_, fun l hl => ?_⟩
  · rw [hfiles, if_pos rfl]
  · rw [hfiles, if_neg hl.ne]
    cases hf : s.finds k b with
    | none => exact finds_eq_none hf huse l (hl.le.trans hj)
    | some i =>
      have hij : ¬ i ≤ j := fun hle => hq ⟨i, hf, hle⟩
      exact (finds_eq_some_iff.1 hf).2.2.2 l (by omega)

/-- Another id stored into an entry in which the file is not found. -/
theorem finds_noted_other (hv : v ≠ toU64 b) (hq : s.finds k b ≠ some j)
    (hfiles : ∀ i, (s'.files k i).block_id = if i = j then v else (s.files k i).block_id) :
    s'.finds k b = s.finds k b := by
  by_cases hk : k = .dataFile ∧ s.block_id_use = 0
  · exact C.finds_of_unused hk
  cases hf : s.finds k b with
  | none =>
    refine Option.eq_none_iff_forall_ne_some.2 fun i hf' => ?_
    obtain ⟨-, hle, hid, -⟩ := finds_eq_some_iff.1 hf'
    rw [hfiles] at hid
    split_ifs at hid
    · exact hv hid
    · exact finds_eq_none hf (fun h h' => hk ⟨h, h'⟩) i (C.num ▸ hle) hid
  | some i =>
    obtain ⟨-, -, hid, hbefore⟩ := finds_eq_some_iff.1 hf
    have hij : i ≠ j := fun h => hq (h ▸ hf)
    refine C.finds_of_some hf ?_ fun l hl => ?_
    · rw [hfiles, if_neg hij, hid]
    · rw [hfiles]
      split_ifs
      · exact hv
      · exact hbefore l hl

end SameCore

/-! ## Observers -/

theorem Outcome.sameCore (ho : Outcome s c r s')
    (hc : (∃ p, c = .getattr p) ∨ ∃ p, c = .readdir p) : SameCore s s' := by
  rcases hc with ⟨p, rfl⟩ | ⟨p, rfl⟩
  · cases ho with
    | getattrMiss => exact ⟨rfl, rfl, rfl, rfl, rfl⟩
    | @getattrHit _ k => cases k <;> exact ⟨rfl, rfl, rfl, rfl, rfl⟩
  · cases ho with
    | readdirOther => exact ⟨rfl, rfl, rfl, rfl, rfl⟩
    | readdirRoot => exact ⟨rfl, rfl, rfl, rfl, rfl⟩

/-- The id of the path stored into the entry of slot `j`. -/
theorem SameCore.noted_iff {k' : Kind} {b' : ℤ} (C : SameCore s s')
    (hp : parsePath path = some (k, b)) (hint : IsInt b') (hj : j < 2 ^ 31) (hle : j ≤ s.num)
    (hmark : diskBit s.fd.image j = true)
    (hfiles : ∀ k₁ i, (s'.files k₁ i).block_id =
      if k₁ = k' ∧ i = j then toU64 b' else (s.files k₁ i).block_id) :
    SameOpen s s' path ↔ ((k = .dataFile → s.block_id_use ≠ 0) → k' = k →
      (b' = b → ∃ i ∈ s.finds k b, i ≤ j) ∧ (b' ≠ b → s.finds k b ≠ some j)) := by
  by_cases hk : k' = k
  swap
  · refine iff_of_true (C.openView hp (C.finds_of_same fun i => ?_)) fun _ h => absurd h hk
    rw [hfiles, if_neg fun h => hk h.1.symm]
  subst hk
  have hfiles' : ∀ i, (s'.files k' i).block_id =
      if i = j then toU64 b' else (s.files k' i).block_id := by
    intro i; rw [hfiles]; simp
  by_cases huse : k' = .dataFile ∧ s.block_id_use = 0
  · exact iff_of_true (C.openView hp (C.finds_of_unused huse)) fun h => absurd huse.2 (h huse.1)
  have huse' : k' = .dataFile → s.block_id_use ≠ 0 := fun h h' => huse ⟨h, h'⟩
  by_cases hb : b' = b
  · subst hb
    by_cases hq : ∃ i ∈ s.finds k' b', i ≤ j
    · exact iff_of_true (C.openView hp (C.finds_noted_behind hq hfiles'))
        fun _ _ => ⟨fun _ => hq, fun h => absurd rfl h⟩
    · refine iff_of_false ?_ fun h => hq ((h huse' rfl).1 rfl)
      have hne : s.finds k' b' ≠ some j := fun hf => hq ⟨j, hf, le_rfl⟩
      exact (C.symm.openView_ne hp (C.finds_noted_before huse' hle hq hfiles') hne hj
        (C.image ▸ hmark)).symm
  · have hv : toU64 b' ≠ toU64 b := fun h => hb ((toU64_inj hint (parsePath_isInt hp)).1 h)
    by_cases hq : s.finds k' b = some j
    · refine iff_of_false ?_ fun h => (h huse' rfl).2 hb hq
      refine C.openView_ne hp hq (fun hf => hv ?_) hj hmark
      have hid := (finds_eq_some hf).2
      rwa [hfiles', if_pos rfl] at hid
    · exact iff_of_true (C.openView hp (C.finds_noted_other hv hq hfiles'))
        fun _ _ => ⟨fun h => absurd h hb, fun _ => hq⟩

/-- **When looking does not matter.**  `lfs_open` of a file gives the same handle, slot and
    bitmaps after a call of `lfs_getattr` or `lfs_readdir` exactly if the call is quiet for the
    file. -/
theorem observer_iff (hp : parsePath path = some (k, b))
    (hc : (∃ p, c = .getattr p) ∨ ∃ p, c = .readdir p)
    (hst : system.step s c = some (r, s')) : SameOpen s s' path ↔ QuietFor s k b c := by
  have ho := step_outcome hst
  have C := ho.sameCore hc
  rcases hc with ⟨p, rfl⟩ | ⟨p, rfl⟩
  · cases ho with
    | @getattrMiss _ k' b' off n len hp' hoff hn hlen hcov hl =>
      have hscan : scanSlot s b' = none := (scanSlot_eq hoff hn).trans hl
      refine iff_of_true (C.openView hp (C.finds_of_same fun _ => rfl)) fun _ x hx _ j hj => ?_
      cases hp'.symm.trans hx
      cases hscan.symm.trans hj
    | @getattrHit _ k' b' off n len j hp' hoff hn hlen hcov hl =>
      have hscan : scanSlot s b' = some j := (scanSlot_eq hoff hn).trans hl
      obtain ⟨⟨hjn, hmark⟩, -⟩ := lookup_eq_some.1 hl
      rw [C.noted_iff hp (parsePath_isInt hp') (hjn.trans (bitSize_lt hn))
        (hjn.le.trans (bitSize_le_num hn)) hmark fun k₁ i => ?_]
      · refine forall_congr' fun _ => ⟨fun h x hx hk j' hj' => ?_, fun h hk => ?_⟩
        · cases hp'.symm.trans hx
          cases hscan.symm.trans hj'
          exact h hk
        · exact h _ hp' hk j hscan
      · rw [files_setFile]
        split_ifs <;> rfl
  · refine iff_of_true (C.openView hp ?_) trivial
    cases ho with
    | readdirOther => rfl
    | @readdirRoot _ _ _ pData hoff hn hlen hcov hd =>
      refine C.finds_of_same fun i => ?_
      cases k with
      | metaFile => rfl
      | dataFile => exact (hd i).1

/-- What opening a file shows is the handle at least. -/
theorem SameOpen.handle (h : SameOpen s s' path) :
    (lfsOpen s' path).map Prod.fst = (lfsOpen s path).map Prod.fst := by
  have hfst := congrArg (Option.map Prod.fst) h
  unfold openView at hfst
  rwa [Option.map_map, Option.map_map] at hfst

/-- Looking at a meta file before its data file is opened again. -/
theorem observer_iff_meta : ∃ tr s r s',
    mountExec blankDevice Machine.anyStep [.open (dataPath 1), .release 6 noRecord] =
      some (tr, s) ∧
    system.step s (.getattr (metaPath 1 1001)) = some (r, s') ∧
    (SameOpen s s' (dataPath 1) ↔ QuietFor s .dataFile 1 (.getattr (metaPath 1 1001))) := by
  obtain ⟨tr, s, he, -, hst⟩ := Machine.exists_exec system Machine.anyStep (main blankDevice)
    [.open (dataPath 1), .release 6 noRecord]
    (fun _ s => (system.step s (.getattr (metaPath 1 1001))).isSome = true) (by decide +kernel)
  obtain ⟨⟨r, s'⟩, hst⟩ := Option.isSome_iff_exists.1 hst
  have hp : parsePath (dataPath 1) = some (.dataFile, 1) := by decide +kernel
  exact ⟨tr, s, r, s', he, hst, observer_iff hp (.inl ⟨_, rfl⟩) hst⟩

/-- The record of a slot is zero until its file is released, and `/` has the id 0: looking at `/`
    takes the entry of the file, and opening it again takes another slot. -/
theorem getattr_takes_entry : ∃ tr s r s',
    mountExec blankDevice Machine.anyStep [.open (dataPath 1)] = some (tr, s) ∧
    Mount blankDevice Machine.anyStep tr s ∧ system.step s (.getattr ['/']) = some (r, s') ∧
    (lfsOpen s (dataPath 1)).map Prod.fst = some 6 ∧
    (lfsOpen s' (dataPath 1)).map Prod.fst = some 7 ∧ ¬ SameOpen s s' (dataPath 1) := by
  obtain ⟨tr, s, he, hm, hopen, hst⟩ := Machine.exists_exec system Machine.anyStep
    (main blankDevice)
    [.open (dataPath 1)]
    (fun _ s => (lfsOpen s (dataPath 1)).map Prod.fst = some 6 ∧
      (system.step s (.getattr ['/'])).any (fun x =>
        decide ((lfsOpen x.2 (dataPath 1)).map Prod.fst = some 7)) = true) (by decide +kernel)
  obtain ⟨⟨r, s'⟩, hst, h⟩ := (Option.any_eq_true _ _).1 hst
  have hopen' : (lfsOpen s' (dataPath 1)).map Prod.fst = some 7 := of_decide_eq_true h
  refine ⟨tr, s, r, s', he, hm, hst, hopen, hopen', fun h => ?_⟩
  have hfst := h.handle
  rw [hopen, hopen'] at hfst
  cases hfst

end Rewrite
