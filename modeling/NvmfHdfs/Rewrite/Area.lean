/-
  The areas of the files and the transfers on their handles.

  Slot `i` has `block_size` bytes from `DATA_OFFSET + i*block_size`: 2 MB for the
  meta file, the rest for the data file.  Nothing in `lfs_read` and `lfs_write`
  looks at the end of an area.

    - `owner`: the file a handle was last handed out to by an allocation;
    - `transfer_isolated_iff`: in every reachable state, a transfer on a handle
      stays clear of everything but the area of its owner exactly when it ends
      within the length of the area (and the areas start behind the metadata);
    - `transfer_not_isolated`: one byte behind the 2 MB of a meta file.
-/
import NvmfHdfs.Rewrite.Ownership

namespace Rewrite

open CInt Layout Bitmap Path Records

variable {s s' : Lfs} {image : Image} {c : Call} {r : Reply} {tr : Trace} {k : Kind}
  {fh i offset size : ℕ}

/-! ## Areas -/

/-- The length of the area of a file. -/
def areaLen (s : Lfs) : Kind → ℕ
  | .metaFile => 2 * mbSize
  | .dataFile => s.block_size - 2 * mbSize

/-- The addresses of the area of the file of kind `k` in slot `i`. -/
def InArea (s : Lfs) (k : Kind) (i a : ℕ) : Prop :=
  ∃ start ∈ areaOffset s k i, start ≤ a ∧ a < start + areaLen s k

/-- The addresses of the bitmap and of the `block_info` table. -/
def InMetadata (s : Lfs) (a : ℕ) : Prop :=
  (bitmapOffset ≤ a ∧ a < bitmapEnd s.num) ∨
    (s.infoOff ≤ a ∧ a < s.infoOff + s.num * sizeofBlockInfo)

/-- The end of the bitmap and of the `block_info` table. -/
def metadataEnd (s : Lfs) : ℕ :=
  max (bitmapEnd s.num) (s.infoOff + s.num * sizeofBlockInfo)

/-- Every byte of a transfer at `pFd[fh].dev_offset + offset` is in the area of the file,
    and in no other area, not in the bitmap and not in the `block_info` table. -/
def Isolated (s : Lfs) (k : Kind) (i fh offset size : ℕ) : Prop :=
  ∀ a, devOffset s fh offset ≤ a → a < devOffset s fh offset + size →
    InArea s k i a ∧ (∀ k' i', i' < s.num → (k', i') ≠ (k, i) → ¬ InArea s k' i' a) ∧
      ¬ InMetadata s a

/-- Where the area of kind `k` starts in its slot. -/
def areaShift : Kind → ℕ
  | .metaFile => 0
  | .dataFile => 2 * mbSize

/-- The start of an area: nothing overflows. -/
theorem areaOffset_eq_some {start : ℕ} (hbs : s.block_size < 2 ^ 32)
    (hmb : 2 * mbSize < s.block_size) (hi : i < s.num) :
    areaOffset s k i = some start ↔ ∃ off, dataOffset s.dev_size s.block_size = some off ∧
      start = off + i * s.block_size + areaShift k := by
  have hmul : (i + 1) * s.block_size ≤ s.num * s.block_size := Nat.mul_le_mul_right _ hi
  have hlt : s.num * s.block_size + 2 ^ 34 < 2 ^ 64 := slots_mul_lt hbs
  rw [Nat.succ_mul] at hmul
  rw [areaOffset, Option.bind_eq_bind, Option.bind_eq_some_iff]
  refine exists_congr fun off => and_congr_right fun hoff => ?_
  obtain ⟨-, -, -, -, hlt'⟩ := dataOffset_gt hoff
  cases k with
  | metaFile =>
    dsimp only [areaShift]
    rw [Option.some.injEq, toU64_of_lt (by omega), Nat.add_zero, eq_comm]
  | dataFile =>
    dsimp only [areaShift]
    rw [Option.some.injEq, toU64_of_lt (by omega), eq_comm]

/-- Areas lie in their slots. -/
theorem areaShift_add_len (hmb : 2 * mbSize < s.block_size) :
    areaShift k + areaLen s k ≤ s.block_size := by
  cases k <;> simp only [areaShift, areaLen] <;> omega

/-- Different areas have no byte in common. -/
theorem area_disjoint {k' : Kind} {i' a : ℕ} (hbs : s.block_size < 2 ^ 32)
    (hmb : 2 * mbSize < s.block_size) (hi : i < s.num) (hi' : i' < s.num)
    (hne : (k', i') ≠ (k, i)) (ha : InArea s k i a) : ¬ InArea s k' i' a := by
  rintro ⟨start', hst', h1', h2'⟩
  obtain ⟨start, hst, h1, h2⟩ := ha
  obtain ⟨off, hoff, rfl⟩ := (areaOffset_eq_some hbs hmb hi).1 hst
  obtain ⟨off', hoff', rfl⟩ := (areaOffset_eq_some hbs hmb hi').1 hst'
  obtain rfl := Option.some.inj (hoff.symm.trans hoff')
  have hl := areaShift_add_len (k := k) hmb
  have hl' := areaShift_add_len (k := k') hmb
  rcases Nat.lt_trichotomy i i' with h | rfl | h
  · have hmul : (i + 1) * s.block_size ≤ i' * s.block_size := Nat.mul_le_mul_right _ h
    rw [Nat.succ_mul] at hmul
    omega
  · -- one slot: the kinds differ
    cases k <;> cases k'
    · exact hne rfl
    · simp only [areaShift, areaLen] at *; omega
    · simp only [areaShift, areaLen] at *; omega
    · exact hne rfl
  · have hmul : (i' + 1) * s.block_size ≤ i * s.block_size := Nat.mul_le_mul_right _ h
    rw [Nat.succ_mul] at hmul
    omega

/-- **A transfer from the start of an area is isolated** exactly when it ends within the
    area and begins behind the metadata. -/
theorem isolated_iff (hbs : s.block_size < 2 ^ 32) (hmb : 2 * mbSize < s.block_size)
    (hi : i < s.num) (hst : areaOffset s k i = some (s.pFd fh).dev_offset)
    (hoff : offset < 2 ^ 63) : Isolated s k i fh offset size ↔
      size = 0 ∨ offset + size ≤ areaLen s k ∧
        metadataEnd s ≤ (s.pFd fh).dev_offset + offset := by
  obtain ⟨off, hdata, hstart⟩ := (areaOffset_eq_some hbs hmb hi).1 hst
  obtain ⟨info, hinfo, hi1, hi2, hlt'⟩ := dataOffset_gt hdata
  have hmul : (i + 1) * s.block_size ≤ s.num * s.block_size := Nat.mul_le_mul_right _ hi
  rw [Nat.succ_mul] at hmul
  have hlt : s.num * s.block_size + 2 ^ 34 < 2 ^ 64 := slots_mul_lt hbs
  have hlen := areaShift_add_len (k := k) hmb
  have hInfo : s.infoOff = info := by rw [Lfs.infoOff, hinfo, Option.getD_some]
  have hdev : devOffset s fh offset = ((s.pFd fh).dev_offset + offset) % 2 ^ 64 := by
    rw [devOffset, toU64_natCast]
  constructor
  · intro h
    rcases Nat.eq_zero_or_pos size with h0 | hpos
    · exact .inl h0
    right
    -- the first byte shows that nothing wraps, the last one that the area is not left
    obtain ⟨⟨st₁, hst₁, h1, -⟩, -, hmeta⟩ := h _ le_rfl (by omega)
    obtain ⟨⟨st₂, hst₂, -, h2⟩, -, -⟩ :=
      h (devOffset s fh offset + size - 1) (by omega) (by omega)
    obtain rfl := Option.some.inj (hst.symm.trans hst₁)
    obtain rfl := Option.some.inj (hst.symm.trans hst₂)
    have hnw : devOffset s fh offset = (s.pFd fh).dev_offset + offset := by omega
    refine ⟨by omega, ?_⟩
    unfold InMetadata at hmeta
    unfold metadataEnd
    rw [hnw, hInfo] at hmeta
    rw [hInfo]; omega
  · rintro (rfl | ⟨hend, hbegin⟩) a h1 h2
    · omega
    have hnw : devOffset s fh offset = (s.pFd fh).dev_offset + offset := by omega
    have hin : InArea s k i a := ⟨_, hst, by omega, by omega⟩
    refine ⟨hin, fun k' i' hi' hne => area_disjoint hbs hmb hi hi' hne hin, ?_⟩
    unfold metadataEnd at hbegin
    unfold InMetadata; omega

/-! ## Owners of handles -/

/-- The file to which a step gives a new slot, and the handle. -/
def allocatedBy (e : Machine.Event Lfs Call Reply) : Option (Kind × ℕ × ℕ) :=
  match e.input, e.output with
  | .open path, .opened fh => (parsePath path).bind fun x =>
      if (e.pre.finds x.1 x.2).isSome then none else some (x.1, slotOf e.pre x.1 fh, fh)
  | _, _ => none

/-- The file (kind and slot) that last got the handle by an allocation. -/
def owner (tr : Trace) (fh : ℕ) : Option (Kind × ℕ) :=
  ((tr.filterMap allocatedBy).find? fun x => x.2.2 == fh).map fun x => (x.1, x.2.1)

theorem owner_cons_none {e : Machine.Event Lfs Call Reply} (h : allocatedBy e = none) :
    owner (e :: tr) fh = owner tr fh := by
  rw [owner, owner, List.filterMap_cons_none h]

theorem owner_cons_some {e : Machine.Event Lfs Call Reply} {fh' : ℕ}
    (h : allocatedBy e = some (k, i, fh')) :
    owner (e :: tr) fh = if fh' = fh then some (k, i) else owner tr fh := by
  rw [owner, owner, List.filterMap_cons_some h, List.find?_cons]
  by_cases hf : fh' = fh
  · simp [hf]
  · simp [hf, beq_false_of_ne hf]

/-- The invariant: the handle of an owner is at the start of its area. -/
def AreaInv (tr : Trace) (s : Lfs) : Prop :=
  ∀ fh k i, owner tr fh = some (k, i) →
    i < s.num ∧ areaOffset s k i = some (s.pFd fh).dev_offset

theorem areaOffset_congr (hd : s'.dev_size = s.dev_size) (hb : s'.block_size = s.block_size) :
    areaOffset s' k i = areaOffset s k i := by
  rw [areaOffset, areaOffset, hd, hb]

/-- Steps that allocate nothing keep the invariant if they keep the offsets. -/
theorem AreaInv.keep (H : AreaInv tr s) (ho : Outcome s c r s')
    (ha : allocatedBy ⟨s, c, r⟩ = none)
    (hfd : ∀ fh, (s'.pFd fh).dev_offset = (s.pFd fh).dev_offset) :
    AreaInv (⟨s, c, r⟩ :: tr) s' := by
  intro fh k i hown
  rw [owner_cons_none ha] at hown
  rw [hfd, ho.num, areaOffset_congr ho.dev_size ho.block_size]
  exact H fh k i hown

theorem allocatedBy_new {path : List Char} {b : ℤ} (hp : parsePath path = some (k, b))
    (hf : s.finds k b = none) :
    allocatedBy ⟨s, .open path, .opened (s.handle k i)⟩ = some (k, i, s.handle k i) := by
  unfold allocatedBy; dsimp only
  rw [hp, Option.bind_some, if_neg (by rw [hf]; simp), slotOf_handle]

/-- An allocation gives its handle the start of the area. -/
theorem AreaInv.alloc {path : List Char} {b : ℤ} {off : ℕ} {e : FileFd} (H : AreaInv tr s)
    (ho : Outcome s (.open path) (.opened (s.handle k i)) s')
    (hp : parsePath path = some (k, b)) (hf : s.finds k b = none) (hi : i < s.num)
    (hoff : areaOffset s k i = some off) (he : e.dev_offset = off)
    (hfd : s'.pFd = Function.update s.pFd (s.handle k i) e) :
    AreaInv (⟨s, .open path, .opened (s.handle k i)⟩ :: tr) s' := by
  intro fh k' i' hown
  rw [owner_cons_some (allocatedBy_new hp hf)] at hown
  rw [ho.num, areaOffset_congr ho.dev_size ho.block_size, hfd, Function.update_apply]
  by_cases hfh : s.handle k i = fh
  · rw [if_pos hfh] at hown
    cases hown
    rw [if_pos hfh.symm, he]
    exact ⟨hi, hoff⟩
  · rw [if_neg hfh] at hown
    rw [if_neg (Ne.symm hfh)]
    exact H fh k' i' hown

theorem AreaInv.step (H : AreaInv tr s) (ho : Outcome s c r s') :
    AreaInv (⟨s, c, r⟩ :: tr) s' := by
  have hkeep := H.keep ho
  cases ho with
  | getattrMiss => exact hkeep rfl fun _ => rfl
  | @getattrHit _ k _ _ _ _ _ _ _ _ _ _ => exact hkeep rfl fun _ => by cases k <;> rfl
  | readdirOther => exact hkeep rfl fun _ => rfl
  | readdirRoot => exact hkeep rfl fun _ => rfl
  | read => exact hkeep rfl fun _ => rfl
  | release => exact hkeep rfl fun _ => rfl
  | write => exact hkeep rfl (update_keeps FileFd.dev_offset rfl)
  | openFound hp hf huse =>
    refine hkeep ?_ (update_keeps FileFd.dev_offset rfl)
    unfold allocatedBy; dsimp only
    rw [hp, Option.bind_some, if_pos (by rw [finds_of_found hf huse]; rfl)]
  | openMeta hp hf hn hlen hfree hoff hset hw hwl =>
    have hi := slot_lt_num hn hfree
    exact H.alloc (.openMeta hp hf hn hlen hfree hoff hset hw hwl) hp (finds_of_meta hf) hi hoff
      rfl rfl
  | openData hp hf hn hfree hoff hset hw hwl =>
    have hi := slot_lt_num hn hfree
    exact H.alloc (.openData hp hf hn hfree hoff hset hw hwl) hp (finds_of_data hf) hi hoff
      rfl rfl

/-- The invariant holds after every run. -/
theorem areaInv_run {ok : Machine.Guard Lfs Call Reply} (h : Mount image ok tr s) :
    AreaInv tr s := by
  obtain ⟨s₀, -, hr⟩ := h
  refine hr.invariant AreaInv (fun _ _ _ hown => nomatch hown) ?_
  intro tr s c r s' ih _ hst
  exact ih.step (step_outcome hst)

/-- **When transfers are isolated.**  In every reachable state of every mount, a transfer on
    a handle touches its owner's area and nothing else exactly when it is empty, or ends
    within the length of the area and begins behind the metadata. -/
theorem transfer_isolated_iff (hmb : 2 * mbSize < (superBlock image).s_block_size)
    (h : Mount image Machine.anyStep tr s) (hown : owner tr fh = some (k, i))
    (hoff : offset < 2 ^ 63) : Isolated s k i fh offset size ↔
      size = 0 ∨ offset + size ≤ areaLen s k ∧
        metadataEnd s ≤ (s.pFd fh).dev_offset + offset := by
  obtain ⟨hi, hst⟩ := areaInv_run h fh k i hown
  have hb := h.sizes.2
  refine isolated_iff ?_ ?_ hi hst hoff
  · rw [hb]; exact SuperBlock.s_block_size_lt _
  · rw [hb]; exact hmb

/-- On a small device every area starts behind the metadata. -/
theorem metadataEnd_le {start : ℕ} (G : Geometry s.dev_size s.block_size)
    (hmb : 2 * mbSize < s.block_size) (hi : i < s.num) (hst : areaOffset s k i = some start) :
    metadataEnd s ≤ start := by
  have hslot := G.slot
  have hsmall := G.small
  obtain ⟨off, hoff, rfl⟩ := (areaOffset_eq_some (by omega) hmb hi).1 hst
  obtain rfl := Option.some.inj (G.dataOffset_eq.symm.trans hoff)
  have hinfo : s.infoOff = infoStart s.num := by
    rw [Lfs.infoOff, G.infoOffset_eq, Option.getD_some, Lfs.num]
  have h1 := bitmap_before_info s.num
  have h2 := info_before_extra s.num
  have h3 := extra_before_data s.num
  have h4 : bitmapEnd s.num ≤ bitmapOffset + bitmapBytes s.num := by
    unfold bitmapEnd bitmapBytes; omega
  unfold metadataEnd
  rw [hinfo]
  rw [Lfs.num] at *
  omega

/-- The first bytes of a meta file. -/
theorem transfer_isolated_iff_first : ∃ tr s,
    mountExec blankDevice Machine.anyStep [.open (metaPath 1 1001)] = some (tr, s) ∧
      (Isolated s .metaFile 0 3 0 10 ↔ 10 = 0 ∨ 0 + 10 ≤ areaLen s .metaFile ∧
        metadataEnd s ≤ (s.pFd 3).dev_offset + 0) := by
  obtain ⟨tr, s, he, hm, hown⟩ := Machine.exists_exec system Machine.anyStep (main blankDevice)
    [.open (metaPath 1 1001)] (fun tr _ => owner tr 3 = some (.metaFile, 0)) (by decide +kernel)
  exact ⟨tr, s, he, transfer_isolated_iff (by decide +kernel) hm hown (by norm_num)⟩

/-- A byte behind the 2 MB of a meta file: the write is done, in the area of the data file. -/
theorem transfer_not_isolated : ∃ tr s,
    mountExec blankDevice Machine.anyStep [.open (metaPath 1 1001)] = some (tr, s) ∧
      Mount blankDevice Machine.anyStep tr s ∧ owner tr 3 = some (.metaFile, 0) ∧
      (system.step s (.write 3 [7] (2 * mbSize))).isSome = true ∧
      ¬ Isolated s .metaFile 0 3 (2 * mbSize) 1 := by
  obtain ⟨tr, s, he, hm, hown, hdone⟩ := Machine.exists_exec system Machine.anyStep
    (main blankDevice)
    [.open (metaPath 1 1001)] (fun tr s => owner tr 3 = some (.metaFile, 0) ∧
      (system.step s (.write 3 [7] (2 * mbSize))).isSome = true) (by decide +kernel)
  refine ⟨tr, s, he, hm, hown, hdone, ?_⟩
  obtain ⟨hi, hst⟩ := areaInv_run hm 3 .metaFile 0 hown
  have hbs : s.block_size = 2 ^ 27 := by rw [(Mount.sizes hm).2]; decide +kernel
  rw [isolated_iff (by rw [hbs]; norm_num) (by rw [hbs]; decide) hi hst (by decide)]
  rintro (h | ⟨h, -⟩)
  · cases h
  · exact absurd h (by rw [areaLen]; omega)

end Rewrite
