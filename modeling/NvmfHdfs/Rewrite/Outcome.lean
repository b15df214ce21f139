/-
  What a call does, case by case.

  `Outcome s c r s'` lists the ways a call `c` can take the state `s` to `s'`
  with reply `r`, each with the facts the code has established on that path:

    - `getattrMiss`, `getattrHit`: the scan of the used slots for the id;
    - `readdirOther`, `readdirRoot`;
    - `openFound`: the file is in its table;
    - `openMeta`, `openData`: a slot is allocated, from the bitmap on the
      device or from the one in memory;
    - `read`, `write`, `release`.

  `step_outcome` is the inversion of `step`; the invariants are proved from it.
-/
import NvmfHdfs.Rewrite.Model

namespace Rewrite

open CInt Layout Bitmap Path Records

variable {s s' : Lfs} {m : Image} {path : List Char} {b : ℤ} {off n i : ℕ}

/-! ## Used slots and records -/

/-- The used slots among `n`, by the bitmap of an image. -/
def usedSlots (m : Image) (n : ℕ) : List ℕ := (List.range n).filter (diskBit m)

theorem mem_usedSlots : i ∈ usedSlots m n ↔ i < n ∧ diskBit m i = true := by
  simp [usedSlots]

/-- The first used slot whose record in the table at `off` names the block. -/
def lookup (m : Image) (off n : ℕ) (b : ℤ) : Option ℕ :=
  (usedSlots m n).find? fun i => (infoAt m off i).b_block_id == toU32 b

/-- The scan finds `i`: it is used, it names the block, and no used slot before does. -/
theorem lookup_eq_some : lookup m off n b = some i ↔
    (i < n ∧ diskBit m i = true) ∧ (infoAt m off i).b_block_id = toU32 b ∧
      ∀ j < i, diskBit m j = true → (infoAt m off j).b_block_id ≠ toU32 b := by
  rw [lookup, usedSlots, List.find?_filter, List.find?_range_eq_some]
  simp only [beq_iff_eq, List.mem_range, Bool.not_eq_true', decide_eq_true_eq,
    decide_eq_false_iff_not, not_and]
  tauto

theorem infoGet_slice {k : ℕ} {r : BlockInfo} (h : infoGet (m.slice off k) i = some r) :
    r = infoAt m off i := by
  unfold infoGet at h
  rw [Image.length_slice] at h
  split_ifs at h with hk
  rw [← Option.some.inj h, infoAt, Image.slice_slice]
  rw [Nat.add_mul] at hk; omega

theorem infoGet_slice_eq {k : ℕ} (h : (i + 1) * sizeofBlockInfo ≤ k) :
    infoGet (m.slice off k) i = some (infoAt m off i) := by
  rw [infoGet, Image.length_slice, if_pos h, infoAt, Image.slice_slice]
  rw [Nat.add_mul] at h; omega

/-- The scan of `lfs_getattrr` is a search in the list of used slots. -/
theorem findInfo_slice {k : ℕ} {l : List ℕ} {r : Option (ℕ × BlockInfo)}
    (h : findInfo (m.slice off k) b l = some r) :
    r = (l.find? fun i => (infoAt m off i).b_block_id == toU32 b).map
      fun i => (i, infoAt m off i) := by
  induction l with
  | nil => cases h; rfl
  | cons i l ih =>
    simp only [findInfo, Option.bind_eq_bind, Option.bind_eq_some_iff] at h
    obtain ⟨e, he, h⟩ := h
    rw [infoGet_slice he] at h
    rw [List.find?_cons]
    split_ifs at h with hid
    · rw [hid, beq_self_eq_true]; exact (Option.some.inj h).symm
    · rw [beq_false_of_ne hid]; exact ih h

/-- What `lfs_getattrr` and `lfs_readdir` have read, and where the descriptor is then. -/
theorem readUsed_eq_some {bi : List UInt8} {used : List ℕ} {fd : Descriptor}
    (h : readUsed s = some (bi, used, fd)) : ∃ off n len k,
      infoOffset s.dev_size s.block_size = some off ∧ s.bitSize = some n ∧
      readBitmapSize (toInt s.dev_size) (toInt s.block_size) = some len ∧
      bi = s.fd.image.slice off k ∧ used = usedSlots s.fd.image n ∧
      fd = ⟨s.fd.image, bitmapOffset + len⟩ ∧ ∀ j < n, j / 8 < len := by
  unfold readUsed at h
  obtain ⟨k, -, h⟩ := Option.bind_eq_some_iff.1 h
  obtain ⟨off, hoff, h⟩ := Option.bind_eq_some_iff.1 h
  obtain ⟨fd₁, h1, h⟩ := Option.bind_eq_some_iff.1 h
  obtain ⟨⟨bi', fd₂⟩, h2, h⟩ := Option.bind_eq_some_iff.1 h
  obtain ⟨⟨p, fd₃⟩, h3, h⟩ := Option.bind_eq_some_iff.1 h
  obtain ⟨n, hn, h⟩ := Option.bind_eq_some_iff.1 h
  obtain ⟨⟨l, u⟩, h4, h⟩ := Option.bind_eq_some_iff.1 h
  simp only [Option.some.injEq, Prod.mk.injEq] at h
  obtain ⟨rfl, rfl, rfl⟩ := h
  obtain ⟨-, rfl⟩ := Descriptor.lseek_eq_some.1 h1
  obtain ⟨-, rfl, rfl⟩ := Descriptor.read_eq_some.1 h2
  obtain ⟨len, hlen, rfl, rfl⟩ := readBitmap_eq_some h3
  obtain ⟨hl, hbits⟩ := bitmapUsedblockid_eq_some h4
  rw [Image.length_slice] at hbits
  refine ⟨off, n, len, k, hoff, hn, hlen, rfl, ?_, rfl, hbits⟩
  have hcast : Int.toNat ∘ (Nat.cast : ℕ → ℤ) = id := by funext j; simp
  rw [hl, List.map_map, hcast, List.map_id, usedSlots]
  exact List.filter_congr fun j hj => bit_slice (hbits j (List.mem_range.1 hj))

/-! ## The outcomes of a call -/

/-- The mode `lfs_getattrr` reports. -/
def modeOf (path : List Char) : ℕ := if path = ['/'] then modeDir else modeReg

/-- The name `lfs_readdir` lists for slot `i`. -/
def slotName (m : Image) (off i : ℕ) : List Char :=
  listName .dataFile (toInt (infoAt m off i).b_block_id)

/-- The ways a call takes a state to the next. -/
inductive Outcome (s : Lfs) : Call → Reply → Lfs → Prop
  | getattrMiss {path k b off n len} (hp : parsePath path = some (k, b))
      (hoff : infoOffset s.dev_size s.block_size = some off) (hn : s.bitSize = some n)
      (hlen : readBitmapSize (toInt s.dev_size) (toInt s.block_size) = some len)
      (hcov : ∀ j < n, j / 8 < len) (hl : lookup s.fd.image off n b = none) :
      Outcome s (.getattr path) (.attr ⟨modeOf path, 0⟩)
        { s with fd := ⟨s.fd.image, bitmapOffset + len⟩ }
  | getattrHit {path k b off n len i} (hp : parsePath path = some (k, b))
      (hoff : infoOffset s.dev_size s.block_size = some off) (hn : s.bitSize = some n)
      (hlen : readBitmapSize (toInt s.dev_size) (toInt s.block_size) = some len)
      (hcov : ∀ j < n, j / 8 < len) (hl : lookup s.fd.image off n b = some i) :
      Outcome s (.getattr path) (.attr ⟨modeOf path, toI64 (lengthOf (infoAt s.fd.image off i) k)⟩)
        (({ s with fd := ⟨s.fd.image, bitmapOffset + len⟩ } : Lfs).setFile k i
          ⟨toU64 b, lengthOf (infoAt s.fd.image off i) k, (s.files k i).name⟩)
  | readdirOther {path k b} (hp : parsePath path = some (k, b)) (h : path ≠ ['/']) :
      Outcome s (.readdir path) (.entries enoent []) s
  | readdirRoot {off n len pData}
      (hoff : infoOffset s.dev_size s.block_size = some off) (hn : s.bitSize = some n)
      (hlen : readBitmapSize (toInt s.dev_size) (toInt s.block_size) = some len)
      (hcov : ∀ j < n, j / 8 < len)
      (hd : ∀ j, (pData j).block_id = (s.pData j).block_id ∧ (pData j).size = (s.pData j).size) :
      Outcome s (.readdir ['/'])
        (.entries 0 (['.'] :: ['.', '.'] ::
          (usedSlots s.fd.image n).map (slotName s.fd.image off)))
        { s with fd := ⟨s.fd.image, bitmapOffset + len⟩, pData := pData }
  | openFound {path k b i} (hp : parsePath path = some (k, b))
      (hf : findFile (s.files k) s.num b = some (some i))
      (huse : k = .dataFile → s.block_id_use ≠ 0) :
      Outcome s (.open path) (.opened (s.handle k i))
        { s with pFd := Function.update s.pFd (s.handle k i) { s.pFd (s.handle k i) with
            fd := s.handle k i
            data_block_id := match k with | .metaFile => toU64 (-1) | .dataFile => i } }
  | openMeta {path b n len wlen i off v p} (hp : parsePath path = some (.metaFile, b))
      (hf : findFile s.pMeta s.num b = some none) (hn : s.bitSize = some n)
      (hlen : readBitmapSize (toInt s.dev_size) (toInt s.block_size) = some len)
      (hfree : firstFree (bit (s.fd.image.slice bitmapOffset len)) n = some i)
      (hoff : areaOffset s .metaFile i = some off)
      (hset : bitmapSet i (s.fd.image.slice bitmapOffset len) n = some (v, p))
      (hw : bitmapSize s.dev_size s.block_size = some wlen) (hwl : wlen ≤ p.length) :
      Outcome s (.open path) (.opened (s.handle .metaFile i))
        { s with
          fd := ⟨s.fd.image.patch bitmapOffset (p.take wlen), bitmapOffset + wlen⟩
          pMeta := Function.update s.pMeta i { s.pMeta i with block_id := toU64 b }
          pFd := Function.update s.pFd (s.handle .metaFile i)
            ⟨toU64 b, i, (s.pFd (s.handle .metaFile i)).size, off, s.handle .metaFile i, 0⟩ }
  | openData {path b n wlen i off v p} (hp : parsePath path = some (.dataFile, b))
      (hf : s.block_id_use = 0 ∨ findFile s.pData s.num b = some none) (hn : s.bitSize = some n)
      (hfree : firstFree (bit s.p_bitmap) n = some i)
      (hoff : areaOffset s .dataFile i = some off)
      (hset : bitmapSet i s.p_bitmap n = some (v, p))
      (hw : bitmapSize s.dev_size s.block_size = some wlen) (hwl : wlen ≤ p.length) :
      Outcome s (.open path) (.opened (s.handle .dataFile i))
        { s with
          fd := ⟨s.fd.image.patch bitmapOffset (p.take wlen), bitmapOffset + wlen⟩
          block_id_use := s.block_id_use + 1
          p_bitmap := p
          pData := Function.update s.pData i { s.pData i with block_id := toU64 b }
          pFd := Function.update s.pFd (s.handle .dataFile i)
            ⟨toU64 b, i, (s.pFd (s.handle .dataFile i)).size, off, s.handle .dataFile i, 1⟩ }
  | read {fh size offset fd} (hs : seekTo s (devOffset s fh offset) = some fd)
      (hr : fd.pos + size ≤ Descriptor.offMax) :
      Outcome s (.read fh size offset) (.bytes (toInt size) (fd.image.slice fd.pos size))
        { s with
          fd := ⟨fd.image, fd.pos + size⟩
          cur_offset := toU64 (devOffset s fh offset + size : ℕ) }
  | write {fh buf offset fd} (hs : seekTo s (devOffset s fh offset) = some fd)
      (hw : fd.pos + buf.length ≤ Descriptor.offMax) :
      Outcome s (.write fh buf offset) (.wrote (toInt buf.length))
        { s with
          fd := ⟨fd.image.patch fd.pos buf, fd.pos + buf.length⟩
          cur_offset := toU64 (devOffset s fh offset + buf.length : ℕ)
          pFd := Function.update s.pFd fh
            { s.pFd fh with size := toU64 ((s.pFd fh).size + buf.length : ℕ) } }
  | release {fh bi off} (ho : releaseOffset s fh = some off)
      (hw : off + sizeofBlockInfo ≤ Descriptor.offMax) :
      Outcome s (.release fh bi) .released
        { s with
          fd := ⟨s.fd.image.patch off (releaseInfo (s.pFd fh) bi).encode, off + sizeofBlockInfo⟩
          cur_offset := toU64 (off + sizeofBlockInfo : ℕ) }

/-! ## The inversion of a step -/

theorem Outcome.read_inv {fh size offset : ℕ} {r : Reply}
    (h : Outcome s (.read fh size offset) r s') : ∃ fd,
      seekTo s (devOffset s fh offset) = some fd ∧
      r = .bytes (toInt size) (fd.image.slice fd.pos size) ∧
      s' = { s with
        fd := ⟨fd.image, fd.pos + size⟩
        cur_offset := toU64 (devOffset s fh offset + size : ℕ) } := by
  cases h with
  | read hs _ => exact ⟨_, hs, rfl, rfl⟩

theorem Outcome.write_inv {fh offset : ℕ} {buf : List UInt8} {r : Reply}
    (h : Outcome s (.write fh buf offset) r s') : ∃ fd,
      seekTo s (devOffset s fh offset) = some fd ∧ r = .wrote (toInt buf.length) ∧
      s' = { s with
        fd := ⟨fd.image.patch fd.pos buf, fd.pos + buf.length⟩
        cur_offset := toU64 (devOffset s fh offset + buf.length : ℕ)
        pFd := Function.update s.pFd fh
          { s.pFd fh with size := toU64 ((s.pFd fh).size + buf.length : ℕ) } } := by
  cases h with
  | write hs _ => exact ⟨_, hs, rfl, rfl⟩

theorem getattr_outcome {st : Stat} (h : lfsGetattrr s path = some (st, s')) :
    Outcome s (.getattr path) (.attr st) s' := by
  unfold lfsGetattrr at h
  obtain ⟨⟨k, b⟩, hp, h⟩ := Option.bind_eq_some_iff.1 h
  obtain ⟨⟨bi, used, fd⟩, hu, h⟩ := Option.bind_eq_some_iff.1 h
  obtain ⟨r, hr, h⟩ := Option.bind_eq_some_iff.1 h
  obtain ⟨off, n, len, c, hoff, hn, hlen, rfl, rfl, rfl, hcov⟩ := readUsed_eq_some hu
  have hr' := findInfo_slice hr
  cases hl : lookup s.fd.image off n b with
  | none =>
    rw [lookup] at hl
    rw [hl] at hr'; subst hr'
    cases h; exact .getattrMiss hp hoff hn hlen hcov hl
  | some i =>
    have hl' := hl
    rw [lookup] at hl'
    rw [hl'] at hr'; subst hr'
    cases h
    have := Outcome.getattrHit (s := s) hp hoff hn hlen hcov hl
    cases k <;> exact this

/-- The names a listing loop passes to `filler`, and what printing any name preserves. -/
theorem nameLoop_eq_some {σ : Type} {put : ℕ → List Char → σ → σ} {t t' : σ} {k : ℕ} {l : List ℕ}
    {names : List (List Char)}
    (h : nameLoop put .dataFile (m.slice off k) l t = some (names, t')) :
    names = l.map (slotName m off) ∧
      ∀ P : σ → Prop, P t → (∀ i name u, P u → P (put i name u)) → P t' := by
  induction l generalizing t names with
  | nil => cases h; exact ⟨rfl, fun P hP _ => hP⟩
  | cons i l ih =>
    unfold nameLoop at h
    obtain ⟨r, hr, h⟩ := Option.bind_eq_some_iff.1 h
    have hname : slotName m off i = listName .dataFile (toInt r.b_block_id) := by
      rw [infoGet_slice hr]; rfl
    dsimp only at h
    split_ifs at h
    obtain ⟨⟨names', u⟩, h₁, h⟩ := Option.bind_eq_some_iff.1 h
    cases h
    obtain ⟨rfl, hkept⟩ := ih h₁
    exact ⟨by rw [List.map_cons, hname], fun P hP hput => hkept P (hput _ _ _ hP) hput⟩

/-- The listing loop changes names only. -/
theorem listLoop_eq_some {k : ℕ} {l : List ℕ} {names : List (List Char)}
    (h : listLoop .dataFile (m.slice off k) l s = some (names, s')) :
    names = l.map (slotName m off) ∧ ∃ pData, s' = { s with pData := pData } ∧
      ∀ j, (pData j).block_id = (s.pData j).block_id ∧ (pData j).size = (s.pData j).size := by
  obtain ⟨hnames, hkept⟩ := nameLoop_eq_some h
  refine ⟨hnames, hkept (fun u => ∃ pData, u = { s with pData := pData } ∧ ∀ j,
    (pData j).block_id = (s.pData j).block_id ∧ (pData j).size = (s.pData j).size) ?_ ?_⟩
  · exact ⟨s.pData, rfl, fun j => ⟨rfl, rfl⟩⟩
  rintro i name u ⟨pData, rfl, hd⟩
  refine ⟨_, rfl, fun j => ?_⟩
  rw [← (hd j).1, ← (hd j).2, Function.update_apply]
  split_ifs with hj
  · subst hj; exact ⟨rfl, rfl⟩
  · exact ⟨rfl, rfl⟩

theorem readdir_outcome {r : ℤ × List (List Char)} (h : lfsReaddir s path = some (r, s')) :
    Outcome s (.readdir path) (.entries r.1 r.2) s' := by
  unfold lfsReaddir at h
  obtain ⟨⟨k, b⟩, hp, h⟩ := Option.bind_eq_some_iff.1 h
  dsimp only at h
  split_ifs at h with hroot
  · cases h; exact .readdirOther hp hroot
  · obtain rfl : path = ['/'] := by simpa using hroot
    rw [parsePath_root] at hp; cases hp
    obtain ⟨⟨bi, used, fd⟩, hu, h⟩ := Option.bind_eq_some_iff.1 h
    obtain ⟨⟨names, s₁⟩, hl, h⟩ := Option.bind_eq_some_iff.1 h
    cases h
    obtain ⟨off, n, len, c, hoff, hn, hlen, rfl, rfl, rfl, hcov⟩ := readUsed_eq_some hu
    obtain ⟨rfl, pData, rfl, hd⟩ := listLoop_eq_some hl
    exact .readdirRoot hoff hn hlen hcov hd

theorem openMetaNew_outcome {fh : ℕ} (hp : parsePath path = some (.metaFile, b))
    (hf : findFile s.pMeta s.num b = some none) (h : openMetaNew s b = some (fh, s')) :
    Outcome s (.open path) (.opened fh) s' := by
  unfold openMetaNew at h
  obtain ⟨n, hn, h⟩ := Option.bind_eq_some_iff.1 h
  obtain ⟨⟨p, fd⟩, hr, h⟩ := Option.bind_eq_some_iff.1 h
  obtain ⟨l, ha, h⟩ := Option.bind_eq_some_iff.1 h
  obtain ⟨i, hi, h⟩ := Option.bind_eq_some_iff.1 h
  obtain ⟨off, hoff, h⟩ := Option.bind_eq_some_iff.1 h
  obtain ⟨⟨v, p'⟩, hset, h⟩ := Option.bind_eq_some_iff.1 h
  obtain ⟨wlen, hw, h⟩ := Option.bind_eq_some_iff.1 h
  obtain ⟨fd', hwr, h⟩ := Option.bind_eq_some_iff.1 h
  cases h
  obtain ⟨len, hlen, rfl, rfl⟩ := readBitmap_eq_some hr
  obtain ⟨hwl, rfl⟩ := writeBitmap_eq_some hwr
  exact .openMeta hp hf hn hlen (firstFree_of_head ha hi) hoff hset hw hwl

theorem openDataNew_outcome {fh : ℕ} (hp : parsePath path = some (.dataFile, b))
    (hf : s.block_id_use = 0 ∨ findFile s.pData s.num b = some none)
    (h : openDataNew s b = some (fh, s')) : Outcome s (.open path) (.opened fh) s' := by
  unfold openDataNew at h
  obtain ⟨n, hn, h⟩ := Option.bind_eq_some_iff.1 h
  obtain ⟨l, ha, h⟩ := Option.bind_eq_some_iff.1 h
  obtain ⟨i, hi, h⟩ := Option.bind_eq_some_iff.1 h
  obtain ⟨off, hoff, h⟩ := Option.bind_eq_some_iff.1 h
  obtain ⟨⟨v, p'⟩, hset, h⟩ := Option.bind_eq_some_iff.1 h
  obtain ⟨wlen, hw, h⟩ := Option.bind_eq_some_iff.1 h
  obtain ⟨fd', hwr, h⟩ := Option.bind_eq_some_iff.1 h
  cases h
  obtain ⟨hwl, rfl⟩ := writeBitmap_eq_some hwr
  exact .openData hp hf hn (firstFree_of_head ha hi) hoff hset hw hwl

theorem open_outcome {fh : ℕ} (h : lfsOpen s path = some (fh, s')) :
    Outcome s (.open path) (.opened fh) s' := by
  unfold lfsOpen at h
  obtain ⟨⟨k, b⟩, hp, h⟩ := Option.bind_eq_some_iff.1 h
  cases k with
  | metaFile =>
    obtain ⟨o, hf, h⟩ := Option.bind_eq_some_iff.1 h
    cases o with
    | some i => cases h; exact .openFound hp hf nofun
    | none => exact openMetaNew_outcome hp hf h
  | dataFile =>
    dsimp only at h
    split_ifs at h with huse
    · obtain ⟨o, hf, h⟩ := Option.bind_eq_some_iff.1 h
      cases o with
      | some i => cases h; exact .openFound hp hf fun _ => huse
      | none => exact openDataNew_outcome hp (.inr hf) h
    · obtain ⟨o, hf, h⟩ := Option.bind_eq_some_iff.1 h
      obtain rfl := Option.some.inj hf
      exact openDataNew_outcome hp (.inl (by simpa using huse)) h

theorem read_outcome {fh size offset : ℕ} {ret : ℤ} {buf : List UInt8}
    (h : lfsRead s fh size offset = some ((ret, buf), s')) :
    Outcome s (.read fh size offset) (.bytes ret buf) s' := by
  unfold lfsRead at h
  obtain ⟨fd, hs, h⟩ := Option.bind_eq_some_iff.1 h
  obtain ⟨⟨buf, fd'⟩, hr, h⟩ := Option.bind_eq_some_iff.1 h
  simp only [Option.some.injEq, Prod.mk.injEq] at h
  obtain ⟨⟨rfl, rfl⟩, rfl⟩ := h
  obtain ⟨hle, rfl, rfl⟩ := Descriptor.read_eq_some.1 hr
  exact .read hs hle

theorem write_outcome {fh offset : ℕ} {buf : List UInt8} {r : ℤ}
    (h : lfsWrite s fh buf offset = some (r, s')) :
    Outcome s (.write fh buf offset) (.wrote r) s' := by
  unfold lfsWrite at h
  obtain ⟨fd, hs, h⟩ := Option.bind_eq_some_iff.1 h
  obtain ⟨fd', hw, h⟩ := Option.bind_eq_some_iff.1 h
  simp only [Option.some.injEq, Prod.mk.injEq] at h
  obtain ⟨rfl, rfl⟩ := h
  obtain ⟨hle, rfl⟩ := Descriptor.write_eq_some.1 hw
  exact .write hs hle

theorem release_outcome {fh : ℕ} {bi : BlockInfo} (h : lfsRelease s fh bi = some s') :
    Outcome s (.release fh bi) .released s' := by
  unfold lfsRelease at h
  obtain ⟨off, ho, h⟩ := Option.bind_eq_some_iff.1 h
  obtain ⟨fd, hs, h⟩ := Option.bind_eq_some_iff.1 h
  obtain ⟨fd', hw, h⟩ := Option.bind_eq_some_iff.1 h
  obtain rfl := Option.some.inj h
  obtain ⟨-, rfl⟩ := Descriptor.lseek_eq_some.1 hs
  obtain ⟨hle, rfl⟩ := Descriptor.write_eq_some.1 hw
  rw [BlockInfo.length_encode] at hle ⊢
  exact .release ho hle

/-- **What a step can do.** -/
theorem step_outcome {c : Call} {r : Reply} (h : system.step s c = some (r, s')) :
    Outcome s c r s' := by
  change step s c = some (r, s') at h
  cases c <;> simp only [step, Option.map_eq_some_iff, Prod.mk.injEq, Prod.exists] at h
  case getattr => obtain ⟨_, _, h', rfl, rfl⟩ := h; exact getattr_outcome h'
  case readdir => obtain ⟨_, _, _, h', rfl, rfl⟩ := h; exact readdir_outcome h'
  case «open» => obtain ⟨_, _, h', rfl, rfl⟩ := h; exact open_outcome h'
  case read => obtain ⟨_, _, _, h', rfl, rfl⟩ := h; exact read_outcome h'
  case write => obtain ⟨_, _, h', rfl, rfl⟩ := h; exact write_outcome h'
  case release => obtain ⟨_, h', rfl, rfl⟩ := h; exact release_outcome h'

end Rewrite
