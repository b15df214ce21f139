/-
  Runs of a mount, and what every state of a mount has in common.

    - `Mount image ok tr s`: `main` mounts the device `image`, and the calls `tr`
      (newest first), each meeting `ok`, lead to the state `s`;
    - `openSlot`, `Outcome.opened`: the slot a file gets when it is opened, and what its
      handle holds;
    - `Sound`: the bitmap is read and written with the length it has in memory.  In
      a sound state an allocation is described by the bits alone
      (`Sound.metaSlot`, `Sound.dataSlot`);
    - `stores`: where a call stores bytes in the device.
-/
import NvmfHdfs.Geometry
import NvmfHdfs.Rewrite.Outcome

namespace Rewrite

open CInt Layout Bitmap Path Records

variable {s s' s₀ : Lfs} {m image : Image} {c : Call} {r : Reply}

/-! ## Mounting -/

/-- The state `main` builds. -/
def mounted (image : Image) (sb : SuperBlock) (len : ℕ) : Lfs where
  fd := ⟨image, bitmapOffset + len⟩
  cur_offset := 0
  dev_size := sb.s_dev_size
  block_size := sb.s_block_size
  block_id_use := 0
  p_bitmap := image.slice bitmapOffset len
  pMeta := fun _ => ⟨0, 0, []⟩
  pData := fun _ => ⟨0, 0, []⟩
  pFd := fun _ => ⟨0, 0, 0, 0, 0, 0⟩

/-- The superblock of a device. -/
def superBlock (image : Image) : SuperBlock := SuperBlock.decode (image.slice 0 sizeofSuperBlock)

theorem superBlock_congr (h : ∀ a < bitmapOffset, m a = image a) :
    superBlock m = superBlock image := by
  rw [superBlock, superBlock, Image.slice_congr fun a _ ha => h a ?_]
  unfold bitmapOffset
  omega

theorem main_eq_some (h : main image = some s) : ∃ len,
    readBitmapSize (toInt (superBlock image).s_dev_size) (toInt (superBlock image).s_block_size) =
      some len ∧ s = mounted image (superBlock image) len := by
  rw [main] at h
  obtain ⟨⟨bs, fd⟩, h1, h⟩ := Option.bind_eq_some_iff.1 h
  obtain ⟨-, hbs, rfl⟩ := Descriptor.read_eq_some.1 h1
  have hsb : SuperBlock.decode bs = superBlock image := by rw [hbs, superBlock]
  dsimp only at h
  rw [hsb] at h
  split_ifs at h with hmagic
  obtain ⟨⟨p, fd⟩, h2, h⟩ := Option.bind_eq_some_iff.1 h
  obtain ⟨len, hlen, rfl, rfl⟩ := readBitmap_eq_some h2
  exact ⟨len, hlen, (Option.some.inj h).symm⟩

/-- The sizes are those of the superblock. -/
theorem main_sizes (h : main image = some s) : s.dev_size = (superBlock image).s_dev_size ∧
    s.block_size = (superBlock image).s_block_size := by
  obtain ⟨len, -, h₀⟩ := main_eq_some h
  constructor
  · rw [h₀, mounted]
  · rw [h₀, mounted]

/-- A run of a mount of a device. -/
def Mount (image : Image) (ok : Machine.Guard Lfs Call Reply)
    (tr : List (Machine.Event Lfs Call Reply)) (s : Lfs) : Prop :=
  ∃ s₀, main image = some s₀ ∧ system.Run ok s₀ tr s

/-- The events of a run of a mount. -/
abbrev Trace := List (Machine.Event Lfs Call Reply)

instance (tr : Trace) (s : Lfs) (c : Call) : Decidable (Machine.anyStep tr s c) :=
  .isTrue trivial

/-- Mounting a device and making the given calls. -/
def mountExec (image : Image) (ok : Machine.Guard Lfs Call Reply)
    [∀ tr s c, Decidable (ok tr s c)] (cs : List Call) : Option (Trace × Lfs) :=
  Machine.execFrom system ok (main image) cs

/-- A device with an empty bitmap: four slots of 128 MB. -/
def blankDevice : Image :=
  Image.patch (fun _ => 0) 0 (SuperBlock.encode ⟨mkSuperMagic, 2 ^ 27, 640000000⟩)

/-- The local record of `lfs_release` when the stack is zero. -/
def noRecord : BlockInfo := ⟨0, 0, 0, 0, 0, 0⟩

/-- A field that an assignment to one handle keeps is kept for every handle. -/
theorem update_keeps {α : Type} {f : ℕ → FileFd} {e : FileFd} {i : ℕ} (g : FileFd → α)
    (h : g e = g (f i)) (j : ℕ) : g (Function.update f i e j) = g (f j) := by
  rw [Function.update_apply]
  split_ifs with hj
  · rw [h, hj]
  · rfl

/-! ## What no call changes -/

theorem Outcome.dev_size (h : Outcome s c r s') : s'.dev_size = s.dev_size := by
  cases h <;> try rfl
  case getattrHit k _ _ _ _ _ _ _ _ _ _ _ => cases k <;> rfl

theorem Outcome.block_size (h : Outcome s c r s') : s'.block_size = s.block_size := by
  cases h <;> try rfl
  case getattrHit k _ _ _ _ _ _ _ _ _ _ _ => cases k <;> rfl

theorem Outcome.num (h : Outcome s c r s') : s'.num = s.num := by
  rw [Lfs.num, Lfs.num, h.dev_size, h.block_size]

theorem Outcome.handle (h : Outcome s c r s') (k : Kind) (i : ℕ) :
    s'.handle k i = s.handle k i := by
  cases k <;> simp only [Lfs.handle, h.num]

/-- A run of a mount keeps the sizes of the superblock. -/
theorem Mount.sizes {ok : Machine.Guard Lfs Call Reply} {tr : Trace} (h : Mount image ok tr s) :
    s.dev_size = (superBlock image).s_dev_size ∧
      s.block_size = (superBlock image).s_block_size := by
  obtain ⟨s₀, hm, hr⟩ := h
  obtain ⟨hd, hb⟩ := main_sizes hm
  rw [← hd, ← hb]
  refine hr.invariant_state (fun s => s.dev_size = s₀.dev_size ∧ s.block_size = s₀.block_size)
    ⟨rfl, rfl⟩ ?_
  intro tr s i o s' ih _ hst
  have ho := step_outcome hst
  exact ⟨ho.dev_size.trans ih.1, ho.block_size.trans ih.2⟩

theorem Mount.num {ok : Machine.Guard Lfs Call Reply} {tr : Trace} (h : Mount image ok tr s) :
    s.num = blockNum (superBlock image).s_dev_size (superBlock image).s_block_size := by
  rw [Lfs.num, h.sizes.1, h.sizes.2]

theorem Mount.mono {ok ok' : Machine.Guard Lfs Call Reply} {tr : Trace} (h : Mount image ok tr s)
    (himp : ∀ {tr s c}, ok tr s c → ok' tr s c) : Mount image ok' tr s := by
  obtain ⟨s₀, hm, hr⟩ := h
  exact ⟨s₀, hm, hr.mono himp⟩

theorem Mount.snoc {ok : Machine.Guard Lfs Call Reply} {tr : Trace} (h : Mount image ok tr s)
    (hok : ok tr s c) (hst : system.step s c = some (r, s')) :
    Mount image ok (⟨s, c, r⟩ :: tr) s' := by
  obtain ⟨s₀, hm, hr⟩ := h
  exact ⟨s₀, hm, .snoc hr hok hst⟩

theorem Mount.geometry {ok : Machine.Guard Lfs Call Reply} {tr : Trace} (h : Mount image ok tr s)
    (G : Geometry (superBlock image).s_dev_size (superBlock image).s_block_size) :
    Geometry s.dev_size s.block_size := by
  rw [h.sizes.1, h.sizes.2]; exact G

/-! ## The lookup of `lfs_open` -/

/-- The slot in which `lfs_open` finds a file, if it does. -/
def Lfs.finds (s : Lfs) (k : Kind) (b : ℤ) : Option ℕ :=
  if k = .dataFile ∧ s.block_id_use = 0 then none
  else (List.range (s.num + 1)).find? fun i => (s.files k i).block_id == toU64 b

theorem findFile_eq {tab : ℕ → FileEntry} {n : ℕ} {b : ℤ} {o : Option ℕ}
    (h : findFile tab n b = some o) :
    (List.range (n + 1)).find? (fun i => (tab i).block_id == toU64 b) = o := by
  unfold findFile at h
  split at h <;> split_ifs at h <;> rename_i hf _ <;> rw [hf] <;> exact Option.some.inj h

theorem finds_eq_some {k : Kind} {b : ℤ} {i : ℕ} (h : s.finds k b = some i) :
    i ≤ s.num ∧ (s.files k i).block_id = toU64 b := by
  unfold Lfs.finds at h
  split_ifs at h
  rw [List.find?_range_eq_some] at h
  exact ⟨Nat.lt_succ_iff.1 (List.mem_range.1 h.2.1), by simpa using h.1⟩

/-- A file that is not found is not in its table, unless the table is not searched. -/
theorem finds_eq_none {k : Kind} {b : ℤ} (h : s.finds k b = none)
    (hk : k = .dataFile → s.block_id_use ≠ 0) : ∀ i ≤ s.num, (s.files k i).block_id ≠ toU64 b := by
  unfold Lfs.finds at h
  rw [if_neg (fun hc => hk hc.1 hc.2), List.find?_range_eq_none] at h
  intro i hi
  simpa using h i (by omega)

theorem finds_of_found {k : Kind} {b : ℤ} {i : ℕ}
    (hf : findFile (s.files k) s.num b = some (some i))
    (huse : k = .dataFile → s.block_id_use ≠ 0) : s.finds k b = some i := by
  rw [Lfs.finds, if_neg (fun hc => huse hc.1 hc.2), findFile_eq hf]

theorem finds_of_meta {b : ℤ} (hf : findFile s.pMeta s.num b = some none) :
    s.finds .metaFile b = none := by
  rw [Lfs.finds, if_neg (by simp)]; exact findFile_eq hf

theorem finds_of_data {b : ℤ} (hf : s.block_id_use = 0 ∨ findFile s.pData s.num b = some none) :
    s.finds .dataFile b = none := by
  unfold Lfs.finds
  split_ifs with h
  · rfl
  · exact findFile_eq (hf.resolve_left fun h0 => h ⟨rfl, h0⟩)

/-! ## The slot of a file that is opened -/

/-- The bits a kind of files takes its slots from. -/
def Lfs.marks (s : Lfs) : Kind → ℕ → Bool
  | .metaFile => diskBit s.fd.image
  | .dataFile => bit s.p_bitmap

/-- The slot the next new file of a kind gets. -/
def newSlot (s : Lfs) (k : Kind) : Option ℕ := s.bitSize.bind (firstFree (s.marks k))

/-- The slot a file gets when it is opened: the one it is found in, or a new one. -/
def openSlot (s : Lfs) (k : Kind) (b : ℤ) : Option ℕ := (s.finds k b).or (newSlot s k)

theorem newSlot_meta {len n i : ℕ} {v : UInt8} {p : List UInt8} (hn : s.bitSize = some n)
    (hfree : firstFree (bit (s.fd.image.slice bitmapOffset len)) n = some i)
    (hset : bitmapSet i (s.fd.image.slice bitmapOffset len) n = some (v, p)) :
    newSlot s .metaFile = some i := by
  obtain ⟨hi, -, hbefore⟩ := firstFree_eq_some.1 hfree
  obtain ⟨-, hi8, hclear⟩ := clear_of_firstFree hfree hset
  rw [newSlot, hn, Option.bind_some, firstFree_eq_some]
  exact ⟨hi, hclear, fun j hj => (bit_slice (by omega)).symm.trans (hbefore j hj)⟩

theorem newSlot_data {n i : ℕ} (hn : s.bitSize = some n)
    (hfree : firstFree (bit s.p_bitmap) n = some i) : newSlot s .dataFile = some i := by
  rw [newSlot, hn]; exact hfree

/-- **The handle of an open** is that of the slot, and it holds the slot unless the file is a
    meta file that was found; no other handle changes. -/
theorem Outcome.opened {path : List Char} {fh : ℕ} {k : Kind} {b : ℤ}
    (h : Outcome s (.open path) (.opened fh) s') (hp : parsePath path = some (k, b)) :
    ∃ i, openSlot s k b = some i ∧ fh = s.handle k i ∧
      ((k = .metaFile → s.finds k b = none) → (s'.pFd fh).data_block_id = i) ∧
      ∀ fh' ≠ fh, s'.pFd fh' = s.pFd fh' := by
  cases h with
  | @openFound _ k' _ i hp' hf huse =>
    cases hp.symm.trans hp'
    have hf' := finds_of_found hf huse
    refine ⟨i, by rw [openSlot, hf', Option.some_or], rfl, fun hnew => ?_, fun fh' hne => ?_⟩
    · cases k with
      | metaFile => cases hf'.symm.trans (hnew rfl)
      | dataFile => dsimp only; rw [Function.update_self]
    · dsimp only; rw [Function.update_of_ne hne]
  | @openMeta _ b' _ _ _ i _ _ _ hp' hf hn hlen hfree hoff hset =>
    cases hp.symm.trans hp'
    refine ⟨i, ?_, rfl, fun _ => ?_, fun fh' hne => ?_⟩
    · rw [openSlot, finds_of_meta hf, Option.none_or]; exact newSlot_meta hn hfree hset
    · dsimp only; rw [Function.update_self]
    · dsimp only; rw [Function.update_of_ne hne]
  | @openData _ b' _ _ i _ _ _ hp' hf hn hfree =>
    cases hp.symm.trans hp'
    refine ⟨i, ?_, rfl, fun _ => ?_, fun fh' hne => ?_⟩
    · rw [openSlot, finds_of_data hf, Option.none_or]; exact newSlot_data hn hfree
    · dsimp only; rw [Function.update_self]
    · dsimp only; rw [Function.update_of_ne hne]

/-- Only an open gives a handle a slot. -/
theorem Outcome.data_block_id (h : Outcome s c r s') (hc : ∀ path, c ≠ .open path) (fh : ℕ) :
    (s'.pFd fh).data_block_id = (s.pFd fh).data_block_id := by
  cases h <;> try rfl
  case getattrHit k _ _ _ _ _ _ _ _ _ _ _ => cases k <;> rfl
  case openFound => exact absurd rfl (hc _)
  case openMeta => exact absurd rfl (hc _)
  case openData => exact absurd rfl (hc _)
  case write => exact update_keeps FileFd.data_block_id (by rfl) fh

/-! ## Sound states -/

/-- The slots the bitmap in memory shows. -/
@[irreducible] def Lfs.count (s : Lfs) : ℕ := min (s.bitSize.getD 0) (8 * s.p_bitmap.length)

/-- `INFO_OFFSET(dev_size,block_size)`. -/
@[irreducible] def Lfs.infoOff (s : Lfs) : ℕ := (infoOffset s.dev_size s.block_size).getD 0

/-- The bitmap is read and written with the length it has in memory. -/
structure Sound (s : Lfs) : Prop where
  read : readBitmapSize (toInt s.dev_size) (toInt s.block_size) = some s.p_bitmap.length
  write : bitmapSize s.dev_size s.block_size = some s.p_bitmap.length

theorem bitSize_le_num {n : ℕ} (h : s.bitSize = some n) : n ≤ s.num := by
  have hle := toInt_le s.num
  unfold Lfs.bitSize at h
  split_ifs at h with hp
  rw [← Option.some.inj h]; omega

theorem bitSize_lt {n : ℕ} (h : s.bitSize = some n) : n < 2 ^ 31 := by
  have hlt := (isInt_toInt (s.num : ℤ)).2
  unfold Lfs.bitSize at h
  split_ifs at h with hp
  rw [← Option.some.inj h]; omega

theorem slot_lt_num {n i : ℕ} {clear : ℕ → Bool} (hn : s.bitSize = some n)
    (h : firstFree clear n = some i) : i < s.num :=
  (firstFree_eq_some.1 h).1.trans_le (bitSize_le_num hn)

theorem count_le_num (s : Lfs) : s.count ≤ s.num := by
  rw [Lfs.count]
  refine (min_le_left _ _).trans ?_
  cases h : s.bitSize with
  | none => exact Nat.zero_le _
  | some n => exact bitSize_le_num h

namespace Sound
variable (S : Sound s)
include S

theorem count_of_cover {n len : ℕ} (hn : s.bitSize = some n)
    (hlen : readBitmapSize (toInt s.dev_size) (toInt s.block_size) = some len)
    (hcov : ∀ j < n, j / 8 < len) : n = s.count := by
  obtain rfl := Option.some.inj (S.read.symm.trans hlen)
  rw [Lfs.count, hn, Option.getD_some, min_eq_left]
  rcases Nat.eq_zero_or_pos n with rfl | hpos
  · exact Nat.zero_le _
  · have := hcov (n - 1) (by omega)
    omega

/-- On a small device the bitmap shows every slot. -/
theorem count_eq (G : Geometry s.dev_size s.block_size) : s.count = s.num := by
  have h : s.num < 520105 := G.blockNum_lt
  have hi : toInt s.num = s.num := toInt_natCast (by omega)
  have hn : s.bitSize = some s.num := by rw [Lfs.bitSize, hi, if_pos (by omega)]; rfl
  exact (S.count_of_cover hn G.readBitmapSize_eq fun j hj => slot_bit_lt hj).symm

/-- The slot of a new meta file is the first one clear on the device, and the bitmap
    written back has that one bit more. -/
theorem metaSlot {n len wlen i : ℕ} {v : UInt8} {p : List UInt8} (hn : s.bitSize = some n)
    (hlen : readBitmapSize (toInt s.dev_size) (toInt s.block_size) = some len)
    (hfree : firstFree (bit (s.fd.image.slice bitmapOffset len)) n = some i)
    (hset : bitmapSet i (s.fd.image.slice bitmapOffset len) n = some (v, p))
    (hw : bitmapSize s.dev_size s.block_size = some wlen) :
    firstFree (diskBit s.fd.image) s.count = some i ∧ p.take wlen = p ∧
      p.length = s.p_bitmap.length ∧
      ∀ j < s.count, bit p j = (diskBit s.fd.image j || decide (j = i)) := by
  obtain rfl := Option.some.inj (S.read.symm.trans hlen)
  obtain rfl := Option.some.inj (S.write.symm.trans hw)
  have hbit : ∀ j, j / 8 < s.p_bitmap.length →
      bit (s.fd.image.slice bitmapOffset s.p_bitmap.length) j = diskBit s.fd.image j :=
    fun j hj => bit_slice hj
  have hcount : s.count = min n (8 * s.p_bitmap.length) := by
    rw [Lfs.count, hn, Option.getD_some]
  obtain ⟨hi, hfree, hbefore⟩ := firstFree_eq_some.1 hfree
  obtain ⟨hi8, hplen, hp⟩ := bitmapSet_eq_some hi hset
  rw [Image.length_slice] at hi8 hplen
  refine ⟨firstFree_eq_some.2 ⟨by omega, hbit i hi8 ▸ hfree, fun j hj => ?_⟩, ?_, hplen, ?_⟩
  · rw [← hbit j (by omega)]; exact hbefore j hj
  · exact List.take_of_length_le hplen.le
  · intro j hj; rw [hp, hbit j (by omega)]

/-- The slot of a new data file is the first one clear in memory, and the bitmap written
    back has that one bit more. -/
theorem dataSlot {n wlen i : ℕ} {v : UInt8} {p : List UInt8} (hn : s.bitSize = some n)
    (hfree : firstFree (bit s.p_bitmap) n = some i)
    (hset : bitmapSet i s.p_bitmap n = some (v, p))
    (hw : bitmapSize s.dev_size s.block_size = some wlen) :
    firstFree (bit s.p_bitmap) s.count = some i ∧ p.take wlen = p ∧
      p.length = s.p_bitmap.length ∧ ∀ j, bit p j = (bit s.p_bitmap j || decide (j = i)) := by
  obtain rfl := Option.some.inj (S.write.symm.trans hw)
  obtain ⟨hi, hfree, hbefore⟩ := firstFree_eq_some.1 hfree
  obtain ⟨hi8, hplen, hp⟩ := bitmapSet_eq_some hi hset
  have hcount : s.count = min n (8 * s.p_bitmap.length) := by
    rw [Lfs.count, hn, Option.getD_some]
  exact ⟨firstFree_eq_some.2 ⟨by omega, hfree, hbefore⟩, List.take_of_length_le hplen.le,
    hplen, hp⟩

end Sound

theorem Outcome.bitmap_length (S : Sound s) (h : Outcome s c r s') :
    s'.p_bitmap.length = s.p_bitmap.length := by
  cases h <;> try rfl
  case getattrHit k _ _ _ _ _ _ _ _ _ _ _ => cases k <;> rfl
  case openData hn hfree hoff hset hw hwl => exact (S.dataSlot hn hfree hset hw).2.2.1

theorem Outcome.count (S : Sound s) (h : Outcome s c r s') : s'.count = s.count := by
  rw [Lfs.count, Lfs.count, h.bitmap_length S, Lfs.bitSize, Lfs.bitSize, h.num]

theorem Outcome.infoOff (h : Outcome s c r s') : s'.infoOff = s.infoOff := by
  rw [Lfs.infoOff, Lfs.infoOff, h.dev_size, h.block_size]

/-- **Soundness is preserved.** -/
theorem Sound.step (S : Sound s) (h : Outcome s c r s') : Sound s' := by
  constructor
  · rw [h.dev_size, h.block_size, h.bitmap_length S]; exact S.read
  · rw [h.dev_size, h.block_size, h.bitmap_length S]; exact S.write

/-- The state `main` builds is sound if the block size is an `int`. -/
theorem sound_main (hbs : (superBlock image).s_block_size < 2 ^ 31) (hm : main image = some s) :
    Sound s := by
  obtain ⟨len, hlen, h₀⟩ := main_eq_some hm
  have hl : s.p_bitmap.length = len := by rw [h₀]; exact Image.length_slice _ _ _
  obtain ⟨hd, hb⟩ := main_sizes hm
  constructor
  · rw [hd, hb, hl]; exact hlen
  · rw [hd, hb, hl]; exact bitmapSize_of_read hbs hlen

/-- Every state of a mount is sound if the block size is an `int`. -/
theorem Mount.sound {ok : Machine.Guard Lfs Call Reply} {tr : Trace}
    (hbs : (superBlock image).s_block_size < 2 ^ 31) (h : Mount image ok tr s) : Sound s := by
  obtain ⟨s₀, hm, hr⟩ := h
  exact hr.invariant_state Sound (sound_main hbs hm) fun ih _ hst => ih.step (step_outcome hst)

theorem count_le_bits (s : Lfs) : s.count ≤ 8 * s.p_bitmap.length := by
  rw [Lfs.count]; exact min_le_right _ _

/-- The bitmap in memory starts as the one on the device. -/
theorem main_bit (hm : main image = some s) {i : ℕ} (hi : i < s.count) :
    bit s.p_bitmap i = diskBit s.fd.image i := by
  obtain ⟨len, hlen, h₀⟩ := main_eq_some hm
  have hl : s.p_bitmap.length = len := by rw [h₀]; exact Image.length_slice _ _ _
  have hle := count_le_bits s
  rw [hl] at hle
  have hlt : i / 8 < len := by omega
  rw [h₀]
  exact bit_slice hlt

/-- Bytes stored in the bitmap area are its bits. -/
theorem diskBit_write {p : List UInt8} (hp : p.length = s.p_bitmap.length)
    {j : ℕ} (hj : j < s.count) : diskBit (m.patch bitmapOffset p) j = bit p j := by
  have hcount := count_le_bits s
  have h : diskBit (m.patch bitmapOffset (p.take p.length)) j = bit p j :=
    diskBit_patch le_rfl (by omega)
  rwa [List.take_length] at h

/-! ## Where a call stores bytes -/

/-- The address and number of the bytes `lfs_write` and `lfs_release` store. -/
def stores (s : Lfs) : Call → Option (ℕ × ℕ)
  | .write fh buf offset =>
    some (if s.cur_offset = devOffset s fh offset then s.fd.pos else devOffset s fh offset,
      buf.length)
  | .release fh _ => (releaseOffset s fh).map fun off => (off, sizeofBlockInfo)
  | _ => none

/-- A call stores nothing into `[lo, hi)`, an allocation of a slot apart. -/
def Misses (s : Lfs) (c : Call) (lo hi : ℕ) : Prop :=
  ∀ x ∈ stores s c, x.2 = 0 ∨ x.1 + x.2 ≤ lo ∨ hi ≤ x.1

instance (s : Lfs) (c : Call) (lo hi : ℕ) : Decidable (Misses s c lo hi) :=
  inferInstanceAs (Decidable (∀ x ∈ stores s c, x.2 = 0 ∨ x.1 + x.2 ≤ lo ∨ hi ≤ x.1))

theorem seekTo_eq_some {o : ℕ} {fd : Descriptor} (h : seekTo s o = some fd) :
    fd = ⟨s.fd.image, if s.cur_offset = o then s.fd.pos else o⟩ := by
  unfold seekTo at h
  by_cases ho : s.cur_offset = o
  · rw [if_neg (by simpa using ho)] at h
    rw [if_pos ho]; exact (Option.some.inj h).symm
  · rw [if_pos ho] at h
    rw [if_neg ho]; exact (Descriptor.lseek_eq_some.1 h).2

theorem Misses.patch {lo hi p a : ℕ} {bs : List UInt8} (h : Misses s c lo hi)
    (hst : stores s c = some (p, bs.length)) (h1 : lo ≤ a) (h2 : a < hi) :
    m.patch p bs a = m a := by
  have := h _ hst
  exact Image.patch_outside (by omega)

/-- A call other than `lfs_open` leaves the bytes it does not store into. -/
theorem Outcome.image_of_misses {lo hi a : ℕ} (h : Outcome s c r s') (hm : Misses s c lo hi)
    (hc : ∀ path, c ≠ .open path) (h1 : lo ≤ a) (h2 : a < hi) :
    s'.fd.image a = s.fd.image a := by
  cases h <;> try rfl
  case getattrHit k _ _ _ _ _ _ _ _ _ _ _ => cases k <;> rfl
  case openMeta => exact absurd rfl (hc _)
  case openData => exact absurd rfl (hc _)
  case read hs hr => rw [seekTo_eq_some hs]
  case write hs hw => rw [seekTo_eq_some hs]; exact hm.patch rfl h1 h2
  case release ho hw =>
    refine hm.patch ?_ h1 h2
    rw [stores, ho, BlockInfo.length_encode]; rfl

end Rewrite
