/-
  Reading back what was written through one handle of `ltils.c`.

  `lfs_open` sets `real_offset` for a data file only, `lfs_write2` adds the size
  to both lengths of the entry, and `lfs_read` takes the csm area of the slot
  whenever `csize` is positive.

    - `writeAll`: writes on a handle, one after the other;
    - `landed`: where they go.  A data file is written to its data area; a meta
      file, whose `real_offset` is 0, from where `lfs_open` left the descriptor
      as long as the writes go on from 0, and then to the device address that
      is the offset in the file;
    - `ReadsBack`: a read returns the bytes last written, and nothing was
      written outside the area of the file;
    - `read_back_iff`: exactly if the bytes happen to be the same;
    - `read_back_wrong`: one byte of a data file, and one of a meta file.
-/
import NvmfHdfs.Geometry
import NvmfHdfs.Ltils.Mount

namespace Ltils

open CInt Layout Bitmap Path Records Image
open Rewrite (superBlock blankDevice)

variable {s s' s₁ s₂ : Lfs} {image m : Image} {tr : Trace} {path : List Char} {k : Kind} {b : ℤ}
  {fh i p q c offset size L : ℕ} {ws : List (ℕ × List UInt8)}

/-! ## Writes and where they go -/

/-- `lfs_write2` for each of the offsets and contents, in order. -/
def writeAll (fh : ℕ) : List (ℕ × List UInt8) → Lfs → Option Lfs
  | [], s => some s
  | w :: ws, s => do
    let (_, s) ← lfsWrite2 s fh w.2 w.1
    writeAll fh ws s

/-- The sum of the sizes. -/
def total (ws : List (ℕ × List UInt8)) : ℕ := (ws.map fun w => w.2.length).sum

/-- The start of the area of a file in a slot at `c`. -/
def areaStart (c : ℕ) : Kind → ℕ
  | .metaFile => c
  | .dataFile => c + 2 * mbSize

/-- The length of the area of a file. -/
def areaLen (block_size : ℕ) : Kind → ℕ
  | .metaFile => 2 * mbSize
  | .dataFile => block_size - 2 * mbSize

/-- The device bytes of the area. -/
def InArea (block_size c : ℕ) (k : Kind) (a : ℕ) : Prop :=
  areaStart c k ≤ a ∧ a < areaStart c k + areaLen block_size k

/-- Writes at device address `offset`, but for those that go on from `next`, which are `p`
    behind. -/
def strayed (p : ℕ) : ℕ → List (ℕ × List UInt8) → List (ℕ × List UInt8)
  | _, [] => []
  | next, w :: ws =>
    if w.1 = next then (p + w.1, w.2) :: strayed p (next + w.2.length) ws else w :: ws

/-- Where the writes of a file in a slot at `c` go, `p` being where the descriptor was left. -/
def landed (p c : ℕ) (ws : List (ℕ × List UInt8)) : Kind → List (ℕ × List UInt8)
  | .metaFile => strayed p 0 ws
  | .dataFile => ws.map fun w => (c + 2 * mbSize + w.1, w.2)

/-- Reading `[offset, offset + size)` of a file returns the bytes last written there, and the
    writes changed nothing outside its area. -/
structure ReadsBack (s₂ s : Lfs) (k : Kind) (fh : ℕ) (ws : List (ℕ × List UInt8))
    (offset size : ℕ) : Prop where
  bytes : ∃ ret buf s', lfsRead s fh size offset = some ((ret, buf), s') ∧
    ∀ j < size, buf[j]? = lastAt ws (offset + j)
  outside : ∀ a, ¬ InArea s₂.block_size (s₂.file (fh - 3)).c_offset k a →
    s.fd.image a = s₂.fd.image a

/-- The bytes written are what the device holds where they are read, and where they should not
    have been written.
    * A byte of a data file is read from the csm area or from 2 MB before its place.
    * The bytes of a meta file are read from the csm area. -/
def BytesMeet (m : Image) (block_size p c : ℕ) (ws : List (ℕ × List UInt8)) (offset size : ℕ) :
    Kind → Prop
  | .dataFile => ∀ x, offset ≤ x → x < offset + size → lastAt ws x =
      if x < 2 * mbSize then some (m (c + x)) else lastAt ws (x - 2 * mbSize)
  | .metaFile => (∀ x, offset ≤ x → x < offset + size →
      lastAt ws x = some ((lastAt (strayed p 0 ws) (c + x)).getD (m (c + x)))) ∧
      ∀ a, ¬ InArea block_size c .metaFile a → ∀ v ∈ lastAt (strayed p 0 ws) a, m a = v

/-! ## One write -/

theorem write_inv {o : ℕ} {bs : List UInt8} {r : ℤ} (h : lfsWrite2 s fh bs o = some (r, s')) :
    ∃ fd, seekTo s fh (devOffset s fh o) = some fd ∧ fd.pos + bs.length ≤ Descriptor.offMax ∧
      s' = ({ s with fd := ⟨fd.image.patch fd.pos bs, fd.pos + bs.length⟩ } : Lfs).setFile (fh - 3)
        (written (s.file (fh - 3)) (devOffset s fh o) bs.length) := by
  cases write_outcome h with
  | write hfh hs hw => exact ⟨_, hs, hw, rfl⟩

/-- The entry of a file in a slot at `c`, written from `q` on, after `t` bytes. -/
structure EntryAt (c q t : ℕ) (e : FileDirectory) : Prop where
  c_offset : e.c_offset = c
  real_offset : e.real_offset = q
  csize : e.csize = t % 2 ^ 32
  dsize : e.dsize = t % 2 ^ 32

theorem EntryAt.written {e : FileDirectory} {t d n : ℕ} (h : EntryAt c q t e) :
    EntryAt c q (t + n) (written e d n) := by
  refine ⟨h.c_offset, h.real_offset, ?_, ?_⟩
  · show toU32 (e.csize + n : ℕ) = _
    rw [toU32_natCast, h.csize, Nat.mod_add_mod]
  · show toU32 (e.dsize + n : ℕ) = _
    rw [toU32_natCast, h.dsize, Nat.mod_add_mod]

theorem setFile_self (s : Lfs) (i : ℕ) (e : FileDirectory) : (s.setFile i e).file i = e :=
  Function.update_self ..

/-- A handle whose cursor is right: where it skips the seek, the descriptor is there. -/
def Right (q len i : ℕ) (s : Lfs) : Prop :=
  ∀ o ≤ len, (s.file i).cur_offset = q + o → s.fd.pos = q + o

/-- The position in 32 bits is right within 4 GB. -/
theorem right_of_pos {len : ℕ} (hlen : len < 2 ^ 32)
    (hcur : (s.file i).cur_offset = toU32 s.fd.pos) (hpos : s.fd.pos ≤ q + len) :
    Right q len i s := by
  intro o ho h
  rw [hcur, toU32_natCast] at h
  omega

/-- A write that does not skip its seek wrongly goes to its place, and the cursor is right
    afterwards. -/
theorem write_right {len t o : ℕ} {bs : List UInt8} {r : ℤ}
    (h : (s.file (fh - 3)).cur_offset = q + o → s.fd.pos = q + o)
    (hlen : len < 2 ^ 32) (hq : q + len < 2 ^ 64) (he : EntryAt c q t (s.file (fh - 3)))
    (ho : o + bs.length ≤ len) (hw : lfsWrite2 s fh bs o = some (r, s')) :
    s'.fd.image = s.fd.image.patch (q + o) bs ∧ Right q len (fh - 3) s' ∧
      EntryAt c q (t + bs.length) (s'.file (fh - 3)) ∧ q + o + bs.length ≤ Descriptor.offMax := by
  obtain ⟨fd, hs, hle, rfl⟩ := write_inv hw
  have hdev : devOffset s fh o = q + o := by
    rw [devOffset, he.real_offset, toU64_of_lt (by omega)]
  have hfd : fd = ⟨s.fd.image, q + o⟩ := by
    rw [hdev] at hs
    unfold seekTo at hs
    by_cases hskip : (s.file (fh - 3)).cur_offset = q + o
    · rw [if_neg (by simpa using hskip)] at hs
      rw [← Option.some.inj hs, ← h hskip]
    · rw [if_pos hskip] at hs
      exact (Descriptor.lseek_eq_some.1 hs).2
  subst hfd
  refine ⟨rfl, right_of_pos hlen ?_ ?_, ?_, hle⟩
  · rw [setFile_self, hdev]; rfl
  · show q + o + bs.length ≤ q + len
    omega
  · rw [setFile_self]; exact he.written

/-! ## All writes -/

/-- With a right cursor all writes go to their place. -/
theorem Right.run {len t : ℕ} (h : Right q len (fh - 3) s) (hlen : len < 2 ^ 32)
    (hq : q + len < 2 ^ 64) (he : EntryAt c q t (s.file (fh - 3)))
    (hin : ∀ w ∈ ws, w.1 + w.2.length ≤ len) (hw : writeAll fh ws s = some s') :
    s'.fd.image = s.fd.image.patches (ws.map fun w => (q + w.1, w.2)) ∧
      EntryAt c q (t + total ws) (s'.file (fh - 3)) := by
  induction ws generalizing s t with
  | nil => cases hw; exact ⟨rfl, he⟩
  | cons w ws ih =>
    obtain ⟨⟨r, s''⟩, h1, h2⟩ := Option.bind_eq_some_iff.1 hw
    obtain ⟨himage, hright, hentry, -⟩ :=
      write_right (h _ (by have := hin w (by simp); omega)) hlen hq he (hin w (by simp)) h1
    obtain ⟨himage', hentry'⟩ := ih hright hentry (fun w' hw' => hin w' (by simp [hw'])) h2
    refine ⟨?_, ?_⟩
    · rw [himage', himage]; rfl
    · have hsum : t + total (w :: ws) = t + w.2.length + total ws := by
        simp only [total, List.map_cons, List.sum_cons]; omega
      rw [hsum]; exact hentry'

/-- The writes of a meta file: while they go on from 0 the seek is skipped. -/
theorem stray_run {t n : ℕ} (he : EntryAt c 0 t (s.file (fh - 3)))
    (hcur : (s.file (fh - 3)).cur_offset = n) (hpos : s.fd.pos = p + n)
    (hin : ∀ w ∈ ws, w.1 + w.2.length ≤ 2 * mbSize) (hw : writeAll fh ws s = some s') :
    s'.fd.image = s.fd.image.patches (strayed p n ws) ∧
      EntryAt c 0 (t + total ws) (s'.file (fh - 3)) := by
  induction ws generalizing s t n with
  | nil => cases hw; exact ⟨rfl, he⟩
  | cons w ws ih =>
    obtain ⟨⟨r, s''⟩, h1, h2⟩ := Option.bind_eq_some_iff.1 hw
    have hmb : 2 * mbSize < 2 ^ 32 := by decide
    have hwin := hin w (by simp)
    have hin' : ∀ w' ∈ ws, w'.1 + w'.2.length ≤ 2 * mbSize := fun w' hw' => hin w' (by simp [hw'])
    have hsum : t + total (w :: ws) = t + w.2.length + total ws := by
      simp only [total, List.map_cons, List.sum_cons]; omega
    rw [hsum]
    by_cases hskip : w.1 = n
    · obtain ⟨fd, hs, -, rfl⟩ := write_inv h1
      have hdev : devOffset s fh w.1 = w.1 := by
        rw [devOffset, he.real_offset, Nat.zero_add, toU64_of_lt (by omega)]
      have hfd : fd = s.fd := by
        rw [hdev] at hs
        unfold seekTo at hs
        rw [if_neg (by simpa [hcur] using hskip.symm)] at hs
        exact (Option.some.inj hs).symm
      subst hfd
      rw [hdev] at h2
      obtain ⟨himage, hentry⟩ := ih (n := n + w.2.length) (by rw [setFile_self]; exact he.written)
        (by rw [setFile_self]; show toU32 _ = _; rw [toU32_natCast]; omega)
        (by show s.fd.pos + w.2.length = _; omega) hin' h2
      refine ⟨?_, hentry⟩
      have hstray : strayed p n (w :: ws) =
          (p + w.1, w.2) :: strayed p (n + w.2.length) ws := if_pos hskip
      rw [himage, hstray]
      show (s.fd.image.patch s.fd.pos w.2).patches _ = (s.fd.image.patch (p + w.1) w.2).patches _
      rw [hpos, hskip]
    · obtain ⟨himage, hright, hentry, -⟩ := write_right
        (fun h => absurd (by omega) hskip) hmb (by omega) he hwin h1
      obtain ⟨himage', hentry'⟩ := hright.run hmb (by omega) hentry hin' h2
      refine ⟨?_, hentry'⟩
      have hstray : strayed p n (w :: ws) = w :: ws := if_neg hskip
      have hid : ∀ l : List (ℕ × List UInt8), (l.map fun w => (0 + w.1, w.2)) = l := by
        intro l; simp
      rw [himage', himage, hid, hstray, Nat.zero_add]; rfl

/-! ## The open before and the read after -/

/-- Where the writes of a file in a slot at `c` are counted from. -/
def realOffset (c : ℕ) : Kind → ℕ
  | .metaFile => 0
  | .dataFile => c + 2 * mbSize

theorem areaLen_lt {bs : ℕ} (hbs : bs < 2 ^ 32) (k : Kind) : areaLen bs k < 2 ^ 32 := by
  cases k with
  | metaFile => show 2 * mbSize < 2 ^ 32; decide
  | dataFile => show bs - 2 * mbSize < 2 ^ 32; omega

theorem slotOffset_lt (hbs : s.block_size < 2 ^ 32) (hi : i < 2 ^ 31)
    (h : slotOffset s i = some c) : 0 < c ∧ c < 2 ^ 63 + 2 ^ 34 := by
  obtain ⟨off, hoff, hc⟩ := Option.bind_eq_some_iff.1 h
  obtain ⟨info, -, hinfo, hle, hlt⟩ := dataOffset_gt hoff
  have hmul : i * s.block_size ≤ 2 ^ 31 * 2 ^ 32 := Nat.mul_le_mul hi.le hbs.le
  have hc := Option.some.inj hc
  rw [toU64_of_lt (by omega)] at hc
  omega

/-- The entry `opened` makes of an empty one. -/
theorem opened_entry (b : ℤ) (c i : ℕ) (hc : c < 2 ^ 63 + 2 ^ 34) :
    EntryAt c (realOffset c k) 0 (opened zeroEntry b c i k) ∧
      (opened zeroEntry b c i k).cur_offset = 0 := by
  cases k with
  | metaFile => exact ⟨⟨rfl, rfl, rfl, rfl⟩, rfl⟩
  | dataFile =>
    have hmb : 2 * mbSize < 2 ^ 32 := by decide
    have hreal : toU64 (c + 2 * mbSize : ℕ) = c + 2 * mbSize := toU64_of_lt (by omega)
    unfold opened setFlag
    dsimp only
    rw [hreal]
    exact ⟨⟨rfl, rfl, rfl, rfl⟩, rfl⟩

/-- A file that takes a slot with an empty entry. -/
theorem open_entry (hbs : s₁.block_size < 2 ^ 32) (hp : parsePath path = some (k, b))
    (hnew : ∀ j ≤ s₁.num, (s₁.file j).block_id ≠ toU32 b)
    (ho : lfsOpen s₁ path = some (fh, s₂)) (hzero : s₁.file (fh - 3) = zeroEntry) :
    ∃ c, 0 < c ∧ c < 2 ^ 63 + 2 ^ 34 ∧ EntryAt c (realOffset c k) 0 (s₂.file (fh - 3)) ∧
      (s₂.file (fh - 3)).cur_offset = 0 ∧ 3 ≤ fh := by
  cases open_outcome ho with
  | openFound hp' hf =>
    cases hp.symm.trans hp'
    obtain ⟨hle, hid, -⟩ := findFile_found hf
    exact absurd hid (hnew _ hle)
  | @openNew _ _ _ n len wlen i c _ _ hp' hf hn hlen hfree hc hset hw hwl =>
    cases hp.symm.trans hp'
    have hlt : i < 2 ^ 31 := (firstFree_eq_some.1 hfree).1.trans (bitSize_le hn).2
    obtain ⟨hc0, hc1⟩ := slotOffset_lt hbs hlt hc
    rw [Nat.add_sub_cancel] at hzero ⊢
    rw [setFile_self, hzero]
    obtain ⟨hentry, hcur⟩ := opened_entry (k := k) b c i hc1
    exact ⟨c, hc0, hc1, hentry, hcur, Nat.le_add_left _ _⟩

/-- All writes go where `landed` says. -/
theorem writes_landed (hbs : s.block_size < 2 ^ 32) (hc0 : 0 < c) (hc1 : c < 2 ^ 63 + 2 ^ 34)
    (he : EntryAt c (realOffset c k) 0 (s.file (fh - 3))) (hcur : (s.file (fh - 3)).cur_offset = 0)
    (hin : ∀ w ∈ ws, w.1 + w.2.length ≤ areaLen s.block_size k) (hw : writeAll fh ws s = some s') :
    s'.fd.image = s.fd.image.patches (landed s.fd.pos c ws k) ∧
      EntryAt c (realOffset c k) (total ws) (s'.file (fh - 3)) := by
  rw [← Nat.zero_add (total ws)]
  have hlen := areaLen_lt hbs k
  cases k with
  | metaFile => exact stray_run he hcur rfl hin hw
  | dataFile =>
    have hmb : 2 * mbSize < 2 ^ 32 := by decide
    have hright : Right (c + 2 * mbSize) (areaLen s.block_size .dataFile) (fh - 3) s := by
      intro o _ h; omega
    exact hright.run hlen (by omega) he hin hw

/-- Writes in the area cover at most the area. -/
theorem cover_le {len : ℕ} (hin : ∀ w ∈ ws, w.1 + w.2.length ≤ len)
    (hcov : ∀ x < L, (lastAt ws x).isSome) : L ≤ len := by
  rcases Nat.eq_zero_or_pos L with rfl | hpos
  · exact Nat.zero_le _
  · obtain ⟨v, hv⟩ := Option.isSome_iff_exists.1 (hcov (L - 1) (by omega))
    obtain ⟨w, hw, hle, hlt⟩ := exists_of_lastAt hv
    have := hin w hw
    omega

/-- A read of a file without a length is not defined. -/
theorem read_empty {t : ℕ} (he : EntryAt c q t (s.file (fh - 3))) (ht : t % 2 ^ 32 = 0) :
    lfsRead s fh size offset = none := by
  unfold lfsRead
  split_ifs with hfh
  · rfl
  · dsimp only
    rw [he.csize, he.dsize, ht, if_neg (Nat.lt_irrefl 0), if_neg (Nat.lt_irrefl 0)]

/-- A read of a file with a length is one of its csm area. -/
theorem read_csm {t : ℕ} (he : EntryAt c q t (s.file (fh - 3))) (ht : t % 2 ^ 32 ≠ 0)
    (hfh : 3 ≤ fh) (hlt : offset + size < 2 ^ 32) (hc : c < 2 ^ 63 + 2 ^ 34) :
    lfsRead s fh size offset =
      if c + offset < Descriptor.offMax ∧ c + offset + size ≤ Descriptor.offMax then
        some ((toInt size, s.fd.image.slice (c + offset) size),
          { s with fd := ⟨s.fd.image, c + offset + size⟩ })
      else none := by
  have hill : ¬ illegal (t % 2 ^ 32) size offset := by
    rintro ⟨h1, h2⟩
    unfold toU64 at h2
    omega
  unfold lfsRead
  rw [if_neg (Nat.not_lt.2 hfh)]
  dsimp only
  rw [he.csize, he.c_offset, if_pos (Nat.pos_of_ne_zero ht), if_neg hill,
    toU64_of_lt (by omega)]
  unfold Descriptor.lseek Descriptor.read
  by_cases h1 : c + offset < Descriptor.offMax
  · by_cases h2 : c + offset + size ≤ Descriptor.offMax
    · rw [if_pos h1, if_pos ⟨h1, h2⟩]; simp [h2]
    · rw [if_pos h1, if_neg fun h => h2 h.2]; simp [h2]
  · rw [if_neg h1, if_neg fun h => h1 h.1]; rfl

/-! ## When it works -/

/-- The byte the device holds at `a` after the writes. -/
theorem patches_landed (m : Image) (a : ℕ) :
    m.patches (landed p c ws k) a = (lastAt (landed p c ws k) a).getD (m a) := patches_apply _ _ _

/-- The writes of a data file stay in its area. -/
theorem landed_data {bs a : ℕ} (hin : ∀ w ∈ ws, w.1 + w.2.length ≤ areaLen bs .dataFile)
    (ha : ¬ InArea bs c .dataFile a) : lastAt (landed p c ws .dataFile) a = none := by
  by_contra hne
  obtain ⟨v, hv⟩ := Option.ne_none_iff_exists'.1 hne
  obtain ⟨w', hw', hle, hlt⟩ := exists_of_lastAt hv
  obtain ⟨w, hw, rfl⟩ := List.mem_map.1 hw'
  have := hin w hw
  dsimp only at hle hlt
  exact ha ⟨by show c + 2 * mbSize ≤ a; omega,
    by show a < c + 2 * mbSize + areaLen bs .dataFile; omega⟩

/-- The byte of a data file read at `x`. -/
theorem read_byte_data {x : ℕ} (m : Image) (hcov : ∀ x < L, (lastAt ws x).isSome) (hx : x < L) :
    some (m.patches (landed p c ws .dataFile) (c + x)) =
      if x < 2 * mbSize then some (m (c + x)) else lastAt ws (x - 2 * mbSize) := by
  rw [patches_landed]
  split_ifs with hmb
  · have hnone : lastAt (landed p c ws .dataFile) (c + x) = none := by
      by_contra hne
      obtain ⟨v, hv⟩ := Option.ne_none_iff_exists'.1 hne
      obtain ⟨w', hw', hle, -⟩ := exists_of_lastAt hv
      obtain ⟨w, hw, rfl⟩ := List.mem_map.1 hw'
      dsimp only at hle
      omega
    rw [hnone, Option.getD_none]
  · have hshift : c + x = c + 2 * mbSize + (x - 2 * mbSize) := by omega
    obtain ⟨v, hv⟩ := Option.isSome_iff_exists.1 (hcov (x - 2 * mbSize) (by omega))
    rw [hshift, landed, lastAt_shift, hv, Option.getD_some]

/-- What the device holds after the writes, where the file is read and outside its area. -/
theorem meet_iff {bs : ℕ} (hin : ∀ w ∈ ws, w.1 + w.2.length ≤ areaLen bs k)
    (hcov : ∀ x < L, (lastAt ws x).isSome) (hL : offset + size ≤ L) :
    (∀ x, offset ≤ x → x < offset + size →
        lastAt ws x = some (m.patches (landed p c ws k) (c + x))) ∧
      (∀ a, ¬ InArea bs c k a → m.patches (landed p c ws k) a = m a) ↔
    BytesMeet m bs p c ws offset size k := by
  cases k with
  | metaFile =>
    refine and_congr ?_ (forall_congr' fun a => imp_congr_right fun _ => ?_)
    · simp only [patches_landed]; rfl
    · rw [patches_landed]
      cases h : lastAt (landed p c ws .metaFile) a with
      | none =>
        have h : lastAt (strayed p 0 ws) a = none := h
        simp [h]
      | some v =>
        have h : lastAt (strayed p 0 ws) a = some v := h
        simp [h, eq_comm]
  | dataFile =>
    have hout : ∀ a, ¬ InArea bs c .dataFile a → m.patches (landed p c ws .dataFile) a = m a := by
      intro a ha
      rw [patches_landed, landed_data hin ha, Option.getD_none]
    refine (and_iff_left hout).trans (forall_congr' fun x => imp_congr_right fun _ =>
      imp_congr_right fun hx => ?_)
    rw [read_byte_data m hcov (by omega)]

/-- A read returns given bytes exactly if its place can be reached and holds them. -/
theorem read_bytes_iff {t : ℕ} {f : ℕ → Option UInt8} (he : EntryAt c q t (s.file (fh - 3)))
    (ht : t % 2 ^ 32 ≠ 0) (hfh : 3 ≤ fh) (hlt : offset + size < 2 ^ 32) (hc : c < 2 ^ 63 + 2 ^ 34) :
    (∃ ret buf s', lfsRead s fh size offset = some ((ret, buf), s') ∧
      ∀ j < size, buf[j]? = f (offset + j)) ↔
    (c + offset < Descriptor.offMax ∧ c + offset + size ≤ Descriptor.offMax) ∧
      ∀ x, offset ≤ x → x < offset + size → f x = some (s.fd.image (c + x)) := by
  rw [read_csm he ht hfh hlt hc]
  constructor
  · rintro ⟨ret, buf, s', hr, hbuf⟩
    split_ifs at hr with hreach
    cases hr
    refine ⟨hreach, fun x h1 h2 => ?_⟩
    have hj := hbuf (x - offset) (by omega)
    rw [getElem?_slice, if_pos (by omega)] at hj
    rw [show x = offset + (x - offset) by omega, ← hj, Nat.add_assoc]
  · rintro ⟨hreach, hx⟩
    rw [if_pos hreach]
    refine ⟨_, _, _, rfl, fun j hj => ?_⟩
    rw [getElem?_slice, if_pos hj, hx (offset + j) (by omega) (by omega), Nat.add_assoc]

/-- **When a file is read back.**  In any state of a mount from a table of zeros, a block that is
    in no entry takes a slot whose entry is still empty; then writes in the area of the file
    cover its first `L` bytes.  A read below `L` returns the bytes last written, and nothing
    outside the area was changed, exactly if the lengths of the entry have not come round to 0,
    the place that is read can be reached, and the bytes meet. -/
theorem read_back_iff {tr₁ : Trace} (h₁ : Mount image zeroFile Machine.anyStep tr₁ s₁)
    (hp : parsePath path = some (k, b)) (hnew : ∀ j ≤ s₁.num, (s₁.file j).block_id ≠ toU32 b)
    (ho : lfsOpen s₁ path = some (fh, s₂)) (hzero : s₁.file (fh - 3) = zeroEntry)
    (hw : writeAll fh ws s₂ = some s)
    (hin : ∀ w ∈ ws, w.1 + w.2.length ≤ areaLen s₂.block_size k)
    (hcov : ∀ x < L, (lastAt ws x).isSome) (hL : offset + size ≤ L) :
    ReadsBack s₂ s k fh ws offset size ↔ total ws % 2 ^ 32 ≠ 0 ∧
      ((s₂.file (fh - 3)).c_offset + offset < Descriptor.offMax ∧
        (s₂.file (fh - 3)).c_offset + offset + size ≤ Descriptor.offMax) ∧
      BytesMeet s₂.fd.image s₂.block_size s₂.fd.pos (s₂.file (fh - 3)).c_offset ws offset size
        k := by
  have hbs₁ : s₁.block_size < 2 ^ 32 := by
    rw [h₁.sizes.2]; exact SuperBlock.s_block_size_lt _
  have hbs : s₂.block_size < 2 ^ 32 := by rw [(open_outcome ho).block_size]; exact hbs₁
  obtain ⟨c, hc0, hc1, hentry, hcur, hfh⟩ := open_entry hbs₁ hp hnew ho hzero
  obtain ⟨himage, he⟩ := writes_landed hbs hc0 hc1 hentry hcur hin hw
  have hlt : offset + size < 2 ^ 32 :=
    (hL.trans (cover_le hin hcov)).trans_lt (areaLen_lt hbs k)
  rw [hentry.c_offset]
  by_cases ht : total ws % 2 ^ 32 = 0
  · refine ⟨fun h => ?_, fun h => absurd ht h.1⟩
    obtain ⟨ret, buf, s', hr, -⟩ := h.bytes
    rw [read_empty he ht] at hr; cases hr
  · have hread := read_bytes_iff (f := lastAt ws) he ht hfh hlt hc1
    have hmeet : (∀ x, offset ≤ x → x < offset + size → lastAt ws x = some (s.fd.image (c + x))) ∧
        (∀ a, ¬ InArea s₂.block_size c k a → s.fd.image a = s₂.fd.image a) ↔
          BytesMeet s₂.fd.image s₂.block_size s₂.fd.pos c ws offset size k := by
      rw [himage]
      exact meet_iff hin hcov hL
    constructor
    · intro h
      obtain ⟨hreach, hbytes⟩ := hread.1 h.bytes
      exact ⟨ht, hreach, hmeet.1 ⟨hbytes, hentry.c_offset ▸ h.outside⟩⟩
    · rintro ⟨-, hreach, hbytes⟩
      obtain ⟨hbytes, hout⟩ := hmeet.2 hbytes
      exact ⟨hread.2 ⟨hreach, hbytes⟩, by rw [hentry.c_offset]; exact hout⟩

/-- Two bytes of a data file on a fresh device. -/
theorem read_back_iff_data : ∃ s₁ s₂ s, main blankDevice zeroFile = some s₁ ∧
    lfsOpen s₁ (dataPath 1) = some (3, s₂) ∧ writeAll 3 [(0, [0]), (1, [7])] s₂ = some s ∧
    (ReadsBack s₂ s .dataFile 3 [(0, [0]), (1, [7])] 0 1 ↔
      total [(0, [0]), (1, [7])] % 2 ^ 32 ≠ 0 ∧
      ((s₂.file (3 - 3)).c_offset + 0 < Descriptor.offMax ∧
        (s₂.file (3 - 3)).c_offset + 0 + 1 ≤ Descriptor.offMax) ∧
      BytesMeet s₂.fd.image s₂.block_size s₂.fd.pos (s₂.file (3 - 3)).c_offset
        [(0, [0]), (1, [7])] 0 1 .dataFile) := by
  obtain ⟨tr₁, s₁, he, ⟨s₀, hm, hr⟩, rfl, hnew, ho⟩ := Machine.exists_exec system Machine.anyStep
    (main blankDevice zeroFile) []
    (fun tr s => tr = [] ∧ (∀ j ≤ s.num, (s.file j).block_id ≠ toU32 1) ∧
      (lfsOpen s (dataPath 1)).any (fun o => decide (o.1 = 3) &&
        decide (o.2.block_size = 2 ^ 27) &&
        (writeAll 3 [(0, [0]), (1, [7])] o.2).isSome) = true) (by decide +kernel)
  cases hr
  obtain ⟨⟨fh, s₂⟩, ho, h⟩ := (Option.any_eq_true _ _).1 ho
  obtain ⟨h, hw⟩ := Bool.and_eq_true_iff.1 h
  obtain ⟨hfh, hbs⟩ := Bool.and_eq_true_iff.1 h
  obtain rfl : fh = 3 := of_decide_eq_true hfh
  have hbs : s₂.block_size = 2 ^ 27 := of_decide_eq_true hbs
  obtain ⟨s, hw⟩ := Option.isSome_iff_exists.1 hw
  refine ⟨s₁, s₂, s, hm, ho, hw, ?_⟩
  have hzero : s₁.file (3 - 3) = zeroEntry := by rw [(main_sizes hm).2.2]; rfl
  refine read_back_iff (L := 2) ⟨s₁, hm, .nil⟩ (by decide +kernel) hnew ho hzero hw ?_ ?_
    (by decide)
  · rw [hbs]; decide
  · decide

/-- A byte that is read is not the one last written. -/
theorem not_readsBack {buf : List UInt8} {v : UInt8} (hsize : 0 < size)
    (hr : (lfsRead s fh size offset).map (fun x => x.1.2) = some buf)
    (hlast : lastAt ws offset = some v) (hne : buf[0]? ≠ some v) :
    ¬ ReadsBack s₂ s k fh ws offset size := by
  rintro ⟨⟨ret, buf', s', hr', hbytes⟩, -⟩
  rw [hr'] at hr
  obtain rfl := Option.some.inj hr
  exact hne ((hbytes 0 hsize).trans hlast)

/-- One byte of a data file, which goes to the data area and is read from the csm area, and one
    of a meta file, which goes behind the bitmap. -/
theorem read_back_wrong :
    (∃ s₁ s₂ s, main blankDevice zeroFile = some s₁ ∧ lfsOpen s₁ (dataPath 1) = some (3, s₂) ∧
      writeAll 3 [(0, [7])] s₂ = some s ∧ ¬ ReadsBack s₂ s .dataFile 3 [(0, [7])] 0 1) ∧
    ∃ s₁ s₂ s, main blankDevice zeroFile = some s₁ ∧
      lfsOpen s₁ (metaPath 1 1001) = some (3, s₂) ∧
      writeAll 3 [(0, [7])] s₂ = some s ∧ ¬ ReadsBack s₂ s .metaFile 3 [(0, [7])] 0 1 := by
  have hrun : ∀ path : List Char, (main blankDevice zeroFile).any (fun s₁ =>
      (lfsOpen s₁ path).any fun o => decide (o.1 = 3) && (writeAll 3 [(0, [7])] o.2).any fun s =>
        decide ((lfsRead s 3 1 0).map (fun x => x.1.2) = some [0])) = true →
      ∃ s₁ s₂ s, main blankDevice zeroFile = some s₁ ∧ lfsOpen s₁ path = some (3, s₂) ∧
        writeAll 3 [(0, [7])] s₂ = some s ∧ ∀ k, ¬ ReadsBack s₂ s k 3 [(0, [7])] 0 1 := by
    intro path h
    obtain ⟨s₁, hm, h⟩ := (Option.any_eq_true _ _).1 h
    obtain ⟨⟨fh, s₂⟩, ho, h⟩ := (Option.any_eq_true _ _).1 h
    obtain ⟨hfh, h⟩ := Bool.and_eq_true_iff.1 h
    obtain rfl : fh = 3 := of_decide_eq_true hfh
    obtain ⟨s, hw, h⟩ := (Option.any_eq_true _ _).1 h
    exact ⟨s₁, s₂, s, hm, ho, hw, fun k =>
      not_readsBack Nat.one_pos (of_decide_eq_true h) rfl (by decide)⟩
  constructor
  · obtain ⟨s₁, s₂, s, hm, ho, hw, h⟩ := hrun (dataPath 1) (by decide +kernel)
    exact ⟨s₁, s₂, s, hm, ho, hw, h _⟩
  · obtain ⟨s₁, s₂, s, hm, ho, hw, h⟩ := hrun (metaPath 1 1001) (by decide +kernel)
    exact ⟨s₁, s₂, s, hm, ho, hw, h _⟩

end Ltils
