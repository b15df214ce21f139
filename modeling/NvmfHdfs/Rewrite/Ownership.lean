/-
  Which slot a file gets.

  The states of the file system are seen as states of `Slots`, its calls as
  events (`Sound.simulates`).  A meta file and the data file of its block are
  meant to share a slot that no other block has; the two branches of `lfs_open`
  achieve that only if the files are opened in the right order.

    - `handed`, `handlesOf`: the slots and the handles `lfs_open` has handed out;
    - `OwnInv`: the slots are owned, and every handle holds the slot of its file;
    - `slots_owned`: in every run that meets `ownOk`, the handles of two files
      hold the same slot exactly when the files belong to the same block;
    - `slots_shared_wrongly`: the data file opened before its meta file.
-/
import NvmfHdfs.Rewrite.Mount
import NvmfHdfs.Rewrite.Slots

namespace Rewrite

open CInt Layout Bitmap Path Records

variable {s s' : Lfs} {image : Image} {c : Call} {r : Reply} {tr : Trace} {f : Kind × ℤ}
  {k : Kind} {b : ℤ} {fh i : ℕ}

/-! ## The file system as slots -/

/-- The slots of a state. -/
def slots (s : Lfs) : Slots ℕ where
  stored i := decide (i < s.count) && diskBit s.fd.image i
  cached i := decide (i < s.count) && bit s.p_bitmap i
  table k i := (s.files k i).block_id

/-- The slot whose record names a block, as `lfs_getattrr` finds it. -/
def recordSlot (s : Lfs) (b : ℤ) : Option ℕ := lookup s.fd.image s.infoOff s.count b

/-- The slot of the file of kind `k` with handle `fh`. -/
def slotOf (s : Lfs) (k : Kind) (fh : ℕ) : ℕ :=
  match k with
  | .metaFile => fh - 3
  | .dataFile => fh - s.num - 2

theorem slotOf_handle (s : Lfs) (k : Kind) (i : ℕ) : slotOf s k (s.handle k i) = i := by
  cases k <;> simp only [slotOf, Lfs.handle] <;> omega

/-- What a call does to the slots. -/
def eventOf (s : Lfs) : Call → Reply → Slots.Event ℕ
  | .getattr path, _ =>
    ((parsePath path).bind fun x =>
      (recordSlot s x.2).map fun i => .note x.1 i (toU64 x.2)).getD .idle
  | .open path, .opened fh =>
    ((parsePath path).map fun x =>
      if (s.finds x.1 x.2).isSome then .reopen x.1 (slotOf s x.1 fh) (toU64 x.2)
      else .take x.1 (slotOf s x.1 fh) (toU64 x.2)).getD .idle
  | _, _ => .idle

theorem eventOf_miss {path : List Char} {k : Kind} {b : ℤ} (hp : parsePath path = some (k, b))
    (hl : recordSlot s b = none) : eventOf s (.getattr path) r = .idle := by
  rw [eventOf, hp, Option.bind_some, hl]; rfl

theorem eventOf_hit {path : List Char} {k : Kind} {b : ℤ} {i : ℕ}
    (hp : parsePath path = some (k, b)) (hl : recordSlot s b = some i) :
    eventOf s (.getattr path) r = .note k i (toU64 b) := by
  rw [eventOf, hp, Option.bind_some, hl]; rfl

theorem eventOf_found {path : List Char} {k : Kind} {b : ℤ} {i j : ℕ}
    (hp : parsePath path = some (k, b)) (hf : s.finds k b = some j) :
    eventOf s (.open path) (.opened (s.handle k i)) = .reopen k i (toU64 b) := by
  rw [eventOf, hp, Option.map_some, Option.getD_some, if_pos (by rw [hf]; rfl), slotOf_handle]

theorem eventOf_new {path : List Char} {k : Kind} {b : ℤ} {i : ℕ}
    (hp : parsePath path = some (k, b)) (hf : s.finds k b = none) :
    eventOf s (.open path) (.opened (s.handle k i)) = .take k i (toU64 b) := by
  rw [eventOf, hp, Option.map_some, Option.getD_some, if_neg (by rw [hf]; simp), slotOf_handle]

/-- The end of the bits of the bitmap on the device. -/
def bitmapEnd (n : ℕ) : ℕ := bitmapOffset + (n + 7) / 8

theorem slots_congr (hn : s'.count = s.count)
    (hd : ∀ i < s.count, diskBit s'.fd.image i = diskBit s.fd.image i)
    (hp : s'.p_bitmap = s.p_bitmap) (ht : ∀ k i, (s'.files k i).block_id = (s.files k i).block_id) :
    slots s' = slots s := by
  ext i
  · simp only [slots, hn]
    by_cases hi : i < s.count
    · rw [hd i hi]
    · simp [hi]
  · simp only [slots, hn, hp]
  · exact ht _ _

/-- A call that stores nothing in the bitmap leaves the bits on the device. -/
theorem diskBit_of_misses (h : Outcome s c r s')
    (hm : Misses s c bitmapOffset (bitmapEnd s.count)) (hc : ∀ path, c ≠ .open path) :
    ∀ i < s.count, diskBit s'.fd.image i = diskBit s.fd.image i := by
  intro i hi
  refine diskBit_congr (h.image_of_misses hm hc (Nat.le_add_right _ _) ?_)
  unfold bitmapEnd; omega

theorem firstFree_stored (s : Lfs) :
    firstFree (slots s).stored s.count = firstFree (diskBit s.fd.image) s.count :=
  firstFree_congr fun j hj => by simp [slots, hj]

theorem firstFree_cached (s : Lfs) :
    firstFree (slots s).cached s.count = firstFree (bit s.p_bitmap) s.count :=
  firstFree_congr fun j hj => by simp [slots, hj]

theorem Sound.infoOff_of (S : Sound s) {off n len : ℕ}
    (hoff : infoOffset s.dev_size s.block_size = some off) (hn : s.bitSize = some n)
    (hlen : readBitmapSize (toInt s.dev_size) (toInt s.block_size) = some len)
    (hcov : ∀ j < n, j / 8 < len) (b : ℤ) : lookup s.fd.image off n b = recordSlot s b := by
  rw [recordSlot, Lfs.infoOff, hoff, Option.getD_some, S.count_of_cover hn hlen hcov]

theorem files_setFile (s : Lfs) (k k' : Kind) (i j : ℕ) (e : FileEntry) :
    (s.setFile k i e).files k' j = if k' = k ∧ j = i then e else s.files k' j := by
  cases k <;> cases k' <;> simp [Lfs.setFile, Lfs.files, Function.update_apply]

/-- The table of owners after an entry of one of the tables was assigned. -/
theorem owner_setFile (s : Lfs) (k : Kind) (i : ℕ) (e : FileEntry) (k' : Kind) (j : ℕ) :
    ((s.setFile k i e).files k' j).block_id = (slots s).setOwner k i e.block_id k' j := by
  rw [files_setFile, Slots.setOwner_apply]
  split_ifs <;> rfl

/-- The bits of a bitmap, cut to the slots, after one of them was set. -/
theorem cut_set {n i : ℕ} {f g : ℕ → Bool} (hin : i < n)
    (hg : ∀ j < n, g j = (f j || decide (j = i))) (j : ℕ) :
    (decide (j < n) && g j) = Function.update (fun j => decide (j < n) && f j) i true j := by
  rw [Function.update_apply]
  by_cases hj : j < n
  · rw [hg j hj]
    by_cases hji : j = i <;> simp [hj, hji, hin]
  · have hji : j ≠ i := by rintro rfl; exact hj hin
    simp [hj, hji]

/-- The bits on the device, cut to the slots, after a bitmap was written. -/
theorem cut_write {m : Image} {p : List UInt8} (hp : p.length = s.p_bitmap.length) (j : ℕ) :
    (decide (j < s.count) && diskBit (m.patch bitmapOffset p) j) =
      (decide (j < s.count) && bit p j) := by
  by_cases hj : j < s.count
  · rw [diskBit_write hp hj]
  · simp [hj]

/-- **The file system simulates `Slots`**, call by call. -/
theorem Sound.simulates (S : Sound s) (ho : Outcome s c r s')
    (hm : Misses s c bitmapOffset (bitmapEnd s.count)) :
    Slots.Step s.count (slots s) (eventOf s c r) (slots s') := by
  have hcount := ho.count S
  have hbits := diskBit_of_misses ho hm
  have hstored : ∀ j, (slots s').stored j = (decide (j < s.count) && diskBit s'.fd.image j) := by
    intro j; rw [← hcount]; rfl
  have hcached : ∀ j, (slots s').cached j = (decide (j < s.count) && bit s'.p_bitmap j) := by
    intro j; rw [← hcount]; rfl
  cases ho with
  | getattrMiss hp hoff hn hlen hcov hl =>
    rw [S.infoOff_of hoff hn hlen hcov] at hl
    rw [eventOf_miss hp hl, slots_congr hcount (hbits nofun) rfl fun _ _ => rfl]
    exact .idle
  | @getattrHit path k b off n len i hp hoff hn hlen hcov hl =>
    rw [S.infoOff_of hoff hn hlen hcov] at hl
    rw [eventOf_hit hp hl]
    obtain ⟨⟨hi, hu⟩, -, -⟩ := lookup_eq_some.1 hl
    refine (Slots.Step.note (i := i) hi (by simp [slots, hi, hu])).of_eq ?_
    ext j
    · rw [hstored]; cases k <;> rfl
    · rw [hcached]; cases k <;> rfl
    · exact owner_setFile _ _ _ _ _ _
  | readdirOther => exact .idle
  | readdirRoot hoff hn hlen hcov hd =>
    rw [slots_congr hcount (hbits nofun) rfl]
    · exact .idle
    · intro k i
      cases k with
      | metaFile => rfl
      | dataFile => exact (hd i).1
  | openFound hp hf huse =>
    have hf' := finds_of_found hf huse
    rw [eventOf_found hp hf', slots_congr hcount (fun _ _ => rfl) rfl fun k _ => by cases k <;> rfl]
    exact .reopen (finds_eq_some hf').2
  | @openMeta path b n len wlen i off v p hp hf hn hlen hfree hoff hset hw hwl =>
    rw [eventOf_new hp (finds_of_meta hf)]
    obtain ⟨hi, htake, hplen, hbit⟩ := S.metaSlot hn hlen hfree hset hw
    have hin : i < s.count := (firstFree_eq_some.1 hi).1
    refine (Slots.Step.takeMeta (i := i) ((firstFree_stored s).trans hi) fun j hj => ?_).of_eq ?_
    · exact finds_eq_none (finds_of_meta hf) nofun j (hj.le.trans (count_le_num s))
    · ext j
      · rw [hstored, htake, cut_write hplen, cut_set hin hbit]; rfl
      · rw [hcached]; rfl
      · exact owner_setFile s .metaFile i { s.pMeta i with block_id := toU64 b } _ _
  | @openData path b n wlen i off v p hp hf hn hfree hoff hset hw hwl =>
    rw [eventOf_new hp (finds_of_data hf)]
    obtain ⟨hi, htake, hplen, hbit⟩ := S.dataSlot hn hfree hset hw
    have hin : i < s.count := (firstFree_eq_some.1 hi).1
    have hcut := cut_set hin fun j _ => hbit j
    refine (Slots.Step.takeData (i := i) ((firstFree_cached s).trans hi)).of_eq ?_
    ext j
    · rw [hstored, htake, cut_write hplen, hcut]; rfl
    · rw [hcached, hcut]; rfl
    · exact owner_setFile s .dataFile i { s.pData i with block_id := toU64 b } _ _
  | read hs hr =>
    rw [slots_congr hcount (hbits nofun) rfl fun _ _ => rfl]
    exact .idle
  | write hs hw =>
    rw [slots_congr hcount (hbits nofun) rfl fun _ _ => rfl]
    exact .idle
  | release ho hw =>
    rw [slots_congr hcount (hbits nofun) rfl fun _ _ => rfl]
    exact .idle

/-! ## Who owns what -/

/-- The file and the slot a step of a run hands out. -/
def handedBy (e : Machine.Event Lfs Call Reply) : Option (Kind × ℤ × ℕ) :=
  match e.input, e.output with
  | .open path, .opened fh => (parsePath path).map fun x => (x.1, x.2, slotOf e.pre x.1 fh)
  | _, _ => none

/-- The slots `lfs_open` has handed out: the kind and the block id of the file, and the slot. -/
def handed (tr : Trace) : List (Kind × ℤ × ℕ) := tr.filterMap handedBy

/-- The handles `lfs_open` has given for a file. -/
def handlesOf (f : Kind × ℤ) (tr : Trace) : List ℕ :=
  tr.filterMap fun e =>
    match e.input, e.output with
    | .open path, .opened fh => if parsePath path = some f then some fh else none
    | _, _ => none

/-- The handle of slot `i` for a kind of files was given for no other slot. -/
def HandleFits (tr : Trace) (s : Lfs) (k : Kind) (i : ℕ) : Prop :=
  ∀ x ∈ handed tr, s.handle x.1 x.2.2 = s.handle k i → x.2.2 = i

instance (tr : Trace) (s : Lfs) (k : Kind) (i : ℕ) : Decidable (HandleFits tr s k i) :=
  inferInstanceAs (Decidable (∀ x ∈ handed tr, _ → _))

/-- The files that may be opened:
    * a file with an id other than 0, and no meta file that is in its table already;
    * a file that needs a slot, if it meets `Slots.TakeOk`;
    * only with a handle that no file in another slot has. -/
structure OpenOk (tr : Trace) (s : Lfs) (f : Kind × ℤ) : Prop where
  id : f.2 ≠ 0
  once : f.1 = .metaFile → s.finds f.1 f.2 = none
  take : s.finds f.1 f.2 = none → Slots.TakeOk s.count (slots s) (toU64 f.2) f.1
  handle : ∀ i ∈ openSlot s f.1 f.2, HandleFits tr s f.1 i

instance (tr : Trace) (s : Lfs) (f : Kind × ℤ) : Decidable (OpenOk tr s f) :=
  decidable_of_iff (f.2 ≠ 0 ∧ (f.1 = .metaFile → s.finds f.1 f.2 = none) ∧
      (s.finds f.1 f.2 = none → Slots.TakeOk s.count (slots s) (toU64 f.2) f.1) ∧
      ∀ i ∈ openSlot s f.1 f.2, HandleFits tr s f.1 i)
    ⟨fun ⟨h1, h2, h3, h4⟩ => ⟨h1, h2, h3, h4⟩, fun ⟨h1, h2, h3, h4⟩ => ⟨h1, h2, h3, h4⟩⟩

/-- The order of calls that keeps the slots owned.
    * `lfs_getattr` fills an entry only for a slot and a block that are still free;
    * a file that is opened meets `OpenOk`;
    * nothing is stored in the bitmap. -/
def ownOk : Machine.Guard Lfs Call Reply := fun tr s c =>
  match c with
  | .getattr path => ∀ x ∈ parsePath path, ∀ i ∈ recordSlot s x.2,
      Slots.NoteOk s.count (slots s) x.1 i (toU64 x.2)
  | .open path => ∀ x ∈ parsePath path, OpenOk tr s x
  | .write .. | .release .. => Misses s c bitmapOffset (bitmapEnd s.count)
  | .readdir _ | .read .. => True

instance (tr : Trace) (s : Lfs) : ∀ c, Decidable (ownOk tr s c)
  | .getattr path => inferInstanceAs (Decidable (∀ x ∈ parsePath path, ∀ i ∈ recordSlot s x.2,
      Slots.NoteOk s.count (slots s) x.1 i (toU64 x.2)))
  | .open path => inferInstanceAs (Decidable (∀ x ∈ parsePath path, OpenOk tr s x))
  | .write .. | .release .. =>
    inferInstanceAs (Decidable (Misses s _ bitmapOffset (bitmapEnd s.count)))
  | .readdir _ | .read .. => .isTrue trivial

theorem ownOk_misses (h : ownOk tr s c) : Misses s c bitmapOffset (bitmapEnd s.count) := by
  cases c with
  | write => exact h
  | release => exact h
  | _ => exact nofun

theorem toU64_ne_zero {path : List Char} {k : Kind} {b : ℤ} (hp : parsePath path = some (k, b))
    (hb : b ≠ 0) : toU64 b ≠ 0 :=
  fun h => hb ((toU64_eq_zero (parsePath_isInt hp)).1 h)

/-- The condition on the calls is the condition on the events. -/
theorem Sound.event_ok (S : Sound s) (hok : ownOk tr s c) (ho : Outcome s c r s') :
    Slots.Ok s.count (slots s) (eventOf s c r) := by
  cases ho with
  | getattrMiss hp hoff hn hlen hcov hl =>
    rw [S.infoOff_of hoff hn hlen hcov] at hl
    rw [eventOf_miss hp hl]; trivial
  | getattrHit hp hoff hn hlen hcov hl =>
    rw [S.infoOff_of hoff hn hlen hcov] at hl
    rw [eventOf_hit hp hl]
    exact hok _ hp _ hl
  | openFound hp hf huse =>
    rw [eventOf_found hp (finds_of_found hf huse)]
    exact toU64_ne_zero hp (hok _ hp).id
  | openMeta hp hf =>
    rw [eventOf_new hp (finds_of_meta hf)]
    exact ⟨toU64_ne_zero hp (hok _ hp).id, (hok _ hp).take (finds_of_meta hf)⟩
  | openData hp hf =>
    rw [eventOf_new hp (finds_of_data hf)]
    exact ⟨toU64_ne_zero hp (hok _ hp).id, (hok _ hp).take (finds_of_data hf)⟩
  | _ => trivial

theorem handedBy_eq_some {k : Kind} {b : ℤ} {i : ℕ} (h : handedBy ⟨s, c, r⟩ = some (k, b, i)) :
    ∃ path fh, c = .open path ∧ r = .opened fh ∧ parsePath path = some (k, b) ∧
      slotOf s k fh = i := by
  unfold handedBy at h
  split at h
  · rename_i path fh hc hr
    obtain ⟨⟨k', b'⟩, hp, he⟩ := Option.map_eq_some_iff.1 h
    obtain ⟨rfl, rfl, rfl⟩ : k' = k ∧ b' = b ∧ slotOf s k' fh = i := by simpa using he
    exact ⟨path, fh, hc, hr, hp, rfl⟩
  · cases h

theorem handedBy_open {path : List Char} {k : Kind} {b : ℤ} {fh : ℕ}
    (hp : parsePath path = some (k, b)) :
    handedBy ⟨s, .open path, .opened fh⟩ = some (k, b, slotOf s k fh) := by
  unfold handedBy; dsimp only
  rw [hp, Option.map_some]

/-- A file found in its table gets the handle of its slot. -/
theorem Outcome.found_handle {path : List Char} {fh j : ℕ} {k : Kind} {b : ℤ}
    (h : Outcome s (.open path) (.opened fh) s') (hp : parsePath path = some (k, b))
    (hf : s.finds k b = some j) : fh = s.handle k j := by
  cases h with
  | openFound hp' hf' huse =>
    cases hp.symm.trans hp'
    rw [Option.some.inj (hf.symm.trans (finds_of_found hf' huse))]
  | openMeta hp' hf' => cases hp.symm.trans hp'; cases hf.symm.trans (finds_of_meta hf')
  | openData hp' hf' => cases hp.symm.trans hp'; cases hf.symm.trans (finds_of_data hf')

/-- What a step hands out, its event hands out. -/
theorem placed_of_handedBy {k : Kind} {b : ℤ} {i : ℕ}
    (h : handedBy ⟨s, c, r⟩ = some (k, b, i)) :
    (eventOf s c r).placed = some (k, toU64 b, i) ∧ IsInt b := by
  obtain ⟨path, fh, rfl, rfl, hp, rfl⟩ := handedBy_eq_some h
  refine ⟨?_, parsePath_isInt hp⟩
  rw [eventOf, hp, Option.map_some, Option.getD_some]
  split_ifs <;> rfl

/-- A slot is taken by opening a file that is not found. -/
theorem eventOf_eq_take {k : Kind} {i b : ℕ} (h : eventOf s c r = .take k i b) :
    ∃ path fh z, c = .open path ∧ r = .opened fh ∧ parsePath path = some (k, z) ∧
      s.finds k z = none ∧ slotOf s k fh = i := by
  unfold eventOf at h
  split at h
  · rename_i path
    cases hp : parsePath path with
    | none => rw [hp] at h; cases h
    | some x =>
      rw [hp, Option.bind_some] at h
      cases hr : recordSlot s x.2 with
      | none => rw [hr] at h; cases h
      | some i => rw [hr] at h; cases h
  · rename_i path fh
    cases hp : parsePath path with
    | none => rw [hp] at h; cases h
    | some x =>
      rw [hp, Option.map_some, Option.getD_some] at h
      split_ifs at h with hf
      cases h
      exact ⟨path, fh, x.2, rfl, rfl, hp, by simpa using hf, rfl⟩
  · cases h

theorem mem_handed_cons {x : Kind × ℤ × ℕ} :
    x ∈ handed (⟨s, c, r⟩ :: tr) ↔ handedBy ⟨s, c, r⟩ = some x ∨ x ∈ handed tr := by
  rw [handed, handed, List.filterMap_cons]
  cases handedBy ⟨s, c, r⟩ with
  | none => simp
  | some y => simp [eq_comm]

theorem mem_handlesOf_cons (h : fh ∈ handlesOf f (⟨s, c, r⟩ :: tr)) :
    (∃ path, c = .open path ∧ r = .opened fh ∧ parsePath path = some f) ∨
      fh ∈ handlesOf f tr := by
  obtain ⟨e, he, hfh⟩ := List.mem_filterMap.1 h
  rcases List.mem_cons.1 he with rfl | he
  · left
    cases c with
    | «open» path =>
      cases r with
      | opened fh' =>
        dsimp only at hfh
        split_ifs at hfh with hp
        exact ⟨path, rfl, congrArg Reply.opened (Option.some.inj hfh), hp⟩
      | _ => cases hfh
    | _ => cases hfh
  · exact .inr (List.mem_filterMap.2 ⟨e, he, hfh⟩)

/-- A slot was handed out for the file, and the handle is that of the slot and holds it. -/
def Holds (tr : Trace) (s : Lfs) (k : Kind) (b : ℤ) (fh : ℕ) : Prop :=
  ∃ i, (k, b, i) ∈ handed tr ∧ fh = s.handle k i ∧ (s.pFd fh).data_block_id = i

/-- The invariant: the slots are owned, what was handed out is still in the tables, and every
    handle holds its slot. -/
structure OwnInv (tr : Trace) (s : Lfs) : Prop where
  sound : Sound s
  owned : Slots.Owned s.count (slots s)
  log : ∀ k b i, (k, b, i) ∈ handed tr →
    IsInt b ∧ toU64 b ≠ 0 ∧ (slots s).table k i = toU64 b
  held : ∀ k b, ∀ fh ∈ handlesOf (k, b) tr, Holds tr s k b fh

namespace OwnInv
variable (H : OwnInv tr s) (hok : ownOk tr s c) (ho : Outcome s c r s')
include H hok ho

/-- What was handed out stays in the tables. -/
theorem log_step (hmem : (k, b, i) ∈ handed (⟨s, c, r⟩ :: tr)) :
    IsInt b ∧ toU64 b ≠ 0 ∧ (slots s').table k i = toU64 b := by
  have hev := H.sound.event_ok hok ho
  have hst := H.sound.simulates ho (ownOk_misses hok)
  rcases mem_handed_cons.1 hmem with hby | hmem
  · obtain ⟨hpl, hint⟩ := placed_of_handedBy hby
    refine ⟨hint, ?_, hst.placed hpl⟩
    cases he : eventOf s c r with
    | idle => rw [he] at hpl; cases hpl
    | note => rw [he] at hpl; cases hpl
    | reopen => rw [he] at hev hpl; cases hpl; exact hev
    | take => rw [he] at hev hpl; cases hpl; exact hev.1
  · obtain ⟨hint, hb, htab⟩ := H.log k b i hmem
    exact ⟨hint, hb, (H.owned.kept hev hst (htab ▸ hb)).trans htab⟩

/-- A handle given before keeps its slot: a file in another slot gets another handle. -/
theorem held_before (hfh : fh ∈ handlesOf (k, b) tr) : Holds (⟨s, c, r⟩ :: tr) s' k b fh := by
  obtain ⟨i, hmem, heq, hd⟩ := H.held k b fh hfh
  refine ⟨i, mem_handed_cons.2 (.inr hmem), heq.trans (ho.handle k i).symm, ?_⟩
  by_cases hopen : ∃ path, c = .open path
  · obtain ⟨path, rfl⟩ := hopen
    obtain ⟨fh', rfl⟩ : ∃ fh', r = .opened fh' := by cases ho <;> exact ⟨_, rfl⟩
    obtain ⟨k', b', hp⟩ : ∃ k' b', parsePath path = some (k', b') := by
      cases ho <;> exact ⟨_, _, ‹_›⟩
    obtain ⟨j, hj, heq', hslot, hother⟩ := ho.opened hp
    by_cases hne : fh = fh'
    · have hsame : s.handle k i = s.handle k' j := heq.symm.trans (hne.trans heq')
      have hij : i = j := (hok _ hp).handle j hj (k, b, i) hmem hsame
      rw [hne, hslot (hok _ hp).once, hij]
    · rw [hother fh hne, hd]
  · rw [ho.data_block_id (fun path h => hopen ⟨path, h⟩), hd]

theorem held_step (hfh : fh ∈ handlesOf (k, b) (⟨s, c, r⟩ :: tr)) :
    Holds (⟨s, c, r⟩ :: tr) s' k b fh := by
  rcases mem_handlesOf_cons hfh with ⟨path, rfl, rfl, hp⟩ | hfh
  · obtain ⟨i, -, rfl, hslot, -⟩ := ho.opened hp
    refine ⟨i, mem_handed_cons.2 (.inl ?_), (ho.handle k i).symm, hslot (hok _ hp).once⟩
    rw [handedBy_open hp, slotOf_handle]
  · exact H.held_before hok ho hfh

/-- **A call that meets the condition keeps the slots owned.** -/
theorem step : OwnInv (⟨s, c, r⟩ :: tr) s' where
  sound := H.sound.step ho
  owned := ho.count H.sound ▸
    H.owned.step (H.sound.event_ok hok ho) (H.sound.simulates ho (ownOk_misses hok))
  log _ _ _ := H.log_step hok ho
  held _ _ _ := H.held_step hok ho

end OwnInv

/-- In the state `main` builds no slot has an owner. -/
theorem owned_main (hm : main image = some s) : Slots.Owned s.count (slots s) := by
  have htab : ∀ k i, (slots s).table k i = 0 := by
    obtain ⟨len, -, rfl⟩ := main_eq_some hm
    intro k i; cases k <;> rfl
  have hsame : ∀ i < s.count, (slots s).cached i = (slots s).stored i := by
    intro i hi
    simp only [slots, main_bit hm hi]
  refine ⟨?_, ?_, ?_, ?_, fun k i _ => htab k i, ?_⟩
  · intro i hi h; rw [← hsame i hi]; exact h
  · intro i hi h; left; rw [hsame i hi]; exact h
  · intro i _ h; exact absurd (htab _ _) h
  · intro i _ h; exact absurd (htab _ _) h.1
  · intro k _ i _ h; exact absurd (htab k i) h

theorem ownInv_run (hbs : (superBlock image).s_block_size < 2 ^ 31)
    (h : Mount image ownOk tr s) : OwnInv tr s := by
  obtain ⟨s₀, hm, hr⟩ := h
  refine hr.invariant OwnInv ⟨sound_main hbs hm, owned_main hm, nofun, nofun⟩ ?_
  intro tr s c r s' ih hok hst
  exact ih.step hok (step_outcome hst)

/-- The handles of two files hold the same slot exactly when the files belong to one block. -/
def SlotsOwned (tr : Trace) (s : Lfs) : Prop :=
  ∀ k b k' b', ∀ fh ∈ handlesOf (k, b) tr, ∀ fh' ∈ handlesOf (k', b') tr,
    (s.pFd fh).data_block_id = (s.pFd fh').data_block_id ↔ b = b'

/-- **Slots are owned**: in every run in which the data files follow their meta files in order, no
    meta file is opened twice and files in different slots have different handles, the handles
    of two files hold the same slot exactly when the files belong to one block. -/
theorem slots_owned (hbs : (superBlock image).s_block_size < 2 ^ 31) (h : Mount image ownOk tr s) :
    SlotsOwned tr s := by
  have H := ownInv_run hbs h
  intro k b k' b' fh hfh fh' hfh'
  obtain ⟨i, hmem, -, hd⟩ := H.held k b fh hfh
  obtain ⟨i', hmem', -, hd'⟩ := H.held k' b' fh' hfh'
  obtain ⟨hint, hb, htab⟩ := H.log k b i hmem
  obtain ⟨hint', hb', htab'⟩ := H.log k' b' i' hmem'
  have hslots := H.owned.owner k k' i i' (htab ▸ hb) (htab' ▸ hb')
  rw [htab, htab', toU64_inj hint hint'] at hslots
  rwa [hd, hd']

/-- Three meta files, then the data files of two of the blocks, one of which is written, released
    and opened again. -/
theorem slots_owned_in_order : ∃ tr s, mountExec blankDevice ownOk
      [.open (metaPath 1 1001), .open (metaPath 2 1001), .open (metaPath 3 1001),
        .open (dataPath 1), .write 6 [7] 0, .release 6 noRecord, .open (dataPath 2),
        .open (dataPath 1)] = some (tr, s) ∧
    [3, 4, 5, 6, 7].map (fun fh => (s.pFd fh).data_block_id) = [0, 1, 2, 0, 1] ∧
    SlotsOwned tr s := by
  obtain ⟨tr, s, he, hm, hheld⟩ := Machine.exists_exec system ownOk (main blankDevice)
    [.open (metaPath 1 1001), .open (metaPath 2 1001), .open (metaPath 3 1001),
      .open (dataPath 1), .write 6 [7] 0, .release 6 noRecord, .open (dataPath 2),
      .open (dataPath 1)]
    (fun _ s => [3, 4, 5, 6, 7].map (fun fh => (s.pFd fh).data_block_id) = [0, 1, 2, 0, 1])
    (by decide +kernel)
  exact ⟨tr, s, he, hheld, slots_owned (by decide +kernel) hm⟩

/-- The data file first: its meta file gets another slot. -/
theorem slots_shared_wrongly : ∃ tr s, mountExec blankDevice Machine.anyStep
      [.open (dataPath 1), .open (metaPath 1 1001)] = some (tr, s) ∧
    Mount blankDevice Machine.anyStep tr s ∧
    handlesOf (.dataFile, 1) tr = [6] ∧ (s.pFd 6).data_block_id = 0 ∧
    handlesOf (.metaFile, 1) tr = [4] ∧ (s.pFd 4).data_block_id = 1 ∧ ¬ SlotsOwned tr s := by
  obtain ⟨tr, s, he, hm, hdata, hd, hmeta, hd'⟩ := Machine.exists_exec system Machine.anyStep
    (main blankDevice) [.open (dataPath 1), .open (metaPath 1 1001)]
    (fun tr s => handlesOf (.dataFile, 1) tr = [6] ∧ (s.pFd 6).data_block_id = 0 ∧
      handlesOf (.metaFile, 1) tr = [4] ∧ (s.pFd 4).data_block_id = 1) (by decide +kernel)
  refine ⟨tr, s, he, hm, hdata, hd, hmeta, hd', fun howned => ?_⟩
  have hslot := (howned .dataFile 1 .metaFile 1 6 (by simp [hdata]) 4 (by simp [hmeta])).2 rfl
  rw [hd, hd'] at hslot
  cases hslot

end Rewrite
