/-
  A device over all its mounts.

  `rewrite.c` has no `destroy`: unmounting stores nothing, and `main` starts
  again from what the device holds.  A crash during a call leaves any of the
  bytes the call stores (`Image.torn`).

    - `lifetime`: the operations of a mount, unmounting and crashes;
    - `lifeOk`: `lfs_write` and `lfs_release` store nothing in the superblock and
      the bitmap;
    - `data_slots_once`: the slots given to data files increase over all mounts,
      were clear on the first device and stay marked, and no later file gets
      one of them, whatever crashed in between.
-/
import NvmfHdfs.Lib.Crash
import NvmfHdfs.Lib.FirstFit
import NvmfHdfs.Operations
import NvmfHdfs.Rewrite.Ownership

namespace Slots

open Bitmap Path FirstFit

variable {β : Type} {n : ℕ} {a a' : Slots β} {e : Event β}

/-- The slot a file newly takes. -/
def Event.taken : Event β → Option (Kind × ℕ)
  | .take k i _ => some (k, i)
  | .idle | .note .. | .reopen .. => none

/-- The stored copy shows what the cached one shows. -/
def Covered (a : Slots β) : Prop := marked a.cached ⊆ marked a.stored

theorem covered_step (h : Covered a) (hs : Step n a e a') : Covered a' := by
  cases hs with
  | idle => exact h
  | note => exact h
  | reopen => exact h
  | takeMeta =>
    unfold Covered
    rw [marked_update]
    exact h.trans (Set.subset_insert _ _)
  | takeData => exact subset_rfl

/-- The cached copy only grows. -/
theorem cached_grows (hs : Step n a e a') : marked a.cached ⊆ marked a'.cached := by
  cases hs with
  | idle => exact subset_rfl
  | note => exact subset_rfl
  | reopen => exact subset_rfl
  | takeMeta => exact subset_rfl
  | takeData => rw [marked_update]; exact Set.subset_insert _ _

/-- The slots among newly taken ones that went to data files. -/
def ofData : List (Kind × ℕ) → List ℕ
  | [] => []
  | (.dataFile, i) :: l => i :: ofData l
  | (.metaFile, _) :: l => ofData l

theorem mem_ofData {i : ℕ} : ∀ {l : List (Kind × ℕ)}, i ∈ ofData l ↔ (Kind.dataFile, i) ∈ l
  | [] => by simp [ofData]
  | (.dataFile, j) :: l => by simp [ofData, mem_ofData]
  | (.metaFile, j) :: l => by simp [ofData, mem_ofData]

/-- Data files take their slots first-fit from the cached copy. -/
theorem fits_step {u₀ : Set ℕ} {l : List (Kind × ℕ)} (h : Fits u₀ (ofData l) (marked a.cached))
    (hs : Step n a e a') :
    Fits u₀ (ofData (e.taken.toList ++ l)) (marked a'.cached) := by
  cases hs with
  | idle => exact h
  | note => exact h
  | reopen => exact h
  | takeMeta => exact h
  | takeData hi =>
    rw [marked_update]
    exact h.take (firstFree_isLeast hi)

/-- A slot that is newly taken is greater than those data files have. -/
theorem taken_above {u₀ : Set ℕ} {l : List (Kind × ℕ)} {k : Kind} {i j : ℕ}
    (h : Fits u₀ (ofData l) (marked a.cached)) (hc : Covered a) (hs : Step n a e a')
    (he : e.taken = some (k, i)) (hj : (.dataFile, j) ∈ l) : j < i := by
  cases hs with
  | idle => cases he
  | note => cases he
  | reopen => cases he
  | takeMeta hi =>
    cases he
    exact h.above hc (firstFree_isLeast hi) (mem_ofData.2 hj)
  | takeData hi =>
    cases he
    exact h.above subset_rfl (firstFree_isLeast hi) (mem_ofData.2 hj)

end Slots

namespace Rewrite

open CInt Layout Bitmap Path Records Slots FirstFit Operations

variable {s s' : Lfs} {image m : Image} {c : Call} {r : Reply} {k : Kind} {a i : ℕ}
  {q : Request Call} {kept : ℕ → Bool}

/-! ## The machine -/

/-- What `malloc` gives `main` for `pMeta`, `pData` and `pFd`. -/
structure Tables where
  pMeta : ℕ → FileEntry
  pData : ℕ → FileEntry
  pFd : ℕ → FileFd

/-- Memory that is zero. -/
def zeroTables : Tables := ⟨fun _ => ⟨0, 0, []⟩, fun _ => ⟨0, 0, []⟩, fun _ => ⟨0, 0, 0, 0, 0, 0⟩⟩

/-- Mounting a device with anything in the tables, which `main` does not clear. -/
def mainOn (tables : Tables) (image : Image) : Option Lfs :=
  (main image).map fun s =>
    { s with pMeta := tables.pMeta, pData := tables.pData, pFd := tables.pFd }

/-- What happens to a device: a request, unmounting and mounting again, or a crash. -/
abbrev LifeInput := CrashInput (Request Call) Tables

/-- A step of a lifetime. -/
abbrev LifeEvent := Machine.Event Lfs LifeInput (Option (Answer Reply))

/-- The operations of the mounts of a device, unmounting it and mounting it again, and crashes. -/
def lifetime : Machine Lfs LifeInput (Option (Answer Reply)) :=
  (uOperation system).crashing (fun s => s.fd.image) mainOn

/-- The steps taken over all mounts, the newest first. -/
abbrev History := List LifeEvent

/-- What a device goes through, from its first mount. -/
def Life (image : Image) (ok : Machine.Guard Lfs LifeInput (Option (Answer Reply)))
    (tr : History) (s : Lfs) : Prop :=
  ∃ tables s₀, mainOn tables image = some s₀ ∧ lifetime.Run ok s₀ tr s

/-- A request that stores nothing in the superblock and the bitmap, an allocation apart. -/
def lifeOk : Lfs → Request Call → Prop :=
  requestOk fun s c => Misses s c 0 (bitmapEnd s.count)

instance (s : Lfs) (q : Request Call) : Decidable (lifeOk s q) :=
  inferInstanceAs (Decidable (requestOk _ s q))

/-- Mounting a device for the first time and making the given requests. -/
def lifeExec (tables : Tables) (image : Image) (xs : List LifeInput) :
    Option (History × Lfs) :=
  Machine.execFrom lifetime (Machine.crashOk lifeOk) (mainOn tables image) xs

/-- The slot that a step gives to a new file. -/
def slotTaken (e : LifeEvent) : Option (Kind × ℕ) :=
  match e.input, e.output with
  | .call (.call c), some (.reply r) => (eventOf e.pre c r).taken
  | _, _ => none

/-- The slots given to new files, with their kinds, the newest first. -/
def slotsTaken (tr : History) : List (Kind × ℕ) := tr.filterMap slotTaken

/-! ## One request -/

theorem Misses.sub {lo hi lo' hi' : ℕ} (h : Misses s c lo hi) (hlo : lo ≤ lo') (hhi : hi' ≤ hi) :
    Misses s c lo' hi' := by
  intro x hx
  have := h x hx
  omega

/-- A call leaves the superblock. -/
theorem Outcome.superblock (ho : Outcome s c r s') (hm : Misses s c 0 bitmapOffset)
    (ha : a < bitmapOffset) : s'.fd.image a = s.fd.image a := by
  cases c with
  | «open» path =>
    cases ho with
    | openFound => rfl
    | openMeta => exact Image.patch_of_lt ha
    | openData => exact Image.patch_of_lt ha
  | _ => exact ho.image_of_misses hm nofun (Nat.zero_le _) ha

/-- What a request keeps of a device whose bitmap is covered. -/
structure Kept (s s' : Lfs) : Prop where
  sound : Sound s'
  dev_size : s'.dev_size = s.dev_size
  block_size : s'.block_size = s.block_size
  superblock : ∀ a < bitmapOffset, s'.fd.image a = s.fd.image a
  covered : Covered (slots s')
  grows : marked (slots s).cached ⊆ marked (slots s').cached

theorem kept_of_request {x : Answer Reply} (S : Sound s) (hc : Covered (slots s)) (hok : lifeOk s q)
    (h : (uOperation system).step s q = some (x, s')) : Kept s s' := by
  rcases uOperation_cases h with ⟨c, r, rfl, rfl, hc'⟩ | ⟨-, rfl⟩
  · have ho := step_outcome hc'
    have hst := S.simulates ho (hok.sub (Nat.zero_le _) le_rfl)
    exact ⟨S.step ho, ho.dev_size, ho.block_size, fun a ha =>
      ho.superblock (hok.sub le_rfl (Nat.le_add_right ..)) ha,
      covered_step hc hst, cached_grows hst⟩
  · exact ⟨S, rfl, rfl, fun _ _ => rfl, hc, subset_rfl⟩

/-! ## Starting again -/

/-- The number of slots shown depends on the sizes only. -/
theorem Sound.count_congr (S : Sound s) (S' : Sound s') (hd : s'.dev_size = s.dev_size)
    (hb : s'.block_size = s.block_size) : s'.count = s.count := by
  have hlen := S'.read
  rw [hd, hb, S.read] at hlen
  rw [Lfs.count, Lfs.count, Lfs.bitSize, Lfs.bitSize, Lfs.num, Lfs.num, hd, hb,
    Option.some.inj hlen]

theorem mem_cached : i ∈ marked (slots s).cached ↔ i < s.count ∧ bit s.p_bitmap i = true := by
  simp [marked, slots]

theorem mem_stored : i ∈ marked (slots s).stored ↔ i < s.count ∧ diskBit s.fd.image i = true := by
  simp [marked, slots]

/-- What a fresh mount has, whatever is in the tables. -/
structure Mounted (image : Image) (s : Lfs) : Prop where
  sound : (superBlock image).s_block_size < 2 ^ 31 → Sound s
  dev_size : s.dev_size = (superBlock image).s_dev_size
  block_size : s.block_size = (superBlock image).s_block_size
  disk : s.fd.image = image
  bits : ∀ i < s.count, bit s.p_bitmap i = diskBit image i

theorem mounted_of_main {tables : Tables} (h : mainOn tables image = some s) :
    Mounted image s := by
  obtain ⟨t, hm, rfl⟩ := Option.map_eq_some_iff.1 h
  obtain ⟨hd, hb⟩ := main_sizes hm
  have hdisk : t.fd.image = image := by
    obtain ⟨len, -, h₀⟩ := main_eq_some hm
    rw [h₀, mounted]
  refine ⟨fun hbs => ?_, hd, hb, hdisk, fun i hi => ?_⟩
  · have S := sound_main hbs hm
    exact ⟨S.read, S.write⟩
  · have hcount : i < t.count := by rw [Lfs.count] at hi ⊢; exact hi
    rw [← hdisk]
    exact main_bit hm hcount

/-- A mount of a device with the superblock of `s`, on which the slots marked in the memory of
    `s` are marked. -/
theorem kept_of_start (S : Sound s) (hbs : s.block_size < 2 ^ 31)
    (hsuper : (superBlock m).s_dev_size = s.dev_size ∧ (superBlock m).s_block_size = s.block_size)
    (hbits : ∀ i ∈ marked (slots s).cached, diskBit m i = true) (M : Mounted m s') :
    Sound s' ∧ s'.count = s.count ∧ Covered (slots s') ∧
      marked (slots s).cached ⊆ marked (slots s').cached := by
  have S' : Sound s' := M.sound (by rw [hsuper.2]; exact hbs)
  have hcount := S.count_congr S' (M.dev_size.trans hsuper.1) (M.block_size.trans hsuper.2)
  refine ⟨S', hcount, fun i hi => ?_, fun i hi => ?_⟩
  · obtain ⟨hlt, hbit⟩ := mem_cached.1 hi
    rw [M.bits i hlt, ← M.disk] at hbit
    exact mem_stored.2 ⟨hlt, hbit⟩
  · have hlt : i < s'.count := by rw [hcount]; exact (mem_cached.1 hi).1
    refine mem_cached.2 ⟨hlt, ?_⟩
    rw [M.bits i hlt]
    exact hbits i hi

/-- Slots that are marked in memory before a request are marked on a device torn by it. -/
theorem torn_bits {x : Answer Reply} (S : Sound s) (hc : Covered (slots s)) (hok : lifeOk s q)
    (h : (uOperation system).step s q = some (x, s')) :
    ∀ i ∈ marked (slots s).cached, diskBit (Image.torn kept s.fd.image s'.fd.image) i = true := by
  intro i hi
  have K := kept_of_request S hc hok h
  have hold := (mem_stored.1 (hc hi)).2
  have hnew := (mem_stored.1 (K.covered (K.grows hi))).2
  rcases Image.torn_cases kept s.fd.image s'.fd.image (bitmapOffset + i / 8) with he | he
  · rw [diskBit_congr he, hold]
  · rw [diskBit_congr he, hnew]

/-! ## The invariant -/

variable {tr : History} {x : LifeInput} {o : Option (Answer Reply)}

/-- The invariant over all mounts of a device. -/
structure LifeInv (image : Image) (tr : History) (s : Lfs) : Prop where
  sound : Sound s
  superblock : ∀ a < bitmapOffset, s.fd.image a = image a
  dev_size : s.dev_size = (superBlock image).s_dev_size
  block_size : s.block_size = (superBlock image).s_block_size
  covered : Covered (slots s)
  fits : Fits (marked fun i => decide (i < s.count) && diskBit image i) (ofData (slotsTaken tr))
    (marked (slots s).cached)
  order : (slotsTaken tr).Pairwise fun later earlier => earlier.1 = .dataFile → earlier.2 < later.2

theorem slotsTaken_cons_none {e : LifeEvent}
    (h : slotTaken e = none) : slotsTaken (e :: tr) = slotsTaken tr :=
  List.filterMap_cons_none h

theorem slotsTaken_cons (c : Call) (r : Reply) :
    slotsTaken (⟨s, .call (.call c), some (.reply r)⟩ :: tr) =
      (eventOf s c r).taken.toList ++ slotsTaken tr := by
  have h : slotTaken ⟨s, .call (.call c), some (.reply r)⟩ = (eventOf s c r).taken := rfl
  cases ht : (eventOf s c r).taken with
  | none => exact List.filterMap_cons_none (h.trans ht)
  | some y => exact List.filterMap_cons_some (h.trans ht)

namespace LifeInv
variable (H : LifeInv image tr s)
include H

/-- A request keeps the invariant. -/
theorem request {y : Answer Reply} (hok : lifeOk s q)
    (h : (uOperation system).step s q = some (y, s')) :
    LifeInv image (⟨s, .call q, some y⟩ :: tr) s' := by
  have K := kept_of_request H.sound H.covered hok h
  have hcount := H.sound.count_congr K.sound K.dev_size K.block_size
  refine ⟨K.sound, fun a ha => (K.superblock a ha).trans (H.superblock a ha),
    K.dev_size.trans H.dev_size, K.block_size.trans H.block_size, K.covered, ?_, ?_⟩
  · rw [hcount]
    rcases uOperation_cases h with ⟨c, r, rfl, rfl, hc⟩ | ⟨hq, rfl⟩
    · rw [slotsTaken_cons]
      exact fits_step H.fits (H.sound.simulates (step_outcome hc)
        (Misses.sub hok (Nat.zero_le _) le_rfl))
    · have hnone : slotTaken ⟨s', .call q, some y⟩ = none := by
        cases q with
        | call c => exact absurd rfl (hq c)
        | _ => rfl
      rw [slotsTaken_cons_none hnone]
      exact H.fits
  · rcases uOperation_cases h with ⟨c, r, rfl, rfl, hc⟩ | ⟨hq, rfl⟩
    · rw [slotsTaken_cons]
      cases ht : (eventOf s c r).taken with
      | none => exact H.order
      | some z =>
        refine List.pairwise_cons.2 ⟨?_, H.order⟩
        rintro ⟨k', j⟩ hj rfl
        exact taken_above H.fits H.covered
          (H.sound.simulates (step_outcome hc) (Misses.sub hok (Nat.zero_le _) le_rfl)) ht hj
    · have hnone : slotTaken ⟨s', .call q, some y⟩ = none := by
        cases q with
        | call c => exact absurd rfl (hq c)
        | _ => rfl
      rw [slotsTaken_cons_none hnone]
      exact H.order

/-- Starting again keeps the invariant. -/
theorem start {x : LifeInput} (hbs : (superBlock image).s_block_size < 2 ^ 31)
    (hx : ∀ q, x ≠ .call q) (hsuper : ∀ a < bitmapOffset, m a = s.fd.image a)
    (hbits : ∀ i ∈ marked (slots s).cached, diskBit m i = true) (M : Mounted m s') :
    LifeInv image (⟨s, x, none⟩ :: tr) s' := by
  have hsb : superBlock m = superBlock image :=
    superBlock_congr fun a ha => (hsuper a ha).trans (H.superblock a ha)
  obtain ⟨S', hcount, hcov, hgrows⟩ := kept_of_start H.sound (H.block_size ▸ hbs)
    ⟨by rw [hsb, H.dev_size], by rw [hsb, H.block_size]⟩ hbits M
  have hnone : slotTaken ⟨s, x, none⟩ = none := by
    cases x with
    | call q => exact absurd rfl (hx q)
    | _ => rfl
  refine ⟨S', fun a ha => ?_, by rw [M.dev_size, hsb], by rw [M.block_size, hsb], hcov, ?_, ?_⟩
  · rw [M.disk, hsuper a ha, H.superblock a ha]
  · rw [slotsTaken_cons_none hnone, hcount]
    exact H.fits.grow hgrows
  · rw [slotsTaken_cons_none hnone]
    exact H.order

/-- Every step of a lifetime keeps the invariant. -/
theorem step (hbs : (superBlock image).s_block_size < 2 ^ 31)
    (hok : Machine.crashOk lifeOk tr s x) (h : lifetime.step s x = some (o, s')) :
    LifeInv image (⟨s, x, o⟩ :: tr) s' := by
  cases x with
  | call q =>
    obtain ⟨y, rfl, hst⟩ := Machine.crashing_call h
    exact H.request hok hst
  | restart tables =>
    obtain ⟨rfl, hm⟩ := Machine.crashing_restart h
    exact H.start hbs nofun (fun _ _ => rfl) (fun i hi => (mem_stored.1 (H.covered hi)).2)
      (mounted_of_main hm)
  | crash q kept tables =>
    obtain ⟨rfl, y, t, hst, hm⟩ := Machine.crashing_crash h
    refine H.start hbs nofun (fun a ha => ?_) (torn_bits H.sound H.covered hok hst)
      (mounted_of_main hm)
    exact Image.torn_of_eq ((kept_of_request H.sound H.covered hok hst).superblock a ha)

end LifeInv

theorem lifeInv_main (hbs : (superBlock image).s_block_size < 2 ^ 31) (M : Mounted image s) :
    LifeInv image [] s := by
  have hcached : ∀ i, (slots s).cached i = (decide (i < s.count) && diskBit image i) := by
    intro i
    by_cases hi : i < s.count
    · simp [slots, hi, M.bits i hi]
    · simp [slots, hi]
  refine ⟨M.sound hbs, fun a _ => by rw [M.disk], M.dev_size, M.block_size, fun i hi => ?_, ?_,
    .nil⟩
  · obtain ⟨hlt, hbit⟩ := mem_cached.1 hi
    rw [M.bits i hlt, ← M.disk] at hbit
    exact mem_stored.2 ⟨hlt, hbit⟩
  · rw [show (slots s).cached = _ from funext hcached]
    exact .nil

/-- The invariant holds in every state of every lifetime. -/
theorem lifeInv_run (hbs : (superBlock image).s_block_size < 2 ^ 31)
    (h : Life image (Machine.crashOk lifeOk) tr s) : LifeInv image tr s := by
  obtain ⟨tables, s₀, hm, hr⟩ := h
  refine hr.invariant (LifeInv image) (lifeInv_main hbs (mounted_of_main hm)) ?_
  intro tr s x o s' ih hok hst
  exact ih.step hbs hok hst

/-- **A slot is given to one data file only, in all mounts of a device** whose block size is an
    `int`.  However often the device is unmounted or a call is cut off by a crash, as long as
    transfers and releases stay out of the superblock and the bitmap: slots given to data files
    increase, and every file opened later gets a greater one; each was clear at first and is marked
    from then on; and there are no more of them than slots were clear. -/
theorem data_slots_once (hbs : (superBlock image).s_block_size < 2 ^ 31)
    (h : Life image (Machine.crashOk lifeOk) tr s) :
    ((slotsTaken tr).Pairwise fun later earlier => earlier.1 = .dataFile → earlier.2 < later.2) ∧
    (∀ i, (.dataFile, i) ∈ slotsTaken tr → diskBit image i = false ∧ diskBit s.fd.image i = true) ∧
    (ofData (slotsTaken tr)).length ≤
      ((List.range (blockNum (superBlock image).s_dev_size (superBlock image).s_block_size)).filter
        fun i => !diskBit image i).length := by
  have H := lifeInv_run hbs h
  have hfresh : ∀ i ∈ ofData (slotsTaken tr), i < s.count ∧ diskBit image i = false ∧
      diskBit s.fd.image i = true := by
    intro i hi
    obtain ⟨hnot, hin⟩ := H.fits.fresh hi
    obtain ⟨hlt, hbit⟩ := mem_stored.1 (H.covered hin)
    exact ⟨hlt, by simpa [marked, hlt] using hnot, hbit⟩
  refine ⟨H.order, fun i hi => (hfresh i (mem_ofData.2 hi)).2, H.fits.length_le fun i hi _ => ?_⟩
  obtain ⟨hlt, hclear, -⟩ := hfresh i hi
  have hnum : s.num = blockNum (superBlock image).s_dev_size (superBlock image).s_block_size := by
    rw [Lfs.num, H.dev_size, H.block_size]
  refine List.mem_filter.2 ⟨List.mem_range.2 ?_, by simpa using hclear⟩
  rw [← hnum]
  exact hlt.trans_le (count_le_num s)

/-- A data file, a crash that loses the bitmap of the next one, a meta file, and another mount. -/
theorem data_slots_once_crash : ∃ tr s, lifeExec zeroTables blankDevice
      [.call (.call (.open (dataPath 1))), .call (.call (.write 6 [7] 0)),
      .crash (.call (.open (dataPath 2))) (fun a => a % 2 = 1) zeroTables,
      .call (.call (.open (metaPath 3 1001))), .restart zeroTables] = some (tr, s) ∧
    slotsTaken tr = [(.metaFile, 1), (.dataFile, 0)] ∧
    ((slotsTaken tr).Pairwise fun later earlier => earlier.1 = .dataFile → earlier.2 < later.2) ∧
    (∀ i, (.dataFile, i) ∈ slotsTaken tr →
      diskBit blankDevice i = false ∧ diskBit s.fd.image i = true) ∧
    (ofData (slotsTaken tr)).length ≤
      ((List.range (blockNum (superBlock blankDevice).s_dev_size
        (superBlock blankDevice).s_block_size)).filter fun i => !diskBit blankDevice i).length := by
  obtain ⟨tr, s, he, hl, hnew⟩ := Machine.exists_exec lifetime (Machine.crashOk lifeOk)
    (mainOn zeroTables blankDevice)
    [.call (.call (.open (dataPath 1))), .call (.call (.write 6 [7] 0)),
      .crash (.call (.open (dataPath 2))) (fun a => a % 2 = 1) zeroTables,
      .call (.call (.open (metaPath 3 1001))), .restart zeroTables]
    (fun tr _ => slotsTaken tr = [(.metaFile, 1), (.dataFile, 0)]) (by decide +kernel)
  exact ⟨tr, s, he, hnew, data_slots_once (by decide +kernel) ⟨zeroTables, hl⟩⟩

end Rewrite
