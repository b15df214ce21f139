/-
  Slot allocation, without the file system around it.

  Two copies of one bitmap, the one stored on the device and the one cached in
  memory, and two tables that say which block a slot belongs to.  A meta file
  takes the first slot clear in the stored copy; a data file takes the first
  one clear in the cached copy and overwrites the stored copy with it.

    - `Owned`: a slot belongs to one block and a block has one slot, in both
      tables, and what the copies of the bitmap have to do with the tables;
    - `Owned.step`: every event that meets `Ok` preserves it, and entries in
      use stay what they are (`Owned.kept`);
    - `coherent_step`: the copies of the bitmap stay equal as long as no meta
      file takes a slot.
-/
import NvmfHdfs.Bitmap
import NvmfHdfs.Path

open Bitmap Path

/-- The copies of the bitmap and the owners of the slots; the owner of a slot that is not in
    use is 0. -/
@[ext] structure Slots (β : Type) where
  stored : ℕ → Bool
  cached : ℕ → Bool
  table : Kind → ℕ → β

namespace Slots
variable {β : Type}

/-- The table with one entry changed. -/
def setOwner (a : Slots β) (k : Kind) (i : ℕ) (b : β) : Kind → ℕ → β :=
  Function.update a.table k (Function.update (a.table k) i b)

theorem setOwner_self (a : Slots β) (k : Kind) (i : ℕ) (b : β) : a.setOwner k i b k i = b := by
  rw [setOwner, Function.update_self, Function.update_self]

theorem setOwner_apply (a : Slots β) (k k' : Kind) (i j : ℕ) (b : β) :
    a.setOwner k i b k' j = if k' = k ∧ j = i then b else a.table k' j := by
  unfold setOwner
  by_cases hk : k' = k
  · subst hk
    rw [Function.update_self, Function.update_apply]
    simp
  · rw [Function.update_of_ne hk, if_neg fun h => hk h.1]

/-- What can happen: an entry is filled from a record, a file is found in its table, a file
    takes a new slot. -/
inductive Event (β : Type) where
  | idle
  | note (k : Kind) (i : ℕ) (b : β)
  | reopen (k : Kind) (i : ℕ) (b : β)
  | take (k : Kind) (i : ℕ) (b : β)

/-- One event, with `n` slots. -/
inductive Step (n : ℕ) : Slots β → Event β → Slots β → Prop
  | idle {a : Slots β} : Step n a .idle a
  | note {a k i b} (hi : i < n) (hu : a.stored i = true) :
      Step n a (.note k i b) { a with table := a.setOwner k i b }
  | reopen {a k i b} (hb : a.table k i = b) : Step n a (.reopen k i b) a
  | takeMeta {a i b} (hi : firstFree a.stored n = some i)
      (hb : ∀ j < n, a.table .metaFile j ≠ b) :
      Step n a (.take .metaFile i b)
        { a with
          stored := Function.update a.stored i true
          table := a.setOwner .metaFile i b }
  | takeData {a i b} (hi : firstFree a.cached n = some i) :
      Step n a (.take .dataFile i b)
        { stored := Function.update a.cached i true
          cached := Function.update a.cached i true
          table := a.setOwner .dataFile i b }

variable [Zero β] {n : ℕ} {a a' : Slots β} {e : Event β}

omit [Zero β] in
theorem Step.of_eq {x : Slots β} (h : Step n a e x) (hx : a' = x) : Step n a e a' := hx ▸ h

/-! ## When slots keep their owners -/

/-- A slot a meta file has taken and the cached bitmap does not show. -/
def Waiting (a : Slots β) (i : ℕ) : Prop := a.table .metaFile i ≠ 0 ∧ a.cached i = false

/-- No slot of any kind belongs to the block. -/
def Unplaced (n : ℕ) (a : Slots β) (b : β) : Prop :=
  ∀ i < n, a.table .metaFile i ≠ b ∧ a.table .dataFile i ≠ b

/-- An entry may be filled if it says so already, or if slot and block are still free. -/
def NoteOk (n : ℕ) (a : Slots β) (k : Kind) (i : ℕ) (b : β) : Prop :=
  a.table k i = b ∨ a.table k i = 0 ∧ (∀ k', a.table k' i = 0 ∨ a.table k' i = b) ∧
    ∀ k', ∀ j < n, j ≠ i → a.table k' j ≠ b

/-- A new file may take a slot:
    * a meta file, if the block has no data file and every slot waiting is still marked in
      the stored bitmap;
    * a data file, if its meta file is the first one waiting, or nothing waits and the block
      has no slot. -/
def TakeOk (n : ℕ) (a : Slots β) (b : β) : Kind → Prop
  | .metaFile => (∀ i < n, a.table .dataFile i ≠ b) ∧ ∀ i < n, Waiting a i → a.stored i = true
  | .dataFile =>
    (∃ i < n, a.table .metaFile i = b ∧ Waiting a i ∧ ∀ j < i, ¬ Waiting a j) ∨
      (∀ i < n, ¬ Waiting a i) ∧ Unplaced n a b

instance [DecidableEq β] (a : Slots β) (i : ℕ) : Decidable (Waiting a i) :=
  inferInstanceAs (Decidable (_ ∧ _))

instance [DecidableEq β] (n : ℕ) (a : Slots β) (b : β) : Decidable (Unplaced n a b) :=
  inferInstanceAs (Decidable (∀ i < n, _ ∧ _))

instance [DecidableEq β] (n : ℕ) (a : Slots β) (k : Kind) (i : ℕ) (b : β) :
    Decidable (NoteOk n a k i b) :=
  inferInstanceAs (Decidable (_ ∨ _ ∧ (∀ _, _ ∨ _) ∧ ∀ _, ∀ j < n, _ → _))

instance [DecidableEq β] (n : ℕ) (a : Slots β) (b : β) : ∀ k, Decidable (TakeOk n a b k)
  | .metaFile => inferInstanceAs (Decidable ((∀ i < n, _) ∧ ∀ i < n, _ → _))
  | .dataFile => inferInstanceAs (Decidable ((∃ i < n, _ ∧ _ ∧ ∀ j < i, ¬ _) ∨ (∀ i < n, ¬ _) ∧ _))

/-- The condition on an event. -/
def Ok (n : ℕ) (a : Slots β) : Event β → Prop
  | .idle => True
  | .note k i b => NoteOk n a k i b
  | .reopen _ _ b => b ≠ 0
  | .take k _ b => b ≠ 0 ∧ TakeOk n a b k

/-- A slot belongs to one block and a block has one slot. -/
structure Owned (n : ℕ) (a : Slots β) : Prop where
  cached_stored : ∀ i < n, a.cached i = true → a.stored i = true
  stored_from : ∀ i < n, a.stored i = true → a.cached i = true ∨ a.table .metaFile i ≠ 0
  data_from : ∀ i < n, a.table .dataFile i ≠ 0 → a.cached i = true ∨ a.table .metaFile i ≠ 0
  waiting_next : ∀ i < n, Waiting a i → ∀ j < i, a.cached j = true ∨ a.table .metaFile j ≠ 0
  outside : ∀ k i, n ≤ i → a.table k i = 0
  owner : ∀ k k' i j, a.table k i ≠ 0 → a.table k' j ≠ 0 → (i = j ↔ a.table k i = a.table k' j)

namespace Owned
variable (H : Owned n a)
include H

theorem lt_of_owner {k : Kind} {i : ℕ} (h : a.table k i ≠ 0) : i < n := by
  by_contra hi
  exact h (H.outside k i (Nat.le_of_not_lt hi))

/-- A slot clear in both bitmaps, with no meta file lost, belongs to nobody. -/
theorem free_of_stored {i : ℕ} (hi : i < n) (hs : a.stored i = false)
    (hw : ∀ i < n, Waiting a i → a.stored i = true) (k : Kind) : a.table k i = 0 := by
  have hc : a.cached i = false := by
    by_contra hc
    rw [H.cached_stored i hi (by simpa using hc)] at hs; cases hs
  have hm : a.table .metaFile i = 0 := by
    by_contra hm
    rw [hw i hi ⟨hm, hc⟩] at hs; cases hs
  cases k with
  | metaFile => exact hm
  | dataFile =>
    by_contra hd
    rcases H.data_from i hi hd with h | h
    · rw [h] at hc; cases hc
    · exact h hm

/-- The first slot clear in the cached bitmap is the first one waiting, if one is. -/
theorem first_waiting {i j : ℕ} (hi : firstFree a.cached n = some i) (hj : j < n)
    (hw : Waiting a j) (hleast : ∀ j' < j, ¬ Waiting a j') : i = j := by
  obtain ⟨-, hfree, hbefore⟩ := firstFree_eq_some.1 hi
  rcases Nat.lt_trichotomy i j with h | h | h
  · rcases H.waiting_next j hj hw i h with hc | hm
    · rw [hc] at hfree; cases hfree
    · exact absurd ⟨hm, hfree⟩ (hleast i h)
  · exact h
  · have hc := hbefore j h
    rw [hw.2] at hc; cases hc

/-- The slot a data file takes belongs to its block or to nobody, and so does every slot of
    the block. -/
theorem take_data {i : ℕ} {b : β} (hb : b ≠ 0) (hi : firstFree a.cached n = some i)
    (hok : TakeOk n a b .dataFile) :
    (∀ k, a.table k i = 0 ∨ a.table k i = b) ∧ ∀ k j, j ≠ i → a.table k j ≠ b := by
  obtain ⟨hin, hfree, -⟩ := firstFree_eq_some.1 hi
  rcases hok with ⟨j, hj, hjb, hw, hleast⟩ | ⟨hnone, hun⟩
  · obtain rfl := H.first_waiting hi hj hw hleast
    have hne : a.table .metaFile i ≠ 0 := hjb ▸ hb
    constructor
    · intro k
      by_cases hk : a.table k i = 0
      · exact .inl hk
      · exact .inr (((H.owner _ _ _ _ hk hne).1 rfl).trans hjb)
    · intro k j hji hkb
      exact hji ((H.owner _ _ _ _ (hkb ▸ hb) hne).2 (hkb.trans hjb.symm))
  · have hm : a.table .metaFile i = 0 := by
      by_contra hm
      exact hnone i hin ⟨hm, hfree⟩
    have hd : a.table .dataFile i = 0 := by
      by_contra hd
      rcases H.data_from i hin hd with h | h
      · rw [h] at hfree; cases hfree
      · exact h hm
    constructor
    · intro k
      cases k with
      | metaFile => exact .inl hm
      | dataFile => exact .inl hd
    · intro k j _ hkb
      have hj : j < n := H.lt_of_owner (hkb ▸ hb)
      cases k with
      | metaFile => exact (hun j hj).1 hkb
      | dataFile => exact (hun j hj).2 hkb

/-- Giving a slot to a block keeps owners apart, if slot and block are free or together. -/
theorem owner_set {k : Kind} {i : ℕ} {b : β}
    (hslot : ∀ k', a.table k' i = 0 ∨ a.table k' i = b)
    (hblock : ∀ k' j, j ≠ i → a.table k' j ≠ b) (k₁ k₂ : Kind) (i₁ i₂ : ℕ)
    (h₁ : a.setOwner k i b k₁ i₁ ≠ 0) (h₂ : a.setOwner k i b k₂ i₂ ≠ 0) :
    i₁ = i₂ ↔ a.setOwner k i b k₁ i₁ = a.setOwner k i b k₂ i₂ := by
  -- every entry of slot `i` in use is `b`, and no other entry is
  have hat : ∀ k', a.setOwner k i b k' i ≠ 0 → a.setOwner k i b k' i = b := by
    intro k' hne
    rw [setOwner_apply] at hne ⊢
    split_ifs at hne ⊢
    · rfl
    · exact (hslot k').resolve_left hne
  have hoff : ∀ k' j, j ≠ i → a.setOwner k i b k' j = a.table k' j := by
    intro k' j hj
    rw [setOwner_apply, if_neg fun h => hj h.2]
  by_cases h1 : i₁ = i <;> by_cases h2 : i₂ = i
  · subst h1 h2; rw [hat k₁ h₁, hat k₂ h₂]; simp
  · subst h1; rw [hat k₁ h₁, hoff k₂ i₂ h2]
    exact ⟨fun h => absurd h.symm h2, fun h => absurd h.symm (hblock k₂ i₂ h2)⟩
  · subst h2; rw [hat k₂ h₂, hoff k₁ i₁ h1]
    exact ⟨fun h => absurd h h1, fun h => absurd h (hblock k₁ i₁ h1)⟩
  · rw [hoff k₁ i₁ h1] at h₁ ⊢
    rw [hoff k₂ i₂ h2] at h₂ ⊢
    exact H.owner _ _ _ _ h₁ h₂

theorem outside_set {k : Kind} {i : ℕ} {b : β} (hi : i < n) (k' : Kind) (j : ℕ) (hj : n ≤ j) :
    a.setOwner k i b k' j = 0 := by
  rw [setOwner_apply, if_neg (by omega)]; exact H.outside k' j hj

theorem note {k : Kind} {i : ℕ} {b : β} (hi : i < n) (hu : a.stored i = true)
    (hok : NoteOk n a k i b) : Owned n { a with table := a.setOwner k i b } := by
  have hset : ∀ k' j, a.table k' j ≠ 0 → a.setOwner k i b k' j ≠ 0 := by
    intro k' j hne
    rw [setOwner_apply]
    split_ifs with h
    · obtain ⟨rfl, rfl⟩ := h
      rcases hok with h | ⟨h, -, -⟩
      · exact h ▸ hne
      · exact absurd h hne
    · exact hne
  -- a slot in use is shown by the cache or has a meta file already
  have hfrom := H.stored_from i hi hu
  refine ⟨H.cached_stored, ?_, ?_, ?_, H.outside_set hi, ?_⟩
  · intro j hj hs
    exact (H.stored_from j hj hs).imp_right (hset _ _)
  · intro j hj (hd : a.setOwner k i b .dataFile j ≠ 0)
    by_cases hji : j = i
    · subst hji; exact hfrom.imp_right (hset _ _)
    · refine (H.data_from j hj ?_).imp_right (hset _ _)
      rwa [setOwner_apply, if_neg fun h => hji h.2] at hd
  · intro j hj hw j' hj'
    refine (H.waiting_next j hj ⟨?_, hw.2⟩ j' hj').imp_right (hset _ _)
    by_cases hji : j = i
    · subst hji
      refine hfrom.resolve_left fun hc => ?_
      have hwc : a.cached j = false := hw.2
      rw [hc] at hwc; cases hwc
    · have : a.setOwner k i b .metaFile j ≠ 0 := hw.1
      rwa [setOwner_apply, if_neg fun h => hji h.2] at this
  · rcases hok with hsame | ⟨-, hslot, hblock⟩
    · have heq : a.setOwner k i b = a.table := by
        funext k' j
        rw [setOwner_apply]
        split_ifs with h
        · rw [h.1, h.2, hsame]
        · rfl
      rw [heq]; exact H.owner
    · intro k₁ k₂ i₁ i₂ (h₁ : a.setOwner k i b k₁ i₁ ≠ 0) (h₂ : a.setOwner k i b k₂ i₂ ≠ 0)
      by_cases hb : b = 0
      · -- filling a free entry with 0 changes nothing
        have heq : ∀ k' j, a.setOwner k i b k' j ≠ 0 → a.setOwner k i b k' j = a.table k' j := by
          intro k' j hne
          rw [setOwner_apply] at hne ⊢
          split_ifs at hne ⊢ with h
          · exact absurd hb hne
          · rfl
        show i₁ = i₂ ↔ a.setOwner k i b k₁ i₁ = a.setOwner k i b k₂ i₂
        have e₁ := heq _ _ h₁
        have e₂ := heq _ _ h₂
        rw [e₁] at h₁ ⊢
        rw [e₂] at h₂ ⊢
        exact H.owner _ _ _ _ h₁ h₂
      · refine H.owner_set hslot (fun k' j hj hkb => ?_) _ _ _ _ h₁ h₂
        exact hblock k' j (H.lt_of_owner (hkb ▸ hb)) hj hkb

theorem take_meta {i : ℕ} {b : β} (hb : b ≠ 0) (hi : firstFree a.stored n = some i)
    (hmiss : ∀ j < n, a.table .metaFile j ≠ b) (hok : TakeOk n a b .metaFile) :
    Owned n { a with
      stored := Function.update a.stored i true
      table := a.setOwner .metaFile i b } := by
  obtain ⟨hin, hfree, hbefore⟩ := firstFree_eq_some.1 hi
  have hzero := H.free_of_stored hin hfree hok.2
  have hset : ∀ k' j, a.table k' j ≠ 0 → a.setOwner .metaFile i b k' j = a.table k' j := by
    intro k' j hne
    rw [setOwner_apply, if_neg]
    rintro ⟨-, rfl⟩; exact hne (hzero k')
  have hmeta : ∀ j, a.table .metaFile j ≠ 0 → a.setOwner .metaFile i b .metaFile j ≠ 0 :=
    fun j hne => by rw [hset _ _ hne]; exact hne
  refine ⟨?_, ?_, ?_, ?_, H.outside_set hin, ?_⟩
  · intro j hj hc
    by_cases hji : j = i
    · subst hji; exact Function.update_self ..
    · exact (Function.update_of_ne hji ..).trans (H.cached_stored j hj hc)
  · intro j hj (hs : Function.update a.stored i true j = true)
    by_cases hji : j = i
    · subst hji; right
      show a.setOwner .metaFile j b .metaFile j ≠ 0
      rw [setOwner_self]; exact hb
    · rw [Function.update_of_ne hji] at hs
      exact (H.stored_from j hj hs).imp_right (hmeta j)
  · intro j hj (hd : a.setOwner .metaFile i b .dataFile j ≠ 0)
    rw [setOwner_apply, if_neg (by simp)] at hd
    exact (H.data_from j hj hd).imp_right (hmeta j)
  · intro j hj hw j' hj'
    by_cases hji : j = i
    · -- all slots before the new one are marked in the stored bitmap
      subst hji
      exact (H.stored_from j' (hj'.trans hj) (hbefore j' hj')).imp_right (hmeta j')
    · have hm : a.setOwner .metaFile i b .metaFile j ≠ 0 := hw.1
      rw [setOwner_apply, if_neg fun h => hji h.2] at hm
      exact (H.waiting_next j hj ⟨hm, hw.2⟩ j' hj').imp_right (hmeta j')
  · refine H.owner_set (fun k' => .inl (hzero k')) fun k' j hji hkb => ?_
    have hj := H.lt_of_owner (hkb ▸ hb)
    cases k' with
    | metaFile => exact hmiss j hj hkb
    | dataFile => exact hok.1 j hj hkb

theorem take_dataFile {i : ℕ} {b : β} (hb : b ≠ 0) (hi : firstFree a.cached n = some i)
    (hok : TakeOk n a b .dataFile) :
    Owned n
      { stored := Function.update a.cached i true
        cached := Function.update a.cached i true
        table := a.setOwner .dataFile i b } := by
  obtain ⟨hin, -, -⟩ := firstFree_eq_some.1 hi
  obtain ⟨hslot, hblock⟩ := H.take_data hb hi hok
  have hmeta : ∀ j, a.setOwner .dataFile i b .metaFile j = a.table .metaFile j := by
    intro j; rw [setOwner_apply, if_neg (by simp)]
  refine ⟨fun _ _ h => h, fun _ _ h => .inl h, ?_, ?_, H.outside_set hin,
    H.owner_set hslot hblock⟩
  · intro j hj (hd : a.setOwner .dataFile i b .dataFile j ≠ 0)
    by_cases hji : j = i
    · subst hji; exact .inl (Function.update_self ..)
    · rw [setOwner_apply, if_neg fun h => hji h.2] at hd
      rcases H.data_from j hj hd with hc | hm
      · exact .inl ((Function.update_of_ne hji ..).trans hc)
      · exact .inr ((hmeta j).trans_ne hm)
  · rintro j hj ⟨hm, hc⟩ j' hj'
    replace hm : a.table .metaFile j ≠ 0 := (hmeta j).symm.trans_ne hm
    replace hc : Function.update a.cached i true j = false := hc
    have hji : j ≠ i := by rintro rfl; rw [Function.update_self] at hc; cases hc
    rw [Function.update_of_ne hji] at hc
    by_cases hj'i : j' = i
    · subst hj'i; exact .inl (Function.update_self ..)
    · rcases H.waiting_next j hj ⟨hm, hc⟩ j' hj' with hc' | hm'
      · exact .inl ((Function.update_of_ne hj'i ..).trans hc')
      · exact .inr ((hmeta j').trans_ne hm')

/-- **Every event that meets the condition keeps the slots owned.** -/
theorem step (hok : Ok n a e) (hs : Step n a e a') : Owned n a' := by
  cases hs with
  | idle => exact H
  | note hi hu => exact H.note hi hu hok
  | reopen => exact H
  | takeMeta hi hb => exact H.take_meta hok.1 hi hb hok.2
  | takeData hi => exact H.take_dataFile hok.1 hi hok.2

/-- Entries in use stay what they are. -/
theorem kept (hok : Ok n a e) (hs : Step n a e a') {k : Kind} {i : ℕ} (h : a.table k i ≠ 0) :
    a'.table k i = a.table k i := by
  have hset : ∀ k' j b, (a.table k' j = 0 ∨ a.table k' j = b) →
      a.setOwner k' j b k i = a.table k i := by
    intro k' j b hkj
    rw [setOwner_apply]
    split_ifs with he
    · obtain ⟨rfl, rfl⟩ := he
      exact (hkj.resolve_left h).symm
    · rfl
  cases hs with
  | idle => rfl
  | note => exact hset _ _ _ (hok.elim .inr fun h => .inl h.1)
  | reopen => rfl
  | takeMeta hi =>
    obtain ⟨hin, hfree, -⟩ := firstFree_eq_some.1 hi
    exact hset _ _ _ (.inl (H.free_of_stored hin hfree hok.2.2 _))
  | takeData hi => exact hset _ _ _ ((H.take_data hok.1 hi hok.2).1 _)

end Owned

/-- The slot and the block an event hands to a file. -/
def Event.placed : Event β → Option (Kind × β × ℕ)
  | .reopen k i b | .take k i b => some (k, b, i)
  | .idle | .note .. => none

omit [Zero β] in
/-- What an event hands out is in the table afterwards. -/
theorem Step.placed {k : Kind} {i : ℕ} {b : β} (hs : Step n a e a')
    (h : e.placed = some (k, b, i)) : a'.table k i = b := by
  cases hs <;> cases h
  case reopen hb => exact hb
  case takeMeta => dsimp only; rw [setOwner_self]
  case takeData => dsimp only; rw [setOwner_self]

/-! ## When the copies of the bitmap agree -/

/-- The copies agree on the slots there are. -/
def Coherent (n : ℕ) (a : Slots β) : Prop := ∀ i < n, a.cached i = a.stored i

omit [Zero β] in
/-- Only a meta file that takes a slot makes the copies differ. -/
theorem coherent_step (h : Coherent n a) (hs : Step n a e a')
    (he : ∀ i b, e ≠ .take .metaFile i b) : Coherent n a' := by
  cases hs with
  | idle => exact h
  | note => exact h
  | reopen => exact h
  | takeMeta => exact absurd rfl (he _ _)
  | takeData => exact fun _ _ => rfl

omit [Zero β] in
/-- While they agree, a slot is marked afterwards if it was before or was taken. -/
theorem stored_step (h : Coherent n a) (hs : Step n a e a') {i : ℕ} (hi : i < n) :
    a'.stored i = true ↔ a.stored i = true ∨ ∃ k b, e = .take k i b := by
  cases hs with
  | idle => simp
  | note => simp
  | reopen => simp
  | @takeMeta j b =>
    by_cases hij : i = j
    · subst hij; simp
    · simp [Function.update_of_ne hij, Ne.symm hij]
  | @takeData j b =>
    by_cases hij : i = j
    · subst hij; simp
    · simp [Function.update_of_ne hij, Ne.symm hij, h i hi]

/-- Every slot with an owner is marked on the device. -/
def Marked (n : ℕ) (a : Slots β) : Prop :=
  ∀ k i, a.table k i ≠ 0 → i < n ∧ a.stored i = true

theorem marked_step (h : Coherent n a) (hm : Marked n a) (hs : Step n a e a') : Marked n a' := by
  have hset : ∀ k j b, (j < n ∧ a.stored j = true) →
      Marked n { a with table := a.setOwner k j b } := by
    intro k j b hj k' i (hne : a.setOwner k j b k' i ≠ 0)
    rw [setOwner_apply] at hne
    split_ifs at hne with he
    · rw [he.2]; exact hj
    · exact hm k' i hne
  have htake : ∀ k j b, j < n → ∀ k' i, a.setOwner k j b k' i ≠ 0 →
      i < n ∧ (i = j ∨ a.stored i = true) := by
    intro k j b hj k' i hne
    rw [setOwner_apply] at hne
    split_ifs at hne with he
    · exact ⟨he.2 ▸ hj, .inl he.2⟩
    · exact (hm k' i hne).imp_right .inr
  cases hs with
  | idle => exact hm
  | note hi hu => exact hset _ _ _ ⟨hi, hu⟩
  | reopen => exact hm
  | @takeMeta j b hj =>
    intro k i hne
    obtain ⟨hi, hij⟩ := htake _ _ _ (firstFree_eq_some.1 hj).1 k i hne
    refine ⟨hi, ?_⟩
    rcases hij with rfl | hs
    · exact Function.update_self ..
    · show Function.update a.stored j true i = true
      rw [Function.update_apply]; split_ifs
      · rfl
      · exact hs
  | @takeData j b hj =>
    intro k i hne
    obtain ⟨hi, hij⟩ := htake _ _ _ (firstFree_eq_some.1 hj).1 k i hne
    refine ⟨hi, ?_⟩
    rcases hij with rfl | hs
    · exact Function.update_self ..
    · show Function.update a.cached j true i = true
      rw [Function.update_apply]; split_ifs
      · rfl
      · rw [h i hi]; exact hs

end Slots
