/-
  Runs of a mount of `ltils.c`, and what no call changes.

  `Mount image file ok tr s`: `main` mounts the device `image` with `file` in the
  memory of its table, and the calls `tr` (newest first), each meeting `ok`, lead
  to the state `s`.
-/
import NvmfHdfs.Ltils.Outcome

namespace Ltils

open CInt Layout Bitmap Path Records
open Rewrite (superBlock)

variable {s s' : Lfs} {image : Image} {file : ℕ → FileDirectory} {c : Call} {r : Reply}
  {b : ℤ} {i : ℕ}

/-- The events of a run of a mount. -/
abbrev Trace := List (Machine.Event Lfs Call Reply)

theorem main_eq_some (h : main image file = some s) : s =
    { fd := ⟨image, sizeofSuperBlock⟩
      dev_size := (superBlock image).s_dev_size
      block_size := (superBlock image).s_block_size
      file := file } := by
  rw [main] at h
  obtain ⟨⟨bs, fd⟩, h1, h⟩ := Option.bind_eq_some_iff.1 h
  obtain ⟨-, hbs, rfl⟩ := Descriptor.read_eq_some.1 h1
  have hsb : SuperBlock.decode bs = superBlock image := by rw [hbs, superBlock]
  dsimp only at h
  rw [hsb] at h
  split_ifs at h with hmagic
  rw [← Option.some.inj h, Nat.zero_add]

/-- The sizes are those of the superblock, and the table is what it was. -/
theorem main_sizes (h : main image file = some s) : s.dev_size = (superBlock image).s_dev_size ∧
    s.block_size = (superBlock image).s_block_size ∧ s.file = file := by
  have h₀ := main_eq_some h
  refine ⟨?_, ?_, ?_⟩
  · rw [h₀]
  · rw [h₀]
  · rw [h₀]

/-- A run of a mount of a device. -/
def Mount (image : Image) (file : ℕ → FileDirectory) (ok : Machine.Guard Lfs Call Reply)
    (tr : Trace) (s : Lfs) : Prop :=
  ∃ s₀, main image file = some s₀ ∧ system.Run ok s₀ tr s

/-- The table `malloc` leaves when the memory is zero. -/
def zeroFile : ℕ → FileDirectory := fun _ => zeroEntry

instance (tr : Trace) (s : Lfs) (c : Call) : Decidable (Machine.anyStep tr s c) :=
  .isTrue trivial

/-- Mounting a device and making the given calls. -/
def mountExec (image : Image) (file : ℕ → FileDirectory) (ok : Machine.Guard Lfs Call Reply)
    [∀ tr s c, Decidable (ok tr s c)] (cs : List Call) : Option (Trace × Lfs) :=
  Machine.execFrom system ok (main image file) cs

/-! ## What no call changes -/

theorem Outcome.dev_size (h : Outcome s c r s') : s'.dev_size = s.dev_size := by
  cases h <;> rfl

theorem Outcome.block_size (h : Outcome s c r s') : s'.block_size = s.block_size := by
  cases h <;> rfl

theorem Outcome.num (h : Outcome s c r s') : s'.num = s.num := by
  rw [Lfs.num, Lfs.num, h.dev_size, h.block_size]

/-- A run of a mount keeps the sizes of the superblock. -/
theorem Mount.sizes {ok : Machine.Guard Lfs Call Reply} {tr : Trace}
    (h : Mount image file ok tr s) :
    s.dev_size = (superBlock image).s_dev_size ∧
      s.block_size = (superBlock image).s_block_size := by
  obtain ⟨s₀, hm, hr⟩ := h
  refine hr.invariant_state (fun s => s.dev_size = (superBlock image).s_dev_size ∧
    s.block_size = (superBlock image).s_block_size) ?_ ?_
  · exact ⟨(main_sizes hm).1, (main_sizes hm).2.1⟩
  · intro tr s i o s' ih _ hst
    have ho := step_outcome hst
    exact ⟨ho.dev_size.trans ih.1, ho.block_size.trans ih.2⟩

/-! ## The lookup of `lfs_open` -/

theorem findFile_eq {file : ℕ → FileDirectory} {n : ℕ} {o : Option ℕ}
    (h : findFile file n b = some o) :
    (List.range (n + 1)).find? (fun i => (file i).block_id == toU32 b) = o := by
  unfold findFile at h
  split at h <;> split_ifs at h <;> rename_i hf _ <;> rw [hf] <;> exact Option.some.inj h

/-- The first entry of the block. -/
theorem findFile_found {file : ℕ → FileDirectory} {n : ℕ} (h : findFile file n b = some (some i)) :
    i ≤ n ∧ (file i).block_id = toU32 b ∧ ∀ j < i, (file j).block_id ≠ toU32 b := by
  have hf := findFile_eq h
  rw [List.find?_range_eq_some] at hf
  simp only [beq_iff_eq, List.mem_range, Nat.lt_succ_iff, Bool.not_eq_true', beq_eq_false_iff_ne]
    at hf
  exact ⟨hf.2.1, hf.1, hf.2.2⟩

theorem findFile_none {file : ℕ → FileDirectory} {n : ℕ} (h : findFile file n b = some none) :
    ∀ j ≤ n, (file j).block_id ≠ toU32 b := by
  have hf := findFile_eq h
  rw [List.find?_range_eq_none] at hf
  intro j hj
  simpa using hf j (by omega)

/-- The slots there are an `int`. -/
theorem bitSize_le {n : ℕ} (h : s.bitSize = some n) : n ≤ s.num ∧ n < 2 ^ 31 := by
  have hle : toInt s.num ≤ s.num ∧ toInt s.num < 2 ^ 31 := by
    unfold toInt; split_ifs <;> omega
  unfold Lfs.bitSize at h
  split_ifs at h with hp
  rw [← Option.some.inj h]; omega

end Ltils
