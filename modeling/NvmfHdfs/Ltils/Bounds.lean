/-
  Reading past the end of a file.

  `lfs_read` compares `offset` and `size` with the length in the entry, but
  rejects a read only if both comparisons say so, and the second one takes
  `length - offset`, which is negative then, as a `size_t`.

    - `StaysInside`: no byte at or beyond the length is delivered;
    - `read_inside_iff`: of the reads past the end, exactly those of nearly 2^64
      bytes are rejected;
    - `read_past_end`: two bytes read of a file of one byte.
-/
import NvmfHdfs.Ltils.Mount

namespace Ltils

open CInt Layout Bitmap Path Records
open Rewrite (blankDevice)

variable {s s' : Lfs} {fh size offset len : ℕ} {ret : ℤ} {buf : List UInt8}

/-- The bytes delivered by a read at `offset` lie in the first `len` bytes of the file. -/
def StaysInside (len offset : ℕ) (buf : List UInt8) : Prop := ∀ j < buf.length, offset + j < len

theorem staysInside_iff : StaysInside len offset buf ↔ buf = [] ∨ offset + buf.length ≤ len := by
  constructor
  · intro h
    rcases Nat.eq_zero_or_pos buf.length with h0 | hpos
    · exact .inl (List.length_eq_zero_iff.1 h0)
    · have := h (buf.length - 1) (by omega)
      right; omega
  · rintro (rfl | hle) j hj
    · cases hj
    · omega

/-- The difference of the guard has come round below zero. -/
theorem illegal_iff (ho : offset < 2 ^ 63) :
    illegal len size offset ↔ len < offset ∧ 2 ^ 64 < offset - len + size := by
  refine and_congr_right fun hlt => ?_
  have hcast : toU64 ((len : ℤ) - offset) = 2 ^ 64 - (offset - len) := by
    unfold toU64; omega
  rw [hcast]
  omega

/-- **Reads past the end stay inside the file** exactly if they are rejected. -/
theorem read_inside_iff (hsize : 1 ≤ size) (ho : offset < 2 ^ 63)
    (hover : readLen (s.file (fh - 3)) < offset + size)
    (hr : lfsRead s fh size offset = some ((ret, buf), s')) :
    StaysInside (readLen (s.file (fh - 3))) offset buf ↔
      readLen (s.file (fh - 3)) < offset ∧
        2 ^ 64 < offset - readLen (s.file (fh - 3)) + size := by
  rw [← illegal_iff ho, staysInside_iff]
  cases read_outcome hr with
  | read hfh _ hill hp hw =>
    refine iff_of_false ?_ hill
    rw [Image.length_slice]
    rintro (hnil | hle)
    · have := congrArg List.length hnil
      rw [Image.length_slice, List.length_nil] at this
      omega
    · omega
  | readIllegal hfh hill => exact iff_of_true (.inl rfl) hill

/-- A file of eight bytes in two writes: seven bytes from 5 on are delivered, past the end; nearly
    `2 ^ 64` bytes from 10 on are rejected. -/
theorem read_inside_iff_eight : ∃ tr s ret buf s₁ ret' buf' s₂,
    mountExec blankDevice zeroFile Machine.anyStep
      [.open (dataPath 1), .write 3 [1, 2, 3, 4, 5, 6] 0, .write 3 [7, 8] 6] = some (tr, s) ∧
    readLen (s.file (3 - 3)) = 8 ∧
    lfsRead s 3 7 5 = some ((ret, buf), s₁) ∧ ¬ StaysInside (readLen (s.file (3 - 3))) 5 buf ∧
    lfsRead s 3 (2 ^ 64 - 1) 10 = some ((ret', buf'), s₂) ∧
    StaysInside (readLen (s.file (3 - 3))) 10 buf' := by
  obtain ⟨tr, s, he, -, hlen, hr, hr'⟩ := Machine.exists_exec system Machine.anyStep
    (main blankDevice zeroFile)
    [.open (dataPath 1), .write 3 [1, 2, 3, 4, 5, 6] 0, .write 3 [7, 8] 6]
    (fun _ s => readLen (s.file (3 - 3)) = 8 ∧ (lfsRead s 3 7 5).isSome = true ∧
      (lfsRead s 3 (2 ^ 64 - 1) 10).isSome = true) (by decide +kernel)
  obtain ⟨⟨⟨ret, buf⟩, s₁⟩, hr⟩ := Option.isSome_iff_exists.1 hr
  obtain ⟨⟨⟨ret', buf'⟩, s₂⟩, hr'⟩ := Option.isSome_iff_exists.1 hr'
  refine ⟨tr, s, ret, buf, s₁, ret', buf', s₂, he, hlen, hr, fun hin => ?_, hr', ?_⟩
  · have hend := (read_inside_iff (by decide) (by decide) (by rw [hlen]; decide) hr).1 hin
    rw [hlen] at hend
    exact absurd hend (by decide)
  · refine (read_inside_iff (by decide) (by decide) (by rw [hlen]; decide) hr').2 ?_
    rw [hlen]
    decide

/-- A file of one byte: reading two bytes delivers the byte behind it. -/
theorem read_past_end : ∃ tr s ret buf s',
    mountExec blankDevice zeroFile Machine.anyStep [.open (dataPath 1), .write 3 [7] 0] =
      some (tr, s) ∧
    Mount blankDevice zeroFile Machine.anyStep tr s ∧ readLen (s.file (3 - 3)) = 1 ∧
    lfsRead s 3 2 0 = some ((ret, buf), s') ∧
    ¬ StaysInside (readLen (s.file (3 - 3))) 0 buf := by
  obtain ⟨tr, s, he, hm, hlen, hr⟩ := Machine.exists_exec system Machine.anyStep
    (main blankDevice zeroFile)
    [.open (dataPath 1), .write 3 [7] 0]
    (fun _ s => readLen (s.file (3 - 3)) = 1 ∧
      (lfsRead s 3 2 0).any (fun x => decide (x.1.2.length = 2)) = true) (by decide +kernel)
  obtain ⟨⟨⟨ret, buf⟩, s'⟩, hr, hbuf⟩ := (Option.any_eq_true _ _).1 hr
  have hbuf : buf.length = 2 := of_decide_eq_true hbuf
  refine ⟨tr, s, ret, buf, s', he, hm, hlen, hr, fun h => ?_⟩
  rw [hlen] at h
  exact absurd (h 1 (by rw [hbuf]; decide)) (by decide)

end Ltils
