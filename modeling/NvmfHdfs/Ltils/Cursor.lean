/-
  The cursors of `ltils.c`.

  There is one descriptor and a `cur_offset` in every entry of `file`, which only
  `lfs_write2` sets: to the end of the last write on the handle, in 32 bits.  All
  other calls that read the device, and the writes on other handles, move the
  descriptor and leave it.

    - `lastWriter`: the handle whose write moved the descriptor last;
    - `streamOk`: a write that skips its seek goes on where a write on the same
      handle stopped, below 4 GB;
    - `stream_right`: in every such run each write stores its bytes at
      `real_offset + offset`;
    - `stream_wrong`: two files written in turn.
-/
import NvmfHdfs.Ltils.Mount

namespace Ltils

open CInt Layout Bitmap Path Records
open Rewrite (blankDevice)

variable {s s' : Lfs} {image : Image} {file : ℕ → FileDirectory} {c : Call} {r : Reply}
  {tr : Trace} {fh offset : ℕ} {buf : List UInt8}

/-- The handle whose write moved the descriptor last, unless another call did since. -/
def lastWriter : Trace → Option ℕ
  | [] => none
  | e :: tr =>
    match e.input with
    | .write fh _ _ => some fh
    | .readdir path => if path = ['/'] then none else lastWriter tr
    | .read fh size offset =>
      if illegal (readLen (e.pre.file (fh - 3))) size offset then lastWriter tr else none
    | .getattr _ | .open _ => none

/-- A write that skips its seek follows a write on the same handle that ended below 4 GB. -/
def streamOk : Machine.Guard Lfs Call Reply := fun tr s c =>
  match c with
  | .write fh _ offset => (s.file (fh - 3)).cur_offset = devOffset s fh offset →
      lastWriter tr = some fh ∧ s.fd.pos < 2 ^ 32
  | .getattr _ | .readdir _ | .open _ | .read .. => True

instance (tr : Trace) (s : Lfs) : ∀ c, Decidable (streamOk tr s c)
  | .write fh _ offset => inferInstanceAs (Decidable
      ((s.file (fh - 3)).cur_offset = devOffset s fh offset →
        lastWriter tr = some fh ∧ s.fd.pos < 2 ^ 32))
  | .getattr _ | .readdir _ | .open _ | .read .. => .isTrue trivial

/-- A write finds the descriptor where it skips the seek, and stores its bytes at
    `file[fh-3].real_offset + offset`. -/
def StreamRight (s : Lfs) (fh : ℕ) (buf : List UInt8) (offset : ℕ) : Prop :=
  ((s.file (fh - 3)).cur_offset = devOffset s fh offset → s.fd.pos = devOffset s fh offset) ∧
    ∀ ret s', system.step s (.write fh buf offset) = some (.wrote ret, s') →
      s'.fd.image = s.fd.image.patch (devOffset s fh offset) buf

/-- The invariant: the entry of the last writer holds the position, in 32 bits. -/
def StreamInv (tr : Trace) (s : Lfs) : Prop :=
  ∀ fh, lastWriter tr = some fh → (s.file (fh - 3)).cur_offset = toU32 s.fd.pos

theorem StreamInv.at_pos (h : StreamInv tr s) (hok : streamOk tr s (.write fh buf offset))
    (hskip : (s.file (fh - 3)).cur_offset = devOffset s fh offset) :
    s.fd.pos = devOffset s fh offset := by
  obtain ⟨hlast, hlt⟩ := hok hskip
  rw [← hskip, h fh hlast, toU32_natCast, Nat.mod_eq_of_lt hlt]

/-- A seek that is not skipped wrongly reaches its target. -/
theorem StreamInv.seek {fd : Descriptor} (h : StreamInv tr s)
    (hok : streamOk tr s (.write fh buf offset))
    (hs : seekTo s fh (devOffset s fh offset) = some fd) :
    fd = ⟨s.fd.image, devOffset s fh offset⟩ := by
  unfold seekTo at hs
  by_cases hskip : (s.file (fh - 3)).cur_offset = devOffset s fh offset
  · rw [if_neg (by simpa using hskip)] at hs
    rw [← Option.some.inj hs, ← h.at_pos hok hskip]
  · rw [if_pos hskip] at hs
    exact (Descriptor.lseek_eq_some.1 hs).2

/-- A step that does not rely on another call's position keeps the invariant. -/
theorem StreamInv.step (h : StreamInv tr s) (hok : streamOk tr s c) (ho : Outcome s c r s') :
    StreamInv (⟨s, c, r⟩ :: tr) s' := by
  intro fh hlast
  cases ho with
  | @readdirOther path _ _ hp hne =>
    have hlast : (if path = ['/'] then none else lastWriter tr) = some fh := hlast
    rw [if_neg hne] at hlast
    exact h fh hlast
  | readdirRoot => cases hlast
  | write hfh hs hw =>
    obtain rfl := Option.some.inj hlast
    rw [h.seek hok hs]
    dsimp only [Lfs.setFile]
    rw [Function.update_self]; rfl
  | @read fh' size offset _ hfh hl hill =>
    have hlast : (if illegal (readLen (s.file (fh' - 3))) size offset then lastWriter tr
      else none) = some fh := hlast
    rw [if_neg hill] at hlast; cases hlast
  | @readIllegal fh' size offset hfh hill =>
    have hlast : (if illegal (readLen (s.file (fh' - 3))) size offset then lastWriter tr
      else none) = some fh := hlast
    rw [if_pos hill] at hlast
    exact h fh hlast
  | _ => cases hlast

/-- **Every write lands where it should** in every run that meets `streamOk`, whatever the table
    held at first. -/
theorem stream_right (h : Mount image file streamOk tr s)
    (hok : streamOk tr s (.write fh buf offset)) : StreamRight s fh buf offset := by
  obtain ⟨s₀, -, hr⟩ := h
  have hinv : StreamInv tr s := hr.invariant StreamInv (fun _ h => nomatch h)
    fun ih hok hst => ih.step hok (step_outcome hst)
  refine ⟨hinv.at_pos hok, fun ret s' hst => ?_⟩
  cases step_outcome hst with
  | write hfh hs hw => rw [hinv.seek hok hs]; rfl

/-- One file written in order. -/
theorem stream_right_sequential : ∃ tr s,
    mountExec blankDevice zeroFile streamOk [.open (dataPath 1), .write 3 [7] 0] = some (tr, s) ∧
      (s.file 0).cur_offset = devOffset s 3 1 ∧ StreamRight s 3 [9] 1 := by
  obtain ⟨tr, s, he, hm, hcur, hok⟩ := Machine.exists_exec system streamOk
    (main blankDevice zeroFile)
    [.open (dataPath 1), .write 3 [7] 0]
    (fun tr s => (s.file 0).cur_offset = devOffset s 3 1 ∧ streamOk tr s (.write 3 [9] 1))
    (by decide +kernel)
  exact ⟨tr, s, he, hcur, stream_right hm hok⟩

/-- Two files written in turn: the second byte of the first file lands behind the first byte of
    the second. -/
theorem stream_wrong : ∃ tr s, mountExec blankDevice zeroFile Machine.anyStep
      [.open (dataPath 1), .open (dataPath 2), .write 3 [7] 0, .write 4 [8] 0] = some (tr, s) ∧
    Mount blankDevice zeroFile Machine.anyStep tr s ∧ ¬ StreamRight s 3 [9] 1 := by
  obtain ⟨tr, s, he, hm, hcur, hpos⟩ := Machine.exists_exec system Machine.anyStep
    (main blankDevice zeroFile)
    [.open (dataPath 1), .open (dataPath 2), .write 3 [7] 0, .write 4 [8] 0]
    (fun _ s => (s.file (3 - 3)).cur_offset = devOffset s 3 1 ∧ s.fd.pos ≠ devOffset s 3 1)
    (by decide +kernel)
  exact ⟨tr, s, he, hm, fun h => hpos (h.1 hcur)⟩

end Ltils
