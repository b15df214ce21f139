/-
  The device cursor.

  `lfs_read` and `lfs_write` skip their seek when `cur_offset` says the
  descriptor is there.  Mounting, `lfs_getattrr`, the listing of `/` and an
  allocating `lfs_open` move the descriptor and leave `cur_offset`; the cursor
  is stale until the next transfer.

    - `stale`: the calls made so far leave the cursor stale;
    - `cursor_right`: in every run that never relies on a stale cursor, a
      skipped seek is where it should be, and every transfer happens at
      `pFd[fh].dev_offset + offset`;
    - `cursor_wrong`: a listing of `/` between two sequential writes.
-/
import NvmfHdfs.Rewrite.Mount

namespace Rewrite

open CInt Layout Bitmap Path Records

variable {s s' : Lfs} {image : Image} {c : Call} {r : Reply} {tr : Trace}

/-- A call that moves the descriptor without `cur_offset`. -/
def strays (s : Lfs) : Call → Bool
  | .getattr _ => true
  | .readdir path => path = ['/']
  | .open path =>
    match parsePath path with
    | some (k, b) => (s.finds k b).isNone
    | none => false
  | _ => false

/-- The calls made so far leave `cur_offset` behind the descriptor. -/
def stale : Trace → Bool
  | [] => true
  | e :: tr =>
    match e.input with
    | .read .. | .write .. | .release .. => false
    | c => strays e.pre c || stale tr

/-- A transfer that skips its seek does not follow a call that moved the descriptor. -/
def cursorOk : Machine.Guard Lfs Call Reply := fun tr s c =>
  match c with
  | .read fh _ offset | .write fh _ offset => stale tr = true → s.cur_offset ≠ devOffset s fh offset
  | _ => True

instance (tr : Trace) (s : Lfs) : ∀ c, Decidable (cursorOk tr s c)
  | .read fh _ offset | .write fh _ offset =>
    inferInstanceAs (Decidable (stale tr = true → s.cur_offset ≠ devOffset s fh offset))
  | .getattr _ | .readdir _ | .open _ | .release .. => .isTrue trivial

/-- A call that reads or writes finds the descriptor where it skips the seek, and transfers
    at `pFd[fh].dev_offset + offset`. -/
def CursorRight (s : Lfs) : Call → Prop
  | .read fh size offset =>
    (s.cur_offset = devOffset s fh offset → s.fd.pos = devOffset s fh offset) ∧
      ∀ ret buf s', system.step s (.read fh size offset) = some (.bytes ret buf, s') →
        buf = s.fd.image.slice (devOffset s fh offset) size
  | .write fh buf offset =>
    (s.cur_offset = devOffset s fh offset → s.fd.pos = devOffset s fh offset) ∧
      ∀ ret s', system.step s (.write fh buf offset) = some (.wrote ret, s') →
        s'.fd.image = s.fd.image.patch (devOffset s fh offset) buf
  | _ => True

/-- The invariant: unless it is stale, `cur_offset` is the position of the descriptor. -/
def CursorInv (tr : Trace) (s : Lfs) : Prop := stale tr = false → s.fd.pos = s.cur_offset

/-- A seek that is not skipped wrongly reaches its target. -/
theorem CursorInv.seek {fh offset : ℕ} {fd : Descriptor} (h : CursorInv tr s)
    (hok : stale tr = true → s.cur_offset ≠ devOffset s fh offset)
    (hs : seekTo s (devOffset s fh offset) = some fd) :
    fd = ⟨s.fd.image, devOffset s fh offset⟩ := by
  rw [seekTo_eq_some hs]
  by_cases hskip : s.cur_offset = devOffset s fh offset
  · have hfresh : stale tr = false := by
      by_contra hst
      exact hok (by simpa using hst) hskip
    rw [if_pos hskip, h hfresh, hskip]
  · rw [if_neg hskip]

theorem toU64_offset {p : ℕ} (h : p ≤ Descriptor.offMax) : toU64 p = p :=
  toU64_of_lt (lt_of_le_of_lt h (by decide))

/-- A step that does not rely on a stale cursor keeps the invariant. -/
theorem CursorInv.step (h : CursorInv tr s) (hok : cursorOk tr s c) (ho : Outcome s c r s') :
    CursorInv (⟨s, c, r⟩ :: tr) s' := by
  intro hst
  cases ho with
  | getattrMiss => cases hst
  | getattrHit => cases hst
  | readdirOther hp hne =>
    have hs : strays s (.readdir _) = false := decide_eq_false hne
    have hst : (strays s (.readdir _) || stale tr) = false := hst
    rw [hs, Bool.false_or] at hst
    exact h hst
  | readdirRoot => cases hst
  | @openFound path _ _ _ hp hf huse =>
    have hs : strays s (.open path) = false := by rw [strays, hp]; simp [finds_of_found hf huse]
    have hst : (strays s (.open path) || stale tr) = false := hst
    rw [hs, Bool.false_or] at hst
    exact h hst
  | @openMeta path _ _ _ _ _ _ _ _ hp hf =>
    have hs : strays s (.open path) = true := by rw [strays, hp]; simp [finds_of_meta hf]
    have hst : (strays s (.open path) || stale tr) = false := hst
    rw [hs] at hst; cases hst
  | @openData path _ _ _ _ _ _ _ hp hf =>
    have hs : strays s (.open path) = true := by rw [strays, hp]; simp [finds_of_data hf]
    have hst : (strays s (.open path) || stale tr) = false := hst
    rw [hs] at hst; cases hst
  | read hs hr =>
    rw [h.seek hok hs] at hr ⊢
    exact (toU64_offset hr).symm
  | write hs hw =>
    rw [h.seek hok hs] at hw ⊢
    exact (toU64_offset hw).symm
  | release _ hw => exact (toU64_offset hw).symm

/-- The invariant holds after every run. -/
theorem cursorInv_run (h : Mount image cursorOk tr s) : CursorInv tr s := by
  obtain ⟨s₀, -, hr⟩ := h
  refine hr.invariant CursorInv (fun hst => nomatch hst) ?_
  intro tr s c r s' ih hok hst
  exact ih.step hok (step_outcome hst)

/-- **The cursor is right** in every run that does not rely on a stale one. -/
theorem cursor_right (h : Mount image cursorOk tr s) (hok : cursorOk tr s c) :
    CursorRight s c := by
  have hinv := cursorInv_run h
  cases c with
  | read fh size offset =>
    constructor
    · intro hskip
      by_contra hpos
      refine hpos (hskip ▸ hinv ?_)
      by_contra hst
      exact hok (by simpa using hst) hskip
    · intro ret buf s' hst
      obtain ⟨fd, hs, he, -⟩ := (step_outcome hst).read_inv
      rw [hinv.seek hok hs] at he
      exact (Reply.bytes.inj he).2
  | write fh buf offset =>
    constructor
    · intro hskip
      by_contra hpos
      refine hpos (hskip ▸ hinv ?_)
      by_contra hst
      exact hok (by simpa using hst) hskip
    · intro ret s' hst
      obtain ⟨fd, hs, -, rfl⟩ := (step_outcome hst).write_inv
      rw [hinv.seek hok hs]
  | _ => trivial

/-- Two sequential writes with a seek in between: the second one relies on the cursor of
    the first. -/
theorem cursor_right_sequential : ∃ tr s,
    mountExec blankDevice cursorOk [.open (dataPath 1), .write 6 [7] 0] = some (tr, s) ∧
      s.cur_offset = devOffset s 6 1 ∧ CursorRight s (.write 6 [9] 1) := by
  obtain ⟨tr, s, he, hm, hst, hcur⟩ := Machine.exists_exec system cursorOk (main blankDevice)
    [.open (dataPath 1), .write 6 [7] 0]
    (fun tr s => stale tr = false ∧ s.cur_offset = devOffset s 6 1) (by decide +kernel)
  exact ⟨tr, s, he, hcur, cursor_right hm fun h => by rw [hst] at h; cases h⟩

/-- Looking at `/` between two sequential writes: the second one skips its seek and lands
    behind the bitmap. -/
theorem cursor_wrong : ∃ tr s, mountExec blankDevice Machine.anyStep
      [.open (dataPath 1), .write 6 [7] 0, .getattr ['/']] = some (tr, s) ∧
    Mount blankDevice Machine.anyStep tr s ∧ ¬ CursorRight s (.write 6 [9] 1) := by
  obtain ⟨tr, s, he, hm, hcur, hpos⟩ := Machine.exists_exec system Machine.anyStep
    (main blankDevice)
    [.open (dataPath 1), .write 6 [7] 0, .getattr ['/']]
    (fun _ s => s.cur_offset = devOffset s 6 1 ∧ s.fd.pos ≠ devOffset s 6 1) (by decide +kernel)
  exact ⟨tr, s, he, hm, fun h => hpos (h.1 hcur)⟩

end Rewrite
