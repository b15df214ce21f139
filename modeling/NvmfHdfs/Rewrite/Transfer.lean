/-
  Transfers that fail or stop early.

  `lfs_read` and `lfs_write` drop what `read` and `write` on the device hand
  back.  Here a call carries the outcome of its transfer; the position moves by
  the bytes moved, `cur_offset`, `size` and the value returned by the bytes asked
  for.

    - `TransferRight`: no more is reported than was moved, the size grows by no
      more than was stored, and the transfer is made at its place;
    - `transfers_right`: so it is in every run of complete transfers that does
      not begin with a skipped seek the descriptor has not made;
    - `TransferRight.whole`: and only then, as far as an `int` can report a size;
    - `transfer_displaced`: a write behind a write that stopped early.
-/
import NvmfHdfs.Rewrite.Cursor

namespace Rewrite

open CInt Layout Bitmap Path Records

/-! ## Calls with the outcome of their transfer -/

/-- A call of `lfs_read` or `lfs_write`, and how many bytes its transfer moves (`none` if it
    fails). -/
inductive Transfer where
  | read (fh size offset : ℕ) (moved : Option ℕ)
  | write (fh : ℕ) (buf : List UInt8) (offset : ℕ) (moved : Option ℕ)

namespace Transfer

def fh : Transfer → ℕ
  | .read fh .. | .write fh .. => fh

/-- The bytes asked for. -/
def size : Transfer → ℕ
  | .read _ size .. => size
  | .write _ buf .. => buf.length

def offset : Transfer → ℕ
  | .read _ _ offset _ | .write _ _ offset _ => offset

/-- The bytes moved. -/
def count : Transfer → ℕ
  | .read _ _ _ moved | .write _ _ _ moved => moved.getD 0

/-- The bytes stored. -/
def stored : Transfer → ℕ
  | .read .. => 0
  | .write _ _ _ moved => moved.getD 0

/-- The bytes by which `size` grows. -/
def noted : Transfer → ℕ
  | .read .. => 0
  | .write _ buf .. => buf.length

/-- The transfer is complete. -/
def Whole (c : Transfer) : Prop := c.count = c.size

instance (c : Transfer) : Decidable c.Whole := inferInstanceAs (Decidable (_ = _))

theorem noted_le {c : Transfer} (h : c.Whole) : c.noted ≤ c.stored := by
  cases c with
  | read => exact le_rfl
  | write => exact h.ge

end Transfer

/-- `lfs_write`, where the device stores `moved` bytes. -/
def lfsWriteWith (moved : Option ℕ) (s : Lfs) (fh : ℕ) (buf : List UInt8) (offset : ℕ) :
    Option (ℤ × Lfs) := do
  let dev_offset := devOffset s fh offset
  let fd ← seekTo s dev_offset
  if moved.getD 0 ≤ buf.length then do
    let fd ← fd.write (buf.take (moved.getD 0))
    some (toInt buf.length, { s with
      fd := fd
      cur_offset := toU64 (dev_offset + buf.length : ℕ)
      pFd := Function.update s.pFd fh
        { s.pFd fh with size := toU64 ((s.pFd fh).size + buf.length : ℕ) } })
  else none

/-- `lfs_read`, where the device delivers `moved` bytes: the value it returns and what was put
    into `buf`. -/
def lfsReadWith (moved : Option ℕ) (s : Lfs) (fh size offset : ℕ) :
    Option ((ℤ × List UInt8) × Lfs) := do
  let dev_offset := devOffset s fh offset
  let fd ← seekTo s dev_offset
  if moved.getD 0 ≤ size then do
    let (buf, fd) ← fd.read (moved.getD 0)
    some ((toInt size, buf), { s with
      fd := fd
      cur_offset := toU64 (dev_offset + size : ℕ) })
  else none

variable {s s' s₀ : Lfs} {c : Transfer} {r : ℤ × List UInt8} {fd : Descriptor}

/-- A complete write is that of `lfsWrite`. -/
theorem lfsWriteWith_whole (s : Lfs) (fh : ℕ) (buf : List UInt8) (offset : ℕ) :
    lfsWriteWith (some buf.length) s fh buf offset = lfsWrite s fh buf offset := by
  unfold lfsWriteWith lfsWrite
  simp

/-- A complete read is that of `lfsRead`. -/
theorem lfsReadWith_whole (s : Lfs) (fh size offset : ℕ) :
    lfsReadWith (some size) s fh size offset = lfsRead s fh size offset := by
  unfold lfsReadWith lfsRead
  simp

/-- One call: the value returned, the bytes put into `buf` and the next state. -/
def transferStep (s : Lfs) : Transfer → Option ((ℤ × List UInt8) × Lfs)
  | .read fh size offset moved => lfsReadWith moved s fh size offset
  | .write fh buf offset moved => (lfsWriteWith moved s fh buf offset).map fun r => ((r.1, []), r.2)

/-- The sequences of reads and writes. -/
def transfers : Machine Lfs Transfer (ℤ × List UInt8) := ⟨transferStep⟩

/-- The calls made in a sequence of reads and writes. -/
abbrev Transfers := List (Machine.Event Lfs Transfer (ℤ × List UInt8))

/-- What a call reports is right, and it is made at its place. -/
structure TransferRight (s : Lfs) (c : Transfer) (r : ℤ × List UInt8) (s' : Lfs) : Prop where
  reported : r.1 ≤ c.count
  grows : (s'.pFd c.fh).size ≤ (s.pFd c.fh).size + c.stored
  place : ∀ fd ∈ seekTo s (devOffset s c.fh c.offset), fd.pos = devOffset s c.fh c.offset

/-- A complete transfer.  The first one of the sequence finds the descriptor where it skips its
    seek. -/
def wholeOk : Machine.Guard Lfs Transfer (ℤ × List UInt8) := fun tr s c =>
  c.Whole ∧ (tr = [] → s.cur_offset = devOffset s c.fh c.offset → s.fd.pos = s.cur_offset)

instance (tr : Transfers) (s : Lfs) (c : Transfer) : Decidable (wholeOk tr s c) :=
  inferInstanceAs (Decidable (_ ∧ _))

instance (tr : Transfers) (s : Lfs) (c : Transfer) : Decidable (Machine.anyStep tr s c) :=
  .isTrue trivial

/-! ## One call -/

/-- What a call does, whatever its transfer moves. -/
structure Moves (s : Lfs) (c : Transfer) (r : ℤ × List UInt8) (s' : Lfs) (fd : Descriptor) :
    Prop where
  seek : seekTo s (devOffset s c.fh c.offset) = some fd
  count_le : c.count ≤ c.size
  inside : fd.pos + c.count ≤ Descriptor.offMax
  pos : s'.fd.pos = fd.pos + c.count
  cur_offset : s'.cur_offset = toU64 (devOffset s c.fh c.offset + c.size : ℕ)
  ret : r.1 = toInt c.size
  size_le : (s'.pFd c.fh).size ≤ (s.pFd c.fh).size + c.noted

theorem read_moves {fh size offset : ℕ} {moved : Option ℕ}
    (h : lfsReadWith moved s fh size offset = some (r, s')) :
    ∃ fd, Moves s (.read fh size offset moved) r s' fd := by
  obtain ⟨fd, hs, h⟩ := Option.bind_eq_some_iff.1 h
  split_ifs at h with hle
  obtain ⟨⟨buf, fd'⟩, hr, h⟩ := Option.bind_eq_some_iff.1 h
  obtain ⟨hin, rfl, rfl⟩ := Descriptor.read_eq_some.1 hr
  cases h
  exact ⟨fd, hs, hle, hin, rfl, rfl, rfl, le_rfl⟩

theorem write_moves {fh offset : ℕ} {buf : List UInt8} {moved : Option ℕ} {ret : ℤ}
    (h : lfsWriteWith moved s fh buf offset = some (ret, s')) :
    ∃ fd, Moves s (.write fh buf offset moved) (ret, []) s' fd := by
  obtain ⟨fd, hs, h⟩ := Option.bind_eq_some_iff.1 h
  split_ifs at h with hle
  obtain ⟨fd', hw, h⟩ := Option.bind_eq_some_iff.1 h
  obtain ⟨hin, rfl⟩ := Descriptor.write_eq_some.1 hw
  rw [List.length_take, min_eq_left hle] at hin
  cases h
  refine ⟨fd, hs, hle, hin, ?_, rfl, rfl, ?_⟩
  · simp [Transfer.count, hle]
  · simp only [Transfer.fh, Function.update_self, Transfer.noted, toU64_natCast]
    exact Nat.mod_le _ _

theorem transferStep_moves (h : transferStep s c = some (r, s')) : ∃ fd, Moves s c r s' fd := by
  cases c with
  | read fh size offset moved => exact read_moves h
  | write fh buf offset moved =>
    obtain ⟨⟨ret, t⟩, hw, ht⟩ := Option.map_eq_some_iff.1 h
    cases ht
    exact write_moves hw

/-- A right call of a size that an `int` can report moves all of it. -/
theorem TransferRight.whole (h : TransferRight s c r s') (hst : transferStep s c = some (r, s'))
    (hsize : c.size < 2 ^ 31) : c.Whole := by
  obtain ⟨fd, M⟩ := transferStep_moves hst
  have hrep := h.reported
  rw [M.ret, toInt_natCast hsize] at hrep
  exact le_antisymm M.count_le (by exact_mod_cast hrep)

/-! ## Sequences of calls -/

variable {tr : Transfers}

/-- The invariant: behind the first call `cur_offset` is the position of the descriptor. -/
def TransferInv (tr : Transfers) (s : Lfs) : Prop := tr ≠ [] → s.fd.pos = s.cur_offset

/-- The descriptor is at its place when the transfer starts. -/
theorem TransferInv.seek (h : TransferInv tr s) (hok : wholeOk tr s c)
    (hs : seekTo s (devOffset s c.fh c.offset) = some fd) :
    fd.pos = devOffset s c.fh c.offset := by
  rw [seekTo_eq_some hs]
  by_cases hskip : s.cur_offset = devOffset s c.fh c.offset
  · rw [if_pos hskip]
    by_cases htr : tr = []
    · exact (hok.2 htr hskip).trans hskip
    · exact (h htr).trans hskip
  · rw [if_neg hskip]

/-- A complete transfer moves the descriptor to `cur_offset`. -/
theorem TransferInv.step (h : TransferInv tr s) (hok : wholeOk tr s c)
    (hst : transferStep s c = some (r, s')) : TransferInv (⟨s, c, r⟩ :: tr) s' := by
  intro _
  obtain ⟨fd, M⟩ := transferStep_moves hst
  have hpos := h.seek hok M.seek
  have hin := M.inside
  have hwhole : c.count = c.size := hok.1
  rw [hpos, hwhole] at hin
  rw [M.pos, M.cur_offset, hpos, hwhole, toU64_offset hin]

/-- The invariant holds after every sequence. -/
theorem transferInv_run (h : transfers.Run wholeOk s₀ tr s) : TransferInv tr s := by
  refine h.invariant TransferInv (fun hne => absurd rfl hne) ?_
  intro tr s c r s' ih hok hst
  exact ih.step hok hst

/-- **Complete transfers are right**: in every sequence of them each call reports what was
    moved, `size` grows by what was stored, and the transfer is made at its place. -/
theorem transfers_right (h : transfers.Run wholeOk s₀ tr s) (hok : wholeOk tr s c)
    (hst : transfers.step s c = some (r, s')) : TransferRight s c r s' := by
  have hinv := transferInv_run h
  obtain ⟨fd, M⟩ := transferStep_moves hst
  refine ⟨?_, M.size_le.trans (Nat.add_le_add_left (Transfer.noted_le hok.1) _), ?_⟩
  · rw [M.ret, show c.count = c.size from hok.1]
    exact toInt_le c.size
  · intro fd' hs
    exact hinv.seek hok hs

/-- The place of a call, looked at. -/
def inPlace (s : Lfs) (c : Transfer) : Bool :=
  (seekTo s (devOffset s c.fh c.offset)).all fun fd => fd.pos = devOffset s c.fh c.offset

theorem TransferRight.inPlace (h : TransferRight s c r s') : inPlace s c = true := by
  unfold Rewrite.inPlace
  rw [Option.all_eq_true]
  intro fd hs
  exact decide_eq_true (h.place fd hs)

/-- A byte written behind two bytes that were written whole. -/
theorem transfers_right_two : ∃ tr₀ s₀ tr s r s',
    mountExec blankDevice Machine.anyStep [.open (dataPath 1)] = some (tr₀, s₀) ∧
    Machine.exec transfers wholeOk [.write 6 [1, 2] 0 (some 2)] ([], s₀) = some (tr, s) ∧
    transfers.step s (.write 6 [3] 2 (some 1)) = some (r, s') ∧
    TransferRight s (.write 6 [3] 2 (some 1)) r s' := by
  obtain ⟨tr₀, s₀, he, -, hx⟩ := Machine.exists_exec system Machine.anyStep
    (main blankDevice) [.open (dataPath 1)]
    (fun _ s => (Machine.exec transfers wholeOk [.write 6 [1, 2] 0 (some 2)] ([], s)).any
      (fun x => x.1 ≠ [] ∧ (transfers.step x.2 (.write 6 [3] 2 (some 1))).isSome = true) = true)
    (by decide +kernel)
  obtain ⟨⟨tr, s⟩, hx, h⟩ := (Option.any_eq_true _ _).1 hx
  obtain ⟨hne, hst⟩ := of_decide_eq_true h
  obtain ⟨⟨r, s'⟩, hst⟩ := Option.isSome_iff_exists.1 hst
  exact ⟨tr₀, s₀, tr, s, r, s', he, hx, hst,
    transfers_right (Machine.exec_run .nil hx) ⟨rfl, fun h => absurd h hne⟩ hst⟩

/-- Two bytes are written and one is stored: the byte written behind them is stored whole, one
    byte too early. -/
theorem transfer_displaced : ∃ tr₀ s₀ tr s r s',
    mountExec blankDevice Machine.anyStep [.open (dataPath 1)] = some (tr₀, s₀) ∧
    Mount blankDevice Machine.anyStep tr₀ s₀ ∧
    Machine.exec transfers Machine.anyStep [.write 6 [1, 2] 0 (some 1)] ([], s₀) = some (tr, s) ∧
    transfers.Run Machine.anyStep s₀ tr s ∧
    transfers.step s (.write 6 [3] 2 (some 1)) = some (r, s') ∧
    s'.fd.image (devOffset s 6 1) = 3 ∧ ¬ TransferRight s (.write 6 [3] 2 (some 1)) r s' := by
  obtain ⟨tr₀, s₀, he, hm, hx⟩ := Machine.exists_exec system Machine.anyStep
    (main blankDevice) [.open (dataPath 1)]
    (fun _ s => (Machine.exec transfers Machine.anyStep [.write 6 [1, 2] 0 (some 1)] ([], s)).any
      (fun x => inPlace x.2 (.write 6 [3] 2 (some 1)) = false ∧
        (transfers.step x.2 (.write 6 [3] 2 (some 1))).any
          (fun y => y.2.fd.image (devOffset x.2 6 1) = 3) = true) = true)
    (by decide +kernel)
  obtain ⟨⟨tr, s⟩, hx, h⟩ := (Option.any_eq_true _ _).1 hx
  obtain ⟨hplace, hst⟩ := of_decide_eq_true h
  obtain ⟨⟨r, s'⟩, hst, h3⟩ := (Option.any_eq_true _ _).1 hst
  refine ⟨tr₀, s₀, tr, s, r, s', he, hm, hx, Machine.exec_run .nil hx, hst,
    of_decide_eq_true h3, ?_⟩
  intro h
  rw [h.inPlace] at hplace
  cases hplace

end Rewrite
