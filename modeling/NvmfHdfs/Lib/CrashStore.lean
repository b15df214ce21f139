/-
  Stores of files in which a crash may leave a write half done.

  Of the bytes that a torn write stores, any are there and any are not; other
  files keep theirs.

    - `Store.crashMachine`: a store with torn writes;
    - `Store.does_untouched`: what no write reaches is kept;
    - `Store.does_durable`: so is what a write stored that was not torn;
    - `Regions.contents_torn_write`: a torn image of a device that was written
      inside a region holds the file torn.
-/
import NvmfHdfs.Lib.Crash
import NvmfHdfs.Lib.Store

universe u

namespace Store
variable {κ : Type u}

/-- What happens to a store that may crash. -/
inductive CrashOp (κ : Type u) where
  | op (o : Op κ)
  | torn (f : κ) (offset : ℕ) (bs : List UInt8) (kept : ℕ → Bool)

/-- A write, torn or not, that reaches byte `x` of a file. -/
def CrashOp.reaches (f : κ) (x : ℕ) : CrashOp κ → Prop
  | .op (.read ..) => False
  | .op (.write g offset bs) | .torn g offset bs _ => g = f ∧ offset ≤ x ∧ x < offset + bs.length

variable [DecidableEq κ]

/-- A torn write leaves the file torn. -/
def crashMachine : Machine (Store κ) (CrashOp κ) (List UInt8) where
  step m
    | .op o => machine.step m o
    | .torn f offset bs kept =>
      some ([], Function.update m f (Image.torn kept (m f) ((m f).patch offset bs)))

variable {m₀ m : Store κ} {h : List (CrashOp κ × List UInt8)} {f : κ} {x : ℕ}

/-- **A byte that no write reaches**, torn or not, is what it was at first. -/
theorem does_untouched (hd : crashMachine.Does m₀ h m) (hx : ∀ e ∈ h, ¬ e.1.reaches f x) :
    m f x = m₀ f x := by
  refine hd.invariant (fun h m => (∀ e ∈ h, ¬ e.1.reaches f x) → m f x = m₀ f x) (fun _ => rfl)
    ?_ hx
  intro h m i o m' ih hst hx
  have ih := ih fun e he => hx e (List.mem_cons_of_mem _ he)
  have hi : ¬ i.reaches f x := hx (i, o) List.mem_cons_self
  have hpatch : ∀ {g offset bs}, ¬ (g = f ∧ offset ≤ x ∧ x < offset + bs.length) → g = f →
      (m f).patch offset bs x = m f x :=
    fun hnot hg => Image.patch_outside fun hr => hnot ⟨hg, hr⟩
  cases i with
  | op op =>
    cases op with
    | read g offset size =>
      obtain ⟨-, rfl⟩ := Prod.mk.inj (Option.some.inj hst)
      exact ih
    | write g offset bs =>
      obtain ⟨-, rfl⟩ := Prod.mk.inj (Option.some.inj hst)
      rw [Function.update_apply]
      split_ifs with hg
      · subst hg
        rw [hpatch hi rfl, ih]
      · exact ih
  | torn g offset bs kept =>
    obtain ⟨-, rfl⟩ := Prod.mk.inj (Option.some.inj hst)
    rw [Function.update_apply]
    split_ifs with hg
    · subst hg
      rw [Image.torn_of_eq (hpatch hi rfl), ih]
    · exact ih

/-- What a write stored is in its file until a later one, torn or not, reaches it. -/
def Durable (h : List (CrashOp κ × List UInt8)) (m : Store κ) : Prop :=
  ∀ later earlier f offset i, ∀ bs : List UInt8, (hi : i < bs.length) →
    h = later ++ (.op (.write f offset bs), []) :: earlier →
    (∀ e ∈ later, ¬ e.1.reaches f (offset + i)) → m f (offset + i) = bs[i]

/-- **Writes are durable** where they are not torn. -/
theorem does_durable (hd : crashMachine.Does m₀ h m) : Durable h m := by
  rintro later earlier f offset i bs hi rfl hlater
  obtain ⟨m₁, hd₁, hd₂⟩ := hd.append
  rw [does_untouched hd₂ hlater]
  cases hd₁ with
  | snoc _ hst =>
    obtain ⟨-, rfl⟩ := Prod.mk.inj (Option.some.inj hst)
    rw [Function.update_self, Image.patch_add hi]

end Store

/-! ## Torn images -/

namespace Regions
variable {κ : Type u} (R : Regions κ) {kept : ℕ → Bool} {m m' : Image} {f : κ}

/-- The files on a torn image are torn, each by what was kept in its region. -/
theorem contents_torn (f : κ) : R.contents (Image.torn kept m m') f =
    Image.torn (fun x => kept (R.start f + x)) (R.contents m f) (R.contents m' f) := by
  funext x
  simp only [contents, Image.torn]
  split_ifs <;> rfl

/-- Files that a step leaves are not torn. -/
theorem contents_torn_of_eq (h : R.contents m' = R.contents m) :
    R.contents (Image.torn kept m m') = R.contents m := by
  funext f x
  rw [contents_torn, h, Image.torn_of_eq rfl]

/-- Only the file that is written is torn. -/
theorem contents_torn_write [DecidableEq κ] {new : Image}
    (h : R.contents m' = Function.update (R.contents m) f new) :
    R.contents (Image.torn kept m m') = Function.update (R.contents m) f
      (Image.torn (fun x => kept (R.start f + x)) (R.contents m f) new) := by
  funext g x
  rw [contents_torn, h, Function.update_apply, Function.update_apply]
  split_ifs with hg
  · rw [hg]
  · exact Image.torn_of_eq rfl

/-- What a crash makes of an operation: a write is torn, a read is not seen. -/
def tornOp (kept : ℕ → Bool) : Store.Op κ → Option (Store.CrashOp κ × List UInt8)
  | .read .. => none
  | .write f offset bs => some (.torn f offset bs fun x => kept (R.start f + x), [])

variable [DecidableEq κ] {op : Store.Op κ} {bs : List UInt8}

/-- A read leaves the files. -/
theorem same_of_tornOp_none (h : R.tornOp kept op = none)
    (hst : Store.machine.step (R.contents m) op = some (bs, R.contents m')) :
    R.contents m' = R.contents m := by
  cases op with
  | read => exact (Prod.mk.inj (Option.some.inj hst)).2.symm
  | write => cases h

/-- A write that is cut off. -/
theorem step_tornOp {x : Store.CrashOp κ × List UInt8} (h : R.tornOp kept op = some x)
    (hst : Store.machine.step (R.contents m) op = some (bs, R.contents m')) :
    Store.crashMachine.step (R.contents m) x.1 =
      some (x.2, R.contents (Image.torn kept m m')) := by
  cases op with
  | read => cases h
  | write f offset bs =>
    cases h
    rw [R.contents_torn_write (Prod.mk.inj (Option.some.inj hst)).2.symm]
    rfl

end Regions
