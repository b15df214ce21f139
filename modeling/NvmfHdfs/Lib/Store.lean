/-
  Stores of files, and regions of an image that hold one.

  A store has an image for every file name; it is read and written by file and
  offset, and no file has an end.  `Regions` gives every name a place on one
  image, of bounded length, no byte of which belongs to two names.

    - `Store.does_content`: after a history, a file holds what was written to
      it, in order, over what it held before;
    - `Store.does_reply`: a read delivers what was written before it;
    - `Regions.contents_patch`, `Regions.slice_contents`: writing and reading
      inside a region is writing and reading its file;
    - `Regions.contents_congr`: other bytes do not matter;
    - `Regions.rows`: regions one after the other.
-/
import NvmfHdfs.Lib.Image
import NvmfHdfs.Lib.Simulation

universe u

/-- What the files hold. -/
abbrev Store (κ : Type u) := κ → Image

namespace Store
variable {κ : Type u}

/-- What can be asked of a store. -/
inductive Op (κ : Type u) where
  | read (f : κ) (offset size : ℕ)
  | write (f : κ) (offset : ℕ) (bs : List UInt8)

variable [DecidableEq κ]

/-- A read delivers the bytes, a write nothing. -/
def machine : Machine (Store κ) (Op κ) (List UInt8) where
  step m
    | .read f offset size => some ((m f).slice offset size, m)
    | .write f offset bs => some ([], Function.update m f ((m f).patch offset bs))

/-- The writes to a file in a history, the oldest first. -/
def writesTo (f : κ) : List (Op κ × List UInt8) → List (ℕ × List UInt8)
  | [] => []
  | (.read .., _) :: h => writesTo f h
  | (.write g offset bs, _) :: h =>
    if g = f then writesTo f h ++ [(offset, bs)] else writesTo f h

variable {m₀ m : Store κ} {h : List (Op κ × List UInt8)}

/-- **What a file holds** is what was written to it. -/
theorem does_content (hd : machine.Does m₀ h m) (f : κ) :
    m f = (m₀ f).patches (writesTo f h) := by
  refine hd.invariant (fun h m => m f = (m₀ f).patches (writesTo f h)) rfl ?_
  intro h m op o m' ih hst
  cases op with
  | read g offset size =>
    obtain ⟨-, rfl⟩ := Prod.mk.inj (Option.some.inj hst)
    exact ih
  | write g offset bs =>
    obtain ⟨-, rfl⟩ := Prod.mk.inj (Option.some.inj hst)
    rw [writesTo]
    by_cases hg : g = f
    · subst hg
      rw [Function.update_self, if_pos rfl, ih, Image.patches_concat]
    · rw [Function.update_of_ne (Ne.symm hg), if_neg hg, ih]

/-- **What a read delivers** is what was written before it. -/
theorem does_reply (h' : List (Op κ × List UInt8)) {f : κ} {offset size : ℕ} {bs : List UInt8}
    (hd : machine.Does m₀ (h' ++ (.read f offset size, bs) :: h) m) :
    bs = ((m₀ f).patches (writesTo f h)).slice offset size := by
  obtain ⟨m₁, hd, -⟩ := hd.append
  cases hd with
  | snoc hd' hst =>
    obtain ⟨rfl, -⟩ := Prod.mk.inj (Option.some.inj hst)
    rw [does_content hd']

end Store

/-! ## Regions of an image -/

/-- A place for every name: no byte belongs to two names. -/
structure Regions (κ : Type u) where
  start : κ → ℕ
  len : κ → ℕ
  inj : ∀ {f g x y}, x < len f → y < len g → start f + x = start g + y → f = g

namespace Regions
variable {κ : Type u} (R : Regions κ) {m m' : Image} {f : κ} {offset : ℕ} {bs : List UInt8}

/-- What the files hold on an image; there is nothing behind the end of a region. -/
def contents (m : Image) : Store κ := fun f x => if x < R.len f then m (R.start f + x) else 0

/-- The bytes that belong to a name. -/
def Inside (a : ℕ) : Prop := ∃ f x, x < R.len f ∧ a = R.start f + x

/-- Only the bytes inside the regions matter. -/
theorem contents_congr (h : ∀ a, R.Inside a → m a = m' a) : R.contents m = R.contents m' := by
  funext f x
  unfold contents
  split_ifs with hx
  · exact h _ ⟨f, x, hx, rfl⟩
  · rfl

/-- Reading inside a region. -/
theorem slice_contents {n : ℕ} (h : offset + n ≤ R.len f) :
    (R.contents m f).slice offset n = m.slice (R.start f + offset) n := by
  refine List.map_congr_left fun i hi => ?_
  have hlt := List.mem_range.1 hi
  rw [contents, if_pos (by omega), Nat.add_assoc]

/-- Writing inside a region. -/
theorem contents_patch [DecidableEq κ] (h : offset + bs.length ≤ R.len f) :
    R.contents (m.patch (R.start f + offset) bs) =
      Function.update (R.contents m) f ((R.contents m f).patch offset bs) := by
  funext g x
  rw [Function.update_apply]
  split_ifs with hg
  · subst hg
    by_cases hin : offset ≤ x ∧ x < offset + bs.length
    · obtain ⟨i, rfl⟩ := Nat.exists_eq_add_of_le hin.1
      have hi : i < bs.length := by omega
      rw [contents, if_pos (by omega), ← Nat.add_assoc, Image.patch_add hi, Image.patch_add hi]
    · rw [Image.patch_outside hin]
      unfold contents
      rw [Image.patch_outside (by omega)]
  · unfold contents
    split_ifs with hx
    · refine Image.patch_outside fun hr => hg ?_
      exact R.inj hx (y := R.start g + x - R.start f) (by omega) (by omega)
    · rfl

/-- `n` regions of the same length one after the other. -/
def rows (base size n : ℕ) : Regions ℕ where
  start i := base + i * size
  len i := if i < n then size else 0
  inj := by
    intro i j x y hx hy h
    have hx : x < size := hx.trans_le (by split_ifs <;> omega)
    have hy : y < size := hy.trans_le (by split_ifs <;> omega)
    have hsum : size * i + x = size * j + y := by
      rw [Nat.mul_comm _ i, Nat.mul_comm _ j]
      omega
    have hdiv := congrArg (· / size) hsum
    simpa only [Nat.mul_add_div (show 0 < size by omega), Nat.div_eq_of_lt hx,
      Nat.div_eq_of_lt hy, Nat.add_zero] using hdiv

end Regions
