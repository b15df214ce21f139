/-
  `u_operation`: what the kernel asks of either program.

  Besides the calls that do anything, both programs register `lfs_flush`,
  `lfs_mknod`, `lfs_getxattr` and `lfs_truncate`, which return 0 whatever they
  are given.

    - `uOperation`: the calls of a program together with these.
-/
import NvmfHdfs.Lib.Machine

namespace Operations

/-- `lfs_flush`. -/
def lfsFlush (_path : List Char) (_fh : ℕ) : ℤ := 0

/-- `lfs_mknod`. -/
def lfsMknod (_path : List Char) (_mode _rdev : ℕ) : ℤ := 0

/-- `lfs_getxattr`. -/
def lfsGetxattr (_path _name : List Char) (_size : ℕ) : ℤ := 0

/-- `lfs_truncate`. -/
def lfsTruncate (_path : List Char) (_size : ℤ) : ℤ := 0

/-- The requests of the kernel, by the function they go to; `χ` are the calls that do anything. -/
inductive Request (χ : Type) where
  | call (c : χ)
  | mknod (path : List Char) (mode rdev : ℕ)
  | flush (path : List Char) (fh : ℕ)
  | getxattr (path name : List Char) (size : ℕ)
  | truncate (path : List Char) (size : ℤ)

/-- The answers to them. -/
inductive Answer (ρ : Type) where
  | reply (r : ρ)
  | ret (value : ℤ)

variable {σ χ ρ : Type}

/-- `u_operation`. -/
def uOperation (M : Machine σ χ ρ) : Machine σ (Request χ) (Answer ρ) where
  step s
    | .call c => (M.step s c).map fun x => (.reply x.1, x.2)
    | .mknod path mode rdev => some (.ret (lfsMknod path mode rdev), s)
    | .flush path fh => some (.ret (lfsFlush path fh), s)
    | .getxattr path name size => some (.ret (lfsGetxattr path name size), s)
    | .truncate path size => some (.ret (lfsTruncate path size), s)

/-- A request is a call, or does nothing. -/
theorem uOperation_cases {M : Machine σ χ ρ} {s s' : σ} {q : Request χ} {x : Answer ρ}
    (h : (uOperation M).step s q = some (x, s')) :
    (∃ c r, q = .call c ∧ x = .reply r ∧ M.step s c = some (r, s')) ∨
      (∀ c, q ≠ .call c) ∧ s' = s := by
  cases q with
  | call c =>
    obtain ⟨⟨r, t⟩, hst, he⟩ := Option.map_eq_some_iff.1 h
    cases he
    exact .inl ⟨c, r, rfl, rfl, hst⟩
  | mknod => cases h; exact .inr ⟨nofun, rfl⟩
  | flush => cases h; exact .inr ⟨nofun, rfl⟩
  | getxattr => cases h; exact .inr ⟨nofun, rfl⟩
  | truncate => cases h; exact .inr ⟨nofun, rfl⟩

/-- The condition that a call meets, for requests. -/
def requestOk (ok : σ → χ → Prop) (s : σ) : Request χ → Prop
  | .call c => ok s c
  | .mknod .. | .flush .. | .getxattr .. | .truncate .. => True

instance (ok : σ → χ → Prop) [∀ s c, Decidable (ok s c)] (s : σ) :
    ∀ q, Decidable (requestOk ok s q)
  | .call c => inferInstanceAs (Decidable (ok s c))
  | .mknod .. | .flush .. | .getxattr .. | .truncate .. => .isTrue trivial

end Operations
