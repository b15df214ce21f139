/-
  C integer conversions.

  Values are kept as integers or naturals; a conversion to a fixed-width type
  reduces modulo its range (the behaviour of the compilers in use where the
  standard leaves it to them), and an operation on `int` is undefined (`none`)
  where its exact result is not an `int`.
-/
import Mathlib.Tactic

namespace CInt

/-- Conversion to `int`. -/
@[irreducible] def toInt (z : ℤ) : ℤ :=
  if z % 2 ^ 32 < 2 ^ 31 then z % 2 ^ 32 else z % 2 ^ 32 - 2 ^ 32

/-- Conversion to `uint32_t`. -/
@[irreducible] def toU32 (z : ℤ) : ℕ := (z % 2 ^ 32).toNat

/-- Conversion to `uint64_t`. -/
@[irreducible] def toU64 (z : ℤ) : ℕ := (z % 2 ^ 64).toNat

/-- Conversion to `int64_t`. -/
@[irreducible] def toI64 (z : ℤ) : ℤ :=
  if z % 2 ^ 64 < 2 ^ 63 then z % 2 ^ 64 else z % 2 ^ 64 - 2 ^ 64

/-- The result of an operation on `int`, if it is an `int`. -/
def int? (z : ℤ) : Option ℤ := if -2 ^ 31 ≤ z ∧ z < 2 ^ 31 then some z else none

/-- The values of type `int`. -/
def IsInt (z : ℤ) : Prop := -2 ^ 31 ≤ z ∧ z < 2 ^ 31

theorem isInt_toInt (z : ℤ) : IsInt (toInt z) := by
  unfold IsInt toInt; split_ifs <;> omega

theorem toInt_of_isInt {z : ℤ} (h : IsInt z) : toInt z = z := by
  unfold IsInt at h; unfold toInt; split_ifs <;> omega

theorem toInt_natCast {n : ℕ} (h : n < 2 ^ 31) : toInt n = n :=
  toInt_of_isInt ⟨by omega, by omega⟩

theorem toInt_le (n : ℕ) : toInt n ≤ n := by
  unfold toInt; split_ifs <;> omega

/-- The conversion to `int` is that of the low 32 bits. -/
theorem toInt_eq_iff {m n : ℕ} : toInt m = toInt n ↔ m % 2 ^ 32 = n % 2 ^ 32 := by
  unfold toInt; split_ifs <;> omega

theorem toU64_natCast (n : ℕ) : toU64 n = n % 2 ^ 64 := by
  unfold toU64; omega

theorem toU64_of_lt {n : ℕ} (h : n < 2 ^ 64) : toU64 n = n := by
  unfold toU64; omega

theorem toU64_of_nonneg {z : ℤ} (h : 0 ≤ z) (h' : z < 2 ^ 64) : (toU64 z : ℤ) = z := by
  unfold toU64; omega

/-- A sum may be converted part by part. -/
theorem toU64_add (y z : ℤ) : toU64 (toU64 y + z) = toU64 (y + z) := by
  unfold toU64; omega

theorem toU64_lt (z : ℤ) : toU64 z < 2 ^ 64 := by
  unfold toU64; omega

theorem toU32_natCast (n : ℕ) : toU32 n = n % 2 ^ 32 := by
  unfold toU32; omega

theorem toU32_lt (z : ℤ) : toU32 z < 2 ^ 32 := by
  unfold toU32; omega

/-- Distinct `int`s stay distinct as `uint64_t`. -/
theorem toU64_inj {y z : ℤ} (hy : IsInt y) (hz : IsInt z) : toU64 y = toU64 z ↔ y = z := by
  unfold IsInt at hy hz; unfold toU64; omega

/-- Distinct `int`s stay distinct as `uint32_t`. -/
theorem toU32_inj {y z : ℤ} (hy : IsInt y) (hz : IsInt z) : toU32 y = toU32 z ↔ y = z := by
  unfold IsInt at hy hz; unfold toU32; omega

theorem toU64_eq_zero {z : ℤ} (hz : IsInt z) : toU64 z = 0 ↔ z = 0 := by
  unfold IsInt at hz; unfold toU64; omega

/-- An `int` survives the way through `uint32_t`. -/
theorem toInt_toU32 {z : ℤ} (hz : IsInt z) : toInt (toU32 z) = z := by
  unfold IsInt at hz; unfold toInt toU32; split_ifs <;> omega

/-- Narrowing the `uint64_t` value of an `int` gives its `uint32_t` value. -/
theorem toU32_toU64 {z : ℤ} : toU32 (toU64 z) = toU32 z := by
  unfold toU32 toU64; omega

theorem toI64_mod (n : ℕ) : toI64 (n % 2 ^ 64 : ℕ) = toI64 n := by
  unfold toI64; split_ifs <;> omega

theorem int?_eq_some {z y : ℤ} : int? z = some y ↔ IsInt z ∧ z = y := by
  unfold int?; split_ifs with h
  · exact ⟨fun he => ⟨h, Option.some.inj he⟩, fun he => congrArg some he.2⟩
  · exact ⟨nofun, fun he => absurd he.1 h⟩

/-- A computation whose first step is known. -/
theorem bind_of_eq_some {α β : Type} {x : Option α} {a : α} (h : x = some a)
    (f : α → Option β) : (x >>= f) = f a := by
  rw [h]; rfl

end CInt
