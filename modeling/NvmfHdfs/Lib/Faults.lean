/-
  Computations that name the fault that ends them.

  A computation of which only the defined results matter is an `Option`; one
  that also says what went wrong is an `Except`.  `orFault` names the fault of a
  partial step, and `Except.toOption` forgets the names again.
-/
import Mathlib.Tactic

namespace Faults
variable {φ α β : Type} {f g : φ} {x : Option α} {y : Except φ α}

/-- A partial step whose fault is `f`. -/
def orFault (f : φ) : Option α → Except φ α
  | some a => .ok a
  | none => .error f

@[simp] theorem orFault_some (a : α) : orFault f (some a) = .ok a := rfl

@[simp] theorem orFault_none : orFault f (none : Option α) = .error f := rfl

@[simp] theorem toOption_ok (a : α) : (Except.ok a : Except φ α).toOption = some a := rfl

@[simp] theorem toOption_error : (Except.error f : Except φ α).toOption = none := rfl

@[simp] theorem toOption_orFault : (orFault f x).toOption = x := by
  cases x <;> rfl

@[simp] theorem toOption_bind (k : α → Except φ β) :
    (y >>= k).toOption = y.toOption >>= fun a => (k a).toOption := by
  cases y <;> rfl

@[simp] theorem toOption_ite (p : Prop) [Decidable p] (y z : Except φ α) :
    (if p then y else z).toOption = if p then y.toOption else z.toOption := by
  split_ifs <;> rfl

theorem toOption_eq_some {a : α} : y.toOption = some a ↔ y = .ok a := by
  cases y <;> simp

@[simp] theorem ok_bind (a : α) (k : α → Except φ β) : (Except.ok a >>= k) = k a := rfl

@[simp] theorem error_bind (k : α → Except φ β) : ((.error f : Except φ α) >>= k) = .error f := rfl

theorem bind_eq_ok {k : α → Except φ β} {b : β} :
    (y >>= k) = .ok b ↔ ∃ a, y = .ok a ∧ k a = .ok b := by
  cases y <;> simp

end Faults
