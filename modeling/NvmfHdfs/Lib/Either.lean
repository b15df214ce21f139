/-
  Two machines, one of which is running.

  A state is one of either machine, and takes the inputs of that machine only;
  the steps of each are read off the run.

    - `Machine.either`: the two as one machine, inverted by `either_cases`;
    - `Machine.lefts`, `Machine.rights`: the steps of each;
    - `Machine.eitherOk`: a condition on each by its own steps.
-/
import NvmfHdfs.Lib.Machine

universe u v w

namespace Machine
variable {σ σ' : Type u} {ι ι' : Type v} {ο ο' : Type w}

/-- Whichever of two machines has the state. -/
def either (M : Machine σ ι ο) (N : Machine σ' ι' ο') :
    Machine (σ ⊕ σ') (ι ⊕ ι') (ο ⊕ ο') where
  step
    | .inl s, .inl i => (M.step s i).map fun x => (.inl x.1, .inl x.2)
    | .inr s, .inr i => (N.step s i).map fun x => (.inr x.1, .inr x.2)
    | .inl _, .inr _ | .inr _, .inl _ => none

variable {M : Machine σ ι ο} {N : Machine σ' ι' ο'} {s t : σ ⊕ σ'} {i : ι ⊕ ι'} {o : ο ⊕ ο'}

/-- A step is one of the machine that has the state. -/
theorem either_cases (h : (M.either N).step s i = some (o, t)) :
    (∃ s₁ i₁ o₁ t₁, s = .inl s₁ ∧ i = .inl i₁ ∧ o = .inl o₁ ∧ t = .inl t₁ ∧
      M.step s₁ i₁ = some (o₁, t₁)) ∨
    ∃ s₂ i₂ o₂ t₂, s = .inr s₂ ∧ i = .inr i₂ ∧ o = .inr o₂ ∧ t = .inr t₂ ∧
      N.step s₂ i₂ = some (o₂, t₂) := by
  rcases s with s | s <;> rcases i with i | i
  · obtain ⟨⟨o₁, t₁⟩, hst, he⟩ := Option.map_eq_some_iff.1 h
    obtain ⟨rfl, rfl⟩ := Prod.mk.inj he
    exact .inl ⟨s, i, o₁, t₁, rfl, rfl, rfl, rfl, hst⟩
  · cases h
  · cases h
  · obtain ⟨⟨o₂, t₂⟩, hst, he⟩ := Option.map_eq_some_iff.1 h
    obtain ⟨rfl, rfl⟩ := Prod.mk.inj he
    exact .inr ⟨s, i, o₂, t₂, rfl, rfl, rfl, rfl, hst⟩

/-! ## The steps of each machine -/

/-- A step of the first machine. -/
def Event.left? (e : Event (σ ⊕ σ') (ι ⊕ ι') (ο ⊕ ο')) : Option (Event σ ι ο) :=
  match e.pre, e.input, e.output with
  | .inl s, .inl i, .inl o => some ⟨s, i, o⟩
  | _, _, _ => none

/-- A step of the second machine. -/
def Event.right? (e : Event (σ ⊕ σ') (ι ⊕ ι') (ο ⊕ ο')) : Option (Event σ' ι' ο') :=
  match e.pre, e.input, e.output with
  | .inr s, .inr i, .inr o => some ⟨s, i, o⟩
  | _, _, _ => none

/-- The steps of the first machine. -/
def lefts (tr : List (Event (σ ⊕ σ') (ι ⊕ ι') (ο ⊕ ο'))) : List (Event σ ι ο) :=
  tr.filterMap Event.left?

/-- The steps of the second machine. -/
def rights (tr : List (Event (σ ⊕ σ') (ι ⊕ ι') (ο ⊕ ο'))) : List (Event σ' ι' ο') :=
  tr.filterMap Event.right?

/-- A condition on the steps of each machine. -/
def eitherOk (ok : Guard σ ι ο) (ok' : Guard σ' ι' ο') :
    Guard (σ ⊕ σ') (ι ⊕ ι') (ο ⊕ ο') := fun tr s i =>
  match s, i with
  | .inl s, .inl i => ok (lefts tr) s i
  | .inr s, .inr i => ok' (rights tr) s i
  | .inl _, .inr _ | .inr _, .inl _ => False

instance {ok : Guard σ ι ο} {ok' : Guard σ' ι' ο'} [∀ tr s i, Decidable (ok tr s i)]
    [∀ tr s i, Decidable (ok' tr s i)] (tr : List (Event (σ ⊕ σ') (ι ⊕ ι') (ο ⊕ ο'))) :
    ∀ s i, Decidable (eitherOk ok ok' tr s i)
  | .inl s, .inl i => inferInstanceAs (Decidable (ok (lefts tr) s i))
  | .inr s, .inr i => inferInstanceAs (Decidable (ok' (rights tr) s i))
  | .inl _, .inr _ | .inr _, .inl _ => .isFalse id

/-- What a step of either machine says, where it is said of the steps of each. -/
def eitherEvent {α : Type*} (f : List (Event σ ι ο) → Event σ ι ο → Option α)
    (g : List (Event σ' ι' ο') → Event σ' ι' ο' → Option α)
    (tr : List (Event (σ ⊕ σ') (ι ⊕ ι') (ο ⊕ ο')))
    (e : Event (σ ⊕ σ') (ι ⊕ ι') (ο ⊕ ο')) : Option α :=
  match e.left?, e.right? with
  | some e, _ => f (lefts tr) e
  | none, some e => g (rights tr) e
  | none, none => none

end Machine
