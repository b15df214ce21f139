/-
  Partial deterministic machines, their runs and the invariant rule.

  A machine maps a state and an input to an output and the next state, or to
  nothing where its behaviour is undefined.  A run is the list of the steps
  taken (newest first) together with the state reached; every step of it meets
  a condition `ok` that may look at the steps before it, at the state and at
  the input.
-/
import Mathlib.Tactic
import Mathlib.Data.List.Basic

universe u v w

/-- A partial deterministic machine. -/
structure Machine (σ : Type u) (ι : Type v) (ο : Type w) where
  step : σ → ι → Option (ο × σ)

namespace Machine
variable {σ : Type u} {ι : Type v} {ο : Type w}

/-- A step as it was taken: the state before it, the input and the output. -/
structure Event (σ : Type u) (ι : Type v) (ο : Type w) where
  pre : σ
  input : ι
  output : ο

/-- A condition on the steps of a run. -/
abbrev Guard (σ : Type u) (ι : Type v) (ο : Type w) := List (Event σ ι ο) → σ → ι → Prop

/-- The guard every step meets. -/
def anyStep : Guard σ ι ο := fun _ _ _ => True

/-- The runs from `s₀` whose steps all meet `ok`: the steps taken and the state reached. -/
inductive Run (M : Machine σ ι ο) (ok : Guard σ ι ο) (s₀ : σ) : List (Event σ ι ο) → σ → Prop
  | nil : Run M ok s₀ [] s₀
  | snoc {tr s i o s'} : Run M ok s₀ tr s → ok tr s i → M.step s i = some (o, s') →
      Run M ok s₀ (⟨s, i, o⟩ :: tr) s'

variable {M : Machine σ ι ο} {ok : Guard σ ι ο} {s₀ s s' : σ} {tr : List (Event σ ι ο)}

/-- **The invariant rule.**  What holds before the first step and is preserved by every
    step that meets the guard holds after every run. -/
theorem Run.invariant (h : Run M ok s₀ tr s) (Inv : List (Event σ ι ο) → σ → Prop)
    (h₀ : Inv [] s₀)
    (hs : ∀ {tr s i o s'}, Inv tr s → ok tr s i → M.step s i = some (o, s') →
      Inv (⟨s, i, o⟩ :: tr) s') : Inv tr s := by
  induction h with
  | nil => exact h₀
  | snoc _ hok hst ih => exact hs ih hok hst

/-- The invariant rule for a property of states. -/
theorem Run.invariant_state (h : Run M ok s₀ tr s) (P : σ → Prop) (h₀ : P s₀)
    (hs : ∀ {tr s i o s'}, P s → ok tr s i → M.step s i = some (o, s') → P s') : P s :=
  h.invariant (fun _ s => P s) h₀ hs

/-- A run that meets a condition meets a weaker one. -/
theorem Run.mono {ok' : Guard σ ι ο} (h : Run M ok s₀ tr s)
    (himp : ∀ {tr s i}, ok tr s i → ok' tr s i) : Run M ok' s₀ tr s := by
  induction h with
  | nil => exact .nil
  | snoc _ hok hst ih => exact .snoc ih (himp hok) hst

/-! ## Runs of given inputs -/

variable (M ok) in
/-- The run of a list of inputs from a run's steps and state, checking the guard. -/
def exec [∀ tr s i, Decidable (ok tr s i)] :
    List ι → List (Event σ ι ο) × σ → Option (List (Event σ ι ο) × σ)
  | [], c => some c
  | i :: is, (tr, s) =>
    if ok tr s i then
      match M.step s i with
      | some (o, s') => exec is (⟨s, i, o⟩ :: tr, s')
      | none => none
    else none

theorem exec_run [∀ tr s i, Decidable (ok tr s i)] {is : List ι} {tr' : List (Event σ ι ο)}
    (h : Run M ok s₀ tr s) (he : exec M ok is (tr, s) = some (tr', s')) : Run M ok s₀ tr' s' := by
  induction is generalizing tr s with
  | nil => cases he; exact h
  | cons i is ih =>
    unfold exec at he
    split_ifs at he with hok
    split at he
    · exact ih (.snoc h hok ‹_›) he
    · cases he

variable (M ok) in
/-- The run of a list of inputs from a start, if it can be made. -/
def execFrom [∀ tr s i, Decidable (ok tr s i)] (start : Option σ) (is : List ι) :
    Option (List (Event σ ι ο) × σ) :=
  start.bind fun s₀ => exec M ok is ([], s₀)

variable (M ok) in
/-- A run of given inputs, with what can be checked of it. -/
theorem exists_exec [∀ tr s i, Decidable (ok tr s i)] (start : Option σ) (is : List ι)
    (P : List (Event σ ι ο) → σ → Prop) [∀ tr s, Decidable (P tr s)]
    (h : (execFrom M ok start is).any (fun x => decide (P x.1 x.2)) = true) :
    ∃ tr s, execFrom M ok start is = some (tr, s) ∧
      (∃ s₀, start = some s₀ ∧ M.Run ok s₀ tr s) ∧ P tr s := by
  obtain ⟨⟨tr, s⟩, he, hP⟩ := (Option.any_eq_true _ _).1 h
  obtain ⟨s₀, hstart, hx⟩ := Option.bind_eq_some_iff.1 he
  exact ⟨tr, s, he, ⟨s₀, hstart, exec_run .nil hx⟩, of_decide_eq_true hP⟩

end Machine
