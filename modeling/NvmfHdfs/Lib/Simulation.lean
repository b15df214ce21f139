/-
  Simulations between machines.

  A machine `A` says what a machine `M` is for.  The history of a run of `A` is
  the list of what was asked and answered, newest first.

    - `Machine.Does`: the histories of a machine and the states they lead to;
    - `Simulation`: a relation between the states of `M` and `A` that every
      step of `M` keeps, with a step of `A` or without one;
    - `Simulation.run`: the history of every run of `M` is one of `A`.
-/
import NvmfHdfs.Lib.Machine

universe u v w

namespace Machine
variable {σ : Type u} {ι : Type v} {ο : Type w}

/-- The histories of a machine, and the states they lead to. -/
inductive Does (M : Machine σ ι ο) (s₀ : σ) : List (ι × ο) → σ → Prop
  | nil : Does M s₀ [] s₀
  | snoc {h s i o s'} : Does M s₀ h s → M.step s i = some (o, s') → Does M s₀ ((i, o) :: h) s'

variable {M : Machine σ ι ο} {s₀ s : σ} {h : List (ι × ο)}

/-- The invariant rule for histories. -/
theorem Does.invariant (hd : Does M s₀ h s) (Inv : List (ι × ο) → σ → Prop) (h₀ : Inv [] s₀)
    (hs : ∀ {h s i o s'}, Inv h s → M.step s i = some (o, s') → Inv ((i, o) :: h) s') :
    Inv h s := by
  induction hd with
  | nil => exact h₀
  | snoc _ hst ih => exact hs ih hst

/-- What a history began with is a history, and the rest goes on from there. -/
theorem Does.append {h' : List (ι × ο)} (hd : Does M s₀ (h' ++ h) s) :
    ∃ s₁, Does M s₀ h s₁ ∧ Does M s₁ h' s := by
  induction h' generalizing s with
  | nil => exact ⟨s, hd, .nil⟩
  | cons x h' ih =>
    cases hd with
    | snoc hd hst =>
      obtain ⟨s₁, h1, h2⟩ := ih hd
      exact ⟨s₁, h1, .snoc h2 hst⟩

end Machine

open Machine

variable {σ σ' : Type u} {ι ι' : Type v} {ο ο' : Type w}

/-- A simulation of the runs of `M` that meet `ok` by histories of `A`.
    * `event` is the step of `A` that a step of `M` does, if any;
    * `Rel` relates the states, and may depend on the steps taken. -/
structure Simulation (M : Machine σ ι ο) (ok : Guard σ ι ο) (A : Machine σ' ι' ο') where
  Rel : List (Event σ ι ο) → σ → σ' → Prop
  event : List (Event σ ι ο) → Event σ ι ο → Option (ι' × ο')
  silent : ∀ {tr s a i o s'}, Rel tr s a → ok tr s i → M.step s i = some (o, s') →
    event tr ⟨s, i, o⟩ = none → Rel (⟨s, i, o⟩ :: tr) s' a
  matched : ∀ {tr s a i o s' i' o'}, Rel tr s a → ok tr s i → M.step s i = some (o, s') →
    event tr ⟨s, i, o⟩ = some (i', o') → ∃ a', A.step a i' = some (o', a') ∧
      Rel (⟨s, i, o⟩ :: tr) s' a'

namespace Simulation
variable {M : Machine σ ι ο} {ok : Guard σ ι ο} {A : Machine σ' ι' ο'} (S : Simulation M ok A)
  {tr : List (Event σ ι ο)} {s₀ s : σ} {a₀ : σ'}

/-- What a run does to `A`, where `event` says what a step does. -/
def historyOf (event : List (Event σ ι ο) → Event σ ι ο → Option (ι' × ο')) :
    List (Event σ ι ο) → List (ι' × ο')
  | [] => []
  | e :: tr => (event tr e).toList ++ historyOf event tr

/-- **The history of a run** of `M` is one of `A`. -/
theorem run (h : Run M ok s₀ tr s) (h₀ : S.Rel [] s₀ a₀) :
    ∃ a, A.Does a₀ (historyOf S.event tr) a ∧ S.Rel tr s a := by
  refine h.invariant (fun tr s => ∃ a, A.Does a₀ (historyOf S.event tr) a ∧ S.Rel tr s a)
    ⟨a₀, .nil, h₀⟩ ?_
  rintro tr s i o s' ⟨a, hd, hrel⟩ hok hst
  cases he : S.event tr ⟨s, i, o⟩ with
  | none =>
    refine ⟨a, ?_, S.silent hrel hok hst he⟩
    rw [historyOf, he]
    exact hd
  | some x =>
    obtain ⟨a', hst', hrel'⟩ := S.matched hrel hok hst he
    refine ⟨a', ?_, hrel'⟩
    rw [historyOf, he]
    exact .snoc hd hst'

end Simulation
