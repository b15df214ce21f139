/-
  Either program over all its mounts, as a store that may crash.

  In each of its mounts a program reads and writes like a store of files, and
  when it is started it reads a header of the device that no call changes.

    - `Lifetime`: requests, unmounts and crashes, where the calls since the last
      start, and one that is cut off, meet a condition;
    - `crashEvent`: what a step does to the store;
    - `StoreProgram`: a program that is a store in one mount;
    - `StoreProgram.crashSim`: it is a store with torn writes over all of them,
      each crash tearing the file that is written, if any.
-/
import NvmfHdfs.Lib.Crash
import NvmfHdfs.Lib.CrashStore
import NvmfHdfs.Operations

namespace Operations

open Machine (Event Guard)

variable {σ χ ρ μ κ : Type}

/-- What happens to a device: a request, unmounting it and mounting it again, or a crash. -/
abbrev MountEvent (σ χ ρ μ : Type) := Event σ (CrashInput (Request χ) μ) (Option (Answer ρ))

/-- The calls since the last start, the newest first. -/
def mountTrace : List (MountEvent σ χ ρ μ) → List (Event σ χ ρ)
  | [] => []
  | ⟨s, .call (.call c), some (.reply r)⟩ :: tr => ⟨s, c, r⟩ :: mountTrace tr
  | ⟨_, .restart _, _⟩ :: _ | ⟨_, .crash .., _⟩ :: _ => []
  | _ :: tr => mountTrace tr

/-- A condition on the calls of each mount. -/
def mountOk (ok : Guard σ χ ρ) : Guard σ (CrashInput (Request χ) μ) (Option (Answer ρ)) :=
  fun tr => Machine.crashOk (requestOk (ok (mountTrace tr))) tr

instance (ok : Guard σ χ ρ) [∀ tr s c, Decidable (ok tr s c)] (tr : List (MountEvent σ χ ρ μ))
    (s : σ) (x : CrashInput (Request χ) μ) : Decidable (mountOk ok tr s x) :=
  inferInstanceAs (Decidable (Machine.crashOk (requestOk (ok (mountTrace tr))) tr s x))

variable {tr : List (MountEvent σ χ ρ μ)} {s s' t : σ} {c : χ} {r : ρ} {q : Request χ}

theorem mountTrace_idle (hq : ∀ c, q ≠ .call c) {y : Answer ρ} :
    mountTrace (⟨s, .call q, some y⟩ :: tr) = mountTrace tr := by
  cases q with
  | call c => exact absurd rfl (hq c)
  | _ => rfl

/-- What happens to a device from its first mount. -/
def Lifetime (M : Machine σ χ ρ) (ok : Guard σ χ ρ) (disk : σ → Image)
    (start : μ → Image → Option σ) (image : Image) (tr : List (MountEvent σ χ ρ μ)) (s : σ) :
    Prop :=
  ∃ memory s₀, start memory image = some s₀ ∧
    ((uOperation M).crashing disk start).Run (mountOk ok) s₀ tr s

/-- Mounting a device for the first time and making the given requests. -/
def lifetimeExec (M : Machine σ χ ρ) (ok : Guard σ χ ρ) [∀ tr s c, Decidable (ok tr s c)]
    (disk : σ → Image) (start : μ → Image → Option σ) (memory : μ) (image : Image)
    (xs : List (CrashInput (Request χ) μ)) : Option (List (MountEvent σ χ ρ μ) × σ) :=
  Machine.execFrom ((uOperation M).crashing disk start) (mountOk ok) (start memory image) xs

/-- What a step over all mounts asks of a store, and what it answers, where `event` says it for
    the calls of one mount; a call that is cut off does what it would have done, torn. -/
def crashEvent (M : Machine σ χ ρ)
    (event : List (Event σ χ ρ) → Event σ χ ρ → Option (Store.Op κ × List UInt8)) (R : Regions κ)
    (tr : List (MountEvent σ χ ρ μ)) (e : MountEvent σ χ ρ μ) :
    Option (Store.CrashOp κ × List UInt8) :=
  match e.input, e.output with
  | .call (.call c), some (.reply r) =>
    (event (mountTrace tr) ⟨e.pre, c, r⟩).map fun y => (.op y.1, y.2)
  | .crash (.call c) kept _, _ => (M.step e.pre c).bind fun y =>
    (event (mountTrace tr) ⟨e.pre, c, y.1⟩).bind fun z => R.tornOp kept z.1
  | _, _ => none

variable [DecidableEq κ]

/-- A program that is a store of files in each mount.
    * `event` is what a call does to the store, if anything.
    * `Inv` is an invariant of a mount, that starting again needs the header for. -/
structure StoreProgram (M : Machine σ χ ρ) (ok : Guard σ χ ρ) (disk : σ → Image)
    (start : μ → Image → Option σ) (R : Regions κ) where
  Inv : List (Event σ χ ρ) → σ → Prop
  event : List (Event σ χ ρ) → Event σ χ ρ → Option (Store.Op κ × List UInt8)
  header : ℕ
  inv_step : ∀ {tr s c r s'}, Inv tr s → ok tr s c → M.step s c = some (r, s') →
    Inv (⟨s, c, r⟩ :: tr) s'
  header_step : ∀ {tr s c r s'}, Inv tr s → ok tr s c → M.step s c = some (r, s') →
    ∀ a < header, disk s' a = disk s a
  silent : ∀ {tr s c r s'}, Inv tr s → ok tr s c → M.step s c = some (r, s') →
    event tr ⟨s, c, r⟩ = none → R.contents (disk s') = R.contents (disk s)
  matched : ∀ {tr s c r s' op bs}, Inv tr s → ok tr s c → M.step s c = some (r, s') →
    event tr ⟨s, c, r⟩ = some (op, bs) →
    Store.machine.step (R.contents (disk s)) op = some (bs, R.contents (disk s'))
  disk_start : ∀ {m memory s}, start memory m = some s → disk s = m
  inv_start : ∀ {tr s m memory s'}, Inv tr s → (∀ a < header, m a = disk s a) →
    start memory m = some s' → Inv [] s'

namespace StoreProgram
variable {M : Machine σ χ ρ} {ok : Guard σ χ ρ} {disk : σ → Image}
  {start : μ → Image → Option σ} {R : Regions κ} (P : StoreProgram M ok disk start R)
  {kept : ℕ → Bool} {memory : μ}

/-- Starting again after a call that was cut off. -/
theorem inv_crash {tr : List (Event σ χ ρ)} (H : P.Inv tr s) (hok : ok tr s c)
    (hst : M.step s c = some (r, t))
    (hm : start memory (Image.torn kept (disk s) (disk t)) = some s') : P.Inv [] s' :=
  P.inv_start H (fun a ha => Image.torn_of_eq (P.header_step H hok hst a ha)) hm

/-- **The simulation** of a program over all its mounts by a store with torn writes. -/
def crashSim : Simulation ((uOperation M).crashing disk start) (mountOk ok)
    (Store.crashMachine : Machine (Store κ) _ _) where
  Rel tr s m := P.Inv (mountTrace tr) s ∧ m = R.contents (disk s)
  event := crashEvent M P.event R
  silent := by
    rintro tr s m x o s' ⟨H, rfl⟩ hok hstep he
    cases x with
    | call q =>
      obtain ⟨y, rfl, hcall⟩ := Machine.crashing_call hstep
      rcases uOperation_cases hcall with ⟨c, r, rfl, rfl, hst⟩ | ⟨hq, rfl⟩
      · have hnone : P.event (mountTrace tr) ⟨s, c, r⟩ = none := Option.map_eq_none_iff.1 he
        exact ⟨P.inv_step H hok hst, (P.silent H hok hst hnone).symm⟩
      · rw [mountTrace_idle hq]
        exact ⟨H, rfl⟩
    | restart memory =>
      obtain ⟨rfl, hm⟩ := Machine.crashing_restart hstep
      rw [P.disk_start hm]
      exact ⟨P.inv_start H (fun _ _ => rfl) hm, rfl⟩
    | crash q kept memory =>
      obtain ⟨rfl, y, t, hcall, hm⟩ := Machine.crashing_crash hstep
      rw [P.disk_start hm]
      rcases uOperation_cases hcall with ⟨c, r, rfl, rfl, hst⟩ | ⟨hq, rfl⟩
      · refine ⟨P.inv_crash H hok hst hm, ?_⟩
        have he : ((M.step s c).bind fun y => (P.event (mountTrace tr) ⟨s, c, y.1⟩).bind
          fun z => R.tornOp kept z.1) = none := he
        rw [hst, Option.bind_some] at he
        refine (R.contents_torn_of_eq ?_).symm
        cases hev : P.event (mountTrace tr) ⟨s, c, r⟩ with
        | none => exact P.silent H hok hst hev
        | some z =>
          rw [hev, Option.bind_some] at he
          exact R.same_of_tornOp_none he (P.matched H hok hst hev)
      · rw [Image.torn_self] at hm ⊢
        exact ⟨P.inv_start H (fun _ _ => rfl) hm, rfl⟩
  matched := by
    rintro tr s m x o s' op bs ⟨H, rfl⟩ hok hstep he
    cases x with
    | call q =>
      obtain ⟨y, rfl, hcall⟩ := Machine.crashing_call hstep
      rcases uOperation_cases hcall with ⟨c, r, rfl, rfl, hst⟩ | ⟨hq, rfl⟩
      · obtain ⟨⟨op', bs'⟩, hev, heq⟩ := Option.map_eq_some_iff.1 he
        obtain ⟨rfl, rfl⟩ := Prod.mk.inj heq
        exact ⟨_, P.matched H hok hst hev, P.inv_step H hok hst, rfl⟩
      · cases q with
        | call c => exact absurd rfl (hq c)
        | _ => cases he
    | restart memory => cases he
    | crash q kept memory =>
      obtain ⟨rfl, y, t, hcall, hm⟩ := Machine.crashing_crash hstep
      rw [P.disk_start hm]
      rcases uOperation_cases hcall with ⟨c, r, rfl, rfl, hst⟩ | ⟨hq, -⟩
      · have he : ((M.step s c).bind fun y => (P.event (mountTrace tr) ⟨s, c, y.1⟩).bind
          fun z => R.tornOp kept z.1) = some (op, bs) := he
        rw [hst, Option.bind_some] at he
        obtain ⟨z, hev, hop⟩ := Option.bind_eq_some_iff.1 he
        exact ⟨_, R.step_tornOp hop (P.matched H hok hst hev), P.inv_crash H hok hst hm, rfl⟩
      · cases q with
        | call c => exact absurd rfl (hq c)
        | _ => cases he

/-- The invariant of the last mount. -/
theorem inv_run {image : Image} (h₀ : ∀ memory s₀, start memory image = some s₀ → P.Inv [] s₀)
    (h : Lifetime M ok disk start image tr s) : P.Inv (mountTrace tr) s := by
  obtain ⟨memory, s₀, hm, hr⟩ := h
  obtain ⟨-, -, H, -⟩ := P.crashSim.run hr ⟨h₀ memory s₀ hm, rfl⟩
  exact H

/-- **Over all its mounts** a program does what a store with torn writes does, and what it wrote
    is durable. -/
theorem run {image : Image} (h₀ : ∀ memory s₀, start memory image = some s₀ → P.Inv [] s₀)
    (h : Lifetime M ok disk start image tr s) :
    Store.crashMachine.Does (R.contents image) (Simulation.historyOf (crashEvent M P.event R) tr)
      (R.contents (disk s)) ∧
    Store.Durable (Simulation.historyOf (crashEvent M P.event R) tr) (R.contents (disk s)) := by
  obtain ⟨memory, s₀, hm, hr⟩ := h
  obtain ⟨m, hd, -, rfl⟩ := P.crashSim.run hr ⟨h₀ memory s₀ hm, rfl⟩
  rw [P.disk_start hm] at hd
  exact ⟨hd, Store.does_durable hd⟩

end StoreProgram

end Operations
