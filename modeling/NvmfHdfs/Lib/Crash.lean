/-
  Machines with a disk, that crash and are started again.

  A crash during a step loses the memory, and leaves the disk torn: of the
  bytes the step stores, any are there and any are not.  Starting again finds a
  disk, and memory with anything in it (`μ`) that the program does not clear.

    - `Image.torn`: the images a crash can leave;
    - `Machine.crashing`: the machine with its crashes and restarts as inputs,
      inverted by `crashing_call`, `crashing_restart` and `crashing_crash`.
-/
import NvmfHdfs.Lib.Image
import NvmfHdfs.Lib.Machine

universe u v w

/-- The image of which the bytes `kept` have been changed from `m` to `m'`. -/
def Image.torn (kept : ℕ → Bool) (m m' : Image) : Image := fun a => if kept a then m' a else m a

namespace Image
variable {kept : ℕ → Bool} {m m' : Image} {a : ℕ}

theorem torn_cases (kept : ℕ → Bool) (m m' : Image) (a : ℕ) :
    torn kept m m' a = m a ∨ torn kept m m' a = m' a := by
  unfold torn
  split_ifs
  · exact .inr rfl
  · exact .inl rfl

/-- Bytes that a step leaves are not torn. -/
theorem torn_of_eq (h : m' a = m a) : torn kept m m' a = m a := by
  rcases torn_cases kept m m' a with h' | h'
  · exact h'
  · rw [h', h]

/-- A step that changes nothing tears nothing. -/
theorem torn_self (kept : ℕ → Bool) (m : Image) : torn kept m m = m :=
  funext fun _ => torn_of_eq rfl

end Image

/-- The inputs of a machine that may crash, and be stopped, and is started again each time. -/
inductive CrashInput (ι : Type v) (μ : Type u) where
  | call (i : ι)
  | restart (memory : μ)
  | crash (i : ι) (kept : ℕ → Bool) (memory : μ)

namespace Machine
variable {σ μ : Type u} {ι : Type v} {ο : Type w}

/-- The machine with restarts, and with crashes during a step; neither has an output. -/
def crashing (M : Machine σ ι ο) (disk : σ → Image) (start : μ → Image → Option σ) :
    Machine σ (CrashInput ι μ) (Option ο) where
  step s
    | .call i => (M.step s i).map fun x => (some x.1, x.2)
    | .restart memory => (start memory (disk s)).map fun s' => (none, s')
    | .crash i kept memory => (M.step s i).bind fun x =>
      (start memory (Image.torn kept (disk s) (disk x.2))).map fun t => (none, t)

variable {M : Machine σ ι ο} {disk : σ → Image} {start : μ → Image → Option σ} {s s' : σ}
  {o : Option ο} {i : ι} {kept : ℕ → Bool} {memory : μ}

theorem crashing_call (h : (M.crashing disk start).step s (.call i) = some (o, s')) :
    ∃ r, o = some r ∧ M.step s i = some (r, s') := by
  obtain ⟨⟨r, t⟩, hst, he⟩ := Option.map_eq_some_iff.1 h
  cases he
  exact ⟨r, rfl, hst⟩

theorem crashing_restart (h : (M.crashing disk start).step s (.restart memory) = some (o, s')) :
    o = none ∧ start memory (disk s) = some s' := by
  obtain ⟨t, hst, he⟩ := Option.map_eq_some_iff.1 h
  cases he
  exact ⟨rfl, hst⟩

theorem crashing_crash
    (h : (M.crashing disk start).step s (.crash i kept memory) = some (o, s')) :
    o = none ∧ ∃ r t, M.step s i = some (r, t) ∧
      start memory (Image.torn kept (disk s) (disk t)) = some s' := by
  obtain ⟨⟨r, t⟩, hst, h⟩ := Option.bind_eq_some_iff.1 h
  obtain ⟨t', hstart, he⟩ := Option.map_eq_some_iff.1 h
  cases he
  exact ⟨rfl, r, t, hst, hstart⟩

theorem crashing_restart_of (h : start memory (disk s) = some s') :
    (M.crashing disk start).step s (.restart memory) = some (none, s') :=
  Option.map_eq_some_iff.2 ⟨s', h, rfl⟩

theorem crashing_crash_of {r : ο} {t : σ} (hst : M.step s i = some (r, t))
    (h : start memory (Image.torn kept (disk s) (disk t)) = some s') :
    (M.crashing disk start).step s (.crash i kept memory) = some (none, s') :=
  Option.bind_eq_some_iff.2 ⟨_, hst, Option.map_eq_some_iff.2 ⟨s', h, rfl⟩⟩

/-- The guard on the calls of a machine, also for the call a crash interrupts. -/
def crashOk (ok : σ → ι → Prop) : Guard σ (CrashInput ι μ) (Option ο) := fun _ s c =>
  match c with
  | .call i | .crash i _ _ => ok s i
  | .restart _ => True

instance {ok : σ → ι → Prop} [∀ s i, Decidable (ok s i)]
    (tr : List (Event σ (CrashInput ι μ) (Option ο))) (s : σ) :
    ∀ c, Decidable (crashOk ok tr s c)
  | .call i | .crash i _ _ => inferInstanceAs (Decidable (ok s i))
  | .restart _ => .isTrue trivial

end Machine
