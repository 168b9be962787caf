import L2State.Lib.Except

/-!
# L2State — stateful code that can fail

Sequential code over a state that an error does not undo: the state after a
failed call is the one that the call left.

* `Stateful`, `Stateful.exec` — the code and one run of it.
* `Keeps inv m Q` — the code keeps the invariant, also when it fails, and a
  value that it returns satisfies `Q`.
* `Gives inv m Q` — the code does not fail, either.
-/

namespace L2State.Lib

/-- Code over a state in `σ` that returns a value or an error. -/
abbrev Stateful (σ ε α : Type) := ExceptT ε (StateM σ) α

variable {σ ε α β : Type}

/-- One run: the outcome and the state afterwards. -/
def Stateful.exec (m : Stateful σ ε α) (s : σ) : Except ε α × σ := m.run.run s

namespace Stateful

/-- A step of its own. -/
def step (f : σ → Except ε α × σ) : Stateful σ ε α := ExceptT.mk f

/-- A call without effect on the state. -/
def of (x : Except ε α) : Stateful σ ε α := ExceptT.mk fun s => (x, s)

/-- `m`, and `h` with its error if it fails. -/
def recover (m : Stateful σ ε α) (h : ε → Stateful σ ε α) : Stateful σ ε α :=
  ExceptT.mk fun s => match m.exec s with
    | (.ok a, s') => (.ok a, s')
    | (.error e, s') => (h e).exec s'

/-- `err` of a call, where nothing is returned. -/
def failure (m : Stateful σ ε Unit) : Stateful σ ε (Option ε) :=
  ExceptT.mk fun s => match m.exec s with
    | (.ok _, s') => (.ok none, s')
    | (.error e, s') => (.ok (some e), s')

/-- The error of a call with a function applied to it. -/
def wrapped (f : ε → ε) (m : Stateful σ ε α) : Stateful σ ε α :=
  ExceptT.mk fun s => (wrapErr f (m.exec s).1, (m.exec s).2)

@[simp] theorem exec_pure (a : α) (s : σ) : (pure a : Stateful σ ε α).exec s = (.ok a, s) := rfl

@[simp] theorem exec_throw (e : ε) (s : σ) :
    (throw e : Stateful σ ε α).exec s = (.error e, s) := rfl

@[simp] theorem exec_step (f : σ → Except ε α × σ) (s : σ) : (step f).exec s = f s := rfl

/-- An error ends the code, in the state in which it occurred. -/
theorem exec_bind (m : Stateful σ ε α) (f : α → Stateful σ ε β) (s : σ) :
    (m >>= f).exec s = match m.exec s with
      | (.ok a, s') => (f a).exec s'
      | (.error e, s') => (.error e, s') := by
  show StateT.run (StateT.bind m.run fun x => ExceptT.bindCont f x) s = _
  unfold exec
  rcases h : m.run.run s with ⟨r, s'⟩
  have hRun : m.run s = (r, s') := h
  cases r with
  | ok a => simp only [StateT.run, StateT.bind, hRun]; rfl
  | error e => simp only [StateT.run, StateT.bind, hRun]; rfl

@[simp] theorem exec_of (x : Except ε α) (s : σ) : (of x : Stateful σ ε α).exec s = (x, s) := rfl

@[simp] theorem exec_recover (m : Stateful σ ε α) (h : ε → Stateful σ ε α) (s : σ) :
    (recover m h).exec s = match m.exec s with
      | (.ok a, s') => (.ok a, s')
      | (.error e, s') => (h e).exec s' := rfl

@[simp] theorem exec_failure (m : Stateful σ ε Unit) (s : σ) :
    (failure m).exec s = match m.exec s with
      | (.ok _, s') => (.ok none, s')
      | (.error e, s') => (.ok (some e), s') := rfl

@[simp] theorem exec_wrapped (f : ε → ε) (m : Stateful σ ε α) (s : σ) :
    (wrapped f m).exec s = (wrapErr f (m.exec s).1, (m.exec s).2) := rfl

end Stateful

/-- The code keeps the invariant, and what it returns satisfies `Q`. -/
structure Keeps (inv : σ → Prop) (m : Stateful σ ε α) (Q : α → Prop) : Prop where
  keeps   : ∀ s, inv s → inv (m.exec s).2
  returns : ∀ s, inv s → ∀ a, (m.exec s).1 = .ok a → Q a

/-- The code keeps the invariant and returns a value with `Q`. -/
def Gives (inv : σ → Prop) (m : Stateful σ ε α) (Q : α → Prop) : Prop :=
  ∀ s, inv s → ∃ a s', m.exec s = (.ok a, s') ∧ Q a ∧ inv s'

section Rules

variable {inv : σ → Prop} {Q : α → Prop} {R : β → Prop}

namespace Keeps

theorem pure {a : α} (h : Q a) : Keeps inv (Pure.pure a : Stateful σ ε α) Q where
  keeps s hs := hs
  returns s hs a' hEq := by
    obtain rfl := Except.ok.inj hEq
    exact h

/-- An error returns nothing. -/
theorem throw (e : ε) : Keeps inv (MonadExcept.throw e : Stateful σ ε α) Q where
  keeps s hs := hs
  returns s hs a hEq := by cases hEq

/-- The rule of a step of its own. -/
theorem step {f : σ → Except ε α × σ} (hInv : ∀ s, inv s → inv (f s).2)
    (hQ : ∀ s, inv s → ∀ a, (f s).1 = .ok a → Q a) : Keeps inv (Stateful.step f) Q := ⟨hInv, hQ⟩

theorem of {x : Except ε α} (hQ : ∀ a, x = .ok a → Q a) : Keeps inv (Stateful.of x) Q where
  keeps _ hs := hs
  returns _ _ a hEq := hQ a hEq

variable {m : Stateful σ ε α}

/-- The handler starts where the code has failed. -/
theorem recover {h : ε → Stateful σ ε α} (hm : Keeps inv m Q) (hh : ∀ e, Keeps inv (h e) Q) :
    Keeps inv (Stateful.recover m h) Q where
  keeps s hs := by
    rw [Stateful.exec_recover]
    have hKeeps := hm.keeps s hs
    generalize m.exec s = out at hKeeps ⊢
    obtain ⟨r, s'⟩ := out
    cases r with
    | ok a => exact hKeeps
    | error e => exact (hh e).keeps s' hKeeps
  returns s hs b hEq := by
    rw [Stateful.exec_recover] at hEq
    have hKeeps := hm.keeps s hs
    have hReturns := hm.returns s hs
    generalize m.exec s = out at hKeeps hReturns hEq
    obtain ⟨r, s'⟩ := out
    cases r with
    | ok a => exact hReturns b hEq
    | error e => exact (hh e).returns s' hKeeps b hEq

/-- **Sequencing.** -/
theorem bind {f : α → Stateful σ ε β} (hm : Keeps inv m Q) (hf : ∀ a, Q a → Keeps inv (f a) R) :
    Keeps inv (m >>= f) R where
  keeps s hs := by
    rw [Stateful.exec_bind]
    have hKeeps := hm.keeps s hs
    have hReturns := hm.returns s hs
    generalize m.exec s = out at hKeeps hReturns ⊢
    obtain ⟨r, s'⟩ := out
    cases r with
    | ok a => exact (hf a (hReturns a rfl)).keeps s' hKeeps
    | error e => exact hKeeps
  returns s hs b hEq := by
    rw [Stateful.exec_bind] at hEq
    have hKeeps := hm.keeps s hs
    have hReturns := hm.returns s hs
    generalize m.exec s = out at hKeeps hReturns hEq
    obtain ⟨r, s'⟩ := out
    cases r with
    | ok a => exact (hf a (hReturns a rfl)).returns s' hKeeps b hEq
    | error e => cases hEq

/-- Taking the error as a value keeps the invariant. -/
theorem failure {m : Stateful σ ε Unit} {Q : Unit → Prop} (hm : Keeps inv m Q) :
    Keeps inv (Stateful.failure m) fun _ => True where
  keeps s hs := by
    rw [Stateful.exec_failure]
    have hKeeps := hm.keeps s hs
    generalize m.exec s = out at hKeeps ⊢
    obtain ⟨r, s'⟩ := out
    cases r <;> exact hKeeps
  returns _ _ _ _ := trivial

theorem wrapped {f : ε → ε} (hm : Keeps inv m Q) :
    Keeps inv (Stateful.wrapped f m) Q where
  keeps s hs := hm.keeps s hs
  returns s hs a hEq := hm.returns s hs a (wrapErr_eq_ok.mp hEq)

theorem mono {Q' : α → Prop} (hm : Keeps inv m Q) (h : ∀ a, Q a → Q' a) :
    Keeps inv m Q' := ⟨hm.keeps, fun s hs a hEq => h a (hm.returns s hs a hEq)⟩

/-- Code that never fails. -/
theorem gives {m : Stateful σ ε α} (hm : Keeps inv m Q)
    (hNever : ∀ s, ∃ a s', m.exec s = (.ok a, s')) :
    Gives inv m Q := by
  intro s hs
  obtain ⟨a, s', hExec⟩ := hNever s
  exact ⟨a, s', hExec, hm.returns s hs a (by rw [hExec]), by simpa [hExec] using hm.keeps s hs⟩

end Keeps

namespace Gives

theorem pure {a : α} (h : Q a) : Gives inv (Pure.pure a : Stateful σ ε α) Q :=
  fun s hs => ⟨a, s, rfl, h, hs⟩

/-- A call that returns `a`. -/
theorem of {x : Except ε α} {a : α} (hx : x = .ok a) : Gives inv (Stateful.of x) fun b => b = a :=
  fun s hs => ⟨a, s, congrArg (·, s) hx, rfl, hs⟩

variable {m : Stateful σ ε α}

/-- **Sequencing.** -/
theorem bind {f : α → Stateful σ ε β} (hm : Gives inv m Q) (hf : ∀ a, Q a → Gives inv (f a) R) :
    Gives inv (m >>= f) R := by
  intro s hs
  obtain ⟨a, s', hExec, hQ, hInv⟩ := hm s hs
  rw [Stateful.exec_bind, hExec]
  exact hf a hQ s' hInv

/-- Nothing is to be recovered from. -/
theorem recover {h : ε → Stateful σ ε α} (hm : Gives inv m Q) :
    Gives inv (Stateful.recover m h) Q := by
  intro s hs
  obtain ⟨a, s', hExec, hQ, hInv⟩ := hm s hs
  exact ⟨a, s', by rw [Stateful.exec_recover, hExec], hQ, hInv⟩

/-- There is no error. -/
theorem failure {m : Stateful σ ε Unit} {Q : Unit → Prop} (hm : Gives inv m Q) :
    Gives inv (Stateful.failure m) fun err => err = none := by
  intro s hs
  obtain ⟨a, s', hExec, -, hInv⟩ := hm s hs
  exact ⟨none, s', by rw [Stateful.exec_failure, hExec], rfl, hInv⟩

/-- There is no error to wrap. -/
theorem wrapped {f : ε → ε} (hm : Gives inv m Q) : Gives inv (Stateful.wrapped f m) Q := by
  intro s hs
  obtain ⟨a, s', hExec, hQ, hInv⟩ := hm s hs
  exact ⟨a, s', by rw [Stateful.exec_wrapped, hExec]; rfl, hQ, hInv⟩

theorem mono {Q' : α → Prop} (hm : Gives inv m Q) (h : ∀ a, Q a → Q' a) : Gives inv m Q' := by
  intro s hs
  obtain ⟨a, s', hExec, hQ, hInv⟩ := hm s hs
  exact ⟨a, s', hExec, h a hQ, hInv⟩

end Gives

end Rules

end L2State.Lib
