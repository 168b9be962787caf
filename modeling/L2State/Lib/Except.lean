import Mathlib.Tactic

/-!
# L2State — fallible computations

Inversion and composition rules for `Except`, so that a proof about a
fallible function peels it apart with `obtain` and never unfolds a bind.

* `bind_eq_ok` — a bind succeeds exactly when both halves do.
* `foldlM_append_eq_ok` — a loop over `xs ++ ys` is the loop over `xs`
  followed by the loop over `ys`.
* `foldlM_invariant` — the loop rule: what one iteration keeps, the whole
  loop keeps.
-/

namespace L2State.Lib

universe u v

variable {ε : Type u} {α β σ : Type v}

variable {f : α → Except ε β}

/-- A bind returns a value exactly when its first half returns some `a` and
the continuation returns the value on `a`. -/
theorem bind_eq_ok {x : Except ε α} {b : β} :
    (x >>= f) = .ok b ↔ ∃ a, x = .ok a ∧ f a = .ok b := by
  cases x with
  | error e => simp [bind, Except.bind]
  | ok a => simp [bind, Except.bind]

@[simp] theorem ok_bind (a : α) (f : α → Except ε β) : (Except.ok a >>= f) = f a := rfl

@[simp] theorem error_bind (e : ε) (f : α → Except ε β) :
    (Except.error e >>= f) = .error e := rfl

@[simp] theorem pure_eq_ok (a : α) : (pure a : Except ε α) = .ok a := rfl

@[simp] theorem throw_eq_error (e : ε) : (throw e : Except ε α) = .error e := rfl

/-- `if err := check; err != nil { return err }`: a guard that fails with `e`. -/
def require (p : Prop) [Decidable p] (e : ε) : Except ε Unit :=
  if p then .ok () else .error e

@[simp] theorem require_eq_ok {p : Prop} [Decidable p] {e : ε} {u : Unit} :
    require p e = .ok u ↔ p := by
  unfold require
  split <;> simp_all

theorem require_true {p : Prop} [Decidable p] {e : ε} (h : p) : require p e = .ok () :=
  require_eq_ok.mpr h

/-- Wraps the error of a failed call, as `fmt.Errorf("...: %w", err)` does. -/
def wrapErr (f : ε → ε) : Except ε α → Except ε α
  | .ok a => .ok a
  | .error e => .error (f e)

@[simp] theorem wrapErr_eq_ok {f : ε → ε} {x : Except ε α} {a : α} :
    wrapErr f x = .ok a ↔ x = .ok a := by
  cases x <;> simp [wrapErr]

@[simp] theorem wrapErr_ok (f : ε → ε) (a : α) : wrapErr f (.ok a) = .ok a := rfl

/-- A value together with the fact that it is the one returned. -/
def attachOk : (x : Except ε α) → Except ε { a : α // x = .ok a }
  | .ok a => .ok ⟨a, rfl⟩
  | .error e => .error e

theorem map_attachOk (x : Except ε α) : (attachOk x).map Subtype.val = x := by
  cases x <;> rfl

/-- Whether a call returns a value that passes a test. -/
def okWith (x : Except ε α) (test : α → Bool) : Bool :=
  match x with
  | .ok a => test a
  | .error _ => false

theorem okWith_eq_true {x : Except ε α} {test : α → Bool} :
    okWith x test = true ↔ ∃ a, x = .ok a ∧ test a = true := by
  cases x <;> simp [okWith]

/-- The value of a step behind two guards. -/
theorem toOption_guards {α : Type} {p q : Prop} [Decidable p] [Decidable q] (e e' : ε) (a : α) :
    (do require p e; require q e'; return a : Except ε α).toOption =
      if p ∧ q then some a else none := by
  by_cases hp : p
  · by_cases hq : q
    · simp [require, hp, hq, Except.toOption]
    · simp [require, hp, hq, Except.toOption]
  · simp [require, hp, Except.toOption]

/-! ## Loops -/

variable {step : σ → α → Except ε σ}

variable {xs : List α}

@[simp] theorem foldlM_cons_eq_ok {x : α} {s t : σ} :
    (x :: xs).foldlM step s = .ok t ↔ ∃ m, step s x = .ok m ∧ xs.foldlM step m = .ok t := by
  rw [List.foldlM_cons, bind_eq_ok]

@[simp] theorem foldlM_nil_eq_ok {s t : σ} :
    ([] : List α).foldlM step s = .ok t ↔ s = t := by
  simp

theorem foldlM_append_eq_ok {ys : List α} {s t : σ} :
    (xs ++ ys).foldlM step s = .ok t ↔
      ∃ m, xs.foldlM step s = .ok m ∧ ys.foldlM step m = .ok t := by
  rw [List.foldlM_append, bind_eq_ok]

/-- A loop that collects results. -/
theorem mapM_cons_eq_ok {x : α} {ys : List β} :
    (x :: xs).mapM f = .ok ys ↔ ∃ y zs, f x = .ok y ∧ xs.mapM f = .ok zs ∧ ys = y :: zs := by
  rw [List.mapM_cons, bind_eq_ok]
  constructor
  · rintro ⟨y, hy, hk⟩
    obtain ⟨zs, hzs, hEq⟩ := bind_eq_ok.mp hk
    exact ⟨y, zs, hy, hzs, (Except.ok.inj hEq).symm⟩
  · rintro ⟨y, zs, hy, hzs, rfl⟩
    refine ⟨y, hy, ?_⟩
    rw [hzs]
    rfl

/-- Elements and results correspond. -/
theorem mapM_eq_ok_forall₂ {ys : List β} (h : xs.mapM f = .ok ys) :
    List.Forall₂ (fun x y => f x = .ok y) xs ys := by
  induction xs generalizing ys with
  | nil =>
    obtain rfl : [] = ys := Except.ok.inj h
    exact .nil
  | cons x xs ih =>
    obtain ⟨y, zs, hy, hzs, rfl⟩ := mapM_cons_eq_ok.mp h
    exact .cons hy (ih hzs)

theorem mapM_eq_ok_mem {ys : List β} (h : xs.mapM f = .ok ys) :
    (∀ y ∈ ys, ∃ x ∈ xs, f x = .ok y) ∧ ∀ x ∈ xs, ∃ y ∈ ys, f x = .ok y := by
  have hAll := mapM_eq_ok_forall₂ h
  clear h
  induction hAll with
  | nil => simp
  | cons hHead _ ih =>
    refine ⟨List.forall_mem_cons.mpr ⟨⟨_, List.mem_cons_self, hHead⟩, fun y hy => ?_⟩,
      List.forall_mem_cons.mpr ⟨⟨_, List.mem_cons_self, hHead⟩, fun x hx => ?_⟩⟩
    · obtain ⟨x, hx, hEq⟩ := ih.1 y hy
      exact ⟨x, List.mem_cons_of_mem _ hx, hEq⟩
    · obtain ⟨y, hy, hEq⟩ := ih.2 x hx
      exact ⟨y, List.mem_cons_of_mem _ hy, hEq⟩

/-- The loop rule. `inv done s` relates the elements already consumed to the
loop state. -/
theorem foldlM_invariant (inv : List α → σ → Prop)
    (hStep : ∀ seen s x t, inv seen s → step s x = .ok t → inv (seen ++ [x]) t) {seen : List α}
    {s t : σ} (hInv : inv seen s) (hRun : xs.foldlM step s = .ok t) :
    inv (seen ++ xs) t := by
  induction xs generalizing seen s with
  | nil =>
    rw [foldlM_nil_eq_ok] at hRun
    simpa [hRun] using hInv
  | cons x xs ih =>
    obtain ⟨m, hm, hRun⟩ := foldlM_cons_eq_ok.mp hRun
    simpa using ih (hStep seen s x m hInv hm) hRun

end L2State.Lib
