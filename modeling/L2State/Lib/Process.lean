import L2State.Lib.Interleave
import L2State.Lib.Except

/-!
# L2State — concurrent processes over shared objects

Goroutines as trees of calls on shared objects. A process calls an operation
and continues with the reply, runs two processes side by side and joins them,
or loops. A shared object says which replies an operation can get in a state
and what the state is afterwards.

A process is run by small steps, one call of one thread at a time
(`Exec`). What it can do is described without a state by its behaviours
(`Behaves`): a list of events and a result, where the events of threads that
run side by side are interleaved in any way. A finished run is a behaviour
whose events the object allows, and every such behaviour is a run
(`exec_ret_iff`), so that properties of all schedules are proved on
behaviours, one function at a time.

* `Interface`, `Event`, `Proc` — operations, calls with their reply, and
  processes.
* `Proc.Behaves` — behaviours, with `behaves_bind` as the rule of composition.
* `Proc.Only` — every event of a process satisfies a property.
* `Proc.Begins` — what an unfinished run has done so far (`Steps.begins`).
* `Object`, `Exec`, `exec_ret_iff` — shared objects and runs.
* `Object.play`, `exec_of_play` — one run, computed.
* `Object.RunWith`, `exec_beside` — the events of one process, with the steps
  of an environment in between.
* `Returns` — a fallible process returns a value.
-/

namespace L2State.Lib

universe v

/-- Operations and the type of their replies. -/
structure Interface where
  Op    : Type
  Reply : Op → Type

/-- A call with the reply it got. -/
structure Event (I : Interface) where
  op    : I.Op
  reply : I.Reply op

/-- A process that returns a value in `α`. -/
inductive Proc (I : Interface) : Type → Type 1
  | ret {α : Type} (a : α) : Proc I α
  /-- Calls an operation and continues with the reply. -/
  | call {α : Type} (op : I.Op) (k : I.Reply op → Proc I α) : Proc I α
  /-- Runs two processes side by side and continues when both are done. -/
  | both {α β γ : Type} (l : Proc I β) (r : Proc I γ) (k : β → γ → Proc I α) : Proc I α
  /-- Repeats `body` until it returns a result. -/
  | iter {α β σ : Type} (body : σ → Proc I (σ ⊕ β)) (s : σ) (k : β → Proc I α) : Proc I α

/-- The iterations of a loop with the body `R`, until it returns `b`. -/
inductive Loop {E σ β : Type} (R : σ → List E → σ ⊕ β → Prop) : σ → List E → β → Prop
  | stop {s : σ} {t : List E} {b : β} : R s t (.inr b) → Loop R s t b
  | next {s s' : σ} {t t' : List E} {b : β} : R s t (.inl s') → Loop R s' t' b →
      Loop R s (t ++ t') b

namespace Proc

variable {I : Interface} {α β γ σ : Type}

/-- Sequential composition. -/
def bind : Proc I α → (α → Proc I β) → Proc I β
  | .ret a, f => f a
  | .call op k, f => .call op fun r => (k r).bind f
  | .both l r k, f => .both l r fun b c => (k b c).bind f
  | .iter body s k, f => .iter body s fun b => (k b).bind f

theorem bind_bind (p : Proc I α) (f : α → Proc I β) (g : β → Proc I γ) :
    (p.bind f).bind g = p.bind fun a => (f a).bind g := by
  induction p with
  | ret a => rfl
  | call op k ih => exact congrArg _ (funext fun r => ih r f)
  | both l r k _ _ ih => exact congrArg _ (funext fun b => funext fun c => ih b c f)
  | iter body s k _ ih => exact congrArg _ (funext fun b => ih b f)

instance : Monad (Proc I) where
  pure := .ret
  bind := .bind

/-- One call. -/
def perform (op : I.Op) : Proc I (I.Reply op) := .call op .ret

/-- A loop as a process of its own. -/
def loop (body : σ → Proc I (σ ⊕ β)) (s : σ) : Proc I β := .iter body s .ret

/-! ## Behaviours -/

/-- The process can produce the events `tr` and return `x`. -/
def Behaves {α : Type} : Proc I α → List (Event I) → α → Prop
  | .ret a, tr, x => tr = [] ∧ a = x
  | .call op k, tr, x => ∃ r t, (k r).Behaves t x ∧ tr = ⟨op, r⟩ :: t
  | .both l r k, tr, x => ∃ b c tl tr' t t', l.Behaves tl b ∧ r.Behaves tr' c ∧
      Interleave tl tr' t ∧ (k b c).Behaves t' x ∧ tr = t ++ t'
  | .iter body s k, tr, x => ∃ b t t', Loop (fun s t x => (body s).Behaves t x) s t b ∧
      (k b).Behaves t' x ∧ tr = t ++ t'

/-- What the iterations of a loop do. -/
abbrev Loops (body : σ → Proc I (σ ⊕ β)) : σ → List (Event I) → β → Prop :=
  Loop fun s t x => (body s).Behaves t x

variable {tr : List (Event I)}

@[simp] theorem behaves_pure {a x : α} :
    (pure a : Proc I α).Behaves tr x ↔ tr = [] ∧ a = x := Iff.rfl

theorem behaves_perform {op : I.Op} {x : I.Reply op} :
    (perform op).Behaves tr x ↔ tr = [⟨op, x⟩] := by
  constructor
  · rintro ⟨r, t, ⟨rfl, rfl⟩, rfl⟩
    rfl
  · rintro rfl
    exact ⟨x, [], ⟨rfl, rfl⟩, rfl⟩

variable {p : Proc I α} {body : σ → Proc I (σ ⊕ β)} {t : List (Event I)} {p' : Proc I α}
  {e : Option (Event I)}

/-- **Sequential composition** appends the events. -/
theorem behaves_bind {f : α → Proc I β} {x : β} :
    (p >>= f).Behaves tr x ↔
      ∃ a t t', p.Behaves t a ∧ (f a).Behaves t' x ∧ tr = t ++ t' := by
  show (p.bind f).Behaves tr x ↔ _
  induction p generalizing tr with
  | ret a =>
    constructor
    · intro h
      exact ⟨a, [], tr, ⟨rfl, rfl⟩, h, rfl⟩
    · rintro ⟨_, _, t', ⟨rfl, rfl⟩, h, rfl⟩
      exact h
  | call op k ih =>
    constructor
    · rintro ⟨r, t, h, rfl⟩
      obtain ⟨a, t₁, t₂, hk, hf, rfl⟩ := (ih r).mp h
      exact ⟨a, _, t₂, ⟨r, t₁, hk, rfl⟩, hf, rfl⟩
    · rintro ⟨a, _, t₂, ⟨r, t₁, hk, rfl⟩, hf, rfl⟩
      exact ⟨r, t₁ ++ t₂, (ih r).mpr ⟨a, t₁, t₂, hk, hf, rfl⟩, rfl⟩
  | both l r k _ _ ih =>
    constructor
    · rintro ⟨b, c, tl, tr', t, t', hl, hr, hInter, h, rfl⟩
      obtain ⟨a, t₁, t₂, hk, hf, rfl⟩ := (ih b c).mp h
      exact ⟨a, t ++ t₁, t₂, ⟨b, c, tl, tr', t, t₁, hl, hr, hInter, hk, rfl⟩, hf, by simp⟩
    · rintro ⟨a, _, t₂, ⟨b, c, tl, tr', t, t₁, hl, hr, hInter, hk, rfl⟩, hf, rfl⟩
      exact ⟨b, c, tl, tr', t, t₁ ++ t₂, hl, hr, hInter, (ih b c).mpr ⟨a, t₁, t₂, hk, hf, rfl⟩,
        by simp⟩
  | iter body s k _ ih =>
    constructor
    · rintro ⟨b, t, t', hLoop, h, rfl⟩
      obtain ⟨a, t₁, t₂, hk, hf, rfl⟩ := (ih b).mp h
      exact ⟨a, t ++ t₁, t₂, ⟨b, t, t₁, hLoop, hk, rfl⟩, hf, by simp⟩
    · rintro ⟨a, _, t₂, ⟨b, t, t₁, hLoop, hk, rfl⟩, hf, rfl⟩
      exact ⟨b, t, t₁ ++ t₂, hLoop, (ih b).mpr ⟨a, t₁, t₂, hk, hf, rfl⟩, by simp⟩

theorem behaves_loop {s : σ} {x : β} :
    (loop body s).Behaves tr x ↔ Loops body s tr x := by
  constructor
  · rintro ⟨b, t, t', hLoop, ⟨rfl, rfl⟩, rfl⟩
    rw [List.append_nil]
    exact hLoop
  · intro h
    exact ⟨x, tr, [], h, ⟨rfl, rfl⟩, by simp⟩

/-- Two processes side by side. -/
theorem behaves_both {l : Proc I α} {r : Proc I β} {k : α → β → γ} {x : γ} :
    (Proc.both l r fun a b => .ret (k a b)).Behaves tr x ↔
      ∃ a b tl tr', l.Behaves tl a ∧ r.Behaves tr' b ∧ Interleave tl tr' tr ∧ k a b = x := by
  constructor
  · rintro ⟨a, b, tl, tr', t, t', hl, hr, hInter, ⟨rfl, rfl⟩, rfl⟩
    rw [List.append_nil]
    exact ⟨a, b, tl, tr', hl, hr, hInter, rfl⟩
  · rintro ⟨a, b, tl, tr', hl, hr, hInter, rfl⟩
    exact ⟨a, b, tl, tr', tr, [], hl, hr, hInter, ⟨rfl, rfl⟩, by simp⟩

/-! ## Events of a process -/

/-- Every event of the process satisfies `P`. -/
def Only (P : Event I → Prop) (p : Proc I α) : Prop := ∀ tr x, p.Behaves tr x → ∀ e ∈ tr, P e

namespace Only

variable {P : Event I → Prop}

theorem pure (a : α) : Only P (Pure.pure a : Proc I α) := by
  rintro tr x ⟨rfl, -⟩
  simp

theorem perform {op : I.Op} (h : ∀ r, P ⟨op, r⟩) : Only P (Proc.perform op) := by
  intro tr x hp
  rw [behaves_perform.mp hp]
  simpa using h x

theorem bind {p : Proc I α} {f : α → Proc I β} (hp : Only P p) (hf : ∀ a, Only P (f a)) :
    Only P (p >>= f) := by
  intro tr x h
  obtain ⟨a, t, t', h₁, h₂, rfl⟩ := behaves_bind.mp h
  intro e he
  exact (List.mem_append.mp he).elim (hp t a h₁ e) (hf a t' x h₂ e)

theorem mono {Q : Event I → Prop} {p : Proc I α} (h : Only P p) (hPQ : ∀ e, P e → Q e) :
    Only Q p := fun tr x hp e he => hPQ e (h tr x hp e he)

end Only

/-! ## Steps -/

/-- One step of one thread: a call with its reply, or a silent join or
unrolling. -/
inductive Step : {α : Type} → Proc I α → Option (Event I) → Proc I α → Prop
  | call {α : Type} (op : I.Op) (k : I.Reply op → Proc I α) (r : I.Reply op) :
      Step (.call op k) (some ⟨op, r⟩) (k r)
  | left {α β γ : Type} {l l' : Proc I β} {e : Option (Event I)} (r : Proc I γ)
      (k : β → γ → Proc I α) : Step l e l' → Step (.both l r k) e (.both l' r k)
  | right {α β γ : Type} {r r' : Proc I γ} {e : Option (Event I)} (l : Proc I β)
      (k : β → γ → Proc I α) : Step r e r' → Step (.both l r k) e (.both l r' k)
  | join {α β γ : Type} (b : β) (c : γ) (k : β → γ → Proc I α) :
      Step (.both (.ret b) (.ret c) k) none (k b c)
  | iter {α β σ : Type} (body : σ → Proc I (σ ⊕ β)) (s : σ) (k : β → Proc I α) :
      Step (.iter body s k) none ((body s).bind (Sum.elim (fun s' => .iter body s' k) k))

/-- Any number of steps, with the events they make. -/
inductive Steps {α : Type} : Proc I α → List (Event I) → Proc I α → Prop
  | refl (p : Proc I α) : Steps p [] p
  | head {p p' q : Proc I α} {e : Option (Event I)} {t : List (Event I)} :
      Step p e p' → Steps p' t q → Steps p (e.toList ++ t) q

theorem Steps.trans {q r : Proc I α} {t' : List (Event I)} (h : Steps p t q) (h' : Steps q t' r) :
    Steps p (t ++ t') r := by
  induction h with
  | refl p => exact h'
  | head hs _ ih =>
    rw [List.append_assoc]
    exact .head hs (ih h')

/-- A behaviour after a step is a behaviour with the event of the step. -/
theorem Behaves.of_step (hStep : Step p e p') {x : α} (h : p'.Behaves t x) :
    p.Behaves (e.toList ++ t) x := by
  induction hStep generalizing t with
  | call op k r => exact ⟨r, t, h, rfl⟩
  | left r k _ ih =>
    obtain ⟨b, c, tl, tr', u, u', hl, hr, hInter, hk, rfl⟩ := h
    exact ⟨b, c, _, tr', _, u', ih hl, hr, hInter.append_left _, hk, by simp⟩
  | right l k _ ih =>
    obtain ⟨b, c, tl, tr', u, u', hl, hr, hInter, hk, rfl⟩ := h
    exact ⟨b, c, tl, _, _, u', hl, ih hr, hInter.append_right _, hk, by simp⟩
  | join b c k => exact ⟨b, c, [], [], [], t, ⟨rfl, rfl⟩, ⟨rfl, rfl⟩, .nil, h, rfl⟩
  | iter body s k =>
    obtain ⟨y, u, u', hBody, hRest, rfl⟩ := behaves_bind.mp h
    cases y with
    | inl s' =>
      -- another iteration
      obtain ⟨b, w, w', hLoop, hk, rfl⟩ := hRest
      exact ⟨b, u ++ w, w', .next hBody hLoop, hk, by simp⟩
    | inr b => exact ⟨b, u, u', .stop hBody, hRest, rfl⟩

/-- The next event of a run that has one. -/
theorem Steps.uncons {q : Proc I α} {e : Event I} (h : Steps p (e :: t) q) :
    ∃ p₁ p₂, Steps p [] p₁ ∧ Step p₁ (some e) p₂ ∧ Steps p₂ t q := by
  generalize hl : e :: t = l at h
  induction h with
  | refl p => cases hl
  | @head p p' q o u hs hRest ih =>
    cases o with
    | none =>
      obtain ⟨p₁, p₂, h₁, h₂, h₃⟩ := ih hl
      exact ⟨p₁, p₂, .head hs h₁, h₂, h₃⟩
    | some e' =>
      obtain ⟨rfl, rfl⟩ := List.cons.inj hl
      exact ⟨p, p', .refl p, hs, hRest⟩

theorem Steps.left {l l' : Proc I β} (h : Steps l t l') (r : Proc I γ) (k : β → γ → Proc I α) :
    Steps (.both l r k) t (.both l' r k) := by
  induction h with
  | refl p => exact .refl _
  | head hs _ ih => exact .head (.left r k hs) ih

theorem Steps.right {r r' : Proc I γ} (h : Steps r t r') (l : Proc I β) (k : β → γ → Proc I α) :
    Steps (.both l r k) t (.both l r' k) := by
  induction h with
  | refl p => exact .refl _
  | head hs _ ih => exact .head (.right l k hs) ih

/-- Two finished runs can be interleaved in any way. -/
theorem Steps.both {l : Proc I β} {r : Proc I γ} {b : β} {c : γ} {tl tr' : List (Event I)}
    (hInter : Interleave tl tr' t) (hl : Steps l tl (.ret b)) (hr : Steps r tr' (.ret c))
    (k : β → γ → Proc I α) : Steps (.both l r k) t (k b c) := by
  induction hInter generalizing l r with
  | nil =>
    have hJoin : Steps (.both (.ret b) (.ret c) k) [] (k b c) := .head (.join b c k) (.refl _)
    exact (hl.left r k).trans ((hr.right _ k).trans hJoin)
  | left e _ ih =>
    obtain ⟨l₁, l₂, h₁, h₂, h₃⟩ := hl.uncons
    exact (h₁.left r k).trans (.head (.left r k h₂) (ih h₃ hr))
  | right e _ ih =>
    obtain ⟨r₁, r₂, h₁, h₂, h₃⟩ := hr.uncons
    exact (h₁.right l k).trans (.head (.right l k h₂) (ih hl h₃))

theorem Step.bind (h : Step p e p') (f : α → Proc I β) : Step (p.bind f) e (p'.bind f) := by
  cases h with
  | call op k r => exact .call op _ r
  | left r k h => exact .left r _ h
  | right l k h => exact .right l _ h
  | join b c k => exact .join b c _
  | iter body s k =>
    have hCont : (fun y => (Sum.elim (fun s' => Proc.iter body s' k) k y).bind f) =
        Sum.elim (fun s' => .iter body s' fun b => (k b).bind f) fun b => (k b).bind f := by
      funext y
      cases y <;> rfl
    rw [bind_bind, hCont]
    exact .iter body s _

theorem Steps.bind (h : Steps p t p') (f : α → Proc I β) : Steps (p.bind f) t (p'.bind f) := by
  induction h with
  | refl p => exact .refl _
  | head hs _ ih => exact .head (hs.bind f) ih

/-- Every behaviour is a run. -/
theorem Behaves.steps {x : α} (h : p.Behaves t x) :
    Steps p t (.ret x) := by
  induction p generalizing t with
  | ret a =>
    obtain ⟨rfl, rfl⟩ := h
    exact .refl _
  | call op k ih =>
    obtain ⟨r, u, hk, rfl⟩ := h
    exact .head (.call op k r) (ih r hk)
  | both l r k ihl ihr ihk =>
    obtain ⟨b, c, tl, tr', u, u', hl, hr, hInter, hk, rfl⟩ := h
    exact (Steps.both hInter (ihl hl) (ihr hr) k).trans (ihk b c hk)
  | iter body s k ihBody ihk =>
    obtain ⟨b, u, u', hLoop, hk, rfl⟩ := h
    refine Steps.trans ?_ (ihk b hk)
    -- by induction on the iterations
    clear hk
    induction hLoop with
    | stop hBody => exact .head (.iter body _ k) ((ihBody _ hBody).bind _)
    | next hBody _ ih =>
      exact .head (.iter body _ k) (((ihBody _ hBody).bind _).trans ih)

/-! ## Beginnings -/

/-- Iterations of a loop that goes on. -/
inductive Rounds {E σ β : Type} (R : σ → List E → σ ⊕ β → Prop) : σ → List E → σ → Prop
  | refl (s : σ) : Rounds R s [] s
  | next {s s' s'' : σ} {t t' : List E} : R s t (.inl s') → Rounds R s' t' s'' →
      Rounds R s (t ++ t') s''

/-- The process can begin with the events `tr`, finished or not. -/
def Begins {α : Type} : Proc I α → List (Event I) → Prop
  | .ret _, tr => tr = []
  | .call op k, tr => tr = [] ∨ ∃ r t, (k r).Begins t ∧ tr = ⟨op, r⟩ :: t
  | .both l r k, tr =>
    (∃ tl tr', l.Begins tl ∧ r.Begins tr' ∧ Interleave tl tr' tr) ∨
    ∃ b c tl tr' t t', l.Behaves tl b ∧ r.Behaves tr' c ∧ Interleave tl tr' t ∧
      (k b c).Begins t' ∧ tr = t ++ t'
  | .iter body s k, tr =>
    (∃ s' t t', Rounds (fun s t x => (body s).Behaves t x) s t s' ∧ (body s').Begins t' ∧
      tr = t ++ t') ∨
    ∃ b t t', Loop (fun s t x => (body s).Behaves t x) s t b ∧ (k b).Begins t' ∧ tr = t ++ t'

theorem begins_nil (p : Proc I α) : p.Begins [] := by
  induction p with
  | ret a => rfl
  | call op k _ => exact .inl rfl
  | both l r k ihl ihr _ => exact .inl ⟨[], [], ihl, ihr, .nil⟩
  | iter body s k ihBody _ => exact .inl ⟨s, [], [], .refl s, ihBody s, rfl⟩

/-- A finished run is a beginning. -/
theorem Behaves.begins {x : α} (h : p.Behaves tr x) : p.Begins tr := by
  induction p generalizing tr with
  | ret a => exact h.1
  | call op k ih =>
    obtain ⟨r, t, hk, rfl⟩ := h
    exact .inr ⟨r, t, ih r hk, rfl⟩
  | both l r k _ _ ihk =>
    obtain ⟨b, c, tl, tr', t, t', hl, hr, hInter, hk, rfl⟩ := h
    exact .inr ⟨b, c, tl, tr', t, t', hl, hr, hInter, ihk b c hk, rfl⟩
  | iter body s k _ ihk =>
    obtain ⟨b, t, t', hLoop, hk, rfl⟩ := h
    exact .inr ⟨b, t, t', hLoop, ihk b hk, rfl⟩

theorem begins_perform {op : I.Op} :
    (perform op).Begins tr ↔ tr = [] ∨ ∃ r, tr = [⟨op, r⟩] := by
  constructor
  · rintro (rfl | ⟨r, t, rfl, rfl⟩)
    · exact .inl rfl
    · exact .inr ⟨r, rfl⟩
  · rintro (rfl | ⟨r, rfl⟩)
    · exact .inl rfl
    · exact .inr ⟨r, [], rfl, rfl⟩

/-- A composition begins in its first half, or finishes it and begins the
second. -/
theorem begins_bind {f : α → Proc I β} (h : (p >>= f).Begins tr) :
    p.Begins tr ∨ ∃ a t t', p.Behaves t a ∧ (f a).Begins t' ∧ tr = t ++ t' := by
  change (p.bind f).Begins tr at h
  induction p generalizing tr with
  | ret a => exact .inr ⟨a, [], tr, ⟨rfl, rfl⟩, h, rfl⟩
  | call op k ih =>
    rcases h with rfl | ⟨r, t, h, rfl⟩
    · exact .inl (.inl rfl)
    · rcases ih r h with h | ⟨a, t₁, t₂, h₁, h₂, rfl⟩
      · exact .inl (.inr ⟨r, t, h, rfl⟩)
      · exact .inr ⟨a, _, t₂, ⟨r, t₁, h₁, rfl⟩, h₂, rfl⟩
  | both l r k _ _ ih =>
    rcases h with h | ⟨b, c, tl, tr', t, t', hl, hr, hInter, h, rfl⟩
    · exact .inl (.inl h)
    · rcases ih b c h with h | ⟨a, t₁, t₂, h₁, h₂, rfl⟩
      · exact .inl (.inr ⟨b, c, tl, tr', t, t', hl, hr, hInter, h, rfl⟩)
      · exact .inr ⟨a, t ++ t₁, t₂, ⟨b, c, tl, tr', t, t₁, hl, hr, hInter, h₁, rfl⟩, h₂, by simp⟩
  | iter body s k _ ih =>
    rcases h with h | ⟨b, t, t', hLoop, h, rfl⟩
    · exact .inl (.inl h)
    · rcases ih b h with h | ⟨a, t₁, t₂, h₁, h₂, rfl⟩
      · exact .inl (.inr ⟨b, t, t', hLoop, h, rfl⟩)
      · exact .inr ⟨a, t ++ t₁, t₂, ⟨b, t, t₁, hLoop, h₁, rfl⟩, h₂, by simp⟩

/-- Two processes side by side begin with an interleaving of two beginnings. -/
theorem begins_both {l : Proc I α} {r : Proc I β} {k : α → β → γ}
    (h : (Proc.both l r fun a b => .ret (k a b)).Begins tr) :
    ∃ tl tr', l.Begins tl ∧ r.Begins tr' ∧ Interleave tl tr' tr := by
  rcases h with h | ⟨a, b, tl, tr', t, t', hl, hr, hInter, rfl, rfl⟩
  · exact h
  · rw [List.append_nil]
    exact ⟨tl, tr', hl.begins, hr.begins, hInter⟩

/-- The last iteration of a loop. -/
theorem Loops.rounds {s : σ} {b : β} (h : Loops body s tr b) :
    ∃ s' t t', Rounds (fun s t x => (body s).Behaves t x) s t s' ∧
      (body s').Behaves t' (.inr b) ∧ tr = t ++ t' := by
  induction h with
  | @stop s t b hb => exact ⟨s, [], t, .refl s, hb, rfl⟩
  | next hb _ ih =>
    obtain ⟨s', t, t', hRounds, hLast, rfl⟩ := ih
    exact ⟨s', _, t', .next hb hRounds, hLast, by simp⟩

/-- A loop that has begun: some whole iterations and the beginning of one. -/
theorem begins_loop {s : σ} (h : (loop body s).Begins tr) :
    ∃ s' t t', Rounds (fun s t x => (body s).Behaves t x) s t s' ∧ (body s').Begins t' ∧
      tr = t ++ t' := by
  rcases h with h | ⟨b, t, t', hLoop, rfl, rfl⟩
  · exact h
  · obtain ⟨s', u, u', hRounds, hLast, rfl⟩ := Loops.rounds hLoop
    exact ⟨s', u, u', hRounds, hLast.begins, by simp⟩

/-- A beginning after a step is a beginning with the event of the step. -/
theorem Begins.of_step (hStep : Step p e p') (h : p'.Begins t) : p.Begins (e.toList ++ t) := by
  induction hStep generalizing t with
  | call op k r => exact .inr ⟨r, t, h, rfl⟩
  | left r k hs ih =>
    rcases h with ⟨tl, tr', hl, hr, hInter⟩ | ⟨b, c, tl, tr', u, u', hl, hr, hInter, hk, rfl⟩
    · exact .inl ⟨_, tr', ih hl, hr, hInter.append_left _⟩
    · exact .inr ⟨b, c, _, tr', _, u', .of_step hs hl, hr, hInter.append_left _, hk, by simp⟩
  | right l k hs ih =>
    rcases h with ⟨tl, tr', hl, hr, hInter⟩ | ⟨b, c, tl, tr', u, u', hl, hr, hInter, hk, rfl⟩
    · exact .inl ⟨tl, _, hl, ih hr, hInter.append_right _⟩
    · exact .inr ⟨b, c, tl, _, _, u', hl, .of_step hs hr, hInter.append_right _, hk, by simp⟩
  | join b c k => exact .inr ⟨b, c, [], [], [], t, ⟨rfl, rfl⟩, ⟨rfl, rfl⟩, .nil, h, rfl⟩
  | iter body s k =>
    rcases begins_bind h with h | ⟨y, u, u', hBody, hRest, rfl⟩
    · exact .inl ⟨s, [], t, .refl s, h, rfl⟩
    · cases y with
      | inl s' =>
        rcases hRest with ⟨s'', w, w', hRounds, hBegins, rfl⟩ | ⟨b, w, w', hLoop, hk, rfl⟩
        · exact .inl ⟨s'', u ++ w, w', .next hBody hRounds, hBegins, by simp⟩
        · exact .inr ⟨b, u ++ w, w', .next hBody hLoop, hk, by simp⟩
      | inr b => exact .inr ⟨b, u, u', .stop hBody, hRest, rfl⟩

/-- **Every run, finished or not, is a beginning.** -/
theorem Steps.begins {q : Proc I α} (h : Steps p t q) : p.Begins t := by
  induction h with
  | refl p => exact begins_nil p
  | head hs _ ih => exact .of_step hs ih

/-- Every event of the process satisfies `P`, also if it never finishes. -/
def Emits (P : Event I → Prop) (p : Proc I α) : Prop := ∀ tr, p.Begins tr → ∀ e ∈ tr, P e

namespace Emits

variable {P : Event I → Prop}

theorem pure (a : α) : Emits P (Pure.pure a : Proc I α) := by
  rintro tr rfl
  simp

theorem perform {op : I.Op} (h : ∀ r, P ⟨op, r⟩) : Emits P (Proc.perform op) := by
  intro tr hp
  rcases begins_perform.mp hp with rfl | ⟨r, rfl⟩
  · simp
  · simpa using h r

theorem bind {p : Proc I α} {f : α → Proc I β} (hp : Emits P p) (hf : ∀ a, Emits P (f a)) :
    Emits P (p >>= f) := by
  intro tr h
  rcases begins_bind h with h | ⟨a, t, t', h₁, h₂, rfl⟩
  · exact hp tr h
  · intro e he
    exact (List.mem_append.mp he).elim (hp t h₁.begins e) (hf a t' h₂ e)

theorem behaves {p : Proc I α} (h : Emits P p) {x : α} (hp : p.Behaves tr x) : ∀ e ∈ tr, P e :=
  h tr hp.begins

end Emits

/-- **The behaviours of a process are its finished runs.** -/
theorem steps_ret_iff {x : α} :
    Steps p tr (.ret x) ↔ p.Behaves tr x := by
  refine ⟨fun h => ?_, Behaves.steps⟩
  generalize hq : (Proc.ret x : Proc I α) = q at h
  induction h with
  | refl p => subst hq; exact ⟨rfl, rfl⟩
  | head hs _ ih => exact .of_step hs (ih hq)

end Proc

/-! ## Shared objects -/

/-- A shared object: `perform op r s` is the state after `op` got the reply
`r` in the state `s`, or `none` if `op` cannot get this reply there. -/
structure Object (I : Interface) where
  State   : Type
  perform : (op : I.Op) → I.Reply op → State → Option State

namespace Object

variable {I : Interface} (o : Object I)

/-- The state after a list of events. -/
def run : List (Event I) → o.State → Option o.State
  | [], s => some s
  | e :: t, s => (o.perform e.op e.reply s).bind (run t)

variable {o}

@[simp] theorem run_nil (s : o.State) : o.run [] s = some s := rfl

theorem run_cons_eq_some {e : Event I} {t : List (Event I)} {s s' : o.State} :
    o.run (e :: t) s = some s' ↔ ∃ m, o.perform e.op e.reply s = some m ∧ o.run t m = some s' := by
  rw [run, Option.bind_eq_some_iff]

theorem run_append_eq_some {t t' : List (Event I)} {s s' : o.State} :
    o.run (t ++ t') s = some s' ↔ ∃ m, o.run t s = some m ∧ o.run t' m = some s' := by
  induction t generalizing s with
  | nil => simp
  | cons e t ih =>
    simp only [List.cons_append, run_cons_eq_some, ih]
    constructor
    · rintro ⟨m, hm, m', hm', h⟩
      exact ⟨m', ⟨m, hm, hm'⟩, h⟩
    · rintro ⟨m', ⟨m, hm, hm'⟩, h⟩
      exact ⟨m, hm, m', hm', h⟩

end Object

/-- A run of a process on a shared object: each step is a step of one thread,
and the object allows every call. -/
inductive Exec {I : Interface} (o : Object I) {α : Type} :
    Proc I α → o.State → List (Event I) → Proc I α → o.State → Prop
  | refl (p : Proc I α) (s : o.State) : Exec o p s [] p s
  | silent {p p' q : Proc I α} {s s' : o.State} {t : List (Event I)} :
      Proc.Step p none p' → Exec o p' s t q s' → Exec o p s t q s'
  | event {p p' q : Proc I α} {s m s' : o.State} {e : Event I} {t : List (Event I)} :
      Proc.Step p (some e) p' → o.perform e.op e.reply s = some m → Exec o p' m t q s' →
      Exec o p s (e :: t) q s'

theorem exec_iff {I : Interface} {o : Object I} {α : Type} {p q : Proc I α} {s s' : o.State}
    {t : List (Event I)} :
    Exec o p s t q s' ↔ Proc.Steps p t q ∧ o.run t s = some s' := by
  constructor
  · intro h
    induction h with
    | refl p s => exact ⟨.refl p, rfl⟩
    | silent hs _ ih => exact ⟨.head hs ih.1, ih.2⟩
    | event hs hm _ ih => exact ⟨.head hs ih.1, Object.run_cons_eq_some.mpr ⟨_, hm, ih.2⟩⟩
  · rintro ⟨h, hRun⟩
    induction h generalizing s with
    | refl p =>
      obtain rfl : s = s' := by simpa using hRun
      exact .refl p s
    | @head p p' q e u hs _ ih =>
      cases e with
      | none => exact .silent hs (ih hRun)
      | some e =>
        obtain ⟨m, hm, hRun⟩ := Object.run_cons_eq_some.mp hRun
        exact .event hs hm (ih hRun)

/-- **Finished runs are the behaviours that the object allows.** -/
theorem exec_ret_iff {I : Interface} {o : Object I} {α : Type} {p : Proc I α} {x : α}
    {s s' : o.State} {t : List (Event I)} :
    Exec o p s t (.ret x) s' ↔ p.Behaves t x ∧ o.run t s = some s' := by
  rw [exec_iff, Proc.steps_ret_iff]

/-! ## One run of a process -/

namespace Object

variable {I : Interface} (o : Object I)

/-- At most `fuel` iterations of a loop. -/
def playLoop {σ β : Type} (body : σ → o.State → Option (List (Event I) × (σ ⊕ β) × o.State)) :
    Nat → σ → o.State → Option (List (Event I) × β × o.State)
  | 0, _, _ => none
  | fuel + 1, x, s =>
    (body x s).bind fun (t, y, m) => match y with
      | .inr b => some (t, b, m)
      | .inl x' => (playLoop body fuel x' m).map fun (t', b, s') => (t ++ t', b, s')

/-- The run in which `choose` picks the replies and the left one of two
processes goes first. -/
def play (choose : (op : I.Op) → o.State → I.Reply op) (fuel : Nat) {α : Type} :
    Proc I α → o.State → Option (List (Event I) × α × o.State)
  | .ret a, s => some ([], a, s)
  | .call op k, s =>
    (o.perform op (choose op s) s).bind fun m =>
      (play choose fuel (k (choose op s)) m).map fun (t, a, s') =>
        (⟨op, choose op s⟩ :: t, a, s')
  | .both l r k, s =>
    (play choose fuel l s).bind fun (tl, b, m) =>
      (play choose fuel r m).bind fun (tr, c, m') =>
        (play choose fuel (k b c) m').map fun (t, a, s') => (tl ++ tr ++ t, a, s')
  | .iter body x k, s =>
    (o.playLoop (fun x => play choose fuel (body x)) fuel x s).bind fun (t, b, m) =>
      (play choose fuel (k b) m).map fun (t', a, s') => (t ++ t', a, s')

/-- A loop that was played is a loop of the program. -/
theorem playLoop_sound {σ β : Type} {body : σ → Proc I (σ ⊕ β)}
    {play : σ → o.State → Option (List (Event I) × (σ ⊕ β) × o.State)}
    (hBody : ∀ x s t y s', play x s = some (t, y, s') →
      (body x).Behaves t y ∧ o.run t s = some s')
    {fuel : Nat} {x : σ} {s s' : o.State} {t : List (Event I)} {b : β}
    (h : o.playLoop play fuel x s = some (t, b, s')) :
    Proc.Loops body x t b ∧ o.run t s = some s' := by
  induction fuel generalizing x s t with
  | zero => cases h
  | succ fuel ih =>
    obtain ⟨⟨u, y, m⟩, hPlay, hRest⟩ := Option.bind_eq_some_iff.mp h
    obtain ⟨hBehaves, hRun⟩ := hBody x s u y m hPlay
    cases y with
    | inr b' =>
      cases hRest
      exact ⟨.stop hBehaves, hRun⟩
    | inl x' =>
      obtain ⟨⟨u', b', m'⟩, hLoop, hEq⟩ := Option.map_eq_some_iff.mp hRest
      cases hEq
      obtain ⟨hLoops, hRun'⟩ := ih hLoop
      exact ⟨.next hBehaves hLoops, run_append_eq_some.mpr ⟨m, hRun, hRun'⟩⟩

/-- What `play` returns is a run. -/
theorem play_sound {choose : (op : I.Op) → o.State → I.Reply op} {fuel : Nat} {α : Type}
    {p : Proc I α} {s s' : o.State} {t : List (Event I)} {a : α}
    (h : o.play choose fuel p s = some (t, a, s')) : p.Behaves t a ∧ o.run t s = some s' := by
  induction p generalizing s t s' with
  | ret a =>
    cases h
    exact ⟨⟨rfl, rfl⟩, rfl⟩
  | call op k ih =>
    obtain ⟨m, hStep, hRest⟩ := Option.bind_eq_some_iff.mp h
    obtain ⟨⟨u, y, m'⟩, hPlay, hEq⟩ := Option.map_eq_some_iff.mp hRest
    cases hEq
    obtain ⟨hBehaves, hRun⟩ := ih _ hPlay
    exact ⟨⟨_, _, hBehaves, rfl⟩, run_cons_eq_some.mpr ⟨m, hStep, hRun⟩⟩
  | both l r k ihl ihr ihk =>
    obtain ⟨⟨tl, b, m⟩, hl, hRest⟩ := Option.bind_eq_some_iff.mp h
    obtain ⟨⟨tr, c, m'⟩, hr, hRest⟩ := Option.bind_eq_some_iff.mp hRest
    obtain ⟨⟨u, y, m''⟩, hPlay, hEq⟩ := Option.map_eq_some_iff.mp hRest
    cases hEq
    obtain ⟨hBehaves₁, hRun₁⟩ := ihl hl
    obtain ⟨hBehaves₂, hRun₂⟩ := ihr hr
    obtain ⟨hBehaves₃, hRun₃⟩ := ihk _ _ hPlay
    -- the left events first, then the right ones
    exact ⟨⟨b, c, tl, tr, _, u, hBehaves₁, hBehaves₂, .concat tl tr, hBehaves₃, rfl⟩,
      run_append_eq_some.mpr ⟨m', run_append_eq_some.mpr ⟨m, hRun₁, hRun₂⟩, hRun₃⟩⟩
  | iter body x k ihBody ihk =>
    obtain ⟨⟨u, b, m⟩, hLoop, hRest⟩ := Option.bind_eq_some_iff.mp h
    obtain ⟨⟨u', y, m'⟩, hPlay, hEq⟩ := Option.map_eq_some_iff.mp hRest
    cases hEq
    obtain ⟨hLoops, hRun⟩ := o.playLoop_sound (fun x s t y s' h => ihBody x h) hLoop
    obtain ⟨hBehaves, hRun'⟩ := ihk _ hPlay
    exact ⟨⟨b, u, u', hLoops, hBehaves, rfl⟩, run_append_eq_some.mpr ⟨m, hRun, hRun'⟩⟩

/-- A run that `play` finds and that ends as `test` says. -/
theorem exec_of_play {choose : (op : I.Op) → o.State → I.Reply op} {fuel : Nat} {α : Type}
    {p : Proc I α} {s : o.State} {test : List (Event I) × α × o.State → Bool}
    (h : (o.play choose fuel p s).any test = true) :
    ∃ t a s', Exec o p s t (.ret a) s' ∧ test (t, a, s') = true := by
  obtain ⟨⟨t, a, s'⟩, hPlay, hTest⟩ := (Option.any_eq_true _ _).mp h
  exact ⟨t, a, s', exec_ret_iff.mpr (o.play_sound hPlay), hTest⟩

end Object

/-! ## Runs beside an environment -/

/-- The events of one process on the object, where the environment may change
the state by `R` before and after each of them. -/
inductive Object.RunWith {I : Interface} (o : Object I) (R : o.State → o.State → Prop) :
    List (Event I) → o.State → o.State → Prop
  | nil {s s' : o.State} : R s s' → RunWith o R [] s s'
  | cons {s m m' s' : o.State} {e : Event I} {t : List (Event I)} :
      R s m → o.perform e.op e.reply m = some m' → RunWith o R t m' s' → RunWith o R (e :: t) s s'

namespace Object.RunWith

variable {I : Interface} {o : Object I} {R : o.State → o.State → Prop} {s s' : o.State}
  {t t' : List (Event I)} {e : Event I}

theorem nil_inv (h : o.RunWith R [] s s') : R s s' := by
  cases h with
  | nil h => exact h

theorem cons_inv (h : o.RunWith R (e :: t) s s') :
    ∃ m m', R s m ∧ o.perform e.op e.reply m = some m' ∧ o.RunWith R t m' s' := by
  cases h with
  | cons hR hStep hRest => exact ⟨_, _, hR, hStep, hRest⟩

/-- The environment may also act before the first event. -/
theorem env_left (hTrans : ∀ a b c, R a b → R b c → R a c) {r : o.State} (hEnv : R r s)
    (h : o.RunWith R t s s') : o.RunWith R t r s' := by
  cases h with
  | nil hR => exact .nil (hTrans _ _ _ hEnv hR)
  | cons hR hStep hRest => exact .cons (hTrans _ _ _ hEnv hR) hStep hRest

theorem append_inv (hRefl : ∀ a, R a a) (h : o.RunWith R (t ++ t') s s') :
    ∃ m, o.RunWith R t s m ∧ o.RunWith R t' m s' := by
  induction t generalizing s with
  | nil => exact ⟨s, .nil (hRefl s), h⟩
  | cons e t ih =>
    obtain ⟨m, m', hR, hStep, hRest⟩ := h.cons_inv
    obtain ⟨k, hk, hk'⟩ := ih hRest
    exact ⟨k, .cons hR hStep hk, hk'⟩

/-- An interleaved run, seen from one of the two processes. -/
theorem of_interleave (hRefl : ∀ a, R a a) (hTrans : ∀ a b c, R a b → R b c → R a c)
    {env own tr : List (Event I)} (hInter : Interleave env own tr)
    (hEnv : ∀ e ∈ env, ∀ a b, o.perform e.op e.reply a = some b → R a b)
    (hRun : o.run tr s = some s') : o.RunWith R own s s' := by
  induction hInter generalizing s with
  | nil =>
    obtain rfl : s = s' := by simpa using hRun
    exact .nil (hRefl s)
  | left e _ ih =>
    obtain ⟨m, hm, hRun⟩ := run_cons_eq_some.mp hRun
    have hRest := ih (fun f hf => hEnv f (List.mem_cons_of_mem _ hf)) hRun
    exact hRest.env_left hTrans (hEnv e List.mem_cons_self s m hm)
  | right e _ ih =>
    obtain ⟨m, hm, hRun⟩ := run_cons_eq_some.mp hRun
    exact .cons (hRefl s) hm (ih hEnv hRun)

end Object.RunWith

/-- **A process beside an environment.** A finished run of both is a behaviour
of the process in which the environment acts between any two events. -/
theorem exec_beside {I : Interface} {o : Object I} {R : o.State → o.State → Prop} {α : Type}
    {env : Proc I Unit} {p : Proc I α} {s s' : o.State} {tr : List (Event I)} {x : α}
    (hRefl : ∀ a, R a a) (hTrans : ∀ a b c, R a b → R b c → R a c)
    (hEnv : env.Only fun e => ∀ a b, o.perform e.op e.reply a = some b → R a b)
    (h : Exec o (.both env p fun _ x => .ret x) s tr (.ret x) s') :
    ∃ others own, (env.Behaves others ()) ∧ p.Behaves own x ∧ Interleave others own tr ∧
      o.RunWith R own s s' := by
  obtain ⟨hBehaves, hRun⟩ := exec_ret_iff.mp h
  obtain ⟨⟨⟩, _, others, own, hOthers, hOwn, hInter, rfl⟩ := Proc.behaves_both.mp hBehaves
  exact ⟨others, own, hOthers, hOwn, hInter,
    .of_interleave hRefl hTrans hInter (hEnv others () hOthers) hRun⟩

/-! ## Fallible processes -/

/-- A process that returns a value or an error. -/
abbrev Fallible (I : Interface) (ε α : Type) := ExceptT ε (Proc I) α

section Fallible

variable {I : Interface} {ε α β : Type} {tr : List (Event I)}

/-- The process returns the value `a`, with the events `tr`. -/
def Returns (p : Fallible I ε α) (tr : List (Event I)) (a : α) : Prop := p.run.Behaves tr (.ok a)

variable {p : Fallible I ε α} {f : α → Fallible I ε β}

@[simp] theorem returns_pure {a x : α} :
    Returns (pure a : Fallible I ε α) tr x ↔ tr = [] ∧ a = x := by
  show (Pure.pure (Except.ok a) : Proc I (Except ε α)).Behaves tr (.ok x) ↔ _
  simp

/-- A composition returns a value exactly when both halves do. -/
theorem returns_bind {x : β} :
    Returns (p >>= f) tr x ↔ ∃ a t t', Returns p t a ∧ Returns (f a) t' x ∧ tr = t ++ t' := by
  have hRun : (p >>= f).run = p.run >>= ExceptT.bindCont f := rfl
  rw [Returns, hRun, Proc.behaves_bind]
  constructor
  · rintro ⟨a, t, t', hp, hf, rfl⟩
    cases a with
    | error e =>
      obtain ⟨-, h⟩ := hf
      cases h
    | ok a => exact ⟨a, t, t', hp, hf, rfl⟩
  · rintro ⟨a, t, t', hp, hf, rfl⟩
    exact ⟨.ok a, t, t', hp, hf, rfl⟩

/-- A composition ends with the error of its first half, or goes on. -/
theorem run_bind_behaves {x : Except ε β} :
    (p >>= f).run.Behaves tr x ↔
      (∃ e, p.run.Behaves tr (.error e) ∧ x = .error e) ∨
      ∃ a t t', p.run.Behaves t (.ok a) ∧ (f a).run.Behaves t' x ∧ tr = t ++ t' := by
  have hRun : (p >>= f).run = p.run >>= ExceptT.bindCont f := rfl
  rw [hRun, Proc.behaves_bind]
  constructor
  · rintro ⟨a, t, t', hp, hf, rfl⟩
    cases a with
    | error e =>
      obtain ⟨rfl, rfl⟩ := hf
      exact .inl ⟨e, by simpa using hp, rfl⟩
    | ok a => exact .inr ⟨a, t, t', hp, hf, rfl⟩
  · rintro (⟨e, hp, rfl⟩ | ⟨a, t, t', hp, hf, rfl⟩)
    · exact ⟨.error e, tr, [], hp, ⟨rfl, rfl⟩, by simp⟩
    · exact ⟨.ok a, t, t', hp, hf, rfl⟩

/-- `if err := call(); err != nil { return f(err) }`. -/
def attempt {ε' : Type} (f : ε' → ε) (p : Proc I (Option ε')) : Fallible I ε Unit :=
  ExceptT.mk (p >>= fun r => pure (match r with | none => .ok () | some e => .error (f e)))

theorem attempt_behaves {ε' : Type} {f : ε' → ε} {p : Proc I (Option ε')} {x : Except ε Unit} :
    (attempt f p).run.Behaves tr x ↔
      (p.Behaves tr none ∧ x = .ok ()) ∨ ∃ e, p.Behaves tr (some e) ∧ x = .error (f e) := by
  show (p >>= _ : Proc I (Except ε Unit)).Behaves tr x ↔ _
  rw [Proc.behaves_bind]
  constructor
  · rintro ⟨r, t, t', hp, ⟨rfl, rfl⟩, rfl⟩
    rw [List.append_nil]
    cases r with
    | none => exact .inl ⟨hp, rfl⟩
    | some e => exact .inr ⟨e, hp, rfl⟩
  · rintro (⟨hp, rfl⟩ | ⟨e, hp, rfl⟩)
    · exact ⟨none, tr, [], hp, ⟨rfl, rfl⟩, by simp⟩
    · exact ⟨some e, tr, [], hp, ⟨rfl, rfl⟩, by simp⟩

theorem returns_lift {p : Proc I α} {x : α} :
    Returns (liftM p : Fallible I ε α) tr x ↔ p.Behaves tr x := by
  show (Except.ok <$> p : Proc I (Except ε α)).Behaves tr (.ok x) ↔ _
  have hMap : (Except.ok <$> p : Proc I (Except ε α)) = p >>= fun a => pure (.ok a) := rfl
  rw [hMap, Proc.behaves_bind]
  constructor
  · rintro ⟨a, t, t', hp, ⟨rfl, h⟩, rfl⟩
    cases h
    simpa using hp
  · intro h
    exact ⟨x, tr, [], h, ⟨rfl, rfl⟩, by simp⟩

/-- A composition that has begun. -/
theorem run_bind_begins (h : (p >>= f).run.Begins tr) :
    p.run.Begins tr ∨ ∃ a t t', Returns p t a ∧ (f a).run.Begins t' ∧ tr = t ++ t' := by
  have hRun : (p >>= f).run = p.run >>= ExceptT.bindCont f := rfl
  rw [hRun] at h
  rcases Proc.begins_bind h with h | ⟨a, t, t', hp, hf, rfl⟩
  · exact .inl h
  · cases a with
    | error e =>
      -- nothing happens after an error
      obtain rfl : t' = [] := hf
      rw [List.append_nil]
      exact .inl hp.begins
    | ok a => exact .inr ⟨a, t, t', hp, hf, rfl⟩

theorem run_lift_begins {p : Proc I α} (h : (liftM p : Fallible I ε α).run.Begins tr) :
    p.Begins tr := by
  have hMap : (liftM p : Fallible I ε α).run = p >>= fun a => pure (.ok a) := rfl
  rw [hMap] at h
  rcases Proc.begins_bind h with h | ⟨a, t, t', hp, rfl, rfl⟩
  · exact h
  · rw [List.append_nil]
    exact hp.begins

theorem attempt_begins {ε' : Type} {f : ε' → ε} {p : Proc I (Option ε')}
    (h : (attempt f p).run.Begins tr) : p.Begins tr := by
  rcases Proc.begins_bind h with h | ⟨a, t, t', hp, rfl, rfl⟩
  · exact h
  · rw [List.append_nil]
    exact hp.begins

/-- A call without events. -/
def computed (x : Except ε α) : Fallible I ε α := ExceptT.mk (pure x)

theorem returns_computed {x : Except ε α} {a : α} :
    Returns (computed x : Fallible I ε α) tr a ↔ tr = [] ∧ x = .ok a := Iff.rfl

/-- One call of an operation that cannot fail. -/
def invoke (op : I.Op) : Fallible I ε (I.Reply op) := liftM (Proc.perform op)

theorem returns_invoke {op : I.Op} {x : I.Reply op} :
    Returns (invoke op : Fallible I ε (I.Reply op)) tr x ↔ tr = [⟨op, x⟩] :=
  returns_lift.trans Proc.behaves_perform

theorem returns_attempt {ε' : Type} {f : ε' → ε} {p : Proc I (Option ε')} :
    Returns (attempt f p) tr () ↔ p.Behaves tr none := by
  rw [Returns, attempt_behaves]
  constructor
  · rintro (⟨hp, -⟩ | ⟨e, -, hEq⟩)
    · exact hp
    · cases hEq
  · intro hp
    exact .inl ⟨hp, rfl⟩

/-- A loop over a list, with a check before each element. -/
def foldChecked {σ : Type} (check : Fallible I ε Unit) (step : σ → α → Except ε σ) :
    List α → σ → Fallible I ε σ
  | [], s => pure s
  | x :: xs, s => check >>= fun _ => computed (step s x) >>= fun s' => foldChecked check step xs s'

/-- A checked loop that ends has run every step. -/
theorem returns_foldChecked {σ : Type} {check : Fallible I ε Unit} {step : σ → α → Except ε σ}
    {xs : List α} {s s' : σ} (h : Returns (foldChecked check step xs s) tr s') :
    xs.foldlM step s = .ok s' := by
  induction xs generalizing s tr with
  | nil =>
    obtain ⟨-, rfl⟩ := returns_pure.mp h
    rfl
  | cons x xs ih =>
    obtain ⟨⟨⟩, t, t', -, hk, rfl⟩ := returns_bind.mp h
    obtain ⟨m, u, u', hStep, hRest, rfl⟩ := returns_bind.mp hk
    obtain ⟨-, hStep⟩ := returns_computed.mp hStep
    exact foldlM_cons_eq_ok.mpr ⟨m, hStep, ih hRest⟩

/-- `fmt.Errorf("...: %w", err)` around a process. -/
def wrapped (f : ε → ε) (p : Fallible I ε α) : Fallible I ε α :=
  ExceptT.mk (p.run >>= fun out => pure (wrapErr f out))

theorem returns_wrapped {f : ε → ε} {a : α} (h : Returns (wrapped f p) tr a) : Returns p tr a := by
  obtain ⟨out, t, t', hp, hEnd, rfl⟩ := Proc.behaves_bind.mp h
  obtain ⟨rfl, hOut⟩ := hEnd
  obtain rfl := wrapErr_eq_ok.mp hOut
  rwa [List.append_nil]

/-- The loop rule. `inv seen s` relates the elements already consumed to the
loop state. -/
theorem returns_foldlM {σ : Type} {step : σ → α → Fallible I ε σ} (inv : List α → σ → Prop)
    (hStep : ∀ seen s x t tr, inv seen s → Returns (step s x) tr t → inv (seen ++ [x]) t)
    {seen xs : List α} {s s' : σ} (hInv : inv seen s) (h : Returns (xs.foldlM step s) tr s') :
    inv (seen ++ xs) s' := by
  induction xs generalizing seen s tr with
  | nil =>
    obtain ⟨-, rfl⟩ := returns_pure.mp h
    rwa [List.append_nil]
  | cons x xs ih =>
    obtain ⟨m, t, t', hFirst, hRest, rfl⟩ := returns_bind.mp h
    rw [List.append_cons]
    exact ih (hStep seen s x m t hInv hFirst) hRest

end Fallible

namespace Proc.Emits

variable {I : Interface} {ε α β : Type} {P : Event I → Prop}

theorem mono {Q : Event I → Prop} {p : Proc I α} (h : p.Emits P) (hPQ : ∀ e, P e → Q e) :
    p.Emits Q := fun tr hp e he => hPQ e (h tr hp e he)

theorem run_pure (a : α) : (Pure.pure a : Fallible I ε α).run.Emits P :=
  Emits.pure (Except.ok a)

theorem run_computed (x : Except ε α) : (computed x : Fallible I ε α).run.Emits P :=
  Emits.pure x

theorem run_bind {p : Fallible I ε α} {f : α → Fallible I ε β} (hp : p.run.Emits P)
    (hf : ∀ a, (f a).run.Emits P) : (p >>= f).run.Emits P := by
  intro tr h e he
  rcases run_bind_begins h with hFirst | ⟨a, t, t', hFirst, hRest, rfl⟩
  · exact hp tr hFirst e he
  · rcases List.mem_append.mp he with he | he
    · exact hp t hFirst.begins e he
    · exact hf a t' hRest e he

theorem run_lift {p : Proc I α} (h : p.Emits P) : (liftM p : Fallible I ε α).run.Emits P :=
  fun tr hp => h tr (run_lift_begins hp)

theorem run_invoke {op : I.Op} (h : ∀ r, P ⟨op, r⟩) :
    (invoke op : Fallible I ε (I.Reply op)).run.Emits P := run_lift (Emits.perform h)

theorem run_attempt {ε' : Type} {f : ε' → ε} {p : Proc I (Option ε')} (h : p.Emits P) :
    (attempt f p).run.Emits P := fun tr hp => h tr (attempt_begins hp)

end Proc.Emits

end L2State.Lib
