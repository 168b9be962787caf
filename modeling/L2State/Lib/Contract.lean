import L2State.Lib.Process

/-!
# L2State — contracts of fallible processes

What a process has done when it returns a value, against a log of everything that happened.
The log is fixed, so a property that says what happened holds for all threads alike, and
threads that run side by side are judged one by one.

* `Contract log P p Q` — when `p` returns within the log, each of its events satisfies `P` and
  its value satisfies `Q`; one rule for each way to build a process.
* `together`, `allTogether` — fallible processes side by side, joined.
* `repeatUntil` — a loop that can fail.
-/

namespace L2State.Lib

variable {I : Interface} {ε α β σ : Type}

/-! ## Processes -/

/-- Two processes side by side. If both fail, `pick` says whether the left one was first. -/
def together (pick : Proc I Bool) (l : Fallible I ε α) (r : Fallible I ε β) :
    Fallible I ε (α × β) :=
  ExceptT.mk (.both l.run r.run fun
    | .ok a, .ok b => pure (.ok (a, b))
    | .error e, .ok _ => pure (.error e)
    | .ok _, .error e => pure (.error e)
    | .error e, .error e' => pick >>= fun left => pure (.error (if left then e else e')))

/-- A process for each element of a list, all side by side. -/
def allTogether (pick : Proc I Bool) (f : σ → Fallible I ε α) : List σ → Fallible I ε (List α)
  | [] => pure []
  | x :: xs => do
    let out ← together pick (f x) (allTogether pick f xs)
    return out.1 :: out.2

/-- Repeats `body` until it returns a result or fails. -/
def repeatUntil (body : σ → Fallible I ε (σ ⊕ β)) (s : σ) : Fallible I ε β :=
  ExceptT.mk (.loop (fun s => (body s).run >>= fun
    | .ok (.inl s') => pure (.inl s')
    | .ok (.inr b) => pure (.inr (.ok b))
    | .error e => pure (.inr (.error e))) s)

/-! ## Contracts -/

/-- When `p` returns and everything it did is in the log, its events satisfy `P` and its value
satisfies `Q`. -/
def Contract (log : Event I → Prop) (P : Event I → Prop) (p : Fallible I ε α) (Q : α → Prop) :
    Prop :=
  ∀ tr a, Returns p tr a → (∀ e ∈ tr, log e) → (∀ e ∈ tr, P e) ∧ Q a

namespace Contract

variable {log P : Event I → Prop} {p : Fallible I ε α} {Q Q' : α → Prop} {R : β → Prop}

theorem mono (h : Contract log P p Q) (hQ : ∀ a, Q a → Q' a) : Contract log P p Q' :=
  fun tr a hp hLog => (h tr a hp hLog).imp_right (hQ a)

theorem pure {a : α} (h : Q a) : Contract log P (Pure.pure a : Fallible I ε α) Q := by
  intro tr x hp _
  obtain ⟨rfl, rfl⟩ := returns_pure.mp hp
  exact ⟨nofun, h⟩

theorem fail (e : ε) : Contract log P (throw e : Fallible I ε α) Q := by
  rintro tr x ⟨-, hx⟩
  cases hx

theorem computed {x : Except ε α} (h : ∀ a, x = .ok a → Q a) :
    Contract log P (Lib.computed x) Q := by
  intro tr a hp _
  obtain ⟨rfl, hx⟩ := returns_computed.mp hp
  exact ⟨nofun, h a hx⟩

theorem ite {c : Prop} [Decidable c] {q : Fallible I ε α} (hp : c → Contract log P p Q)
    (hq : ¬ c → Contract log P q Q) : Contract log P (if c then p else q) Q := by
  split
  next h => exact hp h
  next h => exact hq h

/-- The events of `p` are judged when `f` is done: what `f` has done may count for them. -/
theorem bind_deferred {f : α → Fallible I ε β} {Q : List (Event I) → α → Prop}
    (hp : ∀ tr a, Returns p tr a → (∀ e ∈ tr, log e) → Q tr a)
    (hf : ∀ tr a, Q tr a → Contract log P (f a) fun b => (∀ e ∈ tr, P e) ∧ R b) :
    Contract log P (p >>= f) R := by
  intro tr b h hLog
  obtain ⟨a, t, t', ha, hb, rfl⟩ := returns_bind.mp h
  obtain ⟨hLeft, hRight⟩ := List.forall_mem_append.mp hLog
  obtain ⟨hEvents, hFirst, hR⟩ := hf t a (hp t a ha hLeft) t' b hb hRight
  exact ⟨List.forall_mem_append.mpr ⟨hFirst, hEvents⟩, hR⟩

theorem bind {f : α → Fallible I ε β} (hp : Contract log P p Q)
    (hf : ∀ a, Q a → Contract log P (f a) R) : Contract log P (p >>= f) R :=
  bind_deferred hp fun _ a hQ => (hf a hQ.2).mono fun _ hR => ⟨hQ.1, hR⟩

theorem invoke {op : I.Op} {Q : I.Reply op → Prop} (h : ∀ r, log ⟨op, r⟩ → P ⟨op, r⟩ ∧ Q r) :
    Contract log P (Lib.invoke op : Fallible I ε (I.Reply op)) Q := by
  intro tr r hp hLog
  obtain rfl := returns_invoke.mp hp
  obtain ⟨hP, hQ⟩ := h r (hLog _ List.mem_cons_self)
  exact ⟨by simpa using hP, hQ⟩

theorem wrapped {f : ε → ε} (hp : Contract log P p Q) : Contract log P (Lib.wrapped f p) Q :=
  fun tr a h => hp tr a (returns_wrapped h)

/-- Two threads meet both contracts. -/
theorem together {pick : Proc I Bool} {q : Fallible I ε β} (hp : Contract log P p Q)
    (hq : Contract log P q R) : Contract log P (Lib.together pick p q) fun x => Q x.1 ∧ R x.2 := by
  intro tr x h hLog
  obtain ⟨a, b, tl, tr', t, t', hl, hr, hInter, hk, rfl⟩ := h
  cases a with
  | error e =>
    cases b with
    | error e' =>
      obtain ⟨_, _, _, _, ⟨-, hx⟩, -⟩ := Proc.behaves_bind.mp hk
      cases hx
    | ok b => cases hk.2
  | ok a =>
    cases b with
    | error e' => cases hk.2
    | ok b =>
      obtain ⟨rfl, hx⟩ := hk
      cases hx
      rw [List.append_nil] at hLog ⊢
      obtain ⟨hP, hQ⟩ := hp tl a hl fun e he => hLog e (hInter.mem_iff.mpr (.inl he))
      obtain ⟨hP', hR⟩ := hq tr' b hr fun e he => hLog e (hInter.mem_iff.mpr (.inr he))
      exact ⟨fun e he => (hInter.mem_iff.mp he).elim (hP e) (hP' e), hQ, hR⟩

theorem allTogether {pick : Proc I Bool} {f : σ → Fallible I ε α} {Q : σ → α → Prop}
    (hf : ∀ x, Contract log P (f x) (Q x)) (xs : List σ) :
    Contract log P (Lib.allTogether pick f xs) fun _ => ∀ x ∈ xs, ∃ a, Q x a := by
  induction xs with
  | nil => exact .pure nofun
  | cons x xs ih =>
    exact (together (hf x) ih).bind fun out hOut =>
      .pure (List.forall_mem_cons.mpr ⟨⟨_, hOut.1⟩, hOut.2⟩)

/-- **The loop rule.** -/
theorem repeatUntil {body : σ → Fallible I ε (σ ⊕ α)} (inv : σ → Prop)
    (hBody : ∀ s, inv s → Contract log P (body s) (Sum.elim inv Q)) {s : σ} (hs : inv s) : Contract
    log P (Lib.repeatUntil body s) Q := by
  intro tr a h hLog
  have hLoop := Proc.behaves_loop.mp h
  clear h
  generalize hx : (Except.ok a : Except ε α) = x at hLoop
  induction hLoop with
  | stop hBehaves =>
    subst hx
    obtain ⟨out, t, t', hOut, hk, rfl⟩ := Proc.behaves_bind.mp hBehaves
    cases out with
    | error e => cases hk.2
    | ok out =>
      cases out with
      | inl s' => cases hk.2
      | inr b =>
        obtain ⟨rfl, hb⟩ := hk
        cases hb
        rw [List.append_nil] at hLog ⊢
        exact hBody _ hs t _ hOut hLog
  | next hBehaves _ ih =>
    obtain ⟨out, t, t', hOut, hk, rfl⟩ := Proc.behaves_bind.mp hBehaves
    obtain ⟨hLeft, hRight⟩ := List.forall_mem_append.mp hLog
    cases out with
    | error e => cases hk.2
    | ok out =>
      cases out with
      | inr b => cases hk.2
      | inl s' =>
        obtain ⟨rfl, hs'⟩ := hk
        cases hs'
        rw [List.append_nil] at hLeft ⊢
        obtain ⟨hEvents, hInv⟩ := hBody _ hs t _ hOut hLeft
        obtain ⟨hRest, hQ⟩ := ih hInv hRight hx
        exact ⟨List.forall_mem_append.mpr ⟨hEvents, hRest⟩, hQ⟩

end Contract

end L2State.Lib
