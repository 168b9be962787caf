import L2State.Lib.Process

/-!
# L2State — processes that succeed when the environment does

A fallible process depends on the replies of its calls: a context may be
done, an iterator may have failed. `Succeeds P p Q` is total correctness
against replies that satisfy `P`: every run with such replies returns a value
that satisfies `Q`, and there is such a run.

* `Succeeds` — the judgement.
* `Succeeds.bind`, `Succeeds.foldlM` — the rules of composition and of loops.
* `Succeeds.strengthen` — a postcondition that is known of every run that
  returns.
-/

namespace L2State.Lib

variable {I : Interface} {ε α β : Type} {P : Event I → Prop}

/-- Every run of `p` with replies in `P` returns a value in `Q`, and there is
one. -/
structure Succeeds (P : Event I → Prop) (p : Fallible I ε α) (Q : α → Prop) : Prop where
  ends : ∀ tr x, p.run.Behaves tr x → (∀ e ∈ tr, P e) → ∃ a, x = .ok a ∧ Q a
  run  : ∃ tr a, Returns p tr a ∧ ∀ e ∈ tr, P e

namespace Succeeds

variable {Q : α → Prop} {R : β → Prop}

theorem pure {a : α} (h : Q a) : Succeeds P (Pure.pure a : Fallible I ε α) Q where
  ends := by
    rintro tr x ⟨-, rfl⟩ -
    exact ⟨a, rfl, h⟩
  run := ⟨[], a, ⟨rfl, rfl⟩, by simp⟩

theorem computed {x : Except ε α} {a : α} (hx : x = .ok a) (h : Q a) :
    Succeeds P (Lib.computed x : Fallible I ε α) Q := by
  subst hx
  exact pure h

variable {p : Fallible I ε α}

/-- The second half may assume what the first half establishes. -/
theorem bind {f : α → Fallible I ε β} (hp : Succeeds P p Q) (hf : ∀ a, Q a → Succeeds P (f a) R) :
    Succeeds P (p >>= f) R where
  ends := by
    intro tr x h hGood
    rcases run_bind_behaves.mp h with ⟨e, hErr, rfl⟩ | ⟨a, t, t', hFirst, hRest, rfl⟩
    · obtain ⟨a, hEq, -⟩ := hp.ends tr _ hErr hGood
      cases hEq
    · obtain ⟨hLeft, hRight⟩ := List.forall_mem_append.mp hGood
      obtain ⟨a', hEq, hQ⟩ := hp.ends t _ hFirst hLeft
      cases hEq
      exact (hf a hQ).ends t' x hRest hRight
  run := by
    obtain ⟨t, a, hFirst, hLeft⟩ := hp.run
    obtain ⟨a', hEq, hQ⟩ := hp.ends t _ hFirst hLeft
    cases hEq
    obtain ⟨t', b, hRest, hRight⟩ := (hf a hQ).run
    exact ⟨t ++ t', b, returns_bind.mpr ⟨a, t, t', hFirst, hRest, rfl⟩,
      List.forall_mem_append.mpr ⟨hLeft, hRight⟩⟩

/-- What is known of every run that returns may be added. -/
theorem strengthen (h : Succeeds P p Q) {Q' : α → Prop}
    (hReturns : ∀ tr a, Returns p tr a → Q a → Q' a) : Succeeds P p Q' where
  ends := by
    intro tr x hBehaves hGood
    obtain ⟨a, rfl, hQ⟩ := h.ends tr x hBehaves hGood
    exact ⟨a, rfl, hReturns tr a hBehaves hQ⟩
  run := h.run

/-- A call that replies with an error or nothing. -/
theorem attempt {ε' : Type} {f : ε' → ε} (op : I.Op) (error : I.Reply op → Option ε')
    (hNone : ∀ r, P ⟨op, r⟩ → error r = none) {r : I.Reply op} (hr : P ⟨op, r⟩) :
    Succeeds P (Lib.attempt f (Proc.perform op >>= fun r => Pure.pure (error r))) fun _ =>
      True where
  ends := by
    intro tr x h hGood
    rcases attempt_behaves.mp h with ⟨-, rfl⟩ | ⟨e, hp, -⟩
    · exact ⟨(), rfl, trivial⟩
    · obtain ⟨r', t, t', hCall, ⟨rfl, hError⟩, rfl⟩ := Proc.behaves_bind.mp hp
      rw [Proc.behaves_perform.mp hCall] at hGood
      rw [hNone r' (hGood _ List.mem_cons_self)] at hError
      cases hError
  run := by
    refine ⟨[⟨op, r⟩], (), returns_attempt.mpr ?_, List.forall_mem_singleton.mpr hr⟩
    exact Proc.behaves_bind.mpr ⟨r, _, [], Proc.behaves_perform.mpr rfl, ⟨rfl, hNone r hr⟩, rfl⟩

theorem wrapped {f : ε → ε} (h : Succeeds P p Q) :
    Succeeds P (Lib.wrapped f p) Q where
  ends := by
    intro tr x hBehaves hGood
    obtain ⟨out, t, t', hp, ⟨rfl, rfl⟩, rfl⟩ := Proc.behaves_bind.mp hBehaves
    rw [List.append_nil] at hGood
    obtain ⟨a, rfl, hQ⟩ := h.ends t out hp hGood
    exact ⟨a, rfl, hQ⟩
  run := by
    obtain ⟨tr, a, hp, hGood⟩ := h.run
    exact ⟨tr, a, Proc.behaves_bind.mpr ⟨.ok a, tr, [], hp, ⟨rfl, rfl⟩, by simp⟩, hGood⟩

/-- A call after the process, whatever its outcome. -/
theorem finally_call (h : Succeeds P p Q) (op : I.Op) (r : I.Reply op) (hr : P ⟨op, r⟩) :
    Succeeds P (ExceptT.mk (p.run >>= fun out => Proc.perform op >>= fun _ => Pure.pure out)) Q
      where
  ends := by
    intro tr x hBehaves hGood
    obtain ⟨out, t, t', hp, hk, rfl⟩ := Proc.behaves_bind.mp hBehaves
    obtain ⟨_, u, u', -, ⟨rfl, rfl⟩, rfl⟩ := Proc.behaves_bind.mp hk
    exact h.ends t out hp (List.forall_mem_append.mp hGood).1
  run := by
    obtain ⟨tr, a, hp, hGood⟩ := h.run
    have hCall :
        (Proc.perform op >>= fun _ => Pure.pure (Except.ok a) : Proc I (Except ε α)).Behaves
          [⟨op, r⟩] (.ok a) :=
      Proc.behaves_bind.mpr ⟨r, _, [], Proc.behaves_perform.mpr rfl, ⟨rfl, rfl⟩, rfl⟩
    refine ⟨tr ++ [⟨op, r⟩], a, Proc.behaves_bind.mpr ⟨.ok a, tr, _, hp, hCall, rfl⟩, ?_⟩
    exact List.forall_mem_append.mpr ⟨hGood, List.forall_mem_singleton.mpr hr⟩

/-- **The loop rule.** `inv seen s` relates the elements consumed to the loop
state, and the loop may use of each element what holds of it with those before
it. -/
theorem foldlM {σ : Type} {step : σ → α → Fallible I ε σ} (inv : List α → σ → Prop)
    {seen xs : List α} {s : σ} (hInv : inv seen s)
    (hStep : ∀ done x rest s, xs = done ++ x :: rest → inv (seen ++ done) s →
      Succeeds P (step s x) (inv (seen ++ done ++ [x]))) :
    Succeeds P (xs.foldlM step s) (inv (seen ++ xs)) := by
  induction xs generalizing seen s with
  | nil =>
    rw [List.append_nil]
    exact pure hInv
  | cons x xs ih =>
    have hFirst := hStep [] x xs s rfl (by simpa using hInv)
    rw [List.append_nil] at hFirst
    refine hFirst.bind fun s' hs' => ?_
    rw [List.append_cons]
    refine ih hs' fun done y rest s₁ hEq hInv₁ => ?_
    have hNext := hStep (x :: done) y rest s₁ (by rw [hEq]; rfl) (by simpa using hInv₁)
    simpa using hNext

/-- A loop with a check before each element, when its steps succeed. -/
theorem foldChecked {σ : Type} {check : Fallible I ε Unit} {step : σ → α → Except ε σ}
    (hCheck : Succeeds P check fun _ => True) {xs : List α} {s s' : σ}
    (hFold : xs.foldlM step s = .ok s') : Succeeds P
    (Lib.foldChecked check step xs s) (· = s') := by
  induction xs generalizing s with
  | nil => exact pure (foldlM_nil_eq_ok.mp hFold)
  | cons x xs ih =>
    obtain ⟨m, hStep, hRest⟩ := foldlM_cons_eq_ok.mp hFold
    refine hCheck.bind fun _ _ => (computed (Q := (· = m)) hStep rfl).bind fun m' hm => ?_
    exact hm ▸ ih hRest

end Succeeds

end L2State.Lib
