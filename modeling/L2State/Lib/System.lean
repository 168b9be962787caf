import L2State.Lib.Except

/-!
# L2State — transition systems under a scheduler

A system of threads as one state and the actions that a scheduler can pick. An
action that cannot be taken in a state, such as the receive from an empty
channel, has no successor there.

* `System`, `System.run` — the actions and the runs.
* `System.run_invariant` — **the invariant rule**: what every action keeps,
  every run keeps.
* `System.run_measure` — a measure that every action of the threads decreases
  bounds their number, under every schedule.
* `System.exists_final` — if a thread can always move until the end, the end is
  reached.
-/

namespace L2State.Lib

/-- `step a s` is the state after the action `a`, if it can be taken in `s`. -/
structure System (σ α : Type) where
  step : α → σ → Option σ

namespace System

variable {σ α : Type} (S : System σ α)

/-- The state after a list of actions. -/
def run : List α → σ → Option σ
  | [], s => some s
  | a :: t, s => (S.step a s).bind (run t)

variable {S}

@[simp] theorem run_nil (s : σ) : S.run [] s = some s := rfl

theorem run_cons_eq_some {a : α} {t : List α} {s s' : σ} :
    S.run (a :: t) s = some s' ↔ ∃ m, S.step a s = some m ∧ S.run t m = some s' := by
  rw [run, Option.bind_eq_some_iff]

theorem run_append_eq_some {t t' : List α} {s s' : σ} :
    S.run (t ++ t') s = some s' ↔ ∃ m, S.run t s = some m ∧ S.run t' m = some s' := by
  induction t generalizing s with
  | nil => simp
  | cons a t ih =>
    simp only [List.cons_append, run_cons_eq_some, ih]
    constructor
    · rintro ⟨m, hm, m', hm', h⟩
      exact ⟨m', ⟨m, hm, hm'⟩, h⟩
    · rintro ⟨m', ⟨m, hm, hm'⟩, h⟩
      exact ⟨m, hm, m', hm', h⟩

/-- The invariant rule. -/
theorem run_invariant {inv : σ → Prop}
    (hStep : ∀ a s s', inv s → S.step a s = some s' → inv s') {t : List α} {s s' : σ}
    (hInv : inv s) (h : S.run t s = some s') : inv s' := by
  induction t generalizing s with
  | nil =>
    obtain rfl : s = s' := by simpa using h
    exact hInv
  | cons a t ih =>
    obtain ⟨m, hm, h⟩ := run_cons_eq_some.mp h
    exact ih (hStep a s m hInv hm) h

section Measure

variable {inv : σ → Prop} {work : α → Bool} {measure : σ → Nat}

/-- The actions that decrease the measure are as many as it allows. -/
theorem run_measure (hStep : ∀ a s s', inv s → S.step a s = some s' → inv s')
    (hWork : ∀ a s s', inv s → work a = true → S.step a s = some s' → measure s' < measure s)
    (hOther : ∀ a s s', inv s → work a = false → S.step a s = some s' → measure s' ≤ measure s)
    {t : List α} {s s' : σ} (hInv : inv s) (h : S.run t s = some s') :
    t.countP work + measure s' ≤ measure s := by
  induction t generalizing s with
  | nil =>
    obtain rfl : s = s' := by simpa using h
    simp
  | cons a t ih =>
    obtain ⟨m, hm, h⟩ := run_cons_eq_some.mp h
    have hRest := ih (hStep a s m hInv hm) h
    rw [List.countP_cons]
    cases hWorks : work a with
    | true =>
      have hLess := hWork a s m hInv hWorks hm
      rw [if_pos rfl]
      omega
    | false =>
      have hLe := hOther a s m hInv hWorks hm
      rw [if_neg (by decide)]
      omega

/-- A run of the threads reaches the end, if in every other state one of them
can move. -/
theorem exists_final {final : σ → Prop} (hStep : ∀ a s s', inv s → S.step a s = some s' → inv s')
    (hWork : ∀ a s s', inv s → work a = true → S.step a s = some s' → measure s' < measure s)
    (hMoves : ∀ s, inv s → ¬ final s → ∃ a s', work a = true ∧ S.step a s = some s') {s : σ}
    (hInv : inv s) : ∃ t s', S.run t s = some s' ∧ final s' ∧ ∀ a ∈ t, work a = true := by
  induction hm : measure s using Nat.strongRecOn generalizing s with
  | ind m ih =>
    subst hm
    by_cases hFinal : final s
    · exact ⟨[], s, rfl, hFinal, by simp⟩
    · obtain ⟨a, s', hWorks, hs⟩ := hMoves s hInv hFinal
      obtain ⟨t, e, hRun, hEnd, hAll⟩ :=
        ih _ (hWork a s s' hInv hWorks hs) (hStep a s s' hInv hs) rfl
      refine ⟨a :: t, e, run_cons_eq_some.mpr ⟨s', hs, hRun⟩, hEnd, ?_⟩
      intro b hb
      rcases List.mem_cons.mp hb with rfl | hb
      · exact hWorks
      · exact hAll b hb

end Measure

end System

/-! ## Thread pools -/

/-- The thread that moves stands between the others, which stay. -/
theorem set_split {β : Type} {l : List β} {w : Nat} {x : β} (h : l[w]? = some x) :
    ∃ l₁ l₂, l = l₁ ++ x :: l₂ ∧ ∀ y, l.set w y = l₁ ++ y :: l₂ := by
  obtain ⟨hw, hx⟩ := List.getElem?_eq_some_iff.mp h
  have hSet : ∀ y, l.set w y = l.take w ++ y :: l.drop (w + 1) := fun y => by
    rw [List.set_eq_take_append_cons_drop, if_pos hw]
  refine ⟨l.take w, l.drop (w + 1), ?_, hSet⟩
  rw [← hSet, ← hx, List.set_getElem_self]

/-- When one thread of a pool moves, the number of threads at a point changes by
that thread. -/
theorem count_set_add {β : Type} [DecidableEq β] {l : List β} {w : Nat} {x : β}
    (h : l[w]? = some x) (y z : β) :
    (l.set w y).count z + (if x = z then 1 else 0) = l.count z + (if y = z then 1 else 0) := by
  obtain ⟨l₁, l₂, rfl, hSet⟩ := set_split h
  simp only [hSet, List.count_append, List.count_cons, beq_iff_eq]
  omega

/-- So does the sum of a weight. -/
theorem sum_set_add {β : Type} {l : List β} {w : Nat} {x : β} (h : l[w]? = some x) (f : β → Nat)
    (y : β) : ((l.set w y).map f).sum + f x = (l.map f).sum + f y := by
  obtain ⟨l₁, l₂, rfl, hSet⟩ := set_split h
  simp only [hSet, List.map_append, List.map_cons, List.sum_append, List.sum_cons]
  omega

/-- Whether some thread has a property changes by that thread. -/
theorem exists_set_or {β : Type} {l : List β} {w : Nat} {x : β} (h : l[w]? = some x)
    (P : β → Prop) (y : β) : (∃ z ∈ l.set w y, P z) ∨ P x ↔ (∃ z ∈ l, P z) ∨ P y := by
  obtain ⟨l₁, l₂, rfl, hSet⟩ := set_split h
  simp only [hSet, List.mem_append, List.mem_cons, or_and_right, exists_or, exists_eq_left]
  grind

end L2State.Lib
