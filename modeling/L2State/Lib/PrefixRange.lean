import Mathlib.Data.List.Infix
import Mathlib.Data.List.Lex
import Mathlib.Order.Bounds.Basic
import Mathlib.Order.SuccPred.Basic
import Mathlib.Tactic

/-!
# L2State — the range of a prefix in the lexicographic order

The lists that begin with `p` are an interval of the lexicographic order. It
starts at `p`, and it ends before the list that is `p` with its last letter that
is not the greatest one raised by one and the rest cut off. When all letters of
`p` are the greatest one, the interval has no end.

The letters are any linear order with a greatest element in which every other
element has a successor.

* `prefixBound` — the end of the interval, if there is one.
* `lt_prefixBound_iff` — **what is below the end** is below `p` or begins with it.
* `isLeast_prefixBound`, `prefixBound_eq_none_iff` — it is the least upper bound,
  and it is missing only when there is none.
-/

namespace L2State.Lib

variable {α : Type*} [LinearOrder α]

/-- The list `u` is above every list that begins with `p`. -/
def AboveAll (p u : List α) : Prop := ∀ k, p <+: k → k < u

theorem self_le_append (p s : List α) : p ≤ p ++ s := by
  induction p with
  | nil => exact not_lt.mp (List.not_lt_nil _)
  | cons a p ih =>
    refine not_lt.mp fun hLt => ?_
    rw [List.cons_append, List.cons_lt_cons_iff] at hLt
    rcases hLt with hLt | ⟨-, hLt⟩
    · exact lt_irrefl a hLt
    · exact absurd hLt (not_lt.mpr ih)

variable [OrderTop α] [SuccOrder α]

/-- The least list above all lists that begin with `p`. -/
def prefixBound : List α → Option (List α)
  | [] => none
  | a :: p =>
    match prefixBound p with
    | some u => some (a :: u)
    | none => if a = ⊤ then none else some [Order.succ a]

variable {p u : List α}

theorem prefixBound_cons_of_some {a : α} (h : prefixBound p = some u) :
    prefixBound (a :: p) = some (a :: u) := by
  rw [prefixBound, h]

theorem prefixBound_cons_of_none {a : α} (h : prefixBound p = none) :
    prefixBound (a :: p) = if a = ⊤ then none else some [Order.succ a] := by
  rw [prefixBound, h]

/-- The bound only depends on the letters up to the last one that can be raised. -/
theorem prefixBound_concat (p : List α) (a : α) :
    prefixBound (p ++ [a]) = if a = ⊤ then prefixBound p else some (p ++ [Order.succ a]) := by
  induction p with
  | nil => rw [List.nil_append, prefixBound_cons_of_none rfl]; rfl
  | cons b p ih =>
    rw [List.cons_append]
    by_cases ha : a = ⊤
    · rw [if_pos ha] at ih ⊢
      rw [prefixBound, prefixBound, ih]
    · rw [if_neg ha] at ih ⊢
      exact prefixBound_cons_of_some ih

/-! ## Prefixes that have no bound -/

theorem prefixBound_eq_none_iff_forall : prefixBound p = none ↔ ∀ a ∈ p, a = ⊤ := by
  induction p with
  | nil => simp [prefixBound]
  | cons a p ih =>
    rw [List.forall_mem_cons, ← ih]
    cases hRest : prefixBound p with
    | some u =>
      rw [prefixBound_cons_of_some hRest]
      simp
    | none =>
      rw [prefixBound_cons_of_none hRest]
      simp

/-- The lists that begin with the greatest letters are the last ones. -/
theorem lt_or_prefix_of_none (h : prefixBound p = none) (k : List α) : k < p ∨ p <+: k := by
  rw [prefixBound_eq_none_iff_forall] at h
  induction p generalizing k with
  | nil => exact .inr List.nil_prefix
  | cons a p ih =>
    obtain ⟨rfl, hRest⟩ := List.forall_mem_cons.mp h
    cases k with
    | nil => exact .inl (List.nil_lt_cons _ _)
    | cons b k =>
      rw [List.cons_lt_cons_iff, List.cons_prefix_cons]
      rcases lt_or_eq_of_le (le_top (a := b)) with hLt | rfl
      · exact .inl (.inl hLt)
      · rcases ih hRest k with hLt | hPre
        · exact .inl (.inr ⟨rfl, hLt⟩)
        · exact .inr ⟨rfl, hPre⟩

/-! ## The bound -/

/-- **What is below the bound**: the lists below the prefix, and those that begin with
it. -/
theorem lt_prefixBound_iff (h : prefixBound p = some u) (k : List α) :
    k < u ↔ k < p ∨ p <+: k := by
  induction p generalizing u k with
  | nil => cases h
  | cons a p ih =>
    -- the empty list is below both
    cases k with
    | nil =>
      have hLow : ([] : List α) < a :: p := List.nil_lt_cons _ _
      refine ⟨fun _ => .inl hLow, fun _ => ?_⟩
      cases hRest : prefixBound p with
      | some v =>
        rw [prefixBound_cons_of_some hRest] at h
        exact Option.some.inj h ▸ List.nil_lt_cons _ _
      | none =>
        rw [prefixBound_cons_of_none hRest] at h
        split at h
        · cases h
        · exact Option.some.inj h ▸ List.nil_lt_cons _ _
    | cons b k =>
      rw [List.cons_lt_cons_iff, List.cons_prefix_cons]
      cases hRest : prefixBound p with
      | some v =>
        rw [prefixBound_cons_of_some hRest] at h
        obtain rfl := Option.some.inj h
        rw [List.cons_lt_cons_iff, ih hRest, eq_comm (a := a)]
        tauto
      | none =>
        rw [prefixBound_cons_of_none hRest] at h
        split at h
        · cases h
        next hTop =>
          obtain rfl := Option.some.inj h
          have hMax : ¬ IsMax a := fun hMax => hTop hMax.eq_top
          rw [List.cons_lt_cons_iff, Order.lt_succ_iff_of_not_isMax hMax, le_iff_lt_or_eq]
          -- behind the letter `a` there are only greatest letters
          have hTail := lt_or_prefix_of_none hRest k
          have hNil := List.not_lt_nil k
          rw [eq_comm (a := a)]
          tauto

theorem aboveAll_prefixBound (h : prefixBound p = some u) : AboveAll p u :=
  fun k hPre => (lt_prefixBound_iff h k).mpr (.inr hPre)

/-- The bound is the least list above all those that begin with the prefix. -/
theorem isLeast_prefixBound (h : prefixBound p = some u) :
    IsLeast {u | AboveAll p u} u := by
  refine ⟨aboveAll_prefixBound h, fun v hAbove => le_of_not_gt fun hLt => ?_⟩
  rcases (lt_prefixBound_iff h v).mp hLt with hLow | hPre
  · exact lt_asymm hLow (hAbove p List.prefix_rfl)
  · exact lt_irrefl v (hAbove v hPre)

/-- **The bound is missing only when there is none.** -/
theorem prefixBound_eq_none_iff : prefixBound p = none ↔ ¬ ∃ u, AboveAll p u := by
  constructor
  · rintro h ⟨u, hAbove⟩
    rcases lt_or_prefix_of_none h u with hLow | hPre
    · exact lt_asymm hLow (hAbove p List.prefix_rfl)
    · exact lt_irrefl u (hAbove u hPre)
  · intro h
    cases hBound : prefixBound p with
    | none => rfl
    | some u => exact absurd ⟨u, aboveAll_prefixBound hBound⟩ h

theorem prefixBound_eq_some_iff :
    prefixBound p = some u ↔ IsLeast {u | AboveAll p u} u := by
  refine ⟨isLeast_prefixBound, fun hLeast => ?_⟩
  cases hBound : prefixBound p with
  | none => exact absurd ⟨u, hLeast.1⟩ (prefixBound_eq_none_iff.mp hBound)
  | some v => rw [(isLeast_prefixBound hBound).unique hLeast]

/-- The interval from `p ++ s` to the bound: what begins with `p` and is not below
`p ++ s`. -/
theorem between_iff (h : prefixBound p = some u) (s k : List α) :
    p ++ s ≤ k ∧ k < u ↔ p <+: k ∧ p ++ s ≤ k := by
  rw [lt_prefixBound_iff h, and_comm]
  refine and_congr_left fun hLow => ⟨fun hEither => hEither.resolve_left fun hLt => ?_, .inr⟩
  exact absurd ((self_le_append p s).trans hLow) (not_le.mpr hLt)

theorem above_iff (h : prefixBound p = none) (s k : List α) :
    p ++ s ≤ k ↔ p <+: k ∧ p ++ s ≤ k := by
  refine ⟨fun hLow => ⟨(lt_or_prefix_of_none h k).resolve_left fun hLt => ?_, hLow⟩, And.right⟩
  exact absurd ((self_le_append p s).trans hLow) (not_le.mpr hLt)

end L2State.Lib
