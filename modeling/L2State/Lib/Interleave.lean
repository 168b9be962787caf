import Mathlib.Tactic

/-!
# L2State — interleavings of lists

What a set of threads does, in the order in which it happened, is an
interleaving of what each of them did. The lemmas here say what survives an
interleaving: membership, the order of each part, and filters.

* `Interleave a b c` — `c` is made of `a` and `b`, each in its own order.
* `Interleave.perm`, `Interleave.filterMap_right` — what an interleaving keeps.
-/

namespace L2State.Lib

universe u v

variable {α : Type u} {β : Type v}

/-- `c` is made of `a` and `b`, each in its own order. -/
inductive Interleave : List α → List α → List α → Prop
  | nil : Interleave [] [] []
  | left {a b c : List α} (x : α) : Interleave a b c → Interleave (x :: a) b (x :: c)
  | right {a b c : List α} (x : α) : Interleave a b c → Interleave a (x :: b) (x :: c)

namespace Interleave

variable {a b c a' b' c' : List α}

theorem symm (h : Interleave a b c) : Interleave b a c := by
  induction h with
  | nil => exact .nil
  | left x _ ih => exact .right x ih
  | right x _ ih => exact .left x ih

theorem refl_left (a : List α) : Interleave a [] a := by
  induction a with
  | nil => exact .nil
  | cons x a ih => exact .left x ih

theorem refl_right (b : List α) : Interleave [] b b := (refl_left b).symm

theorem append (h : Interleave a b c) (h' : Interleave a' b' c') :
    Interleave (a ++ a') (b ++ b') (c ++ c') := by
  induction h with
  | nil => exact h'
  | left x _ ih => exact .left x ih
  | right x _ ih => exact .right x ih

/-- Whatever comes before both parts belongs to either. -/
theorem append_left (pre : List α) (h : Interleave a b c) : Interleave (pre ++ a) b (pre ++ c) :=
  (refl_left pre).append h

theorem append_right (pre : List α) (h : Interleave a b c) : Interleave a (pre ++ b) (pre ++ c) :=
  (refl_right pre).append h

/-- One part after the other is an interleaving. -/
theorem concat (a b : List α) : Interleave a b (a ++ b) := by
  simpa using (refl_left a).append (refl_right b)

/-- What only one part shows, the interleaving shows in the same order. -/
theorem filterMap_right {β : Type*} {f : α → Option β} (h : Interleave a b c)
    (ha : ∀ x ∈ a, f x = none) : c.filterMap f = b.filterMap f := by
  induction h with
  | nil => rfl
  | left x _ ih =>
    rw [List.filterMap_cons_none (ha x List.mem_cons_self)]
    exact ih fun y hy => ha y (List.mem_cons_of_mem _ hy)
  | right x _ ih =>
    rw [List.filterMap_cons, List.filterMap_cons, ih ha]

theorem perm (h : Interleave a b c) : c.Perm (a ++ b) := by
  induction h with
  | nil => exact .nil
  | left x _ ih => exact ih.cons x
  | right x _ ih => exact (ih.cons x).trans List.perm_middle.symm

theorem mem_iff (h : Interleave a b c) {x : α} : x ∈ c ↔ x ∈ a ∨ x ∈ b := by
  rw [h.perm.mem_iff, List.mem_append]

theorem sublist_left (h : Interleave a b c) : a.Sublist c := by
  induction h with
  | nil => exact .slnil
  | left x _ ih => exact ih.cons_cons x
  | right x _ ih => exact ih.cons x

theorem sublist_right (h : Interleave a b c) : b.Sublist c := h.symm.sublist_left

end Interleave

end L2State.Lib
