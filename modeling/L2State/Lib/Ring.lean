import Mathlib.Data.List.Nodup
import Mathlib.Data.List.Range
import Mathlib.Data.Nat.ModEq

/-!
# L2State — indices of a ring

The indices in use of a ring of `cap` cells, from the first one on, in the order
in which they were taken.

* `ring` — the indices, oldest first.
* `ring_succ`, `ring_cons` — a new cell is taken at the end, the oldest is given
  back at the front.
* `nodup_ring`, `next_notMem_ring` — no cell is used twice, and the next one is
  free while the ring is not full.
-/

namespace L2State.Lib

/-- The `n` indices from `first` on, in a ring of `cap` cells. -/
def ring (cap first n : Nat) : List Nat := (List.range n).map fun i => (first + i) % cap

@[simp] theorem ring_zero (cap first : Nat) : ring cap first 0 = [] := rfl

@[simp] theorem length_ring (cap first n : Nat) : (ring cap first n).length = n := by
  rw [ring, List.length_map, List.length_range]

theorem ring_succ (cap first n : Nat) :
    ring cap first (n + 1) = ring cap first n ++ [(first + n) % cap] := by
  rw [ring, List.range_succ, List.map_append]
  rfl

theorem ring_cons {cap first : Nat} (hFirst : first < cap) (n : Nat) :
    ring cap first (n + 1) = first :: ring cap ((first + 1) % cap) n := by
  rw [ring, List.range_succ_eq_map, List.map_cons, List.map_map, Nat.add_zero,
    Nat.mod_eq_of_lt hFirst]
  refine congrArg (first :: ·) (List.map_congr_left fun i _ => ?_)
  show (first + (i + 1)) % cap = ((first + 1) % cap + i) % cap
  rw [Nat.mod_add_mod, Nat.add_assoc, Nat.add_comm 1 i]

/-- Two offsets below the capacity are different cells. -/
theorem offset_injective {cap first i k : Nat} (hi : i < cap) (hk : k < cap)
    (h : (first + i) % cap = (first + k) % cap) : i = k := by
  have hMod : i % cap = k % cap := Nat.ModEq.add_left_cancel' first h
  rwa [Nat.mod_eq_of_lt hi, Nat.mod_eq_of_lt hk] at hMod

theorem nodup_ring {cap first n : Nat} (hn : n ≤ cap) : (ring cap first n).Nodup := by
  refine List.Nodup.map_on ?_ List.nodup_range
  intro i hi k hk h
  exact offset_injective ((List.mem_range.mp hi).trans_le hn) ((List.mem_range.mp hk).trans_le hn) h

theorem next_notMem_ring {cap first n : Nat} (hn : n < cap) :
    (first + n) % cap ∉ ring cap first n := by
  intro h
  have hNodup : (ring cap first (n + 1)).Nodup := nodup_ring (Nat.succ_le_of_lt hn)
  rw [ring_succ, List.nodup_append] at hNodup
  exact hNodup.2.2 _ h _ (by simp) rfl

end L2State.Lib
