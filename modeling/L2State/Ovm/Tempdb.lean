import L2State.Lib.PrefixRange
import L2State.Ovm.Storage
import Mathlib.Data.List.DropRight
import Mathlib.Data.List.GetD

/-!
# L2State — iterators of the temporary database

`memoryPebble.NewIterator` of `tempdb_pebble.go` and `prefixLimit` of
`dbkeys.go`. An iterator over a prefix is an iterator over a half-open range of
keys, whose end is the prefix raised by one at its last byte that is not `0xff`.

* `prefixLimit` — the loop of `dbkeys.go`.
* `IterOptions.ofPrefix` — the range of an iterator.
* `prefixBounds_exact` — **the range has exactly the keys under the prefix**.
-/

namespace L2State

open Lib

/-! ## The code -/

/-- The loop of `prefixLimit`, with `i` bytes left to look at. -/
def prefixLimitLoop (limit : Bytes) : Nat → Option Bytes
  | 0 => none
  | i + 1 =>
    if limit.getD i 0 ≠ 0xff then some ((limit.set i (limit.getD i 0 + 1)).take (i + 1))
    else prefixLimitLoop limit i

/-- `prefixLimit`; `none` is the nil slice. -/
def prefixLimit (pre : Bytes) : Option Bytes := prefixLimitLoop pre pre.length

/-- `pebble.IterOptions`: the bounds of an iterator, where the upper one may be
missing. -/
structure IterOptions where
  lowerBound : Bytes
  upperBound : Option Bytes

namespace IterOptions

/-- The keys that an iterator with these options passes. -/
def contains (o : IterOptions) (k : Bytes) : Bool :=
  o.lowerBound ≤ k ∧ ∀ u ∈ o.upperBound, k < u

/-- The upper bound of `NewIterator`: trailing `0xff` bytes are cut off, and the last
byte of what is left is raised. -/
def upperOf (pre : Bytes) : Option Bytes :=
  let upper := pre.rdropWhile fun b => b = 255
  if 0 < upper.length then
    some (upper.set (upper.length - 1) (upper.getD (upper.length - 1) 0 + 1))
  else none

/-- The options of `NewIterator`. -/
def ofPrefix (pre start : Bytes) : IterOptions where
  lowerBound := pre ++ start
  upperBound := upperOf pre

end IterOptions

/-! ## Both loops raise the prefix -/

theorem top_byte : (⊤ : Byte) = 255 := rfl

theorem succ_byte {b : Byte} (h : b ≠ ⊤) : Order.succ b = b + 1 := by
  revert b
  decide +kernel

theorem prefixLimitLoop_eq (limit : Bytes) {i : Nat} (hi : i ≤ limit.length) :
    prefixLimitLoop limit i = prefixBound (limit.take i) := by
  induction i with
  | zero => rfl
  | succ i ih =>
    have hLt : i < limit.length := hi
    have hTake : limit.take (i + 1) = limit.take i ++ [limit[i]] := by
      rw [List.take_succ_eq_append_getElem hLt]
    have hGet : limit.getD i 0 = limit[i] := List.getD_eq_getElem _ _ hLt
    rw [prefixLimitLoop, hTake, prefixBound_concat, hGet, ← top_byte, ite_not]
    split
    · exact ih (Nat.le_of_succ_le hi)
    next hRaise =>
      rw [succ_byte hRaise, List.take_set, hTake, List.set_append_right _ _ (by simp)]
      simp [Nat.min_eq_left hLt.le]

theorem prefixLimit_eq (pre : Bytes) : prefixLimit pre = prefixBound pre := by
  rw [prefixLimit, prefixLimitLoop_eq pre le_rfl, List.take_length]

theorem IterOptions.upperOf_eq (pre : Bytes) : IterOptions.upperOf pre = prefixBound pre := by
  induction pre using List.reverseRecOn with
  | nil => rfl
  | append_singleton p b ih =>
    rw [prefixBound_concat, ← ih]
    by_cases hTop : b = ⊤
    · rw [if_pos hTop, upperOf, upperOf, List.rdropWhile_concat_pos _ _ _
        (by simpa [top_byte] using hTop)]
    · rw [if_neg hTop, upperOf, List.rdropWhile_concat_neg _ _ _ (by simpa [top_byte] using hTop),
        succ_byte hTop]
      simp

/-! ## The range -/

theorem IterOptions.contains_ofPrefix_iff (pre start k : Bytes) :
    (IterOptions.ofPrefix pre start).contains k = true ↔ pre <+: k ∧ pre ++ start ≤ k := by
  simp only [contains, ofPrefix, upperOf_eq, decide_eq_true_eq]
  cases hBound : prefixBound pre with
  | none => simpa using above_iff hBound start k
  | some u => simpa using between_iff hBound start k

/-- **Prefix iteration bounds are exact.** The range of an iterator has exactly the keys
that begin with the prefix and are not below `pre ++ start`. It has no end just when the
prefix has no byte that can be raised. And `prefixLimit` is the least key above all keys
with the prefix, or missing when there is no such key. -/
theorem prefixBounds_exact (pre start : Bytes) :
    (∀ k, (IterOptions.ofPrefix pre start).contains k = true ↔ pre <+: k ∧ pre ++ start ≤ k) ∧
      ((IterOptions.ofPrefix pre start).upperBound = none ↔ ∀ b ∈ pre, b = 0xff) ∧
      (∀ limit, prefixLimit pre = some limit ↔ IsLeast {u | ∀ k, pre <+: k → k < u} limit) ∧
      (prefixLimit pre = none ↔ ¬ ∃ u, ∀ k, pre <+: k → k < u) := by
  refine ⟨IterOptions.contains_ofPrefix_iff pre start, ?_, fun limit => ?_, ?_⟩
  · show IterOptions.upperOf pre = none ↔ _
    rw [IterOptions.upperOf_eq]
    exact prefixBound_eq_none_iff_forall
  · rw [prefixLimit_eq]
    exact prefixBound_eq_some_iff
  · rw [prefixLimit_eq]
    exact prefixBound_eq_none_iff

example : IterOptions.upperOf [7, 255, 255] = some [8] ∧ IterOptions.upperOf [255, 255] = none := by
  decide

end L2State
