import Mathlib.Data.List.Induction
import Mathlib.Data.List.Lex
import Mathlib.Data.List.Pairwise
import Mathlib.Data.List.Perm.Basic
import Mathlib.Tactic

/-!
# L2State — ordered finite maps and operation logs

A key-value store that is iterated in key order, and the batches written to
it. Nothing here knows about the migration tool: `K` is any linear order and
`V` any type.

* `SortedMap K V` — an association list whose keys strictly increase; the
  order is a field, so a store with a repeated key cannot be built.
* `get?`, `insert`, `erase`, `filterKeys` — the usual operations, each with
  the lookup equation that later proofs use instead of its definition.
* `SortedMap.ext_get?` — two stores with the same lookups are equal.
* `Op`, `applyOps` — puts and deletes; the value of a key after a log is the
  last operation on that key (`get?_applyOps`).
-/

namespace L2State.Lib

/-- A finite map kept as a list with strictly increasing keys. -/
structure SortedMap (K V : Type*) [LinearOrder K] where
  entries : List (K × V)
  sorted  : entries.Pairwise fun a b => a.1 < b.1

namespace SortedMap

variable {K V : Type*} [LinearOrder K]

variable {m : SortedMap K V}

@[ext] theorem ext {m' : SortedMap K V} (h : m.entries = m'.entries) : m = m' := by
  cases m
  cases m'
  congr

instance [DecidableEq V] : DecidableEq (SortedMap K V) := fun m m' =>
  decidable_of_iff (m.entries = m'.entries) ⟨ext, fun h => h ▸ rfl⟩

/-- The empty map. -/
def empty : SortedMap K V := ⟨[], List.Pairwise.nil⟩

instance : Inhabited (SortedMap K V) := ⟨empty⟩

/-- The value stored under a key. -/
def get? (m : SortedMap K V) (k : K) : Option V :=
  (m.entries.find? fun e => e.1 = k).map Prod.snd

/-- The keys in iteration order. -/
def keys (m : SortedMap K V) : List K := m.entries.map Prod.fst

@[simp] theorem entries_empty : (empty : SortedMap K V).entries = [] := rfl

@[simp] theorem get?_empty (k : K) : (empty : SortedMap K V).get? k = none := rfl

/-! ## Lookup and membership -/

/-- Two entries of one map with the same key are the same entry. -/
theorem eq_of_mem_of_fst_eq {a b : K × V} (ha : a ∈ m.entries) (hb : b ∈ m.entries)
    (hk : a.1 = b.1) : a = b := by
  have hnodup : (m.entries.map Prod.fst).Nodup :=
    List.pairwise_map.mpr (m.sorted.imp fun h => ne_of_lt h)
  exact List.inj_on_of_nodup_map hnodup ha hb hk

theorem get?_eq_some_iff {k : K} {v : V} :
    m.get? k = some v ↔ (k, v) ∈ m.entries := by
  constructor
  · intro h
    rw [get?, Option.map_eq_some_iff] at h
    obtain ⟨e, he, rfl⟩ := h
    have hmem := List.mem_of_find?_eq_some he
    have hkey := List.find?_some he
    simp only [decide_eq_true_eq] at hkey
    rw [← hkey]
    exact hmem
  · intro h
    cases hf : m.entries.find? fun e => e.1 = k with
    | none =>
      rw [List.find?_eq_none] at hf
      exact absurd (decide_eq_true rfl) (hf (k, v) h)
    | some e =>
      have hmem := List.mem_of_find?_eq_some hf
      have hkey := List.find?_some hf
      simp only [decide_eq_true_eq] at hkey
      have : e = (k, v) := eq_of_mem_of_fst_eq hmem h hkey
      simp [get?, hf, this]

theorem get?_eq_none_iff {k : K} :
    m.get? k = none ↔ ∀ v, (k, v) ∉ m.entries := by
  constructor
  · intro h v hmem
    rw [get?_eq_some_iff.mpr hmem] at h
    cases h
  · intro h
    cases hg : m.get? k with
    | none => rfl
    | some v => exact absurd (get?_eq_some_iff.mp hg) (h v)

theorem mem_keys_iff {k : K} :
    k ∈ m.keys ↔ (m.get? k).isSome := by
  rw [keys, List.mem_map, Option.isSome_iff_exists]
  constructor
  · rintro ⟨⟨k', v⟩, hmem, rfl⟩
    exact ⟨v, get?_eq_some_iff.mpr hmem⟩
  · rintro ⟨v, hv⟩
    exact ⟨(k, v), get?_eq_some_iff.mp hv, rfl⟩

theorem keys_pairwise (m : SortedMap K V) : m.keys.Pairwise (· < ·) :=
  List.pairwise_map.mpr m.sorted

theorem nodup_keys (m : SortedMap K V) : m.keys.Nodup :=
  m.keys_pairwise.imp fun h => ne_of_lt h

theorem nodup_entries (m : SortedMap K V) : m.entries.Nodup :=
  List.Nodup.of_map Prod.fst m.nodup_keys

/-- A map is determined by its lookups. -/
theorem ext_get? {m' : SortedMap K V} (h : ∀ k, m.get? k = m'.get? k) : m = m' := by
  apply ext
  have hmem : ∀ e, e ∈ m.entries ↔ e ∈ m'.entries := by
    rintro ⟨k, v⟩
    rw [← get?_eq_some_iff, ← get?_eq_some_iff, h]
  have hperm : m.entries.Perm m'.entries :=
    (List.perm_ext_iff_of_nodup m.nodup_entries m'.nodup_entries).mpr hmem
  refine List.Perm.eq_of_pairwise ?_ m.sorted m'.sorted hperm
  intro a b _ _ hab hba
  exact absurd hab (lt_asymm hba)

/-! ## Insertion and deletion -/

/-- Insert into a list ordered by key, replacing an entry with the same key. -/
def insertEntry (k : K) (v : V) : List (K × V) → List (K × V)
  | [] => [(k, v)]
  | e :: es =>
    if k < e.1 then (k, v) :: e :: es
    else if k = e.1 then (k, v) :: es
    else e :: insertEntry k v es

theorem fst_mem_insertEntry {k : K} {v : V} {l : List (K × V)} {e : K × V}
    (h : e ∈ insertEntry k v l) : e.1 = k ∨ e ∈ l := by
  induction l with
  | nil =>
    left
    simp only [insertEntry, List.mem_singleton] at h
    rw [h]
  | cons x xs ih =>
    rw [insertEntry] at h
    split_ifs at h with h1 h2
    · rcases List.mem_cons.mp h with rfl | h
      · exact Or.inl rfl
      · exact Or.inr h
    · rcases List.mem_cons.mp h with rfl | h
      · exact Or.inl rfl
      · exact Or.inr (List.mem_cons_of_mem _ h)
    · rcases List.mem_cons.mp h with rfl | h
      · exact Or.inr (List.mem_cons_self ..)
      · exact (ih h).imp id (List.mem_cons_of_mem _)

theorem pairwise_insertEntry {k : K} {v : V} {l : List (K × V)}
    (h : l.Pairwise fun a b => a.1 < b.1) :
    (insertEntry k v l).Pairwise fun a b => a.1 < b.1 := by
  induction l with
  | nil => simp [insertEntry]
  | cons x xs ih =>
    obtain ⟨hx, hxs⟩ := List.pairwise_cons.mp h
    rw [insertEntry]
    split_ifs with h1 h2
    · refine List.pairwise_cons.mpr ⟨?_, h⟩
      intro e he
      rcases List.mem_cons.mp he with rfl | he
      · exact h1
      · exact h1.trans (hx e he)
    · exact List.pairwise_cons.mpr ⟨fun e he => h2 ▸ hx e he, hxs⟩
    · refine List.pairwise_cons.mpr ⟨?_, ih hxs⟩
      intro e he
      rcases fst_mem_insertEntry he with hek | he
      · rw [hek]
        exact lt_of_le_of_ne (not_lt.mp h1) (Ne.symm h2)
      · exact hx e he

/-- An insertion changes the value of its key only. -/
theorem find?_insertEntry (k : K) (v : V) (l : List (K × V)) (q : K) :
    ((insertEntry k v l).find? fun e => e.1 = q).map Prod.snd =
      if q = k then some v else (l.find? fun e => e.1 = q).map Prod.snd := by
  induction l with
  | nil =>
    by_cases hq : q = k
    · simp [insertEntry, hq]
    · simp [insertEntry, hq, Ne.symm hq]
  | cons x xs ih =>
    rw [insertEntry]
    by_cases hq : q = k
    · subst hq
      rw [if_pos rfl] at ih ⊢
      split_ifs with h1 h2
      · simp
      · simp
      · have hx : x.1 ≠ q := fun h => h2 h.symm
        rw [List.find?_cons_of_neg (by simpa using hx)]
        exact ih
    · rw [if_neg hq] at ih ⊢
      split_ifs with h1 h2
      · rw [List.find?_cons_of_neg (by simpa using Ne.symm hq)]
      · have hx : x.1 ≠ q := fun h => hq (h ▸ h2.symm)
        rw [List.find?_cons_of_neg (by simpa using Ne.symm hq),
          List.find?_cons_of_neg (by simpa using hx)]
      · by_cases hx : x.1 = q
        · rw [List.find?_cons_of_pos (by simpa using hx), List.find?_cons_of_pos
            (by simpa using hx)]
        · rw [List.find?_cons_of_neg (by simpa using hx), List.find?_cons_of_neg
            (by simpa using hx)]
          exact ih

/-- Store a value under a key. -/
def insert (m : SortedMap K V) (k : K) (v : V) : SortedMap K V :=
  ⟨insertEntry k v m.entries, pairwise_insertEntry m.sorted⟩

/-- Keep the entries whose key satisfies a test. -/
def filterKeys (m : SortedMap K V) (p : K → Bool) : SortedMap K V :=
  ⟨m.entries.filter fun e => p e.1, m.sorted.filter _⟩

/-- Remove a key. -/
def erase (m : SortedMap K V) (k : K) : SortedMap K V :=
  m.filterKeys fun k' => k' ≠ k

theorem get?_insert (m : SortedMap K V) (k : K) (v : V) (q : K) :
    (m.insert k v).get? q = if q = k then some v else m.get? q :=
  find?_insertEntry k v m.entries q

theorem get?_filterKeys (m : SortedMap K V) (p : K → Bool) (q : K) :
    (m.filterKeys p).get? q = if p q then m.get? q else none := by
  cases hp : p q with
  | false =>
    simp only [Bool.false_eq_true, if_false]
    rw [get?_eq_none_iff]
    intro v hmem
    have := (List.mem_filter.mp hmem).2
    simp [hp] at this
  | true =>
    simp only [if_true]
    cases hm : m.get? q with
    | none =>
      rw [get?_eq_none_iff] at hm ⊢
      exact fun v hmem => hm v (List.mem_filter.mp hmem).1
    | some v =>
      rw [get?_eq_some_iff] at hm ⊢
      exact List.mem_filter.mpr ⟨hm, hp⟩

theorem get?_erase (m : SortedMap K V) (k q : K) :
    (m.erase k).get? q = if q = k then none else m.get? q := by
  rw [erase, get?_filterKeys]
  by_cases h : q = k <;> simp [h]

end SortedMap

-- ---------------------------------------------------------------------------
-- Operations and logs
-- ---------------------------------------------------------------------------

/-- One operation of a write batch. -/
inductive Op (K V : Type*) where
  | put (key : K) (value : V)
  | delete (key : K)
deriving DecidableEq

namespace Op

variable {K V : Type*}

/-- The key an operation touches. -/
def key : Op K V → K
  | .put k _ => k
  | .delete k => k

/-- The value the operation leaves under its key. -/
def result : Op K V → Option V
  | .put _ v => some v
  | .delete _ => none

@[simp] theorem key_put (k : K) (v : V) : (Op.put k v).key = k := rfl
@[simp] theorem key_delete (k : K) : (Op.delete k : Op K V).key = k := rfl
@[simp] theorem result_put (k : K) (v : V) : (Op.put k v).result = some v := rfl
@[simp] theorem result_delete (k : K) : (Op.delete k : Op K V).result = none := rfl

variable [LinearOrder K]

/-- Execute one operation. -/
def apply (m : SortedMap K V) : Op K V → SortedMap K V
  | .put k v => m.insert k v
  | .delete k => m.erase k

theorem get?_apply (m : SortedMap K V) (o : Op K V) (q : K) :
    (o.apply m).get? q = if q = o.key then o.result else m.get? q := by
  cases o with
  | put k v => exact SortedMap.get?_insert m k v q
  | delete k => exact SortedMap.get?_erase m k q

end Op

section Log

variable {K V : Type*} [LinearOrder K]

/-- Execute a log of operations, oldest first. -/
def applyOps (m : SortedMap K V) (ops : List (Op K V)) : SortedMap K V :=
  ops.foldl Op.apply m

@[simp] theorem applyOps_nil (m : SortedMap K V) : applyOps m [] = m := rfl

theorem applyOps_append (m : SortedMap K V) (a b : List (Op K V)) :
    applyOps m (a ++ b) = applyOps (applyOps m a) b :=
  List.foldl_append

/-- The last operation of a log on a key. -/
def lastOp (ops : List (Op K V)) (k : K) : Option (Op K V) :=
  ops.reverse.find? fun o => o.key = k

@[simp] theorem lastOp_nil (k : K) : lastOp ([] : List (Op K V)) k = none := rfl

theorem lastOp_concat (ops : List (Op K V)) (o : Op K V) (k : K) :
    lastOp (ops ++ [o]) k = if o.key = k then some o else lastOp ops k := by
  rw [lastOp, List.reverse_append]
  by_cases h : o.key = k <;> simp [h, lastOp]

variable {ops : List (Op K V)}

theorem lastOp_eq_none_iff {k : K} :
    lastOp ops k = none ↔ ∀ o ∈ ops, o.key ≠ k := by
  simp [lastOp, List.find?_eq_none]

theorem mem_of_lastOp {k : K} {o : Op K V} (h : lastOp ops k = some o) : o ∈ ops ∧ o.key = k := by
  refine ⟨List.mem_reverse.mp (List.mem_of_find?_eq_some h), ?_⟩
  simpa using List.find?_some h

/-- A key touched by a log has a last operation. -/
theorem exists_lastOp {o : Op K V} (h : o ∈ ops) :
    ∃ o', lastOp ops o.key = some o' := by
  cases hl : lastOp ops o.key with
  | none => exact absurd rfl (lastOp_eq_none_iff.mp hl o h)
  | some o' => exact ⟨o', rfl⟩

/-- The value of a key after a log is what the last operation on it left. -/
theorem get?_applyOps (m : SortedMap K V) (ops : List (Op K V)) (k : K) :
    (applyOps m ops).get? k =
      match lastOp ops k with
      | some o => o.result
      | none => m.get? k := by
  induction ops using List.reverseRecOn with
  | nil => rfl
  | append_singleton ops o ih =>
    rw [applyOps_append, lastOp_concat]
    show (o.apply (applyOps m ops)).get? k = _
    rw [Op.get?_apply]
    by_cases h : o.key = k
    · simp [h]
    · rw [if_neg (Ne.symm h), if_neg h, ih]

/-- A log of puts that never disagree leaves exactly the pairs it puts. -/
theorem get?_applyOps_of_puts {k : K} {v : V} (hput : ∀ o ∈ ops, o.key = k → o = .put k v)
    (hmem : .put k v ∈ ops) (m : SortedMap K V) : (applyOps m ops).get? k = some v := by
  rw [get?_applyOps]
  obtain ⟨o, ho⟩ := exists_lastOp hmem
  rw [Op.key_put] at ho
  obtain ⟨hoMem, hoKey⟩ := mem_of_lastOp ho
  rw [ho, hput o hoMem hoKey]
  rfl

/-- An entry after a log was put by it, or was there before. -/
theorem put_mem_of_get?_applyOps {m : SortedMap K V} {k : K} {v : V}
    (h : (applyOps m ops).get? k = some v) : .put k v ∈ ops ∨ m.get? k = some v := by
  rw [get?_applyOps] at h
  cases hLast : lastOp ops k with
  | none =>
    rw [hLast] at h
    exact .inr h
  | some o =>
    rw [hLast] at h
    obtain ⟨hMem, rfl⟩ := mem_of_lastOp hLast
    cases o with
    | put k' v' =>
      obtain rfl := Option.some.inj h
      exact .inl hMem
    | delete k' => cases h

/-- A key no operation touches keeps its value. -/
theorem get?_applyOps_of_untouched {k : K} (h : ∀ o ∈ ops, o.key ≠ k) (m : SortedMap K V) :
    (applyOps m ops).get? k = m.get? k := by
  rw [get?_applyOps, lastOp_eq_none_iff.mpr h]

end Log

end L2State.Lib
