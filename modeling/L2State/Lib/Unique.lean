import L2State.Lib.SortedMap

/-!
# L2State — telling duplicates with a bounded set

A writer that rejects an item it has written before. Its writes go through a
batch that is not visible in the store, so it keeps the marks of the items in
the batch; when the batch is flushed the set is cleared, and older items are
looked up in the store.

Whether a call flushes is an argument, so that the results hold for every
schedule of flushes.

* `Unique`, `Unique.add` — the writer and one call.
* `Unique.Tracks` — **the invariant**: the marks and the store together are
  the accepted items.
* `Tracks.addAll`, `Tracks.loop` — a sequence is accepted exactly if its items
  are new and pairwise different.
-/

namespace L2State.Lib

/-- Equivalent tests choose alike, whatever decides them. -/
theorem ite_of_iff {α : Type} {p q : Prop} {hp : Decidable p} {hq : Decidable q} (h : p ↔ q)
    (a b : α) : @ite α p hp a b = @ite α q hq a b := by
  by_cases hTest : p
  · rw [if_pos hTest, if_pos (h.mp hTest)]
  · rw [if_neg hTest, if_neg (mt h.mpr hTest)]

/-- One item with the writes it makes, and whether the call flushes. -/
structure Insertion (ι K V : Type) where
  item  : ι
  ops   : List (Op K V)
  flush : Bool

/-- The store, the batch, and the marks of the items in the batch. -/
structure Unique (M K V : Type) [LinearOrder K] where
  disk  : SortedMap K V
  batch : List (Op K V)
  marks : List M

namespace Unique

variable {ι M K V : Type} [LinearOrder K] {mark : ι → M} {key : ι → K}

/-- What the store holds after a flush. -/
def content (u : Unique M K V) : SortedMap K V := applyOps u.disk u.batch

/-- The writes of an item, after the two lookups. -/
def write (mark : ι → M) (u : Unique M K V) (s : Insertion ι K V) : Unique M K V :=
  if s.flush then ⟨applyOps u.disk (u.batch ++ s.ops), [], []⟩
  else ⟨u.disk, u.batch ++ s.ops, mark s.item :: u.marks⟩

/-- One call. -/
def add [DecidableEq M] (mark : ι → M) (key : ι → K) (u : Unique M K V) (s : Insertion ι K V) :
    Option (Unique M K V) :=
  if mark s.item ∈ u.marks ∨ (u.disk.get? (key s.item)).isSome then none
  else some (u.write mark s)

/-- A sequence of calls, up to the first that is rejected. -/
def addAll [DecidableEq M] (mark : ι → M) (key : ι → K) (u : Unique M K V)
    (ss : List (Insertion ι K V)) :
    Option (Unique M K V) := ss.foldlM (add mark key) u

/-- The writes store the item's key and no other item's. -/
def Marking (key : ι → K) (s : Insertion ι K V) : Prop :=
  ∀ (m : SortedMap K V) (i : ι),
    ((applyOps m s.ops).get? (key i)).isSome ↔ i = s.item ∨ (m.get? (key i)).isSome

/-- The items that the writer has accepted are those with a mark or a stored
key; once flushed, those with a stored key. -/
structure Tracks (mark : ι → M) (key : ι → K) (items : List ι) (u : Unique M K V) : Prop where
  own    : ∀ m ∈ u.marks, ∃ i ∈ items, mark i = m
  known  : ∀ i, mark i ∈ u.marks ∨ (u.disk.get? (key i)).isSome ↔ i ∈ items
  stored : ∀ i, (u.content.get? (key i)).isSome ↔ i ∈ items

theorem content_write (u : Unique M K V) (s : Insertion ι K V) :
    (u.write mark s).content = applyOps u.content s.ops := by
  unfold write
  split
  · exact applyOps_append _ _ _
  · exact applyOps_append _ _ _

theorem content_of_addAll [DecidableEq M] {u v : Unique M K V} {ss : List (Insertion ι K V)}
    (h : u.addAll mark key ss = some v) :
    v.content = applyOps u.content (ss.flatMap Insertion.ops) := by
  induction ss generalizing u with
  | nil =>
    obtain rfl := Option.some.inj h
    rfl
  | cons s ss ih =>
    obtain ⟨w, hAdd, hRest⟩ := Option.bind_eq_some_iff.mp h
    unfold add at hAdd
    split at hAdd
    · cases hAdd
    · obtain rfl := Option.some.inj hAdd
      rw [ih hRest, content_write, List.flatMap_cons, ← applyOps_append]

theorem add_eq_ite [DecidableEq M] (u : Unique M K V) (s : Insertion ι K V) :
    u.add mark key s =
      if mark s.item ∉ u.marks ∧ u.disk.get? (key s.item) = none then some (u.write mark s)
      else none := by
  unfold add
  by_cases hMark : mark s.item ∈ u.marks
  · simp [hMark]
  · by_cases hKey : u.disk.get? (key s.item) = none
    · simp [hMark, hKey]
    · simp [hMark, hKey, Option.isSome_iff_ne_none]

/-- A loop whose body is `add` on a view of its state is `addAll`. -/
theorem addAll_of_view [DecidableEq M] {σ α ε : Type} {step : σ → α → Except ε σ}
    {view : σ → Unique M K V} {insertion : α → Insertion ι K V}
    (hStep : ∀ s a, (step s a).toOption.map view = (view s).add mark key (insertion a))
    (s : σ) (xs : List α) :
    (xs.foldlM step s).toOption.map view = (view s).addAll mark key (xs.map insertion) := by
  induction xs generalizing s with
  | nil => rfl
  | cons a xs ih =>
    rw [List.map_cons, addAll, List.foldlM_cons, List.foldlM_cons, ← hStep s a]
    cases step s a with
    | error e => rfl
    | ok s' => exact ih s'

namespace Tracks

variable {items : List ι} {u v : Unique M K V}

/-- **A call is accepted exactly if the item is new.** -/
theorem add_eq_some_iff [DecidableEq M] (h : Tracks mark key items u) (s : Insertion ι K V) :
    u.add mark key s = some v ↔ s.item ∉ items ∧ v = u.write mark s := by
  unfold add
  by_cases hOld : s.item ∈ items
  · rw [if_pos ((h.known s.item).mpr hOld)]
    simp [hOld]
  · rw [if_neg (mt (h.known s.item).mp hOld)]
    simp [hOld, eq_comm]

/-- One accepted call. -/
theorem write (h : Tracks mark key items u) (hMark : Function.Injective mark)
    {s : Insertion ι K V} (hMarking : Marking key s) :
    Tracks mark key (items ++ [s.item]) (u.write mark s) := by
  have hStored : ∀ i, ((applyOps u.content s.ops).get? (key i)).isSome ↔
      i ∈ items ++ [s.item] := by
    intro i
    rw [hMarking u.content i, h.stored i, List.mem_append, List.mem_singleton, or_comm]
  refine ⟨fun m hm => ?_, fun i => ?_, fun i => by rw [content_write]; exact hStored i⟩
  · unfold Unique.write at hm
    split at hm
    · cases hm
    · rcases List.mem_cons.mp hm with rfl | hm
      · exact ⟨s.item, by simp, rfl⟩
      · obtain ⟨i, hi, rfl⟩ := h.own m hm
        exact ⟨i, List.mem_append_left _ hi, rfl⟩
  unfold Unique.write
  split
  · -- the flush moves every item to the store
    rw [← hStored i, Unique.content, ← applyOps_append]
    simp
  · rw [List.mem_cons, hMark.eq_iff, or_assoc, h.known i, List.mem_append, List.mem_singleton,
      or_comm]

/-- **A sequence is accepted exactly if its items are new and pairwise
different**, and the writer then tracks them all. -/
theorem addAll [DecidableEq M] (h : Tracks mark key items u) (hMark : Function.Injective mark)
    {ss : List (Insertion ι K V)} (hMarking : ∀ s ∈ ss, Marking key s) :
    ((∃ v, u.addAll mark key ss = some v) ↔
      (ss.map Insertion.item).Nodup ∧ ∀ s ∈ ss, s.item ∉ items) ∧
    ∀ v, u.addAll mark key ss = some v → Tracks mark key (items ++ ss.map Insertion.item) v := by
  -- by induction on the calls: each one is decided by the items before it
  induction ss generalizing items u with
  | nil =>
    refine ⟨by simp [Unique.addAll], fun v hv => ?_⟩
    obtain rfl := Option.some.inj hv
    simpa using h
  | cons s ss ih =>
    have hBind : ∀ v, u.addAll mark key (s :: ss) = some v ↔
        s.item ∉ items ∧ (u.write mark s).addAll mark key ss = some v := by
      intro v
      rw [Unique.addAll, List.foldlM_cons, Option.bind_eq_bind, Option.bind_eq_some_iff]
      simp only [h.add_eq_some_iff]
      constructor
      · rintro ⟨w, ⟨hNew, rfl⟩, hRest⟩
        exact ⟨hNew, hRest⟩
      · rintro ⟨hNew, hRest⟩
        exact ⟨_, ⟨hNew, rfl⟩, hRest⟩
    obtain ⟨hIff, hRun⟩ := ih (h.write hMark (hMarking s List.mem_cons_self))
      fun s' hs' => hMarking s' (List.mem_cons_of_mem _ hs')
    constructor
    · simp only [hBind, exists_and_left, hIff, List.map_cons, List.nodup_cons, List.mem_map,
        List.forall_mem_cons, List.mem_append, List.mem_singleton, not_or]
      constructor
      · rintro ⟨hNew, hNodup, hRest⟩
        exact ⟨⟨fun ⟨s', hs', hEq⟩ => (hRest s' hs').2 hEq, hNodup⟩, hNew,
          fun s' hs' => (hRest s' hs').1⟩
      · rintro ⟨⟨hFresh, hNodup⟩, hNew, hRest⟩
        exact ⟨hNew, hNodup, fun s' hs' => ⟨hRest s' hs', fun hEq => hFresh ⟨s', hs', hEq⟩⟩⟩
    · intro v hv
      have hTracks := hRun v ((hBind v).mp hv).2
      rwa [List.append_assoc] at hTracks

/-- **A loop whose body is `add` on a view of its state**, from a writer that has accepted
nothing, succeeds exactly if the items are pairwise different, and then tracks them all. -/
theorem loop [DecidableEq M] {σ α ε : Type} {step : σ → α → Except ε σ} {view : σ → Unique M K V}
    {insertion : α → Insertion ι K V}
    (hStep : ∀ s a, (step s a).toOption.map view = (view s).add mark key (insertion a)) {s : σ}
    (h : Tracks mark key [] (view s)) (hMark : Function.Injective mark)
    (hMarking : ∀ a, Marking key (insertion a)) (xs : List α) :
    ((∃ s', xs.foldlM step s = .ok s') ↔ (xs.map fun a => (insertion a).item).Nodup) ∧
    ∀ s', xs.foldlM step s = .ok s' →
      Tracks mark key (xs.map fun a => (insertion a).item) (view s') ∧
        (view s').content = applyOps (view s).content (xs.flatMap fun a => (insertion a).ops) := by
  have hAll := addAll_of_view hStep s xs
  obtain ⟨hAccept, hRun⟩ := h.addAll hMark
    (List.forall_mem_map.mpr fun a (_ : a ∈ xs) => hMarking a)
  simp only [List.map_map, List.not_mem_nil, not_false_eq_true, implies_true, and_true,
    List.nil_append] at hAccept hRun
  rw [← hAll] at hAccept hRun
  cases hLoop : xs.foldlM step s with
  | error e =>
    rw [hLoop] at hAccept
    exact ⟨⟨nofun, fun hNodup => nomatch hAccept.mpr hNodup⟩, nofun⟩
  | ok s' =>
    rw [hLoop] at hAll hAccept hRun
    refine ⟨⟨fun _ => hAccept.mp ⟨_, rfl⟩, fun _ => ⟨_, rfl⟩⟩, ?_⟩
    rintro _ ⟨⟩
    exact ⟨hRun _ rfl, by rw [content_of_addAll hAll.symm, List.flatMap_map]⟩

end Tracks

end Unique

end L2State.Lib
