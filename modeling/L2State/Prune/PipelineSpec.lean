import L2State.Prune.Pipeline

/-!
# L2State — the prune hash pipeline is an ordered bounded queue

The invariant of `Prune/Pipeline` and what follows from it for every schedule.

* `ScanInv` — **the invariant**: the ring and its byte count, the place of every
  pending record, the order of the records, and the records that failed.
* `ScanInv.step` — every move keeps it; one lemma for each kind of move.
* `scanWork`, `scan_moves` — every run ends, and no thread is stuck before the
  end.
-/

namespace L2State

open Lib

/-! ## The invariant -/

/-- What is left of the script after `drainOne`. -/
def AfterDrain.script : AfterDrain → Script
  | .push r todo => .ok r :: todo
  | .drain none => []
  | .drain (some (r, todo)) => .ok r :: todo

/-- What is left of the script, with the record of the call; nothing after an
error. -/
def MainPc.script : MainPc → Option Script
  | .idle todo => some todo
  | .wait r todo => some (.ok r :: todo)
  | .send _ todo => some todo
  | .drain next => some (AfterDrain.drain next).script
  | .receive _ k => some k.script
  | .check _ k => some k.script
  | .consume _ k => some k.script
  | .directClassify r todo => some (.ok r :: todo)
  | .directCheck r _ todo => some (.ok r :: todo)
  | .directConsume r _ todo => some (.ok r :: todo)
  | .finished => some []
  | .failed _ => none

/-- The slot holds the pushed record `r`, classified or not yet. -/
structure Content (c : ScanCalls) (slot : ScanSlot) (r : PruneRecord) : Prop where
  key     : slot.record.key = r.key
  value   : slot.record.value = r.value
  pushed  : slot.judged = false → slot.record.role = r.role ∧ slot.err = none
  verdict : slot.judged = true → ∃ ctx, c.classify ctx r = (slot.record.role, slot.err)

theorem Content.record_eq {c : ScanCalls} {slot : ScanSlot} {r : PruneRecord} (h : Content c slot r)
    (hFresh : slot.judged = false) : slot.record = r := by
  obtain ⟨⟨key, value, role⟩, err, done, index, judged⟩ := slot
  obtain ⟨hKey, hValue, hPushed, -⟩ := h
  cases r
  cases hKey
  cases hValue
  cases (hPushed hFresh).1
  rfl

/-- The consumed record `out` is the pushed record `r` with the role that its
classification gave it. -/
structure Final (c : ScanCalls) (r out : PruneRecord) : Prop where
  key   : out.key = r.key
  value : out.value = r.value
  role  : ∃ ctx, c.classify ctx r = (out.role, none)

/-- The wait loop of `push` is for records that fit. -/
def AfterDrain.Fits (e : PruneExecution) : AfterDrain → Prop
  | .push r _ => r.size ≤ e.scanBytes
  | .drain _ => True

/-- What the coordinator knows where it is. -/
def MainPc.At (e : PruneExecution) (c : ScanCalls) (s : ScanState) : MainPc → Prop
  | .wait r _ => r.size ≤ e.scanBytes
  | .receive j k => j = s.first ∧ 0 < s.pending ∧ k.Fits e
  | .check j k => j = s.first ∧ 0 < s.pending ∧ k.Fits e
  | .consume j k => j = s.first ∧ 0 < s.pending ∧ k.Fits e ∧ (s.slots j).err = none
  | .directClassify _ _ => s.pending = 0
  | .directCheck r role _ => s.pending = 0 ∧ ∃ ctx, c.classify ctx r = (role, none)
  | .directConsume r role _ => s.pending = 0 ∧ ∃ ctx, c.classify ctx r = (role, none)
  | .finished => s.pending = 0
  | _ => True

/-- The consumed records, the pending ones and the rest are the script. -/
structure Ordered (e : PruneExecution) (c : ScanCalls) (script : Script) (s : ScanState) :
    Prop where
  split : ∃ before rest, List.Forall₂ (Final c) before s.consumed ∧
    script = before.map .ok ++ rest ∧
    ∀ todo, s.pc.script = some todo → ∃ queued : List PruneRecord,
      List.Forall₂ (fun j r => Content c (s.slots j) r) (s.ring e) queued ∧
        rest = queued.map .ok ++ todo

/-- The records are numbered in the order of the pushes. -/
structure Numbered (e : PruneExecution) (s : ScanState) : Prop where
  ring : ∃ base, s.consumed.length ≤ base ∧ (s.pc.script ≠ none → base = s.consumed.length) ∧
    ((s.ring e).map fun j => (s.slots j).index) = (List.range' base s.pending).map some
  /-- A slot is given to another record when its own was consumed. -/
  free : s.pc.script ≠ none → ∀ j ∉ s.ring e, ∀ i, (s.slots j).index = some i →
    i < s.consumed.length
  /-- A record that failed is still pending, or the run has failed. -/
  failures : ∀ i ∈ s.failures, s.consumed.length ≤ i + 1 ∧
    (s.pc.script ≠ none → ∃ j ∈ s.ring e, (s.slots j).index = some i ∧ (s.slots j).judged = true ∧
      (s.slots j).err ≠ none)

private theorem forall₂_imp_mem {α β : Type} {R S : α → β → Prop} {xs : List α} {ys : List β}
    (hImp : ∀ x ∈ xs, ∀ y, R x y → S x y) (h : List.Forall₂ R xs ys) : List.Forall₂ S xs ys := by
  induction h with
  | nil => exact .nil
  | cons hHead _ ih =>
    exact .cons (hImp _ List.mem_cons_self _ hHead)
      (ih fun x hx => hImp x (List.mem_cons_of_mem _ hx))

/-- The invariant of the pipeline. -/
structure ScanInv (e : PruneExecution) (c : ScanCalls) (script : Script) (s : ScanState) :
    Prop where
  first_lt   : s.first < e.capacity
  pending_le : s.pending ≤ e.capacity
  workers    : s.workers.length = e.hashWorkers
  bytes_eq   : s.bytes = ((s.ring e).map fun j => (s.slots j).record.size).sum
  bytes_le   : s.bytes ≤ e.scanBytes
  tokens     : Tokens e s
  clear      : ∀ j ∉ s.ring e, (s.slots j).err = none
  place      : s.pc.At e c s
  ordered    : Ordered e c script s
  numbered   : Numbered e s

variable {k : AfterDrain} {j : Nat}

namespace ScanInv

variable {e : PruneExecution} {c : ScanCalls} {script : Script} {s s' : ScanState}

/-- The invariant holds at the start. -/
theorem init : ScanInv e c script (ScanState.init e script) where
  first_lt := e.capacity_pos
  pending_le := Nat.zero_le _
  workers := List.length_replicate ..
  bytes_eq := rfl
  bytes_le := Nat.zero_le _
  tokens := by
    constructor
    · intro j
      have hIdle : (List.replicate e.hashWorkers WorkerPc.idle).count (.classify j) = 0 := by
        simp [List.count_replicate]
      simp [ScanState.early, ScanState.init, ScanState.ring, MainPc.sends, hIdle]
    · intro j
      have hLatch : (List.replicate e.hashWorkers WorkerPc.idle).count (.latch j) = 0 := by
        simp [List.count_replicate]
      have hSend : (List.replicate e.hashWorkers WorkerPc.idle).count (.send j) = 0 := by
        simp [List.count_replicate]
      simp [ScanState.late, ScanState.init, ScanState.ring, MainPc.takes, hLatch, hSend,
        ScanSlot.fresh]
  clear _ _ := rfl
  place := trivial
  ordered := by
    refine ⟨[], script, .nil, rfl, ?_⟩
    intro todo hTodo
    cases hTodo
    exact ⟨[], .nil, rfl⟩
  numbered := by
    refine ⟨⟨0, Nat.le_refl _, fun _ => rfl, rfl⟩, ?_, by simp [ScanState.init]⟩
    intro _ j _ i hi
    exact absurd hi (by simp [ScanState.init, ScanSlot.fresh])

/-- The position of the coordinator is not touched by the workers. -/
theorem place_of_slots (h : ScanInv e c script s) (hPc : s'.pc = s.pc) (hFirst : s'.first = s.first)
    (hPending : s'.pending = s.pending)
    (hErr : ∀ j k, s.pc = .consume j k → (s'.slots j).err = (s.slots j).err) :
    s'.pc.At e c s' := by
  have := h.place
  rw [hPc]
  cases hAt : s.pc with
  | consume j k =>
    rw [hAt] at this
    simp only [MainPc.At, hFirst, hPending, hErr j k hAt] at this ⊢
    exact this
  | idle | send | drain | failed => trivial
  | wait | receive | check | directClassify | directCheck | directConsume | finished =>
    rw [hAt] at this
    simp only [MainPc.At, hFirst, hPending] at this ⊢
    exact this

/-- A move that changes the threads and the tokens only, and after which the
script is the same or the run has failed. -/
theorem frame (h : ScanInv e c script s) (hFirst : s'.first = s.first)
    (hPending : s'.pending = s.pending) (hBytes : s'.bytes = s.bytes)
    (hConsumed : s'.consumed = s.consumed) (hFailures : s'.failures = s.failures)
    (hWorkers : s'.workers.length = s.workers.length)
    (hSlots : ∀ j, { s'.slots j with done := (s.slots j).done } = s.slots j)
    (hScript : s'.pc.script = none ∨ s'.pc.script = s.pc.script) (hTokens : Tokens e s')
    (hPlace : s'.pc.At e c s') : ScanInv e c script s' := by
  have hRing : s'.ring e = s.ring e := by
    rw [ScanState.ring, ScanState.ring, hFirst, hPending]
  have hRecord : ∀ j, (s'.slots j).record = (s.slots j).record := fun j => by rw [← hSlots j]
  have hErr : ∀ j, (s'.slots j).err = (s.slots j).err := fun j => by rw [← hSlots j]
  have hIndex : ∀ j, (s'.slots j).index = (s.slots j).index := fun j => by rw [← hSlots j]
  have hJudged : ∀ j, (s'.slots j).judged = (s.slots j).judged := fun j => by rw [← hSlots j]
  have hLive : s'.pc.script ≠ none → s'.pc.script = s.pc.script := hScript.resolve_left
  refine
    { first_lt := by rw [hFirst]; exact h.first_lt
      pending_le := by rw [hPending]; exact h.pending_le
      workers := hWorkers.trans h.workers
      bytes_eq := ?_
      bytes_le := by rw [hBytes]; exact h.bytes_le
      tokens := hTokens
      clear := ?_
      place := hPlace
      ordered := ?_
      numbered := ?_ }
  · simp only [hBytes, hRing, hRecord]
    exact h.bytes_eq
  · simp only [hRing, hErr]
    exact h.clear
  · obtain ⟨before, rest, hFinal, hSplit, hTodo⟩ := h.ordered.split
    refine ⟨before, rest, by rw [hConsumed]; exact hFinal, hSplit, ?_⟩
    intro todo hSome
    obtain ⟨queued, hQueued, hRest⟩ := hTodo todo ((hLive (by simp [hSome])).symm.trans hSome)
    refine ⟨queued, ?_, hRest⟩
    rw [hRing]
    refine hQueued.imp fun j r hContent => ?_
    exact ⟨by rw [hRecord]; exact hContent.key, by rw [hRecord]; exact hContent.value,
      by rw [hRecord, hErr, hJudged]; exact hContent.pushed,
      by rw [hRecord, hErr, hJudged]; exact hContent.verdict⟩
  · obtain ⟨base, hBase, hEq, hMap⟩ := h.numbered.ring
    have hLive : s'.pc.script ≠ none → s.pc.script ≠ none := fun hs' => hLive hs' ▸ hs'
    refine ⟨⟨base, by rw [hConsumed]; exact hBase, fun hs' => ?_, ?_⟩, fun hs' => ?_,
      fun i hi => ?_⟩
    · rw [hConsumed]
      exact hEq (hLive hs')
    · simp only [hRing, hIndex, hPending]
      exact hMap
    · simp only [hRing, hConsumed, hIndex]
      exact h.numbered.free (hLive hs')
    · rw [hFailures] at hi
      simp only [hConsumed, hRing, hIndex, hJudged, hErr]
      exact ⟨(h.numbered.failures i hi).1, fun hs' => (h.numbered.failures i hi).2 (hLive hs')⟩

/-- A move of the coordinator that changes only its own position. -/
theorem goto (h : ScanInv e c script s) {pc₀ pc : MainPc} (hPc : s.pc = pc₀)
    (hSends : pc.sends = pc₀.sends) (hTakes : pc.takes = pc₀.takes)
    (hPlace : pc.At e c { s with pc := pc }) (hScript : pc.script = none ∨ pc.script = pc₀.script) :
    ScanInv e c script { s with pc := pc } := by
  subst hPc
  exact h.frame rfl rfl rfl rfl rfl rfl (fun _ => rfl) hScript (h.tokens.goto hSends hTakes) hPlace

theorem died (h : ScanInv e c script s) (err : Err) (hSends : s.pc.sends = [])
    (hTakes : s.pc.takes = []) : ScanInv e c script { s with pc := .failed err } :=
  h.goto rfl hSends.symm hTakes.symm trivial (.inl rfl)

theorem interrupt (h : ScanInv e c script s) (ctx parent failure : Option Err) :
    ScanInv e c script { s with ctx := ctx, parent := parent, failure := failure } :=
  h.frame rfl rfl rfl rfl rfl rfl (fun _ => rfl) (.inr rfl) ⟨h.tokens.early, h.tokens.late⟩
    (h.place_of_slots rfl rfl rfl fun _ _ _ => rfl)

/-- Once the run has failed, the record that failed is noted. -/
theorem noted (h : ScanInv e c script s) (hDead : s.pc.script = none) {i : Nat}
    (hLe : s.consumed.length ≤ i + 1) :
    ScanInv e c script { s with failures := s.failures ++ [i] } :=
  { h with
    tokens := ⟨h.tokens.early, h.tokens.late⟩
    place := h.place_of_slots rfl rfl rfl fun _ _ _ => rfl
    ordered := ⟨h.ordered.split⟩
    numbered := by
      refine ⟨h.numbered.ring, h.numbered.free, fun n hn => ⟨?_, fun hLive => absurd hDead hLive⟩⟩
      rcases List.mem_append.mp hn with hn | hn
      · exact (h.numbered.failures n hn).1
      · rw [List.mem_singleton.mp hn]
        exact hLe }

/-- The record is copied into the next slot. -/
theorem enqueue (h : ScanInv e c script s) {r : PruneRecord} {todo : Script}
    (hPc : s.pc = .wait r todo)
    (hRoom : ¬ (s.pending = e.capacity ∨ e.scanBytes < s.bytes + r.size)) :
    ScanInv e c script (s.enqueue e r todo) := by
  have hFull : s.pending < e.capacity := by
    have := h.pending_le
    omega
  have hNext : (s.first + s.pending) % e.capacity ∉ s.ring e := next_notMem_ring hFull
  have hRing : (s.enqueue e r todo).ring e =
      s.ring e ++ [(s.first + s.pending) % e.capacity] := ring_succ _ _ _
  have hNew : (s.enqueue e r todo).slots ((s.first + s.pending) % e.capacity) =
      { s.slots ((s.first + s.pending) % e.capacity) with
        record := r, index := some (s.consumed.length + s.pending), judged := false } :=
    Function.update_self ..
  have hOld : ∀ j ≠ (s.first + s.pending) % e.capacity,
      (s.enqueue e r todo).slots j = s.slots j := fun j hj => Function.update_of_ne hj ..
  have hOldRing : ∀ j ∈ s.ring e, (s.enqueue e r todo).slots j = s.slots j := fun j hj =>
    hOld j (ne_of_mem_of_not_mem hj hNext)
  refine
    { h with
      pending_le := hFull
      bytes_eq := ?_
      bytes_le := ?_
      tokens := h.tokens.enqueue hFull (by rw [hPc]; rfl) (by rw [hPc]; rfl)
      clear := ?_
      place := trivial
      ordered := ?_
      numbered := ?_ }
  · rw [hRing, List.map_append, List.sum_append, List.map_congr_left fun j hj =>
      congrArg (fun slot => slot.record.size) (hOldRing j hj), ← h.bytes_eq,
        List.map_singleton, hNew,
      List.sum_singleton]
    rfl
  · show s.bytes + r.size ≤ e.scanBytes
    omega
  · intro j hj
    rw [hRing, List.mem_append, List.mem_singleton, not_or] at hj
    rw [hOld j hj.2]
    exact h.clear j hj.1
  · -- the record of the call goes behind the queue
    obtain ⟨before, rest, hFinal, hSplit, hTodo⟩ := h.ordered.split
    refine ⟨before, rest, hFinal, hSplit, ?_⟩
    intro todo' hSome
    obtain rfl : todo = todo' := by simpa [ScanState.enqueue, MainPc.script] using hSome
    obtain ⟨queued, hQueued, rfl⟩ := hTodo (.ok r :: todo) (by rw [hPc]; rfl)
    refine ⟨queued ++ [r], ?_, by simp⟩
    rw [hRing]
    refine List.rel_append ?_ (.cons ?_ .nil)
    · refine forall₂_imp_mem ?_ hQueued
      intro j hj r' hContent
      rwa [hOldRing j hj]
    · rw [hNew]
      exact ⟨rfl, rfl, fun _ => ⟨rfl, h.clear _ hNext⟩, by rintro ⟨⟩⟩
  · obtain ⟨base, hBase, hEq, hMap⟩ := h.numbered.ring
    have hBase : base = s.consumed.length := hEq (by rw [hPc]; simp [MainPc.script])
    subst hBase
    refine ⟨⟨_, Nat.le_refl _, fun _ => rfl, ?_⟩, ?_, ?_⟩
    · rw [hRing, List.map_append, List.map_congr_left fun j hj =>
        congrArg ScanSlot.index (hOldRing j hj), hMap, List.map_singleton, hNew]
      show _ = (List.range' s.consumed.length (s.pending + 1)).map some
      rw [List.range'_1_concat, List.map_append]
      rfl
    · intro _ j hj i hi
      rw [hRing, List.mem_append, List.mem_singleton, not_or] at hj
      rw [hOld j hj.2] at hi
      exact h.numbered.free (by rw [hPc]; simp [MainPc.script]) j hj.1 i hi
    · intro i hi
      obtain ⟨hLe, hPending⟩ := h.numbered.failures i hi
      refine ⟨hLe, fun _ => ?_⟩
      obtain ⟨j, hj, hIndex⟩ := hPending (by rw [hPc]; simp [MainPc.script])
      refine ⟨j, by rw [hRing]; exact List.mem_append_left _ hj, ?_⟩
      rwa [hOldRing j hj]

/-- Only the channel of a slot changes. -/
private theorem setDone (slots : Nat → ScanSlot) (j : Nat) (done : Bool) (i : Nat) :
    { Function.update slots j { slots j with done := done } i with done := (slots i).done } =
      slots i := by
  by_cases hi : i = j
  · subst hi
    rw [Function.update_self]
  · rw [Function.update_of_ne hi]

theorem sent (h : ScanInv e c script s) {todo : Script} (hPc : s.pc = .send j todo) :
    ScanInv e c script { s with jobs := s.jobs ++ [j], pc := .idle todo } :=
  h.frame rfl rfl rfl rfl rfl rfl (fun _ => rfl) (.inr (by rw [hPc]; rfl)) (h.tokens.sent hPc)
    trivial

theorem received (h : ScanInv e c script s) (hPc : s.pc = .receive j k)
    (hDone : (s.slots j).done = true) :
    ScanInv e c script { s.setSlot j { s.slots j with done := false } with pc := .check j k } := by
  have hPlace := h.place
  rw [hPc] at hPlace
  exact h.frame rfl rfl rfl rfl rfl rfl (setDone s.slots j false) (.inr (by rw [hPc]; rfl))
    (h.tokens.received hPc hDone) hPlace

/-- The part of the invariant that does not speak of the script, after `drainOne`
has given the oldest slot back. -/
structure Released (e : PruneExecution) (s s' : ScanState) : Prop where
  first_lt   : s'.first < e.capacity
  pending    : s.pending = s'.pending + 1
  workers    : s'.workers = s.workers
  ring       : s.ring e = s.first :: s'.ring e
  notMem     : s.first ∉ s'.ring e
  slots      : ∀ j ≠ s.first, s'.slots j = s.slots j
  cleared    : (s'.slots s.first).err = none
  index      : (s'.slots s.first).index = (s.slots s.first).index
  bytes      : s.bytes = (s.slots s.first).record.size + s'.bytes

/-- `drainOne` gives the oldest slot back. -/
theorem released (h : ScanInv e c script s) (hPending : 0 < s.pending) (cs : List PruneRecord)
    (fs : List Nat) (k : AfterDrain) (err : Option Err) :
    Released e s (ScanState.release e { s with consumed := cs, failures := fs } s.first k err) := by
  obtain ⟨n, hn⟩ : ∃ n, s.pending = n + 1 := ⟨s.pending - 1, by omega⟩
  have hRing : s.ring e = s.first ::
      (ScanState.release e { s with consumed := cs, failures := fs } s.first k err).ring e := by
    simp only [ScanState.ring, ScanState.release, ScanState.setSlot, ScanState.fail, hn,
      Nat.add_sub_cancel]
    exact ring_cons h.first_lt n
  have hNodup : (s.ring e).Nodup := nodup_ring h.pending_le
  rw [hRing, List.nodup_cons] at hNodup
  have hSum := h.bytes_eq
  rw [hRing, List.map_cons, List.sum_cons] at hSum
  refine
    { first_lt := Nat.mod_lt _ e.capacity_pos
      pending := ?_
      workers := rfl
      ring := hRing
      notMem := hNodup.1
      slots := fun j hj => Function.update_of_ne hj ..
      cleared := ?_
      index := by simp [ScanState.release, ScanState.setSlot, ScanState.fail]
      bytes := ?_ }
  · show s.pending = s.pending - 1 + 1
    omega
  · simp [ScanState.release, ScanState.setSlot]
  · show s.bytes = (s.slots s.first).record.size + (s.bytes - (s.slots s.first).record.size)
    omega

/-- The invariant after `drainOne`, from its parts that speak of the script. -/
theorem of_released (h : ScanInv e c script s) (hRel : Released e s s') (hTokens : Tokens e s')
    (hPlace : s'.pc.At e c s') (hOrdered : Ordered e c script s') (hNumbered : Numbered e s') :
    ScanInv e c script s' := by
  have hOld : ∀ j ∈ s'.ring e, s'.slots j = s.slots j := fun j hj =>
    hRel.slots j (ne_of_mem_of_not_mem hj hRel.notMem)
  refine
    { first_lt := hRel.first_lt
      pending_le := ?_
      workers := by rw [hRel.workers]; exact h.workers
      bytes_eq := ?_
      bytes_le := ?_
      tokens := hTokens
      clear := ?_
      place := hPlace
      ordered := hOrdered
      numbered := hNumbered }
  · have := h.pending_le
    have := hRel.pending
    omega
  · have hSum := h.bytes_eq
    rw [hRel.ring, List.map_cons, List.sum_cons, hRel.bytes] at hSum
    rw [List.map_congr_left fun j hj => congrArg (fun slot => slot.record.size) (hOld j hj)]
    omega
  · have := h.bytes_le
    have := hRel.bytes
    omega
  · -- the slot that was given back, or one that was free before
    intro j hj
    by_cases hEq : j = s.first
    · subst hEq
      exact hRel.cleared
    · rw [hRel.slots j hEq]
      refine h.clear j ?_
      rw [hRel.ring, List.mem_cons, not_or]
      exact ⟨hEq, hj⟩

/-- The numbers of the pending records do not lie below the base. -/
theorem le_of_index {base i : Nat}
    (hMap : ((s.ring e).map fun j => (s.slots j).index) = (List.range' base s.pending).map some)
    (hj : j ∈ s.ring e) (hi : (s.slots j).index = some i) : base ≤ i := by
  have hMem : some i ∈ (s.ring e).map fun j => (s.slots j).index := by
    rw [← hi]
    exact List.mem_map_of_mem hj
  rw [hMap] at hMem
  obtain ⟨i', hi', hEq⟩ := List.mem_map.mp hMem
  cases hEq
  exact (List.mem_range'_1.mp hi').1

/-- The numbers after `drainOne`. -/
theorem index_released (hRel : Released e s s') {base : Nat}
    (hMap : ((s.ring e).map fun j => (s.slots j).index) = (List.range' base s.pending).map some) :
    (s.slots s.first).index = some base ∧
      ((s'.ring e).map fun j => (s'.slots j).index) =
        (List.range' (base + 1) s'.pending).map some := by
  rw [hRel.ring, hRel.pending, List.range'_succ, List.map_cons, List.map_cons,
    List.cons.injEq] at hMap
  refine ⟨hMap.1, ?_⟩
  rw [← hMap.2]
  exact List.map_congr_left fun j hj =>
    congrArg ScanSlot.index (hRel.slots j (ne_of_mem_of_not_mem hj hRel.notMem))

/-- `drainOne` fails before `consume`. -/
theorem refused (h : ScanInv e c script s) {err : Err} (hPc : s.pc = .check j k) :
    ScanInv e c script (s.release e j k (some err)) := by
  obtain ⟨rfl, hPending, -⟩ : j = s.first ∧ 0 < s.pending ∧ k.Fits e := by
    have := h.place
    rwa [hPc] at this
  have hRel := h.released hPending s.consumed s.failures k (some err)
  refine h.of_released hRel (h.tokens.release h.first_lt (by rw [hPc]; rfl) (by rw [hPc]; rfl) rfl
    hPending h.pending_le) trivial ?_ ?_
  · obtain ⟨before, rest, hFinal, hSplit, -⟩ := h.ordered.split
    exact ⟨before, rest, hFinal, hSplit, nofun⟩
  · obtain ⟨base, hBase, -, hMap⟩ := h.numbered.ring
    refine ⟨⟨base + 1, Nat.le_succ_of_le hBase, fun hNe =>
      absurd rfl hNe, (index_released hRel hMap).2⟩, fun hNe => absurd rfl hNe, ?_⟩
    intro i hi
    exact ⟨(h.numbered.failures i hi).1, fun hNe => absurd rfl hNe⟩

/-- `drainOne` hands the oldest record to `consume`, which accepts it. -/
theorem accepted (h : ScanInv e c script s) (hPc : s.pc = .consume j k) :
    ScanInv e c script ((s.hand (s.slots j).record none).release e j k none) := by
  obtain ⟨rfl, hPending, hFits, hErr⟩ :
      j = s.first ∧ 0 < s.pending ∧ k.Fits e ∧ (s.slots j).err = none := by
    have := h.place
    rwa [hPc] at this
  have hTakes : s.pc.takes = [s.first] := by rw [hPc]; rfl
  have hScript : s.pc.script = some k.script := by rw [hPc]; rfl
  have hLive : s.pc.script ≠ none := by rw [hScript]; simp
  have hJudged : (s.slots s.first).judged = true := by
    refine (h.tokens.mem_of_late ?_).2
    simp [ScanState.late, hTakes]
  have hRel : Released e s ((s.hand (s.slots s.first).record none).release e s.first k none) :=
    h.released hPending _ _ k none
  have hTokens : Tokens e ((s.hand (s.slots s.first).record none).release e s.first k none) :=
    Tokens.release (s := s.hand (s.slots s.first).record none) ⟨h.tokens.early, h.tokens.late⟩
      h.first_lt hTakes
      (by rw [show (s.hand (s.slots s.first).record none).pc = s.pc from rfl, hPc]; rfl)
        rfl hPending h.pending_le
  have hNext : ((s.hand (s.slots s.first).record none).release e s.first k none).pc.script =
      some k.script := by
    cases k <;> rfl
  refine h.of_released hRel hTokens ?_ ?_ ?_
  · cases k with
    | push r todo => exact hFits
    | drain next => trivial
  · obtain ⟨before, rest, hFinal, hSplit, hTodo⟩ := h.ordered.split
    obtain ⟨queued, hQueued, rfl⟩ := hTodo _ hScript
    rw [hRel.ring] at hQueued
    cases hQueued with
    | @cons _ r _ queued hHead hTail =>
      have hThis : Final c r (s.slots s.first).record := by
        obtain ⟨ctx, hCtx⟩ := hHead.verdict hJudged
        rw [hErr] at hCtx
        exact ⟨hHead.key, hHead.value, ctx, hCtx⟩
      refine ⟨before ++ [r], queued.map .ok ++ k.script, List.rel_append hFinal (.cons hThis .nil),
        ?_, fun todo hSome => ?_⟩
      · rw [hSplit, List.map_cons, List.map_append, List.append_assoc]
        rfl
      · obtain rfl := Option.some.inj (hNext.symm.trans hSome)
        refine ⟨queued, forall₂_imp_mem ?_ hTail, rfl⟩
        intro i hi r' hContent
        rwa [hRel.slots i (ne_of_mem_of_not_mem hi hRel.notMem)]
  · obtain ⟨base, -, hEq, hMap⟩ := h.numbered.ring
    obtain rfl : base = s.consumed.length := hEq hLive
    obtain ⟨hHead, hMap'⟩ := index_released hRel hMap
    have hLen : ((s.hand (s.slots s.first).record none).release e s.first k none).consumed.length =
        s.consumed.length + 1 := List.length_append
    refine ⟨⟨_, hLen.le, fun _ => hLen.symm, hMap'⟩, ?_, ?_⟩
    · -- the slot that is free now had the number of the consumed record
      intro _ i hi n hn
      rw [hLen]
      by_cases hFirst : i = s.first
      · subst hFirst
        rw [hRel.index, hHead] at hn
        cases hn
        exact Nat.lt_succ_self _
      · rw [hRel.slots i hFirst] at hn
        refine Nat.lt_succ_of_lt (h.numbered.free hLive i ?_ n hn)
        rw [hRel.ring, List.mem_cons, not_or]
        exact ⟨hFirst, hi⟩
    · -- the records that failed before are behind the one that is consumed
      intro i hi
      obtain ⟨j, hj, hIndex, hJ, hE⟩ := (h.numbered.failures i hi).2 hLive
      have hLe := le_of_index hMap hj hIndex
      have hNe : j ≠ s.first := by
        rintro rfl
        exact hE hErr
      rw [hRel.ring] at hj
      rw [hLen]
      refine ⟨by omega, fun _ => ⟨j, (List.mem_cons.mp hj).resolve_left hNe, ?_⟩⟩
      rw [hRel.slots j hNe]
      exact ⟨hIndex, hJ, hE⟩

/-- `drainOne` hands the oldest record to `consume`. If that fails, the run has
failed with the record behind all others. -/
theorem handed (h : ScanInv e c script s) {err : Option Err} (hPc : s.pc = .consume j k) :
    ScanInv e c script ((s.hand (s.slots j).record err).release e j k err) := by
  cases err with
  | none => exact h.accepted hPc
  | some err =>
    have hOk := (h.accepted hPc).interrupt (s.fail (some err)).ctx s.parent
      (s.fail (some err)).failure
    exact (hOk.died err (by cases k <;> rfl) (by cases k <;> rfl)).noted rfl List.length_append.le

/-- Before a direct record no record is pending, so none has failed. -/
theorem failures_nil (h : ScanInv e c script s) (hPending : s.pending = 0)
    (hLive : s.pc.script ≠ none) : s.failures = [] := by
  refine List.eq_nil_iff_forall_not_mem.mpr fun i hi => ?_
  obtain ⟨j, hj, -⟩ := (h.numbered.failures i hi).2 hLive
  rw [ScanState.ring, hPending] at hj
  exact absurd hj (by simp)

/-- `consumeDirect` hands its record to `consume`, which accepts it. -/
theorem directHanded (h : ScanInv e c script s) {r : PruneRecord} {role : PruneRole} {todo : Script}
    (hPc : s.pc = .directConsume r role todo) :
    ScanInv e c script { s.hand { r with role := role } none with pc := .idle todo } := by
  obtain ⟨hPending, hRole⟩ : s.pending = 0 ∧ ∃ ctx, c.classify ctx r = (role, none) := by
    have := h.place
    rwa [hPc] at this
  have hScript : s.pc.script = some (.ok r :: todo) := by rw [hPc]; rfl
  have hRing : s.ring e = [] := by rw [ScanState.ring, hPending, ring_zero]
  have hLive : s.pc.script ≠ none := by rw [hScript]; simp
  have hTokens : Tokens e { s with pc := .idle todo } :=
    h.tokens.goto (by rw [hPc]; rfl) (by rw [hPc]; rfl)
  have hLen : (s.consumed ++ [{ r with role := role }]).length = s.consumed.length + 1 :=
    List.length_append
  refine
    { h with
      tokens := ⟨hTokens.early, hTokens.late⟩
      place := trivial
      ordered := ?_
      numbered := ⟨⟨s.consumed.length + 1, hLen.le, fun _ => hLen.symm, ?_⟩, ?_, ?_⟩ }
  · obtain ⟨before, rest, hFinal, hSplit, hTodo⟩ := h.ordered.split
    obtain ⟨queued, hQueued, rfl⟩ := hTodo _ hScript
    rw [hRing] at hQueued
    cases hQueued
    refine ⟨before ++ [r], todo, List.rel_append hFinal (.cons ⟨rfl, rfl, hRole⟩ .nil), ?_, ?_⟩
    · rw [hSplit, List.map_append, List.append_assoc]
      rfl
    · rintro _ ⟨⟩
      refine ⟨[], ?_, rfl⟩
      show List.Forall₂ _ (s.ring e) []
      rw [hRing]
      exact .nil
  · show (s.ring e).map _ = (List.range' _ s.pending).map some
    rw [hRing, hPending]
    rfl
  · intro _ j hj i hi
    show i < (s.consumed ++ [{ r with role := role }]).length
    rw [hLen]
    exact Nat.lt_succ_of_lt (h.numbered.free hLive j hj i hi)
  · intro i (hi : i ∈ s.failures)
    rw [h.failures_nil hPending hLive] at hi
    cases hi

/-! ### Moves of the workers -/

variable {w j : Nat}

theorem taken (h : ScanInv e c script s) {jobs : List Nat} (hWorker : s.workers[w]? = some .idle)
    (hJobs : s.jobs = j :: jobs) :
    ScanInv e c script { s with jobs := jobs, workers := s.workers.set w (.classify j) } :=
  h.frame rfl rfl rfl rfl rfl (List.length_set ..) (fun _ => rfl) (.inr rfl)
    (h.tokens.taken hWorker hJobs) (h.place_of_slots rfl rfl rfl fun _ _ _ => rfl)

theorem latched (h : ScanInv e c script s) {err : Option Err}
    (hWorker : s.workers[w]? = some (.latch j)) :
    ScanInv e c script { s.fail err with workers := s.workers.set w (.send j) } :=
  h.frame rfl rfl rfl rfl rfl (List.length_set ..) (fun _ => rfl) (.inr rfl)
    (h.tokens.latched hWorker) (h.place_of_slots rfl rfl rfl fun _ _ _ => rfl)

theorem finished (h : ScanInv e c script s) (hWorker : s.workers[w]? = some (.send j)) :
    ScanInv e c script { s.setSlot j { s.slots j with done := true } with
      workers := s.workers.set w .idle } := by
  refine h.frame rfl rfl rfl rfl rfl (List.length_set ..) (setDone s.slots j true) (.inr rfl)
    (h.tokens.finished hWorker) (h.place_of_slots rfl rfl rfl fun i _ _ => ?_)
  have hErr := congrArg ScanSlot.err (setDone s.slots j true i)
  exact hErr

/-- A worker classifies the record of its slot. -/
theorem classified (h : ScanInv e c script s) (hWorker : s.workers[w]? = some (.classify j)) :
    ScanInv e c script
      { (s.setSlot j { s.slots j with
          record := { (s.slots j).record with role := (c.classify s.ctx (s.slots j).record).1 }
          err := (c.classify s.ctx (s.slots j).record).2
          judged := true }).note (s.slots j).index (c.classify s.ctx (s.slots j).record).2 with
        workers := s.workers.set w (.latch j) } := by
  obtain ⟨hMem, hOld⟩ := h.tokens.mem_of_early (Tokens.early_pos_of_classify hWorker)
  generalize hOut : c.classify s.ctx (s.slots j).record = out
  generalize hSlot : ({ s.slots j with
    record := { (s.slots j).record with role := out.1 }, err := out.2, judged :=
      true } : ScanSlot) = slot
  have hSame : Function.update s.slots j slot j = slot := Function.update_self ..
  have hOther : ∀ i, i ≠ j → Function.update s.slots j slot i = s.slots i := fun i hi =>
    Function.update_of_ne hi ..
  have hIndex : ∀ i, (Function.update s.slots j slot i).index = (s.slots i).index :=
    update_field _ (by rw [← hSlot])
  have hSize : ∀ i, (Function.update s.slots j slot i).record.size = (s.slots i).record.size :=
    update_field (fun slot => slot.record.size) (by rw [← hSlot]; rfl)
  refine
    { h with
      workers := (List.length_set ..).trans h.workers
      bytes_eq := ?_
      tokens := h.tokens.classified hWorker (by rw [← hSlot]) (by rw [← hSlot])
      clear := ?_
      place := h.place_of_slots rfl rfl rfl ?_
      ordered := ?_
      numbered := ?_ }
  · show s.bytes = ((s.ring e).map fun i => (Function.update s.slots j slot i).record.size).sum
    simp only [hSize]
    exact h.bytes_eq
  · intro i hi
    have hNe : i ≠ j := fun hEq => hi (hEq ▸ hMem)
    show (Function.update s.slots j slot i).err = none
    rw [hOther i hNe]
    exact h.clear i hi
  · -- the coordinator holds a record that was classified
    intro i k hPc
    have hJudged : (s.slots i).judged = true := by
      refine (h.tokens.mem_of_late ?_).2
      simp [ScanState.late, hPc, MainPc.takes]
    have hNe : i ≠ j := by
      rintro rfl
      rw [hOld] at hJudged
      exact absurd hJudged (by decide)
    exact congrArg ScanSlot.err (hOther i hNe)
  · obtain ⟨before, rest, hFinal, hSplit, hTodo⟩ := h.ordered.split
    refine ⟨before, rest, hFinal, hSplit, ?_⟩
    intro todo hSome
    obtain ⟨queued, hQueued, hRest⟩ := hTodo todo hSome
    refine ⟨queued, hQueued.imp fun i r hContent => ?_, hRest⟩
    show Content c (Function.update s.slots j slot i) r
    by_cases hi : i = j
    · subst hi
      have hRecord := hContent.record_eq hOld
      rw [hSame, ← hSlot]
      refine ⟨hContent.key, hContent.value, by rintro ⟨⟩, fun _ => ⟨s.ctx, ?_⟩⟩
      rw [← hRecord, hOut]
    · rw [hOther i hi]
      exact hContent
  · obtain ⟨base, hBase, hEq, hMap⟩ := h.numbered.ring
    refine ⟨⟨base, hBase, hEq, ?_⟩, ?_, ?_⟩
    · show ((s.ring e).map fun i => (Function.update s.slots j slot i).index) = _
      simp only [hIndex]
      exact hMap
    · intro hLive i hi n hn
      have hn : (Function.update s.slots j slot i).index = some n := hn
      rw [hIndex] at hn
      exact h.numbered.free hLive i hi n hn
    · -- a failure that was noted before belongs to another slot
      have hBefore : ∀ i ∈ s.failures, s.consumed.length ≤ i + 1 ∧
          (s.pc.script ≠ none → ∃ m ∈ s.ring e, (Function.update s.slots j slot m).index = some i ∧
            (Function.update s.slots j slot m).judged = true ∧
              (Function.update s.slots j slot m).err ≠ none) := by
        intro i hi
        obtain ⟨hLe, hPending⟩ := h.numbered.failures i hi
        refine ⟨hLe, fun hLive => ?_⟩
        obtain ⟨m, hm, hI, hJ, hE⟩ := hPending hLive
        have hNe : m ≠ j := by
          rintro rfl
          rw [hOld] at hJ
          exact absurd hJ (by decide)
        refine ⟨m, hm, ?_⟩
        rw [hOther m hNe]
        exact ⟨hI, hJ, hE⟩
      intro i hi
      have hi : i ∈ if out.2.isSome then s.failures ++
          (s.slots j).index.toList else s.failures := hi
      split at hi
      next hSome =>
        rcases List.mem_append.mp hi with hi | hi
        · exact hBefore i hi
        · have hNumber : (s.slots j).index = some i := by simpa using hi
          have hLe := le_of_index hMap hMem hNumber
          refine ⟨by show s.consumed.length ≤ i + 1; omega, fun _ => ⟨j, hMem, ?_⟩⟩
          show (Function.update s.slots j slot j).index = some i ∧
            (Function.update s.slots j slot j).judged = true ∧
              (Function.update s.slots j slot j).err ≠ none
          rw [hSame, ← hSlot]
          exact ⟨hNumber, rfl, Option.isSome_iff_ne_none.mp hSome⟩
      next => exact hBefore i hi

/-! ### All moves -/

/-- Every move of the coordinator keeps the invariant. -/
theorem mainStep (h : ScanInv e c script s) (hStep : mainStep e c s = some s') :
    ScanInv e c script s' := by
  have hPlace := h.place
  unfold L2State.mainStep at hStep
  split at hStep
  next hPc =>
    cases hStep
    exact h.goto hPc rfl rfl trivial (.inr rfl)
  next hPc =>
    cases hStep
    exact h.goto hPc rfl rfl trivial (.inl rfl)
  next r todo hPc =>
    split at hStep
    · cases hStep
      exact h.goto hPc rfl rfl trivial (.inl rfl)
    · split at hStep
      · cases hStep
        exact h.goto hPc rfl rfl trivial (.inr rfl)
      next hQueue =>
        cases hStep
        have hFits : r.size ≤ e.scanBytes := by omega
        exact h.goto hPc rfl rfl hFits (.inr rfl)
  next r todo hPc =>
    rw [hPc] at hPlace
    split at hStep
    next hFull =>
      cases hStep
      refine h.goto hPc rfl rfl ⟨rfl, ?_, hPlace⟩ (.inr rfl)
      -- an empty ring has room for a record that fits
      show 0 < s.pending
      have hSum := h.bytes_eq
      have hCap := e.capacity_pos
      by_contra hZero
      have hZero : s.pending = 0 := by omega
      rw [ScanState.ring, hZero] at hSum
      simp only [ring_zero, List.map_nil, List.sum_nil] at hSum
      simp only [MainPc.At] at hPlace
      omega
    next hRoom =>
      cases hStep
      exact h.enqueue hPc hRoom
  next j todo hPc =>
    split at hStep
    · cases hStep
      exact h.sent hPc
    · cases hStep
  next next hPc =>
    split at hStep
    next hPending =>
      cases hStep
      exact h.goto hPc rfl rfl ⟨rfl, hPending, trivial⟩
        (.inr rfl)
    next hPending =>
      have hEmpty : s.pending = 0 := by omega
      split at hStep
      · cases hStep
        exact h.goto hPc rfl rfl trivial (.inl rfl)
      · cases hStep
        exact h.goto hPc rfl rfl hEmpty (.inr rfl)
      · cases hStep
        exact h.goto hPc rfl rfl hEmpty (.inr rfl)
  next j k hPc =>
    split at hStep
    next hDone =>
      cases hStep
      exact h.received hPc hDone
    next => cases hStep
  next j k hPc =>
    split at hStep
    · cases hStep
      exact h.refused hPc
    next hNone =>
      cases hStep
      rw [hPc] at hPlace
      have hErr : (s.slots j).err = none := (Option.or_eq_none_iff.mp hNone).1
      exact h.goto hPc rfl rfl ⟨hPlace.1, hPlace.2.1, hPlace.2.2, hErr⟩
        (.inr rfl)
  next j k hPc =>
    cases hStep
    exact h.handed hPc
  next r todo hPc =>
    rw [hPc] at hPlace
    split at hStep
    · cases hStep
      exact (h.died _ (by rw [hPc]; rfl) (by rw [hPc]; rfl)).noted rfl (Nat.le_succ _)
    next role hRole =>
      cases hStep
      exact h.goto hPc rfl rfl ⟨hPlace, s.ctx, hRole⟩
        (.inr rfl)
  next r role todo hPc =>
    rw [hPc] at hPlace
    split at hStep
    · cases hStep
      exact h.goto hPc rfl rfl trivial (.inl rfl)
    · cases hStep
      exact h.goto hPc rfl rfl hPlace (.inr rfl)
  next r role todo hPc =>
    dsimp only at hStep
    split at hStep
    next err hErr =>
      cases hStep
      exact ((h.directHanded hPc).died err rfl rfl).noted rfl List.length_append.le
    next hErr =>
      cases hStep
      exact h.directHanded hPc
  next => cases hStep
  next => cases hStep

theorem workerStep (h : ScanInv e c script s) (hStep : workerStep c w s = some s') :
    ScanInv e c script s' := by
  unfold L2State.workerStep at hStep
  split at hStep
  next => cases hStep
  next hWorker =>
    split at hStep
    next => cases hStep
    next j jobs hJobs =>
      cases hStep
      exact h.taken hWorker hJobs
  next j hWorker =>
    cases hStep
    exact h.classified hWorker
  next j hWorker =>
    cases hStep
    exact h.latched hWorker
  next j hWorker =>
    split at hStep
    next => cases hStep
    next =>
      cases hStep
      exact h.finished hWorker

/-- Every move keeps the invariant. -/
theorem step {a : ScanAction} (h : ScanInv e c script s)
    (hStep : (scanSystem e c).step a s = some s') : ScanInv e c script s' := by
  cases a with
  | main => exact h.mainStep hStep
  | worker w => exact h.workerStep hStep
  | interrupt err =>
    simp only [scanSystem] at hStep
    split at hStep
    · cases hStep
      exact h.interrupt _ _ _
    · cases hStep

/-- The invariant holds along every run. -/
theorem run {t : List ScanAction}
    (hRun : (scanSystem e c).run t (ScanState.init e script) = some s') : ScanInv e c script s' :=
  System.run_invariant (fun _ _ _ hInv hStep => hInv.step hStep) init hRun

end ScanInv

/-! ## Every run ends -/

/-- How many moves a worker has before it is idle. -/
def WorkerPc.weight : WorkerPc → Nat
  | .idle => 0
  | .classify _ => 3
  | .latch _ => 2
  | .send _ => 1

/-- A bound for the moves after `drainOne`, without those for pending records. -/
def AfterDrain.weight : AfterDrain → Nat
  | .push _ todo => 20 * todo.length + 25
  | .drain none => 4
  | .drain (some (_, todo)) => 20 * todo.length + 25

/-- A bound for the moves of the coordinator, without those for pending records. -/
def MainPc.weight : MainPc → Nat
  | .idle todo => 20 * todo.length + 10
  | .wait _ todo => 20 * todo.length + 25
  | .send _ todo => 20 * todo.length + 16
  | .drain next => (AfterDrain.drain next).weight
  | .receive _ k => k.weight - 1
  | .check _ k => k.weight - 2
  | .consume _ k => k.weight - 3
  | .directClassify _ todo => 20 * todo.length + 24
  | .directCheck _ _ todo => 20 * todo.length + 23
  | .directConsume _ _ todo => 20 * todo.length + 22
  | .finished => 0
  | .failed _ => 0

theorem AfterDrain.four_le_weight (k : AfterDrain) : 4 ≤ k.weight := by
  cases k with
  | push r todo => simp only [weight]; omega
  | drain next =>
    cases next with
    | none => exact Nat.le_refl 4
    | some p => simp only [weight]; omega

/-- A bound for the number of moves that are left. -/
def scanWork (s : ScanState) : Nat :=
  s.pc.weight + 5 * s.pending + 4 * s.jobs.length + (s.workers.map WorkerPc.weight).sum

/-- The coordinator has returned. -/
def MainPc.Returned : MainPc → Prop
  | .finished => True
  | .failed _ => True
  | _ => False

/-- The moves of the threads. -/
def ScanAction.isMove : ScanAction → Bool
  | .interrupt _ => false
  | _ => true

namespace ScanInv

variable {e : PruneExecution} {c : ScanCalls} {script : Script} {s s' : ScanState}

/-- Giving a slot back pays for the next round of the loop. -/
theorem work_release {err : Option Err} (hPending : 0 < s.pending)
    (hWeight : k.weight < s.pc.weight + 5) : scanWork (s.release e j k err) < scanWork s := by
  have hPc : (s.release e j k err).pc.weight ≤ k.weight := by
    cases err with
    | some err => exact Nat.zero_le _
    | none => cases k <;> exact Nat.le_refl _
  show (s.release e j k err).pc.weight + 5 * (s.pending - 1) + 4 * s.jobs.length +
    (s.workers.map WorkerPc.weight).sum < scanWork s
  simp only [scanWork]
  omega

/-- The coordinator leaves less to do. -/
theorem mainStep_work (h : ScanInv e c script s) (hStep : L2State.mainStep e c s = some s') :
    scanWork s' < scanWork s := by
  have hPlace := h.place
  unfold L2State.mainStep at hStep
  split at hStep
  case h_6 next hPc =>
    have hFour := (AfterDrain.drain next).four_le_weight
    repeat' split at hStep
    all_goals
      cases hStep
      simp only [scanWork, hPc, MainPc.weight, AfterDrain.weight] at hFour ⊢
      omega
  case h_7 j k hPc =>
    have hFour := k.four_le_weight
    split at hStep <;> cases hStep
    simp only [scanWork, hPc, ScanState.setSlot, MainPc.weight]
    omega
  case h_8 j k hPc =>
    have hFour := k.four_le_weight
    rw [hPc] at hPlace
    split at hStep <;> cases hStep
    · exact work_release hPlace.2.1 (by simp only [hPc, MainPc.weight]; omega)
    · simp only [scanWork, hPc, MainPc.weight]
      omega
  case h_9 j k hPc =>
    rw [hPc] at hPlace
    cases hStep
    refine work_release (s := s.hand (s.slots j).record _) hPlace.2.1 ?_
    rw [show (s.hand (s.slots j).record _).pc = s.pc from rfl, hPc, MainPc.weight]
    omega
  -- everywhere else the position alone pays
  all_goals
    rename_i hPc
    try dsimp only at hStep
    repeat' split at hStep
    all_goals cases hStep <;> simp only [scanWork, hPc, ScanState.enqueue, ScanState.setSlot,
      ScanState.note, ScanState.hand, MainPc.weight, AfterDrain.weight, List.length_append,
      List.length_cons, List.length_nil] <;> omega

/-- A worker leaves less to do. -/
theorem workerStep_work {w : Nat} (hStep : L2State.workerStep c w s = some s') :
    scanWork s' < scanWork s := by
  unfold L2State.workerStep at hStep
  split at hStep
  next => cases hStep
  next hWorker =>
    split at hStep
    next => cases hStep
    next j jobs hJobs =>
      cases hStep
      have := sum_set_add hWorker WorkerPc.weight (.classify j)
      simp only [scanWork, hJobs, List.length_cons, WorkerPc.weight] at this ⊢
      omega
  next j hWorker =>
    cases hStep
    have := sum_set_add hWorker WorkerPc.weight (.latch j)
    simp only [scanWork, ScanState.note, ScanState.setSlot, WorkerPc.weight] at this ⊢
    omega
  next j hWorker =>
    cases hStep
    have := sum_set_add hWorker WorkerPc.weight (.send j)
    simp only [scanWork, ScanState.fail, WorkerPc.weight] at this ⊢
    omega
  next j hWorker =>
    split at hStep
    next => cases hStep
    next =>
      cases hStep
      have := sum_set_add hWorker WorkerPc.weight .idle
      simp only [scanWork, ScanState.setSlot, WorkerPc.weight] at this ⊢
      omega

/-- Every move of a thread uses up some of the work. -/
theorem move_work {a : ScanAction} (h : ScanInv e c script s) (hMove : a.isMove = true)
    (hStep : (scanSystem e c).step a s = some s') : scanWork s' < scanWork s := by
  cases a with
  | main => exact h.mainStep_work hStep
  | worker w => exact workerStep_work hStep
  | interrupt err => cases hMove

theorem interrupt_work {a : ScanAction} (hMove : a.isMove = false)
    (hStep : (scanSystem e c).step a s = some s') : scanWork s' ≤ scanWork s := by
  cases a with
  | main => cases hMove
  | worker w => cases hMove
  | interrupt err =>
    simp only [scanSystem] at hStep
    split at hStep
    · cases hStep
      exact Nat.le_refl _
    · cases hStep

/-- **Termination.** Under every schedule the threads make at most as many moves
as the script allows. -/
theorem run_moves_le {t : List ScanAction}
    (hRun : (scanSystem e c).run t (ScanState.init e script) = some s) :
    t.countP ScanAction.isMove ≤ 20 * script.length + 10 := by
  have hKeep : ∀ a s s', ScanInv e c script s → (scanSystem e c).step a s = some s' →
      ScanInv e c script s' := fun _ _ _ hInv hStep => hInv.step hStep
  have hMeasure : t.countP ScanAction.isMove + scanWork s ≤ scanWork (ScanState.init e script) :=
    System.run_measure hKeep (fun _ _ _ hInv hMove hStep => hInv.move_work hMove hStep)
      (fun _ _ _ _ hMove hStep => interrupt_work hMove hStep) ScanInv.init hRun
  have hInit : scanWork (ScanState.init e script) = 20 * script.length + 10 := by
    simp [scanWork, ScanState.init, MainPc.weight, WorkerPc.weight]
  omega

/-! ## No thread is stuck -/

/-- A worker that has a slot can go on. -/
theorem worker_moves (h : ScanInv e c script s) {w : Nat} {pc : WorkerPc}
    (hWorker : s.workers[w]? = some pc) (hBusy : pc ≠ .idle) : ∃ s', L2State.workerStep c w s =
    some s' := by
  unfold L2State.workerStep
  rw [hWorker]
  cases pc with
  | idle => exact absurd rfl hBusy
  | classify j => exact ⟨_, rfl⟩
  | latch j => exact ⟨_, rfl⟩
  | send j =>
    -- the slot's channel is empty
    simp only [h.tokens.done_of_send hWorker]
    exact ⟨_, rfl⟩

theorem count_moves (h : ScanInv e c script s) {pc : WorkerPc} (hCount : 0 < s.workers.count pc)
    (hBusy : pc ≠ .idle) : ∃ w s', L2State.workerStep c w s = some s' := by
  obtain ⟨w, hWorker⟩ := List.mem_iff_getElem?.mp (List.count_pos_iff.mp hCount)
  exact ⟨w, h.worker_moves hWorker hBusy⟩

/-- While there is a job, some worker can go on. -/
theorem jobs_move (h : ScanInv e c script s) (hJobs : s.jobs ≠ []) :
    ∃ w s', L2State.workerStep c w s = some s' := by
  have hPos : 0 < s.workers.length := h.workers ▸ e.hashWorkers_pos
  obtain ⟨pc, hWorker⟩ : ∃ pc, s.workers[0]? = some pc := ⟨_, List.getElem?_eq_getElem hPos⟩
  by_cases hIdle : pc = .idle
  · subst hIdle
    obtain ⟨j, jobs, hj⟩ := List.exists_cons_of_ne_nil hJobs
    refine ⟨0, { s with jobs := jobs, workers := s.workers.set 0 (.classify j) }, ?_⟩
    simp only [L2State.workerStep, hWorker, hj]
  · obtain ⟨s', hs'⟩ := h.worker_moves hWorker hIdle
    exact ⟨0, s', hs'⟩

/-- The oldest record is with a worker or on its way, until its token is there. -/
theorem receive_moves (h : ScanInv e c script s) (hPc : s.pc = .receive j k)
    (hDone : (s.slots j).done = false) :
    ∃ w s', L2State.workerStep c w s = some s' := by
  have hPlace := h.place
  rw [hPc] at hPlace
  obtain ⟨rfl, hPending, -⟩ := hPlace
  have hMem : s.first ∈ s.ring e := by
    obtain ⟨n, hn⟩ : ∃ n, s.pending = n + 1 := ⟨s.pending - 1, by omega⟩
    rw [ScanState.ring, hn, ring_cons h.first_lt]
    exact List.mem_cons_self
  have hEarly := h.tokens.early s.first
  have hLate := h.tokens.late s.first
  simp only [ScanState.early, ScanState.late, hPc, MainPc.sends, MainPc.takes, List.count_nil,
    hDone, Bool.toNat_false, hMem, true_and] at hEarly hLate
  cases hJudged : (s.slots s.first).judged with
  | false =>
    rw [if_pos hJudged] at hEarly
    by_cases hJobs : 0 < s.jobs.count s.first
    · exact h.jobs_move (List.ne_nil_of_mem (List.count_pos_iff.mp hJobs))
    · have hCount : 0 < s.workers.count (.classify s.first) := by omega
      exact h.count_moves hCount (by simp)
  | true =>
    rw [if_pos hJudged] at hLate
    by_cases hLatch : 0 < s.workers.count (.latch s.first)
    · exact h.count_moves hLatch (by simp)
    · have hCount : 0 < s.workers.count (.send s.first) := by omega
      exact h.count_moves hCount (by simp)

/-- The coordinator can go on unless it waits for a channel. -/
theorem main_moves (hLive : ¬ s.pc.Returned)
    (hSend : ∀ j todo, s.pc = .send j todo → s.jobs.length < e.hashWorkers)
    (hReceive : ∀ j k, s.pc = .receive j k → (s.slots j).done = true) :
    ∃ s', L2State.mainStep e c s = some s' := by
  unfold L2State.mainStep
  split
  case h_5 j todo hPc => exact ⟨_, if_pos (hSend j todo hPc)⟩
  case h_7 j k hPc => exact ⟨_, if_pos (hReceive j k hPc)⟩
  case h_13 hPc => exact absurd (by rw [hPc]; trivial) hLive
  case h_14 hPc => exact absurd (by rw [hPc]; trivial) hLive
  -- everywhere else each branch is a move
  all_goals
    try dsimp only
    repeat' split
    all_goals exact ⟨_, rfl⟩

/-- **No deadlock.** Until the coordinator returns, some thread can move. -/
theorem moves (h : ScanInv e c script s) (hLive : ¬ s.pc.Returned) :
    ∃ a s', ScanAction.isMove a = true ∧ (scanSystem e c).step a s = some s' := by
  have hWorker : (∃ w s', L2State.workerStep c w s = some s') →
      ∃ a s', ScanAction.isMove a = true ∧ (scanSystem e c).step a s = some s' :=
    fun ⟨w, s', hStep⟩ => ⟨.worker w, s', rfl, hStep⟩
  by_cases hSend : ∀ j todo, s.pc = .send j todo → s.jobs.length < e.hashWorkers
  · by_cases hReceive : ∀ j k, s.pc = .receive j k → (s.slots j).done = true
    · obtain ⟨s', hStep⟩ := main_moves (c := c) hLive hSend hReceive
      exact ⟨.main, s', rfl, hStep⟩
    · push Not at hReceive
      obtain ⟨j, k, hPc, hDone⟩ := hReceive
      exact hWorker (h.receive_moves hPc (by simpa using hDone))
  · -- the channel is full, so there is a job
    push Not at hSend
    obtain ⟨j, todo, hPc, hFull⟩ := hSend
    refine hWorker (h.jobs_move ?_)
    intro hNil
    rw [hNil] at hFull
    exact absurd (e.hashWorkers_pos.trans_le hFull) (by simp)

end ScanInv

/-! ## Main result -/

/-- The consumed records of a script that only pushes. -/
theorem ScanInv.consumed_isPrefix {e : PruneExecution} {c : ScanCalls} {records : List PruneRecord}
    {s : ScanState} (h : ScanInv e c (records.map .ok) s) :
    ∃ before, before <+: records ∧ List.Forall₂ (Final c) before s.consumed := by
  obtain ⟨before, rest, hFinal, hSplit, -⟩ := h.ordered.split
  obtain ⟨xs, ys, rfl, hXs, -⟩ := List.map_eq_append_iff.mp hSplit
  refine ⟨before, ?_, hFinal⟩
  obtain rfl : xs = before := List.map_injective_iff.mpr (fun _ _ h => Except.ok.inj h) hXs
  exact List.prefix_append xs ys

theorem ScanInv.consumed_all {e : PruneExecution} {c : ScanCalls} {records : List PruneRecord}
    {s : ScanState} (h : ScanInv e c (records.map .ok) s) (hEnd : s.pc = .finished) :
    List.Forall₂ (Final c) records s.consumed := by
  obtain ⟨before, rest, hFinal, hSplit, hTodo⟩ := h.ordered.split
  obtain ⟨queued, hQueued, rfl⟩ := hTodo [] (by rw [hEnd]; rfl)
  have hEmpty : s.pending = 0 := by
    have := h.place
    rwa [hEnd] at this
  rw [ScanState.ring, hEmpty, ring_zero] at hQueued
  cases hQueued
  simp only [List.map_nil, List.append_nil] at hSplit
  obtain rfl : records = before := List.map_injective_iff.mpr (fun _ _ h => Except.ok.inj h) hSplit
  exact hFinal

/-- **The hash pipeline is an ordered bounded queue.** In every state of every run
of a sequence of pushes and the final drain:

* the consumed records are the first pushed ones in their order, each with the
  role that its classification gave it, and all of them when `drain` succeeds;
* the ring and its bytes are within their limits, and the byte count is the sum of
  the pending records;
* the slot that `push` is about to use is in no channel and with no worker, and the
  record that it had was consumed;
* a worker that is about to send on a slot's channel finds it empty;
* the threads make a bounded number of moves, and until the coordinator returns one
  of them can move, so the wait loop of `push` ends;
* behind a record whose classification or consumption failed none is consumed. -/
theorem prune_pipeline_ordered_bounded (e : PruneExecution) (c : ScanCalls)
    (records : List PruneRecord) (t : List ScanAction) (s : ScanState)
    (hRun : (scanSystem e c).run t (ScanState.init e (records.map .ok)) = some s) :
    (∃ before, before <+: records ∧ List.Forall₂ (Final c) before s.consumed) ∧
    (s.pc = .finished → List.Forall₂ (Final c) records s.consumed) ∧
    (s.pending ≤ 2 * e.workers ∧ (s.ring e).length = s.pending ∧ (s.ring e).Nodup ∧
      s.bytes = ((s.ring e).map fun j => (s.slots j).record.size).sum ∧ s.bytes ≤ e.scanBytes) ∧
    (∀ r todo, s.pc = .wait r todo → ¬ (s.pending = e.capacity ∨ e.scanBytes < s.bytes + r.size) →
      s.early ((s.first + s.pending) % e.capacity) = 0 ∧
      s.late ((s.first + s.pending) % e.capacity) = 0 ∧
      ∀ i, (s.slots ((s.first + s.pending) % e.capacity)).index = some i → i < s.consumed.length) ∧
    (∀ w j : Nat, s.workers[w]? = some (.send j) → (s.slots j).done = false) ∧
    (t.countP ScanAction.isMove ≤ 20 * records.length + 10 ∧
      (¬ s.pc.Returned →
        ∃ a s', ScanAction.isMove a = true ∧ (scanSystem e c).step a s = some s')) ∧
    ∀ i ∈ s.failures, s.consumed.length ≤ i + 1 := by
  have hInv := ScanInv.run hRun
  refine ⟨hInv.consumed_isPrefix, hInv.consumed_all, ?_, ?_, fun w j =>
    hInv.tokens.done_of_send, ?_, fun i hi => (hInv.numbered.failures i hi).1⟩
  · exact ⟨hInv.pending_le, length_ring _ _ _, nodup_ring hInv.pending_le, hInv.bytes_eq,
      hInv.bytes_le⟩
  · intro r todo hPc hRoom
    have hFull : s.pending < e.capacity := by
      have := hInv.pending_le
      omega
    have hFree : (s.first + s.pending) % e.capacity ∉ s.ring e := next_notMem_ring hFull
    refine ⟨?_, ?_, hInv.numbered.free (by rw [hPc]; simp [MainPc.script]) _ hFree⟩
    · rw [hInv.tokens.early, if_neg fun h => hFree h.1]
    · rw [hInv.tokens.late, if_neg fun h => hFree h.1]
  · refine ⟨?_, hInv.moves⟩
    have := ScanInv.run_moves_le hRun
    rwa [List.length_map] at this

/-- A pipeline of two threads whose classification finds every record deletable. -/
def pipelineExecution : PruneExecution := ⟨2, 9000, by decide⟩

def pipelineCalls : ScanCalls where
  classify _ _ := (.delete, none)
  consume _ _ _ := none

/-- A record for a worker, and a small one behind it. -/
def pipelineRecords : List PruneRecord :=
  [⟨[1], List.replicate 4096 7, .unclassified⟩, ⟨[2], [3], .protect⟩]

/-- The worker takes the first job, the coordinator queues the second record, and
then each waits for the other. -/
def pipelineSchedule : List ScanAction :=
  let w := ScanAction.worker 0
  let m := ScanAction.main
  [m, m, m, w, m, m, m, m, m, w, w, w, m, m, m, m, w, w, w, w, m, m, m, m]

theorem prune_pipeline_sample :
    ∃ s, (scanSystem pipelineExecution pipelineCalls).run pipelineSchedule
        (ScanState.init pipelineExecution (pipelineRecords.map .ok)) = some s ∧
      s.pc = .finished ∧ List.Forall₂ (Final pipelineCalls) pipelineRecords s.consumed := by
  have hPc : ((scanSystem pipelineExecution pipelineCalls).run pipelineSchedule
      (ScanState.init pipelineExecution (pipelineRecords.map .ok))).map ScanState.pc =
        some .finished := by
    decide +kernel
  obtain ⟨s, hs, hEnd⟩ := Option.map_eq_some_iff.mp hPc
  exact ⟨s, hs, hEnd, (prune_pipeline_ordered_bounded _ _ _ _ s hs).2.1 hEnd⟩

end L2State
