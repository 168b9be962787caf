import L2State.Lib.System
import L2State.Lib.Ring
import L2State.Geth.Types

/-!
# L2State — the prune hash pipeline

`pruneScanPipeline` of `prune_pipeline.go`. A coordinator pushes the records of
the source into a ring of slots. Workers take the slots from a channel, classify
the record and put a token into the slot's own channel; the coordinator waits for
the token of the oldest slot and hands the record to `consume`. Records that are
too large for the byte limit, and small ones that find the ring empty, are
classified and consumed by the coordinator itself.

The threads take turns at the points where they touch what another thread can
see: the two kinds of channel, the context and the failure latch. A scheduler
picks who moves next.

* `ScanState`, `mainStep`, `workerStep` — the code.
* `Tokens` — **each pending record is in one place**: on its way to a worker, with
  a worker, on its way back, or taken by the coordinator.
* `Ordered` — the consumed records, the pending ones and the rest are the pushed
  sequence.
* `scanWork`, `scan_moves` — every run ends, and no thread is stuck before the
  end.
-/

namespace L2State

open Lib

/-! ## Records -/

/-- `pruneProtect`, `pruneRetainState`, `pruneDelete`, `pruneUnknown` and
`pruneUnclassified`. -/
inductive PruneRole
  | protect
  | retainState
  | delete
  | unknown
  | unclassified
deriving DecidableEq

/-- A record as it is pushed and as it is consumed. -/
structure PruneRecord where
  key   : Bytes
  value : Bytes
  role  : PruneRole
deriving DecidableEq

def PruneRecord.size (r : PruneRecord) : Nat := r.key.length + r.value.length

/-- `pruneParallelHashBytes`. -/
def pruneParallelHashBytes : Nat := 4096

/-- A record that is worth the way to a worker. -/
def PruneRecord.isParallel (r : PruneRecord) : Bool :=
  r.role = .unclassified ∧ pruneParallelHashBytes ≤ r.value.length

/-- `pruneExecution`, the limits of the pipeline. -/
structure PruneExecution where
  workers   : Nat
  scanBytes : Nat
  workers_pos : 0 < workers

/-- `len(p.slots)`. -/
def PruneExecution.capacity (e : PruneExecution) : Nat := 2 * e.workers

/-- `p.workers`: one thread is the coordinator. -/
def PruneExecution.hashWorkers (e : PruneExecution) : Nat := max 1 (e.workers - 1)

theorem PruneExecution.capacity_pos (e : PruneExecution) : 0 < e.capacity := by
  have := e.workers_pos
  simp only [capacity]
  omega

theorem PruneExecution.hashWorkers_pos (e : PruneExecution) : 0 < e.hashWorkers := by
  simp only [hashWorkers]
  omega

/-- The callbacks. `classify` reads the context of the pipeline; it returns the
new role and an error. `consume` reads the context of the caller and may keep a
state of its own, which the records consumed before determine. -/
structure ScanCalls where
  classify : Option Err → PruneRecord → PruneRole × Option Err
  consume  : Option Err → List PruneRecord → PruneRecord → Option Err

/-! ## States -/

/-- `pruneScanRecord` in the ring. `done` is the one-token channel. -/
structure ScanSlot where
  record : PruneRecord
  err    : Option Err
  done   : Bool
  /-- History: the number of the record that the slot was last given. -/
  index  : Option Nat
  /-- History: that record was classified. -/
  judged : Bool

/-- A slot that was never used. -/
def ScanSlot.fresh : ScanSlot := ⟨⟨[], [], .protect⟩, none, false, none, false⟩

/-- Where a worker is in its loop. -/
inductive WorkerPc
  | idle
  /-- Before `p.classify`. -/
  | classify (j : Nat)
  /-- Before `p.fail`. -/
  | latch (j : Nat)
  /-- Before the send on the slot's channel. -/
  | send (j : Nat)
deriving DecidableEq

/-- What the caller does next: push a record, return an error of its own, or,
at the end, drain. -/
abbrev Script := List (Except Err PruneRecord)

/-- What follows `drainOne`. -/
inductive AfterDrain
  /-- The wait loop of `push`. -/
  | push (r : PruneRecord) (todo : Script)
  /-- The loop of `drain`, with the record of `consumeDirect` or at the end. -/
  | drain (next : Option (PruneRecord × Script))
deriving DecidableEq

/-- Where the coordinator is. -/
inductive MainPc
  /-- Between two calls. -/
  | idle (todo : Script)
  /-- The head of the wait loop in `push`. -/
  | wait (r : PruneRecord) (todo : Script)
  /-- Before `p.jobs <- r`. -/
  | send (j : Nat) (todo : Script)
  /-- The head of the loop in `drain`. -/
  | drain (next : Option (PruneRecord × Script))
  /-- `drainOne`: before `<-r.done`, before the context check, before `consume`. -/
  | receive (j : Nat) (k : AfterDrain)
  | check (j : Nat) (k : AfterDrain)
  | consume (j : Nat) (k : AfterDrain)
  /-- `consumeDirect`: before `classify`, before the context check, before
  `consume`. -/
  | directClassify (r : PruneRecord) (todo : Script)
  | directCheck (r : PruneRecord) (role : PruneRole) (todo : Script)
  | directConsume (r : PruneRecord) (role : PruneRole) (todo : Script)
  | finished
  | failed (e : Err)
deriving DecidableEq

/-- `pruneScanPipeline` and its threads. -/
structure ScanState where
  slots   : Nat → ScanSlot
  first   : Nat
  pending : Nat
  bytes   : Nat
  jobs    : List Nat
  workers : List WorkerPc
  /-- `p.ctx.Err()`. -/
  ctx     : Option Err
  /-- `workCtx.Err()` of the caller. -/
  parent  : Option Err
  failure : Option Err
  pc      : MainPc
  /-- History: the records passed to `consume`. -/
  consumed : List PruneRecord
  /-- History: the numbers of the records whose classification or consumption
  failed. -/
  failures : List Nat

/-- `newPruneScanPipeline`, before the script. The workers are started by the
first parallel record; before it they would find the channel empty. -/
def ScanState.init (e : PruneExecution) (script : Script) : ScanState where
  slots _ := .fresh
  first := 0
  pending := 0
  bytes := 0
  jobs := []
  workers := List.replicate e.hashWorkers .idle
  ctx := none
  parent := none
  failure := none
  pc := .idle script
  consumed := []
  failures := []

namespace ScanState

/-- Changes one slot. -/
def setSlot (s : ScanState) (j : Nat) (slot : ScanSlot) : ScanState :=
  { s with slots := Function.update s.slots j slot }

/-- `migrateRunFailure.record` returns true: a first error that is not one of the
context. -/
def records (s : ScanState) : Option Err → Bool
  | none => false
  | some err => !err.isContext && s.failure.isNone

/-- `p.fail`. -/
def fail (s : ScanState) (err : Option Err) : ScanState :=
  { s with
    failure := if s.records err then err else s.failure
    ctx := if s.records err then s.ctx.or (some contextCanceled) else s.ctx }

/-- History: a record failed. -/
def note (s : ScanState) (number : Option Nat) (err : Option Err) : ScanState :=
  { s with failures := if err.isSome then s.failures ++ number.toList else s.failures }

/-- The end of `drainOne`: the slot `j` is given back. -/
def release (e : PruneExecution) (s : ScanState) (j : Nat) (k : AfterDrain) (err : Option Err) :
    ScanState :=
  let slot := s.slots j
  let s := s.fail err
  let s := s.setSlot j { slot with record := ⟨[], [], slot.record.role⟩, err := none }
  { s with
    bytes := s.bytes - slot.record.size
    first := (s.first + 1) % e.capacity
    pending := s.pending - 1
    pc := match err, k with
      | some err, _ => .failed err
      | none, .push r todo => .wait r todo
      | none, .drain next => .drain next }

/-- The slot of `push`: the record is copied into it. -/
def enqueue (e : PruneExecution) (s : ScanState) (r : PruneRecord) (todo : Script) : ScanState :=
  let j := (s.first + s.pending) % e.capacity
  let s := s.setSlot j { s.slots j with
    record := r, index := some (s.consumed.length + s.pending), judged := false }
  { s with pending := s.pending + 1, bytes := s.bytes + r.size, pc := .send j todo }

/-- `p.consume` was called with a record. -/
def hand (s : ScanState) (r : PruneRecord) (err : Option Err) : ScanState :=
  { s.note (some s.consumed.length) err with consumed := s.consumed ++ [r] }

end ScanState

/-- A move of the coordinator. -/
def mainStep (e : PruneExecution) (c : ScanCalls) (s : ScanState) : Option ScanState :=
  match s.pc with
  | .idle [] => some { s with pc := .drain none }
  | .idle (.error err :: _) => some { s with pc := .failed err }
  | .idle (.ok r :: todo) =>
    match s.ctx with
    | some err => some { s with pc := .failed err }
    | none =>
      if e.scanBytes < r.size ∨ (r.isParallel = false ∧ s.pending = 0) then
        some { s with pc := .drain (some (r, todo)) }
      else some { s with pc := .wait r todo }
  | .wait r todo =>
    if s.pending = e.capacity ∨ e.scanBytes < s.bytes + r.size then
      some { s with pc := .receive s.first (.push r todo) }
    else some (s.enqueue e r todo)
  | .send j todo =>
    -- the channel holds one job for each worker
    if s.jobs.length < e.hashWorkers then some { s with jobs := s.jobs ++ [j], pc := .idle todo }
    else none
  | .drain next =>
    if 0 < s.pending then some { s with pc := .receive s.first (.drain next) }
    else
      match s.ctx, next with
      | some err, _ => some { s with pc := .failed err }
      | none, none => some { s with pc := .finished }
      | none, some (r, todo) => some { s with pc := .directClassify r todo }
  | .receive j k =>
    if (s.slots j).done then
      some { s.setSlot j { s.slots j with done := false } with pc := .check j k }
    else none
  | .check j k =>
    match (s.slots j).err.or s.ctx with
    | some err => some (s.release e j k (some err))
    | none => some { s with pc := .consume j k }
  | .consume j k =>
    let r := (s.slots j).record
    let err := c.consume s.parent s.consumed r
    some ((s.hand r err).release e j k err)
  | .directClassify r todo =>
    match c.classify s.ctx r with
    | (_, some err) => some { s.note (some s.consumed.length) (some err) with pc := .failed err }
    | (role, none) => some { s with pc := .directCheck r role todo }
  | .directCheck r role todo =>
    match s.ctx with
    | some err => some { s with pc := .failed err }
    | none => some { s with pc := .directConsume r role todo }
  | .directConsume r role todo =>
    let r' : PruneRecord := { r with role := role }
    match c.consume s.parent s.consumed r' with
    | some err => some { s.hand r' (some err) with pc := .failed err }
    | none => some { s.hand r' none with pc := .idle todo }
  | .finished => none
  | .failed _ => none

/-- A move of the worker `w`. -/
def workerStep (c : ScanCalls) (w : Nat) (s : ScanState) : Option ScanState :=
  match s.workers[w]? with
  | none => none
  | some .idle =>
    match s.jobs with
    | [] => none
    | j :: jobs => some { s with jobs := jobs, workers := s.workers.set w (.classify j) }
  | some (.classify j) =>
    let slot := s.slots j
    let out := c.classify s.ctx slot.record
    some { (s.setSlot j { slot with
        record := { slot.record with role := out.1 }, err := out.2, judged := true }).note
          slot.index out.2 with
      workers := s.workers.set w (.latch j) }
  | some (.latch j) =>
    some { s.fail (s.slots j).err with workers := s.workers.set w (.send j) }
  | some (.send j) =>
    -- the channel holds one token
    if (s.slots j).done then none
    else some { s.setSlot j { s.slots j with done := true } with workers := s.workers.set w .idle }

/-- Who moves. -/
inductive ScanAction
  | main
  | worker (w : Nat)
  /-- The caller's context ends. -/
  | interrupt (e : Err)
deriving DecidableEq

/-- The pipeline under a scheduler. -/
def scanSystem (e : PruneExecution) (c : ScanCalls) : System ScanState ScanAction where
  step
    | .main, s => mainStep e c s
    | .worker w, s => workerStep c w s
    | .interrupt err, s =>
      if s.parent = none ∧ err.isContext = true then
        some { s with parent := some err, ctx := s.ctx.or (some err) }
      else none

/-! ## Where a pending record is -/

/-- The slot that the coordinator is about to put into the channel. -/
def MainPc.sends : MainPc → List Nat
  | .send j _ => [j]
  | _ => []

/-- The slot whose token the coordinator has taken. -/
def MainPc.takes : MainPc → List Nat
  | .check j _ => [j]
  | .consume j _ => [j]
  | _ => []

namespace ScanState

/-- The pending slots, oldest first. -/
def ring (e : PruneExecution) (s : ScanState) : List Nat := Lib.ring e.capacity s.first s.pending

/-- How often a slot is on its way to a classification. -/
def early (s : ScanState) (j : Nat) : Nat :=
  s.jobs.count j + s.workers.count (.classify j) + s.pc.sends.count j

/-- How often a slot is on its way back. -/
def late (s : ScanState) (j : Nat) : Nat :=
  s.workers.count (.latch j) + s.workers.count (.send j) + (s.slots j).done.toNat +
    s.pc.takes.count j

end ScanState

/-- **Each pending record is in one place**, and the other slots are nowhere. -/
structure Tokens (e : PruneExecution) (s : ScanState) : Prop where
  early : ∀ j, s.early j = if j ∈ s.ring e ∧ (s.slots j).judged = false then 1 else 0
  late  : ∀ j, s.late j = if j ∈ s.ring e ∧ (s.slots j).judged = true then 1 else 0

variable {j : Nat}

/-- A part of the slots that the change of one of them keeps. -/
theorem update_field {α : Type} (f : ScanSlot → α) {slots : Nat → ScanSlot} {slot : ScanSlot}
    (h : f slot = f (slots j)) (i : Nat) :
    f (Function.update slots j slot i) = f (slots i) := by
  rw [Function.apply_update (fun _ => f), h]
  exact congrFun (Function.update_eq_self j fun k => f (slots k)) i

namespace Tokens

variable {e : PruneExecution} {s s' : ScanState}

/-- A move that passes tokens on keeps the counts. -/
theorem passed (h : Tokens e s) (hRing : s'.ring e = s.ring e)
    (hJudged : ∀ j, (s'.slots j).judged = (s.slots j).judged) (hEarly : ∀ j, s'.early j = s.early j)
    (hLate : ∀ j, s'.late j = s.late j) : Tokens e s' where
  early j := by rw [hEarly, hRing, hJudged, h.early]
  late j := by rw [hLate, hRing, hJudged, h.late]

theorem mem_of_early (h : Tokens e s) (hj : 0 < s.early j) :
    j ∈ s.ring e ∧ (s.slots j).judged = false := by
  by_contra hNot
  rw [h.early, if_neg hNot] at hj
  exact absurd hj (by decide)

theorem mem_of_late (h : Tokens e s) (hj : 0 < s.late j) :
    j ∈ s.ring e ∧ (s.slots j).judged = true := by
  by_contra hNot
  rw [h.late, if_neg hNot] at hj
  exact absurd hj (by decide)

theorem late_le (h : Tokens e s) (j : Nat) : s.late j ≤ 1 := by
  rw [h.late]
  split <;> omega

/-- A move of the coordinator that touches neither channel. -/
theorem goto (h : Tokens e s) {pc : MainPc} (hSends : pc.sends = s.pc.sends)
    (hTakes : pc.takes = s.pc.takes) : Tokens e { s with pc := pc } :=
  h.passed rfl (fun _ => rfl) (fun _ => by simp only [ScanState.early, hSends])
    fun _ => by simp only [ScanState.late, hTakes]

/-- A record goes into the free slot behind the pending ones. -/
theorem enqueue (h : Tokens e s) {r : PruneRecord} {todo : Script} (hFull : s.pending < e.capacity)
    (hSends : s.pc.sends = []) (hTakes : s.pc.takes = []) : Tokens e (s.enqueue e r todo) := by
  have hNext : (s.first + s.pending) % e.capacity ∉ s.ring e := next_notMem_ring hFull
  have hRing : (s.enqueue e r todo).ring e =
      s.ring e ++ [(s.first + s.pending) % e.capacity] := ring_succ _ _ _
  constructor
  · intro j
    have hj := h.early j
    rw [ScanState.early, hSends, List.count_nil] at hj
    rw [hRing]
    simp only [ScanState.early, ScanState.enqueue, ScanState.setSlot, MainPc.sends,
      List.count_singleton, beq_iff_eq, List.mem_append, List.mem_singleton]
    by_cases hEq : (s.first + s.pending) % e.capacity = j
    · subst hEq
      rw [if_neg (fun hIn => hNext hIn.1)] at hj
      simp only [Function.update_self, or_true, and_self, if_true]
      omega
    · simp only [Function.update_of_ne (Ne.symm hEq), if_neg hEq, Ne.symm hEq, or_false]
      omega
  · intro j
    have hj := h.late j
    rw [ScanState.late, hTakes, List.count_nil] at hj
    rw [hRing]
    simp only [ScanState.late, ScanState.enqueue, ScanState.setSlot, MainPc.takes,
      List.count_nil, List.mem_append, List.mem_singleton]
    by_cases hEq : (s.first + s.pending) % e.capacity = j
    · subst hEq
      rw [if_neg (fun hIn => hNext hIn.1)] at hj
      simp only [Function.update_self]
      simpa using hj
    · simp only [Function.update_of_ne (Ne.symm hEq), Ne.symm hEq, or_false]
      exact hj

/-- The slot goes from the coordinator into the channel. -/
theorem sent (h : Tokens e s) {todo : Script} (hPc : s.pc = .send j todo) :
    Tokens e { s with jobs := s.jobs ++ [j], pc := .idle todo } := by
  refine h.passed rfl (fun _ => rfl) (fun i => ?_) fun i => ?_
  · simp only [ScanState.early, hPc, MainPc.sends, List.count_append, List.count_nil]
    omega
  · simp only [ScanState.late, hPc, MainPc.takes]

/-- The token leaves the channel of its slot and is held. -/
theorem received (h : Tokens e s) {k : AfterDrain} (hPc : s.pc = .receive j k)
    (hDone : (s.slots j).done = true) :
    Tokens e { s.setSlot j { s.slots j with done := false } with pc := .check j k } := by
  refine h.passed rfl (update_field _ rfl) (fun i => ?_) fun i => ?_
  · simp only [ScanState.early, ScanState.setSlot, hPc, MainPc.sends]
  · simp only [ScanState.late, ScanState.setSlot, hPc, MainPc.takes, List.count_nil]
    by_cases hi : i = j
    · subst hi
      simp [hDone]
    · rw [Function.update_of_ne hi, List.count_singleton, if_neg (by simpa using Ne.symm hi)]

/-- The oldest slot is given back. -/
theorem release (h : Tokens e s) (hFirst : s.first < e.capacity) {k : AfterDrain} {err : Option Err}
    (hTakes : s.pc.takes = [j]) (hSends : s.pc.sends = []) (hj : j = s.first)
    (hPending : 0 < s.pending) (hLe : s.pending ≤ e.capacity) : Tokens e (s.release e j k err) := by
  subst hj
  obtain ⟨n, hn⟩ : ∃ n, s.pending = n + 1 := ⟨s.pending - 1, by omega⟩
  have hRing : s.ring e = s.first :: (s.release e s.first k err).ring e := by
    simp only [ScanState.ring, ScanState.release, ScanState.setSlot, ScanState.fail, hn,
      Nat.add_sub_cancel]
    exact ring_cons hFirst n
  have hNodup : (s.ring e).Nodup := nodup_ring hLe
  rw [hRing, List.nodup_cons] at hNodup
  have hJudged : ∀ i, ((s.release e s.first k err).slots i).judged = (s.slots i).judged :=
    update_field _ rfl
  have hDone : ∀ i, ((s.release e s.first k err).slots i).done = (s.slots i).done :=
    update_field _ rfl
  have hPc : (s.release e s.first k err).pc.sends = [] ∧
      (s.release e s.first k err).pc.takes = [] := by
    cases err with
    | some err => exact ⟨rfl, rfl⟩
    | none => cases k <;> exact ⟨rfl, rfl⟩
  -- the slot that is given back was classified, and its token is held
  have hHeld : (s.slots s.first).judged = true := by
    refine (h.mem_of_late ?_).2
    simp [ScanState.late, hTakes]
  constructor
  · intro i
    have := h.early i
    rw [hRing] at this
    rw [hJudged]
    simp only [ScanState.early, hSends, hPc.1, List.mem_cons] at this ⊢
    refine Eq.trans this ?_
    by_cases hi : i = s.first
    · subst hi
      simp [hHeld]
    · simp [hi]
  · intro i
    have := h.late i
    rw [hRing] at this
    rw [hJudged]
    simp only [ScanState.late, hTakes, hPc.2, hDone, List.mem_cons, List.count_singleton,
      List.count_nil, beq_iff_eq] at this ⊢
    by_cases hi : i = s.first
    · subst hi
      rw [if_neg fun hIn => hNodup.1 hIn.1]
      simp only [hHeld, true_or, and_self, if_true] at this
      show s.workers.count _ + s.workers.count _ + _ + 0 = 0
      omega
    · rw [if_neg (Ne.symm hi)] at this
      simp only [hi, false_or] at this
      exact this

/-! ### Moves of the workers -/

variable {w j : Nat}

/-- A worker takes a slot from the channel. -/
theorem taken (h : Tokens e s) {jobs : List Nat} (hWorker : s.workers[w]? = some .idle)
    (hJobs : s.jobs = j :: jobs) :
    Tokens e { s with jobs := jobs, workers := s.workers.set w (.classify j) } := by
  refine h.passed rfl (fun _ => rfl) (fun i => ?_) fun i => ?_
  · have hSet := count_set_add hWorker (.classify j) (.classify i)
    simp only [WorkerPc.classify.injEq, reduceCtorEq, if_false] at hSet
    simp only [ScanState.early, hJobs, List.count_cons, beq_iff_eq]
    omega
  · have hLatch := count_set_add hWorker (.classify j) (.latch i)
    have hSend := count_set_add hWorker (.classify j) (.send i)
    simp only [reduceCtorEq, if_false] at hLatch hSend
    simp only [ScanState.late]
    omega

/-- The slot of a worker that classifies is pending and was not classified. -/
theorem early_pos_of_classify (hWorker : s.workers[w]? = some (.classify j)) : 0 < s.early j := by
  have : 0 < s.workers.count (.classify j) :=
    List.count_pos_iff.mpr (List.mem_of_getElem? hWorker)
  simp only [ScanState.early]
  omega

/-- **A send on a slot's channel never blocks.** -/
theorem done_of_send (h : Tokens e s) (hWorker : s.workers[w]? = some (.send j)) :
    (s.slots j).done = false := by
  have hPos : 0 < s.workers.count (.send j) := List.count_pos_iff.mpr (List.mem_of_getElem? hWorker)
  have hLe := h.late_le j
  simp only [ScanState.late] at hLe
  cases hDone : (s.slots j).done with
  | false => rfl
  | true =>
    rw [hDone, Bool.toNat_true] at hLe
    omega

/-- A classification takes the slot from the early places to the late ones. -/
theorem classified (h : Tokens e s) {slot : ScanSlot} {failures : List Nat}
    (hWorker : s.workers[w]? = some (.classify j)) (hJudged : slot.judged = true)
    (hDone : slot.done = (s.slots j).done) :
    Tokens e { s.setSlot j slot with
      workers := s.workers.set w (.latch j), failures := failures } := by
  obtain ⟨hMem, hOld⟩ := h.mem_of_early (early_pos_of_classify hWorker)
  have hSame : Function.update s.slots j slot j = slot := Function.update_self ..
  have hOther : ∀ i, i ≠ j → Function.update s.slots j slot i = s.slots i := fun i hi =>
    Function.update_of_ne hi ..
  constructor
  · intro i
    have hi := h.early i
    have hSet := count_set_add hWorker (.latch j) (.classify i)
    simp only [ScanState.early, WorkerPc.classify.injEq, reduceCtorEq, if_false] at hi hSet
    show s.jobs.count i + (s.workers.set w (.latch j)).count (.classify i) + s.pc.sends.count i =
      if i ∈ s.ring e ∧ (Function.update s.slots j slot i).judged = false then 1 else 0
    by_cases hEq : i = j
    · subst hEq
      rw [if_pos ⟨hMem, hOld⟩] at hi
      rw [hSame, if_neg (by simp [hJudged])]
      simp only [if_true] at hSet
      omega
    · rw [hOther i hEq]
      rw [if_neg (Ne.symm hEq)] at hSet
      refine Eq.trans ?_ hi
      omega
  · intro i
    have hi := h.late i
    have hLatch := count_set_add hWorker (.latch j) (.latch i)
    have hSend := count_set_add hWorker (.latch j) (.send i)
    simp only [ScanState.late, WorkerPc.latch.injEq, reduceCtorEq, if_false] at hi hLatch hSend
    show (s.workers.set w (.latch j)).count (.latch i) + (s.workers.set w (.latch j)).count
        (.send i) + (Function.update s.slots j slot i).done.toNat + s.pc.takes.count i =
      if i ∈ s.ring e ∧ (Function.update s.slots j slot i).judged = true then 1 else 0
    by_cases hEq : i = j
    · subst hEq
      rw [if_neg (by simp [hOld])] at hi
      rw [hSame, if_pos ⟨hMem, hJudged⟩, hDone]
      simp only [if_true] at hLatch
      omega
    · rw [hOther i hEq]
      rw [if_neg (Ne.symm hEq)] at hLatch
      refine Eq.trans ?_ hi
      omega

/-- A worker goes on from the failure latch to its send. -/
theorem latched (h : Tokens e s) {err : Option Err} (hWorker : s.workers[w]? = some (.latch j)) :
    Tokens e { s.fail err with workers := s.workers.set w (.send j) } := by
  refine h.passed rfl (fun _ => rfl) (fun i => ?_) fun i => ?_
  · have hSet := count_set_add hWorker (.send j) (.classify i)
    simp only [reduceCtorEq, if_false] at hSet
    simp only [ScanState.early, ScanState.fail]
    omega
  · have hLatch := count_set_add hWorker (.send j) (.latch i)
    have hSend := count_set_add hWorker (.send j) (.send i)
    simp only [WorkerPc.latch.injEq, WorkerPc.send.injEq, reduceCtorEq, if_false] at hLatch hSend
    simp only [ScanState.late, ScanState.fail]
    omega

/-- A worker puts the token into the channel of its slot. -/
theorem finished (h : Tokens e s) (hWorker : s.workers[w]? = some (.send j)) :
    Tokens e { s.setSlot j { s.slots j with done := true } with
      workers := s.workers.set w .idle } := by
  have hDone := h.done_of_send hWorker
  refine h.passed rfl (update_field _ rfl) (fun i => ?_) fun i => ?_
  · have hSet := count_set_add hWorker .idle (.classify i)
    simp only [reduceCtorEq, if_false] at hSet
    simp only [ScanState.early, ScanState.setSlot]
    omega
  · have hLatch := count_set_add hWorker .idle (.latch i)
    have hSend := count_set_add hWorker .idle (.send i)
    simp only [WorkerPc.send.injEq, reduceCtorEq, if_false] at hLatch hSend
    simp only [ScanState.late, ScanState.setSlot]
    by_cases hEq : i = j
    · subst hEq
      simp only [Function.update_self, hDone, Bool.toNat_true, Bool.toNat_false, if_true] at hSend ⊢
      omega
    · rw [Function.update_of_ne hEq]
      rw [if_neg (Ne.symm hEq)] at hSend
      omega

end Tokens

end L2State
