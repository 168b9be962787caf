import L2State.Prune.Keep

/-!
# L2State — the keep set is complete

What `collectPruneState` leaves in the keep database, for every traversal and every
schedule of its reads.

* `CollectInv` — **the invariant**: an answered record is in the keep database or in a
  batch; nothing else is while nothing has failed; a failure is in the latch, or its
  thread is about to put it there.
* `readSystem`, `CollectState.replay` — the same traversal over a database alone; it
  gets the same answers from every database that has the answered records.
* `collectEnd_spec` — the genesis root and the last batches.
-/

namespace L2State

open Lib

/-! ## The invariant -/

/-- What is known of a record on its way through `Get`. -/
def GetPc.Valid (g : PruneHost) (source : Store) (reads : List (Bytes × Bytes)) : GetPc → Prop
  | .load key value => key.length = 32 ∧ source.get? key = some value
  | .shard key hash value => hash.bytes = key ∧ source.get? key = some value ∧ g.keccak value = hash
  | .done key (.ok value) => source.get? key = some value ∧ (key.length = 32 → (key, value) ∈ reads)
  | _ => True

variable {pc : GetPc}

theorem GetPc.Valid.mono {g : PruneHost} {source : Store} {reads later : List (Bytes × Bytes)}
    (h : pc.Valid g source reads) (hSub : ∀ p ∈ reads, p ∈ later) : pc.Valid
    g source later := by
  cases pc with
  | done key answer =>
    cases answer with
    | ok value => exact ⟨h.1, fun hLength => hSub _ (h.2 hLength)⟩
    | error err => trivial
  | _ => exact h

/-- The call is about to record its failure. -/
def GetPc.isLatch : GetPc → Bool
  | .latch _ _ => true
  | _ => false

structure CollectInv {σ : Type} (g : PruneHost) (l : KeepLimits) (source : Store)
    (s : CollectState σ) :
    Prop where
  writer  : s.writer.Inv g l source
  calls   : ∀ t pc, s.calls t = some pc → pc.Valid g source s.reads
  stored  : ∀ p ∈ s.reads, s.writer.Stored l p.1 p.2
  only    : s.writer.faulted = false → ∀ k v, s.writer.Stored l k v → (k, v) ∈ s.reads
  latched : s.writer.faulted = true → s.writer.failure ≠ none ∨
    ∃ t pc, s.calls t = some pc ∧ pc.isLatch = true

namespace CollectInv

variable {σ : Type} {T : StateReader σ} {g : PruneHost} {l : KeepLimits} {source : Store}
  {s s' : CollectState σ} {t : Nat}

theorem init : CollectInv g l source (CollectState.init T) where
  writer := KeepWriter.start_inv
  calls _ _ h := nomatch h
  stored := nofun
  only _ k v h := by
    rcases h with h | ⟨i, -, hash, -, hMem⟩
    · cases h
    · cases hMem
  latched h := nomatch h

/-- The call of one thread has moved. -/
theorem calls_update {call : Option GetPc} {reads : List (Bytes × Bytes)}
    (h : CollectInv g l source s) (hSub : ∀ p ∈ s.reads, p ∈ reads)
    (hCall : ∀ pc, call = some pc → pc.Valid g source reads) :
    ∀ m pc, Function.update s.calls t call m = some pc → pc.Valid g source reads :=
  (Function.forall_update_iff s.calls fun _ call =>
    ∀ pc, call = some pc →
      pc.Valid g source reads).mpr ⟨hCall, fun m _ pc hOld => (h.calls m pc hOld).mono hSub⟩

theorem goto_calls {reads : List (Bytes × Bytes)} (h : CollectInv g l source s)
    (hSub : ∀ p ∈ s.reads, p ∈ reads) (hPc : pc.Valid g source reads) :
    ∀ m pc', Function.update s.calls t (some pc) m = some pc' → pc'.Valid g source reads :=
  h.calls_update hSub fun _ hEq => Option.some.inj hEq ▸ hPc

/-- The other calls that are about to record a failure still are. -/
theorem latch_update {pc : Option GetPc} (hHere : ∀ old, s.calls t = some old → old.isLatch = false)
    (h : ∃ m pc, s.calls m = some pc ∧ pc.isLatch = true) :
    ∃ m pc', Function.update s.calls t pc m = some pc' ∧ pc'.isLatch = true := by
  obtain ⟨m, pc', hCall, hLatch⟩ := h
  have hNe : m ≠ t := by
    rintro rfl
    rw [hHere pc' hCall] at hLatch
    cases hLatch
  exact ⟨m, pc', by rwa [Function.update_of_ne hNe], hLatch⟩

/-- A call that moves without touching the writer. -/
theorem goto (h : CollectInv g l source s) (hPc : pc.Valid g source s.reads)
    (hHere : ∀ old, s.calls t = some old → old.isLatch = false) :
    CollectInv g l source (s.goto t pc) where
  writer := h.writer
  calls := h.goto_calls (fun _ hp => hp) hPc
  stored := h.stored
  only := h.only
  latched hFault := (h.latched hFault).imp_right (latch_update hHere)

/-- The check of the hash fails. -/
theorem refused (h : CollectInv g l source s) (key : Bytes) (err : Err) :
    CollectInv g l source
      ({ s with writer := { s.writer with faulted := true } }.goto t (.latch key err)) where
  writer := ⟨h.writer.agrees, h.writer.pending⟩
  calls := h.goto_calls (fun _ hp => hp) trivial
  stored := h.stored
  only hFault := nomatch hFault
  latched _ := .inr ⟨t, _, Function.update_self .., rfl⟩

/-- The record goes to its shard. -/
theorem sharded (h : CollectInv g l source s) {key value : Bytes} {hash : Hash} (fault : BatchFault)
    (hCall : s.calls t = some (.shard key hash value)) :
    CollectInv g l source (s.sharded t key value (s.writer.shardPut l fault hash value)) := by
  obtain ⟨rfl, hSource, hHash⟩ := h.calls t _ hCall
  have hPuts := KeepWriter.shardPut_puts h.writer fault hSource hHash
  have hHere : ∀ old, s.calls t = some old → old.isLatch = false := by
    intro old hOld
    rw [hCall] at hOld
    exact Option.some.inj hOld ▸ rfl
  generalize s.writer.shardPut l fault hash value = out at hPuts
  obtain ⟨w, err⟩ := out
  have hFaulted := hPuts.faulted
  cases err with
  | some err =>
    rw [Option.isSome_some, Bool.or_true] at hFaulted
    refine ⟨hPuts.inv, h.goto_calls (fun _ hp => hp) trivial, fun p hp =>
      hPuts.keeps (h.stored p hp), ?_, fun _ => .inr ⟨t, _, Function.update_self .., rfl⟩⟩
    intro hNo
    exact absurd (hFaulted.symm.trans hNo) (by decide)
  | none =>
    rw [Option.isSome_none, Bool.or_false] at hFaulted
    have hSub : ∀ p ∈ s.reads, p ∈ s.reads ++ [(hash.bytes, value)] := fun p hp =>
      List.mem_append_left _ hp
    have hNew : (hash.bytes, value) ∈ s.reads ++ [(hash.bytes, value)] :=
      List.mem_append_right _ (List.mem_singleton.mpr rfl)
    refine ⟨hPuts.inv, h.goto_calls hSub ⟨hSource, fun _ => hNew⟩, ?_, ?_, ?_⟩
    · intro p hp
      rcases List.mem_append.mp hp with hp | hp
      · exact hPuts.keeps (h.stored p hp)
      · rw [List.mem_singleton] at hp
        exact hp ▸ hPuts.stores rfl
    · intro hNo k v hStored
      rcases hPuts.only hStored with hOld | ⟨rfl, rfl⟩
      · exact hSub _ (h.only (hFaulted.symm.trans hNo) k v hOld)
      · exact hNew
    · intro hFault
      refine (h.latched (hFaulted.symm.trans hFault)).imp (fun hFail => ?_) (latch_update hHere)
      exact hPuts.failure ▸ hFail

/-- The failure is recorded. -/
theorem recorded (h : CollectInv g l source s) (key : Bytes) (err : Err) (ctx : Option Err) :
    CollectInv g l source
      ({ s with writer := s.writer.fail err, ctx := ctx }.goto t (.done key (.error err))) where
  writer := ⟨h.writer.agrees, h.writer.pending⟩
  calls := h.goto_calls (fun _ hp => hp) trivial
  stored := h.stored
  only := h.only
  latched _ :=
    .inl (by cases hFail : s.writer.failure <;> simp [CollectState.goto, KeepWriter.fail, hFail])

/-- The caller has its answer. -/
theorem returned (h : CollectInv g l source s) {key : Bytes} {answer : Except Err Bytes}
    (hCall : s.calls t = some (.done key answer)) (client : σ) (missed : Bool) :
    CollectInv g l source { s with
      client := client, calls := Function.update s.calls t none, missed := missed } where
  writer := h.writer
  calls := h.calls_update (fun _ hp => hp) nofun
  stored := h.stored
  only := h.only
  latched hFault := by
    refine (h.latched hFault).imp_right (latch_update ?_)
    intro old hOld
    rw [hCall] at hOld
    exact Option.some.inj hOld ▸ rfl

/-- A move of a call keeps the invariant. -/
theorem getStep (h : CollectInv g l source s) (fault : GetFault) (hCall : s.calls t = some pc) :
    CollectInv g l source (getStep T g l source s t fault pc) := by
  have hValid := h.calls t pc hCall
  have hHere : pc.isLatch = false → ∀ old, s.calls t = some old → old.isLatch = false := by
    intro hPc old hOld
    rw [hCall] at hOld
    exact Option.some.inj hOld ▸ hPc
  cases pc with
  | read key =>
    simp only [L2State.getStep]
    split
    · refine h.goto ?_ (hHere rfl)
      trivial
    · refine h.goto ?_ (hHere rfl)
      trivial
    next hGet =>
      split
      next hLength =>
        refine h.goto ?_ (hHere rfl)
        exact ⟨hLength, hGet⟩
      next hLength =>
        refine h.goto ?_ (hHere rfl)
        exact ⟨hGet, fun hEq => absurd hEq hLength⟩
  | load key value =>
    simp only [L2State.getStep]
    split
    · refine h.goto ?_ (hHere rfl)
      trivial
    · split
      · exact h.refused key _
      next hOk =>
        obtain ⟨hLength, hSource⟩ := hValid
        have hBytes : (FixedBytes.ofBytes 32 key).bytes = key :=
          congrArg FixedBytes.bytes (FixedBytes.ofBytes_bytes (⟨key, hLength⟩ : Hash))
        have hHash : g.keccak value = .ofBytes 32 key := by
          simpa [KeepWriter.refuses, hLength] using hOk
        refine h.goto ?_ (hHere rfl)
        exact ⟨hBytes, hSource, hHash⟩
  | shard key hash value => exact h.sharded fault.batch hCall
  | latch key err => exact h.recorded key err _
  | done key answer => exact h.returned hCall _ _

/-- Every move keeps the invariant. -/
theorem step {a : CollectAction} (h : CollectInv g l source s)
    (hStep : (collectSystem T g l source).step a s = some s') : CollectInv g l source s' := by
  cases a with
  | client t =>
    simp only [collectSystem] at hStep
    split at hStep
    next => cases hStep; exact ⟨h.writer, h.calls, h.stored, h.only, h.latched⟩
    next key c hNone _ =>
      cases hStep
      have h' : CollectInv g l source { s with client := c } :=
        ⟨h.writer, h.calls, h.stored, h.only, h.latched⟩
      refine h'.goto ?_ ?_
      · trivial
      · intro old hOld
        exact absurd (hNone.symm.trans hOld) (by simp)
    next => cases hStep
  | get t fault =>
    obtain ⟨pc, hCall, rfl⟩ := Option.map_eq_some_iff.mp hStep
    exact h.getStep fault hCall
  | cancel err =>
    cases hStep
    exact ⟨h.writer, h.calls, h.stored, h.only, h.latched⟩

theorem run {t : List CollectAction}
    (hRun : (collectSystem T g l source).run t (CollectState.init T) = some s) :
    CollectInv g l source s :=
  System.run_invariant (fun _ _ _ hInv hStep => hInv.step hStep) init hRun

end CollectInv

/-! ## What the traversal sees -/

/-- A move of the call of the thread `t` that the traversal does not see. -/
structure CollectState.Hidden {σ : Type} (s s' : CollectState σ) (t : Nat) (key : Bytes) :
    Prop where
  calls  : ∃ pc : GetPc, s'.calls = Function.update s.calls t (some pc) ∧ pc.key = key
  client : s'.client = s.client
  missed : s'.missed = s.missed
  reads  : s'.reads = s.reads ∨ ∃ value, s'.reads = s.reads ++ [(key, value)]
  ctx    : s'.writer.failure = none → s.writer.failure = none ∧ s'.ctx = s.ctx

/-- The call is on the way back to its caller. -/
def GetPc.isDone : GetPc → Bool
  | .done _ _ => true
  | _ => false

/-- **The traversal sees its calls and their answers, and nothing in between.** -/
theorem CollectInv.hidden {σ : Type} {T : StateReader σ} {g : PruneHost} {l : KeepLimits}
    {source : Store} {s : CollectState σ} {t : Nat} (h : CollectInv g l source s)
    (hCall : s.calls t = some pc) (fault : GetFault) (hDone : pc.isDone = false) :
    s.Hidden (L2State.getStep T g l source s t fault pc) t pc.key := by
  have hGoto : ∀ pc' : GetPc, pc'.key = pc.key → s.Hidden (s.goto t pc') t pc.key := fun pc' hKey =>
    ⟨⟨pc', rfl, hKey⟩, rfl, rfl, .inl rfl, fun hFail => ⟨hFail, rfl⟩⟩
  cases pc with
  | read key =>
    simp only [L2State.getStep]
    split
    · exact hGoto _ rfl
    · exact hGoto _ rfl
    · split
      · exact hGoto _ rfl
      · exact hGoto _ rfl
  | load key value =>
    simp only [L2State.getStep]
    split
    · exact hGoto _ rfl
    · split
      · exact ⟨⟨_, rfl, rfl⟩, rfl, rfl, .inl rfl, fun hFail => ⟨hFail, rfl⟩⟩
      · exact hGoto _ rfl
  | shard key hash value =>
    obtain ⟨rfl, hSource, hHash⟩ := h.calls t _ hCall
    have hPuts := KeepWriter.shardPut_puts h.writer fault.batch hSource hHash
    simp only [L2State.getStep]
    generalize s.writer.shardPut l fault.batch hash value = out at hPuts
    obtain ⟨w, err⟩ := out
    have hFailure : w.failure = s.writer.failure := hPuts.failure
    cases err with
    | some err => exact ⟨⟨_, rfl, rfl⟩, rfl, rfl, .inl rfl, fun hFail => ⟨hFailure ▸ hFail, rfl⟩⟩
    | none =>
      exact ⟨⟨_, rfl, rfl⟩, rfl, rfl, .inr ⟨value, rfl⟩, fun hFail => ⟨hFailure ▸ hFail, rfl⟩⟩
  | latch key err =>
    -- a failure is recorded
    refine ⟨⟨_, rfl, rfl⟩, rfl, rfl, .inl rfl, fun hFail => ?_⟩
    have hFail : s.writer.failure.or (some err) = none := hFail
    exact absurd hFail (by cases s.writer.failure <;> simp)
  | done key answer => cases hDone

/-! ## The traversal over one database -/

/-- A traversal whose calls wait for their answers. -/
structure ReadState (σ : Type) where
  client  : σ
  waiting : Nat → Option Bytes
  ctx     : Option Err

inductive ReadAction
  | client (t : Nat)
  | answer (t : Nat)
  | cancel (err : Err)

section Replay

variable {σ : Type} (T : StateReader σ)

def ReadState.init : ReadState σ := ⟨T.start, fun _ => none, none⟩

/-- The traversal over a database under a scheduler. -/
def readSystem (db : Store) : System (ReadState σ) ReadAction where
  step
    | .client t, s =>
      match s.waiting t, T.move t s.ctx s.client with
      | none, some (.inner c) => some { s with client := c }
      | none, some (.get key c) =>
        some { s with client := c, waiting := Function.update s.waiting t (some key) }
      | _, _ => none
    | .answer t, s =>
      (s.waiting t).map fun key =>
        { s with
          client := T.resume t (Store.answer db key) s.client
          waiting := Function.update s.waiting t none }
    | .cancel err, s => some { s with ctx := s.ctx.or (some err) }

/-- The traversal reads nodes and codes, which are stored under their hashes. -/
def StateReader.ReadsHashes : Prop :=
  ∀ {t ctx c key next}, T.move t ctx c = some (.get key next) → key.length = 32

/-- What the traversal sees of a state. -/
def CollectState.view {σ : Type} (s : CollectState σ) : ReadState σ :=
  ⟨s.client, fun t => (s.calls t).map GetPc.key, s.ctx⟩

/-- A run over `db` that looks the same to the traversal, as long as nothing failed and
`db` has what was answered. -/
structure Replays (db : Store) (s : CollectState σ) : Prop where
  hashes : ∀ t pc, s.calls t = some pc → pc.key.length = 32
  run    : s.writer.failure = none → s.missed = false → (∀ p ∈ s.reads, db.get? p.1 = some p.2) →
    ∃ t, (readSystem T db).run t (ReadState.init T) = some s.view

namespace Replays

variable {T} {g : PruneHost} {l : KeepLimits} {source db : Store} {s s' : CollectState σ} {t : Nat}

theorem init : Replays T db (CollectState.init T) where
  hashes _ _ h := nomatch h
  run _ _ _ := ⟨[], rfl⟩

theorem hashes_update {call : Option GetPc} (h : Replays T db s)
    (hCall : ∀ pc, call = some pc → pc.key.length = 32) :
    ∀ m pc, Function.update s.calls t call m = some pc → pc.key.length = 32 :=
  (Function.forall_update_iff s.calls fun _ call => ∀ pc, call = some pc → pc.key.length = 32).mpr
    ⟨hCall, fun m _ => h.hashes m⟩

/-- The keys that the traversal waits for, after a call has moved. -/
theorem waiting_update (calls : Nat → Option GetPc) (t : Nat) (call : Option GetPc) :
    (fun m => (Function.update calls t call m).map GetPc.key) =
      Function.update (fun m => (calls m).map GetPc.key) t (call.map GetPc.key) := by
  funext m
  by_cases hEq : m = t
  · subst hEq
    rw [Function.update_self, Function.update_self]
  · rw [Function.update_of_ne hEq, Function.update_of_ne hEq]

/-- A move of a call that the traversal does not see. -/
theorem hidden (h : Replays T db s) {old : GetPc} (hCall : s.calls t = some old)
    (hHidden : s.Hidden s' t old.key) : Replays T db s' := by
  obtain ⟨⟨pc, hCalls, hKey⟩, hClient, hMissed, hReads, hCtx⟩ := hHidden
  constructor
  · rw [hCalls]
    exact h.hashes_update fun _ hEq => Option.some.inj hEq ▸ hKey ▸ h.hashes t old hCall
  · intro hFail hMiss hDb
    obtain ⟨hFail, hCtx⟩ := hCtx hFail
    have hSub : ∀ p ∈ s.reads, p ∈ s'.reads := by
      rcases hReads with hEq | ⟨value, hEq⟩
      · exact fun p hp => hEq ▸ hp
      · exact fun p hp => hEq ▸ List.mem_append_left _ hp
    obtain ⟨actions, hRun⟩ := h.run hFail (hMissed ▸ hMiss) fun p hp => hDb p (hSub p hp)
    refine ⟨actions, hRun.trans (congrArg some ?_)⟩
    have hOld : (s.calls t).map GetPc.key = some old.key := by rw [hCall]; rfl
    rw [CollectState.view, CollectState.view, hCalls, waiting_update, hClient, hCtx,
      Option.map_some, hKey, ← hOld, Function.update_eq_self]

/-- The answer of a call is the answer of the database. -/
theorem answered (h : Replays T db s) (hInv : CollectInv g l source s) {key : Bytes}
    {answer : Except Err Bytes} (hCall : s.calls t = some (.done key answer)) :
    Replays T db (getStep T g l source s t ⟨none, none, none⟩ (.done key answer)) where
  hashes := h.hashes_update nofun
  run hFail hMiss hDb := by
    have hMiss : (s.missed || answer.toOption.isNone) = false := hMiss
    rw [Bool.or_eq_false_iff] at hMiss
    obtain ⟨actions, hRun⟩ := h.run hFail hMiss.1 hDb
    have hAnswer : Store.answer db key = answer := by
      cases answer with
      | error err => cases hMiss.2
      | ok value =>
        have hRead := (hInv.calls t _ hCall).2 (h.hashes t _ hCall)
        rw [Store.answer, hDb _ hRead]
    refine ⟨actions ++ [.answer t], System.run_append_eq_some.mpr ⟨_, hRun, ?_⟩⟩
    refine System.run_cons_eq_some.mpr ⟨_, ?_, rfl⟩
    have hWaiting : s.view.waiting t = some key := by
      show (s.calls t).map GetPc.key = some key
      rw [hCall]
      rfl
    show (s.view.waiting t).map _ = some _
    rw [hWaiting, Option.map_some]
    rw [hAnswer]
    simp only [getStep, CollectState.view, waiting_update, Option.map_none]

/-- Every move of the collection can be replayed. -/
theorem step {a : CollectAction} (hHashes : T.ReadsHashes) (hInv : CollectInv g l source s)
    (h : Replays T db s) (hStep : (collectSystem T g l source).step a s = some s') :
    Replays T db s' := by
  cases a with
  | client t =>
    simp only [collectSystem] at hStep
    split at hStep
    next c hNone hMove =>
      cases hStep
      refine ⟨h.hashes, fun hFail hMiss hDb => ?_⟩
      obtain ⟨actions, hRun⟩ := h.run hFail hMiss hDb
      refine ⟨actions ++ [.client t], System.run_append_eq_some.mpr ⟨_, hRun, ?_⟩⟩
      refine System.run_cons_eq_some.mpr ⟨_, ?_, rfl⟩
      simp [readSystem, CollectState.view, hNone, hMove]
    next key c hNone hMove =>
      cases hStep
      refine ⟨h.hashes_update fun _ hEq => Option.some.inj hEq ▸ hHashes hMove,
        fun hFail hMiss hDb => ?_⟩
      obtain ⟨actions, hRun⟩ := h.run hFail hMiss hDb
      refine ⟨actions ++ [.client t], System.run_append_eq_some.mpr ⟨_, hRun, ?_⟩⟩
      refine System.run_cons_eq_some.mpr ⟨_, ?_, rfl⟩
      simp [readSystem, CollectState.view, CollectState.goto, hNone, hMove,
        waiting_update, GetPc.key]
    next => cases hStep
  | get t fault =>
    obtain ⟨pc, hCall, rfl⟩ := Option.map_eq_some_iff.mp hStep
    cases hDone : pc.isDone with
    | false => exact h.hidden hCall (hInv.hidden hCall fault hDone)
    | true =>
      cases pc with
      | done key answer => exact h.answered hInv hCall
      | _ => cases hDone
  | cancel err =>
    cases hStep
    refine ⟨h.hashes, fun hFail hMiss hDb => ?_⟩
    obtain ⟨actions, hRun⟩ := h.run hFail hMiss hDb
    exact ⟨actions ++ [.cancel err], System.run_append_eq_some.mpr ⟨_, hRun, rfl⟩⟩

theorem of_run {actions : List CollectAction} (hHashes : T.ReadsHashes)
    (hRun : (collectSystem T g l source).run actions (CollectState.init T) = some s) :
    Replays T db s := by
  have hInit : CollectInv g l source (CollectState.init T) ∧ Replays T db (CollectState.init T) :=
    ⟨CollectInv.init, init⟩
  have hKeep : ∀ a s s', (CollectInv g l source s ∧ Replays T db s) →
      (collectSystem T g l source).step a s = some s' → CollectInv g l source s' ∧
        Replays T db s' :=
    fun _ _ _ h hStep => ⟨h.1.step hStep, h.2.step hHashes h.1 hStep⟩
  exact (System.run_invariant hKeep hInit hRun).2

end Replays

end Replay

/-! ## After the traversal -/

namespace KeepWriter

variable {g : PruneHost} {l : KeepLimits} {source : Store} {w w' : KeepWriter}

/-- A put of a record of the source, when no other thread is at work. -/
theorem put_eq_none (h : w.Inv g l source) {fault : BatchFault} {hash : Hash} {value : Bytes}
    (hSource : source.get? hash.bytes = some value) (hHash : g.keccak value = hash)
    (hPut : w.put g l fault hash.bytes value = (w', none)) :
    w.failure = none ∧ Puts g l source hash.bytes value w (w', none) := by
  unfold put at hPut
  split at hPut
  next => cases hPut
  next hFail =>
    have hAccepts : refuses g hash.bytes value = false := by
      simp [refuses, hHash, FixedBytes.length_bytes]
    rw [if_neg (by simp [hAccepts]), FixedBytes.ofBytes_bytes] at hPut
    have hPuts := shardPut_puts h fault hSource hHash
    generalize w.shardPut l fault hash value = out at hPut hPuts
    obtain ⟨w'', err⟩ := out
    cases err with
    | some err => cases hPut
    | none =>
      cases hPut
      exact ⟨hFail, hPuts⟩

/-- What a sequence of batches that are all written leaves. -/
structure Closed (g : PruneHost) (l : KeepLimits) (source : Store) (w w' : KeepWriter) : Prop where
  inv     : w'.Inv g l source
  stored  : ∀ k v, w'.Stored l k v ↔ w.Stored l k v
  faulted : w'.faulted = w.faulted
  drained : ∀ i, (w.shards i).batch = [] → (w'.shards i).batch = []

/-- The shards that were closed have empty batches. -/
theorem closeShards_eq_none {ctx : Nat → Option Err} {fault : Nat → Option (Err × Bool)}
    {shards : List Nat} (h : w.Inv g l source) (hShards : ∀ i ∈ shards, i < l.workers)
    (hClose : closeShards ctx fault shards w = (w', none)) :
    Closed g l source w w' ∧ ∀ i ∈ shards, (w'.shards i).batch = [] := by
  induction shards generalizing w with
  | nil =>
    cases hClose
    exact ⟨⟨h, fun _ _ => Iff.rfl, rfl, fun _ hi => hi⟩, nofun⟩
  | cons i rest ih =>
    obtain ⟨hi, hRest⟩ := List.forall_mem_cons.mp hShards
    unfold closeShards at hClose
    split at hClose
    next => cases hClose
    next =>
      cases hFault : fault i with
      | some p =>
        rw [hFault] at hClose
        cases hClose
      | none =>
        rw [hFault] at hClose
        have hStored : ∀ k v, (w.flush none i).1.Stored l k v ↔ w.Stored l k v :=
          fun _ _ => stored_flush h none hi
        have hEmpty : ∀ m, (m = i ∨ (w.shards m).batch = []) →
            ((w.flush none i).1.shards m).batch = [] := by
          intro m hm
          simp only [flush, setShard]
          by_cases hEq : m = i
          · subst hEq
            rw [Function.update_self]
            rfl
          · rw [Function.update_of_ne hEq]
            exact hm.resolve_left hEq
        obtain ⟨hClosed, hDrained⟩ := ih (flush_inv h none hi) hRest hClose
        refine ⟨⟨hClosed.inv, fun k v => (hClosed.stored k v).trans (hStored k v),
          hClosed.faulted, ?_⟩, ?_⟩
        · exact fun m hm => hClosed.drained m (hEmpty m (.inr hm))
        · exact List.forall_mem_cons.mpr ⟨hClosed.drained i (hEmpty i (.inl rfl)), hDrained⟩

/-- After `close` everything is in the keep database. -/
theorem close_eq_none {ctx : Nat → Option Err} {fault : Nat → Option (Err × Bool)}
    (h : w.Inv g l source) (hClose : w.close l ctx fault = (w', none)) :
    w'.faulted = w.faulted ∧ ∀ k v, w'.keep.get? k = some v ↔ w.Stored l k v := by
  unfold close at hClose
  split at hClose
  next => cases hClose
  next =>
    obtain ⟨hClosed, hDrained⟩ := closeShards_eq_none h (fun i hi => List.mem_range.mp hi) hClose
    refine ⟨hClosed.faulted, fun k v => ?_⟩
    rw [← hClosed.stored]
    constructor
    · exact .inl
    · rintro (hKeep | ⟨i, hi, hash, -, hMem⟩)
      · exact hKeep
      · rw [hDrained i (List.mem_range.mpr hi)] at hMem
        cases hMem

end KeepWriter

/-- The genesis root of `readPruneGenesis`. -/
theorem readPruneGenesis_eq_ok {g : Geth} {validateRoot : Store → Hash → Except Err Unit}
    {db : Store} {genesis : Hash} {node : Bytes}
    (h : readPruneGenesis g validateRoot db = .ok (genesis, node)) :
    (genesis = emptyRootHash ∧ node = []) ∨
      (genesis ≠ emptyRootHash ∧ db.get? genesis.bytes = some node ∧ g.keccak node = genesis ∧
        validateRoot db genesis = .ok ()) := by
  unfold readPruneGenesis at h
  simp only [bind_eq_ok, require_eq_ok] at h
  obtain ⟨_, -, _, -, header, -, _, -, h⟩ := h
  split at h
  next hEmpty =>
    cases h
    exact .inl ⟨hEmpty, rfl⟩
  next hRoot =>
    split at h
    next => cases h
    next value hGet =>
      simp only [bind_eq_ok, require_eq_ok] at h
      obtain ⟨_, hHash, _, hValid, h⟩ := h
      cases h
      exact .inr ⟨hRoot, hGet, hHash, hValid⟩

/-- The host of a geth. -/
def Geth.pruneHost (g : Geth) (parseAddr : Bytes → Bool) : PruneHost := ⟨g.keccak, parseAddr⟩

/-! ## Main result -/

section Result

variable {σ : Type} {T : StateReader σ} {g : PruneHost} {l : KeepLimits} {source : Store}
  {r : Except Err StateResult} {s : CollectState σ} {env : CollectEnv} {genesis : Hash}
    {node : Bytes}

/-- The records that the keep database is to have. -/
def KeepRecord (s : CollectState σ) (genesis : Hash) (node : Bytes) (k v : Bytes) : Prop :=
  (k, v) ∈ s.reads ∨ (genesis ≠ emptyRootHash ∧ k = genesis.bytes ∧ v = node)

/-- The genesis root is one of the records of the source, or there is none. -/
structure GenesisRoot (g : PruneHost) (source : Store) (genesis : Hash) (node : Bytes) : Prop where
  empty  : node = [] ↔ genesis = emptyRootHash
  source : genesis ≠ emptyRootHash → source.get? genesis.bytes = some node
  hash   : genesis ≠ emptyRootHash → g.keccak node = genesis

/-- The items of a state in a database: the root, and what the blob of an item refers to,
which are nodes, storage roots and codes. -/
inductive StateItem (refs : Bytes → List Hash) (db : Store) (root : Hash) : Hash → Prop
  | root : StateItem refs db root root
  | child {h child : Hash} {blob : Bytes} (hItem : StateItem refs db root h)
      (hBlob : db.get? h.bytes = some blob) (hChild : child ∈ refs blob) : StateItem
        refs db root child

/-- Every item of the state is in the database, with its hash. -/
def Readable (g : Geth) (refs : Bytes → List Hash) (db : Store) (root : Hash) : Prop :=
  ∀ h, StateItem refs db root h → ∃ blob, db.get? h.bytes = some blob ∧ g.keccak blob = h

/-- A part of a database has no other items. -/
theorem StateItem.mono {refs : Bytes → List Hash} {part db : Store} {root h : Hash}
    (hPart : ∀ k v, part.get? k = some v → db.get? k = some v)
    (hItem : StateItem refs part root h) :
    StateItem refs db root h := by
  induction hItem with
  | root => exact .root
  | child _ hBlob hChild ih => exact .child ih (hPart _ _ hBlob) hChild

/-- A traversal that joined without a recorded failure had no fault. -/
theorem Traversed.faulted_eq_false (h : Traversed T g l source r s)
    (hFail : s.writer.failure = none) :
    s.writer.faulted = false := by
  obtain ⟨actions, hRun⟩ := h.run
  cases hFault : s.writer.faulted with
  | false => rfl
  | true =>
    rcases (CollectInv.run hRun).latched hFault with hSome | ⟨t, pc, hCall, -⟩
    · exact absurd hFail hSome
    · rw [h.joined t] at hCall
      cases hCall

/-- The state of the writer when `collectPruneState` succeeds: nothing failed, and it
holds the answered records and the genesis root. -/
theorem collectEnd_eq_ok (h : Traversed T g l source r s)
    (hGenesis : GenesisRoot g source genesis node) {state : StateResult}
    (hOk : (collectEnd g l env genesis node s.writer r).2 = .ok state) :
    r = .ok state ∧ s.writer.failure = none ∧
      (collectEnd g l env genesis node s.writer r).1.faulted = false ∧
      ∀ k v, (collectEnd g l env genesis node s.writer r).1.keep.get? k = some v ↔
        KeepRecord s genesis node k v := by
  obtain ⟨actions, hRun⟩ := h.run
  have hInv := CollectInv.run hRun
  -- the put of the genesis root
  have hPut : ∀ w, (if 0 < node.length then s.writer.put g l env.genesis genesis.bytes node
      else (s.writer, none)) = (w, none) → w.failure = none → s.writer.failure = none ∧
        w.Inv g l source ∧ w.faulted = s.writer.faulted ∧ ∀ k v, w.Stored l k v ↔
          s.writer.Stored l k v ∨ (genesis ≠ emptyRootHash ∧ k = genesis.bytes ∧ v = node) := by
    intro w hEq hFail
    split at hEq
    next hNode =>
      have hNe : genesis ≠ emptyRootHash := fun hEmpty => by
        simp [hGenesis.empty.mpr hEmpty] at hNode
      obtain ⟨hNone, hPuts⟩ := KeepWriter.put_eq_none hInv.writer (hGenesis.source hNe)
        (hGenesis.hash hNe) hEq
      refine ⟨hNone, hPuts.inv, by simpa using hPuts.faulted, fun k v => ⟨fun hStored => ?_, ?_⟩⟩
      · exact (hPuts.only hStored).imp_right fun hKey => ⟨hNe, hKey⟩
      · rintro (hOld | ⟨-, rfl, rfl⟩)
        · exact hPuts.keeps hOld
        · exact hPuts.stores rfl
    next hNode =>
      cases hEq
      have hEmpty : genesis = emptyRootHash := hGenesis.empty.mp (by simpa using hNode)
      exact ⟨hFail, hInv.writer, rfl, fun k v => by simp [hEmpty]⟩
  unfold collectEnd at hOk ⊢
  cases r with
  | error err => cases hOk
  | ok state' =>
    dsimp only at hOk ⊢
    generalize hFirst : (if 0 < node.length then s.writer.put g l env.genesis genesis.bytes node
      else (s.writer, none)) = out at hOk hPut
    obtain ⟨w, err⟩ := out
    dsimp only at hOk ⊢
    split at hOk
    next => cases hOk
    next hNone =>
      obtain ⟨hFail, rfl⟩ := Option.or_eq_none_iff.mp hNone
      obtain ⟨hNone', hInv', hFaulted, hStored⟩ := hPut w rfl hFail
      generalize hClose : w.close l env.ctx env.write = out at hOk
      obtain ⟨w', err⟩ := out
      cases err with
      | some err => cases hOk
      | none =>
        cases hOk
        obtain ⟨hFaulted', hKeep⟩ := KeepWriter.close_eq_none hInv' hClose
        have hClean := h.faulted_eq_false hNone'
        refine ⟨rfl, hNone', hFaulted'.trans (hFaulted.trans hClean), fun k v => ?_⟩
        dsimp only
        rw [hKeep, hStored, KeepRecord]
        exact or_congr_left ⟨hInv.only hClean k v, hInv.stored (k, v)⟩

end Result

/-- **The keep set is complete and never silently partial.** For every traversal,
source, number of shards, batch size, schedule of the calls of `Get`, fault of the
databases and cancellation:

* if `collectPruneState` succeeds, the keep database has exactly the records under
  32-byte keys that calls answered and the genesis root, if there is one;
* each is a record of the source whose value hashes to its key;
* a state whose items were all answered is readable from the keep database alone, and
  has the same items there;
* a traversal that reads by hash and got all its answers can be run over the keep
  database alone, with the same result;
* if a put, a hash check or the write of a batch failed, it returns an error. -/
theorem prune_keep_complete {σ : Type} (T : StateReader σ) (g : Geth) (parseAddr : Bytes → Bool)
    (l : KeepLimits) (source : Store) (validateRoot : Store → Hash → Except Err Unit)
    (hOpens : ∀ db root, validateRoot db root = .ok () → db.get? root.bytes ≠ some [])
    (genesis : Hash) (node : Bytes)
    (hGenesis : readPruneGenesis g validateRoot source = .ok (genesis, node))
    (r : Except Err StateResult) (s : CollectState σ)
    (hTraversed : Traversed T (g.pruneHost parseAddr) l source r s) (env : CollectEnv)
    (out : KeepWriter × Except Err StateResult)
    (hOut : out = collectEnd (g.pruneHost parseAddr) l env genesis node s.writer r) :
    (∀ state, out.2 = .ok state →
      r = .ok state ∧
      (∀ k v, out.1.keep.get? k = some v ↔
        (k, v) ∈ s.reads ∨ (genesis ≠ emptyRootHash ∧ k = genesis.bytes ∧ v = node)) ∧
      (∀ k v, out.1.keep.get? k = some v →
        k.length = 32 ∧ (g.keccak v).bytes = k ∧ source.get? k = some v) ∧
      (∀ refs root, (∀ h, StateItem refs source root h → ∃ v, (h.bytes, v) ∈ s.reads) →
        Readable g refs out.1.keep root ∧
          ∀ h, StateItem refs out.1.keep root h ↔ StateItem refs source root h) ∧
      (T.ReadsHashes → s.missed = false → ∃ actions s',
        (readSystem T out.1.keep).run actions (ReadState.init T) = some s' ∧
          (∀ t, s'.waiting t = none) ∧ T.result s'.client = some (.ok state))) ∧
    (out.1.faulted = true → ∃ err, out.2 = .error err) := by
  subst hOut
  have hRoot : GenesisRoot (g.pruneHost parseAddr) source genesis node := by
    rcases readPruneGenesis_eq_ok hGenesis with ⟨rfl, rfl⟩ | ⟨hNe, hGet, hHash, hValid⟩
    · exact ⟨by simp, fun hNe => absurd rfl hNe, fun hNe => absurd rfl hNe⟩
    · refine ⟨⟨?_, fun hEq => absurd hEq hNe⟩, fun _ => hGet, fun _ => hHash⟩
      rintro rfl
      exact absurd hGet (hOpens source genesis hValid)
  obtain ⟨actions, hRun⟩ := hTraversed.run
  have hInv := CollectInv.run hRun
  constructor
  · intro state hOk
    obtain ⟨rfl, hFail, -, hKeep⟩ := collectEnd_eq_ok hTraversed hRoot hOk
    generalize (collectEnd (g.pruneHost parseAddr) l env genesis node s.writer (.ok state)).1.keep =
      keep at hKeep
    have hRecord : ∀ k v, keep.get? k = some v →
        k.length = 32 ∧ (g.keccak v).bytes = k ∧ source.get? k = some v := by
      intro k v hGet
      rcases (hKeep k v).mp hGet with hRead | ⟨hNe, rfl, rfl⟩
      · obtain ⟨hSource, hHash⟩ := hInv.writer.agrees k v (hInv.stored (k, v) hRead)
        exact ⟨hHash ▸ FixedBytes.length_bytes _, hHash.symm, hSource⟩
      · exact ⟨FixedBytes.length_bytes _, congrArg FixedBytes.bytes (hRoot.hash hNe),
          hRoot.source hNe⟩
    refine ⟨rfl, hKeep, hRecord, ?_, ?_⟩
    · intro refs root hVisited
      have hSub : ∀ k v, keep.get? k = some v → source.get? k = some v := fun k v h =>
        (hRecord k v h).2.2
      have hItems : ∀ h, StateItem refs source root h → StateItem refs keep root h := by
        intro h hItem
        induction hItem with
        | root => exact .root
        | @child h child blob hItem hBlob hChild ih =>
          -- the item above was answered, so the keep database has its blob
          obtain ⟨v, hRead⟩ := hVisited h hItem
          have hGet := (hKeep h.bytes v).mpr (.inl hRead)
          have hSame : some v = some blob := (hSub _ _ hGet).symm.trans hBlob
          exact .child ih (Option.some.inj hSame ▸ hGet) hChild
      refine ⟨?_, fun h => ⟨StateItem.mono hSub, hItems h⟩⟩
      intro h hItem
      obtain ⟨v, hRead⟩ := hVisited h (hItem.mono hSub)
      have hGet := (hKeep h.bytes v).mpr (.inl hRead)
      exact ⟨v, hGet, FixedBytes.bytes_injective (hRecord _ _ hGet).2.1⟩
    · intro hHashes hMissed
      obtain ⟨actions', hReplay⟩ := (Replays.of_run hHashes hRun).run hFail hMissed
        fun p hp => (hKeep p.1 p.2).mpr (.inl hp)
      refine ⟨actions', s.view, hReplay, fun t => ?_, hTraversed.result⟩
      show (s.calls t).map GetPc.key = none
      rw [hTraversed.joined t]
      rfl
  · intro hFault
    cases hOk : (collectEnd (g.pruneHost parseAddr) l env genesis node s.writer r).2 with
    | error err => exact ⟨err, rfl⟩
    | ok state =>
      obtain ⟨-, -, hClean, -⟩ := collectEnd_eq_ok hTraversed hRoot hOk
      rw [hFault] at hClean
      cases hClean

/-- A hash that repeats the length of its input. -/
def keepHash (n : Byte) : Hash := ⟨List.replicate 32 n, rfl⟩

/-- The value with that hash. -/
def keepValue (n : Byte) : Bytes := List.replicate n.val 1

/-- A geth with this hash and one genesis header. -/
def keepGeth : Geth :=
  { referenceGeth scanHost.keccak with
    keccak := scanHost.keccak
    decodeHeader := fun _ => .ok ⟨some 0, keepHash 7⟩ }

/-- The genesis root, two nodes and the genesis header. -/
def keepSource : Store where
  entries := [((keepHash 7).bytes, keepValue 7), ((keepHash 8).bytes, keepValue 8),
    ((keepHash 9).bytes, keepValue 9), (headerKey 0 (keepHash 5), keepValue 5),
    (headerHashKey 0, (keepHash 5).bytes)]
  sorted := by decide

/-- A traversal with two threads, each of which reads one of the nodes. -/
def keepReader : StateReader (Bool × Bool) where
  start := (false, false)
  move
    | 0, _, (false, b) => some (.get (keepHash 8).bytes (false, b))
    | 1, _, (a, false) => some (.get (keepHash 9).bytes (a, false))
    | _, _, _ => none
  resume t _ c := if t = 0 then (true, c.2) else (c.1, true)
  result c := if c = (true, true) then some (.ok ⟨keepHash 8, 0⟩) else none

/-- Two shards. The record of the node 9 fills its batch, that of the node 8 does not. -/
def keepLimits : KeepLimits := ⟨2, 41, Nat.zero_lt_two⟩

/-- Opening the trie of an empty blob fails. -/
def keepOpens (db : Store) (root : Hash) : Except Err Unit :=
  require (db.get? root.bytes ≠ some []) (.outside "unexpected EOF")

/-- Both calls, the second one inside the first. -/
def keepActions : List CollectAction :=
  let get t := CollectAction.get t ⟨none, none, none⟩
  [.client 0, get 0, .client 1, get 1, get 0, get 1, get 1, get 1, get 0, get 0]

def keepState : CollectState (Bool × Bool) :=
  ((collectSystem keepReader (keepGeth.pruneHost fun _ => false) keepLimits keepSource).run
    keepActions (CollectState.init keepReader)).getD (CollectState.init keepReader)

theorem keepState_traversed :
    Traversed keepReader (keepGeth.pruneHost fun _ => false) keepLimits keepSource
      (.ok ⟨keepHash 8, 0⟩) keepState where
  run := ⟨keepActions, rfl⟩
  joined t := by
    match t with
    | 0 => rfl
    | 1 => rfl
    | t + 2 => rfl
  result := rfl

/-- Before the end the keep database has one of the nodes; then it has both and the genesis root. -/
theorem prune_keep_sample :
    keepState.writer.keep.keys = [(keepHash 9).bytes] ∧
    ∃ out : KeepWriter × Except Err StateResult,
      out = collectEnd (keepGeth.pruneHost fun _ => false) keepLimits
        ⟨⟨none, none⟩, fun _ => none, fun _ => none⟩
        (keepHash 7) (keepValue 7) keepState.writer (.ok ⟨keepHash 8, 0⟩) ∧
      out.2.toOption.isSome ∧ out.1.keep.get? (keepHash 7).bytes = some (keepValue 7) ∧
      out.1.keep.get? (keepHash 8).bytes = some (keepValue 8) ∧
      out.1.keep.get? (keepHash 9).bytes = some (keepValue 9) := by
  have hOpens : ∀ db root, keepOpens db root = .ok () → db.get? root.bytes ≠ some [] := by
    intro db root h
    exact require_eq_ok.mp h
  have hGenesis : readPruneGenesis keepGeth keepOpens keepSource =
      .ok (keepHash 7, keepValue 7) := by
    decide +kernel
  have hKeep := prune_keep_complete keepReader keepGeth (fun _ => false) keepLimits keepSource
    keepOpens hOpens
    _ _ hGenesis _ keepState keepState_traversed ⟨⟨none, none⟩, fun _ => none, fun _ => none⟩ _ rfl
  obtain ⟨-, hRecords, -⟩ := hKeep.1 ⟨keepHash 8, 0⟩ rfl
  refine ⟨by decide +kernel, _, rfl, rfl, (hRecords _ _).mpr (.inr ⟨by decide, rfl, rfl⟩),
    (hRecords _ _).mpr (.inl ?_), (hRecords _ _).mpr (.inl ?_)⟩
  · decide +kernel
  · decide +kernel

end L2State
