import L2State.Lib.System
import L2State.Prune.Pipeline

/-!
# L2State — a burst of account tasks

`runMigrateAccountBurst`, `processMigrateAccount` and `mergeMigrateAccounts` of
`partition_accounts.go`, with the window and the leases of `partition_execution.go`.
The coordinator of a partition takes a slot of the window for each account, starts a
task for an account that has storage or code, and sends a plain one straight to the
results channel. When the window is full or the accounts are at an end, it merges the
results in the order of their sequence numbers and gives the slots back.

The window and the limiter are shared with the other partitions. A move of this burst
sees how many slots and tokens the others hold.

* `AccountTask`, `taskStep` — the tasks: probe, nested storage partitions, the result.
* `BurstState`, `mainStep` — the coordinator.
* `burstSystem` — the burst under a scheduler.
* `BurstState.owners` — **who has the slot** of each sequence number.
-/

namespace L2State

open Lib

/-! ## Tasks -/

/-- Where a storage partition of `migratePartitionedStorage` is. -/
inductive StoragePartPc
  /-- Before `lease.acquire`. -/
  | lease
  /-- `migrateStoragePartition`, with a token. -/
  | work
  | done
deriving DecidableEq

/-- Where an account task is. -/
inductive AccountTaskPc (β : Type)
  /-- Before `lease.acquire` of `processMigrateAccount`. -/
  | lease
  /-- With a token: `probeStorage`, and the code when there is no more to do. -/
  | probe
  /-- Without a token: the storage partitions, and their first error. -/
  | nested (err : Option Err) (parts : List StoragePartPc)
  /-- Before `accountLease.acquire` behind them. -/
  | rejoin
  /-- With a token: `assembleMigratedTrie`, and the code. -/
  | assemble
  /-- `process` has returned; before `failure.record`. -/
  | latch (out : Except Err β)
  /-- Before the send. -/
  | send (out : Except Err β)
  | done

namespace AccountTaskPc

variable {β : Type}

/-- The tokens that the task and its storage partitions hold. -/
def tokens : AccountTaskPc β → Nat
  | .probe => 1
  | .assemble => 1
  | .nested _ parts => parts.count .work
  | _ => 0

def isDone : AccountTaskPc β → Bool
  | .done => true
  | _ => false

end AccountTaskPc

/-- A started task. -/
structure AccountTask (α β : Type) where
  sequence : Nat
  job      : α
  pc       : AccountTaskPc β

/-- `migrateAccountResult`. -/
structure AccountResult (α β : Type) where
  sequence : Nat
  job      : α
  out      : Except Err β

/-! ## The coordinator -/

/-- Where the coordinator is. -/
inductive BurstPc (α β : Type)
  /-- Before `m.accounts.acquire`. -/
  | acquire
  /-- Before `m.accounts.tryAcquire`. -/
  | tryAcquire
  /-- With a slot, before `lease.acquire`. -/
  | lease
  /-- With a slot and a token: `accounts.Next` and `prepareMigrateAccount`. -/
  | iterate
  /-- Before `results <- ready`. -/
  | deliver (job : α)
  /-- The loop ends: before `m.accounts.release` and before `failure.record`. -/
  | giveBack (err : Option Err)
  | latch (err : Option Err)
  /-- `mergeMigrateAccounts`: before the receive, and before `failure.load`. -/
  | receive
  | load (r : AccountResult α β)
  /-- Giving back the slots of dropped results. -/
  | drop (sequences : List Nat)
  /-- Before the lookup of the next sequence number. -/
  | order
  /-- `mergeMigrateAccount`: before `lease.acquire`, and with a token. -/
  | merge (r : AccountResult α β)
  | merging (r : AccountResult α β)
  /-- Before the release behind it, and before `failure.record`. -/
  | merged (r : AccountResult α β) (err : Option Err)
  | mergeLatch (err : Err)
  | returned (err : Option Err)

namespace BurstPc

variable {α β : Type}

/-- The tokens that the coordinator holds. -/
def tokens : BurstPc α β → Nat
  | .iterate => 1
  | .merging _ => 1
  | _ => 0

/-- The merge has begun, and with it the goroutine that closes the channel. -/
def merges : BurstPc α β → Bool
  | .receive => true
  | .load _ => true
  | .drop _ => true
  | .order => true
  | .merge _ => true
  | .merging _ => true
  | .merged _ _ => true
  | .mergeLatch _ => true
  | _ => false

/-- The sequence numbers whose slots the coordinator has in its hands; `next` is the
number of the account that it is about to take. -/
def holds (next : Nat) : BurstPc α β → List Nat
  | .lease => [next]
  | .iterate => [next]
  | .deliver _ => [next]
  | .giveBack _ => [next]
  | .load r => [r.sequence]
  | .drop sequences => sequences
  | .merge r => [r.sequence]
  | .merging r => [r.sequence]
  | .merged r _ => [r.sequence]
  | _ => []

end BurstPc

/-- What a burst is given: the window's capacity, the number of tokens, the partition,
the first account with its sequence number, the hash of an account, and the payload of
a task that succeeds and of an account that needs none. -/
structure BurstConfig (α β : Type) where
  capacity  : Nat
  workers   : Nat
  partition : Nat
  first     : Nat
  firstJob  : α
  hash      : α → Hash
  produces  : α → β
  ready     : α → β

structure BurstState (α β : Type) where
  pc       : BurstPc α β
  /-- `nextSequence`. -/
  next     : Nat
  /-- `next` of `mergeMigrateAccounts`. -/
  merge    : Nat
  eof      : Bool
  tasks    : List (AccountTask α β)
  results  : List (AccountResult α β)
  closed   : Bool
  pending  : List (AccountResult α β)
  failure  : Option Err
  /-- `burstCtx.Err()`. -/
  ctx      : Option Err
  /-- History: the slots that were acquired and released, by the sequence number that
  they were for. -/
  acquired : List Nat
  released : List Nat
  /-- History: the merged results, and how many accounts the iterator gave. -/
  merged   : List (AccountResult α β)
  taken    : Nat

/-- What the other partitions hold. -/
structure BurstEnv where
  slots  : Nat
  tokens : Nat

section Model

variable {α β : Type}

def BurstState.init (cfg : BurstConfig α β) : BurstState α β where
  pc := .acquire
  next := cfg.first
  merge := cfg.first
  eof := false
  tasks := []
  results := []
  closed := false
  pending := []
  failure := none
  ctx := none
  acquired := []
  released := []
  merged := []
  taken := 0

namespace BurstState

/-- The slots of the window that the burst holds. -/
def slots (s : BurstState α β) : Nat := s.acquired.length - s.released.length

/-- The tokens of the limiter that the burst holds. -/
def tokens (s : BurstState α β) : Nat := s.pc.tokens + (s.tasks.map fun k => k.pc.tokens).sum

/-- `migratePipelineFailure.record`: the first error is kept and cancels the burst. -/
def record (s : BurstState α β) (err : Option Err) : BurstState α β :=
  { s with
    failure := s.failure.or err
    ctx := if s.failure = none ∧ err ≠ none then s.ctx.or (some contextCanceled) else s.ctx }

/-- What `mergeMigrateAccounts` returns behind its loop. -/
def finish (cfg : BurstConfig α β) (s : BurstState α β) : Option Err :=
  match s.failure with
  | some err => some err
  | none =>
    if s.pending.length ≠ 0 then
      some (.msg "account partition %x pipeline ended with %d unmerged results"
        [.num cfg.partition, .num s.pending.length])
    else s.ctx

end BurstState

/-- What a scheduler can decide about a move: whether a wait ends because the context
does, and what the iterator, the tries and the writers say. -/
inductive BurstMove (α : Type)
  | go
  | giveUp
  | account (job : α) (async : Bool)
  | refuse (err : Err)
  | exhausted (err : Option Err)
  | fail (err : Err)

/-- A move of the coordinator. -/
def burstMainStep (cfg : BurstConfig α β) (env : BurstEnv) (s : BurstState α β) (m : BurstMove α) :
    Option (BurstState α β) :=
  match s.pc, m with
  | .acquire, .go =>
    if env.slots + s.slots < cfg.capacity then
      some { s with
        acquired := s.acquired ++ [s.next], tasks := s.tasks ++ [⟨s.next, cfg.firstJob, .lease⟩]
        next := s.next + 1, pc := .tryAcquire }
    else none
  | .acquire, .giveUp => s.ctx.map fun err => { s with pc := .returned (some err) }
  | .tryAcquire, .go =>
    if env.slots + s.slots < cfg.capacity then
      some { s with acquired := s.acquired ++ [s.next], pc := .lease }
    else some { s with pc := .receive }
  | .lease, .go =>
    if env.tokens + s.tokens < cfg.workers then some { s with pc := .iterate } else none
  | .lease, .giveUp => s.ctx.map fun err => { s with pc := .giveBack (some err) }
  | .iterate, .account job async =>
    if async then
      some { s with
        tasks := s.tasks ++ [⟨s.next, job, .lease⟩], next := s.next + 1, taken := s.taken + 1
        pc := .tryAcquire }
    else some { s with taken := s.taken + 1, pc := .deliver job }
  | .iterate, .refuse err => some { s with taken := s.taken + 1, pc := .giveBack (some err) }
  | .iterate, .exhausted err =>
    some { s with
      eof := true
      pc := .giveBack (err.map (.wrap "iterate account partition %x: %w" [.num cfg.partition])) }
  | .deliver job, .go =>
    if s.results.length < cfg.capacity then
      some { s with
        results := s.results ++ [⟨s.next, job, .ok (cfg.ready job)⟩], next := s.next + 1
        pc := .tryAcquire }
    else none
  | .giveBack err, .go =>
    if 0 < env.slots +
      s.slots then some { s with released := s.released ++ [s.next], pc := .latch err }
    else none
  | .latch err, .go => some { s.record err with pc := .receive }
  | .receive, .go =>
    match s.results with
    | r :: rest => some { s with results := rest, pc := .load r }
    | [] => if s.closed then some { s with pc := .returned (s.finish cfg) } else none
  | .load r, .go =>
    match s.failure with
    | some _ =>
      some { s with pending := [], pc := .drop (r.sequence :: s.pending.map (·.sequence)) }
    -- the sequence number of a result is not pending
    | none => some { s with pending := s.pending ++ [r], pc := .order }
  | .drop [], .go => some { s with pc := .receive }
  | .drop (n :: rest), .go =>
    if 0 < env.slots + s.slots then some { s with released := s.released ++ [n], pc := .drop rest }
    else none
  | .order, .go =>
    match s.pending.find? fun r => r.sequence = s.merge with
    | some r =>
      some { s with pending := s.pending.filter fun r => r.sequence ≠ s.merge, pc := .merge r }
    | none => some { s with pc := .receive }
  | .merge r, .go =>
    match r.out with
    | .error err => some { s with pc := .merged r (some err) }
    | .ok _ =>
      if env.tokens + s.tokens < cfg.workers then some { s with pc := .merging r } else none
  | .merge r, .giveUp =>
    match r.out, s.ctx with
    | .ok _, some err => some { s with pc := .merged r (some err) }
    | _, _ => none
  | .merging r, .go => some { s with merged := s.merged ++ [r], pc := .merged r none }
  | .merging r, .fail err => some { s with pc := .merged r (some err) }
  | .merged r none, .go =>
    if 0 < env.slots + s.slots then
      some { s with released := s.released ++ [r.sequence], merge := s.merge + 1, pc := .order }
    else none
  | .merged r (some err), .go =>
    if 0 < env.slots + s.slots then
      some { s with
        released := s.released ++ [r.sequence]
        pc := .mergeLatch (.wrap "merge account partition %x sequence %d account %s: %w"
          [.num cfg.partition, .num r.sequence, .hash (cfg.hash r.job)] err) }
    else none
  | .mergeLatch err, .go =>
    some { s.record (some err) with pending := [], pc := .drop (s.pending.map (·.sequence)) }
  | _, _ => none

/-- What a scheduler can decide about the move of a task. -/
inductive TaskMove
  | go
  | giveUp
  | fail (err : Err)
  /-- The probe crosses the threshold. -/
  | split
  /-- A storage partition moves. -/
  | part (k : Nat) (m : TaskMove)

/-- A move of a storage partition: its new place and its error. -/
def storagePartStep (ctx : Option Err) (tokenFree : Bool) : StoragePartPc → TaskMove →
    Option (StoragePartPc × Option Err)
  | .lease, .go => if tokenFree then some (.work, none) else none
  | .lease, .giveUp => ctx.map fun err => (.done, some err)
  | .work, .go => some (.done, none)
  | .work, .fail err => some (.done, some err)
  | _, _ => none

/-- `taskCtx.Err()` of the storage partitions: the first error cancels it. -/
def nestedCtx (ctx err : Option Err) : Option Err := ctx.or (err.map fun _ => contextCanceled)

/-- A move of a task up to its result. -/
def taskPcStep (ctx : Option Err) (tokenFree : Bool) (payload : β) :
    AccountTaskPc β → TaskMove → Option (AccountTaskPc β)
  | .lease, .go => if tokenFree then some .probe else none
  | .lease, .giveUp => ctx.map fun err => .latch (.error err)
  | .probe, .go => some (.latch (.ok payload))
  | .probe, .fail err => some (.latch (.error err))
  | .probe, .split => some (.nested none (List.replicate 16 .lease))
  | .nested err parts, .part k m =>
    match parts[k]? with
    | none => none
    | some pc =>
      (storagePartStep (nestedCtx ctx err) tokenFree pc m).map fun out =>
        .nested (err.or out.2) (parts.set k out.1)
  | .nested err parts, .go =>
    -- `wg.Wait`, and then the first error or that of the context
    if parts.all (· = .done) then
      match err.or ctx with
      | some err => some (.latch (.error err))
      | none => some .rejoin
    else none
  | .rejoin, .go => if tokenFree then some .assemble else none
  | .rejoin, .giveUp => ctx.map fun err => .latch (.error err)
  | .assemble, .go => some (.latch (.ok payload))
  | .assemble, .fail err => some (.latch (.error err))
  | _, _ => none

/-- The error that a task records. -/
def taskError (cfg : BurstConfig α β) (k : AccountTask α β) : Except Err β → Option Err
  | .ok _ => none
  | .error err =>
    some (.wrap "account partition %x sequence %d account %s: %w"
      [.num cfg.partition, .num k.sequence, .hash (cfg.hash k.job)] err)

/-- A move of the task `i`. -/
def burstTaskStep (cfg : BurstConfig α β) (env : BurstEnv) (s : BurstState α β) (i : Nat)
    (m : TaskMove) :
    Option (BurstState α β) :=
  match s.tasks[i]? with
  | none => none
  | some k =>
    match k.pc, m with
    | .latch out, .go =>
      some { s.record (taskError cfg k out) with tasks := s.tasks.set i { k with pc := .send out } }
    | .send out, .go =>
      if s.results.length < cfg.capacity then
        some { s with
          results := s.results ++ [⟨k.sequence, k.job, out⟩]
          tasks := s.tasks.set i { k with pc := .done } }
      else none
    | pc, m =>
      (taskPcStep s.ctx (env.tokens + s.tokens < cfg.workers) (cfg.produces k.job) pc m).map fun pc =>
        { s with tasks := s.tasks.set i { k with pc := pc } }

inductive BurstAction (α : Type)
  | main (m : BurstMove α)
  | task (i : Nat) (m : TaskMove)
  /-- `jobs.Wait` and `close(results)`. -/
  | close
  /-- The context of the caller ends. -/
  | cancel (err : Err)

def burstStep (cfg : BurstConfig α β) (env : BurstEnv) (s : BurstState α β) :
    BurstAction α → Option (BurstState α β)
  | .main m => burstMainStep cfg env s m
  | .task i m => burstTaskStep cfg env s i m
  | .close =>
    if s.pc.merges ∧ s.closed = false ∧
      s.tasks.all (·.pc.isDone) then some { s with closed := true }
    else none
  | .cancel err => some { s with ctx := s.ctx.or (some err) }

/-- The burst under a scheduler, next to any other partitions. -/
def burstSystem (cfg : BurstConfig α β) : System (BurstState α β) (BurstEnv × BurstAction α) where
  step a s := burstStep cfg a.1 s a.2

end Model

/-! ## Who has a slot -/

/-- A task has the slot of its account until its result is in the channel. -/
def AccountTask.holds {α β : Type} (k : AccountTask α β) : List Nat :=
  if k.pc.isDone then [] else [k.sequence]

namespace BurstState

variable {α β : Type}

/-- How many hands the slot for a sequence number is in: a task's, the channel's, the
pending map's and the coordinator's. -/
def owners (s : BurstState α β) (n : Nat) : Nat :=
  (s.tasks.map fun k => k.holds.count n).sum + (s.results.map (·.sequence)).count n +
    (s.pending.map (·.sequence)).count n + (s.pc.holds s.next).count n

end BurstState

end L2State
