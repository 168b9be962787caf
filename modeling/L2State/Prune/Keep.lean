import L2State.Prune.Scan
import L2State.State.Traverser

/-!
# L2State — collecting the keep set

`prune_keep.go` and `collectPruneState` of `prune.go`. The traversal of the head
state reads the source through `pruneRecordingDB`: a record that is read under a
32-byte key goes into the keep database on the way. The writer has one batch for
each shard of the keys; the traversal reads on many threads, and may drop an error
that a read returns.

* `KeepWriter` — the shards, the keep database and the failure latch.
* `StateReader` — **any traversal**: threads with a state of their own, whose only
  access to the database is `Get`.
* `collectSystem` — the traversal and its calls of `Get` under a scheduler.
* `CollectInv` — what was answered is in the keep database or in a batch, and
  nothing else is, as long as nothing failed; a failure is latched when its thread
  moves on.
* `collectEnd` — the genesis root, the latch and the last batches.
-/

namespace L2State

open Lib

/-! ## The writer -/

/-- `pruneKeepShard`. -/
structure KeepShard where
  batch   : List (Hash × Bytes)
  pending : Hash → Option Bytes

namespace KeepShard

def empty : KeepShard := ⟨[], fun _ => none⟩

/-- `batch.ValueSize`. -/
def size (s : KeepShard) : Nat := (s.batch.map fun e => 32 + e.2.length).sum

def ops (s : KeepShard) : List (Op Bytes Bytes) := s.batch.map fun e => .put e.1.bytes e.2

def add (s : KeepShard) (hash : Hash) (value : Bytes) : KeepShard :=
  ⟨s.batch ++ [(hash, value)], Function.update s.pending hash (some value)⟩

end KeepShard

/-- What the keep database does to a batch: an error of `Put`, and one of `Write`,
after which the batch may have been applied or not. -/
structure BatchFault where
  put   : Option Err
  write : Option (Err × Bool)

/-- `pruneKeepWriter` and its database. -/
structure KeepWriter where
  shards  : Nat → KeepShard
  keep    : Store
  failure : Option Err
  /-- History: a put, a hash check or the write of a batch failed. -/
  faulted : Bool

/-- The limits of the writer: the number of shards and `ethdb.IdealBatchSize`. -/
structure KeepLimits where
  workers : Nat
  ideal   : Nat
  workers_pos : 0 < workers

/-- `int(hash[0]) % len(w.shards)`. -/
def KeepLimits.shardOf (l : KeepLimits) (hash : Hash) : Nat := (hash.bytes.headD 0).val % l.workers

theorem KeepLimits.shardOf_lt (l : KeepLimits) (hash : Hash) : l.shardOf hash < l.workers :=
  Nat.mod_lt _ l.workers_pos

namespace KeepWriter

/-- `newPruneKeepWriter` on an empty database. -/
def start : KeepWriter := ⟨fun _ => .empty, .empty, none, false⟩

def setShard (w : KeepWriter) (i : Nat) (shard : KeepShard) : KeepWriter :=
  { w with shards := Function.update w.shards i shard }

/-- `w.fail`. -/
def fail (w : KeepWriter) (err : Err) : KeepWriter := { w with failure := w.failure.or (some err) }

/-- `pruneKeepShard.flush`. -/
def flush (fault : Option (Err × Bool)) (w : KeepWriter) (i : Nat) : KeepWriter × Option Err :=
  let written := applyOps w.keep (w.shards i).ops
  match fault with
  | some (err, applied) =>
    ({ w with keep := if applied then written else w.keep, faulted := true },
      some (.wrap "write prune keep batch: %w" [] err))
  | none => ({ w.setShard i .empty with keep := written }, none)

/-- `pruneKeepShard.put`, under the lock of the shard. -/
def shardPut (l : KeepLimits) (fault : BatchFault) (w : KeepWriter) (hash : Hash) (value : Bytes) :
    KeepWriter × Option Err :=
  let i := l.shardOf hash
  match (w.shards i).pending hash with
  | some previous =>
    match comparePruneValue hash.bytes previous value with
    | .ok _ => (w, none)
    | .error err => ({ w with faulted := true }, some err)
  | none =>
    match fault.put with
    | some err => ({ w with faulted := true }, some err)
    | none =>
      let shard := (w.shards i).add hash value
      if l.ideal ≤ shard.size then (w.setShard i shard).flush fault.write i
      else (w.setShard i shard, none)

/-- The check at the head of `put`. -/
def refuses (g : PruneHost) (key value : Bytes) : Bool :=
  key.length ≠ 32 ∨ g.keccak value ≠ .ofBytes 32 key

def mismatch (key : Bytes) : Err := .msg "prune state hash does not match key %x" [.bytes key]

/-- `pruneKeepWriter.put`, when no other thread is at work. -/
def put (g : PruneHost) (l : KeepLimits) (fault : BatchFault) (w : KeepWriter) (key value : Bytes) :
    KeepWriter × Option Err :=
  match w.failure with
  | some err => (w, some err)
  | none =>
    if refuses g key value then
      ({ w with faulted := true }.fail (mismatch key), some (mismatch key))
    else
      match w.shardPut l fault (.ofBytes 32 key) value with
      | (w, some err) => (w.fail err, some err)
      | (w, none) => (w, none)

/-- The loop of `close`: the context before each shard, and the write of its batch. -/
def closeShards (ctx : Nat → Option Err) (fault : Nat → Option (Err × Bool)) :
    List Nat → KeepWriter → KeepWriter × Option Err
  | [], w => (w, none)
  | i :: rest, w =>
    match ctx i with
    | some err => (w, some err)
    | none =>
      match w.flush (fault i) i with
      | (w, some err) => (w.fail err, some err)
      | (w, none) => closeShards ctx fault rest w

/-- `pruneKeepWriter.close`. -/
def close (l : KeepLimits) (ctx : Nat → Option Err) (fault : Nat → Option (Err × Bool))
    (w : KeepWriter) : KeepWriter × Option Err :=
  match w.failure with
  | some err => (w, some err)
  | none => closeShards ctx fault (List.range l.workers) w

end KeepWriter

/-! ## The traversal -/

/-- What a thread of the traversal does next. -/
inductive ReaderMove (σ : Type)
  /-- A move that does not touch the database. -/
  | inner (next : σ)
  /-- A call of `Get`. -/
  | get (key : Bytes) (next : σ)

/-- A traversal: threads that share a state and read the database. A move sees the
context; a thread goes on with the answer of its call; when all have joined, there is
a result. -/
structure StateReader (σ : Type) where
  start  : σ
  move   : Nat → Option Err → σ → Option (ReaderMove σ)
  resume : Nat → Except Err Bytes → σ → σ
  result : σ → Option (Except Err StateResult)

/-- Where a call of `pruneRecordingDB.Get` is. -/
inductive GetPc
  /-- Before `d.Database.Get`. -/
  | read (key : Bytes)
  /-- At the head of `put`. -/
  | load (key value : Bytes)
  /-- Before the lock of the shard. -/
  | shard (key : Bytes) (hash : Hash) (value : Bytes)
  /-- Before the latch of `w.fail`. -/
  | latch (key : Bytes) (err : Err)
  /-- On the way back to the caller. -/
  | done (key : Bytes) (answer : Except Err Bytes)

def GetPc.key : GetPc → Bytes
  | .read key => key
  | .load key _ => key
  | .shard key _ _ => key
  | .latch key _ => key
  | .done key _ => key

/-- The traversal, its calls and the writer. -/
structure CollectState (σ : Type) where
  client : σ
  calls  : Nat → Option GetPc
  writer : KeepWriter
  /-- `workCtx.Err()`. -/
  ctx    : Option Err
  /-- History: the records under 32-byte keys that calls answered. -/
  reads  : List (Bytes × Bytes)
  /-- History: a call answered with an error. -/
  missed : Bool

/-- What the databases do during a move of a call. -/
structure GetFault where
  read  : Option Err
  batch : BatchFault

/-- Who moves. -/
inductive CollectAction
  | client (t : Nat)
  | get (t : Nat) (fault : GetFault)
  /-- The context of the caller ends. -/
  | cancel (err : Err)

section Model

variable {σ : Type} (T : StateReader σ) (g : PruneHost) (l : KeepLimits) (source : Store)

def CollectState.init : CollectState σ := ⟨T.start, fun _ => none, .start, none, [], false⟩

/-- The call of the thread `t` is now at `pc`. -/
def CollectState.goto {σ : Type} (s : CollectState σ) (t : Nat) (pc : GetPc) : CollectState σ :=
  { s with calls := Function.update s.calls t (some pc) }

/-- The call of the thread `t` behind the put into the shard. -/
def CollectState.sharded {σ : Type} (s : CollectState σ) (t : Nat) (key value : Bytes) :
    KeepWriter × Option Err → CollectState σ
  | (w, some err) => { s with writer := w }.goto t (.latch key err)
  | (w, none) =>
    { s with writer := w, reads := s.reads ++ [(key, value)] }.goto t (.done key (.ok value))

/-- A move of the call of the thread `t`. -/
def getStep (s : CollectState σ) (t : Nat) (fault : GetFault) : GetPc → CollectState σ
  | .read key =>
    match fault.read, source.get? key with
    | some err, _ => s.goto t (.done key (.error err))
    | none, none => s.goto t (.done key (.error keyNotFound))
    | none, some value =>
      if key.length = 32 then s.goto t (.load key value) else s.goto t (.done key (.ok value))
  | .load key value =>
    match s.writer.failure with
    | some err => s.goto t (.done key (.error err))
    | none =>
      if KeepWriter.refuses g key value then
        { s with writer := { s.writer with faulted := true } }.goto t
          (.latch key (KeepWriter.mismatch key))
      else s.goto t (.shard key (.ofBytes 32 key) value)
  | .shard key hash value => s.sharded t key value (s.writer.shardPut l fault.batch hash value)
  | .latch key err =>
    -- the first failure cancels the traversal
    { s with
      writer := s.writer.fail err
      ctx := if s.writer.failure = none then s.ctx.or (some contextCanceled) else s.ctx }.goto t
        (.done key (.error err))
  | .done _ answer =>
    { s with
      client := T.resume t answer s.client
      calls := Function.update s.calls t none
      missed := s.missed || answer.toOption.isNone }

/-- The traversal over `pruneRecordingDB` under a scheduler. -/
def collectSystem : System (CollectState σ) CollectAction where
  step
    | .client t, s =>
      match s.calls t, T.move t s.ctx s.client with
      | none, some (.inner c) => some { s with client := c }
      | none, some (.get key c) => some ({ s with client := c }.goto t (.read key))
      | _, _ => none
    | .get t fault, s => (s.calls t).map (getStep T g l source s t fault)
    | .cancel err, s => some { s with ctx := s.ctx.or (some err) }

/-- The traversal has returned `r`, and every call has returned. -/
structure Traversed (r : Except Err StateResult) (s : CollectState σ) : Prop where
  run    : ∃ t, (collectSystem T g l source).run t (CollectState.init T) = some s
  joined : ∀ t, s.calls t = none
  result : T.result s.client = some r

end Model

/-- What happens after the traversal: the faults of the genesis put and of the last
batches, and the context before each of them. -/
structure CollectEnv where
  genesis : BatchFault
  ctx     : Nat → Option Err
  write   : Nat → Option (Err × Bool)

/-- `collectPruneState` behind the traversal. -/
def collectEnd (g : PruneHost) (l : KeepLimits) (env : CollectEnv) (genesis : Hash) (node : Bytes)
    (w : KeepWriter) (r : Except Err StateResult) : KeepWriter × Except Err StateResult :=
  match r with
  | .error err => (w, .error (w.failure.getD err))
  | .ok state =>
    let (w, err) := if 0 < node.length then w.put g l env.genesis genesis.bytes node else (w, none)
    match w.failure.or err with
    | some err => (w, .error err)
    | none =>
      match w.close l env.ctx env.write with
      | (w, some err) => (w, .error err)
      | (w, none) => (w, .ok state)

/-! ## The genesis root -/

/-- `readPruneGenesis`. `validateRoot` stands for `validatePruneGenesisRoot`, which
opens the trie. -/
def readPruneGenesis (g : Geth) (validateRoot : Store → Hash → Except Err Unit) (db : Store) :
    Except Err (Hash × Bytes) := do
  let hash := readHash db (headerHashKey 0)
  require (hash ≠ zeroHash)
    (.msg "prune requires the genesis canonical mapping in LevelDB" [])
  let blob := readHeaderRLP db hash 0
  require (g.keccak blob = hash) (.msg "invalid or missing genesis header" [])
  let h ← wrapping "decode prune genesis: %w" [] (g.decodeHeader blob)
  require (h.number = some 0 ∧ h.root ≠ zeroHash) (.msg "invalid genesis number or state root" [])
  if h.root = emptyRootHash then return (h.root, [])
  else
    match db.get? h.root.bytes with
    | none => .error (.wrap "read genesis root node: %w" [] keyNotFound)
    | some node => do
      require (g.keccak node = h.root) (.msg "genesis root node hash mismatch" [])
      validateRoot db h.root
      return (h.root, node)

/-! ## What the writer holds -/

namespace KeepWriter

variable {g : PruneHost} {l : KeepLimits} {source : Store} {w : KeepWriter}

/-- The record is in the keep database or in a batch. -/
def Stored (l : KeepLimits) (w : KeepWriter) (k v : Bytes) : Prop :=
  w.keep.get? k = some v ∨ ∃ i < l.workers, ∃ h : Hash, h.bytes = k ∧ (h, v) ∈ (w.shards i).batch

/-- The invariant of the writer. -/
structure Inv (g : PruneHost) (l : KeepLimits) (source : Store) (w : KeepWriter) : Prop where
  agrees  : ∀ k v, w.Stored l k v → source.get? k = some v ∧ k = (g.keccak v).bytes
  pending : ∀ i < l.workers, ∀ h v, (w.shards i).pending h = some v ↔ (h, v) ∈ (w.shards i).batch

theorem start_inv : Inv g l source start := by
  refine ⟨?_, by simp [start, KeepShard.empty]⟩
  rintro k v (h | ⟨i, -, h, -, hMem⟩)
  · cases h
  · cases hMem

theorem put_mem_ops {shard : KeepShard} {k v : Bytes} :
    Op.put k v ∈ shard.ops ↔ ∃ h : Hash, h.bytes = k ∧ (h, v) ∈ shard.batch := by
  simp only [KeepShard.ops, List.mem_map, Op.put.injEq]
  constructor
  · rintro ⟨⟨h, v⟩, hMem, rfl, rfl⟩
    exact ⟨h, rfl, hMem⟩
  · rintro ⟨h, rfl, hMem⟩
    exact ⟨(h, v), hMem, rfl, rfl⟩

/-- The keep database after a batch. -/
theorem get?_written (h : w.Inv g l source) {i : Nat} (hi : i < l.workers) {k v : Bytes} :
    (applyOps w.keep (w.shards i).ops).get? k = some v ↔
      w.keep.get? k = some v ∨ ∃ h : Hash, h.bytes = k ∧ (h, v) ∈ (w.shards i).batch := by
  -- an operation on `k` puts the value that the source has
  have hOps : ∀ v, source.get? k = some v → ∀ o ∈ (w.shards i).ops, o.key = k → o = .put k v := by
    intro v hv o ho hKey
    obtain ⟨⟨hash, value⟩, hMem, rfl⟩ := List.mem_map.mp ho
    obtain rfl : hash.bytes = k := hKey
    have hSame := (h.agrees hash.bytes value (.inr ⟨i, hi, hash, rfl, hMem⟩)).1
    rw [hv] at hSame
    rw [Option.some.inj hSame]
  constructor
  · intro hGet
    rcases put_mem_of_get?_applyOps hGet with hPut | hOld
    · exact .inr (put_mem_ops.mp hPut)
    · exact .inl hOld
  · rintro (hOld | hNew)
    · have hv := (h.agrees k v (.inl hOld)).1
      by_cases hTouched : ∃ o ∈ (w.shards i).ops, o.key = k
      · obtain ⟨o, ho, hKey⟩ := hTouched
        exact get?_applyOps_of_puts (hOps v hv) (hOps v hv o ho hKey ▸ ho) _
      · push Not at hTouched
        rw [get?_applyOps_of_untouched hTouched]
        exact hOld
    · have hv := (h.agrees k v (.inr ⟨i, hi, hNew⟩)).1
      exact get?_applyOps_of_puts (hOps v hv) (put_mem_ops.mpr hNew) _

/-- Writing a batch moves its records. -/
theorem stored_flush (h : w.Inv g l source) (fault : Option (Err × Bool)) {i : Nat}
    (hi : i < l.workers) {k v : Bytes} : (w.flush fault i).1.Stored l k v ↔ w.Stored l k v := by
  cases fault with
  | none =>
    simp only [flush, Stored, setShard, get?_written h hi]
    constructor
    · rintro ((hOld | hNew) | ⟨m, hm, hash, hKey, hMem⟩)
      · exact .inl hOld
      · exact .inr ⟨i, hi, hNew⟩
      · by_cases hEq : m = i
        · subst hEq
          rw [Function.update_self] at hMem
          cases hMem
        · rw [Function.update_of_ne hEq] at hMem
          exact .inr ⟨m, hm, hash, hKey, hMem⟩
    · rintro (hOld | ⟨m, hm, hNew⟩)
      · exact .inl (.inl hOld)
      · by_cases hEq : m = i
        · subst hEq
          exact .inl (.inr hNew)
        · exact .inr ⟨m, hm, by rwa [Function.update_of_ne hEq]⟩
  | some p =>
    obtain ⟨err, applied⟩ := p
    cases applied with
    | false => exact Iff.rfl
    | true =>
      simp only [flush, Stored, if_true, get?_written h hi]
      constructor
      · rintro ((hOld | hNew) | hRest)
        · exact .inl hOld
        · exact .inr ⟨i, hi, hNew⟩
        · exact .inr hRest
      · rintro (hOld | hRest)
        · exact .inl (.inl hOld)
        · exact .inr hRest

theorem flush_inv (h : w.Inv g l source) (fault : Option (Err × Bool)) {i : Nat}
    (hi : i < l.workers) :
    (w.flush fault i).1.Inv g l source := by
  refine ⟨fun k v hStored => h.agrees k v ((stored_flush h fault hi).mp hStored), ?_⟩
  intro m hm hash v
  cases fault with
  | some p => exact h.pending m hm hash v
  | none =>
    simp only [flush, setShard]
    by_cases hEq : m = i
    · subst hEq
      rw [Function.update_self]
      simp [KeepShard.empty]
    · rw [Function.update_of_ne hEq]
      exact h.pending m hm hash v

/-- Adding a record to a batch. -/
theorem stored_setShard {hash : Hash} {value : Bytes} {k v : Bytes} :
    (w.setShard (l.shardOf hash) ((w.shards (l.shardOf hash)).add hash value)).Stored l k v ↔
      w.Stored l k v ∨ (k = hash.bytes ∧ v = value) := by
  have hi := l.shardOf_lt hash
  generalize l.shardOf hash = i at hi
  simp only [Stored, setShard]
  constructor
  · rintro (hOld | ⟨m, hm, h, rfl, hMem⟩)
    · exact .inl (.inl hOld)
    · by_cases hEq : m = i
      · subst hEq
        rw [Function.update_self, KeepShard.add, List.mem_append, List.mem_singleton,
          Prod.mk.injEq] at hMem
        rcases hMem with hMem | ⟨rfl, rfl⟩
        · exact .inl (.inr ⟨m, hm, h, rfl, hMem⟩)
        · exact .inr ⟨rfl, rfl⟩
      · rw [Function.update_of_ne hEq] at hMem
        exact .inl (.inr ⟨m, hm, h, rfl, hMem⟩)
  · rintro ((hOld | ⟨m, hm, h, rfl, hMem⟩) | ⟨rfl, rfl⟩)
    · exact .inl hOld
    · by_cases hEq : m = i
      · subst hEq
        refine .inr ⟨m, hm, h, rfl, ?_⟩
        rw [Function.update_self]
        exact List.mem_append_left _ hMem
      · exact .inr ⟨m, hm, h, rfl, by rwa [Function.update_of_ne hEq]⟩
    · refine .inr ⟨i, hi, hash, rfl, ?_⟩
      rw [Function.update_self]
      exact List.mem_append_right _ (List.mem_singleton.mpr rfl)

/-- What a call on the writer does with a record of the source. -/
structure Puts (g : PruneHost) (l : KeepLimits) (source : Store) (k value : Bytes) (w : KeepWriter)
    (out : KeepWriter × Option Err) : Prop where
  inv     : out.1.Inv g l source
  keeps   : ∀ {a b}, w.Stored l a b → out.1.Stored l a b
  only    : ∀ {a b}, out.1.Stored l a b → w.Stored l a b ∨ (a = k ∧ b = value)
  stores  : out.2 = none → out.1.Stored l k value
  failure : out.1.failure = w.failure
  faulted : out.1.faulted = (w.faulted || out.2.isSome)

/-- A put into a shard stores the record, or reports an error. -/
theorem shardPut_puts (h : w.Inv g l source) (fault : BatchFault) {hash : Hash} {value : Bytes}
    (hSource : source.get? hash.bytes = some value) (hHash : g.keccak value = hash) :
    Puts g l source hash.bytes value w (w.shardPut l fault hash value) := by
  have hi := l.shardOf_lt hash
  have hUnchanged : ({ w with faulted := true } : KeepWriter).Inv g l source :=
    ⟨h.agrees, h.pending⟩
  unfold shardPut
  dsimp only
  cases hPending : (w.shards (l.shardOf hash)).pending hash with
  | some previous =>
    -- a pending record is compared
    have hMem := (h.pending _ hi hash previous).mp hPending
    have hStored : w.Stored l hash.bytes previous := .inr ⟨_, hi, hash, rfl, hMem⟩
    obtain rfl : previous = value := by
      have hSame := (h.agrees _ _ hStored).1
      rw [hSource] at hSame
      exact (Option.some.inj hSame).symm
    simp only [comparePruneValue, require, if_true]
    exact ⟨h, id, .inl, fun _ => hStored, rfl, by simp⟩
  | none =>
    cases hPut : fault.put with
    | some err => exact ⟨hUnchanged, id, .inl, by rintro ⟨⟩, rfl, by simp⟩
    | none =>
      have hAdded : (w.setShard (l.shardOf hash) ((w.shards (l.shardOf hash)).add hash value)).Inv
          g l source := by
        refine ⟨?_, ?_⟩
        · intro k v hStored
          rcases stored_setShard.mp hStored with hOld | ⟨rfl, rfl⟩
          · exact h.agrees k v hOld
          · exact ⟨hSource, by rw [hHash]⟩
        · intro m hm a b
          simp only [setShard]
          by_cases hEq : m = l.shardOf hash
          · subst hEq
            rw [Function.update_self]
            simp only [KeepShard.add, List.mem_append, List.mem_singleton, Prod.mk.injEq]
            by_cases hSame : a = hash
            · subst hSame
              rw [Function.update_self, ← h.pending _ hm, hPending]
              simp [eq_comm]
            · rw [Function.update_of_ne hSame, h.pending _ hm]
              simp [hSame]
          · rw [Function.update_of_ne hEq]
            exact h.pending m hm a b
      dsimp only
      split
      · refine ⟨flush_inv hAdded _ hi, ?_, ?_, ?_, ?_, ?_⟩
        · intro a b hOld
          exact (stored_flush hAdded _ hi).mpr (stored_setShard.mpr (.inl hOld))
        · intro a b hNew
          exact stored_setShard.mp ((stored_flush hAdded _ hi).mp hNew)
        · exact fun _ => (stored_flush hAdded _ hi).mpr (stored_setShard.mpr (.inr ⟨rfl, rfl⟩))
        · cases hWrite : fault.write <;> rfl
        · cases hWrite : fault.write <;> simp [flush, setShard]
      · exact ⟨hAdded, fun hOld => stored_setShard.mpr (.inl hOld), stored_setShard.mp,
          fun _ => stored_setShard.mpr (.inr ⟨rfl, rfl⟩), rfl, by simp [setShard]⟩

end KeepWriter

end L2State
