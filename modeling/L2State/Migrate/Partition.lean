import L2State.Lib.Contract
import L2State.Geth.Rawdb
import L2State.State.Traverser

/-!
# L2State — the partitioned traversal

`validatePartitionedState` of `partition_output.go`: the `partitionedStateMigrator` of
`migrate_partitioned.go`, `partition_accounts.go` and `partition_storage.go` with an output
that keeps nothing. Sixteen threads walk the account trie, one for each first nibble. An
account with storage or code is a task of its own; a large storage trie is walked by sixteen
threads again.

The threads call the database, the set of code hashes and the context. Who is first in a race
is a reply as well, so a run under a scheduler is a list of calls with their replies.

* `TrieIterator.next` — geth's iterator, by the nodes that it still has to visit.
* `migrateStorage`, `processMigrateAccount` — a task.
* `runMigrateAccountBurst`, `migrateAccountPartition` — a thread and its tasks.
* `validatePartitionedState`, `codeSet` — the traversal, and the set of code hashes.
-/

namespace L2State

open Lib

/-! ## Calls -/

inductive WalkOp
  /-- `Get` of the database. -/
  | get (key : Bytes)
  /-- `ctx.Err()`, and a wait for a token or a slot, which the context may end. -/
  | wait
  /-- `m.codeHashes.Add`. -/
  | addCode (hash : Hash)
  /-- The outcome of a race. -/
  | race

/-- What the threads share. -/
def WalkCalls : Interface where
  Op := WalkOp
  Reply
    | .get _ => Except Err Bytes
    | .wait => Option Err
    | .addCode _ => Bool
    | .race => Bool

abbrev Walk := Fallible WalkCalls Err

namespace Walk

def get (key : Bytes) : Walk (Except Err Bytes) := invoke (I := WalkCalls) (.get key)

def addCode (hash : Hash) : Walk Bool := invoke (I := WalkCalls) (.addCode hash)

def race : Walk Bool := invoke (I := WalkCalls) .race

/-- `if err := ctx.Err(); err != nil { return err }`. -/
def live : Walk Unit := do
  match ← (invoke (I := WalkCalls) .wait : Walk (Option Err)) with
  | none => pure ()
  | some err => throw err

/-- Two threads. If both fail, one of them is first. -/
def concurrently {α β : Type} (l : Walk α) (r : Walk β) : Walk (α × β) :=
  together (Proc.perform (I := WalkCalls) .race) l r

end Walk

open Walk

/-! ## Tries -/

/-- Nibbles; the last one of a leaf is 16. -/
abbrev HexPath := List (Fin 17)

/-- A decoded trie node. A child is a hash or an embedded node. -/
inductive Node
  | empty
  | value (v : Bytes)
  | hash (h : Hash)
  | short (key : HexPath) (child : Node)
  | full (children : Fin 17 → Node)

def packHex : HexPath → Bytes
  | a :: b :: rest => lowByte (a.val * 16 + b.val) :: packHex rest
  | _ => []

/-- `hexToKeybytes`, which panics on an odd number of nibbles. -/
def hexToKeybytes (path : HexPath) : Except Err Bytes :=
  let hex := if path.getLast? = some 16 then path.dropLast else path
  if hex.length % 2 = 0 then .ok (packHex hex)
  else .error (.outside "can't convert hex key of odd length")

/-- The nodes that an iterator still has to visit, with their paths. -/
structure TrieIterator where
  /-- The first nibble of `migratePartitionRange`, if the iterator has a range. -/
  range : Option (Fin 16)
  stack : List (HexPath × Node)

/-- The path lies in the range, or above it. -/
def inRange (range : Option (Fin 16)) : HexPath → Bool
  | [] => true
  | i :: _ => range.all fun p => min i.val 15 = p.val

def missingNode : Err := .outside "missing trie node"

/-- `reader.node`: errors of the database are dropped. -/
def nodeBlob : Except Err Bytes → Except Err Bytes
  | .ok blob => if blob.length = 0 then .error missingNode else .ok blob
  | .error _ => .error missingNode

/-! ## Rebuilt tries -/

/-- What was put into a stack trie, the blob that its callback saw at a path of one nibble, and
the counts. -/
structure Rebuilt where
  history   : History
  rootBlob  : Bytes
  populated : Bool
  counts    : Counts

def Rebuilt.empty : Rebuilt := ⟨[], [], false, 0⟩

/-- The blob of the last node at a path of one nibble. -/
def lastRoot (blob : Bytes) (nodes : List TrieNode) : Bytes :=
  ((nodes.filter fun n => n.path.length = 1).getLast?.map (·.blob)).getD blob

def Rebuilt.add (r : Rebuilt) (key value : Bytes) (nodes : List TrieNode) (counts : Counts) :
    Rebuilt :=
  ⟨r.history ++ [(key, value)], lastRoot r.rootBlob nodes, true, r.counts + counts⟩

/-- `migratePartitionResult`. -/
structure PartitionResult where
  populated : Bool
  root      : Hash
  rootBlob  : Bytes
  counts    : Counts

/-- `migrateAccountJob`. -/
structure AccountJob where
  hash      : Hash
  rlp       : Bytes
  account   : StateAccount
  codeHash  : Hash
  writeCode : Bool
  counts    : Counts

/-- The account needs a task. -/
def AccountJob.async (job : AccountJob) : Bool := job.account.root ≠ emptyRootHash ∨ job.writeCode

/-! ## The traversal -/

/-- `partitionedStateMigrator`. -/
structure Walker where
  geth       : Geth
  /-- `decodeNode`, which panics where this fails. -/
  decodeNode : Bytes → Except Err Node
  root       : Hash
  workers    : Nat

namespace Walker

variable (m : Walker)

/-- `migrateAccountWindow.capacity`. -/
def window : Nat := 2 * max m.workers 2

/-- Reads a node. -/
def resolve (h : Hash) : Walk (Except Err Node) :=
  if h = zeroHash then return .error missingNode
  else do
    let reply ← get h.bytes
    return nodeBlob reply >>= m.decodeNode

/-- A step of an iterator: the next leaf, the end, or the iterator with less to visit. A node in
the range is read at least once. The search for the first node may read others, and a node may
be read again. -/
def advance : TrieIterator → Walk (TrieIterator ⊕ Option ((Bytes × Bytes) × TrieIterator))
  | ⟨_, []⟩ => return .inr none
  | ⟨range, (_, .empty) :: rest⟩ => return .inl ⟨range, rest⟩
  | ⟨range, (path, .value v) :: rest⟩ =>
    if inRange range path then do
      let key ← computed (hexToKeybytes path)
      return .inr (some ((key, v), ⟨range, rest⟩))
    else return .inl ⟨range, rest⟩
  | ⟨range, (path, .short key child) :: rest⟩ => return .inl ⟨range, (path ++ key, child) :: rest⟩
  | ⟨range, (path, .full children) :: rest⟩ =>
    return .inl ⟨range, (List.finRange 17).map (fun i => (path ++ [i], children i)) ++ rest⟩
  | ⟨range, (path, .hash h) :: rest⟩ => do
    let passes ← (if inRange range path then pure false else race : Walk Bool)
    if passes then return .inl ⟨range, rest⟩
    else
      let node ← m.resolve h
      if ← race then return .inl ⟨range, (path, .hash h) :: rest⟩
      else return .inl ⟨range, (path, ← computed node) :: rest⟩

/-- `trie.Iterator.Next`. -/
def next (it : TrieIterator) : Walk (Option ((Bytes × Bytes) × TrieIterator)) :=
  repeatUntil m.advance it

/-- `openIterator` and `openPartitionIterator`: the reader of `trie.New` needs the root of the
state, and the trie its own. -/
def openIterator (root : Hash) (range : Option (Fin 16)) : Walk TrieIterator := do
  if m.root = zeroHash ∨ m.root = emptyRootHash then
    if root = zeroHash ∨ root = emptyRootHash then return ⟨range, []⟩ else throw missingNode
  else
    let reply ← get m.root.bytes
    let _ ← computed (nodeBlob reply)
    if root = zeroHash ∨ root = emptyRootHash then return ⟨range, []⟩
    else
      let node ← m.resolve root
      return ⟨range, [([], ← computed node)]⟩

/-! ## Partitions -/

/-- `validateMigratePartitionResult`. -/
def validateMigratePartitionResult (p : Fin 16) (r : PartitionResult) : Except Err Unit := do
  if ¬ r.populated then
    require (r.root = emptyRootHash) (.msg "empty partition %x has root %s" [.num p, .hash r.root])
    require (r.rootBlob.length = 0) (.msg "empty partition %x emitted a root node" [.num p])
  else
    require (r.rootBlob.length ≠ 0) (.msg "partition %x did not emit its root node" [.num p])
    require (m.geth.keccak r.rootBlob = r.root)
      (.msg "partition %x root blob hash mismatch: computed %s root %s"
        [.num p, .hash (m.geth.keccak r.rootBlob), .hash r.root])

/-- The end of a partition: `Hash` of its stack trie, and the check of the result. -/
def finishPartition (p : Fin 16) (r : Rebuilt) : Except Err PartitionResult := do
  let (root, nodes) := (m.geth.partialStack p).hash r.history
  let result := ⟨r.populated, root, lastRoot r.rootBlob nodes, r.counts⟩
  m.validateMigratePartitionResult p result
  return result

/-- The root over the partitions that have leaves. -/
def assembledRoot : List (Fin 16 × PartitionResult) → Except Err Hash
  | [] => .ok emptyRootHash
  | [(only, r)] => do
    let (rootHash, _) ← wrapping "mount partition %x root: %w" [.num only]
      (m.geth.mountPartitionRoot r.rootBlob only)
    return rootHash
  | populated => do
    let children (i : Fin 17) : Bytes :=
      ((populated.find? fun e => e.1.val = i.val).map fun e => e.2.root.bytes).getD []
    let (_, rootHash) ← wrapping "assemble partition branch: %w" [] (m.geth.assembleBranch children)
    return rootHash

/-- `assembleMigratedTrie`. -/
def assembleMigratedTrie (expectedRoot : Hash) (partitions : List PartitionResult) :
    Except Err Hash := do
  let rootHash ← m.assembledRoot (((List.finRange 16).zip partitions).filter fun e => e.2.populated)
  require (rootHash = expectedRoot)
    (.msg "root mismatch: computed %s expected %s" [.hash rootHash, .hash expectedRoot])
  return rootHash

/-- `runMigratePartitionTasks`. -/
def runMigratePartitionTasks {α : Type} (task : Fin 16 → Walk α) : Walk (List α) := do
  let results ← allTogether (Proc.perform (I := WalkCalls) .race) task (List.finRange 16)
  live
  return results

/-! ## Storage -/

/-- `processMigratedStorageSlot`. -/
def processMigratedStorageSlot (stack : StackOps) (accountHash : Hash)
    (leaf : Bytes × Bytes) (r : Rebuilt) :
    Except Err Rebuilt := do
  let (key, value) := leaf
  require (key.length = 32)
    (.msg "account %s storage key has length %d" [.hash accountHash, .num key.length])
  wrapping "account %s slot %x: %w" [.hash accountHash, .bytes key] (validateStorageRLP value)
  let nodes ← wrapping "rebuild storage trie for account %s: %w" [.hash accountHash]
    (stack.update r.history key value)
  return r.add key value nodes (.slot value.length)

/-- `migrateStoragePartitionThreshold`. -/
def migrateStoragePartitionThreshold : Nat := 1024

/-- `finishProbedStorage`. -/
def finishProbedStorage (accountHash expectedRoot : Hash) (r : Rebuilt) : Walk Counts := do
  let computedRoot := (m.geth.stack.hash r.history).1
  computed (require (computedRoot = expectedRoot)
    (.msg "account %s storage root mismatch: computed %s account %s"
      [.hash accountHash, .hash computedRoot, .hash expectedRoot]))
  wrapped (.wrap "flush account %s storage trie: %w" [.hash accountHash]) live
  return r.counts

/-- The loop of `probeStorage` for `n` more slots. A trie with more is to be partitioned. -/
def probeSlots (accountHash expectedRoot : Hash) : Nat → TrieIterator → Rebuilt →
    Walk (Option Counts)
  | 0, storage, r => do
    match ← wrapped (.wrap "iterate storage trie for account %s: %w" [.hash accountHash])
      (m.next storage) with
    | none => return some (← m.finishProbedStorage accountHash expectedRoot r)
    | some _ =>
      live
      return none
  | n + 1, storage, r => do
    live
    match ← wrapped (.wrap "iterate storage trie for account %s: %w" [.hash accountHash])
      (m.next storage) with
    | none => return some (← m.finishProbedStorage accountHash expectedRoot r)
    | some (leaf, storage) =>
      let r ← computed (processMigratedStorageSlot m.geth.stack accountHash leaf r)
      probeSlots accountHash expectedRoot n storage r

/-- `probeStorage`. -/
def probeStorage (accountHash expectedRoot : Hash) : Walk (Option Counts) := do
  live
  let storage ← wrapped (.wrap "open storage iterator for account %s: %w" [.hash accountHash])
    (m.openIterator expectedRoot none)
  m.probeSlots accountHash expectedRoot migrateStoragePartitionThreshold storage .empty

/-- An iteration of the loop of `migrateStoragePartition`. -/
def storageStep (accountHash : Hash) (p : Fin 16) (st : TrieIterator × Rebuilt) :
    Walk ((TrieIterator × Rebuilt) ⊕ Rebuilt) := do
  match ← wrapped (.wrap "iterate storage partition %x: %w" [.num p]) (m.next st.1) with
  | none => return .inr st.2
  | some (leaf, storage) =>
    live
    let r ← computed (processMigratedStorageSlot (m.geth.partialStack p) accountHash leaf st.2)
    return .inl (storage, r)

/-- `migrateStoragePartition`. -/
def migrateStoragePartition (accountHash storageRoot : Hash) (p : Fin 16) :
    Walk PartitionResult := do
  live
  let storage ← wrapped (.wrap "open iterator: %w" []) (m.openIterator storageRoot (some p))
  let r ← repeatUntil (m.storageStep accountHash p) (storage, .empty)
  let result ← computed (m.finishPartition p r)
  wrapped (.wrap "flush storage partition %x: %w" [.num p]) live
  return result

/-- `migratePartitionedStorage`. -/
def migratePartitionedStorage (accountHash expectedRoot : Hash) : Walk Counts := do
  let partitions ← runMigratePartitionTasks fun p => do
    live
    wrapped (.wrap "migrate account %s storage partition %x: %w" [.hash accountHash, .num p])
      (m.migrateStoragePartition accountHash expectedRoot p)
  live
  let _ ← computed (wrapping "assemble account %s storage trie: %w" [.hash accountHash]
    (m.assembleMigratedTrie expectedRoot partitions))
  wrapped (.wrap "flush account %s storage root: %w" [.hash accountHash]) live
  return (partitions.map (·.counts)).sum

/-- `migrateStorage`. -/
def migrateStorage (accountHash expectedRoot : Hash) : Walk Counts :=
  if expectedRoot = emptyRootHash then return 0
  else do
    match ← m.probeStorage accountHash expectedRoot with
    | some counts => return counts
    | none => m.migratePartitionedStorage accountHash expectedRoot

/-- `readMigrateCode`. -/
def readMigrateCode (accountHash codeHash : Hash) : Walk Bytes :=
  if codeHash = emptyCodeHash then return []
  else do
    live
    let reply ← get codeHash.bytes
    let reply := if reply = .error keyNotFound then .ok [] else reply
    let code ← computed
        (wrapping "read account %s code %s: %w" [.hash accountHash, .hash codeHash] reply)
    computed (require (code.length ≠ 0)
      (.msg "account %s code %s is missing" [.hash accountHash, .hash codeHash]))
    computed (require (m.geth.keccak code = codeHash)
      (.msg "account %s code hash mismatch: computed %s account %s"
        [.hash accountHash, .hash (m.geth.keccak code), .hash codeHash]))
    return code

/-! ## Accounts -/

/-- `prepareMigrateAccount`, with the counts of `result`. -/
def prepareMigrateAccount (p : Fin 16) (sequence : Nat) (leaf : Bytes × Bytes) :
    Walk AccountJob := do
  let (key, rlp) := leaf
  computed (require (key.length = 32)
    (.msg "account partition %x sequence %d: account trie key has length %d"
      [.num p, .num sequence, .num key.length]))
  let hash : Hash := .ofBytes 32 key
  let account ← computed (decodeFullAccount hash rlp)
  let codeHash : Hash := .ofBytes 32 account.codeHash
  if codeHash = emptyCodeHash then return ⟨hash, rlp, account, codeHash, false, 0⟩
  else
    let writeCode ← addCode codeHash
    return ⟨hash, rlp, account, codeHash, writeCode, .codeReference⟩

/-- `processMigrateAccount`: the code, if it is to be written, and the counts. -/
def processMigrateAccount (job : AccountJob) : Walk (Bytes × Counts) := do
  live
  let counts ← m.migrateStorage job.hash job.account.root
  let code ←
      (if job.writeCode then m.readMigrateCode job.hash job.codeHash else pure [] : Walk Bytes)
  return (code, job.counts + counts)

/-- The goroutine of `submitMigrateAccountTask`. -/
def accountTask (p : Fin 16) (sequence : Nat) (job : AccountJob) :
    Walk (AccountJob × Bytes × Counts) := do
  let out ← wrapped (.wrap "account partition %x sequence %d account %s: %w"
    [.num p, .num sequence, .hash job.hash]) (m.processMigrateAccount job)
  return (job, out)

/-- `mergeMigrateAccountDataHeld`. -/
def mergeMigrateAccountDataHeld (p : Fin 16) (job : AccountJob) (code : Bytes)
    (counts : Counts) (r : Rebuilt) :
    Except Err Rebuilt := do
  let record : Counts := if code.length ≠ 0 then .code code.length else 0
  let nodes ← wrapping "rebuild account partition %x: %w" [.num p]
    ((m.geth.partialStack p).update r.history job.hash.bytes job.rlp)
  return r.add job.hash.bytes job.rlp nodes (.account job.rlp.length + (counts + record))

/-- The loop of `runMigrateAccountBurst` for `n` more slots of the window, with the tasks that it
starts: the results in the order of their sequence numbers, the iterator, and whether it has
ended. -/
def submitAccounts (p : Fin 16) : Nat → Nat → TrieIterator →
    Walk (List (AccountJob × Bytes × Counts) × TrieIterator × Bool)
  | 0, _, accounts => return ([], accounts, false)
  | n + 1, sequence, accounts => do
    -- `tryAcquire`
    if ← race then return ([], accounts, false)
    else
      live
      match ← wrapped (.wrap "iterate account partition %x: %w" [.num p]) (m.next accounts) with
      | none => return ([], accounts, true)
      | some (leaf, accounts) =>
        let job ← prepareMigrateAccount p sequence leaf
        let more := submitAccounts p n (sequence + 1) accounts
        let (done, rest) ← (if job.async then concurrently (m.accountTask p sequence job) more
          else more >>= fun rest => pure ((job, [], job.counts), rest) :
            Walk ((AccountJob × Bytes × Counts) × List (AccountJob × Bytes × Counts) ×
              TrieIterator × Bool))
        return (done :: rest.1, rest.2)

/-- The merge of a result. -/
def mergeMigrateAccount (p : Fin 16) (st : Nat × Rebuilt) (result : AccountJob × Bytes × Counts) :
    Walk (Nat × Rebuilt) := do
  let (sequence, r) := st
  let (job, code, counts) := result
  let r ← wrapped (.wrap "merge account partition %x sequence %d account %s: %w"
    [.num p, .num sequence, .hash job.hash]) (do
      live
      computed (m.mergeMigrateAccountDataHeld p job code counts r))
  return (sequence + 1, r)

/-- The wrap of `run`. The first failure of a burst goes into the latch of the run as it is. -/
def ofPartition {α : Type} (p : Fin 16) (x : Walk α) : Walk α :=
  wrapped (.wrap "migrate account partition %x: %w" [.num p]) x

/-- `runMigrateAccountBurst`: the next sequence number, what was merged, the iterator, and whether
it has ended. No result is merged before a failure and used after it, so the merge is here behind
the tasks. -/
def runMigrateAccountBurst (p : Fin 16) (sequence : Nat) (accounts : TrieIterator)
    (first : AccountJob) (r : Rebuilt) : Walk ((Nat × Rebuilt) × TrieIterator × Bool) := do
  ofPartition p live
  let (done, rest) ← concurrently (m.accountTask p sequence first)
    (m.submitAccounts p (m.window - 1) (sequence + 1) accounts)
  let merged ← (done :: rest.1).foldlM (m.mergeMigrateAccount p) (sequence, r)
  ofPartition p live
  return (merged, rest.2)

/-- An iteration of the loop of `migrateAccountPartition`. -/
def accountStep (p : Fin 16) (st : (Nat × Rebuilt) × TrieIterator) :
    Walk (((Nat × Rebuilt) × TrieIterator) ⊕ Rebuilt) := do
  let ((sequence, r), accounts) := st
  ofPartition p live
  match ← ofPartition p
    (wrapped (.wrap "iterate account partition %x: %w" [.num p]) (m.next accounts)) with
  | none => return .inr r
  | some (leaf, accounts) =>
    let job ← ofPartition p (prepareMigrateAccount p sequence leaf)
    if job.async then
      let (merged, accounts, eof) ← m.runMigrateAccountBurst p sequence accounts job r
      return if eof then .inr merged.2 else .inl (merged, accounts)
    else
      let r ← ofPartition p (computed (m.mergeMigrateAccountDataHeld p job [] job.counts r))
      return .inl ((sequence + 1, r), accounts)

/-- `migrateAccountPartition`. -/
def migrateAccountPartition (p : Fin 16) : Walk PartitionResult := do
  ofPartition p live
  let accounts ← ofPartition p
      (wrapped (.wrap "open account iterator: %w" []) (m.openIterator m.root (some p)))
  let r ← repeatUntil (m.accountStep p) ((0, .empty), accounts)
  ofPartition p (do
    live
    let result ← computed (m.finishPartition p r)
    wrapped (.wrap "flush account partition %x: %w" [.num p]) live
    return result)

/-- `run`, and the end of `validatePartitionedState`. -/
def validatePartitionedState : Walk StateResult := do
  let partitions ← runMigratePartitionTasks m.migrateAccountPartition
  let root ← computed
      (wrapping "assemble account trie: %w" [] (m.assembleMigratedTrie m.root partitions))
  live
  return ⟨root, (partitions.map (·.counts)).sum⟩

end Walker

/-- `concurrentHashSet`. -/
def codeSet : Object WalkCalls where
  State := List Hash
  perform
    | .addCode h, added, s =>
      if (hashSetAdd s h).1 == (added : Bool) then some (hashSetAdd s h).2 else none
    | _, _, s => some s

end L2State
