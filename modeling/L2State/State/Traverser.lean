import L2State.State.Visitor

/-!
# L2State — the serial traversal

`stateTraverser` of `state.go` and `state_trie.go`: it walks the account trie
in key order, rebuilds every storage trie and the account trie with stack
tries, checks roots and code hashes, and reports what it sees.

The leaf streams of the source prefetch leaves in a goroutine and hand them
over in order, so the consumer sees the leaves of the iterator and then its
error; this is what `consumeStorage` and `run` fold over.

* `Traversal.run` — the whole traversal, parametrised by visitor and sink.
-/

namespace L2State

open Lib

/-- `StateResult`. -/
structure StateResult where
  root   : Hash
  counts : Counts
deriving DecidableEq

/-- `hashSet.Add`: whether the hash was absent, and the set after the call. -/
def hashSetAdd (s : List Hash) (h : Hash) : Bool × List Hash :=
  if h ∈ s then (false, s) else (true, h :: s)

/-- The fields of a `stateTraverser` that a run does not change. -/
structure Traversal (σ : Type) where
  geth      : Geth
  source    : Source
  root      : Hash
  visitor   : Visitor σ
  trieNodes : NodeSink σ

/-- The fields of a `stateTraverser` that a run changes; `visited` collects
the node hashes for the inventory. -/
structure TraverserState (σ : Type) where
  counts       : Counts
  codeHashes   : List Hash
  accountStack : History
  visited      : List Hash
  out          : σ

/-- The state of `newStateTraverser`. -/
def TraverserState.init {σ : Type} (out : σ) : TraverserState σ := ⟨0, [], [], [], out⟩

/-- The callback of `newTraversalStackTrie` on the nodes of one call. It stops
at the first error, which the caller checks right after the call. -/
def writeNodes {σ : Type} (sink : NodeSink σ) (owner : Hash) (nodes : List TrieNode) (out : σ) :
    Except Err σ :=
  nodes.foldlM (fun out n => sink.trieNode owner n out) out

/-- `storageTriePipelineThreshold`. -/
def storageTriePipelineThreshold : Nat := 64

namespace Traversal

variable {σ : Type} (t : Traversal σ)

/-- `processStorageSlot`, on the storage stack and the traverser. -/
def processStorageSlot (accountHash : Hash) (st : History × TraverserState σ)
    (leaf : Bytes × Bytes) : Except Err (History × TraverserState σ) := do
  let (key, value) := leaf
  let (stack, s) := st
  require (key.length = 32)
    (.msg "account %s storage key has length %d" [.hash accountHash, .num key.length])
  wrapping "account %s slot %x: %w" [.hash accountHash, .bytes key] (validateStorageRLP value)
  let nodes ← wrapping "rebuild storage trie for account %s: %w" [.hash accountHash]
    (t.geth.stack.update stack key value)
  let out ← wrapping "write storage trie nodes for account %s: %w" [.hash accountHash]
    (writeNodes t.trieNodes accountHash nodes s.out)
  let out ← t.visitor.storage accountHash (.ofBytes 32 key) value out
  return (stack ++ [(key, value)], { s with counts := s.counts + .slot value.length, out := out })

/-- The check of a leaf iterator that has no more leaves. -/
def iteratorErr (accountHash : Hash) (stream : LeafStream) : Except Err Unit :=
  match stream.err with
  | none => .ok ()
  | some e => .error (.wrap "iterate storage trie for account %s: %w" [.hash accountHash] e)

/-- `consumeStoragePrefix`: the first slots inline; the slot after them and
the rest of the stream are returned if there are more. -/
def consumeStoragePrefix (accountHash : Hash) (stream : LeafStream)
    (st : History × TraverserState σ) : Except Err
      ((History × TraverserState σ) × Option ((Bytes × Bytes) × List (Bytes × Bytes))) := do
  let st ← (stream.leaves.take storageTriePipelineThreshold).foldlM
    (t.processStorageSlot accountHash) st
  match stream.leaves.drop storageTriePipelineThreshold with
  | [] => do
    iteratorErr accountHash stream
    return (st, none)
  | first :: rest => do
    require (first.1.length = 32)
      (.msg "account %s storage key has length %d" [.hash accountHash, .num first.1.length])
    return (st, some (first, rest))

/-- `consumeStorage`: larger tries continue through a prefetching stream. -/
def consumeStorage (accountHash : Hash) (stream : LeafStream) (st : History × TraverserState σ) :
    Except Err (History × TraverserState σ) := do
  let (st, more) ← t.consumeStoragePrefix accountHash stream st
  match more with
  | none => return st
  | some (first, rest) => do
    let st ← t.processStorageSlot accountHash st first
    let st ← rest.foldlM (t.processStorageSlot accountHash) st
    iteratorErr accountHash stream
    return st

/-- `traverseStorage`: the computed storage root. -/
def traverseStorage (accountHash expectedRoot : Hash) (s : TraverserState σ) :
    Except Err (Hash × TraverserState σ) := do
  if expectedRoot = emptyRootHash then
    return (emptyRootHash, s)
  else do
    let handle ← wrapping "open storage trie for account %s at %s: %w"
      [.hash accountHash, .hash expectedRoot] (t.source.openTrie accountHash expectedRoot)
    let stream ← wrapping "open storage iterator for account %s: %w" [.hash accountHash]
      handle.iterator
    let (stack, s) ← t.consumeStorage accountHash stream ([], s)
    let (computedRoot, nodes) := t.geth.stack.hash stack
    let out ← wrapping "write final storage trie nodes for account %s: %w" [.hash accountHash]
      (writeNodes t.trieNodes accountHash nodes s.out)
    return (computedRoot, { s with visited := s.visited ++ stream.nodes, out := out })

/-- `processCode`. -/
def processCode (accountHash codeHash : Hash) (s : TraverserState σ) :
    Except Err (TraverserState σ) := do
  if codeHash = emptyCodeHash then
    return s
  else do
    let s := { s with counts := s.counts + .codeReference }
    let (added, codeHashes) := hashSetAdd s.codeHashes codeHash
    if added then do
      let code ← wrapping "read account %s code %s: %w" [.hash accountHash, .hash codeHash]
        (t.source.readCode codeHash)
      require (code.length ≠ 0)
        (.msg "account %s code %s is missing" [.hash accountHash, .hash codeHash])
      require (t.geth.keccak code = codeHash)
        (.msg "account %s code hash mismatch: computed %s account %s"
          [.hash accountHash, .hash (t.geth.keccak code), .hash codeHash])
      let out ← t.visitor.code accountHash codeHash code s.out
      return { s with counts := s.counts + .code code.length, codeHashes := codeHashes, out := out }
    else
      return s

/-- `processAccount`. The key-length check is the one of `produceAccountTrie`,
which hands leaves over in order. -/
def processAccount (s : TraverserState σ) (leaf : Bytes × Bytes) :
    Except Err (TraverserState σ) := do
  let (key, value) := leaf
  require (key.length = 32) (.msg "account trie key has length %d" [.num key.length])
  let accountHash : Hash := .ofBytes 32 key
  let account ← decodeFullAccount accountHash value
  let out ← t.visitor.account accountHash account value s.out
  let s := { s with counts := s.counts + .account value.length, out := out }
  let (computedStorageRoot, s) ← t.traverseStorage accountHash account.root s
  require (computedStorageRoot = account.root)
    (.msg "account %s storage root mismatch: computed %s account %s"
      [.hash accountHash, .hash computedStorageRoot, .hash account.root])
  let s ← t.processCode accountHash (.ofBytes 32 account.codeHash) s
  let nodes ← wrapping "rebuild account trie: %w" []
    (t.geth.stack.update s.accountStack accountHash.bytes value)
  let out ← wrapping "write account trie nodes: %w" []
    (writeNodes t.trieNodes zeroHash nodes s.out)
  return { s with accountStack := s.accountStack ++ [(accountHash.bytes, value)], out := out }

/-- `finalize`. -/
def finalize (s : TraverserState σ) : Except Err (StateResult × TraverserState σ) := do
  let (computedRoot, nodes) := t.geth.stack.hash s.accountStack
  let out ← wrapping "write final account trie nodes: %w" []
    (writeNodes t.trieNodes zeroHash nodes s.out)
  require (computedRoot = t.root)
    (.msg "state root mismatch: computed %s header %s" [.hash computedRoot, .hash t.root])
  return (⟨computedRoot, s.counts⟩, { s with out := out })

/-- `run`. -/
def run (out : σ) : Except Err (StateResult × TraverserState σ) := do
  let handle ← wrapping "open account trie %s: %w" [.hash t.root]
      (t.source.openTrie zeroHash t.root)
  let stream ← wrapping "open account iterator: %w" [] handle.iterator
  let s ← stream.leaves.foldlM t.processAccount (TraverserState.init out)
  match stream.err with
  | some e => .error (.wrap "iterate account trie: %w" [] e)
  | none => t.finalize { s with visited := s.visited ++ stream.nodes }

end Traversal

end L2State
