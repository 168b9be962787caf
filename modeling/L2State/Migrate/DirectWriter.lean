import L2State.Geth.Rawdb
import L2State.State.Groups

/-!
# L2State — the direct state writer

`directStateWriter` of `direct_writer.go`: it turns the callbacks of a
traversal into database writes. Writes gather in a batch that is flushed when
it reaches `ethdb.IdealBatchSize`, or only at the end for a deferred writer.

* `Output` — what a partition writes to: a target in one of the two schemes,
  or nothing.
* `Output.ops` — the database operation of one callback.
* `idealBatchSize`, `opSize` — when a batch is full.
-/

namespace L2State

open Lib

/-- The two state schemes. -/
inductive Scheme
  | hash
  | path
deriving DecidableEq

/-- `partitionOutputFactory`: a persistent target or validation only. -/
inductive Output
  | persistent (scheme : Scheme)
  | validation
deriving DecidableEq

/-- A write to the database. -/
abbrev DbOp := Op Bytes Bytes

/-- `trieNodeKey`. -/
def trieNodeKey (scheme : Scheme) (owner : Hash) (path : Bytes) (hash : Hash) : Bytes :=
  match scheme with
  | .hash => hash.bytes
  | .path => if owner = zeroHash then accountTrieNodeKey path else storageTrieNodeKey owner path

namespace Output

/-- The write of a callback. Flat state exists in the path scheme only. -/
def ops : Output → Effect → List DbOp
  | .validation, _ => []
  | .persistent _, .code _ codeHash code => [.put (codeKey codeHash) code]
  | .persistent s, .node owner n => [.put (trieNodeKey s owner n.path n.hash) n.blob]
  | .persistent .hash, _ => []
  | .persistent .path, .account hash a _ => [.put (accountSnapshotKey hash) (slimAccountRLP a)]
  | .persistent .path, .accountFromBundle hash _ _ slim => [.put (accountSnapshotKey hash) slim]
  | .persistent .path, .storage account slot val => [.put (storageSnapshotKey account slot) val]

end Output

/-- `ethdb.IdealBatchSize`. -/
def idealBatchSize : Nat := 100 * 1024

/-- What an operation adds to the size of a batch. -/
def opSize : DbOp → Nat
  | .put k v => k.length + v.length
  | .delete k => k.length

end L2State
