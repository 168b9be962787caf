import L2State.Geth.Types

/-!
# L2State — the trie library as the migration code calls it

The repository calls geth for hashing and for building tries from sorted
leaves. Those calls are the fields of one structure, and what geth documents
about them is stated as named laws that a result takes as a hypothesis.

* `Geth` — hashing, the two stack tries and the two ways of mounting sixteen
  partition roots.
* `StackOps` — a stack trie. It has no state of its own here: its state is
  the list of updates so far, and each call is a function of that list.
* `StackOps.Ordered`, `StackOps.Accepts` — updates are accepted exactly in
  strictly increasing key order, with nonempty values.
* `StackOps.Accepted` — a list of updates that a stack trie accepts, and
  `emittedBy`, the nodes it emits on the way.
* `Source` — the databases a traversal reads: tries by owner and root, and
  contract code by hash.
-/

namespace L2State

open Lib

/-- A node a stack trie emits: its path in nibbles, its hash and its bytes. -/
structure TrieNode where
  path : Bytes
  hash : Hash
  blob : Bytes
deriving DecidableEq

/-- The updates a stack trie has received, in order. -/
abbrev History := List (Bytes × Bytes)

/-- The calls of a stack trie, as functions of the updates before the call. -/
structure StackOps where
  /-- `Update(key, value)`: the nodes passed to the callback during the call. -/
  update : History → Bytes → Bytes → Except Err (List TrieNode)
  /-- `Hash()`: the root, and the nodes passed to the callback. -/
  hash   : History → Hash × List TrieNode

/-- The fields of a decoded `types.Header` that the repository reads. A
missing number is `none`. -/
structure Header where
  number : Option Nat
  root   : Hash
deriving DecidableEq

/-- The geth functions that the migration code calls. -/
structure Geth where
  /-- `crypto.Keccak256Hash`. -/
  keccak             : Bytes → Hash
  /-- `rlp.DecodeBytes` into a `types.Header`. -/
  decodeHeader       : Bytes → Except Err Header
  /-- `trie.NewStackTrie`. -/
  stack              : StackOps
  /-- `trie.NewPartialStackTrie(p, ...)`. -/
  partialStack       : Fin 16 → StackOps
  /-- `trie.MountPartitionRoot(blob, p)`: root hash, root blob, and whether
  the partition root was folded into the new root. -/
  mountPartitionRoot : Bytes → Fin 16 → Except Err (Hash × Bytes × Bool)
  /-- `trie.AssembleBranch(children)`. -/
  assembleBranch     : (Fin 17 → Bytes) → Except Err (Bytes × Hash)

namespace StackOps

/-- Keys must increase strictly: an accepted key is above the last one. -/
def Ordered (s : StackOps) : Prop :=
  ∀ {h : History} {k v : Bytes} {nodes : List TrieNode}, s.update h k v = .ok nodes →
    ∀ e ∈ h.getLast?, e.1 < k

/-- A nonempty value under a key above the last one is accepted, as long as
all keys have the length of a hash. -/
def Accepts (s : StackOps) : Prop :=
  ∀ {h : History} {k v : Bytes}, (∀ e ∈ h, e.1.length = 32) → k.length = 32 → v ≠ [] →
    (∀ e ∈ h.getLast?, e.1 < k) → ∃ nodes, s.update h k v = .ok nodes

end StackOps

/-! ## Accepted updates -/

namespace StackOps

/-- The updates `l` succeed one after the other, after the updates `h`. -/
def Accepted (ops : StackOps) (h : History) : History → Prop
  | [] => True
  | x :: xs => (∃ nodes, ops.update h x.1 x.2 = .ok nodes) ∧ ops.Accepted (h ++ [x]) xs

/-- The nodes an update emits. -/
def emittedBy (ops : StackOps) (h : History) (x : Bytes × Bytes) : List TrieNode :=
  match ops.update h x.1 x.2 with
  | .ok nodes => nodes
  | .error _ => []

variable {ops : StackOps}

theorem emittedBy_of_update {h : History} {k v : Bytes} {nodes : List TrieNode}
    (hUpdate : ops.update h k v = .ok nodes) : ops.emittedBy h (k, v) = nodes := by
  simp [emittedBy, hUpdate]

theorem emittedBy_of_update_pair {h : History} {x : Bytes × Bytes} {nodes : List TrieNode}
    (hUpdate : ops.update h x.1 x.2 = .ok nodes) :
    ops.emittedBy h x = nodes := emittedBy_of_update hUpdate

theorem accepted_append {h xs ys : History} :
    ops.Accepted h (xs ++ ys) ↔ ops.Accepted h xs ∧ ops.Accepted (h ++ xs) ys := by
  induction xs generalizing h with
  | nil => simp [Accepted]
  | cons x xs ih => simp [Accepted, ih, and_assoc]

/-- Accepted updates have strictly increasing keys. -/
theorem Accepted.pairwise (hOrd : ops.Ordered) {l : History} (hl : ops.Accepted [] l) :
    l.Pairwise fun a b => a.1 < b.1 := by
  induction l using List.reverseRecOn with
  | nil => exact List.Pairwise.nil
  | append_singleton xs x ih =>
    obtain ⟨hxs, ⟨nodes, hUpdate⟩, -⟩ := accepted_append.mp hl
    have hSorted := ih hxs
    rw [List.nil_append] at hUpdate
    rw [List.pairwise_append]
    refine ⟨hSorted, List.pairwise_singleton _ _, ?_⟩
    intro a ha b hb
    rw [List.mem_singleton] at hb
    subst hb
    -- the new key is above the last one, and the last one above the others
    cases hLast : xs.getLast? with
    | none => simp [List.getLast?_eq_none_iff.mp hLast] at ha
    | some last =>
      have hlt : last.1 < b.1 := hOrd hUpdate last (by simp [hLast])
      obtain ⟨init, rfl⟩ := List.getLast?_eq_some_iff.mp hLast
      rcases List.mem_append.mp ha with hin | hin
      · exact ((List.pairwise_append.mp hSorted).2.2 a hin last (by simp)).trans hlt
      · rw [List.mem_singleton] at hin
        exact hin ▸ hlt

/-- Conversely, increasing 32-byte keys with nonempty values are accepted. -/
theorem accepted_of_pairwise (hAcc : ops.Accepts) {h l : History}
    (hLen : ∀ e ∈ h ++ l, e.1.length = 32) (hVal : ∀ e ∈ l, e.2 ≠ [])
    (hSorted : (h ++ l).Pairwise fun a b => a.1 < b.1) : ops.Accepted h l := by
  induction l generalizing h with
  | nil => trivial
  | cons x xs ih =>
    have hSorted' : ((h ++ [x]) ++ xs).Pairwise fun a b => a.1 < b.1 := by
      simpa using hSorted
    refine ⟨?_, ih (by simpa using hLen) (fun e he => hVal e (by simp [he])) hSorted'⟩
    refine hAcc (fun e he => hLen e (by simp [he])) (hLen x (by simp)) (hVal x (by simp)) ?_
    intro e he
    exact (List.pairwise_append.mp hSorted).2.2 e (List.mem_of_getLast? he) x (by simp)

end StackOps

/-! ## Leaf streams and the databases behind them -/

/-- What a trie iterator yields: leaves in order, then possibly an error. The
hashes of the nodes it passes (embedded nodes have none) are what an
inventory counts. -/
structure LeafStream where
  leaves : List (Bytes × Bytes)
  nodes  : List Hash
  err    : Option Err

/-- An opened trie: its iterator may fail to open. -/
structure TrieHandle where
  /-- `NodeIterator(nil)` under a leaf iterator. -/
  iterator : Except Err LeafStream

/-- The databases a traversal reads. -/
structure Source where
  /-- `trie.NewStateTrie` or `trie.New`, by owner and root; the account trie
  has the zero owner. -/
  openTrie : Hash → Hash → Except Err TrieHandle
  /-- The code reader; a missing code is the empty string. -/
  readCode : Hash → Except Err Bytes

/-! ## Emitted nodes -/

namespace StackOps

/-- The nodes emitted by a list of updates, after the updates `h`. -/
def emitted (ops : StackOps) : History → History → List TrieNode
  | _, [] => []
  | h, x :: xs => ops.emittedBy h x ++ ops.emitted (h ++ [x]) xs

/-- The nodes of the trie over the leaves `l`, in the order of emission. -/
def nodesOf (ops : StackOps) (l : History) : List TrieNode := ops.emitted [] l ++ (ops.hash l).2

end StackOps

/-! ## Nibbles -/

theorem highNibble_lt (b : Byte) : b.val / 16 < 16 := by
  have := b.isLt
  omega

/-- A nibble as an element of a path. -/
def nibbleByte (p : Fin 16) : Byte := ⟨p.val, by omega⟩

end L2State
