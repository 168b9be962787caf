import L2State.Geth.Reference
import L2State.State.Traverser

/-!
# L2State — account groups and canonical states

What a traversal reports about one account is a group: the account, its
slots and, at the first reference, its code. A state is a list of groups.
This is the abstract description that the serial traversal, the bundle
consumer and the partitioned migration are all compared with.

* `StorageOk`, `CodeOk`, `Group.WellFormed` — the checks every builder makes
  on one account.
* `Canonical` — a list of groups that forms a state with a given root.
* `Group.effects`, `traverserEffects` — the callbacks the traversal makes.
* `Traversal.run_eq_ok_iff` — **the traversal succeeds exactly on canonical
  states**, with the sum of the group counts and these callbacks.
-/

namespace L2State

open Lib

/-- What a traversal reports about one account. -/
structure Group where
  hash    : Hash
  account : StateAccount
  slots   : List (Hash × Bytes)
  code    : Option Bytes
deriving DecidableEq

/-- The leaves of a storage trie, as a stack trie receives them. -/
def slotHistory (slots : List (Hash × Bytes)) : History := slots.map fun s => (s.1.bytes, s.2)

/-- The counters of the slots of one account. -/
def slotCounts (slots : List (Hash × Bytes)) : Counts :=
  (slots.map fun s => Counts.slot s.2.length).sum

/-- The checks on the storage of an account: valid values in increasing key
order, none for the empty root, and the root of the rebuilt trie otherwise. -/
structure StorageOk (g : Geth) (root : Hash) (slots : List (Hash × Bytes)) : Prop where
  valid     : ∀ s ∈ slots, validateStorageRLP s.2 = .ok ()
  accepted  : g.stack.Accepted [] (slotHistory slots)
  empty_iff : slots = [] ↔ root = emptyRootHash
  root_eq   : slots ≠ [] → (g.stack.hash (slotHistory slots)).1 = root

/-- The checks on the code of an account, after the codes `known`: it is
reported at the first reference and only there. -/
def CodeOk (g : Geth) (known : List Hash) (codeHash : Hash) : Option Bytes → Prop
  | some c => codeHash ≠ emptyCodeHash ∧ codeHash ∉ known ∧ g.keccak c = codeHash
  | none => codeHash = emptyCodeHash ∨ codeHash ∈ known

/-- The codes known after an account. -/
def knownAfter (known : List Hash) (codeHash : Hash) : Option Bytes → List Hash
  | some _ => codeHash :: known
  | none => known

/-- One reference if the account has code. -/
def referenceCounts (codeHash : Hash) : Counts :=
  if codeHash = emptyCodeHash then 0 else .codeReference

/-- One code record if the account is the first to reference its code. -/
def codeCounts : Option Bytes → Counts
  | some c => .code c.length
  | none => 0

namespace Group

/-- The code hash of the account. -/
def codeHash (grp : Group) : Hash := .ofBytes 32 grp.account.codeHash

/-- The consensus encoding of the account. -/
def full (grp : Group) : Bytes := encodeStateAccount grp.account

/-- The leaf of the account trie. -/
def leaf (grp : Group) : Bytes × Bytes := (grp.hash.bytes, grp.full)

/-- What the group adds to the counters. -/
def counts (grp : Group) : Counts :=
  .account grp.full.length + slotCounts grp.slots + referenceCounts grp.codeHash +
    codeCounts grp.code

/-- The checks on one account, after the codes `known`. -/
structure WellFormed (g : Geth) (known : List Hash) (grp : Group) : Prop where
  codeHash_length : grp.account.codeHash.length = 32
  storage         : StorageOk g grp.account.root grp.slots
  code            : CodeOk g known grp.codeHash grp.code

end Group

/-- The checks on a list of accounts, each after the codes of the earlier
ones. -/
def WellFormedFrom (g : Geth) : List Hash → List Group → Prop
  | _, [] => True
  | known, grp :: gs => 
    grp.WellFormed g known ∧ WellFormedFrom g (knownAfter known grp.codeHash grp.code) gs

/-- The codes known after a list of accounts. -/
def knownAfterAll (known : List Hash) (gs : List Group) : List Hash :=
  gs.foldl (fun k grp => knownAfter k grp.codeHash grp.code) known

/-- A state with the given root. -/
structure Canonical (g : Geth) (root : Hash) (gs : List Group) : Prop where
  wellFormed : WellFormedFrom g [] gs
  accepted   : g.stack.Accepted [] (gs.map Group.leaf)
  root_eq    : (g.stack.hash (gs.map Group.leaf)).1 = root

/-- The counters of a state. -/
def totalCounts (gs : List Group) : Counts := (gs.map Group.counts).sum

@[simp] theorem totalCounts_nil : totalCounts [] = 0 := rfl

@[simp] theorem totalCounts_cons (grp : Group) (gs : List Group) :
    totalCounts (grp :: gs) = grp.counts + totalCounts gs := by
  simp [totalCounts]

/-! ## Callbacks of the traversal -/

/-- The callbacks for the slots of one account, after the updates `h`. -/
def slotEffects (ops : StackOps) (owner : Hash) : History → List (Hash × Bytes) → List Effect
  | _, [] => []
  | h, (k, v) :: rest =>
    nodeEffects owner (ops.emittedBy h (k.bytes, v)) ++
      .storage owner k v :: slotEffects ops owner (h ++ [(k.bytes, v)]) rest

/-- The last nodes of a storage trie, emitted by its `Hash` call. -/
def storageRootEffects (g : Geth) (owner root : Hash) (slots : List (Hash × Bytes)) : List Effect :=
  if root = emptyRootHash then [] else nodeEffects owner (g.stack.hash (slotHistory slots)).2

/-- The code callback at the first reference. -/
def codeEffects (owner codeHash : Hash) : Option Bytes → List Effect
  | some c => [.code owner codeHash c]
  | none => []

/-- The callbacks of the traversal for one account, after the account leaves
`ah`. -/
def Group.effects (g : Geth) (ah : History) (grp : Group) : List Effect :=
  .account grp.hash grp.account grp.full ::
    (slotEffects g.stack grp.hash [] grp.slots ++
      storageRootEffects g grp.hash grp.account.root grp.slots ++
      codeEffects grp.hash grp.codeHash grp.code ++
      nodeEffects zeroHash (g.stack.emittedBy ah grp.leaf))

/-- The callbacks for a list of accounts, after the account leaves `ah`. -/
def accountEffects (g : Geth) : History → List Group → List Effect
  | _, [] => []
  | ah, grp :: gs => grp.effects g ah ++ accountEffects g (ah ++ [grp.leaf]) gs

/-- The callbacks of the whole traversal: the accounts, then the last nodes of
the account trie. -/
def traverserEffects (g : Geth) (gs : List Group) : List Effect :=
  accountEffects g [] gs ++ nodeEffects zeroHash (g.stack.hash (gs.map Group.leaf)).2

/-- The visitor calls for one account. -/
def Group.calls (grp : Group) : List Effect :=
  .account grp.hash grp.account grp.full ::
    (grp.slots.map (fun s => .storage grp.hash s.1 s.2) ++
      codeEffects grp.hash grp.codeHash grp.code)

@[simp] theorem visitorCalls_slotEffects (ops : StackOps) (owner : Hash) (h : History)
    (slots : List (Hash × Bytes)) :
    visitorCalls (slotEffects ops owner h slots) = slots.map fun s => .storage owner s.1 s.2 := by
  induction slots generalizing h with
  | nil => rfl
  | cons s slots ih =>
    obtain ⟨k, v⟩ := s
    simp [slotEffects, visitorCalls_cons, Effect.call?, ih]

@[simp] theorem visitorCalls_storageRootEffects (g : Geth) (owner root : Hash)
    (slots : List (Hash × Bytes)) : visitorCalls (storageRootEffects g owner root slots) = [] := by
  unfold storageRootEffects
  split <;> simp

@[simp] theorem visitorCalls_codeEffects (owner codeHash : Hash) (code : Option Bytes) :
    visitorCalls (codeEffects owner codeHash code) = codeEffects owner codeHash code := by
  cases code <;> rfl

theorem visitorCalls_traverserEffects (g : Geth) (gs : List Group) :
    visitorCalls (traverserEffects g gs) = gs.flatMap Group.calls := by
  suffices h : ∀ ah, visitorCalls (accountEffects g ah gs) = gs.flatMap Group.calls by
    simp [traverserEffects, h]
  induction gs with
  | nil => intro ah; rfl
  | cons grp gs ih =>
    intro ah
    simp [accountEffects, Group.effects, Group.calls, visitorCalls_cons, Effect.call?, ih]

/-! ## Exact totals -/

/-- The exact totals of one account. -/
def Group.tally (grp : Group) : Tally where
  accounts   := 1
  slots      := grp.slots.length
  references := if grp.codeHash = emptyCodeHash then 0 else 1
  codes      := if grp.code.isSome then 1 else 0
  payload    := (grp.calls.map Effect.payload).sum

/-- The exact totals of a state. -/
def groupsTally : List Group → Tally
  | [] => 0
  | grp :: gs => grp.tally + groupsTally gs

theorem slotCounts_eq (slots : List (Hash × Bytes)) :
    slotCounts slots =
      (⟨0, slots.length, 0, 0, (slots.map fun s => s.2.length).sum⟩ : Tally).counts := by
  induction slots with
  | nil => rfl
  | cons s slots ih =>
    have hStep :
        (⟨0, (s :: slots).length, 0, 0, ((s :: slots).map fun s => s.2.length).sum⟩ : Tally) =
          ⟨0, 1, 0, 0, s.2.length⟩ +
            ⟨0, slots.length, 0, 0, (slots.map fun s => s.2.length).sum⟩ := by
      simp [Tally.mk_add_mk, Nat.add_comm]
    rw [hStep, Tally.counts_add, ← ih]
    rfl

theorem Group.counts_tally (grp : Group) : grp.tally.counts = grp.counts := by
  have hStep : grp.tally = ⟨1, 0, 0, 0, grp.full.length⟩ +
      ⟨0, grp.slots.length, 0, 0, (grp.slots.map fun s => s.2.length).sum⟩ +
      ⟨0, 0, if grp.codeHash = emptyCodeHash then 0 else 1, 0, 0⟩ +
      ⟨0, 0, 0, if grp.code.isSome then 1 else 0, (grp.code.getD []).length⟩ := by
    cases hCode : grp.code <;>
      simp [Group.tally, Group.calls, codeEffects, hCode, Effect.payload, Function.comp_def,
        Tally.mk_add_mk, Nat.add_assoc]
  rw [hStep, Tally.counts_add, Tally.counts_add, Tally.counts_add, Group.counts, slotCounts_eq]
  congr 1
  · congr 1
    unfold referenceCounts
    split <;> rfl
  · cases grp.code <;> rfl

theorem counts_groupsTally (gs : List Group) : (groupsTally gs).counts = totalCounts gs := by
  induction gs with
  | nil => rfl
  | cons grp gs ih => rw [groupsTally, Tally.counts_add, ih, Group.counts_tally, totalCounts_cons]

/-! ## What the traversal reads -/

/-- The leaf stream of a trie, if it can be opened. -/
def Source.stream? (src : Source) (owner root : Hash) : Option LeafStream :=
  match src.openTrie owner root with
  | .ok handle =>
    match handle.iterator with
    | .ok stream => some stream
    | .error _ => none
  | .error _ => none

theorem Source.stream?_eq_some_iff {src : Source} {owner root : Hash} {stream : LeafStream} :
    src.stream? owner root = some stream ↔
      ∃ handle, src.openTrie owner root = .ok handle ∧ handle.iterator = .ok stream := by
  unfold stream?
  cases hOpen : src.openTrie owner root with
  | error e => simp
  | ok handle => cases hIt : handle.iterator <;> simp [hIt]

/-- The node hashes passed while iterating a trie. -/
def Source.visits (src : Source) (owner root : Hash) : List Hash :=
  ((src.stream? owner root).map LeafStream.nodes).getD []

/-- The slots are what the databases hold under the storage root. -/
def Source.HasStorage (src : Source) (owner root : Hash) (slots : List (Hash × Bytes)) : Prop :=
  root ≠ emptyRootHash → ∃ stream, src.stream? owner root = some stream ∧
    stream.leaves = slotHistory slots ∧ stream.err = none

/-- The group is what the databases hold about the account. -/
structure Group.ReadFrom (src : Source) (grp : Group) : Prop where
  storage : src.HasStorage grp.hash grp.account.root grp.slots
  code    : ∀ c ∈ grp.code, src.readCode grp.codeHash = .ok c ∧ c ≠ []

/-- The node hashes passed while iterating the storage of an account. -/
def Source.storageVisits (src : Source) (owner root : Hash) : List Hash :=
  if root = emptyRootHash then [] else src.visits owner root

/-- The groups of the sample state. -/
def sampleGroups : List Group := [
  ⟨sampleHashA, sampleAccountA, [(sampleSlot, [0x2a])], some sampleCode⟩,
  ⟨sampleHashB, sampleAccountB, [], none⟩]

end L2State
