import L2State.State.TraverserSpec

/-!
# L2State — the record consumer

`recordConsumer` of `migration/bundle.go`: it receives the records of a
bundle one by one, checks their order and their contents, rebuilds the
storage tries and the account trie, and passes everything on to a visitor.

The account that is being read is one optional record, `Current`; the source
keeps the same data in the fields that `haveAccount` and `haveSlot` guard.

* `Consumer.consume`, `Consumer.finish` — the state machine.
* `Record.framed` — a record with its unused hash field cleared, which is how
  the scanner delivers it.
-/

namespace L2State

open Lib

/-! ## Records -/

/-- The record types. -/
def recordAccount : Byte := 1
def recordStorage : Byte := 2
def recordCode : Byte := 3

/-- `bundle.Record`. -/
structure Record where
  typ         : Byte
  accountHash : Hash
  subHash     : Hash
  payload     : Bytes
deriving DecidableEq

namespace Record

/-- An account record. -/
def account (hash : Hash) (payload : Bytes) : Record := ⟨recordAccount, hash, zeroHash, payload⟩

/-- A storage record. -/
def storage (accountHash slotHash : Hash) (payload : Bytes) : Record :=
  ⟨recordStorage, accountHash, slotHash, payload⟩

/-- A code record. -/
def code (codeHash : Hash) (payload : Bytes) : Record := ⟨recordCode, zeroHash, codeHash, payload⟩

/-- The record with the hash field that its type does not use cleared. -/
def framed (r : Record) : Record :=
  if r.typ = recordAccount then { r with subHash := zeroHash }
  else if r.typ = recordCode then { r with accountHash := zeroHash }
  else r

theorem framed_of_account {r : Record} (h : r.typ = recordAccount) :
    r.framed = .account r.accountHash r.payload := by
  obtain ⟨typ, accountHash, subHash, payload⟩ := r
  subst h
  rfl

theorem framed_of_storage {r : Record} (h : r.typ = recordStorage) :
    r.framed = .storage r.accountHash r.subHash r.payload := by
  obtain ⟨typ, accountHash, subHash, payload⟩ := r
  subst h
  rfl

theorem framed_of_code {r : Record} (h : r.typ = recordCode) :
    r.framed = .code r.subHash r.payload := by
  obtain ⟨typ, accountHash, subHash, payload⟩ := r
  subst h
  rfl

end Record

/-! ## The state machine -/

/-- The account whose records are being read. -/
structure Current where
  hash     : Hash
  account  : StateAccount
  rlp      : Bytes
  storage  : Option History
  lastSlot : Option Hash
  codeSeen : Bool

/-- The fields of a `recordConsumer` that a scan does not change. -/
structure Consumer (σ : Type) where
  geth         : Geth
  expectedRoot : Hash
  visitor      : Visitor σ
  trieNodes    : NodeSink σ

/-- The fields of a `recordConsumer` that a scan changes. -/
structure ConsumerState (σ : Type) where
  accountStack : History
  counts       : Counts
  knownCodes   : List Hash
  current      : Option Current
  lastAccount  : Hash
  finished     : Bool
  out          : σ

/-- The state of `newRecordConsumer`. -/
def ConsumerState.init {σ : Type} (out : σ) : ConsumerState σ :=
  ⟨[], 0, [], none, zeroHash, false, out⟩

namespace Consumer

variable {σ : Type} (c : Consumer σ)

/-- The storage root of the current account, with the last nodes written. -/
def finalizeStorage (cur : Current) (out : σ) : Except Err (Hash × σ) :=
  match cur.storage with
  | none => .ok (emptyRootHash, out)
  | some stack => do
    let (computed, nodes) := c.geth.stack.hash stack
    let out ← wrapping "write final storage trie nodes for account %s: %w" [.hash cur.hash]
      (writeNodes c.trieNodes cur.hash nodes out)
    return (computed, out)

/-- The code checks of `finalizeAccount`: the counters with the reference. -/
def finalizeCode (s : ConsumerState σ) (cur : Current) : Except Err Counts := do
  let expected : Hash := .ofBytes 32 cur.account.codeHash
  require (¬ (expected = emptyCodeHash ∧ cur.codeSeen = true))
    (.msg "account %s has an unexpected code record" [.hash cur.hash])
  if expected ≠ emptyCodeHash then do
    require (cur.codeSeen = true ∨ expected ∈ s.knownCodes)
      (.msg "account %s code %s has not been provided" [.hash cur.hash, .hash expected])
    return s.counts + .codeReference
  else
    return s.counts

/-- `finalizeAccount`. -/
def finalizeAccount (s : ConsumerState σ) : Except Err (ConsumerState σ) :=
  match s.current with
  | none => .ok s
  | some cur => do
    let (computed, out) ← c.finalizeStorage cur s.out
    require (computed = cur.account.root)
      (.msg "account %s storage root mismatch: computed %s account %s"
        [.hash cur.hash, .hash computed, .hash cur.account.root])
    let counts ← finalizeCode s cur
    let nodes ← wrapping "rebuild account trie: %w" []
      (c.geth.stack.update s.accountStack cur.hash.bytes cur.rlp)
    let out ← wrapping "write account trie nodes: %w" []
      (writeNodes c.trieNodes zeroHash nodes out)
    return { s with accountStack := s.accountStack ++ [(cur.hash.bytes, cur.rlp)]
                    counts := counts, current := none, out := out }

/-- `visitAccount`. -/
def visitAccount (hash : Hash) (account : StateAccount) (fullRLP slimRLP : Bytes) (out : σ) :
    Except Err σ :=
  match c.visitor.accountFromBundle with
  | some f => f hash account fullRLP slimRLP out
  | none => c.visitor.account hash account fullRLP out

/-- `consumeAccount`. -/
def consumeAccount (s : ConsumerState σ) (r : Record) : Except Err (ConsumerState σ) := do
  let s ← c.finalizeAccount s
  require (¬ (s.counts.accounts > 0 ∧ r.accountHash ≤ s.lastAccount))
    (.msg "account records are not strictly increasing: %s after %s"
      [.hash r.accountHash, .hash s.lastAccount])
  let (account, fullRLP) ← wrapping "account %s: %w" [.hash r.accountHash] (decodeAccount r.payload)
  let out ← c.visitAccount r.accountHash account fullRLP r.payload s.out
  return { s with current := some ⟨r.accountHash, account, fullRLP, none, none, false⟩
                  lastAccount := r.accountHash
                  counts := s.counts + .account fullRLP.length, out := out }

/-- `validateStorageRecord`, for the current account. -/
def validateStorageRecord (cur : Current) (r : Record) : Except Err Unit := do
  require (cur.codeSeen = false)
    (.msg "account %s storage record appears after its code record" [.hash cur.hash])
  require (r.accountHash = cur.hash)
    (.msg "storage record belongs to %s while current account is %s"
      [.hash r.accountHash, .hash cur.hash])
  require (cur.account.root ≠ emptyRootHash)
    (.msg "account %s has storage records but an empty storage root" [.hash cur.hash])
  require (∀ last ∈ cur.lastSlot, ¬ r.subHash ≤ last)
    (.msg "account %s storage records are not strictly increasing: %s after %s"
      [.hash cur.hash, .hash r.subHash, .hash (cur.lastSlot.getD zeroHash)])
  wrapping "account %s slot %s: %w" [.hash cur.hash, .hash r.subHash] (validateStorageRLP r.payload)

/-- `consumeStorage`. -/
def consumeStorage (s : ConsumerState σ) (r : Record) : Except Err (ConsumerState σ) :=
  match s.current with
  | none => .error (.msg "storage record appears before an account record" [])
  | some cur => do
    validateStorageRecord cur r
    let stack := cur.storage.getD []
    let nodes ← wrapping "rebuild storage trie for account %s: %w" [.hash cur.hash]
      (c.geth.stack.update stack r.subHash.bytes r.payload)
    let out ← wrapping "write storage trie nodes for account %s: %w" [.hash cur.hash]
      (writeNodes c.trieNodes cur.hash nodes s.out)
    let out ← c.visitor.storage cur.hash r.subHash r.payload out
    return { s with current := some { cur with storage := some (stack ++ [(r.subHash.bytes, r.payload)])
                                               lastSlot := some r.subHash }
                    counts := s.counts + .slot r.payload.length, out := out }

/-- `validateCodeRecord`, for the current account. -/
def validateCodeRecord (s : ConsumerState σ) (cur : Current) (r : Record) : Except Err Hash := do
  require (cur.codeSeen = false) (.msg "account %s has more than one code record" [.hash cur.hash])
  let expected : Hash := .ofBytes 32 cur.account.codeHash
  require (expected ≠ emptyCodeHash)
    (.msg "account %s has a code record but its code hash is empty" [.hash cur.hash])
  require (r.subHash = expected)
    (.msg "account %s code hash mismatch: record %s account %s"
      [.hash cur.hash, .hash r.subHash, .hash expected])
  require (c.geth.keccak r.payload = expected)
    (.msg "account %s code content hash mismatch: computed %s account %s"
      [.hash cur.hash, .hash (c.geth.keccak r.payload), .hash expected])
  require (expected ∉ s.knownCodes)
    (.msg "account %s repeats code record %s already provided by an earlier account"
      [.hash cur.hash, .hash expected])
  return expected

/-- `consumeCode`. -/
def consumeCode (s : ConsumerState σ) (r : Record) : Except Err (ConsumerState σ) :=
  match s.current with
  | none => .error (.msg "code record appears before an account record" [])
  | some cur => do
    let expected ← c.validateCodeRecord s cur r
    let out ← c.visitor.code cur.hash expected r.payload s.out
    return { s with knownCodes := (hashSetAdd s.knownCodes expected).2
                    current := some { cur with codeSeen := true }
                    counts := s.counts + .code r.payload.length, out := out }

/-- `consume`. -/
def consume (s : ConsumerState σ) (r : Record) : Except Err (ConsumerState σ) := do
  require (s.finished = false) (.msg "record received after semantic scanner finished" [])
  if r.typ = recordAccount then c.consumeAccount s r
  else if r.typ = recordStorage then c.consumeStorage s r
  else if r.typ = recordCode then c.consumeCode s r
  else .error (.msg "unknown semantic record type %d" [.num r.typ.val])

/-- `finish`. -/
def finish (s : ConsumerState σ) : Except Err (StateResult × ConsumerState σ) := do
  require (s.finished = false) (.msg "semantic scanner is already finished" [])
  let s ← c.finalizeAccount { s with finished := true }
  let (root, nodes) := c.geth.stack.hash s.accountStack
  let out ← wrapping "write final account trie nodes: %w" []
    (writeNodes c.trieNodes zeroHash nodes s.out)
  require (root = c.expectedRoot)
    (.msg "bundle state root mismatch: computed %s manifest %s"
      [.hash root, .hash c.expectedRoot])
  return (⟨root, s.counts⟩, { s with out := out })

/-- A scan: every record is consumed, then the consumer finishes. -/
def run (rs : List Record) (out : σ) : Except Err (StateResult × ConsumerState σ) := do
  let s ← rs.foldlM c.consume (.init out)
  c.finish s

end Consumer

end L2State
