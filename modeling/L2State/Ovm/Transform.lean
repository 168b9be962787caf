import L2State.Ovm.Storage
import L2State.Ovm.Audit

/-!
# L2State — the conversion of the token

`transformOVMState` of `ovm_transform.go`: the storage of the token is
classified, the balances are inspected and applied, the sums are reconciled
with the total supply, and the storage trie of the token and the account trie
are rebuilt with the patches.

* `transformOVMState` — the function.
* `tokenAccountAfter`, `supplyPatch` — the account and the supply slot of the
  token after the conversion.
* `Conversion`, `returns_transform` — **what a conversion that succeeds has
  gone through**, step by step.
-/

namespace L2State

open Lib

/-- What `transformOVMState` is given besides the evidence index. -/
structure TransformInputs extends BalanceInputs where
  /-- The height of the source head. -/
  height : UInt64
  /-- The runtime code of the token after the conversion. -/
  code   : Bytes
  audit  : Option AuditSummary

/-- What `transformOVMState` returns: the new root and the evidence. The index
and the writes to the target are its effects. -/
structure Transformed where
  root     : Hash
  evidence : OvmBalanceEvidence
  index    : OvmIndex
  ops      : List DbOp

section Code

variable (y : TransformInputs)

/-- The account of the token; it must have code. -/
def readToken : Except Err StateAccount := do
  let account ← readOVMAccount y.tries y.root (ovmOwner y.geth)
  require (FixedBytes.ofBytes 32 account.codeHash ≠ emptyCodeHash)
    (.msg "OVM_ETH contract is missing or has no code" [])
  return account

/-- The two checks on the running sums. -/
def checkConservation (t : BalanceState) : Except Err Unit := do
  require (¬ t.total.toNat < t.evidence.migratedNative.toNat)
    (.msg "OVM supply subtraction underflow" [])
  require (t.total - t.evidence.migratedNative = t.evidence.remainingSupply)
    (.msg "OVM balance conservation mismatch" [])

/-- The checks after the balances have been applied. -/
def reconcile (token : StateAccount) (supply : U256) (t : BalanceState) : Except Err Unit := do
  reconcileSupply y.audit y.height (.ofBytes 32 token.codeHash) t.balanceSlots t.total supply
  checkConservation t

/-- The index with the patch of the supply slot, flushed. -/
def supplyPatched (t : BalanceState) : OvmIndex :=
  (t.index.flush.put 's' (numberedKey y.geth 2).bytes
    (encodeAmount t.evidence.remainingSupply)).flush

/-- `rebuildStorage`. -/
def rebuildStorage (token : StateAccount) (index : OvmIndex) :
    BalanceProc y.toBalanceInputs (Hash × List DbOp) :=
  computed (ovmIterator y.toBalanceInputs (ovmOwner y.geth) token.root) >>= fun original =>
    rebuildPatchedTriePrefix y.geth (checkParent _) (balanceCall _ .evidenceErr) (ovmOwner y.geth)
      original (Store.under index.db [tag 's'])

/-- The account of the token after the conversion. -/
def tokenAccountAfter (token : StateAccount) (storageRoot : Hash) (remaining : U256) :
    StateAccount :=
  { token with root := storageRoot, balance := remaining, codeHash := (y.geth.keccak y.code).bytes }

/-- `rebuildAccounts`. -/
def rebuildAccounts (index : OvmIndex) : BalanceProc y.toBalanceInputs (Hash × List DbOp) :=
  computed (ovmIterator y.toBalanceInputs zeroHash y.root) >>= fun original =>
    rebuildPatchedTriePrefix y.geth (checkParent _) (balanceCall _ .evidenceErr) zeroHash original
      (Store.under index.db [tag 'p'])

/-- The end of `transformOVMState`: the two rebuilds. -/
def rebuildState (token : StateAccount) (t : BalanceState) :
    BalanceProc y.toBalanceInputs Transformed :=
  rebuildStorage y token (supplyPatched y t) >>= fun storage =>
    checkParent y.toBalanceInputs >>= fun _ =>
      let index := (patchAccount (supplyPatched y t) (ovmOwner y.geth)
        (tokenAccountAfter y token storage.1 t.evidence.remainingSupply)).flush
      rebuildAccounts y index >>= fun accounts =>
        pure { root := accounts.1
               evidence := t.evidence
               index := index
               ops := storage.2 ++ (Output.persistent .hash).ops
                 (.code (ovmOwner y.geth) (y.geth.keccak y.code) y.code) ++ accounts.2 }

/-- `transformOVMState`. -/
def transformOVMState (index : OvmIndex) : BalanceProc y.toBalanceInputs Transformed :=
  computed (readToken y) >>= fun token =>
    (if y.retention then validateOVMERC20RetainList y.toBalanceInputs index
      else pure ()) >>= fun _ =>
      computed (storageValue y.toBalanceInputs token.root (hashOfNat 2)) >>= fun supply =>
        recognizeMetadata y.toBalanceInputs token.root index >>= fun index =>
          classifyStorage y.toBalanceInputs token.root (.init index supply) >>= fun t =>
            computed (reconcile y token supply t) >>= fun _ => rebuildState y token t

end Code

/-! ## What a run has gone through -/

/-- The evidence with the records of the balance slots. -/
def queued (x : BalanceInputs) (db : Store) (storage : History) : Store :=
  applyOps db ((storage.filterMap (recordOf x db)).map recordOp)

/-- The values that a conversion computes on its way. -/
structure Stages where
  /-- The account of the token, and its supply slot. -/
  token    : StateAccount
  supply   : U256
  /-- The evidence with the known slots. -/
  evidence : Store
  /-- The balance jobs, and the transformer after them. -/
  jobs     : List BalanceJob
  applied  : BalanceState
  /-- The storage root of the token after the conversion. -/
  storage  : Hash

/-- The slots of the token after the conversion. -/
def slotsAfter (y : TransformInputs) (storage : History) (c : Stages) : History :=
  patched storage (Store.under (supplyPatched y c.applied).db [tag 's'])

/-- The accounts after the conversion. -/
def leavesAfter (accounts : History) (out : Transformed) : History :=
  patched accounts (Store.under out.index.db [tag 'p'])

/-- A conversion that succeeded, from a state with the given accounts and
slots of the token. -/
structure Conversion (y : TransformInputs) (index : OvmIndex) (accounts storage : History)
    (c : Stages) (out : Transformed) : Prop where
  tokenRead  : readToken y = .ok c.token
  supplyRead : storageValue y.toBalanceInputs c.token.root (hashOfNat 2) = .ok c.supply
  recognized : ∃ i, Recognized y.geth index i ∧ c.evidence = i.content
  claimed    : ∀ e ∈ storage, Claimed c.evidence e
  inspected  : (Store.under (queued y.toBalanceInputs c.evidence storage) [tag 'q']).mapM
    (inspectedRecord y.toBalanceInputs (queued y.toBalanceInputs c.evidence storage)) = .ok c.jobs
  applied    : c.jobs.foldlM applyBalance
    (.init ⟨queued y.toBalanceInputs c.evidence storage, []⟩ c.supply) = .ok c.applied
  reconciled : reconcile y c.token c.supply c.applied = .ok ()
  slots      : IsTrie y.geth (slotsAfter y storage c) c.storage
  leaves     : IsTrie y.geth (leavesAfter accounts out) out.root
  index      : out.index = (patchAccount (supplyPatched y c.applied) (ovmOwner y.geth)
    (tokenAccountAfter y c.token c.storage c.applied.evidence.remainingSupply)).flush
  evidence   : out.evidence = c.applied.evidence
  ops        : out.ops =
    nodeOps (ovmOwner y.geth) (y.geth.stack.nodesOf (slotsAfter y storage c)) ++
    [.put (codeKey (y.geth.keccak y.code)) y.code] ++
    nodeOps zeroHash (y.geth.stack.nodesOf (leavesAfter accounts out))

variable {root : Hash}

section Runs

variable {x : BalanceInputs} {tr : List (Event (BalanceCalls x))}

/-- An iterator that ends without an error has passed the leaves of the trie. -/
theorem leaves_of_ovmIterator {owner : Hash} {leaves : History} {stream : LeafStream}
    (hHolds : x.tries.Holds owner root leaves) (h : ovmIterator x owner root = .ok stream) :
    Increasing leaves ∧ (stream.err = none → stream.leaves = leaves) := by
  obtain ⟨t, hOpen, hIter⟩ := bind_eq_ok.mp h
  exact ⟨(hHolds t hOpen).order, (hHolds t hOpen).iterate stream hIter⟩

/-- The deferred part of `classifyStorage` reports no error. -/
theorem returns_classifyStorage {t out : BalanceState}
    (h : Returns (classifyStorage x root t) tr out) :
    ∃ t₁ t₂, tr = t₁ ++ t₂ ∧ Returns (classifyAndInspect x root t) t₁ out := by
  obtain ⟨res, t₁, u₁, hBody, hk₁, rfl⟩ := Proc.behaves_bind.mp h
  obtain ⟨⟨⟩, t₂, u₂, -, hk₂, rfl⟩ := Proc.behaves_bind.mp hk₁
  obtain ⟨f, t₃, u₃, -, ⟨rfl, hJoin⟩, rfl⟩ := Proc.behaves_bind.mp hk₂
  refine ⟨t₁, _, rfl, ?_⟩
  cases res with
  | ok a =>
    cases f with
    | none =>
      obtain rfl := Except.ok.inj hJoin
      exact hBody
    | some e => cases hJoin
  | error e => cases f <;> cases hJoin

/-- `classifyStorage` classifies the slots, and then applies the queued records
to the transformer. -/
theorem inspected_of_classifyStorage {index : OvmIndex} {supply : U256} {out : BalanceState}
    {s s' : BalanceShared x} (h : Returns (classifyStorage x root (.init index supply)) tr out)
    (hRun : (balanceObject x).run tr s = some s') :
    ∃ slots index' jobs t, ovmIterator x (ovmOwner x.geth) root = .ok slots ∧
      Returns (classifyLeaves x slots index) t index' ∧
      (Store.under index'.content [tag 'q']).mapM (inspectedRecord x index'.content) = .ok jobs ∧
      jobs.foldlM applyBalance (.init ⟨index'.content, []⟩ supply) = .ok out := by
  obtain ⟨tBody, tEnd, rfl, hBody⟩ := returns_classifyStorage h
  obtain ⟨m, hRunBody, -⟩ := Object.run_append_eq_some.mp hRun
  obtain ⟨slots, t₁, u₁, hIter, hk₁, rfl⟩ := returns_bind.mp hBody
  obtain ⟨rfl, hSlots⟩ := returns_computed.mp hIter
  obtain ⟨index', t₂, u₂, hLeaves, hk₂, rfl⟩ := returns_bind.mp hk₁
  obtain ⟨⟨⟩, t₃, u₃, hStart, hk₃, rfl⟩ := returns_bind.mp hk₂
  obtain ⟨⟨⟩, t₄, u₄, hInspect, hFinish, rfl⟩ := returns_bind.mp hk₃
  obtain rfl := returns_invoke.mp hStart
  obtain rfl := returns_invoke.mp hFinish
  -- the pipeline runs on the transformer that `start` has put in place
  rw [List.nil_append] at hRunBody
  obtain ⟨m₂, -, hRun₂⟩ := Object.run_append_eq_some.mp hRunBody
  obtain ⟨m₃, hStep, hRun₃⟩ := Object.run_cons_eq_some.mp hRun₂
  obtain ⟨m₄, hRun₄, hLast⟩ := Object.run_append_eq_some.mp
    (show (balanceObject x).run (t₄ ++ [⟨.finish, out⟩]) m₃ = some m from hRun₃)
  have hBegin : m₃.t = .init index' supply := by
    obtain rfl := Option.some.inj hStep
    rfl
  have hEnd : m₄.t = out := by
    obtain ⟨m₅, hFinished, -⟩ := Object.run_cons_eq_some.mp hLast
    replace hFinished : BalanceShared.perform x .finish out m₄ = some m₅ := hFinished
    simp only [BalanceShared.perform] at hFinished
    split at hFinished
    · next hEq => exact hEq.symm
    · cases hFinished
  obtain ⟨jobs, hJobs, -, hFold⟩ := balance_serial hInspect hRun₄
  rw [hBegin] at hJobs hFold
  rw [hEnd] at hFold
  exact ⟨slots, index', jobs, t₂, hSlots, hLeaves, hJobs, hFold⟩

/-- What `classifyStorage` leaves. -/
structure Classification (x : BalanceInputs) (index : OvmIndex) (supply : U256) (slots : LeafStream)
    (jobs : List BalanceJob) (out : BalanceState) : Prop where
  done      : slots.err = none
  claimed   : ∀ e ∈ slots.leaves, Claimed index.db e
  inspected : (Store.under (queued x index.db slots.leaves) [tag 'q']).mapM
    (inspectedRecord x (queued x index.db slots.leaves)) = .ok jobs
  applied   : jobs.foldlM applyBalance (.init ⟨queued x index.db slots.leaves, []⟩ supply) = .ok out

/-- What the classification of a run has read and applied. -/
theorem classification_of_run {index : OvmIndex} {supply : U256} {out : BalanceState}
    {s s' : BalanceShared x} (hFlushed : index.batch = [])
    (hOrder : ∀ slots, ovmIterator x (ovmOwner x.geth) root = .ok slots → slots.err = none →
      Increasing slots.leaves) (h : Returns (classifyStorage x root (.init index supply)) tr out)
    (hRun : (balanceObject x).run tr s = some s') :
    ∃ slots jobs, ovmIterator x (ovmOwner x.geth) root = .ok slots ∧
      Classification x index supply slots jobs out := by
  obtain ⟨slots, index', jobs, t, hSlots, hLeaves, hJobs, hFold⟩ :=
    inspected_of_classifyStorage h hRun
  obtain ⟨hDone, hClaimed, hIndex⟩ := returns_classifyLeaves (hOrder slots hSlots) hFlushed hLeaves
  have hContent : index'.content = queued x index.db slots.leaves := by
    rw [hIndex, OvmIndex.content_pushAll, OvmIndex.content, hFlushed]
    rfl
  rw [hContent] at hJobs hFold
  exact ⟨slots, jobs, hSlots, hDone, hClaimed, hJobs, hFold⟩

end Runs

section Whole

variable {y : TransformInputs} {tr : List (Event (BalanceCalls y.toBalanceInputs))}

/-- `rebuildStorage` and `rebuildAccounts`: a trie is rebuilt from its leaves and the
patches. -/
theorem returns_rebuilt {owner : Hash} {patches leaves : History} {out : Hash × List DbOp}
    (hHolds : y.tries.Holds owner root leaves)
    (h : Returns (computed (ovmIterator y.toBalanceInputs owner root) >>= fun original =>
      rebuildPatchedTriePrefix y.geth (checkParent _) (balanceCall _ .evidenceErr) owner original
        patches) tr out) :
    IsTrie y.geth (patched leaves patches) out.1 ∧
      out.2 = nodeOps owner (y.geth.stack.nodesOf (patched leaves patches)) := by
  obtain ⟨original, t, t', hIter, hRebuild, rfl⟩ := returns_bind.mp h
  obtain ⟨hDone, hTrie, hOps⟩ := returns_rebuildPatchedTriePrefix hRebuild
  obtain ⟨-, hLeaves⟩ := leaves_of_ovmIterator hHolds (returns_computed.mp hIter).2
  rw [hLeaves hDone] at hTrie hOps
  exact ⟨hTrie, hOps⟩

/-- **A conversion that succeeds has gone through its stages.** -/
theorem conversion_of_run {index : OvmIndex} {accounts storage : History} {out : Transformed}
    {s s' : BalanceShared y.toBalanceInputs} (hAccounts : y.tries.Holds zeroHash y.root accounts)
    (hStorage : ∀ token, readToken y = .ok token →
      y.tries.Holds (ovmOwner y.geth) token.root storage)
    (h : Returns (transformOVMState y index) tr out)
    (hRun : (balanceObject y.toBalanceInputs).run tr s = some s') :
    ∃ c, Conversion y index accounts storage c out := by
  obtain ⟨token, t₁, u₁, hToken, hk₁, rfl⟩ := returns_bind.mp h
  obtain ⟨⟨⟩, t₂, u₂, -, hk₂, rfl⟩ := returns_bind.mp hk₁
  obtain ⟨supply, t₃, u₃, hSupply, hk₃, rfl⟩ := returns_bind.mp hk₂
  obtain ⟨known, t₄, u₄, hKnown, hk₄, rfl⟩ := returns_bind.mp hk₃
  obtain ⟨t, t₅, u₅, hClassify, hk₅, rfl⟩ := returns_bind.mp hk₄
  obtain ⟨⟨⟩, t₆, u₆, hReconcile, hRebuild, rfl⟩ := returns_bind.mp hk₅
  have hHolds := hStorage token (returns_computed.mp hToken).2
  obtain ⟨i, hRecognized, rfl⟩ := returns_recognizeMetadata hKnown
  -- the slots are classified on the flushed index
  obtain ⟨m₁, -, hRun₁⟩ := Object.run_append_eq_some.mp hRun
  obtain ⟨m₂, -, hRun₂⟩ := Object.run_append_eq_some.mp hRun₁
  obtain ⟨m₃, -, hRun₃⟩ := Object.run_append_eq_some.mp hRun₂
  obtain ⟨m₄, -, hRun₄⟩ := Object.run_append_eq_some.mp hRun₃
  obtain ⟨m₅, hRun₅, -⟩ := Object.run_append_eq_some.mp hRun₄
  obtain ⟨slots, jobs, hSlots, hClassified⟩ := classification_of_run
    (OvmIndex.flush_batch i)
    (fun slots hSlots hDone => by
      obtain ⟨hIncreasing, hLeaves⟩ := leaves_of_ovmIterator hHolds hSlots
      rw [hLeaves hDone]
      exact hIncreasing)
    hClassify hRun₅
  have hLeaves := (leaves_of_ovmIterator hHolds hSlots).2 hClassified.done
  obtain ⟨-, hClaimed, hInspected, hApplied⟩ := hClassified
  rw [hLeaves] at hClaimed hInspected hApplied
  -- the rebuilds
  obtain ⟨slotsOut, t₇, u₇, hSlotsOut, hk₇, rfl⟩ := returns_bind.mp hRebuild
  obtain ⟨⟨⟩, t₈, u₈, -, hk₈, rfl⟩ := returns_bind.mp hk₇
  obtain ⟨leavesOut, t₉, u₉, hLeavesOut, hRet, rfl⟩ := returns_bind.mp hk₈
  obtain ⟨-, rfl⟩ := returns_pure.mp hRet
  obtain ⟨hSlotsTrie, hSlotsOps⟩ := returns_rebuilt hHolds hSlotsOut
  obtain ⟨hLeavesTrie, hLeavesOps⟩ := returns_rebuilt hAccounts hLeavesOut
  refine ⟨⟨token, supply, i.content, jobs, t, slotsOut.1⟩, ?_⟩
  refine ⟨(returns_computed.mp hToken).2, (returns_computed.mp hSupply).2, ⟨i, hRecognized, rfl⟩,
    hClaimed, hInspected, hApplied, (returns_computed.mp hReconcile).2, hSlotsTrie, hLeavesTrie,
    rfl, rfl, ?_⟩
  rw [hSlotsOps, hLeavesOps]
  rfl

end Whole

end L2State
