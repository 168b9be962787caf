import L2State.Lib.Pipeline
import L2State.Ovm.Reader
import L2State.Ovm.Balances
import L2State.Bundle.Writer
import L2State.Geth.Reference

/-!
# L2State — the balance pipeline

`ovm_balance_pipeline.go` and `inspectOrderedBalances`: the balance records in
the namespace `q` are read in the order of their account hashes, a goroutine
per record looks up the holder's account and its eligibility, and the main
thread applies the balances batch by batch.

The goroutines share the transformer, the cell of the first failure, the
context of the batch, the tokens of the work limiter and a pool of account
readers. These are the fields of one object, and each use of them is a call.

* `BalanceOp`, `balanceObject` — the calls and the object.
* `inspect`, `balancePipeline`, `inspectOrderedBalances` — the code.
* `inspectFresh`, `applyRecord` — one record looked up and applied on its own.
* `balance_pipeline_refines` — under every schedule the pipeline does what
  applying the records one at a time does.
-/

namespace L2State

open Lib

/-- `normalizeMigrateWorkers`. -/
def normalizeMigrateWorkers (workers : Int) : Nat := (max workers 2).toNat

/-- What `inspect` finds out about the holder of a job. -/
structure Inspection where
  account  : Option StateAccount
  contract : Bool
  retain   : Bool
deriving DecidableEq

/-- A job after `inspect`. -/
def BalanceJob.inspected (b : BalanceJob) (i : Inspection) : BalanceJob :=
  { b with account := i.account, contract := i.contract, retain := i.retain }

/-- What the balance pipeline is given: the original state, whether a retain
list was supplied, and the number of workers. -/
structure BalanceInputs where
  geth      : Geth
  tries     : Tries
  root      : Hash
  retention : Bool
  workers   : Int

/-! ## The shared object -/

section Calls

variable (x : BalanceInputs)

/-- The calls of the pipeline. -/
inductive BalanceOp
  /-- `ctx.Err()` of the batch. -/
  | ctxErr
  /-- `ctx.Err()` of the transformer, from which the batch's context is
  derived. -/
  | parentErr
  /-- The context's `cancel`. -/
  | cancel
  /-- `limiter.acquire(ctx)`: a token, or the error of a context that is done. -/
  | acquireToken
  | releaseToken
  /-- `failure.record(err)` by the goroutine of a job. -/
  | record (b : BalanceJob) (e : Err)
  /-- `failure.load()`. -/
  | loadFailure
  /-- `borrowReader` and `returnReader`. -/
  | borrowReader
  | returnReader (r : AccountReader x.tries x.root)
  /-- `index.get`. -/
  | get (ns : Char) (key : Bytes)
  /-- The queue of the batch: `append` and `clear`. -/
  | enqueue (b : BalanceJob)
  | clearQueue
  /-- `applyBalance` of a job with its inspection. -/
  | apply (b : BalanceJob) (i : Inspection)
  /-- `index.flush`. -/
  | flush
  /-- `index.db.NewIterator`: the entries of a namespace. -/
  | iterate (ns : Char)
  /-- `Error()` of an iterator over the evidence database. -/
  | evidenceErr
  /-- The transformer before and after the pipeline. -/
  | start (t : BalanceState)
  | finish

/-- The replies of the calls. -/
@[reducible] def BalanceOp.Reply : BalanceOp x → Type
  | .ctxErr | .parentErr | .acquireToken | .loadFailure | .evidenceErr | .apply _ _ => Option Err
  | .borrowReader => AccountReader x.tries x.root
  | .get _ _ => Except Err (Option Bytes)
  | .iterate _ => List (Bytes × Bytes)
  | .finish => BalanceState
  | _ => Unit

/-- The interface of the pipeline. -/
abbrev BalanceCalls : Interface := ⟨BalanceOp x, BalanceOp.Reply x⟩

/-- What the goroutines share. -/
structure BalanceShared where
  parent   : Bool
  canceled : Bool
  held     : Nat
  failure  : Option Err
  readers  : List (AccountReader x.tries x.root)
  queue    : List BalanceJob
  t        : BalanceState

/-- One call. A context that is done stays done, and it can be done at any
time; the first recorded failure stays; a read of the evidence database
returns the stored value or an error. -/
def BalanceShared.perform : (op : BalanceOp x) → op.Reply → BalanceShared x →
    Option (BalanceShared x)
  | .ctxErr, none, s => if s.canceled then none else some s
  | .ctxErr, some _, s => some { s with canceled := true }
  | .parentErr, none, s => if s.parent then none else some s
  | .parentErr, some _, s => some { s with parent := true, canceled := true }
  | .cancel, (), s => some { s with canceled := true }
  | .acquireToken, none, s =>
    if s.held < normalizeMigrateWorkers x.workers then some { s with held := s.held + 1 } else none
  | .acquireToken, some _, s => some { s with canceled := true }
  | .releaseToken, (), s => if s.held = 0 then none else some { s with held := s.held - 1 }
  | .record _ e, (), s => some { s with failure := s.failure.or (some e) }
  | .loadFailure, r, s => if r = s.failure then some s else none
  | .borrowReader, r, s => match s.readers with
    | [] => if r = .new x.tries x.root then some s else none
    | r' :: rest => if r = r' then some { s with readers := rest } else none
  | .returnReader r, (), s =>
    -- a full channel drops the reader
    if s.readers.length < normalizeMigrateWorkers x.workers
    then some { s with readers := s.readers ++ [r] } else some s
  | .get ns key, .ok v, s => if v = s.t.index.get ns key then some s else none
  | .get _ _, .error _, s => some s
  | .enqueue b, (), s => some { s with queue := s.queue ++ [b] }
  | .clearQueue, (), s => some { s with queue := [] }
  | .apply b i, none, s => match applyBalance s.t (b.inspected i) with
    | .ok t => some { s with t := t }
    | .error _ => none
  | .apply b i, some e, s => match applyBalance s.t (b.inspected i) with
    | .ok _ => none
    | .error e' => if e = e' then some s else none
  | .flush, (), s => some { s with t := { s.t with index := s.t.index.flush } }
  | .iterate ns, entries, s =>
    if entries = Store.under s.t.index.db [tag ns] then some s else none
  | .evidenceErr, _, s => some s
  | .start t, (), s => some { s with t := t }
  | .finish, t, s => if t = s.t then some s else none

/-- The object that the goroutines share. -/
def balanceObject : Object (BalanceCalls x) := ⟨BalanceShared x, BalanceShared.perform x⟩

/-! ## The code -/

/-- A function of the pipeline. -/
abbrev BalanceProc (α : Type) := Fallible (BalanceCalls x) Err α

/-- One call. -/
def balanceCall (op : BalanceOp x) : Proc (BalanceCalls x) op.Reply :=
  Proc.perform (I := BalanceCalls x) op

/-- `if err := ctx.Err(); err != nil { return err }`. -/
def checkContext : BalanceProc x Unit := attempt id (balanceCall x .ctxErr)

/-- `body` between `lease.acquire(ctx)` and `lease.release()`. -/
def withLease {α : Type} (body : BalanceProc x α) : BalanceProc x α :=
  checkContext x >>= fun _ => attempt id (balanceCall x .acquireToken) >>= fun _ =>
    ExceptT.mk (body.run >>= fun out => balanceCall x .releaseToken >>= fun _ => pure out)

/-- Whether an address is in a namespace of the evidence index. -/
def isMember (ns : Char) (address : Address) : BalanceProc x Bool :=
  ExceptT.mk (balanceCall x (.get ns address.bytes) >>= fun v => pure (v.map Option.isSome))

/-- The retention check of a contract: the manual list first, then the senders
of nonzero transfers. -/
def inspectRetention (address : Address) : BalanceProc x Bool :=
  if x.retention then
    isMember x 'R' address >>= fun listed => if listed then pure true else isMember x 'f' address
  else isMember x 'f' address

/-- The account of a holder, with a reader of the pool. -/
def inspectAccount (hash : Hash) : BalanceProc x StateAccount :=
  invoke (I := BalanceCalls x) .borrowReader >>= fun r =>
    invoke (I := BalanceCalls x) (.returnReader (r.read hash).2) >>= fun _ =>
      computed (r.read hash).1

/-- The account must have no native balance yet. -/
def requireZeroNative (a : StateAccount) : Except Err Unit :=
  require (a.balance = 0) (.msg "OVM conversion encountered nonzero source native balance" [])

/-- `inspect`. -/
def inspect (b : BalanceJob) : BalanceProc x Inspection :=
  withLease x (
    if b.address = ovmETHAddress ∨ b.value = 0 then pure ⟨none, false, false⟩
    else
      inspectAccount x b.hash >>= fun account =>
        computed (requireZeroNative account) >>= fun _ =>
          if account.codeHash = emptyCodeHash.bytes then pure ⟨some account, false, false⟩
          else inspectRetention x b.address >>= fun retain => pure ⟨some account, true, retain⟩)

/-- The goroutine of a job. -/
def inspectJob (b : BalanceJob) : Proc (BalanceCalls x) (Inspection × Option Err) :=
  (inspect x b).run >>= fun out => match out with
    | .ok i => pure (i, none)
    | .error e => balanceCall x (.record b e) >>= fun _ => balanceCall x .cancel >>= fun _ =>
      pure (⟨none, false, false⟩, some e)

/-- The job in a record of the namespace `q`. -/
def parseBalanceRecord (g : Geth) (e : Bytes × Bytes) : Except Err BalanceJob := do
  require (e.1.length = 32 ∧ e.2.length = 84) (.msg "invalid indexed OVM balance job" [])
  let address : Address := .ofBytes 20 (e.2.take 20)
  require (e.1 = (accountKey g address).bytes)
    (.msg "indexed OVM balance job account hash mismatch" [])
  return { address := address
           slot := .ofBytes 32 ((e.2.drop 20).take 32)
           hash := accountKey g address
           value := .ofNat 256 (ofBE (e.2.drop 52))
           account := none
           contract := false
           retain := false }

/-- The first check of `submit`. -/
def submitCheck : BalanceProc x Unit :=
  attempt id (balanceCall x .ctxErr >>= fun err => match err with
    | none => pure none
    | some e => balanceCall x .loadFailure >>= fun f => pure (joinErr (some e) f))

/-- One iteration of `inspectOrderedBalances` up to the queue. -/
def readBalanceRecord (e : Bytes × Bytes) : BalanceProc x BalanceJob :=
  withLease x (checkContext x >>= fun _ => computed (parseBalanceRecord x.geth e)) >>= fun b =>
    submitCheck x >>= fun _ => pure b

/-- The end of the loop, with the iterator's error. -/
def finishRecords : BalanceProc x Unit :=
  withLease x (pure ()) >>= fun _ => attempt id (balanceCall x .evidenceErr)

/-- The pipeline of `inspectOrderedBalances`, `submit` and `drain`. -/
def balancePipeline :
    Pipeline (BalanceCalls x) Err (Bytes × Bytes) Unit BalanceJob Inspection Unit where
  read _ e := readBalanceRecord x e >>= fun b => pure (b, ())
  finish _ := finishRecords x
  alone _ := false
  room queue _ := queue.length ≠ 2 * normalizeMigrateWorkers x.workers
  submit b := balanceCall x (.enqueue b)
  work := inspectJob x
  direct := inspect x
  verdict _ := balanceCall x .loadFailure
  accept _ b i := checkContext x >>= fun _ => attempt id (balanceCall x (.apply b i))
  clear := balanceCall x .clearQueue
  abort := balanceCall x .cancel

/-- `inspectOrderedBalances`. -/
def inspectOrderedBalances : BalanceProc x Unit :=
  invoke (I := BalanceCalls x) .flush >>= fun _ =>
    invoke (I := BalanceCalls x) (.iterate 'q') >>= fun entries =>
      ExceptT.mk ((balancePipeline x).run () entries ()) >>= fun _ => pure ()

/-! ## One record at a time -/

/-- The retention check on the evidence `db`. -/
def eligible (db : Store) (address : Address) : Bool :=
  (x.retention && (db.get? (tag 'R' :: address.bytes)).isSome) ||
    (db.get? (tag 'f' :: address.bytes)).isSome

/-- A fresh lookup of the holder of a job. -/
def inspectFresh (db : Store) (b : BalanceJob) : Except Err Inspection :=
  if b.address = ovmETHAddress ∨ b.value = 0 then .ok ⟨none, false, false⟩
  else do
    let account ← readOVMAccount x.tries x.root b.hash
    requireZeroNative account
    if account.codeHash = emptyCodeHash.bytes then .ok ⟨some account, false, false⟩
    else .ok ⟨some account, true, eligible x db b.address⟩

/-- The job of a record with a fresh lookup. -/
def inspectedRecord (db : Store) (e : Bytes × Bytes) : Except Err BalanceJob := do
  let b ← parseBalanceRecord x.geth e
  let i ← inspectFresh x db b
  return b.inspected i

/-- One record, looked up and applied. -/
def applyRecord (t : BalanceState) (e : Bytes × Bytes) : Except Err BalanceState := do
  let b ← inspectedRecord x t.index.db e
  applyBalance t b

end Calls

/-! ## What the functions return -/

variable {db : Store}

section Returns

variable {x : BalanceInputs} {tr : List (Event (BalanceCalls x))}

theorem returns_withLease {α : Type} {body : BalanceProc x α} {a : α}
    (h : Returns (withLease x body) tr a) :
    ∃ t, Returns body t a ∧ t.Sublist tr := by
  obtain ⟨⟨⟩, t₁, u₁, -, hk₁, rfl⟩ := returns_bind.mp h
  obtain ⟨⟨⟩, t₂, u₂, -, hk₂, rfl⟩ := returns_bind.mp hk₁
  obtain ⟨out, t, u₃, hBody, hk₃, rfl⟩ := Proc.behaves_bind.mp hk₂
  obtain ⟨⟨⟩, t₄, u₄, -, ⟨rfl, rfl⟩, rfl⟩ := Proc.behaves_bind.mp hk₃
  refine ⟨t, hBody, ?_⟩
  exact ((List.sublist_append_left t _).trans (List.sublist_append_right t₂ _)).trans
    (List.sublist_append_right t₁ _)

/-- The replies to reads of the evidence index that `db` gives. -/
def GoodRead (db : Store) (e : Event (BalanceCalls x)) : Prop :=
  ∀ ns key v, ns = 'R' ∨ ns = 'f' → e = ⟨.get ns key, .ok v⟩ → v = db.get? (tag ns :: key)

theorem returns_isMember {ns : Char} {address : Address} {r : Bool} (hns : ns = 'R' ∨ ns = 'f')
    (h : Returns (isMember x ns address) tr r) (hGood : ∀ e ∈ tr, GoodRead db e) :
    r = (db.get? (tag ns :: address.bytes)).isSome := by
  obtain ⟨v, t, t', hGet, ⟨rfl, hEq⟩, rfl⟩ := Proc.behaves_bind.mp h
  obtain rfl := Proc.behaves_perform.mp hGet
  cases v with
  | error e => cases hEq
  | ok v =>
    have hRead := hGood _ List.mem_cons_self ns address.bytes v hns rfl
    rw [← hRead]
    exact (Except.ok.inj hEq).symm

theorem returns_inspectRetention {address : Address} {r : Bool}
    (h : Returns (inspectRetention x address) tr r) (hGood : ∀ e ∈ tr, GoodRead db e) :
    r = eligible x db address := by
  unfold inspectRetention at h
  unfold eligible
  by_cases hList : x.retention = true
  · rw [if_pos hList] at h
    obtain ⟨listed, t, t', hListed, hk, rfl⟩ := returns_bind.mp h
    rw [List.forall_mem_append] at hGood
    have hR := returns_isMember (.inl rfl) hListed hGood.1
    rw [hList, Bool.true_and, ← hR]
    cases listed with
    | true =>
      obtain ⟨-, rfl⟩ := returns_pure.mp hk
      rfl
    | false => simpa using returns_isMember (.inr rfl) hk hGood.2
  · rw [if_neg hList] at h
    simp only [Bool.not_eq_true] at hList
    simpa [hList] using returns_isMember (.inr rfl) h hGood

theorem returns_inspectAccount {hash : Hash} {a : StateAccount}
    (h : Returns (inspectAccount x hash) tr a) : readOVMAccount x.tries x.root hash = .ok a := by
  obtain ⟨r, t, t', -, hk, rfl⟩ := returns_bind.mp h
  obtain ⟨⟨⟩, u, u', -, hRead, rfl⟩ := returns_bind.mp hk
  obtain ⟨-, hRead⟩ := returns_computed.mp hRead
  -- the borrowed reader does not matter
  rw [readOVMAccount_eq, ← r.read_fst hash, hRead]

variable {b : BalanceJob}

/-- **An inspection that succeeds is a fresh lookup.** -/
theorem returns_inspect {i : Inspection} (h : Returns (inspect x b) tr i)
    (hGood : ∀ e ∈ tr, GoodRead db e) :
    inspectFresh x db b = .ok i := by
  obtain ⟨t, hBody, hSub⟩ := returns_withLease h
  replace hGood : ∀ e ∈ t, GoodRead db e := fun e he => hGood e (hSub.subset he)
  unfold inspectFresh
  by_cases hSkip : b.address = ovmETHAddress ∨ b.value = 0
  · rw [if_pos hSkip] at hBody ⊢
    obtain ⟨-, rfl⟩ := returns_pure.mp hBody
    rfl
  · rw [if_neg hSkip] at hBody ⊢
    obtain ⟨a, t₁, u₁, hAccount, hk₁, rfl⟩ := returns_bind.mp hBody
    obtain ⟨⟨⟩, t₂, u₂, hZero, hk₂, rfl⟩ := returns_bind.mp hk₁
    obtain ⟨-, hZero⟩ := returns_computed.mp hZero
    rw [returns_inspectAccount hAccount, ok_bind, hZero, ok_bind]
    by_cases hCode : a.codeHash = emptyCodeHash.bytes
    · rw [if_pos hCode] at hk₂ ⊢
      obtain ⟨-, rfl⟩ := returns_pure.mp hk₂
      rfl
    · rw [if_neg hCode] at hk₂ ⊢
      obtain ⟨retain, t₃, u₃, hRetain, hRet, rfl⟩ := returns_bind.mp hk₂
      obtain ⟨-, rfl⟩ := returns_pure.mp hRet
      have hReads : ∀ e ∈ t₃, GoodRead db e := fun e he => hGood e (by simp [he])
      rw [returns_inspectRetention hRetain hReads]

theorem inspectJob_behaves {i : Inspection} {err : Option Err}
    (h : (inspectJob x b).Behaves tr (i, err)) :
    (err = none ∧ Returns (inspect x b) tr i) ∨
      ∃ e t, err = some e ∧ tr = t ++ [⟨.record b e, ()⟩, ⟨.cancel, ()⟩] ∧
        (inspect x b).run.Behaves t (.error e) := by
  obtain ⟨out, t, t', hInspect, hk, rfl⟩ := Proc.behaves_bind.mp h
  cases out with
  | ok j =>
    obtain ⟨rfl, hEq⟩ := hk
    obtain ⟨rfl, rfl⟩ := Prod.mk.inj hEq
    rw [List.append_nil]
    exact .inl ⟨rfl, hInspect⟩
  | error e =>
    obtain ⟨⟨⟩, u, u', hRecord, hk₁, rfl⟩ := Proc.behaves_bind.mp hk
    obtain ⟨⟨⟩, v, v', hCancel, ⟨rfl, hEq⟩, rfl⟩ := Proc.behaves_bind.mp hk₁
    obtain ⟨rfl, rfl⟩ := Prod.mk.inj hEq
    obtain rfl := Proc.behaves_perform.mp hRecord
    obtain rfl := Proc.behaves_perform.mp hCancel
    exact .inr ⟨e, t, rfl, by simp, hInspect⟩

theorem returns_readBalanceRecord {e : Bytes × Bytes} (h : Returns (readBalanceRecord x e) tr b) :
    parseBalanceRecord x.geth e = .ok b := by
  obtain ⟨b', t, t', hRead, hk, rfl⟩ := returns_bind.mp h
  obtain ⟨⟨⟩, u, u', -, hRet, rfl⟩ := returns_bind.mp hk
  obtain ⟨-, rfl⟩ := returns_pure.mp hRet
  obtain ⟨v, hBody, -⟩ := returns_withLease hRead
  obtain ⟨⟨⟩, w, w', -, hParse, rfl⟩ := returns_bind.mp hBody
  exact (returns_computed.mp hParse).2

theorem returns_accept {i : Inspection} {u : Unit}
    (h : Returns ((balancePipeline x).accept () b i) tr u) :
    tr = [⟨.ctxErr, none⟩, ⟨.apply b i, none⟩] := by
  obtain ⟨⟨⟩, t, t', hCtx, hApply, rfl⟩ := returns_bind.mp h
  obtain rfl := Proc.behaves_perform.mp (returns_attempt.mp hCtx)
  obtain rfl := Proc.behaves_perform.mp (returns_attempt.mp hApply)
  rfl

end Returns

/-! ## Marks of a run -/

variable {b : BalanceJob}

section Marks

variable {x : BalanceInputs}

/-- A call that only reads, checks or hands over readers and tokens. -/
def QuietBalance (e : Event (BalanceCalls x)) : Prop :=
  match e.op with
  | .enqueue _ | .apply _ _ | .clearQueue | .record _ _ | .flush | .start _ => False
  | _ => True

/-- What a call does to the queue and to the transformer. With `all`, a failed
application counts too. -/
def balanceMark (all : Bool) : Event (BalanceCalls x) → Option (Pipeline.Mark BalanceJob Inspection)
  | ⟨.enqueue b, _⟩ => some (.submit b)
  | ⟨.apply b i, err⟩ => if all || err.isNone then some (.accept b i) else none
  | ⟨.clearQueue, _⟩ => some .clear
  | _ => none

/-- The job whose goroutine records a failure. -/
def balanceFails : Event (BalanceCalls x) → Option BalanceJob
  | ⟨.record b _, _⟩ => some b
  | _ => none

variable {e : Event (BalanceCalls x)}

theorem balanceFails_eq_some (h : balanceFails e = some b) :
    ∃ err, e = ⟨.record b err, ()⟩ := by
  obtain ⟨op, r⟩ := e
  cases op with
  | record b' err =>
    obtain rfl := Option.some.inj h
    exact ⟨err, rfl⟩
  | _ => cases h

theorem QuietBalance.mark (h : QuietBalance e) (all : Bool) :
    balanceMark all e = none := by
  obtain ⟨op, r⟩ := e
  cases op <;> first | rfl | exact h.elim

theorem QuietBalance.fails (h : QuietBalance e) :
    balanceFails e = none := by
  obtain ⟨op, r⟩ := e
  cases op <;> first | rfl | exact h.elim

theorem checkContext_quiet : (checkContext x).run.Emits QuietBalance :=
  .run_attempt (.perform fun _ => trivial)

theorem withLease_quiet {α : Type} {body : BalanceProc x α} (h : body.run.Emits QuietBalance) :
    (withLease x body).run.Emits QuietBalance := by
  refine .run_bind checkContext_quiet fun _ => ?_
  refine .run_bind (.run_attempt (.perform fun _ => trivial)) fun _ => ?_
  exact .bind h fun _ => .bind (.perform fun _ => trivial) fun _ => .pure _

theorem isMember_quiet (ns : Char) (address : Address) :
    (isMember x ns address).run.Emits QuietBalance :=
  .bind (.perform fun _ => trivial) fun _ => .pure _

theorem inspectRetention_quiet (address : Address) :
    (inspectRetention x address).run.Emits QuietBalance := by
  unfold inspectRetention
  split
  · refine .run_bind (isMember_quiet _ _) fun listed => ?_
    split
    · exact .run_pure _
    · exact isMember_quiet _ _
  · exact isMember_quiet _ _

theorem inspect_quiet (b : BalanceJob) : (inspect x b).run.Emits QuietBalance := by
  refine withLease_quiet ?_
  split
  · exact .run_pure _
  · refine .run_bind ?_ fun account => ?_
    · -- a reader is borrowed and returned
      exact .run_bind (.run_invoke fun _ => trivial) fun r =>
        .run_bind (.run_invoke fun _ => trivial) fun _ => .run_computed _
    · refine .run_bind (.run_computed _) fun _ => ?_
      split
      · exact .run_pure _
      · exact .run_bind (inspectRetention_quiet _) fun _ => .run_pure _

theorem readBalanceRecord_quiet (e : Bytes × Bytes) :
    (readBalanceRecord x e).run.Emits QuietBalance := by
  refine .run_bind (withLease_quiet ?_) fun b => .run_bind (.run_attempt ?_) fun _ => .run_pure _
  · exact .run_bind checkContext_quiet fun _ => .run_computed _
  · refine .bind (.perform fun _ => trivial) fun err => ?_
    cases err with
    | none => exact .pure _
    | some e => exact .bind (.perform fun _ => trivial) fun _ => .pure _

theorem finishRecords_quiet : (finishRecords x).run.Emits QuietBalance :=
  .run_bind (withLease_quiet (.run_pure _)) fun _ => .run_attempt (.perform fun _ => trivial)

/-- The goroutine of a job marks nothing, and it can record only a failure of
this job. -/
theorem inspectJob_emits (b : BalanceJob) : (inspectJob x b).Emits fun e =>
    (∀ all, balanceMark all e = none) ∧ (balanceFails e = none ∨ balanceFails e = some b) := by
  refine .bind ((inspect_quiet b).mono fun e h => ⟨h.mark, .inl h.fails⟩) fun out => ?_
  cases out with
  | ok i => exact .pure _
  | error e =>
    refine .bind (.perform fun _ => ⟨fun _ => rfl, .inr rfl⟩) fun _ => ?_
    exact .bind (.perform fun _ => ⟨fun _ => rfl, .inl rfl⟩) fun _ => .pure _

/-- One call with the mark `m`. -/
theorem marks_call {op : BalanceOp x}
    {mark : Event (BalanceCalls x) → Option (Pipeline.Mark BalanceJob Inspection)}
    {m : Pipeline.Mark BalanceJob Inspection} (hm : ∀ r, mark ⟨op, r⟩ = some m)
    {t : List (Event (BalanceCalls x))} (h : (balanceCall x op).Begins t) :
    t.filterMap mark = [] ∨ t.filterMap mark = [m] := by
  rcases Proc.begins_perform.mp h with rfl | ⟨r, rfl⟩
  · exact .inl rfl
  · right
    rw [List.filterMap_cons_some (hm r)]
    rfl

theorem marks_accept (all : Bool) (b : BalanceJob) (i : Inspection) :
    [(⟨.ctxErr, none⟩ : Event (BalanceCalls x)), ⟨.apply b i, none⟩].filterMap (balanceMark all) =
      [.accept b i] := by
  cases all <;> rfl

theorem balancePipeline_marked (all : Bool) : (balancePipeline x).Marked (balanceMark all) where
  read _ e := .run_bind ((readBalanceRecord_quiet e).mono fun _ h => h.mark all) fun _ =>
    .run_pure _
  finish _ := finishRecords_quiet.mono fun _ h => h.mark all
  work b := (inspectJob_emits b).mono fun _ h => h.1 all
  direct b := (inspect_quiet b).mono fun _ h => h.mark all
  verdict _ := .perform fun _ => rfl
  abort := .perform fun _ => rfl
  submit b t h := marks_call (fun _ => rfl) h
  submitted b t h := by
    rw [Proc.behaves_perform.mp h]
    rfl
  accept _ b i t h := by
    rcases run_bind_begins h with hCtx | ⟨⟨⟩, t₁, t₂, hCtx, hApply, rfl⟩
    · exact .inl (Pipeline.Silent.marks (checkContext_quiet.mono fun _ h => h.mark all) hCtx)
    · obtain rfl := Proc.behaves_perform.mp (returns_attempt.mp hCtx)
      rcases Proc.begins_perform.mp (attempt_begins hApply) with rfl | ⟨r, rfl⟩
      · exact .inl rfl
      · -- a failed application counts only with `all`
        cases r with
        | none => exact .inr (marks_accept all b i)
        | some e =>
          cases all with
          | true => exact .inr rfl
          | false => exact .inl rfl
  accepted _ b i t u h := by
    rw [returns_accept h]
    exact marks_accept all b i
  clear t h := marks_call (fun _ => rfl) h
  cleared t h := by
    rw [Proc.behaves_perform.mp h]
    rfl

theorem balancePipeline_failures : (balancePipeline x).Failures balanceFails where
  read _ e := .run_bind ((readBalanceRecord_quiet e).mono fun _ h => h.fails) fun _ => .run_pure _
  finish _ := finishRecords_quiet.mono fun _ h => h.fails
  submit b := .perform fun _ => rfl
  work b := (inspectJob_emits b).mono fun _ h => h.2
  worked b t i h := by
    rcases inspectJob_behaves h with ⟨-, hInspect⟩ | ⟨e, t', hSome, -, -⟩
    · exact fun e he => (inspect_quiet b t hInspect.begins e he).fails
    · cases hSome
  direct b := (inspect_quiet b).mono fun _ h => .inl h.fails
  directed b t i h := fun e he => (inspect_quiet b t h.begins e he).fails
  verdict _ := .perform fun _ => rfl
  accept _ b i := .run_bind (checkContext_quiet.mono fun _ h => h.fails) fun _ =>
    .run_attempt (.perform fun _ => rfl)
  clear := .perform fun _ => rfl
  abort := .perform fun _ => rfl

theorem balancePipeline_bounded : (balancePipeline x).Bounded fun queue =>
    queue.length ≤ 2 * normalizeMigrateWorkers x.workers where
  nil := by simp
  one _ _ := by
    have hTwo : 2 ≤ normalizeMigrateWorkers x.workers := by
      unfold normalizeMigrateWorkers
      omega
    simp only [List.length_singleton]
    omega
  room queue b hFits hRoom := by
    have hNe : queue.length ≠ 2 * normalizeMigrateWorkers x.workers := of_decide_eq_true hRoom
    rw [List.length_append, List.length_singleton]
    omega

end Marks

/-! ## Runs of the object -/

section Runs

variable {x : BalanceInputs} {e : Event (BalanceCalls x)} {s s' m : BalanceShared x}
  {tr : List (Event (BalanceCalls x))}

/-- What one call does to the failure cell, the queue and the transformer. -/
structure BalanceStep (e : Event (BalanceCalls x)) (s m : BalanceShared x) : Prop where
  failure : m.failure = match e.op with
    | .record _ err => s.failure.or (some err)
    | _ => s.failure
  queue   : m.queue = Pipeline.queueAfter s.queue (balanceMark true e).toList
  loaded  : ∀ r, e = ⟨.loadFailure, r⟩ → r = s.failure
  get     : ∀ ns key v, e = ⟨.get ns key, .ok v⟩ → v = s.t.index.get ns key
  entries : ∀ ns es, e = ⟨.iterate ns, es⟩ → es = Store.under s.t.index.db [tag ns]
  applied : ∀ b i, balanceMark false e = some (.accept b i) →
    applyBalance s.t (b.inspected i) = .ok m.t
  kept    : (∀ b i, balanceMark false e ≠ some (.accept b i)) → (∀ t, e.op ≠ .start t) →
    e.op ≠ .flush → m.t = s.t
  flushed : e.op = .flush → m.t = { s.t with index := s.t.index.flush }

/-- A call on the contexts, the limiter or the pool of readers, or one that
only reports an error. -/
def BalanceOp.isPlain : BalanceOp x → Bool
  | .ctxErr | .parentErr | .cancel | .acquireToken | .releaseToken | .borrowReader
  | .returnReader _ | .evidenceErr => true
  | _ => false

theorem BalanceStep.plain {op : BalanceOp x} {r : op.Reply} (hOp : op.isPlain = true)
    (hFailure : m.failure = s.failure) (hQueue : m.queue = s.queue) (hState : m.t = s.t) :
    BalanceStep ⟨op, r⟩ s m := by
  cases op <;> first
    | exact absurd (show false = true from hOp) (by decide)
    | constructor <;> simp [balanceMark, Pipeline.queueAfter, *]

/-- **One call**, by cases on the operation. -/
theorem balance_step (h : (balanceObject x).perform e.op e.reply s = some m) :
    BalanceStep e s m := by
  obtain ⟨op, r⟩ := e
  replace h : BalanceShared.perform x op r s = some m := h
  cases op
  case record b err =>
    obtain rfl := Option.some.inj h
    constructor <;> simp [balanceMark, Pipeline.queueAfter]
  case loadFailure =>
    simp only [BalanceShared.perform] at h
    split at h <;> cases h
    next hr => constructor <;> simp [balanceMark, Pipeline.queueAfter, hr]
  case get ns key =>
    cases r with
    | ok v =>
      simp only [BalanceShared.perform] at h
      split at h <;> cases h
      next hv =>
        constructor <;> simp [balanceMark, Pipeline.queueAfter]
        exact hv
    | error err =>
      obtain rfl := Option.some.inj h
      constructor <;> simp [balanceMark, Pipeline.queueAfter]
  case apply b i =>
    cases r with
    | none =>
      simp only [BalanceShared.perform] at h
      split at h <;> cases h
      next t ht =>
        constructor <;> simp [balanceMark, Pipeline.queueAfter]
        exact ht
    | some err =>
      simp only [BalanceShared.perform] at h
      repeat' split at h
      all_goals cases h
      constructor <;> simp [balanceMark, Pipeline.queueAfter]
  case iterate ns =>
    simp only [BalanceShared.perform] at h
    split at h <;> cases h
    next hr => constructor <;> simp [balanceMark, Pipeline.queueAfter, hr]
  case finish =>
    simp only [BalanceShared.perform] at h
    split at h <;> cases h
    constructor <;> simp [balanceMark, Pipeline.queueAfter]
  case enqueue | clearQueue | flush | start =>
    obtain rfl := Option.some.inj h
    constructor <;> simp [balanceMark, Pipeline.queueAfter]
  -- the other calls leave the queue, the failure and the evidence alone
  case ctxErr | parentErr | acquireToken =>
    cases r <;> simp only [BalanceShared.perform] at h <;> (try split at h) <;> cases h <;>
      exact .plain rfl rfl rfl rfl
  all_goals
    simp only [BalanceShared.perform] at h
    repeat' split at h
    all_goals cases h <;> exact .plain rfl rfl rfl rfl

theorem failure_kept (h : (balanceObject x).run tr s = some s') (hSome : s.failure ≠ none) :
    s'.failure ≠ none := by
  induction tr generalizing s with
  | nil =>
    obtain rfl := Option.some.inj h
    exact hSome
  | cons e tr ih =>
    obtain ⟨m, hStep, hRest⟩ := Object.run_cons_eq_some.mp h
    refine ih hRest ?_
    rw [(balance_step hStep).failure]
    split <;> simp [hSome]

/-- A recorded failure stays. -/
theorem failure_of_record (h : (balanceObject x).run tr s = some s') {err : Err}
    (he : ⟨.record b err, ()⟩ ∈ tr) : s'.failure ≠ none := by
  induction tr generalizing s with
  | nil => exact absurd he (by simp)
  | cons e tr ih =>
    obtain ⟨m, hStep, hRest⟩ := Object.run_cons_eq_some.mp h
    rcases List.mem_cons.mp he with rfl | he
    · -- from here on the cell is not empty
      have hSome : m.failure ≠ none := by
        rw [(balance_step hStep).failure]
        simp
      exact failure_kept hRest hSome
    · exact ih hRest he

/-- The queue of the object is what the marks say. -/
theorem queue_of_run (h : (balanceObject x).run tr s = some s') :
    s'.queue = Pipeline.queueAfter s.queue (tr.filterMap (balanceMark true)) := by
  induction tr generalizing s with
  | nil =>
    obtain rfl := Option.some.inj h
    rfl
  | cons e tr ih =>
    obtain ⟨m, hStep, hRest⟩ := Object.run_cons_eq_some.mp h
    have hMarks : (e :: tr).filterMap (balanceMark true) =
        (balanceMark true e).toList ++ tr.filterMap (balanceMark true) := by
      cases hm : balanceMark true e with
      | none => rw [List.filterMap_cons_none hm]; rfl
      | some a => rw [List.filterMap_cons_some hm]; rfl
    rw [ih hRest, (balance_step hStep).queue, hMarks, Pipeline.queueAfter_append]

/-- A call that does not replace the transformer or flush its index. -/
def KeepsTransformer (e : Event (BalanceCalls x)) : Prop :=
  e.op ≠ .flush ∧ ∀ t, e.op ≠ .start t

/-- **The transformer at the end** is the result of the applied jobs. -/
theorem transformer_of_run (h : (balanceObject x).run tr s = some s')
    (hKeeps : ∀ e ∈ tr, KeepsTransformer e) :
    ((Pipeline.acceptedOf (tr.filterMap (balanceMark false))).map
      fun a => a.1.inspected a.2).foldlM applyBalance s.t = .ok s'.t := by
  induction tr generalizing s with
  | nil =>
    obtain rfl := Option.some.inj h
    rfl
  | cons e tr ih =>
    obtain ⟨m, hStep, hRest⟩ := Object.run_cons_eq_some.mp h
    have hTail := ih hRest fun e he => hKeeps e (List.mem_cons_of_mem _ he)
    obtain ⟨hFlush, hStart⟩ := hKeeps e List.mem_cons_self
    have hStep := balance_step hStep
    cases hm : balanceMark false e with
    | none =>
      rw [List.filterMap_cons_none hm, ← hStep.kept (by simp [hm]) hStart hFlush]
      exact hTail
    | some a =>
      rw [List.filterMap_cons_some hm]
      cases a with
      | submit | clear =>
        rw [← hStep.kept (by simp [hm]) hStart hFlush]
        exact hTail
      | accept b i => exact foldlM_cons_eq_ok.mpr ⟨m.t, hStep.applied b i hm, hTail⟩

/-! ### The evidence of retention -/

/-- A key in the namespace of the retain list or of the transfer senders. -/
def isRetentionKey (k : Bytes) : Bool := k.head? = some (tag 'R') || k.head? = some (tag 'f')

/-- The index has the retention evidence of `db`. -/
abbrev SameRetention (db : Store) (i : OvmIndex) : Prop := i.Settled isRetentionKey db

/-- Applying a balance does not touch the evidence. -/
theorem sameRetention_applyBalance {t t' : BalanceState} (h : SameRetention db t.index)
    (hApply : applyBalance t b = .ok t') :
    SameRetention db t'.index := by
  obtain ⟨-, -, rfl⟩ := applyBalance_eq_ok_iff.mp hApply
  refine h.pushAll fun op hop => ?_
  -- the writes are account patches and slot deletions
  unfold BalanceJob.ops at hop
  split at hop
  · rcases List.mem_cons.mp hop with rfl | hop
    · rfl
    · rw [List.mem_singleton.mp hop]
      rfl
  · exact absurd hop (by simp)

/-- **Reads during a run** see the evidence of its beginning. -/
theorem goodRead_of_run (h : (balanceObject x).run tr s = some s')
    (hSame : SameRetention db s.t.index) (hKeeps : ∀ e ∈ tr, KeepsTransformer e) :
    ∀ e ∈ tr, GoodRead db e := by
  induction tr generalizing s with
  | nil => simp
  | cons e tr ih =>
    obtain ⟨m, hStep, hRest⟩ := Object.run_cons_eq_some.mp h
    obtain ⟨hFlush, hStart⟩ := hKeeps e List.mem_cons_self
    have hStep := balance_step hStep
    have hNext : SameRetention db m.t.index := by
      by_cases hApply : ∃ b i, balanceMark false e = some (.accept b i)
      · obtain ⟨b, i, hm⟩ := hApply
        exact sameRetention_applyBalance hSame (hStep.applied b i hm)
      · rw [hStep.kept (fun b i hm => hApply ⟨b, i, hm⟩) hStart hFlush]
        exact hSame
    intro e' he'
    rcases List.mem_cons.mp he' with rfl | he'
    · intro ns key v hns hEq
      rw [hStep.get ns key v hEq]
      refine hSame.stored _ ?_
      rcases hns with rfl | rfl <;> rfl
    · exact ih hRest hNext (fun e he => hKeeps e (List.mem_cons_of_mem _ he)) e' he'

end Runs

/-! ## The pipeline against one record at a time -/

section Serial

variable {x : BalanceInputs}

theorem balancePipeline_within : (balancePipeline x).Within KeepsTransformer := by
  have hQuiet : ∀ e : Event (BalanceCalls x), QuietBalance e → KeepsTransformer e := by
    rintro ⟨op, r⟩ h
    refine ⟨?_, fun t => ?_⟩
    · rintro ⟨⟩
      exact h
    · rintro ⟨⟩
      exact h
  have hCall : ∀ op : BalanceOp x, op ≠ .flush → (∀ t, op ≠ .start t) →
      (balanceCall x op).Emits KeepsTransformer :=
    fun op hFlush hStart => .perform fun _ => ⟨hFlush, hStart⟩
  constructor
  case read =>
    exact fun _ e => .run_bind ((readBalanceRecord_quiet e).mono hQuiet) fun _ => .run_pure _
  case finish => exact fun _ => finishRecords_quiet.mono hQuiet
  case submit => exact fun b => hCall _ (by simp) (by simp)
  case work =>
    intro b
    refine .bind ((inspect_quiet b).mono hQuiet) fun out => ?_
    cases out with
    | ok i => exact .pure _
    | error e =>
      exact .bind (hCall _ (by simp) (by simp)) fun _ =>
        .bind (hCall _ (by simp) (by simp)) fun _ => .pure _
  case direct => exact fun b => (inspect_quiet b).mono hQuiet
  case verdict => exact fun _ => hCall _ (by simp) (by simp)
  case accept =>
    exact fun _ b i => .run_bind (checkContext_quiet.mono hQuiet) fun _ =>
      .run_attempt (hCall _ (by simp) (by simp))
  case clear => exact hCall _ (by simp) (by simp)
  case abort => exact hCall _ (by simp) (by simp)

/-- The traces of runs from `s`. -/
def BalanceValid (s : BalanceShared x) (tr : List (Event (BalanceCalls x))) : Prop :=
  (∃ s', (balanceObject x).run tr s = some s') ∧ ∀ e ∈ tr, KeepsTransformer e

variable {db : Store} {s : BalanceShared x} {xs : List (Bytes × Bytes)} {s' : BalanceShared x}

/-- **A drained batch without a recorded failure has none.** -/
theorem balancePipeline_sound (hSame : SameRetention db s.t.index) :
    (balancePipeline x).Sound (GoodRead db) (BalanceValid s) where
  closed t t' h := by
    obtain ⟨⟨s', hRun⟩, hKeeps⟩ := h
    obtain ⟨m, hFirst, -⟩ := Object.run_append_eq_some.mp hRun
    exact ⟨⟨m, hFirst⟩, fun e he => hKeeps e (List.mem_append_left _ he)⟩
  good t h := by
    obtain ⟨⟨s', hRun⟩, hKeeps⟩ := h
    exact goodRead_of_run hRun hSame hKeeps
  verdict pre t jobs hVerdict hWorked hValid j hj := by
    obtain ⟨⟨s', hRun⟩, -⟩ := hValid
    obtain ⟨m, hFirst, hLoad⟩ := Object.run_append_eq_some.mp hRun
    obtain rfl := Proc.behaves_perform.mp hVerdict
    obtain ⟨m', hStep, -⟩ := Object.run_cons_eq_some.mp hLoad
    have hEmpty : none = m.failure := (balance_step hStep).loaded none rfl
    -- a failed goroutine would have recorded its error
    obtain ⟨w, hWork, hSub⟩ := hWorked j hj
    rcases inspectJob_behaves hWork with ⟨hNone, -⟩ | ⟨err, u, -, hw, -⟩
    · exact hNone
    · have hRecorded : (⟨.record j.1 err, ()⟩ : Event (BalanceCalls x)) ∈ pre := by
        refine hSub.subset ?_
        rw [hw]
        simp
      exact absurd hEmpty.symm (failure_of_record hFirst hRecorded)

/-- What the accepted jobs of a serial run are. -/
theorem serial_inspected {u u' v v' : Unit} {acc : List (BalanceJob × Inspection)}
    (h : (balancePipeline x).Serial (GoodRead db) u xs v acc v' u') :
    xs.mapM (inspectedRecord x db) = .ok (acc.map fun a => a.1.inspected a.2) := by
  induction h with
  | nil r s => rfl
  | @cons r r' r'' e xs s s' s'' b i acc t t' hRead hWorks _ _ ih =>
    obtain ⟨b', t₁, t₂, hRecord, hRet, rfl⟩ := returns_bind.mp hRead
    obtain ⟨-, hEq⟩ := returns_pure.mp hRet
    obtain ⟨rfl, -⟩ := Prod.mk.inj hEq
    have hFresh : inspectFresh x db b' = .ok i := by
      rcases hWorks with ⟨w, hWork, hGood⟩ | ⟨w, hDirect, hGood⟩
      · rcases inspectJob_behaves hWork with ⟨-, hInspect⟩ | ⟨err, u, hSome, -, -⟩
        · exact returns_inspect hInspect hGood
        · cases hSome
      · exact returns_inspect hDirect hGood
    have hJob : inspectedRecord x db e = .ok (b'.inspected i) := by
      unfold inspectedRecord
      rw [returns_readBalanceRecord hRecord, ok_bind, hFresh]
      rfl
    rw [List.mapM_cons, hJob, ok_bind, ih]
    rfl

theorem inspectedRecord_of_same {i : OvmIndex} (h : SameRetention db i) (e : Bytes × Bytes) :
    inspectedRecord x i.db e = inspectedRecord x db e := by
  have hEligible : ∀ a, eligible x i.db a = eligible x db a := by
    intro a
    unfold eligible
    rw [h.stored _ rfl, h.stored _ rfl]
  unfold inspectedRecord inspectFresh
  simp only [hEligible]

/-- The fold over looked up jobs is the fold that looks up each record when it
is applied. -/
theorem foldlM_applyRecord {jobs : List BalanceJob} {t t' : BalanceState}
    (hJobs : xs.mapM (inspectedRecord x db) = .ok jobs)
    (hFold : jobs.foldlM applyBalance t = .ok t') (hSame : SameRetention db t.index) :
    xs.foldlM (applyRecord x) t = .ok t' := by
  induction xs generalizing jobs t with
  | nil =>
    obtain rfl : [] = jobs := Except.ok.inj hJobs
    exact hFold
  | cons e xs ih =>
    obtain ⟨b, bs, hb, hbs, rfl⟩ := mapM_cons_eq_ok.mp hJobs
    obtain ⟨m, hStep, hTail⟩ := foldlM_cons_eq_ok.mp hFold
    refine foldlM_cons_eq_ok.mpr ⟨m, ?_, ih hbs hTail (sameRetention_applyBalance hSame hStep)⟩
    unfold applyRecord
    rw [inspectedRecord_of_same hSame, hb]
    exact hStep

/-- The hash of a job is the key of its record, and the key of its account. -/
theorem hash_of_inspectedRecord {e : Bytes × Bytes} (h : inspectedRecord x db e = .ok b) :
    e.1 = b.hash.bytes ∧ b.hash = accountKey x.geth b.address := by
  obtain ⟨b₀, hParse, hRest⟩ := bind_eq_ok.mp h
  obtain ⟨i, -, hEq⟩ := bind_eq_ok.mp hRest
  obtain rfl : b₀.inspected i = b := Except.ok.inj hEq
  obtain ⟨-, -, hk⟩ := bind_eq_ok.mp hParse
  obtain ⟨⟨⟩, hKey, hJob⟩ := bind_eq_ok.mp hk
  obtain rfl := Except.ok.inj hJob
  exact ⟨require_eq_ok.mp hKey, rfl⟩

/-- Records in key order are jobs in the order of the account hashes. -/
theorem jobs_pairwise {jobs : List BalanceJob} (hOrder : xs.Pairwise fun a b => a.1 < b.1)
    (hJobs : xs.mapM (inspectedRecord x db) = .ok jobs) :
    jobs.Pairwise fun a b => a.hash < b.hash := by
  have hSame : List.Forall₂ (fun e b => e.1 = b.hash.bytes) xs jobs :=
    (mapM_eq_ok_forall₂ hJobs).imp fun _ _ h => (hash_of_inspectedRecord h).1
  have hKeys : xs.map Prod.fst = jobs.map fun b => b.hash.bytes := by
    rw [← List.forall₂_eq_eq_eq, List.forall₂_map_left_iff, List.forall₂_map_right_iff]
    exact hSame
  rw [← List.pairwise_map (f := Prod.fst), hKeys] at hOrder
  have hBytes := List.pairwise_map.mp hOrder
  exact hBytes

/-! ## The whole function -/

/-- What the goroutines share when the pipeline is entered. -/
def BalanceShared.begin (canceled : Bool) (held : Nat) (t : BalanceState) : BalanceShared x :=
  { parent := canceled, canceled := canceled, held := held, failure := none, readers := [],
    queue := [], t := t }

/-- The jobs of the calls of `applyBalance`. -/
def appliedJobs (tr : List (Event (BalanceCalls x))) : List BalanceJob :=
  (Pipeline.acceptedOf (tr.filterMap (balanceMark true))).map fun a => a.1.inspected a.2

/-- The jobs that were queued. -/
def queuedJobs (tr : List (Event (BalanceCalls x))) : List BalanceJob :=
  tr.filterMap fun e => match e.op with
    | .enqueue b => some b
    | _ => none

variable {tr : List (Event (BalanceCalls x))}

theorem queuedJobs_eq : queuedJobs tr = (tr.filterMap (balanceMark true)).filterMap fun m =>
    match m with
    | .submit b => some b
    | _ => none := by
  rw [queuedJobs, List.filterMap_filterMap]
  refine List.filterMap_congr fun e _ => ?_
  obtain ⟨op, r⟩ := e
  cases op <;> rfl

/-- The function as far as it has come. -/
theorem inspectOrderedBalances_begins (h : (inspectOrderedBalances x).run.Begins tr) :
    tr = [] ∨ tr = [⟨.flush, ()⟩] ∨
      ∃ entries t, tr = ⟨.flush, ()⟩ :: ⟨.iterate 'q', entries⟩ :: t ∧
        ((balancePipeline x).run () entries ()).Begins t := by
  rcases run_bind_begins h with hFlush | ⟨⟨⟩, t₁, u₁, hFlush, hk₁, rfl⟩
  · rcases Proc.begins_perform.mp (run_lift_begins hFlush) with rfl | ⟨⟨⟩, rfl⟩
    · exact .inl rfl
    · exact .inr (.inl rfl)
  · obtain rfl := returns_invoke.mp hFlush
    rcases run_bind_begins hk₁ with hIter | ⟨entries, t₂, u₂, hIter, hk₂, rfl⟩
    · rcases Proc.begins_perform.mp (run_lift_begins hIter) with rfl | ⟨entries, rfl⟩
      · exact .inr (.inl rfl)
      · exact .inr (.inr ⟨entries, [], rfl, Proc.begins_nil _⟩)
    · obtain rfl := returns_invoke.mp hIter
      refine .inr (.inr ⟨entries, u₂, rfl, ?_⟩)
      rcases run_bind_begins hk₂ with hRun | ⟨out, t₃, u₃, hRun, rfl, rfl⟩
      · exact hRun
      · rw [List.append_nil]
        exact hRun.begins

theorem inspectOrderedBalances_behaves {u : Unit} (h : Returns (inspectOrderedBalances x) tr u) :
    ∃ entries t, tr = ⟨.flush, ()⟩ :: ⟨.iterate 'q', entries⟩ :: t ∧
      ((balancePipeline x).run () entries ()).Behaves t (.ok ((), ())) := by
  obtain ⟨⟨⟩, t₁, u₁, hFlush, hk₁, rfl⟩ := returns_bind.mp h
  obtain ⟨entries, t₂, u₂, hIter, hk₂, rfl⟩ := returns_bind.mp hk₁
  obtain ⟨⟨⟨⟩, ⟨⟩⟩, t₃, u₃, hRun, hRet, rfl⟩ := returns_bind.mp hk₂
  obtain ⟨rfl, -⟩ := returns_pure.mp hRet
  obtain rfl := returns_invoke.mp hFlush
  obtain rfl := returns_invoke.mp hIter
  exact ⟨entries, t₃, by simp, hRun⟩

/-- The transformer when the first record is read. -/
def BalanceState.flushed (t : BalanceState) : BalanceState := { t with index := t.index.flush }

/-- The first two calls. -/
theorem run_first_calls {entries : List (Bytes × Bytes)}
    (h : (balanceObject x).run (⟨.flush, ()⟩ :: ⟨.iterate 'q', entries⟩ :: tr) s = some s') :
    entries = Store.under s.t.index.content [tag 'q'] ∧
      (balanceObject x).run tr { s with t := s.t.flushed } = some s' := by
  obtain ⟨m, hFlush, hRest⟩ := Object.run_cons_eq_some.mp h
  obtain rfl := Option.some.inj hFlush
  obtain ⟨m', hIter, hRun⟩ := Object.run_cons_eq_some.mp hRest
  have hEntries := (balance_step hIter).entries 'q' entries rfl
  replace hIter : BalanceShared.perform x (.iterate 'q') entries _ = some m' := hIter
  simp only [BalanceShared.perform] at hIter
  rw [if_pos hEntries] at hIter
  obtain rfl := Option.some.inj hIter
  exact ⟨hEntries, hRun⟩

theorem sameRetention_flushed (t : BalanceState) :
    SameRetention t.index.content t.flushed.index := t.index.settled_flush _

/-- At all times the queue is bounded. -/
theorem balance_queue_bounded (hQueue : s.queue = []) (h : (inspectOrderedBalances x).run.Begins tr)
    (hRun : (balanceObject x).run tr s = some s') :
    s'.queue.length ≤ 2 * normalizeMigrateWorkers x.workers := by
  have hEnd := queue_of_run hRun
  rw [hQueue] at hEnd
  rw [hEnd]
  rcases inspectOrderedBalances_begins h with rfl | rfl | ⟨entries, t, rfl, hBegins⟩
  · exact Nat.zero_le _
  · exact Nat.zero_le _
  · -- the first two calls do not touch the queue
    show (Pipeline.queueAfter [] (t.filterMap (balanceMark true))).length ≤ _
    exact Pipeline.run_queue (balancePipeline_marked true) balancePipeline_bounded hBegins

/-- The calls of the pipeline run behind the first two. -/
theorem balanceValid_of_run {entries : List (Bytes × Bytes)} {t : List (Event (BalanceCalls x))}
    (hBegins : ((balancePipeline x).run () entries ()).Begins t)
    (hRest : (balanceObject x).run t { s with t := s.t.flushed } = some s') :
    BalanceValid { s with t := s.t.flushed } ([] ++ t) :=
  ⟨⟨s', hRest⟩, Pipeline.run_emits balancePipeline_within _ _ _ t hBegins⟩

theorem balancePipeline_sound_flushed (s : BalanceShared x) :
    (balancePipeline x).Sound (GoodRead s.t.index.content)
    (BalanceValid { s with t := s.t.flushed }) :=
  balancePipeline_sound (sameRetention_flushed s.t)

/-- A run that succeeds applies the records in order. -/
theorem balance_serial {u : Unit} (h : Returns (inspectOrderedBalances x) tr u)
    (hRun : (balanceObject x).run tr s = some s') :
    ∃ jobs, (Store.under s.t.index.content [tag 'q']).mapM
        (inspectedRecord x s.t.index.content) = .ok jobs ∧
      appliedJobs tr = jobs ∧ jobs.foldlM applyBalance s.t.flushed = .ok s'.t := by
  obtain ⟨entries, t, rfl, hBehaves⟩ := inspectOrderedBalances_behaves h
  obtain ⟨rfl, hRest⟩ := run_first_calls hRun
  have hSound := balancePipeline_sound_flushed s
  have hValid := balanceValid_of_run hBehaves.begins hRest
  -- the calls of `applyBalance`, and those of them that succeeded
  have hAll := serial_inspected
    (Pipeline.run_serial (balancePipeline_marked true) hSound hBehaves hValid)
  have hDone := serial_inspected
    (Pipeline.run_serial (balancePipeline_marked false) hSound hBehaves hValid)
  have hFold := transformer_of_run hRest hValid.2
  have hSameJobs := Except.ok.inj (hDone.symm.trans hAll)
  rw [hSameJobs] at hFold
  exact ⟨_, hAll, rfl, hFold⟩

/-- A run that succeeds has no failed inspection. -/
theorem balance_calm {u : Unit} (h : Returns (inspectOrderedBalances x) tr u)
    (hRun : (balanceObject x).run tr s = some s') :
    ∀ e ∈ tr, balanceFails e = none := by
  obtain ⟨entries, t, rfl, hBehaves⟩ := inspectOrderedBalances_behaves h
  obtain ⟨rfl, hRest⟩ := run_first_calls hRun
  have hCalm := Pipeline.run_calm (balancePipeline_sound_flushed s) balancePipeline_failures
    hBehaves (balanceValid_of_run hBehaves.begins hRest)
  rw [List.forall_mem_cons, List.forall_mem_cons]
  exact ⟨rfl, rfl, hCalm⟩

/-- A failed inspection stops its batch. -/
theorem balance_failed (hQueue : s.queue = []) {err : Err}
    (h : (inspectOrderedBalances x).run.Begins tr) (hRun : (balanceObject x).run tr s = some s')
    (he : ⟨.record b err, ()⟩ ∈ tr) :
    ∃ t₁ t₂ m, tr = t₁ ++ t₂ ∧ (balanceObject x).run t₁ s = some m ∧ m.queue = [] ∧
      b ∈ queuedJobs t₂ ∧ appliedJobs t₂ = [] := by
  rcases inspectOrderedBalances_begins h with rfl | rfl | ⟨entries, t, rfl, hBegins⟩
  · exact absurd he (by simp)
  · exact absurd he (by simp)
  · obtain ⟨rfl, hRest⟩ := run_first_calls hRun
    have hIn : (⟨.record b err, ()⟩ : Event (BalanceCalls x)) ∈ t := by simpa using he
    obtain ⟨t₁, t₂, rfl, -, hEmpty, items, hItems, hFailed⟩ :=
      Pipeline.run_failed (balancePipeline_marked true) (balancePipeline_sound_flushed s)
        balancePipeline_failures hBegins (balanceValid_of_run hBegins hRest) hIn rfl
    have hMember : b ∈ items := by
      rcases hFailed with hMem | hAlone
      · exact hMem
      · exact absurd hAlone (by simp [balancePipeline])
    -- the batch begins after the first two calls and `t₁`
    rw [← List.cons_append, ← List.cons_append] at hRun
    obtain ⟨m, hFirst, -⟩ := Object.run_append_eq_some.mp hRun
    refine ⟨_, t₂, m, rfl, hFirst, ?_, ?_, ?_⟩
    · rw [queue_of_run hFirst, hQueue]
      exact hEmpty
    · rw [queuedJobs_eq, hItems]
      simpa [List.filterMap_map, Function.comp_def] using hMember
    · rw [appliedJobs, hItems]
      simp [Pipeline.acceptedOf, List.filterMap_map]

end Serial

/-- **The balance pipeline refines the serial fold.** At all times at most
`2 * workers` jobs are queued. If the pipeline succeeds, `applyBalance` was
called once for each record, in the order of the account hashes and with what a
fresh lookup finds, and the transformer is the one that applying the records
one at a time gives. If an inspection fails, no job of its batch or of a later
one is applied and the pipeline does not succeed. -/
theorem balance_pipeline_refines {x : BalanceInputs} {canceled : Bool} {held : Nat}
    {t : BalanceState} {tr : List (Event (BalanceCalls x))}
    {q : Proc (BalanceCalls x) (Except Err Unit)} {s : BalanceShared x}
    (h : Exec (balanceObject x) (inspectOrderedBalances x).run (.begin canceled held t) tr q s) :
    s.queue.length ≤ 2 * normalizeMigrateWorkers x.workers ∧
    (q = .ret (.ok ()) →
      ∃ jobs, (Store.under t.index.content [tag 'q']).mapM (inspectedRecord x t.index.content) =
          .ok jobs ∧
        jobs.Pairwise (fun a b => a.hash < b.hash) ∧ appliedJobs tr = jobs ∧
        (Store.under t.index.content [tag 'q']).foldlM (applyRecord x) t.flushed = .ok s.t) ∧
    (∀ b err, ⟨.record b err, ()⟩ ∈ tr →
      q ≠ .ret (.ok ()) ∧
      ∃ t₁ t₂ m, tr = t₁ ++ t₂ ∧ (balanceObject x).run t₁ (.begin canceled held t) = some m ∧
        m.queue = [] ∧ b ∈ queuedJobs t₂ ∧ appliedJobs t₂ = []) := by
  obtain ⟨hSteps, hRun⟩ := exec_iff.mp h
  have hBegins := hSteps.begins
  have hFailed : ∀ b err, ⟨.record b err, ()⟩ ∈ tr → _ := fun b err he =>
    balance_failed rfl hBegins hRun he
  refine ⟨balance_queue_bounded rfl hBegins hRun, ?_, fun b err he => ⟨?_, hFailed b err he⟩⟩
  · rintro rfl
    obtain ⟨hBehaves, -⟩ := exec_ret_iff.mp h
    obtain ⟨jobs, hJobs, hApplied, hFold⟩ := balance_serial hBehaves hRun
    have hOrder := jobs_pairwise (Store.under_pairwise t.index.content [tag 'q']) hJobs
    exact ⟨jobs, hJobs, hOrder, hApplied,
      foldlM_applyRecord hJobs hFold (sameRetention_flushed t)⟩
  · rintro rfl
    -- a finished run without error has no failed inspection
    obtain ⟨hBehaves, -⟩ := exec_ret_iff.mp h
    exact absurd (balance_calm hBehaves hRun _ he) (by simp [balanceFails])

/-! ## A run -/

/-- A hash function that is quickly evaluated: a polynomial in the bytes. The
empty string and the empty trie keep their hashes. -/
def polyKeccak (b : Bytes) : Hash :=
  if b = [] then emptyCodeHash
  else if b = [0x80] then emptyRootHash
  else hashOfNat
    (b.foldl (fun acc d => acc * 0x10001000100010001000100010001 + d.val + 1) 0x9e3779b97f4a7c15)

/-- An opened trie with the given leaves. -/
def accessOf (l : History) : TrieAccess where
  get k := .ok (((l.find? fun e => e.1 = k).map Prod.snd).getD [])
  iterator := .ok ⟨l, [], none⟩

/-- The reply that the state allows, in a run without outer cancellation and
I/O errors. -/
def balanceReply {x : BalanceInputs} : (op : BalanceOp x) → BalanceShared x → op.Reply
  | .ctxErr, s => if s.canceled then some errCanceled else none
  | .parentErr, s => if s.parent then some errCanceled else none
  | .acquireToken, _ | .evidenceErr, _ => none
  | .loadFailure, s => s.failure
  | .borrowReader, s => s.readers.headD (.new x.tries x.root)
  | .get ns key, s => .ok (s.t.index.get ns key)
  | .apply b i, s => match applyBalance s.t (b.inspected i) with
    | .ok _ => none
    | .error e => some e
  | .iterate ns, s => Store.under s.t.index.db [tag ns]
  | .finish, s => s.t
  | .cancel, _ | .releaseToken, _ | .record _ _, _ | .returnReader _, _ | .enqueue _, _
  | .clearQueue, _ | .flush, _ | .start _, _ => ()

/-- Holder number `n`. -/
def holderAddress (n : Nat) : Address := ⟨toBE 20 n, length_toBE 20 n⟩

/-- The record of a holder in the namespace `q`. -/
def holderOp (g : Geth) (n value : Nat) : DbOp :=
  .put (tag 'q' :: (accountKey g (holderAddress n)).bytes)
    ((holderAddress n).bytes ++ (balanceKey g (holderAddress n)).bytes ++ toBE 32 value)

/-- Five holders: the third one is a contract that has sent tokens, and the
fourth one has the native balance `native`. -/
def holderInputs (native : U256) : BalanceInputs where
  geth := referenceGeth polyKeccak
  tries := ⟨fun _ _ => .ok (accessOf [
    ((polyKeccak (holderAddress 3).bytes).bytes, encodeStateAccount
    ⟨1, 0, emptyRootHash, zeroHash.bytes⟩), ((polyKeccak (holderAddress 4).bytes).bytes,
      encodeStateAccount ⟨1, native, emptyRootHash, emptyCodeHash.bytes⟩)])⟩
  root := zeroHash
  retention := false
  workers := 1

def holderState : BalanceState :=
  .init ⟨.empty, [.put (tag 'f' :: (holderAddress 3).bytes) [1]] ++
    [1, 2, 3, 4, 5].map fun n => holderOp (referenceGeth polyKeccak) n (10 * n)⟩ 150

/-- Whether a run of the five holders applies all balances. -/
def holdersApplied (out : List (Event (BalanceCalls (holderInputs 0))) × Except Err Unit ×
    BalanceShared (holderInputs 0)) : Bool :=
  decide (out.2.1 = .ok () ∧ (appliedJobs out.1).length = 5 ∧ out.2.2.t.total = 150 ∧
    out.2.2.t.evidence.remainingSupply = 30)

/-- **Two runs**: five balances are applied in two batches, and with a native
balance that is not zero an inspection fails. -/
theorem balance_pipeline_sample :
    (∃ tr s, Exec (balanceObject (holderInputs 0)) (inspectOrderedBalances (holderInputs 0)).run
        (.begin false 0 holderState) tr (.ret (.ok ())) s ∧
      (appliedJobs tr).length = 5 ∧ s.t.total = 150 ∧ s.t.evidence.remainingSupply = 30 ∧
      (appliedJobs tr).Pairwise fun a b => a.hash < b.hash) ∧
    ∃ tr b err q s,
      Exec (balanceObject (holderInputs 1)) (inspectOrderedBalances (holderInputs 1)).run
        (.begin false 0 holderState) tr q s ∧ ⟨.record b err, ()⟩ ∈ tr ∧ q ≠ .ret (.ok ()) := by
  have hPlay : ((balanceObject (holderInputs 0)).play balanceReply 9
      (inspectOrderedBalances (holderInputs 0)).run (.begin false 0 holderState)).any
      holdersApplied = true := by
    decide +kernel
  have hFail : ((balanceObject (holderInputs 1)).play balanceReply 9
      (inspectOrderedBalances (holderInputs 1)).run (.begin false 0 holderState)).any
      (fun out => out.1.any fun e => (balanceFails e).isSome) = true := by
    decide +kernel
  constructor
  · obtain ⟨tr, out, s, hExec, hTest⟩ := (balanceObject (holderInputs 0)).exec_of_play hPlay
    obtain ⟨hOk, hLength, hTotal, hRemaining⟩ := of_decide_eq_true hTest
    obtain rfl : out = .ok () := hOk
    obtain ⟨-, hSerial, -⟩ := balance_pipeline_refines hExec
    obtain ⟨jobs, -, hOrder, hApplied, -⟩ := hSerial rfl
    exact ⟨tr, s, hExec, hLength, hTotal, hRemaining, hApplied ▸ hOrder⟩
  · obtain ⟨tr, out, s, hExec, hTest⟩ := (balanceObject (holderInputs 1)).exec_of_play hFail
    obtain ⟨e, he, hSome⟩ := List.any_eq_true.mp hTest
    obtain ⟨b, hb⟩ := Option.isSome_iff_exists.mp hSome
    obtain ⟨err, rfl⟩ := balanceFails_eq_some hb
    obtain ⟨-, -, hFailed⟩ := balance_pipeline_refines hExec
    exact ⟨tr, b, err, _, s, hExec, he, (hFailed b err he).1⟩

end L2State
