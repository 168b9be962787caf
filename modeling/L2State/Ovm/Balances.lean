import L2State.Ovm.Index

/-!
# L2State — applying the balances of the token

`applyBalance` of `ovm_transform.go`: every holder of the token is a job. Its
balance stays a token balance (the token contract itself and retained
contracts) or becomes a native balance (everyone else). Three running sums are
kept in 256 bits, and only one of them is checked for overflow.

* `BalanceJob`, `Fate` — a holder and what becomes of its balance.
* `applyBalance`, `applyBalance_eq_ok_iff` — one job and all it does.
* `Conserved` — the relation between the three sums that every run of jobs
  keeps (`applyBalances_conserved`), and that rules out a wraparound.
-/

namespace L2State

open Lib

/-- `OVMBalanceEvidence`. The amounts are always present here; a missing one
can only come from a decoded report. -/
structure OvmBalanceEvidence where
  originalSupply     : U256
  migratedNative     : U256
  remainingSupply    : U256
  eoas               : UInt64
  convertedContracts : UInt64
  retainedContracts  : UInt64
  selfBalance        : U256
deriving DecidableEq

/-- `ovmBalanceJob`. The last three fields are set by `inspect`. -/
structure BalanceJob where
  address  : Address
  slot     : Hash
  hash     : Hash
  value    : U256
  account  : Option StateAccount
  contract : Bool
  retain   : Bool
deriving DecidableEq

/-- The fields of an `ovmTransformer` that the jobs change. -/
structure BalanceState where
  index        : OvmIndex
  evidence     : OvmBalanceEvidence
  total        : U256
  balanceSlots : UInt64
deriving DecidableEq

/-- The evidence before the first job. -/
def OvmBalanceEvidence.init (supply : U256) : OvmBalanceEvidence := ⟨supply, 0, 0, 0, 0, 0, 0⟩

/-- The state before the first job. -/
def BalanceState.init (index : OvmIndex) (supply : U256) : BalanceState :=
  ⟨index, .init supply, 0, 0⟩

/-- `patchAccount`. -/
def patchAccount (i : OvmIndex) (hash : Hash) (a : StateAccount) : OvmIndex :=
  i.put 'p' hash.bytes (encodeStateAccount a)

/-- `applyBalance`. -/
def applyBalance (t : BalanceState) (b : BalanceJob) : Except Err BalanceState := do
  require (t.total.toNat + b.value.toNat < 2 ^ 256) (.msg "OVM balances sum overflows uint256" [])
  let t := { t with total := t.total + b.value }
  if b.value = 0 then return t
  let t := { t with balanceSlots := t.balanceSlots + 1 }
  if b.address = ovmETHAddress then
    return { t with evidence := { t.evidence with
      selfBalance := b.value
      remainingSupply := t.evidence.remainingSupply + b.value } }
  if b.contract && b.retain then
    return { t with evidence := { t.evidence with
      retainedContracts := t.evidence.retainedContracts + 1
      remainingSupply := t.evidence.remainingSupply + b.value } }
  let counted := if b.contract
    then { t.evidence with convertedContracts := t.evidence.convertedContracts + 1 }
    else { t.evidence with eoas := t.evidence.eoas + 1 }
  let evidence := { counted with migratedNative := counted.migratedNative + b.value }
  match b.account with
  -- the source would dereference a nil account
  | none => .error (.outside "nil account")
  | some a =>
    let index := patchAccount t.index b.hash { a with balance := b.value }
    return { t with evidence := evidence, index := index.put 's' b.slot.bytes [] }

/-! ## One job -/

/-- What becomes of a balance. -/
inductive Fate
  /-- Nothing to move. -/
  | zero
  /-- The token contract's own balance: it stays. -/
  | self
  /-- A retained contract: it stays. -/
  | retained
  /-- It becomes a native balance. -/
  | migrated
deriving DecidableEq

/-- The fate of a job. -/
def BalanceJob.fate (b : BalanceJob) : Fate :=
  if b.value = 0 then .zero
  else if b.address = ovmETHAddress then .self
  else if b.contract && b.retain then .retained
  else .migrated

/-- The amount of a balance that stays a token balance. -/
def BalanceJob.kept (b : BalanceJob) : Nat :=
  match b.fate with
  | .self | .retained => b.value.toNat
  | .zero | .migrated => 0

/-- The amount of a balance that becomes native. -/
def BalanceJob.moved (b : BalanceJob) : Nat :=
  match b.fate with
  | .migrated => b.value.toNat
  | _ => 0

theorem BalanceJob.kept_add_moved (b : BalanceJob) : b.kept + b.moved = b.value.toNat := by
  unfold kept moved fate
  by_cases hZero : b.value = 0
  · simp [hZero]
  · rw [if_neg hZero]
    by_cases hSelf : b.address = ovmETHAddress
    · simp [hSelf]
    · by_cases hRetain : (b.contract && b.retain) = true <;> simp [hSelf, hRetain]

/-- The writes of a job: the account with its new native balance, and the
deletion of the token balance. -/
def BalanceJob.ops (b : BalanceJob) : List DbOp :=
  match b.fate, b.account with
  | .migrated, some a =>
    [.put (tag 'p' :: b.hash.bytes) (encodeStateAccount { a with balance := b.value }),
      .put (tag 's' :: b.slot.bytes) []]
  | _, _ => []

/-- The evidence after a job. -/
def OvmBalanceEvidence.after (e : OvmBalanceEvidence) (b : BalanceJob) : OvmBalanceEvidence :=
  match b.fate with
  | .zero => e
  | .self => { e with selfBalance := b.value, remainingSupply := e.remainingSupply + b.value }
  | .retained => { e with
      retainedContracts := e.retainedContracts + 1
      remainingSupply := e.remainingSupply + b.value }
  | .migrated =>
    if b.contract then { e with
      convertedContracts := e.convertedContracts + 1
      migratedNative := e.migratedNative + b.value }
    else { e with eoas := e.eoas + 1, migratedNative := e.migratedNative + b.value }

/-- The state after a job. -/
def BalanceState.after (t : BalanceState) (b : BalanceJob) : BalanceState where
  index := t.index.pushAll b.ops
  evidence := t.evidence.after b
  total := t.total + b.value
  balanceSlots := if b.value = 0 then t.balanceSlots else t.balanceSlots + 1

/-- **One job**: it fails if the checked sum overflows, or if a balance to
move has no account. -/
theorem applyBalance_eq (t : BalanceState) (b : BalanceJob) :
    applyBalance t b =
      if t.total.toNat + b.value.toNat < 2 ^ 256 then
        if b.fate = .migrated ∧ b.account = none then .error (.outside "nil account")
        else .ok (t.after b)
      else .error (.msg "OVM balances sum overflows uint256" []) := by
  unfold applyBalance require
  by_cases hAdd : t.total.toNat + b.value.toNat < 2 ^ 256
  · rw [if_pos hAdd, if_pos hAdd, ok_bind]
    unfold BalanceState.after OvmBalanceEvidence.after BalanceJob.ops BalanceJob.fate
    by_cases hZero : b.value = 0#256
    · simp [hZero, OvmIndex.pushAll]
    · by_cases hSelf : b.address = ovmETHAddress
      · simp [hZero, hSelf, OvmIndex.pushAll]
      · by_cases hRetain : (b.contract && b.retain) = true
        · simp [hZero, hSelf, hRetain, OvmIndex.pushAll]
        · cases hAccount : b.account with
          | none => simp [hZero, hSelf, hRetain]
          | some a =>
            cases hContract : b.contract <;>
              simp_all [OvmIndex.pushAll, patchAccount, OvmIndex.put]
  · rw [if_neg hAdd, if_neg hAdd]
    rfl

theorem applyBalance_eq_ok_iff {t t' : BalanceState} {b : BalanceJob} :
    applyBalance t b = .ok t' ↔
      t.total.toNat + b.value.toNat < 2 ^ 256 ∧ (b.fate = .migrated → b.account ≠ none) ∧
        t' = t.after b := by
  rw [applyBalance_eq]
  by_cases hAdd : t.total.toNat + b.value.toNat < 2 ^ 256
  · rw [if_pos hAdd]
    by_cases hNil : b.fate = .migrated ∧ b.account = none
    · rw [if_pos hNil]
      simp [hNil.1, hNil.2]
    · rw [if_neg hNil, Except.ok.injEq]
      constructor
      · intro h
        exact ⟨hAdd, fun hFate hNone => hNil ⟨hFate, hNone⟩, h.symm⟩
      · rintro ⟨-, -, h⟩
        exact h.symm
  · rw [if_neg hAdd]
    exact ⟨fun h => (by cases h), fun ⟨h, _⟩ => absurd h hAdd⟩

/-! ## Runs of jobs -/

/-- The token contract's own balance among the jobs. -/
def selfValue (jobs : List BalanceJob) : Nat :=
  ((jobs.filter fun b => b.fate = .self).map fun b => b.value.toNat).sum

/-- What the running sums keep to, with the jobs done so far: each is the exact
sum of its amounts, so none of them has wrapped. -/
structure Conserved (done : List BalanceJob) (t : BalanceState) : Prop where
  total : t.total.toNat = (done.map fun b => b.value.toNat).sum
  moved : t.evidence.migratedNative.toNat = (done.map BalanceJob.moved).sum
  kept  : t.evidence.remainingSupply.toNat = (done.map BalanceJob.kept).sum
  self  : t.evidence.selfBalance.toNat = selfValue done

theorem sum_kept_add_moved (jobs : List BalanceJob) :
    (jobs.map BalanceJob.kept).sum + (jobs.map BalanceJob.moved).sum =
      (jobs.map fun b => b.value.toNat).sum := by
  induction jobs with
  | nil => rfl
  | cons b jobs ih =>
    have hb := b.kept_add_moved
    simp only [List.map_cons, List.sum_cons]
    omega

theorem selfValue_le_kept (jobs : List BalanceJob) :
    selfValue jobs ≤ (jobs.map BalanceJob.kept).sum := by
  induction jobs with
  | nil => exact le_refl _
  | cons b jobs ih =>
    unfold selfValue at ih ⊢
    rw [List.map_cons, List.sum_cons, List.filter_cons]
    split
    · next hSelf =>
      have hKept : b.kept = b.value.toNat := by
        simp only [decide_eq_true_eq] at hSelf
        simp [BalanceJob.kept, hSelf]
      rw [List.map_cons, List.sum_cons, hKept]
      omega
    · omega

theorem selfValue_concat (jobs : List BalanceJob) (b : BalanceJob) :
    selfValue (jobs ++ [b]) = selfValue jobs + if b.fate = .self then b.value.toNat else 0 := by
  unfold selfValue
  rw [List.filter_append, List.map_append, List.sum_append, List.filter_cons]
  by_cases h : b.fate = .self <;> simp [h]

/-- An addition that stays in range does not wrap. -/
theorem toNat_add {x y : U256} (h : x.toNat + y.toNat < 2 ^ 256) :
    (x + y).toNat = x.toNat + y.toNat := by
  rw [BitVec.toNat_add, Nat.mod_eq_of_lt h]

namespace OvmBalanceEvidence

variable {e : OvmBalanceEvidence} {b : BalanceJob}

theorem after_moved (h : e.migratedNative.toNat + b.value.toNat < 2 ^ 256) :
    (e.after b).migratedNative.toNat = e.migratedNative.toNat + b.moved := by
  unfold after BalanceJob.moved
  cases b.fate with
  | zero => rfl
  | self => rfl
  | retained => rfl
  | migrated => cases b.contract <;> exact toNat_add h

theorem after_kept (h : e.remainingSupply.toNat + b.value.toNat < 2 ^ 256) :
    (e.after b).remainingSupply.toNat = e.remainingSupply.toNat + b.kept := by
  unfold after BalanceJob.kept
  cases b.fate with
  | zero => rfl
  | self => exact toNat_add h
  | retained => exact toNat_add h
  | migrated => cases b.contract <;> rfl

theorem after_self :
    (e.after b).selfBalance = if b.fate = .self then b.value else e.selfBalance := by
  unfold after
  cases b.fate with
  | zero => rfl
  | self => rfl
  | retained => rfl
  | migrated => cases b.contract <;> rfl

end OvmBalanceEvidence

namespace Conserved

variable {done : List BalanceJob} {t t' : BalanceState} {b : BalanceJob}

/-- **The sums agree**, as exact integers. -/
theorem total_eq (h : Conserved done t) : t.total.toNat =
    t.evidence.migratedNative.toNat + t.evidence.remainingSupply.toNat := by
  have hSum := sum_kept_add_moved done
  rw [h.total, h.moved, h.kept]
  omega

theorem self_le (h : Conserved done t) :
    t.evidence.selfBalance.toNat ≤ t.evidence.remainingSupply.toNat := by
  rw [h.self, h.kept]
  exact selfValue_le_kept done

theorem init (index : OvmIndex) (supply : U256) : Conserved [] (.init index supply) :=
  ⟨rfl, rfl, rfl, rfl⟩

theorem fate_self_address (h : b.fate = .self) : b.address = ovmETHAddress := by
  unfold BalanceJob.fate at h
  split at h
  · cases h
  · split at h
    · assumption
    · split at h <;> cases h

/-- One job keeps the relation, if its address is new. -/
theorem step (h : Conserved done t) (hNew : ∀ d ∈ done, d.address ≠ b.address)
    (hAdd : t.total.toNat + b.value.toNat < 2 ^ 256) : Conserved (done ++ [b]) (t.after b) := by
  have hTotal := h.total_eq
  refine ⟨?_, ?_, ?_, ?_⟩
  · rw [BalanceState.after, toNat_add hAdd, h.total]
    simp
  · show (t.evidence.after b).migratedNative.toNat = _
    rw [OvmBalanceEvidence.after_moved (by omega), h.moved]
    simp
  · show (t.evidence.after b).remainingSupply.toNat = _
    rw [OvmBalanceEvidence.after_kept (by omega), h.kept]
    simp
  · show (t.evidence.after b).selfBalance.toNat = _
    rw [OvmBalanceEvidence.after_self, selfValue_concat]
    by_cases hSelf : b.fate = .self
    · -- the token contract has not been seen before
      have hNone : selfValue done = 0 := by
        rw [selfValue, List.filter_eq_nil_iff.mpr]
        · rfl
        · intro d hd hFate
          rw [decide_eq_true_eq] at hFate
          exact hNew d hd ((fate_self_address hFate).trans (fate_self_address hSelf).symm)
      rw [if_pos hSelf, if_pos hSelf, hNone, Nat.zero_add]
    · rw [if_neg hSelf, if_neg hSelf, h.self, Nat.add_zero]

end Conserved

/-- **Runs of jobs conserve the balances.** Jobs with addresses that are
distinct from each other and from those done before keep the sums exact. -/
theorem applyBalances_conserved {done jobs : List BalanceJob} {t t' : BalanceState}
    (hDistinct : ((done ++ jobs).map BalanceJob.address).Nodup) (h : Conserved done t)
    (hRun : jobs.foldlM applyBalance t = .ok t') : Conserved (done ++ jobs) t' := by
  induction jobs generalizing done t with
  | nil =>
    rw [foldlM_nil_eq_ok] at hRun
    rwa [List.append_nil, ← hRun]
  | cons b jobs ih =>
    obtain ⟨m, hStep, hRest⟩ := foldlM_cons_eq_ok.mp hRun
    obtain ⟨hAdd, -, rfl⟩ := applyBalance_eq_ok_iff.mp hStep
    have hNew : ∀ d ∈ done, d.address ≠ b.address := by
      intro d hd hEq
      rw [List.map_append, List.nodup_append] at hDistinct
      exact hDistinct.2.2 _ (List.mem_map_of_mem hd) _ List.mem_cons_self hEq
    rw [List.append_cons] at hDistinct ⊢
    exact ih hDistinct (h.step hNew hAdd) hRest

/-- A run from the start. -/
theorem conserved_of_run {jobs : List BalanceJob} {index : OvmIndex} {supply : U256}
    {t : BalanceState} (hDistinct : (jobs.map BalanceJob.address).Nodup)
    (hRun : jobs.foldlM applyBalance (.init index supply) = .ok t) : Conserved jobs t := by
  have hStart : Conserved [] (.init index supply) := .init index supply
  rw [← List.nil_append jobs] at hDistinct ⊢
  exact applyBalances_conserved hDistinct hStart hRun

end L2State
