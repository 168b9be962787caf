import L2State.Ovm.Balances

/-!
# L2State — the audit summary

`ovm_audit.go`: an operator may supply the summary of an earlier audit that
explains why the balances of the token exceed its recorded supply. The summary
must be consistent in itself, match the canonical history at its height and
match what the conversion adds up.

* `auditInteger` — amounts are canonical decimal texts; `auditInteger_eq_ok_iff`
  says which.
* `AuditSummary.validate`, `AuditSummary.Consistent` — the checks on a summary
  and what they establish.
* `AuditSummary.matchAccounting`, `AuditSummary.conversionEvidence`,
  `validateOVMBalances`, `checkAuditHead` — the later checks.
* `audit_acceptance` — they agree with each other.
-/

namespace L2State

open Lib

/-! ## Canonical integers -/

/-- The value of a nonempty list of decimal digits. -/
def digitsValue (ds : List Char) : Option Nat :=
  if ds ≠ [] ∧ ds.all Char.isDigit = true then some (Nat.ofDigitChars 10 ds 0) else none

/-- `big.Int.SetString(s, 10)`. -/
def setString (s : String) : Option Int :=
  match s.toList with
  | '-' :: ds => (digitsValue ds).map fun n => -Int.ofNat n
  | '+' :: ds => (digitsValue ds).map Int.ofNat
  | ds => (digitsValue ds).map Int.ofNat

theorem digitsValue_toDigits (n : Nat) : digitsValue (Nat.toDigits 10 n) = some n := by
  have hDigits : (Nat.toDigits 10 n).all Char.isDigit = true := by
    rw [List.all_eq_true]
    intro c hc
    exact Nat.isDigit_of_mem_toDigits (by decide) (by decide) hc
  rw [digitsValue, if_pos ⟨Nat.toDigits_ne_nil, hDigits⟩, Nat.ofDigitChars_ten_toDigits]

/-- The printed form of an integer is read back. -/
theorem setString_repr (v : Int) : setString v.repr = some v := by
  cases v with
  | ofNat n =>
    have hChars : (Int.repr (.ofNat n)).toList = Nat.toDigits 10 n := by
      show (Nat.repr n).toList = _
      rw [Nat.repr_eq_ofList_toDigits, String.toList_ofList]
    have hHead : ∀ c ∈ (Nat.toDigits 10 n).head?, c.isDigit = true := by
      intro c hc
      exact Nat.isDigit_of_mem_toDigits (by decide) (by decide) (List.mem_of_mem_head? hc)
    rw [setString, hChars]
    -- a digit is no sign
    split
    · next ds hds =>
      rw [hds] at hHead
      exact absurd (hHead '-' rfl) (by decide)
    · next ds hds =>
      rw [hds] at hHead
      exact absurd (hHead '+' rfl) (by decide)
    · rw [digitsValue_toDigits]
      rfl
  | negSucc n =>
    have hChars : (Int.repr (.negSucc n)).toList = '-' :: Nat.toDigits 10 (n + 1) := by
      show ("-" ++ Nat.repr (n + 1)).toList = _
      rw [String.toList_append, Nat.repr_eq_ofList_toDigits, String.toList_ofList]
      simp
    rw [setString, hChars]
    show (digitsValue (Nat.toDigits 10 (n + 1))).map (fun n => -Int.ofNat n) = _
    rw [digitsValue_toDigits]
    rfl

theorem repr_inj {v w : Int} : v.repr = w.repr ↔ v = w := by
  constructor
  · intro h
    have hRead := congrArg setString h
    rwa [setString_repr, setString_repr, Option.some.injEq] at hRead
  · rintro rfl
    rfl

/-- `auditInteger`. -/
def auditInteger (s : String) (unsigned : Bool) : Except Err Int :=
  match setString s with
  | some v =>
    if v.repr = s ∧ (unsigned = true → 0 ≤ v ∧ v < 2 ^ 256) then .ok v
    else .error (.msg "invalid OVM audit integer %q" [.text s])
  | none => .error (.msg "invalid OVM audit integer %q" [.text s])

/-- Only the printed form of an integer is accepted. -/
theorem auditInteger_eq_ok_iff {s : String} {unsigned : Bool} {v : Int} :
    auditInteger s unsigned = .ok v ↔ s = v.repr ∧ (unsigned = true → 0 ≤ v ∧ v < 2 ^ 256) := by
  unfold auditInteger
  constructor
  · intro h
    split at h
    · split at h
      · next hCanonical =>
        obtain rfl := Except.ok.inj h
        exact ⟨hCanonical.1.symm, hCanonical.2⟩
      · cases h
    · cases h
  · rintro ⟨rfl, hRange⟩
    rw [setString_repr]
    exact if_pos ⟨rfl, hRange⟩

/-! ## Summaries -/

/-- The fields of `ovmAuditIdentity` that are checked. -/
structure AuditIdentity where
  version     : Int
  genesis     : Hash
  configHash  : Hash
  witnessHash : Hash
  to_         : UInt64
  toHash      : Hash
deriving DecidableEq

/-- `ovmAuditScan`. -/
structure AuditScan where
  root         : Hash
  codeHash     : Hash
  balanceSlots : UInt64
  balances     : String
  supply       : String
  difference   : String
deriving DecidableEq

/-- `ovmAuditDelta`. -/
structure AuditDelta where
  balance     : String
  supply      : String
  difference  : String
  gas         : String
  suicide     : String
  unexplained : String
deriving DecidableEq

/-- `ovmAuditSummary`, without the flag that nothing reads. -/
structure AuditSummary where
  version                      : Int
  identity                     : AuditIdentity
  clientVersion                : String
  from_                        : UInt64
  verifiedBlocks               : UInt64
  genesis                      : AuditScan
  target                       : AuditScan
  totals                       : AuditDelta
  executionVerified            : Bool
  accountingReconciled         : Bool
  intervalCausesFullyExplained : Bool
  unexplainedEvents            : UInt64
  genesisDifferenceExplained   : Bool
  previousDiagnosisDifference  : Option String
deriving DecidableEq

/-- The arithmetic of one scan. -/
def AuditScan.check (scan : AuditScan) : Except Err Unit := do
  let b ← auditInteger scan.balances true
  let s ← auditInteger scan.supply true
  let d ← auditInteger scan.difference false
  require (b - s = d) (.msg "OVM audit scan arithmetic mismatch" [])

/-- The arithmetic of one change. The first two amounts have been checked as
part of their scans. -/
def checkDelta (before after delta : String) : Except Err Unit := do
  let b ← auditInteger before false
  let a ← auditInteger after false
  let d ← auditInteger delta false
  require (a - b = d) (.msg "OVM audit cumulative arithmetic mismatch" [])

namespace AuditSummary

variable (a : AuditSummary)

/-- The hashes that must not be empty. -/
def hashes : List Hash :=
  [a.identity.genesis, a.identity.toHash, a.identity.configHash, a.identity.witnessHash,
    a.genesis.root, a.genesis.codeHash, a.target.root, a.target.codeHash]

/-- `validate`. -/
def validate : Except Err Unit := do
  require (a.version = 1 ∧ a.identity.version = 1) (.msg "unsupported OVM audit version" [])
  require (a.clientVersion ≠ "" ∧ a.from_ = 1 ∧ a.identity.to_ ≠ 0 ∧
      a.verifiedBlocks = a.identity.to_)
    (.msg "incomplete OVM audit coverage or provenance" [])
  require (zeroHash ∉ a.hashes) (.msg "empty OVM audit hash" [])
  require (a.executionVerified = true ∧ a.accountingReconciled = true ∧
      a.intervalCausesFullyExplained = true ∧ a.genesisDifferenceExplained = true ∧
      a.unexplainedEvents = 0 ∧ a.totals.unexplained = "0" ∧ a.genesis.difference = "0")
    (.msg "OVM audit causes are not fully explained" [])
  a.genesis.check
  a.target.check
  checkDelta a.genesis.balances a.target.balances a.totals.balance
  checkDelta a.genesis.supply a.target.supply a.totals.supply
  checkDelta a.genesis.difference a.target.difference a.totals.difference
  let gas ← auditInteger a.totals.gas false
  let suicide ← auditInteger a.totals.suicide false
  require (0 ≤ gas ∧ 0 ≤ suicide ∧ (gas + suicide).repr = a.totals.difference)
    (.msg "OVM audit cause arithmetic mismatch" [])
  match a.previousDiagnosisDifference with
  | none => return ()
  | some s => do
    let _ ← auditInteger s false
    return ()

/-- `matchHead`. -/
def matchHead (head : Head) : Except Err Unit := do
  require (a.identity.to_ ≤ head.blockNumber) (.msg "OVM audit target is ahead of source head" [])
  require (a.identity.to_ = head.blockNumber →
      a.identity.toHash = head.blockHash ∧ a.target.root = head.stateRoot)
    (.msg "OVM audit target does not match source head" [])

/-- One comparison of `matchAccounting`: a name and two printed values. -/
structure Comparison where
  name     : String
  expected : ErrArg
  actual   : ErrArg

/-- The comparisons of `matchAccounting`. Hashes and counters print
injectively, so they are compared as values. -/
def comparisons (height : UInt64) (code : Hash) (slots : UInt64) (balances supply : U256) :
    List Comparison :=
  [⟨"ovmCodeHash", .hash a.target.codeHash, .hash code⟩,
    ⟨"differenceWei", .text a.target.difference,
      .text (Int.repr ((balances.toNat : Int) - supply.toNat))⟩] ++
  if a.identity.to_ = height then
    [⟨"balanceSlots", .num a.target.balanceSlots.toNat, .num slots.toNat⟩,
      ⟨"balancesWei", .text a.target.balances, .text (Nat.repr balances.toNat)⟩,
      ⟨"supplyWei", .text a.target.supply, .text (Nat.repr supply.toNat)⟩]
  else []

/-- `matchAccounting`. -/
def matchAccounting (height : UInt64) (code : Hash) (slots : UInt64) (balances supply : U256) :
    Except Err Unit := do
  require (a.identity.to_ ≤ height) (.msg "OVM audit target is ahead of source accounting" [])
  (a.comparisons height code slots balances supply).forM fun c =>
    require (c.expected = c.actual)
      (.msg "OVM audit target %s mismatch: summary %s, source %s"
        [.text c.name, c.expected, c.actual])

end AuditSummary

/-- `OVMAuditEvidence`. -/
structure AuditEvidence where
  fileSHA256       : Hash
  balanceSum       : U256
  supplyDifference : String
  auditHead        : Option Head
deriving DecidableEq

/-- `conversionEvidence`. -/
def AuditSummary.conversionEvidence (a : AuditSummary) (digest : Hash) (head : Head)
    (balances : OvmBalanceEvidence) : Except Err AuditEvidence := do
  a.matchHead head
  require (balances.migratedNative.toNat + balances.remainingSupply.toNat < 2 ^ 256)
    (.msg "OVM converted balance sum overflows uint256" [])
  let sum := balances.migratedNative + balances.remainingSupply
  let difference := Int.repr ((sum.toNat : Int) - balances.originalSupply.toNat)
  require (difference = a.target.difference)
    (.msg "OVM conversion difference does not match audit" [])
  return {
    fileSHA256 := digest
    balanceSum := sum
    supplyDifference := difference
    auditHead := if a.identity.to_ < head.blockNumber
      then some ⟨a.identity.to_, a.identity.toHash, a.target.root⟩ else none }

/-- The sum that the balances of a report must add up to. -/
def expectedSum (b : OvmBalanceEvidence) : Option AuditEvidence → Except Err U256
  | none => return b.originalSupply
  | some e => do
    let delta ← auditInteger e.supplyDifference false
    require (e.fileSHA256 ≠ zeroHash ∧ 0 ≤ delta ∧
        (e.balanceSum.toNat : Int) - b.originalSupply.toNat = delta)
      (.msg "OVM audit report accounting mismatch" [])
    return e.balanceSum

/-- `validateOVMBalances`. -/
def validateOVMBalances (b : OvmBalanceEvidence) (audit : Option AuditEvidence) :
    Except Err Unit := do
  let expected ← expectedSum b audit
  require (b.migratedNative.toNat + b.remainingSupply.toNat < 2 ^ 256 ∧
      b.migratedNative + b.remainingSupply = expected ∧
      b.selfBalance.toNat ≤ b.remainingSupply.toNat)
    (.msg "OVM report balance conservation mismatch" [])

/-- The checks of `OVMVerificationReport.Validate` on the audit head. -/
def checkAuditHead (source : Head) (audit : Option AuditEvidence) : Except Err Unit :=
  match audit.bind AuditEvidence.auditHead with
  | none => .ok ()
  | some head =>
    require (head.blockNumber ≠ 0 ∧ head.blockNumber < source.blockNumber ∧
        head.blockHash ≠ zeroHash ∧ head.stateRoot ≠ zeroHash)
      (.msg "OVM audit_head must identify an earlier nonzero canonical block" [])

/-- The reconciliation of `transformOVMState`: against the summary if there is
one, and otherwise against the recorded supply. -/
def reconcileSupply (audit : Option AuditSummary) (height : UInt64) (code : Hash) (slots : UInt64)
    (total supply : U256) : Except Err Unit :=
  match audit with
  | some a => a.matchAccounting height code slots total supply
  | none =>
    require (total = supply)
      (.msg "OVM totalSupply mismatch: balances sum %s, totalSupply %s"
        [.num total.toNat, .num supply.toNat])

/-! ## What a valid summary says -/

/-- What `validate` establishes about the height and the target state. -/
structure AuditSummary.Consistent (a : AuditSummary) : Prop where
  height : a.identity.to_ ≠ 0
  hashes : zeroHash ∉ a.hashes
  target : ∃ b s : Int, a.target.balances = b.repr ∧ a.target.supply = s.repr ∧
    a.target.difference = (b - s).repr ∧ 0 ≤ b - s

theorem AuditScan.check_eq_ok {scan : AuditScan} (h : scan.check = .ok ()) :
    ∃ b s : Int, scan.balances = b.repr ∧ scan.supply = s.repr ∧
      scan.difference = (b - s).repr := by
  unfold check at h
  obtain ⟨b, hb, h⟩ := bind_eq_ok.mp h
  obtain ⟨s, hs, h⟩ := bind_eq_ok.mp h
  obtain ⟨d, hd, h⟩ := bind_eq_ok.mp h
  rw [require_eq_ok] at h
  subst h
  exact ⟨b, s, (auditInteger_eq_ok_iff.mp hb).1, (auditInteger_eq_ok_iff.mp hs).1,
    (auditInteger_eq_ok_iff.mp hd).1⟩

theorem checkDelta_eq_ok {before after delta : String} {b a : Int}
    (h : checkDelta before after delta = .ok ()) (hBefore : before = b.repr)
    (hAfter : after = a.repr) : delta = (a - b).repr := by
  unfold checkDelta at h
  obtain ⟨b', hb, h⟩ := bind_eq_ok.mp h
  obtain ⟨a', ha, h⟩ := bind_eq_ok.mp h
  obtain ⟨d, hd, h⟩ := bind_eq_ok.mp h
  rw [require_eq_ok] at h
  have hb' := (auditInteger_eq_ok_iff.mp hb).1
  have ha' := (auditInteger_eq_ok_iff.mp ha).1
  rw [hBefore, repr_inj] at hb'
  rw [hAfter, repr_inj] at ha'
  rw [(auditInteger_eq_ok_iff.mp hd).1, ← h, hb', ha']

variable {a : AuditSummary} {e : OvmBalanceEvidence}

/-- **A valid summary is consistent**: its target difference is the sum of its
two causes, so it is not negative. -/
theorem AuditSummary.consistent_of_validate (h : a.validate = .ok ()) :
    a.Consistent := by
  unfold validate at h
  obtain ⟨-, -, h⟩ := bind_eq_ok.mp h
  obtain ⟨⟨⟩, hCoverage, h⟩ := bind_eq_ok.mp h
  obtain ⟨⟨⟩, hHashes, h⟩ := bind_eq_ok.mp h
  obtain ⟨⟨⟩, hExplained, h⟩ := bind_eq_ok.mp h
  obtain ⟨⟨⟩, hGenesis, h⟩ := bind_eq_ok.mp h
  obtain ⟨⟨⟩, hTarget, h⟩ := bind_eq_ok.mp h
  obtain ⟨-, -, h⟩ := bind_eq_ok.mp h
  obtain ⟨-, -, h⟩ := bind_eq_ok.mp h
  obtain ⟨⟨⟩, hDelta, h⟩ := bind_eq_ok.mp h
  obtain ⟨gas, -, h⟩ := bind_eq_ok.mp h
  obtain ⟨suicide, -, h⟩ := bind_eq_ok.mp h
  obtain ⟨⟨⟩, hCauses, -⟩ := bind_eq_ok.mp h
  rw [require_eq_ok] at hCoverage hHashes hExplained hCauses
  obtain ⟨b, s, hBalances, hSupply, hDifference⟩ := AuditScan.check_eq_ok hTarget
  -- the difference at the start is zero, so the total change is the target difference
  have hStart : a.genesis.difference = (0 : Int).repr := hExplained.2.2.2.2.2.2
  have hTotal := checkDelta_eq_ok hDelta hStart hDifference
  have hSum : gas + suicide = b - s := by
    have hEq := hCauses.2.2.trans hTotal
    rw [repr_inj] at hEq
    omega
  exact ⟨hCoverage.2.2.1, hHashes, b, s, hBalances, hSupply, hDifference, by omega⟩

theorem AuditSummary.Consistent.toHash_ne (h : a.Consistent) :
    a.identity.toHash ≠ zeroHash := by
  intro hEq
  exact h.hashes (by simp [AuditSummary.hashes, hEq])

theorem AuditSummary.Consistent.targetRoot_ne (h : a.Consistent) :
    a.target.root ≠ zeroHash := by
  intro hEq
  exact h.hashes (by simp [AuditSummary.hashes, hEq])

theorem forM_require_eq_ok {α : Type} {xs : List α} {p : α → Prop} [DecidablePred p] {e : α → Err} :
    (xs.forM fun x => require (p x) (e x)) = .ok () ↔ ∀ x ∈ xs, p x := by
  induction xs with
  | nil => simp
  | cons x xs ih =>
    show (require (p x) (e x) >>= fun _ => xs.forM fun x => require (p x) (e x)) = .ok () ↔ _
    rw [bind_eq_ok, List.forall_mem_cons]
    simp only [require_eq_ok, exists_const, ih]

/-- The printed amount of a summary is the printed form of `n`. -/
theorem setString_eq_iff {s : String} {v : Int} (h : s = v.repr) (w : Int) :
    setString s = some w ↔ s = w.repr := by
  rw [h, setString_repr, Option.some.injEq, repr_inj]

/-- **`matchAccounting`** compares the code hash and the difference, and at
the height of the summary also the amounts behind it. -/
theorem AuditSummary.matchAccounting_eq_ok_iff (h : a.Consistent) {height : UInt64}
    (hHeight : a.identity.to_ ≤ height) {code : Hash} {slots : UInt64} {balances supply : U256} :
    a.matchAccounting height code slots balances supply = .ok () ↔
      code = a.target.codeHash ∧
      setString a.target.difference = some ((balances.toNat : Int) - supply.toNat) ∧
      (a.identity.to_ = height → slots = a.target.balanceSlots ∧
        setString a.target.balances = some (balances.toNat : Int) ∧
        setString a.target.supply = some (supply.toNat : Int)) := by
  obtain ⟨b, s, hBalances, hSupply, hDifference, -⟩ := h.target
  rw [setString_eq_iff hDifference, setString_eq_iff hBalances, setString_eq_iff hSupply]
  unfold matchAccounting
  rw [require_true hHeight, ok_bind, forM_require_eq_ok]
  have hNat : ∀ n : Nat, Int.repr n = Nat.repr n := fun _ => rfl
  by_cases hAt : a.identity.to_ = height
  · simp [comparisons, hAt, eq_comm, UInt64.toNat_inj, hNat]
  · simp [comparisons, hAt, eq_comm]

/-- The sum of a balance evidence, when it is exact. -/
theorem OvmBalanceEvidence.sum_eq {total : U256}
    (h : total.toNat = e.migratedNative.toNat + e.remainingSupply.toNat) :
    e.migratedNative + e.remainingSupply = total := by
  refine BitVec.eq_of_toNat_eq ?_
  rw [toNat_add (by have := total.isLt; omega), h]

/-- **The evidence of an accepted accounting.** -/
theorem AuditSummary.conversionEvidence_of_accounting (h : a.Consistent) {head : Head}
    (hHead : a.matchHead head = .ok ()) {code : Hash} {slots : UInt64} {total : U256}
    (hMatch : a.matchAccounting head.blockNumber code slots total e.originalSupply = .ok ())
    (hSum : total.toNat = e.migratedNative.toNat + e.remainingSupply.toNat) (digest : Hash) :
    e.originalSupply.toNat ≤ total.toNat ∧
      a.conversionEvidence digest head e = .ok {
        fileSHA256 := digest
        balanceSum := total
        supplyDifference := Int.repr ((total.toNat : Int) - e.originalSupply.toNat)
        auditHead := if a.identity.to_ < head.blockNumber
          then some ⟨a.identity.to_, a.identity.toHash, a.target.root⟩ else none } := by
  have hHeight : a.identity.to_ ≤ head.blockNumber := by
    obtain ⟨⟨⟩, hLe, -⟩ := bind_eq_ok.mp hHead
    exact require_eq_ok.mp hLe
  obtain ⟨-, hDiff, -⟩ := (a.matchAccounting_eq_ok_iff h hHeight).mp hMatch
  obtain ⟨b, s, -, -, hTarget, hNonneg⟩ := h.target
  rw [setString_eq_iff hTarget] at hDiff
  have hValue : b - s = (total.toNat : Int) - e.originalSupply.toNat :=
    repr_inj.mp (hTarget.symm.trans hDiff)
  refine ⟨by omega, ?_⟩
  unfold conversionEvidence
  rw [hHead, ok_bind, require_true (by have := total.isLt; omega), ok_bind,
    OvmBalanceEvidence.sum_eq hSum]
  dsimp only
  rw [require_true hDiff.symm]
  rfl

/-- The resulting evidence passes the checks of the report, if the token
contract's own balance is part of the remaining supply. -/
theorem validateOVMBalances_of_accounting {total : U256} {digest : Hash} {auditHead : Option Head}
    (hSum : total.toNat = e.migratedNative.toNat + e.remainingSupply.toNat)
    (hLe : e.originalSupply.toNat ≤ total.toNat) (hDigest : digest ≠ zeroHash) :
    validateOVMBalances e (some ⟨digest, total,
      Int.repr ((total.toNat : Int) - e.originalSupply.toNat), auditHead⟩) = .ok () ↔
      e.selfBalance.toNat ≤ e.remainingSupply.toNat := by
  have hInteger : auditInteger (Int.repr ((total.toNat : Int) - e.originalSupply.toNat)) false =
      .ok ((total.toNat : Int) - e.originalSupply.toNat) :=
    auditInteger_eq_ok_iff.mpr ⟨rfl, by simp⟩
  have hRange : e.migratedNative.toNat + e.remainingSupply.toNat < 2 ^ 256 := by
    have := total.isLt
    omega
  rw [validateOVMBalances, expectedSum, hInteger, ok_bind,
    require_true ⟨hDigest, by omega, rfl⟩, ok_bind, pure_eq_ok, ok_bind, require_eq_ok]
  exact ⟨fun h => h.2.2, fun h => ⟨hRange, OvmBalanceEvidence.sum_eq hSum, h⟩⟩

theorem checkAuditHead_of_consistent (h : a.Consistent) (head : Head) (digest : Hash) (total : U256)
    (difference : String) :
    checkAuditHead head (some ⟨digest, total, difference,
      if a.identity.to_ < head.blockNumber
        then some ⟨a.identity.to_, a.identity.toHash, a.target.root⟩ else none⟩) = .ok () := by
  unfold checkAuditHead
  by_cases hLt : a.identity.to_ < head.blockNumber
  · rw [if_pos hLt]
    exact require_true ⟨h.height, hLt, h.toHash_ne, h.targetRoot_ne⟩
  · rw [if_neg hLt]
    rfl

/-- **Audit acceptance is consistent and exact.** For a valid summary and a
head that it matches, the accounting is accepted exactly when it agrees with
the summary, and the report that follows from an accepted accounting passes
its own checks. SHA-256 is taken not to return the zero digest. -/
theorem audit_acceptance (a : AuditSummary) (head : Head) (hValid : a.validate = .ok ())
    (hHead : a.matchHead head = .ok ()) :
    -- which accountings are accepted
    (∀ code slots total supply,
      reconcileSupply (some a) head.blockNumber code slots total supply = .ok () ↔
        code = a.target.codeHash ∧
        setString a.target.difference = some ((total.toNat : Int) - supply.toNat) ∧
        (a.identity.to_ = head.blockNumber → slots = a.target.balanceSlots ∧
          setString a.target.balances = some (total.toNat : Int) ∧
          setString a.target.supply = some (supply.toNat : Int))) ∧
    -- what follows for the report
    (∀ code slots total (e : OvmBalanceEvidence) digest, digest ≠ zeroHash →
      reconcileSupply (some a) head.blockNumber code slots total e.originalSupply = .ok () →
      total.toNat = e.migratedNative.toNat + e.remainingSupply.toNat →
      0 ≤ (total.toNat : Int) - e.originalSupply.toNat ∧
      ∃ evidence, a.conversionEvidence digest head e = .ok evidence ∧
        (evidence.auditHead.isSome ↔ a.identity.to_ < head.blockNumber) ∧
        checkAuditHead head (some evidence) = .ok () ∧
        (validateOVMBalances e (some evidence) = .ok () ↔
          e.selfBalance.toNat ≤ e.remainingSupply.toNat)) ∧
    -- the amounts of a run of balance jobs are such amounts
    (∀ (jobs : List BalanceJob) index supply (t : BalanceState) code slots digest,
      digest ≠ zeroHash → (jobs.map BalanceJob.address).Nodup →
      jobs.foldlM applyBalance (.init index supply) = .ok t →
      reconcileSupply (some a) head.blockNumber code slots t.total t.evidence.originalSupply =
        .ok () →
      ∃ evidence, a.conversionEvidence digest head t.evidence = .ok evidence ∧
        validateOVMBalances t.evidence (some evidence) = .ok ()) ∧
    -- without a summary
    ∀ height code slots total supply,
      reconcileSupply none height code slots total supply = .ok () ↔ total = supply := by
  have hConsistent := AuditSummary.consistent_of_validate hValid
  have hHeight : a.identity.to_ ≤ head.blockNumber := by
    obtain ⟨⟨⟩, hLe, -⟩ := bind_eq_ok.mp hHead
    exact require_eq_ok.mp hLe
  refine ⟨fun code slots total supply => a.matchAccounting_eq_ok_iff hConsistent hHeight, ?_, ?_,
    fun height code slots total supply => require_eq_ok⟩
  · intro code slots total e digest hDigest hMatch hSum
    obtain ⟨hLe, hEvidence⟩ :=
      AuditSummary.conversionEvidence_of_accounting hConsistent hHead hMatch hSum digest
    refine ⟨by omega, _, hEvidence, ?_, checkAuditHead_of_consistent hConsistent head digest _ _,
      validateOVMBalances_of_accounting hSum hLe hDigest⟩
    by_cases hLt : a.identity.to_ < head.blockNumber <;> simp [hLt]
  · intro jobs index supply t code slots digest hDigest hDistinct hRun hMatch
    have hConserved := conserved_of_run hDistinct hRun
    obtain ⟨hLe, hEvidence⟩ := AuditSummary.conversionEvidence_of_accounting hConsistent hHead
      hMatch hConserved.total_eq digest
    exact ⟨_, hEvidence, (validateOVMBalances_of_accounting hConserved.total_eq hLe hDigest).mpr
      hConserved.self_le⟩

/-- A summary at height 1 that explains a difference of 2. -/
def sampleSummary : AuditSummary where
  version := 1
  identity := ⟨1, hashOfNat 1, hashOfNat 2, hashOfNat 3, 1, hashOfNat 4⟩
  clientVersion := "v1"
  from_ := 1
  verifiedBlocks := 1
  genesis := ⟨hashOfNat 5, hashOfNat 6, 0, "0", "0", "0"⟩
  target := ⟨hashOfNat 7, hashOfNat 8, 1, "7", "5", "2"⟩
  totals := ⟨"7", "5", "2", "2", "0", "0"⟩
  executionVerified := true
  accountingReconciled := true
  intervalCausesFullyExplained := true
  unexplainedEvents := 0
  genesisDifferenceExplained := true
  previousDiagnosisDifference := none

/-- A later head, and the amounts of one converted holder. -/
def sampleAuditHead : Head := ⟨2, hashOfNat 9, hashOfNat 10⟩

def sampleAmounts : OvmBalanceEvidence := ⟨5, 7, 0, 1, 0, 0, 0⟩

theorem audit_acceptance_sample :
    sampleSummary.validate = .ok () ∧ sampleSummary.matchHead sampleAuditHead = .ok () ∧
      ∃ evidence, sampleSummary.conversionEvidence (hashOfNat 11) sampleAuditHead sampleAmounts =
          .ok evidence ∧ evidence.auditHead.isSome ∧
        checkAuditHead sampleAuditHead (some evidence) = .ok () ∧
        validateOVMBalances sampleAmounts (some evidence) = .ok () := by
  have hValid : sampleSummary.validate = .ok () := by decide +kernel
  have hHead : sampleSummary.matchHead sampleAuditHead = .ok () := by decide +kernel
  obtain ⟨-, hEvidence, -⟩ := audit_acceptance sampleSummary sampleAuditHead hValid hHead
  obtain ⟨-, evidence, hConversion, hSome, hChecked, hBalances⟩ :=
    hEvidence (hashOfNat 8) 1 7 sampleAmounts (hashOfNat 11) (by decide +kernel)
      (by decide +kernel) (by decide +kernel)
  exact ⟨hValid, hHead, evidence, hConversion, hSome.mpr (by decide +kernel), hChecked,
    hBalances.mpr (by decide +kernel)⟩

end L2State
