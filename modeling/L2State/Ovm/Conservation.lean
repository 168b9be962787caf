import L2State.Ovm.Conversion

/-!
# L2State — conservation of the token's value

The three running sums of the conversion are exact integers, and so are the
sums over the two states: what the holders have in the source is what all
accounts have in the converted state.

* `tokenSum`, `nativeSum` — the token balances and the native balances of a
  state, summed over all addresses and all accounts.
* `checkConservation_of_conserved` — the two checks on the sums never fail.
* `ovm_value_conserved` — the whole statement.
-/

namespace L2State

open Lib

/-! ## Sums over a state -/

/-- The token balance of an address. -/
def tokenBalance (g : Geth) (storage : History) (a : Address) : U256 :=
  amountOf (valueAt storage (balanceKey g a).bytes)

/-- The token balances of all addresses. -/
noncomputable def tokenSum (g : Geth) (storage : History) : Nat :=
  ∑ᶠ a : Address, (tokenBalance g storage a).toNat

/-- The native balance of an account. -/
def nativeBalance (accounts : History) (hash : Hash) : U256 :=
  match decodeLeaf hash (valueAt accounts hash.bytes) with
  | .ok account => account.balance
  | .error _ => 0

/-- The native balances of all accounts. -/
noncomputable def nativeSum (accounts : History) : Nat :=
  ∑ᶠ hash : Hash, (nativeBalance accounts hash).toNat

theorem amountOf_encodeAmount (v : U256) : amountOf (encodeAmount v) = v := by
  rw [amountOf, decodeOVMValue_eq_ok.mpr rfl]

/-- A sum over a type that only the elements `f x`, for `x` in a list, add to. -/
theorem finsum_eq_sum_map {α β : Type} [DecidableEq β] {l : List α} {f : α → β} {w : β → Nat}
    (hNodup : (l.map f).Nodup) (hSupport : ∀ b, w b ≠ 0 → b ∈ l.map f) :
    ∑ᶠ b, w b = (l.map fun a => w (f a)).sum := by
  rw [finsum_eq_sum_of_support_subset w (s := (l.map f).toFinset), List.sum_toFinset w hNodup,
    List.map_map]
  · rfl
  · intro b hb
    simpa using hSupport b hb

/-- The leaf of an account decodes to it. -/
theorem decodeLeaf_encode (hash : Hash) {a : StateAccount} (h : a.codeHash.length = 32) :
    decodeLeaf hash (encodeStateAccount a) = .ok a := by
  rw [decodeLeaf, if_neg fun hNil => encodeStateAccount_ne_nil _ (List.length_eq_zero_iff.mp hNil)]
  exact decodeFullAccount_eq_ok.mpr ⟨rfl, h⟩

theorem codeHash_length_of_decodeLeaf {hash : Hash} {blob : Bytes} {a : StateAccount}
    (h : decodeLeaf hash blob = .ok a) : a.codeHash.length = 32 := by
  unfold decodeLeaf at h
  split at h
  · obtain rfl := Except.ok.inj h
    exact emptyCodeHash.length_bytes
  · exact (decodeFullAccount_eq_ok.mp h).2

/-! ## The running sums -/

variable {b : BalanceJob}

/-- The jobs whose balance becomes native. -/
def migratedJobs (jobs : List BalanceJob) : List BalanceJob :=
  jobs.filter fun b => b.fate = .migrated

theorem mem_migratedJobs {jobs : List BalanceJob} :
    b ∈ migratedJobs jobs ↔ b ∈ jobs ∧ b.fate = .migrated := by
  simp [migratedJobs]

theorem sum_migratedJobs (jobs : List BalanceJob) :
    ((migratedJobs jobs).map fun b => b.value.toNat).sum = (jobs.map BalanceJob.moved).sum := by
  induction jobs with
  | nil => rfl
  | cons b jobs ih =>
    rw [List.map_cons, List.sum_cons, ← ih, migratedJobs, List.filter_cons]
    unfold BalanceJob.moved
    cases hFate : b.fate <;> simp [migratedJobs]

/-- The jobs of the pipeline have distinct addresses. -/
theorem addresses_nodup {x : BalanceInputs} {db : Store} {xs : List (Bytes × Bytes)}
    {jobs : List BalanceJob} (hOrder : xs.Pairwise fun a b => a.1 < b.1)
    (hJobs : xs.mapM (inspectedRecord x db) = .ok jobs) : (jobs.map BalanceJob.address).Nodup := by
  have hSorted := jobs_pairwise hOrder hJobs
  have hHash : ∀ b ∈ jobs, b.hash = accountKey x.geth b.address := by
    intro b hb
    obtain ⟨e, -, he⟩ := (mapM_eq_ok_mem hJobs).1 b hb
    exact (hash_of_inspectedRecord he).2
  rw [List.Nodup, List.pairwise_map]
  refine hSorted.imp_of_mem fun {b b'} hb hb' hlt hEq => ?_
  -- equal addresses would have equal hashes
  rw [hHash b hb, hHash b' hb', hEq] at hlt
  exact lt_irrefl _ hlt

/-- **The two checks on the sums never fail.** -/
theorem checkConservation_of_conserved {jobs : List BalanceJob} {t : BalanceState}
    (h : Conserved jobs t) : checkConservation t = .ok () := by
  have hTotal := h.total_eq
  have hSub : t.total - t.evidence.migratedNative = t.evidence.remainingSupply := by
    refine BitVec.eq_of_toNat_eq ?_
    rw [BitVec.toNat_sub_of_le (BitVec.le_def.mpr (by omega))]
    omega
  unfold checkConservation
  rw [require_true (by omega), ok_bind, require_true hSub]

/-! ## The sums of a conversion -/

namespace Conversion

variable {y : TransformInputs} {index : OvmIndex} {accounts storage : History} {c : Stages}
  {out : Transformed}

section Sums

variable (h : Conversion y index accounts storage c out)

include h

theorem conserved : Conserved c.jobs c.applied :=
  conserved_of_run (addresses_nodup (Store.under_pairwise _ _) h.inspected) h.applied

/-- Without an audit the balances must add up to the supply. -/
theorem total_of_no_audit (hAudit : y.audit = none) : c.applied.total = c.supply := by
  obtain ⟨⟨⟩, hSupply, -⟩ := bind_eq_ok.mp h.reconciled
  rw [hAudit] at hSupply
  exact require_eq_ok.mp hSupply

theorem supply_slot (hStorage : ∀ token, readToken y = .ok token →
    y.tries.Holds (ovmOwner y.geth) token.root storage) :
    amountOf (valueAt storage (numberedKey y.geth 2).bytes) = c.supply := by
  obtain ⟨t, hOpen, hk⟩ := bind_eq_ok.mp h.supplyRead
  obtain ⟨blob, hGet, hDecode⟩ := bind_eq_ok.mp hk
  rw [(hStorage c.token h.tokenRead t hOpen).get _ _ hGet] at hDecode
  rw [amountOf]
  exact hDecode ▸ rfl

variable (hEvidence : IsEvidence y.geth index) (hApart : SlotsApart y.geth index)
  (hSlots : Increasing storage)

include hEvidence hApart hSlots

/-- An address with a token balance has a job. -/
theorem mem_addresses {a : Address} (ha : tokenBalance y.geth storage a ≠ 0) :
    a ∈ c.jobs.map BalanceJob.address := by
  have hNe : valueAt storage (balanceKey y.geth a).bytes ≠ [] := by
    intro hNil
    rw [tokenBalance, hNil] at ha
    exact ha rfl
  have hMem := mem_of_valueAt_ne_nil hSlots hNe
  have hAmount := decodeOVMValue_eq_ok.mp (h.claimed _ hMem).amount
  simp only at hAmount
  rw [hAmount] at hMem
  obtain ⟨b, hb, hAddress, -⟩ := h.exists_job hEvidence hApart hSlots hMem
  exact List.mem_map.mpr ⟨b, hb, hAddress⟩

theorem tokenBalance_of_job (hb : b ∈ c.jobs) :
    tokenBalance y.geth storage b.address = b.value := by
  rw [tokenBalance, valueAt_of_mem hSlots (h.holderJob_of_mem hEvidence hApart hSlots hb).leaf,
    amountOf_encodeAmount]

/-- The sum of the source's token balances. -/
theorem tokenSum_before : tokenSum y.geth storage = c.applied.total.toNat := by
  have hNodup := addresses_nodup (Store.under_pairwise _ _) h.inspected
  rw [tokenSum, finsum_eq_sum_map hNodup, h.conserved.total]
  · congr 1
    refine List.map_congr_left fun b hb => ?_
    rw [h.tokenBalance_of_job hEvidence hApart hSlots hb]
  · intro a ha
    refine h.mem_addresses hEvidence hApart hSlots fun hZero => ha ?_
    rw [hZero]
    rfl

/-- The token balance of a job after the conversion. -/
theorem tokenBalance_after (hb : b ∈ c.jobs) :
    (tokenBalance y.geth (slotsAfter y storage c) b.address).toNat = b.kept := by
  rw [tokenBalance, h.slot_of_address hEvidence hApart hSlots hb,
    valueAt_of_mem hSlots (h.holderJob_of_mem hEvidence hApart hSlots hb).leaf]
  unfold BalanceJob.kept
  cases hFate : b.fate with
  | migrated => rfl
  | zero =>
    have hZero : b.value = 0 := by
      unfold BalanceJob.fate at hFate
      split at hFate
      · assumption
      · split at hFate
        · cases hFate
        · split at hFate <;> cases hFate
    rw [if_neg (by decide), amountOf_encodeAmount, hZero]
    rfl
  | self | retained => rw [if_neg (by decide), amountOf_encodeAmount]

/-- The sum of the token balances that remain. -/
theorem tokenSum_after :
    tokenSum y.geth (slotsAfter y storage c) = c.applied.evidence.remainingSupply.toNat := by
  have hNodup := addresses_nodup (Store.under_pairwise _ _) h.inspected
  rw [tokenSum, finsum_eq_sum_map hNodup, h.conserved.kept]
  · congr 1
    exact List.map_congr_left fun b hb => h.tokenBalance_after hEvidence hApart hSlots hb
  · intro a ha
    by_contra hNone
    -- an address without a job has no balance before, and its slot stays
    have hSupply : (balanceKey y.geth a).bytes ≠ (numberedKey y.geth 2).bytes := fun hEq =>
      hApart.known _ (.inl ⟨2, by decide, by decide, rfl⟩) a hEq.symm
    have hKept : valueAt (slotsAfter y storage c) (balanceKey y.geth a).bytes =
        valueAt storage (balanceKey y.geth a).bytes := by
      rw [h.slot_after hEvidence hSlots, if_neg hSupply, if_neg]
      rintro ⟨b, hb, -, hSlot⟩
      rw [(h.holderJob_of_mem hEvidence hApart hSlots hb).slot] at hSlot
      exact hNone (List.mem_map.mpr ⟨b, hb, hApart.balance (FixedBytes.ext hSlot)⟩)
    refine hNone (h.mem_addresses hEvidence hApart hSlots fun hZero => ha ?_)
    rw [tokenBalance, hKept]
    rw [tokenBalance] at hZero
    rw [hZero]
    rfl

variable (hAccounts : y.tries.Holds zeroHash y.root accounts) (hLeaves : Increasing accounts)

include hAccounts hLeaves

/-- The native balance of a migrated holder is its token balance. -/
theorem nativeBalance_of_job (hb : b ∈ c.jobs) (hFate : b.fate = .migrated) :
    nativeBalance (leavesAfter accounts out) b.hash = b.value := by
  have hJob := h.holderJob_of_mem hEvidence hApart hSlots hb
  have hAddress := address_ne_of_migrated hFate
  obtain ⟨account, hRead, -, hAccount, -⟩ :=
    holder_of_fresh hJob.fresh hAddress (value_ne_zero_of_migrated hFate)
  have hLength := codeHash_length_of_decodeLeaf (leaf_of_readOVMAccount hAccounts hRead)
  have hLeaf : decodeLeaf b.hash (encodeStateAccount { account with balance := b.value }) =
      .ok { account with balance := b.value } := decodeLeaf_encode b.hash hLength
  unfold nativeBalance
  rw [hJob.hash, h.account_of_job hEvidence hApart hSlots hLeaves hb hAddress hAccount,
    if_pos hFate, ← hJob.hash, hLeaf]

omit hApart hSlots hEvidence hAccounts in
/-- The native balance of the token is what remains. -/
theorem nativeBalance_of_token :
    nativeBalance (leavesAfter accounts out) (ovmOwner y.geth) =
      c.applied.evidence.remainingSupply := by
  have hLeaf : decodeLeaf (ovmOwner y.geth) (encodeStateAccount
      (tokenAccountAfter y c.token c.storage c.applied.evidence.remainingSupply)) =
      .ok (tokenAccountAfter y c.token c.storage c.applied.evidence.remainingSupply) :=
    decodeLeaf_encode _ (y.geth.keccak y.code).length_bytes
  unfold nativeBalance
  rw [h.account_after hLeaves, if_pos rfl, hLeaf]
  rfl

/-- The sum of the native balances after the conversion. -/
theorem nativeSum_after (hZero : ∀ hash, nativeBalance accounts hash = 0) :
    nativeSum (leavesAfter accounts out) = c.applied.total.toNat := by
  -- the accounts with a native balance are the token and the migrated holders
  have hSorted : ((migratedJobs c.jobs).map BalanceJob.hash).Nodup :=
    List.pairwise_map.mpr ((h.jobs_sorted.filter _).imp fun hlt => ne_of_lt hlt)
  have hToken : ovmOwner y.geth ∉ (migratedJobs c.jobs).map BalanceJob.hash := by
    intro hMem
    obtain ⟨b, hb, hEq⟩ := List.mem_map.mp hMem
    obtain ⟨hb, hFate⟩ := mem_migratedJobs.mp hb
    rw [(h.holderJob_of_mem hEvidence hApart hSlots hb).hash] at hEq
    exact address_ne_of_migrated hFate (hApart.account hEq)
  have hNodup : ((ovmOwner y.geth :: (migratedJobs c.jobs).map BalanceJob.hash).map id).Nodup := by
    rw [List.map_id]
    exact List.nodup_cons.mpr ⟨hToken, hSorted⟩
  rw [nativeSum, finsum_eq_sum_map hNodup]
  · have hMoved : (((migratedJobs c.jobs).map BalanceJob.hash).map fun hash =>
        (nativeBalance (leavesAfter accounts out) (id hash)).toNat).sum =
        (c.jobs.map BalanceJob.moved).sum := by
      rw [← sum_migratedJobs, List.map_map]
      congr 1
      refine List.map_congr_left fun b hb => ?_
      obtain ⟨hb, hFate⟩ := mem_migratedJobs.mp hb
      show (nativeBalance (leavesAfter accounts out) b.hash).toNat = _
      rw [h.nativeBalance_of_job hEvidence hApart hSlots hAccounts hLeaves hb hFate]
    rw [List.map_cons, List.sum_cons, hMoved, ← h.conserved.moved]
    show (nativeBalance (leavesAfter accounts out) (ovmOwner y.geth)).toNat + _ = _
    rw [h.nativeBalance_of_token hLeaves, h.conserved.total_eq, Nat.add_comm]
  · intro hash hNe
    by_contra hNone
    rw [List.map_id, List.mem_cons, not_or] at hNone
    obtain ⟨hOwner, hNoJob⟩ := hNone
    -- any other account is as before
    have hKept : valueAt (leavesAfter accounts out) hash.bytes = valueAt accounts hash.bytes := by
      refine h.account_kept hEvidence hApart hSlots hLeaves
        (fun hEq => hOwner (FixedBytes.ext hEq)) fun b hb hFate hEq => hNoJob ?_
      refine List.mem_map.mpr ⟨b, mem_migratedJobs.mpr ⟨hb, hFate⟩, ?_⟩
      rw [(h.holderJob_of_mem hEvidence hApart hSlots hb).hash]
      exact (FixedBytes.ext hEq).symm
    have hOld := hZero hash
    unfold nativeBalance at hOld hNe
    rw [hKept, hOld] at hNe
    exact hNe rfl

end Sums

end Conversion

/-- **The value is conserved, without wraparound.** After every beginning of a
run of jobs with distinct addresses the sums are exact, and the next job fails
only if the checked sum overflows. So the two later checks on the sums never
fail. If no account has a native balance before the conversion, the native
balances after it add up to the token balances before it, which are the total
supply if there is no audit, and the supply slot afterwards is the sum of the
token balances that remain. -/
theorem ovm_value_conserved :
    (∀ (index : OvmIndex) (supply : U256) (done rest : List BalanceJob) (t : BalanceState),
      ((done ++ rest).map BalanceJob.address).Nodup →
      done.foldlM applyBalance (.init index supply) = .ok t →
      t.total.toNat = t.evidence.migratedNative.toNat + t.evidence.remainingSupply.toNat ∧
      t.evidence.selfBalance.toNat ≤ t.evidence.remainingSupply.toNat ∧
      ∀ b ∈ rest.head?,
        (∀ t', applyBalance t b = .ok t' →
          t'.total.toNat = t.total.toNat + b.value.toNat ∧
          t'.evidence.migratedNative.toNat = t.evidence.migratedNative.toNat + b.moved ∧
          t'.evidence.remainingSupply.toNat = t.evidence.remainingSupply.toNat + b.kept) ∧
        ∀ e, applyBalance t b = .error e →
          (2 ^ 256 ≤ t.total.toNat + b.value.toNat ∧
            e = .msg "OVM balances sum overflows uint256" []) ∨
          (b.fate = .migrated ∧ b.account = none)) ∧
    (∀ (x : BalanceInputs) (root : Hash) (index : OvmIndex) (supply : U256)
      (s s' : BalanceShared x) (tr : List (Event (BalanceCalls x))) (t : BalanceState),
      Exec (balanceObject x) (classifyStorage x root (.init index supply)).run s tr
        (.ret (.ok t)) s' →
      checkConservation t = .ok ()) ∧
    ∀ (y : TransformInputs) (index : OvmIndex) (accounts storage : History) (out : Transformed)
      (tr : List (Event (BalanceCalls y.toBalanceInputs)))
      (s s' : BalanceShared y.toBalanceInputs),
      y.tries.Holds zeroHash y.root accounts →
      (∀ token, readToken y = .ok token → y.tries.Holds (ovmOwner y.geth) token.root storage) →
      IsEvidence y.geth index → SlotsApart y.geth index →
      Exec (balanceObject y.toBalanceInputs) (transformOVMState y index).run s tr
        (.ret (.ok out)) s' →
      (∀ hash, nativeBalance accounts hash = 0) →
      ∃ accounts' storage' token',
        IsTrie y.geth accounts' out.root ∧
        valueAt accounts' (ovmOwner y.geth).bytes = encodeStateAccount token' ∧
        IsTrie y.geth storage' token'.root ∧
        nativeSum accounts' = tokenSum y.geth storage ∧
        (y.audit = none → tokenSum y.geth storage =
          (amountOf (valueAt storage (numberedKey y.geth 2).bytes)).toNat) ∧
        (amountOf (valueAt storage' (numberedKey y.geth 2).bytes)).toNat =
          tokenSum y.geth storage' := by
  refine ⟨?_, ?_, ?_⟩
  · intro index supply done rest t hDistinct hRun
    have hDone : (done.map BalanceJob.address).Nodup := by
      rw [List.map_append] at hDistinct
      exact hDistinct.of_append_left
    have hConserved := conserved_of_run hDone hRun
    have hTotal := hConserved.total_eq
    refine ⟨hTotal, hConserved.self_le, fun b _ => ⟨fun t' hStep => ?_, fun e hError => ?_⟩⟩
    · obtain ⟨hAdd, -, rfl⟩ := applyBalance_eq_ok_iff.mp hStep
      exact ⟨toNat_add hAdd, OvmBalanceEvidence.after_moved (by omega),
        OvmBalanceEvidence.after_kept (by omega)⟩
    · rw [applyBalance_eq] at hError
      split at hError
      · split at hError
        · next hNil => exact .inr hNil
        · cases hError
      · next hAdd => exact .inl ⟨not_lt.mp hAdd, (Except.error.inj hError).symm⟩
  · intro x root index supply s s' tr t hExec
    obtain ⟨hReturns, hRun⟩ := exec_ret_iff.mp hExec
    obtain ⟨slots, index', jobs, u, -, -, hJobs, hFold⟩ :=
      inspected_of_classifyStorage hReturns hRun
    exact checkConservation_of_conserved
      (conserved_of_run (addresses_nodup (Store.under_pairwise _ _) hJobs) hFold)
  · intro y index accounts storage out tr s s' hAccounts hStorage hEvidence hApart hExec hZero
    obtain ⟨hReturns, hRun⟩ := exec_ret_iff.mp hExec
    obtain ⟨c, hConv⟩ := conversion_of_run hAccounts hStorage hReturns hRun
    have hLeaves := hConv.accounts_increasing hAccounts
    have hSlots := hConv.storage_increasing hStorage
    have hToken := hConv.account_after hLeaves (ovmOwner y.geth).bytes
    rw [if_pos rfl] at hToken
    have hSupply := hConv.slot_after hEvidence hSlots (numberedKey y.geth 2).bytes
    rw [if_pos rfl] at hSupply
    refine ⟨leavesAfter accounts out, slotsAfter y storage c, _, hConv.leaves, hToken, hConv.slots,
      ?_, fun hAudit => ?_, ?_⟩
    · rw [hConv.nativeSum_after hEvidence hApart hSlots hAccounts hLeaves hZero,
        hConv.tokenSum_before hEvidence hApart hSlots]
    · rw [hConv.tokenSum_before hEvidence hApart hSlots,
        hConv.total_of_no_audit hAudit, hConv.supply_slot hStorage]
    · rw [hSupply, amountOf_encodeAmount, hConv.tokenSum_after hEvidence hApart hSlots]

/-- The accounts of the sample have no native balance. -/
theorem sampleAccounts_native (hash : Hash) : nativeBalance sampleAccounts hash = 0 := by
  have hLeaf : ∀ a : StateAccount, a.codeHash.length = 32 → a.balance = 0 →
      valueAt sampleAccounts hash.bytes = encodeStateAccount a →
      nativeBalance sampleAccounts hash = 0 := by
    intro a hLength hZero hValue
    rw [nativeBalance, hValue, decodeLeaf_encode hash hLength]
    exact hZero
  rw [sampleAccounts, valueAt, leafAt_cons, leafAt_cons] at hLeaf
  by_cases hFirst : (accountKey layoutGeth (holderAddress 2)).bytes = hash.bytes
  · rw [if_pos hFirst] at hLeaf
    exact hLeaf _ zeroHash.length_bytes rfl rfl
  · rw [if_neg hFirst] at hLeaf
    by_cases hSecond : (ovmOwner layoutGeth).bytes = hash.bytes
    · rw [if_pos hSecond] at hLeaf
      exact hLeaf _ zeroHash.length_bytes rfl rfl
    · -- an absent account
      rw [nativeBalance, sampleAccounts, valueAt, leafAt_cons, leafAt_cons, if_neg hFirst,
        if_neg hSecond]
      rfl

/-- **The sample's value**: 35 in tokens before, 35 in native balances after. -/
theorem ovm_value_sample : ∃ root accounts' storage',
    IsTrie layoutGeth accounts' root ∧ nativeSum accounts' = tokenSum layoutGeth sampleSlots ∧
      tokenSum layoutGeth sampleSlots = 35 ∧
      (amountOf (valueAt storage' (numberedKey layoutGeth 2).bytes)).toNat =
        tokenSum layoutGeth storage' := by
  obtain ⟨-, -, hStates⟩ := ovm_value_conserved
  obtain ⟨out, tr, s, hExec, -⟩ := sample_converts
  obtain ⟨accounts', storage', token', hTrie, -, -, hNative, hSupply, hRemaining⟩ :=
    hStates sampleTransform sampleEvidence sampleAccounts sampleSlots out tr _ s sampleAccounts_hold
      (fun token _ => sampleSlots_hold token.root) sampleEvidence_isEvidence sampleEvidence_apart
      hExec sampleAccounts_native
  have hSum : (amountOf (valueAt sampleSlots (numberedKey layoutGeth 2).bytes)).toNat = 35 := by
    decide +kernel
  exact ⟨out.root, accounts', storage', hTrie, hNative, (hSupply rfl).trans hSum, hRemaining⟩

end L2State
