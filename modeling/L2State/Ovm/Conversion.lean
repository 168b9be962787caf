import L2State.Ovm.Transform

/-!
# L2State — what the conversion does to the state

The results about `transformOVMState` as a function on states. A state is the
list of its account leaves and the list of the token's slots.

The evidence index is one that `ovmIndex.address` and `ovmIndex.allowance`
have filled (`IsEvidence`). The storage layout of the contract rests on hashes
that do not collide, and this is stated for the addresses and for the slots
that the evidence names (`SlotsApart`).

* `holderJob_of_mem`, `exists_job` — the jobs of the pipeline are the balance
  slots of the token.
* `ovm_conversion_pointwise` — **each holder is converted or retained**, and
  nothing else changes but the token's account and supply.
-/

namespace L2State

open Lib

/-! ## The evidence -/

/-- An index that holds only what the input readers write, and no result of an
earlier conversion. The entries `k` are written by `recognizeMetadata` alone, under the
keys that it knows. -/
structure IsEvidence (g : Geth) (index : OvmIndex) : Prop where
  balances   : ∀ k v, index.content.get? (tag 'b' :: k) = some v →
    ∃ a : Address, k = (balanceKey g a).bytes ∧ v = a.bytes
  allowances : ∀ k v, index.content.get? (tag 'a' :: k) = some v →
    ∃ owner spender : Address, k = (ovmStorageHash g (ovmAllowanceSlot g owner spender)).bytes ∧
      v = owner.bytes ++ spender.bytes
  known      : ∀ k v, index.content.get? (tag 'k' :: k) = some v → IsKnownKey g k
  queue      : ∀ k, index.content.get? (tag 'q' :: k) = none
  accounts   : ∀ k, index.content.get? (tag 'p' :: k) = none
  slots      : ∀ k, index.content.get? (tag 's' :: k) = none

/-- The hashes of the layout do not collide: those of addresses, and those of
balance slots with the known slots and with the allowances in the index. -/
structure SlotsApart (g : Geth) (index : OvmIndex) : Prop where
  account   : Function.Injective (accountKey g)
  balance   : Function.Injective (balanceKey g)
  known     : ∀ k, IsKnownKey g k → ∀ a, k ≠ (balanceKey g a).bytes
  allowance : ∀ k v, index.content.get? (tag 'a' :: k) = some v → ∀ a, k ≠ (balanceKey g a).bytes

/-! ## Lookups -/

theorem slotHolder_eq_ok {b a k holder : Option Bytes} (h : slotHolder b a k = .ok holder) :
    holder = b ∧ (b ≠ none → a = none ∧ k = none) ∧ (b = none → a ≠ none ∨ k ≠ none) ∧
      ∀ address ∈ b, address.length = 20 := by
  obtain ⟨⟨⟩, hOne, hMatch⟩ := bind_eq_ok.mp h
  rw [require_eq_ok] at hOne
  cases b with
  | none =>
    obtain rfl := Except.ok.inj hMatch
    refine ⟨rfl, fun hNe => absurd rfl hNe, fun _ => ?_, by simp⟩
    cases a with
    | none =>
      cases k with
      | none => exact absurd hOne (by decide)
      | some k => exact .inr (by simp)
    | some a => exact .inl (by simp)
  | some address =>
    obtain ⟨⟨⟩, hLength, hEq⟩ := bind_eq_ok.mp hMatch
    obtain rfl := Except.ok.inj hEq
    refine ⟨rfl, fun _ => ?_, fun hNone => (by cases hNone), ?_⟩
    · cases a <;> cases k <;> simp_all
    · intro address' hMem
      obtain rfl := Option.some.inj hMem
      exact require_eq_ok.mp hLength

theorem FixedBytes.ofBytes_bytes {n : Nat} (a : FixedBytes n) :
    FixedBytes.ofBytes n a.bytes = a := by
  refine FixedBytes.ext ?_
  simp [FixedBytes.ofBytes, a.length_bytes]

/-- The job in the record of a balance. -/
theorem parse_balanceRecord (g : Geth) (a : Address) (k : Hash) (v : U256) :
    parseBalanceRecord g ((accountKey g a).bytes, balanceRecord a.bytes k.bytes v) =
      .ok ⟨a, k, accountKey g a, v, none, false, false⟩ := by
  have hAddress : (balanceRecord a.bytes k.bytes v).take 20 = a.bytes := by
    rw [balanceRecord, List.append_assoc, List.take_left' a.length_bytes]
  have hRest : (balanceRecord a.bytes k.bytes v).drop 20 = k.bytes ++ toBE 32 v.toNat := by
    rw [balanceRecord, List.append_assoc, List.drop_left' a.length_bytes]
  have hSlot : ((balanceRecord a.bytes k.bytes v).drop 20).take 32 = k.bytes := by
    rw [hRest, List.take_left' k.length_bytes]
  have hValue : (balanceRecord a.bytes k.bytes v).drop 52 = toBE 32 v.toNat := by
    rw [show 52 = 20 + 32 from rfl, ← List.drop_drop, hRest, List.drop_left' k.length_bytes]
  have hLength : (balanceRecord a.bytes k.bytes v).length = 84 := by
    simp [balanceRecord, a.length_bytes, k.length_bytes]
  have hNat : ofBE (toBE 32 v.toNat) = v.toNat := ofBE_toBE (by simpa using v.isLt)
  unfold parseBalanceRecord
  rw [require_true ⟨(accountKey g a).length_bytes, hLength⟩, ok_bind]
  simp only [hAddress, hSlot, hValue, hNat, FixedBytes.ofBytes_bytes]
  rw [require_true trivial, ok_bind, BitVec.ofNat_toNat]
  simp

/-! ## The jobs are the balance slots -/

/-- A job of a balance slot, with what a fresh lookup finds. -/
structure HolderJob (x : BalanceInputs) (db : Store) (storage : History) (b : BalanceJob) :
    Prop where
  slot  : b.slot = balanceKey x.geth b.address
  hash  : b.hash = accountKey x.geth b.address
  leaf  : ((balanceKey x.geth b.address).bytes, encodeAmount b.value) ∈ storage
  fresh : inspectFresh x db b = .ok ⟨b.account, b.contract, b.retain⟩

variable {b : BalanceJob} {k : Bytes}

namespace Conversion

variable {y : TransformInputs} {index : OvmIndex} {accounts storage : History} {c : Stages}
  {out : Transformed}

section Evidence

variable (h : Conversion y index accounts storage c out)

include h

/-- The known slots are the only addition to the evidence. -/
theorem evidence_get {ns : Char} (hns : tag ns ≠ tag 'k') (k : Bytes) :
    c.evidence.get? (tag ns :: k) = index.content.get? (tag ns :: k) := by
  obtain ⟨i, ⟨ops, rfl, hOps⟩, hEq⟩ := h.recognized
  rw [hEq, OvmIndex.content_pushAll]
  apply get?_applyOps_of_untouched
  intro op hop hKey
  obtain ⟨key, v, rfl, -⟩ := hOps op hop
  exact hns (List.cons.inj hKey).1.symm

theorem evidence_known (hEvidence : IsEvidence y.geth index) {v : Bytes}
    (hGet : c.evidence.get? (tag 'k' :: k) = some v) : IsKnownKey y.geth k := by
  obtain ⟨i, ⟨ops, rfl, hOps⟩, hEq⟩ := h.recognized
  rw [hEq, OvmIndex.content_pushAll, get?_applyOps] at hGet
  cases hLast : lastOp ops (tag 'k' :: k) with
  | none =>
    rw [hLast] at hGet
    exact hEvidence.known k v hGet
  | some op =>
    obtain ⟨hMem, hKey⟩ := mem_of_lastOp hLast
    obtain ⟨key, w, rfl, hKnown⟩ := hOps op hMem
    obtain ⟨-, rfl⟩ := List.cons.inj hKey
    exact hKnown

/-- The records are the only addition after that. -/
theorem queued_get {ns : Char} (hns : tag ns ≠ tag 'k') (hnq : tag ns ≠ tag 'q') (k : Bytes) :
    (queued y.toBalanceInputs c.evidence storage).get? (tag ns :: k) =
      index.content.get? (tag ns :: k) := by
  rw [← h.evidence_get hns, queued]
  apply get?_applyOps_of_untouched
  intro op hop hKey
  obtain ⟨e, -, rfl⟩ := List.mem_map.mp hop
  exact hnq (List.cons.inj hKey).1.symm

/-- The jobs are in the order of the account hashes. -/
theorem jobs_sorted : c.jobs.Pairwise fun a b => a.hash < b.hash :=
  jobs_pairwise (Store.under_pairwise _ _) h.inspected

variable (hEvidence : IsEvidence y.geth index)

include hEvidence

/-- A slot that is claimed as a balance is the balance slot of the address in
the evidence. -/
theorem record_of_mem {e r : Bytes × Bytes} (he : e ∈ storage)
    (hr : recordOf y.toBalanceInputs c.evidence e = some r) :
    ∃ a : Address, e = ((balanceKey y.geth a).bytes, encodeAmount (amountOf e.2)) ∧
      r = ((accountKey y.geth a).bytes,
        balanceRecord a.bytes (balanceKey y.geth a).bytes (amountOf e.2)) := by
  obtain ⟨-, hAmount, holder, hHolder⟩ := h.claimed e he
  obtain ⟨rfl, -, -, -⟩ := slotHolder_eq_ok hHolder
  unfold recordOf at hr
  rw [hHolder] at hr
  cases hGet : c.evidence.get? (tag 'b' :: e.1) with
  | none =>
    rw [hGet] at hr
    cases hr
  | some address =>
    rw [hGet] at hr
    obtain rfl := Option.some.inj hr
    rw [h.evidence_get (by decide)] at hGet
    obtain ⟨a, hKey, rfl⟩ := hEvidence.balances _ _ hGet
    refine ⟨a, Prod.ext hKey (decodeOVMValue_eq_ok.mp hAmount), ?_⟩
    rw [hKey]
    rfl

variable (hApart : SlotsApart y.geth index)

include hApart

/-- Conversely, the balance slot of an address leaves its record. -/
theorem record_of_balance {a : Address} {blob : Bytes}
    (he : ((balanceKey y.geth a).bytes, blob) ∈ storage) :
    recordOf y.toBalanceInputs c.evidence ((balanceKey y.geth a).bytes, blob) =
      some ((accountKey y.geth a).bytes,
        balanceRecord a.bytes (balanceKey y.geth a).bytes (amountOf blob)) := by
  obtain ⟨-, -, holder, hHolder⟩ := h.claimed _ he
  obtain ⟨rfl, -, hOther, -⟩ := slotHolder_eq_ok hHolder
  cases hGet : c.evidence.get? (tag 'b' :: (balanceKey y.geth a).bytes) with
  | none =>
    -- the slot would be an allowance or a known slot
    rcases hOther hGet with hAllowance | hKnown
    · obtain ⟨v, hv⟩ := Option.ne_none_iff_exists'.mp hAllowance
      rw [h.evidence_get (by decide)] at hv
      exact absurd rfl (hApart.allowance _ v hv a)
    · obtain ⟨v, hv⟩ := Option.ne_none_iff_exists'.mp hKnown
      exact absurd rfl (hApart.known _ (h.evidence_known hEvidence hv) a)
  | some address =>
    have hOld := hGet
    rw [h.evidence_get (by decide)] at hOld
    obtain ⟨a', hKey, rfl⟩ := hEvidence.balances _ _ hOld
    obtain rfl : a = a' := hApart.balance (FixedBytes.ext hKey)
    unfold recordOf
    rw [hHolder, hGet]
    rfl

variable (hOrder : Increasing storage)

include hOrder

/-- The queue after the classification. -/
theorem mem_queue {r : Bytes × Bytes} :
    r ∈ Store.under (queued y.toBalanceInputs c.evidence storage) [tag 'q'] ↔
      r ∈ storage.filterMap (recordOf y.toBalanceInputs c.evidence) := by
  obtain ⟨k, v⟩ := r
  rw [Store.mem_under]
  constructor
  · intro hGet
    by_contra hNone
    rw [queued, get?_applyOps] at hGet
    cases hLast : lastOp ((storage.filterMap (recordOf y.toBalanceInputs c.evidence)).map recordOp)
        ([tag 'q'] ++ k) with
    | none =>
      rw [hLast] at hGet
      rw [show [tag 'q'] ++ k = tag 'q' :: k from rfl, h.evidence_get (by decide),
        hEvidence.queue] at hGet
      cases hGet
    | some op =>
      rw [hLast] at hGet
      obtain ⟨hMem, hKey⟩ := mem_of_lastOp hLast
      obtain ⟨⟨k', v'⟩, hRecord, rfl⟩ := List.mem_map.mp hMem
      obtain rfl : v' = v := Option.some.inj hGet
      obtain rfl : k' = k := (List.cons.inj hKey).2
      exact hNone hRecord
  · intro hMem
    have hPut : Op.put (tag 'q' :: k) v ∈
        (storage.filterMap (recordOf y.toBalanceInputs c.evidence)).map recordOp :=
      List.mem_map.mpr ⟨_, hMem, rfl⟩
    refine get?_applyOps_of_puts ?_ hPut c.evidence
    intro op hop hKey
    -- another record with this key is of the same address, and so of the same slot
    obtain ⟨⟨k', v'⟩, hRecord, rfl⟩ := List.mem_map.mp hop
    obtain rfl : k' = k := (List.cons.inj hKey).2
    obtain ⟨e, he, hr⟩ := List.mem_filterMap.mp hMem
    obtain ⟨e', he', hr'⟩ := List.mem_filterMap.mp hRecord
    obtain ⟨a, hSlot, hEq⟩ := h.record_of_mem hEvidence he hr
    obtain ⟨a', hSlot', hEq'⟩ := h.record_of_mem hEvidence he' hr'
    obtain rfl : a = a' := hApart.account (FixedBytes.ext
      ((Prod.mk.inj hEq).1.symm.trans (Prod.mk.inj hEq').1))
    have hLeaf : valueAt storage (balanceKey y.geth a).bytes = e.2 :=
      valueAt_of_mem hOrder (by rw [hSlot] at he ⊢; exact he)
    have hLeaf' : valueAt storage (balanceKey y.geth a).bytes = e'.2 :=
      valueAt_of_mem hOrder (by rw [hSlot'] at he' ⊢; exact he')
    have hAmount : amountOf e'.2 = amountOf e.2 := by rw [← hLeaf, ← hLeaf']
    rw [recordOp, (Prod.mk.inj hEq).2, (Prod.mk.inj hEq').2, hAmount]

/-- **Every job is a balance slot** of the token. -/
theorem holderJob_of_mem (hb : b ∈ c.jobs) :
    HolderJob y.toBalanceInputs (queued y.toBalanceInputs c.evidence storage) storage b := by
  obtain ⟨r, hr, hInspected⟩ := (mapM_eq_ok_mem h.inspected).1 b hb
  rw [h.mem_queue hEvidence hApart hOrder] at hr
  obtain ⟨e, he, hRecord⟩ := List.mem_filterMap.mp hr
  obtain ⟨a, hSlot, rfl⟩ := h.record_of_mem hEvidence he hRecord
  unfold inspectedRecord at hInspected
  rw [parse_balanceRecord, ok_bind] at hInspected
  obtain ⟨i, hFresh, hEq⟩ := bind_eq_ok.mp hInspected
  obtain rfl := Except.ok.inj hEq
  refine ⟨rfl, rfl, ?_, hFresh⟩
  rw [hSlot] at he
  exact he

/-- **Every balance slot has a job.** -/
theorem exists_job {a : Address} {v : U256}
    (he : ((balanceKey y.geth a).bytes, encodeAmount v) ∈ storage) :
    ∃ b ∈ c.jobs, b.address = a ∧ b.value = v := by
  have hRecord := h.record_of_balance hEvidence hApart he
  have hQueue := (h.mem_queue hEvidence hApart hOrder).mpr (List.mem_filterMap.mpr ⟨_, he, hRecord⟩)
  obtain ⟨b, hb, hInspected⟩ := (mapM_eq_ok_mem h.inspected).2 _ hQueue
  unfold inspectedRecord at hInspected
  rw [parse_balanceRecord, ok_bind] at hInspected
  obtain ⟨i, -, hEq⟩ := bind_eq_ok.mp hInspected
  obtain rfl := Except.ok.inj hEq
  refine ⟨_, hb, rfl, ?_⟩
  show amountOf (encodeAmount v) = v
  rw [amountOf, decodeOVMValue_eq_ok.mpr rfl]

theorem job_unique {b' : BalanceJob} (hb : b ∈ c.jobs) (hb' : b' ∈ c.jobs)
    (hEq : b.address = b'.address) : b = b' := by
  have hHash : b.hash = b'.hash := by
    rw [(h.holderJob_of_mem hEvidence hApart hOrder hb).hash,
      (h.holderJob_of_mem hEvidence hApart hOrder hb').hash, hEq]
  have hNodup : (c.jobs.map BalanceJob.hash).Nodup :=
    List.pairwise_map.mpr (h.jobs_sorted.imp fun hlt => ne_of_lt hlt)
  exact List.inj_on_of_nodup_map hNodup hb hb' hHash

end Evidence

end Conversion

/-! ## The patches -/

/-- The writes of a run of jobs. -/
theorem foldlM_applyBalance_index {jobs : List BalanceJob} {t t' : BalanceState}
    (h : jobs.foldlM applyBalance t = .ok t') :
    t'.index = t.index.pushAll (jobs.flatMap BalanceJob.ops) ∧
      ∀ b ∈ jobs, b.fate = .migrated → b.account ≠ none := by
  have hRun := foldlM_invariant
    (fun (seen : List BalanceJob) (m : BalanceState) =>
      m.index = t.index.pushAll (seen.flatMap BalanceJob.ops) ∧
        ∀ b ∈ seen, b.fate = .migrated → b.account ≠ none)
    (fun seen m b m' hInv hStep => by
      obtain ⟨hIndex, hAccounts⟩ := hInv
      obtain ⟨-, hAccount, rfl⟩ := applyBalance_eq_ok_iff.mp hStep
      constructor
      · rw [List.flatMap_append, OvmIndex.pushAll_append, ← hIndex]
        simp [BalanceState.after]
      · rw [List.forall_mem_append]
        exact ⟨hAccounts, List.forall_mem_singleton.mpr hAccount⟩)
    (show (t.index = t.index.pushAll (([] : List BalanceJob).flatMap BalanceJob.ops) ∧
      ∀ b ∈ ([] : List BalanceJob), b.fate = .migrated → b.account ≠ none) from ⟨rfl, by simp⟩) h
  rwa [List.nil_append] at hRun

/-- A write of a job: the account patch and the deletion of the slot. -/
theorem mem_ops {op : DbOp} (h : op ∈ b.ops) :
    ∃ a, b.fate = .migrated ∧ b.account = some a ∧
      (op = .put (tag 'p' :: b.hash.bytes) (encodeStateAccount { a with balance := b.value }) ∨
        op = .put (tag 's' :: b.slot.bytes) []) := by
  unfold BalanceJob.ops at h
  cases hFate : b.fate with
  | migrated =>
    cases hAccount : b.account with
    | none =>
      rw [hFate, hAccount] at h
      exact absurd h (by simp)
    | some a =>
      rw [hFate, hAccount] at h
      exact ⟨a, rfl, rfl, by simpa using h⟩
  | _ =>
    rw [hFate] at h
    exact absurd h (by simp)

theorem ops_of_migrated {a : StateAccount} (hFate : b.fate = .migrated)
    (hAccount : b.account = some a) :
    b.ops = [.put (tag 'p' :: b.hash.bytes) (encodeStateAccount { a with balance := b.value }),
      .put (tag 's' :: b.slot.bytes) []] := by
  rw [BalanceJob.ops, hFate, hAccount]

namespace Conversion

variable {y : TransformInputs} {index : OvmIndex} {accounts storage : History} {c : Stages}
  {out : Transformed}

section Patches

variable (h : Conversion y index accounts storage c out) (hEvidence : IsEvidence y.geth index)
  (hApart : SlotsApart y.geth index) (hOrder : Increasing storage)

include h

theorem applied_content : c.applied.index.content =
    applyOps (queued y.toBalanceInputs c.evidence storage) (c.jobs.flatMap BalanceJob.ops) := by
  rw [(foldlM_applyBalance_index h.applied).1, OvmIndex.content_pushAll]
  rfl

/-- An account is patched if it is the account of a migrated job. -/
theorem account_patch_of_job {a : StateAccount} (hb : b ∈ c.jobs) (hFate : b.fate = .migrated)
    (ha : b.account = some a) :
    c.applied.index.content.get? (tag 'p' :: b.hash.bytes) =
      some (encodeStateAccount { a with balance := b.value }) := by
  rw [h.applied_content]
  have hPut : Op.put (tag 'p' :: b.hash.bytes) (encodeStateAccount { a with balance := b.value }) ∈
      c.jobs.flatMap BalanceJob.ops :=
    List.mem_flatMap.mpr ⟨b, hb, by rw [ops_of_migrated hFate ha]; simp⟩
  refine get?_applyOps_of_puts ?_ hPut _
  intro op hop hKey
  obtain ⟨b', hb', hop⟩ := List.mem_flatMap.mp hop
  obtain ⟨a', -, ha', rfl | rfl⟩ := mem_ops hop
  · -- the hashes of the jobs are distinct
    have hNodup : (c.jobs.map BalanceJob.hash).Nodup :=
      List.pairwise_map.mpr (h.jobs_sorted.imp fun hlt => ne_of_lt hlt)
    obtain rfl := List.inj_on_of_nodup_map hNodup hb' hb (FixedBytes.ext (List.cons.inj hKey).2)
    obtain rfl : a = a' := Option.some.inj (ha.symm.trans ha')
    rfl
  · exact absurd (List.cons.inj hKey).1 (by decide)

include hEvidence

/-- A slot is deleted if it is the slot of a migrated job. -/
theorem slot_patch (k : Bytes) : c.applied.index.content.get? (tag 's' :: k) =
    if ∃ b ∈ c.jobs, b.fate = .migrated ∧ b.slot.bytes = k then some [] else none := by
  rw [h.applied_content]
  by_cases hJob : ∃ b ∈ c.jobs, b.fate = .migrated ∧ b.slot.bytes = k
  · rw [if_pos hJob]
    obtain ⟨b, hb, hFate, rfl⟩ := hJob
    obtain ⟨a, ha⟩ :=
      Option.ne_none_iff_exists'.mp ((foldlM_applyBalance_index h.applied).2 b hb hFate)
    have hPut : Op.put (tag 's' :: b.slot.bytes) [] ∈ c.jobs.flatMap BalanceJob.ops :=
      List.mem_flatMap.mpr ⟨b, hb, by rw [ops_of_migrated hFate ha]; simp⟩
    refine get?_applyOps_of_puts ?_ hPut _
    intro op hop hKey
    obtain ⟨b', -, hop⟩ := List.mem_flatMap.mp hop
    obtain ⟨a', -, -, rfl | rfl⟩ := mem_ops hop
    · exact absurd (List.cons.inj hKey).1 (by decide)
    · rw [(List.cons.inj hKey).2]
  · rw [if_neg hJob, get?_applyOps_of_untouched, h.queued_get (by decide) (by decide),
      hEvidence.slots]
    intro op hop hKey
    obtain ⟨b, hb, hop⟩ := List.mem_flatMap.mp hop
    obtain ⟨a, hFate, -, rfl | rfl⟩ := mem_ops hop
    · exact absurd (List.cons.inj hKey).1 (by decide)
    · exact hJob ⟨b, hb, hFate, (List.cons.inj hKey).2⟩

theorem account_patch_none (hNone : ∀ b ∈ c.jobs, b.fate = .migrated → b.hash.bytes ≠ k) :
    c.applied.index.content.get? (tag 'p' :: k) = none := by
  rw [h.applied_content, get?_applyOps_of_untouched, h.queued_get (by decide) (by decide),
    hEvidence.accounts]
  intro op hop hKey
  obtain ⟨b, hb, hop⟩ := List.mem_flatMap.mp hop
  obtain ⟨a, hFate, -, rfl | rfl⟩ := mem_ops hop
  · exact hNone b hb hFate (List.cons.inj hKey).2
  · exact absurd (List.cons.inj hKey).1 (by decide)

/-- The token slots after the conversion. -/
theorem slot_after (hSlots : Increasing storage) (k : Bytes) : valueAt (slotsAfter y storage c) k =
    if k = (numberedKey y.geth 2).bytes then encodeAmount c.applied.evidence.remainingSupply
    else if ∃ b ∈ c.jobs, b.fate = .migrated ∧ b.slot.bytes = k then [] else valueAt storage k := by
  have hDb : (supplyPatched y c.applied).db = c.applied.index.content.insert
      (tag 's' :: (numberedKey y.geth 2).bytes)
        (encodeAmount c.applied.evidence.remainingSupply) := by
    rw [supplyPatched, OvmIndex.flush_db, OvmIndex.content_put, OvmIndex.content_flush]
  rw [slotsAfter, valueAt_patched hSlots (Store.under_pairwise _ _), leafAt_under, hDb,
    List.singleton_append, SortedMap.get?_insert]
  by_cases hSupply : k = (numberedKey y.geth 2).bytes
  · rw [if_pos (by rw [hSupply]), if_pos hSupply]
    rfl
  · rw [if_neg fun hEq => hSupply (List.cons.inj hEq).2, if_neg hSupply]
    rw [h.slot_patch hEvidence]
    split <;> rfl

omit hEvidence in
/-- The account leaves after the conversion. -/
theorem account_after (hLeaves : Increasing accounts) (k : Bytes) :
    valueAt (leavesAfter accounts out) k =
      if k = (ovmOwner y.geth).bytes then encodeStateAccount
        (tokenAccountAfter y c.token c.storage c.applied.evidence.remainingSupply)
      else (c.applied.index.content.get? (tag 'p' :: k)).getD (valueAt accounts k) := by
  have hDb : out.index.db = (supplyPatched y c.applied).content.insert
      (tag 'p' :: (ovmOwner y.geth).bytes) (encodeStateAccount
        (tokenAccountAfter y c.token c.storage c.applied.evidence.remainingSupply)) := by
    rw [h.index, OvmIndex.flush_db, patchAccount, OvmIndex.content_put]
  rw [leavesAfter, valueAt_patched hLeaves (Store.under_pairwise _ _), leafAt_under, hDb,
    List.singleton_append, SortedMap.get?_insert]
  by_cases hOwner : k = (ovmOwner y.geth).bytes
  · rw [if_pos (by rw [hOwner]), if_pos hOwner]
    rfl
  · rw [if_neg fun hEq => hOwner (List.cons.inj hEq).2, if_neg hOwner]
    -- the patch of the supply is in another namespace
    have hOther : (supplyPatched y c.applied).content.get? (tag 'p' :: k) =
        c.applied.index.content.get? (tag 'p' :: k) := by
      rw [supplyPatched, OvmIndex.content_flush, OvmIndex.content_put, OvmIndex.content_flush,
        SortedMap.get?_insert, if_neg fun hEq => absurd (List.cons.inj hEq).1 (by decide)]
    rw [hOther]

end Patches

end Conversion

/-! ## Holders -/

theorem fate_of_holder (hAddress : b.address ≠ ovmETHAddress) (hValue : b.value ≠ 0) :
    b.fate = if b.contract && b.retain then .retained else .migrated := by
  rw [BalanceJob.fate, if_neg hValue, if_neg hAddress]

theorem value_ne_zero_of_migrated (h : b.fate = .migrated) : b.value ≠ 0 := by
  intro hZero
  rw [BalanceJob.fate, if_pos hZero] at h
  cases h

theorem address_ne_of_migrated (h : b.fate = .migrated) :
    b.address ≠ ovmETHAddress := by
  intro hSelf
  rw [BalanceJob.fate, if_pos hSelf] at h
  split at h <;> cases h

/-- What a lookup finds about a holder. -/
theorem holder_of_fresh {x : BalanceInputs} {db : Store}
    (h : inspectFresh x db b = .ok ⟨b.account, b.contract, b.retain⟩)
    (hAddress : b.address ≠ ovmETHAddress) (hValue : b.value ≠ 0) :
    ∃ account, readOVMAccount x.tries x.root b.hash = .ok account ∧ account.balance = 0 ∧
      b.account = some account ∧
      ((b.contract && b.retain) = true ↔
        account.codeHash ≠ emptyCodeHash.bytes ∧ eligible x db b.address = true) := by
  unfold inspectFresh at h
  rw [if_neg (by rintro (hEq | hEq); exacts [hAddress hEq, hValue hEq])] at h
  obtain ⟨account, hRead, hk⟩ := bind_eq_ok.mp h
  obtain ⟨⟨⟩, hZero, hEnd⟩ := bind_eq_ok.mp hk
  refine ⟨account, hRead, require_eq_ok.mp hZero, ?_⟩
  by_cases hCode : account.codeHash = emptyCodeHash.bytes
  · rw [if_pos hCode, Except.ok.injEq, Inspection.mk.injEq] at hEnd
    obtain ⟨hAccount, hContract, -⟩ := hEnd
    exact ⟨hAccount.symm, by simp [← hContract, hCode]⟩
  · rw [if_neg hCode, Except.ok.injEq, Inspection.mk.injEq] at hEnd
    obtain ⟨hAccount, hContract, hRetain⟩ := hEnd
    exact ⟨hAccount.symm, by simp [← hContract, ← hRetain, hCode]⟩

/-- The account that a lookup finds is the one in the leaf. -/
theorem leaf_of_readOVMAccount {db : Tries} {root hash : Hash} {accounts : History}
    {account : StateAccount} (hHolds : db.Holds zeroHash root accounts)
    (h : readOVMAccount db root hash = .ok account) :
    decodeLeaf hash (valueAt accounts hash.bytes) = .ok account := by
  rw [readOVMAccount_eq] at h
  obtain ⟨t, hOpen, hk⟩ := bind_eq_ok.mp h
  obtain ⟨blob, hGet, hDecode⟩ := bind_eq_ok.mp hk
  rwa [← (hHolds t hOpen).get _ _ hGet]

namespace Conversion

variable {y : TransformInputs} {index : OvmIndex} {accounts storage : History} {c : Stages}
  {out : Transformed}

section Holders

variable (h : Conversion y index accounts storage c out)

include h

/-- The account trie has been opened to read the token. -/
theorem accounts_increasing (hAccounts : y.tries.Holds zeroHash y.root accounts) :
    Increasing accounts := by
  obtain ⟨account, hRead, -⟩ := bind_eq_ok.mp h.tokenRead
  rw [readOVMAccount_eq] at hRead
  obtain ⟨t, hOpen, -⟩ := bind_eq_ok.mp hRead
  exact (hAccounts t hOpen).order

/-- The storage trie has been opened to read the supply. -/
theorem storage_increasing (hStorage : ∀ token, readToken y = .ok token →
    y.tries.Holds (ovmOwner y.geth) token.root storage) : Increasing storage := by
  obtain ⟨t, hOpen, -⟩ := bind_eq_ok.mp h.supplyRead
  exact (hStorage c.token h.tokenRead t hOpen).order

theorem eligible_queued (a : Address) :
    eligible y.toBalanceInputs (queued y.toBalanceInputs c.evidence storage) a =
      eligible y.toBalanceInputs index.content a := by
  unfold eligible
  rw [h.queued_get (by decide) (by decide), h.queued_get (by decide) (by decide)]

/-- The token has a leaf. -/
theorem token_leaf (hAccounts : y.tries.Holds zeroHash y.root accounts) :
    valueAt accounts (ovmOwner y.geth).bytes = encodeStateAccount c.token := by
  obtain ⟨account, hRead, hk⟩ := bind_eq_ok.mp h.tokenRead
  obtain ⟨⟨⟩, hCode, hEq⟩ := bind_eq_ok.mp hk
  obtain rfl : account = c.token := Except.ok.inj hEq
  have hLeaf := leaf_of_readOVMAccount hAccounts hRead
  unfold decodeLeaf at hLeaf
  split at hLeaf
  · -- an absent account has no code
    obtain hAbsent := Except.ok.inj hLeaf
    rw [require_eq_ok, ← hAbsent] at hCode
    exact absurd (FixedBytes.ofBytes_bytes emptyCodeHash) hCode
  · exact (decodeFullAccount_eq_ok.mp hLeaf).1

variable (hEvidence : IsEvidence y.geth index) (hApart : SlotsApart y.geth index)
  (hSlots : Increasing storage)

include hEvidence hApart hSlots

/-- The slot of an address is deleted exactly if its job is migrated. -/
theorem slot_of_address (hb : b ∈ c.jobs) :
    valueAt (slotsAfter y storage c) (balanceKey y.geth b.address).bytes =
      if b.fate = .migrated then []
      else valueAt storage (balanceKey y.geth b.address).bytes := by
  have hSupply : (balanceKey y.geth b.address).bytes ≠ (numberedKey y.geth 2).bytes := fun hEq =>
    hApart.known _ (.inl ⟨2, by decide, by decide, rfl⟩) b.address hEq.symm
  rw [h.slot_after hEvidence hSlots, if_neg hSupply]
  by_cases hFate : b.fate = .migrated
  · rw [if_pos hFate, if_pos ⟨b, hb, hFate, by
      rw [(h.holderJob_of_mem hEvidence hApart hSlots hb).slot]⟩]
  · rw [if_neg hFate, if_neg]
    rintro ⟨b', hb', hFate', hSlot⟩
    -- the slots of the jobs are distinct
    rw [(h.holderJob_of_mem hEvidence hApart hSlots hb').slot] at hSlot
    have hAddress : b'.address = b.address := hApart.balance (FixedBytes.ext hSlot)
    exact hFate (h.job_unique hEvidence hApart hSlots hb' hb hAddress ▸ hFate')

/-- A slot that is neither the supply nor the balance of another holder does
not change. -/
theorem slot_kept (hSupply : k ≠ (numberedKey y.geth 2).bytes)
    (hOther : ∀ a, a ≠ ovmETHAddress → k ≠ (balanceKey y.geth a).bytes) :
    valueAt (slotsAfter y storage c) k = valueAt storage k := by
  rw [h.slot_after hEvidence hSlots, if_neg hSupply, if_neg]
  rintro ⟨b, hb, hFate, rfl⟩
  rw [(h.holderJob_of_mem hEvidence hApart hSlots hb).slot] at hOther
  exact hOther b.address (address_ne_of_migrated hFate) rfl

variable (hLeaves : Increasing accounts)

include hLeaves

/-- The account of an address is patched exactly if its job is migrated. -/
theorem account_of_job {a : StateAccount} (hb : b ∈ c.jobs) (hAddress : b.address ≠ ovmETHAddress)
    (ha : b.account = some a) :
    valueAt (leavesAfter accounts out) (accountKey y.geth b.address).bytes =
      if b.fate = .migrated then encodeStateAccount { a with balance := b.value }
      else valueAt accounts (accountKey y.geth b.address).bytes := by
  have hJob := h.holderJob_of_mem hEvidence hApart hSlots hb
  have hOwner : (accountKey y.geth b.address).bytes ≠ (ovmOwner y.geth).bytes := fun hEq =>
    hAddress (hApart.account (FixedBytes.ext hEq))
  rw [h.account_after hLeaves, if_neg hOwner]
  by_cases hFate : b.fate = .migrated
  · rw [if_pos hFate, ← hJob.hash, h.account_patch_of_job hb hFate ha]
    rfl
  · rw [if_neg hFate, h.account_patch_none hEvidence]
    · rfl
    · intro b' hb' hFate' hHash
      rw [(h.holderJob_of_mem hEvidence hApart hSlots hb').hash] at hHash
      have hSame : b'.address = b.address := hApart.account (FixedBytes.ext hHash)
      exact hFate (h.job_unique hEvidence hApart hSlots hb' hb hSame ▸ hFate')

/-- An account that is not the token and not that of a holder does not change. -/
theorem account_kept (hOwner : k ≠ (ovmOwner y.geth).bytes)
    (hOther : ∀ b ∈ c.jobs, b.fate = .migrated → k ≠ (accountKey y.geth b.address).bytes) :
    valueAt (leavesAfter accounts out) k = valueAt accounts k := by
  rw [h.account_after hLeaves, if_neg hOwner, h.account_patch_none hEvidence]
  · rfl
  · intro b hb hFate hHash
    rw [(h.holderJob_of_mem hEvidence hApart hSlots hb).hash] at hHash
    exact hOther b hb hFate hHash.symm

end Holders

end Conversion

/-! ## Each holder -/

/-- An address is retained: it has no native balance, and the token still has
its balance `v`. -/
def IsRetained (g : Geth) (accounts storage : History) (a : Address) (v : U256) : Prop :=
  (∃ account, decodeLeaf (accountKey g a) (valueAt accounts (accountKey g a).bytes) = .ok account ∧
    account.balance = 0) ∧
  valueAt storage (balanceKey g a).bytes = encodeAmount v

/-- The slots of the token that stay as they are: its own balance, the
allowances in the index and the known slots. -/
def IsKeptSlot (g : Geth) (index : OvmIndex) (k : Bytes) : Prop :=
  k = (balanceKey g ovmETHAddress).bytes ∨ (index.content.get? (tag 'a' :: k)).isSome ∨
    IsKnownKey g k

theorem encodeAmount_ne_nil {v : U256} (h : v ≠ 0) : encodeAmount v ≠ [] := by
  rw [encodeAmount, if_neg h]
  exact Rlp.encodeString_ne_nil _

/-- One holder. -/
theorem Conversion.holder_after {y : TransformInputs} {index : OvmIndex}
    {accounts storage : History} {c : Stages} {out : Transformed}
    (h : Conversion y index accounts storage c out) (hEvidence : IsEvidence y.geth index)
    (hApart : SlotsApart y.geth index) (hAccounts : y.tries.Holds zeroHash y.root accounts)
    (hLeaves : Increasing accounts) (hSlots : Increasing storage) {a : Address} {v : U256}
    (ha : a ≠ ovmETHAddress) (hv : v ≠ 0)
    (hSlot : valueAt storage (balanceKey y.geth a).bytes = encodeAmount v) :
    ∃ account, decodeLeaf (accountKey y.geth a) (valueAt accounts (accountKey y.geth a).bytes) =
        .ok account ∧ account.balance = 0 ∧
      if account.codeHash ≠ emptyCodeHash.bytes ∧
      eligible y.toBalanceInputs index.content a = true then
        valueAt (leavesAfter accounts out) (accountKey y.geth a).bytes =
            valueAt accounts (accountKey y.geth a).bytes ∧
          valueAt (slotsAfter y storage c) (balanceKey y.geth a).bytes = encodeAmount v
      else
        valueAt (leavesAfter accounts out) (accountKey y.geth a).bytes =
            encodeStateAccount { account with balance := v } ∧
          valueAt (slotsAfter y storage c) (balanceKey y.geth a).bytes = [] := by
  have hMem := mem_of_valueAt_ne_nil hSlots (hSlot ▸ encodeAmount_ne_nil hv)
  rw [hSlot] at hMem
  obtain ⟨b, hb, rfl, rfl⟩ := h.exists_job hEvidence hApart hSlots hMem
  have hJob := h.holderJob_of_mem hEvidence hApart hSlots hb
  obtain ⟨account, hRead, hZero, hAccount, hRetain⟩ := holder_of_fresh hJob.fresh ha hv
  rw [hJob.hash] at hRead
  rw [h.eligible_queued] at hRetain
  refine ⟨account, leaf_of_readOVMAccount hAccounts hRead, hZero, ?_⟩
  rw [h.account_of_job hEvidence hApart hSlots hLeaves hb ha hAccount,
    h.slot_of_address hEvidence hApart hSlots hb, fate_of_holder ha hv]
  by_cases hKept : (b.contract && b.retain) = true
  · rw [if_pos (hRetain.mp hKept), if_pos hKept]
    exact ⟨rfl, hSlot⟩
  · rw [if_neg fun hCond => hKept (hRetain.mpr hCond), if_neg hKept]
    exact ⟨rfl, rfl⟩

/-- **The conversion is pointwise correct.** In the state under the returned
root, each holder of the token other than the token contract is retained
exactly when it has code in the original state and is listed or has sent a
nonzero transfer. Every other holder has its balance as native balance, with
the rest of its account unchanged, and its slot is deleted. The token contract
keeps its nonce and every other slot but the supply, and it gets the supplied
code. Nothing else changes. -/
theorem ovm_conversion_pointwise {y : TransformInputs} {index : OvmIndex}
    {accounts storage : History} {out : Transformed}
    {tr : List (Event (BalanceCalls y.toBalanceInputs))} {s s' : BalanceShared y.toBalanceInputs}
    (hAccounts : y.tries.Holds zeroHash y.root accounts)
    (hStorage : ∀ token, readToken y = .ok token →
      y.tries.Holds (ovmOwner y.geth) token.root storage)
    (hEvidence : IsEvidence y.geth index) (hApart : SlotsApart y.geth index)
    (h : Exec (balanceObject y.toBalanceInputs) (transformOVMState y index).run s tr
      (.ret (.ok out)) s') :
    ∃ accounts' storage' token token',
      -- the state under the returned root, and its nodes in the target
      IsTrie y.geth accounts' out.root ∧ IsTrie y.geth storage' token'.root ∧
      out.ops = nodeOps (ovmOwner y.geth) (y.geth.stack.nodesOf storage') ++
        [.put (codeKey (y.geth.keccak y.code)) y.code] ++
        nodeOps zeroHash (y.geth.stack.nodesOf accounts') ∧
      -- each holder
      (∀ a v, a ≠ ovmETHAddress → v ≠ 0 →
        valueAt storage (balanceKey y.geth a).bytes = encodeAmount v →
        ∃ account,
          decodeLeaf (accountKey y.geth a) (valueAt accounts (accountKey y.geth a).bytes) =
            .ok account ∧
          (IsRetained y.geth accounts' storage' a v ↔ account.codeHash ≠ emptyCodeHash.bytes ∧
            eligible y.toBalanceInputs index.content a = true) ∧
          (¬ IsRetained y.geth accounts' storage' a v →
            valueAt accounts' (accountKey y.geth a).bytes =
              encodeStateAccount { account with balance := v } ∧
            valueAt storage' (balanceKey y.geth a).bytes = []) ∧
          (IsRetained y.geth accounts' storage' a v →
            valueAt accounts' (accountKey y.geth a).bytes =
              valueAt accounts (accountKey y.geth a).bytes)) ∧
      -- the token contract
      valueAt accounts (ovmOwner y.geth).bytes = encodeStateAccount token ∧
      valueAt accounts' (ovmOwner y.geth).bytes = encodeStateAccount token' ∧
      token'.nonce = token.nonce ∧ token'.codeHash = (y.geth.keccak y.code).bytes ∧
      token'.balance = out.evidence.remainingSupply ∧
      valueAt storage' (numberedKey y.geth 2).bytes = encodeAmount out.evidence.remainingSupply ∧
      (∀ k, k ≠ (numberedKey y.geth 2).bytes → IsKeptSlot y.geth index k →
        valueAt storage' k = valueAt storage k) ∧
      -- everything else
      (∀ k, k ≠ (numberedKey y.geth 2).bytes →
        (∀ a v, v ≠ 0 → valueAt storage (balanceKey y.geth a).bytes = encodeAmount v →
          k ≠ (balanceKey y.geth a).bytes) →
        valueAt storage' k = valueAt storage k) ∧
      (∀ k, k ≠ (ovmOwner y.geth).bytes →
        (∀ a v, v ≠ 0 → valueAt storage (balanceKey y.geth a).bytes = encodeAmount v →
          k ≠ (accountKey y.geth a).bytes) →
        valueAt accounts' k = valueAt accounts k) := by
  obtain ⟨hReturns, hRun⟩ := exec_ret_iff.mp h
  obtain ⟨c, hConv⟩ := conversion_of_run hAccounts hStorage hReturns hRun
  have hLeaves := hConv.accounts_increasing hAccounts
  have hSlots := hConv.storage_increasing hStorage
  have hToken := hConv.account_after hLeaves (ovmOwner y.geth).bytes
  rw [if_pos rfl] at hToken
  have hSupply := hConv.slot_after hEvidence hSlots (numberedKey y.geth 2).bytes
  rw [if_pos rfl] at hSupply
  refine ⟨leavesAfter accounts out, slotsAfter y storage c, c.token, _, hConv.leaves, hConv.slots,
    hConv.ops, ?_, hConv.token_leaf hAccounts, hToken, rfl, rfl, ?_, ?_, ?_, ?_, ?_⟩
  · intro a v ha hv hSlot
    obtain ⟨account, hLeaf, hZero, hCase⟩ :=
      hConv.holder_after hEvidence hApart hAccounts hLeaves hSlots ha hv hSlot
    refine ⟨account, hLeaf, ?_⟩
    by_cases hKept : account.codeHash ≠ emptyCodeHash.bytes ∧
        eligible y.toBalanceInputs index.content a = true
    · rw [if_pos hKept] at hCase
      have hRetained : IsRetained y.geth (leavesAfter accounts out) (slotsAfter y storage c) a v :=
        ⟨⟨account, by rw [hCase.1, hLeaf], hZero⟩, hCase.2⟩
      exact ⟨iff_of_true hRetained hKept, fun hNot => absurd hRetained hNot, fun _ => hCase.1⟩
    · rw [if_neg hKept] at hCase
      -- the slot is gone
      have hNot : ¬ IsRetained y.geth (leavesAfter accounts out) (slotsAfter y storage c) a v :=
        fun hRetained => encodeAmount_ne_nil hv (hRetained.2.symm.trans hCase.2)
      exact ⟨iff_of_false hNot hKept, fun _ => hCase, fun hRetained => absurd hRetained hNot⟩
  · rw [hConv.evidence]
    rfl
  · rw [hConv.evidence, hSupply]
  · intro k hk hKept
    refine hConv.slot_kept hEvidence hApart hSlots hk fun a ha hEq => ?_
    rcases hKept with rfl | hAllowance | hKnown
    · exact ha (hApart.balance (FixedBytes.ext hEq)).symm
    · obtain ⟨v, hv⟩ := Option.isSome_iff_exists.mp hAllowance
      exact hApart.allowance k v hv a hEq
    · exact hApart.known k hKnown a hEq
  · intro k hk hNone
    rw [hConv.slot_after hEvidence hSlots, if_neg hk, if_neg]
    rintro ⟨b, hb, hFate, rfl⟩
    have hJob := hConv.holderJob_of_mem hEvidence hApart hSlots hb
    exact hNone b.address b.value (value_ne_zero_of_migrated hFate)
      (valueAt_of_mem hSlots hJob.leaf) (by rw [hJob.slot])
  · intro k hk hNone
    refine hConv.account_kept hEvidence hApart hSlots hLeaves hk fun b hb hFate => ?_
    have hJob := hConv.holderJob_of_mem hEvidence hApart hSlots hb
    exact hNone b.address b.value (value_ne_zero_of_migrated hFate)
      (valueAt_of_mem hSlots hJob.leaf)

/-! ## A conversion -/

/-- A hash function for a layout without collisions: addresses, words and the
balance slots have values in different ranges. -/
def layoutKeccak (b : Bytes) : Hash :=
  if b = [] then emptyCodeHash
  else if b = [0x80] then emptyRootHash
  else if b.length = 20 then hashOfNat (2 ^ 240 + ofBE b)
  else if b.length = 32 then hashOfNat (2 ^ 250 + ofBE b)
  else if b.length = 64 ∧
    b.drop 32 = List.replicate 32 0 then hashOfNat (2 ^ 241 + ofBE (b.take 32))
  else polyKeccak b

def layoutGeth : Geth := referenceGeth layoutKeccak

theorem layoutGeth_keccak (b : Bytes) : layoutGeth.keccak b = layoutKeccak b := rfl

/-- A contract and the token. -/
def sampleAccounts : History := [
  ((accountKey layoutGeth (holderAddress 2)).bytes,
    encodeStateAccount ⟨1, 0, emptyRootHash, zeroHash.bytes⟩),
  ((ovmOwner layoutGeth).bytes, encodeStateAccount ⟨7, 0, zeroHash, zeroHash.bytes⟩)]

/-- The supply, and three balances: of an address without an account, of the
contract, and of the token itself. -/
def sampleSlots : History := [
  ((numberedKey layoutGeth 2).bytes, encodeAmount 35),
  ((balanceKey layoutGeth (holderAddress 1)).bytes, encodeAmount 10),
  ((balanceKey layoutGeth (holderAddress 2)).bytes, encodeAmount 20),
  ((balanceKey layoutGeth ovmETHAddress).bytes, encodeAmount 5)]

def sampleTransform : TransformInputs where
  geth := layoutGeth
  tries := ⟨fun owner _ =>
    .ok (accessOf (if owner = zeroHash then sampleAccounts else sampleSlots))⟩
  root := zeroHash
  retention := false
  workers := 1
  height := 0
  code := [1]
  audit := none

/-- The evidence: the three addresses, and a transfer of the contract. -/
def sampleEvidence : OvmIndex :=
  ⟨.empty, addressOps layoutGeth (holderAddress 1) ++ addressOps layoutGeth (holderAddress 2) ++
    addressOps layoutGeth ovmETHAddress ++ [.put (tag 'f' :: (holderAddress 2).bytes) [1]]⟩

theorem ofBE_hashOfNat {n : Nat} (h : n < 2 ^ 256) : ofBE (hashOfNat n).bytes = n :=
  ofBE_toBE (by simpa using h)

theorem ofBE_address_lt (a : Address) : ofBE a.bytes < 2 ^ 160 := by
  have := ofBE_lt a.bytes
  rw [a.length_bytes] at this
  simpa using this

theorem layoutKeccak_address (a : Address) :
    layoutKeccak a.bytes = hashOfNat (2 ^ 240 + ofBE a.bytes) := by
  have hNil : a.bytes ≠ [] := fun h => absurd a.length_bytes (by rw [h]; decide)
  have hOne : a.bytes ≠ [0x80] := fun h => absurd a.length_bytes (by rw [h]; decide)
  rw [layoutKeccak, if_neg hNil, if_neg hOne, if_pos a.length_bytes]

theorem layoutKeccak_word {b : Bytes} (h : b.length = 32) :
    layoutKeccak b = hashOfNat (2 ^ 250 + ofBE b) := by
  have hNil : b ≠ [] := fun hb => absurd h (by rw [hb]; decide)
  have hOne : b ≠ [0x80] := fun hb => absurd h (by rw [hb]; decide)
  rw [layoutKeccak, if_neg hNil, if_neg hOne, if_neg (by omega), if_pos h]

theorem ofBE_accountKey (a : Address) :
    ofBE (accountKey layoutGeth a).bytes = 2 ^ 240 + ofBE a.bytes := by
  have hLt := ofBE_address_lt a
  rw [accountKey, layoutGeth_keccak, layoutKeccak_address, ofBE_hashOfNat (by omega)]

theorem ofBE_balanceKey (a : Address) :
    ofBE (balanceKey layoutGeth a).bytes = 2 ^ 250 + (2 ^ 241 + ofBE a.bytes) := by
  have hLt := ofBE_address_lt a
  have hPad : (leftPad a.bytes 32).length = 32 := length_leftPad (by rw [a.length_bytes]; decide)
  have hSlot : ovmBalanceSlot layoutGeth a = hashOfNat (2 ^ 241 + ofBE a.bytes) := by
    have hLength : (leftPad a.bytes 32 ++ List.replicate 32 (0 : Byte)).length =
        64 := by simp [hPad]
    have hNil : leftPad a.bytes 32 ++ List.replicate 32 (0 : Byte) ≠ [] := fun h =>
      absurd hLength (by rw [h]; decide)
    have hOne : leftPad a.bytes 32 ++ List.replicate 32 (0 : Byte) ≠ [0x80] := fun h =>
      absurd hLength (by rw [h]; decide)
    rw [ovmBalanceSlot, mappingSlot, layoutGeth_keccak, layoutKeccak, if_neg hNil, if_neg hOne,
      if_neg (by omega), if_neg (by omega), if_pos ⟨hLength, List.drop_left' hPad⟩,
      List.take_left' hPad, leftPad, ofBE_replicate_zero_append]
  have hWord := ofBE_hashOfNat (n := 2 ^ 241 + ofBE a.bytes) (by omega)
  rw [balanceKey, ovmStorageHash, layoutGeth_keccak, layoutKeccak_word (FixedBytes.length_bytes _),
    hSlot, hWord, ofBE_hashOfNat (by omega)]

theorem ofBE_numberedKey {n : Nat} (h : n < 7) :
    ofBE (numberedKey layoutGeth n).bytes = 2 ^ 250 + n := by
  have hWord := ofBE_hashOfNat (n := n) (by omega)
  rw [numberedKey, ovmStorageHash, layoutGeth_keccak, layoutKeccak_word (FixedBytes.length_bytes _),
    hWord, ofBE_hashOfNat (by omega)]

theorem ofBE_stringChunkKey {slot n : Nat} (hSlot : slot < 7) (hn : n < 2 ^ 59) :
    ofBE (stringChunkKey layoutGeth slot n).bytes = 2 ^ 250 + (2 ^ 250 + slot + n) := by
  have hWord : ofBE (toBE 32 (2 ^ 250 + slot + n)) = 2 ^ 250 + slot + n := ofBE_toBE (by omega)
  rw [stringChunkKey, layoutGeth_keccak, layoutKeccak_word (length_toBE 32 _),
    ofBE_numberedKey hSlot, hWord, ofBE_hashOfNat (by omega)]

theorem address_of_ofBE {a b : Address} (h : ofBE a.bytes = ofBE b.bytes) : a = b := by
  refine FixedBytes.ext ?_
  rw [← toBE_ofBE a.bytes, ← toBE_ofBE b.bytes, h, a.length_bytes, b.length_bytes]

theorem layout_known_apart (h : IsKnownKey layoutGeth k) (a : Address) :
    k ≠ (balanceKey layoutGeth a).bytes := by
  intro hEq
  have hLt := ofBE_address_lt a
  have hNat : ofBE k = 2 ^ 250 + (2 ^ 241 + ofBE a.bytes) := by rw [hEq, ofBE_balanceKey]
  clear hEq
  rcases h with ⟨n, -, hn, hk⟩ | ⟨slot, n, hSlot, hn, hk⟩
  · rw [hk, ofBE_numberedKey hn] at hNat
    omega
  · rw [hk, ofBE_stringChunkKey (by omega) hn] at hNat
    omega

/-- The entries of the evidence. -/
theorem sampleEvidence_get {v : Bytes} (h : sampleEvidence.content.get? k = some v) :
    (∃ a, k = tag 'b' :: (balanceKey layoutGeth a).bytes ∧ v = a.bytes) ∨
      k = tag 'f' :: (holderAddress 2).bytes := by
  rcases put_mem_of_get?_applyOps h with hMem | hNone
  · simp only [sampleEvidence, addressOps, List.cons_append, List.nil_append, List.mem_cons,
      Op.put.injEq, List.not_mem_nil, or_false] at hMem
    rcases hMem with ⟨hk, hv⟩ | ⟨hk, hv⟩ | ⟨hk, hv⟩ | ⟨hk, -⟩
    · exact .inl ⟨_, hk, hv⟩
    · exact .inl ⟨_, hk, hv⟩
    · exact .inl ⟨_, hk, hv⟩
    · exact .inr hk
  · cases hNone

/-- No other namespace has an entry. -/
theorem sampleEvidence_none {ns : Char} (hb : tag ns ≠ tag 'b')
    (hf : tag ns ≠ tag 'f') (k : Bytes) :
    sampleEvidence.content.get? (tag ns :: k) = none := by
  cases hGet : sampleEvidence.content.get? (tag ns :: k) with
  | none => rfl
  | some v =>
    rcases sampleEvidence_get hGet with ⟨a, hk, -⟩ | hk
    · exact absurd (List.cons.inj hk).1 hb
    · exact absurd (List.cons.inj hk).1 hf

theorem sampleEvidence_isEvidence : IsEvidence layoutGeth sampleEvidence where
  balances k v hGet := by
    rcases sampleEvidence_get hGet with ⟨a, hk, hv⟩ | hk
    · exact ⟨a, (List.cons.inj hk).2, hv⟩
    · exact absurd (List.cons.inj hk).1 (by decide)
  allowances k v hGet := by
    rw [sampleEvidence_none (by decide) (by decide)] at hGet
    cases hGet
  known k v hGet := by
    rw [sampleEvidence_none (by decide) (by decide)] at hGet
    cases hGet
  queue k := sampleEvidence_none (by decide) (by decide) k
  accounts k := sampleEvidence_none (by decide) (by decide) k
  slots k := sampleEvidence_none (by decide) (by decide) k

theorem sampleEvidence_apart : SlotsApart layoutGeth sampleEvidence where
  account a b h := by
    have hNat : ofBE (accountKey layoutGeth a).bytes =
        ofBE (accountKey layoutGeth b).bytes := by rw [h]
    rw [ofBE_accountKey, ofBE_accountKey] at hNat
    exact address_of_ofBE (Nat.add_left_cancel hNat)
  balance a b h := by
    have hNat : ofBE (balanceKey layoutGeth a).bytes =
        ofBE (balanceKey layoutGeth b).bytes := by rw [h]
    rw [ofBE_balanceKey, ofBE_balanceKey] at hNat
    exact address_of_ofBE (Nat.add_left_cancel (Nat.add_left_cancel hNat))
  known k h a := layout_known_apart h a
  allowance k v hGet := by
    rw [sampleEvidence_none (by decide) (by decide)] at hGet
    cases hGet

theorem accessOf_holds {l : History} (h : Increasing l) : (accessOf l).Holds l where
  order := h
  get k v hGet := (Except.ok.inj hGet).symm
  iterate s hIter _ := by
    obtain rfl := Except.ok.inj hIter
    rfl

theorem sampleAccounts_hold :
    sampleTransform.tries.Holds zeroHash sampleTransform.root sampleAccounts := by
  intro t hOpen
  obtain rfl := Except.ok.inj hOpen
  exact accessOf_holds (by unfold Increasing; decide +kernel)

theorem sampleSlots_hold (root : Hash) :
    sampleTransform.tries.Holds (ovmOwner sampleTransform.geth) root sampleSlots := by
  intro t hOpen
  have hOwner : ovmOwner sampleTransform.geth ≠ zeroHash := by decide +kernel
  replace hOpen : Except.ok
      (accessOf (if ovmOwner sampleTransform.geth = zeroHash then sampleAccounts
    else sampleSlots)) = Except.ok t := hOpen
  rw [if_neg hOwner] at hOpen
  obtain rfl := Except.ok.inj hOpen
  exact accessOf_holds (by unfold Increasing; decide +kernel)

/-- The conversion of the sample succeeds. -/
theorem sample_converts : ∃ out tr s, Exec (balanceObject sampleTransform.toBalanceInputs)
    (transformOVMState sampleTransform sampleEvidence).run
    (.begin false 0 (.init sampleEvidence 0)) tr
    (.ret (.ok out)) s ∧ out.evidence.remainingSupply = 25 := by
  have hPlay : ((balanceObject sampleTransform.toBalanceInputs).play balanceReply 9
      (transformOVMState sampleTransform sampleEvidence).run
      (.begin false 0 (.init sampleEvidence 0))).any
      (fun out => okWith out.2.1 fun o => o.evidence.remainingSupply = 25) = true := by
    decide +kernel
  obtain ⟨tr, out, s, hExec, hTest⟩ :=
    (balanceObject sampleTransform.toBalanceInputs).exec_of_play hPlay
  obtain ⟨o, rfl, hRemaining⟩ := okWith_eq_true.mp hTest
  exact ⟨o, tr, s, hExec, of_decide_eq_true hRemaining⟩

/-- **The sample, converted**: the contract is retained, and the address
without an account has its balance as native balance. -/
theorem ovm_conversion_sample : ∃ out accounts' storage',
    IsTrie layoutGeth accounts' out ∧
      IsRetained layoutGeth accounts' storage' (holderAddress 2) 20 ∧
      valueAt accounts' (accountKey layoutGeth (holderAddress 1)).bytes =
        encodeStateAccount { absentAccount with balance := 10 } ∧
      valueAt storage' (balanceKey layoutGeth (holderAddress 1)).bytes = [] := by
  obtain ⟨out, tr, s, hExec, -⟩ := sample_converts
  obtain ⟨accounts', storage', token, token', hTrie, -, -, hHolders, -⟩ :=
    ovm_conversion_pointwise sampleAccounts_hold (fun token _ => sampleSlots_hold token.root)
      sampleEvidence_isEvidence sampleEvidence_apart hExec
  refine ⟨out.root, accounts', storage', hTrie, ?_⟩
  obtain ⟨contract, hLeaf, hRetained, -, -⟩ :=
    hHolders (holderAddress 2) 20 (by decide +kernel) (by decide) (by decide +kernel)
  obtain ⟨absent, hLeaf', hRetained', hMoved, -⟩ :=
    hHolders (holderAddress 1) 10 (by decide +kernel) (by decide) (by decide +kernel)
  have hContract : decodeLeaf (accountKey layoutGeth (holderAddress 2))
      (valueAt sampleAccounts (accountKey layoutGeth (holderAddress 2)).bytes) =
      .ok ⟨1, 0, emptyRootHash, zeroHash.bytes⟩ := by decide +kernel
  have hAbsent : decodeLeaf (accountKey layoutGeth (holderAddress 1))
      (valueAt sampleAccounts (accountKey layoutGeth (holderAddress 1)).bytes) =
      .ok absentAccount := by decide +kernel
  obtain rfl := Except.ok.inj (hContract.symm.trans hLeaf)
  obtain rfl := Except.ok.inj (hAbsent.symm.trans hLeaf')
  refine ⟨hRetained.mpr ⟨by decide +kernel, by decide +kernel⟩, ?_⟩
  exact hMoved fun h => (hRetained'.mp h).1 rfl

end L2State
