import L2State.State.Groups

/-!
# L2State — the traversal succeeds exactly on canonical states

The spec lemmas of `stateTraverser`, from one slot to a whole run. Each says
when the call succeeds and what it then returns, as an equivalence, so that
later results never unfold the traversal.

* `processStorageSlot_eq_ok_iff`, `foldSlots_eq_ok_iff` — one slot, all slots.
* `consumeStorage_eq_ok_iff` — the inline slots and the prefetched ones are
  one loop.
* `processAccount_eq_ok_iff` — one account is one group.
* `Traversal.run_eq_ok_iff` — a run is a canonical list of groups.
-/

namespace L2State

open Lib

variable {σ : Type}

theorem writeNodes_eq_runEffects (v : Visitor σ) (sink : NodeSink σ) (owner : Hash)
    (nodes : List TrieNode) (out : σ) :
    writeNodes sink owner nodes out = runEffects v sink (nodeEffects owner nodes) out := by
  rw [writeNodes, runEffects, nodeEffects, List.foldlM_map]
  rfl

/-- The keys of a leaf list that are hashes, as hashes. -/
theorem exists_slots_of_length {l : History} (h : ∀ e ∈ l, e.1.length = 32) :
    ∃ slots, l = slotHistory slots := by
  refine ⟨l.map fun e => (.ofBytes 32 e.1, e.2), ?_⟩
  conv_lhs => rw [← List.map_id l]
  rw [slotHistory, List.map_map]
  refine List.map_congr_left fun e he => ?_
  simp [FixedBytes.bytes_ofBytes (h e he)]

@[simp] theorem slotCounts_nil : slotCounts [] = 0 := rfl

theorem slotCounts_cons (s : Hash × Bytes) (slots : List (Hash × Bytes)) :
    slotCounts (s :: slots) = .slot s.2.length + slotCounts slots := by
  simp [slotCounts]

@[simp] theorem slotHistory_nil : slotHistory [] = [] := rfl

@[simp] theorem slotHistory_cons (s : Hash × Bytes) (slots : List (Hash × Bytes)) :
    slotHistory (s :: slots) = (s.1.bytes, s.2) :: slotHistory slots := rfl

@[simp] theorem slotHistory_eq_nil {slots : List (Hash × Bytes)} :
    slotHistory slots = [] ↔ slots = [] := List.map_eq_nil_iff

/-- The state after a list of accounts. -/
def TraverserState.after (src : Source) (s : TraverserState σ) (gs : List Group) (out : σ) :
    TraverserState σ where
  counts       := s.counts + totalCounts gs
  codeHashes   := knownAfterAll s.codeHashes gs
  accountStack := s.accountStack ++ gs.map Group.leaf
  visited      := s.visited ++ gs.flatMap fun grp => src.storageVisits grp.hash grp.account.root
  out          := out

theorem TraverserState.after_after (src : Source) (s : TraverserState σ) (grp : Group)
    (gs : List Group) (mid out : σ) :
    (s.after src [grp] mid).after src gs out = s.after src (grp :: gs) out := by
  simp [TraverserState.after, knownAfterAll, add_assoc]

/-- The callbacks of one account, phase by phase. -/
theorem runEffects_group_eq_ok {v : Visitor σ} {sink : NodeSink σ} {g : Geth} {ah : History}
    {grp : Group} {out out' : σ} :
    runEffects v sink (grp.effects g ah) out = .ok out' ↔
      ∃ a b c, v.account grp.hash grp.account grp.full out = .ok a ∧
        runEffects v sink (slotEffects g.stack grp.hash [] grp.slots ++
          storageRootEffects g grp.hash grp.account.root grp.slots) a = .ok b ∧
        runEffects v sink (codeEffects grp.hash grp.codeHash grp.code) b = .ok c ∧
        runEffects v sink (nodeEffects zeroHash (g.stack.emittedBy ah grp.leaf)) c = .ok out' := by
  rw [Group.effects, runEffects_cons_eq_ok]
  constructor
  · rintro ⟨a, hA, h⟩
    obtain ⟨c, h, hNodes⟩ := runEffects_append_eq_ok.mp h
    obtain ⟨b, hSlots, hCode⟩ := runEffects_append_eq_ok.mp h
    exact ⟨a, b, c, hA, hSlots, hCode, hNodes⟩
  · rintro ⟨a, b, c, hA, hSlots, hCode, hNodes⟩
    exact ⟨a, hA, runEffects_append_eq_ok.mpr
      ⟨c, runEffects_append_eq_ok.mpr ⟨b, hSlots, hCode⟩, hNodes⟩⟩

namespace Traversal

variable {t : Traversal σ}

/-! ## Slots -/

variable {s : TraverserState σ} {st' : History × TraverserState σ} {owner : Hash}

/-- A slot is processed when its key, its value and the stack trie accept it. -/
theorem processStorageSlot_eq_ok_iff {stack : History} {key value : Bytes} :
    t.processStorageSlot owner (stack, s) (key, value) = .ok st' ↔
      key.length = 32 ∧ validateStorageRLP value = .ok () ∧
      (∃ nodes, t.geth.stack.update stack key value = .ok nodes) ∧
      ∃ out, runEffects t.visitor t.trieNodes
          (nodeEffects owner (t.geth.stack.emittedBy stack (key, value)) ++
            [.storage owner (.ofBytes 32 key) value]) s.out = .ok out ∧
        st' = (stack ++ [(key, value)],
          { s with counts := s.counts + .slot value.length, out := out }) := by
  simp only [processStorageSlot, bind_eq_ok, require_eq_ok, wrapping_eq_ok, pure_eq_ok,
    Except.ok.injEq, writeNodes_eq_runEffects t.visitor, runEffects_append_eq_ok,
    runEffects_singleton, runEffect]
  constructor
  · rintro ⟨-, hLen, ⟨⟩, hValid, nodes, hUpdate, m, hNodes, out, hStorage, rfl⟩
    rw [StackOps.emittedBy_of_update hUpdate]
    exact ⟨hLen, hValid, ⟨nodes, hUpdate⟩, out, ⟨m, hNodes, hStorage⟩, rfl⟩
  · rintro ⟨hLen, hValid, ⟨nodes, hUpdate⟩, out, ⟨m, hNodes, hStorage⟩, rfl⟩
    rw [StackOps.emittedBy_of_update hUpdate] at hNodes
    exact ⟨(), hLen, (), hValid, nodes, hUpdate, m, hNodes, out, hStorage, rfl⟩

/-- The slot loop, on a list of slots. -/
theorem foldSlots_eq_ok_iff {slots : List (Hash × Bytes)} {stack : History} :
    (slotHistory slots).foldlM (t.processStorageSlot owner) (stack, s) = .ok st' ↔
      (∀ e ∈ slots, validateStorageRLP e.2 = .ok ()) ∧
      t.geth.stack.Accepted stack (slotHistory slots) ∧
      ∃ out, runEffects t.visitor t.trieNodes
          (slotEffects t.geth.stack owner stack slots) s.out = .ok out ∧
        st' = (stack ++ slotHistory slots,
          { s with counts := s.counts + slotCounts slots, out := out }) := by
  induction slots generalizing stack s with
  | nil =>
    simp only [slotHistory_nil, List.foldlM_nil, pure_eq_ok, Except.ok.injEq, List.not_mem_nil,
      StackOps.Accepted, slotEffects, runEffects_nil, slotCounts_nil, add_zero,
      List.append_nil]
    constructor
    · rintro rfl
      exact ⟨fun _ h => h.elim, trivial, s.out, rfl, rfl⟩
    · rintro ⟨-, -, out, rfl, rfl⟩
      rfl
  | cons e slots ih =>
    obtain ⟨k, v⟩ := e
    simp only [slotHistory_cons, foldlM_cons_eq_ok, processStorageSlot_eq_ok_iff, StackOps.Accepted,
      slotEffects, List.mem_cons, forall_eq_or_imp]
    constructor
    · rintro ⟨m, ⟨-, hValid, hUpdate, mid, hMid, rfl⟩, hRest⟩
      obtain ⟨hValids, hAcc, out, hRun, rfl⟩ := ih.mp hRest
      refine ⟨⟨hValid, hValids⟩, ⟨hUpdate, hAcc⟩, out, ?_, ?_⟩
      · rw [FixedBytes.ofBytes_bytes] at hMid
        rw [← List.singleton_append, ← List.append_assoc, runEffects_append_eq_ok]
        exact ⟨mid, hMid, hRun⟩
      · simp [slotCounts_cons, add_assoc]
    · rintro ⟨⟨hValid, hValids⟩, ⟨hUpdate, hAcc⟩, out, hRun, rfl⟩
      rw [← List.singleton_append, ← List.append_assoc, runEffects_append_eq_ok] at hRun
      obtain ⟨mid, hMid, hRun⟩ := hRun
      refine ⟨_, ⟨k.length_bytes, hValid, hUpdate, mid, ?_, rfl⟩,
        ih.mpr ⟨hValids, hAcc, out, hRun, ?_⟩⟩
      · rw [FixedBytes.ofBytes_bytes]
        exact hMid
      · simp [slotCounts_cons, add_assoc]

/-- A slot loop that succeeds has seen hash keys only. -/
theorem foldSlots_lengths {l : History} {st : History × TraverserState σ}
    (h : l.foldlM (t.processStorageSlot owner) st = .ok st') : ∀ e ∈ l, e.1.length = 32 := by
  induction l generalizing st with
  | nil => simp
  | cons e l ih =>
    obtain ⟨m, hStep, hRest⟩ := foldlM_cons_eq_ok.mp h
    obtain ⟨hLen, -⟩ := processStorageSlot_eq_ok_iff.mp hStep
    simpa [hLen] using ih hRest

theorem iteratorErr_eq_ok {stream : LeafStream} {u : Unit} :
    iteratorErr owner stream = .ok u ↔ stream.err = none := by
  unfold iteratorErr
  cases stream.err <;> simp

/-- The inline slots and the prefetched ones are one loop over the leaves. -/
theorem consumeStorage_eq_ok_iff {stream : LeafStream} {st : History × TraverserState σ} :
    t.consumeStorage owner stream st = .ok st' ↔
      stream.leaves.foldlM (t.processStorageSlot owner) st = .ok st' ∧ stream.err = none := by
  have hSplit : stream.leaves.foldlM (t.processStorageSlot owner) st = .ok st' ↔
      ∃ m, (stream.leaves.take storageTriePipelineThreshold).foldlM
          (t.processStorageSlot owner) st = .ok m ∧
        (stream.leaves.drop storageTriePipelineThreshold).foldlM
          (t.processStorageSlot owner) m = .ok st' := by
    rw [← foldlM_append_eq_ok, List.take_append_drop]
  rw [hSplit]
  simp only [consumeStorage, consumeStoragePrefix, bind_eq_ok]
  cases hDrop : stream.leaves.drop storageTriePipelineThreshold with
  | nil =>
    simp only [bind_eq_ok, iteratorErr_eq_ok, pure_eq_ok, Except.ok.injEq, foldlM_nil_eq_ok]
    constructor
    · rintro ⟨_, ⟨m, hTake, -, hErr, rfl⟩, hEq⟩
      simp only [Except.ok.injEq] at hEq
      exact ⟨⟨m, hTake, hEq⟩, hErr⟩
    · rintro ⟨⟨m, hTake, rfl⟩, hErr⟩
      exact ⟨_, ⟨m, hTake, (), hErr, rfl⟩, rfl⟩
  | cons first rest =>
    simp only [bind_eq_ok, require_eq_ok, pure_eq_ok, Except.ok.injEq, foldlM_cons_eq_ok]
    constructor
    · rintro ⟨_, ⟨m, hTake, -, -, rfl⟩, hMore⟩
      simp only [bind_eq_ok, iteratorErr_eq_ok, Except.ok.injEq] at hMore
      obtain ⟨a, hFirst, b, hRest, -, hErr, rfl⟩ := hMore
      exact ⟨⟨m, hTake, a, hFirst, hRest⟩, hErr⟩
    · rintro ⟨⟨m, hTake, a, hFirst, hRest⟩, hErr⟩
      have hLen := (processStorageSlot_eq_ok_iff.mp hFirst).1
      refine ⟨_, ⟨m, hTake, (), hLen, rfl⟩, ?_⟩
      simp only [bind_eq_ok, iteratorErr_eq_ok, Except.ok.injEq]
      exact ⟨a, hFirst, st', hRest, (), hErr, rfl⟩

/-! ## Storage and code of one account -/

variable {s' : TraverserState σ}

/-- The storage of an account is traversed to its own root exactly when the
databases hold slots that pass the checks. -/
theorem traverseStorage_eq_ok_iff (hEmpty : (t.geth.stack.hash []).1 = emptyRootHash) {root : Hash} :
    t.traverseStorage owner root s = .ok (root, s') ↔
      ∃ slots, StorageOk t.geth root slots ∧ t.source.HasStorage owner root slots ∧
      ∃ out, runEffects t.visitor t.trieNodes
          (slotEffects t.geth.stack owner [] slots ++ storageRootEffects t.geth owner root slots)
          s.out = .ok out ∧
        s' = { s with counts  := s.counts + slotCounts slots
                      visited := s.visited ++ t.source.storageVisits owner root
                      out     := out } := by
  unfold traverseStorage
  by_cases hRoot : root = emptyRootHash
  · subst hRoot
    simp only [if_true, pure_eq_ok, Except.ok.injEq, Prod.mk.injEq, true_and]
    constructor
    · rintro rfl
      refine ⟨[], ⟨by simp, trivial, by simp, by simp⟩, fun h => absurd rfl h, s.out, ?_, ?_⟩
      · simp [slotEffects, storageRootEffects]
      · simp [Source.storageVisits]
    · rintro ⟨slots, hOk, -, out, hRun, rfl⟩
      have hSlots : slots = [] := hOk.empty_iff.mpr rfl
      subst hSlots
      obtain rfl : s.out = out := by simpa [slotEffects, storageRootEffects] using hRun
      simp [Source.storageVisits]
  · simp only [if_neg hRoot, bind_eq_ok, wrapping_eq_ok, consumeStorage_eq_ok_iff, pure_eq_ok,
      Except.ok.injEq, Prod.mk.injEq, writeNodes_eq_runEffects t.visitor, Prod.exists]
    constructor
    · rintro ⟨handle, hOpen, stream, hIt, stack, s₁, ⟨hFold, hErr⟩, out, hNodes, hHash, rfl⟩
      obtain ⟨slots, hSlots⟩ := exists_slots_of_length (foldSlots_lengths hFold)
      rw [hSlots] at hFold
      obtain ⟨hValid, hAcc, mid, hMid, hEq⟩ := foldSlots_eq_ok_iff.mp hFold
      simp only [List.nil_append, Prod.mk.injEq] at hEq
      obtain ⟨rfl, rfl⟩ := hEq
      have hStream : t.source.stream? owner root = some stream :=
        Source.stream?_eq_some_iff.mpr ⟨handle, hOpen, hIt⟩
      have hNe : slots ≠ [] := by
        rintro rfl
        exact hRoot (hHash.symm.trans hEmpty)
      refine ⟨slots, ⟨hValid, hAcc, ⟨fun h => absurd h hNe, fun h => absurd h hRoot⟩,
        fun _ => hHash⟩, fun _ => ⟨stream, hStream, hSlots, hErr⟩, out, ?_, ?_⟩
      · rw [runEffects_append_eq_ok, storageRootEffects, if_neg hRoot]
        exact ⟨mid, hMid, hNodes⟩
      · simp [Source.storageVisits, hRoot, Source.visits, hStream]
    · rintro ⟨slots, hOk, hRead, out, hRun, rfl⟩
      obtain ⟨stream, hStream, hLeaves, hErr⟩ := hRead hRoot
      obtain ⟨handle, hOpen, hIt⟩ := Source.stream?_eq_some_iff.mp hStream
      rw [runEffects_append_eq_ok, storageRootEffects, if_neg hRoot] at hRun
      obtain ⟨mid, hMid, hNodes⟩ := hRun
      have hNe : slots ≠ [] := fun h => hRoot (hOk.empty_iff.mp h)
      refine ⟨handle, hOpen, stream, hIt, slotHistory slots,
        { s with counts := s.counts + slotCounts slots, out := mid }, ⟨?_, hErr⟩, out, hNodes,
        hOk.root_eq hNe, ?_⟩
      · rw [hLeaves]
        exact foldSlots_eq_ok_iff.mpr ⟨hOk.valid, hOk.accepted, mid, hMid, rfl⟩
      · simp [Source.storageVisits, hRoot, Source.visits, hStream]

/-- The code of an account is read when no account before it had it. -/
theorem processCode_eq_ok_iff {codeHash : Hash} :
    t.processCode owner codeHash s = .ok s' ↔
      ∃ code, CodeOk t.geth s.codeHashes codeHash code ∧
        (∀ c ∈ code, t.source.readCode codeHash = .ok c ∧ c ≠ []) ∧
      ∃ out, runEffects t.visitor t.trieNodes (codeEffects owner codeHash code) s.out = .ok out ∧
        s' = { s with counts     := s.counts + referenceCounts codeHash + codeCounts code
                      codeHashes := knownAfter s.codeHashes codeHash code
                      out        := out } := by
  unfold processCode
  by_cases hEmpty : codeHash = emptyCodeHash
  · simp only [if_pos hEmpty, pure_eq_ok, Except.ok.injEq]
    constructor
    · rintro rfl
      refine ⟨none, .inl hEmpty, by simp, s.out, rfl, ?_⟩
      simp [referenceCounts, hEmpty, codeCounts, knownAfter]
    · rintro ⟨code, hOk, -, out, hRun, rfl⟩
      cases code with
      | some c => exact absurd hEmpty hOk.1
      | none =>
        obtain rfl : s.out = out := by simpa [codeEffects] using hRun
        simp [referenceCounts, hEmpty, codeCounts, knownAfter]
  · rw [if_neg hEmpty]
    by_cases hKnown : codeHash ∈ s.codeHashes
    · simp only [hashSetAdd, if_pos hKnown, Bool.false_eq_true, if_false, pure_eq_ok,
        Except.ok.injEq]
      constructor
      · rintro rfl
        refine ⟨none, .inr hKnown, by simp, s.out, rfl, ?_⟩
        simp [referenceCounts, hEmpty, codeCounts, knownAfter]
      · rintro ⟨code, hOk, -, out, hRun, rfl⟩
        cases code with
        | some c => exact absurd hKnown hOk.2.1
        | none =>
          obtain rfl : s.out = out := by simpa [codeEffects] using hRun
          simp [referenceCounts, hEmpty, codeCounts, knownAfter]
    · simp only [hashSetAdd, if_neg hKnown, if_true, bind_eq_ok, wrapping_eq_ok, require_eq_ok,
        pure_eq_ok, Except.ok.injEq]
      constructor
      · rintro ⟨c, hRead, -, hLen, -, hHash, out, hVisit, rfl⟩
        refine ⟨some c, ⟨hEmpty, hKnown, hHash⟩, ?_, out, ?_, ?_⟩
        · simpa using ⟨hRead, by simpa using hLen⟩
        · rw [codeEffects, runEffects_singleton]
          exact hVisit
        · simp [referenceCounts, hEmpty, codeCounts, knownAfter]
      · rintro ⟨code, hOk, hRead, out, hRun, rfl⟩
        cases code with
        | none => exact (hOk.elim hEmpty hKnown).elim
        | some c =>
          obtain ⟨hRead, hLen⟩ := hRead c rfl
          rw [codeEffects, runEffects_singleton] at hRun
          refine ⟨c, hRead, (), by simpa using hLen, (), hOk.2.2, out, hRun, ?_⟩
          simp [referenceCounts, hEmpty, codeCounts, knownAfter]

/-! ## Accounts -/

/-- **One account is one group.** -/
theorem processAccount_eq_ok_iff (hEmpty : (t.geth.stack.hash []).1 = emptyRootHash)
    {leaf : Bytes × Bytes} :
    t.processAccount s leaf = .ok s' ↔
      ∃ grp : Group, leaf = grp.leaf ∧ grp.WellFormed t.geth s.codeHashes ∧
        grp.ReadFrom t.source ∧
        (∃ nodes, t.geth.stack.update s.accountStack leaf.1 leaf.2 = .ok nodes) ∧
        ∃ out, runEffects t.visitor t.trieNodes (grp.effects t.geth s.accountStack) s.out =
          .ok out ∧
          s' = s.after t.source [grp] out := by
  obtain ⟨key, value⟩ := leaf
  simp only [processAccount, bind_eq_ok, require_eq_ok, wrapping_eq_ok, pure_eq_ok, Except.ok.injEq,
    writeNodes_eq_runEffects t.visitor, decodeFullAccount_eq_ok, Prod.exists]
  constructor
  · rintro ⟨-, hLen, account, ⟨rfl, hCodeLen⟩, out₁, hVisit, root, s₁, hStorage, -, rfl, s₂, hCode,
      nodes, hUpdate, out₂, hNodes, rfl⟩
    obtain ⟨slots, hSlots, hRead, out₃, hRun, rfl⟩ :=
      (traverseStorage_eq_ok_iff hEmpty).mp hStorage
    obtain ⟨code, hCodeOk, hCodeRead, out₄, hRunCode, rfl⟩ := processCode_eq_ok_iff.mp hCode
    refine ⟨⟨.ofBytes 32 key, account, slots, code⟩, ?_, ⟨hCodeLen, hSlots, hCodeOk⟩,
      ⟨hRead, hCodeRead⟩, ⟨nodes, ?_⟩, out₂, ?_, ?_⟩
    · simp [Group.leaf, Group.full, FixedBytes.bytes_ofBytes hLen]
    · simpa [FixedBytes.bytes_ofBytes hLen] using hUpdate
    · refine runEffects_group_eq_ok.mpr ⟨out₁, out₃, out₄, hVisit, hRun, hRunCode, ?_⟩
      rw [Group.leaf, Group.full, StackOps.emittedBy_of_update hUpdate]
      exact hNodes
    · simp [TraverserState.after, knownAfterAll, Group.counts, Group.full, Group.codeHash,
        Group.leaf, add_assoc]
  · rintro ⟨grp, hLeaf, hOk, hReads, ⟨nodes, hUpdate⟩, out, hRun, rfl⟩
    obtain ⟨rfl, rfl⟩ := Prod.mk.inj hLeaf
    obtain ⟨out₁, out₃, out₄, hVisit, hRunSlots, hRunCode, hNodes⟩ := runEffects_group_eq_ok.mp hRun
    rw [Group.leaf, StackOps.emittedBy_of_update hUpdate] at hNodes
    rw [FixedBytes.ofBytes_bytes]
    refine ⟨(), grp.hash.length_bytes, grp.account, ⟨rfl, hOk.codeHash_length⟩, out₁, hVisit,
      grp.account.root, _, (traverseStorage_eq_ok_iff hEmpty).mpr
        ⟨grp.slots, hOk.storage, hReads.storage, out₃, hRunSlots, rfl⟩, (), rfl, _,
      processCode_eq_ok_iff.mpr ⟨grp.code, hOk.code, hReads.code, out₄, hRunCode, rfl⟩, nodes,
      hUpdate, out, hNodes, ?_⟩
    simp [TraverserState.after, knownAfterAll, Group.counts, Group.codeHash, Group.leaf, add_assoc]

/-- The account loop. -/
theorem foldAccounts_eq_ok_iff (hEmpty : (t.geth.stack.hash []).1 = emptyRootHash)
    {leaves : History} :
    leaves.foldlM t.processAccount s = .ok s' ↔
      ∃ gs : List Group, leaves = gs.map Group.leaf ∧ WellFormedFrom t.geth s.codeHashes gs ∧
        (∀ grp ∈ gs, grp.ReadFrom t.source) ∧ t.geth.stack.Accepted s.accountStack leaves ∧
        ∃ out, runEffects t.visitor t.trieNodes (accountEffects t.geth s.accountStack gs) s.out =
            .ok out ∧ s' = s.after t.source gs out := by
  induction leaves generalizing s with
  | nil =>
    rw [foldlM_nil_eq_ok]
    constructor
    · rintro rfl
      exact ⟨[], rfl, trivial, by simp, trivial, s.out, rfl, by
        simp [TraverserState.after, knownAfterAll]⟩
    · rintro ⟨gs, hgs, -, -, -, out, hRun, rfl⟩
      obtain rfl : gs = [] := List.map_eq_nil_iff.mp hgs.symm
      obtain rfl : s.out = out := by simpa [accountEffects] using hRun
      simp [TraverserState.after, knownAfterAll]
  | cons leaf leaves ih =>
    simp only [foldlM_cons_eq_ok, processAccount_eq_ok_iff hEmpty]
    constructor
    · rintro ⟨m, ⟨grp, rfl, hOk, hRead, hUpdate, mid, hMid, rfl⟩, hRest⟩
      obtain ⟨gs, rfl, hOks, hReads, hAcc, out, hRun, rfl⟩ := ih.mp hRest
      refine ⟨grp :: gs, rfl, ⟨hOk, hOks⟩, by simpa using ⟨hRead, hReads⟩, ⟨hUpdate, hAcc⟩, out, ?_,
        s.after_after t.source grp gs mid out⟩
      exact runEffects_append_eq_ok.mpr ⟨mid, hMid, hRun⟩
    · rintro ⟨gs, hgs, hOks, hReads, ⟨hUpdate, hAcc⟩, out, hRun, rfl⟩
      cases gs with
      | nil => cases hgs
      | cons grp gs =>
        obtain ⟨rfl, rfl⟩ := List.cons.inj hgs
        obtain ⟨mid, hMid, hRun⟩ := runEffects_append_eq_ok.mp hRun
        refine ⟨s.after t.source [grp] mid,
          ⟨grp, rfl, hOks.1, hReads grp (by simp), hUpdate, mid, hMid, rfl⟩,
            ih.mpr ⟨gs, rfl, hOks.2, fun x hx => hReads x (by simp [hx]), hAcc, out, hRun, ?_⟩⟩
        exact (s.after_after t.source grp gs mid out).symm

/-- The account leaves of a source are those of the groups. -/
def HasAccounts (src : Source) (root : Hash) (gs : List Group) : Prop :=
  ∃ stream, src.stream? zeroHash root = some stream ∧ stream.leaves = gs.map Group.leaf ∧
    stream.err = none

/-- **The traversal succeeds exactly on canonical states.** It returns the
root and the sum of the group counts, after the callbacks of the groups. -/
theorem run_eq_ok_iff (hEmpty : (t.geth.stack.hash []).1 = emptyRootHash) {out : σ}
    {r : StateResult} {s' : TraverserState σ} :
    t.run out = .ok (r, s') ↔
      ∃ gs, HasAccounts t.source t.root gs ∧ (∀ grp ∈ gs, grp.ReadFrom t.source) ∧
        Canonical t.geth t.root gs ∧
        ∃ out', runEffects t.visitor t.trieNodes (traverserEffects t.geth gs) out = .ok out' ∧
          r = ⟨t.root, totalCounts gs⟩ ∧
          s' = { (TraverserState.init out).after t.source gs out' with
            visited := (gs.flatMap fun grp => t.source.storageVisits grp.hash grp.account.root) ++
              t.source.visits zeroHash t.root } := by
  simp only [run, finalize, bind_eq_ok, wrapping_eq_ok, foldAccounts_eq_ok_iff hEmpty]
  constructor
  · rintro ⟨handle, hOpen, stream, hIt, s₁, ⟨gs, hLeaves, hOks, hReads, hAcc, mid, hMid, rfl⟩, hFin⟩
    have hStream : t.source.stream? zeroHash t.root = some stream :=
      Source.stream?_eq_some_iff.mpr ⟨handle, hOpen, hIt⟩
    cases hErr : stream.err with
    | some e => simp [hErr] at hFin
    | none =>
      simp only [hErr, bind_eq_ok, wrapping_eq_ok, require_eq_ok, pure_eq_ok, Except.ok.injEq,
        Prod.mk.injEq, writeNodes_eq_runEffects t.visitor] at hFin
      obtain ⟨out', hNodes, -, hRoot, rfl, rfl⟩ := hFin
      simp only [TraverserState.after, TraverserState.init, List.nil_append] at hNodes hRoot hAcc
      rw [hLeaves] at hAcc
      refine ⟨gs, ⟨stream, hStream, hLeaves, hErr⟩, hReads, ⟨hOks, hAcc, hRoot⟩, out',
        runEffects_append_eq_ok.mpr ⟨mid, hMid, hNodes⟩, ?_, ?_⟩
      · simp [TraverserState.after, TraverserState.init, hRoot]
      · simp [TraverserState.after, TraverserState.init, Source.visits, hStream]
  · rintro ⟨gs, ⟨stream, hStream, hLeaves, hErr⟩, hReads, hCan, out', hRun, rfl, rfl⟩
    obtain ⟨handle, hOpen, hIt⟩ := Source.stream?_eq_some_iff.mp hStream
    obtain ⟨mid, hMid, hNodes⟩ := runEffects_append_eq_ok.mp hRun
    refine ⟨handle, hOpen, stream, hIt, _,
      ⟨gs, hLeaves, hCan.wellFormed, hReads, ?_, mid, hMid, rfl⟩, ?_⟩
    · rw [hLeaves]
      exact hCan.accepted
    · simp only [hErr, bind_eq_ok, wrapping_eq_ok, require_eq_ok, pure_eq_ok, Except.ok.injEq,
        Prod.mk.injEq, writeNodes_eq_runEffects t.visitor]
      refine ⟨out', ?_, (), ?_, ?_, ?_⟩
      · simpa [TraverserState.after, TraverserState.init] using hNodes
      · simpa [TraverserState.after, TraverserState.init] using hCan.root_eq
      · simp [TraverserState.after, TraverserState.init, hCan.root_eq]
      · simp [TraverserState.after, TraverserState.init, Source.visits, hStream]

end Traversal

end L2State
