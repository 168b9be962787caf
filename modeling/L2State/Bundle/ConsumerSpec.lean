import L2State.Bundle.Consumer

/-!
# L2State — the consumer accepts exactly the canonical record sequences

Between two records the consumer is in one of two shapes: `closed`, after
whole accounts, or `opened`, inside an account. Each record and `finish` move
between these shapes under exactly the checks of `Group.WellFormed`.

* `Group.records` — the records of one account in canonical order.
* `Group.consumerEffects` — the callbacks, in the consumer's order.
* `Consumer.run_eq_ok_iff` — **acceptance**: a record sequence is accepted in
  full exactly when it is the record sequence of a canonical state.
-/

namespace L2State

open Lib

variable {σ : Type}

/-! ## Canonical records and callbacks -/

namespace Group

/-- The storage records of an account. -/
def storageRecords (grp : Group) : List Record :=
  grp.slots.map fun s => .storage grp.hash s.1 s.2

/-- The code record of an account, if it is the first to reference its code. -/
def codeRecords (grp : Group) : List Record :=
  match grp.code with
  | some c => [.code grp.codeHash c]
  | none => []

/-- The records of one account. -/
def records (grp : Group) : List Record :=
  .account grp.hash (slimAccountRLP grp.account) :: (grp.storageRecords ++ grp.codeRecords)

/-- The callbacks while the records of an account are read. -/
def openEffects (g : Geth) (grp : Group) : List Effect :=
  .accountFromBundle grp.hash grp.account grp.full (slimAccountRLP grp.account) ::
    (slotEffects g.stack grp.hash [] grp.slots ++ codeEffects grp.hash grp.codeHash grp.code)

/-- The callbacks when an account is finalized. -/
def closeEffects (g : Geth) (ah : History) (grp : Group) : List Effect :=
  storageRootEffects g grp.hash grp.account.root grp.slots ++
    nodeEffects zeroHash (g.stack.emittedBy ah grp.leaf)

/-- The callbacks of the consumer for one account. -/
def consumerEffects (g : Geth) (ah : History) (grp : Group) : List Effect :=
  grp.openEffects g ++ grp.closeEffects g ah

end Group

/-- The callbacks of the consumer for a list of accounts. -/
def groupsConsumerEffects (g : Geth) : History → List Group → List Effect
  | _, [] => []
  | ah, grp :: gs => grp.consumerEffects g ah ++ groupsConsumerEffects g (ah ++ [grp.leaf]) gs

/-- The callbacks of a whole scan. -/
def scanEffects (g : Geth) (gs : List Group) : List Effect :=
  groupsConsumerEffects g [] gs ++ nodeEffects zeroHash (g.stack.hash (gs.map Group.leaf)).2

theorem visitorCalls_scanEffects (g : Geth) (gs : List Group) :
    visitorCalls (scanEffects g gs) = gs.flatMap Group.calls := by
  suffices h : ∀ ah, visitorCalls (groupsConsumerEffects g ah gs) = gs.flatMap Group.calls by
    simp [scanEffects, h]
  induction gs with
  | nil => intro ah; rfl
  | cons grp gs ih =>
    intro ah
    simp [groupsConsumerEffects, Group.consumerEffects, Group.openEffects, Group.closeEffects,
      Group.calls, visitorCalls_cons, Effect.call?, ih]

theorem groupsConsumerEffects_append (g : Geth) (ah : History) (gs gs' : List Group) :
    groupsConsumerEffects g ah (gs ++ gs') =
      groupsConsumerEffects g ah gs ++
        groupsConsumerEffects g (ah ++ gs.map Group.leaf) gs' := by
  induction gs generalizing ah with
  | nil => simp [groupsConsumerEffects]
  | cons grp gs ih => simp [groupsConsumerEffects, ih]

theorem knownAfterAll_concat (known : List Hash) (gs : List Group) (grp : Group) :
    knownAfterAll known (gs ++ [grp]) =
      knownAfter (knownAfterAll known gs) grp.codeHash grp.code := by
  simp [knownAfterAll]

theorem totalCounts_concat (gs : List Group) (grp : Group) :
    totalCounts (gs ++ [grp]) = totalCounts gs + grp.counts := by
  simp [totalCounts]

variable {grp : Group}

theorem wellFormedFrom_concat {g : Geth} {known : List Hash} {gs : List Group} :
    WellFormedFrom g known (gs ++ [grp]) ↔
      WellFormedFrom g known gs ∧ grp.WellFormed g (knownAfterAll known gs) := by
  induction gs generalizing known with
  | nil => simp [WellFormedFrom, knownAfterAll]
  | cons x gs ih => simp [WellFormedFrom, knownAfterAll, ih, and_assoc]

theorem slotCounts_concat (slots : List (Hash × Bytes)) (s : Hash × Bytes) :
    slotCounts (slots ++ [s]) = slotCounts slots + .slot s.2.length := by
  simp [slotCounts]

theorem slotHistory_concat (slots : List (Hash × Bytes)) (s : Hash × Bytes) :
    slotHistory (slots ++ [s]) = slotHistory slots ++ [(s.1.bytes, s.2)] := by
  simp [slotHistory]

theorem slotEffects_concat (ops : StackOps) (owner : Hash) (h : History)
    (slots : List (Hash × Bytes)) (k : Hash) (v : Bytes) :
    slotEffects ops owner h (slots ++ [(k, v)]) =
      slotEffects ops owner h slots ++
        (nodeEffects owner (ops.emittedBy (h ++ slotHistory slots) (k.bytes, v)) ++
          [.storage owner k v]) := by
  induction slots generalizing h with
  | nil => simp [slotEffects]
  | cons s slots ih =>
    obtain ⟨k', v'⟩ := s
    simp [slotEffects, ih]

theorem openEffects_concat_slot {g : Geth} (hNone : grp.code = none) (k : Hash) (v : Bytes) :
    Group.openEffects g { grp with slots := grp.slots ++ [(k, v)] } =
      grp.openEffects g ++
        (nodeEffects grp.hash (g.stack.emittedBy (slotHistory grp.slots) (k.bytes, v)) ++
          [.storage grp.hash k v]) := by
  simp [Group.openEffects, slotEffects_concat, hNone, codeEffects, Group.full]

theorem openEffects_set_code {g : Geth} (hNone : grp.code = none) (d : Bytes) :
    Group.openEffects g { grp with code := some d } =
      grp.openEffects g ++ [.code grp.hash grp.codeHash d] := by
  simp [Group.openEffects, hNone, codeEffects, Group.full, Group.codeHash]

/-! ## The two shapes of the state -/

namespace ConsumerState

/-- The state after the accounts `gs`, with no account open. -/
def closed (fin : Bool) (gs : List Group) (out : σ) : ConsumerState σ where
  accountStack := gs.map Group.leaf
  counts       := totalCounts gs
  knownCodes   := knownAfterAll [] gs
  current      := none
  lastAccount  := (gs.getLast?.map Group.hash).getD zeroHash
  finished     := fin
  out          := out

/-- The account that is being read, with the slots and the code so far. -/
def currentOf (grp : Group) : Current where
  hash     := grp.hash
  account  := grp.account
  rlp      := grp.full
  storage  := if grp.slots = [] then none else some (slotHistory grp.slots)
  lastSlot := grp.slots.getLast?.map Prod.fst
  codeSeen := grp.code.isSome

/-- The state after the accounts `gs` and a part `grp` of the next one. -/
def opened (fin : Bool) (gs : List Group) (grp : Group) (out : σ) : ConsumerState σ where
  accountStack := gs.map Group.leaf
  counts       := totalCounts gs +
    (.account grp.full.length + slotCounts grp.slots + codeCounts grp.code)
  knownCodes   := knownAfter (knownAfterAll [] gs) grp.codeHash grp.code
  current      := some (currentOf grp)
  lastAccount  := grp.hash
  finished     := fin
  out          := out

end ConsumerState

/-- The checks made so far on an account that is being read. -/
structure Group.Opened (g : Geth) (known : List Hash) (grp : Group) : Prop where
  codeHash_length : grp.account.codeHash.length = 32
  valid           : ∀ s ∈ grp.slots, validateStorageRLP s.2 = .ok ()
  accepted        : g.stack.Accepted [] (slotHistory grp.slots)
  root_ne         : grp.slots ≠ [] → grp.account.root ≠ emptyRootHash
  code            : ∀ c ∈ grp.code, CodeOk g known grp.codeHash (some c)

theorem Group.WellFormed.opened {g : Geth} {known : List Hash} (h : grp.WellFormed g known) :
    grp.Opened g known where
  codeHash_length := h.codeHash_length
  valid := h.storage.valid
  accepted := h.storage.accepted
  root_ne hne heq := hne (h.storage.empty_iff.mpr heq)
  code c hc := by
    have := h.code
    rw [hc] at this
    exact this

/-! ## Closing an account -/

namespace Consumer

variable {c : Consumer σ} {gs : List Group} {grp : Group} {out : σ} {s s' : ConsumerState σ}
  {r : Record} {rs : List Record}

/-- Storage is finalized exactly when its slots make up the root of the account. -/
theorem finalizeStorage_currentOf_iff {out' : σ} {known : List Hash}
    (hOpen : grp.Opened c.geth known) :
    c.finalizeStorage (ConsumerState.currentOf grp) out = .ok (grp.account.root, out') ↔
      StorageOk c.geth grp.account.root grp.slots ∧
      runEffects c.visitor c.trieNodes
        (storageRootEffects c.geth grp.hash grp.account.root grp.slots) out = .ok out' := by
  unfold finalizeStorage ConsumerState.currentOf
  by_cases hSlots : grp.slots = []
  · -- without slots there is no stack trie, and the root is the empty one
    simp only [hSlots, if_true, Except.ok.injEq, Prod.mk.injEq]
    constructor
    · rintro ⟨hRoot, rfl⟩
      refine ⟨⟨by simp, trivial, by simp [hRoot], by simp⟩, ?_⟩
      simp [storageRootEffects, hRoot]
    · rintro ⟨hOk, hRun⟩
      have hRoot : grp.account.root = emptyRootHash := hOk.empty_iff.mp rfl
      refine ⟨hRoot.symm, ?_⟩
      simpa [storageRootEffects, hRoot] using hRun
  · have hRoot := hOpen.root_ne hSlots
    simp only [if_neg hSlots, bind_eq_ok, wrapping_eq_ok, pure_eq_ok, Except.ok.injEq,
      Prod.mk.injEq, writeNodes_eq_runEffects c.visitor, storageRootEffects, if_neg hRoot]
    constructor
    · rintro ⟨out₁, hRun, hHash, rfl⟩
      exact ⟨⟨hOpen.valid, hOpen.accepted, ⟨fun h => absurd h hSlots, fun h => absurd h hRoot⟩,
        fun _ => hHash⟩, hRun⟩
    · rintro ⟨hOk, hRun⟩
      exact ⟨out', hRun, hOk.root_eq hSlots, rfl⟩

theorem finalizeCode_eq_ok_iff {cur : Current} {codeHash : Hash} {counts : Counts}
    (hCode : codeHash = .ofBytes 32 cur.account.codeHash) :
    finalizeCode s cur = .ok counts ↔
      ¬ (codeHash = emptyCodeHash ∧ cur.codeSeen = true) ∧
      (codeHash ≠ emptyCodeHash → cur.codeSeen = true ∨ codeHash ∈ s.knownCodes) ∧
      s.counts + referenceCounts codeHash = counts := by
  subst hCode
  simp only [finalizeCode, bind_eq_ok, require_eq_ok, exists_const, referenceCounts]
  refine and_congr_right fun _ => ?_
  by_cases hEmpty : (FixedBytes.ofBytes 32 cur.account.codeHash : Hash) = emptyCodeHash
  · simp [hEmpty]
  · simp [hEmpty, bind_eq_ok]

/-- The code of an account is finalized exactly when it is present or known. -/
theorem finalizeCode_opened_iff {fin : Bool} {counts : Counts}
    (hOpen : grp.Opened c.geth (knownAfterAll [] gs)) :
    finalizeCode (.opened fin gs grp out) (ConsumerState.currentOf grp) = .ok counts ↔
      CodeOk c.geth (knownAfterAll [] gs) grp.codeHash grp.code ∧
      totalCounts (gs ++ [grp]) = counts := by
  have hTotal : (ConsumerState.opened fin gs grp out).counts + referenceCounts grp.codeHash =
      totalCounts (gs ++ [grp]) := by
    simp only [totalCounts_concat, Group.counts, ConsumerState.opened]
    abel
  have hCode : grp.codeHash = .ofBytes 32 (ConsumerState.currentOf grp).account.codeHash := rfl
  rw [finalizeCode_eq_ok_iff hCode, hTotal, ← and_assoc]
  refine and_congr_left fun _ => ?_
  cases hc : grp.code with
  | none =>
    simp only [ConsumerState.currentOf, ConsumerState.opened, hc, knownAfter, CodeOk]
    by_cases hEmpty : grp.codeHash = emptyCodeHash <;> simp [hEmpty]
  | some d =>
    have hOk := hOpen.code d hc
    simp [ConsumerState.currentOf, hc, hOk.1, hOk]

/-- An account closes exactly when the group read so far is well formed. -/
theorem finalizeAccount_opened_iff {fin : Bool} (hOpen : grp.Opened c.geth (knownAfterAll [] gs)) :
    c.finalizeAccount (.opened fin gs grp out) = .ok s' ↔
      grp.WellFormed c.geth (knownAfterAll [] gs) ∧
      (∃ nodes, c.geth.stack.update (gs.map Group.leaf) grp.leaf.1 grp.leaf.2 = .ok nodes) ∧
      ∃ out', runEffects c.visitor c.trieNodes (grp.closeEffects c.geth (gs.map Group.leaf)) out =
          .ok out' ∧ s' = .closed fin (gs ++ [grp]) out' := by
  -- the calls of `finalizeAccount`, in their order
  have hUnfold : c.finalizeAccount (.opened fin gs grp out) = .ok s' ↔
      ∃ out₁, c.finalizeStorage (ConsumerState.currentOf grp) out = .ok (grp.account.root, out₁) ∧
      ∃ counts, finalizeCode (.opened fin gs grp out) (ConsumerState.currentOf grp) = .ok counts ∧
      ∃ nodes, c.geth.stack.update (gs.map Group.leaf) grp.leaf.1 grp.leaf.2 = .ok nodes ∧
      ∃ out₂, runEffects c.visitor c.trieNodes (nodeEffects zeroHash nodes) out₁ = .ok out₂ ∧
        { ConsumerState.opened fin gs grp out with
          accountStack := gs.map Group.leaf ++ [grp.leaf], counts := counts, current := none
          out := out₂ } = s' := by
    simp only [finalizeAccount, ConsumerState.opened, bind_eq_ok, require_eq_ok, wrapping_eq_ok,
      pure_eq_ok, Except.ok.injEq, Prod.exists, writeNodes_eq_runEffects c.visitor]
    constructor
    · rintro ⟨_, out₁, hStorage, -, rfl, rest⟩
      exact ⟨out₁, hStorage, rest⟩
    · rintro ⟨out₁, hStorage, rest⟩
      exact ⟨_, out₁, hStorage, (), rfl, rest⟩
  rw [hUnfold]
  simp only [finalizeStorage_currentOf_iff hOpen, finalizeCode_opened_iff hOpen, Group.closeEffects,
    runEffects_append_eq_ok]
  constructor
  · rintro ⟨out₁, ⟨hStorage, hRun⟩, counts, ⟨hCode, rfl⟩, nodes, hUpdate, out₂, hNodes, rfl⟩
    refine ⟨⟨hOpen.codeHash_length, hStorage, hCode⟩, ⟨nodes, hUpdate⟩, out₂, ⟨out₁, hRun, ?_⟩, ?_⟩
    · rw [StackOps.emittedBy_of_update_pair hUpdate]
      exact hNodes
    · simp [ConsumerState.opened, ConsumerState.closed, knownAfterAll_concat]
  · rintro ⟨hOk, ⟨nodes, hUpdate⟩, out₂, ⟨out₁, hRun, hNodes⟩, rfl⟩
    rw [StackOps.emittedBy_of_update_pair hUpdate] at hNodes
    refine ⟨out₁, ⟨hOk.storage, hRun⟩, _, ⟨hOk.code, rfl⟩, nodes, hUpdate, out₂, hNodes, ?_⟩
    simp [ConsumerState.opened, ConsumerState.closed, knownAfterAll_concat]

/-! ## One record -/

theorem getD_currentOf_storage (grp : Group) :
    (ConsumerState.currentOf grp).storage.getD [] = slotHistory grp.slots := by
  by_cases h : grp.slots = [] <;> simp [ConsumerState.currentOf, h]

theorem currentOf_concat_slot (grp : Group) (k : Hash) (v : Bytes) :
    ConsumerState.currentOf { grp with slots := grp.slots ++ [(k, v)] } =
      { ConsumerState.currentOf grp with
        storage := some (slotHistory grp.slots ++ [(k.bytes, v)]), lastSlot := some k } := by
  simp [ConsumerState.currentOf, slotHistory_concat, Group.full]

/-- An account record opens the next account. -/
theorem consume_account_iff (hTyp : r.typ = recordAccount) (hRunning : s.finished = false)
    (hFin : c.finalizeAccount s = .ok (.closed false gs out)) :
    c.consume s r = .ok s' ↔
      ¬ ((totalCounts gs).accounts > 0 ∧
        r.accountHash ≤ (gs.getLast?.map Group.hash).getD zeroHash) ∧
      ∃ a, decodeAccount r.payload = .ok (a, encodeStateAccount a) ∧
      ∃ out', runEffect c.visitor c.trieNodes out
          (.accountFromBundle r.accountHash a (encodeStateAccount a) r.payload) = .ok out' ∧
        s' = .opened false gs ⟨r.accountHash, a, [], none⟩ out' := by
  have hConsume : c.consume s r = c.consumeAccount s r := by
    simp [consume, require, hRunning, hTyp]
  simp only [hConsume, consumeAccount, hFin, ok_bind, bind_eq_ok, require_eq_ok, wrapping_eq_ok,
    pure_eq_ok, Except.ok.injEq, Prod.exists, exists_const]
  refine and_congr_right fun _ => ?_
  constructor
  · rintro ⟨a, full, hDecode, out', hVisit, rfl⟩
    obtain ⟨-, rfl, -⟩ := encodeAccount_of_decodeAccount hDecode
    refine ⟨a, hDecode, out', hVisit, ?_⟩
    simp [ConsumerState.opened, ConsumerState.closed, ConsumerState.currentOf, Group.full,
      knownAfter, codeCounts]
  · rintro ⟨a, hDecode, out', hVisit, rfl⟩
    refine ⟨a, _, hDecode, out', hVisit, ?_⟩
    simp [ConsumerState.opened, ConsumerState.closed, ConsumerState.currentOf, Group.full,
      knownAfter, codeCounts]

theorem validateStorageRecord_eq_ok_iff {cur : Current} {u : Unit} :
    validateStorageRecord cur r = .ok u ↔
      cur.codeSeen = false ∧ r.accountHash = cur.hash ∧ cur.account.root ≠ emptyRootHash ∧
      (∀ last ∈ cur.lastSlot, ¬ r.subHash ≤ last) ∧ validateStorageRLP r.payload = .ok () := by
  simp only [validateStorageRecord, bind_eq_ok, require_eq_ok, wrapping_eq_ok, exists_const]

/-- A key that the stack trie accepts is above the last slot. -/
theorem not_le_lastSlot (hOrd : c.geth.stack.Ordered) {slots : List (Hash × Bytes)} {k : Hash}
    {v : Bytes} {nodes : List TrieNode}
    (hUpdate : c.geth.stack.update (slotHistory slots) k.bytes v = .ok nodes) :
    ∀ last ∈ slots.getLast?.map Prod.fst, ¬ k ≤ last := by
  intro last hLast
  obtain ⟨e, he, rfl⟩ := Option.mem_map.mp hLast
  rw [not_le, FixedBytes.lt_iff]
  refine hOrd hUpdate (e.1.bytes, e.2) ?_
  rw [slotHistory, List.getLast?_map, he]
  rfl

/-- A storage record extends the slots of the open account. The order check
of the consumer is implied by the one of the stack trie. -/
theorem consume_storage_iff (hOrd : c.geth.stack.Ordered) (hTyp : r.typ = recordStorage) :
    c.consume (.opened false gs grp out) r = .ok s' ↔
      grp.code = none ∧ r.accountHash = grp.hash ∧ grp.account.root ≠ emptyRootHash ∧
      validateStorageRLP r.payload = .ok () ∧
      (∃ nodes, c.geth.stack.update (slotHistory grp.slots) r.subHash.bytes r.payload = .ok nodes) ∧
      ∃ out', runEffects c.visitor c.trieNodes
          (nodeEffects grp.hash
            (c.geth.stack.emittedBy (slotHistory grp.slots) (r.subHash.bytes, r.payload)) ++
              [.storage grp.hash r.subHash r.payload]) out = .ok out' ∧
        s' = .opened false gs { grp with slots := grp.slots ++ [(r.subHash, r.payload)] } out' := by
  have hConsume : c.consume (.opened false gs grp out) r =
      c.consumeStorage (.opened false gs grp out) r := by
    simp [consume, require, ConsumerState.opened, hTyp, recordAccount, recordStorage]
  have hNext : ∀ out' : σ, ConsumerState.opened false gs
      { grp with slots := grp.slots ++ [(r.subHash, r.payload)] } out' =
      { ConsumerState.opened false gs grp out with
        current := some { ConsumerState.currentOf grp with
          storage := some (slotHistory grp.slots ++ [(r.subHash.bytes, r.payload)])
          lastSlot := some r.subHash }
        counts := (ConsumerState.opened false gs grp out).counts + .slot r.payload.length
        out := out' } := by
    intro out'
    simp only [ConsumerState.opened, currentOf_concat_slot, slotCounts_concat, Group.full,
      Group.codeHash, ConsumerState.mk.injEq, and_true, true_and]
    abel
  have hUnfold : c.consumeStorage (.opened false gs grp out) r = .ok s' ↔
      validateStorageRecord (ConsumerState.currentOf grp) r = .ok () ∧
      ∃ nodes, c.geth.stack.update (slotHistory grp.slots) r.subHash.bytes r.payload = .ok nodes ∧
      ∃ mid, runEffects c.visitor c.trieNodes (nodeEffects grp.hash nodes) out = .ok mid ∧
      ∃ out', c.visitor.storage grp.hash r.subHash r.payload mid = .ok out' ∧
        s' = .opened false gs { grp with slots := grp.slots ++ [(r.subHash, r.payload)] } out' := by
    simp only [hNext, consumeStorage]
    change (validateStorageRecord (ConsumerState.currentOf grp) r >>= fun _ => _) = _ ↔ _
    simp only [bind_eq_ok, wrapping_eq_ok, pure_eq_ok, Except.ok.injEq,
      writeNodes_eq_runEffects c.visitor, getD_currentOf_storage, @eq_comm _ s']
    constructor
    · rintro ⟨⟨⟩, h⟩
      exact h
    · exact fun h => ⟨(), h⟩
  rw [hConsume, hUnfold, validateStorageRecord_eq_ok_iff]
  simp only [runEffects_append_eq_ok, runEffects_singleton, runEffect]
  constructor
  · rintro ⟨⟨hCode, hHash, hRoot, -, hValid⟩, nodes, hUpdate, mid, hNodes, out', hVisit, rfl⟩
    rw [StackOps.emittedBy_of_update hUpdate]
    refine ⟨?_, hHash, hRoot, hValid, ⟨nodes, hUpdate⟩, out', ⟨mid, hNodes, hVisit⟩, rfl⟩
    simpa [ConsumerState.currentOf] using hCode
  · rintro ⟨hCode, hHash, hRoot, hValid, ⟨nodes, hUpdate⟩, out', ⟨mid, hNodes, hVisit⟩, rfl⟩
    rw [StackOps.emittedBy_of_update hUpdate] at hNodes
    refine ⟨⟨?_, hHash, hRoot, not_le_lastSlot hOrd hUpdate, hValid⟩, nodes, hUpdate, mid, hNodes,
      out', hVisit, rfl⟩
    simp [ConsumerState.currentOf, hCode]

theorem validateCodeRecord_eq_ok_iff {cur : Current} {expected : Hash} :
    c.validateCodeRecord s cur r = .ok expected ↔
      cur.codeSeen = false ∧ expected = .ofBytes 32 cur.account.codeHash ∧
      r.subHash = expected ∧ CodeOk c.geth s.knownCodes expected (some r.payload) := by
  simp only [validateCodeRecord, bind_eq_ok, require_eq_ok, pure_eq_ok, Except.ok.injEq,
    exists_const, CodeOk]
  constructor
  · rintro ⟨hSeen, hEmpty, hSub, hHash, hKnown, rfl⟩
    exact ⟨hSeen, rfl, hSub, hEmpty, hKnown, hHash⟩
  · rintro ⟨hSeen, rfl, hSub, hEmpty, hKnown, hHash⟩
    exact ⟨hSeen, hEmpty, hSub, hHash, hKnown, rfl⟩

/-- A code record sets the code of the open account. -/
theorem consume_code_iff (hTyp : r.typ = recordCode) :
    c.consume (.opened false gs grp out) r = .ok s' ↔
      grp.code = none ∧ r.subHash = grp.codeHash ∧
      CodeOk c.geth (knownAfterAll [] gs) grp.codeHash (some r.payload) ∧
      ∃ out', runEffect c.visitor c.trieNodes out (.code grp.hash grp.codeHash r.payload) =
        .ok out' ∧
        s' = .opened false gs { grp with code := some r.payload } out' := by
  have hConsume : c.consume (.opened false gs grp out) r =
      c.consumeCode (.opened false gs grp out) r := by
    simp [consume, require, ConsumerState.opened, hTyp, recordAccount, recordStorage, recordCode]
  have hUnfold : c.consumeCode (.opened false gs grp out) r = .ok s' ↔
      ∃ expected, c.validateCodeRecord (.opened false gs grp out) (ConsumerState.currentOf grp) r =
          .ok expected ∧
      ∃ out', c.visitor.code grp.hash expected r.payload out = .ok out' ∧
        { ConsumerState.opened false gs grp out with
          knownCodes :=
            (hashSetAdd (knownAfter (knownAfterAll [] gs) grp.codeHash grp.code) expected).2
          current := some { ConsumerState.currentOf grp with codeSeen := true }
          counts := (ConsumerState.opened false gs grp out).counts + .code r.payload.length
          out := out' } = s' := by
    simp only [consumeCode]
    change (c.validateCodeRecord (.opened false gs grp out) (ConsumerState.currentOf grp) r >>=
      fun _ => _) = _ ↔ _
    simp only [bind_eq_ok, pure_eq_ok, Except.ok.injEq]
    rfl
  rw [hConsume, hUnfold]
  simp only [validateCodeRecord_eq_ok_iff, runEffect]
  -- the state with the code set, when no code was set before
  have hNext : grp.code = none → grp.codeHash ∉ knownAfterAll [] gs → ∀ out' : σ,
      { ConsumerState.opened false gs grp out with
        knownCodes :=
          (hashSetAdd (knownAfter (knownAfterAll [] gs) grp.codeHash grp.code) grp.codeHash).2
        current := some { ConsumerState.currentOf grp with codeSeen := true }
        counts := (ConsumerState.opened false gs grp out).counts + .code r.payload.length
        out := out' } = ConsumerState.opened false gs { grp with code := some r.payload } out' := by
    intro hNone hKnown out'
    have hAdd : (hashSetAdd (knownAfterAll [] gs) grp.codeHash).2 =
        grp.codeHash :: knownAfterAll [] gs := by
      simp [hashSetAdd, hKnown]
    simp only [Group.codeHash] at hAdd
    simp only [ConsumerState.opened, ConsumerState.currentOf, hNone, knownAfter, codeCounts,
      Group.full, Group.codeHash, hAdd, Option.isSome_some, add_zero, add_assoc]
  constructor
  · rintro ⟨expected, ⟨hSeen, rfl, hSub, hOk⟩, out', hVisit, rfl⟩
    have hNone : grp.code = none := by simpa [ConsumerState.currentOf] using hSeen
    have hOk' : CodeOk c.geth (knownAfterAll [] gs) grp.codeHash (some r.payload) := by
      simp only [ConsumerState.opened, hNone, knownAfter] at hOk
      exact hOk
    exact ⟨hNone, hSub, hOk', out', hVisit, hNext hNone hOk'.2.1 out'⟩
  · rintro ⟨hNone, hSub, hOk, out', hVisit, rfl⟩
    refine ⟨grp.codeHash, ⟨by simp [ConsumerState.currentOf, hNone], rfl, hSub, ?_⟩, out', hVisit,
      hNext hNone hOk.2.1 out'⟩
    simpa [ConsumerState.opened, hNone, knownAfter] using hOk

/-- Storage and code records need an open account. -/
theorem consume_closed (h : c.consume (.closed false gs out) r = .ok s') :
    r.typ = recordAccount := by
  by_contra hTyp
  simp only [consume, ConsumerState.closed, bind_eq_ok, if_neg hTyp, consumeStorage,
    consumeCode] at h
  obtain ⟨-, -, h⟩ := h
  split at h
  · cases h
  · split at h <;> cases h

/-- Only the three record types are accepted. -/
theorem typ_of_consume (h : c.consume s r = .ok s') :
    s.finished = false ∧ (r.typ = recordAccount ∨ r.typ = recordStorage ∨ r.typ = recordCode) := by
  simp only [consume, bind_eq_ok, require_eq_ok, exists_const] at h
  refine ⟨h.1, ?_⟩
  by_contra hTyp
  rw [not_or, not_or] at hTyp
  simp [hTyp.1, hTyp.2.1, hTyp.2.2] at h

/-! ## Soundness: what is accepted is canonical -/

/-- Where the consumer stands after the records `rs`. -/
inductive Standing (c : Consumer σ) (out₀ : σ) : List Record → ConsumerState σ → Prop
  | start : Standing c out₀ [] (.closed false [] out₀)
  | inside {rs : List Record} {gs : List Group} {grp : Group} {out : σ}
      (hRecords : rs.map Record.framed = gs.flatMap Group.records ++ grp.records)
      (hOks : WellFormedFrom c.geth [] gs)
      (hAcc : c.geth.stack.Accepted [] (gs.map Group.leaf))
      (hOpen : grp.Opened c.geth (knownAfterAll [] gs))
      (hRun : runEffects c.visitor c.trieNodes
        (groupsConsumerEffects c.geth [] gs ++ grp.openEffects c.geth) out₀ = .ok out) :
      Standing c out₀ rs (.opened false gs grp out)

/-- Finalizing the open account leaves a list of whole accounts. -/
theorem Standing.finalize {out₀ : σ} {fin : Bool} (h : Standing c out₀ rs s)
    (hFin : c.finalizeAccount { s with finished := fin } = .ok s') :
    ∃ gs out, s' = .closed fin gs out ∧ rs.map Record.framed = gs.flatMap Group.records ∧
      WellFormedFrom c.geth [] gs ∧ c.geth.stack.Accepted [] (gs.map Group.leaf) ∧
      runEffects c.visitor c.trieNodes (groupsConsumerEffects c.geth [] gs) out₀ = .ok out := by
  cases h with
  | start =>
    cases hFin
    exact ⟨[], out₀, rfl, rfl, trivial, trivial, rfl⟩
  | @inside _ gs grp out hRecords hOks hAcc hOpen hRun =>
    obtain ⟨hOk, hUpdate, out', hClose, rfl⟩ :=
      (@finalizeAccount_opened_iff _ c gs grp out _ fin hOpen).mp hFin
    refine ⟨gs ++ [grp], out', rfl, by simpa using hRecords, wellFormedFrom_concat.mpr ⟨hOks, hOk⟩,
      ?_, ?_⟩
    · rw [List.map_append, StackOps.accepted_append]
      exact ⟨hAcc, hUpdate, trivial⟩
    · rw [groupsConsumerEffects_append]
      simp only [groupsConsumerEffects, List.append_nil, List.nil_append, Group.consumerEffects]
      rw [← List.append_assoc]
      exact runEffects_append_eq_ok.mpr ⟨out, hRun, hClose⟩

/-- One record takes a standing to a standing. -/
theorem Standing.step (hOrd : c.geth.stack.Ordered) {out₀ : σ} (h : Standing c out₀ rs s)
    (hStep : c.consume s r = .ok s') :
    Standing c out₀ (rs ++ [r]) s' := by
  obtain ⟨hRunning, hTyp⟩ := typ_of_consume hStep
  rcases hTyp with hTyp | hTyp | hTyp
  · -- an account record first closes the open account
    have hFin : ∃ m, c.finalizeAccount s = .ok m := by
      have : c.consumeAccount s r = .ok s' := by
        simpa [consume, require, hRunning, hTyp] using hStep
      obtain ⟨m, hm, -⟩ := bind_eq_ok.mp this
      exact ⟨m, hm⟩
    obtain ⟨m, hFin⟩ := hFin
    have hSame : { s with finished := false } = s := by rw [← hRunning]
    obtain ⟨gs, out, rfl, hRecords, hOks, hAcc, hRun⟩ := h.finalize (hSame.symm ▸ hFin)
    obtain ⟨-, a, hDecode, out', hVisit, rfl⟩ := (consume_account_iff hTyp hRunning hFin).mp hStep
    obtain ⟨hPayload, -, hLen⟩ := encodeAccount_of_decodeAccount hDecode
    refine .inside ?_ hOks hAcc ⟨hLen, by simp, trivial, by simp, by simp⟩ ?_
    · simp [hRecords, Record.framed_of_account hTyp, Group.records, Group.storageRecords,
        Group.codeRecords, hPayload]
    · refine runEffects_append_eq_ok.mpr ⟨out, hRun, ?_⟩
      simp only [Group.openEffects, slotEffects, codeEffects, List.append_nil, runEffects_singleton]
      rw [← hPayload]
      exact hVisit
  · -- a storage record extends the slots
    cases h with
    | start => exact absurd (consume_closed hStep) (by rw [hTyp]; decide)
    | @inside _ gs grp out hRecords hOks hAcc hOpen hRun =>
      obtain ⟨hNone, hHash, hRoot, hValid, hUpdate, out', hEff, rfl⟩ :=
        (consume_storage_iff hOrd hTyp).mp hStep
      refine .inside ?_ hOks hAcc ⟨hOpen.codeHash_length, ?_, ?_, fun _ => hRoot, hOpen.code⟩ ?_
      · simp [hRecords, Record.framed_of_storage hTyp, hHash, Group.records, Group.storageRecords,
          Group.codeRecords, hNone]
      · intro e he
        rcases List.mem_append.mp he with he | he
        · exact hOpen.valid e he
        · rw [List.mem_singleton.mp he]
          exact hValid
      · rw [slotHistory_concat, StackOps.accepted_append]
        exact ⟨hOpen.accepted, hUpdate, trivial⟩
      · rw [openEffects_concat_slot hNone, ← List.append_assoc]
        exact runEffects_append_eq_ok.mpr ⟨out, hRun, hEff⟩
  · -- a code record sets the code
    cases h with
    | start => exact absurd (consume_closed hStep) (by rw [hTyp]; decide)
    | @inside _ gs grp out hRecords hOks hAcc hOpen hRun =>
      obtain ⟨hNone, hSub, hOk, out', hEff, rfl⟩ := (consume_code_iff hTyp).mp hStep
      refine .inside ?_ hOks hAcc ⟨hOpen.codeHash_length, hOpen.valid, hOpen.accepted,
        hOpen.root_ne, ?_⟩ ?_
      · simp [hRecords, Record.framed_of_code hTyp, hSub, Group.records, Group.storageRecords,
          Group.codeRecords, hNone, Group.codeHash]
      · intro d hd
        cases hd
        exact hOk
      · rw [openEffects_set_code hNone, ← List.append_assoc]
        refine runEffects_append_eq_ok.mpr ⟨out, hRun, ?_⟩
        rw [runEffects_singleton]
        exact hEff

theorem Standing.run (hOrd : c.geth.stack.Ordered) {out₀ : σ} {seen : List Record}
    (h : Standing c out₀ seen s) (hRun : rs.foldlM c.consume s = .ok s') :
    Standing c out₀ (seen ++ rs) s' :=
  foldlM_invariant (Standing c out₀) (fun _ _ _ _ hs hStep => hs.step hOrd hStep) h hRun

/-! ## Completeness: what is canonical is accepted -/

/-- The slots of an account are consumed one by one. -/
theorem consume_slots (hOrd : c.geth.stack.Ordered) {out' : σ} {more : List (Hash × Bytes)}
    (hNone : grp.code = none) (hRoot : more ≠ [] → grp.account.root ≠ emptyRootHash)
    (hValid : ∀ e ∈ more, validateStorageRLP e.2 = .ok ())
    (hAcc : c.geth.stack.Accepted (slotHistory grp.slots) (slotHistory more))
    (hRun : runEffects c.visitor c.trieNodes (slotEffects c.geth.stack grp.hash (slotHistory
      grp.slots) more) out = .ok out') :
    (more.map fun e => Record.storage grp.hash e.1 e.2).foldlM c.consume
    (.opened false gs grp out) =
      .ok (.opened false gs { grp with slots := grp.slots ++ more } out') := by
  induction more generalizing grp out with
  | nil =>
    obtain rfl : out = out' := by simpa [slotEffects] using hRun
    simp
  | cons e more ih =>
    obtain ⟨k, v⟩ := e
    rw [slotEffects, ← List.singleton_append, ← List.append_assoc] at hRun
    obtain ⟨mid, hMid, hRun⟩ := runEffects_append_eq_ok.mp hRun
    rw [List.map_cons, foldlM_cons_eq_ok]
    refine ⟨.opened false gs { grp with slots := grp.slots ++ [(k, v)] } mid, ?_, ?_⟩
    · exact (consume_storage_iff hOrd rfl).mpr
        ⟨hNone, rfl, hRoot (by simp), hValid (k, v) (by simp), hAcc.1, mid, hMid, rfl⟩
    · have := @ih { grp with slots := grp.slots ++ [(k, v)] } mid hNone (fun _ => hRoot (by simp))
        (fun x hx => hValid x (by simp [hx])) (by rw [slotHistory_concat]; exact hAcc.2)
        (by rw [slotHistory_concat]; exact hRun)
      simpa using this

/-- The records of a well formed account are consumed. -/
theorem consume_records (hOrd : c.geth.stack.Ordered) {out' : σ} (hRunning : s.finished = false)
    (hFin : c.finalizeAccount s = .ok (.closed false gs out))
    (hOk : grp.WellFormed c.geth (knownAfterAll [] gs))
    (hAbove : ∀ last ∈ gs.getLast?, last.hash < grp.hash)
    (hRun : runEffects c.visitor c.trieNodes (grp.openEffects c.geth) out = .ok out') :
    grp.records.foldlM c.consume s = .ok (.opened false gs grp out') := by
  obtain ⟨m₁, hVisit, hRun⟩ := runEffects_cons_eq_ok.mp hRun
  obtain ⟨m₂, hSlots, hCode⟩ := runEffects_append_eq_ok.mp hRun
  rw [Group.records, foldlM_cons_eq_ok]
  refine ⟨.opened false gs ⟨grp.hash, grp.account, [], none⟩ m₁, ?_, ?_⟩
  · refine (consume_account_iff rfl hRunning hFin).mpr ⟨?_, grp.account,
      decodeAccount_encodeAccount hOk.codeHash_length, m₁, hVisit, rfl⟩
    rintro ⟨hPos, hLe⟩
    cases hLast : gs.getLast? with
    | none =>
      rw [List.getLast?_eq_none_iff.mp hLast] at hPos
      exact absurd hPos (by decide)
    | some last =>
      rw [hLast] at hLe
      exact absurd hLe (not_le.mpr (hAbove last hLast))
  · rw [foldlM_append_eq_ok]
    refine ⟨.opened false gs ⟨grp.hash, grp.account, grp.slots, none⟩ m₂, ?_, ?_⟩
    · exact @consume_slots σ c gs ⟨grp.hash, grp.account, [], none⟩ m₁ hOrd m₂ grp.slots rfl
        (fun hne heq => hne (hOk.storage.empty_iff.mpr heq)) hOk.storage.valid
        hOk.storage.accepted hSlots
    · cases hc : grp.code with
      | none =>
        obtain rfl : m₂ = out' := by simpa [hc, codeEffects] using hCode
        have hGrp : (⟨grp.hash, grp.account, grp.slots, none⟩ : Group) = grp := by rw [← hc]
        simp [Group.codeRecords, hc, hGrp]
      | some d =>
        rw [hc, codeEffects, runEffects_singleton] at hCode
        have hOkCode := hOk.code
        rw [hc] at hOkCode
        simp only [Group.codeRecords, hc]
        rw [foldlM_cons_eq_ok]
        refine ⟨.opened false gs ⟨grp.hash, grp.account, grp.slots, some d⟩ out', ?_, ?_⟩
        · exact (consume_code_iff rfl).mpr ⟨rfl, rfl, hOkCode, out', hCode, rfl⟩
        · rw [foldlM_nil_eq_ok, ← hc]

/-- The state is ready to close the accounts `gs`. -/
def Ready (c : Consumer σ) (s : ConsumerState σ) (gs : List Group) (out : σ) : Prop :=
  s.finished = false ∧
    ∀ fin, c.finalizeAccount { s with finished := fin } = .ok (.closed fin gs out)

/-- The records of well formed accounts are consumed, one account after the other. -/
theorem consume_groups (hOrd : c.geth.stack.Ordered) {pre : List Group} {out' : σ}
    (hReady : Ready c s pre out) (hOks : WellFormedFrom c.geth (knownAfterAll [] pre) gs)
    (hAcc : c.geth.stack.Accepted (pre.map Group.leaf) (gs.map Group.leaf))
    (hRun : runEffects c.visitor c.trieNodes (groupsConsumerEffects c.geth (pre.map Group.leaf) gs)
      out = .ok out') :
    ∃ s', (gs.flatMap Group.records).foldlM c.consume s = .ok s' ∧ Ready c s' (pre ++ gs) out' := by
  induction gs generalizing s pre out with
  | nil =>
    obtain rfl : out = out' := by simpa [groupsConsumerEffects] using hRun
    exact ⟨s, by simp, by simpa using hReady⟩
  | cons grp gs ih =>
    obtain ⟨hRunning, hFin⟩ := hReady
    obtain ⟨⟨nodes, hUpdate⟩, hAcc⟩ := hAcc
    obtain ⟨m, hGrp, hRun⟩ := runEffects_append_eq_ok.mp hRun
    obtain ⟨m₁, hOpenRun, hCloseRun⟩ := runEffects_append_eq_ok.mp hGrp
    have hAbove : ∀ last ∈ pre.getLast?, last.hash < grp.hash := by
      intro last hLast
      refine hOrd hUpdate last.leaf ?_
      rw [List.getLast?_map, hLast]
      rfl
    have hSame : { s with finished := false } = s := by rw [← hRunning]
    have hRecords := consume_records hOrd hRunning (hSame ▸ hFin false) hOks.1 hAbove hOpenRun
    -- the next account is ready to close once it is read
    have hNext : Ready c (.opened false pre grp m₁) (pre ++ [grp]) m := by
      refine ⟨rfl, fun fin => ?_⟩
      exact (@finalizeAccount_opened_iff σ c pre grp m₁ _ fin hOks.1.opened).mpr
        ⟨hOks.1, ⟨nodes, hUpdate⟩, m, hCloseRun, rfl⟩
    obtain ⟨s', hFold, hReady'⟩ := ih hNext (by rw [knownAfterAll_concat]; exact hOks.2)
      (by simpa using hAcc) (by simpa using hRun)
    refine ⟨s', ?_, by simpa using hReady'⟩
    rw [List.flatMap_cons, foldlM_append_eq_ok]
    exact ⟨_, hRecords, hFold⟩

/-- The consumer does not read the hash field that a record type leaves
unused. -/
theorem consume_framed (s : ConsumerState σ) (r : Record) :
    c.consume s r.framed = c.consume s r := by
  by_cases hA : r.typ = recordAccount
  · obtain ⟨typ, accountHash, subHash, payload⟩ := r
    subst hA
    rfl
  · by_cases hC : r.typ = recordCode
    · obtain ⟨typ, accountHash, subHash, payload⟩ := r
      subst hC
      rfl
    · simp [Record.framed, hA, hC]

theorem foldlM_framed (s : ConsumerState σ) (rs : List Record) :
    (rs.map Record.framed).foldlM c.consume s = rs.foldlM c.consume s := by
  rw [List.foldlM_map]
  congr
  funext s r
  exact consume_framed s r

/-- The end of a scan. -/
theorem finish_eq_ok_iff {r : StateResult} :
    c.finish s = .ok (r, s') ↔
      s.finished = false ∧ ∃ m, c.finalizeAccount { s with finished := true } = .ok m ∧
      (c.geth.stack.hash m.accountStack).1 = c.expectedRoot ∧
      ∃ out, runEffects c.visitor c.trieNodes
          (nodeEffects zeroHash (c.geth.stack.hash m.accountStack).2) m.out = .ok out ∧
        r = ⟨c.expectedRoot, m.counts⟩ ∧ s' = { m with out := out } := by
  simp only [finish, bind_eq_ok, require_eq_ok, wrapping_eq_ok, pure_eq_ok, Except.ok.injEq,
    Prod.mk.injEq, writeNodes_eq_runEffects c.visitor, exists_const]
  refine and_congr_right fun _ => exists_congr fun m => and_congr_right fun _ => ?_
  constructor
  · rintro ⟨out, hNodes, hRoot, rfl, rfl⟩
    exact ⟨hRoot, out, hNodes, by rw [hRoot], rfl⟩
  · rintro ⟨hRoot, out, hNodes, rfl, rfl⟩
    exact ⟨out, hNodes, hRoot, by rw [hRoot], rfl⟩

/-- **Acceptance.** A record sequence is accepted in full exactly when its
records are those of a canonical state with the expected root; the scan then
returns the counts of that state after its callbacks. -/
theorem run_eq_ok_iff (hOrd : c.geth.stack.Ordered) {out₀ : σ} {r : StateResult} :
    c.run rs out₀ = .ok (r, s') ↔
      ∃ gs, rs.map Record.framed = gs.flatMap Group.records ∧
        Canonical c.geth c.expectedRoot gs ∧
        ∃ out, runEffects c.visitor c.trieNodes (scanEffects c.geth gs) out₀ = .ok out ∧
          r = ⟨c.expectedRoot, totalCounts gs⟩ ∧ s' = .closed true gs out := by
  simp only [run, bind_eq_ok, finish_eq_ok_iff, scanEffects, runEffects_append_eq_ok]
  constructor
  · rintro ⟨s, hFold, -, m, hFin, hRoot, out, hNodes, rfl, rfl⟩
    have hStand := Standing.run hOrd (.start : Standing c out₀ [] _) hFold
    obtain ⟨gs, mid, rfl, hRecords, hOks, hAcc, hRun⟩ := hStand.finalize hFin
    exact ⟨gs, by simpa using hRecords, ⟨hOks, hAcc, hRoot⟩, out, ⟨mid, hRun, hNodes⟩, rfl, rfl⟩
  · rintro ⟨gs, hRecords, hCan, out, ⟨mid, hRun, hNodes⟩, rfl, rfl⟩
    have hStart : Ready c (.init out₀) [] out₀ := ⟨rfl, fun fin => rfl⟩
    obtain ⟨s, hFold, hReady⟩ := consume_groups hOrd hStart hCan.wellFormed hCan.accepted hRun
    rw [List.nil_append] at hReady
    refine ⟨s, ?_, hReady.1, _, hReady.2 true, hCan.root_eq, out, hNodes, rfl, rfl⟩
    rw [← foldlM_framed, hRecords]
    exact hFold

end Consumer

end L2State
