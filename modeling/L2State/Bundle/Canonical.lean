import L2State.Bundle.ConsumerSpec

/-!
# L2State — a state has one record sequence

Acceptance makes every accepted sequence the record sequence of a canonical
state; here a canonical state is determined by its root, as long as the trie
root and the code hash do not collide on the tries and codes at hand.

* `accountLeaves`, `storageLeaves`, `codePayloads` — the trie leaves and the
  codes that a record sequence carries.
* `CanonicalOrder` — accounts strictly increasing, each followed by its slots
  in strictly increasing order and then by its code exactly at the first
  reference.
* `accepted_records_unique` — two sequences accepted under one root are equal
  and in canonical order.
-/

namespace L2State

open Lib

/-! ## The tries and codes of a record sequence -/

/-- The account leaf of an account record. -/
def accountLeaf? (r : Record) : Option (Bytes × Bytes) :=
  if r.typ = recordAccount then
    match decodeAccount r.payload with
    | .ok (_, full) => some (r.accountHash.bytes, full)
    | .error _ => none
  else none

/-- The storage leaf of a storage record of the account `h`. -/
def storageLeaf? (h : Hash) (r : Record) : Option (Bytes × Bytes) :=
  if r.typ = recordStorage ∧ r.accountHash = h then some (r.subHash.bytes, r.payload) else none

/-- The account leaves of a record sequence. -/
def accountLeaves (rs : List Record) : History := rs.filterMap accountLeaf?

/-- The storage leaves of one account in a record sequence. -/
def storageLeaves (rs : List Record) (h : Hash) : History := rs.filterMap (storageLeaf? h)

/-- The codes of a record sequence. -/
def codePayloads (rs : List Record) : List Bytes :=
  (rs.filter fun r => r.typ = recordCode).map Record.payload

/-- The leaf maps of all tries in a record sequence. -/
def leafMaps (rs : List Record) : Set History :=
  {accountLeaves rs} ∪ Set.range (storageLeaves rs)

variable {grp : Group} {gs : List Group} {g : Geth} {known : List Hash}

theorem accountLeaves_records (h : grp.account.codeHash.length = 32) :
    accountLeaves grp.records = [grp.leaf] := by
  have hAccount : accountLeaf? (.account grp.hash (slimAccountRLP grp.account)) =
      some grp.leaf := by
    simp [accountLeaf?, Record.account, decodeAccount_encodeAccount h, Group.leaf, Group.full]
  have hStorage : grp.storageRecords.filterMap accountLeaf? = [] := by
    simp [Group.storageRecords, accountLeaf?, Record.storage, recordStorage, recordAccount]
  have hCode : grp.codeRecords.filterMap accountLeaf? = [] := by
    cases hc : grp.code <;>
      simp [Group.codeRecords, hc, accountLeaf?, Record.code, recordCode, recordAccount]
  simp [accountLeaves, Group.records, hAccount, hStorage, hCode]

theorem storageLeaves_records (grp : Group) (h : Hash) :
    storageLeaves grp.records h = if grp.hash = h then slotHistory grp.slots else [] := by
  have hAccount : storageLeaf? h (.account grp.hash (slimAccountRLP grp.account)) = none := by
    simp [storageLeaf?, Record.account, recordStorage, recordAccount]
  have hCode : grp.codeRecords.filterMap (storageLeaf? h) = [] := by
    cases hc : grp.code <;>
      simp [Group.codeRecords, hc, storageLeaf?, Record.code, recordCode, recordStorage]
  have hStorage : grp.storageRecords.filterMap (storageLeaf? h) =
      if grp.hash = h then slotHistory grp.slots else [] := by
    split
    · next hEq =>
      subst hEq
      have hFun : (storageLeaf? grp.hash ∘ fun s : Hash × Bytes =>
          Record.storage grp.hash s.1 s.2) = fun s => some (s.1.bytes, s.2) := by
        funext s
        simp [storageLeaf?, Record.storage]
      rw [Group.storageRecords, slotHistory, List.filterMap_map, hFun, List.filterMap_eq_map']
    · next hNe => simp [Group.storageRecords, storageLeaf?, Record.storage, hNe]
  simp [storageLeaves, Group.records, hAccount, hStorage, hCode]

theorem accountLeaves_groups (h : ∀ grp ∈ gs, grp.account.codeHash.length = 32) :
    accountLeaves (gs.flatMap Group.records) = gs.map Group.leaf := by
  induction gs with
  | nil => rfl
  | cons grp gs ih =>
    have ih := ih fun x hx => h x (by simp [hx])
    have hHead := accountLeaves_records (h grp (by simp))
    simp only [accountLeaves] at ih hHead ⊢
    simp [ih, hHead]

/-- The storage leaves of an account among all records. -/
theorem storageLeaves_groups (hNodup : (gs.map Group.hash).Nodup) (hMem : grp ∈ gs) :
    storageLeaves (gs.flatMap Group.records) grp.hash = slotHistory grp.slots := by
  have hOther : ∀ gs : List Group, grp.hash ∉ gs.map Group.hash →
      storageLeaves (gs.flatMap Group.records) grp.hash = [] := by
    intro gs hNot
    induction gs with
    | nil => rfl
    | cons x gs ih =>
      simp only [List.map_cons, List.mem_cons, not_or] at hNot
      have hHead := storageLeaves_records x grp.hash
      rw [if_neg (Ne.symm hNot.1)] at hHead
      have ih := ih hNot.2
      simp only [storageLeaves] at ih hHead ⊢
      simp [ih, hHead]
  induction gs with
  | nil => cases hMem
  | cons x gs ih =>
    rw [List.map_cons, List.nodup_cons] at hNodup
    have hHead := storageLeaves_records x grp.hash
    rcases List.mem_cons.mp hMem with rfl | hMem
    · have hTail := hOther gs hNodup.1
      rw [if_pos rfl] at hHead
      simp only [storageLeaves] at hTail hHead ⊢
      simp [hTail, hHead]
    · have hNe : x.hash ≠ grp.hash := by
        intro heq
        exact hNodup.1 (heq ▸ List.mem_map_of_mem hMem)
      rw [if_neg hNe] at hHead
      have ih := ih hNodup.2 hMem
      simp only [storageLeaves] at ih hHead ⊢
      simp [ih, hHead]

theorem mem_codePayloads_groups (hMem : grp ∈ gs) {d : Bytes} (hCode : grp.code = some d) :
    d ∈ codePayloads (gs.flatMap Group.records) := by
  refine List.mem_map.mpr
    ⟨.code grp.codeHash d, List.mem_filter.mpr ⟨?_, by simp [Record.code]⟩, rfl⟩
  refine List.mem_flatMap.mpr ⟨grp, hMem, ?_⟩
  simp [Group.records, Group.codeRecords, hCode]

/-! ## A canonical state is determined by its root -/

theorem WellFormedFrom.codeHash_length (h : WellFormedFrom g known gs) :
    ∀ grp ∈ gs, grp.account.codeHash.length = 32 := by
  induction gs generalizing known with
  | nil => simp
  | cons x gs ih => simpa using ⟨h.1.codeHash_length, ih h.2⟩

theorem Canonical.hashes_pairwise (hOrd : g.stack.Ordered) {root : Hash} (h : Canonical g root gs) :
    (gs.map Group.hash).Pairwise (· < ·) := by
  have hLeaves := h.accepted.pairwise hOrd
  rw [List.pairwise_map] at hLeaves ⊢
  exact hLeaves.imp fun hab => FixedBytes.lt_iff.mpr hab

theorem StorageOk.slots_pairwise (hOrd : g.stack.Ordered) {root : Hash}
    {slots : List (Hash × Bytes)} (h : StorageOk g root slots) :
    (slots.map Prod.fst).Pairwise (· < ·) := by
  have hLeaves := h.accepted.pairwise hOrd
  rw [slotHistory, List.pairwise_map] at hLeaves
  rw [List.pairwise_map]
  exact hLeaves.imp fun hab => FixedBytes.lt_iff.mpr hab

theorem slotHistory_injective {a b : List (Hash × Bytes)} (h : slotHistory a = slotHistory b) :
    a = b := by
  refine List.map_injective_iff.mpr ?_ h
  rintro ⟨k, v⟩ ⟨k', v'⟩ heq
  obtain ⟨hk, hv⟩ := Prod.mk.inj heq
  exact Prod.ext (FixedBytes.bytes_injective hk) hv

/-- One account: the leaf determines the account, its root the slots, and its
code hash the code. -/
theorem Group.WellFormed.eq {a b : Group} (ha : a.WellFormed g known) (hb : b.WellFormed g known)
    (hLeaf : a.leaf = b.leaf)
    (hTrie : (g.stack.hash (slotHistory a.slots)).1 = (g.stack.hash (slotHistory b.slots)).1 →
      slotHistory a.slots = slotHistory b.slots)
    (hKeccak : ∀ c ∈ a.code, ∀ d ∈ b.code, g.keccak c = g.keccak d → c = d) : a = b := by
  obtain ⟨hHash, hFull⟩ := Prod.mk.inj hLeaf
  have hHash : a.hash = b.hash := FixedBytes.bytes_injective hHash
  have hAccount : a.account = b.account :=
    encodeStateAccount_injective ha.codeHash_length hb.codeHash_length hFull
  have hCodeHash : a.codeHash = b.codeHash := by rw [Group.codeHash, hAccount, Group.codeHash]
  have hSlots : a.slots = b.slots := by
    by_cases hEmpty : a.account.root = emptyRootHash
    · rw [ha.storage.empty_iff.mpr hEmpty, hb.storage.empty_iff.mpr (hAccount ▸ hEmpty)]
    · have hNeA : a.slots ≠ [] := fun h => hEmpty (ha.storage.empty_iff.mp h)
      have hNeB : b.slots ≠ [] := fun h => hEmpty (hAccount ▸ hb.storage.empty_iff.mp h)
      refine slotHistory_injective (hTrie ?_)
      rw [ha.storage.root_eq hNeA, hb.storage.root_eq hNeB, hAccount]
  have hCode : a.code = b.code := by
    have hA := ha.code
    have hB := hb.code
    rw [← hCodeHash] at hB
    cases hca : a.code with
    | none =>
      rw [hca] at hA
      cases hcb : b.code with
      | none => rfl
      | some d =>
        rw [hcb] at hB
        exact (hA.elim hB.1 hB.2.1).elim
    | some c =>
      rw [hca] at hA
      cases hcb : b.code with
      | none =>
        rw [hcb] at hB
        exact (hB.elim hA.1 hA.2.1).elim
      | some d =>
        rw [hcb] at hB
        rw [hKeccak c hca d hcb (hA.2.2.trans hB.2.2.symm)]
  obtain ⟨_, _, _, _⟩ := a
  obtain ⟨_, _, _, _⟩ := b
  simp only at hHash hAccount hSlots hCode
  rw [hHash, hAccount, hSlots, hCode]

/-- Groups with equal leaves are equal, if no hash at hand collides. -/
theorem groups_eq {gs' : List Group} (h : WellFormedFrom g known gs)
    (h' : WellFormedFrom g known gs') (hLeaf : gs.map Group.leaf = gs'.map Group.leaf)
    (hTrie : ∀ a ∈ gs, ∀ b ∈ gs',
      (g.stack.hash (slotHistory a.slots)).1 = (g.stack.hash (slotHistory b.slots)).1 →
      slotHistory a.slots = slotHistory b.slots)
    (hKeccak : ∀ a ∈ gs, ∀ b ∈ gs', ∀ c ∈ a.code, ∀ d ∈ b.code, g.keccak c = g.keccak d → c = d) :
    gs = gs' := by
  induction gs generalizing known gs' with
  | nil => exact (List.map_eq_nil_iff.mp hLeaf.symm).symm
  | cons a gs ih =>
    cases gs' with
    | nil => cases hLeaf
    | cons b gs' =>
      obtain ⟨hHead, hTail⟩ := List.cons.inj hLeaf
      obtain rfl : a = b := h.1.eq h'.1 hHead (hTrie a (by simp) b (by simp))
        (hKeccak a (by simp) b (by simp))
      rw [ih h.2 h'.2 hTail (fun x hx y hy => hTrie x (by simp [hx]) y (by simp [hy]))
        (fun x hx y hy => hKeccak x (by simp [hx]) y (by simp [hy]))]

/-! ## Canonical order -/

/-- The codes known after some accounts are the nonempty code hashes they
reference. -/
theorem mem_knownAfterAll (h : WellFormedFrom g known gs) {x : Hash} :
    x ∈ knownAfterAll known gs ↔
      x ∈ known ∨ (x ≠ emptyCodeHash ∧ ∃ grp ∈ gs, grp.codeHash = x) := by
  induction gs generalizing known with
  | nil => simp [knownAfterAll]
  | cons grp gs ih =>
    have hStep : knownAfterAll known (grp :: gs) =
        knownAfterAll (knownAfter known grp.codeHash grp.code) gs := rfl
    rw [hStep, ih h.2]
    have hCode := h.1.code
    cases hc : grp.code with
    | some d =>
      rw [hc] at hCode
      simp only [knownAfter, List.mem_cons, exists_eq_or_imp]
      constructor
      · rintro ((rfl | hx) | hx)
        · exact .inr ⟨hCode.1, .inl rfl⟩
        · exact .inl hx
        · exact .inr ⟨hx.1, .inr hx.2⟩
      · rintro (hx | ⟨hx, rfl | hy⟩)
        · exact .inl (.inr hx)
        · exact .inl (.inl rfl)
        · exact .inr ⟨hx, hy⟩
    | none =>
      rw [hc] at hCode
      simp only [knownAfter, List.mem_cons, exists_eq_or_imp]
      constructor
      · rintro (hx | hx)
        · exact .inl hx
        · exact .inr ⟨hx.1, .inr hx.2⟩
      · rintro (hx | ⟨hx, rfl | hy⟩)
        · exact .inl hx
        · exact .inl (hCode.resolve_left hx)
        · exact .inr ⟨hx, hy⟩

/-- The canonical record order: accounts strictly increasing, each followed by
exactly the slots of its storage trie in strictly increasing order, then by
its code if and only if no earlier account references that code hash. -/
def CanonicalOrder (g : Geth) (rs : List Record) : Prop :=
  ∃ gs : List Group, rs = gs.flatMap Group.records ∧ (gs.map Group.hash).Pairwise (· < ·) ∧
    (∀ grp ∈ gs, (grp.slots.map Prod.fst).Pairwise (· < ·) ∧
      StorageOk g grp.account.root grp.slots ∧ ∀ c ∈ grp.code, g.keccak c = grp.codeHash) ∧
    ∀ earlier grp later, gs = earlier ++ grp :: later →
      (grp.code.isSome ↔ grp.codeHash ≠ emptyCodeHash ∧ ∀ e ∈ earlier, e.codeHash ≠ grp.codeHash)

theorem wellFormedFrom_append {gs' : List Group} :
    WellFormedFrom g known (gs ++ gs') ↔
      WellFormedFrom g known gs ∧ WellFormedFrom g (knownAfterAll known gs) gs' := by
  induction gs generalizing known with
  | nil => simp [WellFormedFrom, knownAfterAll]
  | cons x gs ih => simp [WellFormedFrom, knownAfterAll, ih, and_assoc]

theorem WellFormedFrom.exists_known (h : WellFormedFrom g known gs) (hMem : grp ∈ gs) :
    ∃ known', grp.WellFormed g known' := by
  obtain ⟨earlier, later, rfl⟩ := List.append_of_mem hMem
  exact ⟨_, (wellFormedFrom_append.mp h).2.1⟩

/-- The records of a canonical state are in canonical order. -/
theorem Canonical.canonicalOrder (hOrd : g.stack.Ordered) {root : Hash} (h : Canonical g root gs) :
    CanonicalOrder g (gs.flatMap Group.records) := by
  refine ⟨gs, rfl, h.hashes_pairwise hOrd, ?_, ?_⟩
  · intro grp hMem
    obtain ⟨known, hOk⟩ := h.wellFormed.exists_known hMem
    refine ⟨hOk.storage.slots_pairwise hOrd, hOk.storage, fun c hc => ?_⟩
    have := hOk.code
    rw [hc] at this
    exact this.2.2
  · rintro earlier grp later rfl
    obtain ⟨hEarlier, hOk, -⟩ := wellFormedFrom_append.mp h.wellFormed
    have hKnown := @mem_knownAfterAll _ _ _ hEarlier grp.codeHash
    simp only [List.not_mem_nil, false_or] at hKnown
    have hCode := hOk.code
    cases hc : grp.code with
    | none =>
      rw [hc] at hCode
      simp only [Option.isSome_none, Bool.false_eq_true, false_iff, not_and, not_forall, not_not]
      intro hne
      obtain ⟨-, e, he, heq⟩ := hKnown.mp (hCode.resolve_left hne)
      exact ⟨e, he, heq⟩
    | some d =>
      rw [hc] at hCode
      simp only [Option.isSome_some, true_iff]
      refine ⟨hCode.1, fun e he heq => hCode.2.1 (hKnown.mpr ⟨hCode.1, e, he, heq⟩)⟩

/-- **A state has exactly one accepted record sequence.** Two sequences that
are accepted in full under the same expected root, by consumers with any
visitors and sinks, are equal record for record, and the sequence is in
canonical order. The trie root must not collide on the leaf maps of the two
sequences, and the code hash not on their codes. -/
theorem accepted_records_unique {σ τ : Type} {g : Geth} (hOrd : g.stack.Ordered) {root : Hash}
    {v₁ : Visitor σ} {k₁ : NodeSink σ} {v₂ : Visitor τ} {k₂ : NodeSink τ}
    {rs₁ rs₂ : List Record} {out₁ : σ} {out₂ : τ} {r₁ r₂ : StateResult × ConsumerState _}
    (hFramed₁ : ∀ r ∈ rs₁, r.framed = r) (hFramed₂ : ∀ r ∈ rs₂, r.framed = r)
    (hRun₁ : (⟨g, root, v₁, k₁⟩ : Consumer σ).run rs₁ out₁ = .ok r₁)
    (hRun₂ : (⟨g, root, v₂, k₂⟩ : Consumer τ).run rs₂ out₂ = .ok r₂)
    (hTrie : Set.InjOn (fun h => (g.stack.hash h).1) (leafMaps rs₁ ∪ leafMaps rs₂))
    (hKeccak : Set.InjOn g.keccak {c | c ∈ codePayloads rs₁ ∨ c ∈ codePayloads rs₂}) :
    rs₁ = rs₂ ∧ CanonicalOrder g rs₁ := by
  obtain ⟨gs₁, hRecords₁, hCan₁, -⟩ := (Consumer.run_eq_ok_iff hOrd).mp hRun₁
  obtain ⟨gs₂, hRecords₂, hCan₂, -⟩ := (Consumer.run_eq_ok_iff hOrd).mp hRun₂
  rw [List.map_congr_left hFramed₁, List.map_id'] at hRecords₁
  rw [List.map_congr_left hFramed₂, List.map_id'] at hRecords₂
  subst hRecords₁ hRecords₂
  have hNodup₁ : (gs₁.map Group.hash).Nodup := (hCan₁.hashes_pairwise hOrd).imp fun h => ne_of_lt h
  have hNodup₂ : (gs₂.map Group.hash).Nodup := (hCan₂.hashes_pairwise hOrd).imp fun h => ne_of_lt h
  -- the account leaves agree because the account roots do
  have hLeaves : gs₁.map Group.leaf = gs₂.map Group.leaf := by
    rw [← accountLeaves_groups hCan₁.wellFormed.codeHash_length,
      ← accountLeaves_groups hCan₂.wellFormed.codeHash_length]
    refine hTrie (.inl (.inl rfl)) (.inr (.inl rfl)) ?_
    simp only [accountLeaves_groups hCan₁.wellFormed.codeHash_length,
      accountLeaves_groups hCan₂.wellFormed.codeHash_length]
    exact hCan₁.root_eq.trans hCan₂.root_eq.symm
  have hEq : gs₁ = gs₂ := by
    refine groups_eq hCan₁.wellFormed hCan₂.wellFormed hLeaves ?_ ?_
    · intro a ha b hb hHash
      rw [← storageLeaves_groups hNodup₁ ha, ← storageLeaves_groups hNodup₂ hb] at hHash ⊢
      exact hTrie (.inl (.inr ⟨a.hash, rfl⟩)) (.inr (.inr ⟨b.hash, rfl⟩)) hHash
    · intro a ha b hb c hc d hd hHash
      exact hKeccak (.inl (mem_codePayloads_groups ha hc))
        (.inr (mem_codePayloads_groups hb hd)) hHash
  subst hEq
  exact ⟨rfl, hCan₁.canonicalOrder hOrd⟩

/-- The records of the sample state. -/
def sampleRecords : List Record := sampleGroups.flatMap Group.records

theorem storageLeaves_sampleRecords (h : Hash) :
    storageLeaves sampleRecords h = if sampleHashA = h then sampleStorageLeaves else [] := by
  have hSplit : storageLeaves sampleRecords h =
      (if sampleHashA = h then sampleStorageLeaves else []) ++
        if sampleHashB = h then [] else [] := by
    simp only [sampleRecords, sampleGroups, List.flatMap_cons, List.flatMap_nil, List.append_nil]
    rw [storageLeaves, List.filterMap_append]
    exact congrArg₂ _ (storageLeaves_records _ h) (storageLeaves_records _ h)
  rw [hSplit]
  simp

/-- The sample state: its records are accepted, and they are the only ones. -/
theorem accepted_records_unique_sample :
    (∃ r, (⟨sampleGeth, sampleStateRoot, recordCalls, .nil⟩ : Consumer _).run
      sampleRecords [] = .ok r) ∧
      sampleRecords = sampleRecords ∧ CanonicalOrder sampleGeth sampleRecords := by
  have hRun : ((⟨sampleGeth, sampleStateRoot, recordCalls, .nil⟩ : Consumer _).run
      sampleRecords []).isOk = true := by decide +kernel
  obtain ⟨r, hr⟩ : ∃ r, (⟨sampleGeth, sampleStateRoot, recordCalls, .nil⟩ : Consumer _).run
      sampleRecords [] = .ok r := by
    revert hRun
    cases (⟨sampleGeth, sampleStateRoot, recordCalls, .nil⟩ : Consumer _).run sampleRecords [] with
    | ok r => exact fun _ => ⟨r, rfl⟩
    | error e => exact fun h => absurd h (by simp [Except.isOk, Except.toBool])
  have hFramed : ∀ r ∈ sampleRecords, r.framed = r := by decide +kernel
  refine ⟨⟨r, hr⟩, accepted_records_unique (referenceGeth_ordered _) hFramed hFramed hr hr ?_ ?_⟩
  · -- three tries: the accounts, the slot, and the empty one
    have hMaps : ∀ l ∈ leafMaps sampleRecords ∪ leafMaps sampleRecords,
        l ∈ [sampleAccountLeaves, sampleStorageLeaves, []] := by
      rw [Set.union_self]
      rintro l (rfl | ⟨h, rfl⟩)
      · have : accountLeaves sampleRecords = sampleAccountLeaves := by decide +kernel
        simp [this]
      · rw [storageLeaves_sampleRecords]
        split <;> simp
    have hInj : ∀ l ∈ [sampleAccountLeaves, sampleStorageLeaves, []],
        ∀ l' ∈ [sampleAccountLeaves, sampleStorageLeaves, []],
        (sampleGeth.stack.hash l).1 = (sampleGeth.stack.hash l').1 → l = l' := by decide +kernel
    exact fun l hl l' hl' => hInj l (hMaps l hl) l' (hMaps l' hl')
  · have hCodes : codePayloads sampleRecords = [sampleCode] := by decide +kernel
    intro c hc d hd _
    simp only [hCodes, List.mem_singleton, or_self, Set.mem_ofPred_eq] at hc hd
    rw [hc, hd]

end L2State
