import L2State.Ovm.Conversion
import L2State.Ovm.AllocInput

/-!
# L2State — the GenesisAlloc overlay

`applyOVMGenesisAlloc` of `ovm_alloc.go`: the account records of the index are
applied to the converted state one after the other. A record gives an account
the fields that its file entry has, and its storage trie is rebuilt with the
slot records. The accounts that result are patches of the account trie.

* `applyAllocAccount`, `applyOVMGenesisAlloc` — the functions.
* `overlaidAccount`, `overlayOf` — what a record makes of an account.
* `overlay_of_run` — the patches that a run has applied.
* `genesis_alloc_is_overlay` — **the overlay is a patch, field by field**, and
  the order in the file does not matter.
-/

namespace L2State

open Lib

section Code

variable (x : BalanceInputs)

/-- The state of the loop: the reader, the index and the writes to the
target. -/
structure AllocState where
  reader : AccountReader x.tries x.root
  index  : OvmIndex
  ops    : List DbOp

/-- The account with the scalar fields of a record. -/
def allocScalars (g : Geth) (patch : AllocAccount) (a : StateAccount) : StateAccount where
  nonce := if patch.fields &&& ovmAllocNonceField ≠ 0 then patch.nonce else a.nonce
  -- `SetBytes`
  balance := if patch.fields &&& ovmAllocBalanceField ≠ 0 then .ofNat 256 (ofBE patch.balance)
    else a.balance
  root := a.root
  codeHash := if patch.fields &&& ovmAllocCodeField ≠ 0 then (g.keccak patch.code).bytes
    else a.codeHash

/-- The write of the code of a record. Empty code is not stored. -/
def allocCodeOps (g : Geth) (owner : Hash) (patch : AllocAccount) : List DbOp :=
  if patch.fields &&& ovmAllocCodeField ≠ 0 ∧ patch.code.length ≠ 0 then
    (Output.persistent .hash).ops (.code owner (g.keccak patch.code) patch.code)
  else []

/-- The storage root after the slot records. -/
def allocStorageRoot (owner : Hash) (patch : AllocAccount) (root : Hash) (index : OvmIndex) :
    BalanceProc x (Hash × List DbOp) :=
  if patch.fields &&& ovmAllocStorageField ≠ 0 then
    computed (ovmIterator x owner root) >>= fun original =>
      rebuildPatchedTriePrefix x.geth (checkParent x) (balanceCall x .evidenceErr) owner original
        (Store.under index.db (tag 'H' :: owner.bytes))
  else pure (root, [])

/-- `applyAllocAccount`. -/
def applyAllocAccount (owner : Hash) (patch : AllocAccount) (s : AllocState x) :
    BalanceProc x (AllocState x) :=
  if patch.fields = 0 then pure s
  else
    computed (s.reader.read owner).1 >>= fun account =>
      allocStorageRoot x owner patch account.root s.index >>= fun storage =>
        pure { reader := (s.reader.read owner).2
               index := s.index.put 'I' owner.bytes
                 (encodeStateAccount { allocScalars x.geth patch account with root := storage.1 })
               ops := s.ops ++ allocCodeOps x.geth owner patch ++ storage.2 }

/-- One account record. -/
def applyAllocRecord (s : AllocState x) (e : Bytes × Bytes) : BalanceProc x (AllocState x) :=
  checkParent x >>= fun _ =>
    computed (require (e.1.length = 32)
      (.msg "invalid GenesisAlloc account index key" [])) >>= fun _ =>
      computed (wrapping "decode GenesisAlloc account patch: %w" []
        (rlpResult (decodeAllocAccount e.2))) >>= fun patch =>
        wrapped (.wrap "apply GenesisAlloc account %s: %w" [.bytes e.1])
          (applyAllocAccount x (.ofBytes 32 e.1) patch s)

/-- What `applyOVMGenesisAlloc` returns, with its effects. -/
structure Overlaid where
  root  : Hash
  index : OvmIndex
  ops   : List DbOp

/-- `applyOVMGenesisAlloc`. -/
def applyOVMGenesisAlloc (index : OvmIndex) : BalanceProc x Overlaid :=
  (Store.under index.db [tag 'G']).foldlM (applyAllocRecord x) ⟨.new x.tries x.root, index, []⟩ >>=
    fun s => checkEvidence x >>= fun _ =>
      -- `CloseContext` of the code writer
      checkParent x >>= fun _ =>
        computed (ovmIterator x zeroHash x.root) >>= fun original =>
          rebuildPatchedTriePrefix x.geth (checkParent x) (balanceCall x .evidenceErr) zeroHash
              original (Store.under s.index.flush.db [tag 'I']) >>= fun accounts =>
            pure ⟨accounts.1, s.index.flush, s.ops ++ accounts.2⟩

end Code

/-! ## What a record does -/

section Meaning

variable (x : BalanceInputs) (accounts : History) (storage : Hash → History) (db : Store)

/-- The slots of an account with its slot records. -/
def overlaidSlots (owner : Hash) : History :=
  patched (storage owner) (Store.under db (tag 'H' :: owner.bytes))

/-- The account with a record. -/
def overlaidAccount (owner : Hash) (patch : AllocAccount) (a : StateAccount) : StateAccount :=
  { allocScalars x.geth patch a with
    root := if patch.fields &&& ovmAllocStorageField ≠ 0 then
      (x.geth.stack.hash (overlaidSlots storage db owner)).1 else a.root }

/-- The patch of the account trie that a record makes: none without fields. -/
def overlayOf (e : Bytes × Bytes) : Option (Bytes × Bytes) :=
  match decodeAllocAccount e.2, decodeLeaf (.ofBytes 32 e.1) (valueAt accounts e.1) with
  | .ok patch, .ok a =>
    if patch.fields = 0 then none
    else some (e.1, encodeStateAccount (overlaidAccount x storage db (.ofBytes 32 e.1) patch a))
  | _, _ => none

/-- The patches of all records. -/
def overlays : History := (Store.under db [tag 'G']).filterMap (overlayOf x accounts storage db)

/-- What is known of a record that has been applied: its account is readable,
and its code and the nodes of its storage are written. -/
structure Applied (ops : List DbOp) (e : Bytes × Bytes) (patch : AllocAccount) (a : StateAccount) :
    Prop where
  account : decodeLeaf (.ofBytes 32 e.1) (valueAt accounts e.1) = .ok a
  code    : ∀ op ∈ allocCodeOps x.geth (.ofBytes 32 e.1) patch, op ∈ ops
  slots   : patch.fields &&& ovmAllocStorageField ≠ 0 →
    Increasing (storage (.ofBytes 32 e.1)) ∧
    x.geth.stack.Accepted [] (overlaidSlots storage db (.ofBytes 32 e.1)) ∧
    ∀ op ∈ nodeOps (.ofBytes 32 e.1)
      (x.geth.stack.nodesOf (overlaidSlots storage db (.ofBytes 32 e.1))),
      op ∈ ops

/-- A record of the namespace `G`, after the loop has passed it. -/
def Passed (ops : List DbOp) (e : Bytes × Bytes) : Prop :=
  e.1.length = 32 ∧ ∃ patch, decodeAllocAccount e.2 = .ok patch ∧
    (patch.fields ≠ 0 → ∃ a, Applied x accounts storage db ops e patch a)

end Meaning

variable {x : BalanceInputs} {accounts : History} {storage : Hash → History}

theorem Passed.mono {db : Store} {ops ops' : List DbOp} {e : Bytes × Bytes}
    (h : Passed x accounts storage db ops e) (hOps : ∀ op ∈ ops, op ∈ ops') :
    Passed x accounts storage db ops' e := by
  obtain ⟨hLen, patch, hDecode, hApplied⟩ := h
  refine ⟨hLen, patch, hDecode, fun hFields => ?_⟩
  obtain ⟨a, hAccount, hCode, hSlots⟩ := hApplied hFields
  refine ⟨a, hAccount, fun op hop => hOps op (hCode op hop), fun hBit => ?_⟩
  obtain ⟨hOrder, hAccepted, hNodes⟩ := hSlots hBit
  exact ⟨hOrder, hAccepted, fun op hop => hOps op (hNodes op hop)⟩

/-- The write of a patch. -/
def overlayOp (p : Bytes × Bytes) : DbOp := .put (tag 'I' :: p.1) p.2

/-- Whether a key is in a namespace. -/
def inNamespace (ns : Char) (k : Bytes) : Bool := k.head? = some (tag ns)

/-- The keys of the three namespaces of the overlay. -/
def isAllocKey (k : Bytes) : Bool := inNamespace 'G' k || inNamespace 'H' k || inNamespace 'I' k

section Runs

variable {tr : List (Event (BalanceCalls x))} {index : OvmIndex}

/-- The state under a root that the overlay starts from. -/
structure Converted (x : BalanceInputs) (accounts : History) (storage : Hash → History) : Prop where
  leaves : x.tries.Holds zeroHash x.root accounts
  slots  : ∀ hash account, decodeLeaf hash (valueAt accounts hash.bytes) = .ok account →
    x.tries.Holds hash account.root (storage hash)

theorem accountAt_of_converted (hState : Converted x accounts storage) {hash : Hash}
    {a : StateAccount} (h : accountAt x.tries x.root hash = .ok a) :
    decodeLeaf hash (valueAt accounts hash.bytes) = .ok a := by
  obtain ⟨t, hOpen, hk₁⟩ := bind_eq_ok.mp h
  obtain ⟨blob, hGet, hDecode⟩ := bind_eq_ok.mp hk₁
  rw [← (hState.leaves t hOpen).get _ _ hGet]
  exact hDecode

/-- The storage root after the slot records is the one of the patched slots. -/
theorem returns_allocStorageRoot {owner : Hash} {patch : AllocAccount} {root : Hash}
    {out : Hash × List DbOp} (hHolds : x.tries.Holds owner root (storage owner))
    (h : Returns (allocStorageRoot x owner patch root index) tr out) :
    out.1 = (if patch.fields &&& ovmAllocStorageField ≠ 0 then
        (x.geth.stack.hash (overlaidSlots storage index.db owner)).1 else root) ∧
      (patch.fields &&& ovmAllocStorageField ≠ 0 → Increasing (storage owner) ∧
        x.geth.stack.Accepted [] (overlaidSlots storage index.db owner) ∧
        out.2 = nodeOps owner (x.geth.stack.nodesOf (overlaidSlots storage index.db owner))) := by
  unfold allocStorageRoot at h
  by_cases hBit : patch.fields &&& ovmAllocStorageField ≠ 0
  · rw [if_pos hBit] at h ⊢
    obtain ⟨original, t₁, t₂, hIter, hRebuild, rfl⟩ := returns_bind.mp h
    obtain ⟨hDone, ⟨hAccepted, hRoot⟩, hOps⟩ := returns_rebuildPatchedTriePrefix hRebuild
    obtain ⟨hOrder, hLeaves⟩ := leaves_of_ovmIterator hHolds (returns_computed.mp hIter).2
    rw [hLeaves hDone] at hAccepted hRoot hOps
    exact ⟨hRoot.symm, fun _ => ⟨hOrder, hAccepted, hOps⟩⟩
  · rw [if_neg hBit] at h ⊢
    obtain ⟨-, rfl⟩ := returns_pure.mp h
    exact ⟨rfl, fun h => absurd h hBit⟩

/-- The invariant of the loop over the account records. -/
structure Overlaying (x : BalanceInputs) (accounts : History) (storage : Hash → History)
    (index : OvmIndex) (seen : History) (s : AllocState x) : Prop where
  pushed : s.index =
    index.pushAll ((seen.filterMap (overlayOf x accounts storage index.db)).map overlayOp)
  passed : ∀ e ∈ seen, Passed x accounts storage index.db s.ops e

/-- The slot records are not touched by the patches. -/
theorem Overlaying.slotRecords {seen : History} {s : AllocState x}
    (hSettled : index.Settled (inNamespace 'H') index.db)
    (h : Overlaying x accounts storage index seen s) (owner : Hash) :
    Store.under s.index.db (tag 'H' :: owner.bytes) =
      Store.under index.db (tag 'H' :: owner.bytes) := by
  have hKept : s.index.Settled (inNamespace 'H') index.db := by
    rw [h.pushed]
    refine hSettled.pushAll fun op hop => ?_
    obtain ⟨p, -, rfl⟩ := List.mem_map.mp hop
    show decide ((tag 'I' :: p.1).head? = some (tag 'H')) = false
    rw [List.head?_cons]
    decide
  exact Store.under_congr fun k => hKept.stored _ (by simp [inNamespace])

variable {e : Bytes × Bytes} {db : Store}

/-- **One record more.** -/
theorem Overlaying.step {seen : History} {s s' : AllocState x}
    (hState : Converted x accounts storage) (hSettled : index.Settled (inNamespace 'H') index.db)
    (hInv : Overlaying x accounts storage index seen s)
    (h : Returns (applyAllocRecord x s e) tr s') :
    Overlaying x accounts storage index (seen ++ [e]) s' := by
  obtain ⟨⟨⟩, t₁, u₁, -, hk₁, rfl⟩ := returns_bind.mp h
  obtain ⟨⟨⟩, t₂, u₂, hLen, hk₂, rfl⟩ := returns_bind.mp hk₁
  obtain ⟨patch, t₃, u₃, hDecode, hApply, rfl⟩ := returns_bind.mp hk₂
  replace hLen : e.1.length = 32 := require_eq_ok.mp (returns_computed.mp hLen).2
  replace hDecode : decodeAllocAccount e.2 = .ok patch := by
    have hRead := (returns_computed.mp hDecode).2
    simpa using hRead
  replace hApply := returns_wrapped hApply
  have hBytes : (FixedBytes.ofBytes 32 e.1).bytes = e.1 := FixedBytes.bytes_ofBytes hLen
  unfold applyAllocAccount at hApply
  by_cases hFields : patch.fields = 0
  · -- a record without fields changes nothing
    rw [if_pos hFields] at hApply
    obtain ⟨-, rfl⟩ := returns_pure.mp hApply
    have hNone : overlayOf x accounts storage index.db e = none := by
      unfold overlayOf
      rw [hDecode]
      cases decodeLeaf (.ofBytes 32 e.1) (valueAt accounts e.1) with
      | ok a => exact if_pos hFields
      | error err => rfl
    refine ⟨?_, fun e' he' => ?_⟩
    · rw [hInv.pushed, List.filterMap_append, List.filterMap_cons_none hNone]
      simp
    · rcases List.mem_append.mp he' with he' | he'
      · exact hInv.passed e' he'
      · rw [List.mem_singleton.mp he']
        exact ⟨hLen, patch, hDecode, fun h => absurd hFields h⟩
  · -- the overlay of the account is pushed
    rw [if_neg hFields] at hApply
    obtain ⟨a, t₄, u₄, hRead, hk₄, rfl⟩ := returns_bind.mp hApply
    obtain ⟨root, t₅, u₅, hRoot, hRet, rfl⟩ := returns_bind.mp hk₄
    obtain ⟨-, rfl⟩ := returns_pure.mp hRet
    have hAccount := accountAt_of_converted hState
      ((AccountReader.read_fst s.reader _).symm.trans (returns_computed.mp hRead).2)
    obtain ⟨hRootEq, hSlots⟩ := returns_allocStorageRoot (hState.slots _ a hAccount) hRoot
    rw [overlaidSlots, hInv.slotRecords hSettled] at hRootEq hSlots
    rw [hBytes] at hAccount
    have hSome : overlayOf x accounts storage index.db e = some (e.1, encodeStateAccount
        { allocScalars x.geth patch a with root := root.1 }) := by
      unfold overlayOf
      rw [hDecode, hAccount, hRootEq]
      exact if_neg hFields
    refine ⟨?_, fun e' he' => ?_⟩
    · rw [List.filterMap_append, List.filterMap_cons_some hSome, List.map_append,
        OvmIndex.pushAll_append, ← hInv.pushed, hBytes]
      rfl
    · rcases List.mem_append.mp he' with he' | he'
      · exact (hInv.passed e' he').mono fun op hop => by simp [hop]
      · rw [List.mem_singleton.mp he']
        refine ⟨hLen, patch, hDecode, fun _ => ⟨a, hAccount, fun op hop => by simp [hop], ?_⟩⟩
        intro hBit
        obtain ⟨hOrder, hAccepted, hOps⟩ := hSlots hBit
        exact ⟨hOrder, hAccepted, fun op hop => List.mem_append_right _ (hOps ▸ hop)⟩

/-! ## The patches of a run -/

theorem overlayOf_fst {p : Bytes × Bytes} (h : overlayOf x accounts storage db e = some p) :
    p.1 = e.1 := by
  unfold overlayOf at h
  split at h
  · split at h
    · cases h
    · rw [← Option.some.inj h]
  · cases h

theorem overlays_increasing (db : Store) : Increasing (overlays x accounts storage db) := by
  refine List.Pairwise.filterMap _ (fun e e' hlt p hp p' hp' => ?_)
    (Store.under_pairwise db [tag 'G'])
  rw [overlayOf_fst hp, overlayOf_fst hp']
  exact hlt

/-- The patch of a key is the one of its account record. -/
theorem leafAt_overlays (he : e ∈ Store.under db [tag 'G']) :
    leafAt (overlays x accounts storage db) e.1 =
      (overlayOf x accounts storage db e).map Prod.snd := by
  refine Option.ext fun v => ?_
  rw [leafAt_eq_some (overlays_increasing db), overlays, List.mem_filterMap, Option.map_eq_some_iff]
  constructor
  · rintro ⟨e', he', hPatch⟩
    -- the records have different keys
    have hKey : e'.1 = e.1 := (overlayOf_fst hPatch).symm
    obtain rfl : e' = e := by
      have h₁ := (leafAt_eq_some (Store.under_pairwise db [tag 'G'])).mpr he'
      have h₂ := (leafAt_eq_some (Store.under_pairwise db [tag 'G'])).mpr he
      rw [hKey, h₂] at h₁
      exact Prod.ext hKey (Option.some.inj h₁).symm
    exact ⟨_, hPatch, rfl⟩
  · rintro ⟨p, hPatch, rfl⟩
    refine ⟨e, he, ?_⟩
    rw [hPatch, ← overlayOf_fst hPatch]

theorem leafAt_overlays_of_absent {k : Bytes} (h : db.get? (tag 'G' :: k) = none) :
    leafAt (overlays x accounts storage db) k = none := by
  rw [leafAt_eq_none]
  intro p hp hKey
  obtain ⟨e, he, hPatch⟩ := List.mem_filterMap.mp hp
  have hRecord := Store.mem_under.mp he
  rw [← overlayOf_fst hPatch, hKey] at hRecord
  exact absurd (h.symm.trans hRecord) (by simp)

/-- The patches depend on the account and slot records only. -/
theorem overlays_congr {db' : Store} (h : ∀ k, isAllocKey k = true → db.get? k = db'.get? k) :
    overlaidSlots storage db = overlaidSlots storage db' ∧
      overlays x accounts storage db = overlays x accounts storage db' ∧
      Store.under db [tag 'G'] = Store.under db' [tag 'G'] := by
  have hRecords : Store.under db [tag 'G'] = Store.under db' [tag 'G'] :=
    Store.under_congr fun k => h _ (by simp [isAllocKey, inNamespace])
  have hSlots : overlaidSlots storage db = overlaidSlots storage db' := by
    funext owner
    unfold overlaidSlots
    rw [Store.under_congr fun k => h _ (by simp [isAllocKey, inNamespace])]
  refine ⟨hSlots, ?_, hRecords⟩
  unfold overlays overlayOf overlaidAccount
  rw [hRecords, hSlots]

theorem Passed.congr {db' : Store} {ops : List DbOp}
    (h : overlaidSlots storage db = overlaidSlots storage db')
    (hPassed : Passed x accounts storage db ops e) : Passed x accounts storage db' ops e := by
  obtain ⟨hLen, patch, hDecode, hApplied⟩ := hPassed
  refine ⟨hLen, patch, hDecode, fun hFields => ?_⟩
  obtain ⟨a, hAccount, hCode, hSlots⟩ := hApplied hFields
  rw [h] at hSlots
  exact ⟨a, hAccount, hCode, hSlots⟩

/-- The namespace `I` after the loop has the patches. -/
theorem under_overlayOps {ps : History} (hps : Increasing ps)
    (hEmpty : ∀ k, db.get? (tag 'I' :: k) = none) :
    Store.under (applyOps db (ps.map overlayOp)) [tag 'I'] = ps := by
  have hRecords : ps.map overlayOp = (ps.map fun p => (tag 'I' :: p.1, p.2)).map putOp := by
    rw [List.map_map]
    rfl
  have hNodup : ((ps.map fun p => (tag 'I' :: p.1, p.2)).map Prod.fst).Nodup := by
    rw [List.map_map, List.Nodup, List.pairwise_map]
    refine hps.imp fun hlt hEq => ?_
    exact absurd (List.cons.inj hEq).2 (ne_of_lt hlt)
  have hLeaf : ∀ k, leafAt (Store.under (applyOps db (ps.map overlayOp)) [tag 'I']) k =
      leafAt ps k := by
    intro k
    rw [leafAt_under, List.singleton_append]
    cases hPatch : leafAt ps k with
    | some v =>
      have hMem : (tag 'I' :: k, v) ∈ ps.map fun p => (tag 'I' :: p.1, p.2) :=
        List.mem_map.mpr ⟨(k, v), (leafAt_eq_some hps).mp hPatch, rfl⟩
      rw [hRecords]
      exact get?_applyOps_puts hNodup hMem db
    | none =>
      rw [get?_applyOps_of_untouched, hEmpty]
      intro op hop hKey
      obtain ⟨p, hp, rfl⟩ := List.mem_map.mp hop
      exact leafAt_eq_none.mp hPatch p hp (List.cons.inj hKey).2
  -- two increasing lists with the same lookups
  have hMem : ∀ e, e ∈ Store.under (applyOps db (ps.map overlayOp)) [tag 'I'] ↔ e ∈ ps := by
    rintro ⟨k, v⟩
    rw [← leafAt_eq_some (Store.under_pairwise _ _), hLeaf, leafAt_eq_some hps]
  have hDistinct : ∀ {l : History}, Increasing l → l.Nodup := fun hl =>
    hl.imp fun hlt hEq => absurd (hEq ▸ hlt) (lt_irrefl _)
  refine List.Perm.eq_of_pairwise (fun a b _ _ hab hba => absurd hab (lt_asymm hba))
    (Store.under_pairwise _ _) hps ?_
  exact (List.perm_ext_iff_of_nodup (hDistinct (Store.under_pairwise _ _)) (hDistinct hps)).mpr hMem

/-- **A run applies the patches of the account records**, and all its code and
nodes are written. -/
theorem overlay_of_run {out : Overlaid} (hState : Converted x accounts storage)
    (hSettled : index.Settled isAllocKey db) (hEmpty : ∀ k, db.get? (tag 'I' :: k) = none)
    (h : Returns (applyOVMGenesisAlloc x index) tr out) :
    Increasing accounts ∧
      IsTrie x.geth (patched accounts (overlays x accounts storage db)) out.root ∧
      (∀ op ∈ nodeOps zeroHash
        (x.geth.stack.nodesOf (patched accounts (overlays x accounts storage db))),
        op ∈ out.ops) ∧
      ∀ e ∈ Store.under db [tag 'G'], Passed x accounts storage db out.ops e := by
  obtain ⟨s, t₁, u₁, hLoop, hk₁, rfl⟩ := returns_bind.mp h
  obtain ⟨⟨⟩, t₂, u₂, -, hk₂, rfl⟩ := returns_bind.mp hk₁
  obtain ⟨⟨⟩, t₃, u₃, -, hk₃, rfl⟩ := returns_bind.mp hk₂
  obtain ⟨original, t₄, u₄, hIter, hk₄, rfl⟩ := returns_bind.mp hk₃
  obtain ⟨leaves, t₅, u₅, hRebuild, hRet, rfl⟩ := returns_bind.mp hk₄
  obtain ⟨-, rfl⟩ := returns_pure.mp hRet
  have hSlotRecords : index.Settled (inNamespace 'H') index.db :=
    ⟨fun _ _ => rfl, fun op hop => by
      have hPending := hSettled.pending op hop
      simp only [isAllocKey, Bool.or_eq_false_iff] at hPending
      exact hPending.1.2⟩
  have hInit : Overlaying x accounts storage index [] ⟨.new x.tries x.root, index, []⟩ :=
    ⟨rfl, by simp⟩
  obtain ⟨hPushed, hPassed⟩ := returns_foldlM (Overlaying x accounts storage index)
    (fun seen s e s' t hInv hStep => hInv.step hState hSlotRecords hStep) hInit hLoop
  rw [List.nil_append] at hPushed hPassed
  obtain ⟨hSlots, hOverlays, hRecords⟩ := overlays_congr (x := x) hSettled.stored
  -- the namespace of the patches was empty before the loop
  have hUnder : Store.under s.index.flush.db [tag 'I'] = overlays x accounts storage db := by
    rw [OvmIndex.flush_db, hPushed, OvmIndex.content_pushAll, ← hOverlays]
    refine under_overlayOps (overlays_increasing _) fun k => ?_
    rw [hSettled.content (by simp [isAllocKey, inNamespace]), hEmpty]
  rw [hUnder] at hRebuild
  obtain ⟨hDone, hTrie, hOps⟩ := returns_rebuildPatchedTriePrefix hRebuild
  obtain ⟨hOrder, hLeaves⟩ := leaves_of_ovmIterator hState.leaves (returns_computed.mp hIter).2
  rw [hLeaves hDone] at hTrie hOps
  refine ⟨hOrder, hTrie, fun op hop => List.mem_append_right _ (hOps ▸ hop), fun e he => ?_⟩
  rw [← hRecords] at he
  exact ((hPassed e he).congr hSlots).mono fun op hop => List.mem_append_left _ hop

end Runs

/-! ## The records of a file -/

/-- The three namespaces after the file has been loaded. -/
structure Records (g : Geth) (entries : List (Address × AllocEntry)) (db : Store) : Prop where
  account : ∀ k v, db.get? (tag 'G' :: k) = some v ↔
    ∃ e ∈ entries, k = (accountKey g e.1).bytes ∧ v = encodeAllocAccount e.2.patch
  slot    : ∀ (owner : Hash) (k v : Bytes), db.get? ((tag 'H' :: owner.bytes) ++ k) = some v ↔
    ∃ e ∈ entries, accountKey g e.1 = owner ∧
      ∃ s ∈ e.2.slots, k = (g.keccak s.1.bytes).bytes ∧ v = allocSlotValue s.2
  overlay : ∀ k, db.get? (tag 'I' :: k) = none

variable {entries : List (Address × AllocEntry)}

/-- The records of a file by namespace. -/
theorem mem_allocRecords {g : Geth} {k v : Bytes} :
    (k, v) ∈ allocRecords g entries ↔ ∃ e ∈ entries,
      (∃ s ∈ e.2.slots, k = allocSlotKey g (accountKey g e.1) s.1 ∧ v = allocSlotValue s.2) ∨
      (k = allocAccountKey (accountKey g e.1) ∧ v = encodeAllocAccount e.2.patch) := by
  unfold allocRecords AllocEntry.puts AllocEntry.slotPuts
  simp only [List.mem_flatMap, List.mem_append, List.mem_map, List.mem_singleton, Prod.mk.injEq]
  constructor
  · rintro ⟨e, he, ⟨s, hs, hk, hv⟩ | ⟨hk, hv⟩⟩
    · exact ⟨e, he, .inl ⟨s, hs, hk.symm, hv.symm⟩⟩
    · exact ⟨e, he, .inr ⟨hk, hv⟩⟩
  · rintro ⟨e, he, ⟨s, hs, hk, hv⟩ | ⟨hk, hv⟩⟩
    · exact ⟨e, he, .inl ⟨s, hs, hk.symm, hv.symm⟩⟩
    · exact ⟨e, he, .inr ⟨hk, hv⟩⟩

/-- The puts of the loader leave the records of the entries. -/
theorem records_of_puts {g : Geth} {db : Store}
    (hNodup : ((allocRecords g entries).map Prod.fst).Nodup)
    (hFresh : ∀ k, isAllocKey k = true → db.get? k = none) :
    Records g entries (applyOps db ((allocRecords g entries).map putOp)) := by
  -- a key of these namespaces has what the file puts there
  have hLookup : ∀ k v, isAllocKey k = true →
      ((applyOps db ((allocRecords g entries).map putOp)).get? k = some v ↔
        (k, v) ∈ allocRecords g entries) := by
    intro k v hKey
    constructor
    · intro h
      rcases put_mem_of_get?_applyOps h with hPut | hOld
      · obtain ⟨e, he, hEq⟩ := List.mem_map.mp hPut
        obtain ⟨rfl, rfl⟩ := Op.put.inj hEq
        exact he
      · exact absurd ((hFresh k hKey).symm.trans hOld) (by simp)
    · intro h
      exact get?_applyOps_puts hNodup h db
  have hTags : tag 'G' ≠ tag 'H' ∧ tag 'I' ≠ tag 'H' ∧ tag 'I' ≠ tag 'G' := by decide
  refine ⟨fun k v => ?_, fun owner k v => ?_, fun k => ?_⟩
  · rw [hLookup _ _ (by simp [isAllocKey, inNamespace]), mem_allocRecords]
    constructor
    · rintro ⟨e, he, ⟨s, -, hk, -⟩ | ⟨hk, hv⟩⟩
      · exact absurd (List.cons.inj hk).1 hTags.1
      · exact ⟨e, he, (List.cons.inj hk).2, hv⟩
    · rintro ⟨e, he, rfl, rfl⟩
      exact ⟨e, he, .inr ⟨rfl, rfl⟩⟩
  · rw [hLookup _ _ (by simp [isAllocKey, inNamespace]), mem_allocRecords]
    constructor
    · rintro ⟨e, he, ⟨s, hs, hk, hv⟩ | ⟨hk, -⟩⟩
      · obtain ⟨hOwner, hSlot⟩ := List.append_inj hk (by simp [FixedBytes.length_bytes])
        have hOwner' := FixedBytes.bytes_injective (List.cons.inj hOwner).2
        exact ⟨e, he, hOwner'.symm, s, hs, hSlot, hv⟩
      · exact absurd (List.cons.inj hk).1.symm hTags.1
    · rintro ⟨e, he, rfl, s, hs, rfl, rfl⟩
      exact ⟨e, he, .inl ⟨s, hs, rfl, rfl⟩⟩
  · rw [Option.eq_none_iff_forall_ne_some]
    intro v h
    rw [hLookup _ _ (by simp [isAllocKey, inNamespace]), mem_allocRecords] at h
    obtain ⟨e, -, ⟨s, -, hk, -⟩ | ⟨hk, -⟩⟩ := h
    · exact hTags.2.1 (List.cons.inj hk).1
    · exact hTags.2.2 (List.cons.inj hk).1

/-! ## The overlay, field by field -/

/-- An account has the fields that its entry gives, and keeps the others. -/
structure FieldsPatched (g : Geth) (e : AllocEntry) (before after : StateAccount) : Prop where
  balance : after.balance = e.balance.getD before.balance
  nonce   : after.nonce = e.nonce.getD before.nonce
  code    : after.codeHash = (e.code.map fun c => (g.keccak c).bytes).getD before.codeHash

/-- A storage has the listed values, and keeps every other slot. -/
structure SlotsPatched (g : Geth) (slots : List (Hash × Hash)) (before after : History) : Prop where
  given : ∀ s ∈ slots, valueAt after (g.keccak s.1.bytes).bytes = allocSlotValue s.2
  kept  : ∀ k, (∀ s ∈ slots, (g.keccak s.1.bytes).bytes ≠ k) → valueAt after k = valueAt before k

/-- A given balance is read back. -/
theorem ofNat_ofBE_minimalBE (v : U256) : BitVec.ofNat 256 (ofBE (minimalBE 32 v.toNat)) = v := by
  have hLt : v.toNat < 256 ^ 32 := by
    have := v.isLt
    omega
  rw [ofBE_minimalBE hLt]
  simp

/-- **The scalar fields of a record are those of its entry.** -/
theorem fieldsPatched_allocScalars (g : Geth) (e : AllocEntry) (a : StateAccount) (root : Hash) :
    FieldsPatched g e a { allocScalars g e.patch a with root := root } := by
  obtain ⟨hCode, hBalance, hNonce, -⟩ := e.fields_and
  refine ⟨?_, ?_, ?_⟩
  · show (if e.fields &&& ovmAllocBalanceField ≠ 0 then BitVec.ofNat 256 (ofBE e.patch.balance)
      else a.balance) = _
    cases hGiven : e.balance with
    | none =>
      rw [hGiven] at hBalance
      rw [if_neg fun h => absurd (hBalance.mp h) (by simp), Option.getD_none]
    | some v =>
      have hPatch : e.patch.balance = minimalBE 32 v.toNat := by
        simp only [AllocEntry.patch, hGiven, Option.map_some, Option.getD_some]
      rw [hGiven] at hBalance
      rw [if_pos (hBalance.mpr rfl), Option.getD_some, hPatch, ofNat_ofBE_minimalBE]
  · show (if e.fields &&& ovmAllocNonceField ≠ 0 then e.patch.nonce else a.nonce) = _
    cases hGiven : e.nonce with
    | none =>
      rw [hGiven] at hNonce
      rw [if_neg fun h => absurd (hNonce.mp h) (by simp), Option.getD_none]
    | some n =>
      have hPatch : e.patch.nonce = n := by
        simp only [AllocEntry.patch, hGiven, Option.getD_some]
      rw [hGiven] at hNonce
      rw [if_pos (hNonce.mpr rfl), Option.getD_some, hPatch]
  · show (if e.fields &&& ovmAllocCodeField ≠ 0 then (g.keccak e.patch.code).bytes
      else a.codeHash) = _
    cases hGiven : e.code with
    | none =>
      rw [hGiven] at hCode
      rw [if_neg fun h => absurd (hCode.mp h) (by simp), Option.map_none, Option.getD_none]
    | some c =>
      have hPatch : e.patch.code = c := by
        simp only [AllocEntry.patch, hGiven, Option.getD_some]
      rw [hGiven] at hCode
      rw [if_pos (hCode.mpr rfl), Option.map_some, Option.getD_some, hPatch]

/-- The slot records of an account patch its storage. -/
theorem slotsPatched_overlaid {g : Geth} {db : Store} {storage : Hash → History}
    (hRecords : Records g entries db) (hKeys : (entries.map fun e => accountKey g e.1).Nodup)
    {a : Address} {e : AllocEntry} (he : (a, e) ∈ entries)
    (hOrder : Increasing (storage (accountKey g a))) :
    SlotsPatched g e.slots (storage (accountKey g a))
      (overlaidSlots storage db (accountKey g a)) := by
  have hValue := valueAt_patched hOrder
    (Store.under_pairwise db (tag 'H' :: (accountKey g a).bytes))
  refine ⟨fun s hs => ?_, fun k hk => ?_⟩
  · rw [overlaidSlots, hValue, leafAt_under,
      (hRecords.slot _ _ _).mpr ⟨(a, e), he, rfl, s, hs, rfl, rfl⟩]
    rfl
  · have hNone : db.get? ((tag 'H' :: (accountKey g a).bytes) ++ k) = none := by
      rw [Option.eq_none_iff_forall_ne_some]
      intro v hSome
      obtain ⟨e', he', hOwner, s, hs, hKey, -⟩ := (hRecords.slot _ _ _).mp hSome
      -- an account has one entry
      obtain rfl : e' = (a, e) := List.inj_on_of_nodup_map hKeys he' he hOwner
      exact hk s hs hKey.symm
    rw [overlaidSlots, hValue, leafAt_under, hNone]
    rfl

/-- What an entry makes of its account. -/
structure EntryApplied (x : BalanceInputs) (storage : Hash → History) (accounts accounts' : History)
    (ops : List DbOp) (a : Address) (e : AllocEntry) (before after : StateAccount)
      (slots : History) :
    Prop where
  read   : decodeLeaf (accountKey x.geth a) (valueAt accounts (accountKey x.geth a).bytes) =
    .ok before
  leaf   : valueAt accounts' (accountKey x.geth a).bytes = encodeStateAccount after
  fields : FieldsPatched x.geth e before after
  /-- Code that is given is in the target. -/
  code   : ∀ c ∈ e.code, c ≠ [] → .put (codeKey (x.geth.keccak c)) c ∈ ops
  listed : SlotsPatched x.geth e.slots (storage (accountKey x.geth a)) slots
  /-- Without listed slots the storage trie is the one before. -/
  root   : if e.slots = [] then after.root = before.root ∧ slots = storage (accountKey x.geth a)
    else IsTrie x.geth slots after.root ∧
      ∀ op ∈ nodeOps (accountKey x.geth a) (x.geth.stack.nodesOf slots), op ∈ ops

/-- An entry whose record was passed is applied. -/
theorem entryApplied_of_passed {x : BalanceInputs} {accounts : History} {storage : Hash → History}
    {db : Store} {ops : List DbOp} (hRecords : Records x.geth entries db)
    (hKeys : (entries.map fun e => accountKey x.geth e.1).Nodup) (hOrder : Increasing accounts)
    (hPassed : ∀ r ∈ Store.under db [tag 'G'], Passed x accounts storage db ops r) {a : Address}
    {e : AllocEntry} (he : (a, e) ∈ entries) (hFits : e.patch.Fits) (hGiven : e.isEmpty = false) :
    ∃ before after slots, EntryApplied x storage accounts
      (patched accounts (overlays x accounts storage db)) ops a e before after slots := by
  have hRecord : ((accountKey x.geth a).bytes, encodeAllocAccount e.patch) ∈
      Store.under db [tag 'G'] :=
    Store.mem_under.mpr ((hRecords.account _ _).mpr ⟨(a, e), he, rfl, rfl⟩)
  have hFields : e.patch.fields ≠ 0 := fun hZero => by
    have hEmpty := e.fields_and.2.2.2.2.1.mp hZero
    rw [hGiven] at hEmpty
    cases hEmpty
  obtain ⟨-, patch, hDecode, hApplied⟩ := hPassed _ hRecord
  obtain rfl : e.patch = patch :=
    Except.ok.inj ((decodeAllocAccount_encode hFits).symm.trans hDecode)
  obtain ⟨before, hBefore, hCode, hSlots⟩ := hApplied hFields
  simp only [FixedBytes.ofBytes_bytes] at hBefore hCode hSlots
  have hBit : e.patch.fields &&& ovmAllocStorageField ≠ 0 ↔ e.slots ≠ [] := by
    rw [show e.patch.fields = e.fields from rfl, e.fields_and.2.2.2.1]
    simp
  have hOverlay : overlayOf x accounts storage db
      ((accountKey x.geth a).bytes, encodeAllocAccount e.patch) =
      some ((accountKey x.geth a).bytes, encodeStateAccount
        (overlaidAccount x storage db (accountKey x.geth a) e.patch before)) := by
    unfold overlayOf
    simp only [FixedBytes.ofBytes_bytes, hDecode, hBefore, if_neg hFields]
  have hAfter : valueAt (patched accounts (overlays x accounts storage db))
      (accountKey x.geth a).bytes = encodeStateAccount
        (overlaidAccount x storage db (accountKey x.geth a) e.patch before) := by
    rw [valueAt_patched hOrder (overlays_increasing db), leafAt_overlays hRecord, hOverlay]
    rfl
  have hCodeOps : ∀ c ∈ e.code, c ≠ [] → Op.put (codeKey (x.geth.keccak c)) c ∈ ops := by
    intro c hc hne
    have hPatch : e.patch.code = c := by
      simp only [AllocEntry.patch, Option.mem_def.mp hc, Option.getD_some]
    have hCodeBit : e.patch.fields &&& ovmAllocCodeField ≠ 0 :=
      e.fields_and.1.mpr (by rw [Option.mem_def.mp hc]; rfl)
    refine hCode _ ?_
    unfold allocCodeOps
    rw [if_pos ⟨hCodeBit, by rw [hPatch]; simpa using hne⟩, hPatch]
    exact List.mem_singleton_self _
  by_cases hNone : e.slots = []
  · -- only scalars are given
    refine ⟨before, _, storage (accountKey x.geth a), hBefore, hAfter,
      fieldsPatched_allocScalars _ _ _ _, hCodeOps, ?_, ?_⟩
    · rw [hNone]
      exact ⟨by simp, fun k _ => rfl⟩
    · rw [if_pos hNone]
      exact ⟨if_neg fun h => hBit.mp h hNone, rfl⟩
  · -- slots are given: the storage trie is rebuilt
    obtain ⟨hIncreasing, hAccepted, hNodes⟩ := hSlots (hBit.mpr hNone)
    refine ⟨before, _, overlaidSlots storage db (accountKey x.geth a), hBefore, hAfter,
      fieldsPatched_allocScalars _ _ _ _, hCodeOps,
      slotsPatched_overlaid hRecords hKeys he hIncreasing, ?_⟩
    rw [if_neg hNone]
    exact ⟨⟨hAccepted, (if_pos (hBit.mpr hNone)).symm⟩, hNodes⟩

/-- A run of the loader and of the overlay on the converted state, with
whatever the migration has written to the other namespaces in between. -/
structure AllocRun (x : BalanceInputs) (dec : AllocDecoders) (file : Json) (out : Overlaid) where
  /-- The index that the loader starts from. -/
  start    : OvmIndex
  loaded   : OvmIndex
  index    : OvmIndex
  loadTr   : List (Event (BalanceCalls x))
  applyTr  : List (Event (BalanceCalls x))
  fresh    : ∀ k, isAllocKey k = true → start.content.get? k = none
  load     : Returns (loadOVMGenesisAlloc x.geth dec (checkParent x) file start) loadTr loaded
  settled  : index.Settled isAllocKey loaded.db
  apply    : Returns (applyOVMGenesisAlloc x index) applyTr out

namespace AllocRun

variable {x : BalanceInputs} {dec : AllocDecoders} {file : Json} {out : Overlaid}

/-- The loaded namespaces hold the records of the file. -/
theorem records (r : AllocRun x dec file out) :
    ∃ entries, fileEntries dec file = .ok entries ∧ (∀ m ∈ file.members, m.2.DistinctNames) ∧
      ((allocRecords x.geth entries).map Prod.fst).Nodup ∧
      r.loaded.db = applyOps r.start.content ((allocRecords x.geth entries).map putOp) ∧
      Records x.geth entries r.loaded.db := by
  obtain ⟨entries, hEntries, hNames, hNodup, hLoaded⟩ := returns_load r.load
  have hDb : r.loaded.db = applyOps r.start.content ((allocRecords x.geth entries).map putOp) := by
    rw [hLoaded]
  exact ⟨entries, hEntries, hNames, hNodup, hDb, hDb ▸ records_of_puts hNodup r.fresh⟩

end AllocRun

/-- The entries of a file have different accounts. -/
theorem nodup_accountKeys {g : Geth} (h : ((allocRecords g entries).map Prod.fst).Nodup) :
    (entries.map fun e => accountKey g e.1).Nodup := by
  induction entries with
  | nil => exact List.nodup_nil
  | cons e entries ih =>
    rw [allocRecords, List.flatMap_cons, List.map_append, List.nodup_append] at h
    obtain ⟨-, hRest, hApart⟩ := h
    rw [List.map_cons, List.nodup_cons]
    refine ⟨fun hMem => ?_, ih hRest⟩
    obtain ⟨e', he', hKey⟩ := List.mem_map.mp hMem
    -- both have an account record
    have hRecord : ∀ e : Address × AllocEntry, allocAccountKey (accountKey g e.1) ∈
        (e.2.puts g (accountKey g e.1)).map Prod.fst := by
      intro e
      simp [AllocEntry.puts]
    refine hApart _ (hRecord e) _ ?_ rfl
    rw [← hKey]
    obtain ⟨p, hp, hFst⟩ := List.mem_map.mp (hRecord e')
    exact List.mem_map.mpr ⟨p, List.mem_flatMap.mpr ⟨e', he', hp⟩, hFst⟩

/-- What is in the entries of a file. -/
theorem fileEntries_mem {dec : AllocDecoders} {file : Json} (h : fileEntries dec file = .ok entries)
    {e : Address × AllocEntry} (he : e ∈ entries) :
    e.1 ≠ ovmETHAddress ∧ e.2.patch.Fits := by
  cases file with
  | obj members =>
    obtain ⟨m, -, hEntry⟩ := (mapM_eq_ok_mem h).1 e he
    obtain ⟨-, hToken, -, hMembers⟩ := accountEntry_eq_ok hEntry
    exact ⟨hToken, fits_of_entryOf hMembers⟩
  | str text => cases h
  | num text => cases h
  | other => cases h

/-- **The overlay is a patch of the converted state, field by field.** Each
account of the file has the fields and slots that the file gives and keeps the
others; an absent account is created exactly when something is given. Accounts
with nothing given, accounts that are not in the file and the token contract
are unchanged. The order of addresses, fields and slots does not matter. -/
theorem genesis_alloc_is_overlay {x : BalanceInputs} {dec : AllocDecoders} {file : Json}
    {accounts : History} {storage : Hash → History} {out : Overlaid}
    (hState : Converted x accounts storage) (run : AllocRun x dec file out) :
    ∃ entries accounts',
      fileEntries dec file = .ok entries ∧
      -- the state under the returned root, and its nodes in the target
      IsTrie x.geth accounts' out.root ∧
      (∀ op ∈ nodeOps zeroHash (x.geth.stack.nodesOf accounts'), op ∈ out.ops) ∧
      -- the accounts of the file
      (∀ a e, (a, e) ∈ entries → e.isEmpty = false → ∃ before after slots,
        EntryApplied x storage accounts accounts' out.ops a e before after slots) ∧
      (∀ a e, (a, e) ∈ entries → e.isEmpty = true →
        valueAt accounts' (accountKey x.geth a).bytes =
          valueAt accounts (accountKey x.geth a).bytes) ∧
      (∀ a e, (a, e) ∈ entries → valueAt accounts (accountKey x.geth a).bytes = [] →
        (valueAt accounts' (accountKey x.geth a).bytes ≠ [] ↔ e.isEmpty = false)) ∧
      -- all other accounts, and the token contract unless its key collides
      (∀ k, (∀ e ∈ entries, k ≠ (accountKey x.geth e.1).bytes) →
        valueAt accounts' k = valueAt accounts k) ∧
      ((∀ a, accountKey x.geth a = ovmOwner x.geth → a = ovmETHAddress) →
        valueAt accounts' (ovmOwner x.geth).bytes = valueAt accounts (ovmOwner x.geth).bytes) ∧
      -- the order in the file
      ∀ file' out', file.Reordered file' → AllocRun x dec file' out' → out'.root = out.root := by
  obtain ⟨entries, hEntries, hNames, hNodup, hDb, hRecords⟩ := run.records
  obtain ⟨hOrder, hTrie, hNodes, hPassed⟩ :=
    overlay_of_run hState run.settled hRecords.overlay run.apply
  have hKeys := nodup_accountKeys hNodup
  have hValue : ∀ k, valueAt (patched accounts (overlays x accounts storage run.loaded.db)) k =
      (leafAt (overlays x accounts storage run.loaded.db) k).getD (valueAt accounts k) :=
    valueAt_patched hOrder (overlays_increasing run.loaded.db)
  -- an account without fields has no patch
  have hEmpty : ∀ a e, (a, e) ∈ entries → e.isEmpty = true →
      valueAt (patched accounts (overlays x accounts storage run.loaded.db))
        (accountKey x.geth a).bytes = valueAt accounts (accountKey x.geth a).bytes := by
    intro a e he hNothing
    have hRecord : ((accountKey x.geth a).bytes, encodeAllocAccount e.patch) ∈
        Store.under run.loaded.db [tag 'G'] :=
      Store.mem_under.mpr ((hRecords.account _ _).mpr ⟨(a, e), he, rfl, rfl⟩)
    have hNone : overlayOf x accounts storage run.loaded.db
        ((accountKey x.geth a).bytes, encodeAllocAccount e.patch) = none := by
      unfold overlayOf
      rw [decodeAllocAccount_encode (fileEntries_mem hEntries he).2]
      cases decodeLeaf _ (valueAt accounts (accountKey x.geth a).bytes) with
      | ok before => exact if_pos (e.fields_and.2.2.2.2.1.mpr hNothing)
      | error err => rfl
    rw [hValue, leafAt_overlays hRecord, hNone]
    rfl
  have hApplied : ∀ a e, (a, e) ∈ entries → e.isEmpty = false → ∃ before after slots,
      EntryApplied x storage accounts
        (patched accounts (overlays x accounts storage run.loaded.db)) out.ops
          a e before after slots :=
    fun a e he hGiven => entryApplied_of_passed hRecords hKeys hOrder hPassed he
      (fileEntries_mem hEntries he).2 hGiven
  have hOthers : ∀ k, (∀ e ∈ entries, k ≠ (accountKey x.geth e.1).bytes) →
      valueAt (patched accounts (overlays x accounts storage run.loaded.db)) k =
        valueAt accounts k := by
    intro k hk
    have hNone : run.loaded.db.get? (tag 'G' :: k) = none := by
      rw [Option.eq_none_iff_forall_ne_some]
      intro v hSome
      obtain ⟨e, he, hKey, -⟩ := (hRecords.account k v).mp hSome
      exact hk e he hKey
    rw [hValue, leafAt_overlays_of_absent hNone]
    rfl
  refine ⟨entries, _, hEntries, hTrie, hNodes, hApplied, hEmpty, ?_, hOthers, ?_, ?_⟩
  · intro a e he hAbsent
    constructor
    · intro hCreated
      by_contra hNothing
      rw [hEmpty a e he (by simpa using hNothing)] at hCreated
      exact hCreated hAbsent
    · intro hGiven
      obtain ⟨before, after, slots, hEntry⟩ := hApplied a e he hGiven
      rw [hEntry.leaf]
      exact encodeStateAccount_ne_nil after
  · intro hToken
    refine hOthers _ fun e he hKey => ?_
    exact (fileEntries_mem hEntries he).1 (hToken e.1 (FixedBytes.bytes_injective hKey).symm)
  · intro file' out' hReordered run'
    obtain ⟨entries', hEntries', -, hNodup', hDb', hRecords'⟩ := run'.records
    obtain ⟨-, hTrie', -, -⟩ := overlay_of_run hState run'.settled hRecords'.overlay run'.apply
    -- the two databases agree on the records
    have hPerm := allocRecords_reordered (g := x.geth) hReordered hNames hEntries hEntries'
    have hSame : ∀ k, isAllocKey k = true → run.loaded.db.get? k = run'.loaded.db.get? k := by
      intro k hk
      rw [hDb, hDb']
      by_cases hMem : k ∈ (allocRecords x.geth entries).map Prod.fst
      · obtain ⟨p, hp, rfl⟩ := List.mem_map.mp hMem
        rw [get?_applyOps_puts hNodup hp, get?_applyOps_puts hNodup' (hPerm.mem_iff.mp hp)]
      · have hMem' : k ∉ (allocRecords x.geth entries').map Prod.fst := fun h =>
          hMem ((hPerm.map _).mem_iff.mpr h)
        have hUntouched : ∀ {es : List (Address × AllocEntry)} (db : Store),
            k ∉ (allocRecords x.geth es).map Prod.fst →
            (applyOps db ((allocRecords x.geth es).map putOp)).get? k = db.get? k := by
          intro es db hk
          apply get?_applyOps_of_untouched
          intro op hop hKey
          obtain ⟨p, hp, rfl⟩ := List.mem_map.mp hop
          exact hk (List.mem_map.mpr ⟨p, hp, hKey⟩)
        rw [hUntouched _ hMem, hUntouched _ hMem', run.fresh k hk, run'.fresh k hk]
    obtain ⟨-, hOverlays, -⟩ := overlays_congr (x := x) hSame
    rw [← hOverlays] at hTrie'
    exact hTrie'.2.symm.trans hTrie.2

/-! ## An overlay -/

/-- Decoders for the sample, which has no code and no nonce, and the balance 5. -/
def sampleDecoders : AllocDecoders where
  address := readHexAddress
  code _ := .error (.outside "hex string without 0x prefix")
  balance
    | .num "5" => .ok 5
    | _ => .error (.outside "invalid hex or decimal integer")
  nonce _ := .error (.outside "invalid hex or decimal integer")

/-- The contract gets a balance and a value in slot 2; nothing is said about
the address without an account. -/
def sampleFile : Json := .obj [
  ("0x0000000000000000000000000000000000000002",
  .obj [("balance", .num "5"), ("storage", .obj [("0x02", .str "07")])]),
    ("0000000000000000000000000000000000000001", .obj [("storage", .obj [])])]

/-- The storage of each account in the sample. -/
def sampleStorage (owner : Hash) : History :=
  if owner = zeroHash then sampleAccounts else sampleSlots

theorem sample_converted :
    Converted sampleTransform.toBalanceInputs sampleAccounts sampleStorage := by
  refine ⟨sampleAccounts_hold, fun hash account _ t hOpen => ?_⟩
  obtain rfl := Except.ok.inj hOpen
  refine accessOf_holds ?_
  unfold Increasing
  split
  · decide +kernel
  · decide +kernel

theorem sample_allocRun : ∃ out, Nonempty
    (AllocRun sampleTransform.toBalanceInputs sampleDecoders sampleFile out) := by
  have hPlay : ((balanceObject sampleTransform.toBalanceInputs).play balanceReply 9
      (loadOVMGenesisAlloc layoutGeth sampleDecoders (checkParent sampleTransform.toBalanceInputs)
        sampleFile ⟨.empty, []⟩ >>= applyOVMGenesisAlloc sampleTransform.toBalanceInputs).run
      (.begin false 0 (.init sampleEvidence 0))).any (fun out => okWith out.2.1 fun _ => true) =
        true := by
    decide +kernel
  obtain ⟨tr, out, s, hExec, hTest⟩ :=
    (balanceObject sampleTransform.toBalanceInputs).exec_of_play hPlay
  obtain ⟨o, rfl, -⟩ := okWith_eq_true.mp hTest
  obtain ⟨loaded, t₁, t₂, hLoad, hApply, rfl⟩ := returns_bind.mp (exec_ret_iff.mp hExec).1
  obtain ⟨entries, -, -, -, hLoaded⟩ := returns_load hLoad
  refine ⟨o, ⟨⟨.empty, []⟩, loaded, loaded, t₁, t₂, fun k _ => rfl, hLoad,
    ⟨fun _ _ => rfl, ?_⟩, hApply⟩⟩
  rw [hLoaded]
  simp

/-- **The sample, overlaid**: the contract keeps its nonce and gets the balance
and the slot; the other address is not created. -/
theorem genesis_alloc_sample : ∃ out accounts' after slots,
    IsTrie layoutGeth accounts' out ∧
      valueAt accounts' (accountKey layoutGeth (holderAddress 2)).bytes = encodeStateAccount after ∧
      after.balance = 5 ∧ after.nonce = 1 ∧ IsTrie layoutGeth slots after.root ∧
      valueAt slots (numberedKey layoutGeth 2).bytes = [7] ∧
      valueAt accounts' (accountKey layoutGeth (holderAddress 1)).bytes = [] := by
  obtain ⟨out, ⟨run⟩⟩ := sample_allocRun
  obtain ⟨entries, accounts', hEntries, hTrie, -, hGiven, hEmpty, -⟩ :=
    genesis_alloc_is_overlay sample_converted run
  have hSample : fileEntries sampleDecoders sampleFile = .ok
      [(holderAddress 2, ⟨none, some 5, none, [(hashOfNat 2, hashOfNat 7)]⟩),
        (holderAddress 1, ⟨none, none, none, []⟩)] := by
    decide +kernel
  obtain rfl := Except.ok.inj (hSample.symm.trans hEntries)
  obtain ⟨before, after, slots, hEntry⟩ := hGiven (holderAddress 2) _ List.mem_cons_self rfl
  have hBefore : decodeLeaf (accountKey layoutGeth (holderAddress 2))
      (valueAt sampleAccounts (accountKey layoutGeth (holderAddress 2)).bytes) =
      .ok ⟨1, 0, emptyRootHash, zeroHash.bytes⟩ := by decide +kernel
  obtain rfl := Except.ok.inj (hBefore.symm.trans hEntry.read)
  refine ⟨out.root, accounts', after, slots, hTrie, hEntry.leaf, hEntry.fields.balance,
    hEntry.fields.nonce, ?_, ?_, ?_⟩
  · have hRoot := hEntry.root
    rw [if_neg (by simp)] at hRoot
    exact hRoot.1
  · have hSlot := hEntry.listed.given (hashOfNat 2, hashOfNat 7) (by simp)
    refine hSlot.trans ?_
    decide +kernel
  · refine (hEmpty (holderAddress 1) _ (List.mem_cons_of_mem _ List.mem_cons_self) rfl).trans ?_
    decide +kernel

end L2State
