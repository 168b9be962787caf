import L2State.Ovm.Patch
import L2State.Ovm.BalancePipeline

/-!
# L2State — classifying the storage of the token

`recognizeMetadata` and `classifyStorage` of `ovm_transform.go`, with the
cursors of `ovm_storage_cursor.go`. Every slot of the token must be claimed by
exactly one namespace of the evidence index: `b` has the balance slots, `a`
the allowances and `k` the known slots of the contract. A balance slot becomes
a record in the namespace `q`.

* `recognizeMetadata` — the entries of `k`.
* `StorageCursor` — an iterator over a namespace that serves increasing keys;
  `returns_cursorGet`: **it answers as a lookup does**.
* `classifyStorage` — the loop over the slots, then the balance pipeline.
* `returns_classifyLeaves` — which slots pass, and the records they leave.
-/

namespace L2State

open Lib

section Code

variable (x : BalanceInputs)

/-- `t.ctx.Err()`. -/
def checkParent : BalanceProc x Unit := attempt id (balanceCall x .parentErr)

/-- `it.Error()` of an iterator over the evidence. -/
def checkEvidence : BalanceProc x Unit := attempt id (balanceCall x .evidenceErr)

/-- The key of the token's account. -/
def ovmOwner (g : Geth) : Hash := accountKey g ovmETHAddress

/-- The storage key of a numbered slot. -/
def numberedKey (g : Geth) (n : Nat) : Hash := ovmStorageHash g (hashOfNat n)

/-- `storageValue`, with the token's storage root. -/
def storageValue (root slot : Hash) : Except Err U256 := do
  let t ← x.tries.openTrie (ovmOwner x.geth) root
  let blob ← t.get (ovmStorageHash x.geth slot).bytes
  decodeOVMValue blob

/-! ## The retain list -/

/-- One entry of the manual retain list. -/
def checkRetained (r : AccountReader x.tries x.root) (e : Bytes × Bytes) :
    Except Err (AccountReader x.tries x.root) := do
  require (e.1.length = 20 ∧ e.2 = [1]) (.msg "invalid ERC20 retention index record" [])
  let address : Address := .ofBytes 20 e.1
  let (account, r') := r.read (accountKey x.geth address)
  let account ← wrapping "read retained contract %s: %w" [.bytes address.bytes] account
  require (address ≠ ovmETHAddress ∧ account.codeHash ≠ emptyCodeHash.bytes)
    (.msg "ERC20 retain address %s must be a non-OVM_ETH contract with code at the source head"
      [.bytes address.bytes])
  return r'

/-- `validateOVMERC20RetainList`. -/
def validateOVMERC20RetainList (index : OvmIndex) : BalanceProc x Unit :=
  foldChecked (checkParent x) (checkRetained x) (Store.under index.db [tag 'R'])
      (.new x.tries x.root) >>= fun _ =>
    checkEvidence x >>= fun _ => checkParent x

/-! ## Metadata -/

/-- The short form of a string: its length in the last byte, and zero bytes up
to it. -/
def checkShortString (v : U256) : Except Err Unit := do
  let length := v.toNat % 256 / 2
  require (length ≤ 31) (.msg "invalid short OVM string length" [])
  require (∀ b ∈ ((toBE 32 v.toNat).take 31).drop length, b = 0)
    (.msg "noncanonical short OVM string padding" [])

/-- The number of slots that the long form of a string takes. -/
def longStringChunks (v : U256) : Except Err Nat := do
  let length := v.toNat / 2
  require (length < 2 ^ 64 ∧ 32 ≤ length) (.msg "invalid long OVM string length" [])
  return (length - 1) / 32 + 1

/-- The storage key of a part of the string at a slot. -/
def stringChunkKey (g : Geth) (slot : Nat) (n : Nat) : Hash :=
  g.keccak (toBE 32 (ofBE (numberedKey g slot).bytes + n))

/-- `recognizeString`. -/
def recognizeString (root : Hash) (slot : Nat) (index : OvmIndex) : BalanceProc x OvmIndex :=
  computed (storageValue x root (hashOfNat slot)) >>= fun v =>
    if v.toNat % 2 = 0 then computed (checkShortString v) >>= fun _ => pure index
    else computed (longStringChunks v) >>= fun chunks =>
      foldChecked (checkParent x)
        (fun i n => .ok (i.put 'k' (stringChunkKey x.geth slot n).bytes [lowByte slot]))
        (List.range chunks) index

/-- One iteration of `recognizeMetadata`. The mappings at 0 and 1 have no value
of their own. -/
def recognizeSlot (root : Hash) (index : OvmIndex) (n : Nat) : BalanceProc x OvmIndex :=
  if n < 2 then
    computed (storageValue x root (hashOfNat n)) >>= fun v =>
      computed (require (v = 0) (.msg "nonzero OVM mapping base slot" [])) >>= fun _ => pure index
  else if n = 3 ∨ n = 4 then
    recognizeString x root n (index.put 'k' (numberedKey x.geth n).bytes [lowByte n])
  else pure (index.put 'k' (numberedKey x.geth n).bytes [lowByte n])

/-- `recognizeMetadata`. -/
def recognizeMetadata (root : Hash) (index : OvmIndex) : BalanceProc x OvmIndex :=
  (List.range 7).foldlM (recognizeSlot x root) index >>= fun i => pure i.flush

/-! ## Cursors -/

/-- `ovmEvidenceCursorSteps`. -/
def ovmEvidenceCursorSteps : Nat := 8

/-- `ovmStorageCursor`: the entries that its iterator has not passed, if it has
one. -/
structure StorageCursor where
  ns : Char
  it : Option History

namespace StorageCursor

/-- `seek`: a new iterator over the namespace, from `key` on. -/
def seek (db : Store) (ns : Char) (key : Bytes) : History :=
  (Store.under db [tag ns]).dropWhile fun e => e.1 < key

/-- The loop of `get`: entries below the key are passed one by one, until
`steps` of them are left for a new seek. -/
def advance (db : Store) (ns : Char) (key : Bytes) : Nat → History → BalanceProc x History
  | _, [] => pure []
  | steps, e :: rest =>
    if e.1 < key then
      checkContext x >>= fun _ => match steps with
        | 0 => pure (seek db ns key)
        | steps + 1 => advance db ns key steps rest
    else pure (e :: rest)

/-- The value at the position of an iterator, if its key is the one asked for. -/
def current (key : Bytes) : History → Option Bytes
  | [] => none
  | e :: _ => if e.1 = key then some e.2 else none

/-- `get`. -/
def get (db : Store) (c : StorageCursor) (key : Bytes) :
    BalanceProc x (Option Bytes × StorageCursor) :=
  checkContext x >>= fun _ =>
    advance x db c.ns key ovmEvidenceCursorSteps (c.it.getD (seek db c.ns key)) >>= fun rest =>
      wrapped (.wrap "iterate OVM evidence %c: %w" [.text (toString c.ns)]) (checkEvidence x) >>=
        fun _ => pure (current key rest, { c with it := some rest })

end StorageCursor

/-- The three cursors of `classifyStorage`. -/
structure StorageCursors where
  balances   : StorageCursor
  allowances : StorageCursor
  known      : StorageCursor

/-! ## Classification -/

/-- The holder of a slot that the three namespaces claim so. -/
def slotHolder (balance allowance known : Option Bytes) : Except Err (Option Bytes) := do
  require (balance.isSome.toNat + allowance.isSome.toNat + known.isSome.toNat = 1)
    (.msg "storage ownership is unknown or ambiguous; supplement --ovm-state-witness" [])
  match balance with
  | none => return none
  | some address => do
    require (address.length = 20) (.msg "invalid indexed balance address" [])
    return some address

/-- The record of a balance in the namespace `q`. -/
def balanceRecord (address key : Bytes) (value : U256) : Bytes :=
  address ++ key ++ toBE 32 value.toNat

/-- `queueBalance`. -/
def queueBalance (index : OvmIndex) (address key : Bytes) (value : U256) : OvmIndex :=
  index.put 'q' (x.geth.keccak address).bytes (balanceRecord address key value)

/-- The end of `classifySlot`: a slot without a holder is not a balance. -/
def queueHolder (index : OvmIndex) (holder : Option Bytes) (key : Bytes) (value : U256) :
    OvmIndex :=
  match holder with
  | none => index
  | some address => queueBalance x index address key value

/-- `classifySlot`. -/
def classifySlot (acc : OvmIndex × StorageCursors) (key : Bytes) (value : U256) :
    BalanceProc x (OvmIndex × StorageCursors) :=
  acc.2.balances.get x acc.1.db key >>= fun b =>
    acc.2.allowances.get x acc.1.db key >>= fun a =>
      acc.2.known.get x acc.1.db key >>= fun k =>
        computed (slotHolder b.1 a.1 k.1) >>= fun holder =>
          pure (queueHolder x acc.1 holder key value, ⟨b.2, a.2, k.2⟩)

/-- One iteration of the loop over the slots. -/
def classifyLeaf (acc : OvmIndex × StorageCursors) (e : Bytes × Bytes) :
    BalanceProc x (OvmIndex × StorageCursors) :=
  withLease x (computed (decodeOVMValue e.2) >>= fun value =>
    computed (require (e.1.length = 32) (.msg "invalid OVM storage key length" [])) >>= fun _ =>
      wrapped (.wrap "OVM storage %x: %w" [.bytes e.1]) (classifySlot x acc e.1 value))

/-- The loop over the slots. -/
def classifyLeaves (stream : LeafStream) (index : OvmIndex) : BalanceProc x OvmIndex :=
  stream.leaves.foldlM (classifyLeaf x)
    (index, ⟨⟨'b', none⟩, ⟨'a', none⟩, ⟨'k', none⟩⟩) >>= fun acc =>
    withLease x (pure ()) >>= fun _ =>
      computed (stream.err.elim (.ok ()) .error) >>= fun _ => pure acc.1

/-- `ovmIterator`. -/
def ovmIterator (owner root : Hash) : Except Err LeafStream := do
  let t ← x.tries.openTrie owner root
  t.iterator

/-- `errors.Join(retErr, failure.load())` at the end of a function. -/
def joinResult {α : Type} : Except Err α → Option Err → Except Err α
  | .ok a, none => .ok a
  | .ok _, some f => .error f
  | .error e, none => .error e
  | .error e, some f => .error (.join e f)

/-- The body of `classifyStorage`, with the token's storage root. -/
def classifyAndInspect (root : Hash) (t : BalanceState) : BalanceProc x BalanceState :=
  computed (ovmIterator x (ovmOwner x.geth) root) >>= fun stream =>
    classifyLeaves x stream t.index >>= fun index =>
      invoke (I := BalanceCalls x) (.start { t with index := index }) >>= fun _ =>
        inspectOrderedBalances x >>= fun _ => invoke (I := BalanceCalls x) .finish

/-- `classifyStorage`: whatever happens, the context of the batch is cancelled
and a failure of an inspection is reported. -/
def classifyStorage (root : Hash) (t : BalanceState) : BalanceProc x BalanceState :=
  ExceptT.mk ((classifyAndInspect x root t).run >>= fun out =>
    balanceCall x .cancel >>= fun _ => balanceCall x .loadFailure >>= fun f =>
      pure (joinResult out f))

end Code

/-! ## The known slots -/

/-- A key that `recognizeMetadata` can put into `k`: a numbered slot, or a part
of one of the two strings. -/
def IsKnownKey (g : Geth) (key : Bytes) : Prop :=
  (∃ n, 2 ≤ n ∧ n < 7 ∧ key = (numberedKey g n).bytes) ∨
    ∃ slot n, (slot = 3 ∨ slot = 4) ∧ n < 2 ^ 59 ∧ key = (stringChunkKey g slot n).bytes

/-- The index `i` is `index` after writes of known keys. -/
def Recognized (g : Geth) (index i : OvmIndex) : Prop :=
  ∃ ops, i = index.pushAll ops ∧ ∀ op ∈ ops, ∃ key v, op = .put (tag 'k' :: key) v ∧
    IsKnownKey g key

variable {key : Bytes}

namespace Recognized

variable {g : Geth} {index i j : OvmIndex}

theorem refl (g : Geth) (index : OvmIndex) : Recognized g index index := ⟨[], rfl, by simp⟩

theorem trans (h : Recognized g index i) (h' : Recognized g i j) : Recognized g index j := by
  obtain ⟨ops, rfl, hOps⟩ := h
  obtain ⟨ops', rfl, hOps'⟩ := h'
  exact ⟨ops ++ ops', (OvmIndex.pushAll_append _ _ _).symm, List.forall_mem_append.mpr
    ⟨hOps, hOps'⟩⟩

theorem put (hKey : IsKnownKey g key) (v : Bytes) :
    Recognized g index (index.put 'k' key v) :=
  ⟨[_], rfl, List.forall_mem_singleton.mpr ⟨key, v, rfl, hKey⟩⟩

end Recognized

variable {index out : OvmIndex}

section Known

variable {x : BalanceInputs} {tr : List (Event (BalanceCalls x))}

theorem longStringChunks_le {v : U256} {chunks : Nat} (h : longStringChunks v = .ok chunks) :
    chunks ≤ 2 ^ 59 := by
  obtain ⟨⟨⟩, hLength, hEq⟩ := bind_eq_ok.mp h
  obtain ⟨hLt, -⟩ := require_eq_ok.mp hLength
  obtain rfl := Except.ok.inj hEq
  omega

/-- The slots of a string are recognized. -/
theorem returns_recognizeString {root : Hash} {slot : Nat} (hSlot : slot = 3 ∨ slot = 4)
    (h : Returns (recognizeString x root slot index) tr out) :
    Recognized x.geth index out := by
  obtain ⟨v, t₁, u₁, -, hk₁, rfl⟩ := returns_bind.mp h
  by_cases hShort : v.toNat % 2 = 0
  · rw [if_pos hShort] at hk₁
    obtain ⟨⟨⟩, t₂, u₂, -, hRet, rfl⟩ := returns_bind.mp hk₁
    obtain ⟨-, rfl⟩ := returns_pure.mp hRet
    exact .refl _ _
  · rw [if_neg hShort] at hk₁
    obtain ⟨chunks, t₂, u₂, hChunks, hFold, rfl⟩ := returns_bind.mp hk₁
    have hBound := longStringChunks_le (returns_computed.mp hChunks).2
    have hInit : (∀ n ∈ ([] : List Nat), n < 2 ^ 59) → Recognized x.geth index index :=
      fun _ => .refl _ _
    -- one write per part of the string
    have hRun := foldlM_invariant
      (fun (seen : List Nat) (i : OvmIndex) => (∀ n ∈ seen, n < 2 ^ 59) → Recognized x.geth index i)
      (fun seen i n i' hInv hStep hSeen => by
        obtain rfl := Except.ok.inj hStep
        refine (hInv fun m hm => hSeen m (by simp [hm])).trans (.put ?_ _)
        exact .inr ⟨slot, n, hSlot, hSeen n (by simp), rfl⟩)
      hInit (returns_foldChecked hFold)
    rw [List.nil_append] at hRun
    exact hRun fun n hn => lt_of_lt_of_le (List.mem_range.mp hn) hBound

theorem returns_recognizeSlot {root : Hash} {n : Nat} (hn : n < 7)
    (h : Returns (recognizeSlot x root index n) tr out) : Recognized x.geth index out := by
  unfold recognizeSlot at h
  by_cases hBase : n < 2
  · rw [if_pos hBase] at h
    obtain ⟨v, t₁, u₁, -, hk₁, rfl⟩ := returns_bind.mp h
    obtain ⟨⟨⟩, t₂, u₂, -, hRet, rfl⟩ := returns_bind.mp hk₁
    obtain ⟨-, rfl⟩ := returns_pure.mp hRet
    exact .refl _ _
  · rw [if_neg hBase] at h
    have hKnown : IsKnownKey x.geth (numberedKey x.geth n).bytes := .inl ⟨n, by omega, hn, rfl⟩
    by_cases hString : n = 3 ∨ n = 4
    · rw [if_pos hString] at h
      exact .trans (.put hKnown _) (returns_recognizeString hString h)
    · rw [if_neg hString] at h
      obtain ⟨-, rfl⟩ := returns_pure.mp h
      exact .put hKnown _

/-- **`recognizeMetadata` writes known keys only.** -/
theorem returns_recognizeMetadata {root : Hash}
    (h : Returns (recognizeMetadata x root index) tr out) :
    ∃ i, Recognized x.geth index i ∧ out = i.flush := by
  obtain ⟨i, t, u, hFold, hRet, rfl⟩ := returns_bind.mp h
  obtain ⟨-, rfl⟩ := returns_pure.mp hRet
  have hInit : (∀ n ∈ ([] : List Nat), n < 7) → Recognized x.geth index index := fun _ => .refl _ _
  have hRun := returns_foldlM
    (fun (seen : List Nat) (i : OvmIndex) => (∀ n ∈ seen, n < 7) → Recognized x.geth index i)
    (fun seen i n i' tr hInv hStep hSeen =>
      (hInv fun m hm => hSeen m (by simp [hm])).trans
        (returns_recognizeSlot (hSeen n (by simp)) hStep))
    hInit hFold
  exact ⟨i, hRun fun n hn => List.mem_range.mp (by simpa using hn), rfl⟩

end Known

/-! ## What a cursor answers -/

variable {db : Store}

section Cursors

theorem dropWhile_dropWhile {l : History} {k k' : Bytes} (h : k ≤ k') :
    (l.dropWhile fun e => e.1 < k).dropWhile (fun e => e.1 < k') =
      l.dropWhile fun e => e.1 < k' := by
  induction l with
  | nil => rfl
  | cons e l ih =>
    by_cases hk : e.1 < k
    · simp only [List.dropWhile_cons, hk, lt_of_lt_of_le hk h, decide_true, if_true]
      exact ih
    · rw [List.dropWhile_cons_of_neg (by simpa using hk)]

theorem current_dropWhile {l : History} (hOrder : Increasing l) (key : Bytes) :
    StorageCursor.current key (l.dropWhile fun e => e.1 < key) = leafAt l key := by
  induction l with
  | nil => rfl
  | cons e l ih =>
    have hOrder' := List.pairwise_cons.mp hOrder
    rw [leafAt_cons]
    by_cases hk : e.1 < key
    · rw [List.dropWhile_cons_of_pos (by simpa using hk), if_neg (ne_of_lt hk)]
      exact ih hOrder'.2
    · rw [List.dropWhile_cons_of_neg (by simpa using hk), StorageCursor.current]
      by_cases hEq : e.1 = key
      · rw [if_pos hEq, if_pos hEq]
      · -- all keys from here on are above the one asked for
        have hLt : key < e.1 := lt_of_le_of_ne (not_lt.mp hk) (Ne.symm hEq)
        rw [if_neg hEq, if_neg hEq]
        exact (leafAt_eq_none.mpr fun e' he' => ne_of_gt (hLt.trans (hOrder'.1 e' he'))).symm

variable {x : BalanceInputs} {tr : List (Event (BalanceCalls x))}

/-- A cursor that serves the keys from `key` on: it has passed only entries
below. -/
def StorageCursor.Ready (db : Store) (key : Bytes) (c : StorageCursor) : Prop :=
  ∀ rest ∈ c.it, rest.dropWhile (fun e => e.1 < key) = StorageCursor.seek db c.ns key

theorem StorageCursor.Ready.mono {key' : Bytes} {c : StorageCursor} (h : c.Ready db key)
    (hLe : key ≤ key') : c.Ready db key' := by
  intro rest hRest
  rw [← dropWhile_dropWhile hLe, h rest hRest]
  exact dropWhile_dropWhile hLe

/-- What the loop of a cursor leaves, however often it seeks. -/
theorem returns_advance {ns : Char} {steps : Nat} {l out : History}
    (hReady : l.dropWhile (fun e => e.1 < key) = StorageCursor.seek db ns key)
    (h : Returns (StorageCursor.advance x db ns key steps l) tr out) :
    out = StorageCursor.seek db ns key := by
  induction l generalizing steps tr with
  | nil =>
    unfold StorageCursor.advance at h
    obtain ⟨-, rfl⟩ := returns_pure.mp h
    exact hReady
  | cons e l ih =>
    unfold StorageCursor.advance at h
    by_cases hk : e.1 < key
    · rw [if_pos hk] at h
      rw [List.dropWhile_cons_of_pos (by simpa using hk)] at hReady
      obtain ⟨⟨⟩, t, t', -, hNext, rfl⟩ := returns_bind.mp h
      cases steps with
      | zero => exact (returns_pure.mp hNext).2.symm
      | succ steps => exact ih hReady hNext
    · rw [if_neg hk] at h
      rw [List.dropWhile_cons_of_neg (by simpa using hk)] at hReady
      obtain ⟨-, rfl⟩ := returns_pure.mp h
      exact hReady

/-- **A cursor answers as a lookup does**, and it stays ready for the keys
above. -/
theorem returns_cursorGet {c : StorageCursor} {out : Option Bytes × StorageCursor}
    (hReady : c.Ready db key) (h : Returns (c.get x db key) tr out) :
    out.1 = db.get? (tag c.ns :: key) ∧ out.2.ns = c.ns ∧ out.2.Ready db key := by
  obtain ⟨⟨⟩, t₁, u₁, -, hk₁, rfl⟩ := returns_bind.mp h
  obtain ⟨rest, t₂, u₂, hAdvance, hk₂, rfl⟩ := returns_bind.mp hk₁
  obtain ⟨⟨⟩, t₃, u₃, -, hRet, rfl⟩ := returns_bind.mp hk₂
  obtain ⟨-, rfl⟩ := returns_pure.mp hRet
  have hStart : (c.it.getD (StorageCursor.seek db c.ns key)).dropWhile (fun e => e.1 < key) =
      StorageCursor.seek db c.ns key := by
    cases hIt : c.it with
    | none => exact dropWhile_dropWhile (le_refl key)
    | some rest => exact hReady rest hIt
  obtain rfl := returns_advance hStart hAdvance
  refine ⟨?_, rfl, ?_⟩
  · rw [StorageCursor.seek, current_dropWhile (Store.under_pairwise _ _), leafAt_under]
    rfl
  · intro rest hRest
    obtain rfl := Option.some.inj hRest
    exact dropWhile_dropWhile (le_refl key)

end Cursors

/-! ## Which slots pass -/

section Classified

variable (x : BalanceInputs)

/-- The amount in a slot. -/
def amountOf (blob : Bytes) : U256 :=
  match decodeOVMValue blob with
  | .ok v => v
  | .error _ => 0

/-- The holder of a slot by the evidence `db`. -/
def holderOf (db : Store) (key : Bytes) : Except Err (Option Bytes) :=
  slotHolder (db.get? (tag 'b' :: key)) (db.get? (tag 'a' :: key)) (db.get? (tag 'k' :: key))

/-- A slot that passes: one namespace claims it. -/
structure Claimed (db : Store) (e : Bytes × Bytes) : Prop where
  key    : e.1.length = 32
  amount : decodeOVMValue e.2 = .ok (amountOf e.2)
  holder : ∃ holder, holderOf db e.1 = .ok holder

/-- The record that a slot leaves. -/
def recordOf (db : Store) (e : Bytes × Bytes) : Option (Bytes × Bytes) :=
  match holderOf db e.1 with
  | .ok (some address) =>
    some ((x.geth.keccak address).bytes, balanceRecord address e.1 (amountOf e.2))
  | _ => none

/-- The write of a record. -/
def recordOp (e : Bytes × Bytes) : DbOp := .put (tag 'q' :: e.1) e.2

/-- A key outside the namespace `q`. -/
def isEvidenceKey (k : Bytes) : Bool := k.head? ≠ some (tag 'q')

variable {x} {tr : List (Event (BalanceCalls x))}

theorem seek_of_settled {i : OvmIndex} (h : i.Settled isEvidenceKey db) {ns : Char}
    (hns : tag ns ≠ tag 'q') : Store.under i.db [tag ns] = Store.under db [tag ns] :=
  Store.under_congr fun k => h.stored _ (by simp [isEvidenceKey, hns])

/-- What holds between two slots: the records so far are written, and the
cursors serve every key above. -/
structure Classifying (db : Store) (start : OvmIndex) (seen : History)
    (acc : OvmIndex × StorageCursors) : Prop where
  claimed    : ∀ e ∈ seen, Claimed db e
  index      : acc.1 = start.pushAll ((seen.filterMap (recordOf x db)).map recordOp)
  settled    : acc.1.Settled isEvidenceKey db
  balances   : acc.2.balances.ns = 'b' ∧
    ∀ key, (∀ e ∈ seen, e.1 ≤ key) → acc.2.balances.Ready db key
  allowances : acc.2.allowances.ns = 'a' ∧
    ∀ key, (∀ e ∈ seen, e.1 ≤ key) → acc.2.allowances.Ready db key
  known      : acc.2.known.ns = 'k' ∧
    ∀ key, (∀ e ∈ seen, e.1 ≤ key) → acc.2.known.Ready db key

/-- A cursor over an index that has the evidence of `db`. -/
theorem returns_settledGet {i : OvmIndex} {c : StorageCursor} {out : Option Bytes × StorageCursor}
    {ns : Char} (hSettled : i.Settled isEvidenceKey db) (hns : tag ns ≠ tag 'q')
    (hCursor : c.ns = ns) (hReady : c.Ready db key) (h : Returns (c.get x i.db key) tr out) :
    out.1 = db.get? (tag ns :: key) ∧ out.2.ns = ns ∧
      ∀ key', key ≤ key' → out.2.Ready db key' := by
  subst hCursor
  have hSeek : ∀ key, StorageCursor.seek i.db c.ns key = StorageCursor.seek db c.ns key := by
    intro key
    rw [StorageCursor.seek, seek_of_settled hSettled hns]
    rfl
  have hReady' : c.Ready i.db key := fun rest hRest => (hReady rest hRest).trans (hSeek key).symm
  obtain ⟨hOut, hName, hNext⟩ := returns_cursorGet hReady' h
  refine ⟨?_, hName, fun key' hLe rest hRest => ?_⟩
  · rw [hOut]
    exact hSettled.stored _ (by simp [isEvidenceKey, hns])
  · rw [hNext.mono hLe rest hRest, hName, hSeek]

/-- One slot. -/
theorem Classifying.step {start : OvmIndex} {seen : History} {acc acc' : OvmIndex × StorageCursors}
    {e : Bytes × Bytes} (h : Classifying (x := x) db start seen acc)
    (hAbove : ∀ e' ∈ seen, e'.1 < e.1) (hLeaf : Returns (classifyLeaf x acc e) tr acc') :
    Classifying (x := x) db start (seen ++ [e]) acc' := by
  obtain ⟨t, hBody, -⟩ := returns_withLease hLeaf
  obtain ⟨value, t₁, u₁, hValue, hk₁, rfl⟩ := returns_bind.mp hBody
  obtain ⟨⟨⟩, t₂, u₂, hLength, hk₂, rfl⟩ := returns_bind.mp hk₁
  obtain ⟨-, hValue⟩ := returns_computed.mp hValue
  obtain ⟨-, hLength⟩ := returns_computed.mp hLength
  rw [require_eq_ok] at hLength
  -- the three cursors
  obtain ⟨b, t₃, u₃, hb, hk₃, rfl⟩ := returns_bind.mp (returns_wrapped hk₂)
  obtain ⟨a, t₄, u₄, ha, hk₄, rfl⟩ := returns_bind.mp hk₃
  obtain ⟨k, t₅, u₅, hk, hk₅, rfl⟩ := returns_bind.mp hk₄
  obtain ⟨holder, t₆, u₆, hHolder, hRet, rfl⟩ := returns_bind.mp hk₅
  obtain ⟨-, rfl⟩ := returns_pure.mp hRet
  obtain ⟨-, hHolder⟩ := returns_computed.mp hHolder
  have hLe : ∀ e' ∈ seen, e'.1 ≤ e.1 := fun e' he' => (hAbove e' he').le
  obtain ⟨hb₁, hb₂, hb₃⟩ :=
    returns_settledGet h.settled (by decide) h.balances.1 (h.balances.2 e.1 hLe) hb
  obtain ⟨ha₁, ha₂, ha₃⟩ :=
    returns_settledGet h.settled (by decide) h.allowances.1 (h.allowances.2 e.1 hLe) ha
  obtain ⟨hk₁, hk₂, hk₃⟩ :=
    returns_settledGet h.settled (by decide) h.known.1 (h.known.2 e.1 hLe) hk
  rw [hb₁, ha₁, hk₁] at hHolder
  have hAmount : amountOf e.2 = value := by rw [amountOf, hValue]
  have hClaimed : Claimed db e := ⟨hLength, by rw [hAmount, hValue], holder, hHolder⟩
  have hLast : ∀ key, (∀ e' ∈ seen ++ [e], e'.1 ≤ key) → e.1 ≤ key := fun key hKey =>
    hKey e (by simp)
  -- the record of this slot, if it is a balance
  have hIndex : queueHolder x acc.1 holder e.1 value =
      acc.1.pushAll ((recordOf x db e).toList.map recordOp) := by
    have hHolderOf : holderOf db e.1 = .ok holder := hHolder
    rw [recordOf, hHolderOf, hAmount]
    cases holder <;> rfl
  have hRecords : ((seen ++ [e]).filterMap (recordOf x db)).map recordOp =
      (seen.filterMap (recordOf x db)).map recordOp ++ (recordOf x db e).toList.map recordOp := by
    rw [List.filterMap_append, List.map_append]
    cases hRecord : recordOf x db e <;> simp [hRecord]
  refine ⟨?_, ?_, ?_, ⟨hb₂, fun key hKey => hb₃ key (hLast key hKey)⟩,
    ⟨ha₂, fun key hKey => ha₃ key (hLast key hKey)⟩,
      ⟨hk₂, fun key hKey => hk₃ key (hLast key hKey)⟩⟩
  · intro e' he'
    rcases List.mem_append.mp he' with he' | he'
    · exact h.claimed e' he'
    · rwa [List.mem_singleton.mp he']
  · show queueHolder x acc.1 holder e.1 value = _
    rw [hIndex, hRecords, OvmIndex.pushAll_append, ← h.index]
  · show (queueHolder x acc.1 holder e.1 value).Settled isEvidenceKey db
    rw [hIndex]
    refine h.settled.pushAll fun op hop => ?_
    obtain ⟨r, -, rfl⟩ := List.mem_map.mp hop
    rfl

/-- **The loop over the slots**: all of them are claimed, and the balance slots
leave their records. -/
theorem returns_classifyLeaves {stream : LeafStream}
    (hOrder : stream.err = none → Increasing stream.leaves) (hFlushed : index.batch = [])
    (h : Returns (classifyLeaves x stream index) tr out) :
    stream.err = none ∧ (∀ e ∈ stream.leaves, Claimed index.db e) ∧
      out = index.pushAll ((stream.leaves.filterMap (recordOf x index.db)).map recordOp) := by
  obtain ⟨acc, t₁, u₁, hFold, hk₁, rfl⟩ := returns_bind.mp h
  obtain ⟨⟨⟩, t₂, u₂, -, hk₂, rfl⟩ := returns_bind.mp hk₁
  obtain ⟨⟨⟩, t₃, u₃, hErr, hRet, rfl⟩ := returns_bind.mp hk₂
  obtain ⟨-, rfl⟩ := returns_pure.mp hRet
  have hInit : Increasing ([] : History) → Classifying (x := x) index.db index []
      (index, ⟨⟨'b', none⟩, ⟨'a', none⟩, ⟨'k', none⟩⟩) := fun _ =>
    ⟨by simp, rfl, ⟨fun _ _ => rfl, by simp [hFlushed]⟩, ⟨rfl, fun _ _ _ h => nomatch h⟩,
      ⟨rfl, fun _ _ _ h => nomatch h⟩, ⟨rfl, fun _ _ _ h => nomatch h⟩⟩
  -- the keys increase, so that each slot is above those before it
  have hRun := returns_foldlM
    (fun seen acc => Increasing seen → Classifying (x := x) index.db index seen acc)
    (fun seen acc e acc' tr hInv hLeaf hSeen => by
      obtain ⟨hBefore, -, hAbove⟩ := List.pairwise_append.mp hSeen
      exact (hInv hBefore).step (fun e' he' => hAbove e' he' e (by simp)) hLeaf)
    hInit hFold
  rw [List.nil_append] at hRun
  have hDone : stream.err = none := by
    cases hCase : stream.err with
    | none => rfl
    | some e =>
      rw [hCase] at hErr
      exact absurd (returns_computed.mp hErr).2 (by simp)
  have hEnd := hRun (hOrder hDone)
  exact ⟨hDone, hEnd.claimed, hEnd.index⟩

end Classified

end L2State
