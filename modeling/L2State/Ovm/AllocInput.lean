import L2State.Lib.Process
import L2State.Ovm.Index
import L2State.Bundle.Account

/-!
# L2State — reading a GenesisAlloc file

`loadOVMGenesisAlloc` of `ovm_alloc_input.go`: a JSON object from addresses to
accounts becomes entries of the evidence index. The namespace `G` has a record
per account with the fields that were given, and the namespace `H` has a record
per storage slot.

The JSON decoder and the number formats are geth's and the standard library's:
the file is a JSON value with its members in file order, and `AllocDecoders`
reads the scalars.

* `Json`, `AllocDecoders` — the file.
* `loadOVMGenesisAlloc` — the loader.
* `AllocEntry`, `fileEntries` — **what the file says**, field by field and
  without regard to the order of fields.
* `returns_load` — the loader writes the records of the entries, once each.
-/

namespace L2State

open Lib

/-! ## The file -/

/-- A JSON value, with the members of an object in file order. -/
inductive Json
  | str (text : String)
  | num (text : String)
  | obj (members : List (String × Json))
  /-- `null`, a boolean or an array. -/
  | other

/-- The readers of the scalars of an account: addresses, hex strings and the
two number formats of geth. -/
structure AllocDecoders where
  /-- `common.UnprefixedAddress.UnmarshalText`. -/
  address : String → Except Err Address
  /-- `hexutil.Bytes.UnmarshalJSON`. -/
  code    : Json → Except Err Bytes
  /-- `math.HexOrDecimal256.UnmarshalJSON`. -/
  balance : Json → Except Err Int
  /-- `math.HexOrDecimal64.UnmarshalJSON`. -/
  nonce   : Json → Except Err UInt64

/-- `ovmAllocMaxCode`. -/
def ovmAllocMaxCode : Nat := 2 ^ 20

/-- `ovmAllocAccount`. -/
structure AllocAccount where
  fields  : Nat
  code    : Bytes
  balance : Bytes
  nonce   : UInt64
deriving DecidableEq

/-- The bits of `Fields`. -/
def ovmAllocCodeField : Nat := 1
def ovmAllocBalanceField : Nat := 2
def ovmAllocNonceField : Nat := 4
def ovmAllocStorageField : Nat := 8

/-- `rlp.EncodeToBytes` of an account patch. -/
def encodeAllocAccount (p : AllocAccount) : Bytes :=
  Rlp.encodeList (Rlp.encodeUint 1 p.fields ++ (Rlp.encodeString p.code ++
    (Rlp.encodeString p.balance ++ Rlp.encodeUint 8 p.nonce.toNat)))

/-- `rlp.DecodeBytes` into an account patch. -/
def decodeAllocAccount (b : Bytes) : Except Rlp.Error AllocAccount := do
  let rest ← Rlp.listOnly b
  let (fields, rest) ← Rlp.uintField 1 rest
  let (code, rest) ← Rlp.bytesField rest
  let (balance, rest) ← Rlp.bytesField rest
  let (nonce, rest) ← Rlp.uintField 8 rest
  require (rest = []) .tooManyElements
  return ⟨fields, code, balance, .ofNat nonce⟩

/-! ## Storage words -/

/-- The value of a hex digit. -/
def hexDigit (c : Char) : Option Nat :=
  if '0' ≤ c ∧ c ≤ '9' then some (c.toNat - '0'.toNat)
  else if 'a' ≤ c ∧ c ≤ 'f' then some (c.toNat - 'a'.toNat + 10)
  else if 'A' ≤ c ∧ c ≤ 'F' then some (c.toNat - 'A'.toNat + 10)
  else none

/-- `hex.Decode`. -/
def hexDecode : List Char → Except Err Bytes
  | [] => .ok []
  | [_] => .error (.outside "encoding/hex: odd length hex string")
  | a :: b :: rest =>
    match hexDigit a, hexDigit b with
    | some x, some y => (hexDecode rest).map (lowByte (16 * x + y) :: ·)
    | _, _ => .error (.outside "encoding/hex: invalid byte")

/-- `strings.TrimPrefix(text, "0x")`. -/
def trimHex : List Char → List Char
  | '0' :: 'x' :: rest => rest
  | text => text

/-- `decodeOVMAllocWord`. -/
def decodeOVMAllocWord (text : String) : Except Err Hash := do
  let digits := trimHex text.toList
  require ((digits.map Char.utf8Size).sum ≤ 64)
    (.msg "GenesisAlloc storage key/value exceeds 32 bytes" [])
  let bytes ← hexDecode digits
  return .ofBytes 32 bytes

/-- A reader of addresses for samples: 40 digits behind an optional `0x`. -/
def readHexAddress (text : String) : Except Err Address := do
  let word ← decodeOVMAllocWord text
  require ((trimHex text.toList).length = 40 ∧ ofBE word.bytes < 2 ^ 160)
    (.outside "hex string has invalid length")
  return ⟨toBE 20 (ofBE word.bytes), length_toBE 20 _⟩

/-- `json.Unmarshal` of a scalar into a string. -/
def scalarText : Json → Except Err String
  | .str text => .ok text
  | .num _ => .error (.outside "json: cannot unmarshal number into Go value of type string")
  | _ => .error (.msg "expected non-null JSON string or number" [])

/-- `scalar`: a string or a number. -/
def scalar : Json → Except Err Json
  | .str text => .ok (.str text)
  | .num text => .ok (.num text)
  | _ => .error (.msg "expected non-null JSON string or number" [])

/-- A slot and its value. -/
def slotOf (m : String × Json) : Except Err (Hash × Hash) := do
  let slot ← decodeOVMAllocWord m.1
  let text ← scalarText m.2
  let value ← decodeOVMAllocWord text
  return (slot, value)

/-- The leaf of a storage value: nothing for zero. -/
def allocSlotValue (value : Hash) : Bytes :=
  if value ≠ zeroHash then Rlp.encodeString (value.bytes.dropWhile (· = 0)) else []

/-! ## The loader -/

/-- The index, and the keys that the loader has put into its batch. -/
structure AllocLoader where
  index   : OvmIndex
  pending : List Bytes

/-- `unique`. -/
def AllocLoader.unique (l : AllocLoader) (key value : Bytes) : Except Err AllocLoader := do
  require (key ∉ l.pending) (.msg "duplicate GenesisAlloc address or storage slot" [])
  require (l.index.db.get? key = none) (.msg "duplicate GenesisAlloc address or storage slot" [])
  let index := l.index.push (.put key value)
  -- a flushed batch clears the pending keys
  return ⟨index, if index.batch = [] then [] else key :: l.pending⟩

/-- The key of an account record. -/
def allocAccountKey (owner : Hash) : Bytes := tag 'G' :: owner.bytes

/-- The key of a slot record. -/
def allocSlotKey (g : Geth) (owner slot : Hash) : Bytes :=
  (tag 'H' :: owner.bytes) ++ (g.keccak slot.bytes).bytes

/-- The state while the members of an account are read. -/
structure AllocReading where
  patch  : AllocAccount
  seen   : List String
  loader : AllocLoader

section Loader

variable (g : Geth) (dec : AllocDecoders) {I : Interface} (check : Fallible I Err Unit)

/-- `object`: the members in order, each after a check of the context. -/
def allocObject {σ : Type} (j : Json) (visit : σ → String × Json → Fallible I Err σ) (s : σ) :
    Fallible I Err σ :=
  match j with
  | .obj members => members.foldlM (fun s m => check >>= fun _ =>
      wrapped (.wrap "GenesisAlloc key %.80q: %w" [.text m.1]) (visit s m)) s
  | _ => computed (.error (.msg "expected JSON delimiter %c" [.text "\x7b"]))

/-- `storage`, with the bit that its caller sets first. -/
def allocStorage (owner : Hash) (r : AllocReading) (m : String × Json) :
    Except Err AllocReading := do
  let (slot, value) ← slotOf m
  let loader ← r.loader.unique (allocSlotKey g owner slot) (allocSlotValue value)
  return { r with patch := { r.patch with fields := r.patch.fields ||| ovmAllocStorageField }
                  loader := loader }

/-- The three scalar fields of `field`. -/
def allocScalar (r : AllocReading) (name : String) (j : Json) : Except Err AllocReading := do
  require (name = "code" ∨ name = "balance" ∨ name = "nonce") (.msg "unknown account field" [])
  let data ← scalar j
  if name = "code" then
    let code ← dec.code data
    require (code.length ≤ ovmAllocMaxCode) (.msg "GenesisAlloc code exceeds 1 MiB" [])
    return { r with
      patch := { r.patch with code := code, fields := r.patch.fields ||| ovmAllocCodeField } }
  else if name = "balance" then
    let value ← dec.balance data
    require (0 ≤ value ∧ value < 2 ^ 256)
      (.msg "GenesisAlloc balance must be a nonnegative uint256" [])
    return { r with patch := { r.patch with balance := minimalBE 32 value.toNat
                                            fields := r.patch.fields ||| ovmAllocBalanceField } }
  else
    let nonce ← dec.nonce data
    return { r with patch := { r.patch with nonce := nonce
                                            fields := r.patch.fields ||| ovmAllocNonceField } }

/-- One member of an account: a name is allowed once. -/
def allocField (owner : Hash) (r : AllocReading) (m : String × Json) :
    Fallible I Err AllocReading :=
  computed (require (m.1 ∉ r.seen) (.msg "duplicate account field" [])) >>= fun _ =>
    if m.1 = "storage" then
      allocObject check m.2 (fun r s => computed (allocStorage g owner r s))
        { r with seen := m.1 :: r.seen }
    else computed (allocScalar dec { r with seen := m.1 :: r.seen } m.1 m.2)

/-- `account`. -/
def allocAccount (l : AllocLoader) (m : String × Json) : Fallible I Err AllocLoader :=
  computed (dec.address m.1) >>= fun address =>
    computed (require (address ≠ ovmETHAddress)
      (.msg "GenesisAlloc must not modify OVM_ETH" [])) >>= fun _ =>
      allocObject check m.2 (allocField g dec check (accountKey g address))
        ⟨⟨0, [], [], 0⟩, [], l⟩ >>= fun r =>
          computed (r.loader.unique (allocAccountKey (accountKey g address))
            (encodeAllocAccount r.patch))

/-- `loadOVMGenesisAlloc`: the index afterwards. -/
def loadOVMGenesisAlloc (file : Json) (index : OvmIndex) : Fallible I Err OvmIndex :=
  wrapped (.wrap "decode GenesisAlloc: %w" [])
      (allocObject check file (allocAccount g dec check) ⟨index, []⟩) >>= fun l =>
    check >>= fun _ => pure l.index.flush

end Loader

/-! ## What the file says -/

/-- What a file says about an account: the fields that it gives. -/
structure AllocEntry where
  code    : Option Bytes
  balance : Option U256
  nonce   : Option UInt64
  slots   : List (Hash × Hash)
deriving DecidableEq

namespace AllocEntry

/-- An account `{}` or one with an empty `storage` only says nothing. -/
def isEmpty (e : AllocEntry) : Bool :=
  e.code.isNone && e.balance.isNone && e.nonce.isNone && e.slots.isEmpty

/-- The bits of the fields that are given. -/
def fields (e : AllocEntry) : Nat :=
  (if e.code.isSome then ovmAllocCodeField else 0) |||
    (if e.balance.isSome then ovmAllocBalanceField else 0) |||
      (if e.nonce.isSome then ovmAllocNonceField else 0) |||
        (if e.slots.isEmpty then 0 else ovmAllocStorageField)

/-- The account record. -/
def patch (e : AllocEntry) : AllocAccount where
  fields := e.fields
  code := e.code.getD []
  balance := (e.balance.map fun v => minimalBE 32 v.toNat).getD []
  nonce := e.nonce.getD 0

/-- The slot records. -/
def slotPuts (g : Geth) (owner : Hash) (slots : List (Hash × Hash)) : List (Bytes × Bytes) :=
  slots.map fun s => (allocSlotKey g owner s.1, allocSlotValue s.2)

/-- All records of an account. -/
def puts (g : Geth) (owner : Hash) (e : AllocEntry) : List (Bytes × Bytes) :=
  slotPuts g owner e.slots ++ [(allocAccountKey owner, encodeAllocAccount e.patch)]

end AllocEntry

section Meaning

variable (dec : AllocDecoders)

/-- The value of a member. -/
def memberOf (members : List (String × Json)) (name : String) : Option Json :=
  (members.find? fun m => m.1 = name).map Prod.snd

/-- An optional scalar field. -/
def optionalField {α : Type} (read : Json → Except Err α) : Option Json → Except Err (Option α)
  | none => .ok none
  | some j => do
    let data ← scalar j
    let a ← read data
    return some a

def readCode (j : Json) : Except Err Bytes := do
  let code ← dec.code j
  require (code.length ≤ ovmAllocMaxCode) (.msg "GenesisAlloc code exceeds 1 MiB" [])
  return code

def readBalance (j : Json) : Except Err U256 := do
  let value ← dec.balance j
  require (0 ≤ value ∧ value < 2 ^ 256)
    (.msg "GenesisAlloc balance must be a nonnegative uint256" [])
  return .ofNat 256 value.toNat

/-- The slots of an account. -/
def readSlots : Option Json → Except Err (List (Hash × Hash))
  | none => .ok []
  | some (.obj members) => members.mapM slotOf
  | some _ => .error (.msg "expected JSON delimiter %c" [.text "\x7b"])

/-- What the members of an account say, whatever their order. -/
def entryOf (members : List (String × Json)) : Except Err AllocEntry := do
  let code ← optionalField (readCode dec) (memberOf members "code")
  let balance ← optionalField (readBalance dec) (memberOf members "balance")
  let nonce ← optionalField dec.nonce (memberOf members "nonce")
  let slots ← readSlots (memberOf members "storage")
  return ⟨code, balance, nonce, slots⟩

/-- What a member of the file says. -/
def accountEntry (m : String × Json) : Except Err (Address × AllocEntry) := do
  let address ← dec.address m.1
  require (address ≠ ovmETHAddress) (.msg "GenesisAlloc must not modify OVM_ETH" [])
  match m.2 with
  | .obj members => do
    let e ← entryOf dec members
    return (address, e)
  | _ => .error (.msg "expected JSON delimiter %c" [.text "\x7b"])

/-- What the file says. -/
def fileEntries : Json → Except Err (List (Address × AllocEntry))
  | .obj members => members.mapM (accountEntry dec)
  | _ => .error (.msg "expected JSON delimiter %c" [.text "\x7b"])

end Meaning

/-! ## Records, once each -/

/-- The write of a record. -/
def putOp (e : Bytes × Bytes) : DbOp := .put e.1 e.2

/-- The loader has written the records `puts`, all with different keys. -/
structure Loaded (start : OvmIndex) (puts : List (Bytes × Bytes)) (l : AllocLoader) : Prop where
  index   : l.index = start.pushAll (puts.map putOp)
  nodup   : (puts.map Prod.fst).Nodup
  covered : ∀ e ∈ puts, e.1 ∈ l.pending ∨ l.index.db.get? e.1 ≠ none

/-- The value of a record is the one that was written. -/
theorem get?_applyOps_puts {puts : List (Bytes × Bytes)} (hNodup : (puts.map Prod.fst).Nodup)
    {e : Bytes × Bytes} (he : e ∈ puts) (db : Store) :
    (applyOps db (puts.map putOp)).get? e.1 = some e.2 := by
  have hPut : Op.put e.1 e.2 ∈ puts.map putOp := List.mem_map.mpr ⟨e, he, rfl⟩
  refine get?_applyOps_of_puts ?_ hPut db
  intro op hop hKey
  obtain ⟨e', he', rfl⟩ := List.mem_map.mp hop
  rw [List.inj_on_of_nodup_map hNodup he' he hKey]
  rfl

theorem OvmIndex.push_batch_ne_nil {i : OvmIndex} {op : DbOp} (h : (i.push op).batch ≠ []) :
    (i.push op).db = i.db := by
  unfold OvmIndex.push at h ⊢
  split
  · rfl
  · next hFull =>
    rw [if_neg hFull] at h
    exact absurd rfl h

theorem OvmIndex.push_batch_nil {i : OvmIndex} {op : DbOp} (h : (i.push op).batch = []) :
    (i.push op).db = (i.push op).content := by
  rw [OvmIndex.content, h]
  rfl

namespace Loaded

variable {start : OvmIndex} {puts : List (Bytes × Bytes)} {l l' : AllocLoader}

theorem init (start : OvmIndex) : Loaded start [] ⟨start, []⟩ := ⟨rfl, List.nodup_nil, by simp⟩

theorem content (h : Loaded start puts l) :
    l.index.content = applyOps start.content (puts.map putOp) := by
  rw [h.index, OvmIndex.content_pushAll]

/-- One record more: its key has not been written before. -/
theorem unique {key value : Bytes} (h : Loaded start puts l) (hStep : l.unique key value = .ok l') :
    Loaded start (puts ++ [(key, value)]) l' := by
  obtain ⟨⟨⟩, hPending, hk₁⟩ := bind_eq_ok.mp hStep
  obtain ⟨⟨⟩, hStored, hEq⟩ := bind_eq_ok.mp hk₁
  rw [require_eq_ok] at hPending hStored
  obtain rfl := Except.ok.inj hEq
  have hIndex : l.index.push (.put key value) =
      start.pushAll ((puts ++ [(key, value)]).map putOp) := by
    rw [List.map_append, OvmIndex.pushAll_append, ← h.index]
    rfl
  have hNodup : ((puts ++ [(key, value)]).map Prod.fst).Nodup := by
    rw [List.map_append, List.nodup_append]
    refine ⟨h.nodup, List.nodup_singleton _, fun k hk k' hk' hEq => ?_⟩
    obtain rfl := List.mem_singleton.mp hk'
    obtain ⟨e, he, rfl⟩ := List.mem_map.mp hk
    -- the key of an earlier record is pending or stored
    rcases h.covered e he with hOld | hOld
    · exact hPending (hEq ▸ hOld)
    · exact hOld (hEq ▸ hStored)
  refine ⟨hIndex, hNodup, fun e he => ?_⟩
  by_cases hBatch : (l.index.push (.put key value)).batch = []
  · -- everything is in the database
    right
    show (l.index.push (.put key value)).db.get? e.1 ≠ none
    rw [OvmIndex.push_batch_nil hBatch, hIndex, OvmIndex.content_pushAll,
      get?_applyOps_puts hNodup he]
    simp
  · show e.1 ∈ (if (l.index.push (.put key value)).batch = [] then [] else key :: l.pending) ∨
      (l.index.push (.put key value)).db.get? e.1 ≠ none
    rw [if_neg hBatch, OvmIndex.push_batch_ne_nil hBatch]
    rcases List.mem_append.mp he with he | he
    · exact (h.covered e he).imp (List.mem_cons_of_mem _) id
    · rw [List.mem_singleton.mp he]
      exact .inl List.mem_cons_self

end Loaded

/-! ## The loader reads what the file says -/

variable {α : Type} {dec : AllocDecoders}

theorem mapM_concat {β : Type} {f : α → Except Err β} {xs : List α} {ys : List β} {x : α} {y : β}
    (hxs : xs.mapM f = .ok ys) (hx : f x = .ok y) : (xs ++ [x]).mapM f = .ok (ys ++ [y]) := by
  rw [List.mapM_append, hxs, ok_bind, List.mapM_cons, hx]
  rfl

theorem memberOf_concat {members : List (String × Json)} {m : String × Json}
    (hNew : m.1 ∉ members.map Prod.fst) (name : String) :
    memberOf (members ++ [m]) name = if m.1 = name then some m.2 else memberOf members name := by
  unfold memberOf
  rw [List.find?_append]
  by_cases hName : m.1 = name
  · have hNone : members.find? (fun m => m.1 = name) = none := by
      rw [List.find?_eq_none]
      intro m' hm' hEq
      refine hNew (List.mem_map.mpr ⟨m', hm', ?_⟩)
      rw [hName]
      exact of_decide_eq_true hEq
    rw [if_pos hName, hNone]
    simp [hName]
  · rw [if_neg hName]
    simp [hName]

section Reading

variable {g : Geth} {dec : AllocDecoders} {I : Interface} {check : Fallible I Err Unit}
  {tr : List (Event I)} {start : OvmIndex}

variable {e : AllocEntry} {r' : AllocReading} {base : List (Bytes × Bytes)} {m : String × Json}

theorem entryOf_eq_ok {members : List (String × Json)} :
    entryOf dec members = .ok e ↔
      optionalField (readCode dec) (memberOf members "code") = .ok e.code ∧
      optionalField (readBalance dec) (memberOf members "balance") = .ok e.balance ∧
      optionalField dec.nonce (memberOf members "nonce") = .ok e.nonce ∧
      readSlots (memberOf members "storage") = .ok e.slots := by
  unfold entryOf
  constructor
  · intro h
    obtain ⟨code, hCode, hk₁⟩ := bind_eq_ok.mp h
    obtain ⟨balance, hBalance, hk₂⟩ := bind_eq_ok.mp hk₁
    obtain ⟨nonce, hNonce, hk₃⟩ := bind_eq_ok.mp hk₂
    obtain ⟨slots, hSlots, hEq⟩ := bind_eq_ok.mp hk₃
    obtain rfl := Except.ok.inj hEq
    exact ⟨hCode, hBalance, hNonce, hSlots⟩
  · rintro ⟨hCode, hBalance, hNonce, hSlots⟩
    rw [hCode, ok_bind, hBalance, ok_bind, hNonce, ok_bind, hSlots]
    rfl

/-- The members of a JSON object; other values have none. -/
def Json.members : Json → List (String × Json)
  | .obj members => members
  | _ => []

/-- A visit of an object that returns has visited all members of one. -/
theorem returns_allocObject {σ : Type} {j : Json} {visit : σ → String × Json → Fallible I Err σ}
    {s s' : σ} (inv : List (String × Json) → σ → Prop)
    (hStep : ∀ seen s m s' t, inv seen s → Returns (visit s m) t s' → inv (seen ++ [m]) s')
    (hInit : inv [] s) (h : Returns (allocObject check j visit s) tr s') :
    j = .obj j.members ∧ inv j.members s' := by
  cases j with
  | obj members =>
    refine ⟨rfl, ?_⟩
    have hRun := returns_foldlM inv
      (fun seen s m s' t hInv hBody => by
        obtain ⟨⟨⟩, t₁, t₂, -, hVisit, rfl⟩ := returns_bind.mp hBody
        exact hStep seen s m s' t₂ hInv (returns_wrapped hVisit))
      hInit h
    rwa [List.nil_append] at hRun
  | str | num | other => cases (returns_computed.mp h).2

/-- The slots of an account, read one by one. -/
theorem returns_allocSlots {owner : Hash} {j : Json} {r : AllocReading}
    (hBase : Loaded start base r.loader)
    (h : Returns (allocObject check j (fun r s => computed (allocStorage g owner r s)) r) tr r') :
    ∃ slots, readSlots (some j) = .ok slots ∧ r'.seen = r.seen ∧
      r'.patch = { r.patch with fields := r.patch.fields |||
        (if slots.isEmpty then 0 else ovmAllocStorageField) } ∧
      Loaded start (base ++ AllocEntry.slotPuts g owner slots) r'.loader := by
  obtain ⟨hObj, hRead⟩ := returns_allocObject
    (fun (seen : List (String × Json)) (m : AllocReading) =>
      ∃ slots, seen.mapM slotOf = .ok slots ∧ m.seen = r.seen ∧
        m.patch = { r.patch with fields := r.patch.fields |||
          (if slots.isEmpty then 0 else ovmAllocStorageField) } ∧
        Loaded start (base ++ AllocEntry.slotPuts g owner slots) m.loader)
    (fun seen m x m' t hInv hVisit => by
      obtain ⟨slots, hSlots, hSeen, hPatch, hLoaded⟩ := hInv
      obtain ⟨-, hStorage⟩ := returns_computed.mp hVisit
      obtain ⟨⟨slot, value⟩, hSlot, hk₁⟩ := bind_eq_ok.mp hStorage
      obtain ⟨loader, hUnique, hEq⟩ := bind_eq_ok.mp hk₁
      obtain rfl := Except.ok.inj hEq
      refine ⟨slots ++ [(slot, value)], mapM_concat hSlots hSlot, hSeen, ?_, ?_⟩
      · -- setting the bit again changes nothing
        show { m.patch with fields := m.patch.fields ||| ovmAllocStorageField } = _
        rw [hPatch]
        cases slots with
        | nil => simp
        | cons s rest => simp [Nat.or_assoc]
      · have hNext := hLoaded.unique hUnique
        rw [List.append_assoc] at hNext
        simpa [AllocEntry.slotPuts] using hNext)
    ⟨[], rfl, rfl, by simp, by simpa [AllocEntry.slotPuts] using hBase⟩ h
  rwa [hObj]

/-- What has been read of an account after some of its members. -/
structure AccountRead (g : Geth) (dec : AllocDecoders) (start : OvmIndex)
    (base : List (Bytes × Bytes))
    (owner : Hash) (members : List (String × Json)) (e : AllocEntry) (r : AllocReading) : Prop where
  entry  : entryOf dec members = .ok e
  patch  : r.patch = e.patch
  names  : (members.map Prod.fst).Nodup
  seen   : ∀ name, name ∈ r.seen ↔ name ∈ members.map Prod.fst
  loaded : Loaded start (base ++ AllocEntry.slotPuts g owner e.slots) r.loader

/-- A scalar that is read gives its field a value. -/
theorem optionalField_some {α : Type} {read : Json → Except Err α} {j data : Json} {a : α}
    (hData : scalar j = .ok data) (hRead : read data = .ok a) :
    optionalField read (some j) = .ok (some a) := by
  rw [optionalField, hData, ok_bind, hRead]
  rfl

/-- Setting the bit of a field that was not given. -/
theorem AllocEntry.fields_or (e : AllocEntry) :
    (e.code = none → ∀ c, e.fields ||| ovmAllocCodeField = { e with code := some c }.fields) ∧
    (e.balance = none → ∀ v, e.fields ||| ovmAllocBalanceField =
      { e with balance := some v }.fields) ∧
    (e.nonce = none → ∀ n, e.fields ||| ovmAllocNonceField = { e with nonce := some n }.fields) ∧
    (e.slots = [] → ∀ s, e.fields ||| (if s.isEmpty then 0 else ovmAllocStorageField) =
      { e with slots := s }.fields) := by
  unfold AllocEntry.fields
  refine ⟨fun h c => ?_, fun h v => ?_, fun h n => ?_, fun h s => ?_⟩
  · simp only [h, Option.isSome_none, Option.isSome_some, Bool.false_eq_true, if_false, if_true,
      Nat.zero_or]
    ac_rfl
  · simp only [h, Option.isSome_none, Option.isSome_some, Bool.false_eq_true, if_false, if_true,
      Nat.or_zero]
    ac_rfl
  · simp only [h, Option.isSome_none, Option.isSome_some, Bool.false_eq_true, if_false, if_true,
      Nat.or_zero]
    ac_rfl
  · simp only [h, List.isEmpty_nil, if_true, Nat.or_zero]

/-- The record of an account when a field is given. -/
theorem AllocEntry.patch_given (e : AllocEntry) :
    (e.code = none → ∀ c,
      { e.patch with code := c, fields := e.patch.fields ||| ovmAllocCodeField } =
      { e with code := some c }.patch) ∧
    (e.balance = none → ∀ v : U256,
      { e.patch with balance := minimalBE 32 v.toNat
                     fields := e.patch.fields ||| ovmAllocBalanceField } =
        { e with balance := some v }.patch) ∧
    (e.nonce = none → ∀ n,
      { e.patch with nonce := n, fields := e.patch.fields ||| ovmAllocNonceField } =
        { e with nonce := some n }.patch) ∧
    (e.slots = [] → ∀ s,
      { e.patch with
        fields := e.patch.fields ||| (if s.isEmpty then 0 else ovmAllocStorageField) } =
        { e with slots := s }.patch) := by
  obtain ⟨hCode, hBalance, hNonce, hSlots⟩ := e.fields_or
  refine ⟨fun h c => ?_, fun h v => ?_, fun h n => ?_, fun h s => ?_⟩
  · simp only [patch, Option.getD_some, hCode h c]
  · simp only [patch, Option.getD_some, Option.map_some, hBalance h v]
  · simp only [patch, Option.getD_some, hNonce h n]
  · simp only [patch, hSlots h s]

/-- A field after one member more. -/
theorem field_concat {β : Type} {read : Option Json → Except Err β} {a a' : β} {name : String}
    {members : List (String × Json)} (hNew : m.1 ∉ members.map Prod.fst)
    (h : read (memberOf members name) = .ok a)
    (hm : if m.1 = name then read (some m.2) = .ok a' else a' = a) :
    read (memberOf (members ++ [m]) name) = .ok a' := by
  rw [memberOf_concat hNew]
  split at hm
  · next hName => rwa [if_pos hName]
  · next hName => rw [if_neg hName, hm, h]

/-- The entry after one member more. -/
theorem entryOf_concat {members : List (String × Json)} {e' : AllocEntry}
    (hEntry : entryOf dec members = .ok e) (hNew : m.1 ∉ members.map Prod.fst)
    (hCode : if m.1 = "code" then optionalField (readCode dec) (some m.2) =
      .ok e'.code else e'.code = e.code)
    (hBalance : if m.1 = "balance" then optionalField (readBalance dec) (some m.2) =
      .ok e'.balance else e'.balance = e.balance)
    (hNonce : if m.1 = "nonce" then optionalField dec.nonce (some m.2) =
      .ok e'.nonce else e'.nonce = e.nonce)
    (hSlots : if m.1 = "storage" then readSlots (some m.2) = .ok e'.slots else e'.slots = e.slots) :
    entryOf dec (members ++ [m]) = .ok e' := by
  obtain ⟨hc, hb, hn, hs⟩ := entryOf_eq_ok.mp hEntry
  exact entryOf_eq_ok.mpr ⟨field_concat hNew hc hCode, field_concat hNew hb hBalance,
    field_concat hNew hn hNonce, field_concat hNew hs hSlots⟩

/-- A field that no member has named is not given. -/
theorem field_absent {β : Type} {read : Option Json → Except Err β} {a a' : β} {name : String}
    {members : List (String × Json)} (hNew : name ∉ members.map Prod.fst)
    (h : read (memberOf members name) = .ok a) (hRead : read none = .ok a') : a = a' := by
  have hNone : memberOf members name = none := by
    rw [memberOf, Option.map_eq_none_iff, List.find?_eq_none]
    intro m hm hEq
    exact hNew (List.mem_map.mpr ⟨m, hm, of_decide_eq_true hEq⟩)
  rw [hNone, hRead] at h
  exact (Except.ok.inj h).symm

/-- The field that a scalar member gives. -/
theorem accountRead_scalar {owner : Hash} {members : List (String × Json)} {r : AllocReading}
    (hRead : AccountRead g dec start base owner members e r) (hNew : m.1 ∉ members.map Prod.fst)
    (h : allocScalar dec { r with seen := m.1 :: r.seen } m.1 m.2 = .ok r') :
    ∃ e', entryOf dec (members ++ [m]) = .ok e' ∧ r'.patch = e'.patch ∧ r'.seen = m.1 :: r.seen ∧
      r'.loader = r.loader ∧ e'.slots = e.slots := by
  obtain ⟨name, j⟩ := m
  obtain ⟨hc, hb, hn, -⟩ := entryOf_eq_ok.mp hRead.entry
  obtain ⟨hCodePatch, hBalancePatch, hNoncePatch, -⟩ := e.patch_given
  rw [← hRead.patch] at hCodePatch hBalancePatch hNoncePatch
  unfold allocScalar at h
  dsimp only at h hNew
  obtain ⟨⟨⟩, hKnown, hk₁⟩ := bind_eq_ok.mp h
  obtain ⟨data, hData, hk₂⟩ := bind_eq_ok.mp hk₁
  rcases require_eq_ok.mp hKnown with rfl | rfl | rfl
  · rw [if_pos rfl] at hk₂
    obtain ⟨code, hDecode, hk₃⟩ := bind_eq_ok.mp hk₂
    obtain ⟨⟨⟩, hLimit, hEq⟩ := bind_eq_ok.mp hk₃
    obtain rfl := Except.ok.inj hEq
    have hGiven : optionalField (readCode dec) (some j) = .ok (some code) := by
      refine optionalField_some hData ?_
      rw [readCode, hDecode, ok_bind, hLimit]
      rfl
    have hNone : e.code = none := field_absent hNew hc rfl
    refine ⟨{ e with code := some code }, ?_, hCodePatch hNone code, rfl, rfl, rfl⟩
    exact entryOf_concat hRead.entry hNew (by simpa using hGiven) (by simp) (by simp) (by simp)
  · rw [if_neg (by decide), if_pos rfl] at hk₂
    obtain ⟨value, hDecode, hk₃⟩ := bind_eq_ok.mp hk₂
    obtain ⟨⟨⟩, hRange, hEq⟩ := bind_eq_ok.mp hk₃
    obtain rfl := Except.ok.inj hEq
    have hGiven : optionalField (readBalance dec) (some j) =
        .ok (some (.ofNat 256 value.toNat)) := by
      refine optionalField_some hData ?_
      rw [readBalance, hDecode, ok_bind, hRange]
      rfl
    have hNone : e.balance = none := field_absent hNew hb rfl
    -- the value is in range, so its 256 bits are the value
    have hNat : (BitVec.ofNat 256 value.toNat).toNat = value.toNat := by
      rw [require_eq_ok] at hRange
      rw [BitVec.toNat_ofNat, Nat.mod_eq_of_lt]
      omega
    have hPatch := hBalancePatch hNone (.ofNat 256 value.toNat)
    rw [hNat] at hPatch
    refine ⟨{ e with balance := some (.ofNat 256 value.toNat) }, ?_, hPatch, rfl, rfl, rfl⟩
    exact entryOf_concat hRead.entry hNew (by simp) (by simpa using hGiven) (by simp) (by simp)
  · rw [if_neg (by decide), if_neg (by decide)] at hk₂
    obtain ⟨nonce, hDecode, hEq⟩ := bind_eq_ok.mp hk₂
    obtain rfl := Except.ok.inj hEq
    have hGiven := optionalField_some hData hDecode
    have hNone : e.nonce = none := field_absent hNew hn rfl
    refine ⟨{ e with nonce := some nonce }, ?_, hNoncePatch hNone nonce, rfl, rfl, rfl⟩
    exact entryOf_concat hRead.entry hNew (by simp) (by simp) (by simpa using hGiven) (by simp)

/-- **One member more**: a name that was not seen before gives its field. -/
theorem accountRead_field {owner : Hash} {members : List (String × Json)} {r : AllocReading}
    (hRead : AccountRead g dec start base owner members e r)
    (h : Returns (allocField g dec check owner r m) tr r') :
    ∃ e', AccountRead g dec start base owner (members ++ [m]) e' r' := by
  obtain ⟨⟨⟩, t₁, t₂, hSeen, hField, rfl⟩ := returns_bind.mp h
  have hNew : m.1 ∉ members.map Prod.fst := by
    rw [← hRead.seen]
    exact require_eq_ok.mp (returns_computed.mp hSeen).2
  have hNames : ((members ++ [m]).map Prod.fst).Nodup := by
    rw [List.map_append, List.nodup_append]
    refine ⟨hRead.names, List.nodup_singleton _, fun a ha b hb hEq => ?_⟩
    obtain rfl := List.mem_singleton.mp hb
    exact hNew (hEq ▸ ha)
  have hSeen' : ∀ r' : AllocReading, r'.seen = m.1 :: r.seen →
      ∀ name, name ∈ r'.seen ↔ name ∈ (members ++ [m]).map Prod.fst := by
    intro r' hEq name
    rw [hEq, List.mem_cons, hRead.seen, List.map_append, List.mem_append, List.map_singleton,
      List.mem_singleton, or_comm]
  by_cases hName : m.1 = "storage"
  · rw [if_pos hName] at hField
    have hNone : e.slots = [] := by
      obtain ⟨-, -, -, hs⟩ := entryOf_eq_ok.mp hRead.entry
      exact field_absent (hName ▸ hNew) hs rfl
    have hBase : Loaded start base r.loader := by
      have hLoaded := hRead.loaded
      rw [hNone] at hLoaded
      simpa [AllocEntry.slotPuts] using hLoaded
    obtain ⟨slots, hSlots, hSame, hPatch, hLoaded⟩ := returns_allocSlots
      (r := { r with seen := m.1 :: r.seen }) hBase hField
    refine ⟨{ e with slots := slots }, ?_, ?_, hNames, hSeen' r' hSame, hLoaded⟩
    · exact entryOf_concat hRead.entry hNew (by simp [hName]) (by simp [hName]) (by simp [hName])
        (by rwa [if_pos hName])
    · have hGivenPatch := e.patch_given.2.2.2 hNone slots
      rw [← hRead.patch] at hGivenPatch
      exact hPatch.trans hGivenPatch
  · rw [if_neg hName] at hField
    obtain ⟨e', hEntry, hPatch, hSame, hLoader, hSlots⟩ :=
      accountRead_scalar hRead hNew (returns_computed.mp hField).2
    refine ⟨e', hEntry, hPatch, hNames, hSeen' r' hSame, ?_⟩
    rw [hLoader, hSlots]
    exact hRead.loaded

/-- The names in an account are all different. -/
def Json.DistinctNames (j : Json) : Prop := (j.members.map Prod.fst).Nodup

/-- An account that is read is an entry with its puts. -/
theorem returns_allocAccount {l l' : AllocLoader} (hBase : Loaded start base l)
    (h : Returns (allocAccount g dec check l m) tr l') :
    ∃ entry, accountEntry dec m = .ok entry ∧ m.2.DistinctNames ∧
      Loaded start (base ++ entry.2.puts g (accountKey g entry.1)) l' := by
  obtain ⟨address, t₁, u₁, hAddress, hk₁, rfl⟩ := returns_bind.mp h
  obtain ⟨⟨⟩, t₂, u₂, hToken, hk₂, rfl⟩ := returns_bind.mp hk₁
  obtain ⟨r, t₃, u₃, hMembers, hRecord, rfl⟩ := returns_bind.mp hk₂
  have hInit : ∃ e, AccountRead g dec start base (accountKey g address) [] e
      ⟨⟨0, [], [], 0⟩, [], l⟩ := by
    refine ⟨⟨none, none, none, []⟩, rfl, rfl, List.nodup_nil, by simp, ?_⟩
    simpa [AllocEntry.slotPuts] using hBase
  obtain ⟨hObj, e, hRead⟩ := returns_allocObject
    (fun seen r => ∃ e, AccountRead g dec start base (accountKey g address) seen e r)
    (fun seen r m r' t hInv hVisit => by
      obtain ⟨e, hRead⟩ := hInv
      exact accountRead_field hRead hVisit)
    hInit hMembers
  refine ⟨(address, e), ?_, hRead.names, ?_⟩
  · unfold accountEntry
    rw [(returns_computed.mp hAddress).2, ok_bind, (returns_computed.mp hToken).2, ok_bind, hObj]
    show (entryOf dec m.2.members >>= fun e => pure (address, e)) = _
    rw [hRead.entry]
    rfl
  · have hLoaded := hRead.loaded.unique (returns_computed.mp hRecord).2
    rw [List.append_assoc, hRead.patch] at hLoaded
    exact hLoaded

end Reading

/-- The records of a file. -/
def allocRecords (g : Geth) (entries : List (Address × AllocEntry)) : List (Bytes × Bytes) :=
  entries.flatMap fun e => e.2.puts g (accountKey g e.1)

/-- **The loader writes what the file says**: the records of its entries, once
each, on top of what the index had. -/
theorem returns_load {g : Geth} {I : Interface} {check : Fallible I Err Unit} {tr : List (Event I)}
    {file : Json} {index index' : OvmIndex}
    (h : Returns (loadOVMGenesisAlloc g dec check file index) tr index') :
    ∃ entries, fileEntries dec file = .ok entries ∧ (∀ m ∈ file.members, m.2.DistinctNames) ∧
      ((allocRecords g entries).map Prod.fst).Nodup ∧
      index' = ⟨applyOps index.content ((allocRecords g entries).map putOp), []⟩ := by
  obtain ⟨l, t₁, u₁, hObject, hk₁, rfl⟩ := returns_bind.mp h
  obtain ⟨⟨⟩, t₂, u₂, -, hRet, rfl⟩ := returns_bind.mp hk₁
  obtain ⟨-, rfl⟩ := returns_pure.mp hRet
  have hInit : ∃ entries, ([] : List (String × Json)).mapM (accountEntry dec) = .ok entries ∧
      (∀ m ∈ ([] : List (String × Json)), m.2.DistinctNames) ∧
      Loaded index (allocRecords g entries) ⟨index, []⟩ :=
    ⟨[], rfl, by simp, Loaded.init index⟩
  obtain ⟨hObj, entries, hEntries, hNames, hLoaded⟩ := returns_allocObject
    (fun seen l => ∃ entries, seen.mapM (accountEntry dec) = .ok entries ∧
      (∀ m ∈ seen, m.2.DistinctNames) ∧ Loaded index (allocRecords g entries) l)
    (fun seen l m l' t hInv hVisit => by
      obtain ⟨entries, hEntries, hNames, hLoaded⟩ := hInv
      obtain ⟨entry, hEntry, hDistinct, hNext⟩ := returns_allocAccount hLoaded hVisit
      refine ⟨entries ++ [entry], mapM_concat hEntries hEntry, fun m' hm' => ?_, ?_⟩
      · rcases List.mem_append.mp hm' with hm' | hm'
        · exact hNames m' hm'
        · rwa [List.mem_singleton.mp hm']
      · simpa [allocRecords] using hNext)
    hInit (returns_wrapped hObject)
  refine ⟨entries, ?_, hNames, hLoaded.nodup, ?_⟩
  · rw [hObj]
    exact hEntries
  · rw [← hLoaded.content]
    rfl

/-! ## Account records -/

/-- A record that fits: the loader writes no others. -/
structure AllocAccount.Fits (p : AllocAccount) : Prop where
  fields  : p.fields < 256
  code    : p.code.length ≤ ovmAllocMaxCode
  balance : p.balance.length ≤ 32

/-- An account record is read back. -/
theorem decodeAllocAccount_encode {p : AllocAccount} (h : p.Fits) :
    decodeAllocAccount (encodeAllocAccount p) = .ok p := by
  have hCode : p.code.length ≤ 2 ^ 20 := h.code
  have hNonce : p.nonce.toNat < 256 ^ 8 := p.nonce.toNat_lt
  have hLengths : (Rlp.encodeUint 1 p.fields ++ (Rlp.encodeString p.code ++
      (Rlp.encodeString p.balance ++ Rlp.encodeUint 8 p.nonce.toNat))).length < 2 ^ 64 := by
    have h₁ := (Rlp.length_encodeString_le (minimalBE 1 p.fields)).trans
      (Nat.add_le_add_right (length_minimalBE_le 1 p.fields) 9)
    have h₂ := Rlp.length_encodeString_le p.code
    have h₃ := Rlp.length_encodeString_le p.balance
    have h₄ := (Rlp.length_encodeString_le (minimalBE 8 p.nonce.toNat)).trans
      (Nat.add_le_add_right (length_minimalBE_le 8 p.nonce.toNat) 9)
    have h₅ := h.balance
    simp only [Rlp.encodeUint, List.length_append]
    omega
  unfold decodeAllocAccount encodeAllocAccount
  rw [Rlp.listOnly_eq_ok_iff.mpr ⟨rfl, hLengths⟩, ok_bind,
    (Rlp.uintField_eq_ok_iff (by decide)).mpr ⟨rfl, h.fields⟩, ok_bind]
  dsimp only
  rw [Rlp.bytesField_eq_ok_iff.mpr ⟨rfl, by omega⟩, ok_bind]
  dsimp only
  rw [Rlp.bytesField_eq_ok_iff.mpr ⟨rfl, by have := h.balance; omega⟩, ok_bind]
  dsimp only
  have hLast : Rlp.uintField 8 (Rlp.encodeUint 8 p.nonce.toNat) = .ok (p.nonce.toNat, []) :=
    (Rlp.uintField_eq_ok_iff (by decide)).mpr ⟨(List.append_nil _).symm, hNonce⟩
  rw [hLast, ok_bind]
  show (require (([] : Bytes) = []) Rlp.Error.tooManyElements >>= fun _ => _) = _
  rw [require_true rfl, ok_bind]
  simp

/-- The test of a bit of the fields. -/
theorem AllocEntry.fields_and (e : AllocEntry) :
    (e.fields &&& ovmAllocCodeField ≠ 0 ↔ e.code.isSome = true) ∧
    (e.fields &&& ovmAllocBalanceField ≠ 0 ↔ e.balance.isSome = true) ∧
    (e.fields &&& ovmAllocNonceField ≠ 0 ↔ e.nonce.isSome = true) ∧
    (e.fields &&& ovmAllocStorageField ≠ 0 ↔ e.slots.isEmpty = false) ∧
    (e.fields = 0 ↔ e.isEmpty = true) ∧ e.fields < 256 := by
  unfold AllocEntry.fields AllocEntry.isEmpty
  simp only [← Option.not_isSome, Bool.and_eq_true, Bool.not_eq_true']
  generalize e.code.isSome = c
  generalize e.balance.isSome = b
  generalize e.nonce.isSome = n
  generalize e.slots.isEmpty = s
  revert c b n s
  decide

theorem optionalField_eq_ok_some {read : Json → Except Err α} {j : Option Json} {a : α}
    (h : optionalField read j = .ok (some a)) : ∃ data, read data = .ok a := by
  cases j with
  | none => cases h
  | some j =>
    obtain ⟨data, -, hk⟩ := bind_eq_ok.mp h
    obtain ⟨a', hRead, hEq⟩ := bind_eq_ok.mp hk
    obtain rfl := Option.some.inj (Except.ok.inj hEq)
    exact ⟨data, hRead⟩

/-- The records of a file fit. -/
theorem fits_of_entryOf {members : List (String × Json)} {e : AllocEntry}
    (h : entryOf dec members = .ok e) : e.patch.Fits := by
  refine ⟨e.fields_and.2.2.2.2.2, ?_, ?_⟩
  · show (e.code.getD []).length ≤ ovmAllocMaxCode
    have hCode := (entryOf_eq_ok.mp h).1
    cases hGiven : e.code with
    | none => exact Nat.zero_le _
    | some c =>
      rw [hGiven] at hCode
      obtain ⟨data, hRead⟩ := optionalField_eq_ok_some hCode
      obtain ⟨c', -, hk⟩ := bind_eq_ok.mp hRead
      obtain ⟨⟨⟩, hLimit, hEq⟩ := bind_eq_ok.mp hk
      obtain rfl := Except.ok.inj hEq
      exact require_eq_ok.mp hLimit
  · show ((e.balance.map fun v => minimalBE 32 v.toNat).getD []).length ≤ 32
    cases e.balance with
    | none => exact Nat.zero_le _
    | some v =>
      rw [Option.map_some, Option.getD_some]
      exact length_minimalBE_le 32 v.toNat

theorem accountEntry_eq_ok {m : String × Json} {entry : Address × AllocEntry}
    (h : accountEntry dec m = .ok entry) :
    dec.address m.1 = .ok entry.1 ∧ entry.1 ≠ ovmETHAddress ∧ m.2 = .obj m.2.members ∧
      entryOf dec m.2.members = .ok entry.2 := by
  obtain ⟨address, hAddress, hk₁⟩ := bind_eq_ok.mp h
  obtain ⟨⟨⟩, hToken, hk₂⟩ := bind_eq_ok.mp hk₁
  rw [require_eq_ok] at hToken
  cases hJson : m.2 with
  | obj members =>
    rw [hJson] at hk₂
    obtain ⟨e, hEntry, hEq⟩ := bind_eq_ok.mp hk₂
    obtain rfl := Except.ok.inj hEq
    exact ⟨hAddress, hToken, rfl, hEntry⟩
  | str | num | other => rw [hJson] at hk₂; cases hk₂

/-! ## The order of the members -/

/-- The same JSON value with the members of its objects in another order. -/
inductive Json.Reordered : Json → Json → Prop
  | refl (j : Json) : Reordered j j
  | swap (a b : String × Json) (rest : List (String × Json)) :
      Reordered (.obj (a :: b :: rest)) (.obj (b :: a :: rest))
  | head {j j' : Json} (name : String) (rest : List (String × Json)) :
      Reordered j j' → Reordered (.obj ((name, j) :: rest)) (.obj ((name, j') :: rest))
  | tail {rest rest' : List (String × Json)} (m : String × Json) :
      Reordered (.obj rest) (.obj rest') → Reordered (.obj (m :: rest)) (.obj (m :: rest'))
  | trans {j j' j'' : Json} : Reordered j j' → Reordered j' j'' → Reordered j j''

namespace Json.Reordered

variable {j j' : Json}

/-- A scalar has no order. -/
theorem scalar_eq (h : Reordered j j') : scalar j = scalar j' ∧ scalarText j = scalarText j' := by
  induction h with
  | refl | swap | head | tail => exact ⟨rfl, rfl⟩
  | trans _ _ ih ih' => exact ⟨ih.1.trans ih'.1, ih.2.trans ih'.2⟩

theorem isObj (h : Reordered j j') : j = .obj j.members ↔ j' = .obj j'.members := by
  induction h with
  | refl j => exact Iff.rfl
  | swap | head | tail => exact iff_of_true rfl rfl
  | trans _ _ ih ih' => exact ih.trans ih'

theorem names (h : Reordered j j') : (j.members.map Prod.fst).Perm (j'.members.map Prod.fst) := by
  induction h with
  | refl j => exact .refl _
  | swap a b rest => exact .swap _ _ _
  | head name rest _ _ => exact .refl _
  | tail m _ ih => exact ih.cons _
  | trans _ _ ih ih' => exact ih.trans ih'

theorem distinctNames (h : Reordered j j') (hNames : j.DistinctNames) : j'.DistinctNames :=
  (h.names.nodup_iff).mp hNames

end Json.Reordered

/-- The members of a reordered object are read to the same results, up to
their order, if that holds for the value of each member. `P` is what is known
of the members. -/
theorem mapM_reordered {β : Type} {f : String × Json → Except Err α} (out : α → List β)
    (P : String × Json → Prop)
    (hValue : ∀ name (j j' : Json) a, j.Reordered j' → P (name, j) → f (name, j) = .ok a →
      P (name, j') ∧ ∃ a', f (name, j') = .ok a' ∧ (out a).Perm (out a'))
    {j j' : Json} (h : j.Reordered j') {as : List α} (hP : ∀ m ∈ j.members, P m)
    (hRun : j.members.mapM f = .ok as) :
    (∀ m ∈ j'.members, P m) ∧
      ∃ as', j'.members.mapM f = .ok as' ∧ (as.flatMap out).Perm (as'.flatMap out) := by
  induction h generalizing as with
  | refl j => exact ⟨hP, as, hRun, .refl _⟩
  | swap a b rest =>
    obtain ⟨x, xs, hx, hxs, rfl⟩ := mapM_cons_eq_ok.mp hRun
    obtain ⟨y, ys, hy, hys, rfl⟩ := mapM_cons_eq_ok.mp hxs
    refine ⟨fun m hm => hP m ((List.Perm.swap a b rest).mem_iff.mp hm), y :: x :: ys,
      mapM_cons_eq_ok.mpr ⟨y, x :: ys, hy, mapM_cons_eq_ok.mpr ⟨x, ys, hx, hys, rfl⟩, rfl⟩, ?_⟩
    simp only [List.flatMap_cons]
    exact List.perm_append_comm_assoc _ _ _
  | head name rest hReordered _ =>
    obtain ⟨x, xs, hx, hxs, rfl⟩ := mapM_cons_eq_ok.mp hRun
    obtain ⟨hFirst, hRest⟩ := List.forall_mem_cons.mp hP
    obtain ⟨hNext, x', hx', hPerm⟩ := hValue name _ _ x hReordered hFirst hx
    refine ⟨List.forall_mem_cons.mpr ⟨hNext, hRest⟩, x' :: xs,
      mapM_cons_eq_ok.mpr ⟨x', xs, hx', hxs, rfl⟩, ?_⟩
    simp only [List.flatMap_cons]
    exact hPerm.append_right _
  | tail m _ ih =>
    obtain ⟨x, xs, hx, hxs, rfl⟩ := mapM_cons_eq_ok.mp hRun
    obtain ⟨hFirst, hRest⟩ := List.forall_mem_cons.mp hP
    obtain ⟨hNext, xs', hxs', hPerm⟩ := ih hRest hxs
    refine ⟨List.forall_mem_cons.mpr ⟨hFirst, hNext⟩, x :: xs',
      mapM_cons_eq_ok.mpr ⟨x, xs', hx, hxs', rfl⟩, ?_⟩
    simp only [List.flatMap_cons]
    exact hPerm.append_left _
  | trans _ _ ih ih' =>
    obtain ⟨hP₁, as₁, hRun₁, hPerm₁⟩ := ih hP hRun
    obtain ⟨hP₂, as₂, hRun₂, hPerm₂⟩ := ih' hP₁ hRun₁
    exact ⟨hP₂, as₂, hRun₂, hPerm₁.trans hPerm₂⟩

/-- The value of a name, before and after a reordering. -/
theorem memberOf_reordered {j j' : Json} (h : j.Reordered j') (hNames : j.DistinctNames)
    (name : String) :
    Option.Rel Json.Reordered (memberOf j.members name) (memberOf j'.members name) := by
  have hCons : ∀ (m : String × Json) (rest : List (String × Json)),
      memberOf (m :: rest) name = if m.1 = name then some m.2 else memberOf rest name := by
    intro m rest
    unfold memberOf
    by_cases hName : m.1 = name <;> simp [hName]
  have hRefl : ∀ o : Option Json, Option.Rel Json.Reordered o o := by
    intro o
    cases o with
    | none => exact .none
    | some j => exact .some (.refl j)
  induction h with
  | refl j => exact hRefl _
  | swap a b rest =>
    -- the two names differ
    have hNe : a.1 ≠ b.1 := by
      have hPair := (List.nodup_cons.mp hNames).1
      intro hEq
      exact hPair (by simp [hEq])
    show Option.Rel Json.Reordered (memberOf (a :: b :: rest) name) (memberOf (b :: a :: rest) name)
    simp only [hCons]
    by_cases ha : a.1 = name
    · rw [if_pos ha, if_neg (fun hb => hNe (ha.trans hb.symm)), if_pos ha]
      exact hRefl _
    · rw [if_neg ha, if_neg ha]
      exact hRefl _
  | head key rest hReordered _ =>
    show Option.Rel Json.Reordered (memberOf (_ :: rest) name) (memberOf (_ :: rest) name)
    simp only [hCons]
    split
    · exact .some hReordered
    · exact hRefl _
  | tail m _ ih =>
    show Option.Rel Json.Reordered (memberOf (m :: _) name) (memberOf (m :: _) name)
    simp only [hCons]
    split
    · exact hRefl _
    · exact ih (List.nodup_cons.mp hNames).2
  | trans hFirst _ ih ih' =>
    have h₁ := ih hNames
    have h₂ := ih' (hFirst.distinctNames hNames)
    revert h₁ h₂
    generalize memberOf _ name = a
    generalize memberOf _ name = b
    generalize memberOf _ name = c
    rintro (⟨hab⟩ | _) h₂
    · cases h₂ with
      | some hbc => exact .some (hab.trans hbc)
    · exact h₂

theorem optionalField_reordered {read : Json → Except Err α} {o o' : Option Json}
    (h : Option.Rel Json.Reordered o o') : optionalField read o = optionalField read o' := by
  cases h with
  | none => rfl
  | some h => rw [optionalField, optionalField, h.scalar_eq.1]

/-- The slots do not depend on the order of the members. -/
theorem readSlots_reordered {o o' : Option Json} (h : Option.Rel Json.Reordered o o')
    {slots : List (Hash × Hash)} (hRead : readSlots o = .ok slots) :
    ∃ slots', readSlots o' = .ok slots' ∧ slots.Perm slots' := by
  cases h with
  | none => exact ⟨slots, hRead, .refl _⟩
  | @some j j' h =>
    have hObj : j = .obj j.members := by
      cases j with
      | obj members => rfl
      | str | num | other => cases hRead
    rw [hObj] at hRead
    obtain ⟨-, slots', hRead', hPerm⟩ := mapM_reordered (fun s => [s]) (fun _ => True)
      (fun name j j' a hValue _ hSlot => by
        refine ⟨trivial, a, ?_, .refl _⟩
        unfold slotOf at hSlot ⊢
        rw [← hValue.scalar_eq.2]
        exact hSlot)
      h (fun _ _ => trivial) hRead
    refine ⟨slots', ?_, by simpa using hPerm⟩
    rw [h.isObj.mp hObj]
    exact hRead'

/-- **What an account says does not depend on the order of its fields and
slots**, up to the order of the slots. -/
theorem accountEntry_reordered {name : String} {j j' : Json} (h : j.Reordered j')
    (hNames : j.DistinctNames) {entry : Address × AllocEntry}
    (hEntry : accountEntry dec (name, j) = .ok entry) :
    ∃ slots, accountEntry dec (name, j') = .ok (entry.1, { entry.2 with slots := slots }) ∧
      entry.2.slots.Perm slots := by
  obtain ⟨hAddress, hToken, hObj, hMembers⟩ := accountEntry_eq_ok hEntry
  obtain ⟨hCode, hBalance, hNonce, hSlots⟩ := entryOf_eq_ok.mp hMembers
  have hValue := memberOf_reordered h hNames
  obtain ⟨slots, hSlots', hPerm⟩ := readSlots_reordered (hValue "storage") hSlots
  refine ⟨slots, ?_, hPerm⟩
  have hMembers' : entryOf dec j'.members = .ok { entry.2 with slots := slots } := by
    rw [entryOf_eq_ok]
    refine ⟨?_, ?_, ?_, hSlots'⟩
    · rw [← optionalField_reordered (hValue "code")]
      exact hCode
    · rw [← optionalField_reordered (hValue "balance")]
      exact hBalance
    · rw [← optionalField_reordered (hValue "nonce")]
      exact hNonce
  unfold accountEntry
  dsimp only
  rw [hAddress, ok_bind, require_true hToken, ok_bind, h.isObj.mp hObj]
  show (entryOf dec j'.members >>= fun e => pure (entry.1, e)) = _
  rw [hMembers']
  rfl

/-- The records of an account do not depend on the order of its slots, up to
their own. -/
theorem AllocEntry.puts_perm (g : Geth) (owner : Hash) (e : AllocEntry) {slots : List (Hash × Hash)}
    (h : e.slots.Perm slots) : (e.puts g owner).Perm ({ e with slots := slots }.puts g owner) := by
  have hPatch : e.patch = { e with slots := slots }.patch := by
    simp only [AllocEntry.patch, AllocEntry.fields, h.isEmpty_eq]
  unfold AllocEntry.puts
  rw [← hPatch]
  exact (h.map _).append_right _

/-- **A reordered file has the same records.** -/
theorem allocRecords_reordered {g : Geth} {file file' : Json} (h : file.Reordered file')
    (hNames : ∀ m ∈ file.members, m.2.DistinctNames)
    {entries entries' : List (Address × AllocEntry)} (hEntries : fileEntries dec file = .ok entries)
    (hEntries' : fileEntries dec file' = .ok entries') :
    (allocRecords g entries).Perm (allocRecords g entries') := by
  have hObj : ∀ {j : Json} {es : List (Address × AllocEntry)}, fileEntries dec j = .ok es →
      j.members.mapM (accountEntry dec) = .ok es := by
    intro j es hRead
    cases j with
    | obj members => exact hRead
    | str text => cases hRead
    | num text => cases hRead
    | other => cases hRead
  obtain ⟨-, es, hRead, hPerm⟩ := mapM_reordered
    (fun e : Address × AllocEntry => e.2.puts g (accountKey g e.1))
    (fun m => m.2.DistinctNames)
    (fun name j j' entry hValue hDistinct hEntry => by
      obtain ⟨slots, hEntry', hSlots⟩ := accountEntry_reordered hValue hDistinct hEntry
      exact ⟨hValue.distinctNames hDistinct, _, hEntry', entry.2.puts_perm g _ hSlots⟩)
    h hNames (hObj hEntries)
  obtain rfl : es = entries' := Except.ok.inj (hRead.symm.trans (hObj hEntries'))
  exact hPerm

end L2State
