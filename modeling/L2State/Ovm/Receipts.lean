import L2State.Lib.RlpValue
import L2State.Geth.Types

/-!
# L2State — legacy receipts

`ovm_receipts.go` and the block check of `ovm_history.go`. The legacy node
stored the receipts of a block in three forms: with the bloom filter, without
it, and with the fee fields of the rollup. The reader takes all of them, also
mixed in one block, and rebuilds the consensus receipt.

* `decodeOVMReceiptsContext`, `decodeOVMReceiptContext`,
  `validateOVMReceiptMetadata`, `decodeOVMLog` — the code.
* `StoredReceipt`, `encodeReceipts` — **the storage format**: the three forms of
  a receipt and the two forms of a log.
* `decodeOVMReceiptContext_eq_ok_iff` — the reader accepts exactly the
  encodings of acceptable stored receipts.
* `StoredReceipt.encode_injective` — the bytes determine the form.
* `validateOVMReceiptCommitments`, `HistoryBlock.decode` — the check against
  the header.
-/

namespace L2State

open Lib

/-! ## Receipts -/

/-- `types.Bloom`. -/
abbrev Bloom := FixedBytes 256

/-- The fields of `types.Log` that consensus covers. -/
structure LogContent where
  address : Address
  topics  : List Hash
  data    : Bytes
deriving DecidableEq

/-- The fields of `types.Log` that tell its place in the chain. -/
structure LogPlace where
  blockNumber : UInt64
  txHash      : Hash
  txIndex     : UInt64
  blockHash   : Hash
  index       : UInt64
deriving DecidableEq

/-- The place of a log that was stored without it. -/
def LogPlace.zero : LogPlace := ⟨0, zeroHash, 0, zeroHash, 0⟩

/-- `types.Log`. -/
structure Log where
  content : LogContent
  place   : LogPlace
deriving DecidableEq

/-- `types.Receipt`, the fields that the reader sets. -/
structure Receipt where
  postState         : Bytes
  status            : UInt64
  cumulativeGasUsed : UInt64
  bloom             : Bloom
  logs              : List Log
deriving DecidableEq

/-- `receiptRLP`, what `types.DeriveSha` encodes of a receipt. -/
structure ReceiptRLP where
  postStateOrStatus : Bytes
  cumulativeGasUsed : UInt64
  bloom             : Bloom
  logs              : List LogContent
deriving DecidableEq

/-- The functions of geth and of `math/big` that receipts go through. -/
structure ReceiptCodec where
  /-- `types.CreateBloom`, which reads the addresses and the topics. -/
  createBloom : List (Address × List Hash) → Bloom
  /-- `big.ParseFloat(s, 10, 256, big.ToNearestEven)`. -/
  parseFloat  : Bytes → Except Err Unit
  /-- `types.DeriveSha` over a stack trie. -/
  deriveSha   : List ReceiptRLP → Hash

/-- `types.CreateBloom` of a receipt with these logs. -/
def ReceiptCodec.bloomOf (codec : ReceiptCodec) (logs : List LogContent) : Bloom :=
  codec.createBloom (logs.map fun l => (l.address, l.topics))

/-! ## The reader -/

/-- `fields[n]`, below the checked length. -/
def field (fields : List Bytes) (n : Nat) : Bytes := fields.getD n []

/-- `ctx.Err()`. -/
def polled : Option Err → Except Err Unit
  | none => .ok ()
  | some e => .error e

@[simp] theorem polled_eq_ok {e : Option Err} {u : Unit} : polled e = .ok u ↔ e = none := by
  cases e <;> simp [polled]

/-- The last five fields of a log with eight. -/
def decodeLogPlace (fields : List Bytes) : Except Err LogPlace := do
  let blockNumber ← rlpResult (Rlp.decodeBytes Rlp.uint64Field (field fields 3))
  let txHash ← rlpResult (Rlp.decodeBytes (Rlp.arrayField 32) (field fields 4))
  let txIndex ← rlpResult (Rlp.decodeBytes Rlp.uint64Field (field fields 5))
  let blockHash ← rlpResult (Rlp.decodeBytes (Rlp.arrayField 32) (field fields 6))
  let index ← rlpResult (Rlp.decodeBytes Rlp.uint64Field (field fields 7))
  return ⟨blockNumber, txHash, txIndex, blockHash, index⟩

/-- The place of a log, which only the longer form stores. -/
def logPlace (fields : List Bytes) : Except Err LogPlace :=
  if fields.length = 8 then decodeLogPlace fields else .ok .zero

/-- `decodeOVMLog`. -/
def decodeOVMLog (blob : Bytes) : Except Err Log := do
  let fields ← rlpResult (Rlp.decodeBytes Rlp.rawValues blob)
  require (fields.length = 3 ∨ fields.length = 8)
    (.msg "unsupported legacy log storage encoding" [])
  let address ← rlpResult (Rlp.decodeBytes (Rlp.arrayField 20) (field fields 0))
  let topics ← rlpResult (Rlp.decodeBytes (Rlp.listField (Rlp.arrayField 32)) (field fields 1))
  let data ← rlpResult (Rlp.decodeBytes Rlp.bytesField (field fields 2))
  let place ← logPlace fields
  return ⟨⟨address, topics, data⟩, place⟩

/-- The log loop of `decodeOVMReceiptContext`, from the `k`-th log on. -/
def decodeOVMLogs (ctx : Nat → Option Err) : Nat → List Bytes → Except Err (List Log)
  | _, [] => .ok []
  | k, raw :: raws => do
    polled (ctx k)
    let log ← decodeOVMLog raw
    let logs ← decodeOVMLogs ctx (k + 1) raws
    return log :: logs

/-- The status switch of `decodeOVMReceiptContext`: `Status` and `PostState`. -/
def receiptStatus (status : Bytes) : Except Err (UInt64 × Bytes) :=
  if status.length = 0 then .ok (0, [])
  else if status = [1] then .ok (1, [])
  else if status.length = 32 then .ok (0, status)
  else .error (.msg "invalid legacy receipt status" [])

/-- The fee branch of `validateOVMReceiptMetadata`: three integers and a decimal
that may be empty. -/
def validateFees (codec : ReceiptCodec) (f : List Bytes) : Except Err Unit := do
  let _ ← rlpResult (Rlp.decodeBytes Rlp.natField (field f 3))
  let _ ← rlpResult (Rlp.decodeBytes Rlp.natField (field f 4))
  let _ ← rlpResult (Rlp.decodeBytes Rlp.natField (field f 5))
  let scalar ← rlpResult (Rlp.decodeBytes Rlp.bytesField (field f 6))
  if scalar ≠ [] then
    wrapping "invalid legacy fee scalar: %w" [] (codec.parseFloat scalar)

/-- The older forms: transaction hash, contract address and gas around the logs. -/
def validatePlace (f : List Bytes) (offset : Nat) : Except Err Unit := do
  let _ ← rlpResult (Rlp.decodeBytes (Rlp.arrayField 32) (field f offset))
  let _ ← rlpResult (Rlp.decodeBytes (Rlp.arrayField 20) (field f (offset + 1)))
  let _ ← rlpResult (Rlp.decodeBytes Rlp.uint64Field (field f (offset + 3)))
  return

/-- The branches of `validateOVMReceiptMetadata`, given the kind of the third
field. -/
def metadataBranch (codec : ReceiptCodec) (f : List Bytes) (kind : Rlp.Kind) : Except Err Nat :=
  if f.length = 7 ∧ kind = .list then do
    validateFees codec f
    return 2
  else do
    let offset := if f.length = 7 then 3 else 2
    validatePlace f offset
    return offset + 2

/-- `validateOVMReceiptMetadata`: the index of the log field. -/
def validateOVMReceiptMetadata (codec : ReceiptCodec) (f : List Bytes) : Except Err Nat := do
  let (kind, _, _) ← rlpResult (Rlp.split (field f 2))
  metadataBranch codec f kind

/-- The bloom check of `decodeOVMReceiptContext`, in the form that stores one. -/
def checkBloom (fields : List Bytes) (logIndex : Nat) (bloom : Bloom) : Except Err Unit :=
  if logIndex = 5 then do
    let stored ← rlpResult (Rlp.decodeBytes (Rlp.arrayField 256) (field fields 2))
    require (stored = bloom) (.msg "legacy stored bloom disagrees with logs" [])
  else .ok ()

/-- `decodeOVMReceiptContext`; `ctx k` is what the context answers before the
`k`-th log. -/
def decodeOVMReceiptContext (codec : ReceiptCodec) (ctx : Nat → Option Err) (blob : Bytes) :
    Except Err Receipt := do
  let fields ← rlpResult (Rlp.decodeBytes Rlp.rawValues blob)
  require (fields.length = 6 ∨ fields.length = 7)
    (.msg "unsupported legacy receipt storage encoding" [])
  let status ← rlpResult (Rlp.decodeBytes Rlp.bytesField (field fields 0))
  let (status, postState) ← receiptStatus status
  let gas ← rlpResult (Rlp.decodeBytes Rlp.uint64Field (field fields 1))
  let logIndex ← validateOVMReceiptMetadata codec fields
  let raws ← rlpResult (Rlp.decodeBytes Rlp.rawValues (field fields logIndex))
  let logs ← decodeOVMLogs ctx 0 raws
  let bloom := codec.bloomOf (logs.map Log.content)
  checkBloom fields logIndex bloom
  require (¬ (postState.length = 0 ∧ status = 0 ∧ 0 < logs.length))
    (.msg "failed legacy receipt contains logs" [])
  return ⟨postState, status, gas, bloom, logs⟩

/-- The record loop of `decodeOVMReceiptsContext`, from the `n`-th record on. -/
def decodeOVMReceipts (codec : ReceiptCodec) (ctx : Nat → Option Nat → Option Err) :
    Nat → Option Receipt → List Bytes → Except Err (List Receipt)
  | _, _, [] => .ok []
  | n, previous, record :: records => do
    polled (ctx n none)
    let r ← wrapping "decode legacy receipt %d: %w" [.num n]
      (decodeOVMReceiptContext codec (fun k => ctx n (some k)) record)
    require (∀ p ∈ previous, p.cumulativeGasUsed ≤ r.cumulativeGasUsed)
      (.msg "legacy cumulative gas decreases" [])
    let rs ← decodeOVMReceipts codec ctx (n + 1) (some r) records
    return r :: rs

/-- `decodeOVMReceiptsContext`; `ctx` tells what the context answers before each
record, and before each log of a record. -/
def decodeOVMReceiptsContext (codec : ReceiptCodec) (ctx : Nat → Option Nat → Option Err)
    (blob : Bytes) : Except Err (List Receipt) := do
  let records ← wrapping "decode legacy receipts: %w" []
    (rlpResult (Rlp.decodeBytes Rlp.rawValues blob))
  decodeOVMReceipts codec ctx 0 none records

/-! ## The storage format -/

/-- What a receipt tells about the execution. -/
inductive ReceiptOutcome
  | failed
  | succeeded
  | postState (root : Hash)
deriving DecidableEq

/-- The status field on the wire. -/
def ReceiptOutcome.encoding : ReceiptOutcome → Bytes
  | .failed => []
  | .succeeded => [1]
  | .postState root => root.bytes

/-- `Receipt.Status`. -/
def ReceiptOutcome.status : ReceiptOutcome → UInt64
  | .succeeded => 1
  | _ => 0

/-- `Receipt.PostState`. -/
def ReceiptOutcome.root : ReceiptOutcome → Bytes
  | .postState root => root.bytes
  | _ => []

/-- A stored log: with three fields, or with eight. -/
structure StoredLog where
  content : LogContent
  place   : Option LogPlace
deriving DecidableEq

def LogContent.fields (l : LogContent) : List Bytes :=
  [Rlp.encodeString l.address.bytes, Rlp.encodeSlice (fun t => Rlp.encodeString t.bytes) l.topics,
    Rlp.encodeString l.data]

def LogPlace.fields (p : LogPlace) : List Bytes :=
  [Rlp.encodeUint 8 p.blockNumber.toNat, Rlp.encodeString p.txHash.bytes,
    Rlp.encodeUint 8 p.txIndex.toNat, Rlp.encodeString p.blockHash.bytes,
    Rlp.encodeUint 8 p.index.toNat]

def StoredLog.fields (s : StoredLog) : List Bytes :=
  s.content.fields ++ (s.place.map LogPlace.fields).getD []

def StoredLog.encode (s : StoredLog) : Bytes := Rlp.encodeList s.fields.flatten

/-- The log that the reader makes of it. -/
def StoredLog.log (s : StoredLog) : Log := ⟨s.content, s.place.getD .zero⟩

/-- The metadata of the older forms. -/
structure ReceiptPlace where
  txHash          : Hash
  contractAddress : Address
  gasUsed         : UInt64
deriving DecidableEq

/-- The metadata of the newest form. -/
structure FeeFields where
  gasPrice : Nat
  gasUsed  : Nat
  fee      : Nat
  scalar   : Bytes
deriving DecidableEq

/-- The three forms, with the fields that only they have. -/
inductive StorageForm
  | bloomed (bloom : Bloom) (place : ReceiptPlace)
  | plain (place : ReceiptPlace)
  | fees (fees : FeeFields)
deriving DecidableEq

/-- The fields after the gas, around the field that holds the logs. -/
def StorageForm.fields (form : StorageForm) (logs : Bytes) : List Bytes :=
  match form with
  | .bloomed bloom p =>
    [Rlp.encodeString bloom.bytes, Rlp.encodeString p.txHash.bytes,
      Rlp.encodeString p.contractAddress.bytes, logs, Rlp.encodeUint 8 p.gasUsed.toNat]
  | .plain p =>
    [Rlp.encodeString p.txHash.bytes, Rlp.encodeString p.contractAddress.bytes, logs,
      Rlp.encodeUint 8 p.gasUsed.toNat]
  | .fees f =>
    [logs, Rlp.encodeString (Rlp.natBytes f.gasPrice), Rlp.encodeString (Rlp.natBytes f.gasUsed),
      Rlp.encodeString (Rlp.natBytes f.fee), Rlp.encodeString f.scalar]

/-- The position of the logs among all fields. -/
def StorageForm.logIndex : StorageForm → Nat
  | .bloomed _ _ => 5
  | .plain _ => 4
  | .fees _ => 2

/-- A stored receipt, with logs of any representation. -/
structure ReceiptRecord (ι : Type) where
  outcome : ReceiptOutcome
  gas     : UInt64
  form    : StorageForm
  logs    : List ι
deriving DecidableEq

/-- The fields of a receipt over the encodings of its logs. -/
def ReceiptRecord.fields (s : ReceiptRecord Bytes) : List Bytes :=
  Rlp.encodeString s.outcome.encoding :: Rlp.encodeUint 8 s.gas.toNat ::
    s.form.fields (Rlp.encodeList s.logs.flatten)

/-- A receipt as the legacy node stores it. -/
abbrev StoredReceipt := ReceiptRecord StoredLog

/-- The same receipt over the encodings of its logs. -/
def StoredReceipt.raw (s : StoredReceipt) : ReceiptRecord Bytes :=
  ⟨s.outcome, s.gas, s.form, s.logs.map StoredLog.encode⟩

def StoredReceipt.encode (s : StoredReceipt) : Bytes := Rlp.encodeList s.raw.fields.flatten

/-- The receipts of a block as the legacy node stores them. -/
def encodeReceipts (stored : List StoredReceipt) : Bytes :=
  Rlp.encodeList (stored.map StoredReceipt.encode).flatten

/-- The consensus content of the logs. -/
def StoredReceipt.contents (s : StoredReceipt) : List LogContent := s.logs.map StoredLog.content

/-- The metadata that the reader checks: a stored bloom is the one of the logs,
and a fee scalar is empty or a decimal. -/
def StorageForm.Checked (codec : ReceiptCodec) (bloom : Bloom) : StorageForm → Prop
  | .bloomed stored _ => stored = bloom
  | .plain _ => True
  | .fees f => f.scalar = [] ∨ codec.parseFloat f.scalar = .ok ()

/-- The receipt is acceptable. -/
structure StoredReceipt.Accepted (codec : ReceiptCodec) (s : StoredReceipt) : Prop where
  checked : s.form.Checked codec (codec.bloomOf s.contents)
  quiet   : s.outcome = .failed → s.logs = []

/-- The receipt that the reader makes of it. -/
def StoredReceipt.receipt (codec : ReceiptCodec) (s : StoredReceipt) : Receipt :=
  ⟨s.outcome.root, s.outcome.status, s.gas, codec.bloomOf s.contents, s.logs.map StoredLog.log⟩

/-! ## Logs -/

private theorem length_le_of_mem_flatten {x : Bytes} {xs : List Bytes} (h : x ∈ xs) :
    x.length ≤ xs.flatten.length :=
  (List.sublist_flatten_of_mem h).length_le

variable {c b : Bytes} {codec : ReceiptCodec} {form : StorageForm} {s : StoredReceipt}
  {ctx : Nat → Option Nat → Option Err} {records : List Bytes} {out : List Receipt}
  {stored : List StoredReceipt} {receipts : List Receipt}

private theorem lt_of_encodeString {n : Nat} (h : (Rlp.encodeString c).length < n) :
    c.length < n :=
  (Rlp.length_le_encodeString c).trans_lt h

private theorem lt_of_encodeList {n : Nat} (h : (Rlp.encodeList c).length < n) :
    c.length < n :=
  (Rlp.length_le_encodeList c).trans_lt h

/-- The readers of fixed width. -/
theorem decode_fixed_iff {n : Nat} (hn : n < 2 ^ 64) {a : FixedBytes n} :
    Rlp.decodeBytes (Rlp.arrayField n) b = .ok a ↔ b = Rlp.encodeString a.bytes := by
  rw [(Rlp.reads_arrayField hn).decodeBytes_eq_ok_iff, and_true]

theorem decode_uint64_iff {x : UInt64} :
    Rlp.decodeBytes Rlp.uint64Field b = .ok x ↔ b = Rlp.encodeUint 8 x.toNat := by
  rw [Rlp.reads_uint64Field.decodeBytes_eq_ok_iff, and_true]

theorem decode_bytes_iff :
    Rlp.decodeBytes Rlp.bytesField b = .ok c ↔ b = Rlp.encodeString c ∧ c.length < 2 ^ 64 :=
  Rlp.reads_bytesField.decodeBytes_eq_ok_iff

theorem decode_topics_iff {topics : List Hash} :
    Rlp.decodeBytes (Rlp.listField (Rlp.arrayField 32)) b = .ok topics ↔
      b = Rlp.encodeSlice (fun t => Rlp.encodeString t.bytes) topics ∧
        (topics.flatMap fun t => Rlp.encodeString t.bytes).length < 2 ^ 64 := by
  rw [(Rlp.reads_arrayField (show 32 < 2 ^ 64 by decide)).list.decodeBytes_eq_ok_iff]
  simp

/-- A string or a list, of any length. -/
def IsItem (x : Bytes) : Prop := (∃ c, x = Rlp.encodeString c) ∨ ∃ c, x = Rlp.encodeList c

@[simp] theorem isItem_encodeString (c : Bytes) : IsItem (Rlp.encodeString c) := .inl ⟨c, rfl⟩

@[simp] theorem isItem_encodeUint (n x : Nat) : IsItem (Rlp.encodeUint n x) := .inl ⟨_, rfl⟩

@[simp] theorem isItem_encodeList (c : Bytes) : IsItem (Rlp.encodeList c) := .inr ⟨c, rfl⟩

/-- Strings and lists that fit are values of the wire. -/
theorem isRaw_items {xs : List Bytes} (hLen : xs.flatten.length < 2 ^ 64)
    (hItems : ∀ x ∈ xs, IsItem x) :
    ∀ x ∈ xs, Rlp.IsRaw x := by
  intro x hx
  have hx' : x.length < 2 ^ 64 := (length_le_of_mem_flatten hx).trans_lt hLen
  rcases hItems x hx with ⟨c, rfl⟩ | ⟨c, rfl⟩
  · exact Rlp.isRaw_encodeString (lt_of_encodeString hx')
  · exact Rlp.isRaw_encodeList (lt_of_encodeList hx')

theorem encode_uint64_injective {x y : UInt64}
    (h : Rlp.encodeUint 8 x.toNat = Rlp.encodeUint 8 y.toNat) : x = y :=
  Rlp.reads_uint64Field.injective trivial trivial h

theorem encode_fixed_injective {n : Nat} (hn : n < 2 ^ 64) {a b : FixedBytes n}
    (h : Rlp.encodeString a.bytes = Rlp.encodeString b.bytes) : a = b :=
  (Rlp.reads_arrayField hn).injective trivial trivial h

theorem decodeLogPlace_eq_ok_iff {a d e f g h : Bytes} {p : LogPlace} :
    decodeLogPlace [a, b, c, d, e, f, g, h] = .ok p ↔ [d, e, f, g, h] = p.fields := by
  simp only [decodeLogPlace, field, List.getD_cons_succ, List.getD_cons_zero, bind_eq_ok,
    rlpResult_eq_ok, pure_eq_ok, Except.ok.injEq, decode_uint64_iff,
    decode_fixed_iff (n := 32) (by decide), LogPlace.fields, List.cons.injEq, and_true]
  constructor
  · rintro ⟨number, rfl, tx, rfl, txIndex, rfl, block, rfl, index, rfl, rfl⟩
    exact ⟨rfl, rfl, rfl, rfl, rfl⟩
  · rintro ⟨rfl, rfl, rfl, rfl, rfl⟩
    exact ⟨_, rfl, _, rfl, _, rfl, _, rfl, _, rfl, rfl⟩

/-- The fields of a log are values of the wire. -/
theorem StoredLog.isRaw_fields {s : StoredLog} (hLen : s.fields.flatten.length < 2 ^ 64) :
    ∀ x ∈ s.fields, Rlp.IsRaw x := by
  refine isRaw_items hLen ?_
  obtain ⟨content, _ | place⟩ := s <;>
    simp [StoredLog.fields, LogContent.fields, LogPlace.fields, Rlp.encodeSlice]

theorem eq_six : ∀ {f : List Bytes}, f.length = 6 → ∃ a b c d e g, f = [a, b, c, d, e, g]
  | [a, b, c, d, e, g], _ => ⟨a, b, c, d, e, g, rfl⟩

theorem eq_seven : ∀ {f : List Bytes}, f.length = 7 → ∃ a b c d e g h, f = [a, b, c, d, e, g, h]
  | [a, b, c, d, e, g, h], _ => ⟨a, b, c, d, e, g, h, rfl⟩

theorem eq_eight : ∀ {f : List Bytes}, f.length = 8 →
    ∃ a b c d e g h i, f = [a, b, c, d, e, g, h, i]
  | [a, b, c, d, e, g, h, i], _ => ⟨a, b, c, d, e, g, h, i, rfl⟩

/-- **Logs.** The log reader accepts exactly the two forms. -/
theorem decodeOVMLog_eq_ok_iff {log : Log} :
    decodeOVMLog b = .ok log ↔
      ∃ s : StoredLog, b = s.encode ∧ s.fields.flatten.length < 2 ^ 64 ∧ log = s.log := by
  simp only [decodeOVMLog, bind_eq_ok, rlpResult_eq_ok, require_eq_ok, pure_eq_ok, Except.ok.injEq,
    Rlp.decode_rawValues_eq_ok_iff, decode_fixed_iff (n := 20) (by decide), decode_topics_iff,
    decode_bytes_iff]
  constructor
  · rintro ⟨fields, ⟨rfl, hLen, -⟩, -, hCount, address, hAddress, topics, ⟨hTopics, -⟩, data,
      ⟨hData, -⟩, place, hPlace, rfl⟩
    rcases hCount with hCount | hCount
    · -- three fields: the log has no place
      obtain ⟨x, y, z, rfl⟩ := List.length_eq_three.mp hCount
      simp only [field, List.getD_cons_zero, List.getD_cons_succ] at hAddress hTopics hData
      rw [logPlace, if_neg (by rw [hCount]; decide), Except.ok.injEq] at hPlace
      subst hAddress hTopics hData hPlace
      exact ⟨⟨⟨address, topics, data⟩, none⟩, rfl, hLen, rfl⟩
    · -- eight fields: the place follows the content
      rw [logPlace, if_pos hCount] at hPlace
      obtain ⟨a, b, c, d, e, f, g, h, rfl⟩ := eq_eight hCount
      simp only [field, List.getD_cons_zero, List.getD_cons_succ] at hAddress hTopics hData
      have hFields := decodeLogPlace_eq_ok_iff.mp hPlace
      subst hAddress hTopics hData
      have hAll : StoredLog.fields ⟨⟨address, topics, data⟩, some place⟩ =
          LogContent.fields ⟨address, topics, data⟩ ++ [d, e, f, g, h] := by
        rw [hFields]
        rfl
      refine ⟨⟨⟨address, topics, data⟩, some place⟩, ?_, ?_, rfl⟩
      · rw [StoredLog.encode, hAll]
        rfl
      · rw [hAll]
        exact hLen
  · rintro ⟨s, rfl, hLen, rfl⟩
    have hBound : ∀ x ∈ s.fields, x.length < 2 ^ 64 := fun x hx =>
      (length_le_of_mem_flatten hx).trans_lt hLen
    have hTopics : (s.content.topics.flatMap fun t => Rlp.encodeString t.bytes).length < 2 ^ 64 :=
      lt_of_encodeList (hBound _ (by simp [StoredLog.fields, LogContent.fields, Rlp.encodeSlice]))
    have hData : s.content.data.length < 2 ^ 64 :=
      lt_of_encodeString (hBound _ (by simp [StoredLog.fields, LogContent.fields]))
    obtain ⟨content, place⟩ := s
    refine ⟨_, ⟨rfl, hLen, StoredLog.isRaw_fields hLen⟩, (), ?_, content.address, rfl,
      content.topics, ⟨rfl, hTopics⟩, content.data, ⟨rfl, hData⟩, place.getD .zero, ?_, rfl⟩
    · cases place with
      | none => exact .inl rfl
      | some p => exact .inr rfl
    · cases place with
      | none => rfl
      | some p => exact decodeLogPlace_eq_ok_iff.mpr rfl

/-- The bytes determine a log: the reader gives its content back, and the number
of the fields tells whether it has a place. -/
theorem StoredLog.encode_injective {s s' : StoredLog} (hLen : s.fields.flatten.length < 2 ^ 64)
    (hLen' : s'.fields.flatten.length < 2 ^ 64) (hEq : s.encode = s'.encode) : s = s' := by
  have hCount := congrArg List.length (Rlp.encodeList_flatten_injective hLen hLen'
    (StoredLog.isRaw_fields hLen) (StoredLog.isRaw_fields hLen') hEq)
  have hRead : decodeOVMLog s.encode = .ok s.log :=
    decodeOVMLog_eq_ok_iff.mpr ⟨s, rfl, hLen, rfl⟩
  rw [hEq, decodeOVMLog_eq_ok_iff.mpr ⟨s', rfl, hLen', rfl⟩] at hRead
  obtain ⟨content, place⟩ := s
  obtain ⟨content', place'⟩ := s'
  obtain ⟨rfl, hPlace⟩ := Log.mk.inj (Except.ok.inj hRead)
  cases place <;> cases place'
  case none.none => rfl
  case some.some p p' => rw [show p' = p from hPlace]
  all_goals exact absurd hCount (by simp [fields, LogContent.fields, LogPlace.fields])

/-- The reader keeps the consensus content of the logs. -/
theorem content_log (logs : List StoredLog) :
    (logs.map StoredLog.log).map Log.content = logs.map StoredLog.content := by
  rw [List.map_map]
  rfl

/-- The log loop reads every record, and stops where the context does. -/
theorem decodeOVMLogs_eq_ok_iff {ctx : Nat → Option Err} {raws : List Bytes} {logs : List Log}
    {k : Nat} :
    decodeOVMLogs ctx k raws = .ok logs ↔
      (∀ i < raws.length, ctx (k + i) = none) ∧
        List.Forall₂ (fun raw log => decodeOVMLog raw = .ok log) raws logs := by
  induction raws generalizing k logs with
  | nil => simp [decodeOVMLogs, eq_comm]
  | cons raw raws ih =>
    simp only [decodeOVMLogs, bind_eq_ok, polled_eq_ok, pure_eq_ok, Except.ok.injEq, ih]
    constructor
    · rintro ⟨-, hPoll, log, hLog, logs, ⟨hPolls, hLogs⟩, rfl⟩
      refine ⟨?_, .cons hLog hLogs⟩
      intro i hi
      cases i with
      | zero => exact hPoll
      | succ i =>
        have := hPolls i (by simpa using hi)
        rwa [show k + (i + 1) = k + 1 + i by omega]
    · rintro ⟨hPolls, hLogs⟩
      cases hLogs with
      | cons hLog hLogs =>
        refine ⟨(), hPolls 0 (by simp), _, hLog, _, ⟨?_, hLogs⟩, rfl⟩
        intro i hi
        have := hPolls (i + 1) (by simpa using hi)
        rwa [show k + (i + 1) = k + 1 + i by omega] at this

/-! ## Metadata -/

/-- The status field is one of the three outcomes. -/
theorem receiptStatus_eq_ok_iff {p : UInt64 × Bytes} :
    receiptStatus b = .ok p ↔ ∃ o : ReceiptOutcome, b = o.encoding ∧ p = (o.status, o.root) := by
  unfold receiptStatus
  constructor
  · intro h
    split at h
    next hNil =>
      cases h
      exact ⟨.failed, List.length_eq_zero_iff.mp hNil, rfl⟩
    next =>
      split at h
      next hOne =>
        cases h
        exact ⟨.succeeded, hOne, rfl⟩
      next =>
        split at h
        next hRoot =>
          cases h
          exact ⟨.postState ⟨b, hRoot⟩, rfl, rfl⟩
        next => cases h
  · rintro ⟨o, rfl, rfl⟩
    cases o with
    | failed => rfl
    | succeeded => rfl
    | postState root =>
      have hLen := root.length_bytes
      have hOne : root.bytes ≠ [1] := by
        intro h
        rw [h] at hLen
        exact absurd hLen (by decide)
      simp [ReceiptOutcome.encoding, ReceiptOutcome.status, ReceiptOutcome.root, hLen, hOne]

theorem ReceiptOutcome.encoding_injective {o o' : ReceiptOutcome} (h : o.encoding = o'.encoding) :
    o = o' := by
  cases o <;> cases o'
  case postState.postState root root' => exact congrArg postState (FixedBytes.bytes_injective h)
  -- no other two encodings have one length
  all_goals first
    | rfl
    | exact absurd (congrArg List.length h) (by simp [encoding, FixedBytes.length_bytes])

theorem ReceiptOutcome.length_encoding_lt (o : ReceiptOutcome) : o.encoding.length < 2 ^ 64 := by
  cases o with
  | failed => decide
  | succeeded => decide
  | postState root => exact root.length_bytes.trans_lt (by decide)

/-- A receipt counts as failed when it has neither a status nor a post-state. -/
theorem ReceiptOutcome.failed_iff {o : ReceiptOutcome} :
    o.root.length = 0 ∧ o.status = 0 ↔ o = .failed := by
  cases o with
  | failed => simp [root, status]
  | succeeded => simp [root, status]
  | postState h => simp [root, h.length_bytes]

/-- The logs stand at their index. -/
theorem StorageForm.field_logIndex (form : StorageForm) (s g logs : Bytes) :
    field (s :: g :: form.fields logs) form.logIndex = logs := by
  cases form <;> rfl

theorem validateFees_eq_ok_iff {s g l a d : Bytes} {u : Unit} :
    validateFees codec [s, g, l, a, b, c, d] = .ok u ↔
      ∃ f : FeeFields, [l, a, b, c, d] = (StorageForm.fees f).fields l ∧
        (Rlp.natBytes f.gasPrice).length < 2 ^ 64 ∧ (Rlp.natBytes f.gasUsed).length < 2 ^ 64 ∧
        (Rlp.natBytes f.fee).length < 2 ^ 64 ∧ f.scalar.length < 2 ^ 64 ∧
        (f.scalar = [] ∨ codec.parseFloat f.scalar = .ok ()) := by
  have hScalar : ∀ scalar : Bytes,
      (if scalar ≠ [] then wrapping "invalid legacy fee scalar: %w" [] (codec.parseFloat scalar)
        else pure ()) = .ok u ↔ scalar = [] ∨ codec.parseFloat scalar = .ok () := by
    intro scalar
    by_cases h : scalar = []
    · simp [h]
    · simp [h]
  simp only [validateFees, field, List.getD_cons_succ, List.getD_cons_zero, bind_eq_ok,
    rlpResult_eq_ok, Rlp.reads_natField.decodeBytes_eq_ok_iff, decode_bytes_iff, hScalar,
    StorageForm.fields, List.cons.injEq, and_true, true_and]
  constructor
  · rintro ⟨x, ⟨rfl, hx⟩, y, ⟨rfl, hy⟩, z, ⟨rfl, hz⟩, scalar, ⟨rfl, hLen⟩, hFloat⟩
    exact ⟨⟨x, y, z, scalar⟩, ⟨rfl, rfl, rfl, rfl⟩, hx, hy, hz, hLen, hFloat⟩
  · rintro ⟨f, ⟨rfl, rfl, rfl, rfl⟩, hx, hy, hz, hLen, hFloat⟩
    exact ⟨_, ⟨rfl, hx⟩, _, ⟨rfl, hy⟩, _, ⟨rfl, hz⟩, _, ⟨rfl, hLen⟩, hFloat⟩

theorem validatePlace_eq_ok_iff {f : List Bytes} {offset : Nat} {u : Unit} :
    validatePlace f offset = .ok u ↔
      ∃ p : ReceiptPlace, field f offset = Rlp.encodeString p.txHash.bytes ∧
        field f (offset + 1) = Rlp.encodeString p.contractAddress.bytes ∧
        field f (offset + 3) = Rlp.encodeUint 8 p.gasUsed.toNat := by
  simp only [validatePlace, bind_eq_ok, rlpResult_eq_ok, decode_fixed_iff (n := 32) (by decide),
    decode_fixed_iff (n := 20) (by decide), decode_uint64_iff, pure_eq_ok, and_true]
  constructor
  · rintro ⟨hash, hHash, address, hAddress, gas, hGas⟩
    exact ⟨⟨hash, address, gas⟩, hHash, hAddress, hGas⟩
  · rintro ⟨p, hHash, hAddress, hGas⟩
    exact ⟨_, hHash, _, hAddress, _, hGas⟩

/-- The bounds that the readers of the metadata need. -/
structure StorageForm.Fits (form : StorageForm) : Prop where
  gasPrice : ∀ f, form = .fees f → (Rlp.natBytes f.gasPrice).length < 2 ^ 64
  gasUsed  : ∀ f, form = .fees f → (Rlp.natBytes f.gasUsed).length < 2 ^ 64
  fee      : ∀ f, form = .fees f → (Rlp.natBytes f.fee).length < 2 ^ 64
  scalar   : ∀ f, form = .fees f → f.scalar.length < 2 ^ 64

theorem StorageForm.fits_of_bound {logs : Bytes}
    (hBound : ∀ x ∈ form.fields logs, x.length < 2 ^ 64) : form.Fits where
  gasPrice f h := lt_of_encodeString (hBound _ (by simp [h, fields]))
  gasUsed f h := lt_of_encodeString (hBound _ (by simp [h, fields]))
  fee f h := lt_of_encodeString (hBound _ (by simp [h, fields]))
  scalar f h := lt_of_encodeString (hBound _ (by simp [h, fields]))

/-- What the metadata check and the bloom check accept together. -/
theorem metadata_of_ok {f : List Bytes} {n : Nat} {bloom : Bloom}
    (hCount : f.length = 6 ∨ f.length = 7) (hMeta : validateOVMReceiptMetadata codec f = .ok n)
    (hBloom : checkBloom f n bloom = .ok ()) :
    ∃ s g logs form, f = s :: g :: StorageForm.fields form logs ∧ n = form.logIndex ∧
      form.Checked codec bloom := by
  simp only [validateOVMReceiptMetadata, bind_eq_ok, rlpResult_eq_ok, Prod.exists] at hMeta
  obtain ⟨kind, x, rest, -, hMeta⟩ := hMeta
  unfold metadataBranch at hMeta
  split at hMeta
  next hFees =>
    simp only [bind_eq_ok, pure_eq_ok, Except.ok.injEq] at hMeta
    obtain ⟨_, hFees', rfl⟩ := hMeta
    obtain ⟨s, g, l, a, b, c, d, rfl⟩ := eq_seven hFees.1
    obtain ⟨fees, hEq, -, -, -, -, hFloat⟩ := validateFees_eq_ok_iff.mp hFees'
    exact ⟨s, g, l, .fees fees, by rw [hEq], rfl, hFloat⟩
  next hOlder =>
    simp only [bind_eq_ok, pure_eq_ok, Except.ok.injEq, validatePlace_eq_ok_iff] at hMeta
    obtain ⟨_, ⟨p, hHash, hAddress, hGas⟩, rfl⟩ := hMeta
    rcases hCount with hCount | hCount
    · -- six fields: the place follows the gas
      rw [if_neg (by rw [hCount]; decide)] at hHash hAddress hGas
      obtain ⟨s, g, a, b, l, d, rfl⟩ := eq_six hCount
      simp only [field, List.getD_cons_succ, List.getD_cons_zero] at hHash hAddress hGas
      subst hHash hAddress hGas
      exact ⟨s, g, l, .plain p, rfl, rfl, trivial⟩
    · -- seven fields without a list: the bloom is checked after the logs
      rw [if_pos hCount] at hHash hAddress hGas hBloom ⊢
      rw [checkBloom, if_pos rfl] at hBloom
      simp only [bind_eq_ok, rlpResult_eq_ok, require_eq_ok,
        decode_fixed_iff (n := 256) (by decide)] at hBloom
      obtain ⟨stored, hStored, hSame⟩ := hBloom
      obtain ⟨s, g, e, a, b, l, d, rfl⟩ := eq_seven hCount
      simp only [field, List.getD_cons_succ, List.getD_cons_zero] at hHash hAddress hGas hStored
      subst hHash hAddress hGas hStored
      exact ⟨s, g, l, .bloomed stored p, rfl, rfl, hSame⟩

/-- A string in the third field: the older forms. -/
theorem metadata_place {f : List Bytes} {third : Bytes} (hThird : third.length < 2 ^ 64)
    (hField : field f 2 = Rlp.encodeString third)
    (hPlace : validatePlace f (if f.length = 7 then 3 else 2) = .ok ()) :
    validateOVMReceiptMetadata codec f = .ok ((if f.length = 7 then 3 else 2) + 2) := by
  obtain ⟨kind, hKind, hSplit⟩ := Rlp.split_encodeString hThird
  simp only [validateOVMReceiptMetadata, bind_eq_ok, rlpResult_eq_ok, Prod.exists, hField]
  refine ⟨kind, _, _, hSplit, ?_⟩
  rw [metadataBranch, if_neg (by simp [hKind])]
  simp only [hPlace]
  rfl

/-- A checked form passes both checks. -/
theorem metadata_ok {bloom : Bloom} {s g : Bytes} (hFits : form.Fits) (hLogs : c.length < 2 ^ 64)
    (hChecked : form.Checked codec bloom) :
    validateOVMReceiptMetadata codec (s :: g :: form.fields (Rlp.encodeList c)) =
        .ok form.logIndex ∧
      checkBloom (s :: g :: form.fields (Rlp.encodeList c)) form.logIndex bloom = .ok () := by
  have hHash : ∀ h : Hash, h.bytes.length < 2 ^ 64 := fun h => h.length_bytes.trans_lt (by decide)
  have hStored : ∀ b : Bloom, b.bytes.length < 2 ^ 64 := fun b =>
    b.length_bytes.trans_lt (by decide)
  cases form with
  | bloomed stored p =>
    refine ⟨metadata_place (hStored stored) rfl
      (validatePlace_eq_ok_iff.mpr ⟨p, rfl, rfl, rfl⟩), ?_⟩
    simp only [checkBloom, StorageForm.logIndex, if_true, field, StorageForm.fields,
      List.getD_cons_succ, List.getD_cons_zero, bind_eq_ok, rlpResult_eq_ok, require_eq_ok,
      decode_fixed_iff (n := 256) (by decide)]
    exact ⟨stored, rfl, hChecked⟩
  | plain p =>
    exact ⟨metadata_place (hHash p.txHash) rfl
      (validatePlace_eq_ok_iff.mpr ⟨p, rfl, rfl, rfl⟩), rfl⟩
  | fees f =>
    refine ⟨?_, rfl⟩
    simp only [validateOVMReceiptMetadata, field, StorageForm.fields, List.getD_cons_succ,
      List.getD_cons_zero, bind_eq_ok, rlpResult_eq_ok, Prod.exists]
    refine ⟨.list, c, [], Rlp.split_eq_ok_iff.mpr ⟨(List.append_nil _).symm, trivial, hLogs⟩, ?_⟩
    rw [metadataBranch, if_pos ⟨rfl, rfl⟩]
    simp only [bind_eq_ok, validateFees_eq_ok_iff]
    exact ⟨(), ⟨f, rfl, hFits.gasPrice f rfl, hFits.gasUsed f rfl, hFits.fee f rfl,
      hFits.scalar f rfl, hChecked⟩, rfl⟩

/-! ## Receipts of one record -/

theorem ReceiptRecord.isRaw_fields {s : ReceiptRecord Bytes}
    (hLen : s.fields.flatten.length < 2 ^ 64) : ∀ x ∈ s.fields, Rlp.IsRaw x := by
  refine isRaw_items hLen ?_
  obtain ⟨outcome, gas, _ | _ | _, logs⟩ := s <;> simp [ReceiptRecord.fields, StorageForm.fields]

theorem ReceiptRecord.length_fields (s : ReceiptRecord Bytes) :
    s.fields.length = 6 ∨ s.fields.length = 7 := by
  obtain ⟨outcome, gas, _ | _ | _, logs⟩ := s
  · exact .inr rfl
  · exact .inl rfl
  · exact .inr rfl

theorem ReceiptRecord.length_logs_lt {s : ReceiptRecord Bytes}
    (hLen : s.fields.flatten.length < 2 ^ 64) : s.logs.flatten.length < 2 ^ 64 := by
  refine lt_of_encodeList ((length_le_of_mem_flatten ?_).trans_lt hLen)
  rw [ReceiptRecord.fields]
  refine List.mem_cons_of_mem _ (List.mem_cons_of_mem _ ?_)
  cases s.form <;> simp [StorageForm.fields]

theorem ReceiptRecord.fits {s : ReceiptRecord Bytes} (hLen : s.fields.flatten.length < 2 ^ 64) :
    s.form.Fits :=
  StorageForm.fits_of_bound fun _ hx =>
    (length_le_of_mem_flatten (List.mem_cons_of_mem _ (List.mem_cons_of_mem _ hx))).trans_lt hLen

/-- The receipt that the reader returns for a record with these logs. -/
def ReceiptRecord.receiptWith (codec : ReceiptCodec) (s : ReceiptRecord Bytes) (logs : List Log) :
    Receipt :=
  ⟨s.outcome.root, s.outcome.status, s.gas, codec.bloomOf (logs.map Log.content), logs⟩

/-- The record loop's callee over the encodings of the logs: the fields have one
of the three forms, the logs are read, and the checks pass. -/
theorem decodeOVMReceiptContext_record_iff {ctx : Nat → Option Err} {r : Receipt} :
    decodeOVMReceiptContext codec ctx b = .ok r ↔
      ∃ (s : ReceiptRecord Bytes) (logs : List Log),
        b = Rlp.encodeList s.fields.flatten ∧ s.fields.flatten.length < 2 ^ 64 ∧
        (∀ x ∈ s.logs, Rlp.IsRaw x) ∧ decodeOVMLogs ctx 0 s.logs = .ok logs ∧
        s.form.Checked codec (codec.bloomOf (logs.map Log.content)) ∧
        (s.outcome = .failed → logs = []) ∧ r = s.receiptWith codec logs := by
  simp only [decodeOVMReceiptContext, bind_eq_ok, rlpResult_eq_ok, require_eq_ok, pure_eq_ok,
    Except.ok.injEq, Prod.exists, Rlp.decode_rawValues_eq_ok_iff, decode_bytes_iff,
    decode_uint64_iff, receiptStatus_eq_ok_iff, Prod.mk.injEq]
  constructor
  · rintro ⟨fields, ⟨rfl, hLen, -⟩, -, hCount, statusBytes, ⟨hStatus, -⟩, status, postState,
      ⟨o, rfl, rfl, rfl⟩, gas, hGas, logIndex, hMeta, raws, ⟨hRaws, -, hRawAll⟩, logs, hLogs, _,
      hBloom, -, hQuiet, rfl⟩
    obtain ⟨x, y, logsField, form, rfl, rfl, hChecked⟩ := metadata_of_ok hCount hMeta hBloom
    rw [StorageForm.field_logIndex] at hRaws
    simp only [field, List.getD_cons_succ, List.getD_cons_zero] at hStatus hGas
    subst hStatus hGas hRaws
    refine ⟨⟨o, gas, form, raws⟩, logs, rfl, hLen, hRawAll, hLogs, hChecked, ?_, rfl⟩
    intro hFailed
    by_contra hNe
    obtain ⟨hRoot, hZero⟩ := ReceiptOutcome.failed_iff.mpr hFailed
    exact hQuiet ⟨hRoot, hZero, List.length_pos_iff.mpr hNe⟩
  · rintro ⟨s, logs, rfl, hLen, hRawAll, hLogs, hChecked, hQuiet, rfl⟩
    have hLogLen := ReceiptRecord.length_logs_lt hLen
    obtain ⟨hMeta, hBloom⟩ := metadata_ok (s := Rlp.encodeString s.outcome.encoding)
      (g := Rlp.encodeUint 8 s.gas.toNat) (ReceiptRecord.fits hLen) hLogLen hChecked
    refine ⟨s.fields, ⟨rfl, hLen, ReceiptRecord.isRaw_fields hLen⟩, (), s.length_fields, s.outcome.encoding,
      ⟨rfl, s.outcome.length_encoding_lt⟩, s.outcome.status, s.outcome.root,
      ⟨s.outcome, rfl, rfl, rfl⟩, s.gas, rfl, s.form.logIndex, hMeta, s.logs,
      ⟨?_, hLogLen, hRawAll⟩, logs, hLogs, (), hBloom, (), ?_, rfl⟩
    · exact StorageForm.field_logIndex _ _ _ _
    · rintro ⟨hRoot, hZero, hPos⟩
      have hNil := hQuiet (ReceiptOutcome.failed_iff.mp ⟨hRoot, hZero⟩)
      rw [hNil] at hPos
      exact absurd hPos (by decide)

/-! ## The form of a receipt -/

private theorem map_injective_on {α β : Type} {f : α → β} :
    ∀ {xs ys : List α}, (∀ x ∈ xs, ∀ y ∈ ys, f x = f y → x = y) → xs.map f = ys.map f → xs = ys
  | [], [], _, _ => rfl
  | [], _ :: _, _, h => by simp at h
  | _ :: _, [], _, h => by simp at h
  | x :: xs, y :: ys, hInj, h => by
    simp only [List.map_cons, List.cons.injEq] at h
    have hHead : x = y := hInj x (by simp) y (by simp) h.1
    have hTail : xs = ys := map_injective_on
      (fun a ha b hb => hInj a (List.mem_cons_of_mem _ ha) b (List.mem_cons_of_mem _ hb)) h.2
    rw [hHead, hTail]

/-- **Three forms apart.** The fields determine the form: the count tells the
form of six fields, and the kind of the third field tells the logs of the fee
form from a bloom. -/
theorem StorageForm.fields_injective {form' : StorageForm} {c' : Bytes} (hLen : c.length < 2 ^ 64)
    (hLen' : c'.length < 2 ^ 64) (hFits : form.Fits) (hFits' : form'.Fits)
    (hEq : form.fields (Rlp.encodeList c) = form'.fields (Rlp.encodeList c')) :
    form = form' ∧ Rlp.encodeList c = Rlp.encodeList c' := by
  have hStored : ∀ b : Bloom, b.bytes.length < 2 ^ 64 := fun b =>
    b.length_bytes.trans_lt (by decide)
  have hBig : ∀ {x y : Nat}, (Rlp.natBytes x).length < 2 ^ 64 → (Rlp.natBytes y).length < 2 ^ 64 →
      Rlp.encodeString (Rlp.natBytes x) = Rlp.encodeString (Rlp.natBytes y) → x = y :=
    fun hx hy h => Rlp.reads_natField.injective hx hy h
  cases form with
  | bloomed bloom p =>
    cases form' with
    | bloomed bloom' p' =>
      obtain ⟨tx, address, gas⟩ := p
      obtain ⟨tx', address', gas'⟩ := p'
      simp only [fields, List.cons.injEq, and_true] at hEq
      obtain ⟨hBloom, hTx, hAddress, hLogs, hGas⟩ := hEq
      rw [encode_fixed_injective (by decide) hBloom, encode_fixed_injective (by decide) hTx,
        encode_fixed_injective (by decide) hAddress, encode_uint64_injective hGas]
      exact ⟨rfl, hLogs⟩
    | plain p' => exact absurd (congrArg List.length hEq) (by simp [fields])
    | fees f' =>
      -- a string is no list
      simp only [fields, List.cons.injEq] at hEq
      exact absurd hEq.1.symm (Rlp.encodeList_ne_encodeString hLen' (hStored bloom))
  | plain p =>
    cases form' with
    | bloomed | fees => exact absurd (congrArg List.length hEq) (by simp [fields])
    | plain p' =>
      obtain ⟨tx, address, gas⟩ := p
      obtain ⟨tx', address', gas'⟩ := p'
      simp only [fields, List.cons.injEq, and_true] at hEq
      obtain ⟨hTx, hAddress, hLogs, hGas⟩ := hEq
      rw [encode_fixed_injective (by decide) hTx, encode_fixed_injective (by decide) hAddress,
        encode_uint64_injective hGas]
      exact ⟨rfl, hLogs⟩
  | fees f =>
    cases form' with
    | bloomed bloom' p' =>
      simp only [fields, List.cons.injEq] at hEq
      exact absurd hEq.1 (Rlp.encodeList_ne_encodeString hLen (hStored bloom'))
    | plain p' => exact absurd (congrArg List.length hEq) (by simp [fields])
    | fees f' =>
      simp only [fields, List.cons.injEq, and_true] at hEq
      obtain ⟨hLogs, hPrice, hGas, hFee, hScalar⟩ := hEq
      have hPrice := hBig (hFits.gasPrice f rfl) (hFits'.gasPrice f' rfl) hPrice
      have hGas := hBig (hFits.gasUsed f rfl) (hFits'.gasUsed f' rfl) hGas
      have hFee := hBig (hFits.fee f rfl) (hFits'.fee f' rfl) hFee
      have hScalar := Rlp.encodeString_injective (hFits.scalar f rfl) (hFits'.scalar f' rfl) hScalar
      obtain ⟨price, gas, fee, scalar⟩ := f
      obtain ⟨price', gas', fee', scalar'⟩ := f'
      dsimp only at hPrice hGas hFee hScalar
      rw [hPrice, hGas, hFee, hScalar]
      exact ⟨rfl, hLogs⟩

theorem ReceiptRecord.fields_injective {s s' : ReceiptRecord Bytes}
    (hLen : s.fields.flatten.length < 2 ^ 64) (hLen' : s'.fields.flatten.length < 2 ^ 64)
    (hRaw : ∀ x ∈ s.logs, Rlp.IsRaw x) (hRaw' : ∀ x ∈ s'.logs, Rlp.IsRaw x)
    (hEq : s.fields = s'.fields) : s = s' := by
  have hLogLen := ReceiptRecord.length_logs_lt hLen
  have hLogLen' := ReceiptRecord.length_logs_lt hLen'
  have hForms := And.intro (ReceiptRecord.fits hLen) (ReceiptRecord.fits hLen')
  obtain ⟨outcome, gas, form, logs⟩ := s
  obtain ⟨outcome', gas', form', logs'⟩ := s'
  simp only [ReceiptRecord.fields, List.cons.injEq] at hEq
  obtain ⟨hOutcome, hGas, hRest⟩ := hEq
  have hOutcome := ReceiptOutcome.encoding_injective (Rlp.encodeString_injective
    outcome.length_encoding_lt outcome'.length_encoding_lt hOutcome)
  obtain ⟨hForm, hLogs⟩ :=
    StorageForm.fields_injective hLogLen hLogLen' hForms.1 hForms.2 hRest
  have hLogs := Rlp.encodeList_flatten_injective hLogLen hLogLen' hRaw hRaw' hLogs
  dsimp only at hForm hLogs
  rw [hOutcome, encode_uint64_injective hGas, hForm, hLogs]

/-- The logs of a stored receipt fit when the receipt does. -/
theorem StoredReceipt.length_log_lt (hLen : s.raw.fields.flatten.length < 2 ^ 64) {l : StoredLog}
    (hl : l ∈ s.logs) :
    l.fields.flatten.length < 2 ^ 64 := by
  have hMem : l.encode ∈ s.raw.logs := List.mem_map_of_mem hl
  exact lt_of_encodeList
    ((length_le_of_mem_flatten hMem).trans_lt (ReceiptRecord.length_logs_lt hLen))

theorem StoredReceipt.isRaw_logs (hLen : s.raw.fields.flatten.length < 2 ^ 64) :
    ∀ x ∈ s.raw.logs, Rlp.IsRaw x := by
  intro x hx
  obtain ⟨l, hl, rfl⟩ := List.mem_map.mp hx
  exact Rlp.isRaw_encodeList (StoredReceipt.length_log_lt hLen hl)

theorem StoredReceipt.raw_injective {s' : StoredReceipt}
    (hLen : s.raw.fields.flatten.length < 2 ^ 64) (hLen' : s'.raw.fields.flatten.length < 2 ^ 64)
    (hEq : s.raw = s'.raw) : s = s' := by
  have hLogs : s.logs = s'.logs := by
    refine map_injective_on (f := StoredLog.encode) ?_ (congrArg ReceiptRecord.logs hEq)
    intro l hl l' hl' hSame
    exact StoredLog.encode_injective (StoredReceipt.length_log_lt hLen hl)
      (StoredReceipt.length_log_lt hLen' hl') hSame
  obtain ⟨outcome, gas, form, logs⟩ := s
  obtain ⟨outcome', gas', form', logs'⟩ := s'
  simp only [StoredReceipt.raw, ReceiptRecord.mk.injEq] at hEq
  dsimp only at hLogs
  rw [hEq.1, hEq.2.1, hEq.2.2.1, hLogs]

/-- **The bytes determine the form**, the metadata and the logs of a receipt. -/
theorem StoredReceipt.encode_injective {s' : StoredReceipt}
    (hLen : s.raw.fields.flatten.length < 2 ^ 64) (hLen' : s'.raw.fields.flatten.length < 2 ^ 64)
    (hEq : s.encode = s'.encode) : s = s' := by
  have hFields := Rlp.encodeList_flatten_injective hLen hLen' (ReceiptRecord.isRaw_fields hLen)
    (ReceiptRecord.isRaw_fields hLen') hEq
  exact StoredReceipt.raw_injective hLen hLen' (ReceiptRecord.fields_injective hLen hLen'
    (StoredReceipt.isRaw_logs hLen) (StoredReceipt.isRaw_logs hLen') hFields)

/-! ## What the reader accepts -/

private theorem exists_stored {α β γ : Type} {R : α → β → Prop} {P : γ → Prop} {f : γ → α}
    {g : γ → β} (hStored : ∀ x y, R x y → ∃ s, P s ∧ x = f s ∧ y = g s) {xs : List α} {ys : List β}
    (h : List.Forall₂ R xs ys) : ∃ ss : List γ, (∀ s ∈ ss, P s) ∧
    xs = ss.map f ∧ ys = ss.map g := by
  induction h with
  | nil => exact ⟨[], by simp, rfl, rfl⟩
  | @cons x y xs ys hxy _ ih =>
    obtain ⟨s, hs, rfl, rfl⟩ := hStored x y hxy
    obtain ⟨ss, hss, rfl, rfl⟩ := ih
    exact ⟨s :: ss, List.forall_mem_cons.mpr ⟨hs, hss⟩, rfl, rfl⟩

/-- **One receipt.** The reader accepts exactly the encodings of acceptable
receipts, when the context stays alive for its logs. -/
theorem decodeOVMReceiptContext_eq_ok_iff {ctx : Nat → Option Err} {r : Receipt} :
    decodeOVMReceiptContext codec ctx b = .ok r ↔
      ∃ s : StoredReceipt, b = s.encode ∧ s.raw.fields.flatten.length < 2 ^ 64 ∧
        (∀ k < s.logs.length, ctx k = none) ∧ s.Accepted codec ∧ r = s.receipt codec := by
  rw [decodeOVMReceiptContext_record_iff]
  constructor
  · rintro ⟨⟨outcome, gas, form, raws⟩, logs, rfl, hLen, -, hLogs, hChecked, hQuiet, rfl⟩
    obtain ⟨hPolls, hLogs⟩ := decodeOVMLogs_eq_ok_iff.mp hLogs
    obtain ⟨stored, -, hRaws, rfl⟩ := exists_stored (P := fun _ => True) (f := StoredLog.encode)
      (g := StoredLog.log) (fun raw log h => by
        obtain ⟨s, hEnc, -, hLog⟩ := decodeOVMLog_eq_ok_iff.mp h
        exact ⟨s, trivial, hEnc, hLog⟩) hLogs
    dsimp only at hRaws hPolls
    subst hRaws
    rw [content_log] at hChecked
    refine ⟨⟨outcome, gas, form, stored⟩, rfl, hLen, ?_, ⟨hChecked, ?_⟩, ?_⟩
    · intro k hk
      have := hPolls k (by simpa using hk)
      rwa [Nat.zero_add] at this
    · intro hFailed
      simpa using hQuiet hFailed
    · rw [ReceiptRecord.receiptWith, content_log]
      rfl
  · rintro ⟨s, rfl, hLen, hPolls, hAccepted, rfl⟩
    refine ⟨s.raw, s.logs.map StoredLog.log, rfl, hLen, StoredReceipt.isRaw_logs hLen,
      ?_, ?_, ?_, ?_⟩
    · refine decodeOVMLogs_eq_ok_iff.mpr ⟨?_, ?_⟩
      · intro k hk
        rw [Nat.zero_add]
        exact hPolls k (by simpa [StoredReceipt.raw] using hk)
      · rw [StoredReceipt.raw, List.forall₂_map_left_iff, List.forall₂_map_right_iff,
          List.forall₂_same]
        intro l hl
        exact decodeOVMLog_eq_ok_iff.mpr ⟨l, rfl, StoredReceipt.length_log_lt hLen hl, rfl⟩
    · rw [content_log]
      exact hAccepted.checked
    · intro hFailed
      rw [hAccepted.quiet hFailed]
      rfl
    · rw [ReceiptRecord.receiptWith, content_log]
      rfl

/-- The context stays alive from the `n`-th record on. -/
def Answered (ctx : Nat → Option Nat → Option Err) : Nat → List StoredReceipt → Prop
  | _, [] => True
  | n, s :: ss => ctx n none = none ∧ (∀ k < s.logs.length, ctx n (some k) = none) ∧
      Answered ctx (n + 1) ss

/-- The gas never decreases from one receipt to the next. -/
def GasOrdered (rs : List Receipt) : Prop :=
  rs.IsChain fun a b => a.cumulativeGasUsed ≤ b.cumulativeGasUsed

/-- The record loop accepts the encodings of acceptable receipts, in the order of their gas. -/
theorem decodeOVMReceipts_eq_ok_iff {n : Nat} {previous : Option Receipt} :
    decodeOVMReceipts codec ctx n previous records = .ok out ↔
      ∃ stored : List StoredReceipt, records = stored.map StoredReceipt.encode ∧
        (∀ s ∈ stored, s.raw.fields.flatten.length < 2 ^ 64 ∧ s.Accepted codec) ∧
        Answered ctx n stored ∧ GasOrdered (previous.toList ++ out) ∧
        out = stored.map (StoredReceipt.receipt codec) := by
  induction records generalizing n previous out with
  | nil =>
    rw [decodeOVMReceipts, Except.ok.injEq]
    constructor
    · rintro rfl
      refine ⟨[], rfl, by simp, trivial, ?_, rfl⟩
      cases previous <;> simp [GasOrdered]
    · rintro ⟨stored, hNil, -, -, -, rfl⟩
      rw [List.map_eq_nil_iff.mp hNil.symm]
      rfl
  | cons record records ih =>
    simp only [decodeOVMReceipts, bind_eq_ok, polled_eq_ok, wrapping_eq_ok, require_eq_ok,
      pure_eq_ok, Except.ok.injEq, ih, decodeOVMReceiptContext_eq_ok_iff]
    -- the receipt is compared with the one before it
    have hChain : ∀ {r : Receipt} {rs : List Receipt},
        GasOrdered (previous.toList ++ r :: rs) ↔
          (∀ p ∈ previous, p.cumulativeGasUsed ≤ r.cumulativeGasUsed) ∧
            GasOrdered ((some r).toList ++ rs) := by
      intro r rs
      cases previous with
      | none => simp [GasOrdered]
      | some p => simp [GasOrdered]
    constructor
    · rintro ⟨-, hPoll, r, ⟨s, rfl, hLen, hPolls, hAccepted, rfl⟩, -, hGas, rs,
        ⟨stored, rfl, hAll, hAnswered, hOrdered, rfl⟩, rfl⟩
      exact ⟨s :: stored, rfl, List.forall_mem_cons.mpr ⟨⟨hLen, hAccepted⟩, hAll⟩,
        ⟨hPoll, hPolls, hAnswered⟩, hChain.mpr ⟨hGas, hOrdered⟩, rfl⟩
    · rintro ⟨stored, hRecords, hAll, hAnswered, hOrdered, rfl⟩
      cases stored with
      | nil => exact absurd hRecords (by simp)
      | cons s stored =>
        simp only [List.map_cons, List.cons.injEq] at hRecords
        obtain ⟨rfl, rfl⟩ := hRecords
        obtain ⟨hPoll, hPolls, hAnswered⟩ := hAnswered
        obtain ⟨hGas, hOrdered⟩ := hChain.mp hOrdered
        obtain ⟨⟨hLen, hAccepted⟩, hTail⟩ := List.forall_mem_cons.mp hAll
        exact ⟨(), hPoll, s.receipt codec, ⟨s, rfl, hLen, hPolls, hAccepted, rfl⟩, (), hGas, _,
          ⟨stored, rfl, hTail, hAnswered, hOrdered, rfl⟩, rfl⟩

/-- A stored block that fits has receipts that fit. -/
theorem length_stored_lt {n : Nat} (hLen : (stored.map StoredReceipt.encode).flatten.length < n)
    (hs : s ∈ stored) : s.raw.fields.flatten.length < n :=
  lt_of_encodeList ((length_le_of_mem_flatten (List.mem_map_of_mem hs)).trans_lt hLen)

theorem isRaw_stored (hLen : (stored.map StoredReceipt.encode).flatten.length < 2 ^ 64) :
    ∀ x ∈ stored.map StoredReceipt.encode, Rlp.IsRaw x := by
  intro x hx
  obtain ⟨s, hs, rfl⟩ := List.mem_map.mp hx
  exact Rlp.isRaw_encodeList (length_stored_lt hLen hs)

/-- **A block.** The reader accepts exactly the encodings of acceptable receipts
whose gas does not decrease. -/
theorem decodeOVMReceiptsContext_eq_ok_iff {blob : Bytes} :
    decodeOVMReceiptsContext codec ctx blob = .ok out ↔
      ∃ stored : List StoredReceipt, blob = encodeReceipts stored ∧
        (stored.map StoredReceipt.encode).flatten.length < 2 ^ 64 ∧
        (∀ s ∈ stored, s.Accepted codec) ∧ Answered ctx 0 stored ∧ GasOrdered out ∧
        out = stored.map (StoredReceipt.receipt codec) := by
  simp only [decodeOVMReceiptsContext, bind_eq_ok, wrapping_eq_ok, rlpResult_eq_ok,
    Rlp.decode_rawValues_eq_ok_iff, decodeOVMReceipts_eq_ok_iff, Option.toList_none,
      List.nil_append]
  constructor
  · rintro ⟨records, ⟨rfl, hLen, -⟩, stored, rfl, hAll, hAnswered, hOrdered, rfl⟩
    exact ⟨stored, rfl, hLen, fun s hs => (hAll s hs).2, hAnswered, hOrdered, rfl⟩
  · rintro ⟨stored, rfl, hLen, hAccepted, hAnswered, hOrdered, rfl⟩
    exact ⟨_, ⟨rfl, hLen, isRaw_stored hLen⟩, stored, rfl,
      fun s hs => ⟨length_stored_lt hLen hs, hAccepted s hs⟩, hAnswered, hOrdered, rfl⟩

theorem encodeReceipts_injective {stored' : List StoredReceipt}
    (hLen : (stored.map StoredReceipt.encode).flatten.length < 2 ^ 64)
    (hLen' : (stored'.map StoredReceipt.encode).flatten.length < 2 ^ 64)
    (hEq : encodeReceipts stored = encodeReceipts stored') : stored = stored' := by
  have hRecords := Rlp.encodeList_flatten_injective hLen hLen' (isRaw_stored hLen)
    (isRaw_stored hLen') hEq
  refine map_injective_on ?_ hRecords
  intro s hs s' hs' hSame
  exact StoredReceipt.encode_injective (length_stored_lt hLen hs) (length_stored_lt hLen' hs') hSame

/-- A context that is never cancelled. -/
def liveContext : Nat → Option Nat → Option Err := fun _ _ => none

theorem answered_live : ∀ (n : Nat) (stored : List StoredReceipt), Answered liveContext n stored
  | _, [] => trivial
  | n, _ :: stored => ⟨rfl, fun _ _ => rfl, answered_live (n + 1) stored⟩

/-! ## Consensus receipts -/

/-- A receipt as consensus knows it: a failed transaction has no logs. -/
structure ConsensusReceipt where
  outcome : ReceiptOutcome
  gas     : UInt64
  logs    : List LogContent
  quiet   : outcome = .failed → logs = []

/-- The stored receipt is one of the forms of the consensus receipt. -/
structure StoredAs (codec : ReceiptCodec) (r : ConsensusReceipt) (s : StoredReceipt) : Prop where
  outcome  : s.outcome = r.outcome
  gas      : s.gas = r.gas
  contents : s.contents = r.logs
  checked  : s.form.Checked codec (codec.bloomOf r.logs)

/-- The decoded receipt has the content of the consensus receipt, and the bloom
of its logs. -/
structure Rebuilds (codec : ReceiptCodec) (r : ConsensusReceipt) (out : Receipt) : Prop where
  status    : out.status = r.outcome.status
  postState : out.postState = r.outcome.root
  gas       : out.cumulativeGasUsed = r.gas
  logs      : out.logs.map Log.content = r.logs
  bloom     : out.bloom = codec.bloomOf r.logs

theorem StoredAs.accepted {r : ConsensusReceipt} (h : StoredAs codec r s) : s.Accepted codec where
  checked := by
    rw [h.contents]
    exact h.checked
  quiet := by
    intro hFailed
    have hNil : s.contents = [] := by
      rw [h.contents]
      exact r.quiet (h.outcome ▸ hFailed)
    exact List.map_eq_nil_iff.mp hNil

theorem StoredAs.rebuilds {r : ConsensusReceipt} (h : StoredAs codec r s) :
    Rebuilds codec r (s.receipt codec) where
  status := by rw [StoredReceipt.receipt, h.outcome]
  postState := by rw [StoredReceipt.receipt, h.outcome]
  gas := h.gas
  logs := (content_log s.logs).trans h.contents
  bloom := by rw [StoredReceipt.receipt, h.contents]

theorem accepted_of_storedAs {receipts : List ConsensusReceipt}
    (h : List.Forall₂ (StoredAs codec) receipts stored) :
    ∀ s ∈ stored, s.Accepted codec := by
  induction h with
  | nil => simp
  | cons hHead _ ih => exact List.forall_mem_cons.mpr ⟨hHead.accepted, ih⟩

theorem gas_of_storedAs {receipts : List ConsensusReceipt}
    (h : List.Forall₂ (StoredAs codec) receipts stored) :
    (stored.map fun s => s.gas) = receipts.map fun r => r.gas := by
  induction h with
  | nil => rfl
  | cons hHead _ ih => rw [List.map_cons, List.map_cons, ih, hHead.gas]

/-! ## The check against the header -/

/-- `types.EmptyTxsHash`. -/
def emptyTxsHash : Hash := emptyRootHash

/-- The fields of `types.Header` that receipts are checked against. -/
structure ReceiptHeader where
  receiptHash : Hash
  txHash      : Hash
  gasUsed     : UInt64
  bloom       : Bloom
deriving DecidableEq

/-- What `EncodeIndex` encodes: `statusEncoding` and the consensus fields. -/
def Receipt.consensus (r : Receipt) : ReceiptRLP where
  postStateOrStatus :=
    if r.postState.length = 0 then (if r.status = 0 then [] else [1]) else r.postState
  cumulativeGasUsed := r.cumulativeGasUsed
  bloom := r.bloom
  logs := r.logs.map Log.content

/-- `bloom[n] |= receipt.Bloom[n]`. -/
def orBloom (a b : Bloom) : Bloom :=
  ⟨List.zipWith (fun x y => lowByte (x.val ||| y.val)) a.bytes b.bytes, by
    simp [a.length_bytes, b.length_bytes]⟩

/-- `validateOVMReceiptCommitments`. -/
def validateOVMReceiptCommitments (codec : ReceiptCodec) (header : ReceiptHeader)
    (receipts : List Receipt) : Except Err Unit := do
  require (codec.deriveSha (receipts.map Receipt.consensus) = header.receiptHash)
    (.msg "legacy receipt root mismatch" [])
  require (receipts.length = 0 ↔ header.txHash = emptyTxsHash)
    (.msg "legacy receipt presence disagrees with transaction root" [])
  let gas := receipts.foldl (fun _ r => r.cumulativeGasUsed) 0
  let bloom := receipts.foldl (fun bloom r => orBloom bloom r.bloom) (FixedBytes.zero 256)
  require (gas = header.gasUsed ∧ bloom = header.bloom)
    (.msg "legacy receipts disagree with header gas or bloom" [])

/-- The part of `ovmHistoryBlock` that `decode` reads. -/
structure HistoryBlock where
  header            : ReceiptHeader
  raw               : Bytes
  alternateReceipts : Bytes

/-- The second copy of the receipts, which is checked and then dropped. -/
def HistoryBlock.decodeAlternate (codec : ReceiptCodec) (ctx : Nat → Option Nat → Option Err)
    (b : HistoryBlock) : Except Err Unit :=
  if b.alternateReceipts.length ≠ 0 then do
    let alternate ← wrapping "decode overlapping hot receipts: %w" []
      (decodeOVMReceiptsContext codec ctx b.alternateReceipts)
    wrapping "overlapping hot receipts disagree with canonical header: %w" []
      (validateOVMReceiptCommitments codec b.header alternate)
  else .ok ()

/-- `ovmHistoryBlock.decode`; `ctx'` is the context during the second copy. -/
def HistoryBlock.decode (codec : ReceiptCodec) (ctx ctx' : Nat → Option Nat → Option Err)
    (b : HistoryBlock) : Except Err (List Receipt) := do
  let receipts ← decodeOVMReceiptsContext codec ctx b.raw
  validateOVMReceiptCommitments codec b.header receipts
  b.decodeAlternate codec ctx'
  return receipts

/-- The logs that `acceptBlock` hands to `event`: the index of the receipt, the
index of the log in it, and the content, which is all that `event` reads. -/
def blockEvents (receipts : List Receipt) : List (Nat × Nat × LogContent) :=
  receipts.zipIdx.flatMap fun p => p.1.logs.zipIdx.map fun q => (p.2, q.2, q.1.content)

/-- The events are a function of what the receipt root covers. -/
theorem blockEvents_eq_of_consensus {receipts' : List Receipt}
    (h : receipts.map Receipt.consensus = receipts'.map Receipt.consensus) :
    blockEvents receipts = blockEvents receipts' := by
  have hView : ∀ rs : List Receipt, blockEvents rs =
      (rs.map Receipt.consensus).zipIdx.flatMap fun p =>
        p.1.logs.zipIdx.map fun q => (p.2, q.2, q.1) := by
    intro rs
    rw [blockEvents, List.zipIdx_map, List.flatMap_map]
    refine List.flatMap_congr fun p _ => ?_
    rw [Prod.map, Receipt.consensus, List.zipIdx_map, List.map_map]
    rfl
  rw [hView, hView, h]

/-- No two lists of receipts at hand have one root. -/
def RootsApart (codec : ReceiptCodec) (receipts receipts' : List Receipt) : Prop :=
  codec.deriveSha (receipts.map Receipt.consensus) =
      codec.deriveSha (receipts'.map Receipt.consensus) →
    receipts.map Receipt.consensus = receipts'.map Receipt.consensus

theorem validateOVMReceiptCommitments_root {header : ReceiptHeader} {u : Unit}
    (h : validateOVMReceiptCommitments codec header receipts = .ok u) :
    codec.deriveSha (receipts.map Receipt.consensus) = header.receiptHash := by
  simp only [validateOVMReceiptCommitments, bind_eq_ok, require_eq_ok] at h
  obtain ⟨-, hRoot, -⟩ := h
  exact hRoot

/-- Two copies that pass the check of one header have the same events. -/
theorem blockEvents_eq_of_commitments {header : ReceiptHeader} {receipts' : List Receipt}
    {u u' : Unit} (hApart : RootsApart codec receipts receipts')
    (h : validateOVMReceiptCommitments codec header receipts = .ok u)
    (h' : validateOVMReceiptCommitments codec header receipts' = .ok u') :
    blockEvents receipts = blockEvents receipts' := by
  refine blockEvents_eq_of_consensus (hApart ?_)
  rw [validateOVMReceiptCommitments_root h, validateOVMReceiptCommitments_root h']

/-- A block with two copies of its receipts is accepted when both pass. -/
theorem HistoryBlock.decode_copies {ctx' : Nat → Option Nat → Option Err} {b : HistoryBlock}
    (h : b.decode codec ctx ctx' = .ok receipts) (hAlternate : b.alternateReceipts ≠ []) :
    validateOVMReceiptCommitments codec b.header receipts = .ok () ∧
      ∃ alternate, decodeOVMReceiptsContext codec ctx' b.alternateReceipts = .ok alternate ∧
        validateOVMReceiptCommitments codec b.header alternate = .ok () := by
  have hNe : b.alternateReceipts.length ≠ 0 := by simpa using hAlternate
  simp only [HistoryBlock.decode, bind_eq_ok, pure_eq_ok, Except.ok.injEq,
    HistoryBlock.decodeAlternate, if_pos hNe, wrapping_eq_ok] at h
  obtain ⟨receipts, -, _, hCheck, _, ⟨alternate, hDecode, hCheck'⟩, rfl⟩ := h
  exact ⟨hCheck, alternate, hDecode, hCheck'⟩

/-! ## Main result -/

/-- The reader refuses the input whatever the context answers. -/
def Refused (codec : ReceiptCodec) (blob : Bytes) : Prop :=
  ∀ ctx, ∃ e, decodeOVMReceiptsContext codec ctx blob = .error e

theorem refused_of_forall_ne {blob : Bytes}
    (h : ∀ ctx out, decodeOVMReceiptsContext codec ctx blob ≠ .ok out) : Refused codec blob := by
  intro ctx
  cases hRun : decodeOVMReceiptsContext codec ctx blob with
  | ok out => exact absurd hRun (h ctx out)
  | error e => exact ⟨e, rfl⟩

/-- A record with known fields of an accepted block is a stored receipt. -/
theorem stored_of_mem {fields : List Bytes}
    (hLen : (Rlp.encodeList records.flatten).length < 2 ^ 63) (hRaw : ∀ x ∈ records, Rlp.IsRaw x)
    (hMem : Rlp.encodeList fields.flatten ∈ records)
    (h : decodeOVMReceiptsContext codec ctx (Rlp.encodeList records.flatten) = .ok out) :
    fields.flatten.length < 2 ^ 64 ∧ ∃ s : StoredReceipt, s.raw.fields.flatten.length < 2 ^ 64 ∧
      ((∀ x ∈ fields, Rlp.IsRaw x) → s.raw.fields = fields) := by
  have hLen : records.flatten.length < 2 ^ 64 := (lt_of_encodeList hLen).trans (by decide)
  have hFieldsLen : fields.flatten.length < 2 ^ 64 :=
    lt_of_encodeList ((length_le_of_mem_flatten hMem).trans_lt hLen)
  obtain ⟨stored, hBlob, hStored, -⟩ := decodeOVMReceiptsContext_eq_ok_iff.mp h
  obtain rfl := Rlp.encodeList_flatten_injective hLen hStored hRaw (isRaw_stored hStored) hBlob
  obtain ⟨s, hs, hEnc⟩ := List.mem_map.mp hMem
  have hFits := length_stored_lt hStored hs
  exact ⟨hFieldsLen, s, hFits, fun hFields => Rlp.encodeList_flatten_injective hFits hFieldsLen
    (ReceiptRecord.isRaw_fields hFits) hFields hEnc⟩

/-- A stored block with decreasing gas, a wrong bloom, or logs of a failed
transaction. -/
def Unacceptable (codec : ReceiptCodec) (stored : List StoredReceipt) : Prop :=
  ¬ (stored.map fun s => s.gas).IsChain (· ≤ ·) ∨
    ∃ s ∈ stored,
      (∃ bloom place, s.form = .bloomed bloom place ∧ bloom ≠ codec.bloomOf s.contents) ∨
        (s.outcome = .failed ∧ s.logs ≠ [])

theorem gasOrdered_iff :
    GasOrdered (stored.map (StoredReceipt.receipt codec)) ↔
      (stored.map fun s => s.gas).IsChain (· ≤ ·) := by
  rw [GasOrdered, List.isChain_map, List.isChain_map]
  rfl

/-- A block that breaks a rule is refused. -/
theorem refused_of_unacceptable (hLen : (encodeReceipts stored).length < 2 ^ 63)
    (hBad : Unacceptable codec stored) :
    Refused codec (encodeReceipts stored) := by
  refine refused_of_forall_ne fun ctx out h => ?_
  obtain ⟨stored', hBlob, hLen', hAccepted, -, hOrdered, rfl⟩ :=
    decodeOVMReceiptsContext_eq_ok_iff.mp h
  have hLen : (stored.map StoredReceipt.encode).flatten.length < 2 ^ 64 :=
    (lt_of_encodeList hLen).trans (by decide)
  -- the accepted block is the given one, because its bytes are
  obtain rfl := encodeReceipts_injective hLen hLen' hBlob
  rcases hBad with hGas | ⟨s, hs, ⟨bloom, place, hForm, hNe⟩ | ⟨hFailed, hLogs⟩⟩
  · exact hGas (gasOrdered_iff.mp hOrdered)
  · have hChecked := (hAccepted s hs).checked
    rw [hForm] at hChecked
    exact hNe hChecked
  · exact hLogs ((hAccepted s hs).quiet hFailed)

theorem StoredLog.length_fields (s : StoredLog) : s.fields.length = 3 ∨ s.fields.length = 8 := by
  obtain ⟨content, place⟩ := s
  cases place with
  | none => exact .inl rfl
  | some p => exact .inr rfl

/-- A record with another number of fields. -/
theorem refused_of_field_count {fields : List Bytes}
    (hLen : (Rlp.encodeList records.flatten).length < 2 ^ 63) (hRaw : ∀ x ∈ records, Rlp.IsRaw x)
    (hMem : Rlp.encodeList fields.flatten ∈ records) (hFields : ∀ x ∈ fields, Rlp.IsRaw x)
    (hCount : fields.length ≠ 6 ∧ fields.length ≠ 7) :
    Refused codec (Rlp.encodeList records.flatten) := by
  refine refused_of_forall_ne fun ctx out h => ?_
  obtain ⟨-, s, -, hSame⟩ := stored_of_mem hLen hRaw hMem h
  obtain rfl := hSame hFields
  exact s.raw.length_fields.elim hCount.1 hCount.2

/-- A receipt in one of the forms whose log has another number of fields. -/
theorem refused_of_log_field_count {fields : List Bytes} {r : ReceiptRecord Bytes}
    (hLen : (Rlp.encodeList records.flatten).length < 2 ^ 63) (hRaw : ∀ x ∈ records, Rlp.IsRaw x)
    (hMem : Rlp.encodeList r.fields.flatten ∈ records) (hLogs : ∀ x ∈ r.logs, Rlp.IsRaw x)
    (hLog : Rlp.encodeList fields.flatten ∈ r.logs) (hFields : ∀ x ∈ fields, Rlp.IsRaw x)
    (hCount : fields.length ≠ 3 ∧ fields.length ≠ 8) :
    Refused codec (Rlp.encodeList records.flatten) := by
  refine refused_of_forall_ne fun ctx out h => ?_
  obtain ⟨hRecordLen, s, hFits, hSame⟩ := stored_of_mem hLen hRaw hMem h
  have hSame := hSame (ReceiptRecord.isRaw_fields hRecordLen)
  obtain rfl := ReceiptRecord.fields_injective hFits hRecordLen (StoredReceipt.isRaw_logs hFits)
    hLogs hSame
  obtain ⟨l, hl, hEncLog⟩ := List.mem_map.mp hLog
  have hLogFits := StoredReceipt.length_log_lt hFits hl
  have hFieldsLen : fields.flatten.length < 2 ^ 64 :=
    lt_of_encodeList ((length_le_of_mem_flatten hLog).trans_lt
      (ReceiptRecord.length_logs_lt hFits))
  obtain rfl : l.fields = fields := Rlp.encodeList_flatten_injective hLogFits hFieldsLen
    (StoredLog.isRaw_fields hLogFits) hFields hEncLog
  exact l.length_fields.elim hCount.1 hCount.2

/-- **Legacy receipts decode unambiguously to one consensus receipt.** Inputs are
byte slices, shorter than `2 ^ 63`.

* Whatever form is chosen for each receipt and each log, the reader returns the
  consensus receipts.
* An accepted input is the encoding of one list of stored receipts, so each of
  its receipts has one form.
* Decreasing gas, a wrong bloom, logs of a failed transaction and other field
  counts are refused.
* Two copies that pass the receipt root of one header have the same events, when
  the root tells them apart. -/
theorem legacy_receipts_decode_unambiguously (codec : ReceiptCodec) :
    (∀ (receipts : List ConsensusReceipt) (stored : List StoredReceipt),
      List.Forall₂ (StoredAs codec) receipts stored →
      (receipts.map fun r => r.gas).IsChain (· ≤ ·) → (encodeReceipts stored).length < 2 ^ 63 →
      ∃ out, decodeOVMReceiptsContext codec liveContext (encodeReceipts stored) = .ok out ∧
        List.Forall₂ (Rebuilds codec) receipts out) ∧
    (∀ ctx blob out, blob.length < 2 ^ 63 → decodeOVMReceiptsContext codec ctx blob = .ok out →
      ∃ stored, blob = encodeReceipts stored ∧ out = stored.map (StoredReceipt.receipt codec) ∧
        ∀ stored', blob = encodeReceipts stored' → stored' = stored) ∧
    (∀ stored, (encodeReceipts stored).length < 2 ^ 63 → Unacceptable codec stored →
      Refused codec (encodeReceipts stored)) ∧
    (∀ records fields : List Bytes, (Rlp.encodeList records.flatten).length < 2 ^ 63 →
      (∀ x ∈ records, Rlp.IsRaw x) → (∀ x ∈ fields, Rlp.IsRaw x) →
      (Rlp.encodeList fields.flatten ∈ records ∧ fields.length ≠ 6 ∧ fields.length ≠ 7 ∨
        (∃ r : ReceiptRecord Bytes, Rlp.encodeList r.fields.flatten ∈ records ∧
          (∀ x ∈ r.logs, Rlp.IsRaw x) ∧ Rlp.encodeList fields.flatten ∈ r.logs) ∧
            fields.length ≠ 3 ∧ fields.length ≠ 8) →
      Refused codec (Rlp.encodeList records.flatten)) ∧
    (∀ header ctx ctx' blob blob' receipts receipts',
      decodeOVMReceiptsContext codec ctx blob = .ok receipts →
      decodeOVMReceiptsContext codec ctx' blob' = .ok receipts' →
      validateOVMReceiptCommitments codec header receipts = .ok () →
      validateOVMReceiptCommitments codec header receipts' = .ok () →
      RootsApart codec receipts receipts' → blockEvents receipts = blockEvents receipts') ∧
    ∀ (b : HistoryBlock) ctx ctx' receipts, b.decode codec ctx ctx' = .ok receipts →
      b.alternateReceipts ≠ [] →
      ∃ alternate, decodeOVMReceiptsContext codec ctx' b.alternateReceipts = .ok alternate ∧
        (RootsApart codec receipts alternate → blockEvents receipts = blockEvents alternate) := by
  refine ⟨?_, ?_, fun stored hLen hBad => refused_of_unacceptable hLen hBad, ?_, ?_, ?_⟩
  · intro receipts stored hStored hGas hLen
    refine ⟨stored.map (StoredReceipt.receipt codec), ?_, ?_⟩
    · refine decodeOVMReceiptsContext_eq_ok_iff.mpr ⟨stored, rfl,
        (lt_of_encodeList hLen).trans (by decide), accepted_of_storedAs hStored,
        answered_live 0 stored, ?_, rfl⟩
      rw [gasOrdered_iff, gas_of_storedAs hStored]
      exact hGas
    · rw [List.forall₂_map_right_iff]
      exact hStored.imp fun _ _ h => h.rebuilds
  · intro ctx blob out hLen h
    obtain ⟨stored, rfl, hStored, -, -, -, rfl⟩ := decodeOVMReceiptsContext_eq_ok_iff.mp h
    refine ⟨stored, rfl, rfl, ?_⟩
    intro stored' hBlob
    rw [hBlob] at hLen
    exact (encodeReceipts_injective hStored ((lt_of_encodeList hLen).trans (by decide)) hBlob).symm
  · rintro records fields hLen hRaw hFields (⟨hMem, hCount⟩ | ⟨⟨r, hMem, hLogs, hLog⟩, hCount⟩)
    · exact refused_of_field_count hLen hRaw hMem hFields hCount
    · exact refused_of_log_field_count hLen hRaw hMem hLogs hLog hFields hCount
  · intro header ctx ctx' blob blob' receipts receipts' _ _ h h' hApart
    exact blockEvents_eq_of_commitments hApart h h'
  · intro b ctx ctx' receipts h hAlternate
    obtain ⟨hReceipts, alternate, hDecode, hCheck⟩ := HistoryBlock.decode_copies h hAlternate
    exact ⟨alternate, hDecode, fun hApart => blockEvents_eq_of_commitments hApart hReceipts hCheck⟩

/-- A codec to evaluate the reader with: the bloom counts the logs, decimals are
digits and points, and the root adds up the gas. -/
def tallyCodec : ReceiptCodec where
  createBloom logs := ⟨lowByte logs.length :: List.replicate 255 0, by
    rw [List.length_cons, List.length_replicate]⟩
  parseFloat s := require (s.all fun d => d.val = 46 ∨ (48 ≤ d.val ∧ d.val < 58))
    (.outside "number")
  deriveSha receipts := hashOfNat (receipts.map fun r => r.cumulativeGasUsed.toNat).sum

/-- A transfer log. -/
def tallyLog : LogContent := ⟨FixedBytes.zero 20, [zeroHash, zeroHash], [1, 2, 3]⟩

/-- Three receipts of a block: a failed one, one with two logs, and one with a
post-state. -/
def tallyReceipts : List ConsensusReceipt :=
  [⟨.failed, 21000, [], fun _ => rfl⟩, ⟨.succeeded, 60000, [tallyLog, tallyLog], nofun⟩,
    ⟨.postState zeroHash, 60000, [tallyLog], nofun⟩]

/-- The same receipts, each in another form, with logs of both forms. -/
def tallyStored : List StoredReceipt :=
  let place : ReceiptPlace := ⟨zeroHash, FixedBytes.zero 20, 21000⟩
  [⟨.failed, 21000, .bloomed (tallyCodec.bloomOf []) place, []⟩,
    ⟨.succeeded, 60000, .fees ⟨1, 2, 300, [49, 46, 50, 53]⟩,
    [⟨tallyLog, none⟩, ⟨tallyLog, some .zero⟩]⟩,
      ⟨.postState zeroHash, 60000, .plain place, [⟨tallyLog, some .zero⟩]⟩]

/-- The mixed block is read back, and with the bloom of another block in front it
is refused. -/
theorem legacy_receipts_sample :
    (∃ out, decodeOVMReceiptsContext tallyCodec liveContext (encodeReceipts tallyStored) = .ok out ∧
      List.Forall₂ (Rebuilds tallyCodec) tallyReceipts out) ∧
    Refused tallyCodec (encodeReceipts
      [⟨.failed, 1, .bloomed (tallyCodec.bloomOf [tallyLog]) ⟨zeroHash, FixedBytes.zero 20, 1⟩,
        []⟩]) := by
  have hAll := legacy_receipts_decode_unambiguously tallyCodec
  refine ⟨hAll.1 tallyReceipts tallyStored ?_ ?_ ?_, hAll.2.2.1 _ ?_
    (.inr ⟨_, List.mem_cons_self, .inl ?_⟩)⟩
  · exact .cons ⟨rfl, rfl, rfl, rfl⟩
      (.cons ⟨rfl, rfl, rfl, .inr (by decide)⟩ (.cons ⟨rfl, rfl, rfl, trivial⟩ .nil))
  · decide
  · decide +kernel
  · decide +kernel
  · refine ⟨_, _, rfl, ?_⟩
    decide +kernel

end L2State
