import L2State.Lib.Unique
import L2State.Ovm.AllocInput
import L2State.Geth.Reference

/-!
# L2State — duplicates in the operator's input

Two inputs list keys that may occur once: the addresses and storage slots of a
GenesisAlloc file (`ovmAllocLoader.unique` of `ovm_alloc_input.go`) and the
addresses of the ERC20 retain list (`addOVMRetainAddress` of
`ovm_retention.go`). Both keep the keys of the unflushed batch in memory and
look up older ones in the database, so both are the writer of `Lib.Unique`.

* `AllocLoader.uniqueAt`, `RetainLoader.addAt` — the two calls, with the
  decision to flush as an argument.
* `parseOVMRetainAddress` — the check of one line.
* `hexNumber` — **which spellings are the same key**: those of one number.
* `AllocTracked`, `RetainTracked` — what a run of calls leaves.
-/

namespace L2State

open Lib

/-! ## The two calls -/

/-- `batch.ValueSize() >= ethdb.IdealBatchSize`. -/
def isFull (batch : List DbOp) : Bool := idealBatchSize ≤ (batch.map opSize).sum

/-- `unique`, with the decision to flush as an argument. -/
def AllocLoader.uniqueAt (flush : Bool) (l : AllocLoader) (key value : Bytes) :
    Except Err AllocLoader := do
  require (key ∉ l.pending) (.msg "duplicate GenesisAlloc address or storage slot" [])
  require (l.index.db.get? key = none) (.msg "duplicate GenesisAlloc address or storage slot" [])
  let index : OvmIndex := ⟨l.index.db, l.index.batch ++ [.put key value]⟩
  return if flush then ⟨index.flush, []⟩ else ⟨index, key :: l.pending⟩

/-- **The code flushes when the batch is full.** -/
theorem AllocLoader.unique_eq_uniqueAt (l : AllocLoader) (key value : Bytes) :
    l.unique key value = l.uniqueAt (isFull (l.index.batch ++ [.put key value])) key value := by
  have hNext : (⟨l.index.push (.put key value),
      if (l.index.push (.put key value)).batch = [] then [] else key :: l.pending⟩ : AllocLoader) =
      if isFull (l.index.batch ++ [.put key value]) then
        ⟨(OvmIndex.mk l.index.db (l.index.batch ++ [.put key value])).flush, []⟩
      else ⟨⟨l.index.db, l.index.batch ++ [.put key value]⟩, key :: l.pending⟩ := by
    unfold OvmIndex.push isFull
    by_cases hSize : ((l.index.batch ++ [Op.put key value]).map opSize).sum < idealBatchSize
    · rw [if_pos hSize, if_neg (by simp), if_neg (by simpa using hSize)]
    · rw [if_neg hSize, if_pos (by simp), if_pos (by simpa using hSize)]
  unfold AllocLoader.unique AllocLoader.uniqueAt
  simp only [hNext]

/-- The index, and the addresses that are in its batch. -/
structure RetainLoader where
  index   : OvmIndex
  pending : List Address

/-- The two writes for an address: its membership and its balance slot. -/
def retainOps (g : Geth) (address : Address) : List DbOp :=
  .put (tag 'R' :: address.bytes) [1] :: addressOps g address

/-- `addOVMRetainAddress`, with the decision to flush as an argument. -/
def RetainLoader.addAt (g : Geth) (flush : Bool) (l : RetainLoader) (address : Address) :
    Except Err RetainLoader := do
  require (address ∉ l.pending) (.msg "duplicate ERC20 retain address" [])
  require (l.index.get 'R' address.bytes = none) (.msg "duplicate ERC20 retain address" [])
  let index : OvmIndex := ⟨l.index.db, l.index.batch ++ retainOps g address⟩
  return if flush then ⟨index.flush, []⟩ else ⟨index, address :: l.pending⟩

/-- `addOVMRetainAddress`. -/
def addOVMRetainAddress (g : Geth) (l : RetainLoader) (address : Address) :
    Except Err RetainLoader :=
  l.addAt g (isFull (l.index.batch ++ retainOps g address)) address

/-! ## The retain list -/

/-- The reader of a line. -/
structure RetainDecoders where
  /-- `common.Address.UnmarshalText`. -/
  address : String → Except Err Address

/-- `parseOVMRetainAddress`. -/
def parseOVMRetainAddress (dec : RetainDecoders) (text : String) : Except Err Address := do
  require (text.utf8ByteSize = 42 ∧ ['0', 'x'].isPrefixOf text.toList)
    (.msg "expected one 0x-prefixed 20-byte address" [])
  let address ← dec.address text
  require (address ≠ ovmETHAddress)
    (.msg "OVM_ETH must not appear in the ERC20 retain list; its self balance is already retained"
      [])
  return address

/-! ## Spellings -/

/-- The number that a text spells in hex, where a leading `0x` counts nothing. -/
def hexNumber (text : String) : Nat :=
  text.toList.foldl (fun n c => 16 * n + (hexDigit c).getD 0) 0

theorem hexDigit_lt {c : Char} {d : Nat} (h : hexDigit c = some d) : d < 16 := by
  have hRange : ∀ {lo hi : Char}, lo ≤ c ∧ c ≤ hi → lo.toNat ≤ c.toNat ∧ c.toNat ≤ hi.toNat :=
    fun h => h
  unfold hexDigit at h
  split_ifs at h with h₁ h₂ h₃
  · obtain ⟨hLo, hHi⟩ := hRange h₁
    obtain rfl := Option.some.inj h
    have : '9'.toNat = 57 := rfl
    have : '0'.toNat = 48 := rfl
    omega
  · obtain ⟨hLo, hHi⟩ := hRange h₂
    obtain rfl := Option.some.inj h
    have : 'a'.toNat = 97 := rfl
    have : 'f'.toNat = 102 := rfl
    omega
  · obtain ⟨hLo, hHi⟩ := hRange h₃
    obtain rfl := Option.some.inj h
    have : 'A'.toNat = 65 := rfl
    have : 'F'.toNat = 70 := rfl
    omega

/-- What `hex.Decode` accepts: pairs of digits, a byte each. -/
theorem hexDecode_cons_eq_ok {a b : Char} {rest : List Char} {bytes : Bytes}
    (h : hexDecode (a :: b :: rest) = .ok bytes) :
    ∃ x y tail, hexDigit a = some x ∧ hexDigit b = some y ∧ hexDecode rest = .ok tail ∧
      bytes = lowByte (16 * x + y) :: tail := by
  rw [hexDecode] at h
  cases ha : hexDigit a with
  | none => simp [ha] at h
  | some x =>
    cases hb : hexDigit b with
    | none => simp [ha, hb] at h
    | some y =>
      cases hRest : hexDecode rest with
      | error e => simp [ha, hb, hRest, Except.map] at h
      | ok tail =>
        exact ⟨x, y, tail, rfl, rfl, rfl, by simpa [ha, hb, hRest, Except.map] using h.symm⟩

/-- The bytes of a hex string have the number that it spells. -/
theorem hexDecode_number {digits : List Char} {bytes : Bytes} (h : hexDecode digits = .ok bytes)
    (n : Nat) :
    bytes.foldl (fun acc d => acc * 256 + d.val) n =
        digits.foldl (fun n c => 16 * n + (hexDigit c).getD 0) n ∧
      2 * bytes.length = digits.length := by
  induction digits using List.twoStepInduction generalizing bytes n with
  | nil =>
    obtain rfl := Except.ok.inj h
    exact ⟨rfl, rfl⟩
  | singleton c => cases h
  | cons_cons a b rest ih _ =>
    obtain ⟨x, y, tail, ha, hb, hTail, rfl⟩ := hexDecode_cons_eq_ok h
    have hx := hexDigit_lt ha
    have hy := hexDigit_lt hb
    have hByte : (lowByte (16 * x + y)).val = 16 * x + y := Nat.mod_eq_of_lt (by omega)
    have hTwo : n * 256 + (16 * x + y) = 16 * (16 * n + x) + y := by ring
    obtain ⟨hNumber, hLength⟩ := ih hTail (16 * (16 * n + x) + y)
    constructor
    · simp only [List.foldl_cons, ha, hb, Option.getD_some, hByte]
      rw [hTwo, hNumber]
    · simp only [List.length_cons]
      omega

theorem trimHex_number (text : List Char) (f : Nat → Char → Nat)
    (hf : ∀ n c, f n c = 16 * n + (hexDigit c).getD 0) :
    (trimHex text).foldl f 0 = text.foldl f 0 := by
  unfold trimHex
  split
  · next rest =>
    have hZero : f 0 '0' = 0 := by rw [hf]; decide
    have hX : f 0 'x' = 0 := by rw [hf]; decide
    rw [List.foldl_cons, List.foldl_cons, hZero, hX]
  · rfl

/-- **A storage word is the number that its text spells.** -/
theorem decodeOVMAllocWord_number {text : String} {word : Hash}
    (h : decodeOVMAllocWord text = .ok word) : ofBE word.bytes = hexNumber text := by
  obtain ⟨⟨⟩, hSize, hk⟩ := bind_eq_ok.mp h
  obtain ⟨bytes, hBytes, hEq⟩ := bind_eq_ok.mp hk
  obtain rfl := Except.ok.inj hEq
  rw [require_eq_ok] at hSize
  have hChars : ∀ l : List Char, l.length ≤ (l.map Char.utf8Size).sum := by
    intro l
    induction l with
    | nil => simp
    | cons c l ih =>
      have := Char.utf8Size_pos c
      simp only [List.length_cons, List.map_cons, List.sum_cons]
      omega
  have hLength : bytes.length ≤ 32 := by
    have h₁ := (hexDecode_number hBytes 0).2
    have h₂ := hChars (trimHex text.toList)
    omega
  calc ofBE (FixedBytes.ofBytes 32 bytes).bytes
      = ofBE bytes := by
        have hDrop : bytes.drop (bytes.length - 32) = bytes := by
          rw [Nat.sub_eq_zero_of_le hLength, List.drop_zero]
        show ofBE (List.replicate (32 - bytes.length) 0 ++ bytes.drop (bytes.length - 32)) = _
        rw [hDrop, ofBE_replicate_zero_append]
    _ = (trimHex text.toList).foldl (fun n c => 16 * n + (hexDigit c).getD 0) 0 :=
        (hexDecode_number hBytes 0).1
    _ = hexNumber text := trimHex_number _ _ fun _ _ => rfl

/-- Two spellings of a storage word name the same one exactly if they spell the
same number. -/
theorem decodeOVMAllocWord_eq_iff {s t : String} {x y : Hash} (hs : decodeOVMAllocWord s = .ok x)
    (ht : decodeOVMAllocWord t = .ok y) : x = y ↔ hexNumber s = hexNumber t := by
  rw [← decodeOVMAllocWord_number hs, ← decodeOVMAllocWord_number ht]
  constructor
  · rintro rfl
    rfl
  · intro h
    apply FixedBytes.ext
    rw [← toBE_ofBE x.bytes, ← toBE_ofBE y.bytes, h, x.length_bytes, y.length_bytes]

/-- A reader of addresses that ignores the spelling: geth's readers take 40 hex
digits of either case after an optional `0x`. -/
def ReadsNumbers (read : String → Except Err Address) : Prop :=
  ∀ s t a b, read s = .ok a → read t = .ok b → (a = b ↔ hexNumber s = hexNumber t)

/-! ## Keys -/

/-- What a GenesisAlloc file may mention once: an account, or a slot of one. -/
inductive AllocKey
  | account (address : Address)
  | slot (owner : Address) (slot : Hash)
deriving DecidableEq

/-- The key of the record. -/
def AllocKey.bytes (g : Geth) : AllocKey → Bytes
  | .account a => allocAccountKey (accountKey g a)
  | .slot o s => allocSlotKey g (accountKey g o) s

/-- A key of the namespaces `G` and `H`. -/
def isAllocInputKey (k : Bytes) : Bool := k.head? = some (tag 'G') || k.head? = some (tag 'H')

/-- A key of the namespace `R`. -/
def isRetainKey (k : Bytes) : Bool := k.head? = some (tag 'R')

/-- The hashes of addresses, of slots and of balance slots do not collide. -/
structure KeysApart (g : Geth) : Prop where
  account : Function.Injective (accountKey g)
  slot    : Function.Injective (ovmStorageHash g)
  balance : Function.Injective (balanceKey g)

theorem AllocKey.isAllocInputKey_bytes (g : Geth) (k : AllocKey) :
    isAllocInputKey (k.bytes g) = true := by
  cases k <;> rfl

/-- Keys of different records differ. -/
theorem AllocKey.bytes_injective {g : Geth} (h : KeysApart g) :
    Function.Injective (AllocKey.bytes g) := by
  have hTags : tag 'G' ≠ tag 'H' := by decide
  intro k k' hEq
  cases k with
  | account a =>
    cases k' with
    | account a' =>
      obtain ⟨-, hOwner⟩ := List.cons.inj hEq
      rw [h.account (FixedBytes.bytes_injective hOwner)]
    | slot o' s' => exact absurd (List.cons.inj hEq).1 hTags
  | slot o s =>
    cases k' with
    | account a' => exact absurd (List.cons.inj hEq).1.symm hTags
    | slot o' s' =>
      -- the owners have one length, so that the keys split in one way
      have hLength : (accountKey g o).bytes.length = (accountKey g o').bytes.length := by
        rw [FixedBytes.length_bytes, FixedBytes.length_bytes]
      obtain ⟨hOwner, hSlot⟩ := List.append_inj (List.cons.inj hEq).2 hLength
      rw [h.account (FixedBytes.bytes_injective hOwner), h.slot (FixedBytes.bytes_injective hSlot)]

/-- What the file calls it. -/
inductive AllocName
  | account (address : String)
  | slot (owner slot : String)
deriving DecidableEq

namespace AllocName

/-- The key that a name stands for. -/
def read (address : String → Except Err Address) : AllocName → Except Err AllocKey
  | .account a => do
    let a ← address a
    return .account a
  | .slot o s => do
    let o ← address o
    let s ← decodeOVMAllocWord s
    return .slot o s

/-- A name without its spelling: the numbers of the address and of the slot. -/
def normal : AllocName → Nat × Option Nat
  | .account a => (hexNumber a, none)
  | .slot o s => (hexNumber o, some (hexNumber s))

/-- **Two names stand for one key exactly if they differ in spelling only.** -/
theorem read_eq_iff {address : String → Except Err Address} (hReads : ReadsNumbers address)
    {n n' : AllocName} {k k' : AllocKey} (hn : n.read address = .ok k)
    (hn' : n'.read address = .ok k') : k = k' ↔ n.normal = n'.normal := by
  cases n with
  | account a =>
    obtain ⟨x, hx, hk⟩ := bind_eq_ok.mp hn
    obtain rfl := Except.ok.inj hk
    cases n' with
    | account a' =>
      obtain ⟨x', hx', hk'⟩ := bind_eq_ok.mp hn'
      obtain rfl := Except.ok.inj hk'
      simp [normal, hReads _ _ _ _ hx hx']
    | slot o' s' =>
      obtain ⟨x', -, hk'⟩ := bind_eq_ok.mp hn'
      obtain ⟨y', -, hk'⟩ := bind_eq_ok.mp hk'
      obtain rfl := Except.ok.inj hk'
      simp [normal]
  | slot o s =>
    obtain ⟨x, hx, hk⟩ := bind_eq_ok.mp hn
    obtain ⟨y, hy, hk⟩ := bind_eq_ok.mp hk
    obtain rfl := Except.ok.inj hk
    cases n' with
    | account a' =>
      obtain ⟨x', -, hk'⟩ := bind_eq_ok.mp hn'
      obtain rfl := Except.ok.inj hk'
      simp [normal]
    | slot o' s' =>
      obtain ⟨x', hx', hk'⟩ := bind_eq_ok.mp hn'
      obtain ⟨y', hy', hk'⟩ := bind_eq_ok.mp hk'
      obtain rfl := Except.ok.inj hk'
      simp [normal, hReads _ _ _ _ hx hx', decodeOVMAllocWord_eq_iff hy hy']

end AllocName

/-! ## Runs of calls -/

/-- A call of `unique` for a name in the file, flushing or not. -/
structure AllocCall (address : String → Except Err Address) where
  name    : AllocName
  key     : AllocKey
  spelled : name.read address = .ok key
  value   : Bytes
  flush   : Bool

/-- A call of `addOVMRetainAddress` for a line of the list, flushing or not. -/
structure RetainCall (dec : RetainDecoders) where
  text    : String
  address : Address
  spelled : parseOVMRetainAddress dec text = .ok address
  flush   : Bool

section Runs

variable (g : Geth) {address : String → Except Err Address} {dec : RetainDecoders}

/-- A sequence of calls of `unique`. -/
def AllocLoader.uniqueAll (l : AllocLoader) (calls : List (AllocCall address)) :
    Except Err AllocLoader :=
  calls.foldlM (fun l c => l.uniqueAt c.flush (c.key.bytes g) c.value) l

/-- A sequence of calls of `addOVMRetainAddress`. -/
def RetainLoader.addAll (l : RetainLoader) (calls : List (RetainCall dec)) :
    Except Err RetainLoader :=
  calls.foldlM (fun l c => l.addAt g c.flush c.address) l

/-- The loader after accepted calls: pending and stored keys are those of the
calls, and a flush leaves exactly their records. -/
structure AllocTracked (start : OvmIndex) (calls : List (AllocCall address)) (l : AllocLoader) :
    Prop where
  pending : ∀ k ∈ l.pending, k ∈ calls.map fun c => c.key.bytes g
  known   : ∀ k, isAllocInputKey k = true → (k ∈ l.pending ∨ (l.index.db.get? k).isSome ↔
    k ∈ calls.map fun c => c.key.bytes g)
  written : ∀ c ∈ calls, l.index.flush.db.get? (c.key.bytes g) = some c.value
  others  : ∀ k, (k ∉ calls.map fun c => c.key.bytes g) →
    l.index.flush.db.get? k = start.content.get? k

/-- The same for the retain list, where an address has two records; none of
them is an event in the namespace `f`. -/
structure RetainTracked (start : OvmIndex) (calls : List (RetainCall dec)) (l : RetainLoader) :
    Prop where
  known   : ∀ k, (k ∈ l.pending.map FixedBytes.bytes ∨ (l.index.get 'R' k).isSome ↔
    k ∈ calls.map fun c => c.address.bytes)
  member  : ∀ c ∈ calls, l.index.flush.get 'R' c.address.bytes = some [1]
  balance : ∀ c ∈ calls, l.index.flush.get 'b' (balanceKey g c.address).bytes = some c.address.bytes
  others  : ∀ k, (∀ c ∈ calls, ∀ op ∈ retainOps g c.address, op.key ≠ k) →
    l.index.flush.db.get? k = start.content.get? k
  events  : ∀ k, l.index.flush.get 'f' k = start.content.get? (tag 'f' :: k)

end Runs

/-! ## The loaders as writers without duplicates -/

section Views

variable {g : Geth} {address : String → Except Err Address} {dec : RetainDecoders}

def AllocLoader.view (l : AllocLoader) : Unique Bytes Bytes Bytes :=
  ⟨l.index.db, l.index.batch, l.pending⟩

def RetainLoader.view (l : RetainLoader) : Unique Bytes Bytes Bytes :=
  ⟨l.index.db, l.index.batch, l.pending.map FixedBytes.bytes⟩

/-- The keys of the two namespaces of a GenesisAlloc file. -/
abbrev AllocRecordKey := { k : Bytes // isAllocInputKey k = true }

/-- A call of `unique` as an insertion. -/
def AllocCall.insertion (g : Geth) (c : AllocCall address) : Insertion AllocRecordKey Bytes Bytes :=
  ⟨⟨c.key.bytes g, c.key.isAllocInputKey_bytes g⟩, [.put (c.key.bytes g) c.value], c.flush⟩

/-- The key of an address in the namespace `R`. -/
def retainKey (address : Bytes) : Bytes := tag 'R' :: address

/-- A call of `addOVMRetainAddress` as an insertion. -/
def RetainCall.insertion (g : Geth) (c : RetainCall dec) : Insertion Bytes Bytes Bytes :=
  ⟨c.address.bytes, retainOps g c.address, c.flush⟩

theorem AllocLoader.view_uniqueAt (g : Geth) (l : AllocLoader) (c : AllocCall address) :
    (l.uniqueAt c.flush (c.key.bytes g) c.value).toOption.map AllocLoader.view =
      l.view.add Subtype.val Subtype.val (c.insertion g) := by
  rw [Unique.add_eq_ite, AllocLoader.uniqueAt, toOption_guards, apply_ite (Option.map _)]
  have hWrite : (if c.flush = true then
      (⟨(OvmIndex.mk l.index.db (l.index.batch ++ [.put (c.key.bytes g) c.value])).flush, []⟩ :
        AllocLoader)
      else ⟨⟨l.index.db, l.index.batch ++ [.put (c.key.bytes g) c.value]⟩,
        c.key.bytes g :: l.pending⟩).view = l.view.write Subtype.val (c.insertion g) := by
    unfold Unique.write
    rw [apply_ite AllocLoader.view]
    rfl
  rw [← hWrite]
  exact ite_of_iff Iff.rfl _ _

theorem RetainLoader.view_addAt (g : Geth) (l : RetainLoader) (c : RetainCall dec) :
    (l.addAt g c.flush c.address).toOption.map RetainLoader.view =
      l.view.add id retainKey (c.insertion g) := by
  have hMark : c.address ∈ l.pending ↔ c.address.bytes ∈ l.pending.map FixedBytes.bytes :=
    (List.mem_map_of_injective FixedBytes.bytes_injective).symm
  rw [Unique.add_eq_ite, RetainLoader.addAt, toOption_guards, apply_ite (Option.map _)]
  have hWrite : (if c.flush = true then
      (⟨(OvmIndex.mk l.index.db (l.index.batch ++ retainOps g c.address)).flush, []⟩ : RetainLoader)
      else ⟨⟨l.index.db, l.index.batch ++ retainOps g c.address⟩,
        c.address :: l.pending⟩).view = l.view.write id (c.insertion g) := by
    unfold Unique.write
    rw [apply_ite RetainLoader.view]
    rfl
  rw [← hWrite]
  exact ite_of_iff (and_congr_left' (not_congr hMark)) _ _

theorem AllocCall.marking (g : Geth) (c : AllocCall address) :
    Unique.Marking Subtype.val (c.insertion g) := by
  intro m i
  show ((m.insert (c.key.bytes g) c.value).get? i.val).isSome ↔ _
  rw [SortedMap.get?_insert]
  by_cases hKey : i.val = c.key.bytes g
  · rw [if_pos hKey]
    exact iff_of_true rfl (.inl (Subtype.ext hKey))
  · have hItem : i ≠ (c.insertion g).item := fun h => hKey (congrArg Subtype.val h)
    rw [if_neg hKey, or_iff_right hItem]

theorem RetainCall.marking (g : Geth) (c : RetainCall dec) :
    Unique.Marking retainKey (c.insertion g) := by
  intro m i
  show (((m.insert (retainKey c.address.bytes) [1]).insert
    (tag 'b' :: (balanceKey g c.address).bytes) c.address.bytes).get? (retainKey i)).isSome ↔ _
  have hOther : retainKey i ≠ tag 'b' :: (balanceKey g c.address).bytes := fun h =>
    absurd (List.cons.inj h).1 (by decide)
  rw [SortedMap.get?_insert, if_neg hOther, SortedMap.get?_insert]
  by_cases hKey : i = c.address.bytes
  · rw [if_pos (congrArg retainKey hKey)]
    exact iff_of_true rfl (.inl hKey)
  · have hNe : retainKey i ≠ retainKey c.address.bytes := fun h => hKey (List.cons.inj h).2
    have hItem : i ≠ (c.insertion g).item := hKey
    rw [if_neg hNe, or_iff_right hItem]

theorem parseOVMRetainAddress_reads {text : String} {a : Address}
    (h : parseOVMRetainAddress dec text = .ok a) : dec.address text = .ok a := by
  obtain ⟨⟨⟩, -, hk⟩ := bind_eq_ok.mp h
  obtain ⟨a', hRead, hk⟩ := bind_eq_ok.mp hk
  obtain ⟨⟨⟩, -, hEq⟩ := bind_eq_ok.mp hk
  obtain rfl := Except.ok.inj hEq
  exact hRead

theorem foldlM_error {σ α ε : Type} {step : σ → α → Except ε σ} {e e' : ε}
    (hStep : ∀ s x e', step s x = .error e' → e' = e) {xs : List α} {s : σ}
    (h : xs.foldlM step s = .error e') : e' = e := by
  induction xs generalizing s with
  | nil => cases h
  | cons x xs ih =>
    rw [List.foldlM_cons] at h
    cases hx : step s x with
    | error e₁ =>
      rw [hx] at h
      obtain rfl := Except.error.inj h
      exact hStep s x _ hx
    | ok s' =>
      rw [hx] at h
      exact ih h

theorem guards_error {α ε : Type} {p q : Prop} [Decidable p] [Decidable q] {e e' : ε} {a : α}
    (h : (do require p e; require q e; return a : Except ε α) = .error e') : e' = e := by
  by_cases hp : p
  · by_cases hq : q
    · simp [require, hp, hq] at h
    · simpa [require, hp, hq, eq_comm] using h
  · simpa [require, hp, eq_comm] using h

/-- **A run of `unique`** is accepted exactly if the keys are pairwise
different. -/
theorem AllocLoader.uniqueAll_spec {start : OvmIndex}
    (hStart : start.Settled isAllocInputKey .empty) (calls : List (AllocCall address)) :
    ((∃ l, (AllocLoader.mk start []).uniqueAll g calls = .ok l) ↔
      (calls.map fun c => c.key.bytes g).Nodup) ∧
    ∀ l, (AllocLoader.mk start []).uniqueAll g calls = .ok l → AllocTracked g start calls l := by
  have hInit : Unique.Tracks (Subtype.val : AllocRecordKey → Bytes) Subtype.val []
      (AllocLoader.mk start []).view := by
    refine ⟨(fun m hm => nomatch hm), fun i => ?_, fun i => ?_⟩
    · show _ ∨ (start.db.get? i.val).isSome ↔ _
      rw [hStart.stored i.val i.property]
      simp [AllocLoader.view]
    · show (start.content.get? i.val).isSome ↔ _
      rw [hStart.content i.property]
      simp
  obtain ⟨hAccept, hRun⟩ :=
    hInit.loop (AllocLoader.view_uniqueAt g) Subtype.val_injective (AllocCall.marking g) calls
  have hKeys : calls.map (fun c => c.key.bytes g) =
      (calls.map fun c => (c.insertion g).item).map Subtype.val := by
    rw [List.map_map]
    rfl
  have hIff : (∃ l, (AllocLoader.mk start []).uniqueAll g calls = .ok l) ↔
      (calls.map fun c => c.key.bytes g).Nodup := by
    rw [hKeys, List.nodup_map_iff Subtype.val_injective]
    exact hAccept
  refine ⟨hIff, fun l hl => ?_⟩
  obtain ⟨hTracks, hFlushed⟩ := hRun l hl
  -- the records that a flush leaves
  have hContent : l.index.flush.db =
      applyOps start.content ((calls.map fun c => (c.key.bytes g, c.value)).map putOp) := by
    rw [List.map_map, List.map_eq_flatMap]
    exact hFlushed
  have hNodup : ((calls.map fun c => (c.key.bytes g, c.value)).map Prod.fst).Nodup := by
    rw [List.map_map]
    exact hIff.mp ⟨l, hl⟩
  refine ⟨fun k hk => ?_, fun k hk => ?_, fun c hc => ?_, fun k hk => ?_⟩
  · obtain ⟨i, hi, rfl⟩ := hTracks.own k hk
    rw [hKeys]
    exact List.mem_map_of_mem hi
  · have hKnown := hTracks.known ⟨k, hk⟩
    rw [hKeys]
    refine hKnown.trans ⟨fun h => List.mem_map_of_mem h, fun h => ?_⟩
    obtain ⟨i, hi, rfl⟩ := List.mem_map.mp h
    exact hi
  · rw [hContent]
    exact get?_applyOps_puts hNodup
      (List.mem_map_of_mem (f := fun c => (c.key.bytes g, c.value)) hc) _
  · rw [hContent]
    apply get?_applyOps_of_untouched
    intro op hop hEq
    obtain ⟨e, he, rfl⟩ := List.mem_map.mp hop
    obtain ⟨c, hc, rfl⟩ := List.mem_map.mp he
    exact hk (hEq ▸ List.mem_map_of_mem (f := fun c => c.key.bytes g) hc)

/-- **A run of `addOVMRetainAddress`** is accepted exactly if the addresses are
pairwise different. -/
theorem RetainLoader.addAll_spec (hBalance : Function.Injective (balanceKey g)) {start : OvmIndex}
    (hStart : start.Settled isRetainKey .empty) (calls : List (RetainCall dec)) :
    ((∃ l, (RetainLoader.mk start []).addAll g calls = .ok l) ↔
      (calls.map RetainCall.address).Nodup) ∧
    ∀ l, (RetainLoader.mk start []).addAll g calls = .ok l → RetainTracked g start calls l := by
  -- no key of the list is there at the start
  have hInit : Unique.Tracks (id : Bytes → Bytes) retainKey [] (RetainLoader.mk start []).view := by
    refine ⟨(fun m hm => nomatch hm), fun i => ?_, fun i => ?_⟩
    · show _ ∨ (start.db.get? (retainKey i)).isSome ↔ _
      rw [hStart.stored (retainKey i) (by simp [isRetainKey, retainKey])]
      simp [RetainLoader.view]
    · show (start.content.get? (retainKey i)).isSome ↔ _
      rw [hStart.content (k := retainKey i) (by simp [isRetainKey, retainKey])]
      simp
  obtain ⟨hAccept, hRun⟩ :=
    hInit.loop (RetainLoader.view_addAt g) Function.injective_id (RetainCall.marking g) calls
  have hKeys : (calls.map fun c => (c.insertion g).item) =
      (calls.map RetainCall.address).map FixedBytes.bytes := by
    rw [List.map_map]
    rfl
  have hIff : (∃ l, (RetainLoader.mk start []).addAll g calls = .ok l) ↔
      (calls.map RetainCall.address).Nodup := by
    rw [← List.nodup_map_iff FixedBytes.bytes_injective, ← hKeys]
    exact hAccept
  refine ⟨hIff, fun l hl => ?_⟩
  obtain ⟨hTracks, hFlushed⟩ := hRun l hl
  have hContent : l.index.flush.db =
      applyOps start.content (calls.flatMap fun c => retainOps g c.address) := hFlushed
  have hUntouched : ∀ k, (∀ c ∈ calls, ∀ op ∈ retainOps g c.address, op.key ≠ k) →
      l.index.flush.db.get? k = start.content.get? k := by
    intro k hk
    rw [hContent]
    apply get?_applyOps_of_untouched
    intro op hop
    obtain ⟨c, hc, hMem⟩ := List.mem_flatMap.mp hop
    exact hk c hc op hMem
  refine ⟨fun k => ?_, fun c hc => ?_, fun c hc => ?_, hUntouched, fun k => ?_⟩
  · have hKnown := hTracks.known k
    rw [hKeys, List.map_map] at hKnown
    exact hKnown
  · -- every write to the key has the value
    show l.index.flush.db.get? (retainKey c.address.bytes) = _
    rw [hContent]
    refine get?_applyOps_of_puts ?_ (List.mem_flatMap.mpr ⟨c, hc, List.mem_cons_self⟩) _
    intro op hop hKey
    obtain ⟨c', -, hMem⟩ := List.mem_flatMap.mp hop
    rcases List.mem_cons.mp hMem with rfl | hMem
    · rw [hKey.symm]
      rfl
    · rw [List.mem_singleton.mp hMem] at hKey
      exact absurd (List.cons.inj hKey).1 (by decide)
  · show l.index.flush.db.get? (tag 'b' :: (balanceKey g c.address).bytes) = _
    rw [hContent]
    refine get?_applyOps_of_puts ?_
      (List.mem_flatMap.mpr ⟨c, hc, List.mem_cons_of_mem _ List.mem_cons_self⟩) _
    intro op hop hKey
    obtain ⟨c', -, hMem⟩ := List.mem_flatMap.mp hop
    rcases List.mem_cons.mp hMem with rfl | hMem
    · exact absurd (List.cons.inj hKey).1 (by decide)
    · obtain rfl := List.mem_singleton.mp hMem
      rw [hBalance (FixedBytes.bytes_injective (List.cons.inj hKey).2)]
  · refine hUntouched (tag 'f' :: k) fun c hc op hop hKey => ?_
    rcases List.mem_cons.mp hop with rfl | hop
    · exact absurd (List.cons.inj hKey).1 (by decide)
    · rw [List.mem_singleton.mp hop] at hKey
      exact absurd (List.cons.inj hKey).1 (by decide)

/-- Only duplicates are rejected. -/
theorem AllocLoader.uniqueAll_error {l : AllocLoader} {calls : List (AllocCall address)} {e : Err}
    (h : l.uniqueAll g calls = .error e) :
    e = .msg "duplicate GenesisAlloc address or storage slot" [] := by
  exact foldlM_error (fun l c e' hStep => guards_error hStep) h

theorem RetainLoader.addAll_error {l : RetainLoader} {calls : List (RetainCall dec)} {e : Err}
    (h : l.addAll g calls = .error e) : e = .msg "duplicate ERC20 retain address" [] := by
  exact foldlM_error (fun l c e' hStep => guards_error hStep) h

end Views

/-! ## Duplicates -/

/-- **Duplicates are told exactly, whatever the flushes.** A run of calls of
either loader, flushing after any of them, is accepted exactly if no two names
differ in spelling only; the pending keys and the stored ones are then those
of the calls so far, and the last flush leaves exactly their records. The code
flushes when its batch is full. -/
theorem duplicates_told_at_every_flush (g : Geth) (hApart : KeysApart g) :
    (∀ address : String → Except Err Address, ReadsNumbers address →
      ∀ start : OvmIndex, start.Settled isAllocInputKey .empty → ∀ calls : List (AllocCall address),
        ((∃ l, (AllocLoader.mk start []).uniqueAll g calls = .ok l) ↔
          (calls.map fun c => c.name.normal).Nodup) ∧
        (∀ l, (AllocLoader.mk start []).uniqueAll g calls = .ok l → AllocTracked g start calls l) ∧
        (∀ e, (AllocLoader.mk start []).uniqueAll g calls = .error e →
          e = .msg "duplicate GenesisAlloc address or storage slot" [])) ∧
    (∀ dec : RetainDecoders, ReadsNumbers dec.address →
      ∀ start : OvmIndex, start.Settled isRetainKey .empty → ∀ calls : List (RetainCall dec),
        ((∃ l, (RetainLoader.mk start []).addAll g calls = .ok l) ↔
          (calls.map fun c => hexNumber c.text).Nodup) ∧
        (∀ l, (RetainLoader.mk start []).addAll g calls = .ok l → RetainTracked g start calls l) ∧
        (∀ e, (RetainLoader.mk start []).addAll g calls = .error e →
          e = .msg "duplicate ERC20 retain address" [])) ∧
    (∀ (l : AllocLoader) (key value : Bytes),
      l.unique key value = l.uniqueAt (isFull (l.index.batch ++ [.put key value])) key value) ∧
    ∀ (l : RetainLoader) (address : Address), addOVMRetainAddress g l address =
      l.addAt g (isFull (l.index.batch ++ retainOps g address)) address := by
  refine ⟨fun address hReads start hStart calls => ?_, fun dec hReads start hStart calls => ?_,
    AllocLoader.unique_eq_uniqueAt, fun _ _ => rfl⟩
  · obtain ⟨hIff, hTracked⟩ := AllocLoader.uniqueAll_spec (g := g) hStart calls
    refine ⟨hIff.trans ?_, hTracked, fun e => AllocLoader.uniqueAll_error⟩
    -- keys and names are different together
    simp only [List.Nodup, List.pairwise_map]
    refine List.Pairwise.iff fun c c' => not_congr ?_
    exact (AllocKey.bytes_injective hApart).eq_iff.trans
      (AllocName.read_eq_iff hReads c.spelled c'.spelled)
  · obtain ⟨hIff, hTracked⟩ := RetainLoader.addAll_spec hApart.balance hStart calls
    refine ⟨hIff.trans ?_, hTracked, fun e => RetainLoader.addAll_error⟩
    simp only [List.Nodup, List.pairwise_map]
    refine List.Pairwise.iff fun c c' => not_congr ?_
    exact hReads _ _ _ _ (parseOVMRetainAddress_reads c.spelled)
      (parseOVMRetainAddress_reads c'.spelled)

/-- A hash that keeps the first 32 bytes. -/
def headKeccak (b : Bytes) : Hash := .ofBytes 32 (b.take 32)

theorem bytes_headKeccak {b : Bytes} (h : b.length ≤ 32) : (headKeccak b).bytes = leftPad b 32 := by
  show List.replicate _ 0 ++ (b.take 32).drop _ = _
  rw [List.take_of_length_le h, Nat.sub_eq_zero_of_le h, List.drop_zero]
  rfl

theorem keysApart_headKeccak : KeysApart (referenceGeth headKeccak) := by
  have hInj : ∀ {n : Nat}, n ≤ 32 → ∀ a b : FixedBytes n,
      headKeccak a.bytes = headKeccak b.bytes → a = b := by
    intro n hn a b h
    have hBytes := congrArg FixedBytes.bytes h
    rw [bytes_headKeccak (by rw [a.length_bytes]; exact hn),
      bytes_headKeccak (by rw [b.length_bytes]; exact hn)] at hBytes
    exact FixedBytes.ext (leftPad_injective (by rw [a.length_bytes, b.length_bytes]) hBytes)
  refine ⟨fun a b h => hInj (by decide) a b h, fun a b h => hInj (by decide) a b h, fun a b h => ?_⟩
  -- the padded address is kept, and then kept again
  have hSlot : ovmBalanceSlot (referenceGeth headKeccak) a =
      ovmBalanceSlot (referenceGeth headKeccak) b :=
    hInj (by decide) _ _ h
  have hPad : ∀ c : Address, (leftPad c.bytes 32).length = 32 := fun c =>
    length_leftPad (by rw [c.length_bytes]; decide)
  have hHead : ∀ c : Address, ovmBalanceSlot (referenceGeth headKeccak) c =
      .ofBytes 32 (leftPad c.bytes 32) := by
    intro c
    show FixedBytes.ofBytes 32 ((leftPad c.bytes 32 ++ List.replicate 32 0).take 32) = _
    rw [List.take_left' (hPad c)]
  rw [hHead, hHead] at hSlot
  exact FixedBytes.ext (leftPad_injective (by rw [a.length_bytes, b.length_bytes])
    (FixedBytes.ofBytes_injOn (hPad a) (hPad b) hSlot))

theorem readsNumbers_readHexAddress : ReadsNumbers readHexAddress := by
  have hRead : ∀ {text : String} {a : Address}, readHexAddress text = .ok a →
      ofBE a.bytes = hexNumber text := by
    intro text a h
    obtain ⟨word, hWord, hk⟩ := bind_eq_ok.mp h
    obtain ⟨⟨⟩, hSize, hEq⟩ := bind_eq_ok.mp hk
    obtain rfl := Except.ok.inj hEq
    rw [require_eq_ok] at hSize
    rw [← decodeOVMAllocWord_number hWord]
    exact ofBE_toBE (by omega)
  intro s t a b hs ht
  rw [← hRead hs, ← hRead ht]
  constructor
  · rintro rfl
    rfl
  · intro h
    apply FixedBytes.ext
    rw [← toBE_ofBE a.bytes, ← toBE_ofBE b.bytes, h, a.length_bytes, b.length_bytes]

/-- An account, a slot of it, the same slot of another account, and a third
account; the first call flushes. -/
def sampleAllocCalls : List (AllocCall readHexAddress) := [
  ⟨.account "0x000000000000000000000000000000000000000a", .account ⟨toBE 20 10, length_toBE 20 _⟩,
    by decide +kernel, [1], true⟩,
  ⟨.slot "0x000000000000000000000000000000000000000a" "0A", .slot ⟨toBE 20 10, length_toBE 20 _⟩
    (hashOfNat 10), by decide +kernel, [2], false⟩,
  ⟨.slot "0000000000000000000000000000000000000002" "0x000a", .slot ⟨toBE 20 2, length_toBE 20 _⟩
    (hashOfNat 10), by decide +kernel, [3], false⟩]

/-- The first slot again, in another spelling. -/
def sampleAllocDuplicate : AllocCall readHexAddress :=
  ⟨.slot "000000000000000000000000000000000000000A" "0x0a", .slot ⟨toBE 20 10, length_toBE 20 _⟩
    (hashOfNat 10), by decide +kernel, [4], false⟩

theorem duplicates_told_sample :
    KeysApart (referenceGeth headKeccak) ∧ ReadsNumbers readHexAddress ∧
    (∃ l, (AllocLoader.mk ⟨.empty, []⟩ []).uniqueAll (referenceGeth headKeccak)
      sampleAllocCalls = .ok l) ∧
    ¬∃ l, (AllocLoader.mk ⟨.empty, []⟩ []).uniqueAll (referenceGeth headKeccak)
      (sampleAllocCalls ++ [sampleAllocDuplicate]) = .ok l := by
  have hEmpty : OvmIndex.Settled isAllocInputKey .empty ⟨.empty, []⟩ := ⟨fun _ _ => rfl, by simp⟩
  have hRuns :=
    (duplicates_told_at_every_flush _ keysApart_headKeccak).1 _ readsNumbers_readHexAddress _ hEmpty
  refine ⟨keysApart_headKeccak, readsNumbers_readHexAddress, (hRuns _).1.mpr
    (by decide +kernel), ?_⟩
  rw [(hRuns _).1]
  decide +kernel

end L2State
