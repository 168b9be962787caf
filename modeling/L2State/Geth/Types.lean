import L2State.Lib.Rlp

/-!
# L2State — hashes, errors and account records

The value types the migration code takes from geth, and their encodings.

* `Hash`, `Address`, `U256` — fixed-width values.
* `Err` — an error value: the format text and arguments of `fmt.Errorf` and
  the wrapped cause.
* `StateAccount`, `SlimAccount` — the two account records, with the strict
  decoders and the theorems that say what they accept
  (`decodeStateAccount_eq_ok_iff`, `decodeSlimAccount_eq_ok_iff`).
-/

namespace L2State

open Lib

/-- `common.Hash`. -/
abbrev Hash := FixedBytes 32

/-- `common.Address`. -/
abbrev Address := FixedBytes 20

/-- `uint256.Int`: arithmetic wraps at `2 ^ 256`. -/
abbrev U256 := BitVec 256

/-- The 32 bytes of a number, for hash constants. -/
def hashOfNat (x : Nat) : Hash := ⟨toBE 32 x, length_toBE 32 x⟩

/-- `types.EmptyRootHash`, the root of the trie without leaves. -/
def emptyRootHash : Hash :=
  hashOfNat 0x56e81f171bcc55a6ff8345e692c0f86e5b48e01b996cadc001622fb5e363b421

/-- `types.EmptyCodeHash`, the code hash of an account without code. -/
def emptyCodeHash : Hash :=
  hashOfNat 0xc5d2460186f7233c927e7db2dcc703c0e500b653ca82273b7bfad8045d85a470

/-- `common.Hash{}`. -/
def zeroHash : Hash := FixedBytes.zero 32

/-! ## Errors -/

/-- An argument of a formatted error. -/
inductive ErrArg
  | hash (h : Hash)
  | bytes (b : Bytes)
  | num (n : Nat)
  | text (s : String)
deriving DecidableEq

/-- An error value. -/
inductive Err
  /-- `errors.New` or `fmt.Errorf` without a cause. -/
  | msg (format : String) (args : List ErrArg)
  /-- `fmt.Errorf` with a wrapped cause (`%w`). -/
  | wrap (format : String) (args : List ErrArg) (cause : Err)
  /-- A refusal of the RLP decoder. -/
  | rlp (e : Rlp.Error)
  /-- An error of the database, the trie reader or the operating system. -/
  | outside (text : String)
  /-- `errors.Join` of two errors. -/
  | join (first second : Err)
deriving DecidableEq

/-- `errors.Join`, where `none` is the nil error. -/
def joinErr : Option Err → Option Err → Option Err
  | some a, some b => some (.join a b)
  | some a, none => some a
  | none, b => b

theorem joinErr_eq_none {a b : Option Err} : joinErr a b = none ↔ a = none ∧ b = none := by
  cases a <;> cases b <;> simp [joinErr]

/-- `context.Canceled` and `context.DeadlineExceeded`. -/
def contextCanceled : Err := .outside "context canceled"
def deadlineExceeded : Err := .outside "context deadline exceeded"

/-- `errors.Is` for one of the context errors. -/
def Err.isContext : Err → Bool
  | .wrap _ _ cause => cause.isContext
  | .join a b => a.isContext || b.isContext
  | e => e = contextCanceled ∨ e = deadlineExceeded

/-- `fmt.Errorf(format, args..., err)` around a fallible call. -/
def wrapping {α : Type} (format : String) (args : List ErrArg) (x : Except Err α) : Except Err α :=
  wrapErr (.wrap format args) x

@[simp] theorem wrapping_eq_ok {α : Type} {format : String} {args : List ErrArg}
    {x : Except Err α} {a : α} : wrapping format args x = .ok a ↔ x = .ok a := wrapErr_eq_ok

@[simp] theorem wrapping_ok {α : Type} (format : String) (args : List ErrArg) (a : α) :
    wrapping format args (.ok a) = .ok a := rfl

/-- The outcome of an RLP call as a Go error. -/
def rlpResult {α : Type} : Except Rlp.Error α → Except Err α
  | .ok a => .ok a
  | .error e => .error (.rlp e)

@[simp] theorem rlpResult_eq_ok {α : Type} {x : Except Rlp.Error α} {a : α} :
    rlpResult x = .ok a ↔ x = .ok a := by
  cases x <;> simp [rlpResult]

/-! ## Accounts -/

/-- `types.StateAccount`, the consensus representation of an account. -/
structure StateAccount where
  nonce    : UInt64
  balance  : U256
  root     : Hash
  codeHash : Bytes
deriving DecidableEq

/-- `types.SlimAccount`: the empty root and the empty code hash are omitted. -/
structure SlimAccount where
  nonce    : UInt64
  balance  : U256
  root     : Bytes
  codeHash : Bytes
deriving DecidableEq

/-- The concatenated fields of an account list. -/
def accountFields (nonce : UInt64) (balance : U256) (root codeHash : Bytes) : Bytes :=
  Rlp.encodeUint 8 nonce.toNat ++ (Rlp.encodeUint 32 balance.toNat ++
    (Rlp.encodeString root ++ Rlp.encodeString codeHash))

/-- `rlp.EncodeToBytes` of a consensus account. -/
def encodeStateAccount (a : StateAccount) : Bytes :=
  Rlp.encodeList (accountFields a.nonce a.balance a.root.bytes a.codeHash)

/-- `rlp.EncodeToBytes` of a slim account. -/
def encodeSlimAccount (a : SlimAccount) : Bytes :=
  Rlp.encodeList (accountFields a.nonce a.balance a.root a.codeHash)

/-- `rlp.DecodeBytes` into a consensus account. -/
def decodeStateAccount (b : Bytes) : Except Rlp.Error StateAccount := do
  let fields ← Rlp.listOnly b
  let (nonce, fields) ← Rlp.uintField 8 fields
  let (balance, fields) ← Rlp.uintField 32 fields
  let (root, fields) ← Rlp.arrayField 32 fields
  let (codeHash, fields) ← Rlp.bytesField fields
  require (fields = []) .tooManyElements
  return ⟨.ofNat nonce, .ofNat 256 balance, root, codeHash⟩

/-- `rlp.DecodeBytes` into a slim account. -/
def decodeSlimAccount (b : Bytes) : Except Rlp.Error SlimAccount := do
  let fields ← Rlp.listOnly b
  let (nonce, fields) ← Rlp.uintField 8 fields
  let (balance, fields) ← Rlp.uintField 32 fields
  let (root, fields) ← Rlp.bytesField fields
  let (codeHash, fields) ← Rlp.bytesField fields
  require (fields = []) .tooManyElements
  return ⟨.ofNat nonce, .ofNat 256 balance, root, codeHash⟩

private theorem uint64_toNat_of_lt {x : Nat} (h : x < 256 ^ 8) : (UInt64.ofNat x).toNat = x := by
  rw [UInt64.toNat_ofNat']
  exact Nat.mod_eq_of_lt (by simpa using h)

private theorem u256_toNat_of_lt {x : Nat} (h : x < 256 ^ 32) : (BitVec.ofNat 256 x).toNat = x := by
  rw [BitVec.toNat_ofNat]
  exact Nat.mod_eq_of_lt (by simpa using h)

/-- The consensus decoder accepts exactly the encodings. -/
theorem decodeStateAccount_eq_ok_iff {b : Bytes} {a : StateAccount} :
    decodeStateAccount b = .ok a ↔
      b = encodeStateAccount a ∧
        (accountFields a.nonce a.balance a.root.bytes a.codeHash).length < 2 ^ 64 := by
  simp only [decodeStateAccount, bind_eq_ok, require_eq_ok, pure_eq_ok, Except.ok.injEq,
    Prod.exists, Rlp.listOnly_eq_ok_iff, Rlp.uintField_eq_ok_iff (show 8 < 2 ^ 64 by decide),
    Rlp.uintField_eq_ok_iff (show 32 < 2 ^ 64 by decide),
    Rlp.arrayField_eq_ok_iff (show 32 < 2 ^ 64 by decide), Rlp.bytesField_eq_ok_iff]
  constructor
  · rintro ⟨fields, ⟨hb, hLen⟩, nonce, f₁, ⟨h₁, hNonce⟩, balance, f₂, ⟨h₂, hBalance⟩, root, f₃, h₃,
      codeHash, f₄, ⟨h₄, -⟩, -, h₅, rfl⟩
    have hFields : fields =
        accountFields (.ofNat nonce) (.ofNat 256 balance) root.bytes codeHash := by
      rw [accountFields, uint64_toNat_of_lt hNonce, u256_toNat_of_lt hBalance, h₁, h₂, h₃, h₄, h₅,
        List.append_nil]
    rw [hFields] at hb hLen
    exact ⟨hb, hLen⟩
  · rintro ⟨rfl, hLen⟩
    have hCode : a.codeHash.length < 2 ^ 64 := by
      refine lt_of_le_of_lt ?_ hLen
      simp only [accountFields, List.length_append]
      have := Rlp.length_le_encodeString a.codeHash
      omega
    refine ⟨_, ⟨rfl, hLen⟩, a.nonce.toNat, _, ⟨rfl, ?_⟩, a.balance.toNat, _, ⟨rfl, ?_⟩, a.root, _,
      rfl, a.codeHash, [], ⟨by simp, hCode⟩, (), rfl, ?_⟩
    · simpa using a.nonce.toNat_lt
    · simpa using a.balance.isLt
    · simp

/-- The slim decoder accepts exactly the encodings. -/
theorem decodeSlimAccount_eq_ok_iff {b : Bytes} {a : SlimAccount} :
    decodeSlimAccount b = .ok a ↔
      b = encodeSlimAccount a ∧
        (accountFields a.nonce a.balance a.root a.codeHash).length < 2 ^ 64 := by
  simp only [decodeSlimAccount, bind_eq_ok, require_eq_ok, pure_eq_ok, Except.ok.injEq,
    Prod.exists, Rlp.listOnly_eq_ok_iff, Rlp.uintField_eq_ok_iff (show 8 < 2 ^ 64 by decide),
    Rlp.uintField_eq_ok_iff (show 32 < 2 ^ 64 by decide), Rlp.bytesField_eq_ok_iff]
  constructor
  · rintro ⟨fields, ⟨hb, hLen⟩, nonce, f₁, ⟨h₁, hNonce⟩, balance, f₂, ⟨h₂, hBalance⟩, root, f₃,
      ⟨h₃, -⟩, codeHash, f₄, ⟨h₄, -⟩, -, h₅, rfl⟩
    have hFields : fields = accountFields (.ofNat nonce) (.ofNat 256 balance) root codeHash := by
      rw [accountFields, uint64_toNat_of_lt hNonce, u256_toNat_of_lt hBalance, h₁, h₂, h₃, h₄, h₅,
        List.append_nil]
    rw [hFields] at hb hLen
    exact ⟨hb, hLen⟩
  · rintro ⟨rfl, hLen⟩
    have hFields : a.root.length + a.codeHash.length < 2 ^ 64 := by
      refine lt_of_le_of_lt ?_ hLen
      simp only [accountFields, List.length_append]
      have := Rlp.length_le_encodeString a.codeHash
      have := Rlp.length_le_encodeString a.root
      omega
    refine ⟨_, ⟨rfl, hLen⟩, a.nonce.toNat, _, ⟨rfl, ?_⟩, a.balance.toNat, _, ⟨rfl, ?_⟩, a.root, _,
      ⟨rfl, by omega⟩, a.codeHash, [], ⟨by simp, by omega⟩, (), rfl, ?_⟩
    · simpa using a.nonce.toNat_lt
    · simpa using a.balance.isLt
    · simp

end L2State
