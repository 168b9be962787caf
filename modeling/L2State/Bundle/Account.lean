import L2State.Bundle.Manifest

/-!
# L2State — the slim account codec

`bundle/account.go`: account payloads of a bundle omit the empty storage root
and the empty code hash.

* `decodeAccount_encodeAccount` — what `EncodeAccount` writes, `DecodeAccount`
  expands to the same account and the same consensus encoding.
* `encodeAccount_of_decodeAccount` — **one payload per account**: whatever
  `DecodeAccount` accepts is what `EncodeAccount` writes for the account it
  returns.
* `length_slimAccountRLP` — the payload is not longer than the consensus
  encoding.
* `decodeFullAccount_eq_ok` — a leaf value that decodes is the encoding of
  its account.
-/

namespace L2State

open Lib

/-- The slim record of an account. -/
def StateAccount.slim (a : StateAccount) : SlimAccount where
  nonce := a.nonce
  balance := a.balance
  root := if a.root ≠ emptyRootHash then a.root.bytes else []
  codeHash := if a.codeHash ≠ emptyCodeHash.bytes then a.codeHash else []

/-- `types.SlimAccountRLP`. -/
def slimAccountRLP (a : StateAccount) : Bytes := encodeSlimAccount a.slim

/-- `EncodeAccount`. -/
def encodeAccount (account : StateAccount) : Except Err Bytes := do
  require (account.codeHash.length = 32)
    (.msg "account code hash has length %d" [.num account.codeHash.length])
  return encodeSlimAccount account.slim

/-- The account a slim record stands for. -/
def SlimAccount.expand (s : SlimAccount) : StateAccount where
  nonce := s.nonce
  balance := s.balance
  root := if s.root.length ≠ 0 then .ofBytes 32 s.root else emptyRootHash
  codeHash := if s.codeHash.length ≠ 0 then s.codeHash else emptyCodeHash.bytes

/-- `DecodeAccount`: the account and its consensus encoding. -/
def decodeAccount (data : Bytes) : Except Err (StateAccount × Bytes) := do
  let slim ← wrapping "decode slim account RLP: %w" [] (rlpResult (decodeSlimAccount data))
  require (slim.root.length = 0 ∨ slim.root.length = 32)
    (.msg "account storage root has length %d" [.num slim.root.length])
  require (slim.codeHash.length = 0 ∨ slim.codeHash.length = 32)
    (.msg "account code hash has length %d" [.num slim.codeHash.length])
  require (slim.root ≠ emptyRootHash.bytes)
    (.msg "account explicitly encodes the empty storage root" [])
  require (slim.codeHash ≠ emptyCodeHash.bytes)
    (.msg "account explicitly encodes the empty code hash" [])
  return (slim.expand, encodeStateAccount slim.expand)

/-- `decodeFullAccount`: the strict decoder of account leaves. -/
def decodeFullAccount (accountHash : Hash) (data : Bytes) : Except Err StateAccount := do
  let account ← wrapping "account %s: decode account RLP: %w" [.hash accountHash]
    (rlpResult (decodeStateAccount data))
  require (account.codeHash.length = 32)
    (.msg "account %s: account code hash has length %d"
      [.hash accountHash, .num account.codeHash.length])
  return account

/-! ## Round trips -/

theorem length_accountFields_lt {nonce : UInt64} {balance : U256} {root codeHash : Bytes}
    (hRoot : root.length ≤ 32) (hCode : codeHash.length ≤ 32) :
    (accountFields nonce balance root codeHash).length < 2 ^ 64 := by
  have hUint : ∀ n x, (Rlp.encodeUint n x).length ≤ n + 9 := fun n x =>
    (Rlp.length_encodeString_le _).trans (by have := length_minimalBE_le n x; omega)
  have h₁ := hUint 8 nonce.toNat
  have h₂ := hUint 32 balance.toNat
  have h₃ := Rlp.length_encodeString_le root
  have h₄ := Rlp.length_encodeString_le codeHash
  simp only [accountFields, List.length_append]
  omega

theorem length_slim_root (a : StateAccount) :
    a.slim.root.length = 0 ∨ a.slim.root.length = 32 := by
  simp only [StateAccount.slim]
  split
  · exact .inr a.root.length_bytes
  · exact .inl rfl

variable {a : StateAccount}

theorem length_slim_codeHash (h : a.codeHash.length = 32) :
    a.slim.codeHash.length = 0 ∨ a.slim.codeHash.length = 32 := by
  simp only [StateAccount.slim]
  split
  · exact .inr h
  · exact .inl rfl

private theorem ne_nil_of_length {b : Bytes} (h : b.length = 32) : b ≠ [] := by
  rintro rfl
  cases h

/-- Expanding the slim record gives the account back. -/
theorem expand_slim (h : a.codeHash.length = 32) : a.slim.expand = a := by
  obtain ⟨nonce, balance, root, codeHash⟩ := a
  simp only [StateAccount.slim, SlimAccount.expand, StateAccount.mk.injEq, true_and]
  constructor
  · by_cases hRoot : root = emptyRootHash
    · simp [hRoot]
    · simp [hRoot, root.length_bytes]
  · by_cases hCode : codeHash = emptyCodeHash.bytes
    · simp [hCode]
    · have hLen : codeHash.length = 32 := h
      simp [hCode, ne_nil_of_length hLen]

/-- The slim record of an expansion is the record itself, unless it spells
out an empty value. -/
theorem slim_expand {s : SlimAccount} (hRoot : s.root.length = 0 ∨ s.root.length = 32)
    (hRootNe : s.root ≠ emptyRootHash.bytes) (hCodeNe : s.codeHash ≠ emptyCodeHash.bytes) :
    s.expand.slim = s := by
  obtain ⟨nonce, balance, root, codeHash⟩ := s
  simp only [StateAccount.slim, SlimAccount.expand, SlimAccount.mk.injEq, true_and]
  constructor
  · rcases hRoot with h | h
    · have : root = [] := List.length_eq_zero_iff.mp h
      simp [this]
    · have hne : FixedBytes.ofBytes 32 root ≠ emptyRootHash := by
        intro heq
        exact hRootNe (by rw [← heq, FixedBytes.bytes_ofBytes h])
      simp [ne_nil_of_length h, hne, FixedBytes.bytes_ofBytes h]
  · by_cases hNil : codeHash = []
    · simp [hNil]
    · simp only [ne_eq, List.length_eq_zero_iff, hNil, not_false_eq_true, if_true]
      exact if_pos hCodeNe

theorem encodeAccount_eq_ok_iff {d : Bytes} :
    encodeAccount a = .ok d ↔ a.codeHash.length = 32 ∧ d = slimAccountRLP a := by
  simp only [encodeAccount, bind_eq_ok, require_eq_ok, pure_eq_ok, Except.ok.injEq]
  constructor
  · rintro ⟨-, h, rfl⟩
    exact ⟨h, rfl⟩
  · rintro ⟨h, rfl⟩
    exact ⟨(), h, rfl⟩

/-- **Round trip.** The payload written for an account expands to the account
and to its consensus encoding. -/
theorem decodeAccount_encodeAccount (h : a.codeHash.length = 32) :
    decodeAccount (slimAccountRLP a) = .ok (a, encodeStateAccount a) := by
  have hRoot := length_slim_root a
  have hCode := length_slim_codeHash h
  have hDecode : decodeSlimAccount (slimAccountRLP a) = .ok a.slim :=
    decodeSlimAccount_eq_ok_iff.mpr
      ⟨rfl, length_accountFields_lt (by omega) (by omega)⟩
  have hRootNe : a.slim.root ≠ emptyRootHash.bytes := by
    simp only [StateAccount.slim]
    split
    · next hne => exact fun heq => hne (FixedBytes.bytes_injective heq)
    · exact fun heq => absurd (congrArg List.length heq) (by decide)
  have hCodeNe : a.slim.codeHash ≠ emptyCodeHash.bytes := by
    simp only [StateAccount.slim]
    split
    · next hne => exact hne
    · exact fun heq => absurd (congrArg List.length heq) (by decide)
  simp only [decodeAccount, hDecode, rlpResult, wrapping_ok, ok_bind, require_true hRoot,
    require_true hCode, require_true hRootNe, require_true hCodeNe, expand_slim h, pure_eq_ok]

/-- **One payload per account.** A payload that decodes is the one written for
the account it decodes to. -/
theorem encodeAccount_of_decodeAccount {d full : Bytes} (h : decodeAccount d = .ok (a, full)) :
    d = slimAccountRLP a ∧ full = encodeStateAccount a ∧ a.codeHash.length = 32 := by
  simp only [decodeAccount, bind_eq_ok, wrapping_eq_ok, rlpResult_eq_ok, require_eq_ok, pure_eq_ok,
    Except.ok.injEq, Prod.mk.injEq] at h
  obtain ⟨slim, hDecode, -, hRoot, -, hCode, -, hRootNe, -, hCodeNe, rfl, rfl⟩ := h
  refine ⟨?_, rfl, ?_⟩
  · rw [slimAccountRLP, slim_expand hRoot hRootNe hCodeNe]
    exact (decodeSlimAccount_eq_ok_iff.mp hDecode).1
  · simp only [SlimAccount.expand]
    split
    · omega
    · exact emptyCodeHash.length_bytes

/-- A leaf value that decodes is the consensus encoding of its account. -/
theorem decodeFullAccount_eq_ok {hash : Hash} {data : Bytes} {a : StateAccount} :
    decodeFullAccount hash data = .ok a ↔
      data = encodeStateAccount a ∧ a.codeHash.length = 32 := by
  simp only [decodeFullAccount, bind_eq_ok, wrapping_eq_ok, rlpResult_eq_ok, require_eq_ok,
    pure_eq_ok, Except.ok.injEq, decodeStateAccount_eq_ok_iff]
  constructor
  · rintro ⟨a, ⟨rfl, -⟩, -, hLen, rfl⟩
    exact ⟨rfl, hLen⟩
  · rintro ⟨rfl, hLen⟩
    exact ⟨a, ⟨rfl, length_accountFields_lt a.root.length_bytes.le hLen.le⟩, (), hLen, rfl⟩

theorem slimAccountRLP_ne_nil (a : StateAccount) : slimAccountRLP a ≠ [] :=
  Rlp.encodeList_ne_nil _

theorem encodeStateAccount_ne_nil (a : StateAccount) : encodeStateAccount a ≠ [] :=
  Rlp.encodeList_ne_nil _

/-! ## Lengths -/

/-- Each field of the slim record is at most as long as the one it stands for. -/
theorem length_slimFields_le (a : StateAccount) :
    (accountFields a.nonce a.balance a.slim.root a.slim.codeHash).length ≤
      (accountFields a.nonce a.balance a.root.bytes a.codeHash).length := by
  -- the empty string takes one byte, and so does every other at least
  have hOmitted : ∀ {b c : Bytes}, b = c ∨ b = [] →
      (Rlp.encodeString b).length ≤ (Rlp.encodeString c).length := by
    rintro b c (rfl | rfl)
    · exact le_rfl
    · have hOne : (Rlp.encodeString []).length = 1 := by decide
      rw [hOne]
      exact List.length_pos_iff.mpr (Rlp.encodeString_ne_nil c)
  have hRoot : (Rlp.encodeString a.slim.root).length ≤ (Rlp.encodeString a.root.bytes).length := by
    refine hOmitted ?_
    simp only [StateAccount.slim]
    split
    · exact .inl rfl
    · exact .inr rfl
  have hCode : (Rlp.encodeString a.slim.codeHash).length ≤
      (Rlp.encodeString a.codeHash).length := by
    refine hOmitted ?_
    simp only [StateAccount.slim]
    split
    · exact .inl rfl
    · exact .inr rfl
  simp only [accountFields, List.length_append]
  omega

theorem length_accountFields_le (h : a.codeHash.length = 32) :
    (accountFields a.nonce a.balance a.root.bytes a.codeHash).length ≤ 108 := by
  have hNonce := length_minimalBE_le 8 a.nonce.toNat
  have hBalance := length_minimalBE_le 32 a.balance.toNat
  have h₁ := Rlp.length_encodeString_short (b := minimalBE 8 a.nonce.toNat) (by omega)
  have h₂ := Rlp.length_encodeString_short (b := minimalBE 32 a.balance.toNat) (by omega)
  have h₃ := Rlp.length_encodeString_short (b := a.root.bytes) (by rw [a.root.length_bytes]; decide)
  have h₄ := Rlp.length_encodeString_short (b := a.codeHash) (by omega)
  have hRoot := a.root.length_bytes
  simp only [accountFields, Rlp.encodeUint, List.length_append]
  omega

/-- **The payload is not longer than the consensus encoding**, and fits the
limit of its record. -/
theorem length_slimAccountRLP (h : a.codeHash.length = 32) :
    (slimAccountRLP a).length ≤ (encodeStateAccount a).length ∧
    (slimAccountRLP a).length ≤ 110 := by
  have hLe := length_slimFields_le a
  have hFull := length_accountFields_le h
  have hSlimLen : (slimAccountRLP a).length =
      (Rlp.putHead 0xC0
        (accountFields a.nonce a.balance a.slim.root a.slim.codeHash).length).length +
          (accountFields a.nonce a.balance a.slim.root a.slim.codeHash).length := List.length_append
  have hFullLen : (encodeStateAccount a).length =
      (Rlp.putHead 0xC0 (accountFields a.nonce a.balance a.root.bytes a.codeHash).length).length +
        (accountFields a.nonce a.balance a.root.bytes a.codeHash).length := List.length_append
  rw [hSlimLen, hFullLen, Rlp.length_putHead_of_lt (by omega), Rlp.length_putHead_of_lt (by omega)]
  split <;> split <;> omega

/-- Consensus encodings determine the account. -/
theorem encodeStateAccount_injective {b : StateAccount} (ha : a.codeHash.length = 32)
    (hb : b.codeHash.length = 32) (h : encodeStateAccount a = encodeStateAccount b) : a = b := by
  have hA := (@decodeFullAccount_eq_ok zeroHash _ a).mpr ⟨rfl, ha⟩
  have hB := (@decodeFullAccount_eq_ok zeroHash _ b).mpr ⟨rfl, hb⟩
  rw [h, hB] at hA
  simpa using hA.symm

end L2State
