import L2State.Ovm.Index
import L2State.Bundle.Account

/-!
# L2State — reading the original state during the OVM conversion

`ovmAccountReader` of `ovm_transform.go` keeps an opened account trie for a
window of reads, and several goroutines hand such readers to each other.

* `Tries`, `TrieAccess` — the trie database: tries by owner and root, read by
  key or in key order.
* `AccountReader` — a reader; an opened trie it keeps is the one of its root.
* `AccountReader.read_fst` — what a reader returns does not depend on what it
  has read before.
* `decodeOVMValue` — the amount in a storage slot.
-/

namespace L2State

open Lib

/-! ## Tries by key -/

/-- An opened trie. -/
structure TrieAccess where
  /-- `Get`: an absent key has the empty value. -/
  get      : Bytes → Except Err Bytes
  /-- The leaf iterator over the whole trie. -/
  iterator : Except Err LeafStream

/-- A `triedb.Database`: `trie.New` by owner and root. The account trie has the
zero owner. -/
structure Tries where
  openTrie : Hash → Hash → Except Err TrieAccess

/-- The account of an absent leaf. -/
def absentAccount : StateAccount := ⟨0, 0, emptyRootHash, emptyCodeHash.bytes⟩

/-- The account in a leaf value. -/
def decodeLeaf (hash : Hash) (blob : Bytes) : Except Err StateAccount :=
  if blob.length = 0 then .ok absentAccount else decodeFullAccount hash blob

/-! ## Readers -/

/-- `ovmAccountReadWindow`. -/
def ovmAccountReadWindow : Nat := 32

/-- `ovmAccountReader`. The trie it keeps is the one that the database opens at
its root. -/
structure AccountReader (db : Tries) (root : Hash) where
  trie  : Option { t : TrieAccess // db.openTrie zeroHash root = .ok t }
  reads : Nat

namespace AccountReader

variable {db : Tries} {root : Hash}

/-- A reader that has not read anything. -/
def new (db : Tries) (root : Hash) : AccountReader db root := ⟨none, 0⟩

/-- Two opened tries of one root are the same, so that readers are compared by
whether they have one. -/
theorem eq_iff {a b : AccountReader db root} :
    a = b ↔ a.trie.isSome = b.trie.isSome ∧ a.reads = b.reads := by
  constructor
  · rintro rfl
    exact ⟨rfl, rfl⟩
  · intro h
    obtain ⟨a, n⟩ := a
    obtain ⟨b, m⟩ := b
    obtain ⟨hSome, rfl⟩ : a.isSome = b.isSome ∧ n = m := h
    cases a with
    | none =>
      cases b with
      | none => rfl
      | some b => exact absurd hSome (by simp)
    | some a =>
      cases b with
      | none => exact absurd hSome (by simp)
      | some b =>
        have hEq : a.1 = b.1 := Except.ok.inj (a.2.symm.trans b.2)
        rw [Subtype.ext hEq]

instance : DecidableEq (AccountReader db root) := fun _ _ => decidable_of_iff _ eq_iff.symm

/-- The trie of a reader: the one it keeps, or one it opens. -/
def opened (r : AccountReader db root) :
    Except Err { t : TrieAccess // db.openTrie zeroHash root = .ok t } :=
  match r.trie with
  | some t => .ok t
  | none => attachOk (db.openTrie zeroHash root)

/-- The reader after a call of `Get`. -/
def after (r : AccountReader db root) (t : { t : TrieAccess // db.openTrie zeroHash root = .ok t })
    (failed : Bool) : AccountReader db root :=
  if r.reads + 1 = ovmAccountReadWindow ∨ failed = true then ⟨none, 0⟩ else ⟨some t, r.reads + 1⟩

/-- `read`: the account, and the reader for the next one. -/
def read (r : AccountReader db root) (hash : Hash) :
    Except Err StateAccount × AccountReader db root :=
  match r.opened with
  | .error e => (.error e, r)
  | .ok t =>
    match t.1.get hash.bytes with
    | .error e => (.error e, r.after t true)
    | .ok blob => (decodeLeaf hash blob, r.after t false)

end AccountReader

/-- `readOVMAccount`: one read with a new reader. -/
def readOVMAccount (db : Tries) (root hash : Hash) : Except Err StateAccount :=
  ((AccountReader.new db root).read hash).1

/-- The account under a root, without a reader. -/
def accountAt (db : Tries) (root hash : Hash) : Except Err StateAccount := do
  let t ← db.openTrie zeroHash root
  let blob ← t.get hash.bytes
  decodeLeaf hash blob

namespace AccountReader

variable {db : Tries} {root : Hash}

theorem opened_map (r : AccountReader db root) :
    r.opened.map Subtype.val = db.openTrie zeroHash root := by
  unfold opened
  split
  · next t _ =>
    -- the kept trie was opened at this root
    exact t.2.symm
  · exact map_attachOk _

/-- **A reader returns what a fresh lookup returns**, whatever it keeps. -/
theorem read_fst (r : AccountReader db root) (hash : Hash) :
    (r.read hash).1 = accountAt db root hash := by
  have hAt : accountAt db root hash =
      (r.opened.map Subtype.val >>= fun t => t.get hash.bytes >>= decodeLeaf hash) := by
    rw [r.opened_map]
    rfl
  rw [hAt, read]
  cases r.opened with
  | error e => rfl
  | ok t =>
    show _ = (t.1.get hash.bytes >>= decodeLeaf hash)
    cases hGet : t.1.get hash.bytes <;> simp [hGet]

end AccountReader

theorem readOVMAccount_eq (db : Tries) (root hash : Hash) :
    readOVMAccount db root hash = accountAt db root hash :=
  AccountReader.read_fst _ _

/-! ## Amounts in storage -/

/-- `decodeOVMValue`. -/
def decodeOVMValue (blob : Bytes) : Except Err U256 :=
  if blob.length = 0 then .ok 0
  else do
    validateStorageRLP blob
    let (value, rest) ← rlpResult (Rlp.bytesField blob)
    require (rest = []) (.rlp .moreThanOneValue)
    return .ofNat 256 (ofBE value)

/-- The slot of an amount: nothing for zero, and its minimal encoding
otherwise. -/
def encodeAmount (v : U256) : Bytes := if v = 0 then [] else Rlp.encodeUint 32 v.toNat

/-- A slot that decodes is the encoding of its amount. -/
theorem decodeOVMValue_eq_ok {blob : Bytes} {v : U256} :
    decodeOVMValue blob = .ok v ↔ blob = encodeAmount v := by
  unfold decodeOVMValue encodeAmount
  by_cases hNil : blob.length = 0
  · rw [if_pos hNil, Except.ok.injEq, List.length_eq_zero_iff.mp hNil]
    constructor
    · rintro rfl
      rfl
    · intro h
      split at h
      · next hZero => exact hZero.symm
      · exact absurd h.symm (Rlp.encodeString_ne_nil _)
  · rw [if_neg hNil]
    simp only [bind_eq_ok, rlpResult_eq_ok, require_eq_ok, pure_eq_ok, Except.ok.injEq,
      Prod.exists, validateStorageRLP_eq_ok, Rlp.bytesField_eq_ok_iff]
    constructor
    · rintro ⟨-, ⟨content, rfl, hNe, hLen, hHead⟩, value, rest, ⟨hEq, hValue⟩, -, rfl, rfl⟩
      rw [List.append_nil] at hEq
      obtain rfl : content = value :=
        Rlp.encodeString_injective (by omega) hValue hEq
      have hLt : ofBE content < 2 ^ 256 := by
        have hBound := ofBE_lt content
        have hPow : 256 ^ content.length ≤ 256 ^ 32 := Nat.pow_le_pow_right (by decide) hLen
        omega
      have hMinimal : minimalBE 32 (ofBE content) = content := by
        refine minimalBE_ofBE hLen fun d rest hd hZero => hHead ?_
        rw [hd, hZero]
        rfl
      have hNat : (BitVec.ofNat 256 (ofBE content)).toNat = ofBE content := by
        rw [BitVec.toNat_ofNat, Nat.mod_eq_of_lt hLt]
      have hPos : BitVec.ofNat 256 (ofBE content) ≠ 0 := by
        intro hZero
        -- the minimal encoding of zero is empty
        have hValueZero : ofBE content = 0 := by
          rw [← hNat, hZero]
          rfl
        exact hNe (hMinimal ▸ (minimalBE_eq_nil_iff (by omega)).mpr hValueZero)
      rw [if_neg hPos, Rlp.encodeUint, hNat, hMinimal]
    · intro h
      split at h
      · exact absurd (by rw [h]; rfl) hNil
      · next hPos =>
        have hLt : v.toNat < 256 ^ 32 := by
          have := v.isLt
          omega
        have hLen := length_minimalBE_le 32 v.toNat
        refine ⟨(), ⟨minimalBE 32 v.toNat, h, ?_, hLen, ?_⟩, minimalBE 32 v.toNat, [],
          ⟨by rw [h, List.append_nil]; rfl, by omega⟩, (), rfl, ?_⟩
        · rw [Ne, minimalBE_eq_nil_iff hLt]
          intro hZero
          exact hPos (BitVec.eq_of_toNat_eq hZero)
        · cases hBE : minimalBE 32 v.toNat with
          | nil => simp
          | cons d rest => simpa using head_minimalBE_ne_zero hBE
        · rw [ofBE_minimalBE hLt]
          exact BitVec.ofNat_toNat 256 v ▸ (by simp)

end L2State
