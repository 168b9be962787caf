import L2State.Bundle.Manifest

/-!
# L2State — database keys and the canonical head

The key families of geth's key-value schema that the repository reads and
writes, and `readLegacyHead` of `legacy.go`.

* `Store` — a key-value database, iterated in key order.
* `readLegacyHead` — the canonical `LastBlock` of a database.
* `readLegacyHead_validate` — a head that is returned passes
  `SourceEvidence.Validate` together with its header.
-/

namespace L2State

open Lib

/-- A key-value database. -/
abbrev Store := SortedMap Bytes Bytes

/-- The error of a key that is not there. -/
def keyNotFound : Err := .outside "not found"

/-- `Get` of a database that works. -/
def Store.answer (db : Store) (key : Bytes) : Except Err Bytes :=
  match db.get? key with
  | some value => .ok value
  | none => .error keyNotFound

/-- The bytes of an ASCII text. -/
def asciiBytes (s : String) : Bytes := s.toList.map fun c => lowByte c.toNat

/-! ## Keys -/

/-- `headBlockKey`. -/
def headBlockKey : Bytes := asciiBytes "LastBlock"

/-- `headerNumberKey`: `H` + hash. -/
def headerNumberKey (hash : Hash) : Bytes := 0x48 :: hash.bytes

/-- `headerKey`: `h` + number + hash. -/
def headerKey (number : UInt64) (hash : Hash) : Bytes :=
  0x68 :: (toBE 8 number.toNat ++ hash.bytes)

/-- `headerHashKey`: `h` + number + `n`. -/
def headerHashKey (number : UInt64) : Bytes := 0x68 :: (toBE 8 number.toNat ++ [0x6e])

/-- `codeKey`: `c` + hash. -/
def codeKey (hash : Hash) : Bytes := 0x63 :: hash.bytes

/-- `accountTrieNodeKey`: `A` + path. -/
def accountTrieNodeKey (path : Bytes) : Bytes := 0x41 :: path

/-- `storageTrieNodeKey`: `O` + owner + path. -/
def storageTrieNodeKey (owner : Hash) (path : Bytes) : Bytes := 0x4f :: (owner.bytes ++ path)

/-- `accountSnapshotKey`: `a` + hash. -/
def accountSnapshotKey (hash : Hash) : Bytes := 0x61 :: hash.bytes

/-- `storageSnapshotKey`: `o` + account + slot. -/
def storageSnapshotKey (account slot : Hash) : Bytes := 0x6f :: (account.bytes ++ slot.bytes)

/-! ## Head lookups -/

/-- A stored hash; a missing or empty value is the zero hash. -/
def readHash (db : Store) (key : Bytes) : Hash :=
  match db.get? key with
  | some d => if d.length = 0 then zeroHash else .ofBytes 32 d
  | none => zeroHash

/-- `rawdb.ReadHeaderNumber`. -/
def readHeaderNumber (db : Store) (hash : Hash) : Option UInt64 :=
  match db.get? (headerNumberKey hash) with
  | some d => if d.length = 8 then some (.ofNat (ofBE d)) else none
  | none => none

/-- `rawdb.ReadHeaderRLP`. -/
def readHeaderRLP (db : Store) (hash : Hash) (number : UInt64) : Bytes :=
  (db.get? (headerKey number hash)).getD []

/-- `readLegacyHead`. -/
def readLegacyHead (g : Geth) (db : Store) : Except Err (Head × Bytes) := do
  let hash := readHash db headBlockKey
  require (hash ≠ zeroHash) (.msg "legacy database has no LastBlock head" [])
  match readHeaderNumber db hash with
  | none => .error (.msg "legacy head %s has no hash-to-number mapping" [.hash hash])
  | some number => do
    let canonical := readHash db (headerHashKey number)
    require (canonical = hash)
      (.msg "legacy LastBlock is not canonical at height %d: head %s canonical %s"
        [.num number.toNat, .hash hash, .hash canonical])
    let headerRLP := readHeaderRLP db hash number
    require (headerRLP.length ≠ 0)
      (.msg "legacy head header RLP is missing for block %d %s" [.num number.toNat, .hash hash])
    let header ← wrapping "decode legacy header with geth v1.17.6: %w" [] (g.decodeHeader headerRLP)
    match header.number? with
    | none => .error (.msg "legacy head header number is missing or exceeds uint64" [])
    | some headerNumber => do
      require (headerNumber = number)
        (.msg "legacy header number mismatch: header %d mapping %d"
          [.num headerNumber.toNat, .num number.toNat])
      require (g.keccak headerRLP = hash)
        (.msg "legacy header hash mismatch: header %s LastBlock %s"
          [.hash (g.keccak headerRLP), .hash hash])
      require (header.root ≠ zeroHash) (.msg "legacy head state root is empty" [])
      return (⟨number, hash, header.root⟩, headerRLP)

/-- **A head that is read is valid evidence.** -/
theorem readLegacyHead_validate {g : Geth} {db : Store} {head : Head} {headerRLP : Bytes}
    (h : readLegacyHead g db = .ok (head, headerRLP)) :
    (⟨head, head, headerRLP⟩ : SourceEvidence).validate g = .ok () := by
  simp only [readLegacyHead, bind_eq_ok, require_eq_ok] at h
  obtain ⟨-, hHash, h⟩ := h
  split at h
  · cases h
  next number hNumber =>
  simp only [bind_eq_ok, require_eq_ok, wrapping_eq_ok] at h
  obtain ⟨-, -, -, hLen, header, hDecode, h⟩ := h
  split at h
  · cases h
  next headerNumber hHeaderNumber =>
  simp only [bind_eq_ok, require_eq_ok, pure_eq_ok, Except.ok.injEq, Prod.mk.injEq] at h
  obtain ⟨-, rfl, -, hKeccak, -, hRoot, rfl, rfl⟩ := h
  simp only [SourceEvidence.validate, SourceEvidence.validatedHeader, require_true hHash,
    require_true hRoot, require_true hLen, hDecode, wrapping_ok, ok_bind, hHeaderNumber,
    require_true hKeccak, pure_eq_ok]
  rfl

end L2State
