import L2State.Geth.Trie

/-!
# L2State — counts and the bundle manifest

The counters kept by every traversal, the source evidence and the manifest of
a bundle, with the checks that `Validate` makes.

* `Counts` — six `uint64` counters; `addBundleCounts` is their sum, a
  commutative monoid.
* `Tally.validate_counts` — exact totals that fit `uint64` pass
  `Counts.Validate`.
* `Manifest.validate` — the manifest checks, in the order of the source.
-/

namespace L2State

open Lib

/-! ## Counters -/

/-- `bundle.Counts`. -/
@[ext] structure Counts where
  accounts       : UInt64
  storageSlots   : UInt64
  codeReferences : UInt64
  codeRecords    : UInt64
  records        : UInt64
  payloadBytes   : UInt64
deriving DecidableEq

namespace Counts

instance : Zero Counts := ⟨⟨0, 0, 0, 0, 0, 0⟩⟩

/-- `addBundleCounts`. -/
instance : Add Counts :=
  ⟨fun a b => ⟨a.accounts + b.accounts, a.storageSlots + b.storageSlots,
    a.codeReferences + b.codeReferences, a.codeRecords + b.codeRecords,
    a.records + b.records, a.payloadBytes + b.payloadBytes⟩⟩

theorem add_eq (a b : Counts) : a + b =
    ⟨a.accounts + b.accounts, a.storageSlots + b.storageSlots, a.codeReferences + b.codeReferences,
      a.codeRecords + b.codeRecords, a.records + b.records, a.payloadBytes + b.payloadBytes⟩ := rfl

instance : AddCommMonoid Counts where
  add_assoc a b c := by ext1 <;> exact UInt64.add_assoc ..
  zero_add a := by ext1 <;> exact UInt64.zero_add _
  add_zero a := by ext1 <;> exact UInt64.add_zero _
  add_comm a b := by ext1 <;> exact UInt64.add_comm ..
  nsmul := nsmulRec

/-- One account record with a full encoding of `n` bytes. -/
def account (n : Nat) : Counts := ⟨1, 0, 0, 0, 1, .ofNat n⟩

/-- One storage record of `n` bytes. -/
def slot (n : Nat) : Counts := ⟨0, 1, 0, 0, 1, .ofNat n⟩

/-- One code record of `n` bytes. -/
def code (n : Nat) : Counts := ⟨0, 0, 0, 1, 1, .ofNat n⟩

/-- One reference of an account to contract code. -/
def codeReference : Counts := ⟨0, 0, 1, 0, 0, 0⟩

/-- One round of `sumCounts`. -/
def addCount (total value : UInt64) : Option UInt64 :=
  if 0xFFFFFFFFFFFFFFFF - total < value then none else some (total + value)

/-- `sumCounts`: the sum, unless it overflows. -/
def sumCounts (values : List UInt64) : Option UInt64 := values.foldlM addCount 0

/-- `Counts.Validate`. -/
def validate (c : Counts) : Except Err Unit := do
  require (¬ c.codeReferences > c.accounts)
    (.msg "code reference count exceeds account count" [])
  require (¬ c.codeRecords > c.codeReferences)
    (.msg "code record count exceeds code reference count" [])
  require (¬ (c.codeReferences > 0 ∧ c.codeRecords = 0))
    (.msg "state has code references but no code records" [])
  match sumCounts [c.accounts, c.storageSlots, c.codeRecords] with
  | none => .error (.msg "record type counts overflow uint64" [])
  | some expected =>
    require (c.records = expected)
      (.msg "record count does not match record type counts" [])
    if c.records = 0 then
      require (c.payloadBytes = 0) (.msg "empty state has non-zero payload bytes" [])
    else do
      require (c.accounts ≠ 0) (.msg "non-empty state has no account records" [])
      require (c.payloadBytes ≠ 0) (.msg "non-empty state has zero payload bytes" [])

end Counts

/-! ## Exact totals -/

/-- The counters without their 64-bit wrap-around. -/
structure Tally where
  accounts   : Nat
  slots      : Nat
  references : Nat
  codes      : Nat
  payload    : Nat

namespace Tally

instance : Zero Tally := ⟨⟨0, 0, 0, 0, 0⟩⟩

instance : Add Tally :=
  ⟨fun t u => ⟨t.accounts + u.accounts, t.slots + u.slots, t.references + u.references,
    t.codes + u.codes, t.payload + u.payload⟩⟩

/-- Totals are added one by one. -/
theorem mk_add_mk (a s r c p a' s' r' c' p' : Nat) :
    (⟨a, s, r, c, p⟩ : Tally) + ⟨a', s', r', c', p'⟩ =
      ⟨a + a', s + s', r + r', c + c', p + p'⟩ := rfl

/-- The number of records. -/
def records (t : Tally) : Nat := t.accounts + t.slots + t.codes

/-- The counters of exact totals. -/
def counts (t : Tally) : Counts :=
  ⟨.ofNat t.accounts, .ofNat t.slots, .ofNat t.references, .ofNat t.codes, .ofNat t.records,
    .ofNat t.payload⟩

@[simp] theorem counts_zero : (0 : Tally).counts = 0 := rfl

/-- Wrapping around commutes with adding. -/
theorem counts_add (t u : Tally) : (t + u).counts = t.counts + u.counts := by
  have hRecords : (t + u).records = t.records + u.records := by
    change (t.accounts + u.accounts) + (t.slots + u.slots) + (t.codes + u.codes) =
      (t.accounts + t.slots + t.codes) + (u.accounts + u.slots + u.codes)
    omega
  ext1
  case records =>
    change UInt64.ofNat (t + u).records = _
    rw [hRecords]
    exact UInt64.ofNat_add ..
  all_goals exact UInt64.ofNat_add ..

/-- What holds between the totals of a state. -/
structure Valid (t : Tally) : Prop where
  references_le : t.references ≤ t.accounts
  codes_le      : t.codes ≤ t.references
  codes_pos     : 0 < t.references → 0 < t.codes
  empty         : t.accounts = 0 → t.slots = 0 ∧ t.payload = 0
  records_le    : t.records ≤ t.payload

/-- Below the limit nothing is lost. -/
theorem toNat_ofNat {n : Nat} (hn : n < 2 ^ 64) : (UInt64.ofNat n).toNat = n :=
  UInt64.toNat_ofNat_of_lt' hn

theorem ofNat_eq_zero {n : Nat} (hn : n < 2 ^ 64) : UInt64.ofNat n = 0 ↔ n = 0 := by
  rw [← UInt64.toNat_inj, toNat_ofNat hn, UInt64.toNat_zero]

/-- Below the limit counters compare as the totals do. -/
theorem ofNat_lt_ofNat {m n : Nat} (hm : m < 2 ^ 64) (hn : n < 2 ^ 64) :
    UInt64.ofNat m < UInt64.ofNat n ↔ m < n := by
  rw [UInt64.lt_iff_toNat_lt, toNat_ofNat hm, toNat_ofNat hn]

/-- A round of `sumCounts` that does not overflow. -/
theorem addCount_of_lt {x y : UInt64} (h : x.toNat + y.toNat < 2 ^ 64) :
    Counts.addCount x y = some (x + y) := by
  have hMax : (0xFFFFFFFFFFFFFFFF : UInt64).toNat = 0xFFFFFFFFFFFFFFFF := by simp
  refine if_neg ?_
  rw [UInt64.lt_iff_toNat_lt, UInt64.toNat_sub_of_le, hMax]
  · omega
  · rw [UInt64.le_iff_toNat_le, hMax]
    omega

/-- `sumCounts` of three counters that do not overflow. -/
theorem sumCounts_of_lt {x y z : UInt64} (h : x.toNat + y.toNat + z.toNat < 2 ^ 64) :
    Counts.sumCounts [x, y, z] = some (x + y + z) := by
  have hxy : (x + y).toNat = x.toNat + y.toNat := by
    rw [UInt64.toNat_add, Nat.mod_eq_of_lt (by omega)]
  have h₀ : Counts.addCount 0 x = some x := by
    rw [addCount_of_lt (by rw [UInt64.toNat_zero]; omega), UInt64.zero_add]
  have h₁ : Counts.addCount x y = some (x + y) := addCount_of_lt (by omega)
  have h₂ : Counts.addCount (x + y) z = some (x + y + z) := addCount_of_lt (by omega)
  unfold Counts.sumCounts
  rw [List.foldlM_cons, h₀, Option.bind_eq_bind, Option.bind_some, List.foldlM_cons, h₁,
    Option.bind_eq_bind, Option.bind_some, List.foldlM_cons, h₂, Option.bind_eq_bind,
    Option.bind_some, List.foldlM_nil, Option.pure_def]

/-- **Exact totals that fit `uint64` pass `Counts.Validate`.** -/
theorem validate_counts {t : Tally} (h : t.Valid) (hFit : t.payload < 2 ^ 64) :
    t.counts.validate = .ok () := by
  obtain ⟨hRef, hCodes, hPos, hEmpty, hLe⟩ := h
  have hSum : t.accounts + t.slots + t.codes < 2 ^ 64 := lt_of_le_of_lt hLe hFit
  have h₁ : ¬ t.counts.codeReferences > t.counts.accounts := by
    change ¬ UInt64.ofNat t.accounts < UInt64.ofNat t.references
    rw [ofNat_lt_ofNat (by omega) (by omega)]
    omega
  have h₂ : ¬ t.counts.codeRecords > t.counts.codeReferences := by
    change ¬ UInt64.ofNat t.references < UInt64.ofNat t.codes
    rw [ofNat_lt_ofNat (by omega) (by omega)]
    omega
  have h₃ : ¬ (t.counts.codeReferences > 0 ∧ t.counts.codeRecords = 0) := by
    change ¬ (UInt64.ofNat 0 < UInt64.ofNat t.references ∧ UInt64.ofNat t.codes = 0)
    rw [ofNat_lt_ofNat (by omega) (by omega), ofNat_eq_zero (by omega)]
    rintro ⟨hR, hC⟩
    have := hPos hR
    omega
  have hSumCounts : Counts.sumCounts
      [t.counts.accounts, t.counts.storageSlots, t.counts.codeRecords] = some t.counts.records := by
    rw [sumCounts_of_lt]
    · change some (UInt64.ofNat t.accounts + UInt64.ofNat t.slots + UInt64.ofNat t.codes) =
        some (UInt64.ofNat (t.accounts + t.slots + t.codes))
      rw [UInt64.ofNat_add, UInt64.ofNat_add]
    · change (UInt64.ofNat t.accounts).toNat + (UInt64.ofNat t.slots).toNat +
        (UInt64.ofNat t.codes).toNat < 2 ^ 64
      rw [toNat_ofNat (by omega), toNat_ofNat (by omega), toNat_ofNat (by omega)]
      exact hSum
  -- behind the three comparisons the records decide which check is left
  simp only [Counts.validate, require_true h₁, require_true h₂, require_true h₃,
    ok_bind, hSumCounts]
  split
  · next hZero =>
    have hZero : t.accounts + t.slots + t.codes = 0 := (ofNat_eq_zero hSum).mp hZero
    exact require_true ((ofNat_eq_zero hFit).mpr (hEmpty (by omega)).2)
  · next hNonzero =>
    have hNonzero : t.accounts + t.slots + t.codes ≠ 0 := fun h =>
      hNonzero ((ofNat_eq_zero hSum).mpr h)
    have hAccounts : t.counts.accounts ≠ 0 := by
      change UInt64.ofNat t.accounts ≠ 0
      rw [Ne, ofNat_eq_zero (by omega)]
      intro hNone
      have := hEmpty hNone
      omega
    have hPayload : t.counts.payloadBytes ≠ 0 := by
      change UInt64.ofNat t.payload ≠ 0
      rw [Ne, ofNat_eq_zero hFit]
      have : t.records ≠ 0 := hNonzero
      omega
    simp only [require_true hAccounts, require_true hPayload, require_true trivial, ok_bind]

end Tally

/-! ## Source evidence -/

/-- `bundle.Head`. -/
structure Head where
  blockNumber : UInt64
  blockHash   : Hash
  stateRoot   : Hash
deriving DecidableEq

/-- `bundle.SourceEvidence`. -/
structure SourceEvidence where
  headBefore : Head
  headAfter  : Head
  headerRLP  : Bytes
deriving DecidableEq

/-- The number of a header that has one within `uint64`. -/
def Header.number? (h : Header) : Option UInt64 :=
  match h.number with
  | some n => if n < 2 ^ 64 then some (.ofNat n) else none
  | none => none

/-- `SourceEvidence.ValidatedHeader`. -/
def SourceEvidence.validatedHeader (g : Geth) (s : SourceEvidence) : Except Err Header := do
  require (s.headBefore = s.headAfter) (.msg "source head changed during traversal" [])
  require (s.headBefore.blockHash ≠ zeroHash) (.msg "source block hash is empty" [])
  require (s.headBefore.stateRoot ≠ zeroHash) (.msg "source state root is empty" [])
  require (s.headerRLP.length ≠ 0) (.msg "source header RLP is empty" [])
  let header ← wrapping "decode header RLP as geth v1.17.6 header: %w" []
    (g.decodeHeader s.headerRLP)
  match header.number? with
  | none => .error (.msg "header block number is missing or exceeds uint64" [])
  | some number =>
    require (number = s.headBefore.blockNumber)
      (.msg "header block number mismatch: have %d want %d"
        [.num number.toNat, .num s.headBefore.blockNumber.toNat])
    require (g.keccak s.headerRLP = s.headBefore.blockHash)
      (.msg "header block hash mismatch: have %s want %s"
        [.hash (g.keccak s.headerRLP), .hash s.headBefore.blockHash])
    require (header.root = s.headBefore.stateRoot)
      (.msg "header state root mismatch: have %s want %s"
        [.hash header.root, .hash s.headBefore.stateRoot])
    return header

/-- `SourceEvidence.Validate`. -/
def SourceEvidence.validate (g : Geth) (s : SourceEvidence) : Except Err Unit := do
  let _ ← s.validatedHeader g

/-! ## The manifest -/

/-- The two stream compressions, `CompressionZstd` and `CompressionNone`. -/
def compressionZstd : String := "zstd"
def compressionNone : String := "none"

/-- The file names of the record stream. -/
def recordsFileZstd : String := "state.records.zst"
def recordsFileRaw : String := "state.records"

/-- `bundle.StateFile`. -/
structure StateFile where
  name               : String
  compression        : String
  size               : Int
  recordPayloadBytes : UInt64
  sha256             : Hash
  recordChainHash    : Hash
deriving DecidableEq

/-- `bundle.Manifest`. A creation time is a number of ticks; zero is the zero
time. -/
structure Manifest where
  format           : String
  version          : Nat
  createdAt        : Nat
  toolVersion      : String
  gethVersion      : String
  source           : SourceEvidence
  counts           : Counts
  stateFile        : StateFile
  supportedSchemes : List String
deriving DecidableEq

/-- `FormatName` and `FormatVersion`. -/
def formatName : String := "metis-l2state"
def formatVersion : Nat := 1

/-- What the process knows about itself: the clock, which is past the zero
time, and the versions that the toolchain recorded. -/
structure BuildInfo where
  now         : Nat
  now_ne_zero : now ≠ 0
  mainVersion : String
  gethVersion : String

/-- `ToolVersion`, as `versions` of `version.go` computes it. -/
def BuildInfo.toolVersion (b : BuildInfo) : String :=
  if b.mainVersion = "" then "(devel)" else b.mainVersion

/-- `NewManifest` always names a tool version. -/
theorem BuildInfo.toolVersion_ne_empty (b : BuildInfo) : b.toolVersion ≠ "" := by
  unfold toolVersion
  split
  · decide
  · assumption

/-- `NewManifest`. -/
def newManifest (build : BuildInfo) (source : SourceEvidence) (counts : Counts)
    (stateFile : StateFile) : Manifest where
  format := formatName
  version := formatVersion
  createdAt := build.now
  toolVersion := build.toolVersion
  gethVersion := build.gethVersion
  source := source
  counts := counts
  stateFile := stateFile
  supportedSchemes := ["hash", "path"]

/-- `filepath.Base(name) == name` holds of a nonempty name without separator. -/
def isBaseName (name : String) : Prop := name ≠ "" ∧ '/' ∉ name.toList

instance (name : String) : Decidable (isBaseName name) :=
  inferInstanceAs (Decidable (name ≠ "" ∧ '/' ∉ name.toList))

/-- `Manifest.Validate`. -/
def Manifest.validate (g : Geth) (m : Manifest) : Except Err Unit := do
  require (m.format = formatName ∧ m.version = formatVersion)
    (.msg "unsupported bundle format %q version %d" [.text m.format, .num m.version])
  require (m.toolVersion ≠ "") (.msg "manifest tool_version is empty" [])
  require (m.createdAt ≠ 0) (.msg "manifest created_at is empty" [])
  m.source.validate g
  require (m.stateFile.name = recordsFileZstd ∨ m.stateFile.name = recordsFileRaw)
    (.msg "invalid state file name %q" [.text m.stateFile.name])
  require (isBaseName m.stateFile.name) (.msg "state file name must not contain a path" [])
  require (m.stateFile.compression = compressionZstd ∨ m.stateFile.compression = compressionNone)
    (.msg "unsupported compression %q" [.text m.stateFile.compression])
  require (m.stateFile.compression = compressionZstd → m.stateFile.name = recordsFileZstd)
    (.msg "zstd bundle must use state.records.zst" [])
  require (m.stateFile.compression = compressionNone → m.stateFile.name = recordsFileRaw)
    (.msg "uncompressed bundle must use state.records" [])
  require (0 < m.stateFile.size) (.msg "state file size must be positive" [])
  require (m.stateFile.sha256 ≠ zeroHash) (.msg "state file sha256 is empty" [])
  require (m.stateFile.recordChainHash ≠ zeroHash) (.msg "record chain hash is empty" [])
  m.counts.validate
  require (¬ (m.counts.records = 0 ∧ m.stateFile.recordPayloadBytes ≠ 0))
    (.msg "empty record stream has non-zero record payload bytes" [])
  require (¬ (m.counts.records ≠ 0 ∧ m.stateFile.recordPayloadBytes = 0))
    (.msg "non-empty record stream has zero record payload bytes" [])
  require (¬ m.stateFile.recordPayloadBytes > m.counts.payloadBytes)
    (.msg "record payload bytes exceed expanded consensus payload bytes" [])
  require (m.supportedSchemes = ["hash", "path"])
    (.msg "manifest supported_schemes must be [hash, path]" [])

end L2State
