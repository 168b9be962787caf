import L2State.Bundle.ConsumerSpec
import L2State.Bundle.Scanner
import L2State.State.TraverserSpec

/-!
# L2State — export

`recordWriterVisitor` and `finalizeExportBundle` of `export.go`: the visitor
that turns a traversal into a record stream, and the manifest of the bundle.

* `recordWriterVisitor` — one record per account, slot and first code.
* `Wrote` — what a list of records adds to a writer; it composes.
* `runEffects_writer` — **the emitted records**: a traversal with this visitor
  writes exactly the records of its groups, in order.
-/

namespace L2State

open Lib

/-- A writer call inside a visitor: a failed call ends the traversal. -/
def liftWrite : Writer × Option Err → Except Err Writer
  | (w, none) => .ok w
  | (_, some e) => .error e

@[simp] theorem liftWrite_eq_ok {x : Writer × Option Err} {w : Writer} :
    liftWrite x = .ok w ↔ x = (w, none) := by
  obtain ⟨w', _ | e⟩ := x <;> simp [liftWrite]

/-- `recordWriterVisitor`. -/
def recordWriterVisitor (g : Geth) : Visitor Writer where
  account hash account fullRLP w := do
    let payload ← wrapping "encode account %s: %w" [.hash hash] (encodeAccount account)
    let w ← wrapping "write account %s: %w" [.hash hash]
      (liftWrite (w.writeAccount g hash payload fullRLP.length))
    if account.codeHash ≠ emptyCodeHash.bytes then
      wrapping "count account %s code reference: %w" [.hash hash] (liftWrite w.countCodeReference)
    else return w
  accountFromBundle := none
  storage accountHash slotHash valueRLP w :=
    wrapping "write account %s slot %s: %w" [.hash accountHash, .hash slotHash]
      (liftWrite (w.writeStorage g accountHash slotHash valueRLP))
  code accountHash codeHash code w :=
    wrapping "write account %s code %s: %w" [.hash accountHash, .hash codeHash]
      (liftWrite (w.writeCode g codeHash code))

/-- `ConfirmStableAndClose`: the head is read again. -/
def confirmStable (g : Geth) (db : Store) (head : Head) (headerRLP : Bytes) (operation : String) :
    Except Err SourceEvidence := do
  let (headAfter, headerRLPAfter) ← wrapping "re-read source head: %w" [] (readLegacyHead g db)
  require (headAfter = head ∧ headerRLPAfter = headerRLP)
    (.msg "source head changed during %s: before %+v after %+v"
      [.text operation, .hash head.blockHash, .hash headAfter.blockHash])
  return ⟨head, headAfter, headerRLP⟩

/-- `finalizeExportBundle`: the manifest, after its own check, and the records
file. -/
def finalizeExportBundle (g : Geth) (fc : FileCodec) (build : BuildInfo) (db : Store) (head : Head)
    (headerRLP : Bytes) (w : Writer) (state : StateResult) : Except Err (Manifest × Bytes) := do
  let (result, file) ← w.close fc
  require (result.counts = state.counts)
    (.msg "export record counts mismatch: writer %+v traversal %+v"
      [.num result.counts.records.toNat, .num state.counts.records.toNat])
  let source ← confirmStable g db head headerRLP "export"
  let manifest := newManifest build source state.counts
    { name := result.fileName, compression := result.compression, size := result.size
      recordPayloadBytes := result.recordPayloadBytes, sha256 := result.sha256
      recordChainHash := result.recordChainHash }
  manifest.validate g
  return (manifest, file)

/-! ## What the records of a traversal add to a writer -/

/-- The wire bytes of a list of records. -/
def recordBytes (rs : List Record) : Nat := (rs.map fun r => r.payload.length).sum

/-- The scanner's counters agree with the writer's. -/
def WireCounts.Matches (c : WireCounts) (k : Counts) : Prop :=
  c.accounts = k.accounts ∧ c.storageSlots = k.storageSlots ∧ c.codeRecords = k.codeRecords ∧
    c.records = k.records

/-- The writer `w'` is `w` after the records `rs`, which add `counts`. -/
structure Wrote (g : Geth) (w : Writer) (rs : List Record) (counts : Counts) (w' : Writer) :
    Prop where
  stream      : w'.stream = w.stream ++ rs.flatMap Record.frame
  chain       : w'.chain = rs.foldl (chainStep g) w.chain
  counts      : w'.counts = w.counts + counts
  bytes       : w'.recordBytes = w.recordBytes + .ofNat (recordBytes rs)
  wire        : ∀ c : WireCounts, c.Matches w.counts → (rs.foldl .addRecord c).Matches w'.counts
  checked     : ∀ r ∈ rs, Writer.checkRecord r.typ r.key r.payload = .ok ()
  fileName    : w'.fileName = w.fileName
  compression : w'.compression = w.compression
  closed      : w'.closed = w.closed

namespace Wrote

variable {g : Geth} {w w₁ w₂ : Writer} {rs rs' : List Record} {c c' : Counts}

theorem refl (g : Geth) (w : Writer) : Wrote g w [] 0 w where
  stream := by simp
  chain := rfl
  counts := by simp
  bytes := by simp [recordBytes]
  wire := fun _ h => h
  checked := by simp
  fileName := rfl
  compression := rfl
  closed := rfl

theorem trans (h : Wrote g w rs c w₁) (h' : Wrote g w₁ rs' c' w₂) :
    Wrote g w (rs ++ rs') (c + c') w₂ where
  stream := by simp [h'.stream, h.stream]
  chain := by simp [h'.chain, h.chain]
  counts := by rw [h'.counts, h.counts, add_assoc]
  bytes := by
    rw [h'.bytes, h.bytes, UInt64.add_assoc, ← UInt64.ofNat_add]
    simp [recordBytes]
  wire := by
    intro k hk
    rw [List.foldl_append]
    exact h'.wire _ (h.wire k hk)
  checked := by
    intro r hr
    rcases List.mem_append.mp hr with hr | hr
    · exact h.checked r hr
    · exact h'.checked r hr
  fileName := h'.fileName.trans h.fileName
  compression := h'.compression.trans h.compression
  closed := h'.closed.trans h.closed

theorem matches_addRecord {r : Record} {n : Nat} {k : Counts}
    (hCheck : Writer.checkRecord r.typ r.key r.payload = .ok ()) (m : WireCounts)
    (h : m.Matches k) : (m.addRecord r).Matches (k + recordCounts r.typ n) := by
  simp only [Writer.checkRecord, bind_eq_ok] at hCheck
  obtain ⟨-, -, keyLen, hKeyLen, -⟩ := hCheck
  obtain ⟨h₁, h₂, h₃, h₄⟩ := h
  rcases typ_of_recordKeyLength hKeyLen with ⟨-, hTyp | hTyp⟩ | ⟨-, hTyp⟩ <;>
    simp [WireCounts.Matches, WireCounts.addRecord, WireCounts.add, recordCounts, hTyp, h₁, h₂, h₃,
      h₄, recordAccount, recordStorage, recordCode, Counts.account, Counts.slot, Counts.code,
      Counts.add_eq]

/-- One successful write. -/
theorem single {r : Record} {n : Nat} (h : w.writeRecord g r.typ r.key r.payload n = (w₁, none)) :
    Wrote g w [r] (recordCounts r.typ n) w₁ := by
  obtain ⟨-, hCheck, ctx, rfl⟩ := Writer.writeRecord_eq_ok h
  exact { stream := by simp [Writer.wrote], chain := rfl, counts := rfl
          bytes := by simp [Writer.wrote, recordBytes], wire := matches_addRecord hCheck
          checked := by simpa using hCheck
          fileName := rfl, compression := rfl, closed := rfl }

/-- A counted code reference. -/
theorem reference (h : w.countCodeReference = (w₁, none)) : Wrote g w [] .codeReference w₁ := by
  unfold Writer.countCodeReference at h
  split at h
  · cases h
  · cases h
    exact { stream := by simp, chain := rfl, counts := rfl, bytes := by simp [recordBytes]
            wire := by simp [WireCounts.Matches, Counts.codeReference, Counts.add_eq]
            checked := by simp, fileName := rfl, compression := rfl, closed := rfl }

end Wrote

/-! ## The records of a traversal -/

variable {g : Geth} {w w' : Writer}

/-- The bytes of an account record are at most those of the full account. -/
theorem writer_account {hash : Hash} {a : StateAccount} {full : Bytes}
    (hLen : a.codeHash.length = 32) (h : (recordWriterVisitor g).account hash a full w = .ok w') :
    Wrote g w [.account hash (slimAccountRLP a)]
        (.account full.length + referenceCounts (.ofBytes 32 a.codeHash)) w' ∧
      (slimAccountRLP a).length ≤ full.length := by
  simp only [recordWriterVisitor, bind_eq_ok, wrapping_eq_ok, liftWrite_eq_ok,
    encodeAccount_eq_ok_iff] at h
  obtain ⟨payload, ⟨-, rfl⟩, w₁, hWrite, h⟩ := h
  unfold Writer.writeAccount at hWrite
  split at hWrite
  · cases hWrite
  next hLe =>
  refine ⟨?_, not_lt.mp hLe⟩
  have hRecord : Wrote g w [.account hash (slimAccountRLP a)] (.account full.length) w₁ :=
    Wrote.single hWrite
  have hCode : a.codeHash = emptyCodeHash.bytes ↔
      FixedBytes.ofBytes 32 a.codeHash = emptyCodeHash := by
    rw [← FixedBytes.bytes_injective.eq_iff, FixedBytes.bytes_ofBytes hLen]
  by_cases hEmpty : a.codeHash = emptyCodeHash.bytes
  · rw [if_neg (not_not.mpr hEmpty)] at h
    cases h
    simpa [referenceCounts, hCode.mp hEmpty] using hRecord
  · rw [if_pos hEmpty, wrapping_eq_ok, liftWrite_eq_ok] at h
    have := hRecord.trans (Wrote.reference h)
    simpa [referenceCounts, mt hCode.mpr hEmpty] using this

theorem writer_slots {owner : Hash} {slots : List (Hash × Bytes)}
    (h : runEffects (recordWriterVisitor g) .nil
      (slots.map fun s => Effect.storage owner s.1 s.2) w = .ok w') :
    Wrote g w (slots.map fun s => .storage owner s.1 s.2) (slotCounts slots) w' := by
  induction slots generalizing w with
  | nil =>
    cases h
    exact .refl g _
  | cons s slots ih =>
    obtain ⟨k, v⟩ := s
    obtain ⟨w₁, hHead, hTail⟩ := runEffects_cons_eq_ok.mp h
    simp only [runEffect, recordWriterVisitor, wrapping_eq_ok, liftWrite_eq_ok] at hHead
    have hRecord : Wrote g w [.storage owner k v] (.slot v.length) w₁ := Wrote.single hHead
    simpa [slotCounts] using hRecord.trans (ih hTail)

theorem writer_code {grp : Group}
    (h : runEffects (recordWriterVisitor g) .nil
      (codeEffects grp.hash grp.codeHash grp.code) w = .ok w') :
    Wrote g w grp.codeRecords (codeCounts grp.code) w' := by
  unfold Group.codeRecords
  cases hCode : grp.code with
  | none =>
    rw [hCode] at h
    cases h
    exact .refl g _
  | some c =>
    simp only [hCode, codeEffects, runEffects_singleton, runEffect, recordWriterVisitor,
      wrapping_eq_ok, liftWrite_eq_ok] at h
    exact Wrote.single h

/-- The visitor calls of an account write its records. -/
theorem writer_group {grp : Group} (hLen : grp.account.codeHash.length = 32)
    (h : runEffects (recordWriterVisitor g) .nil grp.calls w = .ok w') :
    Wrote g w grp.records grp.counts w' ∧ (slimAccountRLP grp.account).length ≤
      grp.full.length := by
  obtain ⟨w₁, hAccount, h⟩ := runEffects_cons_eq_ok.mp h
  obtain ⟨w₂, hSlots, hCode⟩ := runEffects_append_eq_ok.mp h
  obtain ⟨hWrote, hLe⟩ := writer_account hLen hAccount
  have hAll := (hWrote.trans (writer_slots hSlots)).trans (writer_code hCode)
  refine ⟨?_, hLe⟩
  have hCounts : grp.counts = .account grp.full.length + referenceCounts grp.codeHash +
      slotCounts grp.slots + codeCounts grp.code := by
    rw [Group.counts, add_right_comm (Counts.account _)]
  rw [hCounts]
  simpa [Group.records, Group.storageRecords, Group.codeHash] using hAll

variable {gs : List Group}

/-- The visitor calls of a list of accounts write its records. -/
theorem writer_groups {known : List Hash} (hOk : WellFormedFrom g known gs)
    (h : runEffects (recordWriterVisitor g) .nil (gs.flatMap Group.calls) w = .ok w') :
    Wrote g w (gs.flatMap Group.records) (totalCounts gs) w' ∧
      ∀ grp ∈ gs, (slimAccountRLP grp.account).length ≤ grp.full.length := by
  induction gs generalizing known w with
  | nil =>
    cases h
    exact ⟨.refl g _, by simp⟩
  | cons grp gs ih =>
    obtain ⟨hHead, hTail⟩ := hOk
    rw [List.flatMap_cons] at h
    obtain ⟨w₁, hGroup, hRest⟩ := runEffects_append_eq_ok.mp h
    obtain ⟨hWrote, hLe⟩ := writer_group hHead.codeHash_length hGroup
    obtain ⟨hWroteAll, hLeAll⟩ := ih hTail hRest
    refine ⟨?_, List.forall_mem_cons.mpr ⟨hLe, hLeAll⟩⟩
    simpa using hWrote.trans hWroteAll

/-! ## The totals of an exported state are valid -/

/-- The wire bytes of a state are at most its consensus bytes. -/
theorem recordBytes_le (hLe : ∀ grp ∈ gs, (slimAccountRLP grp.account).length ≤ grp.full.length) :
    recordBytes (gs.flatMap Group.records) ≤ (groupsTally gs).payload := by
  induction gs with
  | nil => exact Nat.le_refl _
  | cons grp gs ih =>
    have hGroup : recordBytes grp.records ≤ grp.tally.payload := by
      have := hLe grp (by simp)
      cases hCode : grp.code <;>
        simp [recordBytes, Group.records, Group.storageRecords, Group.codeRecords, hCode,
          Group.tally, Group.calls, codeEffects, Effect.payload, Function.comp_def, Record.account,
          Record.storage, Record.code, this]
    have hRest := ih fun x hx => hLe x (by simp [hx])
    have hSplit : recordBytes ((grp :: gs).flatMap Group.records) =
        recordBytes grp.records + recordBytes (gs.flatMap Group.records) := by
      simp [recordBytes]
    rw [hSplit]
    exact Nat.add_le_add hGroup hRest

/-- Records with a payload have as many bytes as there are records. -/
theorem length_le_recordBytes {rs : List Record} (h : ∀ r ∈ rs, r.payload.length ≠ 0) :
    rs.length ≤ recordBytes rs := by
  induction rs with
  | nil => exact Nat.le_refl _
  | cons r rs ih =>
    have hRest := ih fun x hx => h x (by simp [hx])
    have hHead := h r (by simp)
    simp only [recordBytes, List.length_cons, List.map_cons, List.sum_cons] at hRest ⊢
    omega

/-- The tally counts the records. -/
theorem groupsTally_records (gs : List Group) :
    (groupsTally gs).records = (gs.flatMap Group.records).length := by
  induction gs with
  | nil => rfl
  | cons grp gs ih =>
    have hGroup : grp.tally.records = grp.records.length := by
      cases hCode : grp.code <;>
        simp [Tally.records, Group.tally, Group.records, Group.storageRecords, Group.codeRecords,
          hCode] <;> omega
    have hSplit : (groupsTally (grp :: gs)).records =
        grp.tally.records + (groupsTally gs).records := by
      change (grp.tally.accounts + (groupsTally gs).accounts) +
        (grp.tally.slots + (groupsTally gs).slots) + (grp.tally.codes + (groupsTally gs).codes) = _
      simp only [Tally.records]
      omega
    rw [hSplit, hGroup, ih, List.flatMap_cons, List.length_append]

/-- Code is recorded at the first reference: the code totals of a state. -/
theorem groupsTally_codes {known : List Hash} (hOk : WellFormedFrom g known gs) :
    (groupsTally gs).references ≤ (groupsTally gs).accounts ∧
      (groupsTally gs).codes ≤ (groupsTally gs).references ∧
      (known = [] → 0 < (groupsTally gs).references → 0 < (groupsTally gs).codes) := by
  induction gs generalizing known with
  | nil => exact ⟨Nat.le_refl _, Nat.le_refl _, fun _ h => h⟩
  | cons grp gs ih =>
    obtain ⟨hHead, hTail⟩ := hOk
    obtain ⟨hRef, hCodes, hPos⟩ := ih hTail
    have hCode := hHead.code
    change grp.tally.references + _ ≤ grp.tally.accounts + _ ∧
      grp.tally.codes + _ ≤ grp.tally.references + _ ∧
      (known = [] → 0 < grp.tally.references + _ → 0 < grp.tally.codes + _)
    cases hSome : grp.code with
    | some c =>
      rw [hSome] at hCode
      have hRefs : grp.tally.references = 1 := if_neg hCode.1
      have hOne : grp.tally.codes = 1 := by simp [Group.tally, hSome]
      have hAcc : grp.tally.accounts = 1 := rfl
      omega
    | none =>
      rw [hSome] at hCode hPos
      have hZero : grp.tally.codes = 0 := by simp [Group.tally, hSome]
      have hAcc : grp.tally.accounts = 1 := rfl
      have hRefs : grp.tally.references ≤ 1 := by
        simp only [Group.tally]
        split <;> omega
      refine ⟨by omega, by omega, fun hKnown hPositive => ?_⟩
      subst hKnown
      -- without earlier codes an account without code record has no code
      have hNone : grp.tally.references = 0 :=
        if_pos (hCode.resolve_right (List.not_mem_nil))
      have := hPos rfl (by omega)
      omega

theorem payload_ne_of_checkRecord {r : Record}
    (h : Writer.checkRecord r.typ r.key r.payload = .ok ()) : r.payload.length ≠ 0 := by
  simp only [Writer.checkRecord, validatePayloadLength, bind_eq_ok, require_eq_ok] at h
  obtain ⟨⟨⟩, ⟨-, -, -, hNe, -⟩, -⟩ := h
  exact hNe

/-- **The totals of an exported state are valid.** -/
theorem groupsTally_valid (hOk : WellFormedFrom g [] gs)
    (hWrote : Wrote g w (gs.flatMap Group.records) (totalCounts gs) w')
    (hLe : ∀ grp ∈ gs, (slimAccountRLP grp.account).length ≤ grp.full.length) :
    (groupsTally gs).Valid := by
  obtain ⟨hRef, hCodes, hPos⟩ := groupsTally_codes hOk
  refine ⟨hRef, hCodes, hPos rfl, ?_, ?_⟩
  · intro hNone
    cases gs with
    | nil => exact ⟨rfl, rfl⟩
    | cons grp gs =>
      change 1 + (groupsTally gs).accounts = 0 at hNone
      omega
  · rw [groupsTally_records]
    calc (gs.flatMap Group.records).length
        ≤ recordBytes (gs.flatMap Group.records) :=
          length_le_recordBytes fun r hr => payload_ne_of_checkRecord (hWrote.checked r hr)
      _ ≤ (groupsTally gs).payload := recordBytes_le hLe

/-! ## The manifest of an exported state -/

/-- The file of a new writer fits its compression. -/
theorem newWriter_eq_ok {compression : String} {head : Head} {headerRLP : Bytes} {ctx : Option Nat}
    (h : newWriter g compression head headerRLP ctx = .ok w) :
    w.stream = streamMagic ∧ w.chain = initialChainHash g head headerRLP ∧ w.counts = 0 ∧
      w.recordBytes = 0 ∧ w.closed = false ∧
      ((w.compression = compressionZstd ∧ w.fileName = recordsFileZstd) ∨
        (w.compression = compressionNone ∧ w.fileName = recordsFileRaw)) := by
  unfold newWriter at h
  by_cases hZstd : compression = compressionZstd
  · rw [if_pos hZstd] at h
    cases h
    exact ⟨rfl, rfl, rfl, rfl, rfl, .inl ⟨hZstd, rfl⟩⟩
  · rw [if_neg hZstd] at h
    by_cases hNone : compression = compressionNone
    · rw [if_pos hNone] at h
      cases h
      exact ⟨rfl, rfl, rfl, rfl, rfl, .inr ⟨hNone, rfl⟩⟩
    · rw [if_neg hNone] at h
      cases h

/-- The checks of `Manifest.Validate` on a manifest of `NewManifest`. -/
theorem newManifest_validate {build : BuildInfo} {source : SourceEvidence} {t : Tally}
    {f : StateFile} {wire : Nat} (hSource : source.validate g = .ok ())
    (hFile : (f.compression = compressionZstd ∧ f.name = recordsFileZstd) ∨
      (f.compression = compressionNone ∧ f.name = recordsFileRaw))
    (hSize : 0 < f.size) (hSha : f.sha256 ≠ zeroHash) (hChain : f.recordChainHash ≠ zeroHash)
    (hValid : t.Valid) (hFit : t.payload < 2 ^ 64) (hBytes : f.recordPayloadBytes = .ofNat wire)
    (hRecords : t.records ≤ wire) (hZero : t.records = 0 → wire = 0) (hWire : wire ≤ t.payload) :
    (newManifest build source t.counts f).validate g = .ok () := by
  have hName : f.name = recordsFileZstd ∨ f.name = recordsFileRaw := hFile.imp And.right And.right
  have hBase : isBaseName f.name := by
    rcases hName with h | h <;> rw [h] <;> decide
  have hCompression : f.compression = compressionZstd ∨ f.compression = compressionNone :=
    hFile.imp And.left And.left
  have hZstd : f.compression = compressionZstd → f.name = recordsFileZstd := by
    rcases hFile with h | h
    · exact fun _ => h.2
    · rw [h.1]; exact fun h => absurd h (by decide)
  have hNone : f.compression = compressionNone → f.name = recordsFileRaw := by
    rcases hFile with h | h
    · rw [h.1]; exact fun h => absurd h (by decide)
    · exact fun _ => h.2
  have hCountsRecords : t.counts.records = 0 ↔ t.records = 0 :=
    Tally.ofNat_eq_zero (by have := hValid.records_le; omega)
  have hWireZero : f.recordPayloadBytes = 0 ↔ wire = 0 := by
    rw [hBytes]
    exact Tally.ofNat_eq_zero (by omega)
  have h₁ : ¬ (t.counts.records = 0 ∧ f.recordPayloadBytes ≠ 0) := by
    rw [hCountsRecords, Ne, hWireZero]
    rintro ⟨h, h'⟩
    exact h' (hZero h)
  have h₂ : ¬ (t.counts.records ≠ 0 ∧ f.recordPayloadBytes = 0) := by
    rw [Ne, hCountsRecords, hWireZero]
    omega
  have h₃ : ¬ f.recordPayloadBytes > t.counts.payloadBytes := by
    rw [hBytes]
    change ¬ UInt64.ofNat t.payload < UInt64.ofNat wire
    rw [Tally.ofNat_lt_ofNat hFit (by omega)]
    omega
  unfold Manifest.validate newManifest
  dsimp only
  rw [require_true ⟨rfl, rfl⟩, ok_bind, require_true build.toolVersion_ne_empty, ok_bind,
    require_true build.now_ne_zero, ok_bind, hSource, ok_bind, require_true hName, ok_bind,
    require_true hBase, ok_bind, require_true hCompression, ok_bind, require_true hZstd, ok_bind,
    require_true hNone, ok_bind, require_true hSize, ok_bind, require_true hSha, ok_bind,
    require_true hChain, ok_bind, Tally.validate_counts hValid hFit, ok_bind, require_true h₁,
    ok_bind, require_true h₂, ok_bind, require_true h₃, ok_bind, require_true rfl]

/-! ## Export and scan -/

theorem framed_records (gs : List Group) :
    (gs.flatMap Group.records).map Record.framed = gs.flatMap Group.records := by
  have hGroup : ∀ grp : Group, grp.records.map Record.framed = grp.records := by
    intro grp
    cases hCode : grp.code <;>
      simp [Group.records, Group.storageRecords, Group.codeRecords, hCode, Record.framed,
        Record.account, Record.storage, Record.code, recordAccount, recordStorage, recordCode]
  rw [List.map_flatMap]
  simp only [hGroup]

theorem payloadBytes_foldl (rs : List Record) (c : WireCounts) :
    (rs.foldl WireCounts.addRecord c).payloadBytes = c.payloadBytes + .ofNat (recordBytes rs) := by
  induction rs generalizing c with
  | nil => simp [recordBytes]
  | cons r rs ih =>
    rw [List.foldl_cons, ih]
    simp only [WireCounts.addRecord, WireCounts.add, recordBytes, List.map_cons, List.sum_cons]
    rw [UInt64.ofNat_add, UInt64.add_assoc]

theorem payload_groupsTally (gs : List Group) :
    (groupsTally gs).payload = ((gs.flatMap Group.calls).map Effect.payload).sum := by
  induction gs with
  | nil => rfl
  | cons grp gs ih =>
    change grp.tally.payload + (groupsTally gs).payload = _
    rw [ih, List.flatMap_cons, List.map_append, List.sum_append]
    rfl

/-- The traversal of the head state, with some visitor and without node sink. -/
def exportTraversal {σ : Type} (g : Geth) (src : Source) (head : Head) (v : Visitor σ) :
    Traversal σ :=
  { geth := g, source := src, root := head.stateRoot, visitor := v, trieNodes := .nil }

/-- The consumer of a scan that expects the head state. -/
def scanConsumer {σ : Type} (g : Geth) (head : Head) (v : Visitor σ) : Consumer σ :=
  { geth := g, expectedRoot := head.stateRoot, visitor := v, trieNodes := .nil }

/-- **The bundle of an exported state**: finalizing succeeds, the manifest is
valid and its scan hands the records to the consumer. -/
theorem finalizeExportBundle_of_wrote {fc : FileCodec} (hLaw : fc.Lawful) {build : BuildInfo}
    {db : Store} {head : Head} {headerRLP : Bytes} {compression : String} {ctx : Option Nat}
    {w₀ : Writer} {τ : Type} {consume : τ → Record → Except Err τ} {t t' : τ}
    (hHead : readLegacyHead g db = .ok (head, headerRLP))
    (hNew : newWriter g compression head headerRLP ctx = .ok w₀) (hOk : WellFormedFrom g [] gs)
    (hWrote : Wrote g w₀ (gs.flatMap Group.records) (totalCounts gs) w)
    (hLe : ∀ grp ∈ gs, (slimAccountRLP grp.account).length ≤ grp.full.length)
    (hFit : (groupsTally gs).payload < 2 ^ 64)
    (hSha : fc.sha256 (fc.fileBytes w.compression w.finalStream) ≠ zeroHash)
    (hChain : w.chain ≠ zeroHash) (hRun : (gs.flatMap Group.records).foldlM consume t = .ok t') :
    ∃ m file result,
      finalizeExportBundle g fc build db head headerRLP w ⟨head.stateRoot, totalCounts gs⟩ =
        .ok (m, file) ∧
      m.validate g = .ok () ∧ m.counts = totalCounts gs ∧
      scanRecords g fc m file consume t = .ok (result, t') := by
  obtain ⟨hStream, hChain₀, hCounts₀, hBytes₀, hClosed₀, hName₀⟩ := newWriter_eq_ok hNew
  set rs := gs.flatMap Group.records with hrs
  have hFinal : w.finalStream = recordStream rs := by
    rw [Writer.finalStream, hWrote.stream, hStream, recordStream]
  have hBytes : w.recordBytes = .ofNat (recordBytes rs) := by
    rw [hWrote.bytes, hBytes₀, UInt64.zero_add]
  have hCounts : w.counts = totalCounts gs := by rw [hWrote.counts, hCounts₀, zero_add]
  -- the file, and the manifest over it
  set file := fc.fileBytes w.compression w.finalStream with hFileDef
  have hFileNe : file ≠ [] := by
    refine hLaw.fileBytes_ne_nil _ ?_
    simp [Writer.finalStream]
  set f : StateFile :=
    { name := w.fileName, compression := w.compression, size := file.length
      recordPayloadBytes := w.recordBytes, sha256 := fc.sha256 file, recordChainHash := w.chain }
    with hf
  set m := newManifest build ⟨head, head, headerRLP⟩ (totalCounts gs) f with hm
  have hFileName : (f.compression = compressionZstd ∧ f.name = recordsFileZstd) ∨
      (f.compression = compressionNone ∧ f.name = recordsFileRaw) := by
    change (w.compression = _ ∧ w.fileName = _) ∨ (w.compression = _ ∧ w.fileName = _)
    rw [hWrote.compression, hWrote.fileName]
    exact hName₀
  have hRecords : (groupsTally gs).records ≤ recordBytes rs := by
    rw [groupsTally_records]
    exact length_le_recordBytes fun r hr => payload_ne_of_checkRecord (hWrote.checked r hr)
  have hZero : (groupsTally gs).records = 0 → recordBytes rs = 0 := by
    rw [groupsTally_records, List.length_eq_zero_iff]
    intro hNil
    rw [hrs, hNil]
    rfl
  have hValid : m.validate g = .ok () := by
    rw [hm, ← counts_groupsTally]
    exact newManifest_validate (readLegacyHead_validate hHead) hFileName
      (Int.natCast_pos.mpr (List.length_pos_iff.mpr hFileNe)) hSha hChain
      (groupsTally_valid hOk hWrote hLe) hFit hBytes hRecords hZero (recordBytes_le hLe)
  -- the scan counts what the writer counted
  have hVerify : verifyCounts m (rs.foldl WireCounts.addRecord 0) = .ok () := by
    have hMatch := hWrote.wire 0 (by rw [hCounts₀]; exact ⟨rfl, rfl, rfl, rfl⟩)
    rw [hCounts] at hMatch
    have hPayload : (rs.foldl WireCounts.addRecord 0).payloadBytes =
        m.stateFile.recordPayloadBytes := by
      rw [payloadBytes_foldl]
      exact (UInt64.zero_add _).trans hBytes.symm
    obtain ⟨h₁, h₂, h₃, h₄⟩ := hMatch
    unfold verifyCounts
    rw [require_true ⟨h₁, h₂, h₃, h₄⟩, ok_bind, require_true hPayload]
  have hFinalize : finalizeExportBundle g fc build db head headerRLP w
      ⟨head.stateRoot, totalCounts gs⟩ = .ok (m, file) := by
    have hClosed : w.closed = false := hWrote.closed.trans hClosed₀
    have hStable : confirmStable g db head headerRLP "export" = .ok ⟨head, head, headerRLP⟩ := by
      unfold confirmStable
      rw [hHead, wrapping_ok, ok_bind]
      dsimp only
      rw [require_true ⟨rfl, rfl⟩]
      rfl
    unfold finalizeExportBundle Writer.close
    rw [require_true hClosed, ok_bind, pure_eq_ok, ok_bind]
    dsimp only
    rw [require_true hCounts, ok_bind, hStable, ok_bind]
    change (m.validate g >>= fun _ => pure (m, file)) = _
    rw [hValid, ok_bind]
    rfl
  have hFile : file = fc.fileBytes m.stateFile.compression (recordStream rs) := by
    rw [← hFinal]
    rfl
  have hChainHash : m.stateFile.recordChainHash =
      rs.foldl (chainStep g) (initialChainHash g m.source.headBefore m.source.headerRLP) := by
    change w.chain = rs.foldl (chainStep g) (initialChainHash g head headerRLP)
    rw [hWrote.chain, hChain₀]
  obtain ⟨result, hScan⟩ := scanRecords_of_frames hLaw hValid hFile rfl rfl hChainHash hVerify
    hWrote.checked
    (by rw [hrs, framed_records]; exact hRun)
  exact ⟨m, file, result, hFinalize, hValid, rfl, hScan⟩

/-- **Export followed by a scan is the identity on states.** A traversal with
the record writer emits records that the consumer accepts one by one; it
returns the same result and makes the same visitor calls. The writer has the
counts of the traversal, and if these fit `uint64` the bundle is valid and its
scan hands over these records. -/
theorem scan_of_export {src : Source} {fc : FileCodec} {build : BuildInfo} {db : Store}
    {head : Head} {headerRLP : Bytes} {compression : String} {ctx : Option Nat} {w₀ : Writer}
    {r : StateResult} {s : TraverserState Writer} (hEmpty : (g.stack.hash []).1 = emptyRootHash)
    (hOrd : g.stack.Ordered) (hLaw : fc.Lawful)
    (hHead : readLegacyHead g db = .ok (head, headerRLP))
    (hNew : newWriter g compression head headerRLP ctx = .ok w₀)
    (hRun : (exportTraversal g src head (recordWriterVisitor g)).run w₀ = .ok (r, s)) :
    ∃ (rs : List Record) (calls : List Effect) (c c' : ConsumerState (List Effect)),
      s.out.stream = streamMagic ++ rs.flatMap Record.frame ∧
      (∃ s', (exportTraversal g src head recordCalls).run [] = .ok (r, s') ∧ s'.out = calls) ∧
      rs.foldlM (scanConsumer g head recordCalls).consume (.init []) = .ok c ∧
      (scanConsumer g head recordCalls).finish c = .ok (r, c') ∧ c'.out = calls ∧
      s.out.counts = r.counts ∧
      ((calls.map Effect.payload).sum < 2 ^ 64 →
        fc.sha256 (fc.fileBytes s.out.compression s.out.finalStream) ≠ zeroHash →
        s.out.chain ≠ zeroHash →
        ∃ m file result,
          finalizeExportBundle g fc build db head headerRLP s.out r = .ok (m, file) ∧
          m.validate g = .ok () ∧ m.counts = r.counts ∧
          scanRecords g fc m file (scanConsumer g head recordCalls).consume (.init []) =
            .ok (result, c)) := by
  obtain ⟨gs, hAccounts, hReads, hCanon, w, hEffects, rfl, rfl⟩ :=
    (Traversal.run_eq_ok_iff hEmpty).mp hRun
  change Canonical g head.stateRoot gs at hCanon
  replace hEffects : runEffects (recordWriterVisitor g) .nil (gs.flatMap Group.calls) w₀ =
      .ok w := by
    rw [← visitorCalls_traverserEffects g, ← runEffects_nil_eq_calls rfl]
    exact hEffects
  obtain ⟨hWrote, hLe⟩ := writer_groups hCanon.wellFormed hEffects
  obtain ⟨hStream, -, hCounts₀, -⟩ := newWriter_eq_ok hNew
  -- the traversal and the consumer, with a visitor that only records its calls
  have hTraverse := (@Traversal.run_eq_ok_iff _ (exportTraversal g src head recordCalls) hEmpty [] _
    _).mpr ⟨gs, hAccounts, hReads, hCanon, gs.flatMap Group.calls, by
      change runEffects recordCalls .nil (traverserEffects g gs) [] = _
      rw [runEffects_recordCalls, visitorCalls_traverserEffects, List.nil_append], rfl, rfl⟩
  have hConsume := (@Consumer.run_eq_ok_iff _ (scanConsumer g head recordCalls) _
    (gs.flatMap Group.records) hOrd [] _).mpr
    ⟨gs, framed_records gs, hCanon, gs.flatMap Group.calls, by
      change runEffects recordCalls .nil (scanEffects g gs) [] = _
      rw [runEffects_recordCalls, visitorCalls_scanEffects, List.nil_append], rfl, rfl⟩
  obtain ⟨c, hFold, hFinish⟩ := bind_eq_ok.mp hConsume
  refine ⟨gs.flatMap Group.records, gs.flatMap Group.calls, c, _, ?_, ⟨_, hTraverse, rfl⟩, hFold,
    hFinish, rfl, ?_, fun hFit hSha hChain => ?_⟩
  · change w.stream = _
    rw [hWrote.stream, hStream]
  · change w.counts = _
    rw [hWrote.counts, hCounts₀, zero_add]
  · rw [← payload_groupsTally] at hFit
    exact finalizeExportBundle_of_wrote hLaw hHead hNew hCanon.wellFormed hWrote hLe hFit hSha
      hChain hFold

/-- A database with the header of a block as its canonical head. -/
def headDb (number : UInt64) (hash : Hash) (header : Bytes) : Store :=
  (((SortedMap.empty.insert headBlockKey hash.bytes).insert (headerNumberKey hash)
    (toBE 8 number.toNat)).insert (headerHashKey number) hash.bytes).insert
      (headerKey number hash) header

/-- A codec whose frames are the content behind the zstd magic number, with
SHA-256 on the sample file. -/
def sampleCodec : FileCodec where
  zstdEncode b := [0x28, 0xb5, 0x2f, 0xfd] ++ b
  zstdDecode b := .ok (b.drop 4)
  sha256 b := if b.length = 319 then
      hashOfNat 0x0c084a0b8c5a7b4da66a6498a48aef39187f8d05f6ab7992ae15830de5581021
    else zeroHash

theorem sampleCodec_lawful : sampleCodec.Lawful where
  decode_encode b := rfl
  encode_ne_nil b := by simp [sampleCodec]

def sampleHead : Head := ⟨7, sampleBlockHash, sampleStateRoot⟩

/-- The sample state, exported without compression. -/
theorem scan_of_export_sample :
    ∃ w₀ r s, newWriter sampleGeth compressionNone sampleHead sampleHeader none = .ok w₀ ∧
      (exportTraversal sampleGeth sampleSource sampleHead (recordWriterVisitor sampleGeth)).run w₀ =
        .ok (r, s) ∧
      ∃ m file result c,
        finalizeExportBundle sampleGeth sampleCodec ⟨1, by decide, "", ""⟩
          (headDb 7 sampleBlockHash sampleHeader) sampleHead sampleHeader s.out r = .ok (m, file) ∧
        m.validate sampleGeth = .ok () ∧
        scanRecords sampleGeth sampleCodec m file
          (scanConsumer sampleGeth sampleHead recordCalls).consume (.init []) =
          .ok (result, c) := by
  have hHead : readLegacyHead sampleGeth (headDb 7 sampleBlockHash sampleHeader) =
      .ok (sampleHead, sampleHeader) := by decide +kernel
  obtain ⟨w₀, hNew⟩ : ∃ w₀, newWriter sampleGeth compressionNone sampleHead sampleHeader none =
      .ok w₀ := ⟨_, rfl⟩
  have hExport : okWith ((exportTraversal sampleGeth sampleSource sampleHead
      (recordWriterVisitor sampleGeth)).run w₀) (fun x => decide (x.2.out.chain ≠ zeroHash ∧
        sampleCodec.sha256 (sampleCodec.fileBytes x.2.out.compression x.2.out.finalStream) ≠
          zeroHash)) = true := by
    cases hNew
    decide +kernel
  have hCalls : okWith ((exportTraversal sampleGeth sampleSource sampleHead recordCalls).run [])
      (fun x => decide ((x.2.out.map Effect.payload).sum < 2 ^ 64)) = true := by decide +kernel
  obtain ⟨⟨r, s⟩, hRun, hHashes⟩ := okWith_eq_true.mp hExport
  obtain ⟨⟨r', s'⟩, hRun', hSum⟩ := okWith_eq_true.mp hCalls
  have hEmpty : (sampleGeth.stack.hash []).1 = emptyRootHash := referenceGeth_empty _
  have hOrd : sampleGeth.stack.Ordered := referenceGeth_ordered _
  obtain ⟨rs, calls, c, c', -, ⟨s'', hRun'', rfl⟩, -, -, -, -, hManifest⟩ :=
    scan_of_export hEmpty hOrd sampleCodec_lawful hHead hNew hRun
  cases hRun'.symm.trans hRun''
  obtain ⟨hChain, hSha⟩ := of_decide_eq_true hHashes
  obtain ⟨m, file, result, hFinalize, hValid, -, hScan⟩ :=
    hManifest (of_decide_eq_true hSum) hSha hChain
  exact ⟨w₀, r, s, hNew, hRun, m, file, result, c, hFinalize, hValid, hScan⟩

/-! ### Totals beyond `uint64`

The six counters wrap around. A state of `2 ^ 63` empty accounts has a payload
of `70 * 2 ^ 63` bytes, a multiple of `2 ^ 64`: the manifest then claims
records without payload, and its own check rejects it. -/

/-- An account without balance, storage and code. -/
def emptyAccount : StateAccount := ⟨0, 0, emptyRootHash, emptyCodeHash.bytes⟩

/-- The first `n` keys, each with an empty account. -/
def wideGroups (n : Nat) : List Group :=
  (List.range n).map fun i => ⟨hashOfNat i, emptyAccount, [], none⟩

theorem wideGroups_wellFormed (g : Geth) (known : List Hash) (n : Nat) :
    WellFormedFrom g known (wideGroups n) := by
  have hGroup : ∀ (known : List Hash) (h : Hash),
      (⟨h, emptyAccount, [], none⟩ : Group).WellFormed g known := fun known h =>
    { codeHash_length := emptyCodeHash.length_bytes
      storage := ⟨by simp, trivial, by simp [emptyAccount], by simp⟩
      code := .inl (FixedBytes.ofBytes_bytes _) }
  unfold wideGroups
  induction List.range n generalizing known with
  | nil => trivial
  | cons i is ih => exact ⟨hGroup _ _, ih _⟩

theorem wideGroups_tally (n : Nat) :
    groupsTally (wideGroups n) = ⟨n, 0, 0, 0, n * 70⟩ := by
  have hGroup : ∀ h : Hash, (⟨h, emptyAccount, [], none⟩ : Group).tally = ⟨1, 0, 0, 0, 70⟩ := by
    intro h
    have hCode : (⟨h, emptyAccount, [], none⟩ : Group).codeHash = emptyCodeHash :=
      FixedBytes.ofBytes_bytes _
    have hFull : (encodeStateAccount emptyAccount).length = 70 := by decide +kernel
    simp [Group.tally, Group.calls, codeEffects, hCode, Effect.payload, Group.full, hFull]
  have hList : ∀ is : List Nat, groupsTally
      (is.map fun i => ⟨hashOfNat i, emptyAccount, [], none⟩) =
        ⟨is.length, 0, 0, 0, is.length * 70⟩ := by
    intro is
    induction is with
    | nil => rfl
    | cons i is ih =>
      rw [List.map_cons, groupsTally, ih, hGroup, Tally.mk_add_mk, List.length_cons]
      congr 1 <;> omega
  rw [wideGroups, hList, List.length_range]

theorem wideGroups_leaves {n : Nat} (hn : n ≤ 2 ^ 64) :
    ((wideGroups n).map Group.leaf).Pairwise fun a b => a.1 < b.1 := by
  rw [wideGroups, List.map_map, List.pairwise_map]
  refine (@List.pairwise_lt_range n).imp_of_mem fun hi hj hij => ?_
  refine toBE_lt_toBE hij ?_
  have := List.mem_range.mp hj
  have : (2 : Nat) ^ 64 < 256 ^ 32 := by norm_num
  omega

/-- A writer that is not cancelled writes empty accounts. -/
theorem writer_wideGroups {g : Geth} {w : Writer} (hClosed : w.closed = false) (hCtx : w.ctx = none)
    (n : Nat) : ∃ w', runEffects (recordWriterVisitor g) .nil
      ((wideGroups n).flatMap Group.calls) w = .ok w' := by
  unfold wideGroups
  induction List.range n generalizing w with
  | nil => exact ⟨w, rfl⟩
  | cons i is ih =>
    have hCheck : Writer.checkRecord recordAccount (hashOfNat i).bytes
        (slimAccountRLP emptyAccount) = .ok () := by
      have hLen : (slimAccountRLP emptyAccount).length = 5 := by decide +kernel
      have hValid : validatePayloadLength recordAccount 5 = .ok () := by decide
      have hKey : recordKeyLength recordAccount = .ok 32 := by decide
      unfold Writer.checkRecord
      rw [hLen, hValid, ok_bind, hKey, ok_bind, require_true (hashOfNat i).length_bytes]
    obtain ⟨w₁, hWrite, hCtx₁, hClosed₁⟩ := @Writer.writeRecord_of_running g w _ _ _
      (encodeStateAccount emptyAccount).length hClosed hCtx hCheck
    obtain ⟨w', hRest⟩ := ih hClosed₁ hCtx₁
    refine ⟨w', ?_⟩
    rw [List.map_cons, List.flatMap_cons, runEffects_append_eq_ok]
    refine ⟨w₁, ?_, hRest⟩
    have hLe : ¬ (slimAccountRLP emptyAccount).length >
        (encodeStateAccount emptyAccount).length := by
      decide +kernel
    have hEncode : encodeAccount emptyAccount = .ok (slimAccountRLP emptyAccount) :=
      encodeAccount_eq_ok_iff.mpr ⟨emptyCodeHash.length_bytes, rfl⟩
    change runEffects _ _ [Effect.account _ _ _] w = _
    rw [runEffects_singleton]
    change (recordWriterVisitor g).account _ emptyAccount (encodeStateAccount emptyAccount) w = _
    unfold recordWriterVisitor
    dsimp only
    rw [hEncode, wrapping_ok, ok_bind, Writer.writeAccount, if_neg hLe, hWrite]
    rfl

/-- The databases that hold the wide state. -/
def wideSource (n : Nat) : Source where
  openTrie _ _ := .ok (handleOf ((wideGroups n).map Group.leaf) [])
  readCode _ := .ok []

/-- A database with one header has that head. -/
theorem readLegacyHead_headDb {g : Geth} {root : Hash} (hDecode : g.decodeHeader = readHeader)
    (hHash : g.keccak (headerOf root) ≠ zeroHash) (hRoot : root ≠ zeroHash) :
    readLegacyHead g (headDb 7 (g.keccak (headerOf root)) (headerOf root)) =
      .ok (⟨7, g.keccak (headerOf root), root⟩, headerOf root) := by
  set hash := g.keccak (headerOf root) with hHashDef
  have hNe : hash.bytes ≠ [] := by
    intro hNil
    have := hash.length_bytes
    rw [hNil] at this
    simp at this
  have hBlock : readHash (headDb 7 hash (headerOf root)) headBlockKey = hash := by
    have hGet : (headDb 7 hash (headerOf root)).get? headBlockKey = some hash.bytes := by
      simp [headDb, SortedMap.get?_insert, headBlockKey, headerKey, headerHashKey, headerNumberKey,
        asciiBytes, lowByte]
    simp [readHash, hGet, hNe]
  have hNumber : readHeaderNumber (headDb 7 hash (headerOf root)) hash = some 7 := by
    have hGet : (headDb 7 hash (headerOf root)).get? (headerNumberKey hash) = some (toBE 8 7) := by
      simp [headDb, SortedMap.get?_insert, headerKey, headerHashKey, headerNumberKey]
    have hSeven : ofBE (toBE 8 7) = 7 := by decide
    simp [readHeaderNumber, hGet, hSeven]
  have hCanonical : readHash (headDb 7 hash (headerOf root)) (headerHashKey 7) = hash := by
    have hGet : (headDb 7 hash (headerOf root)).get? (headerHashKey 7) = some hash.bytes := by
      have hKey : headerHashKey 7 ≠ headerKey 7 hash := by
        intro h
        have := congrArg List.length h
        simp [headerHashKey, headerKey, hash.length_bytes] at this
      rw [headDb, SortedMap.get?_insert, if_neg hKey, SortedMap.get?_insert, if_pos rfl]
    simp [readHash, hGet, hNe]
  have hHeader : readHeaderRLP (headDb 7 hash (headerOf root)) hash 7 = headerOf root := by
    rw [readHeaderRLP, headDb, SortedMap.get?_insert, if_pos rfl]
    rfl
  have hLen : (headerOf root).length ≠ 0 := by
    rw [Ne, List.length_eq_zero_iff]
    exact Rlp.encodeList_ne_nil _
  unfold readLegacyHead
  dsimp only
  rw [hBlock, require_true hHash, ok_bind, hNumber]
  dsimp only
  rw [hCanonical, require_true rfl, ok_bind, hHeader, require_true hLen, ok_bind, hDecode,
    readHeader_headerOf, wrapping_ok, ok_bind]
  have hSeven : (⟨some 7, root⟩ : Header).number? = some 7 := rfl
  rw [hSeven]
  dsimp only
  rw [require_true rfl, ok_bind, require_true rfl, ok_bind, require_true hRoot, ok_bind]
  rfl

/-- Whatever the hash function, the wide state is exported but not accepted
by the manifest check. -/
theorem wide_export {keccak : Bytes → Hash} (hKeccak : ∀ b, keccak b ≠ zeroHash) {n : Nat}
    (hn : n = 2 ^ 63) :
    ∃ db head headerRLP w₀ r s,
      readLegacyHead (referenceGeth keccak) db = .ok (head, headerRLP) ∧
      newWriter (referenceGeth keccak) compressionNone head headerRLP none = .ok w₀ ∧
      (exportTraversal (referenceGeth keccak) (wideSource n) head
        (recordWriterVisitor (referenceGeth keccak))).run w₀ = .ok (r, s) ∧
      s.out.chain ≠ zeroHash ∧ r.counts.records ≠ 0 ∧ r.counts.payloadBytes = 0 := by
  set g := referenceGeth keccak with hg
  set root := (g.stack.hash ((wideGroups n).map Group.leaf)).1 with hRootDef
  have hRoot : root ≠ zeroHash := by
    change (Option.map _ _).getD emptyRootHash ≠ zeroHash
    cases (build keccak 64 [] (hexLeaves ((wideGroups n).map Group.leaf))).root with
    | none => exact (show emptyRootHash ≠ zeroHash by decide)
    | some s => exact hKeccak _
  set head : Head := ⟨7, g.keccak (headerOf root), root⟩ with hHead
  obtain ⟨w₀, hNew⟩ : ∃ w₀, newWriter g compressionNone head (headerOf root) none = .ok w₀ :=
    ⟨_, rfl⟩
  have hStart : w₀.closed = false ∧ w₀.ctx = none ∧
      w₀.chain = initialChainHash g head (headerOf root) := by
    cases hNew
    exact ⟨rfl, rfl, rfl⟩
  obtain ⟨w, hWrite⟩ := @writer_wideGroups g w₀ hStart.1 hStart.2.1 n
  have hSorted : ((wideGroups n).map Group.leaf).Pairwise fun a b => a.1 < b.1 :=
    wideGroups_leaves (by omega)
  have hLeaf : ∀ e ∈ (wideGroups n).map Group.leaf, e.1.length = 32 ∧ e.2 ≠ [] := by
    intro e he
    obtain ⟨grp, -, rfl⟩ := List.mem_map.mp he
    exact ⟨grp.hash.length_bytes, encodeStateAccount_ne_nil _⟩
  have hCanon : Canonical g root (wideGroups n) :=
    { wellFormed := wideGroups_wellFormed g [] n
      accepted := StackOps.accepted_of_pairwise (referenceGeth_accepts keccak)
        (fun e he => (hLeaf e he).1) (fun e he => (hLeaf e he).2) hSorted
      root_eq := rfl }
  have hReads : ∀ grp ∈ wideGroups n, grp.ReadFrom (wideSource n) := by
    intro grp hMem
    obtain ⟨i, -, rfl⟩ := List.mem_map.mp hMem
    exact ⟨fun hNe => absurd rfl hNe, by simp⟩
  have hEffects : runEffects (recordWriterVisitor g) .nil (traverserEffects g (wideGroups n)) w₀ =
      .ok w := by
    rw [runEffects_nil_eq_calls rfl, visitorCalls_traverserEffects]
    exact hWrite
  have hRun := (@Traversal.run_eq_ok_iff _ (exportTraversal g (wideSource n) head
    (recordWriterVisitor g)) (referenceGeth_empty keccak) w₀ _ _).mpr
    ⟨wideGroups n, ⟨⟨_, [], none⟩, rfl, rfl, rfl⟩, hReads, hCanon, w, hEffects, rfl, rfl⟩
  refine ⟨headDb 7 (g.keccak (headerOf root)) (headerOf root), head, headerOf root, w₀, _, _,
    readLegacyHead_headDb rfl (hKeccak _) hRoot, hNew, hRun, ?_, ?_, ?_⟩
  · change w.chain ≠ zeroHash
    obtain ⟨hWrote, -⟩ := writer_groups hCanon.wellFormed hWrite
    rw [hWrote.chain, hStart.2.2]
    -- the chain is a hash at every step
    have hFold : ∀ (rs : List Record) (c : Hash), c ≠ zeroHash →
        rs.foldl (chainStep g) c ≠ zeroHash := by
      intro rs
      induction rs with
      | nil => exact fun c hc => hc
      | cons r rs ih => exact fun c _ => ih _ (hKeccak _)
    exact hFold _ _ (hKeccak _)
  · change (totalCounts (wideGroups n)).records ≠ 0
    rw [← counts_groupsTally, wideGroups_tally]
    change UInt64.ofNat (n + 0 + 0) ≠ 0
    rw [Ne, Tally.ofNat_eq_zero (by omega)]
    omega
  · change (totalCounts (wideGroups n)).payloadBytes = 0
    rw [← counts_groupsTally, wideGroups_tally, hn]
    change UInt64.ofNat (2 ^ 63 * 70) = 0
    rw [← UInt64.toNat_inj]
    simp

/-- The exported manifest need not be valid: the counters of a wide state
wrap around. -/
theorem export_manifest_can_wrap :
    ¬ ∀ (g : Geth) (src : Source) (fc : FileCodec) (build : BuildInfo) (db : Store) (head : Head)
        (headerRLP : Bytes) (compression : String) (ctx : Option Nat) (w₀ : Writer)
        (r : StateResult) (s : TraverserState Writer),
      (g.stack.hash []).1 = emptyRootHash → g.stack.Ordered → fc.Lawful →
      readLegacyHead g db = .ok (head, headerRLP) →
      newWriter g compression head headerRLP ctx = .ok w₀ →
      (exportTraversal g src head (recordWriterVisitor g)).run w₀ = .ok (r, s) →
      fc.sha256 (fc.fileBytes s.out.compression s.out.finalStream) ≠ zeroHash →
      s.out.chain ≠ zeroHash →
      ∃ m file, finalizeExportBundle g fc build db head headerRLP s.out r = .ok (m, file) ∧
        m.validate g = .ok () := by
  intro hClaim
  obtain ⟨n, hn⟩ : ∃ n : Nat, n = 2 ^ 63 := ⟨_, rfl⟩
  obtain ⟨db, head, headerRLP, w₀, r, s, hHead, hNew, hRun, hChain, hRecords, hPayload⟩ :=
    @wide_export (fun _ => emptyRootHash) (fun _ => by decide) n hn
  let fc : FileCodec := { sampleCodec with sha256 := fun _ => emptyRootHash }
  have hLaw : fc.Lawful := ⟨fun _ => rfl, by simp [fc, sampleCodec]⟩
  obtain ⟨m, file, hFinalize, hValid⟩ := hClaim _ _ fc ⟨1, by decide, "", ""⟩ _ _ _ _ _ _ _ _
    (referenceGeth_empty _) (referenceGeth_ordered _) hLaw hHead hNew hRun
    (show emptyRootHash ≠ zeroHash by decide) hChain
  -- the manifest has the counts of the traversal, and its check demands a payload
  have hCounts : m.counts = r.counts := by
    simp only [finalizeExportBundle, bind_eq_ok, pure_eq_ok, Except.ok.injEq, Prod.mk.injEq,
      Prod.exists] at hFinalize
    obtain ⟨-, -, -, -, -, source, -, -, -, rfl, -⟩ := hFinalize
    rfl
  have hCheck : m.counts.validate = .ok () := by
    simp only [Manifest.validate, bind_eq_ok] at hValid
    obtain ⟨-, -, -, -, -, -, -, -, -, -, -, -, -, -, -, -, -, -, -, -, -, -, -, -, ⟨⟩,
        hCheck, -⟩ := hValid
    exact hCheck
  rw [hCounts] at hCheck
  simp only [Counts.validate, bind_eq_ok, require_eq_ok] at hCheck
  obtain ⟨-, -, -, -, -, -, hCheck⟩ := hCheck
  split at hCheck
  · cases hCheck
  · simp only [bind_eq_ok, require_eq_ok] at hCheck
    obtain ⟨-, -, hCheck⟩ := hCheck
    rw [if_neg hRecords] at hCheck
    simp only [bind_eq_ok, require_eq_ok] at hCheck
    obtain ⟨-, -, hNe⟩ := hCheck
    exact hNe hPayload

end L2State
