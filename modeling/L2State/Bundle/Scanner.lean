import L2State.Bundle.Writer

/-!
# L2State — the record stream scanner

`recordScanner` of `bundle/scanner.go`: it reads the stream back record by
record, hands every record to a consumer and compares counts and digests with
the manifest at the end.

* `ScannerState.next` — one record, or the end of the stream.
* `scanRecords` — the whole scan of a records file.
* `next_frame` — a frame is read back as its record.
* `scanLoop_frames` — a stream of frames is handed over record by record.
-/

namespace L2State

open Lib

/-- `WireCounts`. -/
structure WireCounts where
  accounts     : UInt64
  storageSlots : UInt64
  codeRecords  : UInt64
  records      : UInt64
  payloadBytes : UInt64
deriving DecidableEq

instance : Zero WireCounts := ⟨⟨0, 0, 0, 0, 0⟩⟩

/-- `recordScanner.addCount`. -/
def WireCounts.add (c : WireCounts) (typ : Byte) (length : Nat) : WireCounts where
  accounts     := if typ = recordAccount then c.accounts + 1 else c.accounts
  storageSlots := if typ = recordStorage then c.storageSlots + 1 else c.storageSlots
  codeRecords  := if typ = recordCode then c.codeRecords + 1 else c.codeRecords
  records      := c.records + 1
  payloadBytes := c.payloadBytes + .ofNat length

/-- The counters after one more record. -/
def WireCounts.addRecord (c : WireCounts) (r : Record) : WireCounts := c.add r.typ r.payload.length

/-- The changing fields of a `recordScanner`; `reader` is the unread part of
the uncompressed stream. -/
structure ScannerState where
  reader     : Bytes
  chain      : Hash
  counts     : WireCounts
  terminated : Bool

/-- `io.ErrUnexpectedEOF`. -/
def errUnexpectedEOF : Err := .outside "unexpected EOF"

/-- `io.ReadFull` of `n` bytes: the bytes and the rest. -/
def readFull (n : Nat) (b : Bytes) : Except Err (Bytes × Bytes) :=
  if n ≤ b.length then .ok (b.take n, b.drop n) else .error errUnexpectedEOF

/-- `recordFromHeader`, on the key of the header. -/
def recordFromHeader (typ : Byte) (key payload : Bytes) : Record :=
  let first : Hash := .ofBytes 32 (key.take 32)
  if typ = recordStorage then ⟨typ, first, .ofBytes 32 (key.drop 32), payload⟩
  else if typ = recordCode then ⟨typ, zeroHash, first, payload⟩
  else ⟨typ, first, zeroHash, payload⟩

/-- `finishTerminator`. -/
def ScannerState.finishTerminator (s : ScannerState) (rest : Bytes) : Except Err ScannerState := do
  require (rest = []) (.msg "trailing data after state stream terminator" [])
  return { s with reader := [], terminated := true }

/-- `Next`: a record, or `none` at the end of the stream. -/
def ScannerState.next (g : Geth) (s : ScannerState) : Except Err (Option Record × ScannerState) :=
  if s.terminated = true then .ok (none, s)
  else
    match s.reader with
    | [] => .error (.wrap "read record type: %w" [] (.outside "EOF"))
    | typ :: rest =>
      if typ = recordEnd then do
        let s ← s.finishTerminator rest
        return (none, s)
      else do
        let keyLen ← recordKeyLength typ
        let (header, rest) ← wrapping "read record header: %w" [] (readFull (keyLen + 8) rest)
        let length := ofBE (header.drop keyLen)
        validatePayloadLength typ length
        let (payload, rest) ← wrapping "read record payload: %w" [] (readFull length rest)
        return (some (recordFromHeader typ (header.take keyLen) payload),
          { s with reader := rest
                   chain := g.keccak (s.chain.bytes ++ (typ :: header) ++ payload)
                   counts := s.counts.add typ length })

/-- The loop of `scanRecords`. Every record takes at least one byte of the
stream, so a bound above its length is never reached. -/
def scanLoop {τ : Type} (g : Geth) (consume : τ → Record → Except Err τ) :
    Nat → ScannerState → τ → Except Err (ScannerState × τ)
  | 0, _, _ => .error (.outside "stream longer than its bound")
  | fuel + 1, s, t => do
    let (record, s) ← s.next g
    match record with
    | none => return (s, t)
    | some r => do
      let t ← wrapping "consume record %d: %w" [.num s.counts.records.toNat] (consume t r)
      scanLoop g consume fuel s t

/-- `ScanResult`. -/
structure ScanResult where
  counts          : WireCounts
  fileSHA256      : Hash
  recordChainHash : Hash
deriving DecidableEq

/-- The uncompressed stream behind the records file. -/
def FileCodec.openStream (fc : FileCodec) (compression : String) (file : Bytes) :
    Except Err Bytes :=
  if compression = compressionZstd then wrapping "open zstd stream: %w" [] (fc.zstdDecode file)
  else .ok file

/-- `openRecordScanner`: the scanner behind the stream magic, and the
uncompressed stream. -/
def openRecordScanner (g : Geth) (fc : FileCodec) (m : Manifest) (file : Bytes) :
    Except Err (ScannerState × Bytes) := do
  wrapping "validate record manifest: %w" [] (m.validate g)
  require ((file.length : Int) = m.stateFile.size)
    (.msg "state records size mismatch: have %d want %d"
      [.num file.length, .num m.stateFile.size.toNat])
  let stream ← fc.openStream m.stateFile.compression file
  let (magic, rest) ← wrapping "read state stream header: %w" []
      (readFull streamMagic.length stream)
  require (magic = streamMagic) (.msg "invalid state stream magic" [])
  return ({ reader := rest, chain := initialChainHash g m.source.headBefore m.source.headerRLP
            counts := 0, terminated := false }, stream)

/-- `verifyCounts`. -/
def verifyCounts (m : Manifest) (counts : WireCounts) : Except Err Unit := do
  require (counts.accounts = m.counts.accounts ∧ counts.storageSlots = m.counts.storageSlots ∧
      counts.codeRecords = m.counts.codeRecords ∧ counts.records = m.counts.records)
    (.msg "record counts mismatch: have %+v want %+v"
      [.num counts.records.toNat, .num m.counts.records.toNat])
  require (counts.payloadBytes = m.stateFile.recordPayloadBytes)
    (.msg "record payload bytes mismatch: have %d want %d"
      [.num counts.payloadBytes.toNat, .num m.stateFile.recordPayloadBytes.toNat])

/-- `Finish`: the canonical encoding and the digests. -/
def finishScan (fc : FileCodec) (m : Manifest) (file stream : Bytes) (s : ScannerState) :
    Except Err ScanResult := do
  require (s.terminated = true) (.msg "state stream terminator was not consumed" [])
  let fileHash := fc.sha256 file
  require (m.stateFile.compression = compressionZstd →
      (fc.zstdEncode stream).length = file.length ∧ fc.sha256 (fc.zstdEncode stream) = fileHash)
    (.msg "zstd state records do not use the canonical single-frame encoding" [])
  verifyCounts m s.counts
  require (fileHash = m.stateFile.sha256)
    (.msg "state records SHA-256 mismatch: have %s want %s"
      [.hash fileHash, .hash m.stateFile.sha256])
  require (s.chain = m.stateFile.recordChainHash)
    (.msg "record chain hash mismatch: have %s want %s"
      [.hash s.chain, .hash m.stateFile.recordChainHash])
  return ⟨s.counts, fileHash, s.chain⟩

/-- `scanRecords`. -/
def scanRecords {τ : Type} (g : Geth) (fc : FileCodec) (m : Manifest) (file : Bytes)
    (consume : τ → Record → Except Err τ) (t : τ) : Except Err (ScanResult × τ) := do
  let (s, stream) ← openRecordScanner g fc m file
  let (s, t) ← scanLoop g consume (s.reader.length + 1) s t
  let result ← finishScan fc m file stream s
  return (result, t)

/-! ## Frames are read back -/

theorem readFull_append {a b : Bytes} {n : Nat} (h : a.length = n) :
    readFull n (a ++ b) = .ok (a, b) := by
  subst h
  simp [readFull]

theorem maxPayload_le {typ : Byte} {n : Nat} (h : maxPayload typ = .ok n) : n < 2 ^ 64 := by
  unfold maxPayload at h
  split at h
  · cases h; decide
  split at h
  · cases h; decide
  split at h
  · cases h; decide
  · cases h

theorem length_lt_of_validatePayloadLength {typ : Byte} {n : Nat} {u : Unit}
    (h : validatePayloadLength typ n = .ok u) : n < 2 ^ 64 := by
  simp only [validatePayloadLength, bind_eq_ok, require_eq_ok] at h
  obtain ⟨max, hMax, -, -, hLe⟩ := h
  exact hLe.trans_lt (maxPayload_le hMax)

/-- The record types that can be framed. -/
theorem typ_of_recordKeyLength {typ : Byte} {n : Nat} (h : recordKeyLength typ = .ok n) :
    (n = 32 ∧ (typ = recordAccount ∨ typ = recordCode)) ∨ (n = 64 ∧ typ = recordStorage) := by
  unfold recordKeyLength at h
  split at h
  · next hTyp => cases h; exact .inl ⟨rfl, hTyp⟩
  split at h
  · next hTyp => cases h; exact .inr ⟨rfl, hTyp⟩
  · cases h

theorem recordFromHeader_key {r : Record} (hTyp : r.typ = recordAccount ∨ r.typ = recordCode ∨
    r.typ = recordStorage) : recordFromHeader r.typ r.key r.payload = r.framed := by
  have hTake : r.accountHash.bytes.take 32 = r.accountHash.bytes :=
    List.take_of_length_le r.accountHash.length_bytes.le
  have hTakeSub : r.subHash.bytes.take 32 = r.subHash.bytes :=
    List.take_of_length_le r.subHash.length_bytes.le
  have hLeft : (r.accountHash.bytes ++ r.subHash.bytes).take 32 = r.accountHash.bytes :=
    List.take_left' r.accountHash.length_bytes
  have hRight : (r.accountHash.bytes ++ r.subHash.bytes).drop 32 = r.subHash.bytes :=
    List.drop_left' r.accountHash.length_bytes
  rcases hTyp with hTyp | hTyp | hTyp
  · rw [Record.framed_of_account hTyp]
    simp [recordFromHeader, Record.key, hTyp, hTake, Record.account, recordAccount, recordStorage,
      recordCode]
  · rw [Record.framed_of_code hTyp]
    simp [recordFromHeader, Record.key, hTyp, hTakeSub, Record.code, recordAccount, recordStorage,
      recordCode]
  · rw [Record.framed_of_storage hTyp]
    simp [recordFromHeader, Record.key, hTyp, hLeft, hRight, Record.storage, recordAccount,
      recordStorage, recordCode]

/-- The scanner after the record `r`. -/
def ScannerState.read (g : Geth) (s : ScannerState) (r : Record) (rest : Bytes) : ScannerState :=
  { s with reader := rest, chain := chainStep g s.chain r
           counts := s.counts.add r.typ r.payload.length }

/-- **A frame is read back as its record.** -/
theorem next_frame {g : Geth} {s : ScannerState} {r : Record} {rest : Bytes}
    (hOpen : s.terminated = false) (hCheck : Writer.checkRecord r.typ r.key r.payload = .ok ())
    (hReader : s.reader = r.frame ++ rest) :
    s.next g = .ok (some r.framed, s.read g r rest) := by
  simp only [Writer.checkRecord, bind_eq_ok, require_eq_ok] at hCheck
  obtain ⟨⟨⟩, hValid, keyLen, hKeyLen, hKey⟩ := hCheck
  have hLen := length_lt_of_validatePayloadLength hValid
  have hTyp := typ_of_recordKeyLength hKeyLen
  have hNotEnd : r.typ ≠ recordEnd := by
    rcases hTyp with ⟨-, h | h⟩ | ⟨-, h⟩ <;> rw [h] <;> decide
  have hHeader : readFull (keyLen + 8) (r.key ++ toBE 8 r.payload.length ++ (r.payload ++ rest)) =
      .ok (r.key ++ toBE 8 r.payload.length, r.payload ++ rest) :=
    readFull_append (by simp [hKey])
  have hDrop : (r.key ++ toBE 8 r.payload.length).drop keyLen = toBE 8 r.payload.length :=
    List.drop_left' hKey
  have hTake : (r.key ++ toBE 8 r.payload.length).take keyLen = r.key := List.take_left' hKey
  have hSize : ofBE (toBE 8 r.payload.length) = r.payload.length := ofBE_toBE (by omega)
  have hFrom : recordFromHeader r.typ r.key r.payload = r.framed := by
    refine recordFromHeader_key ?_
    rcases hTyp with ⟨-, h | h⟩ | ⟨-, h⟩
    · exact .inl h
    · exact .inr (.inl h)
    · exact .inr (.inr h)
  have hBytes : r.frame ++ rest =
      r.typ :: (r.key ++ toBE 8 r.payload.length ++ (r.payload ++ rest)) := by
    simp [Record.frame, Writer.header]
  unfold ScannerState.next
  rw [hReader, hBytes]
  simp only [hOpen, Bool.false_eq_true, if_false, if_neg hNotEnd, hKeyLen, ok_bind, hHeader,
    wrapping_ok, hDrop, hSize, hValid, readFull_append rfl, hTake, hFrom, pure_eq_ok]
  simp [ScannerState.read, chainStep, Record.frame, Writer.header, hOpen]

/-- The end marker ends the scan. -/
theorem next_end {g : Geth} {s : ScannerState} (hOpen : s.terminated = false)
    (hReader : s.reader = [recordEnd]) :
    s.next g = .ok (none, { s with reader := [], terminated := true }) := by
  unfold ScannerState.next
  rw [hReader]
  simp [hOpen, ScannerState.finishTerminator, require]

/-- **A stream of frames is handed over record by record**, in order, and the
scanner ends behind the end marker with the chained hash and the counts. -/
theorem scanLoop_frames {τ : Type} {g : Geth} {consume : τ → Record → Except Err τ}
    {rs : List Record} {s : ScannerState} {t t' : τ} {fuel : Nat}
    (hOpen : s.terminated = false)
    (hCheck : ∀ r ∈ rs, Writer.checkRecord r.typ r.key r.payload = .ok ())
    (hReader : s.reader = rs.flatMap Record.frame ++ [recordEnd]) (hFuel : rs.length < fuel)
    (hRun : (rs.map Record.framed).foldlM consume t = .ok t') :
    scanLoop g consume fuel s t =
      .ok ({ reader := [], chain := rs.foldl (chainStep g) s.chain
             counts := rs.foldl WireCounts.addRecord s.counts
             terminated := true }, t') := by
  induction rs generalizing s t fuel with
  | nil =>
    obtain ⟨n, rfl⟩ : ∃ n, fuel = n + 1 := ⟨fuel - 1, by simp at hFuel; omega⟩
    obtain rfl : t = t' := by simpa using hRun
    rw [scanLoop, next_end hOpen (by simpa using hReader)]
    simp
  | cons r rs ih =>
    obtain ⟨n, rfl⟩ : ∃ n, fuel = n + 1 := ⟨fuel - 1, by simp at hFuel; omega⟩
    obtain ⟨m, hStep, hRun⟩ := foldlM_cons_eq_ok.mp hRun
    rw [scanLoop, next_frame hOpen (hCheck r (by simp)) (by rw [hReader]; simp; rfl)]
    simp only [ok_bind, hStep, wrapping_ok]
    rw [@ih (s.read g r (rs.flatMap Record.frame ++ [recordEnd])) m n hOpen
      (fun x hx => hCheck x (by simp [hx])) rfl (by simpa using hFuel) hRun]
    simp [ScannerState.read, WireCounts.addRecord]

/-! ## Whole files -/

/-- What zstd documents: a frame is not empty and decodes to its content. -/
structure FileCodec.Lawful (fc : FileCodec) : Prop where
  decode_encode : ∀ b, fc.zstdDecode (fc.zstdEncode b) = .ok b
  encode_ne_nil : ∀ b, fc.zstdEncode b ≠ []

theorem FileCodec.Lawful.fileBytes_ne_nil {fc : FileCodec} (hLaw : fc.Lawful) (compression : String)
    {stream : Bytes} (h : stream ≠ []) : fc.fileBytes compression stream ≠ [] := by
  unfold FileCodec.fileBytes
  split
  · exact hLaw.encode_ne_nil stream
  · exact h

theorem FileCodec.Lawful.openStream_fileBytes {fc : FileCodec} (hLaw : fc.Lawful)
    (compression : String) (stream : Bytes) :
    fc.openStream compression (fc.fileBytes compression stream) = .ok stream := by
  unfold FileCodec.openStream FileCodec.fileBytes
  split
  · rw [hLaw.decode_encode, wrapping_ok]
  · rfl

/-- The uncompressed bytes of a record stream. -/
def recordStream (rs : List Record) : Bytes := streamMagic ++ rs.flatMap Record.frame ++ [recordEnd]

/-- **A file of frames is scanned in full** when the manifest describes it. -/
theorem scanRecords_of_frames {τ : Type} {g : Geth} {fc : FileCodec} {m : Manifest} {file : Bytes}
    {consume : τ → Record → Except Err τ} {rs : List Record} {t t' : τ} (hLaw : fc.Lawful)
    (hValid : m.validate g = .ok ())
    (hFile : file = fc.fileBytes m.stateFile.compression (recordStream rs))
    (hSize : m.stateFile.size = file.length) (hSha : m.stateFile.sha256 = fc.sha256 file)
    (hChain : m.stateFile.recordChainHash =
      rs.foldl (chainStep g) (initialChainHash g m.source.headBefore m.source.headerRLP))
    (hCounts : verifyCounts m (rs.foldl WireCounts.addRecord 0) = .ok ())
    (hCheck : ∀ r ∈ rs, Writer.checkRecord r.typ r.key r.payload = .ok ())
    (hRun : (rs.map Record.framed).foldlM consume t = .ok t') :
    ∃ result, scanRecords g fc m file consume t = .ok (result, t') := by
  set s₀ : ScannerState :=
    { reader := rs.flatMap Record.frame ++ [recordEnd]
      chain := initialChainHash g m.source.headBefore m.source.headerRLP
      counts := 0, terminated := false } with hs₀
  have hStream : fc.openStream m.stateFile.compression file = .ok (recordStream rs) := by
    rw [hFile]
    exact hLaw.openStream_fileBytes _ _
  have hMagic : readFull streamMagic.length (recordStream rs) =
      .ok (streamMagic, rs.flatMap Record.frame ++ [recordEnd]) := by
    rw [recordStream, List.append_assoc]
    exact readFull_append rfl
  have hOpen : openRecordScanner g fc m file = .ok (s₀, recordStream rs) := by
    unfold openRecordScanner
    rw [hValid, wrapping_ok, ok_bind, require_true hSize.symm, ok_bind, hStream, ok_bind, hMagic,
      wrapping_ok, ok_bind]
    rfl
  have hFuel : rs.length < s₀.reader.length + 1 := by
    have hFrames : rs.length ≤ (rs.flatMap Record.frame).length := by
      rw [List.length_flatMap]
      calc rs.length = (rs.map fun _ => 1).sum := by simp
        _ ≤ _ := List.sum_le_sum fun r _ => by simp [Record.frame, Writer.header]
    simp only [hs₀, List.length_append]
    omega
  have hLoop := @scanLoop_frames τ g consume rs s₀ t t' (s₀.reader.length + 1)
    rfl hCheck rfl hFuel hRun
  have hCanonical : m.stateFile.compression = compressionZstd →
      (fc.zstdEncode (recordStream rs)).length = file.length ∧
        fc.sha256 (fc.zstdEncode (recordStream rs)) = fc.sha256 file := by
    intro hZstd
    rw [hFile, FileCodec.fileBytes, if_pos hZstd]
    exact ⟨rfl, rfl⟩
  refine ⟨⟨rs.foldl .addRecord 0, fc.sha256 file, rs.foldl (chainStep g) s₀.chain⟩, ?_⟩
  unfold scanRecords
  rw [hOpen, ok_bind]
  dsimp only
  rw [hLoop, ok_bind]
  unfold finishScan
  dsimp only
  rw [require_true rfl, ok_bind, require_true hCanonical, ok_bind, hCounts, ok_bind,
    require_true hSha.symm, ok_bind, require_true hChain.symm, ok_bind]
  rfl

end L2State
