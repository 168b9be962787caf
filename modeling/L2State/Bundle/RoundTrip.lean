import L2State.Bundle.Export

/-!
# L2State — the record stream is a code

Writer and scanner of the record stream, in both directions.
`Bundle.Scanner` shows that frames are read back; here the scanner is
inverted: whatever it accepts is a list of frames behind the magic bytes and
in front of one end marker, so no other byte stream is scanned to the end.

* `WriteCall`, `Writer.writeAll` — the write calls of a whole stream.
* `next_some_inv`, `next_none_inv` — what one `Next` has read.
* `scanStream_eq_ok_iff` — **a stream is scanned exactly when it is the stream
  of its records**.
* `record_stream_round_trip` — both directions, with the counts, the wire bytes
  and the chain hash, and the canonical zstd encoding.
-/

namespace L2State

open Lib

/-! ## Write calls -/

/-- A call that writes one record. -/
inductive WriteCall
  | account (accountHash : Hash) (accountRLP : Bytes) (consensusPayloadBytes : Nat)
  | storage (accountHash slotHash : Hash) (valueRLP : Bytes)
  | code (codeHash : Hash) (code : Bytes)
deriving DecidableEq

/-- The record of a call. -/
def WriteCall.record : WriteCall → Record
  | .account h rlp _ => .account h rlp
  | .storage a k val => .storage a k val
  | .code h c => .code h c

/-- The expanded bytes a call counts. -/
def WriteCall.consensusBytes : WriteCall → Nat
  | .account _ _ n => n
  | .storage _ _ val => val.length
  | .code _ c => c.length

namespace Writer

/-- One call. -/
def call (g : Geth) (w : Writer) : WriteCall → Writer × Option Err
  | .account h rlp n => w.writeAccount g h rlp n
  | .storage a k val => w.writeStorage g a k val
  | .code h c => w.writeCode g h c

/-- Calls until the first error. -/
def writeAll (g : Geth) (w : Writer) (calls : List WriteCall) : Except Err Writer :=
  calls.foldlM (fun w c => liftWrite (w.call g c)) w

end Writer

variable {g : Geth} {w : Writer} {s s' : ScannerState}

theorem ctx_newWriter {compression : String} {head : Head} {headerRLP : Bytes} {ctx : Option Nat}
    (h : newWriter g compression head headerRLP ctx = .ok w) :
    w.ctx = ctx := by
  unfold newWriter at h
  split at h
  · cases h
    rfl
  split at h
  · cases h
    rfl
  · cases h

/-- Only `WriteAccount` checks more than `writeRecord`. -/
def WriteCall.Fits : WriteCall → Prop
  | .account _ rlp n => rlp.length ≤ n
  | _ => True

theorem Writer.call_eq {c : WriteCall} (h : c.Fits) :
    w.call g c = w.writeRecord g c.record.typ c.record.key c.record.payload c.consensusBytes := by
  cases c with
  | account hash rlp n =>
    have hLe : ¬ rlp.length > n := not_lt.mpr h
    show w.writeAccount g hash rlp n = _
    rw [Writer.writeAccount, if_neg hLe]
    rfl
  | storage a k val => rfl
  | code h c => rfl

theorem Writer.fits_of_call {w' : Writer} {c : WriteCall} (h : w.call g c = (w', none)) :
    c.Fits := by
  cases c with
  | account hash rlp n =>
    change w.writeAccount g hash rlp n = _ at h
    unfold Writer.writeAccount at h
    split at h
    · cases h
    · next hLe => exact not_lt.mp hLe
  | storage a k val => trivial
  | code h c => trivial

theorem WriteCall.framed_record (c : WriteCall) : c.record.framed = c.record := by
  cases c <;> simp [WriteCall.record, Record.framed, Record.account, Record.storage, Record.code,
    recordAccount, recordStorage, recordCode]

/-- Calls that all succeed write their records. -/
theorem Writer.wrote_of_writeAll {w' : Writer} {calls : List WriteCall}
    (h : w.writeAll g calls = .ok w') :
    ∃ counts, Wrote g w (calls.map WriteCall.record) counts w' := by
  induction calls generalizing w with
  | nil =>
    cases h
    exact ⟨0, .refl g _⟩
  | cons c calls ih =>
    obtain ⟨w₁, hCall, hRest⟩ := foldlM_cons_eq_ok.mp h
    rw [liftWrite_eq_ok] at hCall
    obtain ⟨counts, hWrote⟩ := ih hRest
    rw [Writer.call_eq (Writer.fits_of_call hCall)] at hCall
    exact ⟨_, (Wrote.single hCall).trans hWrote⟩

/-- Conversely, without cancellation every list of records that pass the
checks is written. -/
theorem Writer.writeAll_of_checked {calls : List WriteCall} (hClosed : w.closed = false)
    (hCtx : w.ctx = none) (hFits : ∀ c ∈ calls, c.Fits)
    (hCheck : ∀ c ∈ calls, checkRecord c.record.typ c.record.key c.record.payload = .ok ()) :
    ∃ w', w.writeAll g calls = .ok w' := by
  induction calls generalizing w with
  | nil => exact ⟨w, rfl⟩
  | cons c calls ih =>
    obtain ⟨w₁, hCall, hCtx₁, hClosed₁⟩ := writeRecord_of_running c.consensusBytes hClosed hCtx
      (hCheck c (by simp))
    rw [← Writer.call_eq (hFits c (by simp))] at hCall
    obtain ⟨w', hRest⟩ := ih hClosed₁ hCtx₁ (fun x hx => hFits x (by simp [hx]))
      fun x hx => hCheck x (by simp [hx])
    exact ⟨w', foldlM_cons_eq_ok.mpr ⟨w₁, liftWrite_eq_ok.mpr hCall, hRest⟩⟩

/-! ## What a `Next` has read -/

theorem readFull_eq_ok {n : Nat} {b x y : Bytes} (h : readFull n b = .ok (x, y)) :
    b = x ++ y ∧ x.length = n := by
  unfold readFull at h
  split at h
  · next hLe =>
    cases h
    exact ⟨(List.take_append_drop n b).symm, by simp [hLe]⟩
  · cases h

/-- A header that was read is the header of the record it gives. -/
theorem header_of_recordFromHeader {typ : Byte} {keyLen : Nat} {header payload : Bytes}
    (hKeyLen : recordKeyLength typ = .ok keyLen) (hHeader : header.length = keyLen + 8)
    (hPayload : payload.length = ofBE (header.drop keyLen)) :
    Writer.header typ (recordFromHeader typ (header.take keyLen) payload).key payload =
        typ :: header ∧
      (recordFromHeader typ (header.take keyLen) payload).typ = typ ∧
      (recordFromHeader typ (header.take keyLen) payload).payload = payload ∧
      (recordFromHeader typ (header.take keyLen) payload).framed =
        recordFromHeader typ (header.take keyLen) payload ∧
      (recordFromHeader typ (header.take keyLen) payload).key.length = keyLen := by
  have hSize : toBE 8 payload.length = header.drop keyLen := by
    have hDrop : (header.drop keyLen).length = 8 := by rw [List.length_drop]; omega
    rw [hPayload, ← hDrop, toBE_ofBE]
  -- the key of the record is the key of the header, whatever the type
  have hKey : (recordFromHeader typ (header.take keyLen) payload).key = header.take keyLen ∧
      (recordFromHeader typ (header.take keyLen) payload).typ = typ ∧
      (recordFromHeader typ (header.take keyLen) payload).payload = payload ∧
      (recordFromHeader typ (header.take keyLen) payload).framed =
        recordFromHeader typ (header.take keyLen) payload := by
    have hTakeLen : (header.take keyLen).length = keyLen := by rw [List.length_take]; omega
    rcases typ_of_recordKeyLength hKeyLen with ⟨rfl, rfl | rfl⟩ | ⟨rfl, rfl⟩
    · refine ⟨?_, rfl, rfl, rfl⟩
      show (FixedBytes.ofBytes 32 ((header.take 32).take 32)).bytes = header.take 32
      rw [List.take_take, min_self, FixedBytes.bytes_ofBytes hTakeLen]
    · refine ⟨?_, rfl, rfl, rfl⟩
      show (FixedBytes.ofBytes 32 ((header.take 32).take 32)).bytes = header.take 32
      rw [List.take_take, min_self, FixedBytes.bytes_ofBytes hTakeLen]
    · have hFirst : ((header.take 64).take 32).length = 32 := by simp; omega
      have hSecond : ((header.take 64).drop 32).length = 32 := by simp; omega
      refine ⟨?_, rfl, rfl, rfl⟩
      show ((FixedBytes.ofBytes 32 ((header.take 64).take 32)).bytes ++
        (FixedBytes.ofBytes 32 ((header.take 64).drop 32)).bytes) = header.take 64
      rw [FixedBytes.bytes_ofBytes hFirst, FixedBytes.bytes_ofBytes hSecond,
        List.take_append_drop]
  obtain ⟨hKeyEq, hTyp, hPay, hFramed⟩ := hKey
  refine ⟨?_, hTyp, hPay, hFramed, ?_⟩
  · rw [hKeyEq, Writer.header, hSize, List.take_append_drop]
  · rw [hKeyEq, List.length_take]
    omega

/-- **A record that was read stands in the stream as its frame.** -/
theorem next_some_inv {r : Record} (h : s.next g = .ok (some r, s')) :
    s.terminated = false ∧ r.framed = r ∧ Writer.checkRecord r.typ r.key r.payload = .ok () ∧
      s.reader = r.frame ++ s'.reader ∧ s' = s.read g r s'.reader := by
  unfold ScannerState.next at h
  split at h
  · cases h
  next hOpen =>
  split at h
  · cases h
  next typ rest hReader =>
  split at h
  · simp [bind_eq_ok] at h
  simp only [bind_eq_ok, wrapping_eq_ok, Prod.exists, pure_eq_ok, Except.ok.injEq,
    Prod.mk.injEq, Option.some.injEq] at h
  obtain ⟨keyLen, hKeyLen, header, rest₁, hHeader, ⟨⟩, hValid, payload, rest₂, hPayload,
      rfl, rfl⟩ := h
  obtain ⟨rfl, hHeaderLen⟩ := readFull_eq_ok hHeader
  obtain ⟨rfl, hPayloadLen⟩ := readFull_eq_ok hPayload
  obtain ⟨hHead, hTyp, hPay, hFramed, hKey⟩ :=
    header_of_recordFromHeader hKeyLen hHeaderLen hPayloadLen
  set r := recordFromHeader typ (header.take keyLen) payload with hr
  have hFrame : r.frame = typ :: header ++ payload := by
    rw [Record.frame, hTyp, hPay, hHead]
  refine ⟨by simpa using hOpen, hFramed, ?_, ?_, ?_⟩
  · simp only [Writer.checkRecord, bind_eq_ok, require_eq_ok, hTyp, hPay]
    rw [← hPayloadLen] at hValid
    exact ⟨(), hValid, keyLen, hKeyLen, hKey⟩
  · rw [hReader, hFrame]
    simp
  · simp [ScannerState.read, chainStep, hFrame, hTyp, hPay, hPayloadLen]

/-- The end of a scan is one end marker and nothing behind it. -/
theorem next_none_inv (hOpen : s.terminated = false) (h : s.next g = .ok (none, s')) :
    s.reader = [recordEnd] ∧ s' = { s with reader := [], terminated := true } := by
  unfold ScannerState.next at h
  rw [if_neg (by simp [hOpen])] at h
  split at h
  · cases h
  next typ rest hReader =>
  split at h
  · next hEnd =>
    simp only [ScannerState.finishTerminator, bind_eq_ok, require_eq_ok, pure_eq_ok,
      Except.ok.injEq, Prod.mk.injEq, true_and] at h
    obtain ⟨s₁, ⟨⟨⟩, rfl, rfl⟩, rfl⟩ := h
    exact ⟨by rw [hReader, hEnd], rfl⟩
  · simp [bind_eq_ok] at h

/-! ## Whole streams -/

/-- A consumer that keeps the records. -/
def collectRecords (rs : List Record) (r : Record) : Except Err (List Record) := .ok (rs ++ [r])

/-- The scan of an uncompressed stream: `openRecordScanner` behind the magic
bytes, then `Next` until the end. -/
def scanStream (g : Geth) (chain : Hash) (stream : Bytes) :
    Except Err (ScannerState × List Record) := do
  let (magic, rest) ← wrapping "read state stream header: %w" []
      (readFull streamMagic.length stream)
  require (magic = streamMagic) (.msg "invalid state stream magic" [])
  scanLoop g collectRecords (rest.length + 1)
    { reader := rest, chain := chain, counts := 0, terminated := false } []

theorem foldlM_collectRecords (rs acc : List Record) :
    rs.foldlM collectRecords acc = .ok (acc ++ rs) := by
  induction rs generalizing acc with
  | nil => simp
  | cons r rs ih => exact foldlM_cons_eq_ok.mpr ⟨acc ++ [r], rfl, by rw [ih]; simp⟩

/-- A scan that ends has read frames and one end marker. -/
theorem scanLoop_inv {τ : Type} {consume : τ → Record → Except Err τ} {fuel : Nat} {t t' : τ}
    (hOpen : s.terminated = false) (h : scanLoop g consume fuel s t = .ok (s', t')) :
    ∃ rs : List Record, s.reader = rs.flatMap Record.frame ++ [recordEnd] ∧
      (∀ r ∈ rs, r.framed = r ∧ Writer.checkRecord r.typ r.key r.payload = .ok ()) ∧
      rs.foldlM consume t = .ok t' ∧
      s' = { reader := [], chain := rs.foldl (chainStep g) s.chain
             counts := rs.foldl WireCounts.addRecord s.counts, terminated := true } := by
  induction fuel generalizing s t with
  | zero => cases h
  | succ fuel ih =>
    simp only [scanLoop, bind_eq_ok, Prod.exists] at h
    obtain ⟨record, s₁, hNext, h⟩ := h
    cases record with
    | none =>
      cases h
      obtain ⟨hReader, rfl⟩ := next_none_inv hOpen hNext
      exact ⟨[], by simpa using hReader, by simp, rfl, rfl⟩
    | some r =>
      simp only [bind_eq_ok, wrapping_eq_ok] at h
      obtain ⟨t₁, hConsume, h⟩ := h
      obtain ⟨-, hFramed, hCheck, hReader, hRead⟩ := next_some_inv hNext
      have hOpen₁ : s₁.terminated = false := by rw [hRead]; exact hOpen
      obtain ⟨rs, hRest, hAll, hRun, rfl⟩ := ih hOpen₁ h
      refine ⟨r :: rs, ?_, List.forall_mem_cons.mpr ⟨⟨hFramed, hCheck⟩, hAll⟩,
        foldlM_cons_eq_ok.mpr ⟨t₁, hConsume, hRun⟩, ?_⟩
      · rw [hReader, hRest]
        simp
      · rw [hRead]
        rfl

/-- **A stream is scanned exactly when it is the stream of its records.** -/
theorem scanStream_eq_ok_iff {chain : Hash} {stream : Bytes} {rs : List Record} :
    scanStream g chain stream = .ok (s, rs) ↔
      stream = recordStream rs ∧
      (∀ r ∈ rs, r.framed = r ∧ Writer.checkRecord r.typ r.key r.payload = .ok ()) ∧
      s = { reader := [], chain := rs.foldl (chainStep g) chain
            counts := rs.foldl WireCounts.addRecord 0, terminated := true } := by
  simp only [scanStream, bind_eq_ok, wrapping_eq_ok, require_eq_ok, Prod.exists]
  constructor
  · rintro ⟨magic, rest, hMagic, ⟨⟩, rfl, h⟩
    obtain ⟨rfl, -⟩ := readFull_eq_ok hMagic
    obtain ⟨rs', hRest, hAll, hRun, rfl⟩ := scanLoop_inv rfl h
    rw [foldlM_collectRecords, Except.ok.injEq, List.nil_append] at hRun
    subst hRun
    dsimp only at hRest
    exact ⟨by rw [hRest, recordStream, List.append_assoc], hAll, rfl⟩
  · rintro ⟨rfl, hAll, rfl⟩
    refine ⟨streamMagic, rs.flatMap Record.frame ++ [recordEnd], ?_, (), rfl, ?_⟩
    · rw [recordStream, List.append_assoc]
      exact readFull_append rfl
    · refine scanLoop_frames rfl (fun r hr => (hAll r hr).2) rfl ?_ ?_
      · have hFrames : rs.length ≤ (rs.flatMap Record.frame).length := by
          rw [List.length_flatMap]
          calc rs.length = (rs.map fun _ => 1).sum := by simp
            _ ≤ _ := List.sum_le_sum fun r _ => by simp [Record.frame, Writer.header]
        rw [List.length_append]
        omega
      · rw [List.map_congr_left fun r hr => (hAll r hr).1, List.map_id', foldlM_collectRecords]
        rfl

/-- A record the scanner delivers is the record of a call. -/
theorem exists_call {r : Record} (hFramed : r.framed = r)
    (hCheck : Writer.checkRecord r.typ r.key r.payload = .ok ()) :
    ∃ c : WriteCall, c.record = r ∧ c.Fits := by
  simp only [Writer.checkRecord, bind_eq_ok] at hCheck
  obtain ⟨-, -, keyLen, hKeyLen, -⟩ := hCheck
  rw [← hFramed]
  rcases typ_of_recordKeyLength hKeyLen with ⟨-, hTyp | hTyp⟩ | ⟨-, hTyp⟩
  · exact ⟨.account r.accountHash r.payload r.payload.length, (Record.framed_of_account hTyp).symm,
      Nat.le_refl _⟩
  · exact ⟨.code r.subHash r.payload, (Record.framed_of_code hTyp).symm, trivial⟩
  · exact ⟨.storage r.accountHash r.subHash r.payload,
      (Record.framed_of_storage hTyp).symm, trivial⟩

theorem exists_calls {rs : List Record}
    (h : ∀ r ∈ rs, r.framed = r ∧ Writer.checkRecord r.typ r.key r.payload = .ok ()) :
    ∃ calls : List WriteCall, calls.map WriteCall.record = rs ∧ ∀ c ∈ calls, c.Fits := by
  induction rs with
  | nil => exact ⟨[], rfl, by simp⟩
  | cons r rs ih =>
    obtain ⟨c, hc, hFits⟩ := exists_call (h r (by simp)).1 (h r (by simp)).2
    obtain ⟨calls, hCalls, hAll⟩ := ih fun x hx => h x (by simp [hx])
    exact ⟨c :: calls, by simp [hc, hCalls], List.forall_mem_cons.mpr ⟨hFits, hAll⟩⟩

/-! ## Both directions -/

/-- A scan of a file delivers what the scan of its uncompressed stream does. -/
theorem scanRecords_inv {τ : Type} {fc : FileCodec} {m : Manifest} {file : Bytes}
    {consume : τ → Record → Except Err τ} {t t' : τ} {result : ScanResult}
    (h : scanRecords g fc m file consume t = .ok (result, t')) :
    ∃ stream rs s, fc.openStream m.stateFile.compression file = .ok stream ∧
      scanStream g (initialChainHash g m.source.headBefore m.source.headerRLP) stream =
        .ok (s, rs) ∧ rs.foldlM consume t = .ok t' ∧
      finishScan fc m file stream s = .ok result := by
  simp only [scanRecords, openRecordScanner, bind_eq_ok, wrapping_eq_ok, require_eq_ok, pure_eq_ok,
    Except.ok.injEq, Prod.exists, Prod.mk.injEq] at h
  obtain ⟨s₀, stream, ⟨⟨⟩, -, ⟨⟩, -, stream', hStream, magic, rest, hMagic, ⟨⟩, rfl, rfl, rfl⟩, s,
    t₁, hLoop, result', hFinish, rfl, rfl⟩ := h
  obtain ⟨rs, hRest, hAll, hRun, hState⟩ := scanLoop_inv rfl hLoop
  obtain ⟨rfl, -⟩ := readFull_eq_ok hMagic
  refine ⟨_, rs, s, hStream, scanStream_eq_ok_iff.mpr ⟨?_, hAll, hState⟩, hRun, hFinish⟩
  dsimp only at hRest
  rw [hRest, recordStream, List.append_assoc]

/-- **The record stream is a code, in both directions.** What a writer that
made only successful calls has written is scanned back to the records of the
calls, with its counts, wire bytes and chain hash. Every stream that is scanned
to the end is the stream of a writer that made the calls for the delivered
records, and of no other. A zstd file that `Finish` accepts is the encoding of
its stream, if SHA-256 does not collide on the two. -/
theorem record_stream_round_trip (g : Geth) (fc : FileCodec) :
    (∀ {compression : String} {head : Head} {headerRLP : Bytes} {ctx : Option Nat} {w₀ w : Writer}
        {calls : List WriteCall},
      newWriter g compression head headerRLP ctx = .ok w₀ → w₀.writeAll g calls = .ok w →
      ∃ s, scanStream g (initialChainHash g head headerRLP) w.finalStream =
          .ok (s, calls.map WriteCall.record) ∧
        s.counts.Matches w.counts ∧ s.counts.payloadBytes = w.recordBytes ∧ s.chain = w.chain) ∧
    (∀ {compression : String} {head : Head} {headerRLP stream : Bytes} {w₀ : Writer}
        {s : ScannerState} {rs : List Record},
      newWriter g compression head headerRLP none = .ok w₀ →
      scanStream g (initialChainHash g head headerRLP) stream = .ok (s, rs) →
      (∃ calls w, calls.map WriteCall.record = rs ∧ w₀.writeAll g calls = .ok w) ∧
      ∀ calls w, calls.map WriteCall.record = rs → w₀.writeAll g calls = .ok w →
        w.finalStream = stream) ∧
    (∀ {τ : Type} {m : Manifest} {file : Bytes} {consume : τ → Record → Except Err τ} {t t' : τ}
        {result : ScanResult},
      m.stateFile.compression = compressionZstd →
      scanRecords g fc m file consume t = .ok (result, t') →
      ∃ rs, rs.foldlM consume t = .ok t' ∧ fc.zstdDecode file = .ok (recordStream rs) ∧
        (Set.InjOn fc.sha256 {file, fc.zstdEncode (recordStream rs)} →
          file = fc.zstdEncode (recordStream rs))) := by
  refine ⟨?_, ?_, ?_⟩
  · intro compression head headerRLP ctx w₀ w calls hNew hAll
    obtain ⟨hStream, hChain, hCounts, hBytes, -, -⟩ := newWriter_eq_ok hNew
    obtain ⟨counts, hWrote⟩ := Writer.wrote_of_writeAll hAll
    set rs := calls.map WriteCall.record with hrs
    refine ⟨_, scanStream_eq_ok_iff.mpr ⟨?_, ?_, rfl⟩, ?_, ?_, ?_⟩
    · rw [Writer.finalStream, hWrote.stream, hStream, recordStream]
    · intro r hr
      obtain ⟨c, -, rfl⟩ := List.mem_map.mp hr
      exact ⟨c.framed_record, hWrote.checked _ hr⟩
    · exact hWrote.wire 0 (by rw [hCounts]; exact ⟨rfl, rfl, rfl, rfl⟩)
    · rw [payloadBytes_foldl, hWrote.bytes, hBytes]
      rfl
    · rw [hWrote.chain, hChain]
  · intro compression head headerRLP stream w₀ s rs hNew hScan
    obtain ⟨hStream, -, -, -, hClosed, -⟩ := newWriter_eq_ok hNew
    obtain ⟨rfl, hAll, -⟩ := scanStream_eq_ok_iff.mp hScan
    refine ⟨?_, ?_⟩
    · obtain ⟨calls, hCalls, hFits⟩ := exists_calls hAll
      obtain ⟨w, hw⟩ := @Writer.writeAll_of_checked g w₀ calls hClosed (ctx_newWriter hNew) hFits
        fun c hc => (hAll c.record (by rw [← hCalls]; exact List.mem_map_of_mem hc)).2
      exact ⟨calls, w, hCalls, hw⟩
    · intro calls w hCalls hw
      obtain ⟨counts, hWrote⟩ := Writer.wrote_of_writeAll hw
      rw [Writer.finalStream, hWrote.stream, hStream, hCalls, recordStream]
  · intro τ m file consume t t' result hZstd hScan
    obtain ⟨stream, rs, s, hOpen, hStream, hRun, hFinish⟩ := scanRecords_inv hScan
    obtain ⟨rfl, -, -⟩ := scanStream_eq_ok_iff.mp hStream
    rw [FileCodec.openStream, if_pos hZstd, wrapping_eq_ok] at hOpen
    refine ⟨rs, hRun, hOpen, fun hInj => ?_⟩
    simp only [finishScan, bind_eq_ok, require_eq_ok] at hFinish
    obtain ⟨-, -, -, hCanonical, -⟩ := hFinish
    exact hInj (by simp) (by simp) (hCanonical hZstd).2.symm

/-- The records of the sample state as calls. -/
def sampleCalls : List WriteCall := [
  .account sampleHashA (slimAccountRLP sampleAccountA) (encodeStateAccount sampleAccountA).length,
  .storage sampleHashA sampleSlot [0x2a],
  .code sampleCodeHash sampleCode,
  .account sampleHashB (slimAccountRLP sampleAccountB) (encodeStateAccount sampleAccountB).length]

/-- A codec whose digest is a checksum. -/
def checksumCodec : FileCodec :=
  { sampleCodec with
    sha256 := fun b => hashOfNat (b.foldl (fun n x => (n * 257 + x.val) % 2 ^ 256) 1) }

/-- The zstd file of a writer, and its manifest. -/
def zstdFile (w : Writer) : Bytes := checksumCodec.zstdEncode w.finalStream

def zstdManifest (w : Writer) : Manifest :=
  newManifest ⟨1, by decide, "", ""⟩ ⟨sampleHead, sampleHead, sampleHeader⟩
    (w.counts + .codeReference)
    { name := recordsFileZstd, compression := compressionZstd, size := (zstdFile w).length
      recordPayloadBytes := w.recordBytes, sha256 := checksumCodec.sha256 (zstdFile w)
      recordChainHash := w.chain }

/-- The records of the sample state, written and scanned back, raw and as a zstd file. -/
theorem record_stream_round_trip_sample :
    ∃ w₀ w s, newWriter sampleGeth compressionNone sampleHead sampleHeader none = .ok w₀ ∧
      w₀.writeAll sampleGeth sampleCalls = .ok w ∧
      scanStream sampleGeth (initialChainHash sampleGeth sampleHead sampleHeader) w.finalStream =
        .ok (s, sampleCalls.map WriteCall.record) ∧
      (∃ calls w', calls.map WriteCall.record = sampleCalls.map WriteCall.record ∧
        w₀.writeAll sampleGeth calls = .ok w') ∧
      ∃ rs result t, scanRecords sampleGeth checksumCodec (zstdManifest w)
        (zstdFile w) collectRecords [] =
          .ok (result, t) ∧
        rs.foldlM collectRecords [] = .ok t ∧
        zstdFile w = checksumCodec.zstdEncode (recordStream rs) := by
  obtain ⟨w₀, hNew⟩ : ∃ w₀, newWriter sampleGeth compressionNone sampleHead sampleHeader none =
      .ok w₀ := ⟨_, rfl⟩
  have hRun : okWith (w₀.writeAll sampleGeth sampleCalls) (fun w => okWith
      (scanRecords sampleGeth checksumCodec (zstdManifest w) (zstdFile w) collectRecords [])
        fun _ => true) = true := by
    cases hNew
    decide +kernel
  obtain ⟨w, hAll, hScan⟩ := okWith_eq_true.mp hRun
  obtain ⟨⟨result, t⟩, hScan, -⟩ := okWith_eq_true.mp hScan
  obtain ⟨hForward, hBack, hZstd⟩ := record_stream_round_trip sampleGeth checksumCodec
  obtain ⟨s, hStream, -⟩ := hForward hNew hAll
  obtain ⟨rs, hFold, hDecode, hFile⟩ := hZstd rfl hScan
  -- the decoded stream is the written one, so there is no other file for SHA-256 to collide with
  have hSame : recordStream rs = w.finalStream := (Except.ok.inj hDecode).symm
  refine ⟨w₀, w, s, hNew, hAll, hStream, (hBack hNew hStream).1, rs, result, t, hScan,
    hFold, hFile ?_⟩
  rw [hSame]
  exact Set.Subsingleton.injOn (by simp [zstdFile]) _

end L2State
