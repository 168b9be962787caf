import L2State.Bundle.RoundTrip

/-!
# L2State — what a closed record stream certifies

A writer of `bundle/records.go` keeps no note of a write that failed: `Close`
finishes the stream whatever the calls before it have returned. A call can
fail before it has written anything, or between the chunks of its payload when
the context is cancelled.

* `WriterCall`, `Writer.session` — any sequence of calls, each with what it
  came to.
* `Uncut`, `Torn` — the two kinds of stream that a session can leave; a torn
  one ends inside a record, and its context stays cancelled.
* `torn_not_frames` — **no scanner accepts a torn stream**.
* `close_certifies_completed_writes` — what `Close` returns, and when the file
  scans to the records that were written.
-/

namespace L2State

open Lib

/-! ## Sessions -/

/-- A call of the writer's interface. -/
inductive WriterCall
  | write (c : WriteCall)
  | countCodeReference

/-- What a call came to. A refused call has written nothing; an interrupted one
has left its header and a part of its payload. -/
inductive Outcome
  | done
  | refused (e : Err)
  | interrupted (e : Err)

namespace Writer

/-- One call. -/
def perform (g : Geth) (w : Writer) : WriterCall → Writer × Option Err
  | .write c => w.call g c
  | .countCodeReference => w.countCodeReference

/-- What a call on `w` with this result came to. -/
def outcome (w : Writer) (out : Writer × Option Err) : Outcome :=
  match out.2 with
  | none => .done
  | some e => if out.1.stream = w.stream then .refused e else .interrupted e

/-- Calls one after the other, whatever they return. -/
def session (g : Geth) : Writer → List WriterCall → Writer × List (WriterCall × Outcome)
  | w, [] => (w, [])
  | w, c :: cs =>
    let rest := session g (w.perform g c).1 cs
    (rest.1, (c, w.outcome (w.perform g c)) :: rest.2)

end Writer

/-- The record of a write that returned no error. -/
def completedRecord : WriterCall × Outcome → Option Record
  | (.write c, .done) => some c.record
  | _ => none

/-- The records whose write returned no error, in order. -/
def completed (log : List (WriterCall × Outcome)) : List Record := log.filterMap completedRecord

/-- The counts of a call that returned no error. -/
def completedCount : WriterCall × Outcome → Counts
  | (.write c, .done) => recordCounts c.record.typ c.consensusBytes
  | (.countCodeReference, .done) => .codeReference
  | _ => 0

def completedCounts (log : List (WriterCall × Outcome)) : Counts := (log.map completedCount).sum

/-- Whether a write was interrupted. -/
def Outcome.isInterrupted : Outcome → Bool
  | .interrupted _ => true
  | _ => false

def interrupted (log : List (WriterCall × Outcome)) : Bool := log.any fun e => e.2.isInterrupted

/-! ## Calls that fail -/

namespace Writer

variable {g : Geth} {w w' : Writer} {e : Err}

theorem checkCtx_failed (h : w.checkCtx = (w', some e)) : w' = w ∧ w.ctx = some 0 := by
  unfold checkCtx at h
  split at h
  · cases h
  · next hCtx =>
    cases h
    exact ⟨rfl, hCtx⟩
  · cases h

/-- A payload loop that fails has written a proper part of the payload. -/
theorem writeChunks_failed {fuel : Nat} {payload : Bytes}
    (h : writeChunks fuel w payload = (w', some e)) :
    ∃ part miss, payload = part ++ miss ∧ miss ≠ [] ∧
      w' = { w with stream := w.stream ++ part, hasher := w.hasher ++ part, ctx := some 0 } := by
  induction fuel generalizing w payload with
  | zero => cases h
  | succ fuel ih =>
    rw [writeChunks] at h
    split at h
    · cases h
    next hNe =>
    split at h
    · next hCheck =>
      cases h
      obtain ⟨rfl, hCtx⟩ := checkCtx_failed hCheck
      refine ⟨[], payload, rfl, hNe, ?_⟩
      rw [List.append_nil, List.append_nil, ← hCtx]
    · next w₁ hCheck =>
      obtain ⟨ctx, rfl⟩ := checkCtx_eq_ok hCheck
      obtain ⟨part, miss, hPayload, hMiss, rfl⟩ := ih h
      refine ⟨payload.take ioChunkSize ++ part, miss, ?_, hMiss, ?_⟩
      · rw [List.append_assoc, ← hPayload, List.take_append_drop]
      · rw [← List.append_assoc, ← List.append_assoc]

/-- A record that is cut off: the header, and a proper part of the payload. -/
structure Fragment where
  typ     : Byte
  key     : Bytes
  part    : Bytes
  miss    : Bytes
  checked : checkRecord typ key (part ++ miss) = .ok ()
  proper  : miss ≠ []

/-- The bytes of a fragment. -/
def Fragment.bytes (f : Fragment) : Bytes := header f.typ f.key (f.part ++ f.miss) ++ f.part

/-- The writer `v` with a record cut off behind it. -/
def cut (v : Writer) (f : Fragment) (hasher : Bytes) : Writer :=
  { v with stream := v.stream ++ f.bytes, hasher := hasher, ctx := some 0 }

/-- A record that fails leaves the stream as it is, or is cut off. -/
theorem writeRecord_failed {typ : Byte} {key payload : Bytes} {n : Nat}
    (h : w.writeRecord g typ key payload n = (w', some e)) :
    (∃ ctx, w' = { w with ctx := ctx }) ∨ ∃ f hasher, w' = w.cut f hasher := by
  unfold writeRecord at h
  split at h
  · cases h
    exact .inl ⟨_, rfl⟩
  split at h
  · next hCheck =>
    cases h
    obtain ⟨rfl, -⟩ := checkCtx_failed hCheck
    exact .inl ⟨_, rfl⟩
  next w₁ hCheck =>
  obtain ⟨ctx, rfl⟩ := checkCtx_eq_ok hCheck
  split at h
  · cases h
    exact .inl ⟨ctx, rfl⟩
  next hRecord =>
  dsimp only at h
  split at h
  · next hChunks =>
    cases h
    obtain ⟨part, miss, rfl, hMiss, rfl⟩ := writeChunks_failed hChunks
    refine .inr ⟨⟨typ, key, part, miss, hRecord, hMiss⟩,
      w.chain.bytes ++ header typ key (part ++ miss) ++ part, ?_⟩
    simp only [cut, Fragment.bytes, List.append_assoc]
  · cases h

theorem call_failed {c : WriteCall} (h : w.call g c = (w', some e)) :
    (∃ ctx, w' = { w with ctx := ctx }) ∨ ∃ f hasher, w' = w.cut f hasher := by
  by_cases hFits : c.Fits
  · rw [call_eq hFits] at h
    exact writeRecord_failed h
  · cases c with
    | account hash rlp n =>
      change w.writeAccount g hash rlp n = _ at h
      rw [writeAccount, if_pos (not_le.mp hFits)] at h
      cases h
      exact .inl ⟨_, rfl⟩
    | storage a k val => exact absurd trivial hFits
    | code hash c => exact absurd trivial hFits

/-- Under a cancelled context no record is written. -/
theorem call_cancelled (hCtx : w.ctx = some 0) (c : WriteCall) : ∃ e, w.call g c = (w, some e) := by
  by_cases hFits : c.Fits
  · have hCheck : w.checkCtx = (w, some errCanceled) := by rw [checkCtx, hCtx]
    rw [call_eq hFits, writeRecord, hCheck]
    split
    · exact ⟨_, rfl⟩
    · exact ⟨_, rfl⟩
  · cases c with
    | account hash rlp n =>
      show ∃ e, w.writeAccount g hash rlp n = (w, some e)
      rw [writeAccount, if_pos (not_le.mp hFits)]
      exact ⟨_, rfl⟩
    | storage a k val => exact absurd trivial hFits
    | code hash c => exact absurd trivial hFits

theorem stream_cut_ne (v : Writer) (f : Fragment) (hasher : Bytes) :
    (v.cut f hasher).stream ≠ v.stream := by
  intro h
  have hLen := congrArg List.length h
  simp [cut, Fragment.bytes, header] at hLen

end Writer

/-! ## What a session leaves -/

section Sessions

variable {g : Geth} {w₀ w w' : Writer} {log : List (WriterCall × Outcome)}

/-- A stream of whole records. -/
def Uncut (g : Geth) (w₀ : Writer) (log : List (WriterCall × Outcome)) (w : Writer) : Prop :=
  Wrote g w₀ (completed log) (completedCounts log) w

/-- A stream of whole records with one cut off behind them. -/
def Torn (g : Geth) (w₀ : Writer) (log : List (WriterCall × Outcome)) (w : Writer) : Prop :=
  ∃ v f hasher, Uncut g w₀ log v ∧ w = v.cut f hasher

/-- The invariant of a session. -/
def Left (g : Geth) (w₀ : Writer) (log : List (WriterCall × Outcome)) (w : Writer) : Prop :=
  if interrupted log = true then Torn g w₀ log w else Uncut g w₀ log w

theorem interrupted_concat (log : List (WriterCall × Outcome)) (c : WriterCall) (o : Outcome) :
    interrupted (log ++ [(c, o)]) = (interrupted log || o.isInterrupted) := by
  simp [interrupted]

theorem completed_concat (log : List (WriterCall × Outcome)) (e : WriterCall × Outcome) :
    completed (log ++ [e]) = completed log ++ (completedRecord e).toList := by
  cases h : completedRecord e <;> simp [completed, h]

theorem completedCounts_concat (log : List (WriterCall × Outcome)) (e : WriterCall × Outcome) :
    completedCounts (log ++ [e]) = completedCounts log + completedCount e := by
  simp [completedCounts]

/-- A call that returns an error adds no record and no count. -/
theorem uncut_concat_failed {c : WriterCall} {o : Outcome} (hDone : o ≠ .done)
    (h : Uncut g w₀ log w) : Uncut g w₀ (log ++ [(c, o)]) w := by
  have hNone : completedRecord (c, o) = none ∧ completedCount (c, o) = 0 := by
    cases o with
    | done => exact absurd rfl hDone
    | refused e => cases c <;> exact ⟨rfl, rfl⟩
    | interrupted e => cases c <;> exact ⟨rfl, rfl⟩
  unfold Uncut
  rw [completed_concat, completedCounts_concat, hNone.1, hNone.2, Option.toList_none,
    List.append_nil, add_zero]
  exact h

/-- A call that returns no error adds its record and its counts. -/
theorem uncut_concat_done {c : WriterCall} (h : Uncut g w₀ log w)
    (hCall : w.perform g c = (w', none)) : Uncut g w₀ (log ++ [(c, .done)]) w' := by
  unfold Uncut
  rw [completed_concat, completedCounts_concat]
  refine h.trans ?_
  cases c with
  | write c =>
    replace hCall : w.call g c = (w', none) := hCall
    rw [Writer.call_eq (Writer.fits_of_call hCall)] at hCall
    exact Wrote.single hCall
  | countCodeReference => exact Wrote.reference hCall

/-- The context is no part of what is certified. -/
theorem uncut_ctx (h : Uncut g w₀ log w) (ctx : Option Nat) :
    Uncut g w₀ log { w with ctx := ctx } :=
  ⟨h.stream, h.chain, h.counts, h.bytes, h.wire, h.checked, h.fileName, h.compression, h.closed⟩

/-- **One call keeps the invariant.** -/
theorem left_step (hOpen : w₀.closed = false) (h : Left g w₀ log w) (c : WriterCall) :
    Left g w₀ (log ++ [(c, w.outcome (w.perform g c))]) (w.perform g c).1 := by
  unfold Left at h ⊢
  rw [interrupted_concat]
  by_cases hTorn : interrupted log = true
  · -- the stream was cut before: the context stays cancelled
    rw [if_pos hTorn] at h
    obtain ⟨v, f, hasher, hUncut, rfl⟩ := h
    rw [if_pos (by rw [hTorn]; rfl)]
    cases c with
    | write c =>
      obtain ⟨e, hCall⟩ := Writer.call_cancelled (g := g) (w := v.cut f hasher) rfl c
      have hPerform : (v.cut f hasher).perform g (.write c) = (v.cut f hasher, some e) := hCall
      rw [hPerform]
      refine ⟨v, f, hasher, uncut_concat_failed ?_ hUncut, rfl⟩
      simp [Writer.outcome]
    | countCodeReference =>
      have hClosed : v.closed = false := hUncut.closed.trans hOpen
      have hCall : v.countCodeReference = ({ v with counts := v.counts + .codeReference }, none) :=
        if_neg (by rw [hClosed]; decide)
      have hCut : (v.cut f hasher).perform g .countCodeReference =
          (({ v with counts := v.counts + .codeReference } : Writer).cut f hasher, none) := by
        have hOpenCut : (v.cut f hasher).closed ≠ true := by
          rw [show (v.cut f hasher).closed = v.closed from rfl, hClosed]
          decide
        exact if_neg hOpenCut
      rw [hCut]
      exact ⟨_, f, hasher, uncut_concat_done (c := .countCodeReference) hUncut hCall, rfl⟩
  · rw [if_neg hTorn] at h
    have hFalse : interrupted log = false := by simpa using hTorn
    rw [hFalse, Bool.false_or]
    cases hCall : w.perform g c with
    | mk w' err =>
      cases err with
      | none => exact uncut_concat_done h hCall
      | some e =>
        -- only a write can be cut off
        have hCases : (∃ ctx, w' = { w with ctx := ctx }) ∨ ∃ f hasher, w' = w.cut f hasher := by
          cases c with
          | write c => exact Writer.call_failed hCall
          | countCodeReference =>
            replace hCall : w.countCodeReference = (w', some e) := hCall
            rw [Writer.countCodeReference, h.closed.trans hOpen] at hCall
            cases hCall
        rcases hCases with ⟨ctx, rfl⟩ | ⟨f, hasher, rfl⟩
        · have hRefused : w.outcome ({ w with ctx := ctx }, some e) = .refused e := if_pos rfl
          rw [hRefused]
          exact uncut_concat_failed (by simp) (uncut_ctx h ctx)
        · have hInterrupted : w.outcome (w.cut f hasher, some e) = .interrupted e :=
            if_neg (w.stream_cut_ne f hasher)
          rw [hInterrupted]
          exact ⟨w, f, hasher, uncut_concat_failed (by simp) h, rfl⟩

/-- **A session keeps the invariant.** -/
theorem left_session (hOpen : w₀.closed = false) {calls : List WriterCall}
    {log' : List (WriterCall × Outcome)} (h : Left g w₀ log w)
    (hRun : w.session g calls = (w', log')) :
    Left g w₀ (log ++ log') w' := by
  induction calls generalizing w log log' with
  | nil =>
    cases hRun
    simpa using h
  | cons c calls ih =>
    cases hRun
    have hNext := ih (left_step hOpen h c) rfl
    simpa using hNext

end Sessions

/-! ## A torn stream is not scanned -/

/-- Frames at the head of a stream are read off one by one. -/
theorem frame_append_inj {r r' : Record} {a b : Bytes}
    (hr : Writer.checkRecord r.typ r.key r.payload = .ok ())
    (hr' : Writer.checkRecord r'.typ r'.key r'.payload = .ok ())
    (h : r.frame ++ a = r'.frame ++ b) : a = b := by
  let g : Geth := referenceGeth fun _ => zeroHash
  let s : ScannerState := ⟨r.frame ++ a, zeroHash, 0, false⟩
  have h₁ : s.next g = .ok (some r.framed, s.read g r a) := next_frame rfl hr rfl
  have h₂ : s.next g = .ok (some r'.framed, s.read g r' b) := next_frame rfl hr' h
  rw [h₁, Except.ok.injEq, Prod.mk.injEq] at h₂
  exact congrArg ScannerState.reader h₂.2

/-- A fragment and the end marker are no stream of frames: the scanner would
need more bytes for the payload than there are. -/
theorem fragment_not_frames (f : Writer.Fragment) {rs : List Record}
    (hAll : ∀ r ∈ rs, Writer.checkRecord r.typ r.key r.payload = .ok ()) :
    rs.flatMap Record.frame ++ [recordEnd] ≠ f.bytes ++ [recordEnd] := by
  intro h
  obtain ⟨⟨⟩, -, keyLen, hKeyLen, hKey⟩ := by
    have hChecked := f.checked
    simp only [Writer.checkRecord, bind_eq_ok, require_eq_ok] at hChecked
    exact hChecked
  have hTyp := typ_of_recordKeyLength hKeyLen
  have hMiss : 0 < f.miss.length := List.length_pos_iff.mpr f.proper
  cases rs with
  | nil =>
    -- the first byte would be the end marker
    have hEnd : recordEnd = f.typ := (List.cons.inj h).1
    rcases hTyp with ⟨-, h | h⟩ | ⟨-, h⟩ <;> rw [h] at hEnd <;> exact absurd hEnd (by decide)
  | cons r rs =>
    have hCheck := hAll r List.mem_cons_self
    simp only [Writer.checkRecord, bind_eq_ok, require_eq_ok] at hCheck
    obtain ⟨⟨⟩, hValid, keyLen', hKeyLen', hKey'⟩ := hCheck
    have hBytes : r.typ :: (r.key ++ (toBE 8 r.payload.length ++ (r.payload ++
        (rs.flatMap Record.frame ++ [recordEnd])))) =
        f.typ :: (f.key ++ (toBE 8 (f.part ++ f.miss).length ++ (f.part ++ [recordEnd]))) := by
      simpa [Record.frame, Writer.Fragment.bytes, Writer.header] using h
    obtain ⟨hSame, hRest⟩ := List.cons.inj hBytes
    rw [hSame, hKeyLen] at hKeyLen'
    obtain rfl := Except.ok.inj hKeyLen'
    obtain ⟨-, hRest₁⟩ := List.append_inj hRest (hKey'.trans hKey.symm)
    obtain ⟨hSize, hRest₂⟩ := List.append_inj hRest₁ (by simp)
    -- the two payloads have the same length
    have hLt := length_lt_of_validatePayloadLength hValid
    have hLt' : (f.part ++ f.miss).length < 2 ^ 64 := by
      have hChecked := f.checked
      simp only [Writer.checkRecord, bind_eq_ok] at hChecked
      obtain ⟨⟨⟩, hValid', -⟩ := hChecked
      exact length_lt_of_validatePayloadLength hValid'
    have hLen := toBE_injOn (n := 8) (by omega) (by omega) hSize
    have hCount := congrArg List.length hRest₂
    simp only [List.length_append, List.length_singleton] at hLen hCount
    omega

/-- **No scanner accepts a torn stream.** -/
theorem torn_not_frames (f : Writer.Fragment) {rs rs' : List Record}
    (hAll : ∀ r ∈ rs, Writer.checkRecord r.typ r.key r.payload = .ok ())
    (hAll' : ∀ r ∈ rs', Writer.checkRecord r.typ r.key r.payload = .ok ()) :
    rs'.flatMap Record.frame ++ [recordEnd] ≠
      rs.flatMap Record.frame ++ (f.bytes ++ [recordEnd]) := by
  induction rs generalizing rs' with
  | nil => exact fragment_not_frames f hAll'
  | cons r rs ih =>
    intro h
    obtain ⟨hHead, hTail⟩ := List.forall_mem_cons.mp hAll
    cases rs' with
    | nil =>
      -- a frame is longer than the end marker
      have hLen := congrArg List.length h
      simp [Record.frame, Writer.header] at hLen
    | cons r' rs' =>
      obtain ⟨hHead', hTail'⟩ := List.forall_mem_cons.mp hAll'
      rw [List.flatMap_cons, List.flatMap_cons, List.append_assoc, List.append_assoc] at h
      exact ih hTail hTail' (frame_append_inj hHead' hHead h)

/-! ## What `Close` certifies -/

/-- **A stream that `Close` finishes.** For every sequence of calls, with a
context that is cancelled at any check, the counts, the wire bytes and the
chain hash that `Close` returns are those of the writes that returned no error.
If no write was interrupted inside a record, the file scans to exactly the
records of these writes, in order. If one was, `Close` returns the same success,
but no scanner accepts the stream. -/
theorem close_certifies_completed_writes {g : Geth} (fc : FileCodec) {compression : String}
    {head : Head} {headerRLP : Bytes} {ctx : Option Nat} {w₀ w : Writer} {calls : List WriterCall}
    {log : List (WriterCall × Outcome)}
    (hNew : newWriter g compression head headerRLP ctx = .ok w₀)
    (hRun : w₀.session g calls = (w, log)) :
    ∃ result file, w.close fc = .ok (result, file) ∧
    file = fc.fileBytes w₀.compression w.finalStream ∧ result.compression = w₀.compression ∧
    result.counts = completedCounts log ∧
    result.recordPayloadBytes = .ofNat (recordBytes (completed log)) ∧
    result.recordChainHash =
      (completed log).foldl (chainStep g) (initialChainHash g head headerRLP) ∧
    (interrupted log = false →
      ∃ s, scanStream g (initialChainHash g head headerRLP) w.finalStream = .ok (s, completed log) ∧
        s.counts.Matches result.counts ∧ s.counts.payloadBytes = result.recordPayloadBytes ∧
        s.chain = result.recordChainHash) ∧
    (interrupted log = true →
      ∀ r, scanStream g (initialChainHash g head headerRLP) w.finalStream ≠ .ok r) := by
  obtain ⟨hStream, hChain, hCounts, hBytes, hOpen, -⟩ := newWriter_eq_ok hNew
  have hInit : Left g w₀ [] w₀ := Wrote.refl g w₀
  have hLeft := left_session hOpen hInit hRun
  rw [List.nil_append] at hLeft
  -- the certified fields are those of the whole records, cut or not
  obtain ⟨v, hUncut, hClosed, hChain', hCounts', hBytes', hCompression⟩ : ∃ v, Uncut g w₀ log v ∧
      w.closed = v.closed ∧ w.chain = v.chain ∧ w.counts = v.counts ∧
      w.recordBytes = v.recordBytes ∧ w.compression = v.compression := by
    unfold Left at hLeft
    split at hLeft
    · obtain ⟨v, f, hasher, hUncut, rfl⟩ := hLeft
      exact ⟨v, hUncut, rfl, rfl, rfl, rfl, rfl⟩
    · exact ⟨w, hLeft, rfl, rfl, rfl, rfl, rfl⟩
  have hFramed : ∀ r ∈ completed log, r.framed = r := by
    intro r hr
    obtain ⟨⟨c, o⟩, -, hRecord⟩ := List.mem_filterMap.mp hr
    cases c with
    | write c =>
      cases o with
      | done =>
        obtain rfl := Option.some.inj hRecord
        exact c.framed_record
      | refused e => cases hRecord
      | interrupted e => cases hRecord
    | countCodeReference => cases hRecord
  -- nothing in the writer tells `Close` that a write was interrupted
  have hClose : w.closed = false := hClosed.trans (hUncut.closed.trans hOpen)
  refine ⟨_, _, by rw [Writer.close, require_true hClose]; rfl, ?_, ?_, ?_, ?_, ?_,
    fun hWhole => ?_, fun hTorn r hScan => ?_⟩
  · rw [hCompression, hUncut.compression]
  · exact hCompression.trans hUncut.compression
  · show w.counts = _
    rw [hCounts', hUncut.counts, hCounts, zero_add]
  · show w.recordBytes = _
    rw [hBytes', hUncut.bytes, hBytes, UInt64.zero_add]
  · show w.chain = _
    rw [hChain', hUncut.chain, hChain]
  · rw [Left, if_neg (by rw [hWhole]; decide)] at hLeft
    refine ⟨_, scanStream_eq_ok_iff.mpr ⟨?_, fun r hr => ⟨hFramed r hr, hLeft.checked r hr⟩, rfl⟩,
      ?_, ?_, ?_⟩
    · rw [Writer.finalStream, hLeft.stream, hStream, recordStream]
    · exact hLeft.wire 0 (by rw [hCounts]; exact ⟨rfl, rfl, rfl, rfl⟩)
    · show _ = w.recordBytes
      rw [payloadBytes_foldl, hLeft.bytes, hBytes]
      rfl
    · show _ = w.chain
      rw [hLeft.chain, hChain]
  · rw [Left, if_pos hTorn] at hLeft
    obtain ⟨v', f, hasher, hWhole, rfl⟩ := hLeft
    obtain ⟨hRecords, hAll, -⟩ :=
      scanStream_eq_ok_iff.mp (show scanStream g _ _ = .ok (r.1, r.2) from hScan)
    rw [Writer.finalStream, Writer.cut, hWhole.stream, hStream, recordStream, List.append_assoc,
      List.append_assoc, List.append_assoc] at hRecords
    exact torn_not_frames f hWhole.checked (fun r hr => (hAll r hr).2)
      (List.append_cancel_left hRecords).symm

/-- A new writer, with a context that is cancelled after some checks. -/
def sampleWriter (ctx : Option Nat) : Writer where
  stream := streamMagic
  chain := initialChainHash sampleGeth sampleHead sampleHeader
  hasher := []
  counts := 0
  recordBytes := 0
  fileName := recordsFileRaw
  compression := compressionNone
  ctx := ctx
  closed := false

/-- Two records, a code reference, an empty code and a code under the cancelled
context. -/
def sampleSession : List WriterCall := [
  .write (.code sampleCodeHash sampleCode), .countCodeReference, .write (.code sampleCodeHash []),
  .write (.storage sampleHashA sampleSlot [0x2a]), .write (.code sampleCodeHash sampleCode)]

/-- The sample session, closed and scanned. -/
theorem close_certifies_sample :
    completed ((sampleWriter (some 5)).session sampleGeth sampleSession).2 =
      [.code sampleCodeHash sampleCode, .storage sampleHashA sampleSlot [0x2a]] ∧
    ∃ result file s,
      ((sampleWriter (some 5)).session sampleGeth sampleSession).1.close checksumCodec =
        .ok (result, file) ∧
      scanStream sampleGeth (initialChainHash sampleGeth sampleHead sampleHeader) file =
        .ok (s, [.code sampleCodeHash sampleCode, .storage sampleHashA sampleSlot [0x2a]]) ∧
      s.chain = result.recordChainHash := by
  have hRecords : completed ((sampleWriter (some 5)).session sampleGeth sampleSession).2 =
      [.code sampleCodeHash sampleCode, .storage sampleHashA sampleSlot [0x2a]] := by decide +kernel
  have hNew : newWriter sampleGeth compressionNone sampleHead sampleHeader (some 5) =
      .ok (sampleWriter (some 5)) := rfl
  obtain ⟨result, file, hClose, hFile, -, -, -, -, hWhole, -⟩ :=
    close_certifies_completed_writes checksumCodec hNew (Prod.mk.eta
      (p := (sampleWriter (some 5)).session sampleGeth sampleSession)).symm
  obtain ⟨s, hScan, -, -, hChain⟩ := hWhole (by decide +kernel)
  rw [hRecords] at hScan
  refine ⟨hRecords, result, file, s, hClose, ?_, hChain⟩
  rw [hFile]
  exact hScan

/-- **`Close` does not see an interrupted write.** The context is cancelled
after the header of a code record: the write returns the error, `Close` returns
success without a record, and the file is not scanned. -/
theorem close_after_interrupted_write :
    newWriter sampleGeth compressionNone sampleHead sampleHeader (some 1) =
      .ok (sampleWriter (some 1)) ∧
    completed ((sampleWriter (some 1)).session sampleGeth
      [.write (.code sampleCodeHash sampleCode)]).2 = [] ∧
    ∃ result file,
      ((sampleWriter (some 1)).session sampleGeth
        [.write (.code sampleCodeHash sampleCode)]).1.close
        checksumCodec = .ok (result, file) ∧
      ∀ r, scanStream sampleGeth (initialChainHash sampleGeth sampleHead sampleHeader) file ≠
        .ok r := by
  refine ⟨rfl, by decide +kernel, _, _, rfl, fun r hScan => ?_⟩
  have hNone : okWith (scanStream sampleGeth (initialChainHash sampleGeth sampleHead sampleHeader)
      ((sampleWriter (some 1)).session sampleGeth
        [.write (.code sampleCodeHash sampleCode)]).1.finalStream) (fun _ => true) = false := by
    decide +kernel
  have hSome : okWith (scanStream sampleGeth (initialChainHash sampleGeth sampleHead sampleHeader)
      ((sampleWriter (some 1)).session sampleGeth
        [.write (.code sampleCodeHash sampleCode)]).1.finalStream) (fun _ => true) = true :=
    okWith_eq_true.mpr ⟨r, hScan, rfl⟩
  exact absurd (hNone.symm.trans hSome) (by decide)

end L2State
