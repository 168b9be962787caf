import L2State.Bundle.Consumer
import L2State.Geth.Rawdb

/-!
# L2State — the record stream writer

`bundle.Writer` of `bundle/records.go`. The writer appends framed records to
a byte stream, chains their hashes and counts them.

A cancelled context is seen by the checks between writes, so a write can stop
in the middle of a record; `ctx` counts the checks that still pass. Writes to
the buffered file are taken to succeed.

* `Writer.writeRecord` — one record: checks, header, payload in chunks.
* `Writer.writeAccount`, `writeStorage`, `writeCode`, `countCodeReference`.
* `Writer.close` — the result of a finished stream.
* `writeRecord_ok` — what a successful write appends.
-/

namespace L2State

open Lib

/-- The end marker of the stream. -/
def recordEnd : Byte := 0

/-- `streamMagic`: the bytes of `L2STATE1`. -/
def streamMagic : Bytes := [0x4c, 0x32, 0x53, 0x54, 0x41, 0x54, 0x45, 0x31]

/-- The limits of `records.go`. -/
def maxAccountPayload : Nat := 110
def maxStoragePayload : Nat := 33
def maxCodePayload : Nat := 128 * 2 ^ 20
def ioChunkSize : Nat := 256 * 2 ^ 10

/-- `recordChainDomain`. -/
def recordChainDomain : Bytes := asciiBytes "metis-l2state-record-chain/v1"

/-- `initialChainHash`. -/
def initialChainHash (g : Geth) (head : Head) (headerRLP : Bytes) : Hash :=
  g.keccak (recordChainDomain ++ toBE 8 head.blockNumber.toNat ++ head.blockHash.bytes ++
    head.stateRoot.bytes ++ (g.keccak headerRLP).bytes)

/-- `recordKeyLength`. -/
def recordKeyLength (typ : Byte) : Except Err Nat :=
  if typ = recordAccount ∨ typ = recordCode then .ok 32
  else if typ = recordStorage then .ok (2 * 32)
  else .error (.msg "unknown record type %d" [.num typ.val])

/-- The largest payload of a record type. -/
def maxPayload (typ : Byte) : Except Err Nat :=
  if typ = recordAccount then .ok maxAccountPayload
  else if typ = recordStorage then .ok maxStoragePayload
  else if typ = recordCode then .ok maxCodePayload
  else .error (.msg "unknown record type %d" [.num typ.val])

/-- `validatePayloadLength`. -/
def validatePayloadLength (typ : Byte) (length : Nat) : Except Err Unit := do
  let max ← maxPayload typ
  require (length ≠ 0) (.msg "record type %d has empty payload" [.num typ.val])
  require (length ≤ max)
    (.msg "record type %d payload is %d bytes, maximum is %d" [.num typ.val, .num length, .num max])

/-- The counters of one record. -/
def recordCounts (typ : Byte) (payloadBytes : Nat) : Counts :=
  if typ = recordAccount then .account payloadBytes
  else if typ = recordStorage then .slot payloadBytes
  else .code payloadBytes

/-- The fields of a `Writer`. `stream` is what was written to the buffer,
`hasher` what the chain hasher absorbed since its last reset, and `ctx` the
number of context checks that still pass (`none`: all of them). -/
structure Writer where
  stream      : Bytes
  chain       : Hash
  hasher      : Bytes
  counts      : Counts
  recordBytes : UInt64
  fileName    : String
  compression : String
  ctx         : Option Nat
  closed      : Bool

/-- The error of a cancelled context. -/
def errCanceled : Err := .outside "context canceled"

/-- `NewWriter`, on a directory where the file can be created. -/
def newWriter (g : Geth) (compression : String) (head : Head) (headerRLP : Bytes)
    (ctx : Option Nat) : Except Err Writer := do
  let fileName ←
    if compression = compressionZstd then .ok recordsFileZstd
    else if compression = compressionNone then .ok recordsFileRaw
    else .error (.msg "unsupported compression %q" [.text compression])
  return { stream := streamMagic, chain := initialChainHash g head headerRLP, hasher := []
           counts := 0, recordBytes := 0, fileName := fileName, compression := compression
           ctx := ctx, closed := false }

namespace Writer

/-- `ctx.Err()`: one check of the context. -/
def checkCtx (w : Writer) : Writer × Option Err :=
  match w.ctx with
  | none => (w, none)
  | some 0 => (w, some errCanceled)
  | some (n + 1) => ({ w with ctx := some n }, none)

/-- `CountCodeReference`. -/
def countCodeReference (w : Writer) : Writer × Option Err :=
  if w.closed = true then (w, some (.msg "state record writer is closed" []))
  else ({ w with counts := w.counts + .codeReference }, none)

/-- The payload loop of `writeRecord`; every chunk has at least one byte, so
`payload.length` rounds suffice. -/
def writeChunks : Nat → Writer → Bytes → Writer × Option Err
  | 0, w, _ => (w, none)
  | fuel + 1, w, payload =>
    if payload = [] then (w, none)
    else
      match w.checkCtx with
      | (w, some e) => (w, some e)
      | (w, none) =>
        writeChunks fuel { w with stream := w.stream ++ payload.take ioChunkSize
                                  hasher := w.hasher ++ payload.take ioChunkSize }
          (payload.drop ioChunkSize)

/-- The header of a record. -/
def header (typ : Byte) (key payload : Bytes) : Bytes :=
  typ :: (key ++ toBE 8 payload.length)

/-- The checks of `writeRecord` before anything is written. -/
def checkRecord (typ : Byte) (key payload : Bytes) : Except Err Unit := do
  validatePayloadLength typ payload.length
  let expectedKeyLen ← recordKeyLength typ
  require (key.length = expectedKeyLen)
    (.msg "record type %d key has length %d, want %d"
      [.num typ.val, .num key.length, .num expectedKeyLen])

/-- `writeRecord`; `key` is the key followed by the subkey. -/
def writeRecord (g : Geth) (w : Writer) (typ : Byte) (key payload : Bytes)
    (consensusPayloadBytes : Nat) : Writer × Option Err :=
  if w.closed = true then (w, some (.msg "state record writer is closed" []))
  else
    match w.checkCtx with
    | (w, some e) => (w, some e)
    | (w, none) =>
      match checkRecord typ key payload with
      | .error e => (w, some e)
      | .ok () =>
        let w := { w with stream := w.stream ++ header typ key payload
                          hasher := w.chain.bytes ++ header typ key payload }
        match writeChunks payload.length w payload with
        | (w, some e) => (w, some e)
        | (w, none) =>
          ({ w with chain := g.keccak w.hasher
                    counts := w.counts + recordCounts typ consensusPayloadBytes
                    recordBytes := w.recordBytes + .ofNat payload.length }, none)

/-- `WriteAccount`. -/
def writeAccount (g : Geth) (w : Writer) (accountHash : Hash) (accountRLP : Bytes)
    (consensusPayloadBytes : Nat) : Writer × Option Err :=
  if accountRLP.length > consensusPayloadBytes then
    (w, some (.msg "slim account payload is %d bytes, expanded consensus payload is %d"
      [.num accountRLP.length, .num consensusPayloadBytes]))
  else w.writeRecord g recordAccount accountHash.bytes accountRLP consensusPayloadBytes

/-- `WriteStorage`. -/
def writeStorage (g : Geth) (w : Writer) (accountHash slotHash : Hash) (valueRLP : Bytes) :
    Writer × Option Err :=
  w.writeRecord g recordStorage (accountHash.bytes ++ slotHash.bytes) valueRLP valueRLP.length

/-- `WriteCode`. -/
def writeCode (g : Geth) (w : Writer) (codeHash : Hash) (code : Bytes) : Writer × Option Err :=
  w.writeRecord g recordCode codeHash.bytes code code.length

end Writer

/-! ## Closing the stream -/

/-- The compression and digest functions of the operating environment. -/
structure FileCodec where
  zstdEncode : Bytes → Bytes
  zstdDecode : Bytes → Except Err Bytes
  sha256     : Bytes → Hash

/-- The bytes of the records file for an uncompressed stream. -/
def FileCodec.fileBytes (fc : FileCodec) (compression : String) (stream : Bytes) : Bytes :=
  if compression = compressionZstd then fc.zstdEncode stream else stream

/-- `WriterResult`. -/
structure WriterResult where
  counts             : Counts
  recordPayloadBytes : UInt64
  fileName           : String
  compression        : String
  size               : Int
  sha256             : Hash
  recordChainHash    : Hash

/-- The stream of a closed writer. -/
def Writer.finalStream (w : Writer) : Bytes := w.stream ++ [recordEnd]

/-- `Close`: the result, and the records file. -/
def Writer.close (fc : FileCodec) (w : Writer) : Except Err (WriterResult × Bytes) := do
  require (w.closed = false) (.msg "state record writer is already closed" [])
  let file := fc.fileBytes w.compression w.finalStream
  return ({ counts := w.counts, recordPayloadBytes := w.recordBytes, fileName := w.fileName
            compression := w.compression, size := file.length, sha256 := fc.sha256 file
            recordChainHash := w.chain }, file)

/-! ## What a successful write appends -/

/-- The key bytes of a record. -/
def Record.key (r : Record) : Bytes :=
  if r.typ = recordAccount then r.accountHash.bytes
  else if r.typ = recordCode then r.subHash.bytes
  else r.accountHash.bytes ++ r.subHash.bytes

/-- The bytes of a record in the stream. -/
def Record.frame (r : Record) : Bytes := Writer.header r.typ r.key r.payload ++ r.payload

/-- The chain hash after a record. -/
def chainStep (g : Geth) (chain : Hash) (r : Record) : Hash := g.keccak (chain.bytes ++ r.frame)

/-- The writer after the record `r`, counted with `consensusPayloadBytes`. -/
def Writer.wrote (g : Geth) (w : Writer) (r : Record) (consensusPayloadBytes : Nat)
    (ctx : Option Nat) : Writer :=
  { w with stream := w.stream ++ r.frame
           chain := chainStep g w.chain r
           hasher := w.chain.bytes ++ r.frame
           counts := w.counts + recordCounts r.typ consensusPayloadBytes
           recordBytes := w.recordBytes + .ofNat r.payload.length
           ctx := ctx }

variable {w w' : Writer} {payload : Bytes}

namespace Writer

theorem checkCtx_eq_ok (h : w.checkCtx = (w', none)) :
    ∃ ctx, w' = { w with ctx := ctx } := by
  unfold checkCtx at h
  split at h
  · cases h
    exact ⟨w.ctx, rfl⟩
  · cases h
  · cases h
    exact ⟨_, rfl⟩

/-- A payload loop without error appends the whole payload. -/
theorem writeChunks_eq_ok {fuel : Nat} (hFuel : payload.length ≤ fuel)
    (h : writeChunks fuel w payload = (w', none)) :
    ∃ ctx, w' = { w with stream := w.stream ++ payload, hasher := w.hasher ++ payload
                         ctx := ctx } := by
  induction fuel generalizing w payload with
  | zero =>
    obtain rfl : payload = [] := List.length_eq_zero_iff.mp (by omega)
    cases h
    exact ⟨w'.ctx, by simp⟩
  | succ fuel ih =>
    rw [writeChunks] at h
    split at h
    · next hNil =>
      cases h
      exact ⟨w'.ctx, by simp [hNil]⟩
    · next hNe =>
      split at h
      · cases h
      · next w₁ hCheck =>
        obtain ⟨ctx₁, rfl⟩ := checkCtx_eq_ok hCheck
        have hPos : 0 < payload.length := List.length_pos_iff.mpr hNe
        have hDrop : (payload.drop ioChunkSize).length ≤ fuel := by
          rw [List.length_drop, ioChunkSize]
          omega
        obtain ⟨ctx, rfl⟩ := ih hDrop h
        exact ⟨ctx, by simp [List.append_assoc, List.take_append_drop]⟩

/-- A successful write appends the frame of the record, chains its hash and
counts it. -/
theorem writeRecord_eq_ok {g : Geth} {r : Record} {n : Nat}
    (h : w.writeRecord g r.typ r.key r.payload n = (w', none)) :
    w.closed = false ∧ checkRecord r.typ r.key r.payload = .ok () ∧
      ∃ ctx, w' = w.wrote g r n ctx := by
  unfold writeRecord at h
  split at h
  · cases h
  next hClosed =>
  split at h
  · cases h
  next w₁ hCheck =>
  obtain ⟨ctx₁, rfl⟩ := checkCtx_eq_ok hCheck
  split at h
  · cases h
  next hRecord =>
  dsimp only at h
  split at h
  · cases h
  next w₂ hChunks =>
  obtain ⟨ctx₂, rfl⟩ := writeChunks_eq_ok le_rfl hChunks
  cases h
  refine ⟨by simpa using hClosed, hRecord, ctx₂, ?_⟩
  simp [wrote, chainStep, Record.frame]

/-- Without cancellation a payload loop does not fail. -/
theorem writeChunks_of_running {fuel : Nat} {w : Writer} {payload : Bytes} (h : w.ctx = none) :
    ∃ w', writeChunks fuel w payload = (w', none) ∧ w'.ctx = none ∧ w'.closed = w.closed := by
  induction fuel generalizing w payload with
  | zero => exact ⟨w, rfl, h, rfl⟩
  | succ fuel ih =>
    rw [writeChunks]
    split
    · exact ⟨w, rfl, h, rfl⟩
    · have hCheck : w.checkCtx = (w, none) := by simp [checkCtx, h]
      rw [hCheck]
      exact ih h

/-- Without cancellation a record that passes the checks is written. -/
theorem writeRecord_of_running {g : Geth} {w : Writer} {typ : Byte} {key payload : Bytes} (n : Nat)
    (hClosed : w.closed = false) (hCtx : w.ctx = none)
    (hCheck : checkRecord typ key payload = .ok ()) :
    ∃ w', w.writeRecord g typ key payload n = (w', none) ∧ w'.ctx = none ∧ w'.closed = false := by
  have hCheckCtx : w.checkCtx = (w, none) := by simp [checkCtx, hCtx]
  unfold writeRecord
  rw [if_neg (by simp [hClosed]), hCheckCtx]
  dsimp only
  rw [hCheck]
  dsimp only
  obtain ⟨w', hChunks, hCtx', hClosed'⟩ := @writeChunks_of_running payload.length
    { w with stream := w.stream ++ header typ key payload
             hasher := w.chain.bytes ++ header typ key payload } payload hCtx
  rw [hChunks]
  exact ⟨_, rfl, hCtx', hClosed'.trans hClosed⟩

end Writer

/-! ## Account payloads -/

theorem validatePayloadLength_account {n : Nat} (hNe : n ≠ 0) (hLe : n ≤ maxAccountPayload) :
    validatePayloadLength recordAccount n = .ok () := by
  have hMax : maxPayload recordAccount = .ok maxAccountPayload := if_pos rfl
  rw [validatePayloadLength, hMax, ok_bind, require_true hNe, ok_bind, require_true hLe]

theorem Writer.checkRecord_account {hash : Hash}
    (h : validatePayloadLength recordAccount payload.length = .ok ()) :
    Writer.checkRecord recordAccount hash.bytes payload = .ok () := by
  have hKeyLen : recordKeyLength recordAccount = .ok 32 := if_pos (.inl rfl)
  rw [Writer.checkRecord, h, ok_bind, hKeyLen, ok_bind, require_true hash.length_bytes]

/-- A slim record that `DecodeAccount` refuses whatever its numbers are: a
field of a wrong length, or an empty value spelled out. -/
def SlimAccount.Misspelled (s : SlimAccount) : Prop :=
  (s.root.length ≠ 0 ∧ s.root.length ≠ 32) ∨ (s.codeHash.length ≠ 0 ∧ s.codeHash.length ≠ 32) ∨
    s.root = emptyRootHash.bytes ∨ s.codeHash = emptyCodeHash.bytes

/-- The slim records that `DecodeAccount` takes are the ones without a misspelled
field. -/
theorem decodeAccount_eq_ok_iff {d full : Bytes} {a : StateAccount} :
    decodeAccount d = .ok (a, full) ↔
      ∃ s, decodeSlimAccount d = .ok s ∧ ¬ s.Misspelled ∧ a = s.expand ∧
        full = encodeStateAccount a := by
  unfold decodeAccount SlimAccount.Misspelled
  simp only [bind_eq_ok, wrapping_eq_ok, rlpResult_eq_ok, require_eq_ok, pure_eq_ok,
    Except.ok.injEq, Prod.mk.injEq]
  constructor
  · rintro ⟨s, hDecode, -, hRoot, -, hCode, -, hRootNe, -, hCodeNe, rfl, rfl⟩
    refine ⟨s, hDecode, ?_, rfl, rfl⟩
    rintro (⟨h₁, h₂⟩ | ⟨h₁, h₂⟩ | h | h)
    · exact hRoot.elim h₁ h₂
    · exact hCode.elim h₁ h₂
    · exact hRootNe h
    · exact hCodeNe h
  · rintro ⟨s, hDecode, hSpelled, rfl, rfl⟩
    refine ⟨s, hDecode, (), ?_, (), ?_, (), fun h => hSpelled (.inr (.inr (.inl h))), (),
      fun h => hSpelled (.inr (.inr (.inr h))), rfl, rfl⟩
    · by_contra hRoot
      exact hSpelled (.inl (not_or.mp hRoot))
    · by_contra hCode
      exact hSpelled (.inr (.inl (not_or.mp hCode)))

namespace Writer

theorem checkCtx_error {e : Err} (h : w.checkCtx = (w', some e)) :
    e = errCanceled := by
  unfold checkCtx at h
  split at h
  · cases h
  · cases h
    rfl
  · cases h

theorem writeChunks_error {fuel : Nat} {e : Err} (h : writeChunks fuel w payload = (w', some e)) :
    e = errCanceled := by
  induction fuel generalizing w payload with
  | zero => cases h
  | succ fuel ih =>
    rw [writeChunks] at h
    split at h
    · cases h
    · split at h
      · next hCheck =>
        cases h
        exact checkCtx_error hCheck
      · exact ih h

/-- A record that passes the checks is refused only by a closed writer or a
cancelled context. -/
theorem writeRecord_error {g : Geth} {typ : Byte} {key : Bytes} {n : Nat} {e : Err}
    (hCheck : checkRecord typ key payload = .ok ())
    (h : w.writeRecord g typ key payload n = (w', some e)) : w.closed = true ∨ e = errCanceled := by
  unfold writeRecord at h
  split at h
  · next hClosed => exact .inl hClosed
  right
  split at h
  · next hCtx =>
    cases h
    exact checkCtx_error hCtx
  rw [hCheck] at h
  dsimp only at h
  split at h
  · next hChunks =>
    cases h
    exact writeChunks_error hChunks
  · cases h

end Writer

/-- **The account codec is a bijection onto the payloads that it accepts.** What
`EncodeAccount` returns is decoded to the same account and to its consensus
encoding, is within the limits of an account record and is written unless the
writer is closed or cancelled. A payload that `DecodeAccount` accepts is the
encoding of the account that it returns; a record with a misspelled field is
refused, and so is everything that is no encoding. -/
theorem slim_account_codec (g : Geth) :
    (∀ a : StateAccount, (∃ d, encodeAccount a = .ok d) ↔ a.codeHash.length = 32) ∧
    (∀ a d, encodeAccount a = .ok d →
      decodeAccount d = .ok (a, encodeStateAccount a) ∧ d ≠ [] ∧
        d.length ≤ (encodeStateAccount a).length ∧
        validatePayloadLength recordAccount d.length = .ok () ∧
        ∀ (w w' : Writer) (hash : Hash) (e : Err),
          w.writeAccount g hash d (encodeStateAccount a).length = (w', some e) →
            w.closed = true ∨ e = errCanceled) ∧
    (∀ d a full, decodeAccount d = .ok (a, full) →
      encodeAccount a = .ok d ∧ full = encodeStateAccount a) ∧
    (∀ d s, decodeSlimAccount d = .ok s → s.Misspelled → ∀ r, decodeAccount d ≠ .ok r) ∧
    ∀ d r, decodeAccount d = .ok r → ∃ s, d = encodeSlimAccount s ∧ ¬ s.Misspelled := by
  refine ⟨fun a => ?_, fun a d hEncode => ?_, fun d a full hDecode => ?_,
    fun d s hSlim hBad r hOk => ?_, fun d r hOk => ?_⟩
  · constructor
    · rintro ⟨d, hEncode⟩
      exact (encodeAccount_eq_ok_iff.mp hEncode).1
    · intro hLen
      exact ⟨slimAccountRLP a, encodeAccount_eq_ok_iff.mpr ⟨hLen, rfl⟩⟩
  · obtain ⟨hLen, rfl⟩ := encodeAccount_eq_ok_iff.mp hEncode
    obtain ⟨hFull, hLimit⟩ := length_slimAccountRLP hLen
    have hNe : (slimAccountRLP a).length ≠ 0 := fun h =>
      slimAccountRLP_ne_nil a (List.length_eq_zero_iff.mp h)
    have hValid := validatePayloadLength_account hNe hLimit
    refine ⟨decodeAccount_encodeAccount hLen, slimAccountRLP_ne_nil a, hFull, hValid, ?_⟩
    intro w w' hash e hWrite
    unfold Writer.writeAccount at hWrite
    rw [if_neg (by omega)] at hWrite
    exact Writer.writeRecord_error (Writer.checkRecord_account hValid) hWrite
  · obtain ⟨rfl, hFull, hLen⟩ := encodeAccount_of_decodeAccount hDecode
    exact ⟨encodeAccount_eq_ok_iff.mpr ⟨hLen, rfl⟩, hFull⟩
  · obtain ⟨s', hSlim', hSpelled, -⟩ := decodeAccount_eq_ok_iff.mp hOk
    obtain rfl : s = s' := Except.ok.inj (hSlim.symm.trans hSlim')
    exact hSpelled hBad
  · obtain ⟨s, hSlim, hSpelled, -⟩ := decodeAccount_eq_ok_iff.mp hOk
    exact ⟨s, (decodeSlimAccount_eq_ok_iff.mp hSlim).1, hSpelled⟩

end L2State
