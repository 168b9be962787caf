import Mathlib.Data.List.GetD
import L2State.Lib.JsonPieces
import L2State.Ovm.AllocInput

/-!
# L2State — the filter in front of the GenesisAlloc decoder

`ovmAllocReader` of `ovm_alloc_input.go`: it bounds the tokens that the JSON decoder
has to buffer, and it collapses white space outside of strings, in the buffer of the
caller and whatever the sizes of the reads are.

* `AllocReader.read` — the loop of `Read` over the replies of the reader below.
* `filterFrom_spec` — **the compaction in place** writes what the filter passes.
* `bounded` — what the filter is for: the pieces of the input with one space for each
  run, up to the byte at which a token is too long.
* `passBytes_pieces` — **the filter computes it**, in any chunks.
-/

namespace L2State

open Lib

/-! ## The reader -/

/-- The bound of a token: two quotes around a code of the largest size, all of its
digits written as six bytes. -/
def allocTokenBound : Nat := 6 * (2 * ovmAllocMaxCode + 2) + 2

def allocTokenErr : Err := .msg "GenesisAlloc JSON token exceeds bounded code allowance" []

/-- The fields of an `ovmAllocReader` that `filter` and `tokenByte` use. -/
structure AllocLexer where
  length  : Nat
  quoted  : Bool
  escaped : Bool
  space   : Bool
deriving DecidableEq

/-- `ovmAllocReader`; `err` is the error that is kept for the next call. -/
structure AllocReader extends AllocLexer where
  err : Option Err
deriving DecidableEq

namespace AllocLexer

def init : AllocLexer := ⟨0, false, false, false⟩

/-- `tokenByte`. -/
def tokenByte (r : AllocLexer) (b : Byte) : AllocLexer × Option Err :=
  if r.length + 1 > allocTokenBound then ({ r with length := r.length + 1 }, some allocTokenErr)
  else if r.quoted then
    if r.escaped then ({ r with length := r.length + 1, escaped := false }, none)
    else if b = 92 then ({ r with length := r.length + 1, escaped := true }, none)
    else if b = 34 then ({ r with quoted := false, length := 0 }, none)
    else ({ r with length := r.length + 1 }, none)
  else if b = 34 then ({ r with quoted := true, length := 1 }, none)
  else if isJsonPunct b then ({ r with length := 0 }, none)
  else ({ r with length := r.length + 1 }, none)

end AllocLexer

/-- What `filter` leaves: the fields of the reader, the buffer, `written` and the error. -/
structure Filtered where
  lexer   : AllocLexer
  buffer  : Bytes
  written : Nat
  err     : Option Err

/-- The loop of `filter` from the index `i` on, for `n` more bytes of the buffer. -/
def filterFrom (buffer : Bytes) (written i : Nat) : Nat → AllocLexer → Filtered
  | 0, r => ⟨r, buffer, written, none⟩
  | n + 1, r =>
    let b := buffer.getD i 0
    if r.quoted = false ∧ isJsonSpace b = true then
      if r.space then filterFrom buffer written (i + 1) n { r with length := 0 }
      else filterFrom (buffer.set written 32) (written + 1) (i + 1) n
        { r with length := 0, space := true }
    else
      match AllocLexer.tokenByte { r with space := false } b with
      | (r, some err) => ⟨r, buffer, written, some err⟩
      | (r, none) => filterFrom (buffer.set written b) (written + 1) (i + 1) n r

/-- What one round of `Read` meets: a context that is done, or a reply of the reader
below. -/
inductive AllocRound
  | canceled (err : Err)
  | reply (data : Bytes) (err : Option Err)

/-- What a call of `Read` leaves: its results, the buffer of the caller, the reader, and
the rounds that are not used. -/
structure AllocRead where
  n      : Nat
  err    : Option Err
  buffer : Bytes
  reader : AllocReader
  rest   : List AllocRound

namespace AllocReader

def init : AllocReader := ⟨.init, none⟩

/-- The loop of `Read`. A call for which there is no round waits; a reply fits into
the part of the buffer that is offered. -/
def readLoop : List AllocRound → Bytes → AllocReader → Option AllocRead
  | [], p, r =>
    match r.err with
    | some err => some ⟨0, some err, p, r, []⟩
    | none => none
  | .canceled err :: rest, p, r => some ⟨0, some err, p, r, rest⟩
  | .reply data err :: rest, p, r =>
    match r.err with
    | some latched => some ⟨0, some latched, p, r, .reply data err :: rest⟩
    | none =>
      if data.length ≤ min p.length (32 * 1024) then
        let f := filterFrom (data ++ p.drop data.length) 0 0 data.length r.toAllocLexer
        let r : AllocReader := ⟨f.lexer, joinErr f.err err⟩
        if f.written ≠ 0 ∨ r.err.isSome = true then some ⟨f.written, r.err, f.buffer, r, rest⟩
        else readLoop rest f.buffer r
      else none

/-- `Read`. -/
def read (script : List AllocRound) (p : Bytes) (r : AllocReader) : Option AllocRead :=
  if p.length = 0 then some ⟨0, none, p, r, script⟩ else readLoop script p r

/-- One call after the other: the bytes and the error of each, the reader and the rounds
that are left. -/
def reads : List Bytes → List AllocRound → AllocReader →
    Option (List (Bytes × Option Err) × AllocReader × List AllocRound)
  | [], script, r => some ([], r, script)
  | p :: buffers, script, r => do
    let out ← read script p r
    let (results, r, rest) ← reads buffers out.rest out.reader
    return ((out.buffer.take out.n, out.err) :: results, r, rest)

end AllocReader

/-! ## The filter without a buffer -/

/-- What one byte passes. -/
def passByte (r : AllocLexer) (b : Byte) : AllocLexer × Bytes × Option Err :=
  if r.quoted = false ∧ isJsonSpace b = true then
    ({ r with length := 0, space := true }, if r.space then [] else [32], none)
  else
    match AllocLexer.tokenByte { r with space := false } b with
    | (r, some err) => (r, [], some err)
    | (r, none) => (r, [b], none)

/-- What a chunk passes, up to an error. -/
def passBytes : Bytes → AllocLexer → AllocLexer × Bytes × Option Err
  | [], r => (r, [], none)
  | b :: bs, r =>
    match passByte r b with
    | (r, out, some err) => (r, out, some err)
    | (r, out, none) => ((passBytes bs r).1, out ++ (passBytes bs r).2.1, (passBytes bs r).2.2)

variable {r : AllocLexer}

/-- A space behind a space leaves the reader as it is. -/
theorem space_again (hSpace : r.space = true) :
    { r with length := 0 } = ({ r with length := 0, space := true } : AllocLexer) := by
  rw [← hSpace]

/-- What `filter` leaves behind the bytes `front`, when the chunk passes `g`. -/
structure Compacts (f : Filtered) (g : AllocLexer × Bytes × Option Err)
    (front : Bytes) (size : Nat) :
    Prop where
  lexer   : f.lexer = g.1
  err     : f.err = g.2.2
  written : f.written = front.length + g.2.1.length
  length  : f.buffer.length = size
  take    : f.buffer.take f.written = front ++ g.2.1

/-- A byte in front of the rest belongs to what the chunk passes. -/
theorem Compacts.cons {f : Filtered} {g : AllocLexer × Bytes × Option Err} {front : Bytes}
    {c : Byte} {size : Nat} (h : Compacts f g (front ++ [c]) size) :
    Compacts f (g.1, [c] ++ g.2.1, g.2.2) front size := by
  refine ⟨h.lexer, h.err, ?_, h.length, ?_⟩
  · rw [h.written, List.length_append, List.length_append, Nat.add_assoc]
  · rw [h.take, List.append_assoc]

/-- **The compaction in place.** The byte at `written` was read before it is
overwritten, so the loop passes the bytes of the chunk as they were. -/
theorem filterFrom_spec {buffer : Bytes} {written i n : Nat} {r : AllocLexer}
    (hWritten : written ≤ i) (hFits : i + n ≤ buffer.length) :
    Compacts (filterFrom buffer written i n r) (passBytes ((buffer.drop i).take n) r)
      (buffer.take written) buffer.length := by
  have hFront : (buffer.take written).length = written := List.length_take_of_le (by omega)
  induction n generalizing buffer written i r with
  | zero => exact ⟨rfl, rfl, hFront.symm, rfl, (List.append_nil _).symm⟩
  | succ n ih =>
    have hIn : i < buffer.length := by omega
    have hChunk : (buffer.drop i).take (n + 1) =
        buffer.getD i 0 :: (buffer.drop (i + 1)).take n := by
      rw [List.drop_eq_getElem_cons hIn, List.take_succ_cons, List.getD_eq_getElem _ _ hIn]
    -- a byte is written at or below the index that was read
    have hSet : ∀ c r', Compacts (filterFrom (buffer.set written c) (written + 1) (i + 1) n r')
        (passBytes ((buffer.drop (i + 1)).take n) r')
          (buffer.take written ++ [c]) buffer.length := by
      intro c r'
      have hStep := @ih (buffer.set written c) (written + 1) (i + 1) r' (by omega)
        (by rw [List.length_set]; omega) (List.length_take_of_le (by rw [List.length_set]; omega))
      rwa [List.drop_set_of_lt (by omega), List.length_set, List.take_add_one,
        List.take_set_of_le (Nat.le_refl _), List.getElem?_set_self (by omega)] at hStep
    rw [hChunk]
    unfold filterFrom passBytes passByte
    by_cases hSpace : r.quoted = false ∧ isJsonSpace (buffer.getD i 0) = true
    · simp only [if_pos hSpace]
      by_cases hAgain : r.space = true
      · have hStep := @ih buffer written (i + 1) { r with length := 0, space := true } (by omega)
          (by omega) hFront
        simpa only [if_pos hAgain, space_again hAgain, List.nil_append] using hStep
      · simp only [if_neg hAgain]
        exact (hSet 32 _).cons
    · simp only [if_neg hSpace]
      cases hToken : AllocLexer.tokenByte { r with space := false } (buffer.getD i 0) with
      | mk r' err =>
        cases err with
        | some err => exact ⟨rfl, rfl, hFront.symm, rfl, (List.append_nil _).symm⟩
        | none => exact (hSet _ r').cons

/-- An error ends the chunk; without one the next bytes meet the reader that is left. -/
theorem passBytes_append (as bs : Bytes) (r : AllocLexer) :
    passBytes (as ++ bs) r =
      match passBytes as r with
      | (r, out, some err) => (r, out, some err)
      | (r, out, none) =>
        ((passBytes bs r).1, out ++ (passBytes bs r).2.1, (passBytes bs r).2.2) := by
  induction as generalizing r with
  | nil => simp [passBytes]
  | cons a as ih =>
    simp only [List.cons_append, passBytes]
    cases hByte : passByte r a with
    | mk r' rest =>
      obtain ⟨out, err⟩ := rest
      cases err with
      | some err => rfl
      | none =>
        simp only [ih r']
        cases hTail : passBytes as r' with
        | mk r'' tail =>
          obtain ⟨out', err⟩ := tail
          cases err <;> simp

variable {out : Bytes} {used : List AllocRound} {buffers : List Bytes} {rest : List AllocRound}
  {results : List (Bytes × Option Err)}

theorem passBytes_append_ok {as : Bytes} {r' : AllocLexer} (bs : Bytes)
    (h : passBytes as r = (r', out, none)) :
    passBytes (as ++ bs) r =
      ((passBytes bs r').1, out ++ (passBytes bs r').2.1, (passBytes bs r').2.2) := by
  rw [passBytes_append, h]

theorem passBytes_append_error {as : Bytes} {r' : AllocLexer} {err : Err} (bs : Bytes)
    (h : passBytes as r = (r', out, some err)) : passBytes (as ++ bs) r = (r', out, some err) := by
  rw [passBytes_append, h]

/-! ## What the filter is for -/

/-- A token directly behind a bare run of the largest size is refused with it: its first
byte is counted before it starts a token of its own. -/
def fillsBound (p : Piece) : Bool := p.isBare && p.bytes.length = allocTokenBound

def startsToken : List Piece → Bool
  | [] => false
  | p :: _ => !p.isSpace

/-- **The text that the filter passes**, and whether it ends at a token that is too
long: each run of white space is one space, and every token is unchanged. -/
def bounded : List Piece → Bytes × Bool
  | [] => ([], false)
  | p :: ps =>
    if p.isSpace then (32 :: (bounded ps).1, (bounded ps).2)
    else if allocTokenBound < p.bytes.length then (p.bytes.take allocTokenBound, true)
    else if fillsBound p && startsToken ps then (p.bytes, true)
    else (p.bytes ++ (bounded ps).1, (bounded ps).2)

/-! ## The bytes of a token -/

/-- The byte belongs to the token that the reader is in: it is not the quote that ends
it. -/
def AllocLexer.holds (r : AllocLexer) (b : Byte) : Bool :=
  if r.quoted then r.escaped || b ≠ 34 else isJsonBare b

/-- The reader behind a byte of its token. -/
def AllocLexer.next (r : AllocLexer) (b : Byte) : AllocLexer :=
  { r with
    length := r.length + 1, escaped := r.quoted && !r.escaped && b = 92, space := false }

/-- All bytes belong to the token. -/
def InToken : AllocLexer → Bytes → Prop
  | _, [] => True
  | r, b :: bs => r.holds b = true ∧ (r.quoted = false → r.escaped = false) ∧ InToken (r.next b) bs

/-- A byte of a token that fits is passed on. -/
theorem passByte_next {b : Byte} (hHolds : r.holds b = true)
    (hPlain : r.quoted = false → r.escaped = false) (hFits : r.length + 1 ≤ allocTokenBound) :
    passByte r b = (r.next b, [b], none) := by
  obtain ⟨length, quoted, escaped, space⟩ := r
  have hBound : ¬ length + 1 > allocTokenBound := Nat.not_lt.mpr hFits
  cases quoted with
  | true =>
    cases escaped with
    | true => simp [passByte, AllocLexer.tokenByte, AllocLexer.next, hBound]
    | false =>
      have hQuote : b ≠ 34 := by simpa [AllocLexer.holds] using hHolds
      by_cases hBackslash : b = 92
      · simp [passByte, AllocLexer.tokenByte, AllocLexer.next, hBound, hBackslash]
      · simp [passByte, AllocLexer.tokenByte, AllocLexer.next, hBound, hBackslash, hQuote]
  | false =>
    obtain rfl : escaped = false := hPlain rfl
    obtain ⟨hSpace, hPunct, hQuote⟩ := isJsonBare_iff.mp hHolds
    simp [passByte, AllocLexer.tokenByte, AllocLexer.next, hBound, hSpace, hPunct, hQuote]

/-- The byte that makes a token too long is refused, whatever it is. -/
theorem passByte_full {r : AllocLexer} {b : Byte}
    (hToken : r.quoted = false → isJsonSpace b = false) (hFull : r.length = allocTokenBound) :
    (passByte r b).2 = ([], some allocTokenErr) := by
  have hBound : r.length + 1 > allocTokenBound := by omega
  have hSpace : ¬ (r.quoted = false ∧ isJsonSpace b = true) := by
    rintro ⟨hOut, hOn⟩
    rw [hToken hOut] at hOn
    cases hOn
  simp [passByte, AllocLexer.tokenByte, hSpace, hBound]

theorem AllocLexer.not_space_of_holds {b : Byte} (hHolds : r.holds b = true)
    (hOut : r.quoted = false) : isJsonSpace b = false := by
  rw [AllocLexer.holds, hOut] at hHolds
  exact (isJsonBare_iff.mp hHolds).1

/-- **A token passes up to the bound.** -/
theorem passBytes_inToken {bs : Bytes} (hToken : InToken r bs) (hStart : r.length ≤ allocTokenBound) :
    (r.length + bs.length ≤ allocTokenBound → passBytes bs r = (bs.foldl .next r, bs, none)) ∧
      (allocTokenBound < r.length + bs.length →
        (passBytes bs r).2 = (bs.take (allocTokenBound - r.length), some allocTokenErr)) := by
  induction bs generalizing r with
  | nil =>
    refine ⟨fun _ => rfl, fun hLong => ?_⟩
    rw [List.length_nil] at hLong
    omega
  | cons b bs ih =>
    obtain ⟨hHolds, hPlain, hRest⟩ := hToken
    rw [List.length_cons]
    by_cases hFits : r.length + 1 ≤ allocTokenBound
    · obtain ⟨hShort, hLong⟩ := ih hRest hFits
      have hByte := passByte_next hHolds hPlain hFits
      have hNext : (r.next b).length = r.length + 1 := rfl
      constructor
      · intro hAll
        rw [passBytes, hByte]
        simp only [hShort (by omega), List.foldl_cons, List.singleton_append]
      · intro hOver
        rw [passBytes, hByte]
        simp only [hLong (by omega), hNext]
        rw [show allocTokenBound - r.length = (allocTokenBound - (r.length + 1)) + 1 by omega,
          List.take_succ_cons, List.singleton_append]
    · have hFull : r.length = allocTokenBound := by omega
      have hByte := passByte_full (fun hOut => AllocLexer.not_space_of_holds hHolds hOut) hFull
      refine ⟨fun hAll => by omega, fun _ => ?_⟩
      rw [passBytes, hFull, Nat.sub_self, List.take_zero]
      cases hOut : passByte r b with
      | mk r' rest =>
        rw [hOut] at hByte
        obtain rfl : rest = ([], some allocTokenErr) := hByte
        rfl

theorem inToken_append {as bs : Bytes} (hAs : InToken r as) (hBs : InToken (as.foldl .next r) bs) :
    InToken r (as ++ bs) := by
  induction as generalizing r with
  | nil => exact hBs
  | cons a as ih => exact ⟨hAs.1, hAs.2.1, ih hAs.2.2 hBs⟩

theorem inToken_bare {run : Bytes} {r : AllocLexer} (hOut : r.quoted = false)
    (hPlain : r.escaped = false) (hBare : ∀ b ∈ run, isJsonBare b = true) :
    InToken r run ∧ (run.foldl .next r).length = r.length + run.length ∧
      (run.foldl .next r).quoted = false ∧ (run.foldl .next r).escaped = false ∧
      (run ≠ [] → (run.foldl .next r).space = false) := by
  induction run generalizing r with
  | nil => exact ⟨trivial, rfl, hOut, hPlain, fun h => absurd rfl h⟩
  | cons b run ih =>
    obtain ⟨hRun, hLength, hQuoted, hEscaped, hSpace⟩ := @ih (r.next b) hOut
      (by simp [AllocLexer.next, hOut]) fun c hc => hBare c (List.mem_cons_of_mem _ hc)
    refine ⟨⟨?_, fun _ => hPlain, hRun⟩, ?_, hQuoted, hEscaped, fun _ => ?_⟩
    · rw [AllocLexer.holds, hOut]
      exact hBare b List.mem_cons_self
    · rw [List.foldl_cons, hLength, List.length_cons]
      show r.length + 1 + run.length = _
      omega
    · cases run with
      | nil => rfl
      | cons c run => exact hSpace (by simp)

/-- The units of a text stay in the token. -/
theorem inToken_units {units : List TextUnit} {r : AllocLexer} (hIn : r.quoted = true)
    (hPlain : r.escaped = false) (hValid : ∀ u ∈ units, u.Valid) :
    InToken r (units.flatMap TextUnit.bytes) ∧
      ((units.flatMap TextUnit.bytes).foldl .next r).length =
        r.length + (units.flatMap TextUnit.bytes).length ∧
      ((units.flatMap TextUnit.bytes).foldl .next r).quoted = true ∧
      ((units.flatMap TextUnit.bytes).foldl .next r).escaped = false := by
  induction units generalizing r with
  | nil => exact ⟨trivial, rfl, hIn, hPlain⟩
  | cons u units ih =>
    have hOpen : r.quoted = false → r.escaped = false := fun _ => hPlain
    have hTail := fun v hv => hValid v (List.mem_cons_of_mem _ hv)
    cases u with
    | char b =>
      obtain ⟨hQuote, hBackslash⟩ := hValid (.char b) List.mem_cons_self
      obtain ⟨hUnits, hLength, hState⟩ :=
        @ih (r.next b) hIn (by simp [AllocLexer.next, hBackslash]) hTail
      refine ⟨⟨by simp [AllocLexer.holds, hIn, hQuote], hOpen, hUnits⟩, ?_, hState⟩
      simp only [List.flatMap_cons, TextUnit.bytes, List.singleton_append, List.foldl_cons, hLength,
        List.length_cons]
      show r.length + 1 + _ = _
      omega
    | escape b =>
      -- the byte behind a backslash belongs to the literal, also if it is a quote
      obtain ⟨hUnits, hLength, hState⟩ := @ih ((r.next 92).next b) hIn
        (by simp [AllocLexer.next, hIn, hPlain]) hTail
      refine ⟨⟨by simp [AllocLexer.holds, hIn], hOpen, ?_, ?_, hUnits⟩, ?_, hState⟩
      · simp [AllocLexer.holds, AllocLexer.next, hIn, hPlain]
      · intro hOut
        rw [show (r.next 92).quoted = r.quoted from rfl, hIn] at hOut
        cases hOut
      · simp only [List.flatMap_cons, TextUnit.bytes, List.cons_append, List.nil_append,
          List.foldl_cons, hLength, List.length_cons]
        show r.length + 1 + 1 + _ = _
        omega

/-! ## Pieces -/

/-- A run of white space is one space, or none behind a space. -/
theorem passBytes_space {run : Bytes} {r : AllocLexer} (hOut : r.quoted = false) (hRun : run ≠ [])
    (hSpace : ∀ b ∈ run, isJsonSpace b = true) :
    passBytes run r =
      ({ r with length := 0, space := true }, if r.space then [] else [32], none) := by
  induction run generalizing r with
  | nil => exact absurd rfl hRun
  | cons b run ih =>
    have hByte : passByte r b =
        ({ r with length := 0, space := true }, if r.space then [] else [32], none) := by
      rw [passByte, if_pos ⟨hOut, hSpace b List.mem_cons_self⟩]
    rw [passBytes, hByte]
    cases run with
    | nil => simp [passBytes]
    | cons c run =>
      have hTail := @ih { r with length := 0, space := true } hOut (by simp)
        fun d hd => hSpace d (List.mem_cons_of_mem _ hd)
      simp only [hTail]
      simp

theorem one_le_allocTokenBound : 1 ≤ allocTokenBound := by
  rw [allocTokenBound]
  omega

theorem passByte_punct {b : Byte} (hOut : r.quoted = false) (hPunct : isJsonPunct b = true)
    (hFits : r.length + 1 ≤ allocTokenBound) :
    passByte r b = ({ r with length := 0, space := false }, [b], none) := by
  have hBound : ¬ r.length + 1 > allocTokenBound := Nat.not_lt.mpr hFits
  simp [passByte, AllocLexer.tokenByte, hOut, not_isJsonSpace_of_punct hPunct,
    ne_quote_of_punct hPunct, hPunct, hBound]

theorem passByte_open (hOut : r.quoted = false) (hFits : r.length + 1 ≤ allocTokenBound) :
    passByte r 34 = ({ r with length := 1, quoted := true, space := false }, [34], none) := by
  have hBound : ¬ r.length + 1 > allocTokenBound := Nat.not_lt.mpr hFits
  have hSpace : isJsonSpace 34 = false := rfl
  simp [passByte, AllocLexer.tokenByte, hOut, hSpace, hBound]

theorem passByte_close (hIn : r.quoted = true) (hPlain : r.escaped = false)
    (hFits : r.length + 1 ≤ allocTokenBound) :
    passByte r 34 = ({ r with length := 0, quoted := false, space := false }, [34], none) := by
  have hBound : ¬ r.length + 1 > allocTokenBound := Nat.not_lt.mpr hFits
  simp [passByte, AllocLexer.tokenByte, hIn, hPlain, hBound]

theorem passBytes_singleton (b : Byte) (r : AllocLexer) : passBytes [b] r = passByte r b := by
  rw [passBytes]
  cases hByte : passByte r b with
  | mk r' rest =>
    obtain ⟨out, err⟩ := rest
    cases err <;> simp [passBytes]

theorem passBytes_cons_ok {b : Byte} {r' : AllocLexer} (bs : Bytes)
    (h : passByte r b = (r', out, none)) :
    passBytes (b :: bs) r =
      ((passBytes bs r').1, out ++ (passBytes bs r').2.1, (passBytes bs r').2.2) := by
  rw [passBytes, h]

theorem take_bound_cons (b : Byte) (l : Bytes) :
    (b :: l).take allocTokenBound = b :: l.take (allocTokenBound - 1) := by
  obtain ⟨k, hk⟩ := Nat.exists_eq_add_of_le' one_le_allocTokenBound
  rw [hk, List.take_succ_cons, Nat.add_sub_cancel]

/-- The reader behind the quote that opens a literal. -/
def AllocLexer.opened (r : AllocLexer) : AllocLexer :=
  { r with length := 1, quoted := true, space := false }

/-- A literal without the quote that closes it. -/
theorem passBytes_open {body : Bytes} (hOut : r.quoted = false)
    (hFits : r.length + 1 ≤ allocTokenBound) (hBody : InToken r.opened body) :
    (body.length + 1 ≤ allocTokenBound →
      passBytes (34 :: body) r = (body.foldl .next r.opened, 34 :: body, none)) ∧
      (allocTokenBound < body.length + 1 →
        (passBytes (34 :: body) r).2 =
        ((34 :: body).take allocTokenBound, some allocTokenErr)) := by
  have hOpen : passByte r 34 = (r.opened, [34], none) := passByte_open hOut hFits
  obtain ⟨hShort, hLong⟩ := passBytes_inToken hBody (r := r.opened) one_le_allocTokenBound
  have hOne : r.opened.length = 1 := rfl
  rw [hOne] at hShort hLong
  rw [passBytes_cons_ok body hOpen]
  constructor
  · intro hLe
    rw [hShort (by omega)]
    rfl
  · intro hLt
    rw [hLong (by omega), take_bound_cons]
    rfl

/-- **A string literal** passes if it is not too long, and up to the bound otherwise. -/
theorem passBytes_text {units : List TextUnit} {ending : TextEnd} {r : AllocLexer}
    (hOut : r.quoted = false) (hPlain : r.escaped = false) (hFits : r.length + 1 ≤ allocTokenBound)
    (hValid : ∀ u ∈ units, u.Valid) :
    ((Piece.text units ending).bytes.length ≤ allocTokenBound →
      ∃ r', passBytes (Piece.text units ending).bytes r =
        (r', (Piece.text units ending).bytes, none) ∧
        (ending = .quote → r' = .init)) ∧
      (allocTokenBound < (Piece.text units ending).bytes.length →
        (passBytes (Piece.text units ending).bytes r).2 =
          ((Piece.text units ending).bytes.take allocTokenBound, some allocTokenErr)) := by
  obtain ⟨hUnits, hLength, hIn, hEsc⟩ := @inToken_units units r.opened rfl hPlain hValid
  have hOne : r.opened.length = 1 := rfl
  rw [hOne] at hLength
  cases ending with
  | quote =>
    obtain ⟨hShort, hLong⟩ := passBytes_open hOut hFits hUnits
    simp only [Piece.bytes, TextEnd.bytes, List.length_cons, List.length_append, List.length_nil]
    by_cases hBody : (units.flatMap TextUnit.bytes).length + 1 ≤ allocTokenBound
    · have hSplit := passBytes_append_ok [34] (hShort hBody)
      rw [List.cons_append] at hSplit
      constructor
      · intro hLe
        refine ⟨.init, ?_, fun _ => rfl⟩
        rw [hSplit, passBytes_singleton, passByte_close hIn hEsc (by omega)]
        simp [AllocLexer.init, hEsc]
      · -- the closing quote is the byte too many
        intro hLt
        have hFull := passByte_full (b := 34) (fun hOpen => by cases hIn.symm.trans hOpen)
          (show ((units.flatMap TextUnit.bytes).foldl AllocLexer.next r.opened).length =
            allocTokenBound by
            omega)
        rw [hSplit, passBytes_singleton, hFull, List.append_nil, take_bound_cons,
          show allocTokenBound - 1 = (units.flatMap TextUnit.bytes).length by omega, List.take_left]
    · refine ⟨fun hLe => by omega, fun _ => ?_⟩
      have hCut := hLong (by omega)
      cases hPass : passBytes (34 :: units.flatMap TextUnit.bytes) r with
      | mk r' rest =>
        rw [hPass] at hCut
        obtain rfl : rest = _ := hCut
        have hSplit := passBytes_append_error [34] hPass
        rw [List.cons_append] at hSplit
        rw [hSplit, take_bound_cons, take_bound_cons, List.take_append_of_le_length (by omega)]
  | cut =>
    simp only [Piece.bytes, TextEnd.bytes, List.append_nil, List.length_cons]
    obtain ⟨hShort, hLong⟩ := passBytes_open hOut hFits hUnits
    exact ⟨fun hLe => ⟨_, hShort hLe, by rintro ⟨⟩⟩, hLong⟩
  | backslash =>
    have hBody : InToken r.opened (units.flatMap TextUnit.bytes ++ [92]) := by
      refine inToken_append hUnits ⟨by simp [AllocLexer.holds, hIn], fun _ => hEsc, trivial⟩
    simp only [Piece.bytes, TextEnd.bytes, List.length_cons]
    obtain ⟨hShort, hLong⟩ := passBytes_open hOut hFits hBody
    exact ⟨fun hLe => ⟨_, hShort hLe, by rintro ⟨⟩⟩, hLong⟩

/-- The length of a bare run does not matter to what follows it, unless the run is full. -/
theorem passBytes_behind_bare {ps : List Piece} (hPieces : Pieces ps)
    (hKind : ∀ q ∈ ps.head?, q.isBare = false) (hOut : r.quoted = false)
    (hRoom : startsToken ps = true → r.length + 1 ≤ allocTokenBound) :
    (passBytes (piecesText ps) r).2 = (passBytes (piecesText ps) { r with length := 0 }).2 := by
  cases ps with
  | nil => rfl
  | cons q ps =>
    have hValid := hPieces.1
    have hSame : ∀ b rest, q.bytes = b :: rest →
        passByte r b = passByte { r with length := 0 } b := by
      intro b rest hBytes
      cases q with
      | space run =>
        have hSpace : isJsonSpace b = true := hValid.2 b (by
          rw [show run = b :: rest from hBytes]
          exact List.mem_cons_self)
        simp [passByte, hOut, hSpace]
      | text units ending =>
        obtain rfl : 34 = b := (List.cons.inj hBytes).1
        exact (passByte_open hOut (hRoom rfl)).trans
          (passByte_open (r := { r with length := 0 }) hOut one_le_allocTokenBound).symm
      | punct c =>
        obtain rfl : c = b := (List.cons.inj hBytes).1
        exact (passByte_punct hOut hValid (hRoom rfl)).trans
          (passByte_punct (r := { r with length := 0 }) hOut hValid one_le_allocTokenBound).symm
      | bare run => cases hKind _ rfl
    obtain ⟨b, rest, hBytes, -⟩ := q.exists_head hValid
    rw [piecesText_cons, hBytes, List.cons_append, passBytes, passBytes, hSame b rest hBytes]

/-- A chunk behind an error is not read. -/
theorem passBytes_append_snd_error {as : Bytes} {err : Err} (bs : Bytes)
    (h : (passBytes as r).2 = (out, some err)) : (passBytes (as ++ bs) r).2 = (out, some err) := by
  cases hPass : passBytes as r with
  | mk r' rest =>
    rw [hPass] at h
    obtain rfl : rest = (out, some err) := h
    rw [passBytes_append_error bs hPass]

/-- The error of a text that is too long. -/
def boundErr (late : Bool) : Option Err := if late then some allocTokenErr else none

/-- **The filter computes `bounded`.** -/
theorem passBytes_pieces {ps : List Piece} (hPieces : Pieces ps) {r : AllocLexer}
    (hOut : r.quoted = false) (hPlain : r.escaped = false) (hLength : r.length = 0)
    (hSpace : r.space = true → ∀ q ∈ ps.head?, q.isSpace = false) :
    (passBytes (piecesText ps) r).2 = ((bounded ps).1, boundErr (bounded ps).2) := by
  induction ps generalizing r with
  | nil => rfl
  | cons p ps ih =>
    obtain ⟨hValid, hNext, hRest⟩ := hPieces
    have hFits : r.length + 1 ≤ allocTokenBound := by rw [hLength]; exact one_le_allocTokenBound
    rw [piecesText_cons]
    cases p with
    | space run =>
      have hFirst : r.space = false := by
        cases hOn : r.space with
        | false => rfl
        | true => cases hSpace hOn (.space run) rfl
      have hRun := passBytes_space hOut hValid.1 hValid.2
      rw [hFirst] at hRun
      have hTail := @ih hRest { r with length := 0, space := true } hOut hPlain rfl (fun _ => hNext)
      have hSplit := passBytes_append_ok (piecesText ps) hRun
      rw [show (Piece.space run).bytes = run from rfl, hSplit, hTail]
      rfl
    | punct b =>
      have hByte := passByte_punct hOut hValid hFits
      have hTail := @ih hRest { r with length := 0, space := false } hOut hPlain rfl (by rintro ⟨⟩)
      have hNotLong : ¬ allocTokenBound < (Piece.punct b).bytes.length :=
        Nat.not_lt.mpr one_le_allocTokenBound
      rw [show (Piece.punct b).bytes ++ piecesText ps = b :: piecesText ps from rfl,
        passBytes_cons_ok _ hByte, hTail, bounded, if_neg hNotLong]
      rfl
    | text units ending =>
      obtain ⟨hShort, hLong⟩ := @passBytes_text units ending r hOut hPlain hFits hValid
      rw [bounded, if_neg (by simp [Piece.isSpace])]
      by_cases hOver : allocTokenBound < (Piece.text units ending).bytes.length
      · rw [if_pos hOver]
        exact passBytes_append_snd_error _ (hLong hOver)
      · obtain ⟨r', hPass, hEnd⟩ := hShort (Nat.not_lt.mp hOver)
        rw [if_neg hOver, if_neg (by simp [fillsBound, Piece.isBare]), passBytes_append_ok _ hPass]
        cases ps with
        | nil => rfl
        | cons q ps =>
          -- something follows, so the literal is closed
          obtain rfl := hEnd (hNext q rfl)
          have hTail := @ih hRest .init rfl rfl rfl (by rintro ⟨⟩)
          rw [hTail]
    | bare run =>
      obtain ⟨hToken, hRun, hQuoted, hEscaped, hFlag⟩ := @inToken_bare run r hOut hPlain hValid.2
      obtain ⟨hShort, hLong⟩ := passBytes_inToken hToken (by omega)
      rw [hLength, Nat.zero_add] at hShort hLong hRun
      rw [show (Piece.bare run).bytes = run from rfl, bounded, if_neg (by simp [Piece.isSpace]),
        show (Piece.bare run).bytes = run from rfl]
      by_cases hOver : allocTokenBound < run.length
      · rw [if_pos hOver]
        exact passBytes_append_snd_error _ (hLong hOver)
      · rw [if_neg hOver, passBytes_append_ok _ (hShort (Nat.not_lt.mp hOver))]
        by_cases hFull : (fillsBound (.bare run) && startsToken ps) = true
        · -- the next token is refused at its first byte
          rw [if_pos hFull]
          obtain ⟨hFills, hStarts⟩ := Bool.and_eq_true_iff.mp hFull
          simp only [fillsBound, Piece.isBare, Piece.bytes, Bool.true_and] at hFills
          cases ps with
          | nil => cases hStarts
          | cons q ps =>
            obtain ⟨b, rest, hBytes, -⟩ := q.exists_head hRest.1
            have hToken : isJsonSpace b = false :=
              q.not_space_head hRest.1 (by simpa [startsToken] using hStarts) hBytes
            have hRefused := passByte_full (b := b) (fun _ => hToken)
              (hRun.trans (of_decide_eq_true hFills))
            have hFirst : (passBytes [b] (run.foldl .next r)).2 = ([], some allocTokenErr) := by
              rw [passBytes_singleton, hRefused]
            have hAll := passBytes_append_snd_error (rest ++ piecesText ps) hFirst
            rw [piecesText_cons, hBytes]
            rw [List.singleton_append] at hAll
            rw [List.cons_append, hAll, List.append_nil]
            rfl
        · rw [if_neg hFull]
          have hRoom : startsToken ps = true → (run.foldl AllocLexer.next r).length + 1 ≤
              allocTokenBound := by
            intro hStarts
            have hNotFull : run.length ≠ allocTokenBound := by
              intro hBound
              simp [fillsBound, Piece.isBare, Piece.bytes, hBound, hStarts] at hFull
            omega
          have hTail := @ih hRest { run.foldl AllocLexer.next r with length := 0 } hQuoted hEscaped
            rfl (fun hOn => by cases (hFlag hValid.1).symm.trans hOn)
          rw [passBytes_behind_bare hRest hNext hQuoted hRoom, hTail]

/-! ## Reads -/

namespace AllocRound

def data : AllocRound → Bytes
  | .canceled _ => []
  | .reply data _ => data

def err : AllocRound → Option Err
  | .canceled _ => none
  | .reply _ err => err

def isReply : AllocRound → Bool
  | .canceled _ => false
  | .reply _ _ => true

end AllocRound

/-- The bytes that the rounds have brought. -/
def roundsData (rounds : List AllocRound) : Bytes := rounds.flatMap AllocRound.data

/-- The error of the last round. -/
def roundsErr (rounds : List AllocRound) : Option Err := rounds.getLast?.bind AllocRound.err

theorem roundsData_append (as bs : List AllocRound) :
    roundsData (as ++ bs) = roundsData as ++ roundsData bs := List.flatMap_append

/-- **What a reader has done** when it has used up rounds and returned bytes: the filter
over all the data, with the errors in the last round only. -/
structure ReaderInv (used : List AllocRound) (out : Bytes) (r : AllocReader) : Prop where
  out    : (passBytes (roundsData used) .init).2.1 = out
  err    : r.err = joinErr (passBytes (roundsData used) .init).2.2 (roundsErr used)
  lexer  : r.err = none → r.toAllocLexer = (passBytes (roundsData used) .init).1
  quiet  : ∀ x ∈ used.dropLast, x.err = none
  within : (passBytes (roundsData used.dropLast) .init).2.2 = none

namespace ReaderInv

variable {used : List AllocRound} {out : Bytes} {r : AllocReader}

theorem init : ReaderInv [] [] .init := ⟨rfl, rfl, fun _ => rfl, nofun, rfl⟩

/-- A reader without an error goes on with the next reply. -/
theorem reply (h : ReaderInv used out r) (hOpen : r.err = none) (data : Bytes) (err : Option Err) :
    ReaderInv (used ++ [.reply data err]) (out ++ (passBytes data r.toAllocLexer).2.1)
      ⟨(passBytes data r.toAllocLexer).1, joinErr (passBytes data r.toAllocLexer).2.2 err⟩ := by
  have hErr := h.err
  rw [hOpen] at hErr
  obtain ⟨hPassed, hLast⟩ := joinErr_eq_none.mp hErr.symm
  have hUsed : passBytes (roundsData used) .init = (r.toAllocLexer, out, none) := by
    rw [h.lexer hOpen, ← h.out, ← hPassed]
  have hData : roundsData (used ++ [.reply data err]) = roundsData used ++ data := by
    rw [roundsData_append]
    simp [roundsData, AllocRound.data]
  have hPass := passBytes_append_ok data hUsed
  refine ⟨?_, ?_, fun _ => ?_, ?_, ?_⟩
  · rw [hData, hPass]
  · rw [hData, hPass]
    simp [roundsErr, AllocRound.err]
  · rw [hData, hPass]
  · rw [List.dropLast_concat]
    intro x hx
    -- the rounds before were without an error, and so was the last of them
    cases hList : used.reverse with
    | nil =>
      rw [List.reverse_eq_nil_iff] at hList
      rw [hList] at hx
      cases hx
    | cons y ys =>
      obtain rfl : used = ys.reverse ++ [y] := by
        rw [← List.reverse_reverse used, hList, List.reverse_cons]
      rcases List.mem_append.mp hx with hx | hx
      · exact h.quiet x (by rwa [List.dropLast_concat])
      · obtain rfl := List.mem_singleton.mp hx
        simpa [roundsErr] using hLast
  · rw [List.dropLast_concat]
    exact hPassed

end ReaderInv

/-- **One round of `Read`.** The call returns what the reply passes; when there is nothing
to return, it goes on with a buffer of the same size. -/
theorem readLoop_reply {data p : Bytes} {err : Option Err} {r : AllocReader} (hOpen : r.err = none)
    (hFits : data.length ≤ min p.length (32 * 1024)) :
    let g := passBytes data r.toAllocLexer
    let r' : AllocReader := ⟨g.1, joinErr g.2.2 err⟩
    ∃ buffer : Bytes, buffer.take g.2.1.length = g.2.1 ∧ buffer.length = p.length ∧
      AllocReader.readLoop (.reply data err :: rest) p r =
        if g.2.1 ≠ [] ∨ r'.err.isSome = true then some ⟨g.2.1.length, r'.err, buffer, r', rest⟩
        else AllocReader.readLoop rest buffer r' := by
  have hSpec := @filterFrom_spec (data ++ p.drop data.length) 0 0 data.length r.toAllocLexer
    (Nat.le_refl 0) (by rw [List.length_append]; omega)
  rw [List.drop_zero, List.take_left] at hSpec
  obtain ⟨hLexer, hErr, hCount, hLength, hTake⟩ := hSpec
  rw [List.take_zero, List.length_nil, Nat.zero_add] at hCount
  rw [hCount] at hTake
  refine ⟨_, hTake, ?_, ?_⟩
  · rw [hLength, List.length_append, List.length_drop]
    omega
  · rw [AllocReader.readLoop, hOpen]
    simp only [if_pos hFits, hLexer, hErr, hCount, ne_eq, List.length_eq_zero_iff]

variable {script : List AllocRound}

/-- An error that is kept is returned. -/
theorem readLoop_latched {p : Bytes} {r : AllocReader} (hReplies : ∀ y ∈ script, y.isReply = true)
    (hErr : r.err ≠ none) :
    AllocReader.readLoop script p r = some ⟨0, r.err, p, r, script⟩ := by
  cases hKept : r.err with
  | none => exact absurd hKept hErr
  | some err =>
    cases script with
    | nil => rw [AllocReader.readLoop, hKept]
    | cons x script =>
      cases x with
      | canceled => cases hReplies _ List.mem_cons_self
      | reply data e => rw [AllocReader.readLoop, hKept]

/-- **One call of `Read`.** -/
theorem readLoop_spec {p : Bytes} {r : AllocReader} {res : AllocRead}
    (hReplies : ∀ x ∈ script, x.isReply = true) (hRead : AllocReader.readLoop script p r = some res)
    (h : ReaderInv used out r) :
    ∃ more, script = more ++ res.rest ∧
      ReaderInv (used ++ more) (out ++ res.buffer.take res.n) res.reader ∧
      res.err = res.reader.err := by
  induction script generalizing p r used out with
  | nil =>
    by_cases hOpen : r.err = none
    · rw [AllocReader.readLoop, hOpen] at hRead
      cases hRead
    · rw [readLoop_latched hReplies hOpen] at hRead
      cases hRead
      exact ⟨[], rfl, by simpa using h, rfl⟩
  | cons x script ih =>
    by_cases hOpen : r.err = none
    · cases x with
      | canceled err => cases hReplies _ List.mem_cons_self
      | reply data err =>
        have hNext := h.reply hOpen data err
        by_cases hFits : data.length ≤ min p.length (32 * 1024)
        · obtain ⟨buffer, hTake, -, hRound⟩ := @readLoop_reply script data p err r hOpen hFits
          rw [hRound] at hRead
          split_ifs at hRead with hReturn
          · cases hRead
            exact ⟨[.reply data err], rfl, by rwa [hTake], rfl⟩
          · -- nothing was written and there is no error: the next round
            have hEmpty : (passBytes data r.toAllocLexer).2.1 = [] :=
              Decidable.not_not.mp (not_or.mp hReturn).1
            rw [hEmpty, List.append_nil] at hNext
            obtain ⟨more, hSplit, hInv, hResult⟩ :=
              ih (fun y hy => hReplies y (List.mem_cons_of_mem _ hy)) hRead hNext
            refine ⟨.reply data err :: more, by rw [hSplit]; rfl, ?_, hResult⟩
            rwa [List.append_assoc] at hInv
        · rw [AllocReader.readLoop, hOpen] at hRead
          simp only [if_neg hFits] at hRead
          cases hRead
    · rw [readLoop_latched hReplies hOpen] at hRead
      cases hRead
      exact ⟨[], rfl, by simpa using h, rfl⟩

/-- **Call after call.** -/
theorem reads_spec {r r' : AllocReader} (hBuffers : ∀ p ∈ buffers, p ≠ [])
    (hReplies : ∀ x ∈ script, x.isReply = true)
    (hReads : AllocReader.reads buffers script r = some (results, r', rest))
    (h : ReaderInv used out r) :
    ∃ more, script = more ++ rest ∧ ReaderInv (used ++ more) (out ++ results.flatMap Prod.fst) r' ∧
      ∀ last ∈ results.getLast?, last.2 = r'.err := by
  induction buffers generalizing script r results used out with
  | nil =>
    cases hReads
    exact ⟨[], rfl, by simpa using h, nofun⟩
  | cons p buffers ih =>
    have hNonempty : ¬ p.length = 0 := fun hZero =>
      hBuffers p List.mem_cons_self (List.length_eq_zero_iff.mp hZero)
    simp only [AllocReader.reads, Option.bind_eq_bind, Option.bind_eq_some_iff, AllocReader.read,
      if_neg hNonempty] at hReads
    obtain ⟨res, hRead, ⟨results', r'', rest'⟩, hTail, hEq⟩ := hReads
    cases hEq
    obtain ⟨more, rfl, hInv, hErr⟩ := readLoop_spec hReplies hRead h
    obtain ⟨more', hSplit, hInv', hLast⟩ := ih (fun q hq => hBuffers q (List.mem_cons_of_mem _ hq))
      (fun x hx => hReplies x (List.mem_append_right _ hx)) hTail hInv
    refine ⟨more ++ more', by rw [hSplit, List.append_assoc], ?_, ?_⟩
    · simpa [List.append_assoc] using hInv'
    · intro last hMem
      cases results' with
      | nil =>
        obtain rfl : (res.buffer.take res.n, res.err) = last := by simpa using hMem
        -- there was no further call
        cases buffers with
        | nil => cases hTail; exact hErr
        | cons q buffers =>
          simp only [AllocReader.reads, Option.bind_eq_bind, Option.bind_eq_some_iff] at hTail
          obtain ⟨_, -, _, -, hEq⟩ := hTail
          cases hEq
      | cons y ys => exact hLast last (by simpa using hMem)

/-- **A call returns** while an error of the reader below is ahead, and comes nearer to
it. -/
theorem readLoop_total {ahead after : List AllocRound} {x : AllocRound} {p : Bytes}
    {r : AllocReader} (hReplies : ∀ y ∈ ahead ++ x :: after, y.isReply = true)
    (hFits : ∀ y ∈ ahead ++ x :: after, y.data.length ≤ min p.length (32 * 1024))
    (hErr : x.err ≠ none) :
    ∃ res, AllocReader.readLoop (ahead ++ x :: after) p r = some res ∧
      res.rest <:+ ahead ++ x :: after ∧
      (res.reader.err ≠ none ∨ ∃ ahead', res.rest = ahead' ++ x :: after ∧
        ahead'.length < ahead.length) := by
  by_cases hOpen : r.err = none
  · induction ahead generalizing p r with
    | nil =>
      have hReply := hReplies x List.mem_cons_self
      have hFit := hFits x List.mem_cons_self
      cases x with
      | canceled => cases hReply
      | reply data err =>
        obtain ⟨buffer, -, -, hRound⟩ := @readLoop_reply after data p err r hOpen hFit
        have hKept : joinErr (passBytes data r.toAllocLexer).2.2 err ≠ none :=
          fun hNone => hErr (joinErr_eq_none.mp hNone).2
        refine ⟨_, hRound.trans (if_pos (.inr (Option.isSome_iff_ne_none.mpr hKept))),
          List.suffix_cons _ _, .inl hKept⟩
    | cons y ahead ih =>
      have hReply := hReplies y List.mem_cons_self
      have hFit := hFits y List.mem_cons_self
      cases y with
      | canceled => cases hReply
      | reply data err =>
        obtain ⟨buffer, -, hLength, hRound⟩ :=
          @readLoop_reply (ahead ++ x :: after) data p err r hOpen hFit
        rw [List.cons_append, hRound]
        split_ifs with hReturn
        · exact ⟨_, rfl, List.suffix_cons _ _, .inr ⟨ahead, rfl, Nat.lt_succ_self _⟩⟩
        · -- only white space came: the call goes on with the next reply
          obtain ⟨res, hRead, hSuffix, hNearer⟩ := @ih buffer _
            (fun z hz => hReplies z (List.mem_cons_of_mem _ hz))
            (fun z hz => by rw [hLength]; exact hFits z (List.mem_cons_of_mem _ hz))
            (Option.not_isSome_iff_eq_none.mp (not_or.mp hReturn).2)
          refine ⟨res, hRead, hSuffix.trans (List.suffix_cons _ _), hNearer.imp_right ?_⟩
          rintro ⟨ahead', hRest, hShorter⟩
          exact ⟨ahead', hRest, Nat.lt_succ_of_lt hShorter⟩
  · exact ⟨_, readLoop_latched hReplies hOpen, List.suffix_rfl, .inl hOpen⟩

theorem reads_cons {p : Bytes} {script : List AllocRound} {r : AllocReader} {res : AllocRead}
    (hNonempty : p ≠ []) (hRead : AllocReader.readLoop script p r = some res) {r' : AllocReader}
    (hTail : AllocReader.reads buffers res.rest res.reader = some (results, r', rest)) :
    AllocReader.reads (p :: buffers) script r =
      some ((res.buffer.take res.n, res.err) :: results, r', rest) := by
  have hLength : ¬ p.length = 0 := fun hZero => hNonempty (List.length_eq_zero_iff.mp hZero)
  rw [AllocReader.reads, AllocReader.read, if_neg hLength, hRead]
  show (AllocReader.reads buffers res.rest res.reader >>= _) = _
  rw [hTail]
  rfl

/-- An error that is kept is returned by every call. -/
theorem reads_latched {script : List AllocRound} {r : AllocReader}
    (hBuffers : ∀ p ∈ buffers, p ≠ []) (hReplies : ∀ y ∈ script, y.isReply = true)
    (hErr : r.err ≠ none) :
    ∃ results, AllocReader.reads buffers script r = some (results, r, script) := by
  induction buffers with
  | nil => exact ⟨[], rfl⟩
  | cons p buffers ih =>
    obtain ⟨results, hTail⟩ := ih fun q hq => hBuffers q (List.mem_cons_of_mem _ hq)
    exact ⟨_, reads_cons (hBuffers p List.mem_cons_self) (readLoop_latched hReplies hErr) hTail⟩

/-- **The error arrives**: as many calls as there are replies up to it are enough, and it
stays. -/
theorem reads_total {ahead after : List AllocRound} {x : AllocRound} {r : AllocReader}
    (hBuffers : ∀ p ∈ buffers, p ≠ []) (hReplies : ∀ y ∈ ahead ++ x :: after, y.isReply = true)
    (hFits : ∀ p ∈ buffers, ∀ y ∈ ahead ++ x :: after, y.data.length ≤ min p.length (32 * 1024))
    (hErr : x.err ≠ none) :
    ∃ results r' rest, AllocReader.reads buffers (ahead ++ x :: after) r =
      some (results, r', rest) ∧
      (ahead.length < buffers.length → r'.err ≠ none) := by
  induction buffers generalizing ahead r with
  | nil => exact ⟨[], r, _, rfl, fun h => absurd h (Nat.not_lt_zero _)⟩
  | cons p buffers ih =>
    have hTailBuffers := fun q hq => hBuffers q (List.mem_cons_of_mem _ hq)
    obtain ⟨res, hRead, hSuffix, hLatched | ⟨ahead', hRest, hShorter⟩⟩ :=
      @readLoop_total ahead after x p r hReplies (hFits p List.mem_cons_self) hErr
    · obtain ⟨results, hTail⟩ := @reads_latched buffers res.rest res.reader hTailBuffers
        (fun y hy => hReplies y (hSuffix.mem hy)) hLatched
      exact ⟨_, _, _, reads_cons (hBuffers p List.mem_cons_self) hRead hTail, fun _ => hLatched⟩
    · have hMem : ∀ y ∈ ahead' ++ x :: after, y ∈ ahead ++ x :: after := by
        rw [← hRest]
        exact fun y hy => hSuffix.mem hy
      obtain ⟨results, r', rest, hTail, hEnd⟩ := @ih ahead' res.reader hTailBuffers
        (fun y hy => hReplies y (hMem y hy))
        (fun q hq y hy => hFits q (List.mem_cons_of_mem _ hq) y (hMem y hy))
      rw [← hRest] at hTail
      refine ⟨_, r', rest, reads_cons (hBuffers p List.mem_cons_self) hRead hTail, ?_⟩
      rw [List.length_cons]
      exact fun hCount => hEnd (by omega)

theorem reads_length {r r' : AllocReader}
    (hReads : AllocReader.reads buffers script r = some (results, r', rest)) :
    results.length = buffers.length := by
  induction buffers generalizing script r results with
  | nil => cases hReads; rfl
  | cons p buffers ih =>
    simp only [AllocReader.reads, Option.bind_eq_bind, Option.bind_eq_some_iff] at hReads
    obtain ⟨res, -, ⟨results', r'', rest'⟩, hTail, hEq⟩ := hReads
    cases hEq
    rw [List.length_cons, List.length_cons, ih hTail]

/-- The rounds that a reader with an error has used end with the first error, if the data
up to there is not too long. -/
theorem ReaderInv.used_eq {ahead after : List AllocRound} {x : AllocRound} {r : AllocReader}
    (h : ReaderInv used out r) (hSplit : ahead ++ x :: after = used ++ rest)
    (hQuiet : ∀ y ∈ ahead, y.err = none) (hErr : x.err ≠ none)
    (hWithin : (passBytes (roundsData (ahead ++ [x])) .init).2.2 = none) (hLatched : r.err ≠ none) :
    used = ahead ++ [x] := by
  have hFirst : ahead ++ [x] <+: ahead ++ x :: after := ⟨after, by simp⟩
  have hUsed : used <+: ahead ++ x :: after := ⟨rest, hSplit.symm⟩
  rcases List.prefix_or_prefix_of_prefix hUsed hFirst with hShort | hLong
  · refine (List.prefix_concat_iff.mp hShort).resolve_right ?_
    -- before the first error nothing can have failed
    rintro ⟨tail, hTail⟩
    refine hLatched (h.err.trans (joinErr_eq_none.mpr ⟨?_, ?_⟩))
    · cases hPass : passBytes (roundsData used) .init with
      | mk r' result =>
        obtain ⟨out', err⟩ := result
        cases err with
        | none => rfl
        | some err =>
          have hStops := passBytes_append_error (roundsData (tail ++ [x])) hPass
          rw [← roundsData_append, ← List.append_assoc, hTail] at hStops
          rw [hStops] at hWithin
          cases hWithin
    · rw [roundsErr, Option.bind_eq_none_iff]
      intro y hy
      exact hQuiet y (hTail ▸ List.mem_append_left _ (List.mem_of_getLast? hy))
  · obtain ⟨tail, rfl⟩ := hLong
    cases tail with
    | nil => rw [List.append_nil]
    | cons y tail =>
      -- an error in the middle would have ended the reads
      have hMiddle := h.quiet x (by
        rw [List.dropLast_append_of_ne_nil (by simp)]
        simp)
      exact absurd hMiddle hErr

/-! ## The text and its bound -/

/-- A literal of units of at most six bytes, as many as the hex string of the largest code
has characters, is not too long. -/
theorem length_code_le {units : List Bytes} (hSix : ∀ u ∈ units, u.length ≤ 6)
    (hCount : units.length ≤ 2 * ovmAllocMaxCode + 2) : units.flatten.length + 2 ≤
    allocTokenBound := by
  have hSum : units.flatten.length ≤ 6 * units.length := by
    clear hCount
    induction units with
    | nil => simp
    | cons u units ih =>
      have hHead := hSix u List.mem_cons_self
      have hTail := ih fun v hv => hSix v (List.mem_cons_of_mem _ hv)
      rw [List.flatten_cons, List.length_append, List.length_cons]
      omega
  rw [allocTokenBound]
  omega

theorem passBytes_init_pieces {ps : List Piece} (hPieces : Pieces ps) :
    (passBytes (piecesText ps) .init).2 = ((bounded ps).1, boundErr (bounded ps).2) :=
  passBytes_pieces hPieces rfl rfl rfl nofun

theorem boundErr_eq_none {late : Bool} : boundErr late = none ↔ late = false := by
  cases late <;> simp [boundErr]

/-- **The filter preserves the text up to the bound.** However the reader below splits its
input and whatever buffers the caller has, the bytes that were returned are `bounded` of
the input that was read, and the last call has returned the bound error exactly if
`bounded` ends early, joined with the error of the last reply; no earlier reply had
either. An error of the reader below arrives with the call that returns the last data in
front of it. A string literal with a code of the largest size never ends the text, even
if every character takes six bytes. -/
theorem allocReader_bounded :
    (∀ buffers script results r rest, (∀ p ∈ buffers, p ≠ []) → (∀ x ∈ script, x.isReply = true) →
      AllocReader.reads buffers script .init = some (results, r, rest) →
      ∃ used, script = used ++ rest ∧ (∃ ps, Pieces ps ∧ piecesText ps = roundsData used) ∧
        (∀ ps, Pieces ps → piecesText ps = roundsData used →
          results.flatMap Prod.fst = (bounded ps).1 ∧
          ∀ last ∈ results.getLast?, last.2 = joinErr (boundErr (bounded ps).2) (roundsErr used)) ∧
        (∀ x ∈ used.dropLast, x.err = none) ∧
        ∀ ps, Pieces ps → piecesText ps = roundsData used.dropLast → (bounded ps).2 = false) ∧
    (∀ buffers ahead data err after, (∀ p ∈ buffers, p ≠ []) → (∀ x ∈ ahead, x.err = none) →
      (∀ x ∈ ahead ++ .reply data (some err) :: after, x.isReply = true) →
      (∀ p ∈ buffers, ∀ x ∈ ahead ++ .reply data (some err) :: after,
        x.data.length ≤ min p.length (32 * 1024)) →
      ahead.length < buffers.length →
      ∃ results r rest last,
        AllocReader.reads buffers (ahead ++ .reply data (some err) :: after) .init =
          some (results ++ [last], r, rest) ∧
        last.2 ≠ none ∧
        ∀ ps, Pieces ps → piecesText ps = roundsData ahead ++ data → (bounded ps).2 = false →
          (results ++ [last]).flatMap Prod.fst = (bounded ps).1 ∧ last.2 = some err) ∧
    ∀ units : List Bytes, (∀ u ∈ units, u.length ≤ 6) → units.length ≤ 2 * ovmAllocMaxCode + 2 →
      ∀ text ps, text.flatMap TextUnit.bytes = units.flatten →
        bounded (.text text .quote :: ps) =
          ((Piece.text text .quote).bytes ++ (bounded ps).1, (bounded ps).2) := by
  refine ⟨?_, ?_, ?_⟩
  · intro buffers script results r rest hBuffers hReplies hReads
    obtain ⟨used, rfl, hInv, hLast⟩ := reads_spec hBuffers hReplies hReads ReaderInv.init
    rw [List.nil_append, List.nil_append] at hInv
    refine ⟨used, rfl, exists_pieces _, ?_, hInv.quiet, ?_⟩
    · intro ps hPieces hText
      have hPass := passBytes_init_pieces hPieces
      rw [hText] at hPass
      refine ⟨?_, ?_⟩
      · rw [← hInv.out, hPass]
      · intro last hMem
        rw [hLast last hMem, hInv.err, hPass]
    · intro ps hPieces hText
      have hWithin := hInv.within
      rw [← hText, passBytes_init_pieces hPieces] at hWithin
      exact boundErr_eq_none.mp hWithin
  · intro buffers ahead data err after hBuffers hQuiet hReplies hFits hCalls
    obtain ⟨results, r, rest, hReads, hEnd⟩ :=
      @reads_total buffers ahead after (.reply data (some err)) .init hBuffers hReplies hFits nofun
    obtain ⟨used, hSplit, hInv, hLast⟩ := reads_spec hBuffers hReplies hReads ReaderInv.init
    rw [List.nil_append, List.nil_append] at hInv
    have hLatched := hEnd hCalls
    -- there was a call, so there is a last result
    have hLength := reads_length hReads
    obtain ⟨front, last, rfl⟩ : ∃ front last, results = front ++ [last] := by
      rcases List.eq_nil_or_concat results with rfl | ⟨front, last, hEq⟩
      · rw [List.length_nil] at hLength
        omega
      · exact ⟨front, last, by simpa using hEq⟩
    have hErr := hLast last (by simp)
    refine ⟨front, r, rest, last, hReads, hErr ▸ hLatched, ?_⟩
    intro ps hPieces hText hWithin
    have hPass := passBytes_init_pieces hPieces
    have hAll : roundsData (ahead ++ [.reply data (some err)]) = piecesText ps := by
      rw [hText, roundsData_append]
      simp [roundsData, AllocRound.data]
    have hNone : (passBytes (roundsData (ahead ++ [.reply data (some err)])) .init).2.2 = none := by
      rw [hAll, hPass]
      exact boundErr_eq_none.mpr hWithin
    obtain rfl := hInv.used_eq hSplit hQuiet nofun hNone hLatched
    refine ⟨?_, ?_⟩
    · rw [← hInv.out, hAll, hPass]
    · rw [hErr, hInv.err, hNone]
      simp [roundsErr, AllocRound.err, joinErr]
  · intro units hSix hCount text ps hText
    have hLength : ¬ allocTokenBound < (Piece.text text .quote).bytes.length := by
      have := length_code_le hSix hCount
      simp only [Piece.bytes, TextEnd.bytes, hText, List.length_cons, List.length_append,
        List.length_nil]
      omega
    rw [bounded, if_neg (by simp [Piece.isSpace]), if_neg hLength,
      if_neg (by simp [fillsBound, Piece.isBare])]

/-- Replies that split the white space, an empty one, and data with an error. -/
def sampleRounds : List AllocRound := [
  .reply (asciiBytes "[ \t") none, .reply [] none, .reply (asciiBytes " \"a ") none,
  .reply (asciiBytes " b\" ") (some (.outside "EOF"))]

/-- Three calls with buffers of four bytes. -/
theorem allocReader_sample : ∃ results r ps,
    AllocReader.reads (List.replicate 3 [0, 0, 0, 0]) sampleRounds .init = some (results, r, []) ∧
    results.flatMap Prod.fst = asciiBytes "[ \"a  b\" " ∧
    Pieces ps ∧ piecesText ps = asciiBytes "[ \t \"a  b\" " ∧
      (bounded ps).1 = asciiBytes "[ \"a  b\" " := by
  have hRun : (AllocReader.reads (List.replicate 3 [0, 0, 0, 0]) sampleRounds .init).any (fun out =>
      out.1.flatMap Prod.fst = asciiBytes "[ \"a  b\" " ∧
        out.2.2.isEmpty) = true := by decide +kernel
  obtain ⟨⟨results, r, rest⟩, hReads, hOut⟩ := (Option.any_eq_true _ _).mp hRun
  obtain ⟨hBytes, hRest⟩ := of_decide_eq_true hOut
  obtain rfl := List.isEmpty_iff.mp hRest
  obtain ⟨used, hUsed, ⟨ps, hPieces, hText⟩, hResult, -⟩ :=
    allocReader_bounded.1 _ _ _ _ _ (by decide) (by decide) hReads
  rw [List.append_nil] at hUsed
  subst hUsed
  exact ⟨results, r, ps, hReads, hBytes, hPieces, hText.trans (by decide +kernel),
    (hResult ps hPieces hText).1.symm.trans hBytes⟩

/-! ## A number of the largest size -/

/-- A reply that passes something, or fails, ends the call. -/
theorem readLoop_passes {data p : Bytes} {r r' : AllocLexer} {err err' : Option Err}
    (hFits : data.length ≤ min p.length (32 * 1024)) (hPass : passBytes data r = (r', out, err'))
    (hReturns : out ≠ [] ∨ (joinErr err' err).isSome = true) :
    ∃ res, AllocReader.readLoop (.reply data err :: rest) p ⟨r, none⟩ = some res ∧
      res.buffer.take res.n = out ∧ res.err = joinErr err' err ∧
      res.reader = ⟨r', joinErr err' err⟩ ∧
      res.rest = rest := by
  obtain ⟨buffer, hTake, -, hRound⟩ := @readLoop_reply rest data p err ⟨r, none⟩ rfl hFits
  simp only [hPass] at hTake hRound
  exact ⟨_, hRound.trans (if_pos hReturns), hTake, rfl, rfl, rfl⟩

/-- Digits, one at a time, and a byte behind the last that fits. -/
theorem reads_digits {n : Nat} {r : AllocLexer} (hOut : r.quoted = false)
    (hPlain : r.escaped = false) (hFull : r.length + n = allocTokenBound) :
    ∃ r', AllocReader.reads (List.replicate (n + 1) [0])
      (List.replicate n (.reply [49] none) ++ [.reply [44] none]) ⟨r, none⟩ =
        some (List.replicate n ([49], none) ++ [([], some allocTokenErr)], r', []) := by
  induction n generalizing r with
  | zero =>
    have hRefused := @passByte_full r 44 (fun _ => rfl) hFull
    obtain ⟨r', hPass⟩ : ∃ r', passBytes [44] r = (r', [], some allocTokenErr) := by
      rw [passBytes_singleton]
      exact ⟨(passByte r 44).1, Prod.ext rfl hRefused⟩
    obtain ⟨res, hRead, hTake, hErr, hReader, hRest⟩ :=
      @readLoop_passes [] [] [44] [0] r r' none (some allocTokenErr) (by decide) hPass (.inr rfl)
    refine ⟨res.reader, ?_⟩
    have hCall := @reads_cons [] [] [] [0] _ _ res (by simp) hRead res.reader (by rw [hRest]; rfl)
    rw [hTake, hErr] at hCall
    exact hCall
  | succ n ih =>
    have hDigit : r.holds 49 = true := by rw [AllocLexer.holds, hOut]; rfl
    have hPass : passBytes [49] r = (r.next 49, [49], none) := by
      rw [passBytes_singleton]
      exact passByte_next hDigit (fun _ => hPlain) (by omega)
    obtain ⟨r', hTail⟩ := @ih (r.next 49) hOut (by simp [AllocLexer.next, hOut])
      (show r.length + 1 + n = _ by omega)
    obtain ⟨res, hRead, hTake, hErr, hReader, hRest⟩ :=
      @readLoop_passes [49] (List.replicate n (.reply [49] none) ++ [.reply [44] none]) [49] [0] r
        (r.next 49) none none (by decide) hPass (.inl (by simp))
    refine ⟨r', ?_⟩
    have hCall := @reads_cons (List.replicate (n + 1) [0]) [] _ [0] _ _ res (by simp) hRead r'
      (by rw [hRest, hReader]; exact hTail)
    rw [hTake, hErr] at hCall
    exact hCall

/-- **A number of exactly the bound and the comma behind it**: no token is longer than
the bound, and the comma is refused. -/
theorem allocReader_refuses_full_number :
    Pieces [.bare (List.replicate allocTokenBound 49), .punct 44] ∧
      (∀ p ∈ [Piece.bare (List.replicate allocTokenBound 49), .punct 44], p.bytes.length ≤
        allocTokenBound) ∧
      ∃ script r', (∀ x ∈ script, x.isReply = true) ∧
        roundsData script = piecesText [.bare (List.replicate allocTokenBound 49), .punct 44] ∧
        AllocReader.reads (List.replicate (allocTokenBound + 1) [0]) script .init =
          some (List.replicate allocTokenBound ([49], none) ++
            [([], some allocTokenErr)], r', []) := by
  refine ⟨⟨⟨?_, ?_⟩, ?_, rfl, nofun, trivial⟩, ?_, ?_⟩
  · intro hEmpty
    have := congrArg List.length hEmpty
    rw [List.length_replicate, List.length_nil] at this
    have := one_le_allocTokenBound
    omega
  · intro b hb
    rw [List.eq_of_mem_replicate hb]
    rfl
  · intro q hq
    obtain rfl : Piece.punct 44 = q := by simpa using hq
    rfl
  · intro p hp
    rcases List.mem_cons.mp hp with rfl | hp
    · exact (List.length_replicate).le
    · obtain rfl := List.mem_singleton.mp hp
      exact one_le_allocTokenBound
  · obtain ⟨r', hReads⟩ := @reads_digits allocTokenBound .init rfl rfl (Nat.zero_add _)
    refine ⟨_, r', ?_, ?_, hReads⟩
    · intro x hx
      rcases List.mem_append.mp hx with hx | hx
      · rw [List.eq_of_mem_replicate hx]
        rfl
      · obtain rfl := List.mem_singleton.mp hx
        rfl
    · have hDigits : ∀ n, (List.replicate n (AllocRound.reply [49] none)).flatMap AllocRound.data =
          List.replicate n 49 := by
        intro n
        rw [List.flatMap_replicate]
        exact List.flatten_replicate_singleton
      rw [roundsData_append, roundsData, hDigits]
      rfl

end L2State
