import L2State.Lib.Bytes

/-!
# L2State — the lexical pieces of a JSON text

Every byte string is a sequence of pieces: runs of white space, string literals,
punctuation, and bare runs (numbers, literals, and whatever is not JSON). The last
string literal may be cut off. Runs are maximal and nothing is said about what the
tokens mean.

* `Piece`, `Pieces` — the pieces and how they follow each other.
* `exists_pieces` — **every byte string has pieces**.
-/

namespace L2State.Lib

/-! ## Bytes -/

/-- The white space of JSON. -/
def isJsonSpace (b : Byte) : Bool := b = 32 ∨ b = 9 ∨ b = 13 ∨ b = 10

/-- The punctuation of JSON: braces, brackets, comma and colon. -/
def isJsonPunct (b : Byte) : Bool := b ∈ [123, 125, 91, 93, 44, 58]

/-- A byte of a number or a literal. -/
def isJsonBare (b : Byte) : Bool := !isJsonSpace b && !isJsonPunct b && b ≠ 34

theorem not_isJsonSpace_of_punct {b : Byte} (h : isJsonPunct b = true) : isJsonSpace b = false := by
  simp only [isJsonPunct, List.mem_cons, List.not_mem_nil, or_false, decide_eq_true_eq] at h
  rcases h with rfl | rfl | rfl | rfl | rfl | rfl <;> rfl

theorem ne_quote_of_punct {b : Byte} (h : isJsonPunct b = true) : b ≠ 34 := by
  rintro rfl
  exact absurd h (by decide)

theorem isJsonBare_iff {b : Byte} :
    isJsonBare b = true ↔ isJsonSpace b = false ∧ isJsonPunct b = false ∧ b ≠ 34 := by
  simp [isJsonBare, and_assoc]

/-! ## Pieces -/

/-- A byte inside a string literal, with the backslash in front of it. -/
inductive TextUnit
  | char (b : Byte)
  | escape (b : Byte)

namespace TextUnit

def bytes : TextUnit → Bytes
  | .char b => [b]
  | .escape b => [92, b]

def Valid : TextUnit → Prop
  | .char b => b ≠ 34 ∧ b ≠ 92
  | .escape _ => True

end TextUnit

/-- The end of a string literal: its quote, or the end of the input, which may come
behind a backslash. -/
inductive TextEnd
  | quote
  | cut
  | backslash
deriving DecidableEq

def TextEnd.bytes : TextEnd → Bytes
  | .quote => [34]
  | .cut => []
  | .backslash => [92]

inductive Piece
  | space (run : Bytes)
  | text (units : List TextUnit) (ending : TextEnd)
  | punct (b : Byte)
  | bare (run : Bytes)

namespace Piece

def bytes : Piece → Bytes
  | .space run => run
  | .text units ending => 34 :: (units.flatMap TextUnit.bytes ++ ending.bytes)
  | .punct b => [b]
  | .bare run => run

def Valid : Piece → Prop
  | .space run => run ≠ [] ∧ ∀ b ∈ run, isJsonSpace b = true
  | .text units _ => ∀ u ∈ units, u.Valid
  | .punct b => isJsonPunct b = true
  | .bare run => run ≠ [] ∧ ∀ b ∈ run, isJsonBare b = true

def isSpace : Piece → Bool
  | .space _ => true
  | _ => false

def isBare : Piece → Bool
  | .bare _ => true
  | _ => false

/-- The piece `q` can stand right behind `p`: runs are maximal, and nothing stands
behind a string literal that is cut off. -/
def Before (p q : Piece) : Prop :=
  match p with
  | .space _ => q.isSpace = false
  | .text _ ending => ending = .quote
  | .punct _ => True
  | .bare _ => q.isBare = false

end Piece

/-- The pieces of a text. -/
def Pieces : List Piece → Prop
  | [] => True
  | p :: ps => p.Valid ∧ (∀ q ∈ ps.head?, p.Before q) ∧ Pieces ps

/-- The text of the pieces. -/
def piecesText (ps : List Piece) : Bytes := ps.flatMap Piece.bytes

@[simp] theorem piecesText_nil : piecesText [] = [] := rfl

@[simp] theorem piecesText_cons (p : Piece) (ps : List Piece) :
    piecesText (p :: ps) = p.bytes ++ piecesText ps := rfl

/-- The first byte of a piece shows its kind. -/
theorem Piece.exists_head {p : Piece} (hValid : p.Valid) :
    ∃ b rest, p.bytes = b :: rest ∧ (p.isSpace = true → isJsonSpace b = true) ∧
      (p.isBare = true → isJsonBare b = true) := by
  cases p with
  | space run =>
    obtain ⟨hRun, hAll⟩ := hValid
    cases run with
    | nil => exact absurd rfl hRun
    | cons b rest => exact ⟨b, rest, rfl, fun _ => hAll b List.mem_cons_self, nofun⟩
  | text units ending => exact ⟨34, _, rfl, nofun, nofun⟩
  | punct b => exact ⟨b, [], rfl, nofun, nofun⟩
  | bare run =>
    obtain ⟨hRun, hAll⟩ := hValid
    cases run with
    | nil => exact absurd rfl hRun
    | cons b rest => exact ⟨b, rest, rfl, nofun, fun _ => hAll b List.mem_cons_self⟩

/-- A token does not start with white space. -/
theorem Piece.not_space_head {p : Piece} (hValid : p.Valid) (hToken : p.isSpace = false) {b : Byte}
    {rest : Bytes} (hBytes : p.bytes = b :: rest) : isJsonSpace b = false := by
  cases p with
  | space run => cases hToken
  | text units ending =>
    obtain rfl : 34 = b := (List.cons.inj hBytes).1
    rfl
  | punct c =>
    obtain rfl : c = b := (List.cons.inj hBytes).1
    exact not_isJsonSpace_of_punct hValid
  | bare run =>
    obtain rfl : run = b :: rest := hBytes
    exact (isJsonBare_iff.mp (hValid.2 b List.mem_cons_self)).1

/-! ## Every byte string has pieces -/

/-- The rest of a string literal and what stands behind it. -/
def textSpan : Bytes → List TextUnit × TextEnd × Bytes
  | [] => ([], .cut, [])
  | b :: rest =>
    if b = 34 then ([], .quote, rest)
    else if b = 92 then
      match rest with
      | [] => ([], .backslash, [])
      | e :: rest => (.escape e :: (textSpan rest).1, (textSpan rest).2)
    else (.char b :: (textSpan rest).1, (textSpan rest).2)

/-- The units, the end and the rest are the text. -/
theorem textSpan_spec (text : Bytes) :
    (textSpan text).1.flatMap TextUnit.bytes ++ (textSpan text).2.1.bytes ++
    (textSpan text).2.2 = text ∧
      (∀ u ∈ (textSpan text).1, u.Valid) ∧
      ((textSpan text).2.1 ≠ .quote → (textSpan text).2.2 = []) := by
  fun_induction textSpan text with
  | case1 => exact ⟨rfl, nofun, fun _ => rfl⟩
  | case2 rest => exact ⟨rfl, nofun, fun h => absurd rfl h⟩
  | case3 => exact ⟨rfl, nofun, fun _ => rfl⟩
  | case4 e rest _ ih =>
    obtain ⟨hText, hValid, hEnd⟩ := ih
    refine ⟨?_, ?_, hEnd⟩
    · simpa [TextUnit.bytes] using hText
    · intro u hu
      rcases List.mem_cons.mp hu with rfl | hu
      · exact trivial
      · exact hValid u hu
  | case5 b rest hQuote hBackslash ih =>
    obtain ⟨hText, hValid, hEnd⟩ := ih
    refine ⟨?_, ?_, hEnd⟩
    · simpa [TextUnit.bytes] using hText
    · intro u hu
      rcases List.mem_cons.mp hu with rfl | hu
      · exact ⟨hQuote, hBackslash⟩
      · exact hValid u hu

theorem textSpan_length_le (text : Bytes) : (textSpan text).2.2.length ≤ text.length := by
  have hText := congrArg List.length (textSpan_spec text).1
  simp only [List.length_append] at hText
  omega

/-- Behind a maximal run the text goes on with another kind of piece. -/
theorem pieces_behind_run {f : Byte → Bool} {ps : List Piece} {text : Bytes} (hPieces : Pieces ps)
    (hText : piecesText ps = text.dropWhile f) {q : Piece} (hq : q ∈ ps.head?) :
    q.Valid ∧ ∀ b rest, q.bytes = b :: rest → f b = false := by
  cases ps with
  | nil => cases hq
  | cons p ps =>
    obtain rfl : p = q := by simpa using hq
    refine ⟨hPieces.1, ?_⟩
    intro b rest hBytes
    rw [piecesText_cons, hBytes, List.cons_append] at hText
    have hHead := List.head?_dropWhile_not f text
    rw [← hText] at hHead
    simpa using hHead

/-- **Every byte string has pieces.** -/
theorem exists_pieces (text : Bytes) : ∃ ps, Pieces ps ∧ piecesText ps = text := by
  induction hLen : text.length using Nat.strongRecOn generalizing text with
  | ind n ih =>
    subst hLen
    cases text with
    | nil => exact ⟨[], trivial, rfl⟩
    | cons b rest =>
      by_cases hSpace : isJsonSpace b = true
      · have hShorter := (List.dropWhile_sublist isJsonSpace (l := rest)).length_le
        obtain ⟨ps, hPieces, hText⟩ :=
          ih _ (Nat.lt_succ_of_le hShorter) (rest.dropWhile isJsonSpace) rfl
        refine ⟨.space (b :: rest.takeWhile isJsonSpace) :: ps, ⟨⟨by simp, ?_⟩, ?_, hPieces⟩, ?_⟩
        · exact List.forall_mem_cons.mpr ⟨hSpace, fun _ => List.mem_takeWhile_imp⟩
        · -- another run behind it would be a part of it
          intro q hq
          obtain ⟨hValid, hOther⟩ := pieces_behind_run hPieces hText hq
          obtain ⟨c, tail, hBytes, hKind, -⟩ := q.exists_head hValid
          exact Bool.eq_false_iff.mpr fun hOn => absurd (hKind hOn) (by simp [hOther c tail hBytes])
        · simp [Piece.bytes, hText]
      · by_cases hPunct : isJsonPunct b = true
        · obtain ⟨ps, hPieces, hText⟩ := ih _ (Nat.lt_succ_self _) rest rfl
          exact ⟨.punct b :: ps,
            ⟨hPunct, fun _ _ => trivial, hPieces⟩, by simp [Piece.bytes, hText]⟩
        · by_cases hQuote : b = 34
          · -- a string literal takes what `textSpan` finds
            subst hQuote
            obtain ⟨hSplit, hValid, hEnd⟩ := textSpan_spec rest
            obtain ⟨ps, hPieces, hText⟩ :=
              ih _ (Nat.lt_succ_of_le (textSpan_length_le rest)) (textSpan rest).2.2 rfl
            refine ⟨.text (textSpan rest).1 (textSpan rest).2.1 :: ps, ⟨hValid, ?_, hPieces⟩, ?_⟩
            · -- a literal without an end takes the rest of the text
              intro q hq
              by_contra hOpen
              rw [hEnd hOpen] at hText
              cases ps with
              | nil => cases hq
              | cons p ps =>
                obtain ⟨c, tail, hBytes, -⟩ := p.exists_head hPieces.1
                rw [piecesText_cons, hBytes] at hText
                cases hText
            · rw [piecesText_cons, hText, Piece.bytes, List.cons_append, hSplit]
          · have hBare : isJsonBare b = true :=
              isJsonBare_iff.mpr ⟨by simpa using hSpace, by simpa using hPunct, hQuote⟩
            have hShorter := (List.dropWhile_sublist isJsonBare (l := rest)).length_le
            obtain ⟨ps, hPieces, hText⟩ :=
              ih _ (Nat.lt_succ_of_le hShorter) (rest.dropWhile isJsonBare) rfl
            refine ⟨.bare (b :: rest.takeWhile isJsonBare) :: ps, ⟨⟨by simp, ?_⟩, ?_, hPieces⟩, ?_⟩
            · exact List.forall_mem_cons.mpr ⟨hBare, fun _ => List.mem_takeWhile_imp⟩
            · intro q hq
              obtain ⟨hValid, hOther⟩ := pieces_behind_run hPieces hText hq
              obtain ⟨c, tail, hBytes, -, hKind⟩ := q.exists_head hValid
              exact Bool.eq_false_iff.mpr fun hOn =>
                absurd (hKind hOn) (by simp [hOther c tail hBytes])
            · simp [Piece.bytes, hText]

end L2State.Lib
