import L2State.Lib.Bytes
import L2State.Lib.Except

/-!
# L2State — recursive length encoding

The byte codec of account leaves, storage values and trie nodes, as the
strict decoder reads it: sizes and integers have one encoding, and trailing
data is an error.

* `item` — the encoding of a string or of a list payload.
* `split_eq_ok_iff` — **canonicity**: `split` accepts exactly the encodings,
  and what it returns determines the bytes it consumed.
* `uintField`, `bytesField`, `arrayField` — the field readers of a struct
  decoder, each with the equivalence that characterises it.
-/

namespace L2State.Lib.Rlp

/-- The kind of an encoded value. -/
inductive Kind
  | byte
  | string
  | list
deriving DecidableEq, Repr

/-- The reasons for which the strict decoder refuses an input. -/
inductive Error
  | unexpectedEOF
  | canonSize
  | valueTooLarge
  | expectedString
  | expectedList
  | uintOverflow
  | canonInt
  | wrongLength
  | tooManyElements
  | moreThanOneValue
deriving DecidableEq, Repr

/-! ## Encoding -/

/-- The size header that follows the tag `base`. -/
def putHead (base size : Nat) : Bytes :=
  if size < 56 then [lowByte (base + size)]
  else lowByte (base + 55 + (minimalBE 8 size).length) :: minimalBE 8 size

/-- A single byte below `0x80` is its own encoding. -/
def IsByte (b : Bytes) : Prop := ∃ d : Byte, b = [d] ∧ d.val < 0x80

instance (b : Bytes) : Decidable (IsByte b) :=
  match b with
  | [d] => decidable_of_iff (d.val < 0x80) (by simp [IsByte])
  | [] => .isFalse (by simp [IsByte])
  | _ :: _ :: _ => .isFalse (by simp [IsByte])

/-- The encoding of a byte string. -/
def encodeString (b : Bytes) : Bytes :=
  if IsByte b then b else putHead 0x80 b.length ++ b

/-- The encoding of a list, given the concatenation of its items. -/
def encodeList (payload : Bytes) : Bytes := putHead 0xC0 payload.length ++ payload

/-- The encoding of a value of either kind. -/
def item : Kind → Bytes → Bytes
  | .list, c => encodeList c
  | _, c => encodeString c

/-- The kind under which a decoder reports a content. -/
def Kind.Fits : Kind → Bytes → Prop
  | .byte, c => IsByte c
  | .string, c => ¬ IsByte c
  | .list, _ => True

/-! ## Decoding -/

/-- Reads a size of `slen` bytes; sizes below 56 and leading zeros are refused. -/
def readSize (b : Bytes) (slen : Nat) : Except Error Nat := do
  require (slen ≤ b.length) .unexpectedEOF
  require (56 ≤ ofBE (b.take slen) ∧ b.head? ≠ some 0) .canonSize
  return ofBE (b.take slen)

/-- Reads a tag byte `b` in front of `buf`: the kind, the size of the tag and
the size of the content. -/
def readTag (b : Byte) (buf : Bytes) : Except Error (Kind × Nat × Nat) :=
  if b.val < 0x80 then .ok (.byte, 0, 1)
  else if b.val < 0xB8 then do
    -- a one-byte string below `0x80` should have been a plain byte
    require (¬ (b.val = 0x81 ∧ ∃ d ∈ buf.head?, d.val < 0x80)) .canonSize
    return (.string, 1, b.val - 0x80)
  else if b.val < 0xC0 then do
    let size ← readSize buf (b.val - 0xB7)
    return (.string, b.val - 0xB7 + 1, size)
  else if b.val < 0xF8 then .ok (.list, 1, b.val - 0xC0)
  else do
    let size ← readSize buf (b.val - 0xF7)
    return (.list, b.val - 0xF7 + 1, size)

/-- Reads a tag and refuses contents larger than the input. -/
def readKind : Bytes → Except Error (Kind × Nat × Nat)
  | [] => .error .unexpectedEOF
  | b :: buf => do
    let tag ← readTag b buf
    require (tag.2.2 ≤ (b :: buf).length - tag.2.1) .valueTooLarge
    return tag

/-- Splits the first value off an input: its kind, its content, the rest. -/
def split (b : Bytes) : Except Error (Kind × Bytes × Bytes) := do
  let (k, tagSize, size) ← readKind b
  return (k, (b.drop tagSize).take size, b.drop (tagSize + size))

/-! ## The decoder accepts exactly the encodings -/

/-- The bytes in front of a content of size `n`. -/
def head : Kind → Nat → Bytes
  | .byte, _ => []
  | .string, n => putHead 0x80 n
  | .list, n => putHead 0xC0 n

theorem item_eq_head_append {k : Kind} {c : Bytes} (hFits : k.Fits c) :
    item k c = head k c.length ++ c := by
  cases k with
  | byte => exact if_pos hFits
  | string => exact if_neg hFits
  | list => rfl

variable {n base : Nat}

theorem putHead_short (h : n < 56) : putHead base n = [lowByte (base + n)] :=
  if_pos h

theorem putHead_long (h : 56 ≤ n) :
    putHead base n = lowByte (base + 55 + (minimalBE 8 n).length) :: minimalBE 8 n :=
  if_neg (by omega)

theorem val_lowByte (h : n < 256) : (lowByte n).val = n := Nat.mod_eq_of_lt h

theorem lowByte_val (d : Byte) : lowByte d.val = d := Fin.ext (Nat.mod_eq_of_lt d.isLt)

/-- A size that is not zero has between one and eight bytes. -/
theorem length_minimalBE_bounds (h56 : 56 ≤ n) (h64 : n < 2 ^ 64) :
    1 ≤ (minimalBE 8 n).length ∧ (minimalBE 8 n).length ≤ 8 := by
  refine ⟨?_, length_minimalBE_le 8 n⟩
  have hne : minimalBE 8 n ≠ [] := by
    rw [ne_eq, minimalBE_eq_nil_iff (by omega)]
    omega
  exact List.length_pos_iff.mpr hne

/-- A size is read when it is minimal and too large for a short head. -/
theorem readSize_eq_ok_iff {buf : Bytes} {slen s : Nat} (h1 : 1 ≤ slen) (h8 : slen ≤ 8) :
    readSize buf slen = .ok s ↔
      ∃ tail, buf = minimalBE 8 s ++ tail ∧ (minimalBE 8 s).length = slen ∧
        56 ≤ s ∧ s < 2 ^ 64 := by
  simp only [readSize, bind_eq_ok, require_eq_ok, pure_eq_ok, Except.ok.injEq]
  constructor
  · rintro ⟨-, hLen, -, ⟨h56, hHead⟩, rfl⟩
    have hTake : (buf.take slen).length = slen := List.length_take_of_le hLen
    have hMin : minimalBE 8 (ofBE (buf.take slen)) = buf.take slen := by
      refine minimalBE_ofBE (hTake.trans_le h8) ?_
      rintro d rest hcons rfl
      apply hHead
      cases buf with
      | nil => simp at hcons
      | cons x xs =>
        obtain ⟨m, rfl⟩ : ∃ m, slen = m + 1 := ⟨slen - 1, by omega⟩
        simp only [List.take_succ_cons, List.cons.injEq] at hcons
        simp [hcons.1]
    refine ⟨buf.drop slen, ?_, ?_, h56, ?_⟩
    · rw [hMin, List.take_append_drop]
    · rw [hMin, hTake]
    · calc ofBE (buf.take slen) < 256 ^ (buf.take slen).length := ofBE_lt _
        _ ≤ 256 ^ 8 := Nat.pow_le_pow_right (by decide) (hTake.trans_le h8)
        _ = 2 ^ 64 := by norm_num
  · rintro ⟨tail, rfl, rfl, h56, h64⟩
    have hTake : (minimalBE 8 s ++ tail).take (minimalBE 8 s).length = minimalBE 8 s :=
      List.take_left
    have hVal : ofBE (minimalBE 8 s) = s := ofBE_minimalBE (by omega)
    refine ⟨(), by simp, (), ⟨by rw [hTake, hVal]; exact h56, ?_⟩, by rw [hTake, hVal]⟩
    cases hm : minimalBE 8 s with
    | nil => rw [hm] at h1; simp at h1
    | cons d rest =>
      have := head_minimalBE_ne_zero hm
      simpa using this

/-- A short header is one byte. -/
theorem cons_eq_putHead_short {b : Byte} {buf : Bytes} (hb : base ≤ b.val) (hn : b.val < base + 56)
    (h : n = b.val - base) : b :: buf = putHead base n ++ buf := by
  have : base + n = b.val := by omega
  rw [putHead_short (by omega), this, lowByte_val]
  rfl

/-- A long header is a tag byte and a size without leading zero. -/
theorem cons_eq_putHead_long {b : Byte} {tail : Bytes} (h56 : 56 ≤ n)
    (hb : (minimalBE 8 n).length = b.val - (base + 55)) (hlt : base + 55 < b.val) :
    b :: (minimalBE 8 n ++ tail) = putHead base n ++ tail := by
  have : base + 55 + (minimalBE 8 n).length = b.val := by omega
  rw [putHead_long h56, this, lowByte_val]
  rfl

/-- The one-byte rule of short strings, in terms of the content. -/
theorem short_string_iff {b : Byte} {buf : Bytes} (hLen : b.val - 0x80 ≤ buf.length) :
    (¬ (b.val = 0x81 ∧ ∃ d ∈ buf.head?, d.val < 0x80)) ↔
      ¬ IsByte (buf.take (b.val - 0x80)) := by
  rw [not_iff_not]
  constructor
  · rintro ⟨hb, d, hd, hlt⟩
    cases buf with
    | nil => simp at hd
    | cons x xs =>
      simp only [List.head?_cons, Option.mem_def, Option.some.injEq] at hd
      exact ⟨d, by simp [hb, hd], hlt⟩
  · rintro ⟨d, hd, hlt⟩
    have hOne : b.val - 0x80 = 1 := by
      have := congrArg List.length hd
      rwa [List.length_take_of_le hLen] at this
    rw [hOne] at hd
    cases buf with
    | nil => simp at hd
    | cons x xs =>
      simp only [List.take_succ_cons, List.take_zero, List.cons.injEq, and_true] at hd
      exact ⟨by omega, d, by simp [hd], hlt⟩

/-- What the tag reader accepts: the header of the reported kind and size, in
front of the content. -/
theorem readTag_eq_ok {b : Byte} {buf : Bytes} {k : Kind} {tagSize : Nat}
    (hTag : readTag b buf = .ok (k, tagSize, n)) (hLen : n ≤ (b :: buf).length - tagSize) :
    ∃ tail, b :: buf = head k n ++ tail ∧ tagSize = (head k n).length ∧ n ≤ tail.length ∧
      n < 2 ^ 64 ∧ k.Fits (tail.take n) := by
  have hb := b.isLt
  unfold readTag at hTag
  split at hTag
  · -- a plain byte
    next h80 =>
    cases hTag
    exact ⟨b :: buf, rfl, rfl, hLen, by decide, b, rfl, h80⟩
  split at hTag
  · -- a short string
    next h80 hB8 =>
    simp only [bind_eq_ok, require_eq_ok, pure_eq_ok, Except.ok.injEq, Prod.mk.injEq] at hTag
    obtain ⟨-, hByte, rfl, rfl, rfl⟩ := hTag
    have hLen' : b.val - 0x80 ≤ buf.length := by simpa using hLen
    refine ⟨buf, cons_eq_putHead_short (by omega) (by omega) rfl, ?_, hLen', by omega,
      (short_string_iff hLen').mp hByte⟩
    rw [head, putHead_short (by omega)]
    rfl
  split at hTag
  · -- a long string
    next h80 hB8 hC0 =>
    simp only [bind_eq_ok, pure_eq_ok, Except.ok.injEq, Prod.mk.injEq] at hTag
    obtain ⟨s, hSize, rfl, rfl, rfl⟩ := hTag
    obtain ⟨tail, rfl, hsl, h56, h64⟩ := (readSize_eq_ok_iff (by omega) (by omega)).mp hSize
    have hTail : s ≤ tail.length := by
      simp only [List.length_cons, List.length_append] at hLen
      omega
    refine ⟨tail, cons_eq_putHead_long h56 (by omega) (by omega), ?_, hTail, h64, ?_⟩
    · rw [head, putHead_long h56, List.length_cons, hsl]
    · rintro ⟨d, hd, -⟩
      have := congrArg List.length hd
      rw [List.length_take_of_le hTail] at this
      simp only [List.length_cons, List.length_nil] at this
      omega
  split at hTag
  · -- a short list
    next h80 hB8 hC0 hF8 =>
    cases hTag
    refine ⟨buf, cons_eq_putHead_short (by omega) (by omega) rfl, ?_, by simpa using hLen,
      by omega, trivial⟩
    rw [head, putHead_short (by omega)]
    rfl
  · -- a long list
    next h80 hB8 hC0 hF8 =>
    simp only [bind_eq_ok, pure_eq_ok, Except.ok.injEq, Prod.mk.injEq] at hTag
    obtain ⟨s, hSize, rfl, rfl, rfl⟩ := hTag
    obtain ⟨tail, rfl, hsl, h56, h64⟩ := (readSize_eq_ok_iff (by omega) (by omega)).mp hSize
    refine ⟨tail, cons_eq_putHead_long h56 (by omega) (by omega), ?_, ?_, h64, trivial⟩
    · rw [head, putHead_long h56, List.length_cons, hsl]
    · simp only [List.length_cons, List.length_append] at hLen
      omega

/-- Conversely every header is read back. -/
theorem readKind_head_append {k : Kind} {tail : Bytes} (hLen : n ≤ tail.length) (h64 : n < 2 ^ 64)
    (hFits : k.Fits (tail.take n)) :
    readKind (head k n ++ tail) = .ok (k, (head k n).length, n) := by
  -- the header of a nonbyte kind, by the size of the content
  have hStrict : ∀ base, (base = 0x80 ∧ k = .string) ∨ (base = 0xC0 ∧ k = .list) →
      head k n = putHead base n → readKind (head k n ++ tail) = .ok (k, (head k n).length, n) := by
    intro base hBase hHead
    rw [hHead]
    by_cases h56 : n < 56
    · rw [putHead_short h56]
      have hVal : (lowByte (base + n)).val = base + n := val_lowByte (by omega)
      simp only [List.cons_append, List.nil_append, readKind, readTag, hVal, List.length_cons,
        List.length_nil]
      rcases hBase with ⟨rfl, rfl⟩ | ⟨rfl, rfl⟩
      · have hByte := (@short_string_iff (lowByte (0x80 + n)) tail
          (by rw [hVal]; omega)).mpr (by rw [hVal, Nat.add_sub_cancel_left]; exact hFits)
        rw [hVal] at hByte
        rw [if_neg (by omega), if_pos (by omega), require_true hByte]
        simp [require, hLen]
      · rw [if_neg (by omega), if_neg (by omega), if_neg (by omega), if_pos (by omega)]
        simp [require, hLen]
    · have h56' : 56 ≤ n := by omega
      have hBounds := length_minimalBE_bounds h56' h64
      rw [putHead_long h56']
      have hVal : (lowByte (base + 55 + (minimalBE 8 n).length)).val =
          base + 55 + (minimalBE 8 n).length := val_lowByte (by omega)
      have hSize : readSize (minimalBE 8 n ++ tail) (minimalBE 8 n).length = .ok n :=
        (readSize_eq_ok_iff hBounds.1 hBounds.2).mpr ⟨tail, rfl, rfl, h56', h64⟩
      simp only [List.cons_append, readKind, readTag, hVal, List.length_cons, List.length_append]
      rcases hBase with ⟨rfl, rfl⟩ | ⟨rfl, rfl⟩
      · have hLenSize : 0x80 + 55 + (minimalBE 8 n).length - 0xB7 = (minimalBE 8 n).length := by
          omega
        rw [if_neg (by omega), if_neg (by omega), if_pos (by omega), hLenSize, hSize]
        simp only [ok_bind, pure_eq_ok]
        rw [require_true (by omega), ok_bind]
      · have hLenSize : 0xC0 + 55 + (minimalBE 8 n).length - 0xF7 = (minimalBE 8 n).length := by
          omega
        rw [if_neg (by omega), if_neg (by omega), if_neg (by omega), if_neg (by omega), hLenSize,
          hSize]
        simp only [ok_bind, pure_eq_ok]
        rw [require_true (by omega), ok_bind]
  cases k with
  | byte =>
    obtain ⟨d, hd, hlt⟩ := hFits
    have hOne : n = 1 := by
      have := congrArg List.length hd
      rwa [List.length_take_of_le hLen] at this
    subst hOne
    cases tail with
    | nil => simp at hd
    | cons x xs =>
      simp only [List.take_succ_cons, List.take_zero, List.cons.injEq, and_true] at hd
      subst hd
      simp [head, readKind, readTag, hlt, require]
  | string => exact hStrict 0x80 (.inl ⟨rfl, rfl⟩) rfl
  | list => exact hStrict 0xC0 (.inr ⟨rfl, rfl⟩) rfl

variable {b : Bytes}

theorem readKind_eq_ok_iff {k : Kind} {tagSize : Nat} :
    readKind b = .ok (k, tagSize, n) ↔
      ∃ tail, b = head k n ++ tail ∧ tagSize = (head k n).length ∧ n ≤ tail.length ∧
        n < 2 ^ 64 ∧ k.Fits (tail.take n) := by
  constructor
  · intro h
    cases b with
    | nil => simp [readKind] at h
    | cons x xs =>
      simp only [readKind, bind_eq_ok, require_eq_ok, pure_eq_ok, Except.ok.injEq] at h
      obtain ⟨tag, hTag, -, hLen, rfl⟩ := h
      exact readTag_eq_ok hTag hLen
  · rintro ⟨tail, rfl, rfl, hLen, h64, hFits⟩
    exact readKind_head_append hLen h64 hFits

/-- **Canonicity.** An input splits exactly when it starts with the encoding
of the returned content under the returned kind. -/
theorem split_eq_ok_iff {c rest : Bytes} {k : Kind} :
    split b = .ok (k, c, rest) ↔ b = item k c ++ rest ∧ k.Fits c ∧ c.length < 2 ^ 64 := by
  simp only [split, bind_eq_ok, pure_eq_ok, Except.ok.injEq, Prod.exists, Prod.mk.injEq]
  constructor
  · rintro ⟨k', tagSize, n, hKind, rfl, rfl, rfl⟩
    obtain ⟨tail, rfl, rfl, hn, h64, hFits⟩ := readKind_eq_ok_iff.mp hKind
    have hc : (tail.take n).length = n := List.length_take_of_le hn
    rw [List.drop_left, ← List.drop_drop, List.drop_left]
    refine ⟨?_, hFits, hc.trans_lt h64⟩
    rw [item_eq_head_append hFits, hc, List.append_assoc, List.take_append_drop]
  · rintro ⟨rfl, hFits, h64⟩
    rw [item_eq_head_append hFits, List.append_assoc]
    refine ⟨k, (head k c.length).length, c.length, ?_, rfl, ?_, ?_⟩
    · refine readKind_eq_ok_iff.mpr ⟨c ++ rest, rfl, rfl, by simp, h64, ?_⟩
      rwa [List.take_left]
    · rw [List.drop_left, List.take_left]
    · rw [← List.drop_drop, List.drop_left, List.drop_left]

/-! ## Field readers -/

/-- The encoding of an unsigned integer of at most `n` bytes. -/
def encodeUint (n x : Nat) : Bytes := encodeString (minimalBE n x)

/-- Reads a byte string of any length. -/
def bytesField (b : Bytes) : Except Error (Bytes × Bytes) := do
  let (k, content, rest) ← split b
  require (k ≠ .list) .expectedString
  return (content, rest)

/-- Reads an unsigned integer of at most `n` bytes; leading zeros are refused. -/
def uintField (n : Nat) (b : Bytes) : Except Error (Nat × Bytes) := do
  let (content, rest) ← bytesField b
  require (content.length ≤ n) .uintOverflow
  require (content.head? ≠ some 0) .canonInt
  return (ofBE content, rest)

/-- Reads a byte array of exactly `n` bytes. -/
def arrayField (n : Nat) (b : Bytes) : Except Error (FixedBytes n × Bytes) := do
  let (content, rest) ← bytesField b
  require (content.length = n) .wrongLength
  return (.ofBytes n content, rest)

/-- Reads one list and nothing after it; returns the concatenated items. -/
def listOnly (b : Bytes) : Except Error Bytes := do
  let (k, content, rest) ← split b
  require (k = .list) .expectedList
  require (rest = []) .moreThanOneValue
  return content

theorem bytesField_eq_ok_iff {c rest : Bytes} :
    bytesField b = .ok (c, rest) ↔ b = encodeString c ++ rest ∧ c.length < 2 ^ 64 := by
  simp only [bytesField, bind_eq_ok, require_eq_ok, pure_eq_ok, Except.ok.injEq, Prod.exists,
    Prod.mk.injEq, split_eq_ok_iff]
  constructor
  · rintro ⟨k, c, rest, ⟨rfl, hFits, h64⟩, -, hk, rfl, rfl⟩
    cases k with
    | list => exact absurd rfl hk
    | byte => exact ⟨rfl, h64⟩
    | string => exact ⟨rfl, h64⟩
  · rintro ⟨rfl, h64⟩
    by_cases hByte : IsByte c
    · exact ⟨.byte, c, rest, ⟨rfl, hByte, h64⟩, (), by decide, rfl, rfl⟩
    · exact ⟨.string, c, rest, ⟨rfl, hByte, h64⟩, (), by decide, rfl, rfl⟩

/-- An integer field is read when it is minimal and fits. -/
theorem uintField_eq_ok_iff {x : Nat} {rest : Bytes} (hn : n < 2 ^ 64) :
    uintField n b = .ok (x, rest) ↔ b = encodeUint n x ++ rest ∧ x < 256 ^ n := by
  simp only [uintField, bind_eq_ok, require_eq_ok, pure_eq_ok, Except.ok.injEq, Prod.exists,
    Prod.mk.injEq, bytesField_eq_ok_iff]
  constructor
  · rintro ⟨c, rest, ⟨rfl, -⟩, -, hLen, -, hHead, rfl, rfl⟩
    have hMin : minimalBE n (ofBE c) = c := by
      refine minimalBE_ofBE hLen ?_
      rintro d tl rfl rfl
      simp at hHead
    refine ⟨by rw [encodeUint, hMin], ?_⟩
    exact (ofBE_lt c).trans_le (Nat.pow_le_pow_right (by decide) hLen)
  · rintro ⟨rfl, hx⟩
    have hLen := length_minimalBE_le n x
    refine ⟨minimalBE n x, rest, ⟨rfl, hLen.trans_lt hn⟩, (), hLen, (), ?_, ofBE_minimalBE hx, rfl⟩
    cases hm : minimalBE n x with
    | nil => simp
    | cons d tl =>
      have := head_minimalBE_ne_zero hm
      simpa using this

theorem arrayField_eq_ok_iff {a : FixedBytes n} {rest : Bytes} (hn : n < 2 ^ 64) :
    arrayField n b = .ok (a, rest) ↔ b = encodeString a.bytes ++ rest := by
  simp only [arrayField, bind_eq_ok, require_eq_ok, pure_eq_ok, Except.ok.injEq, Prod.exists,
    Prod.mk.injEq, bytesField_eq_ok_iff]
  constructor
  · rintro ⟨c, rest, ⟨rfl, -⟩, -, hLen, rfl, rfl⟩
    rw [FixedBytes.bytes_ofBytes hLen]
  · rintro rfl
    exact ⟨a.bytes, rest, ⟨rfl, a.length_bytes.trans_lt hn⟩, (), a.length_bytes,
      FixedBytes.ofBytes_bytes a, rfl⟩

theorem listOnly_eq_ok_iff {c : Bytes} :
    listOnly b = .ok c ↔ b = encodeList c ∧ c.length < 2 ^ 64 := by
  simp only [listOnly, bind_eq_ok, require_eq_ok, pure_eq_ok, Except.ok.injEq, Prod.exists,
    split_eq_ok_iff]
  constructor
  · rintro ⟨k, c, rest, ⟨rfl, -, h64⟩, -, rfl, -, rfl, rfl⟩
    exact ⟨by simp [item], h64⟩
  · rintro ⟨rfl, h64⟩
    exact ⟨.list, c, [], ⟨by simp [item], trivial, h64⟩, (), rfl, (), rfl, rfl⟩

/-! ## Injectivity -/

theorem encodeString_injective {a : Bytes} (ha : a.length < 2 ^ 64) (hb : b.length < 2 ^ 64)
    (h : encodeString a = encodeString b) : a = b := by
  have hA := bytesField_eq_ok_iff.mpr ⟨(List.append_nil (encodeString a)).symm, ha⟩
  have hB := bytesField_eq_ok_iff.mpr ⟨(List.append_nil (encodeString b)).symm, hb⟩
  rw [h, hB] at hA
  simpa using hA.symm

theorem length_le_encodeString (b : Bytes) : b.length ≤ (encodeString b).length := by
  unfold encodeString
  split
  · exact le_rfl
  · simp

theorem length_putHead_le (base n : Nat) : (putHead base n).length ≤ 9 := by
  unfold putHead
  split
  · simp
  · have := length_minimalBE_le 8 n
    rw [List.length_cons]
    omega

/-- The header of an item below 256 bytes has one or two bytes. -/
theorem length_putHead_of_lt (h : n < 256) :
    (putHead base n).length = if n < 56 then 1 else 2 := by
  by_cases hShort : n < 56
  · rw [if_pos hShort, putHead_short hShort, List.length_singleton]
  · have hMinimal : minimalBE 8 n = [lowByte n] := by
      have hByte : ofBE [lowByte n] = n := by
        show 0 * 256 + (lowByte n).val = n
        rw [val_lowByte h, Nat.zero_mul, Nat.zero_add]
      have hBytes := minimalBE_ofBE (n := 8) (b := [lowByte n]) (by simp) (by
        intro d rest hd hZero
        obtain ⟨rfl, rfl⟩ := List.cons.inj hd
        rw [hZero] at hByte
        change 0 * 256 + 0 = n at hByte
        omega)
      rwa [hByte] at hBytes
    rw [if_neg hShort, putHead_long (by omega), hMinimal]
    rfl

theorem length_encodeString_short (h : b.length < 56) :
    (encodeString b).length ≤ b.length + 1 := by
  unfold encodeString
  split
  · omega
  · rw [List.length_append, length_putHead_of_lt (by omega), if_pos h]
    omega

theorem length_encodeString_le (b : Bytes) : (encodeString b).length ≤ b.length + 9 := by
  unfold encodeString
  split
  · omega
  · have := length_putHead_le 0x80 b.length
    rw [List.length_append]
    omega

theorem encodeString_ne_nil (b : Bytes) : encodeString b ≠ [] := by
  unfold encodeString
  split
  · next h => obtain ⟨d, rfl, -⟩ := h; simp
  · unfold putHead
    split <;> simp

theorem encodeList_ne_nil (b : Bytes) : encodeList b ≠ [] := by
  unfold encodeList putHead
  split <;> simp

end L2State.Lib.Rlp
