import L2State.Lib.Rlp

/-!
# L2State — typed values of the strict decoder

`rlp.DecodeBytes` into the types that take a whole encoding apart: raw values,
slices, byte arrays and integers of any size.

* `Reads` — **an exact reader**: it accepts an encoding of a value that
  satisfies a bound, followed by anything, and nothing else.
* `decodeBytes_eq_ok_iff` — the entry point, which refuses trailing data.
* `reads_rawValue` — a raw value is copied without a look into it, so the
  reader lets pass a single byte under a length header that every typed reader
  refuses.
* `Reads.list` — a slice of values with an exact reader has one.
-/

namespace L2State.Lib.Rlp

variable {α : Type}

/-- A reader of the first value of an input: the value and the rest. -/
abbrev Reader (α : Type) := Bytes → Except Error (α × Bytes)

/-- The reader accepts exactly the encodings of the values within the bound. -/
structure Reads (read : Reader α) (enc : α → Bytes) (Bound : α → Prop) : Prop where
  iff : ∀ {b : Bytes} {a : α} {rest : Bytes},
    read b = .ok (a, rest) ↔ b = enc a ++ rest ∧ Bound a
  ne_nil : ∀ {a : α}, Bound a → enc a ≠ []

/-- `rlp.DecodeBytes`: one value and nothing after it. -/
def decodeBytes (read : Reader α) (b : Bytes) : Except Error α := do
  let (a, rest) ← read b
  require (rest = []) .moreThanOneValue
  return a

namespace Reads

variable {read : Reader α} {enc : α → Bytes} {Bound : α → Prop}

theorem decodeBytes_eq_ok_iff (h : Reads read enc Bound) {b : Bytes} {a : α} :
    decodeBytes read b = .ok a ↔ b = enc a ∧ Bound a := by
  simp only [decodeBytes, bind_eq_ok, require_eq_ok, pure_eq_ok, Except.ok.injEq,
    Prod.exists, h.iff]
  constructor
  · rintro ⟨a, rest, ⟨rfl, hBound⟩, -, rfl, rfl⟩
    exact ⟨List.append_nil _, hBound⟩
  · rintro ⟨rfl, hBound⟩
    exact ⟨a, [], ⟨(List.append_nil _).symm, hBound⟩, (), rfl, rfl⟩

/-- The first value of an input is determined by the input. -/
theorem append_inj (h : Reads read enc Bound) {a a' : α} {rest rest' : Bytes} (ha : Bound a)
    (ha' : Bound a') (hEq : enc a ++ rest = enc a' ++ rest') : a = a' ∧ rest = rest' := by
  have hRead : read (enc a ++ rest) = .ok (a, rest) := h.iff.mpr ⟨rfl, ha⟩
  rw [hEq, h.iff.mpr ⟨rfl, ha'⟩] at hRead
  simp only [Except.ok.injEq, Prod.mk.injEq] at hRead
  exact ⟨hRead.1.symm, hRead.2.symm⟩

theorem injective (h : Reads read enc Bound) {a a' : α} (ha : Bound a) (ha' : Bound a')
    (hEq : enc a = enc a') : a = a' := by
  have hNil : enc a ++ [] = enc a' ++ [] := by rw [hEq]
  exact (h.append_inj ha ha' hNil).1

end Reads

/-! ## Strings, arrays and integers -/

theorem reads_bytesField : Reads bytesField encodeString fun c => c.length < 2 ^ 64 where
  iff := bytesField_eq_ok_iff
  ne_nil _ := encodeString_ne_nil _

theorem reads_arrayField {n : Nat} (hn : n < 2 ^ 64) :
    Reads (arrayField n) (fun a => encodeString a.bytes) fun _ => True where
  iff := by simp [arrayField_eq_ok_iff hn]
  ne_nil _ := encodeString_ne_nil _

/-- Reads a `uint64`. -/
def uint64Field : Reader UInt64 := fun b => do
  let (x, rest) ← uintField 8 b
  return (.ofNat x, rest)

theorem reads_uint64Field :
    Reads uint64Field (fun x => encodeUint 8 x.toNat) fun _ => True where
  iff := by
    intro b x rest
    simp only [uint64Field, bind_eq_ok, pure_eq_ok, Except.ok.injEq, Prod.exists, Prod.mk.injEq,
      uintField_eq_ok_iff (show 8 < 2 ^ 64 by decide), and_true]
    constructor
    · rintro ⟨y, rest, ⟨rfl, hy⟩, rfl, rfl⟩
      have hNat : (UInt64.ofNat y).toNat = y := by
        rw [UInt64.toNat_ofNat']
        exact Nat.mod_eq_of_lt (by simpa using hy)
      rw [hNat]
    · rintro rfl
      exact ⟨x.toNat, rest, ⟨rfl, by simpa using x.toNat_lt⟩, by simp, rfl⟩
  ne_nil _ := encodeString_ne_nil _

/-- The bytes of an integer of any size, without leading zeros. -/
def natBytes (x : Nat) : Bytes := minimalBE (x.log2 / 8 + 1) x

/-- Reads a `big.Int`, which has no sign on the wire. -/
def natField : Reader Nat := fun b => do
  let (content, rest) ← bytesField b
  require (content.head? ≠ some 0) .canonInt
  return (ofBE content, rest)

/-- The number of bytes that `natBytes` provides is enough. -/
theorem lt_pow_log2 (x : Nat) : x < 256 ^ (x.log2 / 8 + 1) := by
  have hLog : x < 2 ^ (x.log2 + 1) := Nat.lt_log2_self
  calc x < 2 ^ (x.log2 + 1) := hLog
    _ ≤ 2 ^ (8 * (x.log2 / 8 + 1)) := Nat.pow_le_pow_right (by decide) (by omega)
    _ = 256 ^ (x.log2 / 8 + 1) := by rw [Nat.pow_mul]

/-- Without a leading zero there are no more bytes than the bits need. -/
theorem length_le_log2 {d : Byte} {tl : Bytes} (hd : d ≠ 0) :
    (d :: tl).length ≤ (ofBE (d :: tl)).log2 / 8 + 1 := by
  have hFirst : 1 ≤ d.val := by
    rcases Nat.eq_zero_or_pos d.val with h | h
    · exact absurd (Fin.ext h) hd
    · exact h
  have hSplit : ∀ (tl : Bytes) (acc : Nat),
      acc * 256 ^ tl.length ≤ tl.foldl (fun acc d => acc * 256 + d.val) acc := by
    intro tl
    induction tl with
    | nil => simp
    | cons e tl ih =>
      intro acc
      have := ih (acc * 256 + e.val)
      calc acc * 256 ^ (e :: tl).length = acc * 256 * 256 ^ tl.length := by
            rw [List.length_cons, Nat.pow_succ]; ring
        _ ≤ (acc * 256 + e.val) * 256 ^ tl.length := Nat.mul_le_mul_right _ (by omega)
        _ ≤ _ := this
  have hLow : 256 ^ tl.length ≤ ofBE (d :: tl) := by
    have := hSplit tl d.val
    simp only [ofBE, List.foldl_cons, Nat.zero_mul, Nat.zero_add]
    calc 256 ^ tl.length = 1 * 256 ^ tl.length := (Nat.one_mul _).symm
      _ ≤ d.val * 256 ^ tl.length := Nat.mul_le_mul_right _ hFirst
      _ ≤ _ := this
  have hPow : 2 ^ (8 * tl.length) ≤ ofBE (d :: tl) := by
    rw [Nat.pow_mul]
    exact hLow
  have hNe : ofBE (d :: tl) ≠ 0 := by
    have : 0 < 2 ^ (8 * tl.length) := Nat.two_pow_pos _
    omega
  have hLog := (Nat.le_log2 hNe).mpr hPow
  simp only [List.length_cons]
  omega

variable {c : Bytes}

theorem natBytes_ofBE (hHead : c.head? ≠ some 0) : natBytes (ofBE c) = c := by
  refine minimalBE_ofBE ?_ ?_
  · cases c with
    | nil => exact Nat.zero_le _
    | cons d tl => exact length_le_log2 (by simpa using hHead)
  · rintro d tl rfl rfl
    simp at hHead

theorem reads_natField :
    Reads natField (fun x => encodeString (natBytes x)) fun x => (natBytes x).length < 2 ^ 64 where
  iff := by
    intro b x rest
    simp only [natField, bind_eq_ok, require_eq_ok, pure_eq_ok, Except.ok.injEq, Prod.exists,
      Prod.mk.injEq, bytesField_eq_ok_iff]
    constructor
    · rintro ⟨c, rest, ⟨rfl, hLen⟩, -, hHead, rfl, rfl⟩
      rw [natBytes_ofBE hHead]
      exact ⟨rfl, hLen⟩
    · rintro ⟨rfl, hLen⟩
      refine ⟨natBytes x, rest, ⟨rfl, hLen⟩, (), ?_, ofBE_minimalBE (lt_pow_log2 x), rfl⟩
      cases hm : natBytes x with
      | nil => simp
      | cons d tl =>
        have := head_minimalBE_ne_zero hm
        simpa using this
  ne_nil _ := encodeString_ne_nil _

/-! ## Raw values -/

/-- What a raw value can be: an encoding, or a byte below `0x80` under a length
header of its own. -/
def IsRaw (x : Bytes) : Prop :=
  (∃ k c, x = item k c ∧ k.Fits c ∧ c.length < 2 ^ 64) ∨ ∃ d : Byte, x = [0x81, d] ∧ d.val < 0x80

/-- The input starts with a byte that should not have a length header. -/
def PaddedByte : Bytes → Prop
  | t :: d :: _ => t = 0x81 ∧ d.val < 0x80
  | _ => False

instance : DecidablePred PaddedByte
  | t :: d :: _ => inferInstanceAs (Decidable (t = 0x81 ∧ d.val < 0x80))
  | [] => .isFalse id
  | [_] => .isFalse id

/-- Copies the first value of an input: `Stream.Raw` checks the size header and
copies the content. -/
def rawValue : Reader Bytes := fun b =>
  if PaddedByte b then .ok (b.take 2, b.drop 2)
  else do
    let (k, c, rest) ← split b
    return (item k c, rest)

/-- A typed value never starts with a padded byte. -/
theorem not_paddedByte {k : Kind} {rest : Bytes} (hFits : k.Fits c) (hLen : c.length < 2 ^ 64) :
    ¬ PaddedByte (item k c ++ rest) := by
  intro hPadded
  have hSplit : split (item k c ++ rest) = .ok (k, c, rest) :=
    split_eq_ok_iff.mpr ⟨rfl, hFits, hLen⟩
  match hb : item k c ++ rest, hPadded with
  | t :: d :: tail, hPadded =>
    obtain ⟨rfl, hd⟩ := hPadded
    rw [hb] at hSplit
    -- the strict reader answers `canonSize` here
    simp only [split, readKind, readTag, bind_eq_ok, require_eq_ok] at hSplit
    obtain ⟨tag, ⟨tag', hTag, -⟩, -⟩ := hSplit
    simp [bind_eq_ok] at hTag
    omega

theorem reads_rawValue : Reads rawValue id IsRaw where
  iff := by
    intro b x rest
    constructor
    · intro h
      unfold rawValue at h
      split at h
      · rename_i hPadded
        simp only [Except.ok.injEq, Prod.mk.injEq] at h
        obtain ⟨rfl, rfl⟩ := h
        refine ⟨(List.take_append_drop 2 b).symm, .inr ?_⟩
        match b, hPadded with
        | t :: d :: tail, ⟨ht, hd⟩ => exact ⟨d, by simp [ht], hd⟩
      · simp only [bind_eq_ok, pure_eq_ok, Except.ok.injEq, Prod.exists, Prod.mk.injEq,
          split_eq_ok_iff] at h
        obtain ⟨k, c, rest, ⟨rfl, hFits, hLen⟩, rfl, rfl⟩ := h
        exact ⟨rfl, .inl ⟨k, c, rfl, hFits, hLen⟩⟩
    · rintro ⟨rfl, ⟨k, c, rfl, hFits, hLen⟩ | ⟨d, rfl, hd⟩⟩
      · rw [id, rawValue, if_neg (not_paddedByte hFits hLen)]
        simp only [bind_eq_ok, pure_eq_ok, Except.ok.injEq, Prod.exists, Prod.mk.injEq,
          split_eq_ok_iff]
        exact ⟨k, c, rest, ⟨rfl, hFits, hLen⟩, rfl, rfl⟩
      · rw [rawValue, if_pos ⟨rfl, hd⟩]
        rfl
  ne_nil := by
    rintro x (⟨k, c, rfl, -, -⟩ | ⟨d, rfl, -⟩)
    · cases k with
      | list => exact encodeList_ne_nil c
      | byte => exact encodeString_ne_nil c
      | string => exact encodeString_ne_nil c
    · simp

theorem isRaw_encodeString (hLen : c.length < 2 ^ 64) : IsRaw (encodeString c) := by
  by_cases hByte : IsByte c
  · exact .inl ⟨.byte, c, rfl, hByte, hLen⟩
  · exact .inl ⟨.string, c, rfl, hByte, hLen⟩

theorem isRaw_encodeList (hLen : c.length < 2 ^ 64) : IsRaw (encodeList c) :=
  .inl ⟨.list, c, rfl, trivial, hLen⟩

theorem split_encodeString (hLen : c.length < 2 ^ 64) :
    ∃ k, k ≠ .list ∧ split (encodeString c) = .ok (k, c, []) := by
  by_cases hByte : IsByte c
  · exact ⟨.byte, by decide, split_eq_ok_iff.mpr ⟨(List.append_nil _).symm, hByte, hLen⟩⟩
  · exact ⟨.string, by decide, split_eq_ok_iff.mpr ⟨(List.append_nil _).symm, hByte, hLen⟩⟩

/-- The kind of an encoding is determined by its bytes. -/
theorem encodeList_ne_encodeString {c' : Bytes} (hLen : c.length < 2 ^ 64)
    (hLen' : c'.length < 2 ^ 64) : encodeList c ≠ encodeString c' := by
  intro hEq
  have hList : split (encodeList c) = .ok (.list, c, []) :=
    split_eq_ok_iff.mpr ⟨(List.append_nil _).symm, trivial, hLen⟩
  obtain ⟨k, hk, hString⟩ := split_encodeString hLen'
  rw [← hEq, hList, Except.ok.injEq, Prod.mk.injEq] at hString
  exact hk hString.1.symm

/-! ## Slices -/

/-- Reads values until the content is used up; every value takes a byte, so
`fuel` is the length of the content. -/
def listItems (read : Reader α) : Nat → Bytes → Except Error (List α)
  | _, [] => .ok []
  | 0, _ :: _ => .error .unexpectedEOF
  | fuel + 1, d :: b => do
    let (a, rest) ← read (d :: b)
    let as ← listItems read fuel rest
    return a :: as

/-- Reads a list whose items are values of one type. -/
def listField (read : Reader α) : Reader (List α) := fun b => do
  let (k, content, rest) ← split b
  require (k = .list) .expectedList
  let as ← listItems read content.length content
  return (as, rest)

/-- The encoding of a slice. -/
def encodeSlice (enc : α → Bytes) (as : List α) : Bytes := encodeList (as.flatMap enc)

namespace Reads

variable {read : Reader α} {enc : α → Bytes} {Bound : α → Prop}

theorem listItems_eq_ok_iff (h : Reads read enc Bound) :
    ∀ {fuel : Nat} {b : Bytes} {as : List α}, b.length ≤ fuel →
      (listItems read fuel b = .ok as ↔ b = as.flatMap enc ∧ ∀ a ∈ as, Bound a)
  | fuel, [], as, _ => by
    rw [listItems, Except.ok.injEq]
    constructor
    · rintro rfl
      simp
    · rintro ⟨hNil, hBound⟩
      cases as with
      | nil => rfl
      | cons a as =>
        have hHead := (List.append_eq_nil_iff.mp hNil.symm).1
        exact absurd hHead (h.ne_nil (hBound a (by simp)))
  | 0, d :: b, as, hFuel => by simp at hFuel
  | fuel + 1, d :: b, as, hFuel => by
    simp only [listItems, bind_eq_ok, pure_eq_ok, Except.ok.injEq, Prod.exists, h.iff]
    -- the first value is not empty, so the rest is within the fuel
    have hRest : ∀ {a : α} {rest : Bytes}, d :: b = enc a ++ rest → Bound a →
        rest.length ≤ fuel := by
      intro a rest hEq hBound
      have hPos := List.length_pos_iff.mpr (h.ne_nil hBound)
      have hLen := congrArg List.length hEq
      simp only [List.length_cons, List.length_append] at hLen hFuel
      omega
    constructor
    · rintro ⟨a, rest, ⟨hEq, hBound⟩, as, hAs, rfl⟩
      obtain ⟨rfl, hAll⟩ := (h.listItems_eq_ok_iff (hRest hEq hBound)).mp hAs
      refine ⟨by rw [hEq, List.flatMap_cons], ?_⟩
      intro x hx
      rcases List.mem_cons.mp hx with rfl | hx
      · exact hBound
      · exact hAll x hx
    · rintro ⟨hEq, hAll⟩
      cases as with
      | nil => exact absurd hEq (by simp)
      | cons a as =>
        rw [List.flatMap_cons] at hEq
        have hBound := hAll a (by simp)
        refine ⟨a, as.flatMap enc, ⟨hEq, hBound⟩, as, ?_, rfl⟩
        exact (h.listItems_eq_ok_iff (hRest hEq hBound)).mpr
          ⟨rfl, fun x hx => hAll x (List.mem_cons_of_mem _ hx)⟩

theorem list (h : Reads read enc Bound) :
    Reads (listField read) (encodeSlice enc)
      fun as => (as.flatMap enc).length < 2 ^ 64 ∧ ∀ a ∈ as, Bound a where
  iff := by
    intro b as rest
    simp only [listField, bind_eq_ok, require_eq_ok, pure_eq_ok, Except.ok.injEq, Prod.exists,
      Prod.mk.injEq, split_eq_ok_iff, h.listItems_eq_ok_iff le_rfl]
    constructor
    · rintro ⟨k, c, rest, ⟨rfl, -, hLen⟩, -, rfl, as, ⟨rfl, hAll⟩, rfl, rfl⟩
      exact ⟨rfl, hLen, hAll⟩
    · rintro ⟨rfl, hLen, hAll⟩
      exact ⟨.list, as.flatMap enc, rest, ⟨rfl, trivial, hLen⟩, (), rfl, as, ⟨rfl, hAll⟩, rfl, rfl⟩
  ne_nil _ := encodeList_ne_nil _

end Reads

/-- `[]rlp.RawValue`. -/
abbrev rawValues : Reader (List Bytes) := listField rawValue

theorem decode_rawValues_eq_ok_iff {b : Bytes} {xs : List Bytes} :
    decodeBytes rawValues b = .ok xs ↔
      b = encodeList xs.flatten ∧ xs.flatten.length < 2 ^ 64 ∧ ∀ x ∈ xs, IsRaw x := by
  rw [reads_rawValue.list.decodeBytes_eq_ok_iff, encodeSlice, List.flatMap_id]

/-- A list of raw values is determined by its bytes. -/
theorem encodeList_flatten_injective {xs ys : List Bytes} (hx : xs.flatten.length < 2 ^ 64)
    (hy : ys.flatten.length < 2 ^ 64) (hRawX : ∀ x ∈ xs, IsRaw x) (hRawY : ∀ y ∈ ys, IsRaw y)
    (hEq : encodeList xs.flatten = encodeList ys.flatten) : xs = ys := by
  refine reads_rawValue.list.injective ⟨?_, hRawX⟩ ⟨?_, hRawY⟩ ?_
  · rwa [List.flatMap_id]
  · rwa [List.flatMap_id]
  · rwa [encodeSlice, encodeSlice, List.flatMap_id, List.flatMap_id]

theorem length_le_encodeList (c : Bytes) : c.length ≤ (encodeList c).length := by
  rw [encodeList, List.length_append]
  omega

end L2State.Lib.Rlp
