import L2State.Lib.SortedMap
import Mathlib.Data.Fin.SuccPredOrder
import Mathlib.Data.List.TakeWhile

/-!
# L2State — bytes, fixed-size words and big-endian integers

Byte strings as lists, ordered as a byte-wise comparison orders them (the
list order of Mathlib over `Fin 256`), fixed-size byte arrays as a subtype
that carries its length, and the two big-endian integer encodings: the
fixed-width one and the one without leading zeros.

* `FixedBytes.ofBytes` — left-pad or crop from the left.
* `ofBE_toBE` / `toBE_ofBE` — fixed-width encoding and decoding are inverse.
* `minimalBE_ofBE` — a string with no leading zero is the minimal encoding
  of its value.
-/

namespace L2State.Lib

abbrev Byte := Fin 256

/-- What a byte literal asks for. -/
instance neZeroByte : NeZero 256 := ⟨by decide⟩

abbrev Bytes := List Byte

instance decidableMemByte (b : Byte) (l : Bytes) : Decidable (b ∈ l) :=
  List.instDecidableMemOfLawfulBEq b l

instance decidableMemBytes (b : Bytes) (l : List Bytes) : Decidable (b ∈ l) :=
  List.instDecidableMemOfLawfulBEq b l

/-- A byte array of a fixed length. -/
structure FixedBytes (n : Nat) where
  bytes        : Bytes
  length_bytes : bytes.length = n
deriving DecidableEq

variable {b : Bytes}

namespace FixedBytes

instance decidableMem {n : Nat} (a : FixedBytes n) (l : List (FixedBytes n)) : Decidable (a ∈ l) :=
  List.instDecidableMemOfLawfulBEq a l

variable {n : Nat}

theorem bytes_injective : Function.Injective (bytes : FixedBytes n → Bytes) := by
  rintro ⟨a, ha⟩ ⟨b, hb⟩ h
  cases h
  rfl

@[ext] theorem ext {a b : FixedBytes n} (h : a.bytes = b.bytes) : a = b :=
  bytes_injective h

instance : LinearOrder (FixedBytes n) := LinearOrder.lift' bytes bytes_injective

theorem lt_iff {a b : FixedBytes n} : a < b ↔ a.bytes < b.bytes := Iff.rfl

/-- Zero-extend a byte string on the left to `n` bytes, keeping its last `n`
bytes when it is longer. -/
def ofBytes (n : Nat) (b : Bytes) : FixedBytes n :=
  ⟨List.replicate (n - b.length) 0 ++ b.drop (b.length - n), by
    simp only [List.length_append, List.length_replicate, List.length_drop]
    omega⟩

/-- The array of zero bytes. -/
def zero (n : Nat) : FixedBytes n := ⟨List.replicate n 0, by simp⟩

instance : Inhabited (FixedBytes n) := ⟨zero n⟩

@[simp] theorem ofBytes_bytes (a : FixedBytes n) : ofBytes n a.bytes = a := by
  apply ext
  simp [ofBytes, a.length_bytes]

/-- A string of the right length is kept as it is. -/
theorem bytes_ofBytes (h : b.length = n) : (ofBytes n b).bytes = b := by
  simp [ofBytes, h]

theorem ofBytes_injOn {a : Bytes} (ha : a.length = n) (hb : b.length = n)
    (h : ofBytes n a = ofBytes n b) : a = b := by
  have := congrArg bytes h
  rwa [bytes_ofBytes ha, bytes_ofBytes hb] at this

end FixedBytes

/-- Zero-extend a byte string on the left; longer strings are unchanged. -/
def leftPad (b : Bytes) (n : Nat) : Bytes := List.replicate (n - b.length) 0 ++ b

variable {n : Nat}

theorem length_leftPad (h : b.length ≤ n) :
    (leftPad b n).length = n := by
  simp only [leftPad, List.length_append, List.length_replicate]
  omega

theorem leftPad_injective {a : Bytes} (hab : a.length = b.length) (h : leftPad a n = leftPad b n) :
    a = b := by
  rw [leftPad, leftPad, hab] at h
  exact List.append_cancel_left h

/-! ## Big-endian integers -/

/-- The value of a big-endian byte string. -/
def ofBE (b : Bytes) : Nat := b.foldl (fun acc d => acc * 256 + d.val) 0

/-- The low byte of a number. -/
def lowByte (x : Nat) : Byte := ⟨x % 256, Nat.mod_lt _ (by decide)⟩

/-- The big-endian encoding of `x` in exactly `n` bytes, modulo `256 ^ n`. -/
def toBE : Nat → Nat → Bytes
  | 0, _ => []
  | n + 1, x => toBE n (x / 256) ++ [lowByte x]

@[simp] theorem length_toBE (n x : Nat) : (toBE n x).length = n := by
  induction n generalizing x with
  | zero => rfl
  | succ n ih => simp [toBE, ih]

theorem ofBE_concat (b : Bytes) (d : Byte) : ofBE (b ++ [d]) = ofBE b * 256 + d.val := by
  simp [ofBE]

@[simp] theorem ofBE_nil : ofBE [] = 0 := rfl

theorem ofBE_lt (b : Bytes) : ofBE b < 256 ^ b.length := by
  induction b using List.reverseRecOn with
  | nil => simp
  | append_singleton b d ih =>
    rw [ofBE_concat, List.length_append, List.length_singleton, pow_succ]
    have := d.isLt
    omega

variable {x : Nat}

theorem ofBE_toBE (h : x < 256 ^ n) : ofBE (toBE n x) = x := by
  induction n generalizing x with
  | zero =>
    simp only [pow_zero, Nat.lt_one_iff] at h
    simp [toBE, h]
  | succ n ih =>
    rw [toBE, ofBE_concat, ih (by rw [pow_succ] at h; omega)]
    simp only [lowByte]
    omega

theorem toBE_ofBE (b : Bytes) : toBE b.length (ofBE b) = b := by
  induction b using List.reverseRecOn with
  | nil => rfl
  | append_singleton b d ih =>
    rw [ofBE_concat, List.length_append, List.length_singleton, toBE]
    have hd := d.isLt
    have hdiv : (ofBE b * 256 + d.val) / 256 = ofBE b := by omega
    have hlow : lowByte (ofBE b * 256 + d.val) = d := by
      apply Fin.ext
      simp only [lowByte]
      omega
    rw [hdiv, hlow, ih]

theorem toBE_injOn {y : Nat} (hx : x < 256 ^ n) (hy : y < 256 ^ n) (h : toBE n x = toBE n y) :
    x = y := by
  rw [← ofBE_toBE hx, h, ofBE_toBE hy]

/-- Big-endian encodings are ordered as the numbers. -/
theorem toBE_lt_toBE {y : Nat} (hxy : x < y) (hy : y < 256 ^ n) : toBE n x < toBE n y := by
  have hConcat : ∀ {a b : Bytes} {d e : Byte}, a.length = b.length → (a < b ∨ a = b ∧ d < e) →
      a ++ [d] < b ++ [e] := by
    intro a
    induction a with
    | nil =>
      intro b d e hLen h
      obtain rfl : b = [] := List.length_eq_zero_iff.mp hLen.symm
      rcases h with h | ⟨-, h⟩
      · exact absurd h (List.not_lt_nil _)
      · exact List.cons_lt_cons_iff.mpr (.inl h)
    | cons u a ih =>
      intro b d e hLen h
      cases b with
      | nil => simp at hLen
      | cons w b =>
        have hTail : a.length = b.length := by simpa using hLen
        rw [List.cons_append, List.cons_append, List.cons_lt_cons_iff]
        rcases h with h | ⟨h, hde⟩
        · exact (List.cons_lt_cons_iff.mp h).imp_right fun h => ⟨h.1, ih hTail (.inl h.2)⟩
        · obtain ⟨rfl, rfl⟩ := List.cons.inj h
          exact .inr ⟨rfl, ih rfl (.inr ⟨rfl, hde⟩)⟩
  induction n generalizing x y with
  | zero => simp only [pow_zero, Nat.lt_one_iff] at hy; omega
  | succ n ih =>
    rw [toBE, toBE]
    refine hConcat (by simp) ?_
    rcases Nat.lt_or_ge (x / 256) (y / 256) with hDiv | hDiv
    · exact .inl (ih hDiv (by rw [pow_succ] at hy; omega))
    · have hEq : x / 256 = y / 256 := by omega
      refine .inr ⟨by rw [hEq], ?_⟩
      change x % 256 < y % 256
      omega

/-- Leading zeros do not change the value. -/
theorem ofBE_cons_zero (b : Bytes) : ofBE (0 :: b) = ofBE b := by
  simp [ofBE]

theorem ofBE_replicate_zero_append (k : Nat) (b : Bytes) :
    ofBE (List.replicate k 0 ++ b) = ofBE b := by
  induction k with
  | zero => rfl
  | succ k ih => rw [List.replicate_succ, List.cons_append, ofBE_cons_zero, ih]

theorem ofBE_dropWhile_zero (b : Bytes) : ofBE (b.dropWhile (· = 0)) = ofBE b := by
  induction b with
  | nil => rfl
  | cons d b ih =>
    by_cases hd : d = 0
    · subst hd
      rw [List.dropWhile_cons_of_pos (by simp), ih, ofBE_cons_zero]
    · rw [List.dropWhile_cons_of_neg (by simpa using hd)]

/-- The encoding of `x` with no leading zero byte, for values of at most `n`
bytes. -/
def minimalBE (n x : Nat) : Bytes := (toBE n x).dropWhile (· = 0)

theorem ofBE_minimalBE (h : x < 256 ^ n) : ofBE (minimalBE n x) = x := by
  rw [minimalBE, ofBE_dropWhile_zero, ofBE_toBE h]

theorem length_minimalBE_le (n x : Nat) : (minimalBE n x).length ≤ n := by
  have := List.Sublist.length_le (List.dropWhile_sublist (fun d : Byte => d = 0) (l := toBE n x))
  simpa [minimalBE] using this

theorem minimalBE_eq_nil_iff (h : x < 256 ^ n) : minimalBE n x = [] ↔ x = 0 := by
  constructor
  · intro hnil
    have := ofBE_minimalBE h
    rw [hnil] at this
    exact this.symm
  · rintro rfl
    have hzero : ∀ n, toBE n 0 = List.replicate n 0 := by
      intro n
      induction n with
      | zero => rfl
      | succ n ih => rw [toBE, Nat.zero_div, ih, List.replicate_succ']; rfl
    rw [minimalBE, hzero, List.dropWhile_eq_nil_iff]
    intro d hd
    simpa using List.eq_of_mem_replicate hd

/-- The minimal encoding starts with a nonzero byte. -/
theorem head_minimalBE_ne_zero {d : Byte} {rest : Bytes} (h : minimalBE n x = d :: rest) :
    d ≠ 0 := by
  have hhead := List.head?_dropWhile_not (fun d : Byte => decide (d = 0)) (toBE n x)
  rw [minimalBE] at h
  rw [h] at hhead
  simpa using hhead

theorem toBE_eq_replicate_append (hb : b.length ≤ n) :
    toBE n (ofBE b) = List.replicate (n - b.length) 0 ++ b := by
  have hlen : (List.replicate (n - b.length) (0 : Byte) ++ b).length = n := by
    simp only [List.length_append, List.length_replicate]
    omega
  have := toBE_ofBE (List.replicate (n - b.length) 0 ++ b)
  rwa [hlen, ofBE_replicate_zero_append] at this

/-- A string without leading zero is the minimal encoding of its value. -/
theorem minimalBE_ofBE (hb : b.length ≤ n) (h0 : ∀ d rest, b = d :: rest → d ≠ 0) :
    minimalBE n (ofBE b) = b := by
  rw [minimalBE, toBE_eq_replicate_append hb, List.dropWhile_append_of_pos]
  · cases b with
    | nil => rfl
    | cons d rest => exact List.dropWhile_cons_of_neg (by simpa using h0 d rest rfl)
  · intro d hd
    simpa using List.eq_of_mem_replicate hd

end L2State.Lib
