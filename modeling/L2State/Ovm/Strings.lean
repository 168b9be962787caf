import L2State.Ovm.Ownership

/-!
# L2State — the strings of the token

The token keeps its name and its symbol as strings at the slots 3 and 4.
`recognizeString` of `ovm_transform.go` reads the word at the slot and adds the keys
of the words that the string takes to the known slots.

* `solidityHeader`, `soliditySlots`, `solidityWord` — **the storage rule** for a byte
  string: a short one is in the word of its slot, a long one has its length there and its
  bytes in the words from the hash of the slot on.
* `checkShortString_eq_ok_iff`, `longStringChunks_eq_ok_iff` — the two forms of a header.
* `returns_recognizeString_iff` — what a run of `recognizeString` leaves.
* `string_metadata_recognized` — it accepts the headers of strings and nothing else.
-/

namespace L2State

open Lib

/-! ## The storage rule -/

/-- A byte string up to 31 bytes long, zero bytes, and twice the length. -/
def shortStringWord (s : Bytes) : Bytes :=
  s ++ List.replicate (31 - s.length) 0 ++ [lowByte (2 * s.length)]

/-- The word at the slot of a byte string. -/
def solidityHeader (s : Bytes) : U256 :=
  if s.length ≤ 31 then .ofNat 256 (ofBE (shortStringWord s)) else .ofNat 256 (2 * s.length + 1)

/-- The slots of the words of a byte string; a short one has none of its own. -/
def soliditySlots (g : Geth) (slot : Nat) (s : Bytes) : List Nat :=
  if s.length ≤ 31 then []
  else (List.range ((s.length + 31) / 32)).map fun i =>
    (ofBE (g.keccak (hashOfNat slot).bytes).bytes + i) % 2 ^ 256

/-! ## The short form -/

theorem toBE_mod (n x : Nat) : toBE n (x % 256 ^ n) = toBE n x := by
  induction n generalizing x with
  | zero => rfl
  | succ n ih =>
    have hHigh : x % 256 ^ (n + 1) / 256 = x / 256 % 256 ^ n := by
      rw [pow_succ', Nat.mod_mul_right_div_self]
    have hLow : lowByte (x % 256 ^ (n + 1)) = lowByte x := by
      refine Fin.ext ?_
      show x % 256 ^ (n + 1) % 256 = x % 256
      exact Nat.mod_mod_of_dvd x (dvd_pow_self 256 (Nat.succ_ne_zero n))
    rw [toBE, toBE, hHigh, ih, hLow]

variable {s : Bytes}

theorem length_shortStringWord (hs : s.length ≤ 31) :
    (shortStringWord s).length = 32 := by
  simp only [shortStringWord, List.length_append, List.length_replicate, List.length_singleton]
  omega

theorem toNat_shortHeader (hs : s.length ≤ 31) :
    (solidityHeader s).toNat = ofBE (shortStringWord s) := by
  have hLt := ofBE_lt (shortStringWord s)
  rw [length_shortStringWord hs] at hLt
  have hPow : (256 : Nat) ^ 32 = 2 ^ 256 := by norm_num
  rw [solidityHeader, if_pos hs, BitVec.toNat_ofNat, Nat.mod_eq_of_lt (hPow ▸ hLt)]

/-- The last byte of a short header is twice the length. -/
theorem shortHeader_mod (hs : s.length ≤ 31) :
    (solidityHeader s).toNat % 256 = 2 * s.length := by
  rw [toNat_shortHeader hs, shortStringWord, ofBE_concat]
  simp only [lowByte]
  omega

theorem shortHeader_bytes (hs : s.length ≤ 31) :
    toBE 32 (solidityHeader s).toNat = shortStringWord s := by
  have hBytes := toBE_ofBE (shortStringWord s)
  rwa [length_shortStringWord hs, ← toNat_shortHeader hs] at hBytes

/-- A word with an even last byte whose other bytes are zero behind the length that it
gives is the header of the bytes before. -/
theorem eq_shortHeader {v : U256} (hEven : v.toNat % 2 = 0) (hLength : v.toNat % 256 / 2 ≤ 31)
    (hPad : ∀ b ∈ ((toBE 32 v.toNat).take 31).drop (v.toNat % 256 / 2), b = 0) :
    ∃ s : Bytes, s.length ≤ 31 ∧ v = solidityHeader s := by
  set n := v.toNat % 256 / 2 with hn
  have hTop : (toBE 32 v.toNat).take 31 = toBE 31 (v.toNat / 256) := by
    rw [toBE, List.take_left' (by simp)]
  rw [hTop] at hPad
  have hLen : ((toBE 31 (v.toNat / 256)).take n).length = n := by
    rw [List.length_take, length_toBE]
    omega
  refine ⟨(toBE 31 (v.toNat / 256)).take n, hLen.le.trans hLength, ?_⟩
  -- behind the string there are only zero bytes up to the last one
  have hZeros : (toBE 31 (v.toNat / 256)).drop n = List.replicate (31 - n) 0 := by
    rw [List.eq_replicate_iff]
    exact ⟨by rw [List.length_drop, length_toBE], hPad⟩
  have hLast : lowByte v.toNat = lowByte (2 * n) := by
    refine Fin.ext ?_
    simp only [lowByte]
    omega
  have hWord : shortStringWord ((toBE 31 (v.toNat / 256)).take n) = toBE 32 v.toNat := by
    rw [shortStringWord, hLen, ← hZeros, List.take_append_drop, ← hLast]
    rfl
  refine BitVec.eq_of_toNat_eq ?_
  have hPow : (256 : Nat) ^ 32 = 2 ^ 256 := by norm_num
  rw [toNat_shortHeader (hLen.le.trans hLength), hWord, ofBE_toBE (hPow ▸ v.isLt)]

/-- A short header is that of a string. -/
theorem checkShortString_eq_ok_iff {v : U256} (hEven : v.toNat % 2 = 0) :
    checkShortString v = .ok () ↔ ∃ s : Bytes, s.length ≤ 31 ∧ v = solidityHeader s := by
  unfold checkShortString
  constructor
  · intro h
    obtain ⟨⟨⟩, hLength, hPad⟩ := bind_eq_ok.mp h
    exact eq_shortHeader hEven (require_eq_ok.mp hLength) (require_eq_ok.mp hPad)
  · rintro ⟨s, hs, rfl⟩
    have hLength : (solidityHeader s).toNat % 256 / 2 = s.length := by
      rw [shortHeader_mod hs]
      omega
    refine bind_eq_ok.mpr ⟨(), require_eq_ok.mpr (hLength ▸ hs), require_eq_ok.mpr ?_⟩
    have hTop : (shortStringWord s).take 31 = s ++ List.replicate (31 - s.length) 0 := by
      refine List.take_left' ?_
      simp only [List.length_append, List.length_replicate]
      omega
    rw [hLength, shortHeader_bytes hs, hTop, List.drop_left]
    exact fun b hb => List.eq_of_mem_replicate hb

/-! ## The long form -/

theorem toNat_longHeader (hLong : 31 < s.length) (hs : s.length < 2 ^ 64) :
    (solidityHeader s).toNat = 2 * s.length + 1 := by
  rw [solidityHeader, if_neg (Nat.not_le.mpr hLong), BitVec.toNat_ofNat]
  omega

/-- A long header is that of a string. -/
theorem longStringChunks_eq_ok_iff {v : U256} (hOdd : v.toNat % 2 ≠ 0) {chunks : Nat} :
    longStringChunks v = .ok chunks ↔
      ∃ s : Bytes, 31 < s.length ∧ s.length < 2 ^ 64 ∧ v = solidityHeader s ∧
        chunks = (s.length + 31) / 32 := by
  unfold longStringChunks
  constructor
  · intro h
    obtain ⟨⟨⟩, hLength, hEq⟩ := bind_eq_ok.mp h
    obtain ⟨hLt, hLong⟩ := require_eq_ok.mp hLength
    obtain rfl := Except.ok.inj hEq
    -- any string of that length has this header
    have hLen : (List.replicate (v.toNat / 2) (0 : Byte)).length = v.toNat / 2 :=
      List.length_replicate
    refine ⟨List.replicate (v.toNat / 2) 0, by omega, by omega, ?_, by omega⟩
    refine BitVec.eq_of_toNat_eq ?_
    rw [toNat_longHeader (by omega) (by omega), hLen]
    omega
  · rintro ⟨s, hLong, hs, rfl, rfl⟩
    rw [toNat_longHeader hLong hs]
    have hHalf : (2 * s.length + 1) / 2 = s.length := by omega
    rw [hHalf]
    refine bind_eq_ok.mpr ⟨(), require_eq_ok.mpr ⟨hs, hLong⟩, ?_⟩
    have hCount : (s.length - 1) / 32 + 1 = (s.length + 31) / 32 := by omega
    rw [hCount]
    rfl

/-- The two forms are told apart by the last bit. -/
theorem header_even_iff (hs : s.length < 2 ^ 64) :
    (solidityHeader s).toNat % 2 = 0 ↔ s.length ≤ 31 := by
  constructor
  · intro hEven
    by_contra hLong
    rw [toNat_longHeader (Nat.not_le.mp hLong) hs] at hEven
    omega
  · intro hShort
    have := shortHeader_mod hShort
    omega

/-! ## A run -/

/-- The writes of `recognizeString` on the header of a byte string. -/
def stringOps (g : Geth) (slot : Nat) (s : Bytes) : List DbOp :=
  (soliditySlots g slot s).map fun n =>
    .put (tag 'k' :: (ovmStorageHash g (hashOfNat n)).bytes) [lowByte slot]

/-- The key of a part of a string is that of the slot with its number. -/
theorem stringChunkKey_eq (g : Geth) (slot n : Nat) :
    stringChunkKey g slot n =
      ovmStorageHash g
        (hashOfNat ((ofBE (g.keccak (hashOfNat slot).bytes).bytes + n) % 2 ^ 256)) := by
  have hPow : (2 : Nat) ^ 256 = 256 ^ 32 := by norm_num
  simp only [stringChunkKey, ovmStorageHash, numberedKey, hashOfNat, hPow, toBE_mod]

theorem stringOps_of_long {g : Geth} {slot : Nat} (hLong : 31 < s.length) :
    stringOps g slot s = (List.range ((s.length + 31) / 32)).map fun n =>
      .put (tag 'k' :: (stringChunkKey g slot n).bytes) [lowByte slot] := by
  rw [stringOps, soliditySlots, if_neg (Nat.not_le.mpr hLong), List.map_map]
  refine List.map_congr_left fun n _ => ?_
  rw [stringChunkKey_eq]
  rfl

/-- The loop over the parts of a string puts them one after the other. -/
theorem foldlM_puts (keys : Nat → Bytes) (value : Bytes) (l : List Nat) (index : OvmIndex) :
    l.foldlM (fun (i : OvmIndex) n => (.ok (i.put 'k' (keys n) value) : Except Err OvmIndex))
      index = .ok (index.pushAll (l.map fun n => .put (tag 'k' :: keys n) value)) := by
  induction l generalizing index with
  | nil => rfl
  | cons n l ih => exact ih _

section Run

variable {x : BalanceInputs} {root : Hash} {slot : Nat} {index : OvmIndex}

theorem succeeds_checkParent : Succeeds Undisturbed (checkParent x) fun _ => True :=
  .attempt (I := BalanceCalls x) .parentErr id (fun _ h => h) rfl

/-- **What a run leaves.** It ends only at the header of a byte string, and then the keys
of the words of the string are written. -/
theorem returns_recognizeString_iff {v : U256}
    (hRead : storageValue x root (hashOfNat slot) = .ok v) {tr : List (Event (BalanceCalls x))}
    {out : OvmIndex} (h : Returns (recognizeString x root slot index) tr out) :
    ∃ s : Bytes, s.length < 2 ^ 64 ∧ v = solidityHeader s ∧
      out = index.pushAll (stringOps x.geth slot s) := by
  obtain ⟨v', t₁, u₁, hValue, hk, rfl⟩ := returns_bind.mp h
  obtain ⟨-, hValue⟩ := returns_computed.mp hValue
  obtain rfl : v' = v := Except.ok.inj (hValue.symm.trans hRead)
  by_cases hEven : v'.toNat % 2 = 0
  · rw [if_pos hEven] at hk
    obtain ⟨⟨⟩, t₂, u₂, hCheck, hRet, rfl⟩ := returns_bind.mp hk
    obtain ⟨-, rfl⟩ := returns_pure.mp hRet
    obtain ⟨s, hs, rfl⟩ := (checkShortString_eq_ok_iff hEven).mp (returns_computed.mp hCheck).2
    refine ⟨s, by omega, rfl, ?_⟩
    rw [stringOps, soliditySlots, if_pos hs]
    rfl
  · rw [if_neg hEven] at hk
    obtain ⟨chunks, t₂, u₂, hChunks, hFold, rfl⟩ := returns_bind.mp hk
    obtain ⟨s, hLong, hs, rfl, rfl⟩ :=
      (longStringChunks_eq_ok_iff hEven).mp (returns_computed.mp hChunks).2
    refine ⟨s, hs, rfl, ?_⟩
    have hLoop := returns_foldChecked hFold
    rw [foldlM_puts] at hLoop
    rw [stringOps_of_long hLong]
    exact (Except.ok.inj hLoop).symm

/-- A header is accepted. -/
theorem succeeds_recognizeString (hs : s.length < 2 ^ 64)
    (hRead : storageValue x root (hashOfNat slot) = .ok (solidityHeader s)) :
    Succeeds Undisturbed (recognizeString x root slot index)
      (· = index.pushAll (stringOps x.geth slot s)) := by
  refine (Succeeds.computed (Q := (· = solidityHeader s)) hRead rfl).bind fun v hv => ?_
  subst hv
  by_cases hShort : s.length ≤ 31
  · have hEven := (header_even_iff hs).mpr hShort
    rw [if_pos hEven]
    have hCheck := (checkShortString_eq_ok_iff hEven).mpr ⟨s, hShort, rfl⟩
    refine (Succeeds.computed (Q := fun _ => True) hCheck trivial).bind fun _ _ => .pure ?_
    rw [stringOps, soliditySlots, if_pos hShort]
    rfl
  · have hEven := mt (header_even_iff hs).mp hShort
    have hLong := Nat.not_le.mp hShort
    rw [if_neg hEven]
    have hChunks := (longStringChunks_eq_ok_iff hEven).mpr ⟨s, hLong, hs, rfl, rfl⟩
    refine (Succeeds.computed (Q := (· = (s.length + 31) / 32)) hChunks rfl).bind
      fun chunks hc => ?_
    subst hc
    refine .foldChecked succeeds_checkParent ?_
    rw [foldlM_puts, stringOps_of_long hLong]

end Run

/-- The words that are headers: an even last byte with half of it at most 31 and zero bytes
behind that many, or an odd word with half of it from 32 to `2 ^ 64`. -/
theorem exists_header_iff (v : U256) :
    (∃ s : Bytes, s.length < 2 ^ 64 ∧ v = solidityHeader s) ↔
      (v.toNat % 2 = 0 ∧ v.toNat % 256 / 2 ≤ 31 ∧
          ∀ b ∈ ((toBE 32 v.toNat).take 31).drop (v.toNat % 256 / 2), b = 0) ∨
        (v.toNat % 2 = 1 ∧ 32 ≤ v.toNat / 2 ∧ v.toNat / 2 < 2 ^ 64) := by
  constructor
  · rintro ⟨s, hs, rfl⟩
    by_cases hShort : s.length ≤ 31
    · have hEven := (header_even_iff hs).mpr hShort
      obtain ⟨⟨⟩, hLength, hPad⟩ :=
        bind_eq_ok.mp ((checkShortString_eq_ok_iff hEven).mpr ⟨s, hShort, rfl⟩)
      exact .inl ⟨hEven, require_eq_ok.mp hLength, require_eq_ok.mp hPad⟩
    · rw [toNat_longHeader (Nat.not_le.mp hShort) hs]
      exact .inr ⟨by omega, by omega, by omega⟩
  · rintro (⟨hEven, hLength, hPad⟩ | ⟨hOdd, hLong, hLt⟩)
    · obtain ⟨s, hs, rfl⟩ := eq_shortHeader hEven hLength hPad
      exact ⟨s, by omega, rfl⟩
    · have hChunks : longStringChunks v = .ok ((v.toNat / 2 - 1) / 32 + 1) :=
        bind_eq_ok.mpr ⟨(), require_eq_ok.mpr ⟨hLt, hLong⟩, rfl⟩
      obtain ⟨s, -, hs, hHeader, -⟩ := (longStringChunks_eq_ok_iff (by omega)).mp hChunks
      exact ⟨s, hs, hHeader⟩

/-- **Solidity strings are recognised exactly.** When the word at a slot is the header of
a byte string by the storage rule, `recognizeString` accepts as long as the context is not
done. What it adds to the namespace `k` are the hashed keys of exactly the words of the
string, which are none for a short one. A word that is no such header is rejected in every
run: a short form with a length above 31 or with a byte in its padding, and a long form
with a length below 32 or from `2 ^ 64` on. -/
theorem string_metadata_recognized (x : BalanceInputs) (root : Hash) (slot : Nat) (index : OvmIndex)
    (v : U256) (hRead : storageValue x root (hashOfNat slot) = .ok v) :
    (∀ s : Bytes, s.length < 2 ^ 64 → v = solidityHeader s →
      Succeeds Undisturbed (recognizeString x root slot index)
        (· = index.pushAll ((soliditySlots x.geth slot s).map fun n =>
          .put (tag 'k' :: (ovmStorageHash x.geth (hashOfNat n)).bytes) [lowByte slot]))) ∧
      ((¬ ∃ s : Bytes, s.length < 2 ^ 64 ∧ v = solidityHeader s) →
        ∀ tr out, ¬ Returns (recognizeString x root slot index) tr out) ∧
      ((v.toNat % 2 = 0 ∧ (31 < v.toNat % 256 / 2 ∨
            ∃ b ∈ ((toBE 32 v.toNat).take 31).drop (v.toNat % 256 / 2), b ≠ 0)) ∨
          (v.toNat % 2 = 1 ∧ (v.toNat / 2 < 32 ∨ 2 ^ 64 ≤ v.toNat / 2)) →
        ∀ tr out, ¬ Returns (recognizeString x root slot index) tr out) := by
  have hReject (hNone : ¬ ∃ s : Bytes, s.length < 2 ^ 64 ∧ v = solidityHeader s) tr out :
      ¬ Returns (recognizeString x root slot index) tr out := by
    intro h
    obtain ⟨s, hs, hHeader, -⟩ := returns_recognizeString_iff hRead h
    exact hNone ⟨s, hs, hHeader⟩
  refine ⟨fun s hs hHeader => ?_, hReject, fun hBad => hReject fun hHeader => ?_⟩
  · subst hHeader
    exact succeeds_recognizeString hs hRead
  · rcases (exists_header_iff v).mp hHeader with ⟨hEven, hLength, hPad⟩ | ⟨hOdd, hLong, hLt⟩
    · rcases hBad with ⟨-, hAbove | ⟨b, hb, hNonzero⟩⟩ | ⟨hOdd, -⟩
      · omega
      · exact hNonzero (hPad b hb)
      · omega
    · rcases hBad with ⟨hEven, -⟩ | ⟨-, hBelow | hAbove⟩ <;> omega

/-- Storage with the word 129 in every slot: the header of a string of 64 bytes. -/
def longStringInputs : BalanceInputs where
  geth := layoutGeth
  tries := ⟨fun _ _ => .ok ⟨fun _ => .ok [0x81, 0x81], .ok ⟨[], [], none⟩⟩⟩
  root := zeroHash
  retention := false
  workers := 2

theorem string_metadata_sample :
    storageValue longStringInputs zeroHash (hashOfNat 3) =
      .ok (solidityHeader (List.replicate 64 7)) ∧
      (soliditySlots layoutGeth 3 (List.replicate 64 7)).length = 2 ∧
      Succeeds Undisturbed (recognizeString longStringInputs zeroHash 3 ⟨.empty, []⟩)
        (· = OvmIndex.pushAll ⟨.empty, []⟩
          ((soliditySlots layoutGeth 3 (List.replicate 64 7)).map fun n =>
          .put (tag 'k' :: (ovmStorageHash layoutGeth (hashOfNat n)).bytes) [lowByte 3])) := by
  have hRead : storageValue longStringInputs zeroHash (hashOfNat 3) =
      .ok (solidityHeader (List.replicate 64 7)) := by decide +kernel
  refine ⟨hRead, by decide +kernel, ?_⟩
  exact (string_metadata_recognized longStringInputs zeroHash 3 ⟨.empty, []⟩ _ hRead).1
    (List.replicate 64 7) (by decide) rfl

end L2State
