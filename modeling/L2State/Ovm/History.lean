import L2State.Lib.Framing
import L2State.Ovm.Index
import L2State.Ovm.Receipts
import L2State.Prune.Scan

/-!
# L2State — the accepted history and its digests

What `acceptBlock` and `event` of `ovm_history.go` write to their digests. A block of the
canonical history is written to the history digest, the Transfer and Approval logs of the
token among its receipts to the event digest.

* `ovmHashFrame`, `BlockFrame`, `EventFrame` — what the digests are fed with.
* `evidence_frames_separate` — the digests are fed with different bytes for different
  sequences.
-/

namespace L2State

open Lib

/-! ## Frames -/

/-- `ovmHashFrame`: each value behind its length. -/
def ovmHashFrame (values : List Bytes) : Bytes :=
  values.flatMap fun value => toBE 8 value.length ++ value

/-- What a block adds to the history digest. -/
structure BlockFrame where
  number    : UInt64
  hash      : Hash
  headerRLP : Bytes
  raw       : Bytes
deriving DecidableEq

/-- The call of `ovmHashFrame` in `acceptBlock`. -/
def BlockFrame.encode (b : BlockFrame) : Bytes :=
  ovmHashFrame [toBE 8 b.number.toNat, b.hash.bytes, b.headerRLP, b.raw]

/-- What a log adds to the event digest. -/
structure EventFrame where
  block    : UInt64
  receipt  : UInt64
  position : UInt64
  topic    : Hash
  sender   : Address
  receiver : Address
  data     : Bytes
deriving DecidableEq

/-- `coordinate` of `event`. -/
def EventFrame.coordinate (e : EventFrame) : Bytes :=
  toBE 8 e.block.toNat ++ toBE 8 e.receipt.toNat ++ toBE 8 e.position.toNat

/-- The call of `ovmHashFrame` in `event`. -/
def EventFrame.encode (e : EventFrame) : Bytes :=
  ovmHashFrame [e.coordinate, e.topic.bytes, e.sender.bytes, e.receiver.bytes, e.data]

/-! ## The digests tell sequences apart -/

/-- Sequences of records that satisfy `ok` are told apart by what they are written as,
and no sequence is the beginning of a different one of the same length. -/
def Separates {α : Type} (ok : α → Prop) (encode : α → Bytes) : Prop :=
  ∀ xs ys : List α, (∀ x ∈ xs, ok x) → (∀ y ∈ ys, ok y) → xs ≠ ys →
    xs.flatMap encode ≠ ys.flatMap encode ∧
      (xs.length = ys.length → ¬ xs.flatMap encode <+: ys.flatMap encode)

theorem separates_of_selfDelimiting {α : Type} {ok : α → Prop} {encode : α → Bytes}
    (h : SelfDelimiting ok encode) : Separates ok encode := by
  intro xs ys hxs hys hNe
  exact ⟨fun hEq => hNe (h.flatMap_injOn hxs hys hEq),
    fun hLength hPre => hNe (h.eq_of_isPrefix hxs hys hLength hPre)⟩

/-- Records that are written as a fixed number of frames. -/
theorem separates_frames {α : Type} {ok : α → Prop} {fields : α → List Bytes} {n : Nat} (hn : 0 < n)
    (hFields : Function.Injective fields) (hCount : ∀ a, (fields a).length = n)
    (hOk : ∀ a, ok a → ∀ v ∈ fields a, v.length < 2 ^ 64) :
    Separates ok fun a => (fields a).flatMap frame := by
  have hTuple := (selfDelimiting_frame.tuple hn).comap hFields
  exact separates_of_selfDelimiting (hTuple.mono fun a ha => ⟨hCount a, hOk a ha⟩)

theorem length_word_lt {n : Nat} (a : FixedBytes n) (hn : n < 2 ^ 64) :
    a.bytes.length < 2 ^ 64 := by
  rwa [a.length_bytes]

theorem toBE_uint64_injective {x y : UInt64} (h : toBE 8 x.toNat = toBE 8 y.toNat) : x = y := by
  have hPow : (256 : Nat) ^ 8 = 2 ^ 64 := by norm_num
  exact UInt64.toNat_inj.mp (toBE_injOn (hPow ▸ x.toNat_lt) (hPow ▸ y.toNat_lt) h)

theorem BlockFrame.fields_injective : Function.Injective fun b : BlockFrame =>
    [toBE 8 b.number.toNat, b.hash.bytes, b.headerRLP, b.raw] := by
  rintro ⟨n, h, r, w⟩ ⟨n', h', r', w'⟩ hEq
  simp only [List.cons.injEq, and_true] at hEq
  obtain ⟨hNumber, hHash, rfl, rfl⟩ := hEq
  rw [toBE_uint64_injective hNumber, FixedBytes.ext hHash]

/-- The three numbers of a coordinate have a fixed width. -/
theorem EventFrame.coordinate_injective {e e' : EventFrame} (h : e.coordinate = e'.coordinate) :
    e.block = e'.block ∧ e.receipt = e'.receipt ∧ e.position = e'.position := by
  obtain ⟨hFirst, hPosition⟩ := List.append_inj h (by simp)
  obtain ⟨hBlock, hReceipt⟩ := List.append_inj hFirst (by simp)
  exact ⟨toBE_uint64_injective hBlock, toBE_uint64_injective hReceipt,
    toBE_uint64_injective hPosition⟩

theorem EventFrame.fields_injective : Function.Injective fun e : EventFrame =>
    [e.coordinate, e.topic.bytes, e.sender.bytes, e.receiver.bytes, e.data] := by
  intro e e' hEq
  simp only [List.cons.injEq, and_true] at hEq
  obtain ⟨hCoordinate, hTopic, hSender, hReceiver, hData⟩ := hEq
  obtain ⟨hBlock, hReceipt, hPosition⟩ := coordinate_injective hCoordinate
  cases e
  cases e'
  simp only [mk.injEq]
  exact ⟨hBlock, hReceipt, hPosition, FixedBytes.ext hTopic, FixedBytes.ext hSender,
    FixedBytes.ext hReceiver, hData⟩

/-- **The digests frame their inputs injectively.** Different sequences of key-value pairs
feed the protected inventory with different bytes, different sequences of blocks the
history digest, and different sequences of logs the event digest; and no sequence's bytes
are the beginning of those of a different one with as many elements. -/
theorem evidence_frames_separate :
    Separates (fun p : Bytes × Bytes => p.1.length < 2 ^ 64 ∧ p.2.length < 2 ^ 64)
        (fun p => hashPruneKV p.1 p.2) ∧
      Separates (fun b : BlockFrame => b.headerRLP.length < 2 ^ 64 ∧ b.raw.length < 2 ^ 64)
        BlockFrame.encode ∧
      Separates (fun e : EventFrame => e.data.length < 2 ^ 64) EventFrame.encode := by
  refine ⟨?_, ?_, ?_⟩
  · have hFields : Function.Injective fun p : Bytes × Bytes => [p.1, p.2] := by
      rintro ⟨k, v⟩ ⟨k', v'⟩ hEq
      simpa using hEq
    refine separates_frames (n := 2) (by decide) hFields (fun _ => rfl) fun p hp v hv => ?_
    · simp only [List.mem_cons, List.not_mem_nil, or_false] at hv
      rcases hv with rfl | rfl
      · exact hp.1
      · exact hp.2
  · refine separates_frames (n := 4) (by decide) BlockFrame.fields_injective (fun _ => rfl)
      fun b hb v hv => ?_
    simp only [List.mem_cons, List.not_mem_nil, or_false] at hv
    rcases hv with rfl | rfl | rfl | rfl
    · rw [length_toBE]; norm_num
    · exact length_word_lt _ (by norm_num)
    · exact hb.1
    · exact hb.2
  · refine separates_frames (n := 5) (by decide) EventFrame.fields_injective (fun _ => rfl)
      fun e he v hv => ?_
    simp only [List.mem_cons, List.not_mem_nil, or_false] at hv
    rcases hv with rfl | rfl | rfl | rfl | rfl
    · simp [EventFrame.coordinate]
    · exact length_word_lt _ (by norm_num)
    · exact length_word_lt _ (by norm_num)
    · exact length_word_lt _ (by norm_num)
    · exact he

end L2State
