import L2State.Geth.Rawdb
import L2State.Ovm.StrictJson

/-!
# L2State — the lines of a witness file

`decodeOVMWitness` of `ovm_input.go`: a line is a JSON object that names an address or an
allowance, read in one pass over its tokens. `decodeOVMWitnessReference` is the decoder
in two passes that it replaced: a walk over the names, and then the typed decoding of
`strictio.DecodeJSON`, which matches names without regard to case.

The tokens of a line, the text behind the escapes of a string literal and the parser of
an address come from outside.

* `decodeOVMWitness_eq_ok_iff`, `decodeOVMWitnessReference_eq_ok_iff` — **both passes
  accept the same objects**: known names, no name twice, every value of the type of its
  field.
-/

namespace L2State

open Lib

/-! ## The fields -/

/-- `ovmWitnessRecord`. -/
structure WitnessRecord where
  kind    : Bytes
  address : Option Address
  owner   : Option Address
  spender : Option Address
deriving DecidableEq

def WitnessRecord.empty : WitnessRecord := ⟨[], none, none, none⟩

inductive WitnessField
  | kind
  | address
  | owner
  | spender
deriving DecidableEq

namespace WitnessField

def name : WitnessField → Bytes
  | .kind => asciiBytes "type"
  | .address => asciiBytes "address"
  | .owner => asciiBytes "owner"
  | .spender => asciiBytes "spender"

/-- The bit of a field in `seen`. -/
def bit : WitnessField → UInt8
  | .kind => 1
  | .address => 2
  | .owner => 4
  | .spender => 8

/-- The `switch` over the names. -/
def ofName (name : Bytes) : Option WitnessField :=
  if name = asciiBytes "type" then some .kind
  else if name = asciiBytes "address" then some .address
  else if name = asciiBytes "owner" then some .owner
  else if name = asciiBytes "spender" then some .spender
  else none

/-- The field that the typed decoding takes: the one with this name, or else one whose
name differs in case only. -/
def matching (fold : Bytes → Bytes) (name : Bytes) : Option WitnessField :=
  (ofName name).or ([.kind, .address, .owner, .spender].find? fun f => fold f.name = fold name)

end WitnessField

/-- The address fields of a record. -/
def WitnessRecord.setAddress (record : WitnessRecord) (a : Option Address) :
    WitnessField → WitnessRecord
  | .kind => record
  | .address => { record with address := a }
  | .owner => { record with owner := a }
  | .spender => { record with spender := a }

/-! ## The decoders -/

section Decoders

variable (r : JsonReader Err) (parse : Bytes → Except Err Address)

/-- A value into a `*string`; `none` is `null`. -/
def decodeString : List JsonToken → Except Err (Option Bytes)
  | [.null] => .ok none
  | [.text raw] => .ok (some (r.unquote raw))
  | _ => .error jsonTypeErr

/-- A value into a `*common.Address`, which is read from the literal as it is written. -/
def decodeAddress : List JsonToken → Except Err (Option Address)
  | [.null] => .ok none
  | [.text raw] => do
    let a ← parse raw
    return some a
  | _ => .error jsonTypeErr

/-- A name in `decodeOVMWitness`. -/
def witnessEnter (st : WitnessRecord × UInt8) (name : Bytes) :
    Except Err (WitnessRecord × UInt8 × WitnessField) :=
  match WitnessField.ofName name with
  | none => .error (.msg "unknown OVM witness field %q" [.bytes name])
  | some f =>
    if st.2 &&& f.bit ≠ 0 then .error (.msg "duplicate OVM witness field %q" [.bytes name])
    else .ok (st.1, st.2 ||| f.bit, f)

/-- A value in `decodeOVMWitness`. -/
def witnessLeave : WitnessRecord × UInt8 × WitnessField → List JsonToken →
    Except Err (WitnessRecord × UInt8)
  | (record, seen, .kind), v => do
    match ← decodeString r v with
    | none => .error (.msg "null OVM witness field" [])
    | some kind => return ({ record with kind := kind }, seen)
  | (record, seen, f), v => do
    match ← decodeAddress parse v with
    | none => .error (.msg "null OVM witness field" [])
    | some a => return (record.setAddress (some a) f, seen)

/-- `decodeOVMWitness`. -/
def decodeOVMWitness (ts : List JsonToken) : Except Err WitnessRecord :=
  match JsonDecoder.token r (.ofText ts) with
  | .ok (.delim .beginObject, d) => do
    let (st, d) ← d.walk r (.msg "invalid witness field" []) witnessEnter (witnessLeave r parse)
      d.rest.length (.empty, 0)
    match d.token r with
    | .ok (.delim .endObject, d) =>
      match d.token r with
      | .error err =>
        if err = r.eof then .ok st.1 else .error (.join (.msg "trailing OVM witness data" []) err)
      | .ok _ => .error (.msg "trailing OVM witness data" [])
    | .ok _ => .error (.msg "invalid OVM witness object ending" [])
    | .error err => .error (.join (.msg "invalid OVM witness object ending" []) err)
  | _ => .error (.msg "OVM witness must be a JSON object" [])

/-- A name in the first pass of the reference. -/
def referenceEnter (seen : List Bytes) (name : Bytes) : Except Err (List Bytes) :=
  if name ∈ seen then .error (.msg "duplicate OVM witness field %q" [.bytes name])
  else if (WitnessField.ofName name).isNone then .error (.msg "unknown OVM witness field %q"
    [.bytes name])
  else .ok (name :: seen)

/-- A value in the first pass of the reference. -/
def referenceLeave (seen : List Bytes) (v : List JsonToken) : Except Err (List Bytes) :=
  if v = [.null] then .error (.msg "null OVM witness field" []) else .ok seen

variable (fold : Bytes → Bytes)

/-- A name in the typed decoding, which refuses unknown fields. -/
def typedEnter (record : WitnessRecord) (name : Bytes) :
    Except Err (WitnessRecord × WitnessField) :=
  match WitnessField.matching fold name with
  | none => .error (.msg "json: unknown field %q" [.bytes name])
  | some f => .ok (record, f)

/-- A value in the typed decoding: `null` leaves a string as it is and clears a
pointer. -/
def typedLeave : WitnessRecord × WitnessField → List JsonToken → Except Err WitnessRecord
  | (record, .kind), v => do
    match ← decodeString r v with
    | none => return record
    | some kind => return { record with kind := kind }
  | (record, f), v => do
    let a ← decodeAddress parse v
    return record.setAddress a f

/-- The typed decoding of a value into an `ovmWitnessRecord`. -/
def unmarshalWitness (v : List JsonToken) : Except Err WitnessRecord :=
  match JsonDecoder.token r (.ofText v) with
  | .ok (.delim .beginObject, d) => do
    let (record, _) ← d.walk r r.malformed (typedEnter fold)
        (typedLeave r parse) d.rest.length .empty
    return record
  | _ => if v = [.null] then .ok .empty else .error jsonTypeErr

/-- `decodeOVMWitnessReference`. -/
def decodeOVMWitnessReference (ts : List JsonToken) : Except Err WitnessRecord :=
  match JsonDecoder.token r (.ofText ts) with
  | .ok (.delim .beginObject, d) => do
    let _ ← d.walk r (.msg "invalid witness field" []) referenceEnter referenceLeave
        d.rest.length []
    decodeJSON r "OVM witness record" (unmarshalWitness r parse fold) ts
  | _ => .error (.msg "OVM witness must be a JSON object" [])

end Decoders

/-! ## What is accepted -/

section Spec

variable (r : JsonReader Err) (parse : Bytes → Except Err Address)

/-- A member of the type of its field, and the record with it. -/
def assignField (f : WitnessField) (v : List JsonToken) (record : WitnessRecord) :
    Option WitnessRecord :=
  match f, v with
  | .kind, [.text raw] => some { record with kind := r.unquote raw }
  | .kind, _ => none
  | f, [.text raw] => (parse raw).toOption.map fun a => record.setAddress (some a) f
  | _, _ => none

/-- The record of members with known names. -/
def assignMember (record : WitnessRecord) (m : JsonMember) : Option WitnessRecord := do
  let f ← WitnessField.ofName (r.unquote m.1)
  assignField r parse f m.2 record

variable {r parse}

variable {f : WitnessField} {v : List JsonToken} {record record' : WitnessRecord} {seen : UInt8}
  {m : JsonMember} {members : List JsonMember}

theorem WitnessField.ofName_eq_some {name : Bytes} :
    WitnessField.ofName name = some f ↔ name = f.name := by
  constructor
  · intro h
    unfold WitnessField.ofName at h
    split_ifs at h with hKind hAddress hOwner hSpender <;> cases h <;> assumption
  · rintro rfl
    cases f <;> decide +kernel

theorem WitnessField.name_injective {f' : WitnessField} (h : f.name = f'.name) : f = f' := by
  have hName := WitnessField.ofName_eq_some.mpr h
  rw [WitnessField.ofName_eq_some.mpr rfl] at hName
  exact Option.some.inj hName

variable (r parse) in
/-- A value is `null`, a literal, or of no type that a field has. -/
theorem value_cases (v : List JsonToken) :
    v = [.null] ∨ (∃ raw, v = [.text raw]) ∨
      decodeString r v = .error jsonTypeErr ∧ decodeAddress parse v = .error jsonTypeErr ∧
        ∀ f record, assignField r parse f v record = none := by
  by_cases hNull : v = [.null]
  · exact .inl hNull
  by_cases hText : ∃ raw, v = [.text raw]
  · exact .inr (.inl hText)
  have hOther : ∀ raw, v ≠ [.text raw] := fun raw hEq => hText ⟨raw, hEq⟩
  refine .inr (.inr ⟨?_, ?_, fun f record => ?_⟩)
  · unfold decodeString
    split <;> first | contradiction | exact absurd rfl (hOther _) | rfl
  · unfold decodeAddress
    split <;> first | contradiction | exact absurd rfl (hOther _) | rfl
  · unfold assignField
    split <;> first | exact absurd rfl (hOther _) | rfl

/-- A value that is not `null` and of the type of its field. -/
theorem assignField_eq_some :
    assignField r parse f v record = some record' ↔
      ∃ raw, v = [.text raw] ∧
        (f = .kind ∧ record' = { record with kind := r.unquote raw } ∨
          f ≠ .kind ∧ ∃ a, parse raw = .ok a ∧ record' = record.setAddress (some a) f) := by
  constructor
  · intro h
    unfold assignField at h
    split at h
    · cases h
      exact ⟨_, rfl, .inl ⟨rfl, rfl⟩⟩
    · cases h
    · next f raw hKind =>
      obtain ⟨a, hParse, rfl⟩ := Option.map_eq_some_iff.mp h
      refine ⟨raw, rfl, .inr ⟨fun hEq => hKind hEq, a, ?_, rfl⟩⟩
      cases hRead : parse raw with
      | ok b => rw [hRead] at hParse; rw [Option.some.inj hParse]
      | error e => rw [hRead] at hParse; cases hParse
    · cases h
  · rintro ⟨raw, rfl, ⟨rfl, rfl⟩ | ⟨hKind, a, hParse, rfl⟩⟩
    · rfl
    · cases f with
      | kind => exact absurd rfl hKind
      | address | owner | spender => rw [assignField, hParse]; rfl; exact hKind

/-! ## The single pass -/

/-- A value in the single pass. -/
theorem witnessLeave_eq_ok {seen' : UInt8} :
    witnessLeave r parse (record, seen, f) v = .ok (record', seen') ↔
      assignField r parse f v record = some record' ∧ seen' = seen := by
  rcases value_cases r parse v with rfl | ⟨raw, rfl⟩ | ⟨hString, hAddress, hAssign⟩
  · cases f <;> simp [witnessLeave, decodeString, decodeAddress, assignField]
  · cases f <;> cases hParse : parse raw <;>
      simp [witnessLeave, decodeString, decodeAddress, assignField, Except.toOption,
        hParse, eq_comm]
  · cases f <;> simp [witnessLeave, hString, hAddress, hAssign]

theorem witnessRound_eq_ok {seen' : UInt8} :
    memberRound r witnessEnter (witnessLeave r parse) (record, seen) m = .ok (record', seen') ↔
      ∃ f, WitnessField.ofName (r.unquote m.1) = some f ∧ seen &&& f.bit = 0 ∧
        assignField r parse f m.2 record = some record' ∧ seen' = seen ||| f.bit := by
  rw [memberRound, witnessEnter]
  cases hName : WitnessField.ofName (r.unquote m.1) with
  | none => simp
  | some f =>
    by_cases hSeen : seen &&& f.bit = 0
    · simp [hSeen, witnessLeave_eq_ok]
    · simp [hSeen]

/-- The fields whose bit is set. -/
def Marks (seen : UInt8) (done : List Bytes) : Prop := ∀ f :
    WitnessField, seen &&& f.bit = 0 ↔ f.name ∉ done

theorem marks_zero : Marks 0 [] := by
  intro f
  cases f <;> decide

theorem Marks.set {done : List Bytes} (h : Marks seen done) (f : WitnessField) :
    Marks (seen ||| f.bit) (f.name :: done) := by
  intro f'
  have hOr : (seen ||| f.bit) &&& f'.bit = 0 ↔ seen &&& f'.bit = 0 ∧ f.bit &&& f'.bit = 0 := by
    have hDistrib : (seen ||| f.bit) &&& f'.bit = (seen &&& f'.bit) ||| (f.bit &&& f'.bit) := by
      apply UInt8.toBitVec_inj.mp
      simp only [UInt8.toBitVec_and, UInt8.toBitVec_or]
      ext i
      simp [Bool.and_or_distrib_right]
    rw [hDistrib, UInt8.or_eq_zero_iff]
  have hBits : f.bit &&& f'.bit = 0 ↔ f' ≠ f := by cases f <;> cases f' <;> decide
  rw [hOr, hBits, h f', List.mem_cons, not_or]
  constructor
  · rintro ⟨hOld, hNew⟩
    exact ⟨fun hEq => hNew (WitnessField.name_injective hEq), hOld⟩
  · rintro ⟨hNew, hOld⟩
    exact ⟨hOld, fun hEq => hNew (congrArg _ hEq)⟩

theorem assignMember_eq_some :
    assignMember r parse record m = some record' ↔
      ∃ f, WitnessField.ofName (r.unquote m.1) = some f ∧
        assignField r parse f m.2 record = some record' := by
  rw [assignMember, Option.bind_eq_bind, Option.bind_eq_some_iff]

theorem foldl_assign_cons :
    (m :: members).foldlM (assignMember r parse) record = some record' ↔
      ∃ mid, assignMember r parse record m = some mid ∧
        members.foldlM (assignMember r parse) mid = some record' := by
  rw [List.foldlM_cons, Option.bind_eq_bind, Option.bind_eq_some_iff]

/-- **The single pass** over members: known names, none twice, and every value read. -/
theorem foldl_witnessRound {done : List Bytes} (hMarks : Marks seen done) :
    (∃ seen', members.foldlM (memberRound r witnessEnter (witnessLeave r parse)) (record, seen) =
      .ok (record', seen')) ↔
      (memberNames r members).Nodup ∧ (∀ name ∈ memberNames r members, name ∉ done) ∧
        members.foldlM (assignMember r parse) record = some record' := by
  induction members generalizing record seen done with
  | nil => simp [memberNames]
  | cons m members ih =>
    constructor
    · rintro ⟨seen', hFold⟩
      obtain ⟨⟨mid, seen₁⟩, hRound, hRest⟩ := foldlM_cons_eq_ok.mp hFold
      obtain ⟨f, hName, hBit, hAssign, rfl⟩ := witnessRound_eq_ok.mp hRound
      obtain ⟨hNodup, hLater, hTail⟩ := (ih (hMarks.set f)).mp ⟨seen', hRest⟩
      rw [← WitnessField.ofName_eq_some.mp hName] at hLater
      have hNew : r.unquote m.1 ∉ done := by
        rw [WitnessField.ofName_eq_some.mp hName]
        exact (hMarks f).mp hBit
      obtain ⟨hNodup, hFresh⟩ := fresh_memberNames_cons.mpr ⟨hNew, hNodup, hLater⟩
      exact ⟨hNodup, hFresh, foldl_assign_cons.mpr
        ⟨mid, assignMember_eq_some.mpr ⟨f, hName, hAssign⟩, hTail⟩⟩
    · rintro ⟨hNodup, hFresh, hFold⟩
      obtain ⟨mid, hMember, hTail⟩ := foldl_assign_cons.mp hFold
      obtain ⟨f, hName, hAssign⟩ := assignMember_eq_some.mp hMember
      obtain ⟨hNew, hNodup, hLater⟩ := fresh_memberNames_cons.mp ⟨hNodup, hFresh⟩
      rw [WitnessField.ofName_eq_some.mp hName] at hNew hLater
      obtain ⟨seen', hRest⟩ := (ih (hMarks.set f)).mpr ⟨hNodup, hLater, hTail⟩
      exact ⟨seen', foldlM_cons_eq_ok.mpr ⟨(mid, seen ||| f.bit),
        witnessRound_eq_ok.mpr ⟨f, hName, (hMarks f).mpr hNew, hAssign, rfl⟩, hRest⟩⟩

variable (r parse) in
/-- **What both decoders accept**: an object with known names, none twice, whose values
are of the types of their fields. -/
def AcceptedWitness (ts : List JsonToken) (record : WitnessRecord) : Prop :=
  ∃ members, ts = objectText members ∧ (memberNames r members).Nodup ∧
    members.foldlM (assignMember r parse) .empty = some record

/-- A value that was read is a literal. -/
theorem values_of_assign (hFold : members.foldlM (assignMember r parse) record = some record') :
    ∀ m ∈ members, WitnessField.ofName (r.unquote m.1) ≠ none ∧ ∃ raw, m.2 = [.text raw] := by
  induction members generalizing record with
  | nil => simp
  | cons m members ih =>
    obtain ⟨mid, hMember, hTail⟩ := foldl_assign_cons.mp hFold
    obtain ⟨f, hName, hAssign⟩ := assignMember_eq_some.mp hMember
    obtain ⟨raw, hValue, -⟩ := assignField_eq_some.mp hAssign
    intro m' hm
    rcases List.mem_cons.mp hm with rfl | hm
    · exact ⟨by rw [hName]; simp, raw, hValue⟩
    · exact ih hTail m' hm

/-- The reader accepts a line exactly when it is well formed. -/
theorem decodeOVMWitness_eq_ok_iff {ts : List JsonToken} :
    decodeOVMWitness r parse ts = .ok record ↔ AcceptedWitness r parse ts record := by
  constructor
  · intro h
    unfold decodeOVMWitness at h
    split at h
    next d hOpen =>
      obtain ⟨body, rfl, rfl⟩ := token_beginObject.mp hOpen
      obtain ⟨⟨st, d⟩, hWalk, h⟩ := bind_eq_ok.mp h
      simp only at h
      split at h
      next d' hClose =>
        obtain ⟨members, rest, hText, hValues, hFold, rfl⟩ := walk_closed_iff.mp ⟨d, hWalk, hClose⟩
        split at h
        next err hTrailing =>
          split at h
          next hEof =>
            cases h
            rw [hEof] at hTrailing
            obtain rfl := token_eof.mp hTrailing
            obtain ⟨hNodup, -, hAssign⟩ := (foldl_witnessRound marks_zero).mp ⟨st.2, hFold⟩
            exact ⟨members, congrArg (JsonToken.beginObject :: ·) hText, hNodup, hAssign⟩
          next => cases h
        next => cases h
      next => cases h
      next => cases h
    next => cases h
  · rintro ⟨members, rfl, hNodup, hAssign⟩
    have hValues : ∀ m ∈ members, JsonValue r.limit m.2 := by
      intro m hm
      obtain ⟨-, raw, hValue⟩ := values_of_assign hAssign m hm
      rw [hValue]
      exact .scalar rfl
    obtain ⟨seen, hFold⟩ := (foldl_witnessRound marks_zero).mpr ⟨hNodup, by simp, hAssign⟩
    obtain ⟨d, hWalk, hClose⟩ := walk_closed_iff.mpr ⟨members, [], rfl, hValues, hFold, rfl⟩
    have hEof : JsonDecoder.token r (.ofText []) = .error r.eof := token_eof.mpr rfl
    unfold decodeOVMWitness
    rw [token_objectText]
    show (JsonDecoder.walk _ _ _ _ _ _ _ >>= _) = _
    rw [hWalk]
    simp only [ok_bind, hClose, hEof, if_true]

/-! ## The two passes -/

theorem referenceRound_eq_ok {seen seen' : List Bytes} :
    memberRound r referenceEnter referenceLeave seen m = .ok seen' ↔
      r.unquote m.1 ∉ seen ∧ WitnessField.ofName (r.unquote m.1) ≠ none ∧ m.2 ≠ [.null] ∧
        seen' = r.unquote m.1 :: seen := by
  rw [memberRound, referenceEnter]
  by_cases hSeen : r.unquote m.1 ∈ seen
  · simp [hSeen]
  · cases hName : WitnessField.ofName (r.unquote m.1) with
    | none => simp [hSeen]
    | some f =>
      by_cases hNull : m.2 = [.null]
      · simp [hSeen, referenceLeave, hNull]
      · simp [hSeen, referenceLeave, hNull, eq_comm]

/-- The first pass. -/
theorem foldl_referenceRound {seen : List Bytes} :
    (∃ seen', members.foldlM (memberRound r referenceEnter referenceLeave) seen = .ok seen') ↔
      (memberNames r members).Nodup ∧ (∀ name ∈ memberNames r members, name ∉ seen) ∧
        ∀ m ∈ members, WitnessField.ofName (r.unquote m.1) ≠ none ∧ m.2 ≠ [.null] := by
  induction members generalizing seen with
  | nil => simp [memberNames]
  | cons m members ih =>
    constructor
    · rintro ⟨seen', hFold⟩
      obtain ⟨mid, hRound, hRest⟩ := foldlM_cons_eq_ok.mp hFold
      obtain ⟨hNew, hName, hNull, rfl⟩ := referenceRound_eq_ok.mp hRound
      obtain ⟨hNodup, hLater, hAll⟩ := ih.mp ⟨seen', hRest⟩
      obtain ⟨hNodup, hFresh⟩ := fresh_memberNames_cons.mpr ⟨hNew, hNodup, hLater⟩
      exact ⟨hNodup, hFresh, List.forall_mem_cons.mpr ⟨⟨hName, hNull⟩, hAll⟩⟩
    · rintro ⟨hNodup, hFresh, hAll⟩
      obtain ⟨⟨hName, hNull⟩, hAll⟩ := List.forall_mem_cons.mp hAll
      obtain ⟨hNew, hNodup, hLater⟩ := fresh_memberNames_cons.mp ⟨hNodup, hFresh⟩
      obtain ⟨seen', hRest⟩ := ih.mpr ⟨hNodup, hLater, hAll⟩
      exact ⟨seen', foldlM_cons_eq_ok.mpr
        ⟨_, referenceRound_eq_ok.mpr ⟨hNew, hName, hNull, rfl⟩, hRest⟩⟩

variable {fold : Bytes → Bytes}

/-- The typed decoding of a value that is not `null`. -/
theorem typedLeave_eq_ok (hNull : v ≠ [.null]) :
    typedLeave r parse (record, f) v = .ok record' ↔
      assignField r parse f v record = some record' := by
  rcases value_cases r parse v with rfl | ⟨raw, rfl⟩ | ⟨hString, hAddress, hAssign⟩
  · exact absurd rfl hNull
  · cases f <;> cases hParse : parse raw <;>
      simp [typedLeave, decodeString, decodeAddress, assignField, Except.toOption, hParse]
  · cases f <;> simp [typedLeave, hString, hAddress, hAssign]

variable {fold : Bytes → Bytes}

/-- **The typed decoding of a known name** prefers the field with exactly this name. -/
theorem typedRound_eq_ok (hName : WitnessField.ofName (r.unquote m.1) ≠ none)
    (hNull : m.2 ≠ [.null]) :
    memberRound r (typedEnter fold) (typedLeave r parse) record m = .ok record' ↔
      assignMember r parse record m = some record' := by
  obtain ⟨f, hField⟩ := Option.ne_none_iff_exists'.mp hName
  have hEnter : typedEnter fold record (r.unquote m.1) = .ok (record, f) := by
    rw [typedEnter, WitnessField.matching, hField]
    rfl
  rw [memberRound, hEnter, ok_bind, typedLeave_eq_ok hNull, assignMember, hField]
  rfl

/-- The second pass over members that the first has let through. -/
theorem foldl_typedRound
    (hKnown : ∀ m ∈ members, WitnessField.ofName (r.unquote m.1) ≠ none ∧ m.2 ≠ [.null]) :
    members.foldlM (memberRound r (typedEnter fold) (typedLeave r parse)) record = .ok record' ↔
      members.foldlM (assignMember r parse) record = some record' := by
  induction members generalizing record with
  | nil => simp
  | cons m members ih =>
    obtain ⟨hName, hNull⟩ := hKnown m List.mem_cons_self
    rw [foldlM_cons_eq_ok, foldl_assign_cons]
    refine exists_congr fun mid => and_congr (typedRound_eq_ok hName hNull) ?_
    exact ih fun m' hm => hKnown m' (List.mem_cons_of_mem _ hm)

/-- The typed decoding of an object. -/
theorem unmarshalWitness_object (hValues : ∀ m ∈ members, JsonValue r.limit m.2) :
    unmarshalWitness r parse fold (objectText members) =
      members.foldlM (memberRound r (typedEnter fold) (typedLeave r parse)) .empty := by
  unfold unmarshalWitness
  rw [token_objectText]
  show (JsonDecoder.walk _ _ _ _ _ _ _ >>= _) = _
  rw [walk_object (.inl rfl) hValues (length_members_le members [])]
  cases members.foldlM (memberRound r (typedEnter fold) (typedLeave r parse))
    WitnessRecord.empty with
  | error e => rfl
  | ok record => rfl

/-- The reference reader accepts the same lines. -/
theorem decodeOVMWitnessReference_eq_ok_iff {ts : List JsonToken} :
    decodeOVMWitnessReference r parse fold ts = .ok record ↔ AcceptedWitness r parse ts record := by
  constructor
  · intro h
    unfold decodeOVMWitnessReference at h
    split at h
    next d hOpen =>
      obtain ⟨body, rfl, rfl⟩ := token_beginObject.mp hOpen
      obtain ⟨⟨seen, d⟩, hWalk, h⟩ := bind_eq_ok.mp h
      obtain ⟨hValue, hRecord⟩ := decodeJSON_eq_ok.mp h
      -- the second pass says that the text is an object, whose members the first has walked
      obtain ⟨members, hText, hValues⟩ := hValue.eq_object
      obtain rfl : body = membersFrom .objectStart members ++ [.endObject] :=
        (List.cons.inj hText).2
      rw [walk_object (.inl rfl) hValues (length_members_le members [])] at hWalk
      obtain ⟨seen', hFold, -⟩ := bind_eq_ok.mp hWalk
      obtain ⟨hNodup, -, hKnown⟩ := foldl_referenceRound.mp ⟨seen', hFold⟩
      rw [hText, unmarshalWitness_object hValues] at hRecord
      exact ⟨members, hText, hNodup, (foldl_typedRound hKnown).mp hRecord⟩
    next => cases h
  · rintro ⟨members, rfl, hNodup, hAssign⟩
    have hLiteral := values_of_assign hAssign
    have hScalar : ∀ depth, ∀ m ∈ members, JsonValue depth m.2 := by
      intro depth m hm
      obtain ⟨-, raw, hValue⟩ := hLiteral m hm
      rw [hValue]
      exact .scalar rfl
    have hKnown : ∀ m ∈ members, WitnessField.ofName (r.unquote m.1) ≠ none ∧ m.2 ≠ [.null] := by
      intro m hm
      obtain ⟨hName, raw, hValue⟩ := hLiteral m hm
      rw [hValue]
      exact ⟨hName, by simp⟩
    have hObject : JsonValue r.limit (objectText members) := by
      obtain ⟨depth, hDepth⟩ := Nat.exists_eq_add_of_le' r.positive
      rw [hDepth]
      exact .object (hScalar depth)
    have hFirst : ∃ seen, members.foldlM (memberRound r referenceEnter referenceLeave) [] =
        .ok seen :=
      foldl_referenceRound.mpr ⟨hNodup, by simp, hKnown⟩
    obtain ⟨seen, hFold⟩ := hFirst
    have hTyped : decodeJSON r "OVM witness record" (unmarshalWitness r parse fold)
        (objectText members) = .ok record := by
      refine decodeJSON_eq_ok.mpr ⟨hObject, ?_⟩
      rw [unmarshalWitness_object (hScalar r.limit)]
      exact (foldl_typedRound hKnown).mpr hAssign
    unfold decodeOVMWitnessReference
    rw [token_objectText]
    show (JsonDecoder.walk _ _ _ _ _ _ _ >>= _) = _
    rw [walk_object (.inl rfl) (hScalar r.limit) (length_members_le members []), hFold]
    exact hTyped

end Spec

end L2State
