import L2State.Ovm.AuditFields

/-!
# L2State — the typed decoding of an audit document

`readOVMAuditSummary` and `OVMAuditEvidence.UnmarshalJSON` of `ovm_audit.go` decode a text
twice: the strict walk of `auditJSONFields`, and then `strictio.DecodeJSON` into the
record, which takes a name that differs in case only and lets a later member overwrite an
earlier one. The fields of a record are paths of names here, and how a scalar is read
comes from outside.

* `AuditSchema.stores`, `storeObject` — the typed decoding, member by member.
* `MemberAt` — a member in a text, by its position and by its names in exact case.
* `storeObject_canonical` — **the fields that the typed decoding makes of a canonical
  text are its members**.
* `memberAt_unique`, `exists_memberAt` — one member for a field, and at least one where
  the field may not be left out.
-/

namespace L2State

open Lib

/-! ## Decoded fields -/

/-- The names from the record to a field. -/
abbrev FieldPath := List Bytes

/-- The fields that are set. -/
abbrev DecodedFields (α : Type) := List (FieldPath × α)

namespace DecodedFields

variable {α : Type}

def get (st : DecodedFields α) (path : FieldPath) : Option α :=
  (st.find? fun e => e.1 = path).map Prod.snd

/-- A field is set. -/
def set (st : DecodedFields α) (path : FieldPath) (a : α) : DecodedFields α := (path, a) :: st

/-- A pointer is set to nil, and what it led to is gone. -/
def clear (st : DecodedFields α) (path : FieldPath) : DecodedFields α :=
  st.filter fun e => ¬ path.isPrefixOf e.1

@[simp] theorem get_nil (path : FieldPath) : get ([] : DecodedFields α) path = none := rfl

theorem get_set (st : DecodedFields α) (path path' : FieldPath) (a : α) :
    (st.set path a).get path' = if path = path' then some a else st.get path' := by
  unfold set get
  rw [List.find?_cons]
  by_cases hPath : path = path'
  · simp [hPath]
  · simp [hPath]

end DecodedFields

/-! ## The typed decoding -/

section Decoding

variable {α : Type} (r : JsonReader Err) (fold : Bytes → Bytes)
  (scalar : FieldPath → List JsonToken → Except Err (Option α))

/-- How a value is decoded into the field at a path. -/
abbrev FieldStore (α : Type) := FieldPath → List JsonToken → DecodedFields α →
    Except Err (DecodedFields α)

/-- A scalar field; a value may leave it as it is. -/
def storeScalar (pointer : Bool) : FieldStore α := fun path v st =>
  if pointer ∧ v = [.null] then .ok (st.clear path)
  else do
    match ← scalar path v with
    | none => return st
    | some a => return st.set path a

/-- A name: the field with exactly this name, or else one whose name differs in case only;
a name without a field is refused. -/
def storeEnter (stores : List (Bytes × FieldStore α)) (st : DecodedFields α) (name : Bytes) :
    Except Err (DecodedFields α × Bytes × FieldStore α) :=
  match (stores.find? fun e => e.1 = name).or (stores.find? fun e => fold e.1 = fold name) with
  | none => .error (.msg "json: unknown field %q" [.bytes name])
  | some e => .ok (st, e)

/-- A value, into the field of its name. -/
def storeLeave (path : FieldPath) : DecodedFields α × Bytes × FieldStore α → List JsonToken →
    Except Err (DecodedFields α)
  | (st, name, store), v => store (path ++ [name]) v st

/-- An object into a record, whose fields keep what they have unless a member names them. -/
def storeObject (stores : List (Bytes × FieldStore α)) : FieldStore α := fun path v st =>
  match JsonDecoder.token r (.ofText v) with
  | .ok (.delim .beginObject, d) => do
    let (st, _) ← d.walk r r.malformed (storeEnter fold stores) (storeLeave path) d.rest.length st
    return st
  | _ => .error jsonTypeErr

/-- A record field. -/
def storeRecord (pointer : Bool) (stores : List (Bytes × FieldStore α)) : FieldStore α :=
  fun path v st =>
  if v = [.null] then .ok (if pointer then st.clear path else st)
  else storeObject r fold stores path v st

/-- The fields of a schema. -/
def AuditSchema.stores : AuditSchema → List (Bytes × FieldStore α)
  | .nil => []
  | .scalar name _ pointer rest => (name, storeScalar scalar pointer) :: rest.stores
  | .record name _ pointer fields rest =>
    (name, storeRecord r fold pointer fields.stores) :: rest.stores

/-- The typed decoding of a value into an empty record. -/
def unmarshalAudit (schema : AuditSchema) (v : List JsonToken) : Except Err (DecodedFields α) :=
  storeRecord r fold false (schema.stores r fold scalar) [] v []

/-- The two passes over an audit document: the strict walk, and the typed decoding. -/
def readAudit (label : String) (schema : AuditSchema) (data : List JsonToken) :
    Except Err (DecodedFields α) := do
  auditJSONFields r schema data
  decodeJSON r label (unmarshalAudit r fold scalar schema) data

end Decoding

/-! ## Members and fields -/

/-- **A member of a text**: at a position in every record on the way, with its names in
exact case. -/
inductive MemberAt (r : JsonReader Err) : List JsonToken → List Nat → FieldPath →
    List JsonToken → Prop
  | here {members : List JsonMember} {i : Nat} {m : JsonMember}
      (values : ∀ m ∈ members, JsonValue r.limit m.2)
      (index : members[i]? = some m) : MemberAt r (objectText members) [i] [r.unquote m.1] m.2
  | inside {members : List JsonMember} {i : Nat} {m : JsonMember} {place : List Nat}
      {path : FieldPath}
      {v : List JsonToken} (values : ∀ m ∈ members, JsonValue r.limit m.2)
        (index : members[i]? = some m)
      (deeper : MemberAt r m.2 place path v) :
      MemberAt r (objectText members) (i :: place) (r.unquote m.1 :: path) v

namespace AuditSchema

/-- A path to a scalar field. -/
def isScalarAt (schema : AuditSchema) : FieldPath → Bool
  | [] => false
  | name :: path =>
    match schema.field name with
    | none => false
    | some (_, none) => path = []
    | some (_, some fields) => fields.isScalarAt path

/-- A path to a scalar field along names that may not be left out. -/
def isRequiredAt (schema : AuditSchema) : FieldPath → Bool
  | [] => false
  | name :: path =>
    match schema.field name with
    | some (false, none) => path = []
    | some (false, some fields) => fields.isRequiredAt path
    | _ => false

def names : AuditSchema → List Bytes
  | .nil => []
  | .scalar name _ _ rest => name :: rest.names
  | .record name _ _ _ rest => name :: rest.names

/-- No record has two fields of one name. -/
def distinct : AuditSchema → Bool
  | .nil => true
  | .scalar name _ _ rest => name ∉ rest.names ∧ rest.distinct
  | .record name _ _ fields rest => name ∉ rest.names ∧ fields.distinct ∧ rest.distinct

end AuditSchema

section Members

variable {r : JsonReader Err} {members : List JsonMember}

variable {ts : List JsonToken} {path : FieldPath} {v : List JsonToken}

theorem MemberAt.path_ne_nil {place : List Nat} (h : MemberAt r ts place path v) : path ≠ [] := by
  cases h <;> nofun

/-- The members of an object, by the first step of their path. -/
theorem memberAt_objectText (hValues : ∀ m ∈ members, JsonValue r.limit m.2) {place : List Nat} :
    MemberAt r (objectText members) place path v ↔
      ∃ i m, members[i]? = some m ∧
        (place = [i] ∧ path = [r.unquote m.1] ∧ v = m.2 ∨
          ∃ place' path', place = i :: place' ∧ path = r.unquote m.1 :: path' ∧
            MemberAt r m.2 place' path' v) := by
  constructor
  · intro h
    generalize hText : objectText members = text at h
    cases h with
    | here hValues' hIndex =>
      obtain rfl := objectText_inj hValues hValues' hText
      exact ⟨_, _, hIndex, .inl ⟨rfl, rfl, rfl⟩⟩
    | inside hValues' hIndex hDeeper =>
      obtain rfl := objectText_inj hValues hValues' hText
      exact ⟨_, _, hIndex, .inr ⟨_, _, rfl, rfl, hDeeper⟩⟩
  · rintro ⟨i, m, hIndex, ⟨rfl, rfl, rfl⟩ | ⟨place', path', rfl, rfl, hDeeper⟩⟩
    · exact .here hValues hIndex
    · exact .inside hValues hIndex hDeeper

/-- A name at one position only. -/
theorem index_unique (hNodup : (memberNames r members).Nodup) {i j : Nat} {m m' : JsonMember}
    (hi : members[i]? = some m) (hj : members[j]? = some m')
    (hName : r.unquote m.1 = r.unquote m'.1) :
    i = j ∧ m = m' := by
  have hi' : (memberNames r members)[i]? = some (r.unquote m.1) := by
    rw [memberNames, List.getElem?_map, hi]
    rfl
  have hj' : (memberNames r members)[j]? = some (r.unquote m.1) := by
    rw [memberNames, List.getElem?_map, hj, hName]
    rfl
  obtain ⟨hBound, -⟩ := List.getElem?_eq_some_iff.mp hi'
  obtain rfl : i = j := (List.getElem?_inj hBound hNodup).mp (hi'.trans hj'.symm)
  exact ⟨rfl, Option.some.inj (hi.symm.trans hj)⟩

/-- **A field comes from one member.** -/
theorem memberAt_unique {schema : AuditSchema} (h : CanonicalText r schema ts)
    {place place' : List Nat} {v' : List JsonToken} (hScalar : schema.isScalarAt path = true)
    (hMember : MemberAt r ts place path v) (hMember' : MemberAt r ts place' path v') :
    place = place' ∧ v = v' := by
  induction h generalizing place place' path with
  | object hValues hNodup _ _ _ _ ih =>
    obtain ⟨i, m, hi, hCase⟩ := (memberAt_objectText hValues).mp hMember
    obtain ⟨j, m', hj, hCase'⟩ := (memberAt_objectText hValues).mp hMember'
    rcases hCase with ⟨rfl, rfl, rfl⟩ | ⟨rest, path, rfl, rfl, hDeeper⟩
    · rcases hCase' with ⟨rfl, hPath, rfl⟩ | ⟨rest', path', rfl, hPath, hDeeper'⟩
      · obtain ⟨rfl, rfl⟩ := index_unique hNodup hi hj (List.cons.inj hPath).1
        exact ⟨rfl, rfl⟩
      · exact absurd (List.cons.inj hPath).2.symm hDeeper'.path_ne_nil
    · rcases hCase' with ⟨rfl, hPath, rfl⟩ | ⟨rest', path', rfl, hPath, hDeeper'⟩
      · exact absurd (List.cons.inj hPath).2 hDeeper.path_ne_nil
      · obtain ⟨hName, rfl⟩ := List.cons.inj hPath
        obtain ⟨rfl, rfl⟩ := index_unique hNodup hi hj hName
        -- a scalar has no members that belong to a field
        rw [AuditSchema.isScalarAt] at hScalar
        split at hScalar
        next => cases hScalar
        next => exact absurd (of_decide_eq_true hScalar) hDeeper.path_ne_nil
        next omitempty fields hField =>
          obtain ⟨rfl, rfl⟩ :=
            ih m (List.mem_of_getElem? hi) omitempty fields hField hScalar hDeeper hDeeper'
          exact ⟨rfl, rfl⟩

/-- **A field that may not be left out has a member.** -/
theorem exists_memberAt {schema : AuditSchema} (h : CanonicalText r schema ts)
    (hRequired : schema.isRequiredAt path = true) : ∃ place v, MemberAt r ts place path v := by
  induction h generalizing path with
  | object hValues _ _ _ hNames _ ih =>
    cases path with
    | nil => cases hRequired
    | cons name path =>
      rw [AuditSchema.isRequiredAt] at hRequired
      split at hRequired
      next hField =>
        obtain rfl : path = [] := by simpa using hRequired
        obtain ⟨m, hm, rfl⟩ := List.mem_map.mp (hNames name none hField)
        obtain ⟨i, hi⟩ := List.mem_iff_getElem?.mp hm
        exact ⟨_, _, .here hValues hi⟩
      next fields hField =>
        obtain ⟨m, hm, rfl⟩ := List.mem_map.mp (hNames name (some fields) hField)
        obtain ⟨i, hi⟩ := List.mem_iff_getElem?.mp hm
        obtain ⟨place, v, hDeeper⟩ := ih m hm false fields hField hRequired
        exact ⟨_, _, .inside hValues hi hDeeper⟩
      next => cases hRequired

end Members

/-! ## The typed decoding of a canonical text -/

section Typed

variable {α : Type} {r : JsonReader Err} {fold : Bytes → Bytes}
  {scalar : FieldPath → List JsonToken → Except Err (Option α)}

variable {omitempty : Bool}

namespace AuditSchema

variable {schema : AuditSchema}

theorem field_eq_none {name : Bytes} (h : name ∉ schema.names) :
    schema.field name = none := by
  induction schema with
  | nil => rfl
  | scalar _ _ _ _ ih | record _ _ _ _ _ _ ih =>
    obtain ⟨hNe, hRest⟩ := not_or.mp (List.mem_cons.not.mp h)
    rw [field, ih hRest, if_neg (Ne.symm hNe)]
    rfl

/-- The field of a name is a field of the schema, and with distinct names the decoder
finds it by its exact name. -/
theorem find_stores (hDistinct : schema.distinct = true) {name : Bytes} {omitempty : Bool}
    {inside : Option AuditSchema} (hField : schema.field name = some (omitempty, inside)) :
    ∃ pointer, (schema.stores r fold scalar).find? (fun e => e.1 = name) = some (name,
      match inside with
      | none => storeScalar scalar pointer
      | some fields => storeRecord r fold pointer (fields.stores r fold scalar)) := by
  induction schema with
  | nil => cases hField
  | scalar n _ pointer rest ih | record n _ pointer _ rest _ ih =>
    have hSplit : n ∉ rest.names ∧ rest.distinct = true := by
      simp only [distinct, decide_eq_true_eq] at hDistinct
      tauto
    rw [stores, List.find?_cons]
    by_cases hName : n = name
    · subst hName
      rw [field, field_eq_none hSplit.1, if_pos rfl, Option.none_or] at hField
      cases hField
      exact ⟨pointer, by simp⟩
    · rw [field, if_neg hName, Option.or_none] at hField
      obtain ⟨pointer', hFind⟩ := ih hSplit.2 hField
      exact ⟨pointer', by simpa [hName] using hFind⟩

theorem distinct_of_field (hDistinct : schema.distinct = true) {name : Bytes} {fields : AuditSchema}
    (hField : schema.field name = some (omitempty, some fields)) :
    fields.distinct = true := by
  induction schema with
  | nil => cases hField
  | scalar n omitempty' pointer rest ih =>
    obtain ⟨-, hRest⟩ : n ∉ rest.names ∧ rest.distinct = true := by simpa [distinct] using hDistinct
    rw [field] at hField
    rcases Option.or_eq_some_iff.mp hField with hInner | ⟨-, hHere⟩
    · exact ih hRest hInner
    · split at hHere <;> cases hHere
  | record n omitempty' pointer fields' rest _ ih =>
    obtain ⟨-, hFields, hRest⟩ : n ∉ rest.names ∧ fields'.distinct = true ∧
        rest.distinct = true := by
      simpa [distinct] using hDistinct
    rw [field] at hField
    rcases Option.or_eq_some_iff.mp hField with hInner | ⟨-, hHere⟩
    · exact ih hRest hInner
    · split at hHere
      · cases hHere
        exact hFields
      · cases hHere

end AuditSchema

variable (r scalar) in
/-- **The fields under a path are the members of a text**, and the other fields are as
before. -/
structure Stored (schema : AuditSchema) (ts : List JsonToken) (path : FieldPath)
    (st st' : DecodedFields α) :
    Prop where
  under   : ∀ q a, st'.get (path ++ q) = some a ↔
    schema.isScalarAt q = true ∧ ∃ place v, MemberAt r ts place q v ∧
      scalar (path ++ q) v = .ok (some a)
  outside : ∀ q, ¬ path <+: q → st'.get q = st.get q

variable (r scalar) in
/-- The fields behind the name of a member are the member and those inside it. -/
def MemberUnder (schema : AuditSchema) (m : JsonMember) (path : FieldPath) (st : DecodedFields α) :
    Prop :=
  ∀ q a, st.get (path ++ r.unquote m.1 :: q) = some a ↔
    schema.isScalarAt (r.unquote m.1 :: q) = true ∧ ∃ v,
      (q = [] ∧ v = m.2 ∨ ∃ place, MemberAt r m.2 place q v) ∧
        scalar (path ++ r.unquote m.1 :: q) v = .ok (some a)

variable (r scalar) in
/-- The same for one member. -/
structure MemberStored (schema : AuditSchema) (m : JsonMember) (path : FieldPath)
    (st st' : DecodedFields α) :
    Prop where
  under   : MemberUnder r scalar schema m path st'
  outside : ∀ q, ¬ path ++ [r.unquote m.1] <+: q → st'.get q = st.get q

variable {schema : AuditSchema} {m : JsonMember} {path : FieldPath} {st st' : DecodedFields α}
  {members : List JsonMember}

/-- A round decodes the value into the field with exactly the name of the member. -/
theorem storeRound_eq (hDistinct : schema.distinct = true) {omitempty : Bool}
    {inside : Option AuditSchema} (hField : schema.field (r.unquote m.1) = some (omitempty, inside))
    (path : FieldPath) (st : DecodedFields α) :
    ∃ pointer, memberRound r (storeEnter fold (schema.stores r fold scalar))
      (storeLeave path) st m =
      (match inside with
      | none => storeScalar scalar pointer
      | some fields =>
        storeRecord r fold pointer (fields.stores r fold scalar))
          (path ++ [r.unquote m.1]) m.2 st := by
  obtain ⟨pointer, hFind⟩ := @AuditSchema.find_stores α r fold scalar schema hDistinct _ _ _ hField
  refine ⟨pointer, ?_⟩
  rw [memberRound, storeEnter, hFind]
  rfl

theorem append_cons_eq (path q : FieldPath) (name : Bytes) :
    path ++ name :: q = path ++ [name] ++ q := by
  rw [List.append_assoc, List.singleton_append]

/-- A member of a scalar field. -/
theorem memberStored_scalar (hDistinct : schema.distinct = true)
    (hField : schema.field (r.unquote m.1) = some (omitempty, none)) (hNull : m.2 ≠ [.null])
    (hRound : memberRound r (storeEnter fold (schema.stores r fold scalar)) (storeLeave path) st m
      = .ok st') (hFresh : ∀ q, st.get (path ++ r.unquote m.1 :: q) = none) :
    MemberStored r scalar schema m path st st' := by
  obtain ⟨pointer, hEq⟩ := @storeRound_eq α r fold scalar schema m hDistinct _ _ hField path st
  rw [hEq] at hRound
  simp only [storeScalar, hNull, and_false, if_false] at hRound
  obtain ⟨x, hScalar, hRound⟩ := bind_eq_ok.mp hRound
  -- what the schema and the text say about a path behind the name
  have hSource : ∀ q a, (schema.isScalarAt (r.unquote m.1 :: q) = true ∧ ∃ v,
      (q = [] ∧ v = m.2 ∨ ∃ place, MemberAt r m.2 place q v) ∧
        scalar (path ++ r.unquote m.1 :: q) v = .ok (some a)) ↔ q = [] ∧ x = some a := by
    intro q a
    rw [AuditSchema.isScalarAt, hField]
    constructor
    · rintro ⟨hEnd, v, hMember, hValue⟩
      obtain rfl : q = [] := of_decide_eq_true hEnd
      rcases hMember with ⟨-, rfl⟩ | ⟨place, hMember⟩
      · rw [hScalar] at hValue
        exact ⟨rfl, Except.ok.inj hValue⟩
      · exact absurd rfl hMember.path_ne_nil
    · rintro ⟨rfl, rfl⟩
      exact ⟨decide_eq_true rfl, m.2, .inl ⟨rfl, rfl⟩, hScalar⟩
  cases x with
  | none =>
    cases hRound
    refine ⟨fun q a => ?_, fun q _ => rfl⟩
    rw [hSource, hFresh]
    simp
  | some b =>
    cases hRound
    refine ⟨fun q a => ?_, fun q hq => ?_⟩
    · rw [hSource, DecodedFields.get_set, hFresh]
      by_cases hEnd : q = []
      · simp [hEnd]
      · simp [hEnd]
    · rw [DecodedFields.get_set, if_neg]
      rintro rfl
      exact hq List.prefix_rfl

/-- A member of a record field. -/
theorem memberStored_record {fields : AuditSchema}
    (hField : schema.field (r.unquote m.1) = some (omitempty, some fields))
    (h : Stored r scalar fields m.2 (path ++ [r.unquote m.1]) st st') :
    MemberStored r scalar schema m path st st' := by
  refine ⟨fun q a => ?_, h.outside⟩
  rw [append_cons_eq, h.under, AuditSchema.isScalarAt, hField]
  refine and_congr_right fun hScalar => ?_
  constructor
  · rintro ⟨place, v, hMember, hValue⟩
    exact ⟨v, .inr ⟨place, hMember⟩, hValue⟩
  · rintro ⟨v, ⟨rfl, -⟩ | ⟨place, hMember⟩, hValue⟩
    · cases hScalar
    · exact ⟨place, v, hMember, hValue⟩

theorem prefix_append_cons {q : FieldPath} {name name' : Bytes} :
    path ++ [name] <+: path ++ name' :: q ↔ name = name' := by
  rw [List.prefix_append_right_inj, List.cons_prefix_cons]
  simp

/-- **The rounds over members with distinct names.** -/
theorem foldl_storeRound (hNodup : (memberNames r members).Nodup)
    (hRound : ∀ m ∈ members, ∀ st st',
      memberRound r (storeEnter fold (schema.stores r fold scalar)) (storeLeave path) st m =
      .ok st' → (∀ q, st.get (path ++ r.unquote m.1 :: q) = none) →
      MemberStored r scalar schema m path st st')
    (hFold : members.foldlM (memberRound r (storeEnter fold (schema.stores r fold scalar))
      (storeLeave path)) st = .ok st')
    (hFresh : ∀ m ∈ members, ∀ q, st.get (path ++ r.unquote m.1 :: q) = none) :
    (∀ m ∈ members, MemberUnder r scalar schema m path st') ∧
      ∀ q, (∀ m ∈ members, ¬ path ++ [r.unquote m.1] <+: q) → st'.get q = st.get q := by
  induction members generalizing st with
  | nil =>
    cases hFold
    exact ⟨nofun, fun q _ => rfl⟩
  | cons m members ih =>
    obtain ⟨hNew, hNodup⟩ := List.nodup_cons.mp hNodup
    have hOther : ∀ m' ∈ members, r.unquote m.1 ≠ r.unquote m'.1 := fun m' hm hEq =>
      hNew (List.mem_map.mpr ⟨m', hm, hEq.symm⟩)
    obtain ⟨mid, hFirst, hRest⟩ := foldlM_cons_eq_ok.mp hFold
    have hStored := hRound m List.mem_cons_self st mid hFirst (hFresh m List.mem_cons_self)
    have hStill : ∀ m' ∈ members, ∀ q, mid.get (path ++ r.unquote m'.1 :: q) = none := by
      intro m' hm q
      rw [hStored.outside _ fun hPrefix => hOther m' hm (prefix_append_cons.mp hPrefix)]
      exact hFresh m' (List.mem_cons_of_mem _ hm) q
    obtain ⟨hUnder, hOutside⟩ :=
      ih hNodup (fun m' hm => hRound m' (List.mem_cons_of_mem _ hm)) hRest hStill
    refine ⟨fun m' hm => ?_, fun q hq => ?_⟩
    · rcases List.mem_cons.mp hm with rfl | hm
      · intro q a
        rw [hOutside _ fun m'' hm hPrefix => hOther m'' hm (prefix_append_cons.mp hPrefix).symm]
        exact hStored.under q a
      · exact hUnder m' hm
    · rw [hOutside q fun m' hm => hq m' (List.mem_cons_of_mem _ hm)]
      exact hStored.outside q (hq m List.mem_cons_self)

/-- On an object the typed decoding is a fold over its members. -/
theorem storeObject_objectText {stores : List (Bytes × FieldStore α)}
    (hValues : ∀ m ∈ members, JsonValue r.limit m.2) (path : FieldPath) (st : DecodedFields α) :
    storeObject r fold stores path (objectText members) st =
      members.foldlM (memberRound r (storeEnter fold stores) (storeLeave path)) st := by
  unfold storeObject
  rw [token_objectText]
  show (JsonDecoder.walk _ _ _ _ _ _ _ >>= _) = _
  rw [walk_object (.inl rfl) hValues (length_members_le members [])]
  cases members.foldlM (memberRound r (storeEnter fold stores) (storeLeave path)) st with
  | error e => rfl
  | ok st' => rfl

/-- The members of an object behind a name. -/
theorem memberAt_name (hValues : ∀ m ∈ members, JsonValue r.limit m.2)
    (hNodup : (memberNames r members).Nodup) (hm : m ∈ members) {q : FieldPath}
    {v : List JsonToken} :
    (∃ place, MemberAt r (objectText members) place (r.unquote m.1 :: q) v) ↔
      q = [] ∧ v = m.2 ∨ ∃ place, MemberAt r m.2 place q v := by
  obtain ⟨i, hi⟩ := List.mem_iff_getElem?.mp hm
  constructor
  · rintro ⟨place, hMember⟩
    obtain ⟨j, m', hj, ⟨-, hPath, rfl⟩ | ⟨place', path', -, hPath, hDeeper⟩⟩ :=
      (memberAt_objectText hValues).mp hMember
    · obtain ⟨hName, rfl⟩ := List.cons.inj hPath
      obtain ⟨-, rfl⟩ := index_unique hNodup hi hj hName
      exact .inl ⟨rfl, rfl⟩
    · obtain ⟨hName, rfl⟩ := List.cons.inj hPath
      obtain ⟨-, rfl⟩ := index_unique hNodup hi hj hName
      exact .inr ⟨place', hDeeper⟩
  · rintro (⟨rfl, rfl⟩ | ⟨place, hDeeper⟩)
    · exact ⟨_, .here hValues hi⟩
    · exact ⟨_, .inside hValues hi hDeeper⟩

/-- **The fields that the typed decoding makes of a canonical text are its members.** -/
theorem storeObject_canonical {ts : List JsonToken} (h : CanonicalText r schema ts)
    (hDistinct : schema.distinct = true)
    (hStore : storeObject r fold (schema.stores r fold scalar) path ts st = .ok st')
    (hFresh : ∀ q, st.get (path ++ q) = none) : Stored r scalar schema ts path st st' := by
  induction h generalizing path st st' with
  | @object schema members hValues hNodup hKnown hPresent _ _ ih =>
    rw [storeObject_objectText hValues] at hStore
    have hRound : ∀ m ∈ members, ∀ st st',
        memberRound r (storeEnter fold (schema.stores r fold scalar)) (storeLeave path) st m =
          .ok st' → (∀ q, st.get (path ++ r.unquote m.1 :: q) = none) →
            MemberStored r scalar schema m path st st' := by
      intro m hm st st' hRound hFresh
      obtain ⟨⟨omitempty, inside⟩, hField⟩ := Option.ne_none_iff_exists'.mp (hKnown m hm)
      cases inside with
      | none => exact memberStored_scalar hDistinct hField (hPresent m hm) hRound hFresh
      | some fields =>
        obtain ⟨pointer, hEq⟩ :=
          @storeRound_eq α r fold scalar schema m hDistinct _ _ hField path st
        rw [hEq] at hRound
        simp only [storeRecord, hPresent m hm, if_false] at hRound
        refine memberStored_record hField (ih m hm omitempty fields hField
          (AuditSchema.distinct_of_field hDistinct hField) hRound fun q => ?_)
        rw [← append_cons_eq]
        exact hFresh q
    obtain ⟨hUnder, hOutside⟩ := foldl_storeRound hNodup hRound hStore fun m _ q => hFresh _
    refine ⟨fun q a => ?_, fun q hq => ?_⟩
    · cases q with
      | nil =>
        have hGet : st'.get (path ++ []) = none := by
          rw [hOutside _ fun m _ hPrefix => ?_, hFresh]
          simpa using hPrefix.length_le
        rw [hGet]
        simp [AuditSchema.isScalarAt]
      | cons name q =>
        by_cases hName : name ∈ memberNames r members
        · obtain ⟨m, hm, rfl⟩ := List.mem_map.mp hName
          rw [hUnder m hm q a]
          refine and_congr_right fun _ => ?_
          rw [exists_comm]
          refine exists_congr fun v => ?_
          rw [← memberAt_name hValues hNodup hm, exists_and_right]
        · have hGet : st'.get (path ++ name :: q) = none := by
            rw [hOutside _ fun m hm hPrefix => ?_, hFresh]
            exact hName (List.mem_map.mpr ⟨m, hm, prefix_append_cons.mp hPrefix⟩)
          rw [hGet]
          refine ⟨nofun, ?_⟩
          rintro ⟨-, place, v, hMember, -⟩
          obtain ⟨i, m, hi, hCase⟩ := (memberAt_objectText hValues).mp hMember
          have hPath : name = r.unquote m.1 := by
            rcases hCase with ⟨-, hPath, -⟩ | ⟨_, _, -, hPath, -⟩
            · exact (List.cons.inj hPath).1
            · exact (List.cons.inj hPath).1
          exact absurd (List.mem_map.mpr ⟨m, List.mem_of_getElem? hi, hPath.symm⟩) hName
    · exact hOutside q fun m _ hPrefix => hq ((List.prefix_append _ _).trans hPrefix)

end Typed

/-! ## The documents -/

/-- A field that is a scalar, and one that is a record. -/
def scalarField (name : String) (rest : AuditSchema) : AuditSchema :=
  .scalar (asciiBytes name) false false rest
def recordField (name : String) (fields rest : AuditSchema) : AuditSchema :=
  .record (asciiBytes name) false false fields rest

/-- `ovmAuditIdentity`. -/
def auditIdentitySchema : AuditSchema :=
  scalarField "version" <| scalarField "genesis" <| scalarField "configHash" <|
  scalarField "witnessHash" <| scalarField "to" <| scalarField "toHash" <|
  scalarField "deSeqBlock" <| scalarField "seqValidHeight" <| scalarField "firstSequencer" .nil

/-- `ovmAuditScan`. -/
def auditScanSchema : AuditSchema :=
  scalarField "root" <| scalarField "ovmCodeHash" <| scalarField "balanceSlots" <|
  scalarField "balancesWei" <| scalarField "supplyWei" <| scalarField "differenceWei" .nil

/-- `ovmAuditDelta`. -/
def auditDeltaSchema : AuditSchema :=
  scalarField "balanceDeltaWei" <| scalarField "supplyDeltaWei" <|
  scalarField "discrepancyDeltaWei" <| scalarField "gasShortfallWei" <|
  scalarField "legacySelfdestructWei" <| scalarField "unexplainedDeltaWei" .nil

/-- `ovmAuditSummary`. -/
def auditSummarySchema : AuditSchema :=
  scalarField "version" <| recordField "identity" auditIdentitySchema <|
  scalarField "clientVersion" <| scalarField "from" <| scalarField "verifiedBlocks" <|
  recordField "genesisState" auditScanSchema <|
  recordField "targetState" auditScanSchema <| recordField "totals" auditDeltaSchema <|
  scalarField "executionVerified" <| scalarField "accountingReconciled" <|
  scalarField "intervalCausesFullyExplained" <| scalarField "unexplainedEvents" <|
  scalarField "genesisDifferenceExplained" <|
  .scalar (asciiBytes "previousDiagnosisDifferenceWei") true true <|
  .scalar (asciiBytes "matchesPreviousDiagnosis") true false .nil

/-- `bundle.Head`. -/
def headSchema : AuditSchema :=
  scalarField "block_number" <| scalarField "block_hash" <| scalarField "state_root" .nil

/-- `OVMAuditEvidence`. -/
def auditEvidenceSchema : AuditSchema :=
  scalarField "file_sha256" <| .scalar (asciiBytes "balance_sum") false true <|
  scalarField "supply_difference" <|
  .record (asciiBytes "audit_head") true true headSchema .nil

section Documents

variable {α : Type} (r : JsonReader Err) (fold : Bytes → Bytes)
  (scalar : FieldPath → List JsonToken → Except Err (Option α))

/-- The two passes of `readOVMAuditSummary` over the bytes of a file. -/
def decodeAuditSummary (data : List JsonToken) : Except Err (DecodedFields α) :=
  readAudit r fold scalar "OVM audit summary" auditSummarySchema data

/-- `OVMAuditEvidence.UnmarshalJSON`. -/
def decodeAuditEvidence (data : List JsonToken) : Except Err (DecodedFields α) :=
  readAudit r fold scalar "OVM audit evidence" auditEvidenceSchema data

variable {r fold scalar}

/-- **What an accepted document says about a field**: its value is that of a member with
exactly its names, of one member only, and a field that may not be left out has one. -/
structure FieldsOfMembers (r : JsonReader Err)
    (scalar : FieldPath → List JsonToken → Except Err (Option α))
    (schema : AuditSchema) (data : List JsonToken) (st : DecodedFields α) : Prop where
  canonical : CanonicalText r schema data
  values    : ∀ path a, st.get path = some a ↔
    schema.isScalarAt path = true ∧ ∃ place v, MemberAt r data place path v ∧
      scalar path v = .ok (some a)
  unique    : ∀ path, schema.isScalarAt path = true → ∀ place place' v v',
    MemberAt r data place path v → MemberAt r data place' path v' → place = place' ∧ v = v'
  required  : ∀ path, schema.isRequiredAt path = true → ∃ place v, MemberAt r data place path v

/-- The decoded fields are the scalar members of the document. -/
theorem readAudit_spec {label : String} {schema : AuditSchema} (hDistinct : schema.distinct = true)
    {data : List JsonToken} {st : DecodedFields α}
    (h : readAudit r fold scalar label schema data = .ok st) :
    FieldsOfMembers r scalar schema data st := by
  obtain ⟨⟨⟩, hWalk, hDecode⟩ := bind_eq_ok.mp h
  have hCanonical := auditJSONFields_eq_ok_iff.mp hWalk
  obtain ⟨-, hTyped⟩ := decodeJSON_eq_ok.mp hDecode
  have hNull : data ≠ [.null] := by
    rintro rfl
    generalize hText : [JsonToken.null] = text at hCanonical
    cases hCanonical
    cases hText
  rw [unmarshalAudit, storeRecord, if_neg hNull] at hTyped
  have hStored := storeObject_canonical hCanonical hDistinct hTyped fun q => rfl
  exact ⟨hCanonical, hStored.under, fun path hScalar place place' v v' =>
    memberAt_unique hCanonical hScalar, fun path => exists_memberAt hCanonical⟩

theorem distinct_auditSummarySchema : auditSummarySchema.distinct = true := by decide +kernel

theorem distinct_auditEvidenceSchema : auditEvidenceSchema.distinct = true := by decide +kernel

/-- **Audit documents are canonical**: the strict walk accepts exactly the canonical texts
of a schema, and in a document that is decoded every field is that of one member. -/
theorem audit_documents_canonical (r : JsonReader Err) (fold : Bytes → Bytes)
    (scalar : FieldPath → List JsonToken → Except Err (Option α)) :
    (∀ schema data, auditJSONFields r schema data = .ok () ↔ CanonicalText r schema data) ∧
    (∀ data st, decodeAuditSummary r fold scalar data = .ok st →
      FieldsOfMembers r scalar auditSummarySchema data st) ∧
    ∀ data st, decodeAuditEvidence r fold scalar data = .ok st →
      FieldsOfMembers r scalar auditEvidenceSchema data st :=
  ⟨fun _ _ => auditJSONFields_eq_ok_iff, fun _ _ => readAudit_spec distinct_auditSummarySchema,
    fun _ _ => readAudit_spec distinct_auditEvidenceSchema⟩

end Documents

/-- An evidence record with its names as members of an object. -/
def sampleEvidenceText (digest : String) : List JsonToken :=
  objectText [(asciiBytes "supply_difference", [.text [48]]), (asciiBytes digest, [.text [49]]),
    (asciiBytes "balance_sum", [.text [50]])]

def sampleJsonReader : JsonReader Err :=
  ⟨10000, id, .outside "EOF", .outside "invalid character", by decide, by decide⟩

/-- Capitals as small letters. -/
def sampleFold (name : Bytes) : Bytes := name.map fun b => if b < 97 then b + 32 else b

-- the typed decoding alone takes the name in capitals, the two passes do not
example : (unmarshalAudit sampleJsonReader sampleFold (fun _ v => .ok (some v)) auditEvidenceSchema
    (sampleEvidenceText "FILE_SHA256")).isOk = true := by
  decide +kernel

example : (decodeAuditEvidence sampleJsonReader sampleFold (fun _ v => .ok (some v))
    (sampleEvidenceText "FILE_SHA256")).isOk = false := by
  decide +kernel

example : (decodeAuditEvidence sampleJsonReader sampleFold (fun _ v => .ok (some v))
    (sampleEvidenceText "file_sha256")).isOk = true := by
  decide +kernel

end L2State
