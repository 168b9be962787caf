import L2State.Geth.Rawdb
import L2State.Ovm.StrictJson

/-!
# L2State — the fields of an audit document

`auditJSONFields` of `ovm_audit.go`, the strict walk over an audit document before its
typed decoding. A schema is what reflection tells about a record: the names of its
fields, whether they may be left out, and the records among their types.

* `auditJSONFields` — the walk, record by record.
* `CanonicalText` — **what a canonical text is**: at every record level exact names, no
  name twice, no `null`, and every name that may not be left out.
* `auditJSONFields_eq_ok_iff` — **the walk accepts exactly the canonical texts**.
-/

namespace L2State

open Lib

/-! ## Schemas -/

/-- The fields of a record type in order. A field has a name, may be left out
(`omitempty`), may be a pointer, and is a scalar or a record. -/
inductive AuditSchema
  | nil
  | scalar (name : Bytes) (omitempty pointer : Bool) (rest : AuditSchema)
  | record (name : Bytes) (omitempty pointer : Bool) (fields rest : AuditSchema)

/-- A field as the walk uses it: `inside` is the walk over its record, if it is one. -/
structure AuditEntry where
  name      : Bytes
  omitempty : Bool
  inside    : Option (List JsonToken → Except Err Unit)

/-! ## The walk -/

section Walk

variable (r : JsonReader Err)

/-- `fields[name] = f`. -/
def putEntry (fields : List AuditEntry) (e : AuditEntry) : List AuditEntry :=
  fields.filter (fun e' => e'.name ≠ e.name) ++ [e]

/-- A name: it is known and new. -/
def auditEnter (fields : List AuditEntry) (seen : List Bytes) (name : Bytes) :
    Except Err (List Bytes × AuditEntry) :=
  match fields.find? fun e => e.name = name with
  | none => .error (.msg "unknown or duplicate OVM audit field %q" [.bytes name])
  | some e =>
    if name ∈ seen then .error (.msg "unknown or duplicate OVM audit field %q" [.bytes name])
    else .ok (name :: seen, e)

/-- A value: it is not `null`, and a record is walked in turn. -/
def auditLeave : List Bytes × AuditEntry → List JsonToken → Except Err (List Bytes)
  | (seen, e), raw =>
    if raw = [.null] then .error (.msg "OVM audit field %s must not be null" [.bytes e.name])
    else
      match e.inside with
      | none => .ok seen
      | some walk => do
        wrapping "%s: %w" [.bytes e.name] (walk raw)
        return seen

/-- The body of `auditJSONFields`. The names are checked in the order of the fields; the
order of a map is not defined. -/
def auditObject (entries : List AuditEntry) (data : List JsonToken) : Except Err Unit :=
  match JsonDecoder.token r (.ofText data) with
  | .ok (.delim .beginObject, d) => do
    let fields := entries.foldl putEntry []
    let (seen, d) ← d.walk r (.msg "invalid OVM audit field" [])
        (auditEnter fields) auditLeave d.rest.length []
    let (_, d) ← d.token r
    match d.decode r with
    | .ok _ => .error (.msg "trailing OVM audit data" [])
    | .error err =>
      if err = r.eof then
        match fields.find? fun e => e.name ∉ seen ∧ e.omitempty = false with
        | some e => .error (.msg "missing OVM audit field %s" [.bytes e.name])
        | none => .ok ()
      else .error (.msg "trailing OVM audit data" [])
  | _ => .error (.msg "OVM audit requires an object" [])

/-- The fields of a schema, each record with its own walk. -/
def AuditSchema.entries : AuditSchema → List AuditEntry
  | .nil => []
  | .scalar name omitempty _ rest => ⟨name, omitempty, none⟩ :: rest.entries
  | .record name omitempty _ fields rest =>
    ⟨name, omitempty, some (auditObject r fields.entries)⟩ :: rest.entries

/-- `auditJSONFields`. -/
def auditJSONFields (schema : AuditSchema) (data : List JsonToken) : Except Err Unit :=
  auditObject r (schema.entries r) data

end Walk

/-! ## Canonical texts -/

/-- The field of a name: whether it may be left out, and its record if it is one. The last
field of a name counts. -/
def AuditSchema.field (name : Bytes) : AuditSchema → Option (Bool × Option AuditSchema)
  | .nil => none
  | .scalar n omitempty _ rest =>
    (rest.field name).or (if n = name then some (omitempty, none) else none)
  | .record n omitempty _ fields rest =>
    (rest.field name).or (if n = name then some (omitempty, some fields) else none)

/-- **A canonical text of a schema**: one object, every name one of the schema in exact
case, no name twice, no member `null`, every name that may not be left out, and every
record among the members canonical. -/
inductive CanonicalText (r : JsonReader Err) : AuditSchema → List JsonToken → Prop
  | object {schema : AuditSchema} {members : List JsonMember}
      (values : ∀ m ∈ members, JsonValue r.limit m.2)
      (distinct : (memberNames r members).Nodup)
      (known : ∀ m ∈ members, schema.field (r.unquote m.1) ≠ none)
      (present : ∀ m ∈ members, m.2 ≠ [.null])
      (required : ∀ name inside, schema.field name = some (false, inside) →
        name ∈ memberNames r members)
      (records : ∀ m ∈ members, ∀ omitempty fields,
        schema.field (r.unquote m.1) = some (omitempty, some fields) → CanonicalText r fields m.2) :
      CanonicalText r schema (objectText members)

section Spec

variable {r : JsonReader Err}

variable (r) in
/-- The entry of a field. -/
def fieldEntry (name : Bytes) (f : Bool × Option AuditSchema) : AuditEntry :=
  ⟨name, f.1, f.2.map (auditJSONFields r)⟩

theorem find_putEntry (fields : List AuditEntry) (e : AuditEntry) (name : Bytes) :
    (putEntry fields e).find? (fun e => e.name = name) =
      if e.name = name then some e else fields.find? fun e => e.name = name := by
  unfold putEntry
  rw [List.find?_append, List.find?_filter]
  by_cases hName : e.name = name
  · have hNone : fields.find? (fun e' => decide (decide (e'.name ≠ e.name) = true ∧
        decide (e'.name = name) = true)) = none := by
      rw [List.find?_eq_none]
      intro e' _
      simp [hName]
    rw [hNone, if_pos hName]
    simp [hName]
  · have hSame : (fun e' : AuditEntry => decide (decide (e'.name ≠ e.name) = true ∧
        decide (e'.name = name) = true)) = fun e' => decide (e'.name = name) := by
      funext e'
      by_cases hOther : e'.name = name
      · simp [hOther, Ne.symm hName]
      · simp [hOther]
    rw [hSame, if_neg hName]
    simp [hName]

/-- The map of the fields has the last field of every name. -/
theorem find_foldl_putEntry (schema : AuditSchema) (acc : List AuditEntry) (name : Bytes) :
    ((schema.entries r).foldl putEntry acc).find? (fun e => e.name = name) =
      ((schema.field name).map (fieldEntry r name)).or (acc.find? fun e => e.name = name) := by
  induction schema generalizing acc with
  | nil => simp [AuditSchema.entries, AuditSchema.field]
  | scalar n _ _ rest ih | record n _ _ _ rest _ ih =>
    rw [AuditSchema.entries, List.foldl_cons, ih, find_putEntry, AuditSchema.field]
    cases rest.field name with
    | some f => rfl
    | none =>
      by_cases hName : n = name
      · subst hName
        simp only [fieldEntry, if_true, Option.none_or, Option.map_some, Option.some_or]
        rfl
      · simp [hName]

variable (r) in
/-- The map that the walk builds. -/
abbrev AuditSchema.fieldMap (schema : AuditSchema) : List AuditEntry :=
  (schema.entries r).foldl putEntry []

theorem find_fieldMap (schema : AuditSchema) (name : Bytes) :
    (schema.fieldMap r).find? (fun e => e.name = name) =
    (schema.field name).map (fieldEntry r name) := by
  rw [AuditSchema.fieldMap, find_foldl_putEntry]
  simp

theorem nodup_putEntry {fields : List AuditEntry} (h : (fields.map AuditEntry.name).Nodup)
    (e : AuditEntry) :
    ((putEntry fields e).map AuditEntry.name).Nodup := by
  unfold putEntry
  rw [List.map_append, List.map_singleton, List.nodup_append]
  refine ⟨h.sublist (List.filter_sublist.map _), by simp, ?_⟩
  intro name hName name' hLast hEq
  obtain ⟨e', he', rfl⟩ := List.mem_map.mp hName
  rw [List.mem_singleton.mp hLast] at hEq
  simpa [hEq] using (List.mem_filter.mp he').2

theorem nodup_fieldMap (schema : AuditSchema) :
    ((schema.fieldMap r).map AuditEntry.name).Nodup := by
  have hFold : ∀ (entries acc : List AuditEntry), (acc.map AuditEntry.name).Nodup →
      ((entries.foldl putEntry acc).map AuditEntry.name).Nodup := by
    intro entries
    induction entries with
    | nil => exact fun acc h => h
    | cons e entries ih => exact fun acc h => ih _ (nodup_putEntry h e)
  exact hFold _ [] List.nodup_nil

variable {schema : AuditSchema} {seen : List Bytes}

/-- An entry of the map is the field of its name. -/
theorem mem_fieldMap {e : AuditEntry} :
    e ∈ schema.fieldMap r ↔ ∃ f, schema.field e.name = some f ∧ e = fieldEntry r e.name f := by
  have hFind : e ∈ schema.fieldMap r ↔
      (schema.fieldMap r).find? (fun e' => e'.name = e.name) = some e := by
    constructor
    · intro he
      cases hFound : (schema.fieldMap r).find? (fun e' => e'.name = e.name) with
      | none => exact absurd (List.find?_eq_none.mp hFound e he) (by simp)
      | some e' =>
        have hName : e'.name = e.name := by simpa using List.find?_some hFound
        rw [List.inj_on_of_nodup_map (nodup_fieldMap schema)
          (List.mem_of_find?_eq_some hFound) he hName]
    · exact List.mem_of_find?_eq_some
  rw [hFind, find_fieldMap, Option.map_eq_some_iff]
  simp only [eq_comm]

/-- No entry is missing exactly if every name that may not be left out was seen. -/
theorem find_missing_eq_none :
    (schema.fieldMap r).find? (fun e => e.name ∉ seen ∧ e.omitempty = false) = none ↔
      ∀ name inside, schema.field name = some (false, inside) → name ∈ seen := by
  rw [List.find?_eq_none]
  constructor
  · intro h name inside hField
    have hMem : fieldEntry r name (false, inside) ∈ schema.fieldMap r :=
      mem_fieldMap.mpr ⟨_, hField, rfl⟩
    by_contra hNew
    exact h _ hMem (by simp [fieldEntry, hNew])
  · intro h e he hMissing
    obtain ⟨⟨omitempty, inside⟩, hField, hEntry⟩ := mem_fieldMap.mp he
    obtain ⟨hNew, hRequired⟩ : e.name ∉ seen ∧ e.omitempty = false := by simpa using hMissing
    rw [hEntry] at hRequired
    obtain rfl : omitempty = false := hRequired
    exact hNew (h e.name inside hField)

/-! ## A round of the walk -/

variable (r) in
/-- What a member has to be. -/
structure MemberOk (schema : AuditSchema) (m : JsonMember) : Prop where
  known   : schema.field (r.unquote m.1) ≠ none
  present : m.2 ≠ [.null]
  records : ∀ omitempty fields, schema.field (r.unquote m.1) = some (omitempty, some fields) →
    auditJSONFields r fields m.2 = .ok ()

/-- One member passes when its field is known, well formed and new. -/
theorem auditRound_eq_ok {seen' : List Bytes} {m : JsonMember} :
    memberRound r (auditEnter (schema.fieldMap r)) auditLeave seen m = .ok seen' ↔
      MemberOk r schema m ∧ r.unquote m.1 ∉ seen ∧ seen' = r.unquote m.1 :: seen := by
  rw [memberRound, auditEnter, find_fieldMap]
  cases hField : schema.field (r.unquote m.1) with
  | none =>
    refine ⟨by rintro ⟨⟩, ?_⟩
    rintro ⟨hOk, -⟩
    exact absurd hField hOk.known
  | some f =>
    obtain ⟨omitempty, inside⟩ := f
    by_cases hSeen : r.unquote m.1 ∈ seen
    · simp [hSeen]
    · by_cases hNull : m.2 = [.null]
      · refine ⟨?_, ?_⟩
        · simp [hSeen, auditLeave, hNull]
        · rintro ⟨hOk, -⟩
          exact absurd hNull hOk.present
      · cases inside with
        | none =>
          have hOk : MemberOk r schema m := ⟨by simp [hField], hNull, by simp [hField]⟩
          simp [hSeen, auditLeave, hNull, fieldEntry, hOk, eq_comm]
        | some fields =>
          have hOk : MemberOk r schema m ↔ auditJSONFields r fields m.2 = .ok () := by
            constructor
            · intro h
              exact h.records omitempty fields hField
            · intro h
              refine ⟨by simp [hField], hNull, fun omitempty' fields' hField' => ?_⟩
              rw [hField] at hField'
              cases hField'
              exact h
          rw [hOk]
          cases hWalk : auditJSONFields r fields m.2 with
          | error e => simp [hSeen, auditLeave, hNull, fieldEntry, hWalk, wrapping, wrapErr]
          | ok u => simp [hSeen, auditLeave, hNull, fieldEntry, hWalk, eq_comm]

/-- The members of an object pass when each does and no name comes twice. -/
theorem foldl_auditRound {members : List JsonMember} {seen' : List Bytes} :
    members.foldlM (memberRound r (auditEnter (schema.fieldMap r)) auditLeave) seen = .ok seen' ↔
      (∀ m ∈ members, MemberOk r schema m) ∧ (memberNames r members).Nodup ∧
        (∀ name ∈ memberNames r members, name ∉ seen) ∧
          seen' = (memberNames r members).reverse ++ seen := by
  induction members generalizing seen with
  | nil => simp [memberNames, eq_comm]
  | cons m members ih =>
    rw [foldlM_cons_eq_ok]
    constructor
    · rintro ⟨mid, hRound, hRest⟩
      obtain ⟨hOk, hNew, rfl⟩ := auditRound_eq_ok.mp hRound
      obtain ⟨hAll, hNodup, hLater, rfl⟩ := ih.mp hRest
      obtain ⟨hNodup, hFresh⟩ := fresh_memberNames_cons.mpr ⟨hNew, hNodup, hLater⟩
      exact ⟨List.forall_mem_cons.mpr ⟨hOk, hAll⟩, hNodup, hFresh, by simp [memberNames_cons]⟩
    · rintro ⟨hAll, hNodup, hFresh, rfl⟩
      obtain ⟨hOk, hAll⟩ := List.forall_mem_cons.mp hAll
      obtain ⟨hNew, hNodup, hLater⟩ := fresh_memberNames_cons.mp ⟨hNodup, hFresh⟩
      exact ⟨_, auditRound_eq_ok.mpr ⟨hOk, hNew, rfl⟩,
        ih.mpr ⟨hAll, hNodup, hLater, by simp [memberNames_cons]⟩⟩

/-- **One level of the walk.** -/
theorem auditJSONFields_level {data : List JsonToken} :
    auditJSONFields r schema data = .ok () ↔
      ∃ members, data = objectText members ∧ (∀ m ∈ members, JsonValue r.limit m.2) ∧
        (∀ m ∈ members, MemberOk r schema m) ∧ (memberNames r members).Nodup ∧
          ∀ name inside, schema.field name = some (false, inside) →
            name ∈ memberNames r members := by
  constructor
  · intro h
    unfold auditJSONFields auditObject at h
    split at h
    next d hOpen =>
      obtain ⟨body, rfl, rfl⟩ := token_beginObject.mp hOpen
      obtain ⟨⟨seen, d⟩, hWalk, h⟩ := bind_eq_ok.mp h
      obtain ⟨⟨t, d'⟩, hToken, h⟩ := bind_eq_ok.mp h
      obtain ⟨members, rest, hText, hValues, hFold, rfl⟩ := walk_token_iff.mp ⟨d, t, hWalk, hToken⟩
      obtain ⟨hAll, hNodup, -, rfl⟩ := foldl_auditRound.mp hFold
      simp only at h
      split at h
      next => cases h
      next err hTrailing =>
        split at h
        next hEof =>
          rw [hEof] at hTrailing
          obtain rfl := decode_eof.mp hTrailing
          split at h
          next => cases h
          next hMissing =>
            have hRequired := find_missing_eq_none.mp hMissing
            refine ⟨members, congrArg (JsonToken.beginObject :: ·) hText, hValues, hAll, hNodup, ?_⟩
            intro name inside hField
            simpa using hRequired name inside hField
        next => cases h
    next => cases h
  · rintro ⟨members, rfl, hValues, hAll, hNodup, hRequired⟩
    have hFold := foldl_auditRound.mpr ⟨hAll, hNodup, fun name _ => List.not_mem_nil, rfl⟩
    obtain ⟨d, t, hWalk, hToken⟩ := walk_token_iff.mpr ⟨members, [], rfl, hValues, hFold, rfl⟩
    have hEof : JsonDecoder.decode r (.ofText []) = .error r.eof := decode_eof.mpr rfl
    have hMissing : (schema.fieldMap r).find?
        (fun e => e.name ∉ (memberNames r members).reverse ++ [] ∧ e.omitempty = false) = none :=
      find_missing_eq_none.mpr fun name inside hField => by simpa using hRequired name inside hField
    unfold auditJSONFields auditObject
    rw [token_objectText]
    show (JsonDecoder.walk _ _ _ _ _ _ _ >>= _) = _
    rw [hWalk]
    simp only [ok_bind, hToken, hEof, if_true]
    rw [hMissing]

/-- **The walk accepts exactly the canonical texts.** -/
theorem auditJSONFields_eq_ok_iff {data : List JsonToken} :
    auditJSONFields r schema data = .ok () ↔ CanonicalText r schema data := by
  constructor
  · intro h
    -- the records among the members are shorter texts
    induction hLength : data.length using Nat.strong_induction_on generalizing schema data with
    | h n ih =>
      obtain ⟨members, rfl, hValues, hAll, hNodup, hRequired⟩ := auditJSONFields_level.mp h
      refine .object hValues hNodup (fun m hm => (hAll m hm).known)
        (fun m hm => (hAll m hm).present) hRequired ?_
      intro m hm omitempty fields hField
      exact ih m.2.length (hLength ▸ length_lt_of_member hm)
        ((hAll m hm).records omitempty fields hField) rfl
  · intro h
    induction h with
    | object hValues hNodup hKnown hPresent hRequired _ ih =>
      exact auditJSONFields_level.mpr ⟨_, rfl, hValues,
        fun m hm => ⟨hKnown m hm, hPresent m hm, ih m hm⟩, hNodup, hRequired⟩

end Spec

end L2State
