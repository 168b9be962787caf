import L2State.Ovm.Index
import L2State.Ovm.Witness

/-!
# L2State — a witness file in the index

`loadOVMWitness` and `addWitness` of `ovm_input.go`: the lines of a witness file, and the
entries of the evidence index that they stand for.

* `accepted_iff` — a record and the members it was read from.
* `witnessLine_eq_ok` — **a line is accepted exactly if it stands for writes**: one
  address, or an owner and a spender, and nothing else.
* `loadOVMWitness_eq_ok` — a whole file.
-/

namespace L2State

open Lib

section Spec

variable {r : JsonReader Err} {parse : Bytes → Except Err Address}

/-! ## What a record says about its members -/

/-- A field of a record. -/
def WitnessRecord.get (record : WitnessRecord) : WitnessField → Bytes ⊕ Option Address
  | .kind => .inl record.kind
  | .address => .inr record.address
  | .owner => .inr record.owner
  | .spender => .inr record.spender

variable (r parse) in
/-- What a field reads from a string literal. -/
def WitnessField.value (f : WitnessField) (raw : Bytes) : Option (Bytes ⊕ Option Address) :=
  match f with
  | .kind => some (.inl (r.unquote raw))
  | _ => (parse raw).toOption.map fun a => .inr (some a)

/-- The names and the values of members, as the fields with their literals. -/
def literalMembers (fields : List (WitnessField × Bytes)) : List (Bytes × List JsonToken) :=
  fields.map fun e => (e.1.name, [.text e.2])

variable (r) in
/-- The members with their names read. -/
def namedMembers (members : List JsonMember) : List (Bytes × List JsonToken) :=
  members.map fun m => (r.unquote m.1, m.2)

variable {record record' : WitnessRecord} {f : WitnessField} {fields : List (WitnessField × Bytes)}
  {ts : List JsonToken}

theorem WitnessRecord.ext_get (h : ∀ f, record.get f = record'.get f) :
    record = record' := by
  obtain ⟨kind, address, owner, spender⟩ := record
  obtain ⟨kind', address', owner', spender'⟩ := record'
  obtain rfl : kind = kind' := Sum.inl.inj (h .kind)
  obtain rfl : address = address' := Sum.inr.inj (h .address)
  obtain rfl : owner = owner' := Sum.inr.inj (h .owner)
  obtain rfl : spender = spender' := Sum.inr.inj (h .spender)
  rfl

theorem get_setAddress_same (hKind : f ≠ .kind) (record : WitnessRecord) (a : Option Address) :
    (record.setAddress a f).get f = .inr a := by
  cases f <;> first | exact absurd rfl hKind | rfl

theorem get_setAddress_other {f' : WitnessField} (hOther : f' ≠ f) (record : WitnessRecord)
    (a : Option Address) : (record.setAddress a f).get f' = record.get f' := by
  cases f <;> cases f' <;> first | exact absurd rfl hOther | rfl

theorem get_kind_other (hOther : f ≠ .kind) (record : WitnessRecord) (kind : Bytes) :
    { record with kind := kind }.get f = record.get f := by
  cases f <;> first | exact absurd rfl hOther | rfl

/-- The literal of an address. -/
theorem value_address (hKind : f ≠ .kind) {raw : Bytes} {x : Bytes ⊕ Option Address} :
    f.value r parse raw = some x ↔ ∃ a, parse raw = .ok a ∧ x = .inr (some a) := by
  have hValue : f.value r parse raw = (parse raw).toOption.map fun a => .inr (some a) := by
    cases f <;> first | exact absurd rfl hKind | rfl
  rw [hValue]
  cases parse raw with
  | error e => simp [Except.toOption]
  | ok a => simp [Except.toOption, eq_comm]

/-- **A literal in its field**: the field has its value, and the others are as before. -/
theorem assignField_literal {raw : Bytes} :
    assignField r parse f [.text raw] record = some record' ↔
      f.value r parse raw = some (record'.get f) ∧ ∀ f', f' ≠ f →
      record'.get f' = record.get f' := by
  constructor
  · intro h
    obtain ⟨raw', hRaw, hCase⟩ := assignField_eq_some.mp h
    cases hRaw
    rcases hCase with ⟨rfl, rfl⟩ | ⟨hKind, a, hParse, rfl⟩
    · exact ⟨rfl, fun f' hOther => get_kind_other hOther record _⟩
    · refine ⟨?_, fun f' hOther => get_setAddress_other hOther record _⟩
      exact (value_address hKind).mpr ⟨a, hParse, get_setAddress_same hKind record _⟩
  · rintro ⟨hValue, hOther⟩
    refine assignField_eq_some.mpr ⟨raw, rfl, ?_⟩
    by_cases hKind : f = .kind
    · subst hKind
      refine .inl ⟨rfl, WitnessRecord.ext_get fun f' => ?_⟩
      by_cases hSame : f' = .kind
      · subst hSame
        exact (Option.some.inj hValue).symm
      · exact (hOther f' hSame).trans (get_kind_other hSame record _).symm
    · obtain ⟨a, hParse, hGet⟩ := (value_address hKind).mp hValue
      refine .inr ⟨hKind, a, hParse, WitnessRecord.ext_get fun f' => ?_⟩
      by_cases hSame : f' = f
      · subst hSame
        rw [hGet, get_setAddress_same hKind]
      · rw [hOther f' hSame, get_setAddress_other hSame]

variable (r parse) in
/-- A field and its literal. -/
def assignLiteral (record : WitnessRecord) (e : WitnessField × Bytes) : Option WitnessRecord :=
  assignField r parse e.1 [.text e.2] record

/-- Members that are read are literals of fields. -/
theorem foldl_assign_literals {members : List JsonMember} :
    members.foldlM (assignMember r parse) record = some record' ↔
      ∃ fields, namedMembers r members = literalMembers fields ∧
        fields.foldlM (assignLiteral r parse) record = some record' := by
  induction members generalizing record with
  | nil =>
    constructor
    · intro h
      exact ⟨[], rfl, h⟩
    · rintro ⟨fields, hNames, hFold⟩
      obtain rfl : fields = [] := List.map_eq_nil_iff.mp hNames.symm
      exact hFold
  | cons m members ih =>
    rw [foldl_assign_cons]
    constructor
    · rintro ⟨mid, hMember, hTail⟩
      obtain ⟨f, hName, hAssign⟩ := assignMember_eq_some.mp hMember
      obtain ⟨raw, hValue, -⟩ := assignField_eq_some.mp hAssign
      obtain ⟨fields, hNames, hFold⟩ := ih.mp hTail
      rw [hValue] at hAssign
      refine ⟨(f, raw) :: fields, ?_, ?_⟩
      · have hHead : (r.unquote m.1, m.2) = (f.name, [JsonToken.text raw]) := by
          rw [WitnessField.ofName_eq_some.mp hName, hValue]
        exact congrArg₂ List.cons hHead hNames
      · rw [List.foldlM_cons, Option.bind_eq_bind, Option.bind_eq_some_iff]
        exact ⟨mid, hAssign, hFold⟩
    · rintro ⟨fields, hNames, hFold⟩
      cases fields with
      | nil => cases hNames
      | cons e fields =>
        obtain ⟨f, raw⟩ := e
        obtain ⟨hHead, hNames⟩ := List.cons.inj hNames
        obtain ⟨hName, hValue⟩ := Prod.mk.inj hHead
        rw [List.foldlM_cons, Option.bind_eq_bind, Option.bind_eq_some_iff] at hFold
        obtain ⟨mid, hAssign, hFold⟩ := hFold
        refine ⟨mid, assignMember_eq_some.mpr ⟨f, WitnessField.ofName_eq_some.mpr hName, ?_⟩,
          ih.mpr ⟨fields, hNames, hFold⟩⟩
        rw [hValue]
        exact hAssign

/-- **The record of fields that differ**: a field with a literal has its value, and any
other is as before. -/
theorem foldl_literals (hNodup : (fields.map Prod.fst).Nodup) :
    fields.foldlM (assignLiteral r parse) record = some record' ↔
      (∀ e ∈ fields, e.1.value r parse e.2 = some (record'.get e.1)) ∧
        ∀ f, f ∉ fields.map Prod.fst → record'.get f = record.get f := by
  induction fields generalizing record with
  | nil =>
    constructor
    · intro h
      cases h
      simp
    · rintro ⟨-, hSame⟩
      exact congrArg some (WitnessRecord.ext_get fun f => (hSame f (by simp)).symm)
  | cons e fields ih =>
    obtain ⟨hNew, hNodup⟩ := List.nodup_cons.mp hNodup
    rw [List.foldlM_cons, Option.bind_eq_bind, Option.bind_eq_some_iff]
    constructor
    · rintro ⟨mid, hAssign, hFold⟩
      obtain ⟨hValue, hOther⟩ := assignField_literal.mp hAssign
      obtain ⟨hValues, hSame⟩ := (ih hNodup).mp hFold
      refine ⟨fun e' he => ?_, fun f hf => ?_⟩
      · rcases List.mem_cons.mp he with rfl | he
        · rw [hSame _ hNew]
          exact hValue
        · exact hValues e' he
      · obtain ⟨hNe, hf⟩ := not_or.mp (List.mem_cons.not.mp hf)
        rw [hSame f hf, hOther f hNe]
    · rintro ⟨hValues, hSame⟩
      have hHead := hValues e List.mem_cons_self
      -- the record behind the first literal is the last one at this field
      have hMid : ∃ mid, assignLiteral r parse record e = some mid := by
        by_cases hKind : e.1 = .kind
        · exact ⟨_, assignField_eq_some.mpr ⟨e.2, rfl, .inl ⟨hKind, rfl⟩⟩⟩
        · obtain ⟨a, hParse, -⟩ := (value_address hKind).mp hHead
          exact ⟨_, assignField_eq_some.mpr ⟨e.2, rfl, .inr ⟨hKind, a, hParse, rfl⟩⟩⟩
      obtain ⟨mid, hAssign⟩ := hMid
      obtain ⟨hValue, hOther⟩ := assignField_literal.mp hAssign
      refine ⟨mid, hAssign, (ih hNodup).mpr
        ⟨fun e' he => hValues e' (List.mem_cons_of_mem _ he), ?_⟩⟩
      intro f hf
      by_cases hEq : f = e.1
      · rw [hEq]
        exact Option.some.inj (hHead.symm.trans hValue)
      · rw [hSame f (List.mem_cons.not.mpr (not_or.mpr ⟨hEq, hf⟩)), hOther f hEq]

variable (r) in
/-- An object whose members are, in some order, exactly the literals of `fields`. -/
def LineOf (ts : List JsonToken) (fields : List (WitnessField × Bytes)) : Prop :=
  ∃ members order, ts = objectText members ∧ namedMembers r members = literalMembers order ∧
    order.Perm fields

variable (r parse) in
/-- The values of a record are those of `fields`, and its other fields are empty. -/
structure RecordOf (record : WitnessRecord) (fields : List (WitnessField × Bytes)) : Prop where
  nodup  : (fields.map Prod.fst).Nodup
  values : ∀ e ∈ fields, e.1.value r parse e.2 = some (record.get e.1)
  others : ∀ f, f ∉ fields.map Prod.fst → record.get f = WitnessRecord.empty.get f

theorem RecordOf.perm {fields' : List (WitnessField × Bytes)} (h : RecordOf r parse record fields)
    (hPerm : fields'.Perm fields) : RecordOf r parse record fields' where
  nodup := ((hPerm.map Prod.fst).nodup_iff).mpr h.nodup
  values e he := h.values e (hPerm.mem_iff.mp he)
  others f hf := h.others f fun hMem => hf ((hPerm.map Prod.fst).mem_iff.mpr hMem)

theorem nodup_memberNames_iff {members : List JsonMember}
    (hNames : namedMembers r members = literalMembers fields) :
    (memberNames r members).Nodup ↔ (fields.map Prod.fst).Nodup := by
  have hFirst : memberNames r members = (fields.map Prod.fst).map WitnessField.name := by
    have hMap := congrArg (List.map Prod.fst) hNames
    simpa [namedMembers, literalMembers, memberNames, Function.comp_def] using hMap
  rw [hFirst]
  exact List.nodup_map_iff fun f f' hEq => WitnessField.name_injective hEq

/-- **A record and the line it was read from.** -/
theorem accepted_iff :
    AcceptedWitness r parse ts record ↔ ∃ fields, LineOf r ts fields ∧
      RecordOf r parse record fields := by
  constructor
  · rintro ⟨members, hText, hNodup, hFold⟩
    obtain ⟨fields, hNames, hFields⟩ := foldl_assign_literals.mp hFold
    have hDistinct := (nodup_memberNames_iff hNames).mp hNodup
    obtain ⟨hValues, hSame⟩ := (foldl_literals hDistinct).mp hFields
    exact ⟨fields, ⟨members, fields, hText, hNames, .refl _⟩, hDistinct, hValues, hSame⟩
  · rintro ⟨fields, ⟨members, order, hText, hNames, hPerm⟩, hRecord⟩
    have hOrder := hRecord.perm hPerm
    exact ⟨members, hText, (nodup_memberNames_iff hNames).mpr hOrder.nodup,
      foldl_assign_literals.mpr
        ⟨order, hNames, (foldl_literals hOrder.nodup).mpr ⟨hOrder.values, hOrder.others⟩⟩⟩

theorem LineOf.perm {fields' : List (WitnessField × Bytes)} (h : LineOf r ts fields)
    (hPerm : fields.Perm fields') : LineOf r ts fields' := by
  obtain ⟨members, order, hText, hNames, hOrder⟩ := h
  exact ⟨members, order, hText, hNames, hOrder.trans hPerm⟩

namespace RecordOf

variable {record : WitnessRecord} {fields : List (WitnessField × Bytes)}

/-- A field that is set has a literal. -/
theorem mem_of_set (h : RecordOf r parse record fields) {f : WitnessField}
    (hSet : record.get f ≠ WitnessRecord.empty.get f) :
    ∃ raw, (f, raw) ∈ fields ∧ f.value r parse raw = some (record.get f) := by
  have hMem : f ∈ fields.map Prod.fst := by
    by_contra hNone
    exact hSet (h.others f hNone)
  obtain ⟨⟨f', raw⟩, he, rfl⟩ := List.mem_map.mp hMem
  exact ⟨raw, he, h.values _ he⟩

/-- An address that is not set has none. -/
theorem not_mem_of_none (h : RecordOf r parse record fields) {f : WitnessField} (hKind : f ≠ .kind)
    (hNone : record.get f = .inr none) : f ∉ fields.map Prod.fst := by
  intro hMem
  obtain ⟨⟨f', raw⟩, he, rfl⟩ := List.mem_map.mp hMem
  obtain ⟨a, -, hEq⟩ := (value_address hKind).mp (h.values _ he)
  rw [hNone] at hEq
  cases hEq

/-- The literals are those that are expected, if no other field has one. -/
theorem perm_of (h : RecordOf r parse record fields) {expected : List (WitnessField × Bytes)}
    (hNodup : (expected.map Prod.fst).Nodup) (hMem : ∀ e ∈ expected, e ∈ fields)
    (hOnly : ∀ f ∈ fields.map Prod.fst, f ∈ expected.map Prod.fst) : fields.Perm expected := by
  refine (List.perm_ext_iff_of_nodup h.nodup.of_map hNodup.of_map).mpr fun e =>
    ⟨fun he => ?_, hMem e⟩
  obtain ⟨e', he', hEq⟩ := List.mem_map.mp (hOnly e.1 (List.mem_map_of_mem he))
  rwa [List.inj_on_of_nodup_map h.nodup he (hMem e' he') hEq.symm]

end RecordOf

theorem kindAddress_ne_nil : asciiBytes "address" ≠ [] := by decide +kernel

theorem kindAllowance_ne_nil : asciiBytes "allowance" ≠ [] := by decide +kernel

/-- **The lines of an address.** -/
theorem accepted_address_iff {a : Address} :
    AcceptedWitness r parse ts ⟨asciiBytes "address", some a, none, none⟩ ↔
      ∃ kind text, LineOf r ts [(.kind, kind), (.address, text)] ∧
        r.unquote kind = asciiBytes "address" ∧ parse text = .ok a := by
  rw [accepted_iff]
  constructor
  · rintro ⟨fields, hLine, hRecord⟩
    obtain ⟨kind, hKind, hKindValue⟩ := hRecord.mem_of_set (f := .kind) fun hEq =>
      kindAddress_ne_nil (Sum.inl.inj hEq)
    obtain ⟨text, hText, hTextValue⟩ := hRecord.mem_of_set (f := .address) nofun
    have hOwner := hRecord.not_mem_of_none (f := .owner) nofun rfl
    have hSpender := hRecord.not_mem_of_none (f := .spender) nofun rfl
    obtain ⟨b, hParse, hEq⟩ := (value_address (f := .address) nofun).mp hTextValue
    cases hEq
    refine ⟨kind, text, hLine.perm (hRecord.perm_of (by simp) ?_ ?_), ?_, hParse⟩
    · simp [hKind, hText]
    · intro f hf
      cases f with
      | kind => simp
      | address => simp
      | owner => exact absurd hf hOwner
      | spender => exact absurd hf hSpender
    · exact Sum.inl.inj (Option.some.inj hKindValue)
  · rintro ⟨kind, text, hLine, hKind, hParse⟩
    refine ⟨_, hLine, by simp, ?_, ?_⟩
    · intro e he
      rcases List.mem_cons.mp he with rfl | he
      · exact congrArg (some ∘ Sum.inl) hKind
      · obtain rfl := List.mem_singleton.mp he
        exact (value_address (f := .address) nofun).mpr ⟨a, hParse, rfl⟩
    · intro f hf
      cases f with
      | kind => exact absurd (by simp) hf
      | address => exact absurd (by simp) hf
      | owner => rfl
      | spender => rfl

/-- **The lines of an allowance.** -/
theorem accepted_allowance_iff {owner spender : Address} :
    AcceptedWitness r parse ts ⟨asciiBytes "allowance", none, some owner, some spender⟩ ↔
      ∃ kind ownerText spenderText, LineOf r ts
        [(.kind, kind), (.owner, ownerText), (.spender, spenderText)] ∧
        r.unquote kind = asciiBytes "allowance" ∧ parse ownerText = .ok owner ∧
          parse spenderText = .ok spender := by
  rw [accepted_iff]
  constructor
  · rintro ⟨fields, hLine, hRecord⟩
    obtain ⟨kind, hKind, hKindValue⟩ := hRecord.mem_of_set (f := .kind) fun hEq =>
      kindAllowance_ne_nil (Sum.inl.inj hEq)
    obtain ⟨ownerText, hOwner, hOwnerValue⟩ := hRecord.mem_of_set (f := .owner) nofun
    obtain ⟨spenderText, hSpender, hSpenderValue⟩ := hRecord.mem_of_set (f := .spender) nofun
    have hAddress := hRecord.not_mem_of_none (f := .address) nofun rfl
    obtain ⟨b, hParseOwner, hEq⟩ := (value_address (f := .owner) nofun).mp hOwnerValue
    cases hEq
    obtain ⟨b, hParseSpender, hEq⟩ := (value_address (f := .spender) nofun).mp hSpenderValue
    cases hEq
    refine ⟨kind, ownerText, spenderText, hLine.perm (hRecord.perm_of (by simp) ?_ ?_), ?_,
      hParseOwner, hParseSpender⟩
    · simp [hKind, hOwner, hSpender]
    · intro f hf
      cases f with
      | kind => simp
      | address => exact absurd hf hAddress
      | owner => simp
      | spender => simp
    · exact Sum.inl.inj (Option.some.inj hKindValue)
  · rintro ⟨kind, ownerText, spenderText, hLine, hKind, hParseOwner, hParseSpender⟩
    refine ⟨_, hLine, by simp, ?_, ?_⟩
    · intro e he
      rcases List.mem_cons.mp he with rfl | he
      · exact congrArg (some ∘ Sum.inl) hKind
      · rcases List.mem_cons.mp he with rfl | he
        · exact (value_address (f := .owner) nofun).mpr ⟨owner, hParseOwner, rfl⟩
        · obtain rfl := List.mem_singleton.mp he
          exact (value_address (f := .spender) nofun).mpr ⟨spender, hParseSpender, rfl⟩
    · intro f hf
      cases f with
      | kind | owner | spender => exact absurd (by simp) hf
      | address => rfl

end Spec

/-! ## The lines of a file -/

/-- `addWitness`. -/
def OvmIndex.addWitness (g : Geth) (i : OvmIndex) (record : WitnessRecord) : Except Err OvmIndex :=
  if record.kind = asciiBytes "address" then
    match record.address, record.owner, record.spender with
    | some a, none, none => .ok (i.address g a)
    | _, _, _ => .error (.msg "address record requires only type and address" [])
  else if record.kind = asciiBytes "allowance" then
    match record.address, record.owner, record.spender with
    | none, some owner, some spender => .ok (i.allowance g owner spender)
    | _, _, _ => .error (.msg "allowance record requires only type, owner and spender" [])
  else .error (.msg "unknown OVM witness type %q" [.bytes record.kind])

section Lines

variable (r : JsonReader Err) (parse : Bytes → Except Err Address) (g : Geth)

/-- A line in the loop of `loadOVMWitness`. -/
def witnessLine (i : OvmIndex) (ts : List JsonToken) : Except Err OvmIndex := do
  let record ← decodeOVMWitness r parse ts
  i.addWitness g record

/-- The loop of `loadOVMWitness`: the context is asked before each line. -/
def loadLines (ctx : Nat → Option Err) : Nat → List (List JsonToken) → OvmIndex →
    Except Err OvmIndex
  | _, [], i => .ok i
  | line, ts :: rest, i =>
    match ctx line with
    | some err => .error err
    | none => do
      let i ← wrapping "OVM witness line %d: %w" [.num line] (witnessLine r parse g i ts)
      loadLines ctx (line + 1) rest i

/-- `loadOVMWitness`, on the lines of the scanner and the error that it ends with. Left out
are the empty path, the digest, and the errors of opening and closing the file and of writing
the index. -/
def loadOVMWitness (ctx : Nat → Option Err) (lines : List (List JsonToken)) (scanErr : Option Err)
    (i : OvmIndex) : Except Err OvmIndex := do
  let i ← loadLines r parse g ctx 1 lines i
  match scanErr with
  | some err => .error (.wrap "read OVM witness: %w" [] err)
  | none => return i.flush

/-- **A line and the writes it stands for**: an object with exactly the members `type`
and `address`, or `type`, `owner` and `spender`, each a literal of its kind. -/
inductive WitnessLine (ts : List JsonToken) : List DbOp → Prop
  | address {kind text : Bytes} {a : Address} (line : LineOf r ts [(.kind, kind), (.address, text)])
      (tagged : r.unquote kind = asciiBytes "address") (parsed : parse text = .ok a) :
      WitnessLine ts (addressOps g a)
  | allowance {kind ownerText spenderText : Bytes} {owner spender : Address}
      (line : LineOf r ts [(.kind, kind), (.owner, ownerText), (.spender, spenderText)])
      (tagged : r.unquote kind = asciiBytes "allowance") (ownerParsed : parse ownerText = .ok owner)
      (spenderParsed : parse spenderText = .ok spender) : WitnessLine ts
        (allowanceOps g owner spender)

variable {r parse g}

theorem addWitness_eq_ok {i i' : OvmIndex} {record : WitnessRecord} :
    i.addWitness g record = .ok i' ↔
      (∃ a, record = ⟨asciiBytes "address", some a, none, none⟩ ∧ i' = i.address g a) ∨
        ∃ owner spender, record = ⟨asciiBytes "allowance", none, some owner, some spender⟩ ∧
          i' = i.allowance g owner spender := by
  constructor
  · intro h
    obtain ⟨kind, address, owner, spender⟩ := record
    unfold OvmIndex.addWitness at h
    simp only at h
    split at h
    next hKind =>
      split at h
      next a =>
        cases h
        exact .inl ⟨a, by rw [hKind], rfl⟩
      next => cases h
    next =>
      split at h
      next hKind =>
        split at h
        next owner spender =>
          cases h
          exact .inr ⟨owner, spender, by rw [hKind], rfl⟩
        next => cases h
      next => cases h
  · have hDiffer : asciiBytes "allowance" ≠ asciiBytes "address" := by decide +kernel
    rintro (⟨a, rfl, rfl⟩ | ⟨owner, spender, rfl, rfl⟩)
    · rw [OvmIndex.addWitness, if_pos rfl]
    · rw [OvmIndex.addWitness, if_neg hDiffer, if_pos rfl]

variable {ts : List JsonToken}

/-- **A line is accepted exactly if it stands for writes**, and these are made. -/
theorem witnessLine_eq_ok {i i' : OvmIndex} :
    witnessLine r parse g i ts = .ok i' ↔ ∃ ops, WitnessLine r parse g ts ops ∧
      i' = i.pushAll ops := by
  rw [witnessLine, bind_eq_ok]
  constructor
  · rintro ⟨record, hDecode, hAdd⟩
    have hAccepted := decodeOVMWitness_eq_ok_iff.mp hDecode
    rcases addWitness_eq_ok.mp hAdd with ⟨a, rfl, rfl⟩ | ⟨owner, spender, rfl, rfl⟩
    · obtain ⟨kind, text, hLine, hKind, hParse⟩ := accepted_address_iff.mp hAccepted
      exact ⟨_, .address hLine hKind hParse, rfl⟩
    · obtain ⟨kind, ownerText, spenderText, hLine, hKind, hOwner, hSpender⟩ :=
        accepted_allowance_iff.mp hAccepted
      exact ⟨_, .allowance hLine hKind hOwner hSpender, rfl⟩
  · rintro ⟨ops, hLine, rfl⟩
    cases hLine with
    | address hLine hKind hParse =>
      refine ⟨_, decodeOVMWitness_eq_ok_iff.mpr
        (accepted_address_iff.mpr ⟨_, _, hLine, hKind, hParse⟩), ?_⟩
      exact addWitness_eq_ok.mpr (.inl ⟨_, rfl, rfl⟩)
    | allowance hLine hKind hOwner hSpender =>
      refine ⟨_, decodeOVMWitness_eq_ok_iff.mpr
        (accepted_allowance_iff.mpr ⟨_, _, _, hLine, hKind, hOwner, hSpender⟩), ?_⟩
      exact addWitness_eq_ok.mpr (.inr ⟨_, _, rfl, rfl⟩)

/-- The writes of a line are balances and allowances. -/
theorem WitnessLine.key_tag {ops : List DbOp} (h : WitnessLine r parse g ts ops) :
    ∀ op ∈ ops, ∃ k, op.key = tag 'b' :: k ∨ op.key = tag 'a' :: k := by
  have hAddress : ∀ a, ∀ op ∈ addressOps g a, ∃ k, op.key = tag 'b' :: k ∨
      op.key = tag 'a' :: k := by
    intro a op hop
    obtain rfl := List.mem_singleton.mp hop
    exact ⟨_, .inl rfl⟩
  intro op hop
  cases h with
  | address => exact hAddress _ op hop
  | allowance =>
    rcases List.mem_append.mp hop with hop | hop
    · rcases List.mem_append.mp hop with hop | hop
      · exact hAddress _ op hop
      · exact hAddress _ op hop
    · obtain rfl := List.mem_singleton.mp hop
      exact ⟨_, .inr rfl⟩

/-- A namespace that is neither that of the balances nor that of the allowances is left
alone. -/
theorem WitnessLine.untouched {ops : List DbOp} (h : WitnessLine r parse g ts ops) {ns : Char}
    (hBalance : tag ns ≠ tag 'b') (hAllowance : tag ns ≠ tag 'a') (db : Store) (k : Bytes) :
    (applyOps db ops).get? (tag ns :: k) = db.get? (tag ns :: k) := by
  apply get?_applyOps_of_untouched
  intro op hop hEq
  obtain ⟨k', hKey | hKey⟩ := h.key_tag op hop
  · rw [hKey] at hEq
    exact hBalance (List.cons.inj hEq).1.symm
  · rw [hKey] at hEq
    exact hAllowance (List.cons.inj hEq).1.symm

/-- **The single pass reads what the two passes read, and a line becomes the entries it
names**: the balance of an address, or the balances of an owner and a spender and their
allowance, and nothing in the other namespaces. -/
theorem witness_single_pass (r : JsonReader Err) (parse : Bytes → Except Err Address)
    (fold : Bytes → Bytes) (g : Geth) (ts : List JsonToken) :
    (∀ record, decodeOVMWitness r parse ts = .ok record ↔
      decodeOVMWitnessReference r parse fold ts = .ok record) ∧
    (∀ i i', witnessLine r parse g i ts = .ok i' ↔ ∃ ops, WitnessLine r parse g ts ops ∧
      i' = i.pushAll ops) ∧
    ∀ (i : OvmIndex) ops, WitnessLine r parse g ts ops →
      (i.pushAll ops).content = applyOps i.content ops ∧
      ∀ k, (i.pushAll ops).content.get? (tag 'f' :: k) = i.content.get? (tag 'f' :: k) ∧
        (i.pushAll ops).content.get? (tag 'R' :: k) = i.content.get? (tag 'R' :: k) := by
  refine ⟨fun record => ?_, fun i i' => witnessLine_eq_ok, fun i ops hLine => ?_⟩
  · rw [decodeOVMWitness_eq_ok_iff, decodeOVMWitnessReference_eq_ok_iff]
  · have hContent := OvmIndex.content_pushAll i ops
    refine ⟨hContent, fun k => ?_⟩
    rw [hContent]
    exact ⟨hLine.untouched (by decide) (by decide) _ k, hLine.untouched (by decide) (by decide) _ k⟩

/-- The lines of a file and the writes they stand for. -/
theorem loadLines_eq_ok {ctx : Nat → Option Err} {line : Nat} {lines : List (List JsonToken)}
    {i i' : OvmIndex} :
    loadLines r parse g ctx line lines i = .ok i' ↔
      (∀ n < lines.length, ctx (line + n) = none) ∧
        ∃ ops, List.Forall₂ (WitnessLine r parse g) lines ops ∧ i' = i.pushAll ops.flatten := by
  induction lines generalizing line i with
  | nil =>
    constructor
    · intro h
      cases h
      exact ⟨nofun, [], .nil, rfl⟩
    · rintro ⟨-, ops, hLines, rfl⟩
      cases hLines
      rfl
  | cons ts lines ih =>
    have hContext : (∀ n < (ts :: lines).length, ctx (line + n) = none) ↔
        ctx line = none ∧ ∀ n < lines.length, ctx (line + 1 + n) = none := by
      rw [List.length_cons, Nat.forall_lt_succ_left]
      simp only [Nat.add_assoc, Nat.add_comm 1, Nat.add_zero]
    rw [hContext, loadLines]
    cases hCtx : ctx line with
    | some err => simp
    | none =>
      simp only [true_and]
      rw [bind_eq_ok]
      constructor
      · rintro ⟨mid, hLine, hRest⟩
        obtain ⟨ops, hOps, rfl⟩ := witnessLine_eq_ok.mp (wrapping_eq_ok.mp hLine)
        obtain ⟨hAsked, rest, hLines, rfl⟩ := ih.mp hRest
        exact ⟨hAsked, ops :: rest, .cons hOps hLines, (OvmIndex.pushAll_append i ops _).symm⟩
      · rintro ⟨hAsked, ops, hLines, rfl⟩
        obtain ⟨head, rest, hHead, hRest, rfl⟩ := List.forall₂_cons_left_iff.mp hLines
        refine ⟨i.pushAll head, wrapping_eq_ok.mpr (witnessLine_eq_ok.mpr ⟨head, hHead, rfl⟩), ?_⟩
        exact ih.mpr ⟨hAsked, rest, hRest, OvmIndex.pushAll_append i head _⟩

/-- **A witness file**: every line is accepted, and the index on disk has their entries in
the order of the file. -/
theorem loadOVMWitness_eq_ok {ctx : Nat → Option Err} {lines : List (List JsonToken)}
    {scanErr : Option Err} {i i' : OvmIndex} :
    loadOVMWitness r parse g ctx lines scanErr i = .ok i' ↔
      scanErr = none ∧ (∀ n < lines.length, ctx (n + 1) = none) ∧
        ∃ ops, List.Forall₂ (WitnessLine r parse g) lines ops ∧
          i' = ⟨applyOps i.content ops.flatten, []⟩ := by
  have hFlush : ∀ ops, (i.pushAll ops).flush = ⟨applyOps i.content ops, []⟩ := by
    intro ops
    rw [← OvmIndex.content_pushAll]
    rfl
  simp only [Nat.add_comm _ 1]
  rw [loadOVMWitness, bind_eq_ok]
  constructor
  · rintro ⟨mid, hLoad, hEnd⟩
    obtain ⟨hAsked, ops, hLines, rfl⟩ := loadLines_eq_ok.mp hLoad
    cases scanErr with
    | some err => cases hEnd
    | none =>
      cases hEnd
      exact ⟨rfl, hAsked, ops, hLines, hFlush _⟩
  · rintro ⟨rfl, hAsked, ops, hLines, rfl⟩
    refine ⟨_, loadLines_eq_ok.mpr ⟨hAsked, ops, hLines, rfl⟩, ?_⟩
    exact congrArg Except.ok (hFlush _)

end Lines

end L2State
