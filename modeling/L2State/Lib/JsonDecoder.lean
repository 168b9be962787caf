import L2State.Lib.Except
import L2State.Lib.JsonTokens

/-!
# L2State — reading a JSON text token by token

The streaming decoder of Go's `encoding/json`: `Token`, `More` and `Decode` over one
text, with the state that tells which tokens may come next. `Decode` hands a value over
as its tokens; what a typed decoding makes of them is up to the caller.

* `JsonDecoder.token`, `JsonDecoder.more`, `JsonDecoder.decode` — the calls.
* `JsonDecoder.walk` — the loop over the members of an object that a strict reader
  writes: while there is more, a name, a check of the name, a value, its use.
* `walk_object` — **on an object the loop is a fold over its members**.
* `walk_sound` — **a loop that ends has walked over members**.
-/

namespace L2State.Lib

/-- What the decoder takes from outside: the nesting it allows, the text behind the
escapes of a string literal, and its errors at the end of the text and elsewhere. -/
structure JsonReader (ε : Type) where
  limit     : Nat
  unquote   : Bytes → Bytes
  eof       : ε
  malformed : ε
  positive  : 0 < limit
  distinct  : malformed ≠ eof

/-- The states of the decoder. -/
inductive TokenState
  | topValue
  | arrayStart
  | arrayValue
  | arrayComma
  | objectStart
  | objectKey
  | objectColon
  | objectValue
  | objectComma
deriving DecidableEq

namespace TokenState

/-- `tokenValueAllowed`. -/
def valueAllowed : TokenState → Bool
  | .topValue => true
  | .arrayStart => true
  | .arrayValue => true
  | .objectValue => true
  | _ => false

/-- `tokenValueEnd`. -/
def valueEnd : TokenState → TokenState
  | .arrayStart => .arrayComma
  | .arrayValue => .arrayComma
  | .objectValue => .objectComma
  | s => s

end TokenState

/-- A decoder: its state, the states around it, and the text that is left. -/
structure JsonDecoder where
  state : TokenState
  stack : List TokenState
  rest  : List JsonToken

/-- What `Token` returns. -/
inductive Token
  | delim (t : JsonToken)
  | name (text : Bytes)
  | value (raw : List JsonToken)
deriving DecidableEq

namespace JsonDecoder

variable {ε : Type} (r : JsonReader ε)

/-- `NewDecoder`. -/
def ofText (ts : List JsonToken) : JsonDecoder := ⟨.topValue, [], ts⟩

/-- `More`. -/
def more (d : JsonDecoder) : Bool :=
  match d.rest with
  | [] => false
  | t :: _ => t ≠ .endArray ∧ t ≠ .endObject

/-- The part of `Decode` behind the punctuation. -/
def decodeValue (s : TokenState) (stack : List TokenState) (ts : List JsonToken) :
    Except ε (List JsonToken × JsonDecoder) :=
  if s.valueAllowed then
    match ts, readValue r.limit ts with
    | [], _ => .error r.eof
    | _, some (v, rest) => .ok (v, ⟨s.valueEnd, stack, rest⟩)
    | _, none => .error r.malformed
  else .error r.malformed

/-- `Decode`, up to the use of the value. -/
def decode (d : JsonDecoder) : Except ε (List JsonToken × JsonDecoder) :=
  match d.state, d.rest with
  | .arrayComma, [] => .error r.eof
  | .arrayComma, .comma :: rest => decodeValue r .arrayValue d.stack rest
  | .arrayComma, _ => .error r.malformed
  | .objectColon, [] => .error r.eof
  | .objectColon, .colon :: rest => decodeValue r .objectValue d.stack rest
  | .objectColon, _ => .error r.malformed
  | s, ts => decodeValue r s d.stack ts

/-- `]` and `}` in one of the states that allow them. -/
def closing (t : JsonToken) (allowed : Bool) (stack : List TokenState) (rest : List JsonToken) :
    Except ε (Token × JsonDecoder) :=
  match allowed, stack with
  | true, s :: stack => .ok (.delim t, ⟨s.valueEnd, stack, rest⟩)
  | _, _ => .error r.malformed

/-- `[` and `{`. -/
def opening (t : JsonToken) (inside s : TokenState) (stack : List TokenState)
    (rest : List JsonToken) :
    Except ε (Token × JsonDecoder) :=
  if s.valueAllowed then .ok (.delim t, ⟨inside, s :: stack, rest⟩) else .error r.malformed

/-- A value that is not an array or an object. -/
def scalarToken (s : TokenState) (stack : List TokenState) (ts : List JsonToken) :
    Except ε (Token × JsonDecoder) := do
  let (v, d) ← decodeValue r s stack ts
  return (.value v, d)

/-- The loop of `Token`. -/
def tokenFrom : List JsonToken → TokenState → List TokenState → Except ε (Token × JsonDecoder)
  | [], _, _ => .error r.eof
  | .beginArray :: rest, s, stack => opening r .beginArray .arrayStart s stack rest
  | .endArray :: rest, s, stack =>
    closing r .endArray (s = .arrayStart ∨ s = .arrayComma) stack rest
  | .beginObject :: rest, s, stack => opening r .beginObject .objectStart s stack rest
  | .endObject :: rest, s, stack =>
    closing r .endObject (s = .objectStart ∨ s = .objectComma) stack rest
  | .colon :: rest, s, stack =>
    if s = .objectColon then tokenFrom rest .objectValue stack else .error r.malformed
  | .comma :: rest, s, stack =>
    if s = .arrayComma then tokenFrom rest .arrayValue stack
    else if s = .objectComma then tokenFrom rest .objectKey stack
    else .error r.malformed
  | .text raw :: rest, s, stack =>
    if s = .objectStart ∨
      s = .objectKey then .ok (.name (r.unquote raw), ⟨.objectColon, stack, rest⟩)
    else scalarToken r s stack (.text raw :: rest)
  | t :: rest, s, stack => scalarToken r s stack (t :: rest)

/-- `Token`. -/
def token (d : JsonDecoder) : Except ε (Token × JsonDecoder) := tokenFrom r d.rest d.state d.stack

/-- The loop over the members of an object, with `enter` for the name and `leave` for the
value. The tokens that are left bound the rounds. -/
def walk {σ τ : Type} (notName : ε) (enter : σ → Bytes → Except ε τ)
    (leave : τ → List JsonToken → Except ε σ) : Nat → JsonDecoder → σ → Except ε (σ × JsonDecoder)
  | 0, d, s => .ok (s, d)
  | n + 1, d, s =>
    if d.more then do
      let (t, d) ← d.token r
      match t with
      | .name text => do
        let inside ← enter s text
        let (v, d) ← d.decode r
        let s ← leave inside v
        walk notName enter leave n d s
      | _ => .error notName
    else .ok (s, d)

end JsonDecoder

/-! ## The calls inside an object -/

section Object

variable {ε : Type} {r : JsonReader ε} {stack : List TokenState} {ts : List JsonToken}

variable {s : TokenState} {d : JsonDecoder}

/-- A value is decoded where one is allowed and the text begins with one. -/
theorem decodeValue_eq_ok {v : List JsonToken} :
    JsonDecoder.decodeValue r s stack ts = .ok (v, d) ↔
      s.valueAllowed = true ∧ ∃ rest, ts = v ++ rest ∧ JsonValue r.limit v ∧
        d = ⟨s.valueEnd, stack, rest⟩ := by
  have hRest : (∃ rest, ts = v ++ rest ∧ JsonValue r.limit v ∧ d = ⟨s.valueEnd, stack, rest⟩) ↔
      ∃ rest, readValue r.limit ts = some (v, rest) ∧ d = ⟨s.valueEnd, stack, rest⟩ := by
    simp only [readValue_eq_some_iff, and_assoc]
  rw [hRest]
  unfold JsonDecoder.decodeValue
  by_cases hAllowed : s.valueAllowed = true
  · rw [if_pos hAllowed]
    cases hRead : readValue r.limit ts with
    | none => cases ts <;> simp
    | some p =>
      obtain ⟨v', rest'⟩ := p
      cases ts with
      | nil =>
        obtain ⟨hText, hValue⟩ := readValue_eq_some_iff.mp hRead
        exact absurd (List.append_eq_nil_iff.mp hText.symm).1 hValue.ne_nil
      | cons t ts =>
        simp only [Except.ok.injEq, Prod.mk.injEq, Option.some.injEq, hAllowed, true_and]
        constructor
        · rintro ⟨rfl, rfl⟩
          exact ⟨rest', ⟨rfl, rfl⟩, rfl⟩
        · rintro ⟨rest, ⟨rfl, rfl⟩, rfl⟩
          exact ⟨rfl, rfl⟩
  · rw [if_neg hAllowed]
    refine ⟨nofun, ?_⟩
    rintro ⟨hOn, -⟩
    exact absurd hOn hAllowed

/-- Behind a name there is a colon and a value. -/
theorem decode_objectColon {v : List JsonToken} :
    JsonDecoder.decode r ⟨.objectColon, stack, ts⟩ = .ok (v, d) ↔
      ∃ rest, ts = .colon :: (v ++ rest) ∧ JsonValue r.limit v ∧
        d = ⟨.objectComma, stack, rest⟩ := by
  cases ts with
  | nil => exact ⟨nofun, fun ⟨_, h, _⟩ => nomatch h⟩
  | cons t ts =>
    by_cases hColon : t = .colon
    · subst hColon
      show JsonDecoder.decodeValue r .objectValue stack ts = .ok (v, d) ↔ _
      rw [decodeValue_eq_ok]
      constructor
      · rintro ⟨-, rest, rfl, hValue, rfl⟩
        exact ⟨rest, rfl, hValue, rfl⟩
      · rintro ⟨rest, hText, hValue, rfl⟩
        exact ⟨rfl, rest, (List.cons.inj hText).2, hValue, rfl⟩
    · have hError : JsonDecoder.decode r ⟨.objectColon, stack, t :: ts⟩ = .error r.malformed := by
        cases t <;> first | rfl | exact absurd rfl hColon
      rw [hError]
      refine ⟨nofun, ?_⟩
      rintro ⟨rest, hText, -⟩
      exact absurd (List.cons.inj hText).1 hColon

/-- The tokens that `Token` accepts where a name is expected. -/
theorem tokenFrom_key (hState : s = .objectStart ∨ s = .objectKey) {t : Token}
    (h : JsonDecoder.tokenFrom r ts s stack = .ok (t, d)) :
    (∃ raw rest, ts = .text raw :: rest ∧ t = .name (r.unquote raw) ∧
      d = ⟨.objectColon, stack, rest⟩) ∨
      s = .objectStart ∧ ∃ rest, ts = .endObject :: rest ∧ t = .delim .endObject := by
  cases ts with
  | nil => cases h
  | cons c rest =>
    have hScalar : ∀ l, JsonDecoder.scalarToken r s stack l = .error r.malformed := by
      rcases hState with rfl | rfl <;> intro l <;> rfl
    cases c with
    | text raw =>
      rw [JsonDecoder.tokenFrom, if_pos hState] at h
      cases h
      exact .inl ⟨raw, rest, rfl, rfl, rfl⟩
    | endObject =>
      rcases hState with rfl | rfl
      · refine .inr ⟨rfl, rest, rfl, ?_⟩
        cases stack with
        | nil => cases h
        | cons s' stack' => cases h; rfl
      · cases h
    | beginObject | beginArray | endArray | comma | colon =>
      rcases hState with rfl | rfl <;> cases h
    | number | bool | null | bad =>
      rw [JsonDecoder.tokenFrom, hScalar] at h <;> first | cases h | nofun

/-- The text of members, where a name is expected or where a comma is. -/
def membersFrom (s : TokenState) (members : List JsonMember) : List JsonToken :=
  if s = .objectStart then itemsText (members.map memberText) else commaText
    (members.map memberText)

theorem membersFrom_cons (hState : s = .objectStart ∨ s = .objectComma) (m : JsonMember)
    (members : List JsonMember) :
    membersFrom s (m :: members) =
      (if s = .objectStart then [] else [.comma]) ++ memberText m ++
      membersFrom .objectComma members := by
  rcases hState with rfl | rfl <;> simp [membersFrom]

/-- The tokens that `Token` accepts between members. -/
theorem token_between (hState : s = .objectStart ∨ s = .objectComma) {t : Token}
    (h : JsonDecoder.token r ⟨s, stack, ts⟩ = .ok (t, d)) :
    (∃ raw rest, ts = (if s = .objectStart then [] else [.comma]) ++ .text raw :: rest ∧
      t = .name (r.unquote raw) ∧ d = ⟨.objectColon, stack, rest⟩) ∨
      ∃ rest, ts = .endObject :: rest ∧ t = .delim .endObject := by
  rcases hState with rfl | rfl
  · rcases tokenFrom_key (.inl rfl) h with ⟨raw, rest, hText, hToken, hDecoder⟩ | ⟨-, hEnd⟩
    · exact .inl ⟨raw, rest, hText, hToken, hDecoder⟩
    · exact .inr hEnd
  · rw [JsonDecoder.token] at h
    cases ts with
    | nil => cases h
    | cons c rest =>
      cases c with
      | comma =>
        rcases tokenFrom_key (.inr rfl) h with ⟨raw, rest', rfl, hToken, hDecoder⟩ | ⟨hState, -⟩
        · exact .inl ⟨raw, rest', rfl, hToken, hDecoder⟩
        · cases hState
      | endObject =>
        refine .inr ⟨rest, rfl, ?_⟩
        cases stack with
        | nil => cases h
        | cons s' stack' => cases h; rfl
      | _ => cases h

/-- The name of a member is read. -/
theorem token_member (hState : s = .objectStart ∨ s = .objectComma) (raw : Bytes)
    (rest : List JsonToken) :
    JsonDecoder.token r
      ⟨s, stack, (if s = .objectStart then [] else [.comma]) ++ .text raw :: rest⟩ =
      .ok (.name (r.unquote raw), ⟨.objectColon, stack, rest⟩) := by
  rcases hState with rfl | rfl <;> rfl

/-- The brace that closes an object. -/
theorem token_endObject {top : TokenState} (hState : s = .objectStart ∨ s = .objectComma)
    (rest : List JsonToken) :
    JsonDecoder.token r ⟨s, top :: stack, .endObject :: rest⟩ =
      .ok (.delim .endObject, ⟨top.valueEnd, stack, rest⟩) := by
  rcases hState with rfl | rfl <;> rfl

/-- The brace that opens an object. -/
theorem token_beginObject :
    JsonDecoder.token r (.ofText ts) = .ok (.delim .beginObject, d) ↔
      ∃ rest, ts = .beginObject :: rest ∧ d = ⟨.objectStart, [.topValue], rest⟩ := by
  constructor
  · intro h
    have hScalar : ∀ l, JsonDecoder.scalarToken r .topValue [] l ≠
        .ok (.delim .beginObject, d) := by
      intro l hOk
      obtain ⟨⟨v, d'⟩, -, hEq⟩ := bind_eq_ok.mp hOk
      cases hEq
    rw [JsonDecoder.token, JsonDecoder.ofText] at h
    cases ts with
    | nil => cases h
    | cons c rest =>
      cases c with
      | beginObject => cases h; exact ⟨rest, rfl, rfl⟩
      | beginArray | endObject | endArray | comma | colon => cases h
      | text | number | bool | null | bad => exact absurd h (hScalar _)
  · rintro ⟨rest, rfl, rfl⟩
    rfl

theorem decodeValue_eof :
    JsonDecoder.decodeValue r .topValue stack ts = .error r.eof ↔ ts = [] := by
  constructor
  · intro h
    cases ts with
    | nil => rfl
    | cons c rest =>
      unfold JsonDecoder.decodeValue at h
      cases hRead : readValue r.limit (c :: rest) with
      | none =>
        rw [hRead] at h
        exact absurd (Except.error.inj h) r.distinct
      | some p =>
        rw [hRead] at h
        cases h
  · rintro rfl
    rfl

/-- `Decode` finds the end of the text where only white space is left. -/
theorem decode_eof : JsonDecoder.decode r (.ofText ts) = .error r.eof ↔ ts = [] :=
  decodeValue_eof

/-- So does `Token`. -/
theorem token_eof : JsonDecoder.token r (.ofText ts) = .error r.eof ↔ ts = [] := by
  constructor
  · intro h
    have hScalar : ∀ c l, JsonDecoder.scalarToken r .topValue [] (c :: l) ≠ .error r.eof := by
      intro c l hError
      cases hDecode : JsonDecoder.decodeValue r .topValue [] (c :: l) with
      | ok p =>
        rw [JsonDecoder.scalarToken, hDecode] at hError
        cases hError
      | error e =>
        rw [JsonDecoder.scalarToken, hDecode] at hError
        cases hError
        exact List.cons_ne_nil c l (decodeValue_eof.mp hDecode)
    rw [JsonDecoder.token, JsonDecoder.ofText] at h
    cases ts with
    | nil => rfl
    | cons c rest =>
      cases c with
      | beginObject | beginArray => cases h
      | endObject | endArray | comma | colon => exact absurd (Except.error.inj h) r.distinct
      | text | number | bool | null | bad => exact absurd h (hScalar _ _)
  · rintro rfl
    rfl

end Object

/-! ## The loop -/

section Walk

variable {ε σ τ : Type} {r : JsonReader ε} {notName : ε} {enter : σ → Bytes → Except ε τ}
  {leave : τ → List JsonToken → Except ε σ} {stack : List TokenState}

/-- What a round does with a member. -/
def memberRound (r : JsonReader ε) (enter : σ → Bytes → Except ε τ)
    (leave : τ → List JsonToken → Except ε σ) (s : σ) (m : JsonMember) : Except ε σ := do
  let inside ← enter s (r.unquote m.1)
  leave inside m.2

variable {state : TokenState} {ts : List JsonToken} {d' : JsonDecoder}

/-- **On an object the loop is a fold over its members.** -/
theorem walk_object (hState : state = .objectStart ∨ state = .objectComma)
    {members : List JsonMember} (hValues : ∀ m ∈ members, JsonValue r.limit m.2) {n : Nat}
    (hRounds : members.length ≤ n) (rest : List JsonToken) (s : σ) :
    JsonDecoder.walk r notName enter leave n
      ⟨state, stack, membersFrom state members ++ .endObject :: rest⟩ s =
      (members.foldlM (memberRound r enter leave) s >>= fun s' =>
        .ok (s', ⟨if members = [] then state else .objectComma, stack, .endObject :: rest⟩)) := by
  induction members generalizing state n s with
  | nil =>
    have hText : membersFrom state [] ++ .endObject :: rest = .endObject :: rest := by
      rcases hState with rfl | rfl <;> rfl
    rw [hText]
    cases n with
    | zero => rfl
    | succ n => rfl
  | cons m members ih =>
    cases n with
    | zero => cases hRounds
    | succ n =>
      obtain ⟨raw, v⟩ := m
      have hText : membersFrom state ((raw, v) :: members) ++ .endObject :: rest =
          (if state = .objectStart then [] else [.comma]) ++
            .text raw :: .colon ::
              (v ++ (membersFrom .objectComma members ++ .endObject :: rest)) := by
        rw [membersFrom_cons hState]
        simp [memberText]
      have hMore : JsonDecoder.more
          ⟨state, stack, membersFrom state ((raw, v) :: members) ++ .endObject :: rest⟩ =
          true := by
        rw [hText]
        rcases hState with rfl | rfl <;> rfl
      have hTail := ih (.inr rfl) (fun m hm => hValues m (List.mem_cons_of_mem _ hm))
        (Nat.le_of_succ_le_succ hRounds)
      rw [JsonDecoder.walk, if_pos hMore, hText, token_member hState]
      simp only [ok_bind, List.foldlM_cons, memberRound]
      cases hEnter : enter s (r.unquote raw) with
      | error e => rfl
      | ok inside =>
        have hDecode : JsonDecoder.decode r ⟨.objectColon, stack,
            .colon :: (v ++ (membersFrom .objectComma members ++ .endObject :: rest))⟩ =
              .ok (v, ⟨.objectComma, stack, membersFrom .objectComma members ++
                .endObject :: rest⟩) :=
          decode_objectColon.mpr ⟨_, rfl, hValues (raw, v) List.mem_cons_self, rfl⟩
        simp only [ok_bind, hDecode]
        cases leave inside v with
        | error e => rfl
        | ok s' =>
          simp only [ok_bind, hTail s', List.cons_ne_nil, if_false, ite_self]

/-- **A loop that ends has walked over members**, and no member follows. -/
theorem walk_sound (hState : state = .objectStart ∨ state = .objectComma) {n : Nat}
    (hRounds : ts.length ≤ n) {s s' : σ} {d : JsonDecoder}
    (hWalk : JsonDecoder.walk r notName enter leave n ⟨state, stack, ts⟩ s = .ok (s', d)) :
    d.more = false ∧ (d.state = .objectStart ∨ d.state = .objectComma) ∧
      ∃ members, ts = membersFrom state members ++ d.rest ∧
        ∀ m ∈ members, JsonValue r.limit m.2 := by
  have hNil : ts = membersFrom state [] ++ ts := by
    rcases hState with rfl | rfl <;> rfl
  induction n generalizing state ts s with
  | zero =>
    cases hWalk
    obtain rfl := List.length_eq_zero_iff.mp (Nat.le_zero.mp hRounds)
    exact ⟨rfl, hState, [], hNil, by simp⟩
  | succ n ih =>
    rw [JsonDecoder.walk] at hWalk
    split at hWalk
    next hMore =>
      obtain ⟨⟨t, d₁⟩, hToken, hWalk⟩ := bind_eq_ok.mp hWalk
      rcases token_between hState hToken with ⟨raw, rest, rfl, rfl, rfl⟩ | ⟨rest, rfl, rfl⟩
      · obtain ⟨inside, -, hWalk⟩ := bind_eq_ok.mp hWalk
        obtain ⟨⟨v, d₂⟩, hDecode, hWalk⟩ := bind_eq_ok.mp hWalk
        obtain ⟨rest', rfl, hValue, rfl⟩ := decode_objectColon.mp hDecode
        obtain ⟨s₂, -, hWalk⟩ := bind_eq_ok.mp hWalk
        -- the text behind the member is shorter
        have hShorter : rest'.length ≤ n := by
          simp only [List.length_append, List.length_cons] at hRounds
          omega
        obtain ⟨hEnd, hPlace, members, rfl, hValues⟩ := ih (.inr rfl) hShorter hWalk rfl
        refine ⟨hEnd, hPlace, (raw, v) :: members, ?_, List.forall_mem_cons.mpr ⟨hValue, hValues⟩⟩
        rw [membersFrom_cons hState]
        simp [memberText]
      · cases hMore
    next hMore =>
      cases hWalk
      exact ⟨by simpa using hMore, hState, [], hNil, by simp⟩

/-- A token behind the loop closes the object. -/
theorem token_behind_walk {d : JsonDecoder} {t : Token} (hMore : d.more = false)
    (hState : d.state = .objectStart ∨ d.state = .objectComma) (hToken : d.token r = .ok (t, d')) :
    t = .delim .endObject ∧ ∃ rest, d.rest = .endObject :: rest := by
  obtain ⟨state, stack, ts⟩ := d
  have hPlace : state = .objectStart ∨ state = .objectComma := hState
  rcases token_between hPlace hToken with ⟨raw, rest, rfl, rfl, -⟩ | ⟨rest, rfl, rfl⟩
  · rcases hPlace with rfl | rfl <;> cases hMore
  · exact ⟨rfl, rest, rfl⟩

/-- The rounds of an object are fewer than its tokens. -/
theorem length_members_le (members : List JsonMember) (rest : List JsonToken) :
    members.length ≤ (membersFrom .objectStart members ++ .endObject :: rest).length := by
  have hComma : ∀ ms : List JsonMember, ms.length ≤ (commaText (ms.map memberText)).length := by
    intro ms
    induction ms with
    | nil => simp
    | cons m ms ih =>
      rw [List.map_cons, commaText_cons, List.length_cons, List.length_cons, List.length_append]
      omega
  cases members with
  | nil => simp
  | cons m members =>
    have hTail := hComma members
    have hText : membersFrom .objectStart (m :: members) =
        memberText m ++ commaText (members.map memberText) := by
      simp [membersFrom]
    rw [hText, List.length_append, List.length_append, List.length_cons, List.length_cons]
    omega

/-- **The strict reading of an object**: the loop, and a token behind it. -/
theorem walk_token_iff {s s' : σ} :
    (∃ d t, JsonDecoder.walk r notName enter leave ts.length ⟨.objectStart, [.topValue], ts⟩ s =
      .ok (s', d) ∧ d.token r = .ok (t, d')) ↔
      ∃ members rest, ts = membersFrom .objectStart members ++ .endObject :: rest ∧
        (∀ m ∈ members, JsonValue r.limit m.2) ∧
        members.foldlM (memberRound r enter leave) s = .ok s' ∧ d' = .ofText rest := by
  -- where the loop stops in front of the brace
  have hPlace (members : List JsonMember) :
      (if members = [] then TokenState.objectStart else .objectComma) = .objectStart ∨
        (if members = [] then TokenState.objectStart else .objectComma) = .objectComma := by
    split
    · exact .inl rfl
    · exact .inr rfl
  constructor
  · rintro ⟨d, t, hWalk, hToken⟩
    obtain ⟨hMore, hState, members, hText, hValues⟩ := walk_sound (.inl rfl) (Nat.le_refl _) hWalk
    obtain ⟨rfl, rest, hRest⟩ := token_behind_walk hMore hState hToken
    rw [hRest] at hText
    subst hText
    rw [walk_object (.inl rfl) hValues (length_members_le members rest)] at hWalk
    obtain ⟨s₁, hFold, hEq⟩ := bind_eq_ok.mp hWalk
    cases hEq
    rw [token_endObject (hPlace members)] at hToken
    cases hToken
    exact ⟨members, rest, rfl, hValues, hFold, rfl⟩
  · rintro ⟨members, rest, rfl, hValues, hFold, rfl⟩
    refine ⟨⟨if members = [] then .objectStart else .objectComma, [.topValue], .endObject :: rest⟩,
      .delim .endObject, ?_, token_endObject (hPlace members) rest⟩
    rw [walk_object (.inl rfl) hValues (length_members_le members rest), hFold]
    rfl

/-- The token behind the loop is the brace that closes the object. -/
theorem walk_closed_iff {s s' : σ} :
    (∃ d, JsonDecoder.walk r notName enter leave ts.length ⟨.objectStart, [.topValue], ts⟩ s =
      .ok (s', d) ∧ d.token r = .ok (.delim .endObject, d')) ↔
      ∃ members rest, ts = membersFrom .objectStart members ++ .endObject :: rest ∧
        (∀ m ∈ members, JsonValue r.limit m.2) ∧
        members.foldlM (memberRound r enter leave) s = .ok s' ∧ d' = .ofText rest := by
  rw [← walk_token_iff]
  constructor
  · rintro ⟨d, hWalk, hToken⟩
    exact ⟨d, _, hWalk, hToken⟩
  · rintro ⟨d, t, hWalk, hToken⟩
    obtain ⟨hMore, hState, -⟩ := walk_sound (.inl rfl) (Nat.le_refl _) hWalk
    obtain ⟨rfl, -⟩ := token_behind_walk hMore hState hToken
    exact ⟨d, hWalk, hToken⟩

theorem objectText_eq (members : List JsonMember) :
    objectText members = .beginObject :: (membersFrom .objectStart members ++ [.endObject]) := rfl

end Walk

end L2State.Lib
