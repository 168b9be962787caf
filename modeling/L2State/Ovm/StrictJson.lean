import L2State.Geth.Types
import L2State.Lib.JsonDecoder

/-!
# L2State — strict JSON

`DecodeJSON` of `strictio.go`, the decoding of a text that is exactly one value, and the
names of an object as a strict reader sees them.

The tokens of a text and the text behind the escapes of a string literal come from
outside, and so does what a typed decoding makes of a value.

* `decodeJSON_eq_ok` — **the text is one value, and the typed decoding takes it**.
-/

namespace L2State

open Lib

variable (r : JsonReader Err)

/-- `strictio.DecodeJSON`, where `unmarshal` is the typed decoding of a value. -/
def decodeJSON {α : Type} (label : String) (unmarshal : List JsonToken → Except Err α)
    (ts : List JsonToken) :
    Except Err α := do
  let (v, d) ← wrapping "decode %s: %w" [.text label] (JsonDecoder.decode r (.ofText ts))
  let a ← wrapping "decode %s: %w" [.text label] (unmarshal v)
  match d.decode r with
  | .error err =>
    if err = r.eof then .ok a else .error (.wrap "decode %s trailing data: %w" [.text label] err)
  | .ok _ => .error (.msg "decode %s: trailing JSON value" [.text label])

/-- The error of a value that is not of the type it is decoded into. -/
def jsonTypeErr : Err := .outside "json: cannot unmarshal"

/-- The names of members. -/
def memberNames (members : List JsonMember) : List Bytes := members.map fun m => r.unquote m.1

variable {r}

theorem memberNames_cons (m : JsonMember) (members : List JsonMember) :
    memberNames r (m :: members) = r.unquote m.1 :: memberNames r members := rfl

/-- New names, none twice: the first is new, and the others are new behind it. -/
theorem fresh_memberNames_cons {m : JsonMember} {members : List JsonMember} {seen : List Bytes} :
    (memberNames r (m :: members)).Nodup ∧ (∀ name ∈ memberNames r (m :: members), name ∉ seen) ↔
      r.unquote m.1 ∉ seen ∧ (memberNames r members).Nodup ∧
        ∀ name ∈ memberNames r members, name ∉ r.unquote m.1 :: seen := by
  simp only [memberNames_cons, List.nodup_cons, List.mem_cons, not_or, forall_eq_or_imp]
  constructor
  · rintro ⟨⟨hOnce, hNodup⟩, hNew, hFresh⟩
    exact ⟨hNew, hNodup, fun name hMem => ⟨fun hEq => hOnce (hEq ▸ hMem), hFresh name hMem⟩⟩
  · rintro ⟨hNew, hNodup, hFresh⟩
    exact ⟨⟨fun hMem => (hFresh _ hMem).1 rfl, hNodup⟩, hNew, fun name hMem => (hFresh name hMem).2⟩

/-- The input is one value and nothing else. -/
theorem decodeJSON_eq_ok {α : Type} {label : String} {unmarshal : List JsonToken → Except Err α}
    {ts : List JsonToken} {a : α} :
    decodeJSON r label unmarshal ts = .ok a ↔ JsonValue r.limit ts ∧ unmarshal ts = .ok a := by
  constructor
  · intro h
    obtain ⟨⟨v, d⟩, hDecode, h⟩ := bind_eq_ok.mp h
    obtain ⟨-, rest, rfl, hValue, rfl⟩ := decodeValue_eq_ok.mp (wrapping_eq_ok.mp hDecode)
    obtain ⟨b, hTyped, h⟩ := bind_eq_ok.mp h
    split at h
    next err hTrailing =>
      split at h
      next hEof =>
        cases h
        rw [hEof] at hTrailing
        obtain rfl := decode_eof.mp hTrailing
        rw [List.append_nil]
        exact ⟨hValue, wrapping_eq_ok.mp hTyped⟩
      next => cases h
    next => cases h
  · rintro ⟨hValue, hTyped⟩
    have hDecode : JsonDecoder.decode r (.ofText ts) = .ok (ts, .ofText []) :=
      decodeValue_eq_ok.mpr ⟨rfl, [], (List.append_nil ts).symm, hValue, rfl⟩
    have hEof : JsonDecoder.decode r (.ofText []) = .error r.eof := decode_eof.mpr rfl
    unfold decodeJSON
    rw [hDecode]
    simp only [wrapping_ok, ok_bind, hTyped, hEof, if_true]

/-- The brace that opens the text of an object. -/
theorem token_objectText (members : List JsonMember) :
    JsonDecoder.token r (.ofText (objectText members)) = .ok (.delim .beginObject,
      ⟨.objectStart, [.topValue], membersFrom .objectStart members ++ [.endObject]⟩) :=
  token_beginObject.mpr ⟨_, objectText_eq members, rfl⟩

end L2State
