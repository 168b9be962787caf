import L2State.Lib.Bytes

/-!
# L2State — JSON values as token lists

The grammar of JSON over tokens, and the pushdown scanner that finds the end of a
value. The tokens are what a JSON lexer makes of a text, white space dropped; `bad`
stands where the bytes are no token.

* `JsonValue` — the values of at most a given nesting.
* `scan` — the scanner: it stops at the end of the first value.
* `readValue_eq_some_iff` — **the scanner reads exactly the values**, and nothing
  behind them.
* `objectText_inj` — the members of an object are determined by its text.
-/

namespace L2State.Lib

inductive JsonToken
  | beginObject
  | endObject
  | beginArray
  | endArray
  | comma
  | colon
  /-- A string literal, as it is written between its quotes. -/
  | text (raw : Bytes)
  | number (raw : Bytes)
  | bool (b : Bool)
  | null
  | bad
deriving DecidableEq

def JsonToken.isScalar : JsonToken → Bool
  | .text _ => true
  | .number _ => true
  | .bool _ => true
  | .null => true
  | _ => false

/-! ## The grammar -/

/-- A member: the name as it is written, and the value. -/
abbrev JsonMember := Bytes × List JsonToken

def memberText (m : JsonMember) : List JsonToken := .text m.1 :: .colon :: m.2

/-- The items or members behind the first. -/
def commaText (items : List (List JsonToken)) : List JsonToken :=
  items.flatMap (JsonToken.comma :: ·)

/-- Items with commas between them. -/
def itemsText : List (List JsonToken) → List JsonToken
  | [] => []
  | v :: items => v ++ commaText items

def arrayText (items : List (List JsonToken)) : List JsonToken :=
  .beginArray :: (itemsText items ++ [.endArray])

def objectText (members : List JsonMember) : List JsonToken :=
  .beginObject :: (itemsText (members.map memberText) ++ [.endObject])

/-- The values with at most `depth` arrays and objects around a token. -/
inductive JsonValue : Nat → List JsonToken → Prop
  | scalar {depth : Nat} {t : JsonToken} (hScalar : t.isScalar = true) : JsonValue depth [t]
  | array {depth : Nat} {items : List (List JsonToken)} (hItems : ∀ v ∈ items, JsonValue depth v) :
    JsonValue (depth + 1) (arrayText items)
  | object {depth : Nat} {members : List JsonMember}
      (hMembers : ∀ m ∈ members, JsonValue depth m.2) :
    JsonValue (depth + 1) (objectText members)

variable {depth : Nat} {v : List JsonToken} {members : List JsonMember} {limit : Nat} {pc : ScanPc}
  {stack : List JsonFrame} {t : JsonToken} {ts : List JsonToken} {stack' : List JsonFrame}
  {c rest : List JsonToken}

theorem JsonValue.ne_nil (h : JsonValue depth v) : v ≠ [] := by
  cases h <;> simp [arrayText, objectText]

theorem JsonValue.mono {depth' : Nat} (h : JsonValue depth v) (hLe : depth ≤ depth') :
    JsonValue depth' v := by
  induction h generalizing depth' with
  | scalar hScalar => exact .scalar hScalar
  | array _ ih =>
    obtain ⟨k, rfl⟩ := Nat.exists_eq_add_of_le' (Nat.le_of_add_left_le hLe)
    exact .array fun v hv => ih v hv (by omega)
  | object _ ih =>
    obtain ⟨k, rfl⟩ := Nat.exists_eq_add_of_le' (Nat.le_of_add_left_le hLe)
    exact .object fun m hm => ih m hm (by omega)

/-- A value that starts with a brace is an object. -/
theorem JsonValue.eq_object {body : List JsonToken} (h : JsonValue depth (.beginObject :: body)) :
    ∃ members, .beginObject :: body = objectText members ∧ ∀ m ∈ members, JsonValue depth m.2 := by
  generalize hText : JsonToken.beginObject :: body = text at h
  cases h with
  | scalar hScalar =>
    obtain rfl := (List.cons.inj hText).1
    cases hScalar
  | array => cases hText
  | object hMembers => exact ⟨_, rfl, fun m hm => (hMembers m hm).mono (Nat.le_succ _)⟩

@[simp] theorem commaText_nil : commaText [] = [] := rfl

@[simp] theorem commaText_cons (v : List JsonToken) (items : List (List JsonToken)) :
    commaText (v :: items) = .comma :: (v ++ commaText items) := rfl

@[simp] theorem itemsText_cons (v : List JsonToken) (items : List (List JsonToken)) :
    itemsText (v :: items) = v ++ commaText items := rfl

theorem length_le_commaText {items : List (List JsonToken)} (hv : v ∈ items) :
    v.length ≤ (commaText items).length := by
  induction items with
  | nil => cases hv
  | cons w items ih =>
    rw [commaText_cons, List.length_cons, List.length_append]
    rcases List.mem_cons.mp hv with rfl | hv
    · omega
    · exact Nat.le_trans (ih hv) (by omega)

/-- The value of a member is a shorter text. -/
theorem length_lt_of_member {m : JsonMember} (hm : m ∈ members) :
    m.2.length < (objectText members).length := by
  have hComma := length_le_commaText (List.mem_map_of_mem (f := memberText) hm)
  have hText : (commaText (members.map memberText)).length ≤
      (itemsText (members.map memberText)).length + 1 := by
    cases members.map memberText with
    | nil => exact Nat.zero_le _
    | cons v items => exact Nat.le_refl _
  simp only [memberText, objectText, List.length_cons, List.length_append,
    List.length_nil] at hComma hText ⊢
  omega

/-! ## The scanner -/

inductive JsonFrame
  | array
  | object
deriving DecidableEq

/-- What the scanner expects. -/
inductive ScanPc
  | value
  /-- The first item of an array, or its end. -/
  | firstItem
  /-- The first name of an object, or its end. -/
  | firstName
  | name
  | colon
  /-- What may follow a value. -/
  | after
deriving DecidableEq

/-- A value starts; `limit` is the nesting that the scanner allows. -/
def scanValue (limit : Nat) (stack : List JsonFrame) (t : JsonToken) :
    Option (ScanPc × List JsonFrame) :=
  match t with
  | .beginObject => if stack.length < limit then some (.firstName, .object :: stack) else none
  | .beginArray => if stack.length < limit then some (.firstItem, .array :: stack) else none
  | t => if t.isScalar then some (.after, stack) else none

def scanStep (limit : Nat) : ScanPc → List JsonFrame → JsonToken → Option (ScanPc × List JsonFrame)
  | .value, stack, t => scanValue limit stack t
  | .firstItem, .array :: stack, .endArray => some (.after, stack)
  | .firstItem, stack, t => scanValue limit stack t
  | .firstName, .object :: stack, .endObject => some (.after, stack)
  | .firstName, stack, .text _ => some (.colon, stack)
  | .firstName, _, _ => none
  | .name, stack, .text _ => some (.colon, stack)
  | .name, _, _ => none
  | .colon, stack, .colon => some (.value, stack)
  | .colon, _, _ => none
  | .after, .array :: stack, .comma => some (.value, .array :: stack)
  | .after, .array :: stack, .endArray => some (.after, stack)
  | .after, .object :: stack, .comma => some (.name, .object :: stack)
  | .after, .object :: stack, .endObject => some (.after, stack)
  | .after, _, _ => none

/-- The tokens behind the value, if there is one. -/
def scan (limit : Nat) : ScanPc → List JsonFrame → List JsonToken → Option (List JsonToken)
  | .after, [], ts => some ts
  | _, _, [] => none
  | pc, stack, t :: ts =>
    match scanStep limit pc stack t with
    | some (pc, stack) => scan limit pc stack ts
    | none => none

/-- The first value and what stands behind it. -/
def readValue (limit : Nat) (ts : List JsonToken) : Option (List JsonToken × List JsonToken) :=
  (scan limit .value [] ts).map fun rest => (ts.take (ts.length - rest.length), rest)

/-! ## Values are read -/

theorem scan_cons (hOpen : ¬ (pc = .after ∧ stack = [])) :
    scan limit pc stack (t :: ts) =
      match scanStep limit pc stack t with
      | some (pc, stack) => scan limit pc stack ts
      | none => none := by
  rw [scan]
  exact fun hPc hStack => hOpen ⟨hPc, hStack⟩

theorem scan_step {pc' : ScanPc} (hOpen : ¬ (pc = .after ∧ stack = []))
    (hStep : scanStep limit pc stack t = some (pc', stack')) (ts : List JsonToken) :
    scan limit pc stack (t :: ts) = scan limit pc' stack' ts := by
  rw [scan_cons hOpen, hStep]

/-- A value that can stand in an array is scanned there also as its first item. -/
theorem scan_firstItem (h : JsonValue depth v) (ts : List JsonToken) :
    scan limit .firstItem (.array :: stack) (v ++ ts) =
      scan limit .value (.array :: stack) (v ++ ts) := by
  have hHead : ∃ t rest, v = t :: rest ∧ t ≠ .endArray := by
    cases h with
    | @scalar _ t hScalar => exact ⟨t, [], rfl, fun hEq => by rw [hEq] at hScalar; cases hScalar⟩
    | array => exact ⟨_, _, rfl, nofun⟩
    | object => exact ⟨_, _, rfl, nofun⟩
  obtain ⟨t, rest, rfl, hOther⟩ := hHead
  rw [List.cons_append, scan_cons (by simp), scan_cons (by simp)]
  cases t <;> first | rfl | exact absurd rfl hOther

/-- **A value is scanned** whatever is open around it. -/
theorem scan_value (h : JsonValue depth v) (hDepth : stack.length + depth ≤ limit)
    (ts : List JsonToken) :
    scan limit .value stack (v ++ ts) = scan limit .after stack ts := by
  induction h generalizing stack ts with
  | @scalar depth t hScalar =>
    refine scan_step (by simp) ?_ ts
    cases t <;> first | rfl | cases hScalar
  | @array depth items hItems ih =>
    have hOpens : scanStep limit .value stack .beginArray = some (.firstItem, .array :: stack) :=
      if_pos (by omega)
    have hRoom : (JsonFrame.array :: stack).length + depth ≤ limit := by
      rw [List.length_cons]
      omega
    -- behind the first item there are commas and items
    have hComma : scanStep limit .after (.array :: stack) .comma =
        some (.value, .array :: stack) := rfl
    have hMore : ∀ more : List (List JsonToken), (∀ v ∈ more, v ∈ items) →
        scan limit .after (.array :: stack) (commaText more ++ .endArray :: ts) =
          scan limit .after stack ts := by
      intro more hMem
      induction more with
      | nil => exact scan_step (by simp) rfl ts
      | cons v more ihMore =>
        rw [commaText_cons, List.cons_append, List.append_assoc,
          scan_step (by simp) hComma, ih v (hMem v List.mem_cons_self) hRoom]
        exact ihMore fun w hw => hMem w (List.mem_cons_of_mem _ hw)
    rw [arrayText, List.cons_append, scan_step (by simp) hOpens, List.append_assoc]
    cases items with
    | nil => exact scan_step (by simp) rfl ts
    | cons v items =>
      rw [itemsText_cons, List.append_assoc, scan_firstItem (hItems v List.mem_cons_self),
        ih v List.mem_cons_self hRoom]
      exact hMore items fun w hw => List.mem_cons_of_mem _ hw
  | @object depth members hMembers ih =>
    have hOpens : scanStep limit .value stack .beginObject = some (.firstName, .object :: stack) :=
      if_pos (by omega)
    have hRoom : (JsonFrame.object :: stack).length + depth ≤ limit := by
      rw [List.length_cons]
      omega
    -- a member is a name, a colon and a value
    have hMember : ∀ m ∈ members, ∀ pc, pc = .firstName ∨ pc = .name → ∀ ts,
        scan limit pc (.object :: stack) (memberText m ++ ts) =
          scan limit .after (.object :: stack) ts := by
      intro m hm pc hPc ts
      have hName : scanStep limit pc (.object :: stack) (.text m.1) =
          some (.colon, .object :: stack) := by
        rcases hPc with rfl | rfl <;> rfl
      have hOpen : ¬ (pc = .after ∧ JsonFrame.object :: stack = []) := by simp
      have hColon : scanStep limit .colon (.object :: stack) .colon =
          some (.value, .object :: stack) := rfl
      rw [memberText, List.cons_append, List.cons_append, scan_step hOpen hName,
        scan_step (by simp) hColon]
      exact ih m hm hRoom ts
    have hComma : scanStep limit .after (.object :: stack) .comma =
        some (.name, .object :: stack) := rfl
    have hMore : ∀ more : List JsonMember, (∀ m ∈ more, m ∈ members) →
        scan limit .after (.object :: stack) (commaText (more.map memberText) ++ .endObject :: ts) =
          scan limit .after stack ts := by
      intro more hMem
      induction more with
      | nil => exact scan_step (by simp) rfl ts
      | cons m more ihMore =>
        rw [List.map_cons, commaText_cons, List.cons_append, List.append_assoc,
          scan_step (by simp) hComma, hMember m (hMem m List.mem_cons_self) .name (.inr rfl)]
        exact ihMore fun w hw => hMem w (List.mem_cons_of_mem _ hw)
    rw [objectText, List.cons_append, scan_step (by simp) hOpens, List.append_assoc]
    cases members with
    | nil => exact scan_step (by simp) rfl ts
    | cons m members =>
      rw [List.map_cons, itemsText_cons, List.append_assoc,
        hMember m List.mem_cons_self .firstName (.inl rfl)]
      exact hMore members fun w hw => List.mem_cons_of_mem _ hw

/-! ## Only values are read -/

/-- What ends an open array or object behind one of its values. -/
def FrameTail (depth : Nat) : JsonFrame → List JsonToken → Prop
  | .array, c => ∃ items, (∀ v ∈ items, JsonValue depth v) ∧ c = commaText items ++ [.endArray]
  | .object, c => ∃ members : List JsonMember, (∀ m ∈ members, JsonValue depth m.2) ∧
    c = commaText (members.map memberText) ++ [.endObject]

/-- What ends all that is open behind a value. -/
def StackTail (limit : Nat) : List JsonFrame → List JsonToken → Prop
  | [], c => c = []
  | f :: stack, c =>
    ∃ a b, c = a ++ b ∧ FrameTail (limit - (stack.length + 1)) f a ∧ StackTail limit stack b

/-- A value and the end of all that is open around it. -/
def ValueTail (limit : Nat) (stack : List JsonFrame) (c : List JsonToken) : Prop :=
  ∃ v b, c = v ++ b ∧ JsonValue (limit - stack.length) v ∧ StackTail limit stack b

/-- What the scanner can still accept. -/
def Completes (limit : Nat) : ScanPc → List JsonFrame → List JsonToken → Prop
  | .value, stack, c => ValueTail limit stack c
  | .firstItem, stack, c =>
    (∃ rest b, stack = .array :: rest ∧ c = .endArray :: b ∧ StackTail limit rest b) ∨
      ValueTail limit stack c
  | .firstName, stack, c =>
    (∃ rest b, stack = .object :: rest ∧ c = .endObject :: b ∧ StackTail limit rest b) ∨
      ∃ raw b, c = .text raw :: .colon :: b ∧ ValueTail limit stack b
  | .name, stack, c => ∃ raw b, c = .text raw :: .colon :: b ∧ ValueTail limit stack b
  | .colon, stack, c => ∃ b, c = .colon :: b ∧ ValueTail limit stack b
  | .after, stack, c => StackTail limit stack c

theorem valueTail_object (hRoom : stack.length < limit)
    (hTail : Completes limit .firstName (.object :: stack) c) :
    ValueTail limit stack (.beginObject :: c) := by
  have hDepth : limit - stack.length = limit - (stack.length + 1) + 1 := by omega
  rcases hTail with ⟨rest, b, hStack, rfl, hEnd⟩ | ⟨raw, _, rfl, v, _, rfl, hValue, a, b,
      rfl, hFrame, hEnd⟩
  · obtain rfl := (List.cons.inj hStack).2
    refine ⟨objectText [], b, rfl, ?_, hEnd⟩
    rw [hDepth]
    exact .object nofun
  · obtain ⟨members, hMembers, rfl⟩ := hFrame
    refine ⟨objectText ((raw, v) :: members), b, ?_, ?_, hEnd⟩
    · simp [objectText, memberText]
    · rw [hDepth]
      refine .object fun m hm => ?_
      rcases List.mem_cons.mp hm with rfl | hm
      · exact hValue
      · exact hMembers m hm

theorem valueTail_array (hRoom : stack.length < limit)
    (hTail : Completes limit .firstItem (.array :: stack) c) :
    ValueTail limit stack (.beginArray :: c) := by
  have hDepth : limit - stack.length = limit - (stack.length + 1) + 1 := by omega
  rcases hTail with ⟨rest, b, hStack, rfl, hEnd⟩ | ⟨v, _, rfl, hValue, a, b, rfl, hFrame, hEnd⟩
  · obtain rfl := (List.cons.inj hStack).2
    refine ⟨arrayText [], b, rfl, ?_, hEnd⟩
    rw [hDepth]
    exact .array nofun
  · obtain ⟨items, hItems, rfl⟩ := hFrame
    refine ⟨arrayText (v :: items), b, ?_, ?_, hEnd⟩
    · simp [arrayText]
    · rw [hDepth]
      refine .array fun w hw => ?_
      rcases List.mem_cons.mp hw with rfl | hw
      · exact hValue
      · exact hItems w hw

theorem completes_scanValue (hStep : scanValue limit stack t = some (pc, stack'))
    (hTail : Completes limit pc stack' c) : ValueTail limit stack (t :: c) := by
  unfold scanValue at hStep
  split at hStep
  · split at hStep
    next hRoom => cases hStep; exact valueTail_object hRoom hTail
    next => cases hStep
  · split at hStep
    next hRoom => cases hStep; exact valueTail_array hRoom hTail
    next => cases hStep
  · split at hStep
    next hScalar => cases hStep; exact ⟨[t], c, rfl, .scalar hScalar, hTail⟩
    next => cases hStep

/-- A comma in front of a value or a member of what is open. -/
theorem stackTail_comma (hTail : ValueTail limit (.array :: stack) c) :
    StackTail limit (.array :: stack) (.comma :: c) := by
  obtain ⟨v, _, rfl, hValue, a, b, rfl, ⟨items, hItems, rfl⟩, hEnd⟩ := hTail
  refine ⟨commaText (v :: items) ++ [.endArray], b, by simp, ⟨v :: items, ?_, rfl⟩, hEnd⟩
  intro w hw
  rcases List.mem_cons.mp hw with rfl | hw
  · exact hValue
  · exact hItems w hw

theorem stackTail_member {raw : Bytes} (hTail : ValueTail limit (.object :: stack) c) :
    StackTail limit (.object :: stack) (.comma :: .text raw :: .colon :: c) := by
  obtain ⟨v, _, rfl, hValue, a, b, rfl, ⟨members, hMembers, rfl⟩, hEnd⟩ := hTail
  refine ⟨commaText (((raw, v) :: members).map memberText) ++ [.endObject], b, by simp [memberText],
    ⟨(raw, v) :: members, ?_, rfl⟩, hEnd⟩
  intro m hm
  rcases List.mem_cons.mp hm with rfl | hm
  · exact hValue
  · exact hMembers m hm

/-- A step of the scanner backwards: what it can accept afterwards, it could accept with
the token in front. -/
theorem completes_step {pc' : ScanPc} (hStep : scanStep limit pc stack t = some (pc', stack'))
    (hTail : Completes limit pc' stack' c) : Completes limit pc stack (t :: c) := by
  unfold scanStep at hStep
  split at hStep
  · exact completes_scanValue hStep hTail
  · cases hStep
    exact .inl ⟨_, c, rfl, rfl, hTail⟩
  · exact .inr (completes_scanValue hStep hTail)
  · cases hStep
    exact .inl ⟨_, c, rfl, rfl, hTail⟩
  · cases hStep
    obtain ⟨b, rfl, hValue⟩ := hTail
    exact .inr ⟨_, b, rfl, hValue⟩
  · cases hStep
  · cases hStep
    obtain ⟨b, rfl, hValue⟩ := hTail
    exact ⟨_, b, rfl, hValue⟩
  · cases hStep
  · cases hStep
    exact ⟨c, rfl, hTail⟩
  · cases hStep
  · cases hStep
    exact stackTail_comma hTail
  · cases hStep
    exact ⟨[.endArray], c, rfl, ⟨[], nofun, rfl⟩, hTail⟩
  · cases hStep
    obtain ⟨raw, b, rfl, hValue⟩ := hTail
    exact stackTail_member hValue
  · cases hStep
    exact ⟨[.endObject], c, rfl, ⟨[], nofun, rfl⟩, hTail⟩
  · cases hStep

theorem completes_scan (h : scan limit pc stack ts = some rest) :
    ∃ c, ts = c ++ rest ∧ Completes limit pc stack c := by
  induction ts generalizing pc stack with
  | nil =>
    by_cases hEnd : pc = .after ∧ stack = []
    · obtain ⟨rfl, rfl⟩ := hEnd
      cases h
      exact ⟨[], rfl, rfl⟩
    · unfold scan at h
      split at h
      · exact absurd ⟨rfl, rfl⟩ hEnd
      · cases h
      · next hCons => cases hCons
  | cons t ts ih =>
    by_cases hEnd : pc = .after ∧ stack = []
    · obtain ⟨rfl, rfl⟩ := hEnd
      cases h
      exact ⟨[], rfl, rfl⟩
    · rw [scan_cons hEnd] at h
      split at h
      · next pc' stack' hStep =>
        obtain ⟨c, rfl, hTail⟩ := ih h
        exact ⟨t :: c, rfl, completes_step hStep hTail⟩
      · cases h

/-- **The scanner reads exactly the values.** -/
theorem readValue_eq_some_iff :
    readValue limit ts = some (v, rest) ↔ ts = v ++ rest ∧ JsonValue limit v := by
  rw [readValue, Option.map_eq_some_iff]
  constructor
  · rintro ⟨rest', hScan, hEq⟩
    obtain ⟨c, rfl, v', b, rfl, hValue, hEnd⟩ := completes_scan hScan
    obtain rfl : b = [] := hEnd
    simp only [List.append_nil, Prod.mk.injEq] at hEq hValue ⊢
    obtain ⟨rfl, rfl⟩ := hEq
    rw [List.length_append, Nat.add_sub_cancel, List.take_left]
    exact ⟨rfl, hValue⟩
  · rintro ⟨rfl, hValue⟩
    refine ⟨rest, ?_, ?_⟩
    · rw [scan_value hValue (by simp), scan]
    · rw [List.length_append, Nat.add_sub_cancel, List.take_left]

/-- A text starts with at most one value. -/
theorem JsonValue.append_inj {v' rest' : List JsonToken} (h : JsonValue limit v)
    (h' : JsonValue limit v') (hText : v ++ rest = v' ++ rest') : v = v' ∧ rest = rest' := by
  have hRead := readValue_eq_some_iff.mpr ⟨hText, h'⟩
  rw [readValue_eq_some_iff.mpr ⟨rfl, h⟩] at hRead
  exact Prod.mk.inj (Option.some.inj hRead)

theorem commaText_members_inj {members' : List JsonMember} (h : ∀ m ∈ members, JsonValue limit m.2)
    (h' : ∀ m ∈ members', JsonValue limit m.2)
    (hText : commaText (members.map memberText) ++ [.endObject] =
      commaText (members'.map memberText) ++ [.endObject]) :
    members = members' := by
  induction members generalizing members' with
  | nil =>
    cases members' with
    | nil => rfl
    | cons m' members' => cases (List.cons.inj hText).1
  | cons m members ih =>
    cases members' with
    | nil => cases (List.cons.inj hText).1
    | cons m' members' =>
      obtain ⟨raw, v⟩ := m
      obtain ⟨raw', v'⟩ := m'
      simp only [List.map_cons, commaText_cons, memberText, List.cons_append, List.cons.injEq,
        JsonToken.text.injEq, true_and, List.append_assoc] at hText
      obtain ⟨rfl, hText⟩ := hText
      have hValue : JsonValue limit v := h _ List.mem_cons_self
      have hValue' : JsonValue limit v' := h' _ List.mem_cons_self
      obtain ⟨rfl, hRest⟩ := hValue.append_inj hValue' hText
      rw [ih (fun m hm => h m (List.mem_cons_of_mem _ hm))
        (fun m hm => h' m (List.mem_cons_of_mem _ hm)) hRest]

/-- **An object is read in one way.** -/
theorem objectText_inj {members' : List JsonMember} (h : ∀ m ∈ members, JsonValue limit m.2)
    (h' : ∀ m ∈ members', JsonValue limit m.2) (hText : objectText members = objectText members') :
    members = members' := by
  have hBody := (List.cons.inj hText).2
  cases members with
  | nil =>
    cases members' with
    | nil => rfl
    | cons m' members' => cases (List.cons.inj hBody).1
  | cons m members =>
    cases members' with
    | nil => cases (List.cons.inj hBody).1
    | cons m' members' => exact commaText_members_inj h h' (congrArg (JsonToken.comma :: ·) hBody)

end L2State.Lib
