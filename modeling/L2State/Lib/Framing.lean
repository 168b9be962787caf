import L2State.Lib.Bytes

/-!
# L2State — self-delimiting encodings

An encoding is self-delimiting when the end of a value can be told from the value
alone, whatever follows it. Sequences of such values need neither separators nor a
count: their concatenation determines them.

* `SelfDelimiting` — the property, for the values that satisfy `ok`.
* `SelfDelimiting.isPrefix` — **unique decoding**: when one concatenation is the
  beginning of another, so is the sequence.
* `SelfDelimiting.tuple`, `SelfDelimiting.comap` — tuples of a fixed size and records.
* `frame`, `selfDelimiting_frame` — a byte string behind its length in eight bytes.
-/

namespace L2State.Lib

variable {α β γ : Type*}

/-- Values that satisfy `ok` are read back whatever follows them. -/
structure SelfDelimiting (ok : α → Prop) (enc : α → List β) : Prop where
  nonempty : ∀ a, ok a → enc a ≠ []
  read     : ∀ a b s t, ok a → ok b → enc a ++ s = enc b ++ t → a = b ∧ s = t

namespace SelfDelimiting

variable {ok : α → Prop} {enc : α → List β}

/-- **Unique decoding.** -/
theorem isPrefix (h : SelfDelimiting ok enc) {xs ys : List α} (hxs : ∀ x ∈ xs, ok x)
    (hys : ∀ y ∈ ys, ok y) (hPre : xs.flatMap enc <+: ys.flatMap enc) : xs <+: ys := by
  induction xs generalizing ys with
  | nil => exact List.nil_prefix
  | cons x xs ih =>
    obtain ⟨hx, hxs⟩ := List.forall_mem_cons.mp hxs
    obtain ⟨t, ht⟩ := hPre
    rw [List.flatMap_cons, List.append_assoc] at ht
    cases ys with
    | nil =>
      -- nothing is left of the longer one, but `x` takes at least one byte
      exact absurd (List.append_eq_nil_iff.mp ht).1 (h.nonempty x hx)
    | cons y ys =>
      obtain ⟨hy, hTail⟩ := List.forall_mem_cons.mp hys
      rw [List.flatMap_cons] at ht
      obtain ⟨rfl, hRest⟩ := h.read x y _ _ hx hy ht
      exact List.cons_prefix_cons.mpr ⟨rfl, ih hxs hTail ⟨t, hRest⟩⟩

/-- Sequences of the same length are not the beginning of one another. -/
theorem eq_of_isPrefix (h : SelfDelimiting ok enc) {xs ys : List α} (hxs : ∀ x ∈ xs, ok x)
    (hys : ∀ y ∈ ys, ok y) (hLength : xs.length = ys.length)
    (hPre : xs.flatMap enc <+: ys.flatMap enc) : xs = ys :=
  (h.isPrefix hxs hys hPre).eq_of_length hLength

theorem flatMap_injOn (h : SelfDelimiting ok enc) {xs ys : List α} (hxs : ∀ x ∈ xs, ok x)
    (hys : ∀ y ∈ ys, ok y) (hEq : xs.flatMap enc = ys.flatMap enc) : xs = ys := by
  have hForth := h.isPrefix hxs hys (hEq ▸ List.prefix_rfl)
  have hBack := h.isPrefix hys hxs (hEq ▸ List.prefix_rfl)
  exact hForth.eq_of_length (Nat.le_antisymm hForth.length_le hBack.length_le)

/-- A fixed number of values. -/
theorem tuple (h : SelfDelimiting ok enc) {n : Nat} (hn : 0 < n) :
    SelfDelimiting (fun vs : List α => vs.length = n ∧ ∀ v ∈ vs, ok v) fun vs =>
      vs.flatMap enc where
  nonempty vs hvs hNil := by
    cases vs with
    | nil => exact absurd hvs.1 hn.ne
    | cons v vs =>
      rw [List.flatMap_cons, List.append_eq_nil_iff] at hNil
      exact h.nonempty v (hvs.2 v List.mem_cons_self) hNil.1
  read vs ws s t hvs hws hEq := by
    have hLength : vs.length = ws.length := hvs.1.trans hws.1.symm
    replace hvs := hvs.2
    replace hws := hws.2
    clear hn
    induction vs generalizing ws with
    | nil =>
      obtain rfl := List.length_eq_zero_iff.mp hLength.symm
      exact ⟨rfl, hEq⟩
    | cons v vs ih =>
      cases ws with
      | nil => cases hLength
      | cons w ws =>
        obtain ⟨hv, hvs⟩ := List.forall_mem_cons.mp hvs
        obtain ⟨hw, hTail⟩ := List.forall_mem_cons.mp hws
        simp only [List.flatMap_cons, List.append_assoc] at hEq
        obtain ⟨rfl, hRest⟩ := h.read v w _ _ hv hw hEq
        obtain ⟨rfl, hEnd⟩ := ih ws hRest (Nat.succ.inj hLength) hvs hTail
        exact ⟨rfl, hEnd⟩

/-- Records are encoded by their fields. -/
theorem comap (h : SelfDelimiting ok enc) {f : γ → α} (hf : Function.Injective f) :
    SelfDelimiting (fun c => ok (f c)) fun c => enc (f c) where
  nonempty c hc := h.nonempty (f c) hc
  read c d s t hc hd hEq := by
    obtain ⟨hSame, hRest⟩ := h.read _ _ s t hc hd hEq
    exact ⟨hf hSame, hRest⟩

theorem mono (h : SelfDelimiting ok enc) {ok' : α → Prop} (hOk : ∀ a, ok' a → ok a) :
    SelfDelimiting ok' enc where
  nonempty a ha := h.nonempty a (hOk a ha)
  read a b s t ha hb := h.read a b s t (hOk a ha) (hOk b hb)

end SelfDelimiting

/-- A byte string behind its length. -/
def frame (v : Bytes) : Bytes := toBE 8 v.length ++ v

theorem selfDelimiting_frame : SelfDelimiting (fun v : Bytes => v.length < 2 ^ 64) frame where
  nonempty v _ hNil := by
    have hLength := congrArg List.length (List.append_eq_nil_iff.mp hNil).1
    rw [length_toBE] at hLength
    cases hLength
  read v w s t hv hw hEq := by
    have hPow : (256 : Nat) ^ 8 = 2 ^ 64 := by norm_num
    rw [frame, frame, List.append_assoc, List.append_assoc] at hEq
    -- the two lengths come first
    obtain ⟨hLength, hRest⟩ := List.append_inj hEq (by rw [length_toBE, length_toBE])
    have hSame := toBE_injOn (hPow ▸ hv) (hPow ▸ hw) hLength
    exact List.append_inj hRest hSame

end L2State.Lib
