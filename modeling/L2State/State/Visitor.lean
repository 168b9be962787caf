import L2State.Bundle.Account

/-!
# L2State — visitors, node sinks and the effects they receive

A traversal reports accounts, slots and codes to a `StateVisitor` and trie
nodes to a `trieNodeSink`. Both act on the same output `σ`, so a run is a
list of effects folded over it.

* `Visitor`, `NodeSink` — the two callback interfaces.
* `Effect`, `runEffects` — the calls a traversal makes, and their fold.
* `validateStorageRLP` — the check every storage value passes.
-/

namespace L2State

open Lib

/-- `StateVisitor`, with the optional `AccountFromBundle` of
`bundleAccountVisitor`. -/
structure Visitor (σ : Type) where
  account           : Hash → StateAccount → Bytes → σ → Except Err σ
  accountFromBundle : Option (Hash → StateAccount → Bytes → Bytes → σ → Except Err σ)
  storage           : Hash → Hash → Bytes → σ → Except Err σ
  code              : Hash → Hash → Bytes → σ → Except Err σ

/-- `trieNodeSink`. -/
structure NodeSink (σ : Type) where
  trieNode : Hash → TrieNode → σ → Except Err σ

/-- The nil visitor: nothing is called. -/
def Visitor.nil {σ : Type} : Visitor σ where
  account _ _ _ out := .ok out
  accountFromBundle := none
  storage _ _ _ out := .ok out
  code _ _ _ out := .ok out

/-- The nil sink: nodes are dropped. -/
def NodeSink.nil {σ : Type} : NodeSink σ where
  trieNode _ _ out := .ok out

/-! ## Effects -/

/-- One callback of a traversal. -/
inductive Effect
  | account (hash : Hash) (account : StateAccount) (fullRLP : Bytes)
  | accountFromBundle (hash : Hash) (account : StateAccount) (fullRLP slimRLP : Bytes)
  | storage (accountHash slotHash : Hash) (valueRLP : Bytes)
  | code (accountHash codeHash : Hash) (code : Bytes)
  | node (owner : Hash) (node : TrieNode)
deriving DecidableEq

variable {σ : Type}

/-- Runs one callback. A visitor without `AccountFromBundle` receives the
plain `Account` call. -/
def runEffect (v : Visitor σ) (s : NodeSink σ) (out : σ) : Effect → Except Err σ
  | .account h a full => v.account h a full out
  | .accountFromBundle h a full slim =>
    match v.accountFromBundle with
    | some f => f h a full slim out
    | none => v.account h a full out
  | .storage a k val => v.storage a k val out
  | .code a h c => v.code a h c out
  | .node o n => s.trieNode o n out

/-- Runs callbacks in order, stopping at the first error. -/
def runEffects (v : Visitor σ) (s : NodeSink σ) (es : List Effect) (out : σ) : Except Err σ :=
  es.foldlM (runEffect v s) out

variable {v : Visitor σ} {s : NodeSink σ}

@[simp] theorem runEffects_nil (out : σ) : runEffects v s [] out = .ok out := rfl

theorem runEffects_cons_eq_ok {e : Effect} {es : List Effect} {out out' : σ} :
    runEffects v s (e :: es) out = .ok out' ↔
      ∃ m, runEffect v s out e = .ok m ∧ runEffects v s es m = .ok out' :=
  foldlM_cons_eq_ok

theorem runEffects_append_eq_ok {es fs : List Effect} {out out' : σ} :
    runEffects v s (es ++ fs) out = .ok out' ↔
      ∃ m, runEffects v s es out = .ok m ∧ runEffects v s fs m = .ok out' :=
  foldlM_append_eq_ok

theorem runEffects_singleton {e : Effect} {out : σ} :
    runEffects v s [e] out = runEffect v s out e := by
  rw [runEffects, List.foldlM_cons]
  cases runEffect v s out e <;> rfl

/-- The node callbacks of one stack trie call. -/
def nodeEffects (owner : Hash) (nodes : List TrieNode) : List Effect := nodes.map (.node owner)

/-! ## Visitor calls -/

/-- The visitor call of an effect, for a visitor without `AccountFromBundle`. -/
def Effect.call? : Effect → Option Effect
  | .accountFromBundle h a full _ => some (.account h a full)
  | .node _ _ => none
  | e => some e

/-- The consensus bytes of a callback. -/
def Effect.payload : Effect → Nat
  | .account _ _ full => full.length
  | .accountFromBundle _ _ full _ => full.length
  | .storage _ _ val => val.length
  | .code _ _ c => c.length
  | .node _ _ => 0

/-- The visitor calls of a list of effects. -/
def visitorCalls (es : List Effect) : List Effect := es.filterMap Effect.call?

@[simp] theorem visitorCalls_nil : visitorCalls [] = [] := rfl

@[simp] theorem visitorCalls_append (es fs : List Effect) :
    visitorCalls (es ++ fs) = visitorCalls es ++ visitorCalls fs := List.filterMap_append

@[simp] theorem visitorCalls_nodeEffects (owner : Hash) (nodes : List TrieNode) :
    visitorCalls (nodeEffects owner nodes) = [] := by
  simp [visitorCalls, nodeEffects, Effect.call?]

theorem visitorCalls_cons (e : Effect) (es : List Effect) :
    visitorCalls (e :: es) = e.call?.toList ++ visitorCalls es := by
  rw [visitorCalls, List.filterMap_cons]
  cases e.call? <;> rfl

/-- Without a node sink only the visitor calls of a run matter. -/
theorem runEffects_nil_eq_calls (hPlain : v.accountFromBundle = none) (es : List Effect) (out : σ) :
    runEffects v .nil es out = runEffects v .nil (visitorCalls es) out := by
  induction es generalizing out with
  | nil => rfl
  | cons e es ih =>
    have hHead : ∀ (e : Effect) (es : List Effect), runEffects v .nil (e :: es) out =
        runEffect v .nil out e >>= runEffects v .nil es := fun e es => by
      rw [runEffects, List.foldlM_cons]
      rfl
    have hTail : runEffects v .nil es = runEffects v .nil (visitorCalls es) := funext ih
    rw [visitorCalls_cons, hHead, hTail]
    cases hCall : e.call? with
    | none =>
      cases e <;> simp only [Effect.call?, reduceCtorEq] at hCall
      rfl
    | some e' =>
      have hSame : runEffect v .nil out e = runEffect v .nil out e' := by
        cases e <;> simp only [Effect.call?, Option.some.injEq, reduceCtorEq] at hCall <;>
          subst hCall <;> simp [runEffect, hPlain]
      rw [hSame, ← hHead]
      rfl

/-- A visitor that records its calls. -/
def recordCalls : Visitor (List Effect) where
  account h a full out := .ok (out ++ [.account h a full])
  accountFromBundle := none
  storage a k val out := .ok (out ++ [.storage a k val])
  code a h c out := .ok (out ++ [.code a h c])

theorem runEffects_recordCalls (es out : List Effect) :
    runEffects recordCalls .nil es out = .ok (out ++ visitorCalls es) := by
  induction es generalizing out with
  | nil => simp
  | cons e es ih =>
    rw [runEffects_cons_eq_ok]
    cases e <;> exact ⟨_, rfl, by rw [ih]; simp [visitorCalls_cons, Effect.call?]⟩

/-! ## Storage values -/

/-- `validateStorageRLP`. -/
def validateStorageRLP (data : Bytes) : Except Err Unit := do
  let (kind, content, rest) ← wrapping "decode storage value RLP: %w" []
      (rlpResult (Rlp.split data))
  require (kind = .byte ∨ kind = .string) (.msg "storage value is not an RLP byte string" [])
  require (rest.length = 0) (.msg "storage value has trailing RLP data" [])
  require (content.length ≠ 0) (.msg "zero storage value must not be present in the trie" [])
  require (content.length ≤ 32)
    (.msg "storage value is %d bytes, maximum is %d" [.num content.length, .num 32])
  require (content.head? ≠ some 0) (.msg "storage value contains a leading zero" [])

/-- A valid storage value is the encoding of a nonempty string of at most 32
bytes without leading zero. -/
theorem validateStorageRLP_eq_ok {data : Bytes} {u : Unit} :
    validateStorageRLP data = .ok u ↔
      ∃ content, data = Rlp.encodeString content ∧ content ≠ [] ∧ content.length ≤ 32 ∧
        content.head? ≠ some 0 := by
  simp only [validateStorageRLP, bind_eq_ok, wrapping_eq_ok, rlpResult_eq_ok, require_eq_ok,
    Prod.exists, Rlp.split_eq_ok_iff]
  constructor
  · rintro ⟨kind, content, rest, ⟨rfl, -, -⟩, -, hKind, -, hRest, -, hNe, -, hLen, hHead⟩
    have hRest : rest = [] := List.length_eq_zero_iff.mp hRest
    refine ⟨content, ?_, by simpa using hNe, hLen, hHead⟩
    rcases hKind with rfl | rfl <;> simp [Rlp.item, hRest]
  · rintro ⟨content, rfl, hNe, hLen, hHead⟩
    have hNe' : content.length ≠ 0 := by simpa using hNe
    by_cases hByte : Rlp.IsByte content
    · exact ⟨.byte, content, [], ⟨by simp [Rlp.item], hByte, by omega⟩, (), .inl rfl, (), rfl, (),
        hNe', (), hLen, hHead⟩
    · exact ⟨.string, content, [], ⟨by simp [Rlp.item], hByte, by omega⟩, (), .inr rfl, (), rfl, (),
        hNe', (), hLen, hHead⟩

end L2State
