import L2State.Lib.System
import L2State.Geth.Reference
import L2State.Ovm.Patch

/-!
# L2State — the loop that patches a trie

The loop of `rebuildPatchedTriePrefix` in `ovm_transform.go`, call by call. Two
iterators are walked side by side: one over the leaves of a trie and one over the
entries of the index under a prefix. Each round passes the smaller key to the stack
trie; on equal keys the patch is taken and both iterators move.

* `RebuildState`, `rebuildSystem` — the loop, where any round can end it with an error.
* `mergePatches_advance` — **one round** takes the first entry of `mergePatches`.
* `RebuildInv` — what holds between two rounds: the updates so far and those to come are
  the patched leaves, and an iterator has moved once for each entry it has passed.
* `patched_rebuild_overrides` — the calls are a map override, under every outcome.
* `rebuildSystem_of_returns` — the loop returns what `rebuildPatchedTriePrefix` of
  `Ovm.Patch` does.
-/

namespace L2State

open Lib

/-! ## The code -/

/-- An iterator over the index: the entries it passes, with the prefix in their keys, and
its error. -/
structure PatchStream where
  entries : History
  err     : Option Err

structure RebuildInputs where
  geth     : Geth
  owner    : Hash
  pre      : Bytes
  original : LeafStream
  patches  : PatchStream

/-- `patches.Key()[len(prefix):]` and `patches.Value()`. -/
def stripKey (pre : Bytes) (e : Bytes × Bytes) : Bytes × Bytes := (e.1.drop pre.length, e.2)

structure RebuildState where
  /-- The entries of an iterator from its current one on; `a` and `b` are that there is
  one. -/
  original      : History
  patches       : History
  /-- How often `Next` was called. -/
  nextsOriginal : Nat
  nextsPatches  : Nat
  /-- The calls of `stack.Update`, and the nodes that they wrote. -/
  updates       : History
  ops           : List DbOp
  result        : Option (Except Err (Hash × List DbOp))

namespace RebuildState

/-- After the first two calls of `Next`. -/
def init (x : RebuildInputs) : RebuildState :=
  ⟨x.original.leaves, x.patches.entries, 1, 1, [], [], none⟩

def nextOriginal (s : RebuildState) : RebuildState :=
  { s with original := s.original.tail, nextsOriginal := s.nextsOriginal + 1 }

def nextPatch (s : RebuildState) : RebuildState :=
  { s with patches := s.patches.tail, nextsPatches := s.nextsPatches + 1 }

/-- `usePatch`. -/
def usePatch (pre : Bytes) (s : RebuildState) : Bool :=
  match s.original, s.patches with
  | _, [] => false
  | [], _ :: _ => true
  | o :: _, p :: _ => (stripKey pre p).1 ≤ o.1

/-- `key` and `value`. -/
def current (pre : Bytes) (s : RebuildState) : Bytes × Bytes :=
  if s.usePatch pre then stripKey pre (s.patches.headD ([], [])) else s.original.headD ([], [])

/-- The calls of `Next` at the end of a round. -/
def advance (pre : Bytes) (s : RebuildState) : RebuildState :=
  if s.usePatch pre then
    if s.original ≠ [] ∧
      (s.current pre).1 = (s.original.headD ([], [])).1 then s.nextOriginal.nextPatch
    else s.nextPatch
  else s.nextOriginal

end RebuildState

/-- What can happen in a round: it goes on, the context is done, or a node cannot be
written. -/
inductive RebuildAct
  | go
  | cancel (err : Err)
  | fail (err : Err)

/-- One round. -/
def rebuildRound (x : RebuildInputs) (s : RebuildState) : RebuildAct → Option RebuildState
  | .cancel err => some { s with result := some (.error err) }
  | .go =>
    if (s.current x.pre).2.length = 0 then some (s.advance x.pre)
    else
      match x.geth.stack.update s.updates (s.current x.pre).1 (s.current x.pre).2 with
      | .error err =>
        some { s with updates := s.updates ++ [s.current x.pre], result := some (.error err) }
      | .ok nodes =>
        some { s.advance x.pre with
          updates := s.updates ++ [s.current x.pre], ops := s.ops ++ nodeOps x.owner nodes }
  | .fail err =>
    -- the callback of the stack trie has failed during the update
    if (s.current x.pre).2.length = 0 then none
    else some { s with updates := s.updates ++ [s.current x.pre], result := some (.error err) }

/-- Behind the loop: the errors of the iterators, the root, and the end of the writer. -/
def rebuildEnd (x : RebuildInputs) (s : RebuildState) (a : RebuildAct) : Option RebuildState :=
  match joinErr x.original.err x.patches.err, a with
  | some err, .go => some { s with result := some (.error err) }
  | some _, _ => none
  | none, .go =>
    some { s with
      result := some (.ok ((x.geth.stack.hash s.updates).1,
        s.ops ++ nodeOps x.owner (x.geth.stack.hash s.updates).2)) }
  | none, .cancel err => some { s with result := some (.error err) }
  | none, .fail err => some { s with result := some (.error err) }

def rebuildSystem (x : RebuildInputs) : System RebuildState RebuildAct where
  step a s :=
    match s.result with
    | some _ => none
    | none => if s.original = [] ∧ s.patches = [] then rebuildEnd x s a else rebuildRound x s a

/-! ## One round -/

section Round

variable {pre : Bytes} {s : RebuildState}

/-- The entry of a round is the first one of the merged lists. -/
theorem mergePatches_advance (hOpen : ¬ (s.original = [] ∧ s.patches = [])) :
    mergePatches s.original (s.patches.map (stripKey pre)) =
      s.current pre :: mergePatches (s.advance pre).original
        ((s.advance pre).patches.map (stripKey pre)) := by
  obtain ⟨os, ps, n, m, us, ops, r⟩ := s
  cases os with
  | nil =>
    cases ps with
    | nil => exact absurd ⟨rfl, rfl⟩ hOpen
    | cons p ps => rfl
  | cons o os =>
    cases ps with
    | nil => rfl
    | cons p ps =>
      show takePatches o (mergePatches os) (stripKey pre p :: ps.map (stripKey pre)) = _
      rw [takePatches]
      by_cases hLe : (stripKey pre p).1 ≤ o.1
      · by_cases hEq : (stripKey pre p).1 = o.1
        · simp [RebuildState.current, RebuildState.advance, RebuildState.usePatch, hEq,
            RebuildState.nextOriginal, RebuildState.nextPatch]
        · simp [RebuildState.current, RebuildState.advance, RebuildState.usePatch, hLe, hEq,
            RebuildState.nextPatch, mergePatches]
      · simp [RebuildState.current, RebuildState.advance, RebuildState.usePatch, hLe,
          RebuildState.nextOriginal]

theorem patched_advance (hOpen : ¬ (s.original = [] ∧ s.patches = [])) :
    patched s.original (s.patches.map (stripKey pre)) =
      (if (s.current pre).2.length = 0 then [] else [s.current pre]) ++
        patched (s.advance pre).original ((s.advance pre).patches.map (stripKey pre)) := by
  rw [patched, mergePatches_advance hOpen, List.filter_cons]
  by_cases hEmpty : (s.current pre).2.length = 0
  · simp [hEmpty, patched]
  · simp [hEmpty, patched]

/-- An iterator moves past one entry with each call of `Next`, and one of them moves in
every round. -/
theorem advance_counts (pre : Bytes) (hOpen : ¬ (s.original = [] ∧ s.patches = [])) :
    (s.advance pre).nextsOriginal + (s.advance pre).original.length =
    s.nextsOriginal + s.original.length ∧
      (s.advance pre).nextsPatches + (s.advance pre).patches.length =
      s.nextsPatches + s.patches.length ∧
      (s.advance pre).original.length + (s.advance pre).patches.length <
        s.original.length + s.patches.length := by
  obtain ⟨os, ps, n, m, us, ops, r⟩ := s
  cases os with
  | nil =>
    cases ps with
    | nil => exact absurd ⟨rfl, rfl⟩ hOpen
    | cons p ps =>
      simp only [RebuildState.advance, RebuildState.usePatch, RebuildState.nextPatch, if_true,
        ne_eq, not_true, false_and, if_false, List.tail_cons, List.length_cons, List.length_nil]
      exact ⟨trivial, by omega, by omega⟩
  | cons o os =>
    unfold RebuildState.advance
    split
    next hUse =>
      cases ps with
      | nil => cases hUse
      | cons p ps =>
        split
        · simp only [RebuildState.nextOriginal, RebuildState.nextPatch, List.tail_cons,
            List.length_cons]
          exact ⟨by omega, by omega, by omega⟩
        · simp only [RebuildState.nextPatch, List.tail_cons, List.length_cons]
          exact ⟨trivial, by omega, by omega⟩
    next =>
      simp only [RebuildState.nextOriginal, List.tail_cons, List.length_cons]
      exact ⟨by omega, trivial, by omega⟩

@[simp] theorem advance_updates : (s.advance pre).updates = s.updates := by
  unfold RebuildState.advance
  split
  · split <;> rfl
  · rfl

@[simp] theorem advance_result : (s.advance pre).result = s.result := by
  unfold RebuildState.advance
  split
  · split <;> rfl
  · rfl

@[simp] theorem advance_ops : (s.advance pre).ops = s.ops := by
  unfold RebuildState.advance
  split
  · split <;> rfl
  · rfl

end Round

/-! ## All rounds -/

section Runs

variable {x : RebuildInputs} {s s' : RebuildState} {a : RebuildAct}

/-- **What a step can do.** -/
theorem rebuildSystem_step_cases (hStep : (rebuildSystem x).step a s = some s') :
    s.result = none ∧
      ((¬ (s.original = [] ∧ s.patches = []) ∧
        (((s.current x.pre).2.length = 0 ∧ s' = s.advance x.pre) ∨
          ((s.current x.pre).2.length ≠ 0 ∧ ∃ nodes,
            x.geth.stack.update s.updates (s.current x.pre).1 (s.current x.pre).2 = .ok nodes ∧
            s' = { s.advance x.pre with
              updates := s.updates ++ [s.current x.pre], ops := s.ops ++ nodeOps x.owner nodes }) ∨
          (∃ err, s' = { s with result := some (.error err) }) ∨
          ((s.current x.pre).2.length ≠ 0 ∧ ∃ err,
            s' = { s with
              updates := s.updates ++ [s.current x.pre], result := some (.error err) }))) ∨
      ((s.original = [] ∧ s.patches = []) ∧
        ((∃ err, s' = { s with result := some (.error err) }) ∨
          (x.original.err = none ∧ x.patches.err = none ∧ s' = { s with
            result := some (.ok ((x.geth.stack.hash s.updates).1,
              s.ops ++ nodeOps x.owner (x.geth.stack.hash s.updates).2)) })))) := by
  simp only [rebuildSystem] at hStep
  split at hStep
  next => cases hStep
  next hResult =>
    refine ⟨hResult, ?_⟩
    split at hStep
    next hClosed =>
      refine .inr ⟨hClosed, ?_⟩
      unfold rebuildEnd at hStep
      split at hStep
      next => cases hStep; exact .inl ⟨_, rfl⟩
      next => cases hStep
      next hJoin =>
        cases hStep
        refine .inr ?_
        cases hOriginal : x.original.err with
        | some e =>
          rw [hOriginal] at hJoin
          cases hPatches : x.patches.err <;> rw [hPatches] at hJoin <;> cases hJoin
        | none =>
          rw [hOriginal] at hJoin
          exact ⟨rfl, hJoin, rfl⟩
      next => cases hStep; exact .inl ⟨_, rfl⟩
      next => cases hStep; exact .inl ⟨_, rfl⟩
    next hOpen =>
      refine .inl ⟨hOpen, ?_⟩
      unfold rebuildRound at hStep
      split at hStep
      next => cases hStep; exact .inr (.inr (.inl ⟨_, rfl⟩))
      next =>
        split at hStep
        next hEmpty => cases hStep; exact .inl ⟨hEmpty, rfl⟩
        next hValue =>
          split at hStep
          next => cases hStep; exact .inr (.inr (.inr ⟨hValue, _, rfl⟩))
          next hUpdate => cases hStep; exact .inr (.inl ⟨hValue, _, hUpdate, rfl⟩)
      next =>
        split at hStep
        next => cases hStep
        next hValue => cases hStep; exact .inr (.inr (.inr ⟨hValue, _, rfl⟩))

/-- The updates of a whole rebuild. -/
def RebuildInputs.total (x : RebuildInputs) : History :=
  patched x.original.leaves (x.patches.entries.map (stripKey x.pre))

/-- What holds between two rounds, and when the function has returned. -/
structure RebuildInv (x : RebuildInputs) (s : RebuildState) : Prop where
  originals : s.nextsOriginal + s.original.length = x.original.leaves.length + 1
  patches   : s.nextsPatches + s.patches.length = x.patches.entries.length + 1
  running   : s.result = none →
    s.updates ++ patched s.original (s.patches.map (stripKey x.pre)) = x.total
  written   : s.result = none → s.ops ++ nodeOps x.owner (x.geth.stack.emitted s.updates
    (patched s.original (s.patches.map (stripKey x.pre)))) =
      nodeOps x.owner (x.geth.stack.emitted [] x.total)
  made      : s.updates <+: x.total
  returned  : ∀ out, s.result = some (.ok out) → s.original = [] ∧ s.patches = [] ∧
    x.original.err = none ∧ x.patches.err = none ∧ s.updates = x.total ∧
      out = ((x.geth.stack.hash x.total).1, nodeOps x.owner (x.geth.stack.nodesOf x.total))

namespace RebuildInv

theorem init : RebuildInv x (.init x) where
  originals := Nat.add_comm _ _
  patches := Nat.add_comm _ _
  running _ := rfl
  written _ := rfl
  made := List.nil_prefix
  returned _ h := nomatch h

/-- A round that ends the function with an error, before or after the update. -/
theorem failed (h : RebuildInv x s) {updates : History} (hMade : updates <+: x.total) (err : Err) :
    RebuildInv x { s with updates := updates, result := some (.error err) } where
  originals := h.originals
  patches := h.patches
  running h := nomatch h
  written h := nomatch h
  made := hMade
  returned _ h := nomatch h

/-- A round that goes on. -/
theorem advanced (h : RebuildInv x s) (hResult : s.result = none)
    (hOpen : ¬ (s.original = [] ∧ s.patches = [])) {updates : History} {ops : List DbOp}
    (hUpdates : updates = s.updates ++ if (s.current x.pre).2.length = 0 then [] else
      [s.current x.pre]) (hOps : ops = s.ops ++ nodeOps x.owner (x.geth.stack.emitted s.updates
      (if (s.current x.pre).2.length = 0 then [] else [s.current x.pre]))) :
    RebuildInv x { s.advance x.pre with updates := updates, ops := ops } := by
  obtain ⟨hOriginal, hPatches, -⟩ := advance_counts x.pre hOpen
  have hRest : updates ++ patched (s.advance x.pre).original
      ((s.advance x.pre).patches.map (stripKey x.pre)) = x.total := by
    rw [hUpdates, List.append_assoc, ← patched_advance hOpen, h.running hResult]
  exact {
    originals := hOriginal.trans h.originals
    patches := hPatches.trans h.patches
    running := fun _ => hRest
    written := fun _ => by
      have hWritten := h.written hResult
      rw [patched_advance hOpen] at hWritten
      rw [← hWritten, hOps, hUpdates]
      -- the nodes of this round, and those of the later ones
      split
      · simp [StackOps.emitted, nodeOps]
      · simp [StackOps.emitted, nodeOps_append]
    made := ⟨_, hRest⟩
    returned := fun out hOut => by
      rw [show (s.advance x.pre).result = none from advance_result.trans hResult] at hOut
      cases hOut }

/-- The call of a round that is about to be made is the next one of the total. -/
theorem next_made (h : RebuildInv x s) (hResult : s.result = none)
    (hOpen : ¬ (s.original = [] ∧ s.patches = [])) (hValue : (s.current x.pre).2.length ≠ 0) :
    s.updates ++ [s.current x.pre] <+: x.total := by
  have hRest := h.running hResult
  rw [patched_advance hOpen, if_neg hValue, ← List.append_assoc] at hRest
  exact ⟨_, hRest⟩

/-- Every move keeps the invariant. -/
theorem step (h : RebuildInv x s) (hStep : (rebuildSystem x).step a s = some s') :
    RebuildInv x s' := by
  obtain ⟨hResult, ⟨hOpen, hRound⟩ | ⟨⟨hOriginal, hPatches⟩, hEnd⟩⟩ :=
    rebuildSystem_step_cases hStep
  · rcases hRound with
        ⟨hEmpty, rfl⟩ | ⟨hValue, nodes, hUpdate, rfl⟩ | ⟨err, rfl⟩ | ⟨hValue, err, rfl⟩
    · have hUpdates : (s.advance x.pre).updates =
          s.updates ++ if (s.current x.pre).2.length = 0 then [] else [s.current x.pre] := by
        rw [if_pos hEmpty, List.append_nil, advance_updates]
      have hOps : (s.advance x.pre).ops = s.ops ++ nodeOps x.owner (x.geth.stack.emitted s.updates
          (if (s.current x.pre).2.length = 0 then [] else [s.current x.pre])) := by
        rw [if_pos hEmpty, advance_ops]
        exact (List.append_nil _).symm
      exact h.advanced hResult hOpen hUpdates hOps
    · refine h.advanced hResult hOpen (by rw [if_neg hValue]) ?_
      rw [if_neg hValue, StackOps.emitted, StackOps.emittedBy_of_update_pair hUpdate]
      simp [StackOps.emitted]
    · exact h.failed h.made err
    · exact h.failed (h.next_made hResult hOpen hValue) err
  · rcases hEnd with ⟨err, rfl⟩ | ⟨hErr, hErr', rfl⟩
    · exact h.failed h.made err
    · have hTotal := h.running hResult
      have hOps := h.written hResult
      -- both iterators are at their ends: nothing is to come
      have hNone : patched [] (List.map (stripKey x.pre) []) = [] := rfl
      rw [hOriginal, hPatches, hNone] at hTotal hOps
      rw [List.append_nil] at hTotal
      rw [StackOps.emitted, show nodeOps x.owner [] = [] from rfl, List.append_nil] at hOps
      refine ⟨h.originals, h.patches, by rintro ⟨⟩, by rintro ⟨⟩, h.made, fun out hOut => ?_⟩
      obtain rfl := Except.ok.inj (Option.some.inj hOut)
      refine ⟨hOriginal, hPatches, hErr, hErr', hTotal, ?_⟩
      rw [hTotal, hOps, StackOps.nodesOf, nodeOps_append]

theorem of_run {t : List RebuildAct} (hRun : (rebuildSystem x).run t (.init x) = some s) :
    RebuildInv x s := by
  have hKeep : ∀ a s s', RebuildInv x s → (rebuildSystem x).step a s = some s' → RebuildInv x s' :=
    fun _ _ _ h hStep => h.step hStep
  exact System.run_invariant hKeep .init hRun

end RebuildInv

/-- What is left to do. -/
def RebuildState.left (s : RebuildState) : Nat :=
  s.original.length + s.patches.length + if s.result = none then 1 else 0

theorem left_lt_of_step (hStep : (rebuildSystem x).step a s = some s') : s'.left < s.left := by
  obtain ⟨hResult, ⟨hOpen, hRound⟩ | ⟨-, hEnd⟩⟩ := rebuildSystem_step_cases hStep
  · have hLess := (advance_counts x.pre hOpen).2.2
    have hNone : (s.advance x.pre).result = none := advance_result.trans hResult
    rcases hRound with ⟨-, rfl⟩ | ⟨-, nodes, -, rfl⟩ | ⟨err, rfl⟩ | ⟨-, err, rfl⟩
    · simp only [RebuildState.left, hResult, hNone]
      omega
    · simp only [RebuildState.left, hResult, hNone]
      omega
    · simp [RebuildState.left, hResult]
    · simp [RebuildState.left, hResult]
  · rcases hEnd with ⟨err, rfl⟩ | ⟨-, -, rfl⟩
    · simp [RebuildState.left, hResult]
    · simp [RebuildState.left, hResult]

/-- **The loop ends**, whatever happens in it. -/
theorem rebuild_length_le {t : List RebuildAct} (hRun : (rebuildSystem x).run t s = some s') :
    t.length + s'.left ≤ s.left := by
  induction t generalizing s with
  | nil =>
    obtain rfl : s = s' := by simpa using hRun
    simp
  | cons a t ih =>
    obtain ⟨m, hStep, hRest⟩ := System.run_cons_eq_some.mp hRun
    have hFirst := left_lt_of_step hStep
    have hOthers := ih hRest
    rw [List.length_cons]
    omega

/-- A round of an open loop whose update is accepted goes on. -/
theorem RebuildInv.exists_advance (h : RebuildInv x s) (hResult : s.result = none)
    (hOpen : ¬ (s.original = [] ∧ s.patches = [])) (hAccepted : x.geth.stack.Accepted [] x.total) :
    ∃ s', (rebuildSystem x).step .go s = some s' ∧ s'.result = none := by
  simp only [rebuildSystem, hResult, if_neg hOpen, rebuildRound]
  by_cases hEmpty : (s.current x.pre).2.length = 0
  · rw [if_pos hEmpty]
    exact ⟨_, rfl, advance_result.trans hResult⟩
  · rw [if_neg hEmpty]
    obtain ⟨rest, hRest⟩ := h.next_made hResult hOpen hEmpty
    rw [← hRest, List.append_assoc, StackOps.accepted_append] at hAccepted
    obtain ⟨nodes, hUpdate⟩ := hAccepted.2.1
    rw [List.nil_append] at hUpdate
    rw [hUpdate]
    exact ⟨_, rfl, advance_result.trans hResult⟩

/-- Without failures the loop returns a root. -/
theorem RebuildInv.exists_returned (h : RebuildInv x s) (hResult : s.result = none)
    (hAccepted : x.geth.stack.Accepted [] x.total) (hErr : x.original.err = none)
    (hErr' : x.patches.err = none) :
    ∃ t s' out, (rebuildSystem x).run t s = some s' ∧ s'.result = some (.ok out) := by
  -- the rounds that are left
  induction hLeft : s.left using Nat.strongRecOn generalizing s with
  | ind n ih =>
    by_cases hOpen : s.original = [] ∧ s.patches = []
    · have hStep : (rebuildSystem x).step .go s = rebuildEnd x s .go := by
        simp only [rebuildSystem, hResult, if_pos hOpen]
      unfold rebuildEnd at hStep
      rw [hErr, hErr'] at hStep
      exact ⟨[.go], _, _, System.run_cons_eq_some.mpr ⟨_, hStep, rfl⟩, rfl⟩
    · obtain ⟨s', hStep, hNone⟩ := h.exists_advance hResult hOpen hAccepted
      obtain ⟨t, s'', out, hRun, hOut⟩ :=
        ih _ (hLeft ▸ left_lt_of_step hStep) (h.step hStep) hNone rfl
      exact ⟨.go :: t, s'', out, System.run_cons_eq_some.mpr ⟨s', hStep, hRun⟩, hOut⟩

/-- **The loop and the process agree**: where `rebuildPatchedTriePrefix` returns a root and
writes, every run of the loop that returns has the same, and there is one. -/
theorem rebuildSystem_of_returns {I : Interface} {check : Fallible I Err Unit}
    {patchesErr : Proc I (Option Err)} {tr : List (Event I)} {out : Hash × List DbOp}
    (h : Returns (rebuildPatchedTriePrefix x.geth check patchesErr x.owner x.original
      (x.patches.entries.map (stripKey x.pre))) tr out) (hErr : x.patches.err = none) :
    (∃ t s, (rebuildSystem x).run t (.init x) = some s ∧ s.result = some (.ok out)) ∧
      ∀ t s out', (rebuildSystem x).run t (.init x) = some s →
        s.result = some (.ok out') → out' = out := by
  obtain ⟨hDone, ⟨hAccepted, hRoot⟩, hOps⟩ := returns_rebuildPatchedTriePrefix h
  have hSame : ∀ t s out', (rebuildSystem x).run t (.init x) = some s → s.result = some (.ok out') →
      out' = out := by
    intro t s out' hRun hOut
    obtain ⟨-, -, -, -, -, rfl⟩ := (RebuildInv.of_run hRun).returned out' hOut
    exact Prod.ext hRoot hOps.symm
  obtain ⟨t, s, out', hRun, hOut⟩ := RebuildInv.init.exists_returned rfl hAccepted hDone hErr
  exact ⟨⟨t, s, hRun, hSame t s out' hRun hOut ▸ hOut⟩, hSame⟩

end Runs

/-! ## The patched leaves -/

section Override

/-- The entries of an iterator under a prefix, without it. -/
theorem increasing_stripped {pre : Bytes} {l : History} (hl : Increasing l)
    (hPre : ∀ e ∈ l, pre <+: e.1) :
    Increasing (l.map (stripKey pre)) := by
  rw [Increasing, List.pairwise_map]
  refine List.Pairwise.imp_of_mem (fun {e e'} he he' hLt => ?_) hl
  obtain ⟨k, hk⟩ := hPre e he
  obtain ⟨k', hk'⟩ := hPre e' he'
  simp only [stripKey, ← hk, ← hk', List.drop_left]
  exact lt_of_append_lt (by rwa [hk, hk'])

theorem leafAt_stripped {pre : Bytes} {l : History} (hl : Increasing l)
    (hPre : ∀ e ∈ l, pre <+: e.1) (k : Bytes) : leafAt (l.map (stripKey pre)) k =
    leafAt l (pre ++ k) := by
  refine Option.ext fun v => ?_
  rw [leafAt_eq_some (increasing_stripped hl hPre), leafAt_eq_some hl, List.mem_map]
  constructor
  · rintro ⟨e, he, hEq⟩
    obtain ⟨k', hk'⟩ := hPre e he
    simp only [stripKey, ← hk', List.drop_left, Prod.mk.injEq] at hEq
    obtain ⟨rfl, rfl⟩ := hEq
    rwa [hk']
  · intro hMem
    exact ⟨_, hMem, by simp [stripKey]⟩

theorem leafAt_of_valueAt {l : History} (hl : Increasing l)
    (hValues : ∀ e ∈ l, e.2 ≠ []) (k : Bytes) :
    leafAt l k = if valueAt l k = [] then none else some (valueAt l k) := by
  cases hLeaf : leafAt l k with
  | none => simp [valueAt, hLeaf]
  | some v =>
    have hNe := hValues _ ((leafAt_eq_some hl).mp hLeaf)
    simp [valueAt, hLeaf, hNe]

theorem patched_values {os ps : History} : ∀ e ∈ patched os ps, e.2 ≠ [] := by
  intro e he
  simpa using (List.mem_filter.mp he).2

/-- **The override**: a patch decides about its key, and an empty one deletes it. -/
theorem leafAt_patched {os ps : History} (hos : Increasing os) (hValues : ∀ e ∈ os, e.2 ≠ [])
    (hps : Increasing ps) (k : Bytes) :
    leafAt (patched os ps) k =
      match leafAt ps k with
      | some v => if v = [] then none else some v
      | none => leafAt os k := by
  rw [leafAt_of_valueAt (patched_increasing hos hps) patched_values, valueAt_patched hos hps]
  cases leafAt ps k with
  | some v => rfl
  | none => exact (leafAt_of_valueAt hos hValues k).symm

theorem mergePatches_nil (os : History) : mergePatches os [] = os := by
  induction os with
  | nil => rfl
  | cons o os ih =>
    show o :: mergePatches os [] = o :: os
    rw [ih]

theorem patched_nil {os : History} (hValues : ∀ e ∈ os, e.2 ≠ []) : patched os [] = os := by
  rw [patched, mergePatches_nil, List.filter_eq_self]
  intro e he
  simpa using hValues e he

end Override

/-- **A patched rebuild is a map override.** The calls of `stack.Update` have increasing
keys and nonempty values, and they are the original leaves overridden by the patches, where
an empty patch removes its key. A run that ends early has made the first of these calls. An
iterator is moved once for each of its entries and once to see its end, and never again. The
function returns a root only when all calls are made and neither iterator has an error, and
it does so when nothing else fails. Without patches the calls are the original leaves. -/
theorem patched_rebuild_overrides (x : RebuildInputs) (hLeaves : Increasing x.original.leaves)
    (hValues : ∀ e ∈ x.original.leaves, e.2 ≠ []) (hPatches : Increasing x.patches.entries)
    (hPre : ∀ e ∈ x.patches.entries, x.pre <+: e.1) :
    (Increasing x.total ∧ (∀ e ∈ x.total, e.2 ≠ []) ∧
      (∀ k, leafAt x.total k =
        match leafAt x.patches.entries (x.pre ++ k) with
        | some v => if v = [] then none else some v
        | none => leafAt x.original.leaves k) ∧
      (x.patches.entries = [] → x.total = x.original.leaves)) ∧
    (∀ t s, (rebuildSystem x).run t (.init x) = some s →
      t.length ≤ x.original.leaves.length + x.patches.entries.length + 1 ∧ s.updates <+: x.total ∧
        s.nextsOriginal ≤ x.original.leaves.length + 1 ∧
        s.nextsPatches ≤ x.patches.entries.length + 1 ∧ ∀ out, s.result = some (.ok out) →
          x.original.err = none ∧ x.patches.err = none ∧ s.updates = x.total ∧
          s.nextsOriginal = x.original.leaves.length + 1 ∧
            s.nextsPatches = x.patches.entries.length + 1 ∧ out.1 = (x.geth.stack.hash x.total).1) ∧
    (x.geth.stack.Accepted [] x.total → x.original.err = none → x.patches.err = none →
      ∃ t s out, (rebuildSystem x).run t (.init x) = some s ∧ s.result = some (.ok out)) := by
  have hStripped := increasing_stripped hPatches hPre
  refine ⟨⟨patched_increasing hLeaves hStripped, patched_values, fun k => ?_, fun hNone => ?_⟩,
    fun t s hRun => ?_, fun hAccepted hErr hErr' =>
      RebuildInv.init.exists_returned rfl hAccepted hErr hErr'⟩
  · rw [RebuildInputs.total, leafAt_patched hLeaves hValues hStripped,
      leafAt_stripped hPatches hPre]
  · rw [RebuildInputs.total, hNone]
    exact patched_nil hValues
  · have hInv := RebuildInv.of_run hRun
    have hOriginal := hInv.originals
    have hPatch := hInv.patches
    have hLength := rebuild_length_le hRun
    have hInit : (RebuildState.init x).left =
        x.original.leaves.length + x.patches.entries.length + 1 := rfl
    refine ⟨by omega, hInv.made, by omega, by omega, fun out hOut => ?_⟩
    obtain ⟨hNil, hNil', hErr, hErr', hTotal, hRoot⟩ := hInv.returned out hOut
    rw [hNil, List.length_nil] at hOriginal
    rw [hNil', List.length_nil] at hPatch
    exact ⟨hErr, hErr', hTotal, by omega, by omega, congrArg Prod.fst hRoot⟩

/-- Three leaves, and patches before, at and behind them: one replaces a leaf, one deletes
a leaf, one is new and one deletes nothing. -/
def sampleRebuild : RebuildInputs where
  geth := referenceGeth fun _ => zeroHash
  owner := zeroHash
  pre := [9]
  original := ⟨[([2], [1]), ([4], [1]), ([6], [1])], [], none⟩
  patches := ⟨[([9, 1], []), ([9, 2], [7]), ([9, 4], []), ([9, 8], [5])], none⟩

theorem patched_rebuild_sample :
    sampleRebuild.total = [([2], [7]), ([6], [1]), ([8], [5])] ∧
      ∀ t s, (rebuildSystem sampleRebuild).run t (.init sampleRebuild) = some s →
        s.updates <+: sampleRebuild.total := by
  have hLeaves : sampleRebuild.original.leaves.Pairwise fun a b => a.1 < b.1 := by decide
  have hPatches : sampleRebuild.patches.entries.Pairwise fun a b => a.1 < b.1 := by decide
  have hOverride := patched_rebuild_overrides sampleRebuild hLeaves (by decide) hPatches (by decide)
  exact ⟨by decide, fun t s hRun => (hOverride.2.1 t s hRun).2.1⟩

end L2State
