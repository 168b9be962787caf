import L2State.Migrate.PartitionSpec
import L2State.Prune.Collect

/-!
# L2State — the traversal that collects the keep set

`collectPruneState` runs `validatePartitionedState` over `pruneRecordingDB`. A run of the
traversal is a list of calls with their answers, and each call of `Get` takes the steps of
`collectSystem`. Calls of different threads overlap.

* `recordedReader` — the calls of a run as a `StateReader`: each is made by a thread of its own,
  and the result is there when every answer is the one in the run. The calls of one thread of the
  traversal may overlap here as well, so this allows more schedules than the code has.
* `Collects` — `validatePartitionedState` has returned, and so have its calls.
* `Collects.reads_iff` — **the records that were read are the items of the state.**
-/

namespace L2State

open Lib

/-- The answers of the calls so far. -/
abbrev Answers := Nat → Option (Except Err Bytes)

/-- The calls of a run, in any order. -/
def recordedReader (gets : List (Bytes × Except Err Bytes)) (out : Except Err StateResult) :
    StateReader Answers where
  start _ := none
  move t _ answers :=
    match answers t, gets[t]? with
    | none, some call => some (.get call.1 answers)
    | _, _ => none
  resume t answer answers := Function.update answers t (some answer)
  result answers := if ∀ t < gets.length, answers t = gets[t]?.map Prod.snd then some out else none

/-- `validatePartitionedState` over `pruneRecordingDB` has returned `out`. -/
def Collects (m : Walker) (g : PruneHost) (l : KeepLimits) (source : Store)
    (out : Except Err StateResult) (s : CollectState Answers) : Prop :=
  ∃ tr, WalkRun m tr out ∧ Traversed (recordedReader (getsOf tr) out) g l source out s

/-- What the calls have read so far. -/
structure Recorded (gets : List (Bytes × Except Err Bytes)) (source : Store)
    (s : CollectState Answers) : Prop where
  calls   : ∀ t pc, s.calls t = some pc → ∃ answer, gets[t]? = some (pc.key, answer)
  reads   : ∀ p ∈ s.reads, ∃ answer, (p.1, answer) ∈ gets
  answers : ∀ t v, s.client t = some (.ok v) → ∃ key answer, gets[t]? = some (key, answer) ∧
    source.get? key = some v ∧ (key.length = 32 → (key, v) ∈ s.reads)

namespace Recorded

variable {gets : List (Bytes × Except Err Bytes)} {out : Except Err StateResult} {g : PruneHost}
  {l : KeepLimits} {source : Store} {s s' : CollectState Answers} {t : Nat}

theorem init : Recorded gets source (CollectState.init (recordedReader gets out)) :=
  ⟨nofun, nofun, nofun⟩

theorem calls_update {call : Option GetPc} (h : Recorded gets source s)
    (hCall : ∀ pc, call = some pc → ∃ answer, gets[t]? = some (pc.key, answer)) :
    ∀ m pc, Function.update s.calls t call m = some pc →
      ∃ answer, gets[m]? = some (pc.key, answer) :=
  (Function.forall_update_iff s.calls fun m call => ∀ pc, call = some pc →
    ∃ answer, gets[m]? = some (pc.key, answer)).mpr ⟨hCall, fun m _ => h.calls m⟩

/-- A move that the traversal does not see. -/
theorem hidden (h : Recorded gets source s) {pc : GetPc} (hCall : s.calls t = some pc)
    (hHidden : s.Hidden s' t pc.key) : Recorded gets source s' := by
  obtain ⟨⟨pc', hCalls, hKey⟩, hClient, -, hReads, -⟩ := hHidden
  have hHere := h.calls t pc hCall
  have hSub : ∀ p ∈ s.reads, p ∈ s'.reads := by
    rcases hReads with hEq | ⟨value, hEq⟩
    · exact fun p hp => hEq ▸ hp
    · exact fun p hp => hEq ▸ List.mem_append_left _ hp
  refine ⟨?_, fun p hp => ?_, fun m v hv => ?_⟩
  · rw [hCalls]
    refine h.calls_update ?_
    rintro _ ⟨⟩
    exact hKey ▸ hHere
  · rcases hReads with hEq | ⟨value, hEq⟩
    · exact h.reads p (hEq ▸ hp)
    · rw [hEq] at hp
      rcases List.mem_append.mp hp with hp | hp
      · exact h.reads p hp
      · obtain rfl := List.mem_singleton.mp hp
        obtain ⟨answer, hGet⟩ := hHere
        exact ⟨answer, List.mem_of_getElem? hGet⟩
  · rw [hClient] at hv
    obtain ⟨key, answer, hGet, hSource, hRead⟩ := h.answers m v hv
    exact ⟨key, answer, hGet, hSource, fun hLength => hSub _ (hRead hLength)⟩

/-- An answer is the record of the database. -/
theorem answered (h : Recorded gets source s) (hInv : CollectInv g l source s) {key : Bytes}
    {answer : Except Err Bytes} (hCall : s.calls t = some (.done key answer)) (fault : GetFault) :
    Recorded gets source
      (getStep (recordedReader gets out) g l source s t fault (.done key answer)) where
  calls := h.calls_update nofun
  reads := h.reads
  answers := by
    refine (Function.forall_update_iff s.client fun m answer => ∀ v, answer = some (.ok v) →
      ∃ key answer, gets[m]? = some (key, answer) ∧ source.get? key = some v ∧
        (key.length = 32 → (key, v) ∈ s.reads)).mpr ⟨?_, fun m _ => h.answers m⟩
    rintro v ⟨⟩
    obtain ⟨answer, hGet⟩ := h.calls t _ hCall
    obtain ⟨hSource, hRead⟩ := hInv.calls t _ hCall
    exact ⟨key, answer, hGet, hSource, hRead⟩

/-- Every move keeps the record of the answers. -/
theorem step {a : CollectAction} (h : Recorded gets source s) (hInv : CollectInv g l source s)
    (hStep : (collectSystem (recordedReader gets out) g l source).step a s = some s') :
    Recorded gets source s' := by
  cases a with
  | client t =>
    simp only [collectSystem, recordedReader] at hStep
    split at hStep
    next hMove => split at hMove <;> cases hMove
    next key c hNone hMove =>
      cases hStep
      split at hMove
      next call _ hGet =>
        cases hMove
        refine ⟨h.calls_update ?_, h.reads, h.answers⟩
        rintro _ ⟨⟩
        exact ⟨call.2, hGet⟩
      next => cases hMove
    next => cases hStep
  | get t fault =>
    obtain ⟨pc, hCall, rfl⟩ := Option.map_eq_some_iff.mp hStep
    cases hDone : pc.isDone with
    | false => exact h.hidden hCall (hInv.hidden hCall fault hDone)
    | true =>
      cases pc with
      | done key answer => exact h.answered hInv hCall fault
      | _ => cases hDone
  | cancel err =>
    cases hStep
    exact ⟨h.calls, h.reads, h.answers⟩

theorem run {actions : List CollectAction}
    (hRun : (collectSystem (recordedReader gets out) g l source).run actions
      (CollectState.init (recordedReader gets out)) = some s) : Recorded gets source s := by
  have hKeep : ∀ a s s', (CollectInv g l source s ∧ Recorded gets source s) →
      (collectSystem (recordedReader gets out) g l source).step a s = some s' →
        CollectInv g l source s' ∧ Recorded gets source s' :=
    fun _ _ _ h hStep => ⟨h.1.step hStep, h.2.step h.1 hStep⟩
  exact (System.run_invariant hKeep ⟨.init, .init⟩ hRun).2

end Recorded

/-- Every answer in the run was given. -/
theorem answers_of_traversed {gets : List (Bytes × Except Err Bytes)}
    {out r : Except Err StateResult} {g : PruneHost} {l : KeepLimits} {source : Store}
    {s : CollectState Answers} (h : Traversed (recordedReader gets out) g l source r s) {t : Nat}
    {key v : Bytes} (hGet : gets[t]? = some (key, .ok v)) :
    source.get? key = some v ∧ (key.length = 32 → (key, v) ∈ s.reads) := by
  obtain ⟨actions, hRun⟩ := h.run
  have hResult := h.result
  simp only [recordedReader] at hResult
  split at hResult
  next hAll =>
    have hAnswer := hAll t (List.getElem?_eq_some_iff.mp hGet).1
    rw [hGet] at hAnswer
    obtain ⟨key', answer, hGet', hSource, hRead⟩ := (Recorded.run hRun).answers t v hAnswer
    obtain ⟨rfl, -⟩ := Prod.mk.inj (Option.some.inj (hGet.symm.trans hGet'))
    exact ⟨hSource, hRead⟩
  next => cases hResult

section Collects

variable {m : Walker} {g : PruneHost} {l : KeepLimits} {source : Store} {state : StateResult}
  {s : CollectState Answers}

/-- **The records that were read are the items of the state.** -/
theorem Collects.reads_iff (h : Collects m g l source (.ok state) s) (key : Bytes) :
    (∃ v, (key, v) ∈ s.reads) ↔
      ∃ kind h, HeadItem m.decodeNode source m.root kind h ∧ h.bytes = key := by
  obtain ⟨tr, hWalk, hTraversed⟩ := h
  have hHonest : Honest source tr := by
    intro key v hGet
    obtain ⟨t, ht⟩ := List.mem_iff_getElem?.mp (mem_getsOf.mpr hGet)
    exact (answers_of_traversed hTraversed ht).1
  constructor
  · rintro ⟨v, hRead⟩
    obtain ⟨actions, hRun⟩ := hTraversed.run
    obtain ⟨answer, hGet⟩ := (Recorded.run hRun).reads _ hRead
    exact hWalk.reads_only hHonest (mem_getsOf.mp hGet)
  · rintro ⟨kind, hash, hItem, rfl⟩
    obtain ⟨v, hGet, -⟩ := hWalk.reads hHonest hItem
    obtain ⟨t, ht⟩ := List.mem_iff_getElem?.mp (mem_getsOf.mpr hGet)
    exact ⟨v, (answers_of_traversed hTraversed ht).2 hash.length_bytes⟩

end Collects

end L2State
