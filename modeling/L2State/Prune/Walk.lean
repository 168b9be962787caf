import L2State.Prune.PipelineSpec

/-!
# L2State — how a pipeline run ends

`walkPruneDifference` of `prune_pipeline.go` closes the pipeline on the way out:
the workers take the jobs that are left and stop, and an error that one of them
recorded replaces the coordinator's own result.

* `ScanEnds`, `ScanState.outcome` — the returned coordinator, the joined workers and
  the error that the caller sees.
* `ScanEnds.finished_of_outcome` — **no error means that everything was consumed**:
  a recorded failure never gets lost behind a coordinator that finished.
* `ScanEnds.finished_of_calm` — when no callback refuses a record and the context is
  not cancelled before the coordinator returns, the coordinator finishes.
* `exists_scanEnds` — every pipeline can be run to its end.
-/

namespace L2State

open Lib

/-! ## The end of a run -/

/-- Every worker has left its loop. -/
def ScanState.Joined (s : ScanState) : Prop := s.jobs = [] ∧ ∀ pc ∈ s.workers, pc = .idle

/-- A run up to the point where `pipeline.close` returns. -/
structure ScanEnds (e : PruneExecution) (c : ScanCalls) (script : Script) (s : ScanState) :
    Prop where
  run      : ∃ t, (scanSystem e c).run t (ScanState.init e script) = some s
  returned : s.pc.Returned
  joined   : s.Joined

/-- The coordinator returned before the context of the caller ended. The cancellation
on the way out comes later. -/
structure CalmScanEnds (e : PruneExecution) (c : ScanCalls) (script : Script) (s : ScanState) :
    Prop where
  run    : ∃ t m t', (scanSystem e c).run t (ScanState.init e script) = some m ∧
    (∀ a ∈ t, ScanAction.isMove a = true) ∧ m.pc.Returned ∧ (scanSystem e c).run t' m = some s
  joined : s.Joined

/-- The error of the walk: a recorded failure, or what the coordinator returned. -/
def ScanState.outcome (s : ScanState) : Option Err :=
  match s.failure, s.pc with
  | some err, _ => some err
  | none, .failed err => some err
  | none, _ => none

/-! ## Recorded failures -/

/-- A failure leaves a note, unless the coordinator has returned with an error. -/
structure Noted (s : ScanState) : Prop where
  slots : ∀ j, (s.slots j).err ≠ none → s.failures ≠ []
  latch : s.failure ≠ none → s.pc.script ≠ none → s.failures ≠ []

/-- What a move of the coordinator does to the failures. -/
structure KeepsFailures (s s' : ScanState) : Prop where
  slots    : ∀ j, (s'.slots j).err ≠ none → (s.slots j).err ≠ none
  latch    : s'.pc.script ≠ none → s'.failure = s.failure ∧ s.pc.script ≠ none
  failures : s.failures ≠ [] → s'.failures ≠ []

theorem Noted.of_quiet {s s' : ScanState} (h : Noted s) (hQuiet : KeepsFailures s s') :
    Noted s' where
  slots j hj := hQuiet.failures (h.slots j (hQuiet.slots j hj))
  latch hFail hLive := by
    obtain ⟨hSame, hLive⟩ := hQuiet.latch hLive
    rw [hSame] at hFail
    exact hQuiet.failures (h.latch hFail hLive)

theorem ScanState.note_ne_nil {s : ScanState} {number : Option Nat} {err : Option Err}
    (h : s.failures ≠ []) : (s.note number err).failures ≠ [] := by
  simp only [ScanState.note]
  split
  · exact List.append_ne_nil_of_left_ne_nil h _
  · exact h

namespace KeepsFailures

variable {s : ScanState}

theorem goto (pc : MainPc) (h : pc.script ≠ none → s.pc.script ≠ none) :
    KeepsFailures s { s with pc := pc } :=
  ⟨fun _ hj => hj, fun hLive => ⟨rfl, h hLive⟩, id⟩

/-- A slot keeps its error or loses it. -/
theorem setSlot {j : Nat} {slot : ScanSlot} (h : slot.err ≠ none → (s.slots j).err ≠ none) (i : Nat)
    (hi : ((s.setSlot j slot).slots i).err ≠ none) : (s.slots i).err ≠ none := by
  simp only [ScanState.setSlot] at hi
  by_cases hEq : i = j
  · subst hEq
    rw [Function.update_self] at hi
    exact h hi
  · rwa [Function.update_of_ne hEq] at hi

theorem release {e : PruneExecution} {j : Nat} {k : AfterDrain} {err : Option Err}
    (hLive : s.pc.script ≠ none) : KeepsFailures s (s.release e j k err) where
  slots := setSlot (fun h => absurd rfl h)
  latch hSome := by
    cases err with
    | none => exact ⟨rfl, hLive⟩
    | some err => exact absurd rfl hSome
  failures := id

theorem trans {s' s'' : ScanState} (h : KeepsFailures s s') (h' : KeepsFailures s' s'') :
    KeepsFailures s s'' where
  slots j hj := h.slots j (h'.slots j hj)
  latch hLive := by
    obtain ⟨hSame', hLive'⟩ := h'.latch hLive
    obtain ⟨hSame, hLive⟩ := h.latch hLive'
    exact ⟨hSame'.trans hSame, hLive⟩
  failures hNe := h'.failures (h.failures hNe)

theorem hand (r : PruneRecord) (err : Option Err) (hLive : s.pc.script ≠ none) :
    KeepsFailures s (s.hand r err) :=
  ⟨fun _ hj => hj, fun _ => ⟨rfl, hLive⟩, ScanState.note_ne_nil⟩

end KeepsFailures

/-- The coordinator records an error only when it returns. -/
theorem mainStep_quiet {e : PruneExecution} {c : ScanCalls} {s s' : ScanState}
    (hStep : mainStep e c s = some s') : KeepsFailures s s' := by
  -- a coordinator that moves has not failed
  have hLive : s.pc.script ≠ none := by
    intro hNone
    cases hPc : s.pc with
    | failed err => rw [mainStep, hPc] at hStep; cases hStep
    | _ => rw [hPc] at hNone; cases hNone
  unfold mainStep at hStep
  split at hStep
  case h_4 =>
    split at hStep <;> cases hStep
    · exact .goto _ fun _ => hLive
    · exact ⟨KeepsFailures.setSlot fun h => h, fun _ => ⟨rfl, hLive⟩, id⟩
  case h_5 =>
    split at hStep <;> cases hStep
    exact ⟨fun _ hj => hj, fun _ => ⟨rfl, hLive⟩, id⟩
  case h_7 =>
    split at hStep <;> cases hStep
    exact ⟨KeepsFailures.setSlot fun h => h, fun _ => ⟨rfl, hLive⟩, id⟩
  case h_8 =>
    split at hStep <;> cases hStep
    · exact .release hLive
    · exact .goto _ fun _ => hLive
  case h_9 =>
    cases hStep
    exact (KeepsFailures.hand _ _ hLive).trans (.release hLive)
  case h_10 =>
    split at hStep <;> cases hStep
    · refine ⟨fun _ hj => hj, fun hSome => absurd rfl hSome, fun hNe => ?_⟩
      exact List.append_ne_nil_of_left_ne_nil hNe _
    · exact .goto _ fun _ => hLive
  case h_12 =>
    dsimp only at hStep
    split at hStep <;> cases hStep <;>
      exact (KeepsFailures.hand _ _ hLive).trans (.goto _ fun _ => hLive)
  -- the other moves change the position only
  all_goals
    repeat' split at hStep
    all_goals cases hStep <;> exact .goto _ fun _ => hLive

namespace Noted

variable {e : PruneExecution} {c : ScanCalls} {script : Script} {s s' : ScanState}

/-- A worker notes the record that it finds unacceptable, and records its error
afterwards. -/
theorem workerStep {w : Nat} (hInv : ScanInv e c script s) (h : Noted s)
    (hStep : workerStep c w s = some s') : Noted s' := by
  unfold L2State.workerStep at hStep
  split at hStep
  next => cases hStep
  next =>
    split at hStep <;> cases hStep
    exact ⟨h.slots, h.latch⟩
  next j hWorker =>
    cases hStep
    obtain ⟨hMem, -⟩ := hInv.tokens.mem_of_early (Tokens.early_pos_of_classify hWorker)
    -- the slot is pending, so its record has a number
    obtain ⟨i, hIndex⟩ : ∃ i, (s.slots j).index = some i := by
      obtain ⟨base, -, -, hMap⟩ := hInv.numbered.ring
      have hIn : (s.slots j).index ∈ (List.range' base s.pending).map some :=
        hMap ▸ List.mem_map_of_mem hMem
      obtain ⟨i, -, hi⟩ := List.mem_map.mp hIn
      exact ⟨i, hi.symm⟩
    refine ⟨?_, fun hFail hLive => ScanState.note_ne_nil (h.latch hFail hLive)⟩
    intro m hm
    by_cases hEq : m = j
    · subst hEq
      simp only [ScanState.note, ScanState.setSlot, Function.update_self] at hm ⊢
      rw [if_pos (Option.isSome_iff_ne_none.mpr hm), hIndex]
      exact List.append_ne_nil_of_right_ne_nil _ (List.cons_ne_nil _ _)
    · simp only [ScanState.note, ScanState.setSlot, Function.update_of_ne hEq] at hm
      exact ScanState.note_ne_nil (h.slots m hm)
  next j hWorker =>
    cases hStep
    refine ⟨h.slots, fun hFail hLive => ?_⟩
    simp only [ScanState.fail] at hFail
    split at hFail
    · exact h.slots j hFail
    · exact h.latch hFail hLive
  next j hWorker =>
    split at hStep <;> cases hStep
    have hKeep : ∀ m, ((s.setSlot j { s.slots j with done := true }).slots m).err ≠ none →
        (s.slots m).err ≠ none := KeepsFailures.setSlot fun hErr => hErr
    exact ⟨fun m hm => h.slots m (hKeep m hm), h.latch⟩

theorem step {a : ScanAction} (hInv : ScanInv e c script s) (h : Noted s)
    (hStep : (scanSystem e c).step a s = some s') : Noted s' := by
  cases a with
  | main => exact h.of_quiet (mainStep_quiet hStep)
  | worker w => exact workerStep hInv h hStep
  | interrupt err =>
    simp only [scanSystem] at hStep
    split at hStep <;> cases hStep
    exact ⟨h.slots, h.latch⟩

theorem run {t : List ScanAction}
    (hRun : (scanSystem e c).run t (ScanState.init e script) = some s) :
    Noted s := by
  have hInit : ScanInv e c script (ScanState.init e script) ∧ Noted (ScanState.init e script) :=
    ⟨ScanInv.init, fun _ hj => absurd rfl hj, fun hFail => absurd rfl hFail⟩
  have hKeep : ∀ a s s', (ScanInv e c script s ∧ Noted s) → (scanSystem e c).step a s = some s' →
      ScanInv e c script s' ∧ Noted s' := fun _ _ _ h hStep => ⟨h.1.step hStep, h.2.step h.1 hStep⟩
  exact (System.run_invariant hKeep hInit hRun).2

end Noted

/-! ## A walk without an error -/

namespace ScanEnds

variable {e : PruneExecution} {c : ScanCalls} {script : Script} {s : ScanState}

/-- When the coordinator finished, no worker recorded a failure. -/
theorem failure_eq_none (h : ScanEnds e c script s) (hPc : s.pc = .finished) :
    s.failure = none := by
  obtain ⟨t, hRun⟩ := h.run
  have hInv := ScanInv.run hRun
  have hLive : s.pc.script ≠ none := by simp [hPc, MainPc.script]
  have hPending : s.pending = 0 := by
    have := hInv.place
    rwa [hPc] at this
  by_contra hFail
  exact (Noted.run hRun).latch hFail hLive (hInv.failures_nil hPending hLive)

theorem outcome_eq_none_iff (h : ScanEnds e c script s) : s.outcome = none ↔ s.pc = .finished := by
  constructor
  · intro hNone
    have hReturned := h.returned
    cases hPc : s.pc with
    | finished => rfl
    | failed err =>
      cases hFail : s.failure <;> simp [ScanState.outcome, hFail, hPc] at hNone
    | _ => rw [hPc] at hReturned; exact hReturned.elim
  · intro hPc
    rw [ScanState.outcome, h.failure_eq_none hPc, hPc]

/-- A walk without an error pushed records only, and consumed all of them in order. -/
theorem consumed_of_outcome (h : ScanEnds e c script s) (hNone : s.outcome = none) :
    ∃ records : List PruneRecord, script = records.map .ok ∧
      List.Forall₂ (Final c) records s.consumed := by
  have hPc := h.outcome_eq_none_iff.mp hNone
  obtain ⟨t, hRun⟩ := h.run
  have hInv := ScanInv.run hRun
  obtain ⟨before, rest, -, hSplit, hTodo⟩ := hInv.ordered.split
  obtain ⟨queued, -, hRest⟩ := hTodo [] (by rw [hPc]; rfl)
  have hScript : script = (before ++ queued).map .ok := by
    rw [hSplit, hRest, List.append_nil, List.map_append]
  subst hScript
  exact ⟨_, rfl, hInv.consumed_all hPc⟩

end ScanEnds

/-! ## A walk that nothing disturbs -/

private theorem exists_of_forall₂ {α β : Type} {R : α → β → Prop} {xs : List α} {ys : List β}
    (h : List.Forall₂ R xs ys) {x : α} (hx : x ∈ xs) : ∃ y ∈ ys, R x y := by
  induction h with
  | nil => cases hx
  | cons hHead _ ih =>
    rcases List.mem_cons.mp hx with rfl | hx
    · exact ⟨_, List.mem_cons_self, hHead⟩
    · obtain ⟨y, hy, hxy⟩ := ih hx
      exact ⟨y, List.mem_cons_of_mem _ hy, hxy⟩

/-- The coordinator is at work and nobody has an error. -/
structure ScanCalm (s : ScanState) : Prop where
  ctx     : s.ctx = none
  parent  : s.parent = none
  failure : s.failure = none
  live    : s.pc.script ≠ none
  slots   : ∀ j, (s.slots j).err = none

/-- The callbacks accept these records while the context is live. -/
structure Accepts (c : ScanCalls) (records : List PruneRecord) : Prop where
  classify : ∀ r ∈ records, (c.classify none r).2 = none
  consume  : ∀ before out, (∃ r ∈ records, Final c r out) → c.consume none before out = none

namespace ScanCalm

variable {e : PruneExecution} {c : ScanCalls} {records : List PruneRecord} {s s' : ScanState}

/-- The rest of the script only pushes. -/
theorem todo_mem (hInv : ScanInv e c (records.map .ok) s) {x : Except Err PruneRecord}
    {todo : Script} (hScript : s.pc.script = some (x :: todo)) : ∃ r ∈ records, x = .ok r := by
  obtain ⟨before, rest, -, hSplit, hTodo⟩ := hInv.ordered.split
  obtain ⟨queued, -, rfl⟩ := hTodo _ hScript
  have hMem : x ∈ records.map Except.ok := by
    rw [hSplit]
    simp
  obtain ⟨r, hr, hEq⟩ := List.mem_map.mp hMem
  exact ⟨r, hr, hEq.symm⟩

/-- A pending slot holds a record of the script. -/
theorem content_mem (hInv : ScanInv e c (records.map .ok) s) (hLive : s.pc.script ≠ none) {j : Nat}
    (hj : j ∈ s.ring e) : ∃ r ∈ records, Content c (s.slots j) r := by
  obtain ⟨before, rest, -, hSplit, hTodo⟩ := hInv.ordered.split
  obtain ⟨todo, hScript⟩ := Option.ne_none_iff_exists'.mp hLive
  obtain ⟨queued, hQueued, rfl⟩ := hTodo _ hScript
  obtain ⟨r, hr, hContent⟩ := exists_of_forall₂ hQueued hj
  have hMem : (.ok r : Except Err PruneRecord) ∈ records.map Except.ok := by
    rw [hSplit]
    simp [hr]
  obtain ⟨r', hr', hEq⟩ := List.mem_map.mp hMem
  cases hEq
  exact ⟨r, hr', hContent⟩

/-- A record whose token the coordinator holds is classified. -/
theorem final_mem (hInv : ScanInv e c (records.map .ok) s) (hCalm : ScanCalm s) {j : Nat}
    {k : AfterDrain} (hPc : s.pc = .consume j k) : ∃ r ∈ records, Final c r (s.slots j).record := by
  have hLate : 0 < s.late j := by simp [ScanState.late, hPc, MainPc.takes]
  obtain ⟨hMem, hJudged⟩ := hInv.tokens.mem_of_late hLate
  obtain ⟨r, hr, hContent⟩ := content_mem hInv hCalm.live hMem
  obtain ⟨ctx, hCtx⟩ := hContent.verdict hJudged
  rw [hCalm.slots j] at hCtx
  exact ⟨r, hr, hContent.key, hContent.value, ctx, hCtx⟩

theorem setSlot_err {j : Nat} {slot : ScanSlot} (h : ScanCalm s)
    (hErr : slot.err = none) (i : Nat) :
    ((s.setSlot j slot).slots i).err = none := by
  simp only [ScanState.setSlot]
  by_cases hi : i = j
  · subst hi
    rwa [Function.update_self]
  · rw [Function.update_of_ne hi]
    exact h.slots i

theorem hand (h : ScanCalm s) (r : PruneRecord) (err : Option Err) : ScanCalm (s.hand r err) :=
  ⟨h.ctx, h.parent, h.failure, h.live, h.slots⟩

theorem release (h : ScanCalm s) (j : Nat) (k : AfterDrain) : ScanCalm (s.release e j k none) :=
  ⟨h.ctx, h.parent, h.failure, by cases k <;> simp [ScanState.release, MainPc.script],
    h.setSlot_err rfl⟩

/-- The coordinator stays calm when every record is accepted. -/
theorem mainStep (hInv : ScanInv e c (records.map .ok) s) (hAccepts : Accepts c records)
    (h : ScanCalm s) (hStep : mainStep e c s = some s') : ScanCalm s' := by
  have hGoto : ∀ pc : MainPc, pc.script ≠ none → ScanCalm { s with pc := pc } := fun _ hLive =>
    ⟨h.ctx, h.parent, h.failure, hLive, h.slots⟩
  unfold L2State.mainStep at hStep
  split at hStep
  next =>
    cases hStep
    exact hGoto _ (Option.some_ne_none _)
  next hPc =>
    -- the script has no error
    obtain ⟨r, -, hEq⟩ := todo_mem hInv (by rw [hPc]; rfl)
    cases hEq
  next =>
    rw [h.ctx] at hStep
    dsimp only at hStep
    split at hStep <;> cases hStep <;>
      exact ⟨rfl, h.parent, h.failure, Option.some_ne_none _, h.slots⟩
  next =>
    split at hStep <;> cases hStep
    · exact hGoto _ (Option.some_ne_none _)
    · exact ⟨h.ctx, h.parent, h.failure, by simp [ScanState.enqueue, MainPc.script],
        h.setSlot_err (h.slots _)⟩
  next =>
    split at hStep <;> cases hStep
    exact ⟨h.ctx, h.parent, h.failure, Option.some_ne_none _, h.slots⟩
  next hPc =>
    split at hStep
    · cases hStep
      exact hGoto _ (Option.some_ne_none _)
    · split at hStep
      next _ hSome =>
        rw [h.ctx] at hSome
        cases hSome
      all_goals
        cases hStep
        exact hGoto _ (Option.some_ne_none _)
  next j k _ =>
    split at hStep <;> cases hStep
    exact ⟨h.ctx, h.parent, h.failure, Option.some_ne_none _, h.setSlot_err (h.slots j)⟩
  next j k hPc =>
    rw [h.slots, h.ctx] at hStep
    cases hStep
    exact ⟨rfl, h.parent, h.failure, Option.some_ne_none _, h.slots⟩
  next j k hPc =>
    dsimp only at hStep
    rw [h.parent, hAccepts.consume _ _ (final_mem hInv h hPc)] at hStep
    cases hStep
    exact (h.hand _ _).release j k
  next r todo hPc =>
    obtain ⟨r', hr, hEq⟩ := todo_mem hInv (by rw [hPc]; rfl)
    cases hEq
    have hErr := hAccepts.classify r hr
    rw [h.ctx] at hStep
    split at hStep
    next hSome =>
      rw [hSome] at hErr
      cases hErr
    · cases hStep
      exact ⟨rfl, h.parent, h.failure, Option.some_ne_none _, h.slots⟩
  next =>
    rw [h.ctx] at hStep
    cases hStep
    exact ⟨rfl, h.parent, h.failure, Option.some_ne_none _, h.slots⟩
  next r role todo hPc =>
    obtain ⟨r', hr, hEq⟩ := todo_mem hInv (by rw [hPc]; rfl)
    cases hEq
    have hPlace := hInv.place
    rw [hPc] at hPlace
    have hFinal : Final c r { r with role := role } := ⟨rfl, rfl, hPlace.2⟩
    dsimp only at hStep
    rw [h.parent, hAccepts.consume _ _ ⟨r, hr, hFinal⟩] at hStep
    cases hStep
    exact ⟨h.ctx, h.parent, h.failure, Option.some_ne_none _, h.slots⟩
  next => cases hStep
  next => cases hStep

/-- The workers stay calm when every record is accepted. -/
theorem workerStep {w : Nat} (hInv : ScanInv e c (records.map .ok) s) (hAccepts : Accepts c records)
    (h : ScanCalm s) (hStep : workerStep c w s = some s') : ScanCalm s' := by
  unfold L2State.workerStep at hStep
  split at hStep
  next => cases hStep
  next =>
    split at hStep <;> cases hStep
    exact ⟨h.ctx, h.parent, h.failure, h.live, h.slots⟩
  next j hWorker =>
    cases hStep
    obtain ⟨hMem, hFresh⟩ := hInv.tokens.mem_of_early (Tokens.early_pos_of_classify hWorker)
    obtain ⟨r, hr, hContent⟩ := content_mem hInv h.live hMem
    have hRecord := hContent.record_eq hFresh
    have hErr : (c.classify s.ctx (s.slots j).record).2 = none := by
      rw [h.ctx, hRecord]
      exact hAccepts.classify r hr
    exact ⟨h.ctx, h.parent, h.failure, h.live, h.setSlot_err hErr⟩
  next j _ =>
    cases hStep
    rw [h.slots]
    exact ⟨h.ctx, h.parent, h.failure, h.live, h.slots⟩
  next j _ =>
    split at hStep <;> cases hStep
    exact ⟨h.ctx, h.parent, h.failure, h.live, h.setSlot_err (h.slots j)⟩

/-- Along a run of the threads alone nobody gets an error. -/
theorem run {t : List ScanAction} (hAccepts : Accepts c records)
    (hRun : (scanSystem e c).run t (ScanState.init e (records.map .ok)) = some s)
    (hMoves : ∀ a ∈ t, ScanAction.isMove a = true) : ScanCalm s := by
  have hInit : ScanCalm (ScanState.init e (records.map .ok)) :=
    ⟨rfl, rfl, rfl, by simp [ScanState.init, MainPc.script], fun _ => rfl⟩
  have hInv : ScanInv e c (records.map .ok) (ScanState.init e (records.map .ok)) := ScanInv.init
  generalize ScanState.init e (records.map .ok) = m at hRun hInit hInv
  induction t generalizing m with
  | nil =>
    obtain rfl : m = s := by simpa using hRun
    exact hInit
  | cons a t ih =>
    obtain ⟨m', hStep, hRest⟩ := System.run_cons_eq_some.mp hRun
    refine ih (fun b hb => hMoves b (List.mem_cons_of_mem _ hb)) m' hRest ?_ (hInv.step hStep)
    cases a with
    | main => exact hInit.mainStep hInv hAccepts hStep
    | worker w => exact hInit.workerStep hInv hAccepts hStep
    | interrupt err => exact absurd (hMoves _ List.mem_cons_self) Bool.false_ne_true

end ScanCalm

/-! ## Every walk ends -/

section

variable {e : PruneExecution} {c : ScanCalls} {script : Script} {s : ScanState}

/-- The coordinator stays where it returned. -/
theorem run_pc_of_returned {t : List ScanAction} {m : ScanState} (hReturned : m.pc.Returned)
    (hRun : (scanSystem e c).run t m = some s) : s.pc = m.pc := by
  have hKeep : ∀ a s s', s.pc = m.pc → (scanSystem e c).step a s = some s' → s'.pc = m.pc := by
    intro a s s' hPc hStep
    cases a with
    | main =>
      have hStep : mainStep e c s = some s' := hStep
      unfold mainStep at hStep
      cases hEnd : m.pc with
      | finished | failed => rw [hPc, hEnd] at hStep; cases hStep
      | _ => rw [hEnd] at hReturned; exact hReturned.elim
    | worker w =>
      have hStep : workerStep c w s = some s' := hStep
      unfold workerStep at hStep
      split at hStep
      next => cases hStep
      next => split at hStep <;> cases hStep; exact hPc
      next => cases hStep; exact hPc
      next => cases hStep; exact hPc
      next => split at hStep <;> cases hStep; exact hPc
    | interrupt err =>
      simp only [scanSystem] at hStep
      split at hStep <;> cases hStep
      exact hPc
  exact System.run_invariant hKeep rfl hRun

theorem CalmScanEnds.scanEnds (h : CalmScanEnds e c script s) : ScanEnds e c script s := by
  obtain ⟨t, m, t', hRun, -, hReturned, hRest⟩ := h.run
  refine ⟨⟨t ++ t', System.run_append_eq_some.mpr ⟨m, hRun, hRest⟩⟩, ?_, h.joined⟩
  rwa [run_pc_of_returned hReturned hRest]

/-- Records that every callback accepts are all consumed. -/
theorem CalmScanEnds.outcome_eq_none {records : List PruneRecord}
    (h : CalmScanEnds e c (records.map .ok) s) (hAccepts : Accepts c records) : s.outcome =
    none := by
  rw [h.scanEnds.outcome_eq_none_iff]
  obtain ⟨t, m, t', hRun, hMoves, hReturned, hRest⟩ := h.run
  rw [run_pc_of_returned hReturned hRest]
  have hCalm := ScanCalm.run hAccepts hRun hMoves
  cases hPc : m.pc with
  | finished => rfl
  | failed err => exact absurd (by rw [hPc]; rfl) hCalm.live
  | _ => rw [hPc] at hReturned; exact hReturned.elim

/-- Until the coordinator has returned and the workers have joined, a thread can
move. -/
theorem ScanInv.moves_until_joined (h : ScanInv e c script s)
    (hOpen : ¬ (s.pc.Returned ∧ s.Joined)) :
    ∃ a s', ScanAction.isMove a = true ∧ (scanSystem e c).step a s = some s' := by
  by_cases hReturned : s.pc.Returned
  · have hBusy : s.jobs ≠ [] ∨ ∃ pc ∈ s.workers, pc ≠ .idle := by
      by_contra hNone
      push Not at hNone
      exact hOpen ⟨hReturned, hNone⟩
    rcases hBusy with hJobs | ⟨pc, hPc, hBusy⟩
    · obtain ⟨w, s', hStep⟩ := h.jobs_move hJobs
      exact ⟨.worker w, s', rfl, hStep⟩
    · obtain ⟨w, hWorker⟩ := List.mem_iff_getElem?.mp hPc
      obtain ⟨s', hStep⟩ := h.worker_moves hWorker hBusy
      exact ⟨.worker w, s', rfl, hStep⟩
  · exact h.moves hReturned

/-- A walk can be run to its end. -/
theorem exists_calmScanEnds (e : PruneExecution) (c : ScanCalls) (script : Script) :
    ∃ s, CalmScanEnds e c script s := by
  have hKeep : ∀ a s s', ScanInv e c script s → (scanSystem e c).step a s = some s' →
      ScanInv e c script s' := fun _ _ _ hInv hStep => hInv.step hStep
  have hMoves : ∀ s, ScanInv e c script s → ¬ (s.pc.Returned ∧ s.Joined) →
      ∃ a s', ScanAction.isMove a = true ∧ (scanSystem e c).step a s = some s' :=
    fun _ hInv hOpen => hInv.moves_until_joined hOpen
  have hInit : ScanInv e c script (ScanState.init e script) := .init
  obtain ⟨t, s, hRun, hEnd, hAll⟩ := System.exists_final hKeep
    (fun _ _ _ hInv hMove hStep => hInv.move_work hMove hStep) hMoves hInit
  exact ⟨s, ⟨t, s, [], hRun, hAll, hEnd.1, rfl⟩, hEnd.2⟩

end

end L2State
