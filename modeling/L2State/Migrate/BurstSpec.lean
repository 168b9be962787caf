import L2State.Migrate.Burst

/-!
# L2State — a burst conserves its slots

The invariants of `Migrate/Burst`, for every schedule, every behaviour of the other
partitions, every failure and every point of cancellation.

* `MainMove`, `burstMainStep_eq_some` — what a move of the coordinator can do.
* `BurstSlots` — **each acquired slot is released or in one hand**.
* `BurstOrder` — the merged sequence numbers are consecutive, and every account that
  was submitted is merged, in a hand, or dropped behind a failure.
* `BurstFailures` — the result that brings a failure is never overtaken: results wait
  in the pending map only while there is no failure or its result is still to come.
-/

namespace L2State

open Lib

/-! ## Where the coordinator is -/

def AccountResult.isError {α β : Type} (r : AccountResult α β) : Bool :=
  match r.out with
  | .error _ => true
  | .ok _ => false

/-- The task is about to send an error. -/
def AccountTaskPc.sendsError {β : Type} : AccountTaskPc β → Bool
  | .send (.error _) => true
  | _ => false

namespace BurstPc

variable {α β : Type}

/-- The coordinator holds a slot for an account that it has not submitted. -/
def ahead : BurstPc α β → Nat
  | .lease => 1
  | .iterate => 1
  | .deliver _ => 1
  | .giveBack _ => 1
  | _ => 0

/-- The loop that submits accounts has not ended. -/
def submits : BurstPc α β → Bool
  | .acquire => true
  | .tryAcquire => true
  | .lease => true
  | .iterate => true
  | .deliver _ => true
  | .giveBack _ => true
  | _ => false

/-- The merged account is counted, but `next` is not yet advanced. -/
def bump : BurstPc α β → Nat
  | .merged _ none => 1
  | _ => 0

/-- The result that is being merged. -/
def current : BurstPc α β → Option (AccountResult α β)
  | .merge r => some r
  | .merging r => some r
  | .merged r _ => some r
  | _ => none

/-- The inner loop of the merge has found that the next account is missing. -/
def settled : BurstPc α β → Bool
  | .receive => true
  | .load _ => true
  | _ => false

/-- The merge has not begun. -/
def early : BurstPc α β → Bool
  | .latch _ => true
  | pc => pc.submits

/-- A failure of the merge is about to be recorded. -/
def recording : BurstPc α β → Bool
  | .mergeLatch _ => true
  | _ => false

/-- The received result is an error. -/
def loadsError : BurstPc α β → Bool
  | .load r => r.isError
  | _ => false

/-- The coordinator is about to record an error of the iterator, of an account or of a
lease, or has returned with one. -/
def refusing : BurstPc α β → Bool
  | .giveBack (some _) => true
  | .latch (some _) => true
  | .returned (some _) => true
  | _ => false

/-- The coordinator has an account that has no sequence number yet. -/
def taking : BurstPc α β → Nat
  | .acquire => 1
  | .deliver _ => 1
  | _ => 0

/-- The coordinator goes on, after it took `n` accounts, and changes nothing else. -/
inductive Goes : BurstPc α β → Nat → BurstPc α β → Prop
  | refused (err : Err) : Goes .acquire 0 (.returned (some err))
  | full : Goes .tryAcquire 0 .receive
  | leased : Goes .lease 0 .iterate
  | unleased (err : Err) : Goes .lease 0 (.giveBack (some err))
  | plain (job : α) : Goes .iterate 1 (.deliver job)
  | invalid (err : Err) : Goes .iterate 1 (.giveBack (some err))
  | ended (err : Option Err) : Goes .iterate 0 (.giveBack err)
  | finished (err : Option Err) : Goes .receive 0 (.returned err)
  | dropped : Goes (.drop []) 0 .receive
  | missing : Goes .order 0 .receive
  | unmergeable (r : AccountResult α β) (err : Err) : Goes (.merge r) 0 (.merged r (some err))
  | mergeable (r : AccountResult α β) : Goes (.merge r) 0 (.merging r)
  | unmerged (r : AccountResult α β) (err : Err) : Goes (.merging r) 0 (.merged r (some err))

namespace Goes

variable {pc pc' : BurstPc α β} {n : Nat}

theorem holds (h : Goes pc n pc') (next : Nat) :
    pc'.holds next = pc.holds next := by cases h <;> rfl

theorem ahead (h : Goes pc n pc') : pc'.ahead = pc.ahead := by cases h <;> rfl

theorem submits (h : Goes pc n pc') : pc'.submits = true → pc.submits = true := by
  cases h <;> simp [BurstPc.submits]

theorem bump (h : Goes pc n pc') : pc'.bump = pc.bump := by cases h <;> rfl

/-- The result in the coordinator's hand stays the same. -/
theorem current (h : Goes pc n pc') {r : AccountResult α β} (hr : pc'.current = some r) :
    pc.current = some r := by
  cases h <;> exact hr

theorem recording (h : Goes pc n pc') : pc.recording = false := by cases h <;> rfl

theorem ne_drop (h : Goes pc n pc') (ns : List Nat) : pc' ≠ .drop ns := by cases h <;> nofun

theorem early (h : Goes pc n pc') : pc'.early = true → pc.early = true := by
  cases h <;> simp [BurstPc.early, BurstPc.submits]

/-- The inner loop of the merge has nothing to do when it ends, or has found nothing. -/
theorem settled (h : Goes pc n pc') (hSettled : pc'.settled = true) :
    pc.early = true ∨ pc = .drop [] ∨ pc = .order := by
  cases h with
  | full => exact .inl rfl
  | dropped => exact .inr (.inl rfl)
  | missing => exact .inr (.inr rfl)
  | _ => cases hSettled

theorem loadsError (h : Goes pc n pc') : pc.loadsError = false ∧ pc'.loadsError = false := by
  cases h <;> exact ⟨rfl, rfl⟩

/-- The accounts that were taken are counted, or one of them is refused. -/
theorem counted (h : Goes pc n pc') :
    pc'.refusing = true ∨ (pc.refusing = false ∧ pc'.taking = pc.taking + n) := by
  cases h with
  | refused | unleased | invalid => exact .inl rfl
  | ended err | finished err =>
    cases err with
    | none => exact .inr ⟨rfl, rfl⟩
    | some err => exact .inl rfl
  | _ => exact .inr ⟨rfl, rfl⟩

end Goes

end BurstPc

/-! ## Moves -/

section

variable {α β : Type} {cfg : BurstConfig α β} {env : BurstEnv} {s s' : BurstState α β}

/-- A task that is not at its result goes on to another place before it. -/
theorem taskPcStep_eq_some {ctx : Option Err} {tokenFree : Bool} {payload : β}
    {pc pc' : AccountTaskPc β} {m : TaskMove}
    (h : taskPcStep ctx tokenFree payload pc m = some pc') :
    pc.isDone = false ∧ pc'.isDone = false ∧ (∀ out, pc ≠ .send out) ∧ ∀ out, pc' ≠ .send out := by
  unfold taskPcStep at h
  split at h
  next => split at h <;> cases h; simp [AccountTaskPc.isDone]
  next => obtain ⟨err, -, rfl⟩ := Option.map_eq_some_iff.mp h; simp [AccountTaskPc.isDone]
  next => cases h; simp [AccountTaskPc.isDone]
  next => cases h; simp [AccountTaskPc.isDone]
  next => cases h; simp [AccountTaskPc.isDone]
  next =>
    split at h
    next => cases h
    next => obtain ⟨out, -, rfl⟩ := Option.map_eq_some_iff.mp h; simp [AccountTaskPc.isDone]
  next =>
    split at h
    next => split at h <;> cases h <;> simp [AccountTaskPc.isDone]
    next => cases h
  next => split at h <;> cases h; simp [AccountTaskPc.isDone]
  next => obtain ⟨err, -, rfl⟩ := Option.map_eq_some_iff.mp h; simp [AccountTaskPc.isDone]
  next => cases h; simp [AccountTaskPc.isDone]
  next => cases h; simp [AccountTaskPc.isDone]
  next => cases h

/-- The moves of a task: it records the error of its result, sends the result, or works
towards it. -/
theorem burstTaskStep_eq_some {i : Nat} {m : TaskMove}
    (hStep : burstTaskStep cfg env s i m = some s') :
    ∃ k, s.tasks[i]? = some k ∧
      ((∃ out, k.pc = .latch out ∧
        s' = { s.record (taskError cfg k out) with
          tasks := s.tasks.set i { k with pc := .send out } }) ∨
      (∃ out, k.pc = .send out ∧
        s' = { s with
          results := s.results ++ [⟨k.sequence, k.job, out⟩]
          tasks := s.tasks.set i { k with pc := .done } }) ∨
      ∃ pc, (k.pc.isDone = false ∧ ∀ out, k.pc ≠ .send out) ∧
        (pc.isDone = false ∧ ∀ out, pc ≠ .send out) ∧
        s' = { s with tasks := s.tasks.set i { k with pc := pc } }) := by
  unfold burstTaskStep at hStep
  split at hStep
  next => cases hStep
  next k hTask =>
    refine ⟨k, hTask, ?_⟩
    split at hStep
    next out hPc =>
      cases hStep
      exact .inl ⟨out, hPc, rfl⟩
    next out hPc =>
      split at hStep <;> cases hStep
      exact .inr (.inl ⟨out, hPc, rfl⟩)
    next =>
      obtain ⟨pc, hMoves, rfl⟩ := Option.map_eq_some_iff.mp hStep
      obtain ⟨hOld, hNew, hOldSend, hNewSend⟩ := taskPcStep_eq_some hMoves
      exact .inr (.inr ⟨pc, ⟨hOld, hOldSend⟩, ⟨hNew, hNewSend⟩, rfl⟩)

/-- **What a move of the coordinator can do.** -/
inductive MainMove (cfg : BurstConfig α β) (s : BurstState α β) : BurstState α β → Prop
  | goes {pc₀ pc : BurstPc α β} {n : Nat} (eof : Bool) (hPc : s.pc = pc₀) (hGoes : pc₀.Goes n pc)
      (hMissing : pc₀ = .order → ∀ r ∈ s.pending, r.sequence ≠ s.merge)
      (hReturned : ∀ err, pc = .returned err → (pc₀ = .acquire ∧ err ≠ none) ∨
        (pc₀ = .receive ∧ s.results = [] ∧ s.closed = true ∧ err = s.finish cfg)) :
      MainMove cfg s { s with pc := pc, taken := s.taken + n, eof := eof }
  | first (hPc : s.pc = .acquire) :
      MainMove cfg s { s with
        acquired := s.acquired ++ [s.next], tasks := s.tasks ++ [⟨s.next, cfg.firstJob, .lease⟩]
        next := s.next + 1, pc := .tryAcquire }
  | slot (hPc : s.pc = .tryAcquire) :
      MainMove cfg s { s with acquired := s.acquired ++ [s.next], pc := .lease }
  | started (job : α) (hPc : s.pc = .iterate) :
      MainMove cfg s { s with
        tasks := s.tasks ++ [⟨s.next, job, .lease⟩], next := s.next + 1, taken := s.taken + 1
        pc := .tryAcquire }
  | delivered (job : α) (hPc : s.pc = .deliver job) :
      MainMove cfg s { s with
        results := s.results ++ [⟨s.next, job, .ok (cfg.ready job)⟩], next := s.next + 1
        pc := .tryAcquire }
  | gaveBack (err : Option Err) (hPc : s.pc = .giveBack err) :
      MainMove cfg s { s with released := s.released ++ [s.next], pc := .latch err }
  | latched (err : Option Err) (hPc : s.pc = .latch err) :
      MainMove cfg s { s.record err with pc := .receive }
  | received (r : AccountResult α β) (rest : List (AccountResult α β)) (hPc : s.pc = .receive)
      (hResults : s.results = r :: rest) : MainMove cfg s { s with results := rest, pc := .load r }
  | cleared (r : AccountResult α β) (hPc : s.pc = .load r) (hFail : s.failure ≠ none) :
      MainMove cfg s
        { s with pending := [], pc := .drop (r.sequence :: s.pending.map (·.sequence)) }
  | kept (r : AccountResult α β) (hPc : s.pc = .load r) (hFail : s.failure = none) :
      MainMove cfg s { s with pending := s.pending ++ [r], pc := .order }
  | dropped (n : Nat) (rest : List Nat) (hPc : s.pc = .drop (n :: rest)) :
      MainMove cfg s { s with released := s.released ++ [n], pc := .drop rest }
  | picked (r : AccountResult α β) (hPc : s.pc = .order)
      (hFind : s.pending.find? (fun r => r.sequence = s.merge) = some r) :
      MainMove cfg s { s with
        pending := s.pending.filter fun r => r.sequence ≠ s.merge, pc := .merge r }
  | merged (r : AccountResult α β) (hPc : s.pc = .merging r) :
      MainMove cfg s { s with merged := s.merged ++ [r], pc := .merged r none }
  | advanced (r : AccountResult α β) (hPc : s.pc = .merged r none) :
      MainMove cfg s { s with
        released := s.released ++ [r.sequence], merge := s.merge + 1, pc := .order }
  | failed (r : AccountResult α β) (err err' : Err) (hPc : s.pc = .merged r (some err)) :
      MainMove cfg s { s with released := s.released ++ [r.sequence], pc := .mergeLatch err' }
  | recorded (err : Err) (hPc : s.pc = .mergeLatch err) :
      MainMove cfg s { s.record (some err) with
        pending := [], pc := .drop (s.pending.map (·.sequence)) }

/-- The steps of the main thread are its moves. -/
theorem burstMainStep_eq_some {m : BurstMove α} (hStep : burstMainStep cfg env s m = some s') :
    MainMove cfg s s' := by
  unfold burstMainStep at hStep
  split at hStep
  next hPc =>
    split at hStep <;> cases hStep
    exact .first hPc
  next hPc =>
    obtain ⟨err, -, rfl⟩ := Option.map_eq_some_iff.mp hStep
    refine .goes _ hPc (.refused err) nofun fun err' hErr => .inl ⟨rfl, ?_⟩
    cases hErr
    exact Option.some_ne_none _
  next hPc =>
    split at hStep <;> cases hStep
    · exact .slot hPc
    · exact .goes _ hPc .full nofun nofun
  next hPc =>
    split at hStep <;> cases hStep
    exact .goes _ hPc .leased nofun nofun
  next hPc =>
    obtain ⟨err, -, rfl⟩ := Option.map_eq_some_iff.mp hStep
    exact .goes _ hPc (.unleased err) nofun nofun
  next job async hPc =>
    split at hStep <;> cases hStep
    · exact .started job hPc
    · exact .goes _ hPc (.plain job) nofun nofun
  next err hPc =>
    cases hStep
    exact .goes _ hPc (.invalid err) nofun nofun
  next err hPc =>
    cases hStep
    exact .goes _ hPc (.ended _) nofun nofun
  next job hPc =>
    split at hStep <;> cases hStep
    exact .delivered job hPc
  next err hPc =>
    split at hStep <;> cases hStep
    exact .gaveBack err hPc
  next err hPc =>
    cases hStep
    exact .latched err hPc
  next hPc =>
    split at hStep
    next r rest hResults =>
      cases hStep
      exact .received r rest hPc hResults
    next hResults =>
      split at hStep <;> cases hStep
      next hClosed =>
        refine .goes _ hPc (.finished _) nofun fun err hErr => .inr ⟨rfl, hResults, hClosed, ?_⟩
        cases hErr
        rfl
  next r hPc =>
    split at hStep
    next err hFail =>
      cases hStep
      exact .cleared r hPc (by simp [hFail])
    next hFail =>
      cases hStep
      exact .kept r hPc hFail
  next hPc =>
    cases hStep
    exact .goes _ hPc .dropped nofun nofun
  next n rest hPc =>
    split at hStep <;> cases hStep
    exact .dropped n rest hPc
  next hPc =>
    split at hStep
    next r hFind =>
      cases hStep
      exact .picked r hPc hFind
    next hNone =>
      cases hStep
      exact .goes _ hPc .missing (fun _ r hr => by simpa using List.find?_eq_none.mp hNone r hr)
        nofun
  next r hPc =>
    split at hStep
    · cases hStep
      exact .goes _ hPc (.unmergeable r _) nofun nofun
    · split at hStep <;> cases hStep
      exact .goes _ hPc (.mergeable r) nofun nofun
  next r hPc =>
    split at hStep <;> cases hStep
    exact .goes _ hPc (.unmergeable r _) nofun nofun
  next r hPc =>
    cases hStep
    exact .merged r hPc
  next r err hPc =>
    cases hStep
    exact .goes _ hPc (.unmerged r err) nofun nofun
  next r hPc =>
    split at hStep <;> cases hStep
    exact .advanced r hPc
  next r err hPc =>
    split at hStep <;> cases hStep
    exact .failed r err _ hPc
  next err hPc =>
    cases hStep
    exact .recorded err hPc
  next => cases hStep

/-- The coordinator returns at two places. -/
theorem MainMove.returned (h : MainMove cfg s s') :
    s'.pc ≠ .acquire ∧ ∀ err, s'.pc = .returned err →
      (s'.acquired = s.acquired ∧ s'.tasks = s.tasks ∧ s'.closed = s.closed ∧
        s'.results = s.results ∧
        s'.pending = s.pending ∧ s'.failure = s.failure ∧ s'.merge = s.merge ∧ s'.next = s.next) ∧
      ((s.pc = .acquire ∧ err ≠ none) ∨
        (s.pc = .receive ∧ s.results = [] ∧ s.closed = true ∧ err = s.finish cfg)) := by
  cases h with
  | goes eof hPc hGoes hMissing hReturned =>
    exact ⟨by cases hGoes <;> nofun, fun err hErr => ⟨by simp, hPc ▸ hReturned err hErr⟩⟩
  | _ => exact ⟨nofun, nofun⟩

/-- A failure that is recorded stays. -/
theorem or_ne_none {a b : Option Err} (h : a ≠ none) : a.or b ≠ none := by
  cases a with
  | none => exact absurd rfl h
  | some e => simp

end

/-! ## Slots -/

section

variable {α β : Type} {cfg : BurstConfig α β} {env : BurstEnv} {s s' : BurstState α β}

/-- Each acquired slot is released or in one hand. -/
structure BurstSlots (cfg : BurstConfig α β) (s : BurstState α β) : Prop where
  balance : ∀ n, s.acquired.count n = s.released.count n + s.owners n
  labels  : s.acquired = List.range' cfg.first s.acquired.length
  exact   : s.pc.submits = true → cfg.first + s.acquired.length = s.next + s.pc.ahead
  covered : s.next + s.pc.ahead ≤ cfg.first + s.acquired.length
  below   : ∀ n, 0 < s.owners n → n < s.next + s.pc.ahead

namespace BurstSlots

theorem count_le_one (h : BurstSlots cfg s) (n : Nat) : s.acquired.count n ≤ 1 := by
  have hNodup : s.acquired.Nodup := h.labels ▸ List.nodup_range' ..
  exact List.nodup_iff_count_le_one.mp hNodup n

theorem owners_le_one (h : BurstSlots cfg s) (n : Nat) : s.owners n ≤ 1 := by
  have := h.count_le_one n
  have := h.balance n
  omega

theorem first_le (h : BurstSlots cfg s) {n : Nat} (hn : 0 < s.owners n) : cfg.first ≤ n := by
  have hMem : n ∈ s.acquired := by
    rw [← List.count_pos_iff]
    have := h.balance n
    omega
  rw [h.labels, List.mem_range'_1] at hMem
  exact hMem.1

theorem init : BurstSlots cfg (BurstState.init cfg) where
  balance _ := rfl
  labels := rfl
  exact _ := rfl
  covered := Nat.le_refl _
  below n hn := absurd hn (by simp [BurstState.owners, BurstState.init, BurstPc.holds])

/-- A slot is acquired for the next account. -/
theorem labels_append (h : BurstSlots cfg s) (hNext : cfg.first + s.acquired.length = s.next) :
    s.acquired ++ [s.next] = List.range' cfg.first (s.acquired ++ [s.next]).length := by
  rw [List.length_append, List.length_singleton, List.range'_concat, Nat.one_mul, hNext, ← h.labels]

variable {pc : BurstPc α β}

/-- Slots change hands. -/
theorem passed (h : BurstSlots cfg s) (hPc : s.pc = pc) (hAcquired : s'.acquired = s.acquired)
    (hReleased : s'.released = s.released) (hOwners : ∀ n, s'.owners n = s.owners n)
    (hNext : s'.next + s'.pc.ahead = s.next + pc.ahead)
    (hSubmits : s'.pc.submits = true → pc.submits = true) : BurstSlots cfg s' := by
  subst hPc
  refine ⟨fun n => ?_, ?_, fun hYes => ?_, ?_, fun n hn => ?_⟩
  · rw [hAcquired, hReleased, hOwners, h.balance]
  · rw [hAcquired, ← h.labels]
  · rw [hAcquired, hNext, h.exact (hSubmits hYes)]
  · rw [hAcquired, hNext]
    exact h.covered
  · rw [hOwners] at hn
    rw [hNext]
    exact h.below n hn

/-- A slot for the next account is acquired. -/
theorem taken (h : BurstSlots cfg s) (hPc : s.pc = pc) (hSubmits : pc.submits = true)
    (hAhead : pc.ahead = 0) (hAcquired : s'.acquired = s.acquired ++ [s.next])
    (hReleased : s'.released = s.released)
    (hOwners : ∀ n, s'.owners n = s.owners n + [s.next].count n)
    (hNext : s'.next + s'.pc.ahead = s.next + 1) : BurstSlots cfg s' := by
  subst hPc
  have hLength := h.exact hSubmits
  rw [hAhead] at hLength
  refine ⟨fun n => ?_, ?_, fun _ => ?_, ?_, fun n hn => ?_⟩
  · rw [hAcquired, hReleased, hOwners, List.count_append, h.balance]
    omega
  · rw [hAcquired]
    exact h.labels_append hLength
  · rw [hAcquired, List.length_append, List.length_singleton]
    omega
  · rw [hAcquired, List.length_append, List.length_singleton]
    omega
  · rw [hOwners] at hn
    by_cases hOld : 0 < s.owners n
    · have := h.below n hOld
      omega
    · have hEq : n = s.next := by
        have hPos : 0 < [s.next].count n := by omega
        simpa using List.count_pos_iff.mp hPos
      omega

/-- A slot is given back. -/
theorem gaveBack (h : BurstSlots cfg s) (hPc : s.pc = pc) {m : Nat}
    (hAcquired : s'.acquired = s.acquired) (hReleased : s'.released = s.released ++ [m])
    (hOwners : ∀ n, s.owners n = s'.owners n + [m].count n) (hNext : s'.next = s.next)
    (hAhead : s'.pc.ahead = 0) (hSame : pc.ahead = 0 ∨ m = s.next)
    (hSubmits : s'.pc.submits = false) : BurstSlots cfg s' := by
  subst hPc
  refine ⟨fun n => ?_, ?_, fun hYes => ?_, ?_, fun n hn => ?_⟩
  · have := h.balance n
    have := hOwners n
    rw [hAcquired, hReleased, List.count_append]
    omega
  · rw [hAcquired, ← h.labels]
  · rw [hSubmits] at hYes
    cases hYes
  · have hLength := h.covered
    rw [hAcquired, hNext, hAhead]
    omega
  · have hOwn := hOwners n
    have hBelow := h.below n (by omega)
    have hOne := h.owners_le_one n
    rw [hNext, hAhead]
    rcases hSame with hZero | rfl
    · omega
    · -- nobody else has the slot of the account ahead
      have hNe : n ≠ s.next := by
        rintro rfl
        rw [List.count_singleton_self] at hOwn
        omega
      have hLe : s.pc.ahead ≤ 1 := by cases s.pc <;> simp [BurstPc.ahead]
      omega

/-- The pending result with a sequence number that occurs once. -/
theorem count_filter_sequence {l : List (AccountResult α β)} {m : Nat} {r : AccountResult α β}
    (hFind : l.find? (fun r => r.sequence = m) = some r) (hOne : (l.map (·.sequence)).count m ≤ 1)
    (n : Nat) : (l.map (·.sequence)).count n =
      ((l.filter fun r => r.sequence ≠ m).map (·.sequence)).count n + [r.sequence].count n := by
  obtain rfl : r.sequence = m := by simpa using List.find?_some hFind
  have hMem : r.sequence ∈ l.map (·.sequence) :=
    List.mem_map_of_mem (List.mem_of_find?_eq_some hFind)
  by_cases hEq : n = r.sequence
  · subst hEq
    have hPos := List.count_pos_iff.mpr hMem
    have hNone : ((l.filter fun q => q.sequence ≠ r.sequence).map (·.sequence)).count r.sequence =
        0 := by
      rw [List.count_eq_zero]
      intro hIn
      obtain ⟨q, hq, hSame⟩ := List.mem_map.mp hIn
      exact absurd hSame (by simpa using (List.mem_filter.mp hq).2)
    rw [hNone, List.count_singleton_self]
    omega
  · rw [List.count_singleton, if_neg (by simpa using Ne.symm hEq), Nat.add_zero]
    clear hFind hOne hMem
    induction l with
    | nil => rfl
    | cons q l ih =>
      by_cases hq : q.sequence = r.sequence
      · rw [List.filter_cons_of_neg (by simpa using hq), List.map_cons, List.count_cons, ih,
          if_neg (by simp only [beq_iff_eq]; omega)]
        rfl
      · rw [List.filter_cons_of_pos (by simpa using hq), List.map_cons, List.map_cons,
          List.count_cons, List.count_cons, ih]

/-- The main thread keeps the account of the slots. -/
theorem mainStep (h : BurstSlots cfg s) (hMove : MainMove cfg s s') : BurstSlots cfg s' := by
  cases hMove with
  | goes eof hPc hGoes =>
    refine h.passed hPc rfl rfl (fun n => ?_) (by rw [hGoes.ahead]) hGoes.submits
    simp only [BurstState.owners, hPc, hGoes.holds]
  | first hPc =>
    refine h.taken hPc rfl rfl rfl rfl (fun n => ?_) rfl
    simp only [BurstState.owners, hPc, BurstPc.holds, List.map_append, List.sum_append,
      List.count_nil]
    simp [AccountTask.holds, AccountTaskPc.isDone]
    omega
  | slot hPc =>
    refine h.taken hPc rfl rfl rfl rfl (fun n => ?_) rfl
    simp only [BurstState.owners, hPc, BurstPc.holds, List.count_nil]
    omega
  | started job hPc =>
    refine h.passed hPc rfl rfl (fun n => ?_) rfl fun _ => rfl
    simp only [BurstState.owners, hPc, BurstPc.holds, List.map_append, List.sum_append,
      List.count_nil]
    simp [AccountTask.holds, AccountTaskPc.isDone]
    omega
  | delivered job hPc =>
    refine h.passed hPc rfl rfl (fun n => ?_) rfl fun _ => rfl
    simp only [BurstState.owners, hPc, BurstPc.holds, List.map_append, List.count_append,
      List.map_cons, List.map_nil, List.count_nil]
    omega
  | gaveBack err hPc =>
    refine h.gaveBack hPc rfl rfl (fun n => ?_) rfl rfl (.inr rfl) rfl
    simp only [BurstState.owners, hPc, BurstPc.holds, List.count_nil]
    omega
  | dropped n rest hPc | advanced r hPc | failed r err err' hPc =>
    refine h.gaveBack hPc rfl rfl (fun n => ?_) rfl rfl (.inl rfl) rfl
    simp only [BurstState.owners, hPc, BurstPc.holds, List.count_cons, List.count_nil]
    omega
  | picked r hPc hFind =>
    refine h.passed hPc rfl rfl (fun n => ?_) rfl nofun
    have hOne : (s.pending.map (·.sequence)).count s.merge ≤ 1 := by
      have := h.owners_le_one s.merge
      simp only [BurstState.owners] at this
      omega
    have := count_filter_sequence hFind hOne n
    simp only [BurstState.owners, hPc, BurstPc.holds, List.count_nil]
    omega
  | received r rest hPc hResults =>
    refine h.passed hPc rfl rfl (fun n => ?_) rfl nofun
    simp only [BurstState.owners, hPc, BurstPc.holds, hResults, List.map_cons, List.count_cons,
      List.count_nil]
    omega
  | latched err hPc | merged r hPc =>
    refine h.passed hPc rfl rfl (fun n => ?_) rfl nofun
    simp only [BurstState.owners, BurstState.record, hPc, BurstPc.holds]
  | cleared r hPc | kept r hPc | recorded err hPc =>
    refine h.passed hPc rfl rfl (fun n => ?_) rfl nofun
    simp only [BurstState.owners, BurstState.record, hPc, BurstPc.holds, List.map_append,
      List.count_append, List.map_cons, List.map_nil, List.count_cons, List.count_nil]
    omega

/-- A task keeps the account of the slots. -/
theorem taskStep (h : BurstSlots cfg s) {i : Nat} {m : TaskMove}
    (hStep : burstTaskStep cfg env s i m = some s') : BurstSlots cfg s' := by
  obtain ⟨k, hTask, hCases⟩ := burstTaskStep_eq_some hStep
  have hSum (n : Nat) (pc : AccountTaskPc β) :=
    sum_set_add hTask (fun k => k.holds.count n) { k with pc := pc }
  have hHolds (k : AccountTask α β) (hLive : k.pc.isDone = false) : k.holds = [k.sequence] := by
    simp [AccountTask.holds, hLive]
  rcases hCases with ⟨out, hPc, rfl⟩ | ⟨out, hPc, rfl⟩ | ⟨pc, hPc, hMoves, rfl⟩
  · refine h.passed rfl rfl rfl (fun n => ?_) rfl id
    have hSum := hSum n (.send out)
    simp only [hHolds k (by rw [hPc]; rfl), hHolds { k with pc := .send out } rfl] at hSum
    simp only [BurstState.owners, BurstState.record]
    omega
  · refine h.passed rfl rfl rfl (fun n => ?_) rfl id
    have hSum := hSum n .done
    have hNone : ({ k with pc := .done } : AccountTask α β).holds = [] := rfl
    simp only [hHolds k (by rw [hPc]; rfl), hNone, List.count_nil] at hSum
    simp only [BurstState.owners, List.map_append, List.count_append, List.map_cons, List.map_nil]
    omega
  · refine h.passed rfl rfl rfl (fun n => ?_) rfl id
    have hSum := hSum n pc
    simp only [hHolds k hPc.1, hHolds { k with pc := pc } hMoves.1] at hSum
    simp only [BurstState.owners]
    omega

theorem step {a : BurstAction α} (h : BurstSlots cfg s) (hStep : burstStep cfg env s a = some s') :
    BurstSlots cfg s' := by
  cases a with
  | main m => exact h.mainStep (burstMainStep_eq_some hStep)
  | task i m => exact h.taskStep hStep
  | close =>
    simp only [burstStep] at hStep
    split at hStep <;> cases hStep
    exact h.passed rfl rfl rfl (fun _ => rfl) rfl id
  | cancel err =>
    cases hStep
    exact h.passed rfl rfl rfl (fun _ => rfl) rfl id

end BurstSlots

end

/-! ## Order -/

section

variable {α β : Type} {cfg : BurstConfig α β} {env : BurstEnv} {s s' : BurstState α β}

/-- The burst has failed, or is about to record that the merge did. -/
def BurstState.failing (s : BurstState α β) : Prop := s.failure ≠ none ∨ s.pc.recording = true

/-- The merge is in order and leaves nothing out. -/
structure BurstOrder (cfg : BurstConfig α β) (s : BurstState α β) : Prop where
  merged   : s.merged.map (·.sequence) = List.range' cfg.first s.merged.length
  merge    : s.merge + s.pc.bump = cfg.first + s.merged.length
  bounded  : s.merge + s.pc.bump ≤ s.next
  current  : ∀ r, s.pc.current = some r → r.sequence = s.merge
  settled  : s.pc.settled = true → ∀ r ∈ s.pending, r.sequence ≠ s.merge
  whole    : ∀ n, n < s.next → s.released.count n = 0 ∨ n < s.merge ∨ s.failing
  back     : ∀ n, cfg.first ≤ n → n < s.merge → 0 < s.released.count n
  dropping : ∀ ns, s.pc = .drop ns → s.failure ≠ none ∧ s.pending = []
  early    : s.pc.early = true → s.pending = [] ∧ s.merge = cfg.first

namespace BurstOrder

theorem init : BurstOrder cfg (BurstState.init cfg) where
  merged := rfl
  merge := rfl
  bounded := Nat.le_refl _
  current _ h := nomatch h
  settled h := nomatch h
  whole _ _ := .inl rfl
  back n hn hLt := by
    have hLt : n < cfg.first := hLt
    omega
  dropping _ h := nomatch h
  early _ := ⟨rfl, rfl⟩

/-- A failure stays one, unless the coordinator was about to record it. -/
theorem failing_of (hFailure : s.failure ≠ none → s'.failure ≠ none)
    (hRecording : s.pc.recording = true → s'.failing) (h : s.failing) : s'.failing :=
  h.elim (fun hFail => .inl (hFailure hFail)) hRecording

/-- A move that merges nothing and gives no slot back. -/
theorem moved (h : BurstOrder cfg s) {pc : BurstPc α β} (hPc : s.pc = pc)
    (hMerged : s'.merged = s.merged) (hMerge : s'.merge = s.merge)
    (hReleased : s'.released = s.released) (hBump : s'.pc.bump = pc.bump)
    (hNew : ∀ n, s.next ≤ n → n < s'.next → s.released.count n = 0)
    (hFailure : s.failure ≠ none → s'.failure ≠ none)
    (hRecording : pc.recording = true → s'.failing)
    (hCurrent : ∀ r, s'.pc.current = some r → r.sequence = s.merge)
    (hSettled : s'.pc.settled = true → ∀ r ∈ s'.pending, r.sequence ≠ s.merge)
    (hDropping : ∀ ns, s'.pc = .drop ns → s'.failure ≠ none ∧ s'.pending = [])
    (hEarly : s'.pc.early = true → s'.pending = [] ∧ s.merge = cfg.first)
    (hNext : s.next ≤ s'.next := by first | exact Nat.le_refl _ | exact Nat.le_succ _) :
    BurstOrder cfg s' := by
  subst hPc
  refine ⟨by rw [hMerged, h.merged], by rw [hMerge, hBump, hMerged, h.merge], ?_,
    fun r hr => by rw [hMerge, hCurrent r hr], fun hYes => ?_, fun n hn => ?_,
    fun n hFirst hn => ?_, hDropping, fun hYes => ?_⟩
  · rw [hMerge, hBump]
    exact h.bounded.trans hNext
  · rw [hMerge]
    exact hSettled hYes
  · rw [hReleased, hMerge]
    by_cases hOld : n < s.next
    · exact (h.whole n hOld).imp_right (Or.imp_right (failing_of hFailure hRecording))
    · exact .inl (hNew n (by omega) hn)
  · rw [hReleased]
    exact h.back n hFirst (hMerge ▸ hn)
  · rw [hMerge]
    exact hEarly hYes

/-- A slot is given back without a merge. -/
theorem gaveBack (h : BurstOrder cfg s) {pc : BurstPc α β} (hPc : s.pc = pc) {m : Nat}
    (hMerged : s'.merged = s.merged) (hMerge : s'.merge = s.merge)
    (hReleased : s'.released = s.released ++ [m]) (hBump : s'.pc.bump = pc.bump)
    (hNext : s'.next = s.next) (hFailure : s'.failure = s.failure)
    (hRecording : pc.recording = false) (hReason : m = s.next ∨ s'.failing)
    (hPending : s'.pending = s.pending) (hCurrent : s'.pc.current = none)
    (hSettled : s'.pc.settled = false)
    (hDropping : ∀ ns, s'.pc = .drop ns → s.failure ≠ none ∧ s.pending = [])
    (hEarly : s'.pc.early = true → s.pending = [] ∧ s.merge = cfg.first) : BurstOrder cfg s' := by
  subst hPc
  refine ⟨by rw [hMerged, h.merged], by rw [hMerge, hBump, hMerged, h.merge], ?_, fun r hr => ?_,
    fun hYes => ?_, fun n hn => ?_, fun n hFirst hn => ?_, fun ns hPc => ?_, fun hYes => ?_⟩
  · rw [hMerge, hBump, hNext]
    exact h.bounded
  · rw [hCurrent] at hr
    cases hr
  · rw [hSettled] at hYes
    cases hYes
  · rw [hNext] at hn
    rcases hReason with rfl | hFails
    · have hCount : s'.released.count n = s.released.count n := by
        rw [hReleased, List.count_append, List.count_singleton,
          if_neg (by simp only [beq_iff_eq]; omega), Nat.add_zero]
      rw [hCount, hMerge]
      refine (h.whole n hn).imp_right (Or.imp_right (failing_of (hFailure ▸ id) fun hYes => ?_))
      rw [hRecording] at hYes
      cases hYes
    · exact .inr (.inr hFails)
  · rw [hReleased, List.count_append]
    have := h.back n hFirst (hMerge ▸ hn)
    omega
  · rw [hFailure, hPending]
    exact hDropping ns hPc
  · rw [hPending, hMerge]
    exact hEarly hYes

/-- The slot of the merged account is given back. -/
theorem advanced (h : BurstOrder cfg s) {r : AccountResult α β} (hPc : s.pc = .merged r none) :
    BurstOrder cfg { s with
      released := s.released ++ [r.sequence], merge := s.merge + 1, pc := .order } where
  merged := h.merged
  merge := by
    have := h.merge
    rw [hPc] at this
    simp only [BurstPc.bump] at this ⊢
    omega
  bounded := by
    have := h.bounded
    rw [hPc] at this
    exact this
  current _ hr := nomatch hr
  settled hYes := nomatch hYes
  whole n hn := by
    show (s.released ++ [r.sequence]).count n = 0 ∨ n < s.merge + 1 ∨ _
    have hSequence := h.current r (by rw [hPc]; rfl)
    by_cases hEq : n = s.merge
    · exact .inr (.inl (by omega))
    · have hCount : (s.released ++ [r.sequence]).count n = s.released.count n := by
        rw [List.count_append, List.count_singleton,
          if_neg (by simp only [beq_iff_eq]; omega), Nat.add_zero]
      rw [hCount]
      rcases h.whole n hn with hZero | hLt | hFails
      · exact .inl hZero
      · exact .inr (.inl (by omega))
      · exact .inr (.inr (failing_of (s := s) id (by rw [hPc]; nofun) hFails))
  back n hFirst hn := by
    have hn : n < s.merge + 1 := hn
    have hSequence := h.current r (by rw [hPc]; rfl)
    show 0 < (s.released ++ [r.sequence]).count n
    rw [List.count_append]
    by_cases hEq : n = s.merge
    · rw [hSequence, hEq, List.count_singleton_self]
      omega
    · have := h.back n hFirst (by omega)
      omega
  dropping _ hDrop := nomatch hDrop
  early hYes := nomatch hYes

theorem noNew {n : Nat} (hLe : s.next ≤ n) (hLt : n < s.next) : s.released.count n = 0 := by
  omega

/-- The slot in the coordinator's hand was not given back. -/
theorem ahead_unreleased (hSlots : BurstSlots cfg s) (hHolds : s.pc.holds s.next = [s.next])
    {n : Nat} (hLe : s.next ≤ n) (hLt : n < s.next + 1) : s.released.count n = 0 := by
  obtain rfl : n = s.next := by omega
  have hBalance := hSlots.balance s.next
  have hOne := hSlots.count_le_one s.next
  simp only [BurstState.owners, hHolds, List.count_singleton_self] at hBalance
  omega

/-- The account is merged. -/
theorem merged_append (hSlots : BurstSlots cfg s) (h : BurstOrder cfg s) {r : AccountResult α β}
    (hPc : s.pc = .merging r) :
    BurstOrder cfg { s with merged := s.merged ++ [r], pc := .merged r none } := by
  have hSequence := h.current r (by rw [hPc]; rfl)
  have hMerge := h.merge
  rw [hPc] at hMerge
  simp only [BurstPc.bump, Nat.add_zero] at hMerge
  refine ⟨?_, ?_, ?_, ?_, nofun, ?_, h.back, nofun, nofun⟩
  · show (s.merged ++ [r]).map (·.sequence) = List.range' cfg.first (s.merged ++ [r]).length
    rw [List.map_append, h.merged, List.length_append, List.length_singleton, List.range'_concat,
      Nat.one_mul, ← hMerge, ← hSequence]
    rfl
  · show s.merge + 1 = cfg.first + (s.merged ++ [r]).length
    rw [List.length_append, List.length_singleton]
    omega
  · -- the merged account has been submitted
    have hOwned : 0 < s.owners s.merge := by
      simp only [BurstState.owners, hPc, BurstPc.holds, hSequence, List.count_singleton_self]
      omega
    have hBelow := hSlots.below _ hOwned
    rw [hPc] at hBelow
    exact hBelow
  · intro r' hr
    cases hr
    exact hSequence
  · intro n hn
    rcases h.whole n hn with hZero | hLt | hFails
    · exact .inl hZero
    · exact .inr (.inl hLt)
    · exact .inr (.inr (failing_of (s := s) id (by rw [hPc]; nofun) hFails))

/-- The main thread keeps the order of the merges. -/
theorem mainStep (hSlots : BurstSlots cfg s) (h : BurstOrder cfg s) (hMove : MainMove cfg s s') :
    BurstOrder cfg s' := by
  have hEarly := h.early
  cases hMove with
  | goes eof hPc hGoes hMissing =>
    subst hPc
    refine h.moved rfl rfl rfl rfl hGoes.bump (fun n => noNew) id (by simp [hGoes.recording])
      (fun r hr => h.current r (hGoes.current hr)) (fun hYes r hr => ?_)
      (fun ns hDrop => absurd hDrop (hGoes.ne_drop ns)) fun hYes => hEarly (hGoes.early hYes)
    rcases hGoes.settled hYes with hOld | hDrop | hOrder
    · rw [(hEarly hOld).1] at hr
      cases hr
    · rw [(h.dropping [] hDrop).2] at hr
      cases hr
    · exact hMissing hOrder r hr
  | first hPc =>
    rw [hPc] at hEarly
    refine h.moved hPc rfl rfl rfl rfl ?_ id nofun nofun nofun nofun fun _ => hEarly rfl
    -- no slot has been given back
    intro n hLe hLt
    have hExact := hSlots.exact (by rw [hPc]; rfl)
    rw [hPc] at hExact
    have hZero : s.acquired.count n = 0 := by
      rw [hSlots.labels, List.count_eq_zero, List.mem_range'_1]
      simp only [BurstPc.ahead] at hExact
      omega
    have := hSlots.balance n
    omega
  | slot hPc =>
    rw [hPc] at hEarly
    exact h.moved hPc rfl rfl rfl rfl (fun n => noNew) id nofun nofun nofun nofun fun _ =>
      hEarly rfl
  | started job hPc | delivered job hPc =>
    rw [hPc] at hEarly
    exact h.moved hPc rfl rfl rfl rfl (fun n => ahead_unreleased hSlots (by rw [hPc]; rfl)) id nofun
      nofun nofun nofun fun _ => hEarly rfl
  | gaveBack err hPc =>
    rw [hPc] at hEarly
    exact h.gaveBack hPc rfl rfl rfl rfl rfl rfl rfl (.inl rfl) rfl rfl rfl nofun fun _ =>
      hEarly rfl
  | latched err hPc =>
    rw [hPc] at hEarly
    refine h.moved hPc rfl rfl rfl rfl (fun n => noNew) or_ne_none nofun nofun
      (fun _ r hr => ?_) nofun nofun
    have hr : r ∈ s.pending := hr
    rw [(hEarly rfl).1] at hr
    cases hr
  | received r rest hPc =>
    exact h.moved hPc rfl rfl rfl rfl (fun n => noNew) id nofun nofun
      (fun _ => h.settled (by rw [hPc]; rfl)) nofun nofun
  | cleared r hPc hFail =>
    exact h.moved hPc rfl rfl rfl rfl (fun n => noNew) id nofun nofun nofun
      (fun ns _ => ⟨hFail, rfl⟩) nofun
  | kept r hPc =>
    exact h.moved hPc rfl rfl rfl rfl (fun n => noNew) id nofun nofun nofun nofun nofun
  | dropped n rest hPc =>
    have hDrop := h.dropping _ hPc
    exact h.gaveBack hPc rfl rfl rfl rfl rfl rfl rfl (.inr (.inl hDrop.1)) rfl rfl rfl
      (fun _ _ => hDrop) nofun
  | picked r hPc hFind =>
    refine h.moved hPc rfl rfl rfl rfl (fun n => noNew) id nofun (fun r' hr => ?_) nofun nofun nofun
    cases hr
    simpa using List.find?_some hFind
  | merged r hPc => exact h.merged_append hSlots hPc
  | advanced r hPc => exact h.advanced hPc
  | failed r err err' hPc =>
    exact h.gaveBack hPc rfl rfl rfl rfl rfl rfl rfl (.inr (.inr rfl)) rfl rfl rfl nofun nofun
  | recorded err hPc =>
    have hFail : s.failure.or (some err) ≠ none := by cases s.failure <;> simp
    exact h.moved hPc rfl rfl rfl rfl (fun n => noNew) or_ne_none (fun _ => .inl hFail) nofun nofun
      (fun _ _ => ⟨hFail, rfl⟩) nofun

/-- A move that leaves the merge alone. -/
theorem same (h : BurstOrder cfg s) (hPc : s'.pc = s.pc) (hMerged : s'.merged = s.merged)
    (hMerge : s'.merge = s.merge) (hReleased : s'.released = s.released) (hNext : s'.next = s.next)
    (hPending : s'.pending = s.pending) (hFailure : s.failure ≠ none → s'.failure ≠ none) :
    BurstOrder cfg s' := by
  refine h.moved rfl hMerged hMerge hReleased (by rw [hPc])
    (fun n hLe hLt => noNew hLe (hNext ▸ hLt)) hFailure (fun hYes => .inr (hPc ▸ hYes)) ?_ ?_
      (fun ns hOn => ?_) ?_ hNext.ge <;>
    rw [hPc] at * <;> try rw [hPending]
  · exact h.current
  · exact h.settled
  · exact ⟨hFailure (h.dropping ns hOn).1, (h.dropping ns hOn).2⟩
  · exact h.early

/-- The tasks change nothing of this but the failure. -/
theorem taskStep (h : BurstOrder cfg s) {i : Nat} {m : TaskMove}
    (hStep : burstTaskStep cfg env s i m = some s') : BurstOrder cfg s' := by
  obtain ⟨k, -, hCases⟩ := burstTaskStep_eq_some hStep
  rcases hCases with ⟨out, -, rfl⟩ | ⟨out, -, rfl⟩ | ⟨pc, -, -, rfl⟩
  · exact h.same rfl rfl rfl rfl rfl rfl or_ne_none
  · exact h.same rfl rfl rfl rfl rfl rfl id
  · exact h.same rfl rfl rfl rfl rfl rfl id

theorem step {a : BurstAction α} (hSlots : BurstSlots cfg s) (h : BurstOrder cfg s)
    (hStep : burstStep cfg env s a = some s') : BurstOrder cfg s' := by
  cases a with
  | main m => exact h.mainStep hSlots (burstMainStep_eq_some hStep)
  | task i m => exact h.taskStep hStep
  | close =>
    simp only [burstStep] at hStep
    split at hStep <;> cases hStep
    exact h.same rfl rfl rfl rfl rfl rfl id
  | cancel err =>
    cases hStep
    exact h.same rfl rfl rfl rfl rfl rfl id

end BurstOrder

end

/-! ## Failures -/

section

variable {α β : Type} {cfg : BurstConfig α β} {env : BurstEnv} {s s' : BurstState α β}

/-- An error result is on its way to the merge. -/
def BurstState.bringsError (s : BurstState α β) : Prop :=
  (∃ k ∈ s.tasks, k.pc.sendsError = true) ∨ (∃ r ∈ s.results, r.isError = true) ∨
    s.pc.loadsError = true

structure BurstFailures (cfg : BurstConfig α β) (s : BurstState α β) : Prop where
  /-- The error of a result is recorded before the result is sent. -/
  known   : s.bringsError → s.failure ≠ none
  /-- Results are pending only while there is no failure or its result is to come. -/
  cleared : s.failure ≠ none → s.pending = [] ∨ s.bringsError
  joined  : s.closed = true → ∀ k ∈ s.tasks, k.pc.isDone = true
  started : s.pc.early = true → s.closed = false
  counted : s.failure ≠ none ∨ s.pc.refusing = true ∨
    cfg.first + 1 + s.taken = s.next + s.pc.taking

namespace BurstFailures

theorem init : BurstFailures cfg (BurstState.init cfg) where
  known h := by
    rcases h with ⟨k, hk, -⟩ | ⟨r, hr, -⟩ | hPc
    · cases hk
    · cases hr
    · cases hPc
  cleared h := absurd rfl h
  joined h := nomatch h
  started _ := rfl
  counted := .inr (.inr rfl)

/-- A move that records nothing. -/
theorem moved (h : BurstFailures cfg s) {pc : BurstPc α β} (hPc : s.pc = pc)
    (hFailure : s'.failure = s.failure) (hKnown : s'.bringsError → s.bringsError)
    (hCleared : s.failure ≠ none → s.pending = [] ∨ s.bringsError → s'.pending = [] ∨
      s'.bringsError) (hJoined : s'.closed = s.closed ∧ (s.closed = true → s'.tasks = s.tasks))
    (hStarted : s'.pc.early = true → pc.early = true)
    (hCounted : pc.refusing = true ∨ cfg.first + 1 + s.taken = s.next + pc.taking →
      s'.pc.refusing = true ∨ cfg.first + 1 + s'.taken = s'.next + s'.pc.taking) :
    BurstFailures cfg s' := by
  subst hPc
  refine ⟨fun hBrings => ?_, fun hFail => ?_, fun hClosed => ?_, fun hEarly => ?_, ?_⟩
  · rw [hFailure]
    exact h.known (hKnown hBrings)
  · rw [hFailure] at hFail
    exact hCleared hFail (h.cleared hFail)
  · rw [hJoined.1] at hClosed
    rw [hJoined.2 hClosed]
    exact h.joined hClosed
  · rw [hJoined.1]
    exact h.started (hStarted hEarly)
  · rw [hFailure]
    exact h.counted.imp_right hCounted

/-- A move of the coordinator that leaves the results alone. -/
theorem goto (h : BurstFailures cfg s) {pc : BurstPc α β} (hPc : s.pc = pc)
    (hFailure : s'.failure = s.failure) (hTasks : s'.tasks = s.tasks)
    (hResults : s'.results = s.results) (hClosed : s'.closed = s.closed)
    (hPending : s.pending = [] → s'.pending = []) (hOld : pc.loadsError = false)
    (hNew : s'.pc.loadsError = false) (hStarted : s'.pc.early = true → pc.early = true)
    (hCounted : pc.refusing = true ∨ cfg.first + 1 + s.taken = s.next + pc.taking →
      s'.pc.refusing = true ∨ cfg.first + 1 + s'.taken = s'.next + s'.pc.taking) :
    BurstFailures cfg s' := by
  have hSame : s'.bringsError ↔ s.bringsError := by
    simp only [BurstState.bringsError, hTasks, hResults, hPc, hOld, hNew]
  refine h.moved hPc hFailure hSame.mp (fun _ hOr => ?_) ⟨hClosed, fun _ => hTasks⟩
    hStarted hCounted
  exact hOr.imp hPending hSame.mpr

/-- A task that was just started sends no error. -/
theorem brings_of_started {k : AccountTask α β} (hTasks : s'.tasks = s.tasks ++ [k])
    (hResults : s'.results = s.results) (hk : k.pc.sendsError = false)
    (hNew : s'.pc.loadsError = false) (h : s'.bringsError) : s.bringsError := by
  rw [BurstState.bringsError, hTasks, hResults, hNew] at h
  rcases h with ⟨q, hq, hSends⟩ | hResult | hLoad
  · rcases List.mem_append.mp hq with hq | hq
    · exact .inl ⟨q, hq, hSends⟩
    · rw [List.mem_singleton.mp hq, hk] at hSends
      cases hSends
  · exact .inr (.inl hResult)
  · cases hLoad

/-- The main thread keeps the account of the failures. -/
theorem mainStep (hOrder : BurstOrder cfg s) (h : BurstFailures cfg s) (hMove : MainMove cfg s s') :
    BurstFailures cfg s' := by
  have hEarly := hOrder.early
  have hStarted := h.started
  have hOpen (hYes : s.pc.early = true) (hClosed : s.closed = true) : False := by
    rw [hStarted hYes] at hClosed
    cases hClosed
  cases hMove with
  | goes eof hPc hGoes =>
    refine h.goto hPc rfl rfl rfl rfl id hGoes.loadsError.1 hGoes.loadsError.2 hGoes.early
      fun hOld => ?_
    refine hGoes.counted.imp_right fun ⟨hNot, hTaking⟩ => ?_
    rcases hOld with hRefuses | hCount
    · rw [hNot] at hRefuses
      cases hRefuses
    · show cfg.first + 1 + (s.taken + _) = s.next + _
      rw [hTaking]
      omega
  | first hPc =>
    rw [hPc] at hEarly hOpen
    exact h.moved hPc rfl (brings_of_started rfl rfl rfl rfl) (fun _ _ => .inl (hEarly rfl).1)
      ⟨rfl, fun hClosed => (hOpen rfl hClosed).elim⟩ (fun _ => rfl) (Or.imp nofun id)
  | started job hPc =>
    rw [hPc] at hEarly hOpen
    refine h.moved hPc rfl (brings_of_started rfl rfl rfl rfl) (fun _ _ => .inl (hEarly rfl).1)
      ⟨rfl, fun hClosed => (hOpen rfl hClosed).elim⟩ (fun _ => rfl) (Or.imp nofun fun hCount => ?_)
    simp only [BurstPc.taking] at hCount ⊢
    omega
  | slot hPc => exact h.goto hPc rfl rfl rfl rfl id rfl rfl (fun _ => rfl) id
  | delivered job hPc =>
    rw [hPc] at hEarly
    refine h.moved hPc rfl ?_ (fun _ _ => .inl (hEarly rfl).1) ⟨rfl, fun _ => rfl⟩ (fun _ => rfl)
      (Or.imp nofun fun hCount => ?_)
    · rintro (hTasks | ⟨r, hr, hError⟩ | hLoad)
      · exact .inl hTasks
      · rcases List.mem_append.mp hr with hr | hr
        · exact .inr (.inl ⟨r, hr, hError⟩)
        · rw [List.mem_singleton] at hr
          subst hr
          cases hError
      · cases hLoad
    · simp only [BurstPc.taking] at hCount ⊢
      omega
  | gaveBack err hPc =>
    refine h.goto hPc rfl rfl rfl rfl id rfl rfl (fun _ => rfl) (Or.imp_left fun hRefuses => ?_)
    cases err <;> simp_all [BurstPc.refusing]
  | latched err hPc =>
    have hHere : s.pc.early = true := by rw [hPc]; rfl
    refine ⟨fun hBrings => or_ne_none (h.known ?_), fun _ => .inl (hEarly hHere).1,
      fun hClosed => (hOpen hHere hClosed).elim, nofun, ?_⟩
    · exact hBrings.imp_right (Or.imp_right fun hLoad => nomatch hLoad)
    · show s.failure.or err ≠ none ∨ _
      cases err with
      | some err => exact .inl (by cases s.failure <;> simp)
      | none =>
        have hCounted := h.counted
        rw [hPc] at hCounted
        exact hCounted.imp or_ne_none (Or.imp nofun id)
  | received r rest hPc hResults =>
    -- the result goes from the channel into the coordinator's hand
    have hSame : (∃ q ∈ s.results, q.isError = true) ↔
        (∃ q ∈ rest, q.isError = true) ∨ r.isError = true := by
      rw [hResults, List.exists_mem_cons_iff, or_comm]
    have hBrings : s.bringsError ↔
        BurstState.bringsError { s with results := rest, pc := .load r } := by
      simp only [BurstState.bringsError, hSame, hPc, BurstPc.loadsError,
        Bool.false_eq_true, or_false]
    exact h.moved hPc rfl hBrings.mpr (fun _ hOr => hOr.imp_right hBrings.mp)
      ⟨rfl, fun _ => rfl⟩ nofun id
  | cleared r hPc hFail =>
    exact h.moved hPc rfl (Or.imp_right (Or.imp_right nofun)) (fun _ _ => .inl rfl)
      ⟨rfl, fun _ => rfl⟩ nofun id
  | kept r hPc hFail =>
    exact h.moved hPc rfl (Or.imp_right (Or.imp_right nofun)) (fun hSome => absurd hFail hSome)
      ⟨rfl, fun _ => rfl⟩ nofun id
  | picked r hPc =>
    refine h.goto hPc rfl rfl rfl rfl (fun hNone => ?_) rfl rfl nofun id
    show s.pending.filter _ = []
    rw [hNone]
    rfl
  | dropped n rest hPc | merged r hPc | advanced r hPc | failed r err err' hPc =>
    exact h.goto hPc rfl rfl rfl rfl id rfl rfl nofun id
  | recorded err hPc =>
    have hFail : s.failure.or (some err) ≠ none := by cases s.failure <;> simp
    exact ⟨fun _ => hFail, fun _ => .inl rfl, h.joined, nofun, .inl hFail⟩

/-- A task records the error of its result before it sends it. -/
theorem taskStep (h : BurstFailures cfg s) {i : Nat} {m : TaskMove}
    (hStep : burstTaskStep cfg env s i m = some s') : BurstFailures cfg s' := by
  obtain ⟨k, hTask, hCases⟩ := burstTaskStep_eq_some hStep
  have hMem : k ∈ s.tasks := List.mem_of_getElem? hTask
  -- a task that moves has not joined
  have hOpen : k.pc.isDone = false → s.closed = true → False := by
    intro hNot hClosed
    rw [h.joined hClosed k hMem] at hNot
    cases hNot
  have hSends (pc : AccountTaskPc β) :=
    exists_set_or hTask (fun q => q.pc.sendsError = true) { k with pc := pc }
  rcases hCases with ⟨out, hPc, rfl⟩ | ⟨out, hPc, rfl⟩ | ⟨pc, hPc, hMoves, rfl⟩
  · have hBrings : BurstState.bringsError { s.record (taskError cfg k out) with
        tasks := s.tasks.set i { k with pc := .send out } } ↔
          s.bringsError ∨ taskError cfg k out ≠ none := by
      have hError : AccountTaskPc.sendsError (.send out) = true ↔ taskError cfg k out ≠ none := by
        cases out <;> simp [taskError, AccountTaskPc.sendsError]
      have hQuiet : k.pc.sendsError = false := by rw [hPc]; rfl
      have hSends := hSends (.send out)
      simp only [hQuiet, Bool.false_eq_true, or_false, hError] at hSends
      simp only [BurstState.bringsError, BurstState.record, hSends]
      exact or_right_comm
    refine ⟨fun hOn => ?_, fun hFail => ?_, fun hClosed => (hOpen (by rw [hPc]; rfl) hClosed).elim,
      h.started, h.counted.imp_left or_ne_none⟩
    · rcases hBrings.mp hOn with hOld | hNew
      · exact or_ne_none (h.known hOld)
      · show s.failure.or (taskError cfg k out) ≠ none
        cases s.failure <;> simp [hNew]
    · by_cases hOld : s.failure = none
      · -- this is the failure
        have hFail : s.failure.or (taskError cfg k out) ≠ none := hFail
        rw [hOld, Option.none_or] at hFail
        exact .inr (hBrings.mpr (.inr hFail))
      · exact (h.cleared hOld).imp_right fun hOn => hBrings.mpr (.inl hOn)
  · have hBrings : BurstState.bringsError { s with
        results := s.results ++ [⟨k.sequence, k.job, out⟩]
        tasks := s.tasks.set i { k with pc := .done } } ↔ s.bringsError := by
      have hError : k.pc.sendsError = AccountResult.isError ⟨k.sequence, k.job, out⟩ := by
        rw [hPc]
        cases out <;> rfl
      have hDone : ({ k with pc := .done } : AccountTask α β).pc.sendsError = false := rfl
      have hSends := hSends .done
      simp only [hError, hDone, Bool.false_eq_true, or_false] at hSends
      simp only [BurstState.bringsError, ← hSends, List.mem_append, List.mem_singleton,
        or_and_right, exists_or, exists_eq_left]
      grind
    exact h.moved rfl rfl hBrings.mp (fun _ hOr => hOr.imp_right hBrings.mpr)
      ⟨rfl, fun hClosed => (hOpen (by rw [hPc]; rfl) hClosed).elim⟩ id id
  · have hQuiet : ∀ pc : AccountTaskPc β, (∀ out, pc ≠ .send out) → pc.sendsError = false := by
      intro pc hNot
      cases pc with
      | send out => exact absurd rfl (hNot out)
      | _ => rfl
    have hBrings : BurstState.bringsError { s with tasks := s.tasks.set i { k with pc := pc } } ↔
        s.bringsError := by
      have hSends := hSends pc
      simp only [hQuiet _ hPc.2, hQuiet _ hMoves.2, Bool.false_eq_true, or_false] at hSends
      simp only [BurstState.bringsError, hSends]
    exact h.moved rfl rfl hBrings.mp (fun _ hOr => hOr.imp_right hBrings.mpr)
      ⟨rfl, fun hClosed => (hOpen hPc.1 hClosed).elim⟩ id id

theorem step {a : BurstAction α} (hOrder : BurstOrder cfg s) (h : BurstFailures cfg s)
    (hStep : burstStep cfg env s a = some s') : BurstFailures cfg s' := by
  cases a with
  | main m => exact h.mainStep hOrder (burstMainStep_eq_some hStep)
  | task i m => exact h.taskStep hStep
  | close =>
    simp only [burstStep] at hStep
    split at hStep <;> cases hStep
    next hGuard =>
      refine ⟨h.known, h.cleared, fun _ k hk => ?_, fun hEarly => ?_, h.counted⟩
      · exact List.all_eq_true.mp hGuard.2.2 k hk
      · have hEarly : s.pc.early = true := hEarly
        have hMerges := hGuard.1
        cases hPc : s.pc <;> rw [hPc] at hEarly hMerges <;>
          simp [BurstPc.early, BurstPc.submits, BurstPc.merges] at hEarly hMerges
  | cancel err =>
    cases hStep
    exact ⟨h.known, h.cleared, h.joined, h.started, h.counted⟩

end BurstFailures

end

/-! ## The end of a burst -/

section

variable {α β : Type} {cfg : BurstConfig α β} {env : BurstEnv} {s s' : BurstState α β}

/-- What is known when the coordinator has returned: it never got a slot, or the
channel is closed and nothing is left. -/
structure BurstReturned (s : BurstState α β) : Prop where
  fresh    : s.pc = .acquire → s.acquired = [] ∧ s.tasks = []
  returned : ∀ err, s.pc = .returned err → (s.acquired = [] ∧ s.tasks = [] ∧ err ≠ none) ∨
    (s.closed = true ∧ s.results = [] ∧ s.pending = [] ∧
      (err = none → s.failure = none ∧ s.merge = s.next))

structure BurstInv (cfg : BurstConfig α β) (s : BurstState α β) : Prop where
  slots    : BurstSlots cfg s
  order    : BurstOrder cfg s
  failures : BurstFailures cfg s
  returned : BurstReturned s

namespace BurstInv

theorem owners_of_done (hDone : ∀ k ∈ s.tasks, k.pc.isDone = true) (n : Nat) :
    (s.tasks.map fun k => k.holds.count n).sum = 0 := by
  rw [List.sum_eq_zero_iff]
  intro m hm
  obtain ⟨k, hk, rfl⟩ := List.mem_map.mp hm
  simp [AccountTask.holds, hDone k hk]

/-- When the channel is closed and empty and there is no failure, the next account is
behind the last one. -/
theorem merge_eq_next (h : BurstInv cfg s) (hPc : s.pc = .receive) (hResults : s.results = [])
    (hClosed : s.closed = true) (hFailure : s.failure = none) : s.merge = s.next := by
  have hBounded := h.order.bounded
  rw [hPc] at hBounded
  refine Nat.le_antisymm hBounded (Nat.le_of_not_lt fun hLt => ?_)
  -- the account was submitted and is neither merged nor dropped
  have hZero : s.released.count s.merge = 0 := by
    rcases h.order.whole s.merge hLt with hZero | hSelf | hFails
    · exact hZero
    · exact absurd hSelf (lt_irrefl _)
    · rcases hFails with hFail | hRecording
      · exact absurd hFailure hFail
      · rw [hPc] at hRecording
        cases hRecording
  have hMem : s.merge ∈ s.acquired := by
    have hMerge := h.order.merge
    have hCovered := h.slots.covered
    rw [hPc] at hMerge hCovered
    simp only [BurstPc.bump, BurstPc.ahead] at hMerge hCovered
    rw [h.slots.labels, List.mem_range'_1]
    omega
  -- so its result is pending
  have hOwned := h.slots.balance s.merge
  have hPos := List.count_pos_iff.mpr hMem
  simp only [BurstState.owners, owners_of_done (h.failures.joined hClosed), hResults, hPc,
    BurstPc.holds, List.map_nil, List.count_nil] at hOwned
  have hPending : 0 < (s.pending.map (·.sequence)).count s.merge := by omega
  obtain ⟨r, hr, hSequence⟩ := List.mem_map.mp (List.count_pos_iff.mp hPending)
  exact h.order.settled (by rw [hPc]; rfl) r hr hSequence

/-- When the channel is closed and empty, nothing is pending. -/
theorem pending_eq_nil (h : BurstInv cfg s) (hPc : s.pc = .receive) (hResults : s.results = [])
    (hClosed : s.closed = true) : s.pending = [] := by
  by_cases hFailure : s.failure = none
  · have hMerge := h.merge_eq_next hPc hResults hClosed hFailure
    rw [List.eq_nil_iff_forall_not_mem]
    intro r hr
    have hOwned : 0 < s.owners r.sequence := by
      have := List.count_pos_iff.mpr (List.mem_map_of_mem hr (f := fun r => r.sequence))
      simp only [BurstState.owners]
      omega
    have hBelow := h.slots.below _ hOwned
    rw [hPc] at hBelow
    simp only [BurstPc.ahead] at hBelow
    have hBack := h.order.back _ (h.slots.first_le hOwned) (by omega)
    have hBalance := h.slots.balance r.sequence
    have hOne := h.slots.count_le_one r.sequence
    omega
  · rcases h.failures.cleared hFailure with hNone | ⟨k, hk, hSends⟩ | ⟨r, hr, -⟩ | hLoad
    · exact hNone
    · have hDone := h.failures.joined hClosed k hk
      cases hCase : k.pc <;> rw [hCase] at hSends hDone <;>
        simp [AccountTaskPc.sendsError, AccountTaskPc.isDone] at hSends hDone
    · rw [hResults] at hr
      cases hr
    · rw [hPc] at hLoad
      cases hLoad

theorem finish_eq_none (hFinish : s.finish cfg = none) : s.failure = none := by
  unfold BurstState.finish at hFinish
  cases hFailure : s.failure with
  | none => rfl
  | some err =>
    rw [hFailure] at hFinish
    cases hFinish

/-- What a burst returns is settled, whoever moves. -/
theorem returned_step (h : BurstInv cfg s) {a : BurstAction α}
    (hStep : burstStep cfg env s a = some s') :
    BurstReturned s' := by
  cases a with
  | main m =>
    obtain ⟨hFresh, hReturned⟩ := (burstMainStep_eq_some hStep).returned
    refine ⟨fun hPc => absurd hPc hFresh, fun err hPc => ?_⟩
    obtain ⟨⟨hA, hT, hC, hR, hP, hF, hM, hN⟩, hWhere⟩ := hReturned err hPc
    rw [hA, hT, hC, hR, hP, hF, hM, hN]
    rcases hWhere with ⟨hAcquire, hErr⟩ | ⟨hReceive, hResults, hClosed, rfl⟩
    · obtain ⟨hAcquired, hTasks⟩ := h.returned.fresh hAcquire
      exact .inl ⟨hAcquired, hTasks, hErr⟩
    · refine .inr ⟨hClosed, hResults, h.pending_eq_nil hReceive hResults hClosed, fun hNone => ?_⟩
      have hFailure := finish_eq_none hNone
      exact ⟨hFailure, h.merge_eq_next hReceive hResults hClosed hFailure⟩
  | task i m =>
    obtain ⟨k, hTask, hMoves⟩ := burstTaskStep_eq_some hStep
    have hMem := List.mem_of_getElem? hTask
    have hLive : k.pc.isDone = false := by
      rcases hMoves with ⟨out, hPc, -⟩ | ⟨out, hPc, -⟩ | ⟨pc, hOld, -⟩
      · rw [hPc]; rfl
      · rw [hPc]; rfl
      · exact hOld.1
    have hPc : s'.pc = s.pc := by
      rcases hMoves with ⟨out, -, rfl⟩ | ⟨out, -, rfl⟩ | ⟨pc, -, -, rfl⟩ <;> rfl
    -- before the first slot there is no task, and behind the return every task is done
    refine ⟨fun hAcquire => ?_, fun err hReturned => ?_⟩
    · rw [(h.returned.fresh (hPc ▸ hAcquire)).2] at hMem
      cases hMem
    · rcases h.returned.returned err (hPc ▸ hReturned) with ⟨-, hTasks, -⟩ | ⟨hClosed, -⟩
      · rw [hTasks] at hMem
        cases hMem
      · rw [h.failures.joined hClosed k hMem] at hLive
        cases hLive
  | close =>
    simp only [burstStep] at hStep
    split at hStep <;> cases hStep
    next hGuard =>
      refine ⟨h.returned.fresh, fun err hReturned => ?_⟩
      have hReturned : s.pc = .returned err := hReturned
      have hMerges := hGuard.1
      rw [hReturned] at hMerges
      cases hMerges
  | cancel err =>
    cases hStep
    exact ⟨h.returned.fresh, h.returned.returned⟩

theorem init : BurstInv cfg (BurstState.init cfg) where
  slots := .init
  order := .init
  failures := .init
  returned := ⟨fun _ => ⟨rfl, rfl⟩, fun _ h => nomatch h⟩

theorem step (h : BurstInv cfg s) {a : BurstAction α} (hStep : burstStep cfg env s a = some s') :
    BurstInv cfg s' where
  slots := h.slots.step hStep
  order := h.order.step h.slots hStep
  failures := h.failures.step h.order hStep
  returned := h.returned_step hStep

/-- The invariant holds along every run. -/
theorem of_run {t : List (BurstEnv × BurstAction α)}
    (hRun : (burstSystem cfg).run t (BurstState.init cfg) = some s) : BurstInv cfg s := by
  have hKeep : ∀ (a : BurstEnv × BurstAction α) x x', BurstInv cfg x → (burstSystem cfg).step a x =
      some x' → BurstInv cfg x' := fun _ _ _ h hStep => h.step hStep
  exact System.run_invariant hKeep init hRun

/-- When the coordinator has returned, nothing is left. -/
theorem all_done (h : BurstInv cfg s) {err : Option Err} (hReturned : s.pc = .returned err) :
    (∀ k ∈ s.tasks, k.pc.isDone = true) ∧ ∀ n, s.acquired.count n = s.released.count n := by
  rcases h.returned.returned err hReturned with
      ⟨hAcquired, hTasks, -⟩ | ⟨hClosed, hResults, hPending, -⟩
  · refine ⟨fun k hk => ?_, fun n => ?_⟩
    · rw [hTasks] at hk
      cases hk
    · have hBalance := h.slots.balance n
      rw [hAcquired, List.count_nil] at hBalance ⊢
      omega
  · have hDone := h.failures.joined hClosed
    refine ⟨hDone, fun n => ?_⟩
    have hBalance := h.slots.balance n
    simp only [BurstState.owners, owners_of_done hDone, hResults, hPending, hReturned,
      BurstPc.holds, List.map_nil, List.count_nil] at hBalance
    exact hBalance

/-- A burst without an error has merged every account that it took. -/
theorem merged_all (h : BurstInv cfg s) (hReturned : s.pc = .returned none) :
    s.merged.map (·.sequence) = List.range' cfg.first (s.taken + 1) ∧
      s.next = cfg.first + (s.taken + 1) := by
  rcases h.returned.returned none hReturned with ⟨-, -, hErr⟩ | ⟨-, -, -, hNone⟩
  · exact absurd rfl hErr
  · obtain ⟨hFailure, hMerge⟩ := hNone rfl
    have hBump := h.order.merge
    have hCounted := h.failures.counted
    rw [hReturned] at hBump hCounted
    simp only [BurstPc.bump, BurstPc.refusing, BurstPc.taking] at hBump hCounted
    have hTaken : cfg.first + 1 + s.taken = s.next := by
      rcases hCounted with hFail | hFalse | hTaken
      · exact absurd hFailure hFail
      · cases hFalse
      · exact hTaken
    have hLength : s.merged.length = s.taken + 1 := by omega
    rw [h.order.merged, hLength]
    exact ⟨rfl, by omega⟩

end BurstInv

/-- **A burst takes every slot of the window once and gives it back once.** Whatever the
other partitions hold and however its tasks, its merge and an end of the context
interleave, each slot is taken for one sequence number and is in exactly one pair of hands
until it is released: the coordinator's, a task's, a result's in the channel, or a pending
result's. When the burst returns, every task has ended and the slots that were released
are those that were acquired. Without an error, the merged accounts are the first one and
all that the iterator gave, in the order in which they were submitted. No result is
pending when the channel is closed and empty. -/
theorem burst_slots_released_once (cfg : BurstConfig α β) (t : List (BurstEnv × BurstAction α))
    (s : BurstState α β) (hRun : (burstSystem cfg).run t (BurstState.init cfg) = some s) :
    s.acquired.Nodup ∧ (∀ n, s.acquired.count n = s.released.count n + s.owners n) ∧
    (∀ err, s.pc = .returned err → (∀ k ∈ s.tasks, k.pc.isDone = true) ∧
      s.released.Perm s.acquired ∧
      (err = none → s.merged.map (·.sequence) = List.range' cfg.first (s.taken + 1) ∧
        s.next = cfg.first + (s.taken + 1))) ∧
    (s.pc = .receive → s.results = [] → s.closed = true → s.pending = []) := by
  have hInv := BurstInv.of_run hRun
  refine ⟨?_, hInv.slots.balance, fun err hReturned => ?_, hInv.pending_eq_nil⟩
  · exact hInv.slots.labels ▸ List.nodup_range' ..
  · obtain ⟨hDone, hCount⟩ := hInv.all_done hReturned
    refine ⟨hDone, List.perm_iff_count.mpr fun n => (hCount n).symm, fun hNone => ?_⟩
    exact hInv.merged_all (hNone ▸ hReturned)

end

/-- A burst of three accounts in which the plain one is ready first and the last task ends
before the first. -/
def sampleBurst : List (BurstEnv × BurstAction Nat) :=
  [.main .go, .main .go, .main .go, .main (.account 7 true),
    .main .go, .main .go, .main (.account 8 false), .main .go,
    .main .go, .main .go, .main (.exhausted none), .main .go, .main .go,
    .task 1 .go, .task 1 .go, .task 1 .go, .task 1 .go,
    .main .go, .main .go, .main .go,
    .task 0 .go, .task 0 .go, .task 0 .go, .task 0 .go, .close,
    .main .go, .main .go, .main .go, .main .go, .main .go,
    .main .go, .main .go, .main .go, .main .go,
    .main .go, .main .go, .main .go, .main .go,
    .main .go, .main .go, .main .go, .main .go, .main .go, .main .go].map (⟨1, 1⟩, ·)

def sampleBurstConfig : BurstConfig Nat Nat where
  capacity := 8
  workers := 4
  partition := 3
  first := 5
  firstJob := 6
  hash _ := zeroHash
  produces := id
  ready := id

/-- The end of a run with success: what was acquired and released, and what was merged. -/
def BurstState.summary {α β : Type} (s : BurstState α β) :
    Option (List Nat × List Nat × List Nat) :=
  match s.pc with
  | .returned none => some (s.acquired, s.released, s.merged.map (·.sequence))
  | _ => none

theorem BurstState.summary_eq_some {α β : Type} {s : BurstState α β}
    {acquired released merged : List Nat} (h : s.summary = some (acquired, released, merged)) :
    s.pc = .returned none ∧ s.acquired = acquired ∧ s.released = released ∧
      s.merged.map (·.sequence) = merged := by
  unfold BurstState.summary at h
  split at h
  next hPc =>
    simp only [Option.some.injEq, Prod.mk.injEq] at h
    exact ⟨hPc, h⟩
  next => cases h

theorem burst_slots_sample : ∃ s, (burstSystem sampleBurstConfig).run sampleBurst
      (BurstState.init sampleBurstConfig) = some s ∧ s.pc = .returned none ∧
      s.released = [8, 5, 6, 7] ∧
    s.released.Perm s.acquired ∧ s.merged.map (·.sequence) = List.range' 5 3 := by
  have hEnds : ((burstSystem sampleBurstConfig).run sampleBurst
      (BurstState.init sampleBurstConfig)).bind BurstState.summary =
        some ([5, 6, 7, 8], [8, 5, 6, 7], [5, 6, 7]) := by decide +kernel
  obtain ⟨s, hRun, hSummary⟩ := Option.bind_eq_some_iff.mp hEnds
  obtain ⟨hPc, -, hReleased, hSequences⟩ := BurstState.summary_eq_some hSummary
  have hOnce := burst_slots_released_once sampleBurstConfig sampleBurst s hRun
  exact ⟨s, hRun, hPc, hReleased, (hOnce.2.2.1 none hPc).2.1, hSequences⟩

end L2State
