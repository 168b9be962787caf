import L2State.Lib.Process
import L2State.Lib.Except

/-!
# L2State — ordered batch pipelines

A main thread reads items one after the other and starts a worker for each of
them. When its queue has no room for the next item, or the input ends, it
waits for the workers, checks that none of them failed, and accepts the results
in the order of reading. An item that never has room is worked on by the main
thread itself, once the queue is empty.

The workers run in any order, but the accepted results are those of reading,
working and accepting one item at a time.

* `Pipeline`, `Pipeline.run` — the components and the process.
* `Pipeline.Serial` — one item at a time.
* `Pipeline.run_serial` — a run that succeeds is serial.
* `Pipeline.run_queue` — at all times the queue fits.
* `Pipeline.run_failed` — after a failed work nothing more is accepted.
-/

namespace L2State.Lib

/-- The components of a pipeline. `X` are the inputs, `ρ` and `σ` the states of
the reading and of the accepting side. -/
structure Pipeline (I : Interface) (ε X ρ Item Res σ : Type) where
  read    : ρ → X → Fallible I ε (Item × ρ)
  /-- The end of the input. -/
  finish  : ρ → Fallible I ε Unit
  /-- An item that is never queued. -/
  alone   : Item → Bool
  /-- Whether the queue has room for another item. -/
  room    : List Item → Item → Bool
  /-- Queues an item. -/
  submit  : Item → Proc I Unit
  /-- A worker: its result, and its error if it failed. -/
  work    : Item → Proc I (Res × Option ε)
  /-- Work of the main thread. -/
  direct  : Item → Fallible I ε Res
  /-- The check after the workers are done. -/
  verdict : List (Item × Res × Option ε) → Proc I (Option ε)
  accept  : σ → Item → Res → Fallible I ε σ
  /-- Empties the queue. -/
  clear   : Proc I Unit
  /-- What the main thread does before it waits for the workers after an
  error of its own. -/
  abort   : Proc I Unit

/-- Why reading stopped. -/
inductive Stop (ε X ρ Item : Type)
  | full (item : Item) (reader : ρ) (rest : List X)
  | done (reader : ρ)
  | failed (e : ε)

/-- Between two batches: an item that was read but not queued, and the rest. -/
structure Position (X ρ Item σ : Type) where
  pending : Option Item
  reader  : ρ
  rest    : List X
  state   : σ

namespace Pipeline

variable {I : Interface} {ε X ρ Item Res σ : Type} (p : Pipeline I ε X ρ Item Res σ)

/-- The items of a batch with the outcome of their workers. -/
abbrev Jobs (Item Res ε : Type) := List (Item × Res × Option ε)

/-- Queues an item and starts its worker beside the rest of the batch. -/
def spawn (item : Item) (rest : Proc I (Stop ε X ρ Item × Jobs Item Res ε)) :
    Proc I (Stop ε X ρ Item × Jobs Item Res ε) :=
  p.submit item >>= fun _ =>
    .both (p.work item) rest fun r out => .ret (out.1, (item, r) :: out.2)

/-- Reads and queues while there is room. -/
def fill : List Item → ρ → List X → Proc I (Stop ε X ρ Item × Jobs Item Res ε)
  | _, r, [] =>
    (p.finish r).run >>= fun out => match out with
      | .ok () => pure (.done r, [])
      | .error e => p.abort >>= fun _ => pure (.failed e, [])
  | queue, r, x :: xs =>
    (p.read r x).run >>= fun out => match out with
      | .ok (item, r') =>
        if p.alone item = true ∨ p.room queue item = false then pure (.full item r' xs, [])
        else p.spawn item (fill (queue ++ [item]) r' xs)
      | .error e => p.abort >>= fun _ => pure (.failed e, [])

/-- Accepts the results of a batch in order. -/
def acceptAll : σ → Jobs Item Res ε → Fallible I ε σ
  | s, [] => pure s
  | s, j :: jobs => p.accept s j.1 j.2.1 >>= fun s' => acceptAll s' jobs

/-- The end of a batch, when all workers are done. -/
def drain (s : σ) (jobs : Jobs Item Res ε) : Fallible I ε σ :=
  attempt id (p.verdict jobs) >>= fun _ =>
    p.acceptAll s jobs >>= fun s' => liftM p.clear >>= fun _ => pure s'

/-- What follows a batch. -/
def settle (s : σ) (out : Stop ε X ρ Item × Jobs Item Res ε) :
    Proc I (Position X ρ Item σ ⊕ Except ε (σ × ρ)) :=
  match out.1 with
  | .failed e => pure (.inr (.error e))
  | .full item r xs =>
    (p.drain s out.2).run >>= fun d => pure (match d with
      | .ok s' => .inl ⟨some item, r, xs, s'⟩
      | .error e => .inr (.error e))
  | .done r =>
    (p.drain s out.2).run >>= fun d => pure (match d with
      | .ok s' => .inr (.ok (s', r))
      | .error e => .inr (.error e))

/-- One batch, from the item that had no room in the last one. -/
def batch (pos : Position X ρ Item σ) : Proc I (Stop ε X ρ Item × Jobs Item Res ε) :=
  match pos.pending with
  | none => p.fill [] pos.reader pos.rest
  | some item => p.spawn item (p.fill [item] pos.reader pos.rest)

/-- The main thread works on an item itself. -/
def single (pos : Position X ρ Item σ) (item : Item) : Fallible I ε (Position X ρ Item σ) :=
  p.direct item >>= fun res => p.accept pos.state item res >>= fun s =>
    pure ⟨none, pos.reader, pos.rest, s⟩

/-- One batch, or one item alone. -/
def step (pos : Position X ρ Item σ) : Proc I (Position X ρ Item σ ⊕ Except ε (σ × ρ)) :=
  match pos.pending.filter p.alone with
  | none => p.batch pos >>= p.settle pos.state
  | some item =>
    (p.single pos item).run >>= fun d => pure (match d with
      | .ok pos' => .inl pos'
      | .error e => .inr (.error e))

/-- The pipeline on the inputs `xs`. -/
def run (r : ρ) (xs : List X) (s : σ) : Proc I (Except ε (σ × ρ)) :=
  Proc.loop p.step ⟨none, r, xs, s⟩

/-! ## One item at a time -/

/-- An item's work can return `res`, with events that satisfy `Good`. -/
def Works (Good : Event I → Prop) (item : Item) (res : Res) : Prop :=
  (∃ t, (p.work item).Behaves t (res, none) ∧ ∀ e ∈ t, Good e) ∨
    ∃ t, Returns (p.direct item) t res ∧ ∀ e ∈ t, Good e

/-- Reading, working and accepting one item at a time. -/
inductive Serial (Good : Event I → Prop) : ρ → List X → σ → List (Item × Res) → σ → ρ → Prop
  | nil (r : ρ) (s : σ) : Serial Good r [] s [] s r
  | cons {r r' r'' : ρ} {x : X} {xs : List X} {s s' s'' : σ} {item : Item} {res : Res}
      {acc : List (Item × Res)} {t t' : List (Event I)} :
      Returns (p.read r x) t (item, r') → p.Works Good item res →
      Returns (p.accept s item res) t' s' → Serial Good r' xs s' acc s'' r'' →
      Serial Good r (x :: xs) s ((item, res) :: acc) s'' r''

/-- What reading up to a stop can have read. -/
inductive Filled : ρ → List X → Stop ε X ρ Item → Jobs Item Res ε → Prop
  | done (r : ρ) : Filled r [] (.done r) []
  | failed (r : ρ) (xs : List X) (e : ε) : Filled r xs (.failed e) []
  | full {r r' : ρ} {x : X} (xs : List X) {item : Item} {t : List (Event I)} :
      Returns (p.read r x) t (item, r') → Filled r (x :: xs) (.full item r' xs) []
  | cons {r r' : ρ} {x : X} {xs : List X} {item : Item} {t : List (Event I)}
      {stop : Stop ε X ρ Item} {jobs : Jobs Item Res ε} (out : Res × Option ε) :
      Returns (p.read r x) t (item, r') → Filled r' xs stop jobs →
      Filled r (x :: xs) stop ((item, out) :: jobs)

/-- The rest of a serial run, from between two batches. -/
def SerialFrom (Good : Event I → Prop) (pos : Position X ρ Item σ) (acc : List (Item × Res))
    (s : σ) (r : ρ) : Prop :=
  match pos.pending with
  | none => p.Serial Good pos.reader pos.rest pos.state acc s r
  | some item => ∃ res s' acc' t, p.Works Good item res ∧
      Returns (p.accept pos.state item res) t s' ∧
      p.Serial Good pos.reader pos.rest s' acc' s r ∧ acc = (item, res) :: acc'

variable {pos : Position X ρ Item σ} {queue : List Item} {t : List (Event I)}

section Spec

variable {p}
variable {r r' : ρ} {xs : List X} {s s' : σ} {stop : Stop ε X ρ Item} {jobs : Jobs Item Res ε}
  {item : Item} {tr : List (Event I)}

/-- Every job's outcome is one of its worker, whose events are among `tr`. -/
def Worked (p : Pipeline I ε X ρ Item Res σ) (jobs : Jobs Item Res ε) (tr : List (Event I)) :
    Prop :=
  ∀ j ∈ jobs, ∃ w, (p.work j.1).Behaves w j.2 ∧ w.Sublist tr

theorem Worked.mono {tr' : List (Event I)} (h : Worked p jobs tr) (hSub : tr.Sublist tr') :
    Worked p jobs tr' := by
  intro j hj
  obtain ⟨w, hw, hSublist⟩ := h j hj
  exact ⟨w, hw, hSublist.trans hSub⟩

/-- A property of every event of reading. -/
structure Reads (p : Pipeline I ε X ρ Item Res σ) (P : Event I → Prop) : Prop where
  read   : ∀ r x, (p.read r x).run.Emits P
  finish : ∀ r, (p.finish r).run.Emits P
  abort  : p.abort.Emits P

/-- Events of reading. -/
def Reading (p : Pipeline I ε X ρ Item Res σ) (tr : List (Event I)) : Prop :=
  ∀ P, p.Reads P → ∀ e ∈ tr, P e

/-- **What a batch does**: it reads, and for each job it queues the item and
runs its worker beside the rest. -/
inductive Batched (p : Pipeline I ε X ρ Item Res σ) : List (Event I) → Jobs Item Res ε → Prop
  | stop {t : List (Event I)} : Reading p t → Batched p t []
  | read {t t' : List (Event I)} {jobs : Jobs Item Res ε} :
      Reading p t → Batched p t' jobs → Batched p (t ++ t') jobs
  | spawn {item : Item} {out : Res × Option ε} {t w t' u : List (Event I)}
      {jobs : Jobs Item Res ε} :
      (p.submit item).Behaves t () → (p.work item).Behaves w out → Batched p t' jobs →
      Interleave w t' u → Batched p (t ++ u) ((item, out) :: jobs)

/-- The queue has room for an item. -/
def Admits (p : Pipeline I ε X ρ Item Res σ) (queue : List Item) (item : Item) : Prop :=
  p.alone item = false ∧ (queue = [] ∨ p.room queue item = true)

/-- A batch that has begun with a queue. -/
inductive Begun (p : Pipeline I ε X ρ Item Res σ) : List Item → List (Event I) → Prop
  | stop {queue : List Item} {t : List (Event I)} : Reading p t → Begun p queue t
  | read {queue : List Item} {t t' : List (Event I)} :
      Reading p t → Begun p queue t' → Begun p queue (t ++ t')
  | submit {queue : List Item} {item : Item} {t : List (Event I)} :
      p.Admits queue item → (p.submit item).Begins t → Begun p queue t
  | spawn {queue : List Item} {item : Item} {t w t' u : List (Event I)} :
      p.Admits queue item → (p.submit item).Behaves t () → (p.work item).Begins w →
      Begun p (queue ++ [item]) t' → Interleave w t' u → Begun p queue (t ++ u)

/-- The main thread stops after an error of its own. -/
theorem abort_reading {α : Type} {a : α} (h : (p.abort >>= fun _ => pure a).Begins tr) :
    Reading p tr := by
  intro P hP
  rcases Proc.begins_bind h with hAbort | ⟨⟨⟩, t, t', hAbort, rfl, rfl⟩
  · exact hP.abort tr hAbort
  · rw [List.append_nil]
    exact hP.abort t hAbort.begins

/-- A worker beside the rest of the batch. -/
theorem spawn_behaves {rest : Proc I (Stop ε X ρ Item × Jobs Item Res ε)}
    (h : (p.spawn item rest).Behaves tr (stop, jobs)) :
    ∃ out jobs' t w t' u, jobs = (item, out) :: jobs' ∧ (p.submit item).Behaves t () ∧
      (p.work item).Behaves w out ∧ rest.Behaves t' (stop, jobs') ∧ Interleave w t' u ∧
      tr = t ++ u := by
  obtain ⟨⟨⟩, t, u, hSubmit, hBoth, rfl⟩ := Proc.behaves_bind.mp h
  obtain ⟨out, ⟨stop', jobs'⟩, w, t', hWork, hRest, hInter, hEq⟩ := Proc.behaves_both.mp hBoth
  obtain ⟨rfl, rfl⟩ := Prod.mk.inj hEq
  exact ⟨out, jobs', t, w, t', u, rfl, hSubmit, hWork, hRest, hInter, rfl⟩

/-- **A batch** reads in order and runs one worker for each item. -/
theorem fill_behaves (h : (p.fill queue r xs).Behaves tr (stop, jobs)) :
    p.Filled r xs stop jobs ∧ p.Batched tr jobs := by
  induction xs generalizing queue r tr jobs with
  | nil =>
    obtain ⟨out, t, t', hFinish, hk, rfl⟩ := Proc.behaves_bind.mp h
    have hReading : Reading p t := fun P hP => hP.finish r t hFinish.begins
    cases out with
    | ok u =>
      obtain ⟨rfl, hEq⟩ := hk
      obtain ⟨rfl, rfl⟩ := Prod.mk.inj hEq
      exact ⟨.done r, by simpa using Batched.stop hReading⟩
    | error e =>
      have hAbort := abort_reading hk.begins
      obtain ⟨-, _, _, -, ⟨-, hEq⟩, -⟩ := Proc.behaves_bind.mp hk
      obtain ⟨rfl, rfl⟩ := Prod.mk.inj hEq
      exact ⟨.failed r [] e, .read hReading (.stop hAbort)⟩
  | cons x xs ih =>
    obtain ⟨out, t, t', hRead, hk, rfl⟩ := Proc.behaves_bind.mp h
    have hReading : Reading p t := fun P hP => hP.read r x t hRead.begins
    cases out with
    | error e =>
      have hAbort := abort_reading hk.begins
      obtain ⟨-, _, _, -, ⟨-, hEq⟩, -⟩ := Proc.behaves_bind.mp hk
      obtain ⟨rfl, rfl⟩ := Prod.mk.inj hEq
      exact ⟨.failed r _ e, .read hReading (.stop hAbort)⟩
    | ok next =>
      obtain ⟨item, r'⟩ := next
      dsimp only at hk
      split at hk
      · -- no room
        obtain ⟨rfl, hEq⟩ := hk
        obtain ⟨rfl, rfl⟩ := Prod.mk.inj hEq
        exact ⟨.full xs hRead, by simpa using Batched.stop hReading⟩
      · obtain ⟨out, jobs', t₁, w, t₂, u, rfl, hSubmit, hWork, hRest, hInter, rfl⟩ :=
          spawn_behaves hk
        obtain ⟨hFilled, hBatched⟩ := ih hRest
        exact ⟨.cons out hRead hFilled, .read hReading (.spawn hSubmit hWork hBatched hInter)⟩

theorem batch_batched (h : (p.batch pos).Behaves tr (stop, jobs)) :
    p.Batched tr jobs := by
  obtain ⟨pending, r₀, xs₀, s₀⟩ := pos
  cases pending with
  | none => exact (fill_behaves h).2
  | some item =>
    obtain ⟨out, jobs', t₁, w, t₂, u, rfl, hSubmit, hWork, hFill, hInter, rfl⟩ := spawn_behaves h
    exact .spawn hSubmit hWork (fill_behaves hFill).2 hInter

theorem spawn_begun {rest : Proc I (Stop ε X ρ Item × Jobs Item Res ε)}
    (hAdmits : p.Admits queue item) (hRest : ∀ t, rest.Begins t → p.Begun (queue ++ [item]) t)
    (h : (p.spawn item rest).Begins tr) : p.Begun queue tr := by
  rcases Proc.begins_bind h with hSubmit | ⟨⟨⟩, t, t', hSubmit, hBoth, rfl⟩
  · exact .submit hAdmits hSubmit
  · obtain ⟨w, u, hWork, hu, hInter⟩ := Proc.begins_both hBoth
    exact .spawn hAdmits hSubmit hWork (hRest u hu) hInter

/-- A run of the read loop is a batch that has begun. -/
theorem fill_begun (h : (p.fill queue r xs).Begins tr) : p.Begun queue tr := by
  induction xs generalizing queue r tr with
  | nil =>
    rcases Proc.begins_bind h with hFinish | ⟨out, t, t', hFinish, hk, rfl⟩
    · exact .stop fun P hP => hP.finish r tr hFinish
    · refine .read (fun P hP => hP.finish r t hFinish.begins) (.stop ?_)
      cases out with
      | ok u =>
        obtain rfl : t' = [] := hk
        simp [Reading]
      | error e => exact abort_reading hk
  | cons x xs ih =>
    rcases Proc.begins_bind h with hRead | ⟨out, t, t', hRead, hk, rfl⟩
    · exact .stop fun P hP => hP.read r x tr hRead
    · refine .read (fun P hP => hP.read r x t hRead.begins) ?_
      cases out with
      | error e => exact .stop (abort_reading hk)
      | ok next =>
        dsimp only at hk
        split at hk
        · obtain rfl : t' = [] := hk
          exact .stop (by simp [Reading])
        · rename_i hRoom
          simp only [not_or, Bool.not_eq_true, Bool.not_eq_false] at hRoom
          exact spawn_begun ⟨hRoom.1, .inr hRoom.2⟩ (fun _ => ih) hk

theorem batch_begun (hPending : pos.pending.filter p.alone = none) (h : (p.batch pos).Begins tr) :
    p.Begun [] tr := by
  obtain ⟨pending, r₀, xs₀, s₀⟩ := pos
  cases pending with
  | none => exact fill_begun h
  | some item =>
    have hAlone : p.alone item = false := by simpa [Option.filter] using hPending
    exact spawn_begun ⟨hAlone, .inl rfl⟩ (fun _ => fill_begun) h

theorem verdict_none (h : Returns (attempt id (p.verdict jobs)) tr ()) :
    (p.verdict jobs).Behaves tr none := by
  rcases attempt_behaves.mp h with ⟨h, -⟩ | ⟨e, -, hEq⟩
  · exact h
  · cases hEq

/-- The workers of a batch are among its events. -/
theorem Batched.worked (h : p.Batched tr jobs) : Worked p jobs tr := by
  induction h with
  | stop => simp [Worked]
  | read _ _ ih => exact ih.mono (List.sublist_append_right _ _)
  | @spawn _ _ t _ _ u _ _ hWork _ hInter ih =>
    have hSub := List.sublist_append_right t u
    exact List.forall_mem_cons.mpr ⟨⟨_, hWork, hInter.sublist_left.trans hSub⟩,
      ih.mono (hInter.sublist_right.trans hSub)⟩

/-- The results that a batch accepts. -/
def results (jobs : Jobs Item Res ε) : List (Item × Res) := jobs.map fun j => (j.1, j.2.1)

/-- The rest of a serial run, from a stop of the reading. -/
def After (p : Pipeline I ε X ρ Item Res σ) (Good : Event I → Prop) (stop : Stop ε X ρ Item) (s : σ)
    (acc : List (Item × Res)) (s' : σ) (r' : ρ) : Prop :=
  match stop with
  | .full item r xs => p.SerialFrom Good ⟨some item, r, xs, s⟩ acc s' r'
  | .done r => acc = [] ∧ s' = s ∧ r' = r
  | .failed _ => False

/-- **A batch that is accepted is serial**: up to the end of the input, or up
to the item that had no room. -/
theorem Filled.serial {Good : Event I → Prop} (h : p.Filled r xs stop jobs)
    (hWorks : ∀ j ∈ jobs, p.Works Good j.1 j.2.1) (hAccept : Returns (p.acceptAll s jobs) t s')
    {acc : List (Item × Res)} {s'' : σ} {r'' : ρ} (hAfter : p.After Good stop s' acc s'' r'') :
    p.Serial Good r xs s (results jobs ++ acc) s'' r'' := by
  induction h generalizing s t with
  | done r =>
    obtain ⟨-, rfl⟩ := returns_pure.mp hAccept
    obtain ⟨rfl, rfl, rfl⟩ := hAfter
    exact .nil _ _
  | failed r xs e => exact hAfter.elim
  | full xs hRead =>
    obtain ⟨-, rfl⟩ := returns_pure.mp hAccept
    -- the item without room is the next one of the serial run
    obtain ⟨res, s₁, acc', t', hWork, hAcc, hSerial, rfl⟩ := hAfter
    exact .cons hRead hWork hAcc hSerial
  | cons out hRead _ ih =>
    obtain ⟨s₁, t₁, t₂, hFirst, hRest, rfl⟩ := returns_bind.mp hAccept
    have hWork := hWorks _ List.mem_cons_self
    exact .cons hRead hWork hFirst
      (ih (fun j hj => hWorks j (List.mem_cons_of_mem _ hj)) hRest hAfter)

end Spec

/-! ## Marks -/

/-- What the main thread does to the queue and to the results. -/
inductive Mark (Item Res : Type)
  | submit (item : Item)
  | accept (item : Item) (res : Res)
  | clear

/-- A process makes no mark. -/
abbrev Silent {α : Type} (mark : Event I → Option (Mark Item Res)) (q : Proc I α) : Prop :=
  q.Emits fun e => mark e = none

theorem Silent.marks {α : Type} {mark : Event I → Option (Mark Item Res)} {q : Proc I α}
    (h : Silent mark q) (hq : q.Begins t) : t.filterMap mark = [] := by
  rw [List.filterMap_eq_nil_iff]
  exact h t hq

/-- The events of the components that are marks. -/
structure Marked (mark : Event I → Option (Mark Item Res)) : Prop where
  read      : ∀ r x, Silent mark (p.read r x).run
  finish    : ∀ r, Silent mark (p.finish r).run
  work      : ∀ item, Silent mark (p.work item)
  direct    : ∀ item, Silent mark (p.direct item).run
  verdict   : ∀ jobs, Silent mark (p.verdict jobs)
  abort     : Silent mark p.abort
  submit    : ∀ item t, (p.submit item).Begins t → t.filterMap mark = [] ∨
    t.filterMap mark = [.submit item]
  submitted : ∀ item t, (p.submit item).Behaves t () → t.filterMap mark = [.submit item]
  accept    : ∀ s item res t, (p.accept s item res).run.Begins t → t.filterMap mark = [] ∨
    t.filterMap mark = [.accept item res]
  accepted  : ∀ s item res t s', Returns (p.accept s item res) t s' →
    t.filterMap mark = [.accept item res]
  clear     : ∀ t, p.clear.Begins t → t.filterMap mark = [] ∨ t.filterMap mark = [.clear]
  cleared   : ∀ t, p.clear.Behaves t () → t.filterMap mark = [.clear]

/-- The accepted results among some marks. -/
def acceptedOf (marks : List (Mark Item Res)) : List (Item × Res) :=
  marks.filterMap fun m => match m with
    | .accept item res => some (item, res)
    | _ => none

@[simp] theorem acceptedOf_append (ms ms' : List (Mark Item Res)) :
    acceptedOf (ms ++ ms') = acceptedOf ms ++ acceptedOf ms' := List.filterMap_append

/-- The queue after some marks. -/
def queueAfter : List Item → List (Mark Item Res) → List Item
  | q, [] => q
  | q, .submit item :: ms => queueAfter (q ++ [item]) ms
  | _, .clear :: ms => queueAfter [] ms
  | q, .accept _ _ :: ms => queueAfter q ms

theorem queueAfter_append (q : List Item) (ms ms' : List (Mark Item Res)) :
    queueAfter q (ms ++ ms') = queueAfter (queueAfter q ms) ms' := by
  induction ms generalizing q with
  | nil => rfl
  | cons m ms ih => cases m <;> exact ih _

section Finished

variable {p}
variable {mark : Event I → Option (Mark Item Res)} (hMark : p.Marked mark)
variable {r r' : ρ} {xs : List X} {s s' : σ} {stop : Stop ε X ρ Item} {jobs : Jobs Item Res ε}
  {item : Item} {tr : List (Event I)}
include hMark

theorem Reading.marks (h : Reading p tr) : tr.filterMap mark = [] := by
  rw [List.filterMap_eq_nil_iff]
  exact h _ ⟨hMark.read, hMark.finish, hMark.abort⟩

/-- The marks of a batch: its items are queued in order. -/
theorem Batched.marks (h : p.Batched tr jobs) :
    tr.filterMap mark = jobs.map fun j => .submit j.1 := by
  induction h with
  | stop hReading => exact hReading.marks hMark
  | read hReading _ ih => rw [List.filterMap_append, hReading.marks hMark, ih, List.nil_append]
  | spawn hSubmit hWork _ hInter ih =>
    rw [List.filterMap_append, hMark.submitted _ _ hSubmit,
      hInter.filterMap_right ((hMark.work _).behaves hWork), ih]
    rfl

theorem acceptAll_marks (h : Returns (p.acceptAll s jobs) tr s') :
    tr.filterMap mark = jobs.map fun j => .accept j.1 j.2.1 := by
  induction jobs generalizing s tr with
  | nil =>
    obtain ⟨rfl, -⟩ := returns_pure.mp h
    rfl
  | cons j jobs ih =>
    obtain ⟨s₁, t₁, t₂, hFirst, hRest, rfl⟩ := returns_bind.mp h
    rw [List.filterMap_append, hMark.accepted _ _ _ _ _ hFirst, ih hRest]
    rfl

/-- The marks of a batch that is accepted. -/
theorem drain_returns (h : Returns (p.drain s jobs) tr s') :
    ∃ t t', (p.verdict jobs).Behaves t none ∧ (∃ u, Returns (p.acceptAll s jobs) u s') ∧
      tr = t ++ t' ∧
      tr.filterMap mark = (jobs.map fun j => Mark.accept j.1 j.2.1) ++ [.clear] := by
  obtain ⟨⟨⟩, t, u, hVerdict, hk₁, rfl⟩ := returns_bind.mp h
  obtain ⟨s₁, t₁, u₁, hAccept, hk₂, rfl⟩ := returns_bind.mp hk₁
  obtain ⟨⟨⟩, t₂, u₂, hClear, hRet, rfl⟩ := returns_bind.mp hk₂
  obtain ⟨rfl, rfl⟩ := returns_pure.mp hRet
  have hNone := verdict_none hVerdict
  refine ⟨t, _, hNone, ⟨_, hAccept⟩, rfl, ?_⟩
  rw [List.filterMap_append, (hMark.verdict jobs).marks hNone.begins, List.filterMap_append,
    acceptAll_marks hMark hAccept, List.append_nil, hMark.cleared _ (returns_lift.mp hClear)]
  rfl

end Finished

/-! ## Finished runs are serial -/

/-- The traces that can happen: their events satisfy `Good`, and where the
check after the workers finds no error, no worker failed. -/
structure Sound (Good : Event I → Prop) (Valid : List (Event I) → Prop) : Prop where
  closed  : ∀ t t', Valid (t ++ t') → Valid t
  good    : ∀ t, Valid t → ∀ e ∈ t, Good e
  verdict : ∀ pre t jobs, (p.verdict jobs).Behaves t none → Worked p jobs pre →
    Valid (pre ++ t) → ∀ j ∈ jobs, j.2.2 = none

/-- What is left to do after a step. -/
def Continues (Good : Event I → Prop) (y : Position X ρ Item σ ⊕ Except ε (σ × ρ))
    (acc : List (Item × Res)) (s : σ) (r : ρ) : Prop :=
  match y with
  | .inl pos => p.SerialFrom Good pos acc s r
  | .inr out => acc = [] ∧ out = .ok (s, r)

section Serial

variable {p}
variable {mark : Event I → Option (Mark Item Res)} (hMark : p.Marked mark)
variable {Good : Event I → Prop} {Valid : List (Event I) → Prop} (hSound : p.Sound Good Valid)
variable {r r' : ρ} {xs : List X} {s s' : σ} {stop : Stop ε X ρ Item} {jobs : Jobs Item Res ε}
  {item : Item} {tr pre : List (Event I)} {y : Position X ρ Item σ ⊕ Except ε (σ × ρ)}
  {acc : List (Item × Res)}

/-- A batch after which the run goes on was accepted. -/
theorem settle_next {s₀ : σ} (h : (p.settle s₀ (stop, jobs)).Behaves tr y)
    (hNext : ∀ e, y ≠ .inr (.error e)) :
    ∃ s₁, Returns (p.drain s₀ jobs) tr s₁ ∧
      ∀ Good acc s r, p.Continues Good y acc s r → p.After Good stop s₁ acc s r := by
  cases stop with
  | failed e =>
    obtain ⟨-, rfl⟩ := h
    exact absurd rfl (hNext e)
  | full item r₁ xs₁ =>
    obtain ⟨d, t, t', hDrain, ⟨rfl, rfl⟩, rfl⟩ := Proc.behaves_bind.mp h
    rw [List.append_nil]
    cases d with
    | error e => exact absurd rfl (hNext e)
    | ok s₁ => exact ⟨s₁, hDrain, fun _ _ _ _ => id⟩
  | done r₁ =>
    obtain ⟨d, t, t', hDrain, ⟨rfl, rfl⟩, rfl⟩ := Proc.behaves_bind.mp h
    rw [List.append_nil]
    cases d with
    | error e => exact absurd rfl (hNext e)
    | ok s₁ =>
      refine ⟨s₁, hDrain, ?_⟩
      rintro _ _ _ _ ⟨rfl, hEq⟩
      cases hEq
      exact ⟨rfl, rfl, rfl⟩

/-- A run that can be continued has not failed. -/
theorem Continues.next (h : p.Continues Good y acc s r) (e : ε) : y ≠ .inr (.error e) := by
  rintro rfl
  exact absurd h.2 (by simp)

include hMark hSound

/-- The jobs of a batch that was accepted: none failed, and their results are
the accepted ones. -/
theorem drained (hWorked : Worked p jobs pre) {t : List (Event I)}
    (hSubmits : t.filterMap mark = jobs.map fun j => .submit j.1)
    (hDrain : Returns (p.drain s jobs) tr s') (hValid : Valid (pre ++ tr)) :
    (∀ j ∈ jobs, j.2.2 = none) ∧ (∃ u, Returns (p.acceptAll s jobs) u s') ∧
      acceptedOf ((t ++ tr).filterMap mark) = results jobs := by
  obtain ⟨t₁, t₂, hVerdict, hAccept, rfl, hMarks⟩ := drain_returns hMark hDrain
  rw [← List.append_assoc] at hValid
  refine ⟨hSound.verdict _ _ _ hVerdict hWorked (hSound.closed _ _ hValid), hAccept, ?_⟩
  rw [List.filterMap_append, hSubmits, hMarks, acceptedOf_append, acceptedOf_append]
  simp [acceptedOf, results, List.filterMap_map]

omit hMark hSound in
/-- A batch from a position. -/
theorem batch_serial (h : (p.batch pos).Behaves tr (stop, jobs))
    (hWorks : ∀ j ∈ jobs, p.Works Good j.1 j.2.1)
    (hAccept : Returns (p.acceptAll pos.state jobs) t s') (hAfter : p.After Good stop s' acc s r) :
    p.SerialFrom Good pos (results jobs ++ acc) s r := by
  obtain ⟨pending, r₀, xs₀, s₀⟩ := pos
  cases pending with
  | none => exact (fill_behaves h).1.serial hWorks hAccept hAfter
  | some item =>
    obtain ⟨out, jobs', t₁, w, t₂, u, rfl, -, hWork, hFill, hInter, rfl⟩ := spawn_behaves h
    -- the item is accepted first
    obtain ⟨s₂, v₁, v₂, hFirst, hRest, rfl⟩ := returns_bind.mp hAccept
    exact ⟨out.1, s₂, results jobs' ++ acc, v₁, hWorks _ List.mem_cons_self, hFirst,
      (fill_behaves hFill).1.serial (fun j hj => hWorks j (List.mem_cons_of_mem _ hj)) hRest hAfter,
      rfl⟩

omit hMark hSound in
theorem single_returns {pos' : Position X ρ Item σ} (h : Returns (p.single pos item) tr pos') :
    ∃ res s t t', Returns (p.direct item) t res ∧ Returns (p.accept pos.state item res) t' s ∧
      pos' = ⟨none, pos.reader, pos.rest, s⟩ ∧ tr = t ++ t' := by
  obtain ⟨res, t, u, hDirect, hk, rfl⟩ := returns_bind.mp h
  obtain ⟨s, t', u', hAccept, hRet, rfl⟩ := returns_bind.mp hk
  obtain ⟨rfl, rfl⟩ := returns_pure.mp hRet
  exact ⟨res, s, t, t', hDirect, hAccept, rfl, by simp⟩

/-- **One batch**, or one item alone, is a part of a serial run. -/
theorem step_serial (h : (p.step pos).Behaves tr y) (hValid : Valid (pre ++ tr))
    (hCont : p.Continues Good y acc s r) :
    p.SerialFrom Good pos (acceptedOf (tr.filterMap mark) ++ acc) s r := by
  unfold step at h
  split at h
  · obtain ⟨⟨stop, jobs⟩, t, t', hBatch, hSettle, rfl⟩ := Proc.behaves_bind.mp h
    have hBatched := batch_batched hBatch
    obtain ⟨s₁, hDrain, hAfter⟩ := settle_next hSettle hCont.next
    rw [← List.append_assoc] at hValid
    obtain ⟨hNone, ⟨u, hAccept⟩, hMarks⟩ := drained hMark hSound
      (hBatched.worked.mono (List.sublist_append_right pre t)) (hBatched.marks hMark) hDrain hValid
    rw [hMarks]
    refine batch_serial hBatch (fun j hj => ?_) hAccept (hAfter _ _ _ _ hCont)
    -- the verdict excludes that a worker failed
    obtain ⟨w, hWork, hSub⟩ := hBatched.worked j hj
    rw [show j.2 = (j.2.1, none) from Prod.ext rfl (hNone j hj)] at hWork
    refine .inl ⟨w, hWork, fun e he => hSound.good _ hValid e ?_⟩
    exact List.mem_append_left _ (List.mem_append_right _ (hSub.subset he))
  · rename_i item hAlone
    obtain ⟨d, t, t', hSingle, ⟨rfl, rfl⟩, rfl⟩ := Proc.behaves_bind.mp h
    cases d with
    | error e => exact absurd rfl (hCont.next e)
    | ok pos' =>
      obtain ⟨res, s₁, t₁, t₂, hWork, hAccept, rfl, rfl⟩ := single_returns hSingle
      obtain ⟨hPending, -⟩ := Option.filter_eq_some_iff.mp hAlone
      rw [List.append_nil, List.filterMap_append, (hMark.direct item).marks hWork.begins,
        hMark.accepted _ _ _ _ _ hAccept, SerialFrom, hPending]
      refine ⟨res, s₁, acc, t₂, .inr ⟨t₁, hWork, fun e he => ?_⟩, hAccept, hCont, rfl⟩
      exact hSound.good _ hValid e (by simp [he])

/-- **A run that succeeds is serial**: its accepted results are those of
reading, working and accepting one item at a time. -/
theorem run_serial (h : (p.run r xs s).Behaves tr (.ok (s', r'))) (hValid : Valid (pre ++ tr)) :
    p.Serial Good r xs s (acceptedOf (tr.filterMap mark)) s' r' := by
  show p.SerialFrom Good ⟨none, r, xs, s⟩ _ s' r'
  rw [run, Proc.behaves_loop] at h
  generalize (⟨none, r, xs, s⟩ : Position X ρ Item σ) = pos at h ⊢
  generalize hOut : Except.ok (s', r') = out at h
  induction h generalizing pre with
  | stop hStep =>
    subst hOut
    rw [← List.append_nil (acceptedOf _)]
    exact step_serial hMark hSound hStep hValid ⟨rfl, rfl⟩
  | next hStep _ ih =>
    rw [List.filterMap_append, acceptedOf_append]
    rw [← List.append_assoc] at hValid
    exact step_serial hMark hSound hStep (hSound.closed _ _ hValid) (ih hValid hOut)

end Serial

/-! ## Unfinished runs -/

section Begun

variable {p}
variable {mark : Event I → Option (Mark Item Res)} (hMark : p.Marked mark)
variable {r r' : ρ} {xs : List X} {s s' : σ} {stop : Stop ε X ρ Item} {jobs : Jobs Item Res ε}
  {item : Item} {tr pre : List (Event I)} {y : Position X ρ Item σ ⊕ Except ε (σ × ρ)}
  {pos pos' : Position X ρ Item σ}

/-- The queues that can be filled without draining. -/
structure Bounded (p : Pipeline I ε X ρ Item Res σ) (Fits : List Item → Prop) : Prop where
  nil  : Fits []
  one  : ∀ item, p.alone item = false → Fits [item]
  room : ∀ queue item, Fits queue → p.room queue item = true → Fits (queue ++ [item])

variable {Fits : List Item → Prop} (hBounded : p.Bounded Fits)

include hMark

include hBounded in
/-- The marks of a batch that has begun: queued items, which fit. -/
theorem Begun.marks (h : p.Begun queue tr) (hQueue : Fits queue) :
    ∃ items : List Item, tr.filterMap mark = items.map .submit ∧ Fits (queue ++ items) := by
  have hRoom : ∀ {queue item}, p.Admits queue item → Fits queue → Fits (queue ++ [item]) := by
    rintro queue item ⟨hAlone, rfl | hRoom⟩ hQueue
    · exact hBounded.one item hAlone
    · exact hBounded.room _ _ hQueue hRoom
  induction h with
  | stop hReading => exact ⟨[], hReading.marks hMark, by simpa using hQueue⟩
  | read hReading _ ih =>
    rw [List.filterMap_append, hReading.marks hMark, List.nil_append]
    exact ih hQueue
  | @submit queue item t hAdmits hSubmit =>
    rcases hMark.submit item t hSubmit with hNil | hOne
    · exact ⟨[], hNil, by simpa using hQueue⟩
    · exact ⟨[item], hOne, hRoom hAdmits hQueue⟩
  | @spawn queue item _ _ _ _ hAdmits hSubmit hWork _ hInter ih =>
    obtain ⟨items, hItems, hFits⟩ := ih (hRoom hAdmits hQueue)
    refine ⟨item :: items, ?_, by simpa using hFits⟩
    rw [List.filterMap_append, hMark.submitted _ _ hSubmit,
      hInter.filterMap_right (hMark.work item _ hWork), hItems]
    rfl

theorem acceptAll_begins (h : (p.acceptAll s jobs).run.Begins tr) :
    ∃ acc : List (Item × Res), tr.filterMap mark = acc.map fun a => .accept a.1 a.2 := by
  induction jobs generalizing s tr with
  | nil =>
    obtain rfl : tr = [] := h
    exact ⟨[], rfl⟩
  | cons j jobs ih =>
    rcases run_bind_begins h with hFirst | ⟨s₁, t, t', hFirst, hRest, rfl⟩
    · rcases hMark.accept _ _ _ _ hFirst with hNil | hOne
      · exact ⟨[], hNil⟩
      · exact ⟨[(j.1, j.2.1)], hOne⟩
    · obtain ⟨acc, hAcc⟩ := ih hRest
      refine ⟨(j.1, j.2.1) :: acc, ?_⟩
      rw [List.filterMap_append, hMark.accepted _ _ _ _ _ hFirst, hAcc]
      rfl

omit hMark in
/-- The end of a batch, as far as it has come: before the verdict, or while
the results are accepted. -/
theorem drain_begins (h : (p.drain s jobs).run.Begins tr) :
    (p.verdict jobs).Begins tr ∨
    ∃ t t' u u', (p.verdict jobs).Behaves t none ∧ tr = t ++ t' ∧ t' = u ++ u' ∧
      (p.acceptAll s jobs).run.Begins u ∧ p.clear.Begins u' := by
  rcases run_bind_begins h with hVerdict | ⟨⟨⟩, t, t', hVerdict, hk, rfl⟩
  · exact .inl (attempt_begins hVerdict)
  · have hNone := verdict_none hVerdict
    rcases run_bind_begins hk with hAccept | ⟨s₁, u, u', hAccept, hk₂, rfl⟩
    · exact .inr ⟨t, t', t', [], hNone, rfl, by simp, hAccept, Proc.begins_nil _⟩
    · refine .inr ⟨t, _, u, u', hNone, rfl, rfl, hAccept.begins, ?_⟩
      rcases run_bind_begins hk₂ with hClear | ⟨⟨⟩, v, v', hClear, rfl, rfl⟩
      · exact run_lift_begins hClear
      · rw [List.append_nil]
        exact (returns_lift.mp hClear).begins

omit hMark in
theorem settle_begins (h : (p.settle s (stop, jobs)).Begins tr) :
    (p.drain s jobs).run.Begins tr := by
  cases stop with
  | failed e =>
    obtain rfl : tr = [] := h
    exact Proc.begins_nil _
  | full | done =>
    rcases Proc.begins_bind h with hDrain | ⟨d, t, t', hDrain, rfl, rfl⟩
    · exact hDrain
    · rw [List.append_nil]
      exact hDrain.begins

omit hMark in
/-- **A step that has begun** is in its batch, in the end of its batch, or
works on an item alone. -/
theorem step_begins (h : (p.step pos).Begins tr) :
    (pos.pending.filter p.alone = none ∧ ((p.batch pos).Begins tr ∨
      ∃ stop jobs t t', (p.batch pos).Behaves t (stop, jobs) ∧
        (p.drain pos.state jobs).run.Begins t' ∧ tr = t ++ t')) ∨
    ∃ item, pos.pending.filter p.alone = some item ∧ ((p.direct item).run.Begins tr ∨
      ∃ res t t', Returns (p.direct item) t res ∧
        (p.accept pos.state item res).run.Begins t' ∧ tr = t ++ t') := by
  unfold step at h
  split at h
  · rename_i hPending
    refine .inl ⟨hPending, ?_⟩
    rcases Proc.begins_bind h with hBatch | ⟨⟨stop, jobs⟩, t, t', hBatch, hSettle, rfl⟩
    · exact .inl hBatch
    · exact .inr ⟨stop, jobs, t, t', hBatch, settle_begins hSettle, rfl⟩
  · rename_i item hPending
    have hSingle : (p.single pos item).run.Begins tr := by
      rcases Proc.begins_bind h with hSingle | ⟨d, t, t', hSingle, rfl, rfl⟩
      · exact hSingle
      · rw [List.append_nil]
        exact hSingle.begins
    refine .inr ⟨item, hPending, ?_⟩
    rcases run_bind_begins hSingle with hDirect | ⟨res, t, t', hDirect, hk, rfl⟩
    · exact .inl hDirect
    · refine .inr ⟨res, t, t', hDirect, ?_, rfl⟩
      rcases run_bind_begins hk with hAccept | ⟨s₁, u, u', hAccept, rfl, rfl⟩
      · exact hAccept
      · rw [List.append_nil]
        exact hAccept.begins

omit hMark in
/-- **A step after which the run goes on** has accepted its batch, or the item
it worked on alone. -/
theorem step_next (h : (p.step pos).Behaves tr y) (hNext : ∀ e, y ≠ .inr (.error e)) :
    (∃ stop jobs t t' s', (p.batch pos).Behaves t (stop, jobs) ∧
      Returns (p.drain pos.state jobs) t' s' ∧ tr = t ++ t') ∨
    ∃ item res t t' s', Returns (p.direct item) t res ∧
      Returns (p.accept pos.state item res) t' s' ∧ tr = t ++ t' := by
  unfold step at h
  split at h
  · obtain ⟨⟨stop, jobs⟩, t, t', hBatch, hSettle, rfl⟩ := Proc.behaves_bind.mp h
    obtain ⟨s₁, hDrain, -⟩ := settle_next hSettle hNext
    exact .inl ⟨stop, jobs, t, t', s₁, hBatch, hDrain, rfl⟩
  · rename_i item hPending
    obtain ⟨d, t, t', hSingle, ⟨rfl, rfl⟩, rfl⟩ := Proc.behaves_bind.mp h
    cases d with
    | error e => exact absurd rfl (hNext e)
    | ok pos' =>
      obtain ⟨res, s₁, t₁, t₂, hWork, hAccept, -, rfl⟩ := single_returns hSingle
      exact .inr ⟨item, res, t₁, t₂, s₁, hWork, hAccept, by simp⟩

/-! ### The queue -/

omit hMark in
theorem queueAfter_submits (queue items : List Item) :
    queueAfter queue (items.map fun item => (.submit item : Mark Item Res)) = queue ++ items := by
  induction items generalizing queue with
  | nil => simp [queueAfter]
  | cons item items ih =>
    rw [List.map_cons, queueAfter, ih, List.append_assoc]
    rfl

omit hMark in
theorem queueAfter_accepts (queue : List Item) (acc : List (Item × Res)) :
    queueAfter queue (acc.map fun a => .accept a.1 a.2) = queue := by
  induction acc with
  | nil => rfl
  | cons a acc ih => exact ih

/-- The end of a batch leaves the queue or empties it. -/
theorem drain_queue (queue : List Item) (h : (p.drain s jobs).run.Begins tr) :
    queueAfter queue (tr.filterMap mark) = queue ∨ queueAfter queue (tr.filterMap mark) = [] := by
  rcases drain_begins h with hVerdict | ⟨t, t', u, u', hVerdict, rfl, rfl, hAccept, hClear⟩
  · rw [(hMark.verdict jobs).marks hVerdict]
    exact .inl rfl
  · obtain ⟨acc, hAcc⟩ := acceptAll_begins hMark hAccept
    rw [List.filterMap_append, (hMark.verdict jobs).marks hVerdict.begins, List.filterMap_append,
      hAcc, List.nil_append, queueAfter_append, queueAfter_accepts]
    rcases hMark.clear u' hClear with hNil | hOne
    · rw [hNil]
      exact .inl rfl
    · rw [hOne]
      exact .inr rfl

include hBounded in
/-- A round never lets the queue grow past its limit. -/
theorem step_queue (h : (p.step pos).Begins tr) : Fits (queueAfter [] (tr.filterMap mark)) := by
  rcases step_begins h with
    ⟨hPending, hBatch | ⟨stop, jobs, t, t', hBatch, hDrain, rfl⟩⟩ |
    ⟨item, -, hDirect | ⟨res, t, t', hDirect, hAccept, rfl⟩⟩
  · obtain ⟨items, hItems, hFits⟩ := (batch_begun hPending hBatch).marks hMark hBounded hBounded.nil
    rw [hItems, queueAfter_submits]
    exact hFits
  · obtain ⟨items, hItems, hFits⟩ :=
      (batch_begun hPending hBatch.begins).marks hMark hBounded hBounded.nil
    rw [List.filterMap_append, hItems, queueAfter_append, queueAfter_submits]
    rcases drain_queue hMark ([] ++ items) hDrain with hEq | hEq
    · rw [hEq]
      exact hFits
    · rw [hEq]
      exact hBounded.nil
  · rw [(hMark.direct item).marks hDirect]
    exact hBounded.nil
  · rw [List.filterMap_append, (hMark.direct item).marks hDirect.begins]
    rcases hMark.accept _ _ _ _ hAccept with hNil | hOne
    · rw [hNil]
      exact hBounded.nil
    · rw [hOne]
      exact hBounded.nil

/-- Between two steps the queue is empty. -/
theorem step_queue_empty (h : (p.step pos).Behaves tr y) (hNext : ∀ e, y ≠ .inr (.error e)) :
    queueAfter [] (tr.filterMap mark) = [] := by
  rcases step_next h hNext with
    ⟨stop, jobs, t, t', s', -, hDrain, rfl⟩ | ⟨item, res, t, t', s', hDirect, hAccept, rfl⟩
  · obtain ⟨t₁, t₂, -, -, rfl, hMarks⟩ := drain_returns hMark hDrain
    rw [List.filterMap_append, hMarks, queueAfter_append, queueAfter_append]
    rfl
  · rw [List.filterMap_append, (hMark.direct item).marks hDirect.begins,
      hMark.accepted _ _ _ _ _ hAccept]
    rfl

theorem rounds_queue_empty
    (h : Proc.Rounds (fun pos t y => (p.step pos).Behaves t y) pos tr pos') :
    queueAfter [] (tr.filterMap mark) = [] := by
  induction h with
  | refl pos => rfl
  | next hStep _ ih =>
    rw [List.filterMap_append, queueAfter_append, step_queue_empty hMark hStep (by simp), ih]

include hBounded in
/-- **At all times the queue fits.** -/
theorem run_queue (h : (p.run r xs s).Begins tr) : Fits (queueAfter [] (tr.filterMap mark)) := by
  obtain ⟨pos', t, t', hRounds, hStep, rfl⟩ := Proc.begins_loop h
  rw [List.filterMap_append, queueAfter_append, rounds_queue_empty hMark hRounds]
  exact step_queue hMark hBounded hStep

end Begun

/-! ## Events of a run -/

/-- Every event of every component satisfies `P`. -/
structure Within (P : Event I → Prop) : Prop where
  read    : ∀ r x, (p.read r x).run.Emits P
  finish  : ∀ r, (p.finish r).run.Emits P
  submit  : ∀ item, (p.submit item).Emits P
  work    : ∀ item, (p.work item).Emits P
  direct  : ∀ item, (p.direct item).run.Emits P
  verdict : ∀ jobs, (p.verdict jobs).Emits P
  accept  : ∀ s item res, (p.accept s item res).run.Emits P
  clear   : p.clear.Emits P
  abort   : p.abort.Emits P

section Within

variable {p}
variable {P : Event I → Prop}

theorem acceptAll_emits (hAccept : ∀ s item res, (p.accept s item res).run.Emits P) (s : σ)
    (jobs : Jobs Item Res ε) : (p.acceptAll s jobs).run.Emits P := by
  induction jobs generalizing s with
  | nil => exact .run_pure _
  | cons j jobs ih => exact .run_bind (hAccept _ _ _) fun s' => ih s'

theorem drain_emits (hVerdict : ∀ jobs, (p.verdict jobs).Emits P)
    (hAccept : ∀ s item res, (p.accept s item res).run.Emits P) (hClear : p.clear.Emits P) (s : σ)
    (jobs : Jobs Item Res ε) : (p.drain s jobs).run.Emits P :=
  .run_bind (.run_attempt (hVerdict jobs)) fun _ => .run_bind (acceptAll_emits hAccept _ _) fun _ =>
    .run_bind (.run_lift hClear) fun _ => .run_pure _

variable (hWithin : p.Within P)
include hWithin

theorem Begun.emits {tr : List (Event I)} (h : p.Begun queue tr) :
    ∀ e ∈ tr, P e := by
  have hReads : p.Reads P := ⟨hWithin.read, hWithin.finish, hWithin.abort⟩
  induction h with
  | stop hReading => exact hReading P hReads
  | read hReading _ ih => exact List.forall_mem_append.mpr ⟨hReading P hReads, ih⟩
  | submit _ hSubmit => exact hWithin.submit _ _ hSubmit
  | spawn _ hSubmit hWork _ hInter ih =>
    refine List.forall_mem_append.mpr ⟨hWithin.submit _ _ hSubmit.begins, fun e he => ?_⟩
    exact (hInter.mem_iff.mp he).elim (hWithin.work _ _ hWork e) (ih e)

theorem step_emits (pos : Position X ρ Item σ) : (p.step pos).Emits P := by
  intro tr h
  rcases step_begins h with
    ⟨hPending, hBatch | ⟨stop, jobs, t, t', hBatch, hDrain, rfl⟩⟩ |
    ⟨item, -, hDirect | ⟨res, t, t', hDirect, hAccept, rfl⟩⟩
  · exact (batch_begun hPending hBatch).emits hWithin
  · exact List.forall_mem_append.mpr ⟨(batch_begun hPending hBatch.begins).emits hWithin,
      drain_emits hWithin.verdict hWithin.accept hWithin.clear _ _ _ hDrain⟩
  · exact hWithin.direct item tr hDirect
  · exact List.forall_mem_append.mpr
      ⟨hWithin.direct item t hDirect.begins, hWithin.accept _ _ _ _ hAccept⟩

theorem rounds_emits {pos' : Position X ρ Item σ} {tr : List (Event I)}
    (h : Proc.Rounds (fun pos t y => (p.step pos).Behaves t y) pos tr pos') : ∀ e ∈ tr, P e := by
  induction h with
  | refl pos => simp
  | next hStep _ ih =>
    rw [List.forall_mem_append]
    exact ⟨step_emits hWithin _ _ hStep.begins, ih⟩

/-- **Every event of a run is one of a component.** -/
theorem run_emits (r : ρ) (xs : List X) (s : σ) : (p.run r xs s).Emits P := by
  intro tr h
  obtain ⟨pos', t, t', hRounds, hStep, rfl⟩ := Proc.begins_loop h
  rw [List.forall_mem_append]
  exact ⟨rounds_emits hWithin hRounds, step_emits hWithin _ _ hStep⟩

end Within

/-! ## Failures -/

/-- The events of a failing worker: `fails` gives the item it works on. -/
structure Failures (fails : Event I → Option Item) : Prop where
  read     : ∀ r x, (p.read r x).run.Emits fun e => fails e = none
  finish   : ∀ r, (p.finish r).run.Emits fun e => fails e = none
  submit   : ∀ item, (p.submit item).Emits fun e => fails e = none
  work     : ∀ item, (p.work item).Emits fun e => fails e = none ∨ fails e = some item
  worked   : ∀ item t res, (p.work item).Behaves t (res, none) → ∀ e ∈ t, fails e = none
  direct   : ∀ item, (p.direct item).run.Emits fun e => fails e = none ∨ fails e = some item
  directed : ∀ item t res, Returns (p.direct item) t res → ∀ e ∈ t, fails e = none
  verdict  : ∀ jobs, (p.verdict jobs).Emits fun e => fails e = none
  accept   : ∀ s item res, (p.accept s item res).run.Emits fun e => fails e = none
  clear    : p.clear.Emits fun e => fails e = none
  abort    : p.abort.Emits fun e => fails e = none

section Failed

variable {p}
variable {mark : Event I → Option (Mark Item Res)} (hMark : p.Marked mark)
variable {Good : Event I → Prop} {Valid : List (Event I) → Prop} (hSound : p.Sound Good Valid)
variable {fails : Event I → Option Item} (hFailures : p.Failures fails)
variable {r r' : ρ} {xs : List X} {s s' : σ} {stop : Stop ε X ρ Item} {jobs : Jobs Item Res ε}
  {item : Item} {tr pre : List (Event I)} {y : Position X ρ Item σ ⊕ Except ε (σ × ρ)}
  {pos pos' : Position X ρ Item σ}

section Calm

include hFailures

/-- Where no worker failed, a batch has no failure. -/
theorem Batched.calm (h : p.Batched tr jobs) (hNone : ∀ j ∈ jobs, j.2.2 = none) :
    ∀ e ∈ tr, fails e = none := by
  have hReads : p.Reads fun e => fails e = none :=
    ⟨hFailures.read, hFailures.finish, hFailures.abort⟩
  induction h with
  | stop hReading => exact hReading _ hReads
  | read hReading _ ih => exact List.forall_mem_append.mpr ⟨hReading _ hReads, ih hNone⟩
  | @spawn item out t w t' u jobs hSubmit hWork _ hInter ih =>
    obtain ⟨hFirst, hRest⟩ := List.forall_mem_cons.mp hNone
    obtain ⟨res, err⟩ := out
    obtain rfl : err = none := hFirst
    refine List.forall_mem_append.mpr ⟨hFailures.submit _ _ hSubmit.begins, fun e he => ?_⟩
    exact (hInter.mem_iff.mp he).elim (hFailures.worked _ _ _ hWork e) (ih hRest e)

theorem drain_calm (h : (p.drain s jobs).run.Begins tr) : ∀ e ∈ tr, fails e = none :=
  drain_emits hFailures.verdict hFailures.accept hFailures.clear _ _ _ h

end Calm

include hSound hFailures

/-- A batch whose results are accepted has no failure. -/
theorem accepted_calm {t' : List (Event I)} (hBatch : (p.batch pos).Behaves tr (stop, jobs))
    (hVerdict : (p.verdict jobs).Behaves t none) (hValid : Valid (pre ++ (tr ++ (t ++ t')))) :
    ∀ e ∈ tr, fails e = none := by
  have hBatched := batch_batched hBatch
  have hBefore : Valid (pre ++ tr ++ t) := by
    apply hSound.closed _ t'
    simpa using hValid
  exact hBatched.calm hFailures (hSound.verdict _ _ _ hVerdict
    (hBatched.worked.mono (List.sublist_append_right pre tr)) hBefore)

theorem step_calm (h : (p.step pos).Behaves tr y) (hNext : ∀ e, y ≠ .inr (.error e))
    (hValid : Valid (pre ++ tr)) : ∀ e ∈ tr, fails e = none := by
  rcases step_next h hNext with
    ⟨stop, jobs, t, t', s', hBatch, hDrain, rfl⟩ | ⟨item, res, t, t', s', hDirect, hAccept, rfl⟩
  · rw [List.forall_mem_append]
    refine ⟨?_, drain_calm hFailures hDrain.begins⟩
    obtain ⟨⟨⟩, u, u', hVerdict, -, rfl⟩ := returns_bind.mp hDrain
    exact accepted_calm hSound hFailures hBatch (verdict_none hVerdict) hValid
  · rw [List.forall_mem_append]
    exact ⟨hFailures.directed _ _ _ hDirect, hFailures.accept _ _ _ _ hAccept.begins⟩

include hMark in
omit hSound in
/-- A failure in a batch is one of a queued item. -/
theorem Begun.queued {e : Event I} {failed : Item} (h : p.Begun queue tr) (he : e ∈ tr)
    (hFail : fails e = some failed) : Mark.submit failed ∈ tr.filterMap mark := by
  have hReads : p.Reads fun e => fails e = none :=
    ⟨hFailures.read, hFailures.finish, hFailures.abort⟩
  induction h with
  | stop hReading => exact absurd (hReading _ hReads e he) (by simp [hFail])
  | read hReading _ ih =>
    rw [List.filterMap_append]
    rcases List.mem_append.mp he with he | he
    · exact absurd (hReading _ hReads e he) (by simp [hFail])
    · exact List.mem_append_right _ (ih he)
  | submit _ hSubmit => exact absurd (hFailures.submit _ _ hSubmit e he) (by simp [hFail])
  | @spawn queue item _ w _ _ _ hSubmit hWork _ hInter ih =>
    rw [List.filterMap_append, hMark.submitted _ _ hSubmit,
      hInter.filterMap_right (hMark.work item w hWork)]
    rcases List.mem_append.mp he with he | he
    · exact absurd (hFailures.submit _ _ hSubmit.begins e he) (by simp [hFail])
    · rcases hInter.mem_iff.mp he with he | he
      · -- the worker of this item
        rcases hFailures.work item w hWork e he with hNone | hSome
        · exact absurd hNone (by simp [hFail])
        · obtain rfl : failed = item := Option.some.inj (hFail.symm.trans hSome)
          exact List.mem_append_left _ List.mem_cons_self
      · exact List.mem_append_right _ (ih he)

include hMark in
/-- A step with a failure has only queued items so far, among them the failed
one, unless that one is worked on alone. -/
theorem step_failed (h : (p.step pos).Begins tr) (hValid : Valid (pre ++ tr)) {e : Event I}
    {failed : Item} (he : e ∈ tr) (hFail : fails e = some failed) :
    ∃ items : List Item, tr.filterMap mark = items.map .submit ∧
      (failed ∈ items ∨ p.alone failed = true) := by
  have hFree : p.Bounded fun _ => True :=
    ⟨trivial, fun _ _ => trivial, fun _ _ _ _ => trivial⟩
  have hMember : ∀ (t : List (Event I)) (items : List Item), p.Begun [] t → e ∈ t →
      t.filterMap mark = items.map .submit → failed ∈ items := by
    intro t items hBatch he hItems
    have hSubmit := hBatch.queued hMark hFailures he hFail
    rw [hItems, List.mem_map] at hSubmit
    obtain ⟨item, hMem, hEq⟩ := hSubmit
    obtain rfl := Mark.submit.inj hEq
    exact hMem
  rcases step_begins h with
    ⟨hPending, hBatch | ⟨stop, jobs, t, t', hBatch, hDrain, rfl⟩⟩ |
    ⟨item, hPending, hDirect | ⟨res, t, t', hDirect, hAccept, rfl⟩⟩
  · -- the batch is still being read
    have hBegun := batch_begun hPending hBatch
    obtain ⟨items, hItems, -⟩ := hBegun.marks hMark hFree trivial
    exact ⟨items, hItems, .inl (hMember tr items hBegun he hItems)⟩
  · have hBegun := batch_begun hPending hBatch.begins
    obtain ⟨items, hItems, -⟩ := hBegun.marks hMark hFree trivial
    rcases List.mem_append.mp he with hIn | hIn
    · rcases drain_begins hDrain with hVerdict | ⟨u, u', v, v', hVerdict, rfl, rfl, -, -⟩
      · refine ⟨items, ?_, .inl (hMember t items hBegun hIn hItems)⟩
        rw [List.filterMap_append, hItems, (hMark.verdict jobs).marks hVerdict, List.append_nil]
      · -- accepting has begun: no worker failed
        exact absurd (accepted_calm hSound hFailures hBatch hVerdict hValid e hIn) (by simp [hFail])
    · exact absurd (drain_calm hFailures hDrain e hIn) (by simp [hFail])
  · refine ⟨[], (hMark.direct item).marks hDirect, .inr ?_⟩
    rcases hFailures.direct item tr hDirect e he with hNone | hSome
    · exact absurd hNone (by simp [hFail])
    · obtain rfl : failed = item := Option.some.inj (hFail.symm.trans hSome)
      exact (Option.filter_eq_some_iff.mp hPending).2
  · rcases List.mem_append.mp he with he | he
    · exact absurd (hFailures.directed _ _ _ hDirect e he) (by simp [hFail])
    · exact absurd (hFailures.accept _ _ _ _ hAccept e he) (by simp [hFail])

theorem rounds_calm (h : Proc.Rounds (fun pos t y => (p.step pos).Behaves t y) pos tr pos')
    (hValid : Valid (pre ++ tr)) : ∀ e ∈ tr, fails e = none := by
  induction h generalizing pre with
  | refl pos => simp
  | next hStep _ ih =>
    rw [List.forall_mem_append]
    rw [← List.append_assoc] at hValid
    exact ⟨step_calm hSound hFailures hStep (by simp) (hSound.closed _ _ hValid), ih hValid⟩

/-- **A run in which a worker failed returns an error.** -/
theorem run_calm {out : σ × ρ} (h : (p.run r xs s).Behaves tr (.ok out))
    (hValid : Valid (pre ++ tr)) : ∀ e ∈ tr, fails e = none := by
  rw [run, Proc.behaves_loop] at h
  obtain ⟨pos', t, t', hRounds, hLast, rfl⟩ := Proc.Loops.rounds h
  rw [List.forall_mem_append]
  rw [← List.append_assoc] at hValid
  exact ⟨rounds_calm hSound hFailures hRounds (hSound.closed _ _ hValid),
    step_calm hSound hFailures hLast (by simp) hValid⟩

include hMark in
/-- **After a failure nothing more is accepted**, neither of its batch, which
is what `t₂` queued, nor of a later one. -/
theorem run_failed (h : (p.run r xs s).Begins tr) (hValid : Valid (pre ++ tr)) {e : Event I}
    {failed : Item} (he : e ∈ tr) (hFail : fails e = some failed) :
    ∃ t₁ t₂, tr = t₁ ++ t₂ ∧ (∀ e ∈ t₁, fails e = none) ∧ queueAfter [] (t₁.filterMap mark) = [] ∧
      ∃ items : List Item, t₂.filterMap mark = items.map .submit ∧
        (failed ∈ items ∨ p.alone failed = true) := by
  obtain ⟨pos', t, t', hRounds, hStep, rfl⟩ := Proc.begins_loop h
  rw [← List.append_assoc] at hValid
  have hCalm := rounds_calm hSound hFailures hRounds (hSound.closed _ _ hValid)
  rcases List.mem_append.mp he with hBefore | he
  · exact absurd (hCalm e hBefore) (by simp [hFail])
  · exact ⟨t, t', rfl, hCalm, rounds_queue_empty hMark hRounds,
      step_failed hMark hSound hFailures hStep hValid he hFail⟩

end Failed

end Pipeline

end L2State.Lib
