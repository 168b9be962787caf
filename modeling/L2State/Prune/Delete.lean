import L2State.Prune.Scan

/-!
# L2State — deleting the difference

`deletePruneDifference` of `prune.go`: the walk over the source calls back for every record,
the deletable ones are collected in a batch, and a full batch is written. An error of a write
stops the walk; the batch may be in the database nevertheless.

* `DeleteState.flush`, `DeleteState.consume`, `deleteSystem` — the code: the pipeline of the walk,
  and the callback in the moves that make it.
* `Deleting`, `PartOf` — **what is gone at any moment**: deletable records that the walk has handed
  over, and all of them but those in the batch as long as it goes on.
* `PartDeleted`, `DeleteWalked.get?_flush` — what a deletion leaves that was stopped, and one
  that succeeded.
-/

namespace L2State

open Lib PruneMergeCursor

/-! ## The code -/

/-- `pruneDeleteBatchKeys`, `pruneDeleteBatchBytes`. -/
def pruneDeleteBatchKeys : Nat := 16384
def pruneDeleteBatchBytes : Nat := 2 ^ 20

/-- What the writes of the deletion meet. -/
structure DeleteEnv where
  /-- `len(batch.Dump())` for the deletions of these keys. -/
  dump  : List Bytes → Nat
  /-- `ctx.Err()` before the write with this number. -/
  ctx   : Nat → Option Err
  /-- The error of the write with this number, and whether the batch is in the database
  nevertheless. -/
  write : Nat → Option (Err × Bool)

/-- A database without some keys. -/
def Store.without (db : Store) (keys : List Bytes) : Store := applyOps db (keys.map .delete)

/-- The variables of `deletePruneDifference`, and the database. -/
structure DeleteState where
  db      : Store
  batch   : List Bytes
  pending : PruneKVCount
  deleted : PruneKVCount
  started : Bool
  /-- The number of writes so far. -/
  writes  : Nat

namespace DeleteState

def start (db : Store) : DeleteState := ⟨db, [], ⟨0, 0⟩, ⟨0, 0⟩, false, 0⟩

/-- `flush`. -/
def flush (env : DeleteEnv) (d : DeleteState) : DeleteState × Option Err :=
  if d.batch = [] then (d, none)
  else
    match env.ctx d.writes, env.write d.writes with
    -- the batch stays as it is, and nothing looks at it again
    | some err, _ => (d, some err)
    | none, some (err, inside) =>
      ({ d with started := true, writes := d.writes + 1,
                db := if inside then Store.without d.db d.batch else d.db },
        some (.wrap "delete prune batch: %w" [] err))
    | none, none =>
      ({ db := Store.without d.db d.batch, batch := [], pending := ⟨0, 0⟩,
         deleted := ⟨d.deleted.keys + d.pending.keys, d.deleted.bytes + d.pending.bytes⟩,
         started := true, writes := d.writes + 1 }, none)

/-- The batch with one more record. -/
def push (d : DeleteState) (r : PruneRecord) : DeleteState :=
  { d with batch := d.batch ++ [r.key], pending := d.pending.add r.key r.value }

/-- The callback. -/
def consume (env : DeleteEnv) (d : DeleteState) (r : PruneRecord) : DeleteState × Option Err :=
  if r.role ≠ .delete then (d, none)
  else if pruneDeleteBatchKeys ≤ (d.push r).batch.length ∨
    pruneDeleteBatchBytes ≤ env.dump (d.push r).batch then
    (d.push r).flush env
  else (d.push r, none)

/-- The callback for some records. -/
def run (env : DeleteEnv) (d : DeleteState) (records : List PruneRecord) : DeleteState :=
  records.foldl (fun d r => (d.consume env r).1) d

/-- A move of the pipeline, seen from the callback: it is called for a record that is
consumed while the context of the caller is live. -/
def after (env : DeleteEnv) (d : DeleteState) (s s' : ScanState) : DeleteState :=
  match s.parent, s'.consumed[s.consumed.length]? with
  | none, some r => (d.consume env r).1
  | _, _ => d

end DeleteState

/-- The callbacks of the walk in `deletePruneDifference`. -/
def deleteCalls (g : PruneHost) (env : DeleteEnv) (db : Store) : ScanCalls :=
  walkCalls g fun before r => (((DeleteState.start db).run env before).consume env r).2

/-- The walk of `deletePruneDifference`, under a scheduler. -/
def deleteSystem (g : PruneHost) (e : PruneExecution) (env : DeleteEnv) (db : Store) :
    System (ScanState × DeleteState) ScanAction where
  step a s := ((scanSystem e (deleteCalls g env db)).step a s.1).map fun s' =>
    (s', s.2.after env s.1 s')

/-- Before the walk. -/
def deleteStart (e : PruneExecution) (db keep : Store) : ScanState × DeleteState :=
  (ScanState.init e (scanScript db keep), .start db)

/-! ## What is gone -/

theorem Store.get?_without (db : Store) (keys : List Bytes) (k : Bytes) :
    SortedMap.get? (Store.without db keys) k = if k ∈ keys then none else SortedMap.get? db k := by
  induction keys generalizing db with
  | nil => rfl
  | cons key keys ih =>
    rw [show Store.without db (key :: keys) = Store.without (SortedMap.erase db key) keys from rfl,
      ih, SortedMap.get?_erase]
    by_cases hk : k = key <;> simp [hk]

theorem Store.without_append (db : Store) (a b : List Bytes) :
    Store.without db (a ++ b) = Store.without (Store.without db a) b := by
  rw [Store.without, List.map_append, applyOps_append]
  rfl

/-- The keys of the records that the walk found deletable. -/
def deletableKeys (records : List PruneRecord) : List Bytes :=
  (records.filter fun r => r.role = .delete).map PruneRecord.key

theorem deletableKeys_append (a b : List PruneRecord) :
    deletableKeys (a ++ b) = deletableKeys a ++ deletableKeys b := by
  rw [deletableKeys, List.filter_append, List.map_append]
  rfl

/-- The walk goes on: the deletable records so far are gone, or wait in the batch. -/
def Deleting (db : Store) (records : List PruneRecord) (d : DeleteState) : Prop :=
  ∃ gone, gone ++ d.batch = deletableKeys records ∧ d.db = Store.without db gone

/-- Nothing else is gone than deletable records. -/
def PartOf (db : Store) (records : List PruneRecord) (d : DeleteState) : Prop :=
  ∃ gone, gone <+: deletableKeys records ∧ d.db = Store.without db gone

namespace Deleting

variable {db : Store} {records : List PruneRecord} {d : DeleteState}

theorem partOf (h : Deleting db records d) : PartOf db records d := by
  obtain ⟨gone, hSplit, hDb⟩ := h
  exact ⟨gone, hSplit ▸ List.prefix_append _ _, hDb⟩

/-- A flush that fails leaves a part; one that succeeds leaves nothing behind. -/
theorem flush (h : Deleting db records d) (env : DeleteEnv) :
    PartOf db records (d.flush env).1 ∧
      ((d.flush env).2 = none → Deleting db records (d.flush env).1 ∧
        (d.flush env).1.batch = []) := by
  obtain ⟨gone, hSplit, hDb⟩ := id h
  have hAll : Store.without d.db d.batch = Store.without db (deletableKeys records) := by
    rw [hDb, ← hSplit, Store.without_append]
  unfold DeleteState.flush
  split
  next hEmpty => exact ⟨h.partOf, fun _ => ⟨h, hEmpty⟩⟩
  next =>
    split
    next => exact ⟨h.partOf, fun hNone => by cases hNone⟩
    next _ _ err inside hCtx hWrite =>
      refine ⟨?_, fun hNone => by cases hNone⟩
      -- the error does not tell which of the two it is
      cases inside with
      | false => exact h.partOf
      | true => exact ⟨_, List.prefix_refl _, hAll⟩
    next =>
      exact ⟨⟨_, List.prefix_refl _, hAll⟩, fun _ => ⟨⟨_, List.append_nil _, hAll⟩, rfl⟩⟩

/-- **One callback.** -/
theorem consume (h : Deleting db records d) (env : DeleteEnv) (r : PruneRecord) :
    PartOf db (records ++ [r]) (d.consume env r).1 ∧
      ((d.consume env r).2 = none → Deleting db (records ++ [r]) (d.consume env r).1) := by
  obtain ⟨gone, hSplit, hDb⟩ := h
  unfold DeleteState.consume
  split
  next hr =>
    have hSkip : Deleting db (records ++ [r]) d := by
      refine ⟨gone, ?_, hDb⟩
      rw [deletableKeys_append, show deletableKeys [r] = [] by simp [deletableKeys, hr],
        List.append_nil, hSplit]
    exact ⟨hSkip.partOf, fun _ => hSkip⟩
  next hr =>
    have hPush : Deleting db (records ++ [r]) (d.push r) := by
      refine ⟨gone, ?_, hDb⟩
      rw [deletableKeys_append, ← hSplit, show deletableKeys [r] = [r.key] by
        simp [deletableKeys, not_not.mp hr], List.append_assoc]
      rfl
    split
    next => exact ⟨(hPush.flush env).1, fun hNone => ((hPush.flush env).2 hNone).1⟩
    next => exact ⟨hPush.partOf, fun _ => hPush⟩

/-- A flush behind the walk leaves exactly the records that are not deletable. -/
theorem flushed (h : Deleting db records d) {env : DeleteEnv} (hNone : (d.flush env).2 = none) :
    (d.flush env).1.db = Store.without db (deletableKeys records) := by
  obtain ⟨⟨gone, hSplit, hDb⟩, hBatch⟩ := (h.flush env).2 hNone
  rw [hBatch, List.append_nil] at hSplit
  rw [hDb, hSplit]

end Deleting

/-! ## The moves of the pipeline -/

/-- **What a move does to the consumed records**: nothing, or it hands one over. If the
coordinator goes on afterwards, the callback returned no error. -/
theorem consumed_step {e : PruneExecution} {c : ScanCalls} {a : ScanAction} {s s' : ScanState}
    (h : (scanSystem e c).step a s = some s') :
    (s'.consumed = s.consumed ∧ (s'.pc.script ≠ none → s.pc.script ≠ none)) ∨
      ∃ r, s.pc.script ≠ none ∧ s'.consumed = s.consumed ++ [r] ∧
        (s'.pc.script ≠ none → c.consume s.parent s.consumed r = none) := by
  cases a with
  | interrupt err =>
    simp only [scanSystem] at h
    split at h <;> cases h
    exact .inl ⟨rfl, id⟩
  | worker w =>
    -- a worker does not touch the coordinator
    simp only [scanSystem, workerStep] at h
    (repeat' split at h) <;> cases h <;> exact .inl ⟨rfl, id⟩
  | main =>
    have hLive := fun hScript => ((mainStep_quiet h).latch hScript).2
    simp only [scanSystem] at h
    cases hPc : s.pc with
    | consume j k =>
      simp only [mainStep, hPc] at h
      cases h
      refine .inr ⟨(s.slots j).record, by simp [MainPc.script], rfl, fun hScript => ?_⟩
      cases hErr : c.consume s.parent s.consumed (s.slots j).record with
      | none => rfl
      | some err =>
        rw [hErr] at hScript
        exact absurd rfl hScript
    | directConsume r role todo =>
      simp only [mainStep, hPc] at h
      split at h <;> cases h
      next => exact .inr ⟨{ r with role := role }, by simp [MainPc.script], rfl, fun hScript =>
        absurd rfl hScript⟩
      next hErr => exact .inr ⟨{ r with role := role }, by simp [MainPc.script], rfl, fun _ => hErr⟩
    | _ =>
      rw [hPc] at hLive
      refine .inl ⟨?_, hLive⟩
      simp only [mainStep, hPc] at h
      (repeat' split at h) <;> cases h <;> first | rfl | contradiction

/-- The deletion in the middle of the walk. -/
structure DeletePhase (env : DeleteEnv) (db : Store) (s : ScanState × DeleteState) : Prop where
  part : PartOf db s.1.consumed s.2
  live : s.1.pc.script ≠ none →
    s.2 = (DeleteState.start db).run env s.1.consumed ∧ Deleting db s.1.consumed s.2

namespace DeletePhase

variable {g : PruneHost} {e : PruneExecution} {env : DeleteEnv} {db keep : Store}
  {s s' : ScanState × DeleteState}

theorem init : DeletePhase env db (deleteStart e db keep) := by
  have hStart : Deleting db [] (.start db) := ⟨[], rfl, rfl⟩
  exact ⟨hStart.partOf, fun _ => ⟨rfl, hStart⟩⟩

/-- **A move of the pipeline** keeps what is gone a part of the deletable records. -/
theorem step (h : DeletePhase env db s) {a : ScanAction}
    (hStep : (deleteSystem g e env db).step a s = some s') : DeletePhase env db s' := by
  obtain ⟨s, d⟩ := s
  obtain ⟨s', hScan, rfl⟩ := Option.map_eq_some_iff.mp hStep
  unfold DeleteState.after
  rcases consumed_step hScan with ⟨hSame, hLive⟩ | ⟨r, hLive, hConsumed, hOk⟩
  · -- nothing is handed over
    rw [hSame, List.getElem?_eq_none le_rfl]
    have hAfter : DeletePhase env db (s', d) :=
      ⟨hSame ▸ h.part, fun hs' => hSame ▸ h.live (hLive hs')⟩
    cases s.parent <;> exact hAfter
  · obtain ⟨hRun, hDeleting⟩ := h.live hLive
    rw [hConsumed, List.getElem?_append_right le_rfl, Nat.sub_self]
    cases hParent : s.parent with
    | none =>
      -- the callback runs
      obtain ⟨hPart, hNext⟩ := hDeleting.consume env r
      refine ⟨hConsumed ▸ hPart, fun hs' => ?_⟩
      have hNone : (((DeleteState.start db).run env s.consumed).consume env r).2 = none := by
        have hConsume := hOk hs'
        rwa [hParent] at hConsume
      rw [← hRun] at hNone
      refine ⟨?_, hConsumed ▸ hNext hNone⟩
      rw [hConsumed, DeleteState.run, List.foldl_append]
      show _ = (((DeleteState.start db).run env s.consumed).consume env r).1
      rw [← hRun]
      rfl
    | some err =>
      -- the context of the caller is done, and the walk ends
      obtain ⟨gone, hGone, hDb⟩ := h.part
      refine ⟨⟨gone, hGone.trans ?_, hDb⟩, fun hs' => ?_⟩
      · rw [hConsumed, deletableKeys_append]
        exact List.prefix_append _ _
      · have hNone := hOk hs'
        rw [hParent] at hNone
        cases hNone

theorem run {t : List ScanAction}
    (hRun : (deleteSystem g e env db).run t (deleteStart e db keep) = some s) :
    DeletePhase env db s := by
  have hKeep : ∀ a s s', DeletePhase env db s → (deleteSystem g e env db).step a s = some s' →
      DeletePhase env db s' := fun _ _ _ h hStep => h.step hStep
  exact System.run_invariant hKeep init hRun

end DeletePhase

/-! ## What a deletion leaves -/

section Results

variable {g : PruneHost} {e : PruneExecution} {env : DeleteEnv} {db keep now : Store}
  {t : List ScanAction} {s : ScanState} {d : DeleteState}

/-- The pipeline of a deletion. -/
theorem scan_of_deleteRun {s₀ s : ScanState × DeleteState}
    (hRun : (deleteSystem g e env db).run t s₀ = some s) :
    (scanSystem e (deleteCalls g env db)).run t s₀.1 = some s.1 := by
  induction t generalizing s₀ with
  | nil =>
    obtain rfl : s₀ = s := by simpa using hRun
    rfl
  | cons a t ih =>
    obtain ⟨m, hStep, hRest⟩ := System.run_cons_eq_some.mp hRun
    obtain ⟨s', hScan, rfl⟩ := Option.map_eq_some_iff.mp hStep
    exact System.run_cons_eq_some.mpr ⟨s', hScan, ih hRest⟩

/-- Some of the records are gone that the walk gives the role `delete`, and no others. -/
structure PartDeleted (g : PruneHost) (keep db now : Store) : Prop where
  part  : ∀ k v, now.get? k = some v → db.get? k = some v
  stays : ∀ k v, db.get? k = some v → (scannedRecord g keep.entries (k, v)).role ≠ .delete →
    now.get? k = some v

theorem mem_deletableKeys {k : Bytes} :
    k ∈ deletableKeys (db.entries.map (scannedRecord g keep.entries)) ↔
      ∃ v, db.get? k = some v ∧ (scannedRecord g keep.entries (k, v)).role = .delete := by
  simp only [deletableKeys, List.mem_map, List.mem_filter, decide_eq_true_eq]
  constructor
  · rintro ⟨r, ⟨⟨⟨k', v⟩, hMem, rfl⟩, hRole⟩, rfl⟩
    exact ⟨v, SortedMap.get?_eq_some_iff.mpr hMem, hRole⟩
  · rintro ⟨v, hGet, hRole⟩
    exact ⟨_, ⟨⟨(k, v), SortedMap.get?_eq_some_iff.mp hGet, rfl⟩, hRole⟩, rfl⟩

/-- **A deletion at any moment**, also with the database behind its last write. -/
theorem PartDeleted.of_part {records : List PruneRecord} (hPart : PartOf db records d)
    (hPrefix : records <+: db.entries.map (scannedRecord g keep.entries)) :
    PartDeleted g keep db d.db := by
  obtain ⟨gone, hGone, hDb⟩ := hPart
  obtain ⟨rest, hRest⟩ := hPrefix
  have hMem : ∀ k ∈ gone, k ∈ deletableKeys (db.entries.map (scannedRecord g keep.entries)) := by
    intro k hk
    rw [← hRest, deletableKeys_append]
    exact List.mem_append_left _ (hGone.subset hk)
  refine ⟨fun k v hGet => ?_, fun k v hGet hRole => ?_⟩
  · rw [hDb, Store.get?_without] at hGet
    split at hGet
    · cases hGet
    · exact hGet
  · rw [hDb, Store.get?_without, if_neg, hGet]
    intro hk
    obtain ⟨v', hGet', hDelete⟩ := mem_deletableKeys.mp (hMem k hk)
    obtain rfl := Option.some.inj (hGet.symm.trans hGet')
    exact hRole hDelete

/-- The records that a walk has consumed, at any moment. -/
theorem consumed_isPrefix_of_walk (hCovers : Covers db keep)
    (hRun : (deleteSystem g e env db).run t (deleteStart e db keep) = some (s, d)) :
    s.consumed <+: db.entries.map (scannedRecord g keep.entries) := by
  have hScan := scan_of_deleteRun hRun
  rw [deleteStart, scanScript_of_covers hCovers] at hScan
  obtain ⟨before, hBefore, hFinal⟩ := (ScanInv.run hScan).consumed_isPrefix
  -- the first records of the source, with the roles that the classification gives them
  rw [List.prefix_iff_eq_take, mergedRecords, ← List.map_take] at hBefore
  obtain ⟨hConsumed, -⟩ := consumed_eq (hBefore ▸ hFinal)
  rw [hConsumed, List.map_take]
  exact List.take_prefix _ _

theorem PartDeleted.of_run (hCovers : Covers db keep)
    (hRun : (deleteSystem g e env db).run t (deleteStart e db keep) = some (s, d)) :
    PartDeleted g keep db d.db :=
  .of_part (DeletePhase.run hRun).part (consumed_isPrefix_of_walk hCovers hRun)

/-- A walk that ended without an error. -/
structure DeleteWalked (g : PruneHost) (e : PruneExecution) (env : DeleteEnv) (db keep : Store)
    (d : DeleteState) :
    Prop where
  ends : ∃ t s, (deleteSystem g e env db).run t (deleteStart e db keep) =
    some (s, d) ∧ s.pc.Returned ∧
    s.Joined ∧ s.outcome = none

/-- It has handed over every record. -/
theorem DeleteWalked.deleting (h : DeleteWalked g e env db keep d) :
    Deleting db (db.entries.map (scannedRecord g keep.entries)) d := by
  obtain ⟨t, s, hRun, hReturned, hJoined, hNone⟩ := h.ends
  have hEnds : ScanEnds e _ _ s := ⟨⟨t, scan_of_deleteRun hRun⟩, hReturned, hJoined⟩
  have hLive : s.pc.script ≠ none := by
    rw [hEnds.outcome_eq_none_iff.mp hNone]
    exact Option.some_ne_none _
  obtain ⟨-, hConsumed, -⟩ := hEnds.consumed_of_walk hNone
  exact hConsumed ▸ ((DeletePhase.run hRun).live hLive).2

/-- **A deletion that succeeds** leaves the other records. -/
theorem DeleteWalked.get?_flush (h : DeleteWalked g e env db keep d)
    (hFlush : (d.flush env).2 = none) (k v : Bytes) : (d.flush env).1.db.get? k = some v ↔
      db.get? k = some v ∧ (scannedRecord g keep.entries (k, v)).role ≠ .delete := by
  rw [h.deleting.flushed hFlush, Store.get?_without]
  split
  next hMem =>
    obtain ⟨v', hGet, hRole⟩ := mem_deletableKeys.mp hMem
    constructor
    · rintro ⟨⟩
    · rintro ⟨hGet', hNe⟩
      obtain rfl := Option.some.inj (hGet.symm.trans hGet')
      exact absurd hRole hNe
  next hMem =>
    exact ⟨fun hGet => ⟨hGet, fun hRole => hMem (mem_deletableKeys.mpr ⟨v, hGet, hRole⟩)⟩, And.left⟩

end Results

end L2State
