import L2State.Geth.Reference
import L2State.State.StorageStream

/-!
# L2State — the read-ahead stream handles every leaf once

The invariants of `State/StorageStream` under every schedule, every error of the
iterator or of a slot, and every point at which the context is done.

* `StreamLeaves` — **no leaf is lost or repeated**: behind the calls stand, in
  order, the leaf in the consumer's hand, the channel, the leaf in the producer's
  hand and the rest of the iterator.
* `StreamDoomed` — a context that is done in time makes the function fail.
* `StreamState.weight`, `exists_move` — every move brings the end nearer, and until
  the end there is one.
* `Traversal.consumeStorage_eq_serial` — the serial model is one loop.
-/

namespace L2State

open Lib

section Moves

variable {σ : Type} {x : StreamInputs σ} {s s' : StreamState σ}

/-! ## Every leaf once and in order -/

namespace ProducerPc

/-- The error that `produceStorageTrie` has returned. -/
def failure (p : ProducerPc) : Option Err := p.outcome.join

end ProducerPc

/-- The leaves that were handled, are in the consumer's hand, or wait in the
channel. -/
def StreamState.seen (s : StreamState σ) : History := s.calls ++ s.pc.hand ++ s.channel

/-- The serial loop over the leaves. -/
def StreamInputs.serial (x : StreamInputs σ) : Except Err σ := do
  let acc ← x.stream.leaves.foldlM x.slot x.start
  match x.iterationErr with
  | some err => .error err
  | none => .ok acc

variable {e : Bytes × Bytes}

theorem StreamInputs.serial_of_slot_fails {done tail : History} {acc : σ} {err : Err}
    (hLeaves : done ++ e :: tail = x.stream.leaves) (hDone : done.foldlM x.slot x.start = .ok acc)
    (hSlot : x.slot acc e = .error err) : x.serial =
    .error err := by
  rw [StreamInputs.serial, ← hLeaves, List.foldlM_append, hDone]
  show ((e :: tail).foldlM x.slot acc >>= _) = _
  rw [List.foldlM_cons, hSlot]
  rfl

theorem StreamInputs.serial_of_folded {acc : σ}
    (hDone : x.stream.leaves.foldlM x.slot x.start = .ok acc) :
    x.serial = match x.iterationErr with | some err => .error err | none => .ok acc := by
  rw [StreamInputs.serial, hDone]
  rfl

/-- What stands behind the calls, what the calls have computed, and why a thread
has failed while the context of the traversal is not done. -/
structure StreamLeaves (x : StreamInputs σ) (s : StreamState σ) : Prop where
  made    : s.seen <+: x.stream.leaves
  whole   : s.producer.failure = none → (s.producer = .idle → s.pc.failure = none) →
    s.seen ++ s.producer.hand ++ s.rest = x.stream.leaves
  ended   : s.producer = .finish ∨ s.producer.outcome = some none → s.rest = []
  clean   : s.producer.outcome = some none → x.iterationErr = none
  folded  : s.pc.failure = none →
    ∃ done, s.calls = done ++ s.pc.underway ∧ done.foldlM x.slot x.start = .ok s.acc
  success : s.pc = .returned none → s.calls = x.stream.leaves ∧ x.iterationErr = none
  refused : s.ctx = none → ∀ err, s.pc.failure = some err → x.serial = .error err
  broken  : s.ctx = none → s.canceled = false → ∀ err, s.producer.failure = some err →
    (∃ e tail, s.seen ++ e :: tail = x.stream.leaves ∧ e.1.length ≠ 32 ∧
      err = storageKeyErr x.accountHash e.1) ∨
    (s.seen = x.stream.leaves ∧ x.iterationErr = some err)

variable {pc : ConsumerPc}

namespace StreamLeaves

theorem init (x : StreamInputs σ) : StreamLeaves x (.init x) where
  made := List.nil_prefix
  whole _ _ := rfl
  ended h := by rcases h with h | h <;> cases h
  clean h := nomatch h
  folded _ := ⟨[], rfl, rfl⟩
  success h := nomatch h
  refused _ _ h := nomatch h
  broken _ _ _ h := nomatch h

/-- Between two calls the accumulator is that of the calls. -/
theorem folded_calls (h : StreamLeaves x s) (hPc : s.pc = pc) (hOpen : pc.failure = none)
    (hUnderway : pc.underway = []) :
    s.calls.foldlM x.slot x.start = .ok s.acc := by
  subst hPc
  obtain ⟨done, hCalls, hDone⟩ := h.folded hOpen
  rw [hCalls, hUnderway, List.append_nil, hDone]

/-- The consumer moves without the iterator. -/
theorem keep (h : StreamLeaves x s) (hPc : s.pc = pc) (hProducer : s'.producer = s.producer)
    (hRest : s'.rest = s.rest) (hCtx : s'.ctx = s.ctx)
    (hCanceled : s'.canceled = false → s.canceled = false) (hSeen : s'.seen = s.seen)
    (hFailure : s'.pc.failure = none → pc.failure = none) (hFolded : s'.pc.failure = none →
      ∃ done, s'.calls = done ++ s'.pc.underway ∧ done.foldlM x.slot x.start = .ok s'.acc)
    (hSuccess : s'.pc = .returned none → s'.calls = x.stream.leaves ∧ x.iterationErr = none)
    (hRefused : s.ctx = none → ∀ err, s'.pc.failure = some err → x.serial = .error err) :
    StreamLeaves x s' := by
  subst hPc
  refine ⟨hSeen ▸ h.made, fun hNone hIdle => ?_, fun hOn => ?_, fun hOn =>
    h.clean (hProducer ▸ hOn), hFolded, hSuccess, fun hOn =>
      hRefused (hCtx ▸ hOn), fun hOn hLive err hErr => ?_⟩
  · rw [hSeen, hProducer, hRest]
    rw [hProducer] at hNone hIdle
    exact h.whole hNone fun hOn => hFailure (hIdle hOn)
  · rw [hProducer] at hOn
    rw [hRest]
    exact h.ended hOn
  · rw [hSeen]
    exact h.broken (hCtx ▸ hOn) (hCanceled hLive) err (hProducer ▸ hErr)

/-- The consumer goes on with the same call. -/
theorem handed (h : StreamLeaves x s) (hPc : s.pc = pc) (hProducer : s'.producer = s.producer)
    (hRest : s'.rest = s.rest) (hCtx : s'.ctx = s.ctx) (hCanceled : s'.canceled = s.canceled)
    (hCalls : s'.calls = s.calls ∧ s'.acc = s.acc) (hOld : pc.failure = none)
    (hUnderway : s'.pc.underway = pc.underway) (hSeen : s'.seen = s.seen)
    (hNew : s'.pc.failure = none) (hOpen : s'.pc.isReturned = false) : StreamLeaves x s' := by
  subst hPc
  refine h.keep rfl hProducer hRest hCtx (by rw [hCanceled]; exact id) hSeen
    (fun _ => hOld) ?_ ?_ ?_
  · intro _
    rw [hCalls.1, hCalls.2, hUnderway]
    exact h.folded hOld
  · intro hOn
    rw [hOn] at hOpen
    cases hOpen
  · intro _ err hErr
    rw [hNew] at hErr
    cases hErr

/-- The consumer takes the next leaf from the iterator. -/
theorem take (h : StreamLeaves x s) (hIdle : s.producer = .idle) (hChannel : s.channel = [])
    {pc₀ : ConsumerPc} (hPc₀ : s.pc = pc₀) (hPc : pc₀.failure = none) (hHand : pc₀.hand = [])
    (hUnderway : pc₀.underway = []) {rest : History} (hRest : s.rest = e :: rest)
    (hHand' : pc.hand = [e]) (hUnderway' : pc.underway = []) (hFailure : pc.failure = none)
    (hReturned : pc ≠ .returned none) : StreamLeaves x
    { s with rest := rest, pc := pc } := by
  subst hPc₀
  have hWhole : s.calls ++ [e] ++ rest = x.stream.leaves := by
    have hLeaves := h.whole (by rw [hIdle]; rfl) fun _ => hPc
    simpa [StreamState.seen, hIdle, hHand, hChannel, hRest, ProducerPc.hand] using hLeaves
  have hSeen : StreamState.seen { s with rest := rest, pc := pc } = s.calls ++ [e] := by
    simp [StreamState.seen, hHand', hChannel]
  exact {
    made := ⟨rest, by rw [hSeen, hWhole]⟩
    whole := fun _ _ => by
      rw [hSeen]
      simpa [hIdle, ProducerPc.hand] using hWhole
    ended := fun hOn => by simp [hIdle, ProducerPc.outcome] at hOn
    clean := fun hOn => by simp [hIdle, ProducerPc.outcome] at hOn
    folded := fun _ => ⟨s.calls, by simp [hUnderway'], h.folded_calls rfl hPc hUnderway⟩
    success := fun hOn => absurd hOn hReturned
    refused := fun _ err hErr => by
      rw [show ({ s with rest := rest, pc := pc } : StreamState σ).pc.failure =
        none from hFailure] at hErr
      cases hErr
    broken := fun _ _ err hErr => by simp [hIdle, ProducerPc.failure, ProducerPc.outcome] at hErr }

/-- The iterator ends under the consumer. -/
theorem exhausted (h : StreamLeaves x s) (hIdle : s.producer = .idle) (hPc : s.pc.failure = none)
    (hHand : s.pc.hand = []) (hUnderway : s.pc.underway = []) (hChannel : s.channel = [])
    (hRest : s.rest = []) : StreamLeaves x { s with pc := .returned x.iterationErr } := by
  have hCalls : s.calls = x.stream.leaves := by
    have hLeaves := h.whole (by rw [hIdle]; rfl) fun _ => hPc
    simpa [StreamState.seen, hIdle, hHand, hChannel, hRest, ProducerPc.hand] using hLeaves
  have hFolded := h.folded_calls rfl hPc hUnderway
  refine h.keep rfl rfl rfl rfl id ?_ (fun _ => hPc) ?_ ?_ ?_
  · show s.calls ++ [] ++ s.channel = s.calls ++ s.pc.hand ++ s.channel
    rw [hHand]
  · exact fun _ => ⟨s.calls, by simp [ConsumerPc.underway], hFolded⟩
  · exact fun hOn => ⟨hCalls, ConsumerPc.returned.inj hOn⟩
  · intro _ err hErr
    rw [StreamInputs.serial_of_folded (hCalls ▸ hFolded), show x.iterationErr = some err from hErr]

/-- A call of `processStorageSlot` fails on the leaf `e`. -/
theorem slotFails (h : StreamLeaves x s) {place : SlotPlace} {e : Bytes × Bytes} {err : Err}
    (hPc : s.pc = .slot place e) (hSlot : x.slot s.acc e = .error err) :
    StreamLeaves x { s with pc := place.failed err } := by
  obtain ⟨done, hCalls, hDone⟩ := h.folded (by rw [hPc]; rfl)
  obtain ⟨tail, hTail⟩ := h.made
  refine h.keep hPc rfl rfl rfl id ?_ (fun hOn => absurd hOn (by simp))
    (fun hOn => absurd hOn (by simp)) ?_ ?_
  · show s.calls ++ (place.failed err).hand ++ s.channel = s.calls ++ s.pc.hand ++ s.channel
    rw [hPc, SlotPlace.hand_failed]
    rfl
  · intro hOn
    cases place <;> cases hOn
  · intro _ r hErr
    rw [SlotPlace.failure_failed, Option.some.injEq] at hErr
    subst hErr
    have hLeaves : done ++ e :: (s.channel ++ tail) = x.stream.leaves := by
      rw [← hTail, StreamState.seen, hCalls, hPc]
      simp [ConsumerPc.underway, ConsumerPc.hand]
    exact StreamInputs.serial_of_slot_fails hLeaves hDone hSlot

/-- The consumer takes the outcome of the producer. -/
theorem wait (h : StreamLeaves x s) (hThreads : StreamThreads s) {err : Option Err}
    (hPc : s.pc = .wait) (hResult : s.result = some err) :
    StreamLeaves x { s with result := none, canceled := true, pc := .returned err } := by
  obtain ⟨hChannel, r, hDone⟩ := hThreads.drained hPc
  have hOut := (hThreads.sent err hResult).1
  have hFold := h.folded_calls hPc rfl rfl
  have hSeen : s.seen = s.calls := by simp [StreamState.seen, hPc, hChannel, ConsumerPc.hand]
  have hLive : s.canceled = false := by
    -- nobody has left the stream yet
    cases hOn : s.canceled with
    | false => rfl
    | true =>
      have := hThreads.live hOn
      simp [hPc, ConsumerPc.isReturned] at this
  refine h.keep hPc rfl rfl rfl (by rintro ⟨⟩) ?_ (fun _ => rfl) ?_ ?_ ?_
  · rw [hSeen]
    simp [StreamState.seen, hChannel, ConsumerPc.hand]
  · exact fun _ => ⟨s.calls, by simp [ConsumerPc.underway], hFold⟩
  · intro hOn
    obtain rfl := ConsumerPc.returned.inj hOn
    have hWhole := h.whole (by rw [ProducerPc.failure, hOut]; rfl) fun _ => by rw [hPc]; rfl
    rw [hSeen, h.ended (.inr hOut), hDone] at hWhole
    exact ⟨by simpa [ProducerPc.hand] using hWhole, h.clean hOut⟩
  · intro hCtx failure hErr
    have hFailure : s.producer.failure = some failure := by
      rw [ProducerPc.failure, hOut, show err = some failure from hErr]
      rfl
    rcases h.broken hCtx hLive failure hFailure with
        ⟨e, tail, hLeaves, hKey, rfl⟩ | ⟨hLeaves, hIter⟩
    · rw [hSeen] at hLeaves
      exact StreamInputs.serial_of_slot_fails hLeaves hFold (x.checksKey _ e hKey)
    · rw [hSeen] at hLeaves
      rw [StreamInputs.serial_of_folded (hLeaves ▸ hFold), hIter]

/-- Every move of the consumer keeps the leaves in order. -/
theorem consumer (h : StreamLeaves x s) (hThreads : StreamThreads s) (hMove : ConsumerMove x s s') :
    StreamLeaves x s' := by
  cases hMove with
  | @checkFails n err hPc hCtx =>
    refine h.keep hPc rfl rfl rfl id ?_ (fun _ => rfl) (by rintro ⟨⟩) (by rintro ⟨⟩) ?_
    · simp [StreamState.seen, hPc, ConsumerPc.hand]
    · intro hOn
      rw [hOn] at hCtx
      cases hCtx
  | check hPc | drained hPc =>
    exact h.handed hPc rfl rfl rfl rfl ⟨rfl, rfl⟩ rfl rfl
      (by simp [StreamState.seen, hPc, ConsumerPc.hand]) rfl rfl
  | exhausted hPc hRest =>
    -- the iterator ended before the producer was started
    have hPlace : s.pc.isEarly = true ∧ s.pc.failure = none ∧ s.pc.hand = [] ∧
        s.pc.underway = [] := by
      rcases hPc with hPc | ⟨n, hPc⟩ <;> rw [hPc] <;> exact ⟨rfl, rfl, rfl, rfl⟩
    obtain ⟨hEarly, hFailure, hHand, hUnderway⟩ := hPlace
    have hIdle := hThreads.early hEarly
    exact h.exhausted hIdle hFailure hHand hUnderway (hThreads.idle hIdle).1 hRest
  | next hPc hRest | ahead hPc hRest =>
    have hIdle := hThreads.early (by rw [hPc]; rfl)
    exact h.take hIdle (hThreads.idle hIdle).1 hPc rfl rfl rfl hRest rfl rfl rfl (by rintro ⟨⟩)
  | @callFails place e err hPc hCtx =>
    refine h.keep hPc rfl rfl rfl id ?_ (fun hOn => absurd hOn (by simp))
      (fun hOn => absurd hOn (by simp)) ?_ ?_
    · show s.calls ++ [e] ++ (place.failed err).hand ++ s.channel =
          s.calls ++ s.pc.hand ++ s.channel
      rw [hPc, SlotPlace.hand_failed, List.append_nil]
      rfl
    · intro hOn
      cases place <;> cases hOn
    · intro hOn
      rw [hOn] at hCtx
      cases hCtx
  | @call place e hPc hCtx =>
    refine h.keep hPc rfl rfl rfl id ?_ (fun _ => rfl) ?_ (by rintro ⟨⟩) (by rintro - - ⟨⟩)
    · simp [StreamState.seen, hPc, ConsumerPc.hand]
    · exact fun _ => ⟨s.calls, rfl, h.folded_calls hPc rfl rfl⟩
  | slotFails hPc hSlot => exact h.slotFails hPc hSlot
  | @slot place e acc hPc hSlot =>
    -- the slot that was called is folded
    obtain ⟨done, hCalls, hDone⟩ := h.folded (by rw [hPc]; rfl)
    rw [hPc] at hCalls
    have hFold : s.calls.foldlM x.slot x.start = .ok acc := by
      rw [hCalls]
      exact foldlM_append_eq_ok.mpr ⟨_, hDone, foldlM_cons_eq_ok.mpr ⟨_, hSlot, rfl⟩⟩
    have hNext : place.next.failure = none ∧ place.next.hand = [] ∧ place.next.underway = [] ∧
        place.next ≠ .returned none := by
      rcases place.next_cases with ⟨n, m, -, hNext⟩ | ⟨n, -, hNext⟩ | ⟨-, hNext⟩ <;> rw [hNext] <;>
        exact ⟨rfl, rfl, rfl, by rintro ⟨⟩⟩
    obtain ⟨hFailure, hHand, hUnderway, hOpen⟩ := hNext
    refine h.keep hPc rfl rfl rfl id ?_ (fun _ => rfl) ?_ (fun hOn => absurd hOn hOpen) ?_
    · show s.calls ++ place.next.hand ++ s.channel = s.calls ++ s.pc.hand ++ s.channel
      rw [hPc, hHand]
      rfl
    · exact fun _ => ⟨s.calls, by simp [hUnderway], hFold⟩
    · intro _ err hErr
      cases hFailure.symm.trans hErr
  | @aheadFails e rest hPc hRest hKey =>
    -- the serial loop refuses the key of this slot as well
    have hIdle := hThreads.early (by rw [hPc]; rfl)
    have hLeaves := h.whole (by rw [hIdle]; rfl) fun _ => by rw [hPc]; rfl
    rw [hRest, hIdle, StreamState.seen, hPc, (hThreads.idle hIdle).1] at hLeaves
    refine ⟨⟨e :: rest, ?_⟩, ?_, ?_, ?_, by rintro ⟨⟩, by rintro ⟨⟩, ?_, ?_⟩
    · simpa [StreamState.seen, ConsumerPc.hand, ProducerPc.hand, (hThreads.idle hIdle).1] using
        hLeaves
    · intro _ hOn
      cases hOn hIdle
    · intro hOn
      simp [hIdle, ProducerPc.outcome] at hOn
    · intro hOn
      simp [hIdle, ProducerPc.outcome] at hOn
    · intro _ err hErr
      cases hErr
      have hTail : s.calls ++ e :: rest = x.stream.leaves := by
        simpa [ConsumerPc.hand, ProducerPc.hand] using hLeaves
      exact StreamInputs.serial_of_slot_fails hTail (h.folded_calls hPc rfl rfl)
        (x.checksKey _ e hKey)
    · intro _ _ err hErr
      simp [hIdle, ProducerPc.failure, ProducerPc.outcome] at hErr
  | @start e hPc =>
    -- from here on the producer makes the leaves
    have hIdle := hThreads.early (by rw [hPc]; rfl)
    have hLeaves := h.whole (by rw [hIdle]; rfl) fun _ => by rw [hPc]; rfl
    have hSeen : StreamState.seen { s with producer := .check, pc := .call .streamed e } =
      s.seen := by
      simp [StreamState.seen, hPc, ConsumerPc.hand]
    refine ⟨hSeen ▸ h.made, ?_, ?_, by rintro ⟨⟩,
      ?_, by rintro ⟨⟩, by rintro - - ⟨⟩, by rintro - - - ⟨⟩⟩
    · intro _ _
      rw [hSeen, ← hLeaves, hIdle]
      rfl
    · rintro (hOn | hOn) <;> cases hOn
    · exact fun _ => ⟨s.calls, by simp [ConsumerPc.underway], h.folded_calls hPc rfl rfl⟩
  | receive hPc hChannel =>
    refine h.handed hPc rfl rfl rfl rfl ⟨rfl, rfl⟩ rfl rfl ?_ rfl rfl
    simp [StreamState.seen, hPc, hChannel, ConsumerPc.hand]
  | wait hPc hResult => exact h.wait hThreads hPc hResult
  | close hPc | join hPc =>
    refine h.keep hPc rfl rfl rfl (by simp) ?_ (by rintro ⟨⟩) (by rintro ⟨⟩) (by rintro ⟨⟩) ?_
    · simp [StreamState.seen, hPc, ConsumerPc.hand]
    · exact fun hCtx r hErr => h.refused hCtx r (by rw [hPc]; exact hErr)

/-- The producer moves before its report, without losing a leaf. -/
theorem produce (h : StreamLeaves x s) {p : ProducerPc} {rest channel : History}
    (hStarted : s.producer ≠ .idle) (hOut : s.producer.outcome = none) (hPc : p.outcome = none)
    (hLeaves : channel ++ p.hand ++ rest = s.channel ++ s.producer.hand ++ s.rest)
    (hEnded : p = .finish → rest = []) :
    StreamLeaves x { s with producer := p, rest := rest, channel := channel } := by
  have hWhole : s.calls ++ s.pc.hand ++ channel ++ p.hand ++ rest = x.stream.leaves := by
    have hAll := h.whole (by rw [ProducerPc.failure, hOut]; rfl) fun hIdle => absurd hIdle hStarted
    rw [StreamState.seen] at hAll
    simp only [List.append_assoc] at hAll hLeaves ⊢
    rw [hLeaves, hAll]
  exact {
    made := ⟨p.hand ++ rest, by rw [← List.append_assoc]; exact hWhole⟩
    whole := fun _ _ => hWhole
    ended := fun hOn => by
      rcases hOn with hOn | hOn
      · exact hEnded hOn
      · cases hPc.symm.trans hOn
    clean := fun hOn => nomatch hPc.symm.trans hOn
    folded := h.folded
    success := h.success
    refused := h.refused
    broken := fun _ _ err hErr => by
      rw [show ({ s with producer := p, rest := rest, channel := channel } : StreamState
        σ).producer.failure = p.outcome.join from rfl, hPc] at hErr
      cases hErr }

/-- `produceStorageTrie` returns. -/
theorem reports (h : StreamLeaves x s) {err : Option Err}
    (hClean : err = none → s.rest = [] ∧ x.iterationErr = none ∧ s.producer.hand = [] ∧
      s.producer.failure = none ∧ s.producer ≠ .idle)
    (hBroken : s.ctx = none → s.canceled = false → ∀ failure, err = some failure →
      (∃ e tail, s.seen ++ e :: tail = x.stream.leaves ∧ e.1.length ≠ 32 ∧
        failure = storageKeyErr x.accountHash e.1) ∨
      (s.seen = x.stream.leaves ∧ x.iterationErr = some failure)) :
    StreamLeaves x { s with producer := .report err } where
  made := h.made
  whole hNone _ := by
    obtain ⟨hRest, -, hHand, hFailure, hStarted⟩ := hClean hNone
    have hAll := h.whole hFailure fun hIdle => absurd hIdle hStarted
    rw [hHand] at hAll
    exact hAll
  ended hOn := by
    rcases hOn with hOn | hOn
    · cases hOn
    · exact (hClean (Option.some.inj hOn)).1
  clean hOn := (hClean (Option.some.inj hOn)).2.1
  folded := h.folded
  success := h.success
  refused := h.refused
  broken hCtx hLive failure hErr := hBroken hCtx hLive failure hErr

/-- Behind its report the producer only closes channels. -/
theorem closing (h : StreamLeaves x s) {p : ProducerPc} {err : Option Err}
    {result : Option (Option Err)} (hOld : s.producer.outcome = some err)
    (hNew : p.outcome = some err) :
    StreamLeaves x { s with producer := p, result := result } := by
  have hHands : p.hand = s.producer.hand := by
    cases p <;> cases hNew <;> cases hPc : s.producer <;> rw [hPc] at hOld <;> cases hOld <;> rfl
  have hFailure : p.failure = s.producer.failure := by
    rw [ProducerPc.failure, ProducerPc.failure, hOld, hNew]
  have hStarted : s.producer ≠ .idle := fun hIdle => by rw [hIdle] at hOld; cases hOld
  exact {
    made := h.made
    whole := fun hNone _ => by
      have hAll := h.whole (hFailure.symm.trans hNone) fun hIdle => absurd hIdle hStarted
      rw [← hHands] at hAll
      exact hAll
    ended := fun hOn => by
      rcases hOn with hOn | hOn
      · rw [show p = .finish from hOn] at hNew
        cases hNew
      · exact h.ended (.inr (hOld.trans (hNew.symm.trans hOn)))
    clean := fun hOn => h.clean (hOld.trans (hNew.symm.trans hOn))
    folded := h.folded
    success := h.success
    refused := h.refused
    broken := fun hCtx hLive failure hErr =>
      h.broken hCtx hLive failure (hFailure.symm.trans hErr) }

/-- The context of the stream is done only if that of the traversal is, or the
consumer has left. -/
theorem reports_streamErr (h : StreamLeaves x s) {err : Err} (hErr : s.streamErr = some err) :
    StreamLeaves x { s with producer := .report (some err) } := by
  refine h.reports nofun ?_
  intro hCtx hLive
  simp [StreamState.streamErr, hCtx, hLive] at hErr

/-- Every move of the producer keeps the leaves in order. -/
theorem producer (h : StreamLeaves x s) (hMove : ProducerMove x s s') : StreamLeaves x s' := by
  cases hMove with
  | interrupted hPc hErr => exact h.reports_streamErr hErr
  | check hPc | leaf hPc =>
    exact h.produce (by simp [hPc]) (by rw [hPc]; rfl) rfl (by rw [hPc]; rfl) nofun
  | exhausted hPc hRest =>
    exact h.produce (by simp [hPc]) (by rw [hPc]; rfl) rfl (by rw [hPc]; rfl) fun _ => hRest
  | next hPc hRest =>
    refine h.produce (by simp [hPc]) (by rw [hPc]; rfl) rfl ?_ nofun
    simp [hPc, hRest, ProducerPc.hand]
  | @leafFails e hPc hErr hKey =>
    refine h.reports nofun ?_
    intro _ _ failure hFailure
    cases hFailure
    have hAll := h.whole (by rw [hPc]; rfl) fun hIdle => by rw [hPc] at hIdle; cases hIdle
    refine .inl ⟨e, s.rest, ?_, hKey, rfl⟩
    simpa [hPc, ProducerPc.hand] using hAll
  | send hPc =>
    refine h.produce (by simp [hPc]) (by rw [hPc]; rfl) rfl ?_ nofun
    simp [hPc, ProducerPc.hand]
  | @finishFails err hPc hErr =>
    refine h.reports nofun ?_
    intro _ _ failure hFailure
    cases hFailure
    have hAll := h.whole (by rw [hPc]; rfl) fun hIdle => by rw [hPc] at hIdle; cases hIdle
    rw [hPc, h.ended (.inl hPc)] at hAll
    exact .inr ⟨by simpa [ProducerPc.hand] using hAll, hErr⟩
  | finish hPc hErr =>
    cases hStream : s.streamErr with
    | some err => exact h.reports_streamErr hStream
    | none =>
      refine h.reports (fun _ => ?_) nofun
      rw [hPc]
      exact ⟨h.ended (.inl hPc), hErr, rfl, rfl, nofun⟩
  | report hPc | closeResult hPc | closeLeaves hPc => exact h.closing (by rw [hPc]; rfl) rfl

theorem step {a : StreamAction} (h : StreamLeaves x s) (hThreads : StreamThreads s)
    (hStep : (storageSystem x).step a s = some s') : StreamLeaves x s' := by
  obtain ⟨-, hMove⟩ | ⟨send, -, hMove⟩ | ⟨err, -, rfl⟩ := storageSystem_step_cases hStep
  · exact h.consumer hThreads hMove
  · exact h.producer hMove
  · have hDone : s.ctx.or (some err) ≠ none := by cases s.ctx <;> simp
    exact ⟨h.made, h.whole, h.ended, h.clean, h.folded, h.success, fun hCtx => absurd hCtx hDone,
      fun hCtx => absurd hCtx hDone⟩

end StreamLeaves

/-! ## The context -/

/-- The context is checked again before the function can return without an error.
In the loop over the channel the check that is left is that of the producer,
unless leaves are waiting. -/
def StreamState.looks (s : StreamState σ) : Bool :=
  match s.pc with
  | .check _ => true
  | .next _ => s.rest ≠ []
  | .call _ _ => true
  | .slot (.inline n) _ => n + 1 < storageTriePipelineThreshold ∨ s.rest ≠ []
  | .slot .streamed _ => s.channel ≠ [] ∨ s.producer.outcome ≠ some none
  | .ahead => s.rest ≠ []
  | .start _ => true
  | .receive => s.channel ≠ [] ∨ s.producer.outcome ≠ some none
  | .wait => s.producer.outcome ≠ some none
  | _ => false

/-- The function will return an error: the context is done, and it was not too
late for that. -/
structure StreamDoomed (s : StreamState σ) : Prop where
  ctx  : s.ctx ≠ none
  left : s.pc.failure = none → s.looks = true

namespace StreamDoomed

/-- Every move of the consumer keeps a failure on its way. -/
theorem consumer (h : StreamDoomed s) (hThreads : StreamThreads s) (hMove : ConsumerMove x s s') :
    StreamDoomed s' := by
  obtain ⟨hCtx, hLeft⟩ := h
  cases hMove with
  | checkFails | aheadFails | close | join => exact ⟨hCtx, nofun⟩
  | check hPc hNone | call hPc hNone => exact absurd hNone hCtx
  | exhausted hPc hRest =>
    rcases hPc with hPc | ⟨n, hPc⟩
    all_goals
      have hLooks := hLeft (by rw [hPc]; rfl)
      simp [StreamState.looks, hPc, hRest] at hLooks
  | next | ahead | start | receive => exact ⟨hCtx, fun _ => rfl⟩
  | callFails | slotFails => exact ⟨hCtx, fun hOn => absurd hOn (by simp)⟩
  | @slot place e acc hPc =>
    have hLooks := hLeft (by rw [hPc]; rfl)
    refine ⟨hCtx, fun _ => ?_⟩
    cases place with
    | inline n =>
      simp only [StreamState.looks, hPc, decide_eq_true_eq] at hLooks
      by_cases hMore : n + 1 < storageTriePipelineThreshold
      · simp [StreamState.looks, SlotPlace.next, hMore]
      · simpa [StreamState.looks, SlotPlace.next, hMore] using hLooks
    | streamed => simpa [StreamState.looks, SlotPlace.next, hPc] using hLooks
  | drained hPc hChannel =>
    have hLooks := hLeft (by rw [hPc]; rfl)
    simp only [StreamState.looks, hPc, hChannel, ne_eq, not_true, false_or] at hLooks
    exact ⟨hCtx, fun _ => hLooks⟩
  | @wait err hPc hResult =>
    have hLooks := hLeft (by rw [hPc]; rfl)
    simp only [StreamState.looks, hPc, (hThreads.sent err hResult).1, decide_eq_true_eq] at hLooks
    refine ⟨hCtx, fun hOn => ?_⟩
    rw [show err = none from hOn] at hLooks
    exact absurd rfl hLooks

/-- A producer that goes on with a done context fails. -/
theorem producer (h : StreamDoomed s) (hThreads : StreamThreads s) (hMove : ProducerMove x s s') :
    StreamDoomed s' := by
  have hStream : s.streamErr ≠ none := by
    rw [StreamState.streamErr]
    cases hCtx : s.ctx with
    | none => exact absurd hCtx h.ctx
    | some err => simp
  have hMoves : s.producer ≠ .idle ∧ s'.pc = s.pc ∧ s'.ctx = s.ctx ∧
      (s'.producer.outcome = some none → s.producer.outcome = some none) ∧
      (s'.channel = [] → s.channel = []) := by
    cases hMove with
    | interrupted hPc hErr =>
      refine ⟨?_, rfl, rfl, nofun, id⟩
      rcases hPc with hPc | ⟨e, hPc | hPc⟩ <;> simp [hPc]
    | check hPc hNone | leafFails hPc hNone | leaf hPc hNone => exact absurd hNone hStream
    | exhausted hPc | next hPc | finishFails hPc => exact ⟨by simp [hPc], rfl, rfl, nofun, id⟩
    | send hPc => exact ⟨by simp [hPc], rfl, rfl, nofun, fun hOn => absurd hOn (by simp)⟩
    | finish hPc =>
      exact ⟨by simp [hPc], rfl, rfl, fun hOn => absurd (Option.some.inj hOn) hStream, id⟩
    | report hPc | closeResult hPc | closeLeaves hPc =>
      exact ⟨by simp [hPc], rfl, rfl, fun hOn => by rw [hPc]; exact hOn, id⟩
  obtain ⟨hStarted, hPc, hCtx, hOut, hChannel⟩ := hMoves
  have hLate : s.pc.isEarly = false := by
    cases hEarly : s.pc.isEarly with
    | false => rfl
    | true => exact absurd (hThreads.early hEarly) hStarted
  refine ⟨hCtx ▸ h.ctx, fun hFailure => ?_⟩
  rw [hPc] at hFailure
  have hLooks := h.left hFailure
  -- the points before the start of the stream are out, so `rest` does not matter
  unfold StreamState.looks at hLooks ⊢
  rw [hPc]
  split at hLooks
  next hAt => rfl
  next hAt => rw [hAt] at hLate; cases hLate
  next hAt => rfl
  next hAt => rw [hAt] at hLate; cases hLate
  next hAt => simp only [decide_eq_true_eq] at hLooks ⊢; exact hLooks.imp (mt hChannel) (mt hOut)
  next hAt => rw [hAt] at hLate; cases hLate
  next hAt => rfl
  next hAt => simp only [decide_eq_true_eq] at hLooks ⊢; exact hLooks.imp (mt hChannel) (mt hOut)
  next hAt => simp only [decide_eq_true_eq] at hLooks ⊢; exact mt hOut hLooks
  next => cases hLooks

theorem step {a : StreamAction} (h : StreamDoomed s) (hThreads : StreamThreads s)
    (hStep : (storageSystem x).step a s = some s') : StreamDoomed s' := by
  obtain ⟨-, hMove⟩ | ⟨send, -, hMove⟩ | ⟨err, -, rfl⟩ := storageSystem_step_cases hStep
  · exact h.consumer hThreads hMove
  · exact h.producer hThreads hMove
  · have hDone : s.ctx.or (some err) ≠ none := by cases s.ctx <;> simp
    exact ⟨hDone, h.left⟩

end StreamDoomed

/-! ## Progress -/

/-- A bound for the moves that are left. -/
def StreamState.weight (s : StreamState σ) : Nat :=
  s.pc.weight + s.producer.weight + 10 * s.rest.length + 4 * s.channel.length

def StreamAction.isMove : StreamAction → Bool
  | .cancel _ => false
  | _ => true

theorem weight_failed_lt {place : SlotPlace} (err : Err)
    (hPc : pc = .call place e ∨ pc = .slot place e) : (place.failed err).weight < pc.weight := by
  rcases hPc with rfl | rfl <;> cases place <;> simp [SlotPlace.failed, ConsumerPc.weight]

/-- A move of the consumer leaves less to do. -/
theorem weight_consumer (hThreads : StreamThreads s) (hMove : ConsumerMove x s s') :
    s'.weight < s.weight := by
  cases hMove with
  | checkFails hPc | check hPc | drained hPc | wait hPc | close hPc | join hPc =>
    simp [StreamState.weight, hPc, ConsumerPc.weight]
  | exhausted hPc =>
    rcases hPc with hPc | ⟨n, hPc⟩ <;> simp [StreamState.weight, hPc, ConsumerPc.weight]
  | next hPc hRest | aheadFails hPc hRest | ahead hPc hRest =>
    simp only [StreamState.weight, hPc, hRest, ConsumerPc.weight, List.length_cons]
    omega
  | @callFails place e err hPc =>
    have := weight_failed_lt err (.inl hPc)
    simp only [StreamState.weight]
    omega
  | @call place e hPc =>
    have hLess : (ConsumerPc.slot place e).weight < (ConsumerPc.call place e).weight := by
      cases place <;> exact Nat.lt_succ_self _
    rw [← hPc] at hLess
    simp only [StreamState.weight]
    omega
  | @slotFails place e err hPc =>
    have := weight_failed_lt err (.inr hPc)
    simp only [StreamState.weight]
    omega
  | @slot place e acc hPc =>
    have hLess : place.next.weight < (ConsumerPc.slot place e).weight := by
      rcases place.next_cases with ⟨n, m, rfl, hNext⟩ | ⟨n, rfl, hNext⟩ | ⟨rfl, hNext⟩ <;>
          rw [hNext] <;>
        simp [ConsumerPc.weight]
    rw [← hPc] at hLess
    simp only [StreamState.weight]
    omega
  | start hPc =>
    have hIdle := hThreads.early (by rw [hPc]; rfl)
    simp only [StreamState.weight, hPc, hIdle, ConsumerPc.weight, ProducerPc.weight]
    omega
  | receive hPc hChannel =>
    simp only [StreamState.weight, hPc, hChannel, ConsumerPc.weight, List.length_cons]
    omega

theorem weight_producer (hMove : ProducerMove x s s') : s'.weight < s.weight := by
  cases hMove with
  | interrupted hPc =>
    rcases hPc with hPc | ⟨e, hPc | hPc⟩ <;> simp [StreamState.weight, hPc, ProducerPc.weight]
  | next hPc hRest =>
    simp only [StreamState.weight, hPc, hRest, ProducerPc.weight, List.length_cons]
    omega
  | send hPc =>
    simp only [StreamState.weight, hPc, ProducerPc.weight, List.length_append,
      List.length_singleton]
    omega
  | check hPc | exhausted hPc | leafFails hPc | leaf hPc | finishFails hPc | finish hPc | report hPc
  | closeResult hPc | closeLeaves hPc =>
    simp [StreamState.weight, hPc, ProducerPc.weight]

theorem weight_step {a : StreamAction} (hThreads : StreamThreads s)
    (hStep : (storageSystem x).step a s = some s') :
    if a.isMove then s'.weight < s.weight else s'.weight = s.weight := by
  obtain ⟨rfl, hMove⟩ | ⟨send, rfl, hMove⟩ | ⟨err, rfl, rfl⟩ := storageSystem_step_cases hStep
  · exact weight_consumer hThreads hMove
  · exact weight_producer hMove
  · rfl

/-- A producer that runs can move, unless it waits for room in the channel of a
consumer that has not left. -/
theorem producer_moves (hRuns : s.producer.isOver = false) :
    (∃ send s', producerStep x send s = some s') ∨
      ∃ e, s.producer = .send e ∧ s.channel.length ≥ storageTrieReadAhead ∧ s.streamErr = none := by
  cases hPc : s.producer with
  | idle | done => rw [hPc] at hRuns; cases hRuns
  | check => cases hErr : s.streamErr <;> exact .inl ⟨true, by simp [producerStep, hPc, hErr]⟩
  | next => cases hRest : s.rest <;> exact .inl ⟨true, by simp [producerStep, hPc, hRest]⟩
  | leaf e =>
    by_cases hKey : e.1.length = 32 <;> cases hErr : s.streamErr <;>
      exact .inl ⟨true, by simp [producerStep, hPc, hErr, hKey]⟩
  | send e =>
    by_cases hRoom : s.channel.length < storageTrieReadAhead
    · exact .inl ⟨true, by simp [producerStep, hPc, hRoom]⟩
    · cases hErr : s.streamErr with
      | none => exact .inr ⟨e, rfl, by omega, rfl⟩
      | some err => exact .inl ⟨false, by simp [producerStep, hPc, hErr]⟩
  | finish => cases hErr : x.iterationErr <;> exact .inl ⟨true, by simp [producerStep, hPc, hErr]⟩
  | report | closeResult | closeLeaves => exact .inl ⟨true, by simp [producerStep, hPc]⟩

/-- The consumer can move, unless it waits for the producer or has returned. -/
theorem consumer_moves :
    (∃ s', consumerStep x s = some s') ∨
      (s.pc = .receive ∧ s.channel = [] ∧ ∀ err, s.producer ≠ .done err) ∨
      ((s.pc = .wait ∨ ∃ err, s.pc = .join err) ∧ s.result = none) ∨ s.pc.isReturned = true := by
  cases hPc : s.pc with
  | check n => cases hCtx : s.ctx <;> exact .inl (by simp [consumerStep, hPc, hCtx])
  | next n => cases hRest : s.rest <;> exact .inl (by simp [consumerStep, hPc, hRest])
  | call place e => cases hCtx : s.ctx <;> exact .inl (by simp [consumerStep, hPc, hCtx])
  | slot place e => cases hSlot : x.slot s.acc e <;> exact .inl (by simp [consumerStep, hPc, hSlot])
  | ahead =>
    cases hRest : s.rest with
    | nil => exact .inl (by simp [consumerStep, hPc, hRest])
    | cons e rest =>
      by_cases hKey : e.1.length = 32 <;> exact .inl (by simp [consumerStep, hPc, hRest, hKey])
  | start e => exact .inl (by simp [consumerStep, hPc])
  | receive =>
    cases hChannel : s.channel with
    | cons e channel => exact .inl (by simp [consumerStep, hPc, hChannel])
    | nil =>
      by_cases hDone : ∃ err, s.producer = .done err
      · obtain ⟨err, hDone⟩ := hDone
        exact .inl (by simp [consumerStep, hPc, hChannel, hDone])
      · exact .inr (.inl ⟨rfl, rfl, fun err hOn => hDone ⟨err, hOn⟩⟩)
  | wait =>
    cases hResult : s.result with
    | some err => exact .inl (by simp [consumerStep, hPc, hResult])
    | none => exact .inr (.inr (.inl ⟨.inl rfl, rfl⟩))
  | close err => exact .inl (by simp [consumerStep, hPc])
  | join err =>
    cases hResult : s.result with
    | some r => exact .inl (by simp [consumerStep, hPc, hResult])
    | none => exact .inr (.inr (.inl ⟨.inr ⟨err, rfl⟩, rfl⟩))
  | returned err => exact .inr (.inr (.inr rfl))

/-- **Some thread can move** until the function has returned and the goroutine has
ended. -/
theorem exists_move (hThreads : StreamThreads s)
    (hOpen : ¬ (s.pc.isReturned = true ∧ s.producer.isOver = true)) :
    ∃ a s', a.isMove = true ∧ (storageSystem x).step a s = some s' := by
  rcases consumer_moves (x := x) (s := s) with ⟨s', hStep⟩ | hWaits
  · exact ⟨.consume, s', rfl, hStep⟩
  -- the consumer waits or has returned, so it is the producer's turn
  have hTurn : s.producer.isOver = false ∧
      ¬ ∃ e, s.producer = .send e ∧ s.channel.length ≥ storageTrieReadAhead ∧
        s.streamErr = none := by
    rcases hWaits with ⟨hPc, hChannel, hDone⟩ | ⟨hPc, hResult⟩ | hReturned
    · refine ⟨?_, ?_⟩
      · have hStarted : s.producer ≠ .idle := fun hIdle => by
          have hSide := (hThreads.idle hIdle).2
          simp [hPc, ConsumerPc.isEarly, ConsumerPc.isReturned] at hSide
        cases hAt : s.producer with
        | idle => exact absurd hAt hStarted
        | done err => exact absurd hAt (hDone err)
        | _ => rfl
      · rintro ⟨e, -, hFull, -⟩
        rw [hChannel] at hFull
        exact absurd hFull (by decide)
    · have hUnreturned : s.pc.isReturned = false ∧ s.pc.isEarly = false := by
        rcases hPc with hPc | ⟨err, hPc⟩ <;> rw [hPc] <;> exact ⟨rfl, rfl⟩
      have hReports : s.producer.isReported = false := by
        cases hAt : s.producer.isReported with
        | false => rfl
        | true =>
          have hSame := hThreads.reported hAt hUnreturned.1
          rw [hResult] at hSame
          cases hPc' : s.producer <;>
            simp [hPc', ProducerPc.isReported, ProducerPc.outcome] at hAt hSame
      refine ⟨?_, ?_⟩
      · cases hAt : s.producer with
        | idle =>
          have hSide := (hThreads.idle hAt).2
          simp [hUnreturned.1, hUnreturned.2] at hSide
        | done err => rw [hAt] at hReports; cases hReports
        | _ => rfl
      · rintro ⟨e, hAt, -, hErr⟩
        rcases hPc with hPc | ⟨err, hPc⟩
        · obtain ⟨-, r, hDone⟩ := hThreads.drained hPc
          cases hAt.symm.trans hDone
        · -- the consumer has canceled the context of the stream
          have hCanceled := hThreads.canceled err hPc
          rw [StreamState.streamErr, hCanceled] at hErr
          cases hCtx : s.ctx <;> rw [hCtx] at hErr <;> cases hErr
    · refine ⟨?_, ?_⟩
      · cases hAt : s.producer.isOver with
        | false => rfl
        | true => exact absurd ⟨hReturned, hAt⟩ hOpen
      · rintro ⟨e, hAt, -, -⟩
        rcases hThreads.joined hReturned with hIdle | hDone
        · cases hAt.symm.trans hIdle
        · rw [hAt] at hDone
          cases hDone
  obtain ⟨hRuns, hRoom⟩ := hTurn
  obtain ⟨send, s', hStep⟩ := (producer_moves (x := x) hRuns).resolve_right hRoom
  exact ⟨.produce send, s', rfl, hStep⟩

end Moves

/-! ## Every run -/

section Runs

variable {σ : Type} {x : StreamInputs σ} {s s' m : StreamState σ}

structure StreamInv (x : StreamInputs σ) (s : StreamState σ) : Prop where
  threads : StreamThreads s
  leaves  : StreamLeaves x s

namespace StreamInv

theorem init (x : StreamInputs σ) : StreamInv x (.init x) := ⟨.init x, .init x⟩

theorem step (a : StreamAction) (s s' : StreamState σ) (h : StreamInv x s)
    (hStep : (storageSystem x).step a s = some s') : StreamInv x s' :=
  ⟨h.threads.step hStep, h.leaves.step h.threads hStep⟩

theorem of_run {actions : List StreamAction}
    (hRun : (storageSystem x).run actions (.init x) = some s) :
    StreamInv x s :=
  System.run_invariant step (init x) hRun

/-- A function that has returned has stopped its producer. -/
theorem isStopped (h : StreamInv x s) (hReturned : s.pc.isReturned = true) :
    s.producer.isStopped = true := by
  unfold ProducerPc.isStopped
  rcases h.threads.joined hReturned with hIdle | hDone
  · simp [hIdle]
  · cases hPc : s.producer <;> simp_all [ProducerPc.isReported, ProducerPc.outcome]

/-- A success is that of the serial loop. -/
theorem serial_of_returned (h : StreamInv x s) (hPc : s.pc = .returned none) :
    s.calls = x.stream.leaves ∧ x.iterationErr = none ∧ x.serial = .ok s.acc := by
  obtain ⟨hCalls, hErr⟩ := h.leaves.success hPc
  have hFolded : x.stream.leaves.foldlM x.slot x.start = .ok s.acc :=
    hCalls ▸ h.leaves.folded_calls hPc rfl rfl
  refine ⟨hCalls, hErr, ?_⟩
  rw [StreamInputs.serial_of_folded hFolded, hErr]

/-- The context ends while the function still looks at it: it returns an error. -/
theorem returned_of_cancel (h : StreamInv x m) (hLooks : m.looks = true) {err : Err}
    {after : List StreamAction} (hRun : (storageSystem x).run (.cancel err :: after) m = some s)
    {r : Option Err} (hPc : s.pc = .returned r) : r ≠ none := by
  obtain ⟨c, hStep, hRun⟩ := System.run_cons_eq_some.mp hRun
  have hCancel : StreamInv x c := step _ _ _ h hStep
  have hDoomed : StreamDoomed c := by
    cases hStep
    refine ⟨?_, fun _ => hLooks⟩
    show m.ctx.or (some err) ≠ none
    cases m.ctx <;> simp
  have hKeep : ∀ a s s', StreamInv x s ∧ StreamDoomed s → (storageSystem x).step a s = some s' →
      StreamInv x s' ∧ StreamDoomed s' :=
    fun a s s' hBoth hStep => ⟨step a s s' hBoth.1 hStep, hBoth.2.step hBoth.1.threads hStep⟩
  obtain ⟨-, hEnd⟩ := System.run_invariant hKeep ⟨hCancel, hDoomed⟩ hRun
  rintro rfl
  have hLeft := hEnd.left (by rw [hPc]; rfl)
  simp [StreamState.looks, hPc] at hLeft

/-- Every schedule has a bounded number of moves. -/
theorem moves_le {actions : List StreamAction}
    (hRun : (storageSystem x).run actions (.init x) = some s) :
    actions.countP StreamAction.isMove + s.weight ≤ (StreamState.init x).weight := by
  refine System.run_measure step ?_ ?_ (init x) hRun
  · intro a s s' h hMove hStep
    have hLess := weight_step h.threads hStep
    rwa [if_pos hMove] at hLess
  · intro a s s' h hMove hStep
    have hSame := weight_step h.threads hStep
    rw [if_neg (by rw [hMove]; decide)] at hSame
    exact hSame.le

end StreamInv

end Runs

/-! ## The stream of a traversal -/

section Traverser

variable {σ : Type}

theorem processStorageSlot_key (t : Traversal σ) (accountHash : Hash)
    (st : History × TraverserState σ) (e : Bytes × Bytes) (hKey : e.1.length ≠ 32) :
    t.processStorageSlot accountHash st e = .error (storageKeyErr accountHash e.1) := by
  obtain ⟨key, value⟩ := e
  have hRefused : require (key.length = 32) (storageKeyErr accountHash key) =
      .error (storageKeyErr accountHash key) := if_neg hKey
  show (require (key.length = 32) (storageKeyErr accountHash key) >>= _) = _
  rw [hRefused]
  rfl

/-- The call of `consumeStorage` in a traversal. -/
def Traversal.storageInputs (t : Traversal σ) (accountHash : Hash) (stream : LeafStream)
    (st : History × TraverserState σ) : StreamInputs (History × TraverserState σ) where
  accountHash := accountHash
  stream := stream
  slot := t.processStorageSlot accountHash
  start := st
  checksKey := processStorageSlot_key t accountHash

/-- The serial model of `consumeStorage`, with its inline part and its check of the
first key behind it, is one loop: errors included. -/
theorem Traversal.consumeStorage_eq_serial (t : Traversal σ) (accountHash : Hash)
    (stream : LeafStream) (st : History × TraverserState σ) :
    t.consumeStorage accountHash stream st = (t.storageInputs accountHash stream st).serial := by
  have hEnd : ∀ acc, (do Traversal.iteratorErr accountHash stream; return acc) =
      (match (t.storageInputs accountHash stream st).iterationErr with
        | some err => .error err
        | none => .ok acc : Except Err (History × TraverserState σ)) := by
    intro acc
    simp only [Traversal.iteratorErr, StreamInputs.iterationErr, Traversal.storageInputs]
    cases stream.err <;> rfl
  have hSerial : (t.storageInputs accountHash stream st).serial =
      ((stream.leaves.take storageTriePipelineThreshold).foldlM (t.processStorageSlot accountHash)
        st >>= fun acc => (stream.leaves.drop storageTriePipelineThreshold).foldlM
          (t.processStorageSlot accountHash) acc >>= fun acc => do
            Traversal.iteratorErr accountHash stream
            return acc) := by
    rw [StreamInputs.serial]
    simp only [← hEnd]
    rw [← bind_assoc, ← List.foldlM_append, List.take_append_drop]
    rfl
  rw [hSerial, Traversal.consumeStorage, Traversal.consumeStoragePrefix]
  cases hTake : (stream.leaves.take storageTriePipelineThreshold).foldlM
      (t.processStorageSlot accountHash) st with
  | error err => rfl
  | ok acc =>
    cases hDrop : stream.leaves.drop storageTriePipelineThreshold with
    | nil =>
      show ((Traversal.iteratorErr accountHash stream >>= fun _ => .ok (acc, none)) >>= _) =
        (Traversal.iteratorErr accountHash stream >>= fun _ => .ok acc)
      cases Traversal.iteratorErr accountHash stream <;> rfl
    | cons first rest =>
      by_cases hKey : first.1.length = 32
      · show ((require (first.1.length = 32) (storageKeyErr accountHash first.1) >>= fun _ =>
          .ok (acc, some (first, rest))) >>= _) = _
        rw [require_true hKey]
        show (t.processStorageSlot accountHash acc first >>= _) =
            ((first :: rest).foldlM _ acc >>= _)
        rw [List.foldlM_cons, bind_assoc]
      · -- the check ahead of the stream refuses what the slot would refuse
        have hRefused : require (first.1.length = 32) (storageKeyErr accountHash first.1) =
            .error (storageKeyErr accountHash first.1) := if_neg hKey
        show ((require (first.1.length = 32) (storageKeyErr accountHash first.1) >>= fun _ =>
          .ok (acc, some (first, rest))) >>= _) = ((first :: rest).foldlM _ acc >>= _)
        rw [hRefused, List.foldlM_cons, processStorageSlot_key t accountHash acc first hKey]
        rfl

/-- **Every leaf once and in order.** Under every schedule of the two threads and
every end of the context, the calls of `processStorageSlot` are an initial part of
the leaves. A success has handled all of them, behind an iterator without an error,
and is the result of the serial loop; an error of an undisturbed run is the error of
the serial loop. When the function has returned, `produceStorageTrie` has returned.
A context that is done while a check of it is left makes the function return an
error. Until the function has returned and the goroutine has ended, one of them can
move, and every schedule has a bounded number of moves. -/
theorem storage_leaves_once (t : Traversal σ) (accountHash : Hash) (stream : LeafStream)
    (st : History × TraverserState σ) (actions : List StreamAction)
    (s : StreamState (History × TraverserState σ))
    (hRun : (storageSystem (t.storageInputs accountHash stream st)).run actions
      (.init (t.storageInputs accountHash stream st)) = some s) :
    s.calls <+: stream.leaves ∧
      (∀ r, s.pc = .returned r →
        s.producer.isStopped = true ∧
        (r = none → s.calls = stream.leaves ∧ stream.err = none ∧
          t.consumeStorage accountHash stream st = .ok s.acc) ∧
        (s.ctx = none → ∀ err, r = some err →
          t.consumeStorage accountHash stream st = .error err) ∧
        ∀ before err after m, actions = before ++ .cancel err :: after →
          (storageSystem (t.storageInputs accountHash stream st)).run before
            (.init (t.storageInputs accountHash stream st)) = some m →
          m.looks = true → r ≠ none) ∧
      (¬ (s.pc.isReturned = true ∧ s.producer.isOver = true) → ∃ a s', a.isMove = true ∧
        (storageSystem (t.storageInputs accountHash stream st)).step a s = some s') ∧
      actions.countP StreamAction.isMove + s.weight ≤
        (StreamState.init (t.storageInputs accountHash stream st)).weight := by
  have hInv := StreamInv.of_run hRun
  refine ⟨?_, ?_, exists_move hInv.threads, StreamInv.moves_le hRun⟩
  · have hMade := hInv.leaves.made
    rw [StreamState.seen, List.append_assoc] at hMade
    exact (List.prefix_append _ _).trans hMade
  · intro r hPc
    rw [Traversal.consumeStorage_eq_serial]
    refine ⟨hInv.isStopped (by rw [hPc]; rfl), ?_, ?_, ?_⟩
    · rintro rfl
      obtain ⟨hCalls, hErr, hSerial⟩ := hInv.serial_of_returned hPc
      exact ⟨hCalls, Option.map_eq_none_iff.mp hErr, hSerial⟩
    · rintro hCtx err rfl
      exact hInv.leaves.refused hCtx err (by rw [hPc]; rfl)
    · intro before err after m hActions hBefore hLooks
      rw [hActions] at hRun
      obtain ⟨m', hSame, hAfter⟩ := System.run_append_eq_some.mp hRun
      obtain rfl : m = m' := Option.some.inj (hBefore.symm.trans hSame)
      exact (StreamInv.of_run hBefore).returned_of_cancel hLooks hAfter hPc

/-- Two leaves more than are handled inline. -/
def sampleStreamLeaves : LeafStream where
  leaves := (List.range 66).map fun n => (toBE 32 n, [0x07])
  nodes := []
  err := none

def sampleStorageTraversal : Traversal Unit where
  geth := referenceGeth fun _ => zeroHash
  source := ⟨fun _ _ => .error contextCanceled, fun _ => .error contextCanceled⟩
  root := zeroHash
  visitor := .nil
  trieNodes := .nil

def sampleStreamInputs : StreamInputs (History × TraverserState Unit) :=
  sampleStorageTraversal.storageInputs zeroHash sampleStreamLeaves ([], .init ())

/-- The producer reads ahead before the first slot of the stream is handled. -/
def sampleStreamSchedule : List StreamAction :=
  List.replicate (4 * 64 + 2) .consume ++ List.replicate 10 (.produce true) ++
    List.replicate 7 .consume

/-- The end of a run with success: the calls and the counted slots. -/
def StreamState.summary (s : StreamState (History × TraverserState Unit)) : Option (Nat × Nat) :=
  match s.pc with
  | .returned none => some (s.calls.length, s.acc.1.length)
  | _ => none

theorem StreamState.pc_of_summary {s : StreamState (History × TraverserState Unit)} {p : Nat × Nat}
    (h : s.summary = some p) : s.pc = .returned none := by
  unfold StreamState.summary at h
  split at h
  next hPc => exact hPc
  next => cases h

theorem storage_leaves_sample :
    ∃ s, (storageSystem sampleStreamInputs).run sampleStreamSchedule (.init sampleStreamInputs) =
      some s ∧
      s.pc = .returned none ∧ s.calls = sampleStreamLeaves.leaves ∧
      sampleStorageTraversal.consumeStorage zeroHash sampleStreamLeaves ([], .init ()) =
        .ok s.acc := by
  have hEnds :
      ((storageSystem sampleStreamInputs).run sampleStreamSchedule (.init sampleStreamInputs)).bind
        StreamState.summary = some (66, 66) := by decide +kernel
  obtain ⟨s, hRun, hSummary⟩ := Option.bind_eq_some_iff.mp hEnds
  have hPc := StreamState.pc_of_summary hSummary
  have hOnce := storage_leaves_once sampleStorageTraversal zeroHash sampleStreamLeaves
    ([], .init ()) sampleStreamSchedule s hRun
  obtain ⟨hCalls, -, hSerial⟩ := (hOnce.2.1 none hPc).2.1 rfl
  exact ⟨s, hRun, hPc, hCalls, hSerial⟩

end Traverser

end L2State
