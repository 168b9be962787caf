import L2State.Lib.System
import L2State.State.TraverserSpec

/-!
# L2State — the storage of an account through the read-ahead stream

`consumeStorage` of `state_trie.go` with its two threads. The first slots are
handled inline; behind them the iterator is handed to a goroutine that reads
ahead into a bounded channel (`newTrieLeafStream` and `produceStorageTrie` of
`state_stream.go`) while the caller goes on with `processStorageSlot`. The
scheduler picks the thread that moves, the branch of a `select` that is ready
twice, and the moment at which the context of the traversal is done.

* `storageSystem` — the two threads, the channels and the contexts.
* `ConsumerMove`, `ProducerMove` — what a move can do.
* `StreamThreads` — **which thread holds what**: the producer runs from the start
  of the stream on, and its outcome waits until the consumer takes it.
-/

namespace L2State

open Lib

/-! ## The two threads -/

/-- `storageTrieReadAhead`. -/
def storageTrieReadAhead : Nat := 64

/-- The refusal of a storage key that is not a hash. -/
def storageKeyErr (accountHash : Hash) (key : Bytes) : Err :=
  .msg "account %s storage key has length %d" [.hash accountHash, .num key.length]

/-- What one call of `consumeStorage` works on: the iterator, and what
`processStorageSlot` does behind its check of the context. -/
structure StreamInputs (σ : Type) where
  accountHash : Hash
  stream      : LeafStream
  slot        : σ → Bytes × Bytes → Except Err σ
  start       : σ
  checksKey   : ∀ acc e, e.1.length ≠ 32 → slot acc e = .error (storageKeyErr accountHash e.1)

/-- `storage.Err` as both threads report it. -/
def StreamInputs.iterationErr {σ : Type} (x : StreamInputs σ) : Option Err :=
  x.stream.err.map (.wrap "iterate storage trie for account %s: %w" [.hash x.accountHash])

/-- Where a call of `processStorageSlot` stands: in round `n` of
`consumeStoragePrefix`, or behind the start of the stream. -/
inductive SlotPlace
  | inline (n : Nat)
  | streamed
deriving DecidableEq

/-- The points of `consumeStorage`. -/
inductive ConsumerPc
  /-- The context is checked at the start of an inline round. -/
  | check (n : Nat)
  /-- `storage.Next` of an inline round. -/
  | next (n : Nat)
  /-- `processStorageSlot` is called. -/
  | call (place : SlotPlace) (leaf : Bytes × Bytes)
  /-- `processStorageSlot` has checked the context. -/
  | slot (place : SlotPlace) (leaf : Bytes × Bytes)
  /-- `storage.Next` behind the inline rounds. -/
  | ahead
  /-- `newStorageTrieStream`; `leaf` is `first`. -/
  | start (leaf : Bytes × Bytes)
  /-- The loop over `stream.leaves`. -/
  | receive
  /-- `stream.wait` behind the loop. -/
  | wait
  /-- `stream.close` on the way out with `err`, before and after its `cancel`. -/
  | close (err : Err)
  | join (err : Err)
  | returned (err : Option Err)
deriving DecidableEq

/-- The points of the goroutine of `newTrieLeafStream`. -/
inductive ProducerPc
  /-- The goroutine is not started. -/
  | idle
  | check
  | next
  /-- A leaf was read; the context and the key are checked. -/
  | leaf (leaf : Bytes × Bytes)
  /-- The `select` that hands the leaf over. -/
  | send (leaf : Bytes × Bytes)
  /-- The iterator has no more leaves. -/
  | finish
  /-- `produceStorageTrie` has returned `err`; it goes to `result`, then both
  channels are closed. -/
  | report (err : Option Err)
  | closeResult (err : Option Err)
  | closeLeaves (err : Option Err)
  | done (err : Option Err)
deriving DecidableEq

namespace SlotPlace

/-- The way out of a failed call. -/
def failed : SlotPlace → Err → ConsumerPc
  | .inline _, err => .returned (some err)
  | .streamed, err => .close err

/-- The point behind a call. -/
def next : SlotPlace → ConsumerPc
  | .inline n => if n + 1 < storageTriePipelineThreshold then .check (n + 1) else .ahead
  | .streamed => .receive

end SlotPlace

/-- Both threads and what they share. `calls` is the history of the calls of
`processStorageSlot`. -/
structure StreamState (σ : Type) where
  pc       : ConsumerPc
  producer : ProducerPc
  rest     : History
  channel  : History
  result   : Option (Option Err)
  ctx      : Option Err
  canceled : Bool
  acc      : σ
  calls    : History

namespace StreamState

variable {σ : Type}

def init (x : StreamInputs σ) : StreamState σ where
  pc := .check 0
  producer := .idle
  rest := x.stream.leaves
  channel := []
  result := none
  ctx := none
  canceled := false
  acc := x.start
  calls := []

/-- `streamCtx.Err()`: the context of the stream is a child of that of the
traversal. -/
def streamErr (s : StreamState σ) : Option Err :=
  s.ctx.or (if s.canceled then some contextCanceled else none)

end StreamState

/-- What the scheduler picks. -/
inductive StreamAction
  | consume
  /-- The producer moves; `send` is the branch its `select` takes. -/
  | produce (send : Bool)
  /-- The context of the traversal is done. -/
  | cancel (err : Err)
deriving DecidableEq

section Steps

variable {σ : Type} (x : StreamInputs σ)

def consumerStep (s : StreamState σ) : Option (StreamState σ) :=
  match s.pc with
  | .check n =>
    match s.ctx with
    | some err => some { s with pc := .returned (some err) }
    | none => some { s with pc := .next n }
  | .next n =>
    match s.rest with
    | [] => some { s with pc := .returned x.iterationErr }
    | e :: rest => some { s with rest := rest, pc := .call (.inline n) e }
  | .call place e =>
    match s.ctx with
    | some err => some { s with calls := s.calls ++ [e], pc := place.failed err }
    | none => some { s with calls := s.calls ++ [e], pc := .slot place e }
  | .slot place e =>
    match x.slot s.acc e with
    | .error err => some { s with pc := place.failed err }
    | .ok acc => some { s with acc := acc, pc := place.next }
  | .ahead =>
    match s.rest with
    | [] => some { s with pc := .returned x.iterationErr }
    | e :: rest =>
      if e.1.length = 32 then some { s with rest := rest, pc := .start e }
      else some { s with rest := rest, pc := .returned (some (storageKeyErr x.accountHash e.1)) }
  | .start e => some { s with producer := .check, pc := .call .streamed e }
  | .receive =>
    match s.channel, s.producer with
    | e :: channel, _ => some { s with channel := channel, pc := .call .streamed e }
    -- the loop ends with the closed channel
    | [], .done _ => some { s with pc := .wait }
    | [], _ => none
  | .wait =>
    match s.result with
    | some err => some { s with result := none, canceled := true, pc := .returned err }
    | none => none
  | .close err => some { s with canceled := true, pc := .join err }
  | .join err =>
    match s.result with
    | some _ => some { s with result := none, pc := .returned (some err) }
    | none => none
  | .returned _ => none

def producerStep (send : Bool) (s : StreamState σ) : Option (StreamState σ) :=
  match s.producer with
  | .idle => none
  | .check =>
    match s.streamErr with
    | some err => some { s with producer := .report (some err) }
    | none => some { s with producer := .next }
  | .next =>
    match s.rest with
    | [] => some { s with producer := .finish }
    | e :: rest => some { s with rest := rest, producer := .leaf e }
  | .leaf e =>
    match s.streamErr with
    | some err => some { s with producer := .report (some err) }
    | none =>
      if e.1.length = 32 then some { s with producer := .send e }
      else some { s with producer := .report (some (storageKeyErr x.accountHash e.1)) }
  | .send e =>
    match send, s.streamErr with
    | true, _ =>
      if s.channel.length < storageTrieReadAhead then
        some { s with channel := s.channel ++ [e], producer := .check }
      else none
    | false, some err => some { s with producer := .report (some err) }
    | false, none => none
  | .finish =>
    match x.iterationErr with
    | some err => some { s with producer := .report (some err) }
    | none => some { s with producer := .report s.streamErr }
  -- `result` has room for the only value that is sent to it
  | .report err => some { s with result := some err, producer := .closeResult err }
  | .closeResult err => some { s with producer := .closeLeaves err }
  | .closeLeaves err => some { s with producer := .done err }
  | .done _ => none

def storageSystem : System (StreamState σ) StreamAction where
  step
    | .consume, s => consumerStep x s
    | .produce send, s => producerStep x send s
    | .cancel err, s => some { s with ctx := s.ctx.or (some err) }

end Steps

/-! ## Where the threads are -/

namespace ConsumerPc

/-- The leaf that the consumer holds and has not handled. -/
def hand : ConsumerPc → History
  | .call _ e => [e]
  | .start e => [e]
  | _ => []

/-- The leaf of the call that is under way. -/
def underway : ConsumerPc → History
  | .slot _ e => [e]
  | _ => []

/-- The error that the consumer leaves with. -/
def failure : ConsumerPc → Option Err
  | .close err => some err
  | .join err => some err
  | .returned err => err
  | _ => none

/-- The stream is not started, and the function has not returned. -/
def isEarly : ConsumerPc → Bool
  | .check _ => true
  | .next _ => true
  | .call (.inline _) _ => true
  | .slot (.inline _) _ => true
  | .ahead => true
  | .start _ => true
  | _ => false

def isReturned : ConsumerPc → Bool
  | .returned _ => true
  | _ => false

/-- The moves that the point is away from the end, with those of a leaf counted
where the leaf is. -/
def weight : ConsumerPc → Nat
  | .check _ => 6
  | .next _ => 5
  | .call (.inline _) _ => 13
  | .slot (.inline _) _ => 12
  | .ahead => 5
  | .start _ => 13
  | .call .streamed _ => 6
  | .slot .streamed _ => 5
  | .receive => 3
  | .wait => 2
  | .close _ => 2
  | .join _ => 1
  | .returned _ => 0

end ConsumerPc

namespace ProducerPc

/-- The leaf that the producer holds. -/
def hand : ProducerPc → History
  | .leaf e => [e]
  | .send e => [e]
  | _ => []

/-- What `produceStorageTrie` has returned. -/
def outcome : ProducerPc → Option (Option Err)
  | .report err => some err
  | .closeResult err => some err
  | .closeLeaves err => some err
  | .done err => some err
  | _ => none

/-- The outcome stands in `result`, or was taken from it. -/
def isReported : ProducerPc → Bool
  | .closeResult _ => true
  | .closeLeaves _ => true
  | .done _ => true
  | _ => false

/-- The goroutine is not started or has ended. -/
def isOver : ProducerPc → Bool
  | .idle => true
  | .done _ => true
  | _ => false

/-- The producer touches neither the iterator nor the channel of the leaves
again, except to close it. -/
def isStopped (p : ProducerPc) : Bool := p = .idle ∨ p.outcome.isSome = true

def weight : ProducerPc → Nat
  | .idle => 0
  | .check => 6
  | .next => 5
  | .leaf _ => 14
  | .send _ => 13
  | .finish => 4
  | .report _ => 3
  | .closeResult _ => 2
  | .closeLeaves _ => 1
  | .done _ => 0

end ProducerPc

namespace SlotPlace

@[simp] theorem failure_failed (place : SlotPlace) (err : Err) :
    (place.failed err).failure = some err := by
  cases place <;> rfl

@[simp] theorem hand_failed (place : SlotPlace) (err : Err) : (place.failed err).hand = [] := by
  cases place <;> rfl

theorem next_cases (place : SlotPlace) :
    (∃ n m, place = .inline n ∧ place.next = .check m) ∨
    (∃ n, place = .inline n ∧ place.next = .ahead) ∨
      (place = .streamed ∧ place.next = .receive) := by
  cases place with
  | inline n =>
    by_cases hMore : n + 1 < storageTriePipelineThreshold
    · exact .inl ⟨n, n + 1, rfl, if_pos hMore⟩
    · exact .inr (.inl ⟨n, rfl, if_neg hMore⟩)
  | streamed => exact .inr (.inr ⟨rfl, rfl⟩)

end SlotPlace

/-! ## What a move can do -/

section Moves

variable {σ : Type} {x : StreamInputs σ} {s s' : StreamState σ}

/-- **The moves of the consumer.** -/
inductive ConsumerMove (x : StreamInputs σ) (s : StreamState σ) : StreamState σ → Prop
  | checkFails {n : Nat} {err : Err} (hPc : s.pc = .check n) (hCtx : s.ctx = some err) :
    ConsumerMove x s { s with pc := .returned (some err) }
  | check {n : Nat} (hPc : s.pc = .check n) (hCtx : s.ctx = none) :
    ConsumerMove x s { s with pc := .next n }
  | exhausted (hPc : s.pc = .ahead ∨ ∃ n, s.pc = .next n) (hRest : s.rest = []) :
    ConsumerMove x s { s with pc := .returned x.iterationErr }
  | next {n : Nat} {e : Bytes × Bytes} {rest : History} (hPc : s.pc = .next n)
      (hRest : s.rest = e :: rest) :
    ConsumerMove x s { s with rest := rest, pc := .call (.inline n) e }
  | callFails {place : SlotPlace} {e : Bytes × Bytes} {err : Err} (hPc : s.pc = .call place e)
      (hCtx : s.ctx = some err) :
    ConsumerMove x s { s with calls := s.calls ++ [e], pc := place.failed err }
  | call {place : SlotPlace} {e : Bytes × Bytes} (hPc : s.pc = .call place e)
      (hCtx : s.ctx = none) :
    ConsumerMove x s { s with calls := s.calls ++ [e], pc := .slot place e }
  | slotFails {place : SlotPlace} {e : Bytes × Bytes} {err : Err} (hPc : s.pc = .slot place e)
      (hSlot : x.slot s.acc e = .error err) :
    ConsumerMove x s { s with pc := place.failed err }
  | slot {place : SlotPlace} {e : Bytes × Bytes} {acc : σ} (hPc : s.pc = .slot place e)
      (hSlot : x.slot s.acc e = .ok acc) :
    ConsumerMove x s { s with acc := acc, pc := place.next }
  | aheadFails {e : Bytes × Bytes} {rest : History}
      (hPc : s.pc = .ahead) (hRest : s.rest = e :: rest)
      (hKey : e.1.length ≠ 32) :
    ConsumerMove x s
      { s with rest := rest, pc := .returned (some (storageKeyErr x.accountHash e.1)) }
  | ahead {e : Bytes × Bytes} {rest : History} (hPc : s.pc = .ahead) (hRest : s.rest = e :: rest)
      (hKey : e.1.length = 32) :
    ConsumerMove x s { s with rest := rest, pc := .start e }
  | start {e : Bytes × Bytes} (hPc : s.pc = .start e) :
    ConsumerMove x s { s with producer := .check, pc := .call .streamed e }
  | receive {e : Bytes × Bytes} {channel : History}
      (hPc : s.pc = .receive) (hChannel : s.channel = e :: channel) :
    ConsumerMove x s { s with channel := channel, pc := .call .streamed e }
  | drained {err : Option Err} (hPc : s.pc = .receive) (hChannel : s.channel = [])
      (hDone : s.producer = .done err) :
    ConsumerMove x s { s with pc := .wait }
  | wait {err : Option Err} (hPc : s.pc = .wait) (hResult : s.result = some err) :
    ConsumerMove x s { s with result := none, canceled := true, pc := .returned err }
  | close {err : Err} (hPc : s.pc = .close err) :
    ConsumerMove x s { s with canceled := true, pc := .join err }
  | join {err : Err} {result : Option Err} (hPc : s.pc = .join err)
      (hResult : s.result = some result) :
    ConsumerMove x s { s with result := none, pc := .returned (some err) }

/-- The steps of the consumer are its moves. -/
theorem consumerMove_of_step (hStep : consumerStep x s = some s') : ConsumerMove x s s' := by
  unfold consumerStep at hStep
  split at hStep
  next hPc =>
    split at hStep
    next hCtx => cases hStep; exact .checkFails hPc hCtx
    next hCtx => cases hStep; exact .check hPc hCtx
  next hPc =>
    split at hStep
    next hRest => cases hStep; exact .exhausted (.inr ⟨_, hPc⟩) hRest
    next hRest => cases hStep; exact .next hPc hRest
  next hPc =>
    split at hStep
    next hCtx => cases hStep; exact .callFails hPc hCtx
    next hCtx => cases hStep; exact .call hPc hCtx
  next hPc =>
    split at hStep
    next hSlot => cases hStep; exact .slotFails hPc hSlot
    next hSlot => cases hStep; exact .slot hPc hSlot
  next hPc =>
    split at hStep
    next hRest => cases hStep; exact .exhausted (.inl hPc) hRest
    next hRest =>
      split at hStep
      next hKey => cases hStep; exact .ahead hPc hRest hKey
      next hKey => cases hStep; exact .aheadFails hPc hRest hKey
  next hPc => cases hStep; exact .start hPc
  next hPc =>
    split at hStep
    next hChannel => cases hStep; exact .receive hPc hChannel
    next hChannel hDone => cases hStep; exact .drained hPc hChannel hDone
    next => cases hStep
  next hPc =>
    split at hStep
    next hResult => cases hStep; exact .wait hPc hResult
    next => cases hStep
  next hPc => cases hStep; exact .close hPc
  next hPc =>
    split at hStep
    next hResult => cases hStep; exact .join hPc hResult
    next => cases hStep
  next => cases hStep

/-- **The moves of the producer.** -/
inductive ProducerMove (x : StreamInputs σ) (s : StreamState σ) : StreamState σ → Prop
  | interrupted {err : Err}
      (hPc : s.producer = .check ∨ ∃ e, s.producer = .leaf e ∨ s.producer = .send e)
      (hErr : s.streamErr = some err) :
    ProducerMove x s { s with producer := .report (some err) }
  | check (hPc : s.producer = .check) (hErr : s.streamErr = none) :
    ProducerMove x s { s with producer := .next }
  | exhausted (hPc : s.producer = .next) (hRest : s.rest = []) :
    ProducerMove x s { s with producer := .finish }
  | next {e : Bytes × Bytes} {rest : History}
      (hPc : s.producer = .next) (hRest : s.rest = e :: rest) :
    ProducerMove x s { s with rest := rest, producer := .leaf e }
  | leafFails {e : Bytes × Bytes} (hPc : s.producer = .leaf e) (hErr : s.streamErr = none)
      (hKey : e.1.length ≠ 32) :
    ProducerMove x s { s with producer := .report (some (storageKeyErr x.accountHash e.1)) }
  | leaf {e : Bytes × Bytes} (hPc : s.producer = .leaf e) (hErr : s.streamErr = none)
      (hKey : e.1.length = 32) :
    ProducerMove x s { s with producer := .send e }
  | send {e : Bytes × Bytes} (hPc : s.producer = .send e)
      (hRoom : s.channel.length < storageTrieReadAhead) :
    ProducerMove x s { s with channel := s.channel ++ [e], producer := .check }
  | finishFails {err : Err} (hPc : s.producer = .finish) (hErr : x.iterationErr = some err) :
    ProducerMove x s { s with producer := .report (some err) }
  | finish (hPc : s.producer = .finish) (hErr : x.iterationErr = none) :
    ProducerMove x s { s with producer := .report s.streamErr }
  | report {err : Option Err} (hPc : s.producer = .report err) :
    ProducerMove x s { s with result := some err, producer := .closeResult err }
  | closeResult {err : Option Err} (hPc : s.producer = .closeResult err) :
    ProducerMove x s { s with producer := .closeLeaves err }
  | closeLeaves {err : Option Err} (hPc : s.producer = .closeLeaves err) :
    ProducerMove x s { s with producer := .done err }

/-- The steps of the producer are its moves. -/
theorem producerMove_of_step {send : Bool} (hStep : producerStep x send s = some s') :
    ProducerMove x s s' := by
  unfold producerStep at hStep
  split at hStep
  next => cases hStep
  next hPc =>
    split at hStep
    next hErr => cases hStep; exact .interrupted (.inl hPc) hErr
    next hErr => cases hStep; exact .check hPc hErr
  next hPc =>
    split at hStep
    next hRest => cases hStep; exact .exhausted hPc hRest
    next hRest => cases hStep; exact .next hPc hRest
  next hPc =>
    split at hStep
    next hErr => cases hStep; exact .interrupted (.inr ⟨_, .inl hPc⟩) hErr
    next hErr =>
      split at hStep
      next hKey => cases hStep; exact .leaf hPc hErr hKey
      next hKey => cases hStep; exact .leafFails hPc hErr hKey
  next hPc =>
    split at hStep
    next =>
      split at hStep
      next hRoom => cases hStep; exact .send hPc hRoom
      next => cases hStep
    next hErr => cases hStep; exact .interrupted (.inr ⟨_, .inr hPc⟩) hErr
    next => cases hStep
  next hPc =>
    split at hStep
    next hErr => cases hStep; exact .finishFails hPc hErr
    next hErr => cases hStep; exact .finish hPc hErr
  next hPc => cases hStep; exact .report hPc
  next hPc => cases hStep; exact .closeResult hPc
  next hPc => cases hStep; exact .closeLeaves hPc
  next => cases hStep

/-- A step is a move of a thread, or the end of the context. -/
theorem storageSystem_step_cases {a : StreamAction} (hStep : (storageSystem x).step a s = some s') :
    (a = .consume ∧ ConsumerMove x s s') ∨ (∃ send, a = .produce send ∧ ProducerMove x s s') ∨
      ∃ err, a = .cancel err ∧ s' = { s with ctx := s.ctx.or (some err) } := by
  cases a with
  | consume => exact .inl ⟨rfl, consumerMove_of_step hStep⟩
  | produce send => exact .inr (.inl ⟨send, rfl, producerMove_of_step hStep⟩)
  | cancel err => cases hStep; exact .inr (.inr ⟨err, rfl, rfl⟩)

/-! ## Which thread holds what -/

/-- The producer runs from the start of the stream on, its outcome waits in
`result` until the consumer takes it and returns, and a consumer that leaves
the stream has canceled its context. -/
structure StreamThreads (s : StreamState σ) : Prop where
  early    : s.pc.isEarly = true → s.producer = .idle
  idle     : s.producer = .idle → s.channel = [] ∧ (s.pc.isEarly = true ∨ s.pc.isReturned = true)
  sent     : ∀ err, s.result = some err → s.producer.outcome = some err ∧
    s.producer.isReported = true
  reported : s.producer.isReported = true → s.pc.isReturned = false → s.result = s.producer.outcome
  joined   : s.pc.isReturned = true → s.producer = .idle ∨ s.producer.isReported = true
  drained  : s.pc = .wait → s.channel = [] ∧ ∃ err, s.producer = .done err
  canceled : ∀ err, s.pc = .join err → s.canceled = true
  live     : s.canceled = true → s.pc.isReturned = true ∨ ∃ err, s.pc = .join err

namespace StreamThreads

theorem init (x : StreamInputs σ) : StreamThreads (.init x) where
  early _ := rfl
  idle _ := ⟨rfl, .inl rfl⟩
  sent _ h := nomatch h
  reported h := nomatch h
  joined h := nomatch h
  drained h := nomatch h
  canceled _ h := nomatch h
  live h := nomatch h

/-- The consumer goes on, on the same side of the start of the stream. -/
theorem goto (h : StreamThreads s) {pc : ConsumerPc} {rest calls : History} {acc : σ}
    (hEarly : pc.isEarly = s.pc.isEarly) (hOpen : s.pc.isReturned = false ∧ ∀ err, s.pc ≠ .join err)
    (hPc : pc.isReturned = false) (hWait : pc ≠ .wait) (hJoin : ∀ err, pc ≠ .join err) :
    StreamThreads { s with pc := pc, rest := rest, calls := calls, acc := acc } where
  early hOn := h.early (hEarly ▸ hOn)
  idle hIdle := by
    obtain ⟨hChannel, hSide⟩ := h.idle hIdle
    rw [hOpen.1] at hSide
    exact ⟨hChannel, .inl (hEarly.trans (hSide.resolve_right (by decide)))⟩
  sent := h.sent
  reported hDone _ := h.reported hDone hOpen.1
  joined hReturned := absurd hReturned (by rw [hPc]; decide)
  drained hOn := absurd hOn hWait
  canceled err hOn := absurd hOn (hJoin err)
  live hOn := by
    rcases h.live hOn with hReturned | ⟨err, hJoined⟩
    · rw [hOpen.1] at hReturned
      cases hReturned
    · exact absurd hJoined (hOpen.2 err)

/-- The consumer returns before the start of the stream. -/
theorem leave (h : StreamThreads s) {err : Option Err} {rest calls : History} {acc : σ}
    (hEarly : s.pc.isEarly = true) :
    StreamThreads { s with pc := .returned err, rest := rest, calls := calls, acc := acc } where
  early hOn := nomatch hOn
  idle hIdle := ⟨(h.idle hIdle).1, .inr rfl⟩
  sent := h.sent
  reported _ hOpen := nomatch hOpen
  joined _ := .inl (h.early hEarly)
  drained hOn := nomatch hOn
  canceled _ hOn := nomatch hOn
  live _ := .inl rfl

/-- A call of `processStorageSlot` has failed. -/
theorem failed (h : StreamThreads s) {place : SlotPlace} {e : Bytes × Bytes} {err : Err}
    {calls : History} (hPc : s.pc = .call place e ∨ s.pc = .slot place e) :
    StreamThreads { s with pc := place.failed err, calls := calls } := by
  cases place with
  | inline n =>
    refine h.leave ?_
    rcases hPc with hPc | hPc <;> rw [hPc] <;> rfl
  | streamed =>
    refine h.goto ?_ ?_ rfl (by simp [SlotPlace.failed]) (by simp [SlotPlace.failed])
    · rcases hPc with hPc | hPc <;> rw [hPc] <;> rfl
    · rcases hPc with hPc | hPc <;> simp [hPc, ConsumerPc.isReturned]

/-- Every move of the consumer keeps the threads in step. -/
theorem consumer (h : StreamThreads s) (hMove : ConsumerMove x s s') : StreamThreads s' := by
  cases hMove with
  | checkFails hPc | aheadFails hPc => exact h.leave (by rw [hPc]; rfl)
  | exhausted hPc =>
    refine h.leave ?_
    rcases hPc with hPc | ⟨n, hPc⟩ <;> rw [hPc] <;> rfl
  | check hPc | next hPc | ahead hPc =>
    exact h.goto (by rw [hPc]; rfl) (by simp [hPc, ConsumerPc.isReturned]) rfl (by simp) (by simp)
  | callFails hPc => exact h.failed (.inl hPc)
  | @call place e hPc =>
    refine h.goto ?_ (by simp [hPc, ConsumerPc.isReturned]) rfl (by simp) (by simp)
    rw [hPc]
    cases place <;> rfl
  | slotFails hPc => exact h.failed (.inr hPc)
  | @slot place e acc hPc =>
    rcases place.next_cases with ⟨n, m, rfl, hNext⟩ | ⟨n, rfl, hNext⟩ | ⟨rfl, hNext⟩
    all_goals
      rw [hNext]
      exact h.goto (by rw [hPc]; rfl) (by simp [hPc, ConsumerPc.isReturned]) rfl (by simp) (by simp)
  | start hPc =>
    have hIdle := h.early (by rw [hPc]; rfl)
    refine ⟨nofun, nofun, ?_, nofun, nofun, nofun, nofun, ?_⟩
    · intro err hResult
      have hSent := (h.sent err hResult).2
      rw [hIdle] at hSent
      cases hSent
    · intro hOn
      have hLive := h.live hOn
      simp [hPc, ConsumerPc.isReturned] at hLive
  | receive hPc hChannel =>
    have hStarted : s.producer ≠ .idle := fun hIdle => by
      rw [(h.idle hIdle).1] at hChannel
      cases hChannel
    refine ⟨nofun, fun hIdle => absurd hIdle hStarted, h.sent,
      fun hDone _ => h.reported hDone (by rw [hPc]; rfl), nofun, nofun, nofun, ?_⟩
    intro hOn
    have hLive := h.live hOn
    simp [hPc, ConsumerPc.isReturned] at hLive
  | @drained err hPc hChannel hDone =>
    refine ⟨nofun, ?_, h.sent, fun hDone _ => h.reported hDone (by rw [hPc]; rfl), nofun,
      fun _ => ⟨hChannel, err, hDone⟩, nofun, ?_⟩
    · intro hIdle
      cases hDone.symm.trans hIdle
    · intro hOn
      have hLive := h.live hOn
      simp [hPc, ConsumerPc.isReturned] at hLive
  | wait hPc hResult | join hPc hResult =>
    refine ⟨nofun, fun hIdle => ⟨(h.idle hIdle).1, .inr rfl⟩, nofun, nofun, ?_, nofun, nofun,
      fun _ => .inl rfl⟩
    exact fun _ => .inr (h.sent _ hResult).2
  | @close err hPc =>
    refine ⟨nofun, ?_, h.sent, fun hDone _ => h.reported hDone (by rw [hPc]; rfl), nofun, nofun,
      fun _ _ => rfl, fun _ => .inr ⟨err, rfl⟩⟩
    intro hIdle
    have hSide := (h.idle hIdle).2
    simp [hPc, ConsumerPc.isEarly, ConsumerPc.isReturned] at hSide

/-- The producer goes on before its report. -/
theorem produce (h : StreamThreads s) {p : ProducerPc} {rest channel : History}
    (hStarted : s.producer ≠ .idle) (hAmid : s.producer.isReported = false) (hPc : p ≠ .idle)
    (hReported : p.isReported = false) :
    StreamThreads { s with producer := p, rest := rest, channel := channel } where
  early hEarly := absurd (h.early hEarly) hStarted
  idle hIdle := absurd hIdle hPc
  sent err hResult := by
    rw [(h.sent err hResult).2] at hAmid
    cases hAmid
  reported hDone := absurd hDone (by rw [hReported]; decide)
  joined hReturned := by
    rcases h.joined hReturned with hIdle | hDone
    · exact absurd hIdle hStarted
    · rw [hAmid] at hDone
      cases hDone
  drained hWait := by
    obtain ⟨-, err, hDone⟩ := h.drained hWait
    rw [hDone] at hAmid
    cases hAmid
  canceled := h.canceled
  live := h.live

/-- The producer closes a channel behind its report. -/
theorem closing (h : StreamThreads s) {p : ProducerPc} {err : Option Err}
    (hPc : s.producer = .closeResult err ∧ p = .closeLeaves err ∨
      s.producer = .closeLeaves err ∧ p = .done err) :
    StreamThreads { s with producer := p } := by
  have hOld : s.producer.outcome = some err ∧ s.producer.isReported = true ∧ s.producer ≠ .idle ∧
      ∀ r, s.producer ≠ .done r := by
    rcases hPc with ⟨hPc, -⟩ | ⟨hPc, -⟩ <;> rw [hPc] <;>
      simp [ProducerPc.outcome, ProducerPc.isReported]
  have hNew : p.outcome = some err ∧ p.isReported = true ∧ p ≠ .idle := by
    rcases hPc with ⟨-, rfl⟩ | ⟨-, rfl⟩ <;> simp [ProducerPc.outcome, ProducerPc.isReported]
  obtain ⟨hOut, hReported, hStarted, hOpen⟩ := hOld
  obtain ⟨hOut', hReported', hStarted'⟩ := hNew
  refine ⟨fun hEarly => absurd (h.early hEarly) hStarted, fun hIdle =>
    absurd hIdle hStarted', ?_, ?_, fun _ => .inr hReported', ?_, h.canceled, h.live⟩
  · intro r hResult
    exact ⟨hOut'.trans (hOut.symm.trans (h.sent r hResult).1), hReported'⟩
  · intro _ hReturned
    exact (h.reported hReported hReturned).trans (hOut.trans hOut'.symm)
  · intro hWait
    obtain ⟨-, r, hDone⟩ := h.drained hWait
    exact absurd hDone (hOpen r)

/-- Every move of the producer keeps the threads in step. -/
theorem producer (h : StreamThreads s) (hMove : ProducerMove x s s') : StreamThreads s' := by
  cases hMove with
  | interrupted hPc =>
    rcases hPc with hPc | ⟨e, hPc | hPc⟩
    all_goals exact h.produce (by rw [hPc]; simp) (by rw [hPc]; rfl) (by simp) rfl
  | check hPc | exhausted hPc | next hPc | leafFails hPc | leaf hPc | send hPc | finishFails hPc
  | finish hPc =>
    exact h.produce (by rw [hPc]; simp) (by rw [hPc]; rfl) (by simp) rfl
  | @report err hPc =>
    have hStarted : s.producer ≠ .idle := by rw [hPc]; simp
    refine ⟨fun hEarly => absurd (h.early hEarly) hStarted, nofun, ?_, fun _ _ => rfl, fun _ =>
      .inr rfl, ?_, h.canceled, h.live⟩
    · intro r hResult
      cases hResult
      exact ⟨rfl, rfl⟩
    · intro hWait
      obtain ⟨-, r, hDone⟩ := h.drained hWait
      cases hPc.symm.trans hDone
  | closeResult hPc => exact h.closing (.inl ⟨hPc, rfl⟩)
  | closeLeaves hPc => exact h.closing (.inr ⟨hPc, rfl⟩)

theorem step {a : StreamAction} (h : StreamThreads s)
    (hStep : (storageSystem x).step a s = some s') :
    StreamThreads s' := by
  obtain ⟨-, hMove⟩ | ⟨send, -, hMove⟩ | ⟨err, -, rfl⟩ := storageSystem_step_cases hStep
  · exact h.consumer hMove
  · exact h.producer hMove
  · exact ⟨h.early, h.idle, h.sent, h.reported, h.joined, h.drained, h.canceled, h.live⟩

end StreamThreads

end Moves

end L2State
