import L2State.Lib.Succeeds
import L2State.Ovm.Conversion

/-!
# L2State — who owns a storage slot of the token

The loop of `classifyStorage` decides the owner of every slot with three
forward cursors over the evidence. This module says that the decision is
exact: a cursor answers as a lookup does and passes at most eight entries
before it seeks again, the loop succeeds exactly if one namespace claims each
slot, and the queue `q` then has the jobs of the balance slots.

A job is filed under the hash of its address. Entries of `b` that name one
address for two slots leave one job, that of the later slot; `ovmIndex.address`
never writes such entries.

* `Undisturbed` — replies without an error: no context is done, and no
  iterator has failed.
* `cursorRun` — a cursor that serves keys in order.
* `Owned` — one namespace has the slot.
* `succeeds_classifyLeaves` — **the loop succeeds on owned slots**.
* `JobOf` — the record of a balance slot.
-/

namespace L2State

open Lib

/-! ## Runs without disturbance -/

section Undisturbed

variable {x : BalanceInputs}

/-- No context is done, and no iterator has failed. -/
def BalanceOp.Calm : (op : BalanceOp x) → op.Reply → Prop
  | .ctxErr, r | .parentErr, r | .acquireToken, r | .evidenceErr, r => r = none
  | _, _ => True

def Undisturbed (e : Event (BalanceCalls x)) : Prop := BalanceOp.Calm e.op e.reply

theorem succeeds_checkContext : Succeeds Undisturbed (checkContext x) fun _ => True :=
  .attempt (I := BalanceCalls x) .ctxErr id (fun _ h => h) rfl

theorem succeeds_checkEvidence : Succeeds Undisturbed (checkEvidence x) fun _ => True :=
  .attempt (I := BalanceCalls x) .evidenceErr id (fun _ h => h) rfl

theorem succeeds_acquire :
    Succeeds Undisturbed (attempt id (balanceCall x .acquireToken) : BalanceProc x Unit)
      fun _ => True :=
  .attempt (I := BalanceCalls x) .acquireToken id (fun _ h => h) rfl

theorem succeeds_withLease {α : Type} {body : BalanceProc x α} {Q : α → Prop}
    (h : Succeeds Undisturbed body Q) : Succeeds Undisturbed (withLease x body) Q :=
  succeeds_checkContext.bind fun _ _ => succeeds_acquire.bind fun _ _ =>
    h.finally_call (I := BalanceCalls x) .releaseToken () trivial

end Undisturbed

/-! ## Cursors -/

variable {db : Store}

section Cursors

variable (x : BalanceInputs)

/-- A cursor over a namespace that serves keys in order, each on the database
of its time. -/
def cursorRun (c : StorageCursor) (calls : List (Bytes × Store)) :
    BalanceProc x (List (Option Bytes) × StorageCursor) :=
  calls.foldlM (fun acc call => acc.2.get x call.2 call.1 >>= fun out =>
    pure (acc.1 ++ [out.1], out.2)) ([], c)

variable {x} {tr : List (Event (BalanceCalls x))}

/-- The entries that the loop of a cursor passes, one check of the context for
each and one more for a new seek. -/
theorem advance_steps {ns : Char} {key : Bytes} {steps : Nat} {l out : History}
    (h : Returns (StorageCursor.advance x db ns key steps l) tr out) :
    ∃ n ≤ steps, (out = l.drop n ∧ tr.length = n) ∨
      (n = steps ∧ out = StorageCursor.seek db ns key ∧ tr.length = n + 1) := by
  induction l generalizing steps tr with
  | nil =>
    unfold StorageCursor.advance at h
    obtain ⟨rfl, rfl⟩ := returns_pure.mp h
    exact ⟨0, Nat.zero_le _, .inl ⟨rfl, rfl⟩⟩
  | cons e l ih =>
    unfold StorageCursor.advance at h
    by_cases hk : e.1 < key
    · rw [if_pos hk] at h
      obtain ⟨⟨⟩, t, t', hCheck, hNext, rfl⟩ := returns_bind.mp h
      have hOne : t.length = 1 := by
        rw [Proc.behaves_perform.mp (returns_attempt.mp hCheck)]
        rfl
      cases steps with
      | zero =>
        obtain ⟨rfl, rfl⟩ := returns_pure.mp hNext
        exact ⟨0, le_refl _, .inr ⟨rfl, rfl, by simp [hOne]⟩⟩
      | succ steps =>
        obtain ⟨n, hn, hCase⟩ := ih hNext
        refine ⟨n + 1, by omega, ?_⟩
        rw [List.length_append, hOne]
        rcases hCase with ⟨hOut, hLength⟩ | ⟨rfl, hOut, hLength⟩
        · exact .inl ⟨hOut, by omega⟩
        · exact .inr ⟨rfl, hOut, by omega⟩
    · rw [if_neg hk] at h
      obtain ⟨rfl, rfl⟩ := returns_pure.mp h
      exact ⟨0, Nat.zero_le _, .inl ⟨rfl, rfl⟩⟩

/-- **A lookup passes at most eight entries before it seeks.** -/
theorem cursorGet_steps {c : StorageCursor} {key : Bytes} {out : Option Bytes × StorageCursor}
    (h : Returns (c.get x db key) tr out) :
    ∃ n ≤ ovmEvidenceCursorSteps,
      (out.2.it = some ((c.it.getD (StorageCursor.seek db c.ns key)).drop n) ∧ tr.length = n + 2) ∨
      (n = ovmEvidenceCursorSteps ∧ out.2.it = some (StorageCursor.seek db c.ns key) ∧
        tr.length = n + 3) := by
  obtain ⟨⟨⟩, t₁, u₁, hCheck, hk₁, rfl⟩ := returns_bind.mp h
  obtain ⟨rest, t₂, u₂, hAdvance, hk₂, rfl⟩ := returns_bind.mp hk₁
  obtain ⟨⟨⟩, t₃, u₃, hError, hRet, rfl⟩ := returns_bind.mp hk₂
  obtain ⟨rfl, rfl⟩ := returns_pure.mp hRet
  have hFirst : t₁.length = 1 := by
    rw [Proc.behaves_perform.mp (returns_attempt.mp hCheck)]
    rfl
  have hLast : t₃.length = 1 := by
    rw [Proc.behaves_perform.mp (returns_attempt.mp (returns_wrapped hError))]
    rfl
  obtain ⟨n, hn, hCase⟩ := advance_steps hAdvance
  refine ⟨n, hn, ?_⟩
  simp only [List.length_append, hFirst, hLast, List.length_nil]
  rcases hCase with ⟨rfl, hLength⟩ | ⟨hEq, rfl, hLength⟩
  · exact .inl ⟨rfl, by omega⟩
  · exact .inr ⟨hEq, rfl, by omega⟩

/-- A cursor on a database that has the entries of `db` in its namespace. -/
theorem returns_cursorGet_congr {db' : Store} {c : StorageCursor} {key : Bytes}
    {out : Option Bytes × StorageCursor}
    (hSame : ∀ k, db'.get? (tag c.ns :: k) = db.get? (tag c.ns :: k)) (hReady : c.Ready db key)
    (h : Returns (c.get x db' key) tr out) :
    out.1 = db.get? (tag c.ns :: key) ∧ out.2.ns = c.ns ∧
      ∀ key', key ≤ key' → out.2.Ready db key' := by
  have hSeek : ∀ key, StorageCursor.seek db' c.ns key = StorageCursor.seek db c.ns key := by
    intro key
    rw [StorageCursor.seek, Store.under_congr hSame]
    rfl
  have hReady' : c.Ready db' key := fun rest hRest => (hReady rest hRest).trans (hSeek key).symm
  obtain ⟨hOut, hName, hNext⟩ := returns_cursorGet hReady' h
  refine ⟨hOut.trans (hSame key), hName, fun key' hLe rest hRest => ?_⟩
  rw [hNext.mono hLe rest hRest, hName, hSeek]

/-- **A cursor that serves increasing keys answers as lookups do.** -/
theorem returns_cursorRun {ns : Char} {calls : List (Bytes × Store)}
    {out : List (Option Bytes) × StorageCursor} (hOrder : calls.Pairwise fun a b => a.1 < b.1)
    (hSame : ∀ call ∈ calls, ∀ k, call.2.get? (tag ns :: k) = db.get? (tag ns :: k))
    (h : Returns (cursorRun x ⟨ns, none⟩ calls) tr out) :
    out.1 = calls.map fun call => db.get? (tag ns :: call.1) := by
  have hInit : (([] : List (Bytes × Store)).Pairwise fun a b => a.1 < b.1) →
      (∀ call ∈ ([] : List (Bytes × Store)), ∀ k, call.2.get? (tag ns :: k) = db.get?
      (tag ns :: k)) → ([] : List (Option Bytes)) =
      ([] : List (Bytes × Store)).map (fun call => db.get? (tag ns :: call.1)) ∧
      (⟨ns, none⟩ : StorageCursor).ns = ns ∧
        ∀ key, (∀ call ∈ ([] : List (Bytes × Store)), call.1 ≤ key) →
          (⟨ns, none⟩ : StorageCursor).Ready db key :=
    fun _ _ => ⟨rfl, rfl, fun _ _ _ h => nomatch h⟩
  have hRun := returns_foldlM
    (fun (seen : List (Bytes × Store)) (acc : List (Option Bytes) × StorageCursor) =>
      (seen.Pairwise fun a b => a.1 < b.1) →
      (∀ call ∈ seen, ∀ k, call.2.get? (tag ns :: k) = db.get? (tag ns :: k)) →
      acc.1 = seen.map (fun call => db.get? (tag ns :: call.1)) ∧ acc.2.ns = ns ∧
      ∀ key, (∀ call ∈ seen, call.1 ≤ key) → acc.2.Ready db key)
    (fun seen acc call acc' tr hInv hStep hSeen hSame => by
      obtain ⟨hBefore, -, hAbove⟩ := List.pairwise_append.mp hSeen
      obtain ⟨hAnswers, hName, hReady⟩ :=
        hInv hBefore fun c hc => hSame c (List.mem_append_left _ hc)
      obtain ⟨o, t, t', hGet, hRet, rfl⟩ := returns_bind.mp hStep
      obtain ⟨-, rfl⟩ := returns_pure.mp hRet
      have hServes := hReady call.1 fun c hc => (hAbove c hc call (by simp)).le
      have hCall : ∀ k, call.2.get? (tag acc.2.ns :: k) = db.get? (tag acc.2.ns :: k) := by
        rw [hName]
        exact hSame call (by simp)
      obtain ⟨hOut, hName', hNext⟩ := returns_cursorGet_congr hCall hServes hGet
      refine ⟨by simp [hAnswers, hOut, hName], hName'.trans hName, fun key hKey => ?_⟩
      exact hNext key (hKey call (by simp)))
    hInit h
  rw [List.nil_append] at hRun
  exact (hRun hOrder hSame).1

theorem succeeds_advance (db : Store) (ns : Char) (key : Bytes) (steps : Nat) (l : History) :
    Succeeds Undisturbed (StorageCursor.advance x db ns key steps l) fun _ => True := by
  induction l generalizing steps with
  | nil =>
    unfold StorageCursor.advance
    exact .pure trivial
  | cons e l ih =>
    unfold StorageCursor.advance
    by_cases hk : e.1 < key
    · rw [if_pos hk]
      refine succeeds_checkContext.bind fun _ _ => ?_
      cases steps with
      | zero => exact .pure trivial
      | succ steps => exact ih steps
    · rw [if_neg hk]
      exact .pure trivial

theorem succeeds_cursorGet (db : Store) (c : StorageCursor) (key : Bytes) :
    Succeeds Undisturbed (c.get x db key) fun _ => True :=
  succeeds_checkContext.bind fun _ _ => (succeeds_advance _ _ _ _ _).bind fun _ _ =>
    succeeds_checkEvidence.wrapped.bind fun _ _ => .pure trivial

end Cursors

/-! ## Slots with one owner -/

/-- Exactly one of the namespaces has the slot, and `b` has it with an
address. -/
def Owned (db : Store) (key : Bytes) : Prop :=
  ['b', 'a', 'k'].countP (fun ns => (db.get? (tag ns :: key)).isSome) = 1 ∧
    ∀ address, db.get? (tag 'b' :: key) = some address → address.length = 20

theorem slotHolder_isOk_iff {b a k : Option Bytes} :
    (∃ holder, slotHolder b a k = .ok holder) ↔
      b.isSome.toNat + a.isSome.toNat + k.isSome.toNat = 1 ∧
        ∀ address, b = some address → address.length = 20 := by
  unfold slotHolder
  by_cases hOne : b.isSome.toNat + a.isSome.toNat + k.isSome.toNat = 1
  · rw [require_true hOne, ok_bind]
    cases b with
    | none => simpa using hOne
    | some address =>
      by_cases hLength : address.length = 20
      · simpa [require, hLength] using hOne
      · simp [require, hLength]
  · simp [require, hOne]

/-- **A slot passes exactly if it has one owner.** -/
theorem holderOf_isOk_iff {key : Bytes} :
    (∃ holder, holderOf db key = .ok holder) ↔ Owned db key := by
  have hCount : ['b', 'a', 'k'].countP (fun ns => (db.get? (tag ns :: key)).isSome) =
      (db.get? (tag 'b' :: key)).isSome.toNat + (db.get? (tag 'a' :: key)).isSome.toNat +
        (db.get? (tag 'k' :: key)).isSome.toNat := by
    cases hb : db.get? (tag 'b' :: key) <;> cases ha : db.get? (tag 'a' :: key) <;>
      cases hk : db.get? (tag 'k' :: key) <;> simp [hb, ha, hk]
  rw [holderOf, slotHolder_isOk_iff, ← hCount]
  rfl

/-- The leaves of a storage trie: increasing keys of 32 bytes, with the
encodings of amounts. -/
structure StorageLeaves (leaves : History) : Prop where
  order  : Increasing leaves
  keys   : ∀ e ∈ leaves, e.1.length = 32
  values : ∀ e ∈ leaves, ∃ v, e.2 = encodeAmount v

variable {e : Bytes × Bytes}

theorem StorageLeaves.claimed_iff {leaves : History} (h : StorageLeaves leaves) (he : e ∈ leaves) :
    Claimed db e ↔ Owned db e.1 := by
  rw [← holderOf_isOk_iff]
  refine ⟨Claimed.holder, fun hHolder => ⟨h.keys e he, ?_, hHolder⟩⟩
  obtain ⟨v, hv⟩ := h.values e he
  rw [amountOf, decodeOVMValue_eq_ok.mpr hv]

section Loop

variable {x : BalanceInputs}

/-- One slot that is claimed. -/
theorem succeeds_classifyLeaf {start : OvmIndex} {seen : History} {acc : OvmIndex × StorageCursors}
    (h : Classifying (x := x) db start seen acc) (hAbove : ∀ e' ∈ seen, e'.1 < e.1)
    (hClaimed : Claimed db e) :
    Succeeds Undisturbed (classifyLeaf x acc e) (Classifying (x := x) db start (seen ++ [e])) := by
  have hLe : ∀ e' ∈ seen, e'.1 ≤ e.1 := fun e' he' => (hAbove e' he').le
  obtain ⟨holder, hHolder⟩ := hClaimed.holder
  refine Succeeds.strengthen (Q := fun _ => True) ?_ fun tr acc' hLeaf _ => h.step hAbove hLeaf
  refine succeeds_withLease ?_
  refine (Succeeds.computed hClaimed.amount trivial).bind (Q := fun _ => True) fun value _ => ?_
  refine (Succeeds.computed (require_true hClaimed.key) trivial).bind
    (Q := fun _ => True) fun _ _ => ?_
  -- the cursors answer as the evidence says, which has one owner
  have hb := (succeeds_cursorGet (x := x) acc.1.db acc.2.balances e.1).strengthen
    fun tr out hGet _ =>
    returns_settledGet h.settled (by decide) h.balances.1 (h.balances.2 e.1 hLe) hGet
  have ha := (succeeds_cursorGet (x := x) acc.1.db acc.2.allowances e.1).strengthen
    fun tr out hGet _ =>
    returns_settledGet h.settled (by decide) h.allowances.1 (h.allowances.2 e.1 hLe) hGet
  have hk := (succeeds_cursorGet (x := x) acc.1.db acc.2.known e.1).strengthen fun tr out hGet _ =>
    returns_settledGet h.settled (by decide) h.known.1 (h.known.2 e.1 hLe) hGet
  refine Succeeds.wrapped ?_
  refine hb.bind fun b hb => ha.bind fun a ha => hk.bind fun k hk => ?_
  refine (Succeeds.computed (a := holder) ?_ trivial).bind (Q := fun _ => True) fun _ _ =>
    .pure trivial
  rw [hb.1, ha.1, hk.1]
  exact hHolder

/-- **The loop over the slots succeeds if all of them are claimed.** -/
theorem succeeds_classifyLeaves {stream : LeafStream} {index : OvmIndex}
    (hDone : stream.err = none) (hOrder : Increasing stream.leaves) (hFlushed : index.batch = [])
    (hClaimed : ∀ e ∈ stream.leaves, Claimed index.db e) :
    Succeeds Undisturbed (classifyLeaves x stream index) fun _ => True := by
  have hInit : Classifying (x := x) index.db index []
      (index, ⟨⟨'b', none⟩, ⟨'a', none⟩, ⟨'k', none⟩⟩) :=
    ⟨by simp, rfl, ⟨fun _ _ => rfl, by simp [hFlushed]⟩, ⟨rfl, fun _ _ _ h => nomatch h⟩,
      ⟨rfl, fun _ _ _ h => nomatch h⟩, ⟨rfl, fun _ _ _ h => nomatch h⟩⟩
  have hLoop : Succeeds Undisturbed (stream.leaves.foldlM (classifyLeaf x)
      (index, ⟨⟨'b', none⟩, ⟨'a', none⟩, ⟨'k', none⟩⟩))
      (Classifying (x := x) index.db index ([] ++ stream.leaves)) := by
    refine Succeeds.foldlM _ hInit fun done e rest acc hEq hInv => ?_
    rw [List.nil_append] at hInv ⊢
    rw [hEq] at hOrder
    have hAbove := (List.pairwise_append.mp hOrder).2.2
    exact succeeds_classifyLeaf hInv (fun e' he' => hAbove e' he' e List.mem_cons_self)
      (hClaimed e (by simp [hEq]))
  refine hLoop.bind fun acc _ => ?_
  refine (succeeds_withLease (.pure trivial)).bind (Q := fun _ => True) fun _ _ => ?_
  refine (Succeeds.computed (a := ()) ?_ trivial).bind (Q := fun _ => True) fun _ _ => .pure trivial
  rw [hDone]
  rfl

end Loop

/-! ## The queue -/

/-- The last element of a list that writes a key decides its value. -/
theorem get?_applyOps_records {α : Type} (f : α → Option (Bytes × Bytes)) (xs : List α) {m : Store}
    (hEmpty : ∀ k, m.get? (tag 'q' :: k) = none) (k : Bytes) :
    (applyOps m ((xs.filterMap f).map recordOp)).get? (tag 'q' :: k) =
      (xs.reverse.findSome? fun x => (f x).filter fun r => r.1 = k).map Prod.snd := by
  induction xs using List.reverseRecOn with
  | nil => exact hEmpty k
  | append_singleton xs x ih =>
    rw [List.filterMap_append, List.map_append, applyOps_append, List.reverse_append,
      List.reverse_singleton, List.singleton_append, List.findSome?_cons]
    cases hx : f x with
    | none =>
      rw [List.filterMap_cons_none hx]
      exact ih
    | some r =>
      rw [List.filterMap_cons_some hx]
      show (Op.apply _ (recordOp r)).get? _ = _
      rw [Op.get?_apply]
      by_cases hKey : r.1 = k
      · have hFilter : (some r).filter (fun r => decide (r.1 = k)) = some r := by simp [hKey]
        rw [if_pos (by rw [recordOp, Op.key_put, hKey]), hFilter]
        rfl
      · have hFilter : (some r).filter (fun r => decide (r.1 = k)) = none := by simp [hKey]
        have hOther : tag 'q' :: k ≠ (recordOp r).key := fun h => hKey (List.cons.inj h).2.symm
        rw [if_neg hOther, hFilter]
        exact ih

/-- The same, with the list split at this element. -/
theorem get?_applyOps_filterMap {α : Type} {f : α → Option (Bytes × Bytes)} {xs : List α}
    {m : Store} (hEmpty : ∀ k, m.get? (tag 'q' :: k) = none) {r : Bytes × Bytes} :
    (applyOps m ((xs.filterMap f).map recordOp)).get? (tag 'q' :: r.1) = some r.2 ↔
      ∃ before x after, xs = before ++ x :: after ∧ f x = some r ∧
        ∀ y ∈ after, ∀ r', f y = some r' → r'.1 ≠ r.1 := by
  rw [get?_applyOps_records f xs hEmpty, Option.map_eq_some_iff]
  constructor
  · rintro ⟨r₁, hFind, hValue⟩
    obtain ⟨after, x, before, hSplit, hx, hAfter⟩ := List.findSome?_eq_some_iff.mp hFind
    obtain ⟨hfx, hKey⟩ := Option.filter_eq_some_iff.mp hx
    have hEq : r₁ = r := Prod.ext (by simpa using hKey) hValue
    refine ⟨before.reverse, x, after.reverse, ?_, hEq ▸ hfx, fun y hy r' hr' hSame => ?_⟩
    · rw [← List.reverse_reverse xs, hSplit]
      simp
    · have hNone := hAfter y (List.mem_reverse.mp hy)
      simp [hr', hSame] at hNone
  · rintro ⟨before, x, after, rfl, hfx, hAfter⟩
    refine ⟨r, List.findSome?_eq_some_iff.mpr ⟨after.reverse, x, before.reverse, by simp,
      by simp [hfx], fun y hy => ?_⟩, rfl⟩
    cases hy' : f y with
    | none => rfl
    | some r' => simp [hAfter y (List.mem_reverse.mp hy) r' hy']

/-- The entry of the queue that a balance slot leaves: it decodes to the job
with the address, the slot and the whole value. -/
structure JobOf (g : Geth) (db : Store) (e r : Bytes × Bytes) : Prop where
  job : ∃ (a : Address) (slot : Hash) (v : U256), db.get? (tag 'b' :: e.1) = some a.bytes ∧
    e = (slot.bytes, encodeAmount v) ∧
    r = ((accountKey g a).bytes, balanceRecord a.bytes slot.bytes v) ∧
    parseBalanceRecord g r = .ok ⟨a, slot, accountKey g a, v, none, false, false⟩

section Queue

variable {x : BalanceInputs} {db : Store} {leaves : History}

/-- A leaf leaves an entry of the queue exactly when it is a balance slot. -/
theorem recordOf_eq_some_iff (hLeaves : StorageLeaves leaves) (hOwned : ∀ e ∈ leaves, Owned db e.1)
    {r : Bytes × Bytes} (he : e ∈ leaves) :
    recordOf x db e = some r ↔ JobOf x.geth db e r := by
  obtain ⟨holder, hHolder⟩ := holderOf_isOk_iff.mpr (hOwned e he)
  obtain ⟨v, hv⟩ := hLeaves.values e he
  have hAmount : amountOf e.2 = v := by rw [amountOf, decodeOVMValue_eq_ok.mpr hv]
  have hEntry : ∀ a : Address, db.get? (tag 'b' :: e.1) = some a.bytes → recordOf x db e =
      some ((accountKey x.geth a).bytes, balanceRecord a.bytes e.1 v) := by
    intro a ha
    have hHolderOf : holderOf db e.1 = .ok (some a.bytes) := by
      rw [holderOf, ha] at hHolder ⊢
      obtain ⟨⟨⟩, hOne, hLength⟩ := bind_eq_ok.mp hHolder
      unfold slotHolder
      rw [hOne, ok_bind]
      simp [require, a.length_bytes]
    rw [recordOf, hHolderOf, hAmount]
    rfl
  constructor
  · intro h
    -- only a slot in `b` has a record
    have hBalance : ∃ address, db.get? (tag 'b' :: e.1) = some address := by
      by_contra hNone
      have hGet : db.get? (tag 'b' :: e.1) = none := by
        cases hCase : db.get? (tag 'b' :: e.1) with
        | none => rfl
        | some address => exact absurd ⟨address, hCase⟩ hNone
      obtain rfl : holder = none := by
        rw [holderOf, hGet] at hHolder
        obtain ⟨⟨⟩, -, hEq⟩ := bind_eq_ok.mp hHolder
        exact (Except.ok.inj hEq).symm
      rw [recordOf, hHolder] at h
      cases h
    obtain ⟨address, hGet⟩ := hBalance
    have hLength := (hOwned e he).2 address hGet
    have hBytes : (FixedBytes.ofBytes 20 address).bytes = address :=
      FixedBytes.bytes_ofBytes hLength
    have hSlot : (FixedBytes.ofBytes 32 e.1).bytes = e.1 :=
      FixedBytes.bytes_ofBytes (hLeaves.keys e he)
    have hb : db.get? (tag 'b' :: e.1) = some (FixedBytes.ofBytes 20 address).bytes := by
      rw [hBytes, hGet]
    rw [hEntry _ hb] at h
    obtain rfl := Option.some.inj h
    refine ⟨.ofBytes 20 address, .ofBytes 32 e.1, v, hb, ?_, by rw [hSlot], ?_⟩
    · rw [hSlot, ← hv]
    · rw [← parse_balanceRecord, hSlot]
  · rintro ⟨a, slot, v', hb, hEq, rfl, -⟩
    have hValue : v' = v := by
      rw [← hAmount, hEq, amountOf, decodeOVMValue_eq_ok.mpr rfl]
    rw [hEntry a hb, hValue, hEq]

/-- **The queue holds, for every address, the job of its last slot.** -/
theorem queue_of_classified {tr : List (Event (BalanceCalls x))} {stream : LeafStream}
    {index out : OvmIndex} (hLeaves : StorageLeaves stream.leaves) (hFlushed : index.batch = [])
    (hEmpty : ∀ k, index.db.get? (tag 'q' :: k) = none)
    (hOwned : ∀ e ∈ stream.leaves, Owned index.db e.1)
    (h : Returns (classifyLeaves x stream index) tr out) (r : Bytes × Bytes) :
    out.content.get? (tag 'q' :: r.1) = some r.2 ↔
      ∃ before e after, stream.leaves = before ++ e :: after ∧ JobOf x.geth index.db e r ∧
        ∀ e' ∈ after, ∀ r', JobOf x.geth index.db e' r' → r'.1 ≠ r.1 := by
  obtain ⟨-, -, rfl⟩ := returns_classifyLeaves (fun _ => hLeaves.order) hFlushed h
  have hContent : index.content = index.db := by rw [OvmIndex.content, hFlushed]; rfl
  rw [OvmIndex.content_pushAll, hContent, get?_applyOps_filterMap hEmpty]
  refine exists_congr fun before => exists_congr fun e => exists_congr fun after =>
    and_congr_right fun hEq => ?_
  have hRecord : ∀ e' ∈ e :: after, ∀ r',
      recordOf x index.db e' = some r' ↔ JobOf x.geth index.db e' r' := by
    intro e' he' r'
    refine recordOf_eq_some_iff hLeaves hOwned ?_
    rw [hEq]
    exact List.mem_append_right _ he'
  refine and_congr (hRecord e List.mem_cons_self r) (forall₂_congr fun e' he' => ?_)
  exact forall_congr' fun r' =>
    imp_congr_left (hRecord e' (List.mem_cons_of_mem _ he') r')

/-- Two jobs under one hash are of one address. -/
theorem JobOf.address_eq (hAccount : Function.Injective (accountKey x.geth))
    {e' r r' : Bytes × Bytes} (h : JobOf x.geth db e r) (h' : JobOf x.geth db e' r')
    (hKey : r.1 = r'.1) :
    ∃ a : Address, db.get? (tag 'b' :: e.1) = some a.bytes ∧
      db.get? (tag 'b' :: e'.1) = some a.bytes := by
  obtain ⟨a, slot, v, hGet, -, rfl, -⟩ := h
  obtain ⟨a', slot', v', hGet', -, rfl, -⟩ := h'
  obtain rfl : a = a' := hAccount (FixedBytes.ext hKey)
  exact ⟨a, hGet, hGet'⟩

end Queue

/-! ## Ownership -/

/-- No two slots are filed as balances of one address. -/
def AddressOnce (db : Store) (leaves : History) : Prop :=
  ∀ e ∈ leaves, ∀ e' ∈ leaves, ∀ a, db.get? (tag 'b' :: e.1) = some a →
    db.get? (tag 'b' :: e'.1) = some a → e = e'

/-- **Ownership is decided exactly.** A cursor answers as lookups do and passes
at most eight entries before it seeks; undisturbed, the loop succeeds exactly
if every slot has one owner. The queue then has, for every address, the job of
its last balance slot, which is one job per balance slot where no address has
two. -/
theorem storage_ownership_decided (x : BalanceInputs)
    (hAccount : Function.Injective (accountKey x.geth)) :
    (∀ (ns : Char) (db : Store) (calls : List (Bytes × Store)) tr out,
      (calls.Pairwise fun a b => a.1 < b.1) →
      (∀ call ∈ calls, ∀ k, call.2.get? (tag ns :: k) = db.get? (tag ns :: k)) →
      Returns (cursorRun x ⟨ns, none⟩ calls) tr out →
      out.1 = calls.map fun call => db.get? (tag ns :: call.1)) ∧
    (∀ db c key tr out, Returns (StorageCursor.get x db c key) tr out →
      ∃ n ≤ ovmEvidenceCursorSteps,
        (out.2.it = some ((c.it.getD (StorageCursor.seek db c.ns key)).drop n) ∧
          tr.length = n + 2) ∨
        (n = ovmEvidenceCursorSteps ∧ out.2.it = some (StorageCursor.seek db c.ns key) ∧
          tr.length = n + 3)) ∧
    ∀ stream index, stream.err = none → StorageLeaves stream.leaves → index.batch = [] →
      (∀ tr res, (classifyLeaves x stream index).run.Behaves tr res → (∀ e ∈ tr, Undisturbed e) →
        ((∃ out, res = .ok out) ↔ ∀ e ∈ stream.leaves, Owned index.db e.1)) ∧
      ((∀ e ∈ stream.leaves, Owned index.db e.1) →
        ∃ tr out, Returns (classifyLeaves x stream index) tr out ∧ ∀ e ∈ tr, Undisturbed e) ∧
      ∀ tr out, Returns (classifyLeaves x stream index) tr out →
        (∀ k, index.db.get? (tag 'q' :: k) = none) →
        (∀ r : Bytes × Bytes, out.content.get? (tag 'q' :: r.1) = some r.2 ↔
          ∃ before e after, stream.leaves = before ++ e :: after ∧ JobOf x.geth index.db e r ∧
            ∀ e' ∈ after, ∀ r', JobOf x.geth index.db e' r' → r'.1 ≠ r.1) ∧
        (AddressOnce index.db stream.leaves →
          (∀ r : Bytes × Bytes, out.content.get? (tag 'q' :: r.1) = some r.2 ↔
            ∃ e ∈ stream.leaves, JobOf x.geth index.db e r) ∧
          ∀ e ∈ stream.leaves, ∀ e' ∈ stream.leaves, ∀ r r', JobOf x.geth index.db e r →
            JobOf x.geth index.db e' r' → r.1 = r'.1 → e = e') := by
  refine ⟨fun ns db calls tr out => returns_cursorRun, fun db c key tr out => cursorGet_steps,
    fun stream index hDone hLeaves hFlushed => ?_⟩
  have hClaims : (∀ e ∈ stream.leaves, Claimed index.db e) ↔
      ∀ e ∈ stream.leaves, Owned index.db e.1 :=
    forall₂_congr fun e he => hLeaves.claimed_iff he
  have hSucceeds : (∀ e ∈ stream.leaves, Owned index.db e.1) →
      Succeeds Undisturbed (classifyLeaves x stream index) fun _ => True := fun hOwned =>
    succeeds_classifyLeaves hDone hLeaves.order hFlushed (hClaims.mpr hOwned)
  have hOwned : ∀ tr out, Returns (classifyLeaves x stream index) tr out →
      ∀ e ∈ stream.leaves, Owned index.db e.1 := fun tr out h =>
    hClaims.mp (returns_classifyLeaves (fun _ => hLeaves.order) hFlushed h).2.1
  refine ⟨fun tr res h hCalm => ⟨?_, fun hAll => ?_⟩, fun hAll => (hSucceeds hAll).run,
    fun tr out h hEmpty => ?_⟩
  · rintro ⟨out, rfl⟩
    exact hOwned tr out h
  · obtain ⟨out, hOut, -⟩ := (hSucceeds hAll).ends tr res h hCalm
    exact ⟨out, hOut⟩
  · have hQueue := queue_of_classified hLeaves hFlushed hEmpty (hOwned tr out h) h
    refine ⟨hQueue, fun hOnce => ?_⟩
    have hDistinct : ∀ e ∈ stream.leaves, ∀ e' ∈ stream.leaves, ∀ r r', JobOf x.geth index.db e r →
        JobOf x.geth index.db e' r' → r.1 = r'.1 → e = e' := by
      intro e he e' he' r r' hr hr' hKey
      obtain ⟨a, hGet, hGet'⟩ := hr.address_eq hAccount hr' hKey
      exact hOnce e he e' he' _ hGet hGet'
    refine ⟨fun r => (hQueue r).trans ⟨?_, ?_⟩, hDistinct⟩
    · rintro ⟨before, e, after, hEq, hJob, -⟩
      exact ⟨e, by simp [hEq], hJob⟩
    · rintro ⟨e, he, hJob⟩
      obtain ⟨before, after, hEq⟩ := List.append_of_mem he
      refine ⟨before, e, after, hEq, hJob, fun e' he' r' hJob' hKey => ?_⟩
      -- a later slot with this hash would be the same slot
      have hSame := hDistinct e' (by simp [hEq, he']) e he r' r hJob' hJob hKey
      have hLt := (List.pairwise_append.mp (hEq ▸ hLeaves.order)).2.1
      rw [List.pairwise_cons] at hLt
      exact absurd (hSame ▸ hLt.1 e' he') (lt_irrefl _)

/-- Two slots. -/
def twoSlots : LeafStream :=
  ⟨[((hashOfNat 1).bytes, encodeAmount 5), ((hashOfNat 2).bytes, encodeAmount 7)], [], none⟩

/-- Evidence that files the slots as balances of two addresses. -/
def twoSlotIndex (a b : Address) : OvmIndex :=
  ⟨applyOps .empty [.put (tag 'b' :: (hashOfNat 1).bytes) a.bytes,
    .put (tag 'b' :: (hashOfNat 2).bytes) b.bytes], []⟩

theorem twoSlots_leaves : StorageLeaves twoSlots.leaves where
  order := by unfold Increasing; decide +kernel
  keys e he := by
    rcases List.mem_cons.mp he with rfl | he
    · exact FixedBytes.length_bytes _
    · rw [List.mem_singleton.mp he]
      exact FixedBytes.length_bytes _
  values e he := by
    rcases List.mem_cons.mp he with rfl | he
    · exact ⟨5, rfl⟩
    · exact ⟨7, by rw [List.mem_singleton.mp he]⟩

theorem twoSlots_owned (index : OvmIndex) (a b : Address)
    (ha : holderOf index.db (hashOfNat 1).bytes = .ok (some a.bytes))
    (hb : holderOf index.db (hashOfNat 2).bytes = .ok (some b.bytes)) :
    ∀ e ∈ twoSlots.leaves, Owned index.db e.1 := by
  intro e he
  rw [← holderOf_isOk_iff]
  rcases List.mem_cons.mp he with rfl | he
  · exact ⟨_, ha⟩
  · rw [List.mem_singleton.mp he]
    exact ⟨_, hb⟩

/-- **One job for two balance slots**: evidence that names one address for both
passes, and the job of the first slot is lost. -/
theorem ownership_one_job_for_two_slots :
    ∃ tr out, Returns (classifyLeaves sampleTransform.toBalanceInputs twoSlots
        (twoSlotIndex (holderAddress 1) (holderAddress 1))) tr out ∧ (∀ e ∈ tr, Undisturbed e) ∧
      twoSlots.leaves.length = 2 ∧
      (∀ e ∈ twoSlots.leaves, (twoSlotIndex (holderAddress 1) (holderAddress 1)).get 'b' e.1 =
        some (holderAddress 1).bytes) ∧
      (Store.under out.content [tag 'q']).length = 1 := by
  have hOwned := twoSlots_owned (twoSlotIndex (holderAddress 1) (holderAddress 1))
    (holderAddress 1) (holderAddress 1) (by rfl) (by rfl)
  have hClaimed := fun e he => (twoSlots_leaves.claimed_iff he).mpr (hOwned e he)
  have hSucceeds : Succeeds Undisturbed (classifyLeaves sampleTransform.toBalanceInputs twoSlots
      (twoSlotIndex (holderAddress 1) (holderAddress 1))) fun _ => True :=
    succeeds_classifyLeaves rfl twoSlots_leaves.order rfl hClaimed
  obtain ⟨tr, out, h, hCalm⟩ := hSucceeds.run
  obtain ⟨-, -, rfl⟩ := returns_classifyLeaves (fun _ => twoSlots_leaves.order) rfl h
  exact ⟨tr, _, h, hCalm, rfl, by decide +kernel, by decide +kernel⟩

/-- Two addresses have two jobs. -/
theorem ownership_sample :
    Function.Injective (accountKey sampleTransform.geth) ∧
    ∃ tr out, Returns (classifyLeaves sampleTransform.toBalanceInputs twoSlots
        (twoSlotIndex (holderAddress 1) (holderAddress 2))) tr out ∧
      ∀ r : Bytes × Bytes, out.content.get? (tag 'q' :: r.1) = some r.2 ↔
        ∃ e ∈ twoSlots.leaves, JobOf layoutGeth
          (twoSlotIndex (holderAddress 1) (holderAddress 2)).db e r := by
  have hOwned := twoSlots_owned (twoSlotIndex (holderAddress 1) (holderAddress 2))
    (holderAddress 1) (holderAddress 2) (by rfl) (by rfl)
  have hAccount : Function.Injective (accountKey sampleTransform.geth) :=
    sampleEvidence_apart.account
  obtain ⟨-, hRun, hQueue⟩ :=
    (storage_ownership_decided sampleTransform.toBalanceInputs hAccount).2.2 twoSlots
      (twoSlotIndex (holderAddress 1) (holderAddress 2)) rfl twoSlots_leaves rfl
  obtain ⟨tr, out, h, -⟩ := hRun hOwned
  refine ⟨hAccount, tr, out, h, ((hQueue tr out h ?_).2 ?_).1⟩
  · intro k
    have hTag : tag 'b' ≠ tag 'q' := by decide
    exact get?_applyOps_of_untouched (by simp [hTag]) _
  · intro e he e' he' a hGet hGet'
    have hApart : (twoSlotIndex (holderAddress 1) (holderAddress 2)).db.get?
        (tag 'b' :: (hashOfNat 1).bytes) ≠
        (twoSlotIndex (holderAddress 1) (holderAddress 2)).db.get?
          (tag 'b' :: (hashOfNat 2).bytes) := by decide +kernel
    rcases List.mem_cons.mp he with rfl | he <;> rcases List.mem_cons.mp he' with rfl | he'
    · rfl
    · rw [List.mem_singleton.mp he'] at hGet'
      exact absurd (hGet.trans hGet'.symm) hApart
    · rw [List.mem_singleton.mp he] at hGet
      exact absurd (hGet'.trans hGet.symm) hApart
    · rw [List.mem_singleton.mp he, List.mem_singleton.mp he']

end L2State
