import L2State.Migrate.Partition
import L2State.Geth.Reference

/-!
# L2State — the partitioned traversal reads the state

What `validatePartitionedState` has read when it succeeds, under every schedule.

* `HeadItem` — **the items of a state**: the nodes of the account trie and of the storage tries,
  and the codes. A code is never taken for a node, whatever its bytes are.
* `WalkLog.Meets` — the contract of a part of the traversal: it reads nothing but items.
* `WalkLog.Progress` — an iterator goes on; what it leaves behind was read.
* `Traverses.reads`, `Traverses.reads_only` — the traversal reads every item, and nothing else.
-/

namespace L2State

open Lib

/-! ## Items -/

section Items

variable (decode : Bytes → Except Err Node) (db : Store)

/-- From a node of a trie to one right below it. -/
inductive NodeStep : HexPath × Node → HexPath × Node → Prop
  | load {path : HexPath} {h : Hash} {blob : Bytes} {n : Node}
      (hBlob : db.get? h.bytes = some blob) (hNode : decode blob = .ok n) :
      NodeStep (path, .hash h) (path, n)
  | short {path key : HexPath} {child : Node} :
      NodeStep (path, .short key child) (path ++ key, child)
  | full {path : HexPath} {children : Fin 17 → Node} (i : Fin 17) :
      NodeStep (path, .full children) (path ++ [i], children i)

abbrev Below := Relation.ReflTransGen (NodeStep decode db)

/-- The nodes and the leaves of a trie; the empty trie has none. -/
def InTrie (root : Hash) (x : HexPath × Node) : Prop :=
  (root ≠ zeroHash ∧ root ≠ emptyRootHash) ∧ Below decode db ([], .hash root) x

/-- `common.BytesToHash(account.CodeHash)`. -/
def codeHashOf (a : StateAccount) : Hash := .ofBytes 32 a.codeHash

/-- The records of a state are nodes or codes. -/
inductive ItemKind
  | node
  | code

/-- **The items of a state.** -/
inductive HeadItem (root : Hash) : ItemKind → Hash → Prop
  | account {path : HexPath} {h : Hash} (hNode : InTrie decode db root (path, .hash h)) :
      HeadItem root .node h
  | storage {path path' : HexPath} {rlp : Bytes} {a : StateAccount} {h : Hash}
      (hLeaf : InTrie decode db root (path, .value rlp)) (hAccount : decodeStateAccount rlp = .ok a)
      (hNode : InTrie decode db a.root (path', .hash h)) : HeadItem root .node h
  | code {path : HexPath} {rlp : Bytes} {a : StateAccount}
      (hLeaf : InTrie decode db root (path, .value rlp)) (hAccount : decodeStateAccount rlp = .ok a)
      (hCode : codeHashOf a ≠ emptyCodeHash) : HeadItem root .code (codeHashOf a)

end Items

/-! ## Logs -/

/-- Everything that happened in a run over a database that answers with its records. -/
structure WalkLog where
  m        : Walker
  db       : Store
  happened : Event WalkCalls → Prop
  honest   : ∀ key v, happened ⟨.get key, .ok v⟩ → db.get? key = some v

namespace WalkLog

variable (w : WalkLog)

/-- The record was read. -/
def WasRead (h : Hash) : Prop := ∃ v, w.happened ⟨.get h.bytes, .ok v⟩

/-- The code was read, and has its hash. -/
def CodeRead (h : Hash) : Prop := ∃ v, w.happened ⟨.get h.bytes, .ok v⟩ ∧ w.m.geth.keccak v = h

abbrev Item : ItemKind → Hash → Prop := HeadItem w.m.decodeNode w.db w.m.root

abbrev OfTrie : Hash → HexPath × Node → Prop := InTrie w.m.decodeNode w.db

/-- A call that a successful traversal makes: it reads an item, and who adds a code reads it. -/
def Fair : Event WalkCalls → Prop
  | ⟨.get key, _⟩ => ∃ kind h, w.Item kind h ∧ h.bytes = key
  | ⟨.addCode h, added⟩ => added = true → w.CodeRead h
  | _ => True

/-- The contract of a part of the traversal. -/
abbrev Meets {α : Type} (p : Walk α) (Q : α → Prop) : Prop := Contract w.happened w.Fair p Q

/-- A part of the trie that an iterator has still to visit. -/
def Pending (it : TrieIterator) (x : HexPath × Node) : Prop :=
  ∃ e ∈ it.stack, Below w.m.decodeNode w.db e x

/-- What has become of a visited part of the trie, where a leaf is to be `Handled`. -/
def Seen (Handled : Bytes → Prop) : HexPath × Node → Prop
  | (_, .hash h) => w.WasRead h
  | (_, .value v) => Handled v
  | _ => True

/-- An iterator goes on. -/
structure Progress (Handled : Bytes → Prop) (it it' : TrieIterator) : Prop where
  range  : it'.range = it.range
  within : ∀ x, w.Pending it' x → w.Pending it x
  covers : ∀ x, w.Pending it x → inRange it.range x.1 = true → w.Seen Handled x ∨ w.Pending it' x

/-- What `Next` has found. The iterator has come to `it'` when the leaf is handled. -/
def Yields (Handled : Bytes → Prop) (it : TrieIterator) :
    Option ((Bytes × Bytes) × TrieIterator) → Prop
  | none => w.Progress Handled it ⟨it.range, []⟩
  | some (leaf, it') => (∃ path, w.Pending it (path, .value leaf.2)) ∧
      (∀ x, w.Pending it' x → w.Pending it x) ∧ (Handled leaf.2 → w.Progress Handled it it')

/-- Every node that is still to be visited is an item. -/
def Owned (it : TrieIterator) : Prop :=
  ∀ path h, w.Pending it (path, .hash h) → ∃ kind, w.Item kind h

end WalkLog

variable {tr : List (Event WalkCalls)}

section Walk

variable {w : WalkLog} {range : Option (Fin 16)} {root : Hash} {Handled : Bytes → Prop}
  {e x : HexPath × Node} {rest : List (HexPath × Node)} {it it' : TrieIterator}

/-! ## Iterators -/

theorem pending_cons : w.Pending ⟨range, e :: rest⟩ x ↔
    Below w.m.decodeNode w.db e x ∨ w.Pending ⟨range, rest⟩ x :=
  List.exists_mem_cons_iff ..

/-- What lies in the range is below what does. -/
theorem inRange_of_below (h : Below w.m.decodeNode w.db e x) (hIn : inRange range x.1 = true) :
    inRange range e.1 = true := by
  induction h using Relation.ReflTransGen.head_induction_on with
  | refl => exact hIn
  | head hStep _ ih =>
    cases hStep with
    | load => exact ih
    | @short path | @full path =>
      cases path with
      | nil => rfl
      | cons i path => exact ih

namespace WalkLog.Progress

theorem refl (it : TrieIterator) : w.Progress Handled it it :=
  ⟨rfl, fun _ => id, fun _ h _ => .inr h⟩

theorem trans {mid : TrieIterator} (h : w.Progress Handled it mid)
    (h' : w.Progress Handled mid it') : w.Progress Handled it it' where
  range := h'.range.trans h.range
  within x hx := h.within x (h'.within x hx)
  covers x hx hIn := (h.covers x hx hIn).elim .inl fun hMid => h'.covers x hMid (h.range ▸ hIn)

/-- A node is replaced by those right below it. -/
theorem step (below : List (HexPath × Node))
    (hBelow : ∀ y, y ∈ below ↔ NodeStep w.m.decodeNode w.db e y)
    (hSeen : inRange range e.1 = true → w.Seen Handled e) :
    w.Progress Handled ⟨range, e :: rest⟩ ⟨range, below ++ rest⟩ where
  range := rfl
  within x hx := by
    obtain ⟨y, hy, hx⟩ := hx
    rcases List.mem_append.mp hy with hy | hy
    · exact ⟨e, List.mem_cons_self, .head ((hBelow y).mp hy) hx⟩
    · exact ⟨y, List.mem_cons_of_mem _ hy, hx⟩
  covers x hx hIn := by
    rcases pending_cons.mp hx with hx | ⟨y, hy, hx⟩
    · rcases hx.cases_head with rfl | ⟨y, hStep, hx⟩
      · exact .inl (hSeen hIn)
      · exact .inr ⟨y, List.mem_append_left _ ((hBelow y).mpr hStep), hx⟩
    · exact .inr ⟨y, List.mem_append_right _ hy, hx⟩

/-- Nothing is below a leaf. -/
theorem leaf (hLeaf : ∀ y, ¬ NodeStep w.m.decodeNode w.db e y)
    (hSeen : inRange range e.1 = true → w.Seen Handled e) :
    w.Progress Handled ⟨range, e :: rest⟩ ⟨range, rest⟩ :=
  step [] (fun y => ⟨nofun, fun h => (hLeaf y h).elim⟩) hSeen

/-- A node outside of the range is passed over. -/
theorem skip (hOut : inRange range e.1 = false) :
    w.Progress Handled ⟨range, e :: rest⟩ ⟨range, rest⟩ where
  range := rfl
  within x hx := pending_cons.mpr (.inr hx)
  covers x hx hIn := by
    refine .inr ((pending_cons.mp hx).resolve_left fun hBelow => ?_)
    rw [inRange_of_below hBelow hIn] at hOut
    cases hOut

/-- A node is replaced by what was read for it. -/
theorem load {path : HexPath} {h : Hash} {blob : Bytes} {n : Node} (hRead : w.WasRead h)
    (hBlob : w.db.get? h.bytes = some blob) (hNode : w.m.decodeNode blob = .ok n) :
    w.Progress Handled ⟨range, (path, .hash h) :: rest⟩ ⟨range, (path, n) :: rest⟩ := by
  refine .step [(path, n)] (fun y => List.mem_singleton.trans ⟨?_, ?_⟩) fun _ => hRead
  · rintro rfl
    exact .load hBlob hNode
  · rintro ⟨hBlob', hNode'⟩
    obtain rfl := Option.some.inj (hBlob.symm.trans hBlob')
    obtain rfl := Except.ok.inj (hNode.symm.trans hNode')
    rfl

theorem yields (h : w.Progress Handled it it') {out : Option ((Bytes × Bytes) × TrieIterator)}
    (hOut : w.Yields Handled it' out) : w.Yields Handled it out := by
  cases out with
  | none => exact h.trans (h.range ▸ hOut)
  | some out =>
    obtain ⟨⟨path, hLeaf⟩, hWithin, hDone⟩ := hOut
    exact ⟨⟨path, h.within _ hLeaf⟩, fun x hx => h.within x (hWithin x hx),
      fun hv => h.trans (hDone hv)⟩

end WalkLog.Progress

theorem live_meets : w.Meets Walk.live fun _ => True := by
  refine .bind (.invoke (Q := fun _ => True) fun r _ => ⟨trivial, trivial⟩) fun r _ => ?_
  cases r with
  | none => exact .pure trivial
  | some err => exact .fail err

theorem race_meets : w.Meets Walk.race fun _ => True := .invoke fun _ _ => ⟨trivial, trivial⟩

theorem computed_meets {α : Type} (x : Except Err α) : w.Meets (computed x) fun _ => True :=
  .computed fun _ _ => trivial

/-- A read of an item. -/
theorem get_meets {kind : ItemKind} {h : Hash} (hItem : w.Item kind h) :
    w.Meets (Walk.get h.bytes) fun r => w.happened ⟨.get h.bytes, r⟩ :=
  .invoke fun _ hr => ⟨⟨kind, h, hItem, rfl⟩, hr⟩

theorem nodeBlob_eq_ok {reply : Except Err Bytes} {blob : Bytes} (h : nodeBlob reply = .ok blob) :
    reply = .ok blob := by
  cases reply with
  | error err => cases h
  | ok b =>
    simp only [nodeBlob] at h
    split at h
    · cases h
    · exact h

/-- A node that was read is the one of the database. -/
theorem resolve_meets {h : Hash} (hItem : ∃ kind, w.Item kind h) :
    w.Meets (w.m.resolve h) fun out => ∀ n, out = .ok n →
      w.WasRead h ∧ ∃ blob, w.db.get? h.bytes = some blob ∧ w.m.decodeNode blob = .ok n := by
  obtain ⟨kind, hItem⟩ := hItem
  refine .ite (fun _ => .pure nofun) fun _ => ?_
  refine (get_meets hItem).bind fun r hr => .pure fun n hn => ?_
  obtain ⟨blob, hBlob, hNode⟩ := bind_eq_ok.mp hn
  rw [nodeBlob_eq_ok hBlob] at hr
  exact ⟨⟨blob, hr⟩, blob, w.honest _ _ hr, hNode⟩

/-- **A step of an iterator.** -/
theorem advance_meets (Handled : Bytes → Prop) (hOwned : w.Owned it) :
    w.Meets (w.m.advance it) (Sum.elim (w.Progress Handled it) (w.Yields Handled it)) := by
  match it with
  | ⟨_, []⟩ => exact .pure (WalkLog.Progress.refl _)
  | ⟨_, (path, .empty) :: rest⟩ => exact .pure (WalkLog.Progress.leaf nofun fun _ => trivial)
  | ⟨range, (path, .value v) :: rest⟩ =>
    refine .ite (fun _ => ?_) fun hOut => .pure (WalkLog.Progress.skip (by simpa using hOut))
    refine (computed_meets _).bind fun key _ => .pure ⟨⟨path, _, List.mem_cons_self, .refl⟩, ?_⟩
    exact ⟨fun x hx => pending_cons.mpr (.inr hx), fun hv => .leaf nofun fun _ => hv⟩
  | ⟨_, (path, .short key child) :: rest⟩ =>
    refine .pure (WalkLog.Progress.step [(path ++ key, child)]
      (fun y => List.mem_singleton.trans ⟨?_, ?_⟩) fun _ => trivial)
    · rintro rfl
      exact .short
    · rintro ⟨⟩
      rfl
  | ⟨_, (path, .full children) :: rest⟩ =>
    refine .pure (WalkLog.Progress.step _ (fun y => List.mem_map.trans ⟨?_, ?_⟩) fun _ => trivial)
    · rintro ⟨i, -, rfl⟩
      exact .full i
    · rintro ⟨⟩
      exact ⟨_, List.mem_finRange _, rfl⟩
  | ⟨range, (path, .hash h) :: rest⟩ =>
    have hPasses : w.Meets (if inRange range path then pure false else Walk.race) fun passes =>
        passes = true → inRange range path = false :=
      .ite (fun _ => .pure nofun) fun hOut => race_meets.mono fun _ _ _ => by simpa using hOut
    refine .bind hPasses fun passes hOut => ?_
    refine .ite (fun hPassed => .pure (WalkLog.Progress.skip (hOut hPassed))) fun _ => ?_
    refine (resolve_meets (hOwned path h ⟨_, List.mem_cons_self, .refl⟩)).bind fun out hNode => ?_
    refine race_meets.bind fun again _ => ?_
    refine .ite (fun _ => .pure (WalkLog.Progress.refl _)) fun _ => ?_
    refine .bind (.computed (Q := fun n => out = .ok n) fun _ => id) fun n hn => .pure ?_
    obtain ⟨hRead, blob, hBlob, hDecode⟩ := hNode n hn
    exact WalkLog.Progress.load hRead hBlob hDecode

/-- **`Next`.** -/
theorem next_meets (Handled : Bytes → Prop) (hOwned : w.Owned it) :
    w.Meets (w.m.next it) (w.Yields Handled it) := by
  refine .repeatUntil (w.Progress Handled it) (fun mid hMid => ?_) (.refl it)
  have hStep := advance_meets Handled fun path h hx => hOwned path h (hMid.within _ hx)
  refine hStep.mono fun out hOut => ?_
  cases out with
  | inl it' => exact hMid.trans hOut
  | inr out => exact hMid.yields hOut

/-! ## Tries -/

/-- The iterator of a whole trie, before its root is read. -/
def TrieIterator.start (range : Option (Fin 16)) (root : Hash) : TrieIterator :=
  ⟨range, if root = zeroHash ∨ root = emptyRootHash then [] else [([], .hash root)]⟩

theorem pending_start : w.Pending (.start range root) x ↔ w.OfTrie root x := by
  unfold WalkLog.Pending TrieIterator.start WalkLog.OfTrie InTrie
  split
  next hEmpty => simp [← not_or, hEmpty]
  next hFull => simp [← not_or, hFull]

/-- The whole trie in the range was visited. -/
def WalkLog.Visited (w : WalkLog) (Handled : Bytes → Prop) (range : Option (Fin 16)) (root : Hash) :
    Prop := w.Progress Handled (.start range root) ⟨range, []⟩

theorem WalkLog.Visited.seen (h : w.Visited Handled range root) (hx : w.OfTrie root x)
    (hIn : inRange range x.1 = true) : w.Seen Handled x :=
  (h.covers x (pending_start.mpr hx) hIn).resolve_right nofun

/-- What is left after the last leaf. -/
theorem visited_of_yields (hIt : w.Progress Handled (.start range root) it)
    (hNone : w.Yields Handled it none) : w.Visited Handled range root := by
  have hEnd := hIt.trans hNone
  rwa [hIt.range] at hEnd

theorem inRange_none (path : HexPath) : inRange none path = true := by
  cases path <;> rfl

/-- Every path lies in one of the ranges. -/
theorem exists_inRange (path : HexPath) : ∃ p : Fin 16, inRange (some p) path = true := by
  cases path with
  | nil => exact ⟨0, rfl⟩
  | cons i path => exact ⟨⟨min i.val 15, by omega⟩, by simp [inRange]⟩

/-- The nodes of a trie are items. -/
def WalkLog.TrieOwned (w : WalkLog) (root : Hash) : Prop :=
  ∀ path h, w.OfTrie root (path, .hash h) → ∃ kind, w.Item kind h

/-- What is ahead of an iterator of the trie is in the trie. -/
theorem WalkLog.TrieOwned.owned (h : w.TrieOwned root)
    (hIt : w.Progress Handled (.start range root) it) : w.Owned it :=
  fun path hash hx => h path hash (pending_start.mp (hIt.within _ hx))

/-- An iterator of a trie whose nodes are items. -/
theorem openIterator_meets (Handled : Bytes → Prop) (hOwned : w.TrieOwned root) :
    w.Meets (w.m.openIterator root range) (w.Progress Handled (.start range root)) := by
  have hEmpty : root = zeroHash ∨ root = emptyRootHash →
      w.Progress Handled (.start range root) ⟨range, []⟩ := by
    intro h
    rw [TrieIterator.start, if_pos h]
    exact .refl _
  refine .ite (fun _ => .ite (fun h => .pure (hEmpty h)) fun _ => .fail _) fun hFull => ?_
  refine (get_meets (.account ⟨not_or.mp hFull, .refl⟩)).bind fun reply _ => ?_
  refine (computed_meets _).bind fun _ _ => .ite (fun h => .pure (hEmpty h)) fun hRoot => ?_
  refine (resolve_meets (hOwned [] root ⟨not_or.mp hRoot, .refl⟩)).bind fun out hNode => ?_
  refine .bind (.computed (Q := fun n => out = .ok n) fun _ => id) fun n hn => .pure ?_
  obtain ⟨hRead, blob, hBlob, hDecode⟩ := hNode n hn
  rw [TrieIterator.start, if_neg hRoot]
  exact .load hRead hBlob hDecode

/-! ## Storage -/

/-- There is nothing more to do for a slot. -/
def AnySlot (_ : Bytes) : Prop := True

/-- Every node of the trie was read. -/
def WalkLog.TrieRead (w : WalkLog) (root : Hash) : Prop :=
  ∀ path h, w.OfTrie root (path, .hash h) → w.WasRead h

variable {accountHash : Hash}

theorem finishProbedStorage_meets {r : Rebuilt} :
    w.Meets (w.m.finishProbedStorage accountHash root r) fun _ => True :=
  (computed_meets _).bind fun _ _ => live_meets.wrapped.bind fun _ _ => .pure trivial

/-- A probe that comes to the end has visited the trie. -/
theorem probeSlots_meets (hOwned : w.TrieOwned root) {n : Nat} {r : Rebuilt}
    (hIt : w.Progress AnySlot (.start none root) it) :
    w.Meets (w.m.probeSlots accountHash root n it r) fun out =>
      out.isSome = true → w.Visited AnySlot none root := by
  induction n generalizing it r with
  | zero =>
    refine (next_meets AnySlot (hOwned.owned hIt)).wrapped.bind fun out hOut => ?_
    cases out with
    | none =>
      exact finishProbedStorage_meets.bind fun _ _ => .pure fun _ => visited_of_yields hIt hOut
    | some out => exact live_meets.bind fun _ _ => .pure nofun
  | succ n ih =>
    refine live_meets.bind fun _ _ => ?_
    refine (next_meets AnySlot (hOwned.owned hIt)).wrapped.bind fun out hOut => ?_
    cases out with
    | none =>
      exact finishProbedStorage_meets.bind fun _ _ => .pure fun _ => visited_of_yields hIt hOut
    | some out => exact (computed_meets _).bind fun r' _ => ih (hIt.trans (hOut.2.2 trivial))

/-- A storage partition visits what is below its nibble. -/
theorem migrateStoragePartition_meets (hOwned : w.TrieOwned root) (accountHash : Hash)
    (p : Fin 16) : w.Meets (w.m.migrateStoragePartition accountHash root p) fun _ =>
      w.Visited AnySlot (some p) root := by
  have hStep : ∀ st : TrieIterator × Rebuilt, w.Progress AnySlot (.start (some p) root) st.1 →
      w.Meets (w.m.storageStep accountHash p st) (Sum.elim
        (fun st' => w.Progress AnySlot (.start (some p) root) st'.1)
        fun _ => w.Visited AnySlot (some p) root) := by
    intro st hSt
    refine (next_meets AnySlot (hOwned.owned hSt)).wrapped.bind fun out hOut => ?_
    cases out with
    | none => exact .pure (visited_of_yields hSt hOut)
    | some out =>
      refine live_meets.bind fun _ _ => (computed_meets _).bind fun _ _ => .pure ?_
      exact hSt.trans (hOut.2.2 trivial)
  refine live_meets.bind fun _ _ =>
    (openIterator_meets AnySlot hOwned).wrapped.bind fun it hIt => ?_
  refine (Contract.repeatUntil _ hStep (s := (it, .empty)) hIt).bind fun r hVisited => ?_
  exact (computed_meets _).bind fun _ _ => live_meets.wrapped.bind fun _ _ => .pure hVisited

theorem tasks_meet {α : Type} {task : Fin 16 → Walk α} {Q : Fin 16 → Prop}
    (h : ∀ p, w.Meets (task p) fun _ => Q p) :
    w.Meets (Walker.runMigratePartitionTasks task) fun _ => ∀ p, Q p := by
  refine (Contract.allTogether h _).bind fun results hDone => live_meets.bind fun _ _ => ?_
  refine .pure fun p => ?_
  obtain ⟨-, hp⟩ := hDone p (List.mem_finRange p)
  exact hp

theorem migratePartitionedStorage_meets (hOwned : w.TrieOwned root) :
    w.Meets (w.m.migratePartitionedStorage accountHash root) fun _ => w.TrieRead root := by
  refine .bind (tasks_meet fun p => live_meets.bind fun _ _ =>
    (migrateStoragePartition_meets hOwned accountHash p).wrapped) fun partitions hVisited => ?_
  refine live_meets.bind fun _ _ => (computed_meets _).bind fun _ _ => ?_
  refine live_meets.wrapped.bind fun _ _ => .pure fun path h hx => ?_
  obtain ⟨p, hp⟩ := exists_inRange path
  exact (hVisited p).seen hx hp

/-- **A storage trie is read.** -/
theorem migrateStorage_meets (hOwned : w.TrieOwned root) :
    w.Meets (w.m.migrateStorage accountHash root) fun _ => w.TrieRead root := by
  refine .ite (fun hEmpty => .pure fun path h hx => absurd hEmpty hx.1.2) fun _ => ?_
  have hProbe : w.Meets (w.m.probeStorage accountHash root) fun out =>
      out.isSome = true → w.Visited AnySlot none root :=
    live_meets.bind fun _ _ => (openIterator_meets AnySlot hOwned).wrapped.bind fun it hIt =>
      probeSlots_meets hOwned hIt
  refine hProbe.bind fun out hOut => ?_
  cases out with
  | some counts => exact .pure fun path h hx => (hOut rfl).seen hx (inRange_none path)
  | none => exact migratePartitionedStorage_meets hOwned

/-! ## Accounts -/

/-- A code is read. -/
theorem readMigrateCode_meets {codeHash : Hash} (hCode : codeHash ≠ emptyCodeHash)
    (hItem : w.Item .code codeHash) :
    w.Meets (w.m.readMigrateCode accountHash codeHash) fun _ => w.CodeRead codeHash := by
  refine .ite (fun h => absurd h hCode) fun _ => live_meets.bind fun _ _ => ?_
  refine (get_meets hItem).bind fun reply hr => .bind (.computed fun _ => id) fun code hOut => ?_
  refine .bind (.computed fun _ => id) fun _ hLength =>
    .bind (.computed fun _ => id) fun _ hHash => ?_
  refine .pure ⟨code, ?_, require_eq_ok.mp hHash⟩
  rw [wrapping_eq_ok] at hOut
  split at hOut
  · cases hOut
    exact absurd rfl (require_eq_ok.mp hLength)
  · rwa [hOut] at hr

/-- What `prepareMigrateAccount` returns, and its only call. -/
structure WalkLog.Prepared (w : WalkLog) (rlp : Bytes) (tr : List (Event WalkCalls))
    (job : AccountJob) : Prop where
  account : decodeStateAccount rlp = .ok job.account
  code    : job.codeHash = codeHashOf job.account
  known   : job.codeHash ≠ emptyCodeHash → w.happened ⟨.addCode job.codeHash, job.writeCode⟩
  written : job.writeCode = true → job.codeHash ≠ emptyCodeHash
  events  : ∀ e ∈ tr, e = ⟨.addCode job.codeHash, job.writeCode⟩

theorem decodeStateAccount_of_full {hash : Hash} {data : Bytes} {a : StateAccount}
    (h : decodeFullAccount hash data = .ok a) : decodeStateAccount data = .ok a := by
  simp only [decodeFullAccount, bind_eq_ok, wrapping_eq_ok, rlpResult_eq_ok, pure_eq_ok,
    Except.ok.injEq] at h
  obtain ⟨a, hDecode, _, _, rfl⟩ := h
  exact hDecode

theorem prepareMigrateAccount_returns {p : Fin 16} {sequence : Nat} {leaf : Bytes × Bytes}
    {job : AccountJob} (h : Returns (Walker.prepareMigrateAccount p sequence leaf) tr job)
    (hLog : ∀ e ∈ tr, w.happened e) : w.Prepared leaf.2 tr job := by
  obtain ⟨_, _, _, hKey, hDecode, rfl⟩ := returns_bind.mp h
  obtain ⟨rfl, -⟩ := returns_computed.mp hKey
  obtain ⟨account, _, _, hLeaf, hRest, rfl⟩ := returns_bind.mp hDecode
  obtain ⟨rfl, hAccount⟩ := returns_computed.mp hLeaf
  have hDecoded := decodeStateAccount_of_full hAccount
  dsimp only at hRest
  split at hRest
  next hEmpty =>
    obtain ⟨rfl, rfl⟩ := returns_pure.mp hRest
    exact ⟨hDecoded, rfl, fun hCode => absurd hEmpty hCode, nofun, nofun⟩
  next hCode =>
    obtain ⟨added, _, _, hAdd, hEnd, rfl⟩ := returns_bind.mp hRest
    obtain rfl := returns_invoke.mp hAdd
    obtain ⟨rfl, rfl⟩ := returns_pure.mp hEnd
    exact ⟨hDecoded, rfl, fun _ => hLog _ (by simp), fun _ => hCode, by simp⟩

/-- The task of the account is done. -/
def WalkLog.JobDone (w : WalkLog) (job : AccountJob) : Prop :=
  w.TrieRead job.account.root ∧ (job.writeCode = true → w.CodeRead job.codeHash)

theorem jobDone_of_not_async {job : AccountJob} (hSync : ¬ job.async = true) : w.JobDone job := by
  simp only [AccountJob.async, decide_eq_true_eq, not_or, not_not] at hSync
  exact ⟨fun path h hx => absurd hSync.1 hx.1.2, fun hWrite => absurd hWrite hSync.2⟩

/-- A leaf of the account trie is handled: its storage was read, and its code is known. -/
def WalkLog.AccountHandled (w : WalkLog) (rlp : Bytes) : Prop :=
  ∃ a, decodeStateAccount rlp = .ok a ∧ w.TrieRead a.root ∧
    (codeHashOf a ≠ emptyCodeHash → ∃ added, w.happened ⟨.addCode (codeHashOf a), added⟩)

section Account

variable {path : HexPath} {rlp : Bytes} {tr : List (Event WalkCalls)} {job : AccountJob}

theorem WalkLog.Prepared.handled (h : w.Prepared rlp tr job) (hDone : w.JobDone job) :
    (∀ e ∈ tr, w.Fair e) ∧ w.AccountHandled rlp := by
  constructor
  · intro e he
    obtain rfl := h.events e he
    exact hDone.2
  · refine ⟨job.account, h.account, hDone.1, fun hCode => ⟨job.writeCode, ?_⟩⟩
    exact h.code ▸ h.known (h.code ▸ hCode)

/-- **The task of an account.** -/
theorem accountTask_meets (hLeaf : w.OfTrie w.m.root (path, .value rlp))
    (hJob : w.Prepared rlp tr job) (p : Fin 16) (sequence : Nat) :
    w.Meets (w.m.accountTask p sequence job) fun _ => w.JobDone job := by
  have hOwned : w.TrieOwned job.account.root := fun _ _ hx => ⟨_, .storage hLeaf hJob.account hx⟩
  have hCode : w.Meets
      (if job.writeCode then w.m.readMigrateCode job.hash job.codeHash else pure [])
      fun _ => job.writeCode = true → w.CodeRead job.codeHash := by
    refine .ite (fun hWrite => ?_) fun hWrite => .pure fun h => absurd h hWrite
    have hNe := hJob.written hWrite
    refine (readMigrateCode_meets hNe ?_).mono fun _ hRead _ => hRead
    rw [hJob.code] at hNe ⊢
    exact .code hLeaf hJob.account hNe
  have hProcess : w.Meets (w.m.processMigrateAccount job) fun _ => w.JobDone job :=
    live_meets.bind fun _ _ => (migrateStorage_meets hOwned).bind fun _ hStorage =>
      hCode.bind fun _ hRead => .pure ⟨hStorage, hRead⟩
  exact hProcess.wrapped.bind fun _ hDone => .pure hDone

/-- The iterator walks on the account trie. -/
def WalkLog.OnAccounts (w : WalkLog) (it : TrieIterator) : Prop :=
  ∀ x, w.Pending it x → w.OfTrie w.m.root x

theorem WalkLog.OnAccounts.owned (h : w.OnAccounts it) : w.Owned it :=
  fun _ _ hx => ⟨_, .account (h _ hx)⟩

/-- What a burst leaves of its iterator. -/
def WalkLog.Burst (w : WalkLog) (it it' : TrieIterator) (eof : Bool) : Prop :=
  w.Progress w.AccountHandled it it' ∧
    (eof = true → w.Progress w.AccountHandled it' ⟨it'.range, []⟩)

theorem WalkLog.Burst.refl (it : TrieIterator) : w.Burst it it false := ⟨.refl it, nofun⟩

/-- The tasks run beside the loop that starts them. -/
theorem submitAccounts_meets (hOn : w.OnAccounts it) (p : Fin 16) (n sequence : Nat) :
    w.Meets (w.m.submitAccounts p n sequence it) fun out => w.Burst it out.2.1 out.2.2 := by
  induction n generalizing it sequence with
  | zero => exact .pure (.refl it)
  | succ n ih =>
    refine race_meets.bind fun _ _ => .ite (fun _ => .pure (.refl it)) fun _ => ?_
    refine live_meets.bind fun _ _ => ?_
    refine (next_meets w.AccountHandled hOn.owned).wrapped.bind fun out hOut => ?_
    cases out with
    | none => exact .pure ⟨.refl it, fun _ => hOut⟩
    | some out =>
      obtain ⟨leaf, it'⟩ := out
      obtain ⟨⟨path, hLeaf⟩, hWithin, hDone⟩ := hOut
      have hMore := ih (fun x hx => hOn x (hWithin x hx)) (sequence + 1)
      refine .bind_deferred (fun _ _ => prepareMigrateAccount_returns) fun tr job hJob => ?_
      have hBoth : w.Meets (if job.async then Walk.concurrently (w.m.accountTask p sequence job)
            (w.m.submitAccounts p n (sequence + 1) it')
          else w.m.submitAccounts p n (sequence + 1) it' >>= fun rest =>
            pure ((job, [], job.counts), rest))
          fun out => w.JobDone job ∧ w.Burst it' out.2.2.1 out.2.2.2 :=
        .ite (fun _ => (accountTask_meets (hOn _ hLeaf) hJob p sequence).together hMore)
          fun hSync =>
          hMore.bind fun rest hRest => .pure ⟨jobDone_of_not_async hSync, hRest⟩
      -- the leaf is handled when its task has joined
      refine hBoth.bind fun out hOut => .pure ?_
      obtain ⟨hFair, hHandled⟩ := hJob.handled hOut.1
      exact ⟨hFair, (hDone hHandled).trans hOut.2.1, hOut.2.2⟩

theorem foldlM_meets {α β : Type} {f : β → α → Walk β} (h : ∀ b a, w.Meets (f b a) fun _ => True)
    (xs : List α) (b : β) : w.Meets (xs.foldlM f b) fun _ => True := by
  induction xs generalizing b with
  | nil => exact .pure trivial
  | cons x xs ih =>
    rw [List.foldlM_cons]
    exact (h b x).bind fun b' _ => ih b'

theorem mergeMigrateAccount_meets (p : Fin 16) (st : Nat × Rebuilt)
    (result : AccountJob × Bytes × Counts) :
    w.Meets (w.m.mergeMigrateAccount p st result) fun _ => True :=
  .bind (.wrapped (live_meets.bind fun _ _ => computed_meets _)) fun _ _ => .pure trivial

theorem runMigrateAccountBurst_meets (hOn : w.OnAccounts it)
    (hLeaf : w.OfTrie w.m.root (path, .value rlp)) (hJob : w.Prepared rlp tr job)
    (p : Fin 16) (sequence : Nat) (r : Rebuilt) :
    w.Meets (w.m.runMigrateAccountBurst p sequence it job r) fun out =>
      w.JobDone job ∧ w.Burst it out.2.1 out.2.2 := by
  refine live_meets.wrapped.bind fun _ _ => ?_
  refine .bind (.together (accountTask_meets hLeaf hJob p sequence)
    (submitAccounts_meets hOn p (w.m.window - 1) (sequence + 1))) fun out hOut => ?_
  refine .bind (foldlM_meets (mergeMigrateAccount_meets p) _ _) fun _ _ => ?_
  exact live_meets.wrapped.bind fun _ _ => .pure hOut

end Account

/-- **An iteration of the walk over the accounts of a partition.** -/
theorem accountStep_meets {p : Fin 16} {st : (Nat × Rebuilt) × TrieIterator}
    (hSt : w.Progress w.AccountHandled (.start (some p) w.m.root) st.2) :
    w.Meets (w.m.accountStep p st) (Sum.elim
      (fun st' => w.Progress w.AccountHandled (.start (some p) w.m.root) st'.2)
      fun _ => w.Visited w.AccountHandled (some p) w.m.root) := by
  have hOn : w.OnAccounts st.2 := fun x hx => pending_start.mp (hSt.within x hx)
  refine live_meets.wrapped.bind fun _ _ => ?_
  refine (next_meets w.AccountHandled hOn.owned).wrapped.wrapped.bind fun out hOut => ?_
  cases out with
  | none => exact .pure (visited_of_yields hSt hOut)
  | some out =>
    obtain ⟨leaf, it⟩ := out
    obtain ⟨⟨path, hLeaf⟩, hWithin, hDone⟩ := hOut
    refine .bind_deferred (fun _ _ h => prepareMigrateAccount_returns (returns_wrapped h))
      fun tr job hJob => ?_
    refine .ite (fun _ => ?_) fun hSync => ?_
    · have hOn' : w.OnAccounts it := fun x hx => hOn x (hWithin x hx)
      refine (runMigrateAccountBurst_meets hOn' (hOn _ hLeaf) hJob p _ _).bind fun out hOut => ?_
      obtain ⟨hJobDone, hTo, hEof⟩ := hOut
      obtain ⟨hFair, hHandled⟩ := hJob.handled hJobDone
      have hNow := hSt.trans ((hDone hHandled).trans hTo)
      refine .pure ⟨hFair, ?_⟩
      split
      next h => exact visited_of_yields hNow (hEof h)
      next => exact hNow
    · obtain ⟨hFair, hHandled⟩ := hJob.handled (jobDone_of_not_async hSync)
      exact (computed_meets _).wrapped.bind fun _ _ => .pure ⟨hFair, hSt.trans (hDone hHandled)⟩

theorem migrateAccountPartition_meets (p : Fin 16) :
    w.Meets (w.m.migrateAccountPartition p) fun _ =>
      w.Visited w.AccountHandled (some p) w.m.root := by
  have hOwned : w.TrieOwned w.m.root := fun _ _ hx => ⟨_, .account hx⟩
  refine live_meets.wrapped.bind fun _ _ => ?_
  refine (openIterator_meets w.AccountHandled hOwned).wrapped.wrapped.bind fun it hIt => ?_
  refine (Contract.repeatUntil _ (fun _ => accountStep_meets) (s := ((0, .empty), it)) hIt).bind
    fun r hVisited => .wrapped ?_
  refine live_meets.bind fun _ _ => (computed_meets _).bind fun _ _ => ?_
  exact live_meets.wrapped.bind fun _ _ => .pure hVisited

theorem assembleMigratedTrie_eq_ok {m : Walker} {partitions : List PartitionResult} {hash : Hash}
    (h : m.assembleMigratedTrie root partitions = .ok hash) : hash = root := by
  simp only [Walker.assembleMigratedTrie, bind_eq_ok, require_eq_ok, pure_eq_ok,
    Except.ok.injEq] at h
  obtain ⟨hash, -, _, hRoot, rfl⟩ := h
  exact hRoot

/-- **The traversal visits every partition of the account trie.** -/
theorem validatePartitionedState_meets : w.Meets w.m.validatePartitionedState fun state =>
    state.root = w.m.root ∧ ∀ p, w.Visited w.AccountHandled (some p) w.m.root := by
  refine (tasks_meet migrateAccountPartition_meets).bind fun partitions hVisited => ?_
  refine .bind (.computed fun _ => id) fun root hRoot => live_meets.bind fun _ _ =>
    .pure ⟨?_, hVisited⟩
  exact assembleMigratedTrie_eq_ok (wrapping_eq_ok.mp hRoot)

end Walk

/-! ## Runs -/

theorem codeSet_add {h : Hash} {added : Bool} {s s' : List Hash}
    (hStep : codeSet.perform (.addCode h) added s = some s') :
    (h ∈ s ∧ s' = s) ∨ (added = true ∧ s' = h :: s) := by
  simp only [codeSet, hashSetAdd] at hStep
  by_cases hKnown : h ∈ s <;> simp_all

/-- **One of those who add a code is the first.** -/
theorem codeSet_added {s s' : List Hash} (hRun : codeSet.run tr s = some s') {h : Hash}
    {added : Bool} (hAdd : ⟨.addCode h, added⟩ ∈ tr) : h ∈ s ∨ ⟨.addCode h, true⟩ ∈ tr := by
  induction tr generalizing s with
  | nil => cases hAdd
  | cons e tr ih =>
    obtain ⟨mid, hStep, hRest⟩ := Object.run_cons_eq_some.mp hRun
    obtain ⟨op, reply⟩ := e
    have hLater := fun hMem => (ih hRest hMem).imp_right (List.mem_cons_of_mem ⟨op, reply⟩)
    cases op with
    | addCode h' =>
      rcases codeSet_add hStep with ⟨hKnown, rfl⟩ | ⟨rfl, rfl⟩
      · rcases List.mem_cons.mp hAdd with hEq | hMem
        · cases hEq
          exact .inl hKnown
        · exact hLater hMem
      · rcases List.mem_cons.mp hAdd with hEq | hMem
        · cases hEq
          exact .inr List.mem_cons_self
        · rcases hLater hMem with hMid | hTrue
          · rcases List.mem_cons.mp hMid with rfl | hs
            · exact .inr List.mem_cons_self
            · exact .inl hs
          · exact .inr hTrue
    | get | wait | race =>
      cases hStep
      exact hLater ((List.mem_cons.mp hAdd).resolve_left nofun)

/-- The calls of `Get` in a run, with their answers. -/
def getsOf : List (Event WalkCalls) → List (Bytes × Except Err Bytes)
  | [] => []
  | ⟨.get key, answer⟩ :: tr => (key, answer) :: getsOf tr
  | ⟨.wait, _⟩ :: tr | ⟨.addCode _, _⟩ :: tr | ⟨.race, _⟩ :: tr => getsOf tr

theorem mem_getsOf {key : Bytes} {answer : Except Err Bytes} :
    (key, answer) ∈ getsOf tr ↔ ⟨.get key, answer⟩ ∈ tr := by
  induction tr with
  | nil => exact ⟨nofun, nofun⟩
  | cons e tr ih =>
    obtain ⟨op, reply⟩ := e
    cases op with
    | get k =>
      rw [getsOf, List.mem_cons, List.mem_cons, ih]
      refine or_congr_left ⟨?_, ?_⟩
      · rintro ⟨⟩
        rfl
      · rintro ⟨⟩
        rfl
    | wait | addCode | race =>
      rw [getsOf, List.mem_cons, ih]
      exact ⟨.inr, fun h => h.resolve_left nofun⟩

/-- The calls of a run of the traversal that returns `out`. -/
def WalkRun (m : Walker) (tr : List (Event WalkCalls)) (out : Except Err StateResult) : Prop :=
  ∃ codes : List Hash, Exec codeSet m.validatePartitionedState.run ([] : List Hash) tr
    (.ret out) codes

/-- A database answers each call of the run with its record, if it answers at all. -/
def Honest (db : Store) (tr : List (Event WalkCalls)) : Prop :=
  ∀ key v, ⟨.get key, .ok v⟩ ∈ tr → db.get? key = some v

namespace WalkRun

variable {m : Walker} {db : Store} {tr : List (Event WalkCalls)} {state : StateResult}

/-- What the run has done. -/
theorem meets (h : WalkRun m tr (.ok state)) (w : WalkLog) (hWalker : w.m = m)
    (hLog : w.happened = (· ∈ tr)) : (∀ e ∈ tr, w.Fair e) ∧ state.root = m.root ∧
      ∀ p, w.Visited w.AccountHandled (some p) m.root := by
  obtain ⟨codes, hExec⟩ := h
  subst hWalker
  exact validatePartitionedState_meets tr state (exec_ret_iff.mp hExec).1 fun e he => hLog ▸ he

/-- Nothing but items is read. -/
theorem reads_only (h : WalkRun m tr (.ok state)) (hHonest : Honest db tr) {key : Bytes}
    {reply : Except Err Bytes} (hGet : ⟨.get key, reply⟩ ∈ tr) :
    ∃ kind h, HeadItem m.decodeNode db m.root kind h ∧ h.bytes = key :=
  (h.meets ⟨m, db, (· ∈ tr), hHonest⟩ rfl rfl).1 _ hGet

/-- Every item is read. -/
theorem reads (h : WalkRun m tr (.ok state)) (hHonest : Honest db tr) {kind : ItemKind}
    {hash : Hash} (hItem : HeadItem m.decodeNode db m.root kind hash) :
    ∃ v, ⟨.get hash.bytes, .ok v⟩ ∈ tr ∧ (kind = .code → m.geth.keccak v = hash) := by
  let w : WalkLog := ⟨m, db, (· ∈ tr), hHonest⟩
  obtain ⟨hFair, -, hVisited⟩ := h.meets w rfl rfl
  have hSeen : ∀ {x}, w.OfTrie m.root x → w.Seen w.AccountHandled x := fun {x} hx => by
    obtain ⟨p, hp⟩ := exists_inRange x.1
    exact (hVisited p).seen hx hp
  have hNode : ∀ {h}, w.WasRead h → ∃ v, ⟨.get h.bytes, .ok v⟩ ∈ tr ∧
      (ItemKind.node = .code → m.geth.keccak v = h) := fun ⟨v, hGet⟩ => ⟨v, hGet, nofun⟩
  cases hItem with
  | account hTrie => exact hNode (hSeen hTrie)
  | storage hLeaf hAccount hTrie =>
    obtain ⟨a, ha, hStorage, -⟩ := hSeen hLeaf
    obtain rfl := Except.ok.inj (ha.symm.trans hAccount)
    exact hNode (hStorage _ _ hTrie)
  | code hLeaf hAccount hCode =>
    -- one of the accounts with this code was the first to add it
    obtain ⟨a, ha, -, hKnown⟩ := hSeen hLeaf
    obtain rfl := Except.ok.inj (ha.symm.trans hAccount)
    obtain ⟨added, hAdd⟩ := hKnown hCode
    obtain ⟨codes, hExec⟩ := h
    have hFirst := (codeSet_added (exec_ret_iff.mp hExec).2 hAdd).resolve_left List.not_mem_nil
    obtain ⟨v, hGet, hHash⟩ := hFair _ hFirst rfl
    exact ⟨v, hGet, fun _ => hHash⟩

end WalkRun

end L2State
