import L2State.Geth.Trie
import L2State.Ovm.Reader
import L2State.Lib.Process

/-!
# L2State — rebuilding a trie with patches

`rebuildPatchedTriePrefix` of `ovm_transform.go`: the leaves of a trie and the
entries of an index namespace are walked in key order, and the result is fed
to a new stack trie. A patch replaces the leaf with its key, and a patch with
an empty value deletes it.

* `leafAt`, `valueAt` — a list of leaves as a map; for `valueAt` an absent key
  has the empty value.
* `TrieAccess.Holds` — what an opened trie reads.
* `mergePatches`, `patched` — the walk, and `valueAt_patched`, what it does to
  each key.
* `IsTrie` — leaves that a stack trie accepts, with their root.
* `returns_rebuildPatchedTriePrefix` — **the rebuilt trie is the patched one.**
-/

namespace L2State

open Lib

/-! ## Leaves as a map -/

/-- The keys increase. -/
def Increasing (l : History) : Prop := l.Pairwise fun a b => a.1 < b.1

/-- The value under a key. -/
def leafAt (l : History) (k : Bytes) : Option Bytes := (l.find? fun e => e.1 = k).map Prod.snd

/-- The value of a key, as `Get` returns it. -/
def valueAt (l : History) (k : Bytes) : Bytes := (leafAt l k).getD []

theorem leafAt_cons (e : Bytes × Bytes) (l : History) (k : Bytes) :
    leafAt (e :: l) k = if e.1 = k then some e.2 else leafAt l k := by
  unfold leafAt
  by_cases h : e.1 = k <;> simp [h]

variable {l : History} {k : Bytes} {os ps : History} {e : Bytes × Bytes}

theorem leafAt_eq_none : leafAt l k = none ↔ ∀ e ∈ l, e.1 ≠ k := by
  simp [leafAt]

theorem leafAt_eq_some (hOrder : Increasing l) {v : Bytes} :
    leafAt l k = some v ↔ (k, v) ∈ l := by
  induction l with
  | nil => simp [leafAt]
  | cons e l ih =>
    rw [Increasing, List.pairwise_cons] at hOrder
    rw [leafAt_cons, List.mem_cons]
    by_cases hk : e.1 = k
    · subst hk
      rw [if_pos rfl]
      constructor
      · intro h
        exact .inl (by rw [← Option.some.inj h])
      · rintro (h | h)
        · rw [← h]
        · -- the later keys are above this one
          exact absurd (hOrder.1 _ h) (lt_irrefl _)
    · rw [if_neg hk, ih hOrder.2]
      constructor
      · exact .inr
      · rintro (h | h)
        · exact absurd (congrArg Prod.fst h.symm) hk
        · exact h

theorem valueAt_of_mem (hOrder : Increasing l) {v : Bytes} (h : (k, v) ∈ l) :
    valueAt l k = v := by
  rw [valueAt, (leafAt_eq_some hOrder).mpr h]
  rfl

theorem valueAt_of_forall_ne (h : ∀ e ∈ l, e.1 ≠ k) : valueAt l k = [] := by
  rw [valueAt, leafAt_eq_none.mpr h]
  rfl

theorem mem_of_valueAt_ne_nil (hOrder : Increasing l) (h : valueAt l k ≠ []) :
    (k, valueAt l k) ∈ l := by
  rw [← leafAt_eq_some hOrder]
  unfold valueAt at h ⊢
  cases hLeaf : leafAt l k with
  | none => exact absurd (by rw [hLeaf]; rfl) h
  | some v => rfl

/-- The entries of a namespace as a map. -/
theorem leafAt_under (db : Store) (pre k : Bytes) :
    leafAt (Store.under db pre) k = SortedMap.get? db (pre ++ k) := by
  refine Option.ext fun v => ?_
  rw [leafAt_eq_some (Store.under_pairwise db pre)]
  exact Store.mem_under

/-- What an opened trie with these leaves reads: an iterator that reports no
error has passed all of them. -/
structure TrieAccess.Holds (t : TrieAccess) (leaves : History) : Prop where
  order   : Increasing leaves
  get     : ∀ k v, t.get k = .ok v → v = valueAt leaves k
  iterate : ∀ s, t.iterator = .ok s → s.err = none → s.leaves = leaves

/-- The database opens these leaves under an owner and a root. -/
def Tries.Holds (db : Tries) (owner root : Hash) (leaves : History) : Prop :=
  ∀ t, db.openTrie owner root = .ok t → t.Holds leaves

/-! ## The walk -/

/-- The patches up to a leaf, then the leaf unless one of them replaces it, and
the `rest` with the patches that are left. -/
def takePatches (o : Bytes × Bytes) (rest : History → History) : History → History
  | [] => o :: rest []
  | p :: ps =>
    if p.1 ≤ o.1 then p :: (if p.1 = o.1 then rest ps else takePatches o rest ps)
    else o :: rest (p :: ps)

/-- The keys and values that the loop passes, with empty values for
deletions. -/
def mergePatches : History → History → History
  | [] => id
  | o :: os => takePatches o (mergePatches os)

/-- A merged leaf is from one of the two sides. -/
theorem mem_or_mem_of_mergePatches (h : e ∈ mergePatches os ps) :
    e ∈ os ∨ e ∈ ps := by
  induction os generalizing ps with
  | nil => exact .inr h
  | cons o os ih =>
    -- the patches that come before the leaf `o`
    replace h : e ∈ takePatches o (mergePatches os) ps := h
    induction ps with
    | nil =>
      rcases List.mem_cons.mp h with rfl | h
      · exact .inl List.mem_cons_self
      · exact (ih h).elim (fun h => .inl (List.mem_cons_of_mem _ h)) .inr
    | cons p ps ihp =>
      rw [takePatches] at h
      split at h
      · rcases List.mem_cons.mp h with rfl | h
        · exact .inr List.mem_cons_self
        · split at h
          · exact (ih h).elim (fun h => .inl (List.mem_cons_of_mem _ h))
              fun h => .inr (List.mem_cons_of_mem _ h)
          · exact (ihp h).elim .inl fun h => .inr (List.mem_cons_of_mem _ h)
      · rcases List.mem_cons.mp h with rfl | h
        · exact .inl List.mem_cons_self
        · exact (ih h).elim (fun h => .inl (List.mem_cons_of_mem _ h)) .inr

theorem mergePatches_increasing (hos : Increasing os) (hps : Increasing ps) :
    Increasing (mergePatches os ps) := by
  induction os generalizing ps with
  | nil => exact hps
  | cons o os ih =>
    show Increasing (takePatches o (mergePatches os) ps)
    rw [Increasing, List.pairwise_cons] at hos
    induction ps with
    | nil =>
      refine List.pairwise_cons.mpr ⟨fun e he => ?_, ih hos.2 hps⟩
      rcases mem_or_mem_of_mergePatches he with he | he
      · exact hos.1 e he
      · exact absurd he (by simp)
    | cons p ps ihp =>
      have hps' := List.pairwise_cons.mp hps
      rw [takePatches]
      split
      · next hLe =>
        split
        · next hEq =>
          refine List.pairwise_cons.mpr ⟨fun e he => ?_, ih hos.2 hps'.2⟩
          rcases mem_or_mem_of_mergePatches he with he | he
          · exact hEq ▸ hos.1 e he
          · exact hps'.1 e he
        · next hNe =>
          refine List.pairwise_cons.mpr ⟨fun e he => ?_, ihp hps'.2⟩
          have hLt : p.1 < o.1 := lt_of_le_of_ne hLe hNe
          have hMerged : e ∈ mergePatches (o :: os) ps := he
          rcases mem_or_mem_of_mergePatches hMerged with he | he
          · rcases List.mem_cons.mp he with rfl | he
            · exact hLt
            · exact hLt.trans (hos.1 e he)
          · exact hps'.1 e he
      · next hGt =>
        have hLt : o.1 < p.1 := lt_of_not_ge hGt
        refine List.pairwise_cons.mpr ⟨fun e he => ?_, ih hos.2 hps⟩
        rcases mem_or_mem_of_mergePatches he with he | he
        · exact hos.1 e he
        · rcases List.mem_cons.mp he with rfl | he
          · exact hLt
          · exact hLt.trans (hps'.1 e he)

theorem mem_mergePatches_of_patch (h : e ∈ ps) :
    e ∈ mergePatches os ps := by
  induction os generalizing ps with
  | nil => exact h
  | cons o os ih =>
    show e ∈ takePatches o (mergePatches os) ps
    induction ps with
    | nil => exact absurd h (by simp)
    | cons p ps ihp =>
      rw [takePatches]
      split
      · rcases List.mem_cons.mp h with rfl | h
        · exact List.mem_cons_self
        · refine List.mem_cons_of_mem _ ?_
          split
          · exact ih h
          · exact ihp h
      · exact List.mem_cons_of_mem _ (ih h)

/-- A leaf without a patch stays. -/
theorem mem_mergePatches_of_leaf (h : e ∈ os) (hNone : ∀ p ∈ ps, p.1 ≠ e.1) :
    e ∈ mergePatches os ps := by
  induction os generalizing ps with
  | nil => exact absurd h (by simp)
  | cons o os ih =>
    show e ∈ takePatches o (mergePatches os) ps
    induction ps with
    | nil =>
      rcases List.mem_cons.mp h with rfl | h
      · exact List.mem_cons_self
      · exact List.mem_cons_of_mem _ (ih h hNone)
    | cons p ps ihp =>
      have hNone' := (List.forall_mem_cons.mp hNone).2
      rw [takePatches]
      split
      · refine List.mem_cons_of_mem _ ?_
        split
        · next hEq =>
          -- the leaf `o` is replaced, and it is not the one with the key of `e`
          rcases List.mem_cons.mp h with rfl | h
          · exact absurd hEq (hNone p List.mem_cons_self)
          · exact ih h hNone'
        · exact ihp hNone'
      · rcases List.mem_cons.mp h with rfl | h
        · exact List.mem_cons_self
        · exact List.mem_cons_of_mem _ (ih h hNone)

/-- **The walk patches each key**: the value of a key after the walk is that of
its patch, if it has one, and the one before otherwise. -/
theorem valueAt_mergePatches (hos : Increasing os) (hps : Increasing ps) (k : Bytes) :
    valueAt (mergePatches os ps) k = (leafAt ps k).getD (valueAt os k) := by
  have hMerged := mergePatches_increasing hos hps
  cases hPatch : leafAt ps k with
  | some v =>
    have hMem := (leafAt_eq_some hps).mp hPatch
    exact valueAt_of_mem hMerged (mem_mergePatches_of_patch hMem)
  | none =>
    have hNone := leafAt_eq_none.mp hPatch
    show valueAt (mergePatches os ps) k = valueAt os k
    cases hLeaf : leafAt os k with
    | some v =>
      have hMem := (leafAt_eq_some hos).mp hLeaf
      rw [valueAt_of_mem hos hMem]
      exact valueAt_of_mem hMerged (mem_mergePatches_of_leaf hMem hNone)
    | none =>
      -- neither a leaf nor a patch has the key
      have hOld := leafAt_eq_none.mp hLeaf
      rw [valueAt_of_forall_ne hOld]
      refine valueAt_of_forall_ne fun e he => ?_
      exact (mem_or_mem_of_mergePatches he).elim (hOld e) (hNone e)

/-- The leaves after the patches: empty values are deletions. -/
def patched (os ps : History) : History := (mergePatches os ps).filter fun e => e.2.length ≠ 0

theorem valueAt_filter_nonempty (hl : Increasing l) (k : Bytes) :
    valueAt (l.filter fun e => e.2.length ≠ 0) k = valueAt l k := by
  have hFilter : Increasing (l.filter fun e => e.2.length ≠ 0) := hl.filter _
  by_cases hEmpty : valueAt l k = []
  · rw [hEmpty]
    by_contra hSome
    -- a value that is left is one of the list
    have hMem := mem_of_valueAt_ne_nil hFilter hSome
    exact hSome ((valueAt_of_mem hl (List.mem_filter.mp hMem).1).symm.trans hEmpty)
  · refine valueAt_of_mem hFilter (List.mem_filter.mpr ⟨mem_of_valueAt_ne_nil hl hEmpty, ?_⟩)
    simpa using hEmpty

theorem patched_increasing (hos : Increasing os) (hps : Increasing ps) :
    Increasing (patched os ps) := (mergePatches_increasing hos hps).filter _

theorem valueAt_patched (hos : Increasing os) (hps : Increasing ps) (k : Bytes) :
    valueAt (patched os ps) k = (leafAt ps k).getD (valueAt os k) := by
  rw [patched, valueAt_filter_nonempty (mergePatches_increasing hos hps)]
  exact valueAt_mergePatches hos hps k

/-! ## The rebuild -/

/-- Leaves that a stack trie accepts, and their root. -/
def IsTrie (g : Geth) (leaves : History) (root : Hash) : Prop :=
  g.stack.Accepted [] leaves ∧ (g.stack.hash leaves).1 = root

/-- The write of an emitted node in the hash scheme. -/
def nodeOps (owner : Hash) (nodes : List TrieNode) : List DbOp :=
  nodes.flatMap fun n => (Output.persistent .hash).ops (.node owner n)

section Rebuild

variable (g : Geth) {I : Interface} (check : Fallible I Err Unit) (patchesErr : Proc I (Option Err))
  (owner : Hash)

/-- One iteration: the updates of the stack trie and the writes of its nodes. -/
def rebuildStep (acc : History × List DbOp) (e : Bytes × Bytes) :
    Except Err (History × List DbOp) :=
  if e.2.length = 0 then .ok acc
  else do
    let nodes ← g.stack.update acc.1 e.1 e.2
    return (acc.1 ++ [e], acc.2 ++ nodeOps owner nodes)

/-- `rebuildPatchedTriePrefix`: the new root and the writes. The patches are
those of an iterator, with its error at the end. -/
def rebuildPatchedTriePrefix (original : LeafStream) (patches : History) :
    Fallible I Err (Hash × List DbOp) :=
  foldChecked check (rebuildStep g owner) (mergePatches original.leaves patches)
    ([], []) >>= fun acc =>
    attempt id (patchesErr >>= fun e => pure (joinErr original.err e)) >>= fun _ =>
      check >>= fun _ =>
        pure ((g.stack.hash acc.1).1, acc.2 ++ nodeOps owner (g.stack.hash acc.1).2)

end Rebuild

theorem nodeOps_append (owner : Hash) (ns ms : List TrieNode) :
    nodeOps owner (ns ++ ms) = nodeOps owner ns ++ nodeOps owner ms := List.flatMap_append

variable {g : Geth}

/-- The loop of the rebuild puts the values that are not empty. -/
theorem foldlM_rebuildStep {owner : Hash} {acc acc' : History × List DbOp}
    (h : l.foldlM (rebuildStep g owner) acc = .ok acc') :
    acc'.1 = acc.1 ++ l.filter (fun e => e.2.length ≠ 0) ∧
      g.stack.Accepted acc.1 (l.filter fun e => e.2.length ≠ 0) ∧
      acc'.2 = acc.2 ++ nodeOps owner
        (g.stack.emitted acc.1 (l.filter fun e => e.2.length ≠ 0)) := by
  induction l generalizing acc with
  | nil =>
    obtain rfl := foldlM_nil_eq_ok.mp h
    exact ⟨by simp, trivial, by simp [StackOps.emitted, nodeOps]⟩
  | cons e l ih =>
    obtain ⟨m, hStep, hRest⟩ := foldlM_cons_eq_ok.mp h
    obtain ⟨hLeaves, hAccepted, hOps⟩ := ih hRest
    unfold rebuildStep at hStep
    by_cases hEmpty : e.2.length = 0
    · -- a deletion
      rw [if_pos hEmpty] at hStep
      obtain rfl := Except.ok.inj hStep
      rw [List.filter_cons_of_neg (by simpa using hEmpty)]
      exact ⟨hLeaves, hAccepted, hOps⟩
    · rw [if_neg hEmpty] at hStep
      obtain ⟨nodes, hUpdate, hEq⟩ := bind_eq_ok.mp hStep
      obtain rfl := Except.ok.inj hEq
      rw [List.filter_cons_of_pos (by simpa using hEmpty)]
      refine ⟨by simpa using hLeaves, ⟨⟨nodes, hUpdate⟩, hAccepted⟩, ?_⟩
      rw [hOps, StackOps.emitted, StackOps.emittedBy_of_update_pair hUpdate, nodeOps_append,
        List.append_assoc]

/-- **The rebuilt trie is the patched one**, and its nodes are written. -/
theorem returns_rebuildPatchedTriePrefix {I : Interface} {check : Fallible I Err Unit}
    {patchesErr : Proc I (Option Err)} {owner : Hash} {original : LeafStream} {patches : History}
    {tr : List (Event I)} {out : Hash × List DbOp}
    (h : Returns (rebuildPatchedTriePrefix g check patchesErr owner original patches) tr out) :
    original.err = none ∧ IsTrie g (patched original.leaves patches) out.1 ∧
      out.2 = nodeOps owner (g.stack.nodesOf (patched original.leaves patches)) := by
  obtain ⟨acc, t₁, u₁, hFold, hk₁, rfl⟩ := returns_bind.mp h
  obtain ⟨⟨⟩, t₂, u₂, hErr, hk₂, rfl⟩ := returns_bind.mp hk₁
  obtain ⟨⟨⟩, t₃, u₃, -, hRet, rfl⟩ := returns_bind.mp hk₂
  obtain ⟨-, rfl⟩ := returns_pure.mp hRet
  obtain ⟨hLeaves, hAccepted, hOps⟩ := foldlM_rebuildStep (returns_foldChecked hFold)
  rw [List.nil_append] at hLeaves hOps
  refine ⟨?_, ⟨hAccepted, ?_⟩, ?_⟩
  · -- an iterator with an error stops the function
    obtain ⟨r, v, v', -, ⟨rfl, hJoin⟩, rfl⟩ := Proc.behaves_bind.mp (returns_attempt.mp hErr)
    cases hCase : original.err with
    | none => rfl
    | some e =>
      rw [hCase] at hJoin
      cases r <;> cases hJoin
  · rw [patched, ← hLeaves]
  · rw [hOps, hLeaves, ← nodeOps_append]
    rfl

end L2State
