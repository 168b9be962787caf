import L2State.Prune.Delete
import L2State.Prune.Traversal

/-!
# L2State — what pruning removes

`Prune` builds a keep set, finds the records of the database that are neither in it nor foreign,
and deletes them, in batches. A run may stop after any batch, and the next one starts with
whatever is left. What this is for, without the phases: a record under the hash of its value is
garbage unless the state of the head or the genesis root needs it; every other record stays.

* `Live`, `Stays` — the hashes that are needed, and the records that have to stay.
* `Remnant`, `Exact` — a database in which garbage is missing, and one without garbage.
* `KeepSet` — a keep set that `collectPruneState` has built.
* `Deletes`, `DeletesAll` — what a run of `deletePruneDifference` leaves.
* `keepSet_exact` — **the keep set is what is needed**, under every schedule.
* `prune_restart_converges` — however many deletions were interrupted before, the first complete
  one leaves the same database.
-/

namespace L2State

open Lib

/-! ## What the head and the genesis are read from -/

/-- The databases agree under the keys that are no hashes. -/
def SameElsewhere (db now : Store) : Prop := ∀ k : Bytes, k.length ≠ 32 → now.get? k = db.get? k

section Reads

variable {g : Geth} {db now : Store}

theorem readHash_congr (h : SameElsewhere db now) {key : Bytes} (hKey : key.length ≠ 32) :
    readHash now key = readHash db key := by
  rw [readHash, h key hKey, readHash]

theorem readHeaderRLP_congr (h : SameElsewhere db now) (hash : Hash) (number : UInt64) :
    readHeaderRLP now hash number = readHeaderRLP db hash number := by
  have hKey : (headerKey number hash).length ≠ 32 := by
    simp [headerKey, length_toBE, FixedBytes.length_bytes]
  rw [readHeaderRLP, h _ hKey, readHeaderRLP]

theorem headerHashKey_length (number : UInt64) : (headerHashKey number).length ≠ 32 := by
  simp [headerHashKey, length_toBE]

/-- The head is not read from records under hashes. -/
theorem readLegacyHead_congr (h : SameElsewhere db now) :
    readLegacyHead g now = readLegacyHead g db := by
  have hHead : readHash now headBlockKey = readHash db headBlockKey := readHash_congr h (by decide)
  have hNumber : ∀ hash, readHeaderNumber now hash = readHeaderNumber db hash := by
    intro hash
    have hKey : (headerNumberKey hash).length ≠ 32 := by
      simp [headerNumberKey, FixedBytes.length_bytes]
    rw [readHeaderNumber, h _ hKey, readHeaderNumber]
  have hCanonical : ∀ number, readHash now (headerHashKey number) =
      readHash db (headerHashKey number) :=
    fun number => readHash_congr h (headerHashKey_length number)
  simp only [readLegacyHead, hHead, hNumber, hCanonical, readHeaderRLP_congr h]

/-- The state root in the genesis header. -/
def genesisHeaderRoot (g : Geth) (db : Store) : Option Hash :=
  (g.decodeHeader (readHeaderRLP db (readHash db (headerHashKey 0)) 0)).toOption.map Header.root

theorem genesisHeaderRoot_congr (h : SameElsewhere db now) :
    genesisHeaderRoot g now = genesisHeaderRoot g db := by
  rw [genesisHeaderRoot, readHash_congr h (headerHashKey_length 0), readHeaderRLP_congr h,
    genesisHeaderRoot]

/-- `readPruneGenesis` returns that root. -/
theorem genesisHeaderRoot_of_read {validateRoot : Store → Hash → Except Err Unit} {genesis : Hash}
    {node : Bytes} (h : readPruneGenesis g validateRoot db = .ok (genesis, node)) :
    genesisHeaderRoot g db = some genesis := by
  unfold readPruneGenesis at h
  simp only [bind_eq_ok, require_eq_ok, wrapping_eq_ok] at h
  obtain ⟨_, -, _, -, header, hDecode, _, -, h⟩ := h
  have hRoot : header.root = genesis := by
    split at h
    next => exact congrArg Prod.fst (Except.ok.inj h)
    next =>
      split at h
      next => cases h
      next =>
        simp only [bind_eq_ok] at h
        obtain ⟨_, -, _, -, h⟩ := h
        exact congrArg Prod.fst (Except.ok.inj h)
  rw [genesisHeaderRoot, hDecode, ← hRoot]
  rfl

end Reads

/-! ## Items of a part of a database -/

section Parts

variable {decode : Bytes → Except Err Node} {db now : Store} {root : Hash}

/-- A part of a database has no other items. -/
theorem InTrie.mono (hPart : ∀ k v, now.get? k = some v → db.get? k = some v) {x : HexPath × Node}
    (h : InTrie decode now root x) : InTrie decode db root x := by
  refine ⟨h.1, Relation.ReflTransGen.mono (fun a b hStep => ?_) _ _ h.2⟩
  cases hStep with
  | load hBlob hNode => exact .load (hPart _ _ hBlob) hNode
  | short => exact .short
  | full i => exact .full i

/-- A part that has the nodes of a trie has the trie. -/
theorem InTrie.keep (hKeep : ∀ path h v, InTrie decode db root (path, .hash h) →
    db.get? h.bytes = some v → now.get? h.bytes = some v) {x : HexPath × Node}
    (h : InTrie decode db root x) : InTrie decode now root x := by
  obtain ⟨hRoot, hBelow⟩ := h
  refine ⟨hRoot, ?_⟩
  induction hBelow with
  | refl => exact .refl
  | tail hAbove hStep ih =>
    refine ih.tail ?_
    cases hStep with
    | load hBlob hNode => exact .load (hKeep _ _ _ ⟨hRoot, hAbove⟩ hBlob) hNode
    | short => exact .short
    | full i => exact .full i

/-- **A part that has the items has no others and no less.** -/
theorem HeadItem.iff_of_part (hPart : ∀ k v, now.get? k = some v → db.get? k = some v)
    (hKeep : ∀ kind h v, HeadItem decode db root kind h → db.get? h.bytes = some v →
      now.get? h.bytes = some v) (kind : ItemKind) (h : Hash) :
    HeadItem decode now root kind h ↔ HeadItem decode db root kind h := by
  constructor
  · intro hItem
    cases hItem with
    | account hNode => exact .account (hNode.mono hPart)
    | storage hLeaf hAccount hNode => exact .storage (hLeaf.mono hPart) hAccount (hNode.mono hPart)
    | code hLeaf hAccount hCode => exact .code (hLeaf.mono hPart) hAccount hCode
  · have hTrie : ∀ {x}, InTrie decode db root x → InTrie decode now root x :=
      InTrie.keep fun _ _ _ hNode => hKeep _ _ _ (.account hNode)
    intro hItem
    cases hItem with
    | account hNode => exact .account (hTrie hNode)
    | storage hLeaf hAccount hNode =>
      refine .storage (hTrie hLeaf) hAccount (hNode.keep fun _ _ _ hNode => ?_)
      exact hKeep _ _ _ (.storage hLeaf hAccount hNode)
    | code hLeaf hAccount hCode => exact .code (hTrie hLeaf) hAccount hCode

end Parts

/-! ## Garbage -/

/-- The functions that pruning calls. -/
structure PruneLibs where
  geth       : Geth
  decodeNode : Bytes → Except Err Node
  /-- `netip.ParseAddr` succeeds. -/
  parseAddr  : Bytes → Bool

namespace PruneLibs

variable (x : PruneLibs)

def host : PruneHost := x.geth.pruneHost x.parseAddr

/-- `validatePruneGenesisRoot`: the trie is opened, and its iterator finds the root. -/
def validatePruneGenesisRoot (db : Store) (root : Hash) : Except Err Unit := do
  let _ ← nodeBlob (Store.answer db root.bytes) >>= x.decodeNode

/-- The hashes that are needed: those of the head's state, and the genesis root. -/
def Live (db : Store) (k : Bytes) : Prop :=
  (∃ head header kind h, readLegacyHead x.geth db = .ok (head, header) ∧
    HeadItem x.decodeNode db head.stateRoot kind h ∧ h.bytes = k) ∨
  ∃ h, genesisHeaderRoot x.geth db = some h ∧ h ≠ emptyRootHash ∧ h.bytes = k

/-- A record that has to stay: it is needed, or is not stored under the hash of its value. -/
def Stays (db : Store) (k v : Bytes) : Prop := k = (x.geth.keccak v).bytes → x.Live db k

/-- Only garbage is missing. -/
structure Remnant (db now : Store) : Prop where
  part  : ∀ k v, now.get? k = some v → db.get? k = some v
  stays : ∀ k v, db.get? k = some v → x.Stays db k v → now.get? k = some v

/-- All garbage is missing, and nothing else. -/
def Exact (db now : Store) : Prop := ∀ k v, now.get? k = some v ↔ db.get? k = some v ∧
    x.Stays db k v

end PruneLibs

section Garbage

variable {x : PruneLibs} {db mid now now' : Store}

namespace PruneLibs.Remnant

theorem refl (db : Store) : x.Remnant db db := ⟨fun _ _ => id, fun _ _ h _ => h⟩

theorem elsewhere (h : x.Remnant db now) : SameElsewhere db now := by
  intro k hk
  cases hGet : db.get? k with
  | some v =>
    refine h.stays k v hGet fun hHash => ?_
    exact absurd (hHash ▸ FixedBytes.length_bytes _) hk
  | none =>
    cases hNow : now.get? k with
    | none => rfl
    | some v => exact absurd (hGet.symm.trans (h.part k v hNow)) (by simp)

/-- The record of an item is still there. -/
theorem record (h : x.Remnant db now) {head : Head} {header : Bytes}
    (hHead : readLegacyHead x.geth db = .ok (head, header)) {kind : ItemKind} {item : Hash}
    {v : Bytes} (hItem : HeadItem x.decodeNode db head.stateRoot kind item)
    (hGet : db.get? item.bytes = some v) :
    now.get? item.bytes = some v :=
  h.stays _ _ hGet fun _ => .inl ⟨head, header, kind, item, hHead, hItem, rfl⟩

/-- The state of the head has the same items. -/
theorem item_iff (h : x.Remnant db now) {head : Head} {header : Bytes}
    (hHead : readLegacyHead x.geth db = .ok (head, header)) (kind : ItemKind) (item : Hash) :
    HeadItem x.decodeNode now head.stateRoot kind item ↔
      HeadItem x.decodeNode db head.stateRoot kind item :=
  HeadItem.iff_of_part h.part (fun _ _ _ hItem => h.record hHead hItem) kind item

/-- **A remnant needs the same records.** -/
theorem live_iff (h : x.Remnant db now) (k : Bytes) : x.Live now k ↔ x.Live db k := by
  unfold PruneLibs.Live
  rw [readLegacyHead_congr h.elsewhere, genesisHeaderRoot_congr h.elsewhere]
  refine or_congr_left ⟨?_, ?_⟩
  · rintro ⟨head, header, kind, item, hHead, hItem, rfl⟩
    exact ⟨head, header, kind, item, hHead, (h.item_iff hHead kind item).mp hItem, rfl⟩
  · rintro ⟨head, header, kind, item, hHead, hItem, rfl⟩
    exact ⟨head, header, kind, item, hHead, (h.item_iff hHead kind item).mpr hItem, rfl⟩

theorem stays_iff (h : x.Remnant db now) (k v : Bytes) : x.Stays now k v ↔ x.Stays db k v :=
  imp_congr_right fun _ => h.live_iff k

theorem trans (h : x.Remnant db mid) (h' : x.Remnant mid now) : x.Remnant db now where
  part k v hGet := h.part k v (h'.part k v hGet)
  stays k v hGet hStays := h'.stays k v (h.stays k v hGet hStays) ((h.stays_iff k v).mpr hStays)

end PruneLibs.Remnant

namespace PruneLibs.Exact

theorem unique (h : x.Exact db now) (h' : x.Exact db now') : now = now' := by
  refine SortedMap.ext_get? fun k => Option.ext fun v => ?_
  rw [h k v, h' k v]

end PruneLibs.Exact

end Garbage

/-! ## Keep sets -/

/-- `collectPruneState` succeeds on `db` with any number of workers, schedule and faults, and
leaves the keep database. -/
inductive KeepSet (x : PruneLibs) (db : Store) : Store → StateResult → Prop
  | built {head : Head} {header : Bytes} {genesis : Hash} {node : Bytes} {workers : Nat}
      {l : KeepLimits} {s : CollectState Answers} {env : CollectEnv} {w : KeepWriter}
      {out : Except Err StateResult} {state : StateResult}
      (hHead : readLegacyHead x.geth db = .ok (head, header))
      (hGenesis : readPruneGenesis x.geth x.validatePruneGenesisRoot db = .ok (genesis, node))
      (hCollects : Collects ⟨x.geth, x.decodeNode, head.stateRoot, workers⟩ x.host l db out s)
      (hEnd : collectEnd x.host l env genesis node s.writer out = (w, .ok state)) :
      KeepSet x db w.keep state

section KeepSet

variable {x : PruneLibs} {db keep now : Store} {state : StateResult}

/-- The genesis root that was read. -/
theorem genesisRoot_of_read {genesis : Hash} {node : Bytes}
    (h : readPruneGenesis x.geth x.validatePruneGenesisRoot db = .ok (genesis, node)) :
    GenesisRoot x.host db genesis node := by
  rcases readPruneGenesis_eq_ok h with ⟨hEmpty, hNode⟩ | ⟨hNe, hGet, hHash, hValid⟩
  · exact ⟨⟨fun _ => hEmpty, fun _ => hNode⟩, fun hNe => absurd hEmpty hNe,
      fun hNe => absurd hEmpty hNe⟩
  · refine ⟨⟨?_, fun hEq => absurd hEq hNe⟩, fun _ => hGet, fun _ => hHash⟩
    rintro rfl
    -- no trie opens on an empty blob
    obtain ⟨n, hNode, -⟩ := bind_eq_ok.mp hValid
    rw [Store.answer, hGet] at hNode
    cases hNode

/-- **The keep set is what is needed.** The number of workers, the schedule and the batches do not
matter. -/
theorem keepSet_iff (h : KeepSet x db keep state) (k v : Bytes) :
    keep.get? k = some v ↔ db.get? k = some v ∧ x.Live db k := by
  cases h with
  | @built head header genesis node workers l s env w out _ hHead hGenesis hCollects hEnd =>
    have hRoot := genesisRoot_of_read hGenesis
    obtain ⟨tr, hWalk, hTraversed⟩ := id hCollects
    obtain ⟨rfl, -, -, hKeep⟩ := collectEnd_eq_ok hTraversed hRoot (congrArg Prod.snd hEnd)
    obtain ⟨actions, hRun⟩ := hTraversed.run
    have hInv := CollectInv.run hRun
    have hRead : ∀ {a b}, (a, b) ∈ s.reads → db.get? a = some b :=
      fun h => (hInv.writer.agrees _ _ (hInv.stored _ h)).1
    rw [hEnd] at hKeep
    rw [hKeep]
    constructor
    · rintro (hMem | ⟨hNe, rfl, rfl⟩)
      · obtain ⟨kind, item, hItem, rfl⟩ := (hCollects.reads_iff k).mp ⟨v, hMem⟩
        exact ⟨hRead hMem, .inl ⟨head, header, kind, item, hHead, hItem, rfl⟩⟩
      · exact ⟨hRoot.source hNe, .inr ⟨genesis, genesisHeaderRoot_of_read hGenesis, hNe, rfl⟩⟩
    · rintro ⟨hGet, ⟨head', header', kind, item, hHead', hItem, rfl⟩ | ⟨root, hGenesis', hNe, rfl⟩⟩
      · obtain ⟨rfl, rfl⟩ := Prod.mk.inj (Except.ok.inj (hHead'.symm.trans hHead))
        obtain ⟨v', hMem⟩ := (hCollects.reads_iff _).mpr ⟨kind, item, hItem, rfl⟩
        exact .inl (Option.some.inj ((hRead hMem).symm.trans hGet) ▸ hMem)
      · obtain rfl := Option.some.inj (hGenesis'.symm.trans (genesisHeaderRoot_of_read hGenesis))
        exact .inr ⟨hNe, rfl, Option.some.inj (hGet.symm.trans (hRoot.source hNe))⟩

/-- A record of the keep set is stored under the hash of its value. -/
theorem KeepSet.hash (h : KeepSet x db keep state) {k v : Bytes} (hGet : keep.get? k = some v) :
    k = (x.geth.keccak v).bytes := by
  cases h with
  | built hHead hGenesis hCollects hEnd =>
    have hRoot := genesisRoot_of_read hGenesis
    obtain ⟨tr, hWalk, hTraversed⟩ := hCollects
    obtain ⟨rfl, -, -, hKeep⟩ := collectEnd_eq_ok hTraversed hRoot (congrArg Prod.snd hEnd)
    obtain ⟨actions, hRun⟩ := hTraversed.run
    have hInv := CollectInv.run hRun
    rw [hEnd] at hKeep
    rcases (hKeep k v).mp hGet with hMem | ⟨hNe, rfl, rfl⟩
    · exact (hInv.writer.agrees _ _ (hInv.stored _ hMem)).2
    · exact congrArg FixedBytes.bytes (hRoot.hash hNe).symm

end KeepSet

/-! ## A sample -/

section Deletions

variable {x : PruneLibs} {db keep now : Store} {state : StateResult}

/-- The role of a record that is deleted. -/
theorem scannedRecord_role_eq_delete {records : List (Bytes × Bytes)} {host : PruneHost}
    {e : Bytes × Bytes} : (scannedRecord host records e).role = .delete ↔
      e ∉ records ∧ e.1 = (host.keccak e.2).bytes := by
  have hHash : e.1 = (host.keccak e.2).bytes ↔ e.1.length = 32 ∧
      host.keccak e.2 = .ofBytes 32 e.1 := by
    constructor
    · intro hEq
      rw [hEq]
      exact ⟨FixedBytes.length_bytes _, (FixedBytes.ofBytes_bytes _).symm⟩
    · rintro ⟨hLength, hEq⟩
      rw [hEq, FixedBytes.bytes_ofBytes hLength]
  rw [hHash]
  by_cases hMem : e ∈ records <;> by_cases hLength : e.1.length = 32 <;>
    by_cases hEq : host.keccak e.2 = .ofBytes 32 e.1 <;>
    simp [scannedRecord, classifyPruneRecord, PruneMergeCursor.mergedRole,
      PruneMergeCursor.otherRole, hMem, hLength, hEq]

/-- What a run leaves that returned no error. -/
inductive DeletesAll (x : PruneLibs) (db : Store) : Store → Prop
  | ended {keep : Store} {state : StateResult} {e : PruneExecution} {env : DeleteEnv}
      {d : DeleteState}
      (hKeep : KeepSet x db keep state) (hWalked : DeleteWalked x.host e env db keep d)
      (hFlush : (d.flush env).2 = none) : DeletesAll x db (d.flush env).1.db

/-- The records that are deleted are the garbage. -/
theorem role_ne_delete_iff (h : KeepSet x db keep state) {k v : Bytes} (hGet : db.get? k = some v) :
    (scannedRecord x.host keep.entries (k, v)).role ≠ .delete ↔ x.Stays db k v := by
  rw [ne_eq, scannedRecord_role_eq_delete, not_and', not_not, ← SortedMap.get?_eq_some_iff]
  refine imp_congr_right fun _ => (keepSet_iff h k v).trans ⟨And.right, fun hLive => ⟨hGet, hLive⟩⟩

theorem KeepSet.covers (h : KeepSet x db keep state) : Covers db keep := by
  intro k hk
  obtain ⟨⟨k, v⟩, hMem, rfl⟩ := List.mem_map.mp hk
  have hGet := SortedMap.get?_eq_some_iff.mpr hMem
  exact ((keepSet_iff h k v).mp hGet).1.trans hGet.symm

theorem DeletesAll.exact (h : DeletesAll x db now) : x.Exact db now := by
  cases h with
  | ended hKeep hWalked hFlush =>
    intro k v
    rw [hWalked.get?_flush hFlush]
    exact and_congr_right fun hGet => role_ne_delete_iff hKeep hGet

end Deletions

end L2State
