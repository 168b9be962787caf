import L2State.Prune.Walk
import L2State.Geth.Rawdb
import L2State.Ovm.AllocInput

/-!
# L2State — the prune scan

`scanPruneDB` of `prune_scan.go`, over `walkPruneDifference` and the merge cursor of
`prune_pipeline.go`. The scan runs over the source and the keep set side by side,
in key order; the reference, `serialScanPruneDB`, looks every key up.

* `PruneMergeCursor`, `walkScript` — what the coordinator pushes, and where it gives
  up.
* `classifyPruneRecord`, `rejectPruneForeignKey` — the classification.
* `walkScript_of_subset`, `subset_of_walkScript` — **the merge join**: the walk
  reaches the end exactly when the source has every record of the keep set, and then
  every record has the role that a lookup gives it.
* `scan_eq_serial` — the inventories agree.
-/

namespace L2State

open Lib

/-- The functions of libraries that the scan calls. -/
structure PruneHost where
  /-- `crypto.Keccak256Hash`. -/
  keccak    : Bytes → Hash
  /-- `netip.ParseAddr` succeeds. -/
  parseAddr : Bytes → Bool

/-! ## Foreign keys -/

/-- `isPruneLESBalanceKey`. -/
def isPruneLESBalanceKey (g : PruneHost) (key : Bytes) : Bool :=
  match key with
  | zero :: version :: a :: b :: c :: id =>
    if zero ≠ 0 ∨ 1 < version then false
    else if [a, b, c] = asciiBytes "pb:" then key.length = 5 + 32
    else if [a, b, c] = asciiBytes "nb:" then
      g.parseAddr id ||
        (id.length = 64 && id.all fun d => (hexDigit (Char.ofNat d.val)).isSome)
    else false
  | _ => false

/-- The texts that other records of the light server start with. -/
def pruneLESPrefixes : List Bytes :=
  ["cumulativeTime:", "_globalCostFactor", "chtIndexV2-", "bltIndex-", "cht-", "blt-", "chtRootV2-",
    "bltRoot-"].map asciiBytes

/-- `rawdb.ResolveAccountTrieNodeKey`: `A` and a path shorter than that of a leaf. -/
def resolveAccountTrieNodeKey : Bytes → Option Bytes
  | 0x41 :: path => if path.length < 64 then some path else none
  | _ => none

/-- `rawdb.ResolveStorageTrieNode`: `O`, the hash of the account and a path. -/
def resolveStorageTrieNode : Bytes → Option Bytes
  | 0x4f :: rest => if 32 ≤ rest.length ∧ rest.length < 32 + 64 then some (rest.drop 32) else none
  | _ => none

/-- `isPrunePathKey`. -/
def isPrunePathKey (key : Bytes) : Bool :=
  match (resolveAccountTrieNodeKey key).or (resolveStorageTrieNode key) with
  | some path => path.all fun nibble => nibble ≤ 15
  | none => false

/-- `rawdb.SnapshotRootKey`. -/
def snapshotRootKey : Bytes := asciiBytes "SnapshotRoot"

/-- `rejectPruneForeignKey`. -/
def rejectPruneForeignKey (g : PruneHost) (key value : Bytes) : Option Err :=
  if isPruneLESBalanceKey g key then
    some (.msg "prune does not support LES service metadata: %x" [.bytes key])
  else if pruneLESPrefixes.any fun p => p.isPrefixOf key then
    some (.msg "prune does not support LES service metadata: %x" [.bytes key])
  else if key = codeKey (g.keccak value) then
    some (.msg "prune does not support geth prefixed code: %x" [.bytes key])
  else if isPrunePathKey key ∨ key = snapshotRootKey then
    some (.msg "prune does not support geth path/snapshot data: %x" [.bytes key])
  else none

/-! ## The walk -/

/-- `classifyPruneRecord`: the new role and the error. -/
def classifyPruneRecord (g : PruneHost) (ctx : Option Err) (r : PruneRecord) :
    PruneRole × Option Err :=
  match ctx with
  | some err => (r.role, some err)
  | none =>
    let role :=
      if r.role = .unclassified then
        if g.keccak r.value = .ofBytes 32 r.key then .delete else .unknown
      else r.role
    if role ≠ .delete ∧ role ≠ .retainState then (role, rejectPruneForeignKey g r.key r.value)
    else (role, none)

/-- `comparePruneValue`. -/
def comparePruneValue (key a b : Bytes) : Except Err Unit :=
  require (a = b) (.msg "prune keep value differs at key %x" [.bytes key])

/-- `pruneMergeCursor`: the entry that the iterator is at, the ones that it has not
reached and its error at the end. -/
structure PruneMergeCursor where
  current : Option (Bytes × Bytes)
  ahead   : List (Bytes × Bytes)
  err     : Option Err

namespace PruneMergeCursor

def advance (m : PruneMergeCursor) : Except Err PruneMergeCursor :=
  match m.ahead, m.err with
  | entry :: ahead, _ => .ok { m with current := some entry, ahead := ahead }
  | [], some err => .error err
  | [], none => .ok { m with current := none }

def missing (key : Bytes) : Err := .msg "prune keep key %x is missing from source" [.bytes key]

/-- The role of a key that the cursor is not at. -/
def otherRole (key : Bytes) : PruneRole := if key.length = 32 then .unclassified else .protect

def role (m : PruneMergeCursor) (key value : Bytes) : Except Err (PruneRole × PruneMergeCursor) :=
  match m.current with
  | some (k, v) =>
    if k < key then .error (missing k)
    else if key = k then do
      comparePruneValue key v value
      return (.retainState, ← m.advance)
    else .ok (otherRole key, m)
  | none => .ok (otherRole key, m)

end PruneMergeCursor

/-- The loop of `walkPruneDifference` and what follows it, up to `drain`. -/
def walkLoop (sourceErr : Option Err) (m : PruneMergeCursor) : List (Bytes × Bytes) → Script
  | [] =>
    match sourceErr, m.current with
    | some err, _ => [.error (.wrap "scan prune source: %w" [] err)]
    | none, some (k, _) => [.error (PruneMergeCursor.missing k)]
    | none, none => []
  | (key, value) :: source =>
    match m.role key value with
    | .error err => [.error err]
    | .ok (role, m) => .ok ⟨key, value, role⟩ :: walkLoop sourceErr m source

/-- What `walkPruneDifference` pushes, from the entries of the two iterators and the
errors that they end with. -/
def walkScript (sourceErr keepErr : Option Err) (source keep : List (Bytes × Bytes)) : Script :=
  match PruneMergeCursor.advance ⟨none, keep, keepErr⟩ with
  | .error err => [.error (.wrap "open prune keep cursor: %w" [] err)]
  | .ok m => walkLoop sourceErr m source

/-- The callbacks of `walkPruneDifference` around its `consume`. -/
def walkCalls (g : PruneHost) (consume : List PruneRecord → PruneRecord → Option Err) :
    ScanCalls where
  classify := classifyPruneRecord g
  consume workCtx before r :=
    match workCtx with
    | some err => some err
    | none => consume before r

/-! ## Inventories -/

/-- `PruneKVCount`. -/
structure PruneKVCount where
  keys  : UInt64
  bytes : UInt64
deriving DecidableEq

/-- `PruneKVCount.add`. -/
def PruneKVCount.add (n : PruneKVCount) (key value : Bytes) : PruneKVCount :=
  ⟨n.keys + 1, n.bytes + .ofNat (key.length + value.length)⟩

/-- `pruneInventory`. -/
structure PruneInventory where
  keep           : PruneKVCount
  protectedCount : PruneKVCount
  candidates     : PruneKVCount
  unknown        : PruneKVCount
  digest         : Hash
deriving DecidableEq

/-- The counters of a scan and what was written to its hash. -/
structure PruneTally where
  keep           : PruneKVCount
  protectedCount : PruneKVCount
  candidates     : PruneKVCount
  unknown        : PruneKVCount
  written        : Bytes

/-- `hashPruneKV`: each part behind its length. -/
def hashPruneKV (key value : Bytes) : Bytes :=
  [key, value].flatMap fun part => toBE 8 part.length ++ part

namespace PruneTally

def start : PruneTally :=
  ⟨⟨0, 0⟩, ⟨0, 0⟩, ⟨0, 0⟩, ⟨0, 0⟩, asciiBytes "metis-l2state-prune-protected/v1"⟩

/-- The `consume` of `scanPruneDB`. -/
def add (t : PruneTally) (r : PruneRecord) : PruneTally :=
  if r.role = .delete then { t with candidates := t.candidates.add r.key r.value }
  else
    { t with
      keep := if r.role = .retainState then t.keep.add r.key r.value else t.keep
      unknown := if r.role = .unknown then t.unknown.add r.key r.value else t.unknown
      protectedCount := t.protectedCount.add r.key r.value
      written := t.written ++ hashPruneKV r.key r.value }

def finish (g : PruneHost) (t : PruneTally) : PruneInventory :=
  ⟨t.keep, t.protectedCount, t.candidates, t.unknown, g.keccak t.written⟩

end PruneTally

/-- The inventory of a sequence of consumed records. -/
def pruneInventory (g : PruneHost) (records : List PruneRecord) : PruneInventory :=
  (records.foldl PruneTally.add .start).finish g

/-- The callbacks of `scanPruneDB`. -/
def scanCalls (g : PruneHost) : ScanCalls := walkCalls g fun _ _ => none

/-- What `scanPruneDB` returns at the end of a run. -/
def scanResult (g : PruneHost) (s : ScanState) : Except Err PruneInventory :=
  match s.outcome with
  | some err => .error err
  | none => .ok (pruneInventory g s.consumed)

/-! ## The reference -/

/-- `serialPruneKeyRole`. -/
def serialPruneKeyRole (g : PruneHost) (keep : Store) (key value : Bytes) : Except Err PruneRole :=
  if key.length ≠ 32 then .ok .protect
  else
    match keep.get? key with
    | some expected => do
      comparePruneValue key expected value
      return .retainState
    | none => if g.keccak value = .ofBytes 32 key then .ok .delete else .ok .unknown

/-- The loop body of `serialScanPruneDB`, while its context is live. -/
def serialScanStep (g : PruneHost) (keep : Store) (t : PruneTally) (entry : Bytes × Bytes) :
    Except Err PruneTally := do
  let role ← serialPruneKeyRole g keep entry.1 entry.2
  if role ≠ .delete ∧ role ≠ .retainState then
    match rejectPruneForeignKey g entry.1 entry.2 with
    | some err => .error err
    | none => return t.add ⟨entry.1, entry.2, role⟩
  else return t.add ⟨entry.1, entry.2, role⟩

/-- `serialScanPruneDB`. -/
def serialScanPruneDB (g : PruneHost) (source keep : Store) : Except Err PruneInventory := do
  let t ← source.entries.foldlM (serialScanStep g keep) .start
  return t.finish g

/-! ## The merge join -/

namespace PruneMergeCursor

/-- The cursor in front of these entries, of an iterator that works. -/
def inFront : List (Bytes × Bytes) → PruneMergeCursor
  | [] => ⟨none, [], none⟩
  | entry :: rest => ⟨some entry, rest, none⟩

theorem advance_eq (current : Option (Bytes × Bytes)) (keep : List (Bytes × Bytes)) :
    advance ⟨current, keep, none⟩ = .ok (inFront keep) := by
  cases keep <;> rfl

/-- The role of a record next to the entries of the keep set. -/
def mergedRole (keep : List (Bytes × Bytes)) (entry : Bytes × Bytes) : PruneRole :=
  if entry ∈ keep then .retainState else otherRole entry.1

/-- A key below the cursor. -/
theorem role_of_lt {keep : List (Bytes × Bytes)} {key value : Bytes}
    (h : ∀ e ∈ keep.head?, key < e.1) :
    (inFront keep).role key value = .ok (otherRole key, inFront keep) := by
  cases keep with
  | nil => rfl
  | cons e rest =>
    have hLt : key < e.1 := h e rfl
    simp only [role, inFront]
    rw [if_neg (not_lt.mpr hLt.le), if_neg hLt.ne]

/-- The key that the cursor is at. -/
theorem role_of_eq (key value : Bytes) (rest : List (Bytes × Bytes)) :
    (inFront ((key, value) :: rest)).role key value = .ok (.retainState, inFront rest) := by
  have hAdvance : (inFront ((key, value) :: rest)).advance = .ok (inFront rest) := advance_eq _ _
  unfold role
  rw [show (inFront ((key, value) :: rest)).current = some (key, value) from rfl]
  dsimp only
  rw [if_neg (lt_irrefl _), if_pos rfl, hAdvance, comparePruneValue, require, if_pos rfl]
  rfl

/-- A role that is given without an error. -/
theorem role_eq_ok {keep : List (Bytes × Bytes)} {key value : Bytes}
    {out : PruneRole × PruneMergeCursor} (h : (inFront keep).role key value = .ok out) :
    (∃ rest, keep = (key, value) :: rest ∧ out = (.retainState, inFront rest)) ∨
      ((∀ e ∈ keep.head?, key < e.1) ∧ out = (otherRole key, inFront keep)) := by
  cases keep with
  | nil => exact .inr ⟨nofun, (Except.ok.inj h).symm⟩
  | cons e rest =>
    obtain ⟨k, v⟩ := e
    rcases lt_trichotomy key k with hLt | rfl | hGt
    · rw [role_of_lt (by simpa using hLt)] at h
      exact .inr ⟨by simpa using hLt, (Except.ok.inj h).symm⟩
    · by_cases hValue : v = value
      · subst hValue
        rw [role_of_eq] at h
        exact .inl ⟨rest, rfl, (Except.ok.inj h).symm⟩
      · simp [role, inFront, comparePruneValue, require, hValue] at h
    · simp only [role, inFront] at h
      rw [if_pos hGt] at h
      cases h

end PruneMergeCursor

open PruneMergeCursor

/-- The keys of a list of entries increase. -/
abbrev Ascending (entries : List (Bytes × Bytes)) : Prop := entries.Pairwise fun a b => a.1 < b.1

variable {keep source : List (Bytes × Bytes)}

/-- When the source has every entry of the keep set, the walk reaches the end. -/
theorem walkLoop_of_subset (hKeep : Ascending keep) (hSource : Ascending source)
    (hSubset : ∀ e ∈ keep, e ∈ source) :
    walkLoop none (inFront keep) source =
      (source.map fun e => (⟨e.1, e.2, mergedRole keep e⟩ : PruneRecord)).map .ok := by
  induction source generalizing keep with
  | nil =>
    obtain rfl : keep = [] := List.eq_nil_iff_forall_not_mem.mpr fun e he => by
      simpa using hSubset e he
    rfl
  | cons e source ih =>
    obtain ⟨key, value⟩ := e
    obtain ⟨hAbove, hRest⟩ := List.pairwise_cons.mp hSource
    by_cases hMem : (key, value) ∈ keep
    · -- nothing of the keep set is below the first key of the source
      obtain ⟨rest, rfl⟩ : ∃ rest, keep = (key, value) :: rest := by
        cases keep with
        | nil => cases hMem
        | cons k rest =>
          rcases List.mem_cons.mp hMem with rfl | hLater
          · exact ⟨rest, rfl⟩
          · have hBelow := (List.pairwise_cons.mp hKeep).1 _ hLater
            rcases List.mem_cons.mp (hSubset k List.mem_cons_self) with rfl | hIn
            · exact absurd hBelow (lt_irrefl _)
            · exact absurd (hBelow.trans (hAbove k hIn)) (lt_irrefl _)
      obtain ⟨hAboveKeep, hRestKeep⟩ := List.pairwise_cons.mp hKeep
      have hSubset' : ∀ e ∈ rest, e ∈ source := by
        intro e he
        rcases List.mem_cons.mp (hSubset e (List.mem_cons_of_mem _ he)) with rfl | hIn
        · exact absurd (hAboveKeep _ he) (lt_irrefl _)
        · exact hIn
      rw [walkLoop, role_of_eq]
      simp only [List.map_cons, mergedRole, List.mem_cons, true_or, if_true]
      rw [ih hRestKeep hRest hSubset', List.map_map, List.map_map]
      congr 1
      refine List.map_congr_left fun e he => ?_
      have hNe : e ≠ (key, value) := by
        rintro rfl
        exact absurd (hAbove _ he) (lt_irrefl _)
      simp [mergedRole, hNe]
    · have hSubset' : ∀ e ∈ keep, e ∈ source := by
        intro e he
        rcases List.mem_cons.mp (hSubset e he) with rfl | hIn
        · exact absurd he hMem
        · exact hIn
      have hBelow : ∀ e ∈ keep.head?, key < e.1 := fun e he =>
        hAbove e (hSubset' e (List.mem_of_mem_head? he))
      rw [walkLoop, role_of_lt hBelow]
      simp only [List.map_cons]
      rw [ih hKeep hRest hSubset', mergedRole, if_neg hMem]

/-- When the walk reaches the end, the source has every entry of the keep set. -/
theorem subset_of_walkLoop {records : List PruneRecord}
    (h : walkLoop none (inFront keep) source = records.map .ok) : ∀ e ∈ keep, e ∈ source := by
  induction source generalizing keep records with
  | nil =>
    cases keep with
    | nil => nofun
    | cons e rest =>
      -- an entry that is left over is an error
      have hMem : (.error (missing e.1) : Except Err PruneRecord) ∈ records.map Except.ok := by
        rw [← h]
        exact List.mem_singleton.mpr rfl
      simp at hMem
  | cons e source ih =>
    obtain ⟨key, value⟩ := e
    rw [walkLoop] at h
    cases hRole : (inFront keep).role key value with
    | error err =>
      rw [hRole] at h
      have hMem : (.error err : Except Err PruneRecord) ∈ records.map Except.ok := by
        rw [← h]
        exact List.mem_singleton.mpr rfl
      simp at hMem
    | ok out =>
      rw [hRole] at h
      obtain ⟨r, later, rfl, -, hLater⟩ := List.map_eq_cons_iff.mp h.symm
      rcases role_eq_ok hRole with ⟨rest, rfl, rfl⟩ | ⟨-, rfl⟩
      · intro e he
        rcases List.mem_cons.mp he with rfl | he
        · exact List.mem_cons_self
        · exact List.mem_cons_of_mem _ (ih hLater.symm e he)
      · exact fun e he => List.mem_cons_of_mem _ (ih hLater.symm e he)

/-! ## The classification -/

/-- The context of a classification without an error was live. -/
theorem classifyPruneRecord_eq_none {g : PruneHost} {ctx : Option Err} {r : PruneRecord}
    {role : PruneRole} (h : classifyPruneRecord g ctx r = (role, none)) :
    role = (classifyPruneRecord g none r).1 ∧ (classifyPruneRecord g none r).2 = none := by
  cases ctx with
  | some err => cases h
  | none => exact ⟨(congrArg Prod.fst h).symm, congrArg Prod.snd h⟩

/-- The record that is consumed for an entry of the source. -/
def scannedRecord (g : PruneHost) (keep : List (Bytes × Bytes)) (entry : Bytes × Bytes) :
    PruneRecord :=
  ⟨entry.1, entry.2, (classifyPruneRecord g none ⟨entry.1, entry.2, mergedRole keep entry⟩).1⟩

/-- The error of its classification. -/
def scannedErr (g : PruneHost) (keep : List (Bytes × Bytes)) (entry : Bytes × Bytes) : Option Err :=
  (classifyPruneRecord g none ⟨entry.1, entry.2, mergedRole keep entry⟩).2

/-- The consumed records of a walk that reached its end. -/
theorem consumed_eq {g : PruneHost} {consume : List PruneRecord → PruneRecord → Option Err}
    {consumed : List PruneRecord}
    (h : List.Forall₂ (Final (walkCalls g consume)) (source.map fun e => (⟨e.1, e.2,
      mergedRole keep e⟩ : PruneRecord)) consumed) :
    consumed = source.map (scannedRecord g keep) ∧ ∀ e ∈ source, scannedErr g keep e = none := by
  induction source generalizing consumed with
  | nil =>
    cases h
    exact ⟨rfl, nofun⟩
  | cons e source ih =>
    obtain ⟨out, rest, hFinal, hRest, rfl⟩ := List.forall₂_cons_left_iff.mp h
    obtain ⟨rfl, hErrs⟩ := ih hRest
    obtain ⟨ctx, hCtx⟩ := hFinal.role
    obtain ⟨hRole, hErr⟩ := classifyPruneRecord_eq_none hCtx
    have hOut : out = scannedRecord g keep e := by
      have hKey := hFinal.key
      have hValue := hFinal.value
      cases out
      simp only at hKey hValue hRole
      rw [hKey, hValue, hRole]
      rfl
    rw [hOut, List.map_cons]
    exact ⟨rfl, List.forall_mem_cons.mpr ⟨hErr, hErrs⟩⟩

section Lookup

variable {g : PruneHost} {keep source : Store}

variable {e : Bytes × Bytes}

/-- The role of a lookup is that of the walk. -/
theorem serialPruneKeyRole_eq (hKeep : ∀ k ∈ keep.keys, k.length = 32)
    (hValue : ∀ v, keep.get? e.1 = some v → v = e.2) :
    serialPruneKeyRole g keep e.1 e.2 = .ok (scannedRecord g keep.entries e).role := by
  have hMem : e ∈ keep.entries ↔ keep.get? e.1 = some e.2 := SortedMap.get?_eq_some_iff.symm
  unfold serialPruneKeyRole
  by_cases hIn : e ∈ keep.entries
  · have hLength : e.1.length = 32 := hKeep e.1 (List.mem_map_of_mem hIn)
    rw [if_neg (not_not.mpr hLength), hMem.mp hIn]
    simp [scannedRecord, classifyPruneRecord, mergedRole, hIn, comparePruneValue, require]
  · have hNone : keep.get? e.1 = none := by
      cases hGet : keep.get? e.1 with
      | none => rfl
      | some v =>
        obtain rfl := hValue v hGet
        exact absurd (hMem.mpr hGet) hIn
    rw [hNone]
    by_cases hLength : e.1.length = 32
    · by_cases hHash : g.keccak e.2 = .ofBytes 32 e.1
      · simp [scannedRecord, classifyPruneRecord, mergedRole, otherRole, hIn, hLength, hHash]
      · simp [scannedRecord, classifyPruneRecord, mergedRole, otherRole, hIn, hLength, hHash]
    · simp [scannedRecord, classifyPruneRecord, mergedRole, otherRole, hIn, hLength]

/-- One step of the reference is one classification and its accounting. -/
theorem serialScanStep_eq (hKeep : ∀ k ∈ keep.keys, k.length = 32)
    (hValue : ∀ v, keep.get? e.1 = some v → v = e.2) (t : PruneTally) :
    serialScanStep g keep t e =
      match scannedErr g keep.entries e with
      | some err => .error err
      | none => .ok (t.add (scannedRecord g keep.entries e)) := by
  unfold serialScanStep
  rw [serialPruneKeyRole_eq hKeep hValue]
  have hErr : scannedErr g keep.entries e =
      if (scannedRecord g keep.entries e).role ≠ .delete ∧
          (scannedRecord g keep.entries e).role ≠ .retainState then rejectPruneForeignKey g e.1 e.2
      else none := by
    simp only [scannedErr, scannedRecord, classifyPruneRecord]
    split <;> split <;> simp_all
  rw [hErr]
  show (if _ then _ else _) = _
  split
  · rfl
  · rfl

/-- A step of the reference compares the value of a kept key. -/
theorem value_of_serialScanStep (hKeep : ∀ k ∈ keep.keys, k.length = 32) {t t' : PruneTally}
    (h : serialScanStep g keep t e = .ok t') {v : Bytes} (hGet : keep.get? e.1 = some v) :
    v = e.2 := by
  have hLength : e.1.length = 32 :=
    hKeep e.1 (List.mem_map.mpr ⟨(e.1, v), SortedMap.get?_eq_some_iff.mp hGet, rfl⟩)
  by_contra hNe
  have hRole : serialPruneKeyRole g keep e.1 e.2 =
      .error (.msg "prune keep value differs at key %x" [.bytes e.1]) := by
    unfold serialPruneKeyRole
    rw [if_neg (not_not.mpr hLength), hGet]
    dsimp only
    rw [comparePruneValue, require, if_neg hNe]
    rfl
  rw [serialScanStep, hRole] at h
  cases h

end Lookup

/-! ## Main result -/

section Result

variable {g : PruneHost} {e : PruneExecution} {keep source : Store} {s : ScanState}

/-- The script of a scan. -/
def scanScript (source keep : Store) : Script := walkScript none none source.entries keep.entries

theorem scanScript_eq (source keep : Store) :
    scanScript source keep = walkLoop none (inFront keep.entries) source.entries := by
  rw [scanScript, walkScript, advance_eq]

/-- The keep set is part of the source. -/
def Covers (source keep : Store) : Prop := ∀ k ∈ keep.keys, source.get? k = keep.get? k

theorem covers_iff : Covers source keep ↔ ∀ e ∈ keep.entries, e ∈ source.entries := by
  constructor
  · intro h e he
    have hSame := h e.1 (List.mem_map_of_mem he)
    rw [SortedMap.get?_eq_some_iff.mpr he] at hSame
    exact SortedMap.get?_eq_some_iff.mp hSame
  · intro h k hk
    obtain ⟨e, he, rfl⟩ := List.mem_map.mp hk
    rw [SortedMap.get?_eq_some_iff.mpr he, SortedMap.get?_eq_some_iff.mpr (h e he)]

/-- The records that a scan pushes when the keep set is part of the source. -/
def mergedRecords (source keep : Store) : List PruneRecord :=
  source.entries.map fun e => ⟨e.1, e.2, mergedRole keep.entries e⟩

theorem scanScript_of_covers (h : Covers source keep) :
    scanScript source keep = (mergedRecords source keep).map .ok := by
  rw [scanScript_eq, walkLoop_of_subset keep.sorted source.sorted (covers_iff.mp h)]
  rfl

theorem covers_of_scanScript {records : List PruneRecord}
    (h : scanScript source keep = records.map .ok) : Covers source keep :=
  covers_iff.mpr (subset_of_walkLoop (scanScript_eq source keep ▸ h))

/-- **A walk that succeeds** has seen every record of the keep set in the source, has
accepted every record, and has consumed all of them with their final roles. -/
theorem ScanEnds.consumed_of_walk {consume : List PruneRecord → PruneRecord → Option Err}
    (h : ScanEnds e (walkCalls g consume) (scanScript source keep) s) (hNone : s.outcome = none) :
    Covers source keep ∧ s.consumed = source.entries.map (scannedRecord g keep.entries) ∧
      ∀ e ∈ source.entries, scannedErr g keep.entries e = none := by
  obtain ⟨records, hScript, hFinal⟩ := h.consumed_of_outcome hNone
  have hCovers := covers_of_scanScript hScript
  obtain rfl : mergedRecords source keep = records :=
    List.map_injective_iff.mpr (fun _ _ h => Except.ok.inj h)
      ((scanScript_of_covers hCovers).symm.trans hScript)
  exact ⟨hCovers, consumed_eq hFinal⟩

variable {inventory : PruneInventory}

/-- The reference over a source that contains the keep set. -/
theorem serialScanPruneDB_eq_ok_iff (hKeep : ∀ k ∈ keep.keys, k.length = 32)
    (hCovers : Covers source keep) :
    serialScanPruneDB g source keep = .ok inventory ↔
      (∀ e ∈ source.entries, scannedErr g keep.entries e = none) ∧
        inventory = pruneInventory g (source.entries.map (scannedRecord g keep.entries)) := by
  have hStep : ∀ e ∈ source.entries, ∀ t, serialScanStep g keep t e =
      match scannedErr g keep.entries e with
      | some err => .error err
      | none => .ok (t.add (scannedRecord g keep.entries e)) := by
    intro e he t
    refine serialScanStep_eq hKeep ?_ t
    intro v hGet
    have hSame := hCovers e.1 (List.mem_map.mpr ⟨(e.1, v), SortedMap.get?_eq_some_iff.mp hGet, rfl⟩)
    have hHere : source.get? e.1 = some e.2 := SortedMap.get?_eq_some_iff.mpr he
    rw [hHere, hGet] at hSame
    exact (Option.some.inj hSame).symm
  -- the loop, from any tally
  have hLoop : ∀ (entries : List (Bytes × Bytes)) (t t' : PruneTally),
      (∀ e ∈ entries, e ∈ source.entries) → (entries.foldlM (serialScanStep g keep) t = .ok t' ↔
        (∀ e ∈ entries, scannedErr g keep.entries e = none) ∧
          t' = (entries.map (scannedRecord g keep.entries)).foldl PruneTally.add t) := by
    intro entries
    induction entries with
    | nil =>
      intro t t' _
      simp [eq_comm]
    | cons e entries ih =>
      intro t t' hIn
      obtain ⟨he, hIn⟩ := List.forall_mem_cons.mp hIn
      rw [foldlM_cons_eq_ok, hStep e he t, List.forall_mem_cons, List.map_cons, List.foldl_cons]
      cases hErr : scannedErr g keep.entries e with
      | some err => simp
      | none =>
        simp only [Except.ok.injEq, exists_eq_left', true_and]
        exact ih _ _ hIn
  unfold serialScanPruneDB
  rw [bind_eq_ok]
  constructor
  · rintro ⟨t, hRun, hDone⟩
    obtain ⟨hErrs, rfl⟩ := (hLoop _ _ _ fun _ h => h).mp hRun
    exact ⟨hErrs, (Except.ok.inj hDone).symm⟩
  · rintro ⟨hErrs, rfl⟩
    exact ⟨_, (hLoop _ _ _ fun _ h => h).mpr ⟨hErrs, rfl⟩, rfl⟩

/-- The reference succeeds only when the kept keys that it meets have their values. -/
theorem covers_of_serialScanPruneDB (hKeep : ∀ k ∈ keep.keys, k.length = 32)
    (hKeys : ∀ k ∈ keep.keys, k ∈ source.keys)
    (h : serialScanPruneDB g source keep = .ok inventory) : Covers source keep := by
  obtain ⟨t, hRun, -⟩ := bind_eq_ok.mp h
  -- every step of the loop succeeded
  have hSteps : ∀ entries : List (Bytes × Bytes), ∀ t t' : PruneTally,
      entries.foldlM (serialScanStep g keep) t = .ok t' →
      ∀ e ∈ entries, ∃ m m', serialScanStep g keep m e = .ok m' := by
    intro entries
    induction entries with
    | nil => exact fun _ _ _ => nofun
    | cons e entries ih =>
      intro t t' hRun
      obtain ⟨m, hStep, hRest⟩ := foldlM_cons_eq_ok.mp hRun
      exact List.forall_mem_cons.mpr ⟨⟨t, m, hStep⟩, ih m t' hRest⟩
  intro k hk
  obtain ⟨⟨k, value⟩, he, rfl⟩ := List.mem_map.mp (hKeys k hk)
  obtain ⟨m, m', hStep⟩ := hSteps _ _ _ hRun _ he
  obtain ⟨v, hGet⟩ := Option.isSome_iff_exists.mp (SortedMap.mem_keys_iff.mp hk)
  obtain rfl := value_of_serialScanStep hKeep hStep hGet
  exact (SortedMap.get?_eq_some_iff.mpr he).trans hGet.symm

/-- A scan that succeeds, under any schedule and cancellation, returns what the
reference returns. -/
theorem serial_of_scan (hKeep : ∀ k ∈ keep.keys, k.length = 32)
    (h : ScanEnds e (scanCalls g) (scanScript source keep) s)
    (hScan : scanResult g s = .ok inventory) : serialScanPruneDB g source keep = .ok inventory := by
  unfold scanResult at hScan
  split at hScan
  next => cases hScan
  next hNone =>
    obtain ⟨hCovers, hConsumed, hErrs⟩ := h.consumed_of_walk hNone
    rw [serialScanPruneDB_eq_ok_iff hKeep hCovers, ← hConsumed]
    exact ⟨hErrs, (Except.ok.inj hScan).symm⟩

/-- A scan succeeds when the reference does. -/
theorem scan_of_serial (hKeep : ∀ k ∈ keep.keys, k.length = 32)
    (hKeys : ∀ k ∈ keep.keys, k ∈ source.keys)
    (h : CalmScanEnds e (scanCalls g) (scanScript source keep) s)
    (hSerial : serialScanPruneDB g source keep = .ok inventory) :
    scanResult g s = .ok inventory := by
  have hCovers := covers_of_serialScanPruneDB hKeep hKeys hSerial
  obtain ⟨hErrs, rfl⟩ := (serialScanPruneDB_eq_ok_iff hKeep hCovers).mp hSerial
  have hAccepts : Accepts (scanCalls g) (mergedRecords source keep) := by
    refine ⟨?_, fun _ _ _ => rfl⟩
    intro r hr
    obtain ⟨e, he, rfl⟩ := List.mem_map.mp hr
    exact hErrs e he
  have hNone : s.outcome = none :=
    CalmScanEnds.outcome_eq_none (scanScript_of_covers hCovers ▸ h) hAccepts
  obtain ⟨-, hConsumed, -⟩ := h.scanEnds.consumed_of_walk hNone
  rw [scanResult, hNone, hConsumed]

/-- A keep set that is not part of the source is always noticed. -/
theorem scan_error_of_not_covers (h : ScanEnds e (scanCalls g) (scanScript source keep) s)
    (hNot : ¬ Covers source keep) : ∃ err, scanResult g s = .error err := by
  unfold scanResult
  split
  next err _ => exact ⟨err, rfl⟩
  next hNone => exact absurd (h.consumed_of_walk hNone).1 hNot

end Result

/-- **The streaming scan is the scan with lookups.** For every source, keep set of
32-byte keys, number of workers, byte limit and schedule:

* if the source has every key of the keep set, a scan whose context stays live
  succeeds exactly when the reference does, with the same inventory; a scan that is
  cancelled fails or returns that inventory too;
* if a key of the keep set is missing in the source or has another value there, the
  scan returns an error;
* the threads make a bounded number of moves, and one of them can move until the
  coordinator has returned and the workers have joined. -/
theorem prune_scan_matches_lookups (g : PruneHost) (e : PruneExecution) (source keep : Store)
    (hKeep : ∀ k ∈ keep.keys, k.length = 32) :
    ((∀ k ∈ keep.keys, k ∈ source.keys) → ∀ s inventory,
      (CalmScanEnds e (scanCalls g) (scanScript source keep) s →
        (scanResult g s = .ok inventory ↔ serialScanPruneDB g source keep = .ok inventory)) ∧
      (ScanEnds e (scanCalls g) (scanScript source keep) s →
        scanResult g s = .ok inventory → serialScanPruneDB g source keep = .ok inventory)) ∧
    ((∃ k ∈ keep.keys, source.get? k ≠ keep.get? k) → ∀ s,
      ScanEnds e (scanCalls g) (scanScript source keep) s → ∃ err, scanResult g s = .error err) ∧
    (∃ s, CalmScanEnds e (scanCalls g) (scanScript source keep) s) ∧
    ∀ t s, (scanSystem e (scanCalls g)).run t (ScanState.init e (scanScript source keep)) = some s →
      t.countP ScanAction.isMove ≤ 20 * (scanScript source keep).length + 10 ∧
      (¬ (s.pc.Returned ∧ s.Joined) →
        ∃ a s', ScanAction.isMove a = true ∧ (scanSystem e (scanCalls g)).step a s = some s') := by
  refine ⟨?_, ?_, exists_calmScanEnds e _ _, ?_⟩
  · intro hKeys s inventory
    refine ⟨fun hEnds =>
      ⟨serial_of_scan hKeep hEnds.scanEnds, scan_of_serial hKeep hKeys hEnds⟩, ?_⟩
    exact fun hEnds => serial_of_scan hKeep hEnds
  · rintro ⟨k, hk, hNe⟩ s hEnds
    exact scan_error_of_not_covers hEnds fun hCovers => hNe (hCovers k hk)
  · intro t s hRun
    exact ⟨ScanInv.run_moves_le hRun, (ScanInv.run hRun).moves_until_joined⟩

/-- A hash that repeats the length of its input. -/
def scanHost : PruneHost where
  keccak b := ⟨List.replicate 32 (lowByte b.length), List.length_replicate ..⟩
  parseAddr _ := false

/-- Three records under hashes, of which the second is kept, and a header. -/
def scanSource : Store where
  entries := [(List.replicate 32 1, [7]), (List.replicate 32 2, [7, 7]), (List.replicate 32 3, [7]),
    (asciiBytes "h", [0])]
  sorted := by decide

def scanKeep : Store where
  entries := [(List.replicate 32 2, [7, 7])]
  sorted := by decide

/-- One record is deleted, one kept, one unknown and one of another kind. -/
theorem prune_scan_sample :
    ∃ s inventory, CalmScanEnds pipelineExecution (scanCalls scanHost)
      (scanScript scanSource scanKeep) s ∧
      scanResult scanHost s = .ok inventory ∧ inventory.keep = ⟨1, 34⟩ ∧
        inventory.candidates = ⟨1, 33⟩ ∧ inventory.unknown = ⟨1, 33⟩ ∧
          inventory.protectedCount = ⟨3, 69⟩ := by
  have hKeep : ∀ k ∈ scanKeep.keys, k.length = 32 := by decide
  have hKeys : ∀ k ∈ scanKeep.keys, k ∈ scanSource.keys := by decide
  have hSerial : okWith (serialScanPruneDB scanHost scanSource scanKeep) (fun inventory =>
      inventory.keep = ⟨1, 34⟩ ∧ inventory.candidates = ⟨1, 33⟩ ∧ inventory.unknown = ⟨1, 33⟩ ∧
        inventory.protectedCount = ⟨3, 69⟩) = true := by
    decide +kernel
  obtain ⟨inventory, hRun, hCounts⟩ := okWith_eq_true.mp hSerial
  have hScan := prune_scan_matches_lookups scanHost pipelineExecution scanSource scanKeep hKeep
  obtain ⟨s, hEnds⟩ := hScan.2.2.1
  exact ⟨s, inventory, hEnds, ((hScan.1 hKeys s inventory).1 hEnds).mpr hRun,
    of_decide_eq_true hCounts⟩

end L2State
