import L2State.Lib.Stateful
import L2State.Geth.Types

/-!
# L2State — the legacy ancient store

`legacyAncient` of `ovm_ancient.go`: read access to the three tables of a
freezer directory. A table has an index file with an entry of six bytes per
item boundary, the number of a data file and an offset in it, and data files
that hold the items one after the other. Each table keeps the handle of one
data file.

The files do not change while the store is open. The calls of the operating
system can fail at any time; `snappy.Decode` is a parameter.

* `AncientOs`, `AncientWorld` — the files and faults, and the state of the
  reader: the data file that each table has open.
* `openLegacyAncientTable`, `LegacyAncient.read`, `dataFile`, `closeData` — the
  code.
* `Freezer` — **the layout**: which files a freezer writes for a list of items.
* `keeps_read`, `gives_read` — what a read returns, and when it does not fail.
-/

namespace L2State

open Lib

/-! ## Files -/

/-- A file of the directory: `name.ridx` or `name.cidx`, and `name.%04d.rdat`
or `name.%04d.cdat`. -/
inductive AncientName
  | index (table : String) (compressed : Bool)
  | data (table : String) (number : Nat) (compressed : Bool)
deriving DecidableEq

/-- The name of the file, with the number of a data file in four digits. -/
def AncientName.base : AncientName → String
  | .index table compressed => table ++ (if compressed then ".cidx" else ".ridx")
  | .data table number compressed =>
    table ++ "." ++ "".pushn '0' (4 - (toString number).length) ++ toString number ++
      (if compressed then ".cdat" else ".rdat")

/-- The operating system: the regular files of the directory, the fault of the
`n`-th call, and `snappy.Decode`. -/
structure AncientOs where
  file   : AncientName → Option Bytes
  fault  : Nat → Option Err
  decode : Bytes → Except Err Bytes

/-- `legacyAncientTable`, without the handle of the data file. -/
structure AncientTable where
  name       : String
  compressed : Bool
  count      : Nat

/-- `legacyAncient`. -/
structure LegacyAncient where
  tables : Fin 3 → AncientTable
  count  : Nat

/-- The number of calls so far, and for each table the number and size of the
data file that it has open. -/
structure AncientWorld where
  clock : Nat
  data  : Fin 3 → Option (Nat × Nat)

/-- Code of the reader. -/
abbrev AncientM (α : Type) := Stateful AncientWorld Err α

/-- How `ReadAt` fails. -/
inductive ReadError
  | eof
  | other (e : Err)

def ReadError.toErr : ReadError → Err
  | .eof => .outside "EOF"
  | .other e => e

section Code

variable (os : AncientOs)

/-- One call of the operating system. -/
def osCall {α : Type} (x : Except Err α) : AncientM α :=
  .step fun w => ((os.fault w.clock).elim x .error, { w with clock := w.clock + 1 })

/-- A file that must exist. -/
def AncientOs.find (name : AncientName) : Except Err Bytes :=
  match os.file name with
  | some content => .ok content
  | none => .error (.outside "file does not exist")

/-- `f.Stat`: the size. -/
def statFile (name : AncientName) : AncientM Nat := osCall os ((os.find name).map List.length)

/-- `os.Lstat` and `os.Open`. -/
def findFile (name : AncientName) : AncientM Unit := osCall os ((os.find name).map fun _ => ())

/-- `f.Close`. -/
def closeFile : AncientM Unit := osCall os (.ok ())

/-- The bytes at an offset; a short read is an error. -/
def AncientOs.slice (name : AncientName) (off len : Nat) : Except ReadError Bytes :=
  match os.file name with
  | some content =>
    if off + len ≤ content.length then .ok ((content.drop off).take len) else .error .eof
  | none => .error (.other (.outside "file does not exist"))

/-- `f.ReadAt`, with the error that it returns. -/
def readAt (name : AncientName) (off len : Nat) : AncientM (Except ReadError Bytes) :=
  .step fun w => (.ok ((os.fault w.clock).elim (os.slice name off len) fun e => .error (.other e)),
    { w with clock := w.clock + 1 })

/-- An optional error as an outcome. -/
def raise : Option Err → AncientM Unit
  | none => pure ()
  | some e => throw e

/-- `openOVMInput`. -/
def openOVMInput (name : AncientName) : AncientM Unit := do
  .wrapped (.wrap "inspect OVM input: %w" []) (findFile os name)
  .wrapped (.wrap "open OVM input: %w" []) (findFile os name)
  let err ← Stateful.failure (findFile os name)
  match err with
  | none => pure ()
  | some e => do
    let closed ← Stateful.failure (closeFile os)
    raise (joinErr (some (.msg "OVM input changed while opening" [])) (joinErr (some e) closed))

/-- `errors.Join(err, f.Close())` for an error of `m`. -/
def closingOnError {α : Type} (m : AncientM α) : AncientM α :=
  .recover m fun e => do
    let closed ← Stateful.failure (closeFile os)
    throw ((joinErr (some e) closed).getD e)

/-- The number of items of a table, by the size of its index. -/
def indexCount (size : Nat) : Except Err Nat := do
  require (6 ≤ size ∧ size % 6 = 0) (.msg "malformed ancient index length" [])
  return size / 6 - 1

/-- `openLegacyAncientTable`. -/
def openLegacyAncientTable (name : String) (compressed : Bool) : AncientM AncientTable := do
  .wrapped (.wrap "open ancient %s index: %w" [.text name])
    (openOVMInput os (.index name compressed))
  closingOnError os (do
    let size ← statFile os (.index name compressed)
    let count ← Stateful.of (indexCount size)
    let first ← readAt os (.index name compressed) 0 6
    let first ← Stateful.of (first.mapError ReadError.toErr)
    .of (require (ofBE (first.drop 2) = 0) (.msg "ancient history has a truncated tail" []))
    return ⟨name, compressed, count⟩)

/-- `confirmAncientFile`. -/
def confirmAncientFile (name : AncientName) (size : Nat) : AncientM Unit := do
  let now ← statFile os name
  .of (require (now = size) (.msg "ancient file changed during migration: %s" [.text name.base]))
  findFile os name

/-- The data file of a table that is open. -/
def openData (table : Fin 3) : AncientM (Option (Nat × Nat)) :=
  .step fun w => (.ok (w.data table), w)

/-- `t.data, t.dataInfo, t.dataNumber = ...`. -/
def setData (table : Fin 3) (data : Option (Nat × Nat)) : AncientM Unit :=
  .step fun w => (.ok (), { w with data := Function.update w.data table data })

/-- `closeData`: the handle is given up whatever happens. -/
def closeData (table : Fin 3) (t : AncientTable) : AncientM Unit := do
  let data ← openData table
  match data with
  | none => pure ()
  | some (number, size) => do
    let changed ← Stateful.failure (confirmAncientFile os (.data t.name number t.compressed) size)
    let closed ← Stateful.failure (closeFile os)
    setData table none
    raise (joinErr changed closed)

/-- `Close` for one table, with the errors so far. -/
def closeTable (result : Option Err) (opened : Fin 3 × AncientTable) : AncientM (Option Err) := do
  let data ← Stateful.failure (closeData os opened.1 opened.2)
  let changed ← Stateful.failure
    (confirmAncientFile os (.index opened.2.name opened.2.compressed) (6 * (opened.2.count + 1)))
  let closed ← Stateful.failure (closeFile os)
  return joinErr (joinErr (joinErr result data) changed) closed

/-- `errors.Join(err, a.Close())` for an error of `m`. -/
def closingAll {α : Type} (opened : List (Fin 3 × AncientTable)) (m : AncientM α) : AncientM α :=
  .recover m fun e => do
    let closed ← opened.foldlM (closeTable os) none
    throw ((joinErr (some e) closed).getD e)

/-- One iteration of the loop of `openLegacyAncient`: all tables have the
length of the first. -/
def openNext (opened : List (Fin 3 × AncientTable)) (table : Fin 3) (name : String)
    (compressed : Bool) : AncientM AncientTable := do
  let t ← closingAll os opened (openLegacyAncientTable os name compressed)
  closingAll os (opened ++ [(table, t)])
    (.of (require (∀ first ∈ opened.head?, first.2.count = t.count)
      (.msg "legacy ancient table lengths disagree" [])))
  return t

/-- The loop of `openLegacyAncient`, for a directory that is not empty. -/
def openLegacyAncient : AncientM LegacyAncient := do
  let hashes ← openNext os [] 0 "hashes" false
  let headers ← openNext os [(0, hashes)] 1 "headers" true
  let receipts ← openNext os [(0, hashes), (1, headers)] 2 "receipts" true
  return ⟨fun
    | 0 => hashes
    | 1 => headers
    | 2 => receipts, hashes.count⟩

/-- Opens a data file and keeps its handle. -/
def openDataFile (table : Fin 3) (t : AncientTable) (number : Nat) : AncientM Nat := do
  closeData os table t
  openOVMInput os (.data t.name number t.compressed)
  let size ← closingOnError os (statFile os (.data t.name number t.compressed))
  setData table (some (number, size))
  return size

/-- `dataFile`: the size of the file, which is open afterwards. -/
def dataFile (table : Fin 3) (t : AncientTable) (number : Nat) : AncientM Nat := do
  let data ← openData table
  match data with
  | some (number', size) => if number' = number then pure size else openDataFile os table t number
  | none => openDataFile os table t number

/-- The data file and the offsets that two index entries give. -/
def itemInterval (offsets : Bytes) : Except Err (Nat × Nat × Nat) := do
  let startFile := ofBE (offsets.take 2)
  let endFile := ofBE ((offsets.drop 6).take 2)
  require (startFile ≤ endFile ∧ endFile ≤ startFile + 1)
    (.msg "ancient file sequence is invalid" [])
  -- the first item of a file
  let start := if startFile ≠ endFile then 0 else ofBE ((offsets.drop 2).take 4)
  let stop := ofBE ((offsets.drop 8).take 4)
  require (start ≤ stop) (.msg "ancient offsets are reversed" [])
  return (endFile, start, stop)

/-- The outcome of the read of an item, where the end of the file is no error
for an empty one. -/
def itemBytes (len : Nat) : Except ReadError Bytes → Except Err Bytes
  | .ok blob => .ok blob
  | .error .eof => if len ≠ 0 then .error ReadError.eof.toErr else .ok []
  | .error (.other e) => .error e

/-- The item in the bytes that are stored. -/
def storedItem (t : AncientTable) (blob : Bytes) : Except Err Bytes :=
  if t.compressed then wrapping "decode ancient %s snappy: %w" [.text t.name] (os.decode blob)
  else .ok blob

/-- `legacyAncient.read`. A number beyond the table is `none`, where the code returns nil; it
returns nil for an empty item too, which is `some []` here. -/
def LegacyAncient.read (a : LegacyAncient) (table : Fin 3) (number : Nat) :
    AncientM (Option Bytes) :=
  if a.count ≤ number then pure none
  else do
    let t := a.tables table
    let entries ← readAt os (.index t.name t.compressed) (number * 6) 12
    let offsets ← Stateful.of (wrapping "read ancient %s index: %w" [.text t.name]
      (entries.mapError ReadError.toErr))
    let (file, start, stop) ← Stateful.of (itemInterval offsets)
    let size ← dataFile os table t file
    .of (require (stop ≤ size) (.msg "ancient data file is truncated" []))
    let blob ← readAt os (.data t.name file t.compressed) start (stop - start)
    let blob ← Stateful.of (itemBytes (stop - start) blob)
    let item ← Stateful.of (storedItem os t blob)
    return some item

/-- A sequence of reads. -/
def LegacyAncient.readAll (a : LegacyAncient) (reads : List (Fin 3 × Nat)) :
    AncientM (List (Option Bytes)) :=
  reads.mapM fun r => a.read os r.1 r.2

end Code

/-! ## What a read returns -/

/-- An invariant that does not depend on the number of calls. -/
def ClockFree (inv : AncientWorld → Prop) : Prop := ∀ w n, inv w → inv { w with clock := n }

section Calls

variable {os : AncientOs} {inv : AncientWorld → Prop}

theorem keeps_osCall {α : Type} {x : Except Err α} {Q : α → Prop} (hFree : ClockFree inv)
    (hQ : ∀ a, x = .ok a → Q a) : Keeps inv (osCall os x) Q := by
  refine .step (fun w hw => hFree w _ hw) fun w _ a hEq => ?_
  cases hFault : os.fault w.clock with
  | none =>
    rw [hFault] at hEq
    exact hQ a hEq
  | some e =>
    rw [hFault] at hEq
    cases hEq

theorem keeps_readAt (hFree : ClockFree inv) (name : AncientName) (off len : Nat) :
    Keeps inv (readAt os name off len) fun r => ∀ blob, r = .ok blob →
      os.slice name off len = .ok blob := by
  refine .step (fun w hw => hFree w _ hw) fun w _ r hEq blob hBlob => ?_
  subst hBlob
  have hRead := Except.ok.inj hEq
  cases hFault : os.fault w.clock with
  | none =>
    rw [hFault] at hRead
    exact hRead
  | some e =>
    rw [hFault] at hRead
    cases hRead

theorem keeps_raise (e : Option Err) : Keeps inv (raise e) fun _ => e = none := by
  cases e with
  | none => exact .pure rfl
  | some e => exact .throw e

variable {name : AncientName}

theorem find_eq_ok {c : Bytes} : os.find name = .ok c ↔ os.file name = some c := by
  unfold AncientOs.find
  cases os.file name <;> simp

theorem keeps_findFile (hFree : ClockFree inv) (name : AncientName) :
    Keeps inv (findFile os name) fun _ => True := keeps_osCall hFree fun _ _ => trivial

theorem keeps_statFile (hFree : ClockFree inv) (name : AncientName) :
    Keeps inv (statFile os name) fun size => ∃ c, os.file name = some c ∧ c.length = size := by
  refine keeps_osCall hFree fun size hEq => ?_
  cases hFind : os.find name with
  | error e =>
    rw [hFind] at hEq
    cases hEq
  | ok c =>
    rw [hFind] at hEq
    exact ⟨c, find_eq_ok.mp hFind, Except.ok.inj hEq⟩

theorem keeps_closeFile (hFree : ClockFree inv) : Keeps inv (closeFile os) fun _ => True :=
  keeps_osCall hFree fun _ _ => trivial

theorem keeps_openOVMInput (hFree : ClockFree inv) (name : AncientName) :
    Keeps inv (openOVMInput os name) fun _ => True := by
  refine (keeps_findFile hFree name).wrapped.bind fun _ _ => ?_
  refine (keeps_findFile hFree name).wrapped.bind fun _ _ => ?_
  refine (keeps_findFile hFree name).failure.bind fun err _ => ?_
  cases err with
  | none => exact .pure trivial
  | some e =>
    refine (keeps_closeFile hFree).failure.bind fun _ _ => ?_
    exact (keeps_raise _).mono fun _ _ => trivial

theorem keeps_closingOnError {α : Type} {m : AncientM α} {Q : α → Prop} (hFree : ClockFree inv)
    (hm : Keeps inv m Q) : Keeps inv (closingOnError os m) Q :=
  hm.recover fun _ => (keeps_closeFile hFree).failure.bind fun _ _ => .throw _

/-- A read inside of a file. -/
theorem slice_eq_ok {c : Bytes} {off len : Nat} (hFile : os.file name = some c)
    (hInside : off + len ≤ c.length) : os.slice name off len = .ok ((c.drop off).take len) := by
  simp only [AncientOs.slice, hFile]
  exact if_pos hInside

end Calls

/-! Calls without faults -/

section Calm

variable {os : AncientOs} {inv : AncientWorld → Prop} (hFree : ClockFree inv)
  (hCalm : ∀ n, os.fault n = none) {name : AncientName} {c : Bytes}

include hFree hCalm

theorem gives_osCall {α : Type} {x : Except Err α} {a : α} (hx : x = .ok a) :
    Gives inv (osCall os x) fun b => b = a := by
  intro w hw
  refine ⟨a, { w with clock := w.clock + 1 }, ?_, rfl, hFree w _ hw⟩
  rw [osCall, Stateful.exec_step, hCalm, hx]
  rfl

/-- A call without a fault reads what is there. -/
theorem gives_readAt (name : AncientName) (off len : Nat) :
    Gives inv (readAt os name off len) fun r => r = os.slice name off len := by
  intro w hw
  refine ⟨_, { w with clock := w.clock + 1 }, ?_, rfl, hFree w _ hw⟩
  rw [readAt, Stateful.exec_step, hCalm]
  rfl

theorem gives_closeFile : Gives inv (closeFile os) fun _ => True :=
  (gives_osCall hFree hCalm rfl).mono fun _ _ => trivial

theorem gives_findFile (hFile : os.file name = some c) :
    Gives inv (findFile os name) fun _ => True := by
  refine (gives_osCall (a := ()) hFree hCalm ?_).mono fun _ _ => trivial
  rw [find_eq_ok.mpr hFile]
  rfl

theorem gives_statFile (hFile : os.file name = some c) :
    Gives inv (statFile os name) fun size => size = c.length := by
  refine gives_osCall hFree hCalm ?_
  rw [find_eq_ok.mpr hFile]
  rfl

theorem gives_openOVMInput (hFile : os.file name = some c) :
    Gives inv (openOVMInput os name) fun _ => True := by
  have hFind := gives_findFile hFree hCalm hFile
  refine hFind.wrapped.bind fun _ _ => hFind.wrapped.bind fun _ _ =>
    hFind.failure.bind fun err hErr => ?_
  rw [hErr]
  exact .pure trivial

theorem gives_confirmAncientFile (hFile : os.file name = some c) :
    Gives inv (confirmAncientFile os name c.length) fun _ => True := by
  refine (gives_statFile hFree hCalm hFile).bind fun size hSize => ?_
  exact (Gives.of (require_true hSize)).bind fun _ _ => gives_findFile hFree hCalm hFile

end Calm

/-- What `dataFile` returns is the size of the file asked for. -/
def DataFileOf (os : AncientOs) (t : AncientTable) (number size : Nat) : Prop :=
  ∃ c, os.file (.data t.name number t.compressed) = some c ∧ c.length = size

/-- The handle of a table is that of a data file of the table, with its size. -/
def Cached (os : AncientOs) (a : LegacyAncient) (w : AncientWorld) : Prop :=
  ∀ table number size, w.data table = some (number, size) →
    ∃ c, os.file (.data (a.tables table).name number (a.tables table).compressed) = some c ∧
      c.length = size

section Reads

variable {os : AncientOs} {a : LegacyAncient}

theorem cached_clockFree : ClockFree (Cached os a) := fun _ _ hw => hw

/-- The handle that is open. -/
theorem keeps_openData (table : Fin 3) :
    Keeps (Cached os a) (openData table) fun data => ∀ number size, data = some (number, size) →
      DataFileOf os (a.tables table) number size := by
  refine .step (fun w hw => hw) fun w hw data hEq number size hData => ?_
  exact hw table number size ((Except.ok.inj hEq).trans hData)

variable {table : Fin 3}

theorem keeps_setData {data : Option (Nat × Nat)}
    (hData : ∀ number size, data = some (number, size) → DataFileOf os
      (a.tables table) number size) :
    Keeps (Cached os a) (setData table data) fun _ => True := by
  refine .step (fun w hw i number size hEq => ?_) fun _ _ _ _ => trivial
  by_cases hTable : i = table
  · subst hTable
    refine hData number size ?_
    simpa using hEq
  · refine hw i number size ?_
    simpa [hTable] using hEq

theorem keeps_setDataFile {number size : Nat} (hSize : DataFileOf os (a.tables table) number size) :
    Keeps (Cached os a) (setData table (some (number, size))) fun _ => True := by
  refine keeps_setData fun number' size' hEq => ?_
  obtain ⟨rfl, rfl⟩ := Prod.mk.inj (Option.some.inj hEq)
  exact hSize

theorem keeps_clearData (table : Fin 3) : Keeps (Cached os a) (setData table none) fun _ => True :=
  keeps_setData fun _ _ h => nomatch h

theorem keeps_confirmAncientFile (name : AncientName) (size : Nat) :
    Keeps (Cached os a) (confirmAncientFile os name size) fun _ => True :=
  (keeps_statFile cached_clockFree name).bind fun _ _ => (Keeps.of fun _ _ => trivial).bind
    fun _ (_ : True) => keeps_findFile cached_clockFree name

theorem keeps_closeData (table : Fin 3) :
    Keeps (Cached os a) (closeData os table (a.tables table)) fun _ => True := by
  refine (keeps_openData table).bind fun data _ => ?_
  cases data with
  | none => exact .pure trivial
  | some handle =>
    refine (keeps_confirmAncientFile _ _).failure.bind fun _ _ => ?_
    refine (keeps_closeFile cached_clockFree).failure.bind fun _ _ => ?_
    refine (keeps_clearData table).bind fun _ _ => ?_
    exact (keeps_raise _).mono fun _ _ => trivial

theorem keeps_openDataFile (table : Fin 3) (number : Nat) :
    Keeps (Cached os a) (openDataFile os table (a.tables table) number)
      (DataFileOf os (a.tables table) number) := by
  refine (keeps_closeData table).bind fun _ _ => ?_
  refine (keeps_openOVMInput cached_clockFree _).bind fun _ _ => ?_
  refine (keeps_closingOnError cached_clockFree (keeps_statFile cached_clockFree _)).bind
    fun size hSize => ?_
  exact (keeps_setDataFile hSize).bind fun _ _ => .pure hSize

/-- **`dataFile` returns the file asked for**, whichever one is open. -/
theorem keeps_dataFile (table : Fin 3) (number : Nat) :
    Keeps (Cached os a) (dataFile os table (a.tables table) number)
      (DataFileOf os (a.tables table) number) := by
  refine (keeps_openData table).bind fun data hData => ?_
  match data with
  | none => exact keeps_openDataFile table number
  | some (number', size) =>
    by_cases hSame : number' = number
    · simp only [hSame, if_true]
      exact .pure (hSame ▸ hData number' size rfl)
    · simp only [hSame, if_false]
      exact keeps_openDataFile table number

/-- The item that a read below the count can return: the bytes of the interval
that two index entries give, inside the data file that they name. -/
structure ItemOf (os : AncientOs) (t : AncientTable) (number : Nat) (item : Bytes) : Prop where
  interval : ∃ offsets file start stop content,
    os.slice (.index t.name t.compressed) (number * 6) 12 = .ok offsets ∧
    itemInterval offsets = .ok (file, start, stop) ∧
    os.file (.data t.name file t.compressed) = some content ∧ start ≤ stop ∧ stop ≤ content.length ∧
    storedItem os t ((content.drop start).take (stop - start)) = .ok item

theorem itemInterval_le {offsets : Bytes} {file start stop : Nat}
    (h : itemInterval offsets = .ok (file, start, stop)) : start ≤ stop := by
  obtain ⟨⟨⟩, -, hk⟩ := bind_eq_ok.mp h
  obtain ⟨⟨⟩, hLe, hEq⟩ := bind_eq_ok.mp hk
  obtain ⟨-, hPair⟩ := Prod.mk.inj (Except.ok.inj hEq)
  obtain ⟨rfl, rfl⟩ := Prod.mk.inj hPair
  exact require_eq_ok.mp hLe

theorem mapError_eq_ok {ε ε' α : Type} {f : ε → ε'} {x : Except ε α} {a : α} :
    x.mapError f = .ok a ↔ x = .ok a := by
  cases x <;> simp [Except.mapError]

/-- The bytes of an item inside its file. -/
theorem itemBytes_slice {name : AncientName} {content blob : Bytes} {start len : Nat}
    (hFile : os.file name = some content) (hInside : start + len ≤ content.length)
    {r : Except ReadError Bytes} (hRead : ∀ b, r = .ok b → os.slice name start len = .ok b)
    (h : itemBytes len r = .ok blob) : blob = (content.drop start).take len := by
  have hSlice := slice_eq_ok hFile hInside
  match r with
  | .ok b =>
    obtain rfl : b = blob := Except.ok.inj h
    exact Except.ok.inj ((hRead b rfl).symm.trans hSlice)
  | .error .eof =>
    by_cases hLen : len ≠ 0
    · simp [itemBytes, hLen] at h
    · have hZero : len = 0 := not_not.mp hLen
      subst hZero
      obtain rfl : [] = blob := by simpa [itemBytes] using h
      simp
  | .error (.other e) => cases h

/-- **A read returns the bytes of an interval inside the named file**, or an
error. -/
theorem keeps_read (table : Fin 3) (number : Nat) :
    Keeps (Cached os a) (a.read os table number) fun r =>
      (a.count ≤ number ∧ r = none) ∨
      (number < a.count ∧ ∃ item, r = some item ∧ ItemOf os (a.tables table) number item) := by
  unfold LegacyAncient.read
  by_cases hCount : a.count ≤ number
  · rw [if_pos hCount]
    exact .pure (.inl ⟨hCount, rfl⟩)
  · rw [if_neg hCount]
    refine (keeps_readAt cached_clockFree _ _ _).bind fun entries hEntries => ?_
    refine (Keeps.of fun offsets hEq =>
      hEntries offsets (mapError_eq_ok.mp (wrapping_eq_ok.mp hEq))).bind fun offsets hOffsets => ?_
    refine (Keeps.of fun r hr => hr).bind fun ⟨file, start, stop⟩ hInterval => ?_
    refine (keeps_dataFile table file).bind fun size hSize => ?_
    refine (Keeps.of fun _ h => require_eq_ok.mp h).bind fun _ (hStop : stop ≤ size) => ?_
    refine (keeps_readAt cached_clockFree _ _ _).bind fun blob hBlob => ?_
    refine (Keeps.of fun b hb => hb).bind fun b hItemBytes => ?_
    refine (Keeps.of fun item hItem => hItem).bind fun item hItem => .pure (.inr ?_)
    obtain ⟨content, hFile, hLength⟩ := hSize
    have hLe := itemInterval_le hInterval
    have hInside : start + (stop - start) ≤ content.length := by omega
    rw [itemBytes_slice hFile hInside hBlob hItemBytes] at hItem
    exact ⟨by omega, item, rfl, offsets, file, start, stop, content, hOffsets, hInterval, hFile,
      hLe, by omega, hItem⟩

section Calm

variable (hCalm : ∀ n, os.fault n = none)

include hCalm

/-- The handle that is open is that of its file. -/
theorem gives_closeData (table : Fin 3) :
    Gives (Cached os a) (closeData os table (a.tables table)) fun _ => True := by
  refine ((keeps_openData table).gives fun _ => ⟨_, _, rfl⟩).bind fun data hData => ?_
  cases data with
  | none => exact .pure trivial
  | some handle =>
    obtain ⟨c, hFile, hSize⟩ := hData handle.1 handle.2 rfl
    have hConfirm : Gives (Cached os a) _ _ := gives_confirmAncientFile cached_clockFree hCalm hFile
    rw [hSize] at hConfirm
    refine hConfirm.failure.bind fun err hErr => ?_
    refine (gives_closeFile cached_clockFree hCalm).failure.bind fun err' hErr' => ?_
    refine ((keeps_clearData table).gives fun _ => ⟨_, _, rfl⟩).bind fun _ _ => ?_
    rw [hErr, hErr']
    exact .pure trivial

variable {number : Nat} {c : Bytes}

theorem gives_openDataFile
    (hFile : os.file (.data (a.tables table).name number (a.tables table).compressed) = some c) :
    Gives (Cached os a) (openDataFile os table (a.tables table) number) fun size =>
      size = c.length := by
  refine (gives_closeData hCalm table).bind fun _ _ => ?_
  refine (gives_openOVMInput cached_clockFree hCalm hFile).bind fun _ _ => ?_
  refine (gives_statFile cached_clockFree hCalm hFile).recover.bind fun size hSize => ?_
  refine ((keeps_setDataFile ⟨c, hFile, hSize.symm⟩).gives fun _ => ⟨_, _, rfl⟩).bind fun _ _ => ?_
  exact .pure hSize

theorem gives_dataFile
    (hFile : os.file (.data (a.tables table).name number (a.tables table).compressed) = some c) :
    Gives (Cached os a) (dataFile os table (a.tables table) number) fun size =>
      size = c.length := by
  refine ((keeps_openData table).gives fun _ => ⟨_, _, rfl⟩).bind fun data hData => ?_
  match data with
  | none => exact gives_openDataFile hCalm hFile
  | some (number', size) =>
    by_cases hSame : number' = number
    · obtain ⟨c', hFile', rfl⟩ := hData number' size rfl
      rw [hSame, hFile] at hFile'
      obtain rfl := Option.some.inj hFile'
      simp only [hSame, if_true]
      exact .pure rfl
    · simp only [hSame, if_false]
      exact gives_openDataFile hCalm hFile

/-- **A read returns the item** if the operating system does not fail and the interval is
there. -/
theorem gives_read {item : Bytes} (hCount : number < a.count)
    (hItem : ItemOf os (a.tables table) number item) :
    Gives (Cached os a) (a.read os table number) fun r => r = some item := by
  obtain ⟨offsets, file, start, stop, content, hSlice, hInterval, hFile, hLe, hStop, hStored⟩ :=
    hItem.interval
  rw [LegacyAncient.read, if_neg (Nat.not_le.mpr hCount)]
  refine (gives_readAt cached_clockFree hCalm _ _ _).bind fun entries hEntries => ?_
  refine (Gives.of (wrapping_eq_ok.mpr (mapError_eq_ok.mpr (hEntries.trans hSlice)))).bind ?_
  rintro _ rfl
  refine (Gives.of hInterval).bind ?_
  rintro _ rfl
  refine (gives_dataFile hCalm hFile).bind ?_
  rintro _ rfl
  refine (Gives.of (require_true hStop)).bind fun _ _ => ?_
  refine (gives_readAt cached_clockFree hCalm _ _ _).bind fun blob hBlob => ?_
  rw [slice_eq_ok hFile (by omega)] at hBlob
  subst hBlob
  refine (Gives.of rfl).bind ?_
  rintro _ rfl
  refine (Gives.of hStored).bind ?_
  rintro _ rfl
  exact .pure rfl

end Calm

end Reads

/-! ## The layout of a freezer -/

/-- An item as it is stored, and whether a new data file is started for it. -/
structure FrozenItem where
  roll : Bool
  blob : Bytes

/-- The number of the last data file. -/
def headNumber (first : Nat) (items : List FrozenItem) : Nat :=
  items.foldl (fun number i => if i.roll then number + 1 else number) first

/-- The bytes that a data file holds after some items, starting in `head`. -/
def dataBytes (number : Nat) : (head : Nat) → List FrozenItem → Bytes
  | _, [] => []
  | head, i :: rest =>
    (if (if i.roll then head + 1 else head) = number then i.blob else []) ++
      dataBytes number (if i.roll then head + 1 else head) rest

/-- The index entry after some items: the last data file and its size. -/
def headEntry (first : Nat) (items : List FrozenItem) : Nat × Nat :=
  (headNumber first items, (dataBytes (headNumber first items) first items).length)

/-- The entries of the index: one before the first item, and one after each. -/
def indexEntries (first : Nat) (items : List FrozenItem) : List (Nat × Nat) :=
  (List.range (items.length + 1)).map fun n => headEntry first (items.take n)

/-- An entry: 16 bits for the file and 32 for the offset. -/
def encodeEntry (e : Nat × Nat) : Bytes := toBE 2 e.1 ++ toBE 4 e.2

/-- A table as a freezer writes it. -/
structure Freezer (os : AncientOs) (t : AncientTable) (first : Nat) (items : List FrozenItem) :
    Prop where
  index   : os.file (.index t.name t.compressed) =
    some ((indexEntries first items).flatMap encodeEntry)
  data    : ∀ number, first ≤ number → number ≤ headNumber first items →
    os.file (.data t.name number t.compressed) = some (dataBytes number first items)
  numbers : headNumber first items < 2 ^ 16
  sizes   : ∀ number, (dataBytes number first items).length < 2 ^ 32

section Layout

theorem headNumber_append (first : Nat) (xs ys : List FrozenItem) :
    headNumber first (xs ++ ys) = headNumber (headNumber first xs) ys := List.foldl_append

theorem le_headNumber (first : Nat) (items : List FrozenItem) : first ≤ headNumber first items := by
  induction items generalizing first with
  | nil => exact le_refl _
  | cons i items ih =>
    refine le_trans ?_ (ih _)
    show first ≤ if i.roll then first + 1 else first
    split <;> omega

theorem dataBytes_append (number head : Nat) (xs ys : List FrozenItem) :
    dataBytes number head (xs ++ ys) = dataBytes number head xs ++
      dataBytes number (headNumber head xs) ys := by
  induction xs generalizing head with
  | nil => rfl
  | cons i xs ih =>
    rw [List.cons_append, dataBytes, dataBytes, ih, List.append_assoc]
    rfl

/-- A file that has not been started is empty. -/
theorem dataBytes_above {number head : Nat} {items : List FrozenItem}
    (h : headNumber head items < number) : dataBytes number head items = [] := by
  induction items generalizing head with
  | nil => rfl
  | cons i items ih =>
    have hLe := le_headNumber (if i.roll then head + 1 else head) items
    have hNext : headNumber (if i.roll then head + 1 else head) items < number := h
    rw [dataBytes, if_neg (by omega), ih hNext]
    rfl

theorem headNumber_concat (first : Nat) (before : List FrozenItem) (i : FrozenItem) :
    headNumber first (before ++ [i]) =
      if i.roll then headNumber first before + 1 else headNumber first before := by
  rw [headNumber_append]
  rfl

/-- What is in the file before an item, if it is not the first one there. -/
def fileBefore (first : Nat) (before : List FrozenItem) (i : FrozenItem) : Bytes :=
  if i.roll then [] else dataBytes (headNumber first before) first before

theorem dataBytes_concat (first : Nat) (before : List FrozenItem) (i : FrozenItem) :
    dataBytes (headNumber first (before ++ [i])) first (before ++ [i]) =
      fileBefore first before i ++ i.blob := by
  rw [dataBytes_append, dataBytes, dataBytes, ← headNumber_concat, if_pos rfl, List.append_nil]
  unfold fileBefore
  rw [headNumber_concat]
  by_cases hRoll : i.roll
  · rw [if_pos hRoll, if_pos hRoll, dataBytes_above (Nat.lt_succ_self _)]
  · rw [if_neg hRoll, if_neg hRoll]

/-- **An item in its data file.** -/
theorem dataBytes_split (first : Nat) (before after : List FrozenItem) (i : FrozenItem) :
    ∃ rest, dataBytes (headNumber first (before ++ [i])) first (before ++ i :: after) =
      fileBefore first before i ++ (i.blob ++ rest) := by
  have hSplit : before ++ i :: after = (before ++ [i]) ++ after := by simp
  refine ⟨dataBytes (headNumber first (before ++ [i])) (headNumber first (before ++ [i])) after, ?_⟩
  rw [hSplit, dataBytes_append _ _ (before ++ [i]), dataBytes_concat, List.append_assoc]

theorem length_encodeEntry (e : Nat × Nat) : (encodeEntry e).length = 6 := by simp [encodeEntry]

/-- The entries before and after an item. -/
theorem indexEntries_split (first : Nat) (before after : List FrozenItem) (i : FrozenItem) :
    ∃ pre post, indexEntries first (before ++ i :: after) =
      pre ++ headEntry first before :: headEntry first (before ++ [i]) :: post ∧
      pre.length = before.length := by
  have hRange : List.range ((before ++ i :: after).length + 1) =
      List.range before.length ++ before.length :: (before.length + 1) ::
        (List.range after.length).map (· + (before.length + 2)) := by
    have hLength : (before ++ i :: after).length + 1 = before.length + (2 + after.length) := by
      simp only [List.length_append, List.length_cons]
      omega
    rw [hLength, List.range_add, List.range_add, List.map_append]
    simp [List.range_succ, Function.comp_def, Nat.add_comm, Nat.add_left_comm]
  refine ⟨(List.range before.length).map fun n => headEntry first ((before ++ i :: after).take n),
    ((List.range after.length).map (· + (before.length + 2))).map fun n =>
      headEntry first ((before ++ i :: after).take n), ?_, by simp⟩
  rw [indexEntries, hRange, List.map_append, List.map_cons, List.map_cons]
  congr 2
  · rw [List.take_left' rfl]
  · congr 2
    rw [List.append_cons, List.take_left' (by simp)]

theorem length_flatMap_encodeEntry (l : List (Nat × Nat)) :
    (l.flatMap encodeEntry).length = 6 * l.length := by
  induction l with
  | nil => rfl
  | cons e l ih =>
    rw [List.flatMap_cons, List.length_append, ih, length_encodeEntry, List.length_cons]
    omega

/-- Two entries give the interval of the item between them. -/
theorem itemInterval_entries {file file' off off' : Nat} (hFile : file < 2 ^ 16)
    (hFile' : file' < 2 ^ 16) (hOff : off < 2 ^ 32) (hOff' : off' < 2 ^ 32)
    (hSequence : file ≤ file' ∧ file' ≤ file + 1)
    (hOrder : (if file ≠ file' then 0 else off) ≤ off') :
    itemInterval (encodeEntry (file, off) ++ encodeEntry (file', off')) =
      .ok (file', if file ≠ file' then 0 else off, off') := by
  have hFirst : ofBE ((encodeEntry (file, off) ++ encodeEntry (file', off')).take 2) = file := by
    simp only [encodeEntry, List.append_assoc]
    rw [List.take_left' (length_toBE 2 _), ofBE_toBE (by omega)]
  have hSecond : ofBE (((encodeEntry (file, off) ++ encodeEntry (file', off')).drop 6).take 2) =
      file' := by
    rw [List.drop_left' (length_encodeEntry _), encodeEntry, List.take_left' (length_toBE 2 _),
      ofBE_toBE (by omega)]
  have hStart : ofBE (((encodeEntry (file, off) ++ encodeEntry (file', off')).drop 2).take 4) =
      off := by
    simp only [encodeEntry, List.append_assoc]
    rw [List.drop_left' (length_toBE 2 _), List.take_left' (length_toBE 4 _), ofBE_toBE (by omega)]
  have hStop : ofBE (((encodeEntry (file, off) ++ encodeEntry (file', off')).drop 8).take 4) =
      off' := by
    rw [show 8 = 6 + 2 from rfl, ← List.drop_drop, List.drop_left' (length_encodeEntry _),
      encodeEntry, List.drop_left' (length_toBE 2 _), List.take_of_length_le (by simp),
        ofBE_toBE (by omega)]
  unfold itemInterval
  simp only [hFirst, hSecond, hStart, hStop]
  rw [require_true hSequence, ok_bind, require_true hOrder]
  rfl

theorem length_dataBytes_le (number head : Nat) (items : List FrozenItem) :
    (dataBytes number head items).length ≤ (items.map fun i => i.blob.length).sum := by
  induction items generalizing head with
  | nil => exact le_refl _
  | cons i items ih =>
    have hRest := ih (if i.roll then head + 1 else head)
    have hThis : (if (if i.roll then head + 1 else head) = number then i.blob else []).length ≤
        i.blob.length := by
      by_cases hHere : (if i.roll then head + 1 else head) = number
      · rw [if_pos hHere]
      · rw [if_neg hHere]
        exact Nat.zero_le _
    rw [dataBytes, List.length_append, List.map_cons, List.sum_cons]
    exact Nat.add_le_add hThis hRest

/-- **The interval of an item holds its bytes.** -/
theorem Freezer.itemOf {os : AncientOs} {t : AncientTable} {first : Nat}
    {before after : List FrozenItem} {i : FrozenItem}
    (h : Freezer os t first (before ++ i :: after)) {item : Bytes}
    (hStored : storedItem os t i.blob = .ok item) : ItemOf os t before.length item := by
  obtain ⟨pre, post, hEntries, hPre⟩ := indexEntries_split first before after i
  obtain ⟨rest, hData⟩ := dataBytes_split first before after i
  have hSplit : before ++ i :: after = (before ++ [i]) ++ after := by simp
  have hSize := h.sizes (headNumber first before)
  have hSize' := h.sizes (headNumber first (before ++ [i]))
  have hNumbers := h.numbers
  have hLe := le_headNumber (headNumber first (before ++ [i])) after
  rw [dataBytes_append, List.length_append] at hSize
  rw [hData, List.length_append, List.length_append] at hSize'
  rw [hSplit, headNumber_append] at hNumbers
  have hHead := headNumber_concat first before i
  have hSequence : headNumber first before ≤ headNumber first (before ++ [i]) ∧
      headNumber first (before ++ [i]) ≤ headNumber first before + 1 := by
    rw [hHead]
    split <;> omega
  -- the entries around the item give its interval
  have hEntry : headEntry first (before ++ [i]) = (headNumber first (before ++ [i]),
      (fileBefore first before i).length + i.blob.length) := by
    rw [headEntry, dataBytes_concat, List.length_append]
  have hStart : (if headNumber first before ≠ headNumber first (before ++ [i]) then 0
      else (dataBytes (headNumber first before) first before).length) =
      (fileBefore first before i).length := by
    rw [hHead, fileBefore]
    by_cases hRoll : i.roll
    · simp [hRoll]
    · simp [hRoll]
  have hInterval : itemInterval
      (encodeEntry (headEntry first before) ++ encodeEntry (headEntry first (before ++ [i]))) =
      .ok (headNumber first (before ++ [i]), (fileBefore first before i).length,
        (fileBefore first before i).length + i.blob.length) := by
    rw [hEntry, headEntry, itemInterval_entries (by omega) (by omega) (by omega)
      (by omega) hSequence (by omega), hStart]
  refine ⟨_, _, _, _, dataBytes (headNumber first (before ++ [i])) first (before ++ i :: after),
    ?_, hInterval, h.data _ ?_ ?_, by omega, ?_, ?_⟩
  · -- the index has the two entries at this place
    have hAt : before.length * 6 = (pre.flatMap encodeEntry).length := by
      rw [length_flatMap_encodeEntry, hPre, Nat.mul_comm]
    have hTwo : (encodeEntry (headEntry first before) ++
        encodeEntry (headEntry first (before ++ [i]))).length = 12 := by
      rw [List.length_append, length_encodeEntry, length_encodeEntry]
    have hIndex : (indexEntries first (before ++ i :: after)).flatMap encodeEntry =
        pre.flatMap encodeEntry ++ ((encodeEntry (headEntry first before) ++
          encodeEntry (headEntry first (before ++ [i]))) ++ post.flatMap encodeEntry) := by
      rw [hEntries, List.flatMap_append, List.flatMap_cons, List.flatMap_cons, List.append_assoc]
    have hInside : before.length * 6 + 12 ≤
        ((indexEntries first (before ++ i :: after)).flatMap encodeEntry).length := by
      rw [hIndex, List.length_append, List.length_append, ← hAt, hTwo]
      omega
    rw [slice_eq_ok h.index hInside, hIndex, hAt, List.drop_left, List.take_left' hTwo]
  · exact (le_headNumber first before).trans hSequence.1
  · rw [hSplit, headNumber_append first (before ++ [i])]
    exact hLe
  · rw [hData, List.length_append, List.length_append]
    omega
  · rw [hData, List.drop_left, Nat.add_sub_cancel_left, List.take_left]
    exact hStored

theorem Freezer.length_index {os : AncientOs} {t : AncientTable} {first : Nat}
    {items : List FrozenItem} (_ : Freezer os t first items) :
    ((indexEntries first items).flatMap encodeEntry).length = 6 * (items.length + 1) := by
  rw [length_flatMap_encodeEntry, indexEntries, List.length_map, List.length_range]

end Layout

/-! ## Opening -/

section Opening

/-- No table has a data file open. -/
def NoData (w : AncientWorld) : Prop := ∀ table, w.data table = none

theorem noData_clockFree : ClockFree NoData := fun _ _ hw => hw

/-- The tables of a directory with `count` items. -/
def ancientTables (count : Nat) : Fin 3 → AncientTable
  | 0 => ⟨"hashes", false, count⟩
  | 1 => ⟨"headers", true, count⟩
  | 2 => ⟨"receipts", true, count⟩

theorem ancientTables_eta (count : Nat) (i : Fin 3) : ancientTables count i =
    ⟨(ancientTables count i).name, (ancientTables count i).compressed, count⟩ := by
  match i with
  | 0 => rfl
  | 1 => rfl
  | 2 => rfl

variable {os : AncientOs} {inv : AncientWorld → Prop} (hCalm : ∀ n, os.fault n = none)

include hCalm

/-- **A table with an index of whole entries opens.** -/
theorem gives_openLegacyAncientTable {name : String} {compressed : Bool} {c : Bytes} {count : Nat}
    (hFree : ClockFree inv) (hFile : os.file (.index name compressed) = some c)
    (hLength : c.length = 6 * (count + 1)) (hZero : ofBE ((c.take 6).drop 2) = 0) :
    Gives inv (openLegacyAncientTable os name compressed) fun t => t =
      ⟨name, compressed, count⟩ := by
  refine (gives_openOVMInput hFree hCalm hFile).wrapped.bind fun _ _ => Gives.recover ?_
  refine (gives_statFile hFree hCalm hFile).bind ?_
  rintro _ rfl
  have hCount : indexCount c.length = .ok count := by
    rw [indexCount, require_true ⟨by omega, by omega⟩, ok_bind, hLength]
    simp
  refine (Gives.of hCount).bind ?_
  rintro _ rfl
  refine (gives_readAt hFree hCalm _ _ _).bind fun first hFirst => ?_
  rw [slice_eq_ok hFile (by omega), List.drop_zero] at hFirst
  refine (Gives.of (mapError_eq_ok.mpr hFirst)).bind ?_
  rintro _ rfl
  exact (Gives.of (require_true hZero)).bind fun _ _ => .pure rfl

/-- **A directory of three tables of one length opens.** -/
theorem gives_openLegacyAncient {count : Nat}
    (hIndex : ∀ i, ∃ c,
      os.file (.index (ancientTables count i).name (ancientTables count i).compressed) =
      some c ∧ c.length = 6 * (count + 1) ∧ ofBE ((c.take 6).drop 2) = 0) :
    Gives NoData (openLegacyAncient os) fun a => a = ⟨ancientTables count, count⟩ := by
  have hNext : ∀ (i : Fin 3) (opened : List (Fin 3 × AncientTable)),
      (∀ first ∈ opened.head?, first.2.count = count) →
      Gives NoData
        (openNext os opened i (ancientTables count i).name (ancientTables count i).compressed)
          fun t => t = ancientTables count i := by
    intro i opened hOpened
    obtain ⟨c, hFile, hLength, hZero⟩ := hIndex i
    refine (gives_openLegacyAncientTable hCalm noData_clockFree hFile hLength hZero).recover.bind ?_
    rintro _ rfl
    refine (Gives.of (require_true hOpened)).recover.bind fun _ _ => ?_
    exact .pure (ancientTables_eta count i).symm
  refine (hNext 0 [] (by simp)).bind ?_
  rintro _ rfl
  refine (hNext 1 [(0, ancientTables count 0)] (by simp [ancientTables])).bind ?_
  rintro _ rfl
  refine (hNext 2 [(0, ancientTables count 0), (1, ancientTables count 1)]
    (by simp [ancientTables])).bind ?_
  rintro _ rfl
  refine .pure ?_
  congr 1

end Opening

/-! ## Reads invert the layout -/

/-- An item of a table as the freezer stores it. -/
def frozenItem (encode : Bytes → Bytes) (compressed : Bool) (item : Bool × Bytes) : FrozenItem :=
  ⟨item.1, if compressed then encode item.2 else item.2⟩

section Inversion

variable {os : AncientOs} {a : LegacyAncient}

/-- A read of a table as a freezer writes it. -/
theorem read_frozen {encode : Bytes → Bytes} (hSnappy : ∀ b, os.decode (encode b) = .ok b)
    (hCalm : ∀ n, os.fault n = none) {first : Fin 3 → Nat} {items : Fin 3 → List (Bool × Bytes)}
    (hCount : ∀ i, (items i).length = a.count)
    (hFrozen : ∀ i, Freezer os (a.tables i) (first i)
      ((items i).map (frozenItem encode (a.tables i).compressed))) (table : Fin 3) (number : Nat) :
    Gives (Cached os a) (a.read os table number) fun r => r =
      (items table)[number]?.map Prod.snd := by
  by_cases hNumber : number < a.count
  · have hLt : number < (items table).length := by rw [hCount]; exact hNumber
    rw [List.getElem?_eq_getElem hLt]
    refine gives_read hCalm hNumber ?_
    -- the items before and after this one
    have hSplit : items table =
        (items table).take number ++ (items table)[number] :: (items table).drop (number + 1) := by
      rw [← List.drop_eq_getElem_cons hLt, List.take_append_drop]
    have hTable := hFrozen table
    rw [hSplit, List.map_append, List.map_cons] at hTable
    have hStored : storedItem os (a.tables table)
        (frozenItem encode (a.tables table).compressed (items table)[number]).blob =
          .ok (items table)[number].2 := by
      unfold storedItem frozenItem
      cases (a.tables table).compressed with
      | false => rfl
      | true => exact wrapping_eq_ok.mpr (hSnappy _)
    have hThis := hTable.itemOf hStored
    rwa [List.length_map, List.length_take, min_eq_left (le_of_lt hLt)] at hThis
  · have hNone : (items table)[number]? = none := List.getElem?_eq_none (by rw [hCount]; omega)
    rw [LegacyAncient.read, if_pos (Nat.not_lt.mp hNumber), hNone]
    exact .pure rfl

/-- A sequence of reads that each return what they should. -/
theorem gives_readAll {expected : Fin 3 × Nat → Option Bytes}
    (hRead : ∀ r : Fin 3 × Nat, Gives (Cached os a) (a.read os r.1 r.2) fun item =>
      item = expected r) (reads : List (Fin 3 × Nat)) :
    Gives (Cached os a) (a.readAll os reads) fun rs => rs = reads.map expected := by
  unfold LegacyAncient.readAll
  induction reads with
  | nil => exact .pure rfl
  | cons r reads ih =>
    rw [List.mapM_cons]
    refine (hRead r).bind fun x hx => ih.bind fun rest hRest => .pure ?_
    rw [hx, hRest]
    rfl

end Inversion

theorem itemInterval_spec {offsets : Bytes} {file start stop : Nat}
    (h : itemInterval offsets = .ok (file, start, stop)) :
    file = ofBE ((offsets.drop 6).take 2) ∧ stop = ofBE ((offsets.drop 8).take 4) ∧
      (file = ofBE (offsets.take 2) ∧ start = ofBE ((offsets.drop 2).take 4) ∨
        file = ofBE (offsets.take 2) + 1 ∧ start = 0) := by
  obtain ⟨⟨⟩, hSequence, hk⟩ := bind_eq_ok.mp h
  obtain ⟨⟨⟩, -, hEq⟩ := bind_eq_ok.mp hk
  obtain ⟨rfl, hPair⟩ := Prod.mk.inj (Except.ok.inj hEq)
  obtain ⟨rfl, rfl⟩ := Prod.mk.inj hPair
  rw [require_eq_ok] at hSequence
  refine ⟨rfl, rfl, ?_⟩
  by_cases hSame : ofBE (offsets.take 2) = ofBE ((offsets.drop 6).take 2)
  · exact .inl ⟨hSame.symm, if_neg (not_not_intro hSame)⟩
  · exact .inr ⟨by omega, if_pos hSame⟩

/-- **Reads invert the layout of the freezer.** A directory of three tables as
freezers write them opens, and every sequence of reads returns the items, and
nothing beyond them, whichever data files are open. Whatever the files hold
and whichever calls fail, a read below the count returns an error or the bytes
of an interval inside the file that two adjacent entries name. -/
theorem ancient_reads_invert_layout :
    (∀ (os : AncientOs) (encode : Bytes → Bytes), (∀ b, os.decode (encode b) = .ok b) →
      (∀ n, os.fault n = none) →
      ∀ (first : Fin 3 → Nat) (items : Fin 3 → List (Bool × Bytes)) (count : Nat),
      (∀ i, (items i).length = count) →
      (∀ i, Freezer os (ancientTables count i) (first i)
        ((items i).map (frozenItem encode (ancientTables count i).compressed))) →
      (∀ w, NoData w → ((openLegacyAncient os).exec w).1 = .ok ⟨ancientTables count, count⟩ ∧
        Cached os ⟨ancientTables count, count⟩ ((openLegacyAncient os).exec w).2) ∧
      ∀ w, Cached os ⟨ancientTables count, count⟩ w → ∀ reads : List (Fin 3 × Nat),
        ((LegacyAncient.readAll os ⟨ancientTables count, count⟩ reads).exec w).1 =
          .ok (reads.map fun r => (items r.1)[r.2]?.map Prod.snd)) ∧
    ∀ (os : AncientOs) (a : LegacyAncient) (w : AncientWorld), Cached os a w →
      ∀ (table : Fin 3) (number : Nat), Cached os a ((a.read os table number).exec w).2 ∧
      ∀ r, ((a.read os table number).exec w).1 = .ok r → (a.count ≤ number ∧ r = none) ∨
        (number < a.count ∧ ∃ item offsets file start stop content, r = some item ∧
          os.slice (.index (a.tables table).name (a.tables table).compressed) (number * 6) 12 =
            .ok offsets ∧
          file = ofBE ((offsets.drop 6).take 2) ∧ stop = ofBE ((offsets.drop 8).take 4) ∧
          (file = ofBE (offsets.take 2) ∧ start = ofBE ((offsets.drop 2).take 4) ∨
            file = ofBE (offsets.take 2) + 1 ∧ start = 0) ∧
          os.file (.data (a.tables table).name file (a.tables table).compressed) = some content ∧
          start ≤ stop ∧ stop ≤ content.length ∧
          storedItem os (a.tables table) ((content.drop start).take (stop - start)) =
            .ok item) := by
  constructor
  · intro os encode hSnappy hCalm first items count hCount hFrozen
    have hIndex : ∀ i, ∃ c, os.file (.index (ancientTables count i).name
        (ancientTables count i).compressed) = some c ∧ c.length = 6 * (count + 1) ∧
        ofBE ((c.take 6).drop 2) = 0 := by
      intro i
      refine ⟨_, (hFrozen i).index, ?_, ?_⟩
      · rw [(hFrozen i).length_index, List.length_map, hCount]
      · -- the first entry is the head of an empty freezer
        rw [indexEntries, List.range_succ_eq_map, List.map_cons, List.flatMap_cons,
          List.take_left' (length_encodeEntry _), encodeEntry, List.drop_left' (length_toBE 2 _)]
        exact ofBE_toBE (x := 0) (by decide)
    refine ⟨fun w hw => ?_, fun w hw reads => ?_⟩
    · obtain ⟨a, w', hExec, rfl, hNone⟩ := gives_openLegacyAncient hCalm hIndex w hw
      rw [hExec]
      refine ⟨rfl, fun table number size hData => ?_⟩
      rw [hNone table] at hData
      cases hData
    · obtain ⟨rs, w', hExec, rfl, -⟩ := gives_readAll (a := ⟨ancientTables count, count⟩)
        (fun r => read_frozen hSnappy hCalm hCount hFrozen r.1 r.2) reads w hw
      rw [hExec]
  · intro os a w hw table number
    have hRead : Keeps (Cached os a) (a.read os table number) _ := keeps_read table number
    refine ⟨hRead.keeps w hw, fun r hr => ?_⟩
    rcases hRead.returns w hw r hr with hBeyond | ⟨hLt, item, rfl, hItem⟩
    · exact .inl hBeyond
    · obtain ⟨offsets, file, start, stop, content, hSlice, hInterval, hFile, hLe, hStop, hStored⟩ :=
        hItem.interval
      obtain ⟨hEnd, hStopEq, hStart⟩ := itemInterval_spec hInterval
      exact .inr ⟨hLt, item, offsets, file, start, stop, content, rfl, hSlice, hEnd, hStopEq,
        hStart, hFile, hLe, hStop, hStored⟩

/-- Three items: two in the first data file, of which one is empty, and one in
the next. -/
def sampleItems : List (Bool × Bytes) := [(false, [1, 2]), (false, []), (true, [3])]

/-- A directory with these items in every table; the compression is the
identity. -/
def sampleAncientOs : AncientOs where
  file
    | .index _ compressed =>
      some ((indexEntries 5 (sampleItems.map (frozenItem id compressed))).flatMap encodeEntry)
    | .data _ number compressed =>
      some (dataBytes number 5 (sampleItems.map (frozenItem id compressed)))
  fault _ := none
  decode := .ok

theorem ancient_reads_sample :
    ((LegacyAncient.readAll sampleAncientOs ⟨ancientTables 3, 3⟩
      [(2, 2), (0, 0), (2, 1), (1, 3)]).exec
      ⟨0, fun _ => none⟩).1 = .ok [some [3], some [1, 2], some [], none] := by
  have hSizes : ∀ compressed number,
      (dataBytes number 5 (sampleItems.map (frozenItem id compressed))).length < 2 ^ 32 := by
    intro compressed number
    refine lt_of_le_of_lt (length_dataBytes_le _ _ _) ?_
    cases compressed <;> decide
  have hFrozen : ∀ i, Freezer sampleAncientOs (ancientTables 3 i) 5
      (sampleItems.map (frozenItem id (ancientTables 3 i).compressed)) := by
    intro i
    refine ⟨rfl, fun _ _ _ => rfl, ?_, hSizes _⟩
    match i with
    | 0 => decide
    | 1 => decide
    | 2 => decide
  exact (ancient_reads_invert_layout.1 sampleAncientOs id (fun _ => rfl) (fun _ => rfl) (fun _ => 5)
    (fun _ => sampleItems) 3 (fun _ => rfl) hFrozen).2 ⟨0, fun _ => none⟩ (fun _ _ _ h => nomatch h)
    [(2, 2), (0, 0), (2, 1), (1, 3)]

end L2State
