import L2State.Geth.Types
import L2State.Lib.Process

/-!
# L2State — publication of an artifact

`publishArtifact` of `publish_artifact.go` on the staging directory of
`atomicdir.go`. An operation builds its artifact in a temporary directory next
to the final path, writes the report, reads it back, confirms its inputs and
renames the directory. Whatever fails, the deferred `Abort` cleans up.

Every call to the operating system can fail, the context can be cancelled at
any time, and other processes may create paths between any two calls. Assumed
of the platform: the rename is atomic and refuses to replace, and nobody else
uses the names that `os.MkdirTemp` hands to this process.

* `FileSystem`, `fileSystem` — directory entries with their identity, and what
  each call does to them.
* `newAtomicDir`, `AtomicDir.commit`, `AtomicDir.abort`, `publishArtifact` —
  the code.
* `Interferes` — what other processes do between two calls.
* `publication_all_or_nothing` — the artifact is published whole, or the final
  path is left alone.
-/

namespace L2State

open Lib

/-! ## The file system -/

/-- A clean path, split by `filepath.Dir` and `filepath.Base`. -/
structure Path where
  dir  : String
  base : String
deriving DecidableEq

/-- `filepath.Join(dir, base)`. -/
def Path.text (p : Path) : String := p.dir ++ "/" ++ p.base

/-- `strings.HasPrefix`. -/
def hasPrefix (s pre : String) : Bool := pre.toList.isPrefixOf s.toList

/-- `prefixAndSuffix` of `os`: the random part of a temporary name stands for
the last `*` of the pattern, or behind the pattern. -/
def tempName (pattern random : String) : String :=
  if '*' ∈ pattern.toList then
    let back := pattern.toList.reverse
    String.ofList (((back.dropWhile (· != '*')).drop 1).reverse ++ random.toList ++
      (back.takeWhile (· != '*')).reverse)
  else pattern ++ random

theorem hasPrefix_tempName {pattern : String} (h : '*' ∉ pattern.toList) (random : String) :
    hasPrefix (tempName pattern random) pattern = true := by
  simp [tempName, h, hasPrefix]

/-- At most the `*` of the pattern is lost. -/
theorem length_le_tempName (pattern random : String) :
    pattern.length ≤ (tempName pattern random).length + 1 := by
  unfold tempName
  split
  · have hSplit := congrArg List.length (List.takeWhile_append_dropWhile
      (p := (· != '*')) (l := pattern.toList.reverse))
    simp only [List.length_append, List.length_reverse, String.length_toList] at hSplit
    simp only [String.length_ofList, List.length_append, List.length_reverse, List.length_drop]
    omega
  · rw [String.length_append]
    omega

/-- An entry of a directory: the identity of what it names and, for a staging
directory, the bytes of its report file. -/
structure Entry where
  inode  : Nat
  report : Option Bytes
deriving DecidableEq

/-- An error of the operating system, as far as the code looks at it. -/
inductive OsError
  | exist
  | notExist
  | other (text : String)
deriving DecidableEq

def OsError.toErr : OsError → Err
  | .exist => .outside "file exists"
  | .notExist => .outside "file does not exist"
  | .other text => .outside text

/-- The calls to the operating system, to the report codec and to the context. -/
inductive FsOp
  /-- `resolvePathWithMissing`. -/
  | resolvePath (text : String)
  | lstat (p : Path)
  | mkdirAll (dir : String)
  | evalSymlinks (dir : String)
  | mkdirTemp (dir pattern : String)
  | syncDir (text : String)
  | rename (source target : Path)
  | removeAll (p : Path)
  /-- `ctx.Err()`. -/
  | ctxErr
  /-- The write half of a report codec. -/
  | writeReport (dir : Path)
  /-- Reads the bytes of the report file. -/
  | readReport (dir : Path)
  /-- The input check of the operation. -/
  | beforeCommit
  /-- Another process creates a path. -/
  | create (p : Path)

/-- The replies. `mkdirTemp` returns the random part of the name, and
`writeReport` what is on disk afterwards. -/
def FsOp.Reply : FsOp → Type
  | .resolvePath _ => Except OsError Path
  | .evalSymlinks _ => Except OsError String
  | .mkdirTemp _ _ => Except OsError String
  | .writeReport _ => Option OsError × Option Bytes
  | .readReport _ => Except OsError Bytes
  | .create _ => Unit
  | _ => Option OsError

abbrev Fs : Interface := ⟨FsOp, FsOp.Reply⟩

/-- The directory entries. Identities are never reused. -/
structure FileSystem where
  entries  : Path → Option Entry
  /-- The next identity. -/
  next     : Nat
  /-- The names that `os.MkdirTemp` handed to this process. -/
  temps    : List Path
  canceled : Bool
  fresh    : ∀ p e, entries p = some e → e.inode < next

namespace FileSystem

/-- Replaces the entry at `p`. -/
def set (s : FileSystem) (p : Path) (e : Option Entry)
    (h : ∀ x, e = some x → x.inode < s.next) : FileSystem where
  entries := Function.update s.entries p e
  next := s.next
  temps := s.temps
  canceled := s.canceled
  fresh := by
    intro q x hx
    by_cases hq : q = p
    · subst hq
      rw [Function.update_self] at hx
      exact h x hx
    · rw [Function.update_of_ne hq] at hx
      exact s.fresh q x hx

/-- A new directory at `p`. -/
def make (s : FileSystem) (p : Path) : FileSystem :=
  set { s with next := s.next + 1, fresh := fun q x hx => Nat.lt_succ_of_lt (s.fresh q x hx) }
    p (some ⟨s.next, none⟩) (by rintro x ⟨⟩; exact Nat.lt_succ_self _)

/-- The report file of the directory at `p`, if there is one, holds `content`. -/
def setReport (s : FileSystem) (p : Path) (content : Option Bytes) : FileSystem :=
  s.set p ((s.entries p).map fun e => { e with report := content }) (by
    intro x hx
    obtain ⟨e, he, rfl⟩ := Option.map_eq_some_iff.mp hx
    exact s.fresh p e he)

/-- Removes the entry at `p`. -/
def remove (s : FileSystem) (p : Path) : FileSystem := s.set p none (by simp)

/-- The rename of the operating system: it moves the entry at `source` to
`target`, if there is one and `target` is free. -/
def move (s : FileSystem) (source target : Path) : Option FileSystem :=
  match h : s.entries source, s.entries target with
  | some e, none =>
    some ((s.remove source).set target (some e) (by rintro x ⟨⟩; exact s.fresh source e h))
  | _, _ => none

variable {p : Path}

@[simp] theorem set_entries_self (s : FileSystem) (p : Path) (e : Option Entry) (h) :
    (s.set p e h).entries p = e := Function.update_self ..

theorem set_entries_of_ne (s : FileSystem) {q : Path} (hne : q ≠ p) (e : Option Entry) (h) :
    (s.set p e h).entries q = s.entries q := Function.update_of_ne hne ..

@[simp] theorem make_entries_self (s : FileSystem) (p : Path) :
    (s.make p).entries p = some ⟨s.next, none⟩ := set_entries_self ..

theorem make_entries_of_ne (s : FileSystem) {q : Path} (hne : q ≠ p) :
    (s.make p).entries q = s.entries q := set_entries_of_ne _ hne ..

@[simp] theorem remove_entries_self (s : FileSystem) (p : Path) : (s.remove p).entries p = none :=
  set_entries_self ..

theorem remove_entries_of_ne (s : FileSystem) {q : Path} (hne : q ≠ p) :
    (s.remove p).entries q = s.entries q := set_entries_of_ne _ hne ..

theorem setReport_entries_self {s : FileSystem} {e : Entry} (hEntry : s.entries p = some e)
    (content : Option Bytes) :
    (s.setReport p content).entries p = some { e with report := content } := by
  rw [setReport, set_entries_self, hEntry]
  rfl

theorem setReport_entries_of_ne (s : FileSystem) {q : Path} (content : Option Bytes) (hne : q ≠ p) :
    (s.setReport p content).entries q = s.entries q := set_entries_of_ne _ hne ..

/-- A completed rename moved an entry to a free path. -/
theorem move_eq_some {s s' : FileSystem} {source target : Path} (hne : target ≠ source)
    (h : s.move source target = some s') :
    ∃ e, s.entries source = some e ∧ s.entries target = none ∧
      s'.entries source = none ∧ s'.entries target = some e ∧ s'.temps = s.temps := by
  unfold move at h
  split at h
  · next e hs ht =>
    obtain rfl := Option.some.inj h
    refine ⟨e, hs, ht, ?_, set_entries_self .., rfl⟩
    rw [set_entries_of_ne _ hne.symm, remove_entries_self]
  · cases h

/-- What a call does to the file system, for each reply that it can get. A
failed call changes nothing, except that a failed write leaves any bytes and a
failed removal may have removed the report. -/
def perform : (op : FsOp) → op.Reply → FileSystem → Option FileSystem
  | .lstat p, none, s => if s.entries p = none then none else some s
  | .lstat p, some .notExist, s => if s.entries p = none then some s else none
  | .mkdirTemp dir pattern, .ok random, s =>
    let p : Path := ⟨dir, tempName pattern random⟩
    if s.entries p = none then some { s.make p with temps := p :: s.temps } else none
  | .rename source target, none, s => s.move source target
  | .removeAll p, none, s => some (s.remove p)
  | .removeAll p, some _, s => some (s.setReport p none)
  | .ctxErr, none, s => if s.canceled then none else some s
  | .ctxErr, some _, s => some { s with canceled := true }
  | .writeReport dir, (_, content), s => some (s.setReport dir content)
  | .readReport dir, .ok b, s =>
    if (s.entries dir).bind Entry.report = some b then some s else none
  | .create p, _, s => if s.entries p = none ∧ p ∉ s.temps then some (s.make p) else some s
  | .lstat _, some _, s => some s
  | .mkdirTemp _ _, .error _, s => some s
  | .rename _ _, some _, s => some s
  | .readReport _, .error _, s => some s
  | .resolvePath _, _, s => some s
  | .mkdirAll _, _, s => some s
  | .evalSymlinks _, _, s => some s
  | .syncDir _, _, s => some s
  | .beforeCommit, _, s => some s

end FileSystem

/-- The file system as a shared object. -/
def fileSystem : Object Fs := ⟨FileSystem, FileSystem.perform⟩

/-- One call. -/
def fsCall (op : FsOp) : Proc Fs op.Reply := Proc.perform (I := Fs) op

/-! ## The staging directory -/

/-- `atomicDir`: the temporary directory lies next to the final path. Its name
starts with `tempPrefix`, unless the random part took the place of a `*` of the
final path. -/
structure AtomicDir where
  final      : Path
  parent     : String
  temp       : Path
  tempPrefix : String
  committed  : Bool
  temp_dir   : temp.dir = parent
  temp_base  : '*' ∉ final.base.toList → hasPrefix temp.base tempPrefix = true
  final_ne   : final ≠ temp

/-- The error of a publication. -/
inductive PublishError
  /-- `PublicationDurabilityError`. -/
  | durability (path : Path) (cause : Err)
  | failed (e : Err)
deriving DecidableEq

/-- `fmt.Errorf(format, err)` for an error of the operating system. -/
def osFailed (format : String) (e : OsError) : PublishError := .failed (.wrap format [] e.toErr)

/-- `errors.Join` with the outcome of a deferred removal; of two errors the
first is kept. -/
def joinRemoval (format : String) (r : Except PublishError Unit) (removed : Option OsError) :
    Except PublishError Unit :=
  match r, removed with
  | r, none => r
  | .ok (), some e => .error (osFailed format e)
  | .error err, some _ => .error err

/-- `os.Lstat` must report that the path does not exist. -/
def requireAbsent (p : Path) (exists_ inspect : String) : Fallible Fs PublishError Unit :=
  ExceptT.mk (fsCall (.lstat p) >>= fun (r : Option OsError) => pure (match r with
    | none => .error (.failed (.msg exists_ [.text p.text]))
    | some .notExist => .ok ()
    | some e => .error (osFailed inspect e)))

/-- A call that returns a value or an error of the operating system. -/
def osValue {α : Type} (format : String) (p : Proc Fs (Except OsError α)) :
    Fallible Fs PublishError α :=
  ExceptT.mk (p >>= fun r => pure (match r with
    | .ok a => .ok a
    | .error e => .error (osFailed format e)))

variable {own : List (Event Fs)} {s s' : FileSystem} {op : FsOp}

theorem returns_osValue {α : Type} {format : String} {p : Proc Fs (Except OsError α)} {a : α} :
    Returns (osValue format p) own a ↔ p.Behaves own (.ok a) := by
  refine Proc.behaves_bind.trans ⟨?_, fun h => ⟨.ok a, own, [], h, ⟨rfl, rfl⟩, by simp⟩⟩
  rintro ⟨r, t, t', hp, ⟨rfl, hr⟩, rfl⟩
  rw [List.append_nil]
  cases r with
  | error e => cases hr
  | ok b =>
    cases hr
    exact hp

/-- `os.MkdirTemp` for a probe. -/
def mkdirTemp (format dir pattern : String) : Fallible Fs PublishError Path :=
  osValue format (fsCall (.mkdirTemp dir pattern)) >>= fun random =>
    pure ⟨dir, tempName pattern random⟩

/-- `verifyRenameNoReplace`: a rename onto an existing directory must fail
with `os.ErrExist`. Both probes are removed on every path. -/
def verifyRenameNoReplace (parent : String) : Fallible Fs PublishError Unit := do
  let source ← mkdirTemp "create no-replace source probe: %w" parent ".l2state-rename-source-"
  ExceptT.mk do
    let outcome ← (show Fallible Fs PublishError Unit from do
      let destination ← mkdirTemp "create no-replace destination probe: %w" parent
        ".l2state-rename-destination-"
      ExceptT.mk do
        let renamed ← fsCall (.rename source destination)
        let outcome : Except PublishError Unit := match (renamed : Option OsError) with
          | none => .error (.failed
              (.msg "platform rename primitive replaced an existing directory" []))
          | some .exist => .ok ()
          | some e =>
            .error (osFailed "atomic no-replace directory publication is unavailable: %w" e)
        let removed ← fsCall (.removeAll destination)
        pure (joinRemoval "remove no-replace destination probe: %w" outcome removed)).run
    let removed ← fsCall (.removeAll source)
    pure (joinRemoval "remove no-replace source probe: %w" outcome removed)

/-- The pattern of the temporary name. -/
def partialPattern (base : String) : String := "." ++ base ++ ".partial-"

theorem star_not_mem_partialPattern {base : String} (h : '*' ∉ base.toList) :
    '*' ∉ (partialPattern base).toList := by
  simp only [partialPattern, String.toList_append, List.mem_append, not_or]
  exact ⟨⟨by decide, h⟩, by decide⟩

theorem base_ne_temp (base random : String) : base ≠ tempName (partialPattern base) random := by
  intro h
  have hLength := length_le_tempName (partialPattern base) random
  rw [← h] at hLength
  simp only [partialPattern, String.length_append] at hLength
  have hEnd : ".partial-".length = 9 := rfl
  omega

/-- The random part takes the place of a `*` of the output path, and the name
does not start with its prefix. -/
example : tempName (partialPattern "a*b") "7" = ".a7b.partial-" ∧
    hasPrefix (tempName (partialPattern "a*b") "7") (partialPattern "a*b") = false := by
  decide +kernel

/-- The part of `newAtomicDir` before `os.MkdirTemp`: the resolved final path,
once it is known to be free and the file system to support the publication. -/
def resolveOutput (final : String) : Fallible Fs PublishError Path := do
  if final = "" then throw (.failed (.msg "output path is empty" []))
  let abs ← osValue "resolve output path: %w" (fsCall (.resolvePath final))
  requireAbsent abs "output path already exists: %s" "inspect output path: %w"
  attempt (osFailed "create output parent: %w") (fsCall (.mkdirAll abs.dir))
  let parent ← osValue "resolve output parent: %w" (fsCall (.evalSymlinks abs.dir))
  let abs : Path := ⟨parent, abs.base⟩
  requireAbsent abs "output path already exists: %s" "inspect resolved output path: %w"
  attempt (osFailed "preflight output-parent directory sync: %w") (fsCall (.syncDir parent))
  verifyRenameNoReplace parent
  return abs

/-- `newAtomicDir`. -/
def newAtomicDir (final : String) : Fallible Fs PublishError AtomicDir := do
  let abs ← resolveOutput final
  let random ← osValue "create temporary output: %w"
    (fsCall (.mkdirTemp abs.dir (partialPattern abs.base)))
  return {
    final := abs
    parent := abs.dir
    temp := ⟨abs.dir, tempName (partialPattern abs.base) random⟩
    tempPrefix := partialPattern abs.base
    committed := false
    temp_dir := rfl
    temp_base := fun h => hasPrefix_tempName (star_not_mem_partialPattern h) random
    final_ne := fun h => base_ne_temp _ _ (congrArg Path.base h) }

/-- The part of `Commit` up to the rename. -/
def AtomicDir.place (d : AtomicDir) : Fallible Fs PublishError Unit := do
  if d.committed then throw (.failed (.msg "output is already committed" []))
  requireAbsent d.final "output path appeared during operation: %s"
    "inspect output before publish: %w"
  attempt (fun e => .failed (OsError.toErr e)) (fsCall (.syncDir d.temp.text))
  attempt (osFailed "publish output: %w") (fsCall (.rename d.temp d.final))

/-- `Commit`. Once the directory is renamed it counts as committed, also if
the parent cannot be synced. -/
def AtomicDir.commit (d : AtomicDir) : Proc Fs (Except PublishError Unit × AtomicDir) := do
  match ← d.place.run with
  | .error e => return (.error e, d)
  | .ok () =>
    let d := { d with committed := true }
    match (← fsCall (.syncDir d.parent) : Option OsError) with
    | none => return (.ok (), d)
    | some e =>
      return (.error (.durability d.final
        (.wrap "sync output parent after publish: %w" [] e.toErr)), d)

/-- The error of `Abort` for a name without its prefix. -/
def AtomicDir.refusal (d : AtomicDir) : PublishError :=
  .failed (.msg "refusing to remove unexpected temporary path %s" [.text d.temp.text])

/-- `Abort`: removes the temporary directory of unpublished work. -/
def AtomicDir.abort (d : AtomicDir) : Proc Fs (Except PublishError Unit) :=
  if d.committed then pure (.ok ())
  else if d.temp.dir ≠ d.parent ∨ hasPrefix d.temp.base d.tempPrefix = false then
    pure (.error d.refusal)
  else fsCall (.removeAll d.temp) >>= fun (r : Option OsError) => pure (match r with
    | none => .ok ()
    | some e => .error (.failed e.toErr))

/-! ## publishArtifact -/

/-- `artifactReportCodec`: the decoder and the equality of a report. -/
structure ReportCodec (T : Type) where
  label : String
  load  : Bytes → Except Err T
  equal : T → T → Bool

section Publish

variable {T : Type} (codec : ReportCodec T) (report : T) (hasCheck : Bool)

/-- `ctx.Err()` must be nil. -/
def ctxAlive : Fallible Fs PublishError Unit :=
  attempt (fun e => .failed (OsError.toErr e)) (fsCall .ctxErr)

/-- `codec.write`. -/
def writeReport (d : AtomicDir) : Fallible Fs PublishError Unit :=
  attempt (fun e => .failed (OsError.toErr e))
    (fsCall (.writeReport d.temp) >>= fun (r : Option OsError × Option Bytes) => pure r.1)

/-- `codec.load` and `codec.equal` on what was read. -/
def checkStored (read : Except OsError Bytes) : Except PublishError Unit :=
  match read with
  | .error e => .error (.failed (.wrap "re-open generated %s: %w" [.text codec.label] e.toErr))
  | .ok b =>
    match codec.load b with
    | .error e => .error (.failed (.wrap "re-open generated %s: %w" [.text codec.label] e))
    | .ok stored =>
      if codec.equal stored report = true then .ok ()
      else .error (.failed
        (.msg "re-opened %s does not match generated report" [.text codec.label]))

/-- The generated report is read back and compared. -/
def reopenReport (d : AtomicDir) : Fallible Fs PublishError Unit :=
  ExceptT.mk (fsCall (.readReport d.temp) >>= fun r => pure (checkStored codec report r))

/-- `beforeCommit`, when the operation has one. -/
def confirmInputs : Fallible Fs PublishError Unit :=
  if hasCheck then attempt (fun e => .failed (OsError.toErr e)) (fsCall .beforeCommit)
  else pure ()

/-- The part of `publishArtifact` before `Commit`. -/
def prepareArtifact (d : AtomicDir) : Fallible Fs PublishError Unit := do
  ctxAlive
  writeReport d
  reopenReport codec report d
  ctxAlive
  confirmInputs hasCheck
  ctxAlive

/-- `publishArtifact`. -/
def publishArtifact (d : AtomicDir) : Proc Fs (Except PublishError Unit × AtomicDir) := do
  match ← (prepareArtifact codec report hasCheck d).run with
  | .error e => return (.error e, d)
  | .ok () => d.commit

/-- `publishArtifact` followed by the deferred `Abort`. -/
def publishThenAbort (d : AtomicDir) :
    Proc Fs (Except PublishError Unit × Except PublishError Unit) := do
  let r ← publishArtifact codec report hasCheck d
  let aborted ← r.2.abort
  return (r.1, aborted)

end Publish

/-! ## Other processes -/

/-- What other processes do between two calls: they create paths, but none
that `os.MkdirTemp` handed to this process. -/
structure Interferes (s s' : FileSystem) : Prop where
  kept  : ∀ p e, s.entries p = some e → s'.entries p = some e
  made  : ∀ p e, s.entries p = none → s'.entries p = some e → p ∉ s.temps ∧ s.next ≤ e.inode
  next  : s.next ≤ s'.next
  temps : s'.temps = s.temps

theorem Interferes.refl (s : FileSystem) : Interferes s s where
  kept _ _ h := h
  made _ _ hNone hSome := by rw [hNone] at hSome; cases hSome
  next := le_refl _
  temps := rfl

theorem Interferes.trans (a b c : FileSystem) (hab : Interferes a b) (hbc : Interferes b c) :
    Interferes a c where
  kept p e h := hbc.kept p e (hab.kept p e h)
  made p e hNone hSome := by
    cases hb : b.entries p with
    | none =>
      obtain ⟨hTemp, hInode⟩ := hbc.made p e hb hSome
      exact ⟨by rwa [hab.temps] at hTemp, hab.next.trans hInode⟩
    | some f =>
      -- created in the first half and kept in the second
      obtain rfl : f = e := Option.some.inj ((hbc.kept p f hb).symm.trans hSome)
      exact hab.made p f hNone hb
  next := hab.next.trans hbc.next
  temps := hbc.temps.trans hab.temps

/-- Other processes create these paths, at any time. -/
def intruders : List Path → Proc Fs Unit
  | [] => pure ()
  | p :: paths => fsCall (.create p) >>= fun _ => intruders paths

/-- An event of another process. -/
def IsCreate (e : Event Fs) : Prop := ∃ p, e = ⟨.create p, ()⟩

theorem intruders_only (paths : List Path) : (intruders paths).Only IsCreate := by
  induction paths with
  | nil => exact Proc.Only.pure ()
  | cons p paths ih => exact Proc.Only.bind (Proc.Only.perform fun r => ⟨p, rfl⟩) fun _ => ih

/-- A creation only adds an entry. -/
theorem IsCreate.interferes {e : Event Fs} (he : IsCreate e)
    (h : fileSystem.perform e.op e.reply s = some s') : Interferes s s' := by
  obtain ⟨p, rfl⟩ := he
  change (if s.entries p = none ∧ p ∉ s.temps then some (s.make p) else some s) = some s' at h
  split at h
  · -- the path is free and not a temporary name of this process
    next hFree =>
    obtain rfl := Option.some.inj h
    refine ⟨fun q f hq => ?_, fun q f hNone hSome => ?_, Nat.le_succ _, rfl⟩
    · have hne : q ≠ p := by
        rintro rfl
        rw [hFree.1] at hq
        cases hq
      rw [FileSystem.make_entries_of_ne _ hne]
      exact hq
    · by_cases hqp : q = p
      · subst hqp
        rw [FileSystem.make_entries_self] at hSome
        obtain rfl := Option.some.inj hSome
        exact ⟨hFree.2, le_refl _⟩
      · rw [FileSystem.make_entries_of_ne _ hqp, hNone] at hSome
        cases hSome
  · obtain rfl := Option.some.inj h
    exact .refl s

/-! ## Along a publication -/

/-- The staging directory with the identity `i` and the report `rep` is still
at its temporary path, and everything that was there in `s₁` still is. -/
structure Unplaced (d : AtomicDir) (i : Nat) (s₁ : FileSystem) (rep : Option Bytes)
    (s : FileSystem) : Prop where
  entry  : s.entries d.temp = some ⟨i, rep⟩
  own    : d.temp ∈ s.temps
  others : ∀ p e, p ≠ d.temp → s.entries p = some e → e.inode ≠ i
  kept   : ∀ p e, p ≠ d.temp → s₁.entries p = some e → s.entries p = some e

namespace Unplaced

variable {d : AtomicDir} {i : Nat} {s₁ s s' : FileSystem} {rep : Option Bytes}

theorem env (h : Unplaced d i s₁ rep s) (hEnv : Interferes s s') : Unplaced d i s₁ rep s' where
  entry := hEnv.kept _ _ h.entry
  own := hEnv.temps ▸ h.own
  others p e hp he := by
    cases hs : s.entries p with
    | none =>
      -- created meanwhile, with a later identity
      have hLt : i < s.next := s.fresh _ _ h.entry
      have hLe := (hEnv.made p e hs he).2
      omega
    | some f =>
      obtain rfl : f = e := Option.some.inj ((hEnv.kept p f hs).symm.trans he)
      exact h.others p f hp hs
  kept p e hp he := hEnv.kept p e (h.kept p e hp he)

/-- A call that leaves the entries and the temporary names alone. -/
theorem same (h : Unplaced d i s₁ rep s) (hEntries : s'.entries = s.entries)
    (hTemps : s'.temps = s.temps) : Unplaced d i s₁ rep s' := by
  obtain ⟨hEntry, hOwn, hOthers, hKept⟩ := h
  refine ⟨?_, ?_, ?_, ?_⟩ <;> simp only [hEntries, hTemps] <;> assumption

theorem rebase (h : Unplaced d i s₁ rep s) : Unplaced d i s rep s :=
  ⟨h.entry, h.own, h.others, fun _ _ _ he => he⟩

theorem setReport (h : Unplaced d i s₁ rep s) (content : Option Bytes) :
    Unplaced d i s₁ content (s.setReport d.temp content) where
  entry := by rw [FileSystem.setReport_entries_self h.entry]
  own := h.own
  others p e hp he := by
    rw [FileSystem.setReport_entries_of_ne _ _ hp] at he
    exact h.others p e hp he
  kept p e hp he := by
    rw [FileSystem.setReport_entries_of_ne _ _ hp]
    exact h.kept p e hp he

end Unplaced

/-- The events of a process between which other processes act. -/
abbrev Runs : List (Event Fs) → FileSystem → FileSystem → Prop := fileSystem.RunWith Interferes

variable {t : List (Event Fs)}

theorem Runs.append_inv {t' : List (Event Fs)} (h : Runs (t ++ t') s s') :
    ∃ m, Runs t s m ∧ Runs t' m s' := Object.RunWith.append_inv Interferes.refl h

/-- One call, with what happens before and after it. -/
theorem runs_call {r : op.Reply} (h : (fsCall op).Behaves own r) (hRun : Runs own s s') :
    own = [⟨op, r⟩] ∧ ∃ m m', Interferes s m ∧ FileSystem.perform op r m = some m' ∧
      Interferes m' s' := by
  obtain rfl := Proc.behaves_perform.mp h
  obtain ⟨m, m', hBefore, hStep, hRest⟩ := hRun.cons_inv
  exact ⟨rfl, m, m', hBefore, hStep, hRest.nil_inv⟩

/-- An event that is neither a completed rename nor a removal. -/
def Quiet (e : Event Fs) : Prop :=
  (∀ a b, e ≠ ⟨.rename a b, none⟩) ∧ ∀ p r, e ≠ ⟨.removeAll p, r⟩

/-- Calls that look but do not touch. -/
inductive Looks : FsOp → Prop
  | lstat (p : Path) : Looks (.lstat p)
  | syncDir (text : String) : Looks (.syncDir text)
  | ctxErr : Looks .ctxErr
  | readReport (p : Path) : Looks (.readReport p)
  | beforeCommit : Looks .beforeCommit

theorem Looks.quiet (h : Looks op) (r : op.Reply) : Quiet ⟨op, r⟩ := by
  cases h <;> exact ⟨fun _ _ he => (by cases he), fun _ _ he => (by cases he)⟩

theorem Looks.same (h : Looks op) {r : op.Reply} (hStep : FileSystem.perform op r s = some s') :
    s'.entries = s.entries ∧ s'.temps = s.temps := by
  cases h with
  | lstat p =>
    rcases r with _ | _ | _ | _ <;> simp only [FileSystem.perform] at hStep <;> grind
  | ctxErr | readReport =>
    rcases r with _ | _ <;> simp only [FileSystem.perform] at hStep <;> grind
  | syncDir | beforeCommit =>
    obtain rfl := Option.some.inj hStep
    exact ⟨rfl, rfl⟩

/-- Fails with the durability error. -/
def IsDurability {α : Type} (x : Except PublishError α) : Prop :=
  ∃ path cause, x = .error (.durability path cause)

/-- The call reported a failure. -/
def Failed : Event Fs → Prop
  | ⟨.lstat _, r⟩ => r ≠ some OsError.notExist
  | ⟨.syncDir _, r⟩ => r ≠ none
  | ⟨.rename _ _, r⟩ => r ≠ none
  | ⟨.removeAll _, r⟩ => r ≠ none
  | ⟨.ctxErr, r⟩ => r ≠ none
  | ⟨.writeReport _, r⟩ => Prod.fst r ≠ none
  | ⟨.readReport _, r⟩ => ∃ e, r = Except.error e
  | ⟨.beforeCommit, r⟩ => r ≠ none
  | _ => False

/-- A verdict on a reply: success if the call did not fail, and never the
durability error. -/
def SoundVerdict (op : FsOp) (verdict : op.Reply → Except PublishError Unit) : Prop :=
  ∀ r, (verdict r = .ok () ∧ ¬ Failed ⟨op, r⟩) ∨ ∃ e, verdict r = .error (.failed e)

/-- What a step before the rename has done: it renamed and removed nothing, it
did not fail with the durability error, and it succeeded only if every call did. -/
structure Steady (own : List (Event Fs)) (x : Except PublishError Unit) : Prop where
  quiet  : ∀ e ∈ own, Quiet e
  plain  : ¬ IsDurability x
  strict : x = .ok () → ∀ e ∈ own, ¬ Failed e

theorem Steady.append {own : List (Event Fs)} {x : Except PublishError Unit}
    (ht : Steady t (.ok ())) (h : Steady own x) : Steady (t ++ own) x where
  quiet := List.forall_mem_append.mpr ⟨ht.quiet, h.quiet⟩
  plain := h.plain
  strict hx := List.forall_mem_append.mpr ⟨ht.strict rfl, h.strict hx⟩

theorem not_isDurability_failed {α : Type} (e : Err) :
    ¬ IsDurability (Except.error (.failed e) : Except PublishError α) := by
  rintro ⟨path, cause, h⟩
  cases h

theorem steady_nil_failed (e : Err) : Steady [] (.error (.failed e)) :=
  ⟨by simp, not_isDurability_failed e, by simp⟩

/-- A single call with a sound verdict. -/
theorem SoundVerdict.steady {verdict : op.Reply → Except PublishError Unit}
    (hVerdict : SoundVerdict op verdict) {r : op.Reply} (hQuiet : Quiet ⟨op, r⟩) :
    Steady [⟨op, r⟩] (verdict r) := by
  refine ⟨List.forall_mem_singleton.mpr hQuiet, ?_, ?_⟩
  · rintro ⟨path, cause, h⟩
    rcases hVerdict r with ⟨hOk, -⟩ | ⟨e, hErr⟩
    · cases hOk.symm.trans h
    · cases hErr.symm.trans h
  · rcases hVerdict r with ⟨-, hDone⟩ | ⟨e, hErr⟩
    · exact fun _ => List.forall_mem_singleton.mpr hDone
    · exact fun h => by cases hErr.symm.trans h

section Calls

variable {d : AtomicDir} {i : Nat} {s₁ s s' : FileSystem} {rep : Option Bytes}
  {own : List (Event Fs)} {x : Except PublishError Unit} {p : Fallible Fs PublishError Unit}
  {f : Unit → Fallible Fs PublishError Unit}
  {Q R : Option Bytes → Option Bytes → List (Event Fs) → Prop}

/-- A process that keeps the staging directory in place. `Q` relates the report
before and after a success, and its events. -/
def Calm (d : AtomicDir) (p : Fallible Fs PublishError Unit)
    (Q : Option Bytes → Option Bytes → List (Event Fs) → Prop) : Prop :=
  ∀ ⦃own x s s' i s₁ rep⦄, p.run.Behaves own x → Runs own s s' → Unplaced d i s₁ rep s →
    Steady own x ∧ ∃ rep', Unplaced d i s₁ rep' s' ∧ (x = .ok () → Q rep rep' own)

theorem Calm.mono (h : Calm d p Q) (hQ : ∀ a b own, Q a b own → R a b own) : Calm d p R := by
  intro own x s s' i s₁ rep hp hRun hs
  obtain ⟨hSteady, rep', hs', hPost⟩ := h hp hRun hs
  exact ⟨hSteady, rep', hs', fun hx => hQ _ _ _ (hPost hx)⟩

/-- The process fails and what follows it does not run, or it succeeds first. -/
theorem Calm.split (hp : Calm d p Q) (h : (p >>= f).run.Behaves own x) (hRun : Runs own s s')
    (hs : Unplaced d i s₁ rep s) :
    (x ≠ .ok () ∧ Steady own x ∧ ∃ rep', Unplaced d i s₁ rep' s') ∨
    ∃ t u m rep', own = t ++ u ∧ (f ()).run.Behaves u x ∧ Runs u m s' ∧ Steady t (.ok ()) ∧
      Unplaced d i s₁ rep' m ∧ Q rep rep' t := by
  rcases run_bind_behaves.mp h with ⟨e, h₁, rfl⟩ | ⟨⟨⟩, t, u, h₁, h₂, rfl⟩
  · obtain ⟨hSteady, rep', hs', -⟩ := hp h₁ hRun hs
    exact .inl ⟨by simp, hSteady, rep', hs'⟩
  · obtain ⟨m, hRun₁, hRun₂⟩ := hRun.append_inv
    obtain ⟨hSteady, rep', hm, hPost⟩ := hp h₁ hRun₁ hs
    exact .inr ⟨t, u, m, rep', rfl, h₂, hRun₂, hSteady, hm, hPost rfl⟩

theorem Calm.bind (hp : Calm d p Q) (hf : Calm d (f ()) R) :
    Calm d (p >>= f) fun a c own => ∃ b t u, own = t ++ u ∧ Q a b t ∧ R b c u := by
  intro own x s s' i s₁ rep h hRun hs
  rcases hp.split h hRun hs with ⟨hNe, hSteady, rep', hs'⟩ |
    ⟨t, u, m, rep', rfl, h₂, hRun₂, hSteady, hm, hQ⟩
  · exact ⟨hSteady, rep', hs', fun hx => absurd hx hNe⟩
  · obtain ⟨hSteady₂, rep₂, hs', hPost⟩ := hf h₂ hRun₂ hm
    exact ⟨hSteady.append hSteady₂, rep₂, hs', fun hx => ⟨rep', t, u, rfl, hQ, hPost hx⟩⟩

/-- A call that only looks, and a sound verdict on its reply. -/
theorem Looks.calm (hOp : Looks op) {verdict : op.Reply → Except PublishError Unit}
    (hVerdict : SoundVerdict op verdict) :
    Calm d (ExceptT.mk (fsCall op >>= fun r => pure (verdict r))) fun a b own =>
      b = a ∧ ∃ r, own = [⟨op, r⟩] ∧ verdict r = .ok () ∧
        ∃ i s₁ m m', Unplaced d i s₁ a m ∧ FileSystem.perform op r m = some m' := by
  intro own x s s' i s₁ rep h hRun hs
  obtain ⟨r, t, t', hCall, ⟨rfl, rfl⟩, rfl⟩ := Proc.behaves_bind.mp h
  rw [List.append_nil] at hRun ⊢
  obtain ⟨rfl, m, m', hBefore, hStep, hAfter⟩ := runs_call hCall hRun
  obtain ⟨hEntries, hTemps⟩ := hOp.same hStep
  have hm := hs.env hBefore
  exact ⟨hVerdict.steady (hOp.quiet r), rep, (hm.same hEntries hTemps).env hAfter,
    fun hx => ⟨rfl, r, rfl, hx, i, s₁, m, m', hm, hStep⟩⟩

theorem ctxAlive_calm : Calm d ctxAlive fun a b _ => b = a := by
  refine (Looks.ctxErr.calm fun r => ?_).mono fun _ _ _ h => h.1
  rcases r with _ | e
  · exact .inl ⟨rfl, fun h => h rfl⟩
  · exact .inr ⟨_, rfl⟩

theorem syncDir_calm (text : String) :
    Calm d (attempt (fun e => .failed (OsError.toErr e)) (fsCall (.syncDir text)))
      fun a b _ => b = a := by
  refine ((Looks.syncDir text).calm fun r => ?_).mono fun _ _ _ h => h.1
  rcases r with _ | e
  · exact .inl ⟨rfl, fun h => h rfl⟩
  · exact .inr ⟨_, rfl⟩

theorem requireAbsent_calm (q : Path) (exists_ inspect : String) :
    Calm d (requireAbsent q exists_ inspect) fun a b _ => b = a := by
  refine ((Looks.lstat q).calm fun r => ?_).mono fun _ _ _ h => h.1
  rcases r with _ | _ | _ | _
  · exact .inr ⟨_, rfl⟩
  · exact .inr ⟨_, rfl⟩
  · exact .inl ⟨rfl, fun h => h rfl⟩
  · exact .inr ⟨_, rfl⟩

/-- The inputs are confirmed if the operation has a check for them. -/
theorem confirmInputs_calm (hasCheck : Bool) :
    Calm d (confirmInputs hasCheck) fun a b own =>
      b = a ∧ (hasCheck = true → (⟨.beforeCommit, none⟩ : Event Fs) ∈ own) := by
  cases hasCheck with
  | false =>
    rintro own x s s' i s₁ rep ⟨rfl, rfl⟩ hRun hs
    exact ⟨⟨by simp, by rintro ⟨_, _, ⟨⟩⟩, by simp⟩, rep, hs.env hRun.nil_inv,
      fun _ => ⟨rfl, nofun⟩⟩
  | true =>
    refine (Looks.beforeCommit.calm fun r => ?_).mono ?_
    · rcases r with _ | e
      · exact .inl ⟨rfl, fun h => h rfl⟩
      · exact .inr ⟨_, rfl⟩
    · rintro a b own ⟨rfl, r, rfl, hOk, -⟩
      rcases r with _ | e
      · exact ⟨rfl, fun _ => List.mem_singleton_self _⟩
      · cases hOk

end Calls

/-! ## publishArtifact, step by step -/

section PublishRun

variable {T : Type} {codec : ReportCodec T} {report : T} {hasCheck : Bool} {d : AtomicDir}
  {i : Nat} {s₁ s s' : FileSystem} {rep : Option Bytes} {own : List (Event Fs)}

/-- The report on disk decodes to the generated one, and the input check
passed if there is one. -/
def Confirmed (codec : ReportCodec T) (report : T) (hasCheck : Bool) (rep : Option Bytes)
    (own : List (Event Fs)) : Prop :=
  (∃ b stored, rep = some b ∧ codec.load b = .ok stored ∧ codec.equal stored report = true) ∧
  (hasCheck = true → (⟨.beforeCommit, none⟩ : Event Fs) ∈ own)

variable {x : Except PublishError Unit}

/-- Writing the report leaves the staging directory in place. -/
theorem writeReport_calm : Calm d (writeReport d) fun _ _ _ => True := by
  intro own x s s' i s₁ rep h hRun hs
  obtain ⟨v, t, t', hp, ⟨rfl, rfl⟩, rfl⟩ := Proc.behaves_bind.mp h
  obtain ⟨r, u, u', hCall, ⟨rfl, rfl⟩, rfl⟩ := Proc.behaves_bind.mp hp
  rw [List.append_nil, List.append_nil] at hRun ⊢
  obtain ⟨rfl, m, m', hBefore, hStep, hAfter⟩ := runs_call hCall hRun
  obtain rfl := Option.some.inj hStep
  refine ⟨?_, r.2, ((hs.env hBefore).setReport r.2).env hAfter, fun _ => trivial⟩
  have hQuiet : Quiet ⟨.writeReport d.temp, r⟩ := ⟨nofun, nofun⟩
  rcases r with ⟨_ | e, content⟩
  · exact ⟨List.forall_mem_singleton.mpr hQuiet, by rintro ⟨_, _, ⟨⟩⟩,
      fun _ => List.forall_mem_singleton.mpr fun h => h rfl⟩
  · exact ⟨List.forall_mem_singleton.mpr hQuiet, not_isDurability_failed _, nofun⟩

/-- A verdict of success means that the report decodes to the generated one. -/
theorem checkStored_cases (codec : ReportCodec T) (report : T) (read : Except OsError Bytes) :
    (checkStored codec report read = .ok () ∧ ∃ b stored, read = .ok b ∧
      codec.load b = .ok stored ∧ codec.equal stored report = true) ∨
    ∃ e, checkStored codec report read = .error (.failed e) := by
  unfold checkStored
  split
  · exact .inr ⟨_, rfl⟩
  · next b =>
    split
    · exact .inr ⟨_, rfl⟩
    · next stored hLoad =>
      split
      · next hEqual => exact .inl ⟨rfl, b, stored, rfl, hLoad, hEqual⟩
      · exact .inr ⟨_, rfl⟩

/-- A report that was read back successfully is the one on disk. -/
theorem reopenReport_calm : Calm d (reopenReport codec report d) fun a b _ =>
    b = a ∧ ∃ c stored, a = some c ∧ codec.load c = .ok stored ∧
      codec.equal stored report = true := by
  refine ((Looks.readReport d.temp).calm fun r => ?_).mono ?_
  · rcases checkStored_cases codec report r with ⟨hOk, b, -, rfl, -⟩ | hErr
    · exact .inl ⟨hOk, fun ⟨e, hEq⟩ => by cases hEq⟩
    · exact .inr hErr
  · rintro a b own ⟨rfl, r, -, hOk, i, s₁, m, m', hm, hStep⟩
    rcases checkStored_cases codec report r with ⟨-, c, stored, rfl, hLoad⟩ | ⟨e, hErr⟩
    · simp only [FileSystem.perform, hm.entry, Option.bind_some] at hStep
      split at hStep
      · next hRep => exact ⟨rfl, c, stored, hRep, hLoad⟩
      · cases hStep
    · cases hErr.symm.trans hOk

/-- **Before the commit** nothing is renamed or removed. If every step
succeeds, the report on disk is confirmed. -/
theorem prepareArtifact_calm : Calm d (prepareArtifact codec report hasCheck d) fun _ b own =>
    Confirmed codec report hasCheck b own := by
  refine (ctxAlive_calm.bind (writeReport_calm.bind (reopenReport_calm.bind
    (ctxAlive_calm.bind ((confirmInputs_calm hasCheck).bind ctxAlive_calm))))).mono ?_
  -- after the report was read back nothing changes it
  rintro a b own ⟨a', t₁, u₁, rfl, -, c, t₂, u₂, rfl, -, c', t₃, u₃, rfl, ⟨rfl, hStored⟩, c₄, t₄,
    u₄, rfl, rfl, c₅, t₅, u₅, rfl, ⟨rfl, hCheck⟩, rfl⟩
  refine ⟨hStored, fun h => ?_⟩
  simp [hCheck h]

/-- The staging directory is at the final path. -/
structure Placed (d : AtomicDir) (i : Nat) (rep : Option Bytes) (s : FileSystem) : Prop where
  entry : s.entries d.final = some ⟨i, rep⟩
  gone  : s.entries d.temp = none
  own   : d.temp ∈ s.temps

theorem Placed.env (h : Placed d i rep s) (hEnv : Interferes s s') : Placed d i rep s' where
  entry := hEnv.kept _ _ h.entry
  gone := by
    cases hTemp : s'.entries d.temp with
    | none => rfl
    | some e => exact absurd h.own (hEnv.made _ _ h.gone hTemp).1
  own := hEnv.temps ▸ h.own

/-- `Commit` **up to the rename**: the directory is at the final path, or it
is still in place and nothing was renamed. -/
theorem place_run (h : d.place.run.Behaves own x) (hRun : Runs own s s')
    (hs : Unplaced d i s₁ rep s) :
    (x = .ok () ∧ (∀ e ∈ own, ¬ Failed e) ∧ Placed d i rep s') ∨
    (x ≠ .ok () ∧ Steady own x ∧ ∃ rep', Unplaced d i s₁ rep' s') := by
  unfold AtomicDir.place at h
  split at h
  · obtain ⟨rfl, rfl⟩ := h
    exact .inr ⟨by simp, steady_nil_failed _, rep, hs.env hRun.nil_inv⟩
  -- the final path must be free, and the staging directory is synced
  rcases (requireAbsent_calm _ _ _).split h hRun hs with hFail |
    ⟨t₁, u₁, m₁, _, rfl, h, hRun, hSteady₁, hm₁, rfl⟩
  · exact .inr hFail
  rcases (syncDir_calm _).split h hRun hm₁ with ⟨hNe, hSteady₂, hFail⟩ |
    ⟨t₂, u₂, m₂, _, rfl, h, hRun, hSteady₂, hm₂, rfl⟩
  · exact .inr ⟨hNe, hSteady₁.append hSteady₂, hFail⟩
  -- the rename moves the directory, or fails and changes nothing
  rcases attempt_behaves.mp h with ⟨hCall, rfl⟩ | ⟨e, hCall, rfl⟩
  · obtain ⟨rfl, m, m', hBefore, hStep, hAfter⟩ := runs_call hCall hRun
    have hm := hm₂.env hBefore
    obtain ⟨f, hSource, -, hGone, hFinal, hTemps⟩ := FileSystem.move_eq_some d.final_ne hStep
    obtain rfl := Option.some.inj (hm.entry.symm.trans hSource)
    have hPlaced : Placed d i _ m' := ⟨hFinal, hGone, hTemps ▸ hm.own⟩
    refine .inl ⟨rfl, List.forall_mem_append.mpr ⟨hSteady₁.strict rfl,
      List.forall_mem_append.mpr ⟨hSteady₂.strict rfl, ?_⟩⟩, hPlaced.env hAfter⟩
    exact List.forall_mem_singleton.mpr fun hFailed => hFailed rfl
  · obtain ⟨rfl, m, m', hBefore, hStep, hAfter⟩ := runs_call hCall hRun
    obtain rfl := Option.some.inj hStep
    refine .inr ⟨by simp, hSteady₁.append
      (hSteady₂.append ⟨?_, not_isDurability_failed _, by simp⟩), _, (hm₂.env hBefore).env hAfter⟩
    exact List.forall_mem_singleton.mpr ⟨fun _ _ hEq => (by cases hEq), nofun⟩

/-- The outcome of a publication that renamed the directory: success if every
call succeeded, and the durability error if only the sync of the parent
failed. -/
def DurabilityExact (d : AtomicDir) (x : Except PublishError Unit) (own : List (Event Fs)) : Prop :=
  (x = .ok () ∧ ∀ e ∈ own, ¬ Failed e) ∨
  ((∃ cause, x = .error (.durability d.final cause)) ∧
    ∃ before e, own = before ++ [⟨.syncDir d.parent, some e⟩] ∧ ∀ f ∈ before, ¬ Failed f)

theorem DurabilityExact.append (h : DurabilityExact d x own) (ht : ∀ e ∈ t, ¬ Failed e) :
    DurabilityExact d x (t ++ own) := by
  rcases h with ⟨hx, hOwn⟩ | ⟨hx, before, e, rfl, hBefore⟩
  · exact .inl ⟨hx, List.forall_mem_append.mpr ⟨ht, hOwn⟩⟩
  · exact .inr ⟨hx, t ++ before, e, by simp, List.forall_mem_append.mpr ⟨ht, hBefore⟩⟩

/-- **`Commit`** places the directory and is committed from then on, or leaves
it where it is. -/
theorem commit_run {d' : AtomicDir} (h : d.commit.Behaves own (x, d')) (hRun : Runs own s s')
    (hs : Unplaced d i s₁ rep s) :
    (d' = { d with committed := true } ∧ DurabilityExact d x own ∧ Placed d i rep s') ∨
    (d' = d ∧ x ≠ .ok () ∧ Steady own x ∧ ∃ rep', Unplaced d i s₁ rep' s') := by
  obtain ⟨y, t, t', hPlace, hRest, rfl⟩ := Proc.behaves_bind.mp h
  obtain ⟨m, hRun₁, hRun₂⟩ := hRun.append_inv
  rcases place_run hPlace hRun₁ hs with ⟨rfl, hStrict, hm⟩ | ⟨hNe, hSteady, rep', hm⟩
  · -- renamed: only the sync of the parent is left
    obtain ⟨r, u, u', hCall, hRet, rfl⟩ := Proc.behaves_bind.mp hRest
    obtain ⟨m', hRun₃, hRun₄⟩ := hRun₂.append_inv
    obtain ⟨rfl, k, k', hBefore, hStep, hAfter⟩ := runs_call hCall hRun₃
    obtain rfl := Option.some.inj hStep
    have hPlaced := (hm.env hBefore).env hAfter
    rcases r with _ | e
    all_goals
      obtain ⟨rfl, hEq⟩ := hRet
      obtain ⟨rfl, rfl⟩ := Prod.mk.inj hEq
      refine .inl ⟨rfl, DurabilityExact.append ?_ hStrict, hPlaced.env hRun₄.nil_inv⟩
    · exact .inl ⟨rfl, List.forall_mem_singleton.mpr fun hFailed => hFailed rfl⟩
    · exact .inr ⟨⟨_, rfl⟩, [], e, rfl, by simp⟩
  · cases y with
    | ok u => exact absurd rfl hNe
    | error e =>
      obtain ⟨rfl, hEq⟩ := hRest
      obtain ⟨rfl, rfl⟩ := Prod.mk.inj hEq
      rw [List.append_nil]
      exact .inr ⟨rfl, by simp, hSteady, rep', hm.env hRun₂.nil_inv⟩

/-- **`publishArtifact`** places a confirmed artifact, or leaves the staging
directory where it is. -/
theorem publishArtifact_run {d' : AtomicDir}
    (h : (publishArtifact codec report hasCheck d).Behaves own (x, d')) (hRun : Runs own s s')
    (hs : Unplaced d i s₁ rep s) :
    (∃ rep', d' = { d with committed := true } ∧ DurabilityExact d x own ∧ Placed d i rep' s' ∧
      Confirmed codec report hasCheck rep' own) ∨
    (d' = d ∧ x ≠ .ok () ∧ Steady own x ∧ ∃ rep', Unplaced d i s₁ rep' s') := by
  obtain ⟨y, t, t', hPrepare, hRest, rfl⟩ := Proc.behaves_bind.mp h
  obtain ⟨m, hRun₁, hRun₂⟩ := hRun.append_inv
  obtain ⟨hSteady, rep', hm, hConfirmed⟩ := prepareArtifact_calm hPrepare hRun₁ hs
  cases y with
  | error e =>
    obtain ⟨rfl, hEq⟩ := hRest
    obtain ⟨rfl, rfl⟩ := Prod.mk.inj hEq
    rw [List.append_nil]
    exact .inr ⟨rfl, by simp, hSteady, rep', hm.env hRun₂.nil_inv⟩
  | ok u =>
    obtain ⟨hStored, hCheck⟩ := hConfirmed rfl
    rcases commit_run hRest hRun₂ hm with ⟨rfl, hExact, hPlaced⟩ | ⟨rfl, hNe, hSteady', hs'⟩
    · exact .inl ⟨rep', rfl, hExact.append (hSteady.strict rfl), hPlaced, hStored,
        fun hc => List.mem_append_left _ (hCheck hc)⟩
    · exact .inr ⟨rfl, hNe, hSteady.append hSteady', hs'⟩

/-- A removal of the staging directory touches nothing else. -/
theorem removeAll_run {r : Option OsError} (hRun : Runs [⟨.removeAll d.temp, r⟩] s s')
    (hs : Unplaced d i s₁ rep s) :
    (∀ p e, p ≠ d.temp → s'.entries p = some e → e.inode ≠ i) ∧
    (∀ p e, p ≠ d.temp → s₁.entries p = some e → s'.entries p = some e) ∧
    (r = none → s'.entries d.temp = none) := by
  obtain ⟨m, m', hBefore, hStep, hRest⟩ := hRun.cons_inv
  have hAfter := hRest.nil_inv
  have hm := hs.env hBefore
  have hOthers : (∀ p, p ≠ d.temp → m'.entries p = m.entries p) ∧ m'.next = m.next ∧
      m'.temps = m.temps ∧ (r = none → m'.entries d.temp = none) := by
    rcases r with _ | e
    all_goals obtain rfl := Option.some.inj hStep
    · exact ⟨fun p hp => m.remove_entries_of_ne hp, rfl, rfl, fun _ => m.remove_entries_self _⟩
    · exact ⟨fun p hp => m.setReport_entries_of_ne none hp, rfl, rfl, nofun⟩
  obtain ⟨hSame, hNext, hTemps, hGone⟩ := hOthers
  refine ⟨fun p e hp he => ?_, fun p e hp he => ?_, fun hr => ?_⟩
  · cases hp' : m'.entries p with
    | none =>
      have hLe := (hAfter.made p e hp' he).2
      have hLt : i < m.next := m.fresh _ _ hm.entry
      omega
    | some f =>
      obtain rfl : f = e := Option.some.inj ((hAfter.kept p f hp').symm.trans he)
      exact hm.others p f hp (by rw [← hSame p hp, hp'])
  · refine hAfter.kept p e ?_
    rw [hSame p hp]
    exact hm.kept p e hp he
  · cases he : s'.entries d.temp with
    | none => rfl
    | some e => exact absurd (hTemps ▸ hm.own) (hAfter.made _ _ (hGone hr) he).1

/-- **`newAtomicDir`** hands out a new directory with an identity of its own. -/
theorem newAtomicDir_run {output : String} (h : Returns (newAtomicDir output) own d)
    (hRun : Runs own s s') : d.committed = false ∧ ∃ i, Unplaced d i s' none s' := by
  obtain ⟨abs, t₁, t₂, -, hk, rfl⟩ := returns_bind.mp h
  obtain ⟨random, t₂, t₃, hTemp, hRet, rfl⟩ := returns_bind.mp hk
  obtain ⟨rfl, rfl⟩ := returns_pure.mp hRet
  rw [List.append_nil] at hRun
  obtain ⟨m, -, hRest⟩ := hRun.append_inv
  have hCall := returns_osValue.mp hTemp
  obtain ⟨-, k, k', -, hStep, hAfter⟩ := runs_call hCall hRest
  simp only [FileSystem.perform] at hStep
  split at hStep
  · next hFree =>
    obtain rfl := Option.some.inj hStep
    refine ⟨rfl, k.next, Unplaced.rebase (@Unplaced.env _ _ k _ _ _ ?_ hAfter)⟩
    refine ⟨FileSystem.make_entries_self k _, List.mem_cons_self, fun p e hp he => ?_,
      fun p e hp he => ?_⟩
    · -- an older entry has an older identity
      have he' : k.entries p = some e := (FileSystem.make_entries_of_ne k hp).symm.trans he
      exact Nat.ne_of_lt (k.fresh p e he')
    · exact (FileSystem.make_entries_of_ne k hp).trans he
  · cases hStep

/-- The artifact was published. -/
structure Published (codec : ReportCodec T) (report : T) (hasCheck : Bool) (d : AtomicDir)
    (staged : Entry) (x aborted : Except PublishError Unit) (tr : List (Event Fs))
    (s : FileSystem) : Prop where
  /-- The final path is the staged directory, with the confirmed report. -/
  final : ∃ b stored, s.entries d.final = some ⟨staged.inode, some b⟩ ∧
    codec.load b = .ok stored ∧ codec.equal stored report = true
  checked : hasCheck = true → (⟨.beforeCommit, none⟩ : Event Fs) ∈ tr
  gone    : s.entries d.temp = none
  /-- Nil or the durability error, which stands for a failed sync of the parent
  after every other call succeeded. -/
  result  : x = .ok () ∨ ∃ cause, x = .error (.durability d.final cause)
  exact   : (∃ cause, x = .error (.durability d.final cause)) ↔
    ∃ e, (⟨.syncDir d.parent, some e⟩ : Event Fs) ∈ tr
  only    : ∀ e ∈ tr, Failed e → ∃ r, e = ⟨.syncDir d.parent, r⟩
  aborted : aborted = .ok ()

/-- What is left of the staging directory of unpublished work: `Abort` removes
it, and refuses to if its name lost the prefix. -/
def Discarded (d : AtomicDir) (i : Nat) (aborted : Except PublishError Unit) (s : FileSystem) :
    Prop :=
  if hasPrefix d.temp.base d.tempPrefix = true then aborted = .ok () → s.entries d.temp = none
  else aborted = .error d.refusal ∧ ∃ rep, s.entries d.temp = some ⟨i, rep⟩

/-- The artifact was not published, and the final path was left alone. -/
structure Unpublished (d : AtomicDir) (staged : Entry) (x aborted : Except PublishError Unit)
    (tr : List (Event Fs)) (s₁ s : FileSystem) : Prop where
  result  : ∃ e, x = .error (.failed e)
  /-- This process completed no rename, and what it removed is its own. -/
  renamed : ∀ a b, (⟨.rename a b, none⟩ : Event Fs) ∉ tr
  removed : ∀ p r, (⟨.removeAll p, r⟩ : Event Fs) ∈ tr → p = d.temp
  /-- What is at the final path now is not the staged directory. -/
  final   : ∀ e, s.entries d.final = some e → e.inode ≠ staged.inode
  /-- Whatever was there before is still there. -/
  kept    : ∀ p e, p ≠ d.temp → s₁.entries p = some e → s.entries p = some e
  staging : Discarded d staged.inode aborted s

/-- Failures among the events of a publication that renamed the directory. -/
theorem DurabilityExact.failed_iff (h : DurabilityExact d x own) :
    ((∃ cause, x = .error (.durability d.final cause)) ↔
      ∃ e, (⟨.syncDir d.parent, some e⟩ : Event Fs) ∈ own) ∧
    ∀ e ∈ own, Failed e → ∃ r, e = ⟨.syncDir d.parent, r⟩ := by
  rcases h with ⟨rfl, hOwn⟩ | ⟨hx, before, e, rfl, hBefore⟩
  · refine ⟨⟨fun ⟨_, hEq⟩ => (by cases hEq), fun ⟨e, he⟩ => ?_⟩, fun e he hFailed => ?_⟩
    · exact absurd (fun hEq => by cases hEq) (hOwn _ he)
    · exact absurd hFailed (hOwn e he)
  · refine ⟨⟨fun _ => ⟨e, by simp⟩, fun _ => hx⟩, fun f hf hFailed => ?_⟩
    rcases List.mem_append.mp hf with hf | hf
    · exact absurd hFailed (hBefore f hf)
    · exact ⟨some e, List.mem_singleton.mp hf⟩

/-- **`Abort`** of unpublished work removes the staging directory and nothing
else, or refuses to. -/
theorem abort_run {aborted : Except PublishError Unit} (hOpen : d.committed = false)
    (h : d.abort.Behaves own aborted) (hRun : Runs own s s') (hs : Unplaced d i s₁ rep s)
    (hErr : ∃ e, x = .error (.failed e)) (hQuiet : ∀ e ∈ t, Quiet e) :
    Unpublished d ⟨i, rep⟩ x aborted (t ++ own) s₁ s' := by
  rw [AtomicDir.abort, hOpen, if_neg (by simp)] at h
  by_cases hPre : hasPrefix d.temp.base d.tempPrefix = true
  · rw [if_neg (by simp [d.temp_dir, hPre])] at h
    obtain ⟨r, u, u', hCall, ⟨rfl, rfl⟩, rfl⟩ := Proc.behaves_bind.mp h
    rw [List.append_nil] at hRun ⊢
    obtain rfl := Proc.behaves_perform.mp hCall
    obtain ⟨hOthers, hKept, hGone⟩ := removeAll_run hRun hs
    refine ⟨hErr, fun a b hMem => ?_, fun p q hMem => ?_, fun e =>
      hOthers _ e d.final_ne, hKept, ?_⟩
    · rcases List.mem_append.mp hMem with hMem | hMem
      · exact (hQuiet _ hMem).1 a b rfl
      · cases List.mem_singleton.mp hMem
    · rcases List.mem_append.mp hMem with hMem | hMem
      · exact absurd rfl ((hQuiet _ hMem).2 p q)
      · have hEq := congrArg Event.op (List.mem_singleton.mp hMem)
        injection hEq
    · rw [Discarded, if_pos hPre]
      rcases r with _ | e
      · exact fun _ => hGone rfl
      · exact nofun
  · -- the name lost its prefix: nothing is touched
    rw [if_pos (.inr (by simpa using hPre))] at h
    obtain ⟨rfl, rfl⟩ := h
    have hs' := hs.env hRun.nil_inv
    rw [List.append_nil]
    refine ⟨hErr, fun a b hMem => (hQuiet _ hMem).1 a b rfl,
      fun p q hMem => absurd rfl ((hQuiet _ hMem).2 p q), fun e => hs'.others _ e d.final_ne,
      hs'.kept, ?_⟩
    rw [Discarded, if_neg hPre]
    exact ⟨rfl, rep, hs'.entry⟩

/-- **`publishThenAbort` beside other processes.** -/
theorem publishThenAbort_run {aborted : Except PublishError Unit} (hOpen : d.committed = false)
    (h : (publishThenAbort codec report hasCheck d).Behaves own (x, aborted))
    (hRun : Runs own s₁ s') (hs : Unplaced d i s₁ rep s₁) :
    Published codec report hasCheck d ⟨i, rep⟩ x aborted own s' ∨
      Unpublished d ⟨i, rep⟩ x aborted own s₁ s' := by
  obtain ⟨⟨y, d'⟩, t, t', hPublish, hk, rfl⟩ := Proc.behaves_bind.mp h
  obtain ⟨z, u, u', hAbort, hRet, rfl⟩ := Proc.behaves_bind.mp hk
  obtain ⟨rfl, hEq⟩ := hRet
  obtain ⟨rfl, rfl⟩ := Prod.mk.inj hEq
  rw [List.append_nil] at hRun ⊢
  obtain ⟨m, hRun₁, hRun₂⟩ := hRun.append_inv
  rcases publishArtifact_run hPublish hRun₁ hs with
    ⟨rep', rfl, hExact, hPlaced, ⟨b, stored, rfl, hLoad, hEqual⟩, hCheck⟩ |
    ⟨rfl, hNe, hSteady, rep', hm⟩
  · -- committed: the deferred call does nothing
    obtain ⟨rfl, rfl⟩ := hAbort
    rw [List.append_nil]
    have hEnd := hPlaced.env hRun₂.nil_inv
    obtain ⟨hIff, hOnly⟩ := hExact.failed_iff
    exact .inl ⟨⟨b, stored, hEnd.entry, hLoad, hEqual⟩, hCheck, hEnd.gone,
      hExact.imp (fun h => h.1) fun h => h.1, hIff, hOnly, rfl⟩
  · have hErr : ∃ e, y = .error (.failed e) := by
      rcases y with (⟨path, cause⟩ | e) | v
      · exact absurd ⟨path, cause, rfl⟩ hSteady.plain
      · exact ⟨e, rfl⟩
      · exact absurd rfl hNe
    obtain ⟨hResult, hRenamed, hRemoved, hFinal, hKept, hStaging⟩ :=
      abort_run hOpen hAbort hRun₂ hm hErr hSteady.quiet
    exact .inr ⟨hResult, hRenamed, hRemoved, hFinal, hKept, hStaging⟩

end PublishRun

/-- A process beside others that create `paths`. -/
def beside {α : Type} (paths : List Path) (p : Proc Fs α) : Proc Fs α :=
  .both (intruders paths) p fun _ x => .ret x

theorem exec_beside_inv {α : Type} {paths : List Path} {p : Proc Fs α} {tr : List (Event Fs)}
    {x : α} (h : Exec fileSystem (beside paths p) s tr (.ret x) s') :
    ∃ own, p.Behaves own x ∧ Runs own s s' ∧ (∀ e ∈ own, e ∈ tr) ∧
      ∀ e ∈ tr, e ∈ own ∨ IsCreate e := by
  have hEnv : (intruders paths).Only fun e => ∀ a b,
      fileSystem.perform e.op e.reply a = some b → Interferes a b :=
    (intruders_only paths).mono fun e he _ _ hStep => he.interferes hStep
  obtain ⟨others, own, hOthers, hOwn, hInter, hRun⟩ :=
    exec_beside Interferes.refl Interferes.trans hEnv h
  refine ⟨own, hOwn, hRun, fun e he => hInter.mem_iff.mpr (.inr he), fun e he => ?_⟩
  rcases hInter.mem_iff.mp he with hMem | hMem
  · exact .inr (intruders_only paths _ _ hOthers e hMem)
  · exact .inl hMem

section Traces

variable {T : Type} {codec : ReportCodec T} {report : T} {hasCheck : Bool} {d : AtomicDir}
  {staged : Entry} {x aborted : Except PublishError Unit} {own tr : List (Event Fs)}
  {s₁ s : FileSystem}

/-- The events of other processes are neither failures nor this process's. -/
theorem Published.trace (h : Published codec report hasCheck d staged x aborted own s)
    (hSub : ∀ e ∈ own, e ∈ tr) (hSup : ∀ e ∈ tr, e ∈ own ∨ IsCreate e) :
    Published codec report hasCheck d staged x aborted tr s where
  final := h.final
  checked hCheck := hSub _ (h.checked hCheck)
  gone := h.gone
  result := h.result
  exact := by
    refine h.exact.trans ⟨fun ⟨e, he⟩ => ⟨e, hSub _ he⟩, fun ⟨e, he⟩ => ?_⟩
    rcases hSup _ he with hMem | ⟨p, hEq⟩
    · exact ⟨e, hMem⟩
    · cases hEq
  only e he hFailed := by
    rcases hSup e he with hMem | ⟨p, rfl⟩
    · exact h.only e hMem hFailed
    · exact hFailed.elim
  aborted := h.aborted

theorem Unpublished.trace (h : Unpublished d staged x aborted own s₁ s)
    (hSup : ∀ e ∈ tr, e ∈ own ∨ IsCreate e) : Unpublished d staged x aborted tr s₁ s where
  result := h.result
  renamed a b he := by
    rcases hSup _ he with hMem | ⟨p, hEq⟩
    · exact h.renamed a b hMem
    · cases hEq
  removed p r he := by
    rcases hSup _ he with hMem | ⟨q, hEq⟩
    · exact h.removed p r hMem
    · cases hEq
  final := h.final
  kept := h.kept
  staging := h.staging

end Traces

/-- **Publication is all-or-nothing and never replaces.** Whatever calls fail,
whenever the context is cancelled and whatever paths other processes create
meanwhile, `publishArtifact` and the deferred `Abort` publish the staged
directory or leave the final path alone. -/
theorem publication_all_or_nothing {T : Type} (codec : ReportCodec T) (report : T)
    (hasCheck : Bool) (output : String) (paths₁ paths₂ : List Path) {s₀ s₁ s₂ : FileSystem}
    {tr₁ tr₂ : List (Event Fs)} {d : AtomicDir} {x aborted : Except PublishError Unit}
    (hNew : Exec fileSystem (beside paths₁ (newAtomicDir output).run) s₀ tr₁ (.ret (.ok d)) s₁)
    (hPublish : Exec fileSystem (beside paths₂ (publishThenAbort codec report hasCheck d)) s₁ tr₂
      (.ret (x, aborted)) s₂) :
    ∃ staged, s₁.entries d.temp = some staged ∧
      (Published codec report hasCheck d staged x aborted tr₂ s₂ ∨
        Unpublished d staged x aborted tr₂ s₁ s₂) := by
  obtain ⟨own₁, hOwn₁, hRun₁, -⟩ := exec_beside_inv hNew
  obtain ⟨hOpen, i, hs₁⟩ := newAtomicDir_run hOwn₁ hRun₁
  obtain ⟨own₂, hOwn₂, hRun₂, hSub, hSup⟩ := exec_beside_inv hPublish
  refine ⟨_, hs₁.entry, ?_⟩
  rcases publishThenAbort_run hOpen hOwn₂ hRun₂ hs₁ with hDone | hNot
  · exact .inl (hDone.trace hSub hSup)
  · exact .inr (hNot.trace hSup)

/-! ## A run in which another process takes the final path -/

/-- Replies of a file system on which every call works that can. -/
def workingReply : (op : FsOp) → FileSystem → op.Reply
  | .resolvePath _, _ => .ok ⟨"/data", "target"⟩
  | .lstat p, s => if s.entries p = none then some .notExist else none
  | .mkdirAll _, _ => none
  | .evalSymlinks dir, _ => .ok dir
  | .mkdirTemp _ _, _ => .ok "1"
  | .syncDir _, _ => none
  | .rename _ target, s => if s.entries target = none then none else some .exist
  | .removeAll _, _ => none
  | .ctxErr, _ => none
  | .writeReport _, _ => (none, some [1])
  | .readReport _, _ => .ok [1]
  | .beforeCommit, _ => none
  | .create _, _ => ()

def emptyFileSystem : FileSystem := ⟨fun _ => none, 0, [], false, by simp⟩

/-- A report of one byte. -/
def byteCodec : ReportCodec Bytes := ⟨"report", .ok, fun a b => a == b⟩

/-- Whether a play of the publication returns nil. -/
def playsPublished (paths : List Path) (d : AtomicDir) (s : FileSystem) (nil : Bool) : Bool :=
  (fileSystem.play workingReply 0 (beside paths (publishThenAbort byteCodec [1] true d)) s).any
    fun out => decide (out.2.1.1 = .ok ()) == nil

/-- On an empty file system the artifact is published; if another process
takes the final path first, it is not. -/
theorem publication_all_or_nothing_sample : ∃ tr₁ s₁ d,
    Exec fileSystem (beside [] (newAtomicDir "target").run) emptyFileSystem tr₁
      (.ret (.ok d)) s₁ ∧
    (∃ tr₂ x aborted s₂,
      Exec fileSystem (beside [] (publishThenAbort byteCodec [1] true d)) s₁ tr₂
        (.ret (x, aborted)) s₂ ∧ x = .ok () ∧
      ∃ staged, s₁.entries d.temp = some staged ∧
        (Published byteCodec [1] true d staged x aborted tr₂ s₂ ∨
          Unpublished d staged x aborted tr₂ s₁ s₂)) ∧
    ∃ tr₂ x aborted s₂,
      Exec fileSystem (beside [⟨"/data", "target"⟩] (publishThenAbort byteCodec [1] true d)) s₁
        tr₂ (.ret (x, aborted)) s₂ ∧ x ≠ .ok () ∧
      ∃ staged, s₁.entries d.temp = some staged ∧
        (Published byteCodec [1] true d staged x aborted tr₂ s₂ ∨
          Unpublished d staged x aborted tr₂ s₁ s₂) := by
  have hPlay : (fileSystem.play workingReply 0 (beside [] (newAtomicDir "target").run)
      emptyFileSystem).any (fun out => match out.2.1 with
        | .error _ => false
        | .ok d => playsPublished [] d out.2.2 true &&
          playsPublished [⟨"/data", "target"⟩] d out.2.2 false) = true := by
    decide +kernel
  obtain ⟨tr₁, r, s₁, hNew, hTest⟩ := fileSystem.exec_of_play hPlay
  cases r with
  | error e => cases hTest
  | ok d =>
    rw [Bool.and_eq_true] at hTest
    obtain ⟨tr₂, ⟨x, aborted⟩, s₂, hPublish, hx⟩ := fileSystem.exec_of_play hTest.1
    obtain ⟨tr₂', ⟨x', aborted'⟩, s₂', hPublish', hx'⟩ := fileSystem.exec_of_play hTest.2
    exact ⟨tr₁, s₁, d, hNew,
      ⟨tr₂, x, aborted, s₂, hPublish, by simpa using hx,
        publication_all_or_nothing byteCodec [1] true "target" [] [] hNew hPublish⟩,
      ⟨tr₂', x', aborted', s₂', hPublish', by simpa using hx',
        publication_all_or_nothing byteCodec [1] true "target" [] _ hNew hPublish'⟩⟩

end L2State
