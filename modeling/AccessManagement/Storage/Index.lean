/-
  AccessManagement.Storage.Index — THE STORAGE INDEX (package `storage/index`).

  The index knows which file defines which module and which modules import which.  It holds no
  policies: to assemble a compilation unit it reads the files again.  Maps and sets of the
  source are `AList`s and lists; where the source ranges over a map, the order of the list
  stands for the order that Go picks.  A module ID is the fully-qualified name it is made from.

  Modelling notes:
    * `addDepsToCompilationUnit` recurses without marking what it has visited; the bound on the
      depth is the number of modules with imports, and running out of it is an error of its own
      (`importCycle`), where the source would not return;
    * the two ends of the channel of `GetAllCompilationUnits` are one list; a context is known by
      how many units are sent before its cancellation is seen, if it is cancelled;
    * locks, metrics, source contexts and metadata of policies are left out.
-/
import AccessManagement.Lib.Search
import AccessManagement.Lib.SetMap
import AccessManagement.Policy.Units

namespace AccessManagement.Storage

open Lib

/-! ## §1. State. -/

/-- A document of a file, with the error of its validation if there is one. -/
structure Document where
  policy : Source.Policy
  invalid : Option String := none

/-- What the files hold that can be opened and parsed. -/
abbrev FileSystem := String → Option (List Document)

inductive IndexError where
  | invalidEntry
  | duplicatePolicy (otherFile : String)
  | policyNotFound (id : String)
  | openFailed (file : String)
  | notInFile (file id : String)
  | invalidDocument (file message : String)
  | importCycle
  | dependenciesOf (policyKey : String) (cause : IndexError)
  | ancestorOf (ancestor policyKey : String) (cause : IndexError)
  | dependenciesOfAncestor (ancestor policyKey : String) (cause : IndexError)
  deriving DecidableEq, Repr

/-- `index`, without what other packages give it. -/
structure StorageIndex where
  fileToModID : AList (fun _ : String => String)
  executables : List String
  dependents : SetMap String String
  dependencies : SetMap String String
  modIDToFile : AList (fun _ : String => String)

namespace StorageIndex

/-- The maps of `newIndexBuilder`. -/
def empty : StorageIndex := ⟨∅, [], ∅, ∅, ∅⟩

section Updates

variable (idx : StorageIndex)

/-- `addDep`. -/
def addDep (child parent : String) : StorageIndex :=
  { idx with
    dependencies := idx.dependencies.addMember child parent
    dependents := idx.dependents.addMember parent child }

/-- One `addDep` for each import. -/
def addDeps (child : String) (parents : List String) : StorageIndex :=
  parents.foldl (fun idx parent => idx.addDep child parent) idx

/-! ## §2. Updates. -/

/-- `storage.EventKind`, as far as the index emits it. -/
inductive EventKind where
  | nop | addOrUpdatePolicy | deleteOrDisablePolicy
  deriving DecidableEq, Repr

/-- `storage.Event`. -/
structure Event where
  kind : EventKind := .nop
  policyID : String := ""
  oldPolicyID : Option String := none
  dependents : List String := []
  deriving DecidableEq, Repr

variable (file : String)

/-- The state of `AddOrUpdate` when what the file held before is cleared: sets that become
empty are left. -/
def clearFile : StorageIndex :=
  match idx.fileToModID.lookup file with
  | none => idx
  | some oldModID =>
    { fileToModID := idx.fileToModID.erase file
      executables := idx.executables.filter (· ≠ oldModID)
      dependents := (idx.dependencies.members oldModID).foldl
        (fun dependents dep => dependents.removeMember dep oldModID) idx.dependents
      dependencies := idx.dependencies.erase oldModID
      modIDToFile := idx.modIDToFile.erase oldModID }

/-- `AddOrUpdate`, from where the policy goes into the index. -/
def addFile (p : Source.Policy) : StorageIndex :=
  addDeps { idx with
      fileToModID := idx.fileToModID.insert file p.fqn
      modIDToFile := idx.modIDToFile.insert p.fqn file
      executables :=
        if p.kind = .derivedRoles then idx.executables else idx.executables.insert p.fqn }
    p.fqn p.dependencies

/-- `AddOrUpdate`.  An entry has no policy where its wrapper is empty. -/
def addOrUpdate (policy : Option Source.Policy) : Except IndexError Event × StorageIndex :=
  match policy with
  | none => (.error .invalidEntry, idx)
  | some p =>
    -- is this a duplicate of another file?
    match (idx.modIDToFile.lookup p.fqn).filter (· ≠ file) with
    | some otherFile => (.error (.duplicatePolicy otherFile), idx)
    | none =>
      let idx' := (idx.clearFile file).addFile file p
      (.ok {
        kind := .addOrUpdatePolicy
        policyID := p.fqn
        oldPolicyID := (idx.fileToModID.lookup file).filter (· ≠ p.fqn)
        dependents := idx'.dependents.members p.fqn }, idx')

/-- `Delete`: sets that become empty are dropped. -/
def delete : Event × StorageIndex :=
  match idx.fileToModID.lookup file with
  | none => ({}, idx)
  | some modID =>
    let idx' : StorageIndex :=
      { fileToModID := idx.fileToModID.erase file
        executables := idx.executables.filter (· ≠ modID)
        dependents := (idx.dependencies.members modID).foldl
          (fun dependents dep => dependents.dropMember dep modID) idx.dependents
        dependencies := idx.dependencies.erase modID
        modIDToFile := idx.modIDToFile.erase modID }
    ({ kind := .deleteOrDisablePolicy
       policyID := modID
       dependents := idx'.dependents.members modID }, idx')

/-- All modules that import another one. -/
def dependentModules : List String :=
  idx.dependents.entries.flatMap (fun e => e.2)

/-- `addTransitiveDependents`, from no dependents; it marks each dependent once. -/
def transitiveDependents (id : String) : List String :=
  Lib.collect idx.dependents.members (idx.dependentModules.length + 1) [] id

/-- `GetDependents`. -/
def getDependents (ids : List String) : AList (fun _ : String => List String) :=
  ids.foldl (fun results id => results.insert id (idx.transitiveDependents id)) ∅

end Updates

/-! ## §3. Compilation units. -/

variable (fsys : FileSystem) (idx : StorageIndex)

/-- `loadPolicy`: the first document of the file with the ID. -/
def loadPolicy (id : String) : Except IndexError Source.Policy :=
  match idx.modIDToFile.lookup id with
  | none => .error (.policyNotFound id)
  | some file =>
    match fsys file with
    | none => .error (.openFailed file)
    | some documents =>
      match documents.find? (fun d => d.policy.fqn == id) with
      | none => .error (.notInFile file id)
      | some d =>
        match d.invalid with
        | some message => .error (.invalidDocument file message)
        | none => .ok d.policy

/-- One import of `addDepsToCompilationUnit`, whose own imports `descend` adds. -/
def addImport (descend : Definitions → String → Except IndexError Definitions)
    (defs : Definitions) (dep : String) : Except IndexError Definitions :=
  match defs.lookup dep with
  | some _ => descend defs dep
  | none =>
    match idx.loadPolicy fsys dep with
    | .error e => .error e
    | .ok p => descend (defs.insert dep p) dep

/-- `addDepsToCompilationUnit`, to a depth. -/
def addDepsToCompilationUnit : Nat → Definitions → String → Except IndexError Definitions
  | 0, _, _ => .error .importCycle
  | depth + 1, defs, id =>
    (idx.dependencies.members id).foldlM (idx.addImport fsys (addDepsToCompilationUnit depth)) defs

/-- How deep imports can go when they do not go round in circles. -/
def maxDepth : Nat := idx.dependencies.keys.length + 1

/-- One ancestor of `GetCompilationUnits`. -/
def addAncestor (policyKey : String) (defs : Definitions) (ancestor : String) :
    Except IndexError Definitions :=
  match idx.loadPolicy fsys ancestor with
  | .error e => .error (.ancestorOf ancestor policyKey e)
  | .ok p =>
    match idx.addDepsToCompilationUnit fsys idx.maxDepth (defs.insert ancestor p) ancestor with
    | .error e => .error (.dependenciesOfAncestor ancestor policyKey e)
    | .ok defs' => .ok defs'

/-- The unit of one module of `GetCompilationUnits`. -/
def getCompilationUnit (id : String) : Except IndexError CompilationUnit :=
  match idx.loadPolicy fsys id with
  | .error e => .error e
  | .ok p =>
    let policyKey := Namer.policyKeyFromFqn p.fqn
    match idx.addDepsToCompilationUnit fsys idx.maxDepth (AList.insert id p ∅) id with
    | .error e => .error (.dependenciesOf policyKey e)
    | .ok defs =>
      match p.ancestors.foldlM (idx.addAncestor fsys policyKey) defs with
      | .error e => .error e
      | .ok defs' => .ok { modID := id, definitions := defs' }

/-- `GetCompilationUnits`: unknown IDs are passed over, the first error ends it. -/
def getCompilationUnits (ids : List String) :
    Except IndexError (AList (fun _ : String => CompilationUnit)) :=
  ids.foldlM (fun result id =>
    match idx.modIDToFile.lookup id with
    | none => .ok result
    | some _ =>
      match idx.getCompilationUnit fsys id with
      | .error e => .error e
      | .ok unit => .ok (AList.insert id unit result)) ∅

/-! ## §4. Everything. -/

/-- A context: the number of units sent before its cancellation is seen, if it is cancelled. -/
abbrev Context := Option Nat

/-- What is compiled on its own: what is executable, and what nothing else draws in. -/
def toCompile : List String :=
  idx.modIDToFile.keys.filter (fun id =>
    idx.executables.contains id || (idx.dependents.members id).isEmpty)

/-- The loop of `GetAllCompilationUnitsWithCount`: a unit that cannot be assembled is passed
over. -/
def assembled : List CompilationUnit :=
  idx.toCompile.filterMap (fun id =>
    match idx.getCompilationUnits fsys [id] with
    | .error _ => none
    | .ok units => units.lookup id)

variable (ctx : Context)

/-- `GetAllCompilationUnitsWithCount`. -/
def getAllCompilationUnitsWithCount : Nat × List CompilationUnit :=
  (idx.toCompile.length,
    match ctx with
    | none => idx.assembled fsys
    | some sent => (idx.assembled fsys).take sent)

/-- `GetAll`, which returns no error. -/
def getAll : Except IndexError (List CompilationUnit) :=
  .ok (idx.getAllCompilationUnitsWithCount fsys ctx).2

/-- `Iter`, read to its end: the error of the context is yielded when units are missing. -/
def iter : List (Except String CompilationUnit) :=
  let (n, units) := idx.getAllCompilationUnitsWithCount fsys ctx
  units.map .ok ++ (if units.length < n then
      match ctx with
      | some _ => [.error "context canceled"]
      | none => []
    else [])

end StorageIndex

end AccessManagement.Storage
