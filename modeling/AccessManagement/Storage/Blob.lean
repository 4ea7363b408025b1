/-
  AccessManagement.Storage.Blob — THE BLOB STORE (package `storage/blob`).

  A bucket lists objects with the hash of their contents (`etag`).  The cloner downloads what it
  does not have and compares the list with the last one.  The store links the listed files into a
  new work directory, makes one event for each file that was added, changed or deleted (a changed
  file counts as both), collects the policies that depend on theirs, and builds a new index from
  the directory.  Only then does it serve the new files; the events go out in any case.

  Modelling notes:
    * objects with one hash have the same contents, `contents etag`;
    * a work directory is the map of its links;
    * where the source ranges over a map, a `MapOrder` gives the order;
    * what can go wrong outside the store is part of the call (`Poll`);
    * reading a file without a document ends the process, which is an error here;
    * the name of the zero module ID is the empty text, which no policy has.
-/
import AccessManagement.Storage.Sync

namespace AccessManagement.Storage

namespace Blob

open Paths

/-! ## §1. The cloner. -/

/-- An order in which Go goes through a map. -/
structure MapOrder (α : Type) where
  order : List α → List α
  perm : ∀ as, (order as).Perm as

/-- An object of the bucket, with its hash if the bucket has one. -/
structure Object where
  key : String
  md5 : Option String
  deriving DecidableEq, Repr

structure Info where
  etag : String
  file : String
  deriving DecidableEq, Repr

/-- Files by the hash of their contents. -/
abbrev Cloned := AList (fun _ : String => List String)

/-- `CloneResult`. -/
structure CloneResult where
  all : Cloned
  addedOrUpdated : List Info
  deleted : List Info

def CloneResult.isEmpty (cr : CloneResult) : Bool :=
  cr.addedOrUpdated.isEmpty && cr.deleted.isEmpty

inductive CloneError where
  | nextItem
  | md5Missing (file : String)
  | download (file etag : String)
  deriving DecidableEq, Repr

/-- `strings.TrimPrefix` with a slash. -/
def fileOfKey (key : String) : String :=
  match key.toList with
  | '/' :: rest => String.ofList rest
  | _ => key

/-- The last part of a path. -/
def baseName (file : String) : List Char := (file.toList.splitOn '/').getLastD []

/-- One object of the listing. -/
def cloneObject (state : Cloned) (fetches : Object → Bool) (cr : Cloned × List Info)
    (obj : Object) : Except CloneError (Cloned × List Info) :=
  let file := fileOfKey obj.key
  if fileType file = .notIndexed then .ok cr
  else
    match obj.md5 with
    | none => .error (.md5Missing file)
    | some etag =>
      if isSupportedFileType (baseName file) = false then .ok cr
      else
        let all := cr.1.insert etag ((cr.1.lookup etag).getD [] ++ [file])
        match state.lookup etag with
        | some existingFiles =>
          if existingFiles.contains file then .ok (all, cr.2)
          else .ok (all, cr.2 ++ [⟨etag, file⟩])
        | none =>
          if fetches obj then .ok (all, cr.2 ++ [⟨etag, file⟩])
          else .error (.download file etag)

/-- A file of the last listing that is not there with its contents any more. -/
def isDeleted (all : Cloned) (etag file : String) : Bool :=
  match all.lookup etag with
  | none => true
  | some files => !files.contains file

/-- What happens outside the store while it looks for updates. -/
structure Poll where
  objects : List Object
  /-- The listing goes through to its end. -/
  complete : Bool
  /-- An object can be downloaded. -/
  fetches : Object → Bool
  /-- A file of a work directory can be opened. -/
  opens : String → Bool
  /-- The work directory can be made and walked. -/
  prepares : Bool
  walks : Bool
  stateOrder : MapOrder (Sigma fun _ : String => List String)
  allOrder : MapOrder (Sigma fun _ : String => List String)
  depsOrder : MapOrder (Sigma fun _ : String => List String)

/-- `Clone`; the cloner remembers `all` when there is no error. -/
def clone (state : Cloned) (poll : Poll) : Except CloneError CloneResult :=
  match poll.objects.foldlM (cloneObject state poll.fetches) (∅, []) with
  | .error e => .error e
  | .ok (all, addedOrUpdated) =>
    if poll.complete then
      .ok {
        all := all
        addedOrUpdated := addedOrUpdated
        deleted := (poll.stateOrder.order state.entries).flatMap (fun e =>
          (e.2.filter (isDeleted all e.1)).map (fun file => ⟨e.1, file⟩)) }
    else .error .nextItem

/-! ## §2. The store. -/

/-- The links of a work directory. -/
abbrev WorkDir := AList (fun _ : String => String)

structure BlobStore where
  /-- The state of the cloner. -/
  cloned : Cloned
  /-- The work directory that is served, `currDirName`. -/
  currDir : WorkDir
  idx : StorageIndex

inductive BlobError where
  | clone (e : CloneError)
  | openFile (file : String)
  | readPolicy (file error : String)
  | nilPolicy (file : String)
  | prepareWorkDir
  | walkDir
  | buildIndex (e : BuildError)
  deriving DecidableEq, Repr

/-- `createSymlinks`. -/
def createSymlinks (order : MapOrder (Sigma fun _ : String => List String)) (all : Cloned) :
    WorkDir :=
  (order.order all.entries).foldl
    (fun dir e => e.2.foldl (fun dir file => dir.insert file e.1) dir) ∅

/-- A policy file of the bucket. -/
def isPolicy (file : String) : Bool := fileType file == .policy

/-- The files of a work directory. -/
def workTree (contents : String → RawFile) (dir : WorkDir) : WorkTree :=
  dir.entries.foldl (fun tree e => tree.insert e.1 (contents e.2)) ∅

/-- The policy of a file of a work directory. -/
def readPolicy (contents : String → RawFile) (opens : String → Bool) (dir : WorkDir)
    (file : String) : Except BlobError Source.Policy :=
  match dir.lookup file with
  | none => .error (.openFile file)
  | some etag =>
    if opens file then
      match (contents etag).read with
      | .error e => .error (.readPolicy file e)
      | .ok none => .error (.nilPolicy file)
      | .ok (some p) => .ok p
    else .error (.openFile file)

/-- The event for a file: `addOrUpdateEvent` and `deleteEvent` differ in the kinds of the events
and in the directory. -/
def fileEvent (kind : StorageIndex.EventKind) (schemaEvent : String → StoreEvent)
    (contents : String → RawFile) (opens : String → Bool) (dir : WorkDir) (inf : Info) :
    Except BlobError StoreEvent :=
  match relativeSchemaPath inf.file with
  | some schemaFile => .ok (schemaEvent schemaFile)
  | none =>
    match readPolicy contents opens dir inf.file with
    | .error e => .error e
    | .ok p => .ok (.policy { kind := kind, policyID := p.fqn })

/-- `addOrUpdateEvent`. -/
def addOrUpdateEvent := fileEvent .addOrUpdatePolicy .addOrUpdateSchema

/-- `deleteEvent`. -/
def deleteEvent := fileEvent .deleteOrDisablePolicy .deleteSchema

/-- The field `PolicyID` of an event. -/
def policyID : StoreEvent → String
  | .policy event => event.policyID
  | _ => ""

/-- A loop that writes to a slice from its start. -/
def writeFront (ids slice : List String) : List String := ids ++ slice.drop ids.length

/-- What `updateIndex` returns, sends and leaves. -/
structure Outcome where
  store : BlobStore
  error : Option BlobError
  emitted : List StoreEvent

/-- The event for the dependents that have no event of their own. -/
def depEvent (processed deps : List String) : List StoreEvent :=
  let found := newDependents processed deps
  if found.isEmpty then [] else [.policy { kind := .addOrUpdatePolicy, dependents := found }]

/-- The events of an update, from those of its files. -/
def allEvents (idx : StorageIndex) (order : MapOrder (Sigma fun _ : String => List String))
    (deletions additions : List StoreEvent) : List StoreEvent :=
  let slice := List.replicate (additions.length + deletions.length) ""
  -- both loops write from the start of the slice
  let modIDs := writeFront (additions.map policyID) (writeFront (deletions.map policyID) slice)
  let processed := deletions.map policyID ++ additions.map policyID
  let deps := (order.order (idx.getDependents modIDs).entries).flatMap (fun e => e.2)
  deletions ++ additions ++ depEvent processed deps

variable (x : Externals) (contents : String → RawFile)

/-- The last part of `updateIndex`: a new index is built, and the events are sent in any case. -/
def finishUpdate (poll : Poll) (s : BlobStore) (dir : WorkDir) (evts : List StoreEvent) :
    Outcome :=
  if poll.walks then
    match build x ((workTree contents dir).directory isPolicy) with
    | .error e => ⟨s, some (.buildIndex e), evts⟩
    | .ok idx => ⟨{ s with currDir := dir, idx := idx }, none, evts⟩
  else ⟨s, some .walkDir, evts⟩

/-- `updateIndex`, from where the changes are known. -/
def applyChanges (poll : Poll) (s : BlobStore) (cr : CloneResult) : Outcome :=
  if cr.isEmpty then ⟨s, none, []⟩
  else
    match cr.deleted.mapM (deleteEvent contents poll.opens s.currDir) with
    | .error e => ⟨s, some e, []⟩
    | .ok deletions =>
      if poll.prepares then
        let dir := createSymlinks poll.allOrder cr.all
        match cr.addedOrUpdated.mapM (addOrUpdateEvent contents poll.opens dir) with
        | .error e => ⟨s, some e, []⟩
        | .ok additions =>
          finishUpdate x contents poll s dir (allEvents s.idx poll.depsOrder deletions additions)
      else ⟨s, some .prepareWorkDir, []⟩

/-- `updateIndex`. -/
def updateIndex (s : BlobStore) (poll : Poll) : Outcome :=
  match clone s.cloned poll with
  | .error e => ⟨s, some (.clone e), []⟩
  | .ok cr => applyChanges x contents poll { s with cloned := cr.all } cr

/-- `init`. -/
def init (poll : Poll) : Except BlobError BlobStore :=
  match clone ∅ poll with
  | .error e => .error (.clone e)
  | .ok cr =>
    if poll.prepares && poll.walks then
      let dir := createSymlinks poll.allOrder cr.all
      match build x ((workTree contents dir).directory isPolicy) with
      | .error e => .error (.buildIndex e)
      | .ok idx => .ok { cloned := cr.all, currDir := dir, idx := idx }
    else .error .prepareWorkDir

end Blob

end AccessManagement.Storage
