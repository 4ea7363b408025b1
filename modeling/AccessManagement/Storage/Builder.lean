/-
  AccessManagement.Storage.Builder — BUILDING THE STORAGE INDEX FROM A DIRECTORY.

  The builder walks the files once, in any order, so it notes what it has not seen yet: imports
  in `missing`, ancestors of scoped policies in `missingScopes`.  An entry goes when the module
  turns up.  A missing ancestor of a RESOURCE policy is also forgiven when a role policy with a
  rule for the resource is found in the ancestor's scope, before or after; `missingResourceScopes`
  and `foundRolePolicyResourceScopes` are there for the two orders.  What is left at the end
  fails the build.

  Left out: positions and contexts in the reports, statistics.
-/
import AccessManagement.RuleTable.Table
import AccessManagement.Storage.Index

namespace AccessManagement.Storage

open Lib Namer

/-! ## §1. State. -/

/-- `IndexBuildErrors.MissingImport`. -/
structure MissingImport where
  importingFile : String
  importingPolicy : String
  importKind : String
  importName : String
  deriving DecidableEq, Repr

/-- `IndexBuildErrors.DuplicateDef`. -/
structure DuplicateDef where
  file : String
  otherFile : String
  policy : String
  deriving DecidableEq, Repr

/-- `indexBuilder`: the maps of the index and what is missing so far. -/
structure IndexBuilder extends StorageIndex where
  missingScopes : SetMap String String
  scopePermsTracker : Tracker
  /-- By resource and scope, the versions. -/
  missingResourceScopes : AList (fun _ : String => SetMap String String)
  foundRolePolicyResourceScopes : AList (fun _ : String => SetMap String String)
  missing : AList (fun _ : String => List MissingImport)
  duplicates : List DuplicateDef
  loadFailures : List (String × String)
  disabled : List (String × String)

/-- `newIndexBuilder`. -/
def newIndexBuilder : IndexBuilder where
  toStorageIndex := StorageIndex.empty
  missingScopes := ∅
  scopePermsTracker := Tracker.new
  missingResourceScopes := ∅
  foundRolePolicyResourceScopes := ∅
  missing := ∅
  duplicates := []
  loadFailures := []
  disabled := []

/-! ## §2. Names. -/

/-- `strings.Cut` at the first slash. -/
def cutSlash (s : String) : String × String :=
  (String.ofList (s.toList.takeWhile (· ≠ '/')),
    String.ofList ((s.toList.dropWhile (· ≠ '/')).drop 1))

/-- What stands behind the last `.v`. -/
def afterLastV : List Char → Option (List Char)
  | [] => none
  | c :: cs =>
    match afterLastV cs with
    | some after => some after
    | none => if c = '.' ∧ cs.head? = some 'v' then some cs.tail else none

/-- The version in the base of a policy key, empty where there is none. -/
def keyVersion (base : String) : String := ((afterLastV base.toList).map String.ofList).getD ""

example : cutSlash "resource.doc.v1/a.b" = ("resource.doc.v1", "a.b") ∧
    keyVersion "resource.doc.v1" = "1" := by decide

/-- `strings.HasPrefix`. -/
def hasStart (start s : String) : Bool := start.toList.isPrefixOf s.toList

/-- `strings.CutPrefix`. -/
def cutStart (start s : String) : Option String :=
  if hasStart start s then some (String.ofList (s.toList.drop start.length)) else none

theorem hasStart_iff {start s : String} : hasStart start s = true ↔ start.toList <+: s.toList :=
  List.isPrefixOf_iff_prefix

/-- `strings.TrimPrefix`. -/
def trimStart (start s : String) : String := (cutStart start s).getD s

/-- `policy.KindFromFQN`, which is only called with names of policies. -/
def kindFromFqn (fqn : String) : Kind :=
  if hasStart resourcePoliciesPrefix fqn then .resource
  else if hasStart principalPoliciesPrefix fqn then .principal
  else if hasStart derivedRolesPrefix fqn then .derivedRoles
  else if hasStart exportConstantsPrefix fqn then .exportConstants
  else if hasStart exportVariablesPrefix fqn then .exportVariables
  else if hasStart rolePoliciesPrefix fqn then .rolePolicy
  else .unspecified

/-- The texts for the kinds of imports. -/
def importKindText (dep : String) : String :=
  match kindFromFqn dep with
  | .derivedRoles => "derived roles"
  | .exportConstants => "constants"
  | _ => "variables"

/-- `namer.SimpleName`. -/
def simpleName (fqn : String) : String :=
  trimStart (derivedRolesPrefix ++ ".") (trimStart (exportConstantsPrefix ++ ".")
    (trimStart (exportVariablesPrefix ++ ".") fqn))

variable (p : Source.Policy)

/-- `Wrapper.Scope`. -/
def wrapperScope : String :=
  match p.policyType with
  | .resourcePolicy m => m.scope
  | .principalPolicy m => m.scope
  | .rolePolicy m => m.scope
  | _ => ""

/-- The setting that a policy has for its scope. -/
def scopePermission : ScopePermissions :=
  match p.policyType with
  | .resourcePolicy m => m.scopePermissions
  | .principalPolicy m => m.scopePermissions
  | _ => .unspecified

/-- The resource of a resource policy; empty for the others. -/
def resourceKind : String :=
  match p.policyType with
  | .resourcePolicy m => m.resource
  | _ => ""

/-! ## §3. `addPolicy`. -/

namespace IndexBuilder

/-- A policy that carries rules is executable. -/
def isExecutable (p : Source.Policy) : Bool :=
  p.kind == .resource || p.kind == .principal || p.kind == .rolePolicy

variable (x : Externals) (b : IndexBuilder)

/-- The maps of the index, and nothing is missing any more that is this policy. -/
def register (file : String) (p : Source.Policy) : IndexBuilder :=
  { b with
    fileToModID := b.fileToModID.insert file p.fqn
    modIDToFile := b.modIDToFile.insert p.fqn file
    executables := if isExecutable p then b.executables.insert p.fqn else b.executables
    missing := b.missing.erase p.fqn
    missingScopes := b.missingScopes.erase (policyKeyFromFqn p.fqn) }

/-- A version of a resource is no longer missing in a scope. -/
def resourceFound (resource scope version : String) : IndexBuilder :=
  let scopes := ((b.missingResourceScopes.lookup resource).getD ∅).dropMember scope version
  { b with
    missingResourceScopes :=
      if scopes.entries.isEmpty then b.missingResourceScopes.erase resource
      else b.missingResourceScopes.insert resource scopes }

/-- A rule of a role policy makes up for a resource policy that is missing in its scope. -/
def roleRuleCovers (rp : Source.RoleModule) (version : String)
    (rule : Source.RoleRule) (b : IndexBuilder) (resource : String) : IndexBuilder :=
  match b.missingResourceScopes.lookup resource with
  | none => b
  | some scopes =>
    if x.matchesGlob rule.resource resource && (scopes.lookup rp.scope).isSome then
      { b with
        missingScopes := b.missingScopes.erase (policyKeyFromFqn
          (resourcePolicyFqn resource version rp.scope))
        missingResourceScopes :=
          b.missingResourceScopes.insert resource (scopes.dropMember rp.scope version) }
    else b

/-- A rule of a role policy: what it makes up for now, and a note for later. -/
def addRoleRule (rp : Source.RoleModule) (b : IndexBuilder)
    (rule : Source.RoleRule) : IndexBuilder :=
  let version := if rp.version = "" then defaultVersion else rp.version
  let b := b.missingResourceScopes.keys.foldl (roleRuleCovers x rp version rule) b
  { b with
    foundRolePolicyResourceScopes := b.foundRolePolicyResourceScopes.insert rule.resource
      (((b.foundRolePolicyResourceScopes.lookup rule.resource).getD ∅).addMember rp.scope version) }

/-- What the kind of the policy asks for. -/
def noteKind (p : Source.Policy) : IndexBuilder :=
  match p.policyType with
  | .resourcePolicy rp => b.resourceFound rp.resource rp.scope rp.version
  | .rolePolicy rp => rp.rules.foldl (addRoleRule x rp) b
  | _ => b

def track (p : Source.Policy) : IndexBuilder :=
  { b with
    scopePermsTracker := b.scopePermsTracker.add p.kind (policyKeyFromFqn p.fqn)
      (wrapperScope p) (scopePermission p) }

/-- One import: it may not have been loaded yet, because the walk is not over. -/
def addImport (file : String) (p : Source.Policy) (b : IndexBuilder) (dep : String) :
    IndexBuilder :=
  let b := { b with toStorageIndex := b.toStorageIndex.addDep p.fqn dep }
  match b.modIDToFile.lookup dep with
  | some _ => b
  | none =>
    { b with
      missing := b.missing.insert dep ((b.missing.lookup dep).getD [] ++ [{
        importingFile := file
        importingPolicy := policyKeyFromFqn p.fqn
        importKind := importKindText dep
        importName := simpleName dep }]) }

/-- A role policy that was found has a rule for a resource, in a scope and a version. -/
def roleCovers (resource scope version : String) : Bool :=
  b.foundRolePolicyResourceScopes.entries.any (fun found =>
    x.matchesGlob found.1 resource && (found.2.members scope).contains version)

/-- One ancestor that has to be there. -/
def requireAncestor (p : Source.Policy) (b : IndexBuilder) (fqn : String) : IndexBuilder :=
  let ancestorKey := policyKeyFromFqn fqn
  let policyKey := policyKeyFromFqn p.fqn
  match b.modIDToFile.lookup fqn with
  | some _ => b
  | none =>
    if resourceKind p = "" then
      { b with missingScopes := b.missingScopes.addMember ancestorKey policyKey }
    else
      let scope := (cutSlash ancestorKey).2
      let version := keyVersion (cutSlash ancestorKey).1
      -- a role policy in the scope of the ancestor is enough
      if b.roleCovers x (resourceKind p) scope version then b
      else
        { b with
          missingResourceScopes := b.missingResourceScopes.insert (resourceKind p)
            (((b.missingResourceScopes.lookup (resourceKind p)).getD ∅).addMember scope version)
          missingScopes := b.missingScopes.addMember ancestorKey policyKey }

/-- `addPolicy`. -/
def addPolicy (file : String) (p : Source.Policy) : IndexBuilder :=
  match (b.modIDToFile.lookup p.fqn).filter (· ≠ file) with
  | some otherFile =>
    { b with duplicates := b.duplicates ++ [⟨file, otherFile, policyKeyFromFqn p.fqn⟩] }
  | none =>
    let b := ((b.register file p).noteKind x p).track p
    let b := p.dependencies.foldl (addImport file p) b
    p.ancestors.foldl (requireAncestor x p) b

end IndexBuilder

/-! ## §4. `build`. -/

/-- What the walk finds in a file. -/
inductive FileContent where
  /-- The file cannot be read, has errors, or its policy is not valid. -/
  | loadFailure (errors : List String)
  | noPolicy
  | disabled (p : Source.Policy)
  | policy (p : Source.Policy)

/-- The files of a directory, in the order of the walk. -/
abbrev Directory := AList (fun _ : String => FileContent)

/-- `BuildError`. -/
structure BuildError where
  missingImports : List MissingImport
  missingScopeDetails : List (String × List String)
  duplicateDefs : List DuplicateDef
  loadFailures : List (String × String)
  disabledDefs : List (String × String)
  scopePermissionsConflicts : List String
  deriving DecidableEq, Repr

namespace IndexBuilder

/-- The function that `build` walks the directory with. -/
def addContent (x : Externals) (b : IndexBuilder) (file : String) (content : FileContent) :
    IndexBuilder :=
  match content with
  | .loadFailure errors => { b with loadFailures := b.loadFailures ++ errors.map (file, ·) }
  | .noPolicy => b
  | .disabled p => { b with disabled := b.disabled ++ [(file, policyKeyFromFqn p.fqn)] }
  | .policy p => b.addPolicy x file p

/-- The builder after the walk. -/
def walk (x : Externals) (dir : Directory) : IndexBuilder :=
  dir.entries.foldl (fun b e => b.addContent x e.1 e.2) newIndexBuilder

/-- `build` of the builder. -/
def build (b : IndexBuilder) : Except BuildError StorageIndex :=
  let conflicts := b.scopePermsTracker.conflicts
  let nErr := b.missing.entries.length + b.duplicates.length + b.loadFailures.length +
    b.missingScopes.entries.length + conflicts.length
  if nErr > 0 then
    .error {
      missingImports := b.missing.entries.flatMap (·.2)
      missingScopeDetails := b.missingScopes.entries.map (fun e => (e.1, e.2))
      duplicateDefs := b.duplicates
      loadFailures := b.loadFailures
      disabledDefs := b.disabled
      scopePermissionsConflicts := conflicts }
  else .ok b.toStorageIndex

end IndexBuilder

/-- `Build`. -/
def build (x : Externals) (dir : Directory) : Except BuildError StorageIndex :=
  (IndexBuilder.walk x dir).build

end AccessManagement.Storage
