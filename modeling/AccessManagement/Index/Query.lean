/-
  AccessManagement.Index.Query — QUERYING THE INDEX (`Query`, `appendRolePolicyDenies`,
  `AddParentRoles`, `ScopedResourceExists`, `ScopedPrincipalExists`).

  A query intersects the posting sets of the dimensions it restricts and leaves early as
  soon as one of them, or the intersection, is empty.  Role policies are not rules but
  ALLOW LISTS, so they are turned into DENY bindings at query time: one for each queried
  role that has a role policy in the version and scope but no list allowing the action on
  the resource, and one guarded DENY for each list that allows it under a condition.

  An unset filter (a nil bitmap in the source) is `none`.
-/
import AccessManagement.Index.State

namespace AccessManagement

open Lib

/-- `index.ResourceKind`: `sanitized` is empty when it would equal `raw`. -/
structure ResourceKind where
  raw : String
  sanitized : String
  deriving DecidableEq, Repr

/-- `NewResourceKind`. -/
def ResourceKind.new (kind : String) : ResourceKind where
  raw := kind
  sanitized :=
    let s := Namer.sanitizedResource kind
    if s = kind then "" else s

namespace Index

variable (x : Externals) (ix : Index)

/-! ## §1. The resource dimension. -/

/-- The globs that match the sanitised kind but not the raw one.  They count for principal
policies only: not at all in a query for resource policies, and masked by the principal
bindings in a query that does not restrict the policy kind. -/
def sanitizedOnlyGlobs (r : ResourceKind) (kind : Kind) : IdSet :=
  let globs := ix.resource.globs.unionWhere
    (fun g => !x.matchesGlob g r.raw && x.matchesGlob g r.sanitized)
  match kind with
  | .resource => IdSet.empty
  | .principal => globs
  | _ => globs.inter (ix.policyKind.get .principal)

/-- `resourceQuery`: the raw and the sanitised kind as literals, and the matching globs. -/
def resourceQuery (r : ResourceKind) (kind : Kind) : IdSet :=
  if r.sanitized = "" then ix.resource.query x r.raw
  else
    let literals :=
      (ix.resource.literals.get r.raw).union (ix.resource.literals.get r.sanitized)
    let rawGlobs := ix.resource.globs.unionWhere (fun g => x.matchesGlob g r.raw)
    (literals.union rawGlobs).union (ix.sanitizedOnlyGlobs x r kind)

/-! ## §2. The filters of a query. -/

/-- What a query that did not leave early goes on with. -/
structure QueryFilters where
  versionBM : Option IdSet
  scopeBM : IdSet
  roleBM : Option IdSet
  baseBM : IdSet

/-- A restriction to an exact value; `""` does not restrict.  Outer `none`: leave early. -/
def exactFilter {κ : Type} [DecidableEq κ] (d : Postings κ) (unset : κ) (value : κ) :
    Option (Option IdSet) :=
  if value = unset then some none else (d.get? value).map some

/-- A restriction to a computed set, if asked for.  Outer `none`: leave early. -/
def setFilter (restrict : Bool) (bm : IdSet) : Option (Option IdSet) :=
  if !restrict then some none else if bm.isEmpty then none else some (some bm)

variable (version : String) (resource : ResourceKind)

/-- The filters of `Query`, up to the check that their intersection is not empty. -/
def queryFilters (scope : String) (roles : List String) (kind : Kind) (principalID : String) :
    Option QueryFilters := do
  if ix.universeBitmap.isEmpty then none
  let principalBM ← exactFilter ix.principal "" principalID
  let scopeBM ← ix.scope.get? scope
  let versionBM ← exactFilter ix.version "" version
  let resourceBM ← setFilter (resource.raw ≠ "") (ix.resourceQuery x resource kind)
  let roleBM ← setFilter (!roles.isEmpty) (ix.role.queryMultiple x roles)
  let policyKindBM ← exactFilter ix.policyKind .unspecified kind
  let baseBM := IdSet.interAll scopeBM
    (versionBM.toList ++ resourceBM.toList ++ roleBM.toList ++ policyKindBM.toList ++
      principalBM.toList)
  if baseBM.isEmpty then none else some { versionBM, scopeBM, roleBM, baseBM }

/-- The bindings behind a set of IDs, in ascending order. -/
def bindingsOf (bm : IdSet) : List BindingHandle := bm.ids.filterMap ix.getBinding

/-! ## §3. Role policies as DENY bindings. -/

/-- `newNoMatchRolePolicyDeny`: the DENY of a role policy that does not list an action. -/
def newNoMatchRolePolicyDeny (role version scope resource action : String) : BindingHandle where
  core := { effect := .deny, policyKind := .resource, fromRolePolicy := true }
  action := action
  originFqn := Namer.rolePolicyFqn role version scope
  resource := resource
  role := role
  scope := scope
  version := version
  noMatchForScopePermissions := true
  id := noEvalKey

/-- What an allow list that names the action contributes: nothing for a plain list, a
binding without an effect to carry an output, or a DENY for when its condition fails (whose
outputs are swapped, because it fires when the listed rule does not). -/
def allowListBinding (action : String) (mb : BindingHandle) : Option BindingHandle :=
  match mb.core.condition with
  | none =>
    match mb.core.emitOutput with
    | none => none
    | some out => some {
        core := { emitOutput := some out, policyKind := .resource, fromRolePolicy := true
                  params := mb.core.params }
        action := action, name := mb.name, originFqn := mb.originFqn, resource := mb.resource
        role := mb.role, scope := mb.scope, version := mb.version, id := mb.id }
  | some cond => some {
      core := {
        effect := .deny
        condition := some (.none [cond])
        emitOutput :=
          match mb.core.emitOutput with
          | some { when := some w } =>
            some { when := some { ruleActivated := w.conditionNotMet
                                  conditionNotMet := w.ruleActivated } }
          | _ => none
        scopePermissions := .requireParentalConsentForAllows
        policyKind := .resource
        fromRolePolicy := true
        params := mb.core.params }
      action := action, name := mb.name, originFqn := mb.originFqn, resource := mb.resource
      role := mb.role, scope := mb.scope, version := mb.version, id := mb.id }

/-- `collectResourceActions`: the actions that the bindings of a resource refer to, except
those of principal policies. -/
def collectResourceActions (resBM : IdSet) (versionBM scopeBM : Option IdSet) : List String :=
  let bindings := ix.bindingsOf (IdSet.interAll resBM (versionBM.toList ++ scopeBM.toList))
  ((bindings.filter (fun b => b.core.policyKind ≠ .principal)).flatMap (fun b =>
    (if b.action = "" then [] else [b.action]) ++ b.allowActions.getD [])).eraseDups

/-- The DENY bindings of one role for one resource. `rep` is the first role-policy binding
of the role, `roleBindings` those that match the resource. -/
def roleDenies (role : String) (rep : BindingHandle)
    (roleBindings : List BindingHandle) (actions : List String) : List BindingHandle :=
  match roleBindings with
  | [] => actions.map (newNoMatchRolePolicyDeny role rep.version rep.scope resource.raw)
  | rb :: _ =>
    actions.flatMap (fun action =>
      let matched := roleBindings.filter (fun b => b.allowsAction x action)
      if matched.isEmpty then
        [newNoMatchRolePolicyDeny role rb.version rb.scope rb.resource action]
      else matched.filterMap (allowListBinding action))

/-- `appendRolePolicyDenies`.  The candidates deliberately ignore the resource, so that a
role policy that does not cover the resource is noticed.  No roles means every role with a
candidate; no actions means those of the resource. -/
def rolePolicyDenies (resources : List ResourceKind)
    (roles targetActions : List String) (versionBM scopeBM roleBM : Option IdSet) :
    List BindingHandle :=
  let candidateBM := IdSet.interAll ix.allowActionsBitmap
    (versionBM.toList ++ scopeBM.toList ++ roleBM.toList)
  let candidates := ix.bindingsOf candidateBM
  let roles := if roles.isEmpty then (candidates.map (·.role)).eraseDups else roles
  resources.flatMap (fun resource =>
    let resBM := ix.resourceQuery x resource .resource
    let matched := ix.bindingsOf (candidateBM.inter resBM)
    let actions :=
      if targetActions.isEmpty then ix.collectResourceActions resBM versionBM scopeBM
      else targetActions
    roles.flatMap (fun role =>
      match candidates.find? (fun b => b.role == role) with
      | none => []
      | some rep =>
        roleDenies x resource role rep (matched.filter (fun b => b.role == role)) actions))

/-! ## §4. `Query`. -/

/-- `Query`: the synthetic DENY bindings, then the indexed ones in ID order. -/
def query (scope action : String) (roles : List String) (kind : Kind) (principalID : String) :
    List BindingHandle :=
  match ix.queryFilters x version resource scope roles kind principalID with
  | none => []
  | some f =>
    let resultBM := if action = "" then f.baseBM else f.baseBM.inter (ix.action.query x action)
    let denies :=
      if action ≠ "" ∧ resource.raw ≠ "" ∧ kind = .resource ∧ ¬ ix.allowActionsBitmap.isEmpty then
        ix.rolePolicyDenies x [resource] roles [action] f.versionBM (some f.scopeBM) f.roleBM
      else []
    denies ++ ix.bindingsOf resultBM

/-! ## §5. Parent roles and existence checks. -/

/-- `AddParentRoles`: the roles, then the ancestors each has in any of the scopes. -/
def addParentRoles (scopes roles : List String) : List String :=
  roles ++ roles.flatMap (fun role =>
    scopes.flatMap (fun scope =>
      match ix.parentRoles.lookup scope with
      | none => []
      | some byRole => (byRole.lookup role).getD []))

/-- `ScopedResourceExists`: is there a resource-policy binding for the kind and version in
one of the scopes? -/
def scopedResourceExists (scopes : List String) : Bool :=
  match scopes, ix.version.get? version, ix.policyKind.get? .resource with
  | _ :: _, some versionBM, some kindBM =>
    !(IdSet.interAll versionBM
      [ix.scope.unionOver scopes, ix.resourceQuery x resource .resource, kindBM]).isEmpty
  | _, _, _ => false

/-- `ScopedPrincipalExists`: is there a principal-policy binding (of ANY principal) for the
version in one of the scopes? -/
def scopedPrincipalExists (scopes : List String) : Bool :=
  match scopes, ix.version.get? version, ix.policyKind.get? .principal with
  | _ :: _, some versionBM, some kindBM =>
    !(IdSet.interAll versionBM [ix.scope.unionOver scopes, kindBM]).isEmpty
  | _, _, _ => false

end Index

end AccessManagement
