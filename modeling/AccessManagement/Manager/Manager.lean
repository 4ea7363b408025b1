/-
  AccessManagement.Manager.Manager — THE RULE TABLE MANAGER (`ruletable/manager.go`).

  The manager keeps a rule table up to date.  A storage event names a policy that has changed,
  the policy that its file held before, and the policies that depend on it; the manager removes
  what is stale and adds what the policy loader returns.  Every removal and every addition is a
  WRITE of its own: it takes the write lock, changes the table and releases the lock again.

  `processPolicyEvent` therefore returns the table after each write, not only the last one.  An
  addition that fails is a write too: it leaves the table as far as it got.

  Left out: the caches of compiled programs, source attributes and annotations of metadata.
-/
import Mathlib.Data.Finset.Filter
import AccessManagement.Policy.Units
import AccessManagement.RuleTable.Table

namespace AccessManagement

open Lib

/-! ## §1. The table with its metadata and schemas. -/

/-- `RuleTableMetadata`, as far as it is read; the role is empty except for role policies. -/
structure Metadata where
  fqn : String
  role : String := ""
  deriving DecidableEq, Repr

/-- What `AddPolicy` enters as metadata. -/
def PolicySet.metadata : PolicySet → Option Metadata
  | .resourcePolicy fqn _ _ (_ :: _) => some { fqn := fqn }
  | .principalPolicy fqn _ _ (_ :: _) => some { fqn := fqn }
  | .rolePolicy fqn role _ _ _ _ _ _ => some { fqn := fqn, role := role }
  | _ => none

/-- What `addResourcePolicy` enters as schemas. -/
def RunnablePolicySet.effectiveSchemas (rps : RunnablePolicySet) : Option Source.Schemas :=
  match rps.policySet with
  | .resourcePolicy _ _ _ (_ :: _) => rps.schemas
  | _ => none

/-- The rule table of a manager.  Module IDs are hashes of policy names. -/
structure Manager extends RuleTable where
  schemas : AList (fun _ : UInt64 => Source.Schemas)
  metadata : AList (fun _ : UInt64 => Metadata)

/-- `ScopeFromFQN`: what follows the first slash. -/
def Namer.scopeFromFqn (fqn : String) : String :=
  String.ofList ((fqn.toList.dropWhile (· ≠ '/')).drop 1)

/-- `Tracked`. -/
def Tracker.tracked (t : Tracker) (scope : String) : Bool :=
  !((t.scopes.lookup scope).getD ∅).entries.isEmpty

/-- `Check`: the policies that a setting would be in conflict with. -/
def Tracker.check (t : Tracker) (kind : Kind) (policyKey scope : String) (sp : ScopePermissions)
    (ignoredPolicyKey : String) : List (String × ScopePermissions) :=
  if kind = .resource ∨ kind = .principal then
    (((t.scopes.lookup scope).getD ∅).entries.filter (fun e =>
      decide (e.1 ≠ policyKey ∧ e.1 ≠ ignoredPolicyKey ∧ e.2 ≠ sp.normalise))).map
      (fun e => (e.1, e.2))
  else []

/-- The module ID of a policy set. -/
def PolicySet.modID (x : Externals) (ps : PolicySet) : UInt64 := x.hasher.str ps.fqn

/-- What `checkScopePermissions` compares: kind, scope and setting of the first policy. -/
def PolicySet.setting : PolicySet → Option (Kind × String × ScopePermissions)
  | .resourcePolicy _ _ _ (p :: _) => some (.resource, p.scope, p.scopePermissions)
  | .principalPolicy _ _ _ (p :: _) => some (.principal, p.scope, p.scopePermissions)
  | _ => none

namespace Manager

/-- A manager of an empty table. -/
def new : Manager where
  toRuleTable := RuleTable.new
  schemas := ∅
  metadata := ∅

/-! ## §2. Writes. -/

variable (x : Externals) (m : Manager) (rps : RunnablePolicySet)

/-- `AddPolicy` beside the rule table: metadata, and schemas if there are any. -/
def noteMetadata : Manager :=
  { m with
    metadata :=
      match rps.policySet.metadata with
      | none => m.metadata
      | some entry => m.metadata.insert (rps.policySet.modID x) entry
    schemas :=
      match rps.effectiveSchemas with
      | none => m.schemas
      | some s => m.schemas.insert (rps.policySet.modID x) s }

/-- `addPolicy`; an error carries the table as the failed call leaves it. -/
def addPolicy : Except Manager Manager :=
  match m.toRuleTable.ingestPolicy x rps.policySet with
  | .error t => .error { m.noteMetadata x rps with toRuleTable := t }
  | .ok t => .ok { m.noteMetadata x rps with toRuleTable := t }

/-- The parent roles without those of a role in a scope; a scope goes with its last role. -/
def dropParentRoles (spr : AList (fun _ : String => AList (fun _ : String => List String)))
    (scope role : String) : AList (fun _ : String => AList (fun _ : String => List String)) :=
  match spr.lookup scope with
  | none => spr
  | some roles =>
    if (roles.erase role).entries.isEmpty then spr.erase scope
    else spr.insert scope (roles.erase role)

/-- `doDeletePolicy` for a policy that is loaded. -/
def doDeletePolicy (modID : UInt64) (entry : Metadata) : Manager :=
  let idx := m.idx.deletePolicy entry.fqn
  let activeScopes := idx.scope.keys
  let scope := Namer.scopeFromFqn entry.fqn
  let scopeParentRoles :=
    if entry.role = "" then m.scopeParentRoles
    else dropParentRoles m.scopeParentRoles scope entry.role
  let tracker := m.scopePermsTracker.remove (Namer.policyKeyFromFqn entry.fqn)
  { m with
    idx :=
      if entry.role = "" then idx
      else { idx with parentRoles := RuleTable.compileParentRoleAncestors scopeParentRoles }
    scopeParentRoles := scopeParentRoles
    -- the scopes of all kinds of policies are active in both maps
    principalScopeMap := m.principalScopeMap.filter (· ∈ activeScopes)
    resourceScopeMap := m.resourceScopeMap.filter (· ∈ activeScopes)
    scopePermsTracker := tracker
    scopeScopePermissions :=
      if tracker.tracked scope then m.scopeScopePermissions
      else m.scopeScopePermissions.erase scope
    schemas := m.schemas.erase modID
    metadata := m.metadata.erase modID
    policyDerivedRoles := m.policyDerivedRoles.erase modID }

/-- `deletePolicy`: a module without metadata is not loaded. -/
def deletePolicy (modID : UInt64) : Manager :=
  match m.metadata.lookup modID with
  | none => m
  | some entry => m.doDeletePolicy modID entry

/-- `finalizeBuild`: the transport map is cleared when a table has been built. -/
def finalizeBuild : Manager := { m with toRuleTable := m.toRuleTable.finalizeBuild }

/-- `checkPolicy`: the conflicts of a policy, without the one that it replaces. -/
def checkPolicy (oldPolicyID : Option UInt64) : List (String × ScopePermissions) :=
  let ignoredPolicyKey := ((oldPolicyID.bind m.metadata.lookup).map
    (fun entry => Namer.policyKeyFromFqn entry.fqn)).getD ""
  match rps.policySet.setting with
  | none => []
  | some (kind, scope, sp) =>
    m.scopePermsTracker.check kind (Namer.policyKeyFromFqn rps.policySet.fqn) scope sp
      ignoredPolicyKey

/-! ## §3. Events. -/

/-- The kinds of events about policies. -/
inductive PolicyEventKind where
  | addOrUpdatePolicy | deleteOrDisablePolicy
  deriving DecidableEq, Repr

/-- `storage.Event` for a policy. -/
structure PolicyEvent where
  kind : PolicyEventKind
  policyID : UInt64
  oldPolicyID : Option UInt64 := none
  dependents : List UInt64 := []

/-- `policyloader.PolicyLoader`, at the time of an event. -/
structure PolicyLoader where
  getFirstMatch : List UInt64 → Except String (Option RunnablePolicySet)
  getAllMatching : List UInt64 → Except String (List RunnablePolicySet)

inductive EventError where
  | loadPolicy (cause : String)
  | rejected (policyKey : String) (conflicts : List (String × ScopePermissions))
  | index
  | loadDependents (cause : String)
  deriving DecidableEq, Repr

/-- One section under the write lock. -/
inductive Write where
  | delete (modID : UInt64)
  | add (rps : RunnablePolicySet)

/-- A write, with the table that it leaves. -/
def runWrite : Write → Except Manager Manager
  | .delete modID => .ok (m.deletePolicy modID)
  | .add rps => m.addPolicy x rps

/-- Writes up to the first that fails: the table after each of them, and the error. -/
def runWrites (x : Externals) : Manager → List Write → List Manager × Option EventError
  | _, [] => ([], none)
  | m, w :: ws =>
    match m.runWrite x w with
    | .error m' => ([m'], some .index)
    | .ok m' =>
      let (tables, error) := runWrites x m' ws
      (m' :: tables, error)

/-- The first half of `processPolicyEvent`: the policy itself.  Nothing is written before the
policy is loaded and checked. -/
def policyWrites (loader : PolicyLoader) (m : Manager) (evt : PolicyEvent) :
    Except EventError (List Write) :=
  match evt.kind with
  | .addOrUpdatePolicy =>
    match loader.getFirstMatch [evt.policyID] with
    | .error cause => .error (.loadPolicy cause)
    | .ok rps =>
      match rps.map (fun rps => (rps, m.checkPolicy rps evt.oldPolicyID)) with
      | some (rps, c :: cs) =>
        .error (.rejected (Namer.policyKeyFromFqn rps.policySet.fqn) (c :: cs))
      | _ => .ok (.delete evt.policyID :: evt.oldPolicyID.toList.map .delete ++ rps.toList.map .add)
  | .deleteOrDisablePolicy => .ok [.delete evt.policyID]

/-- The second half: the dependents, once all of them are loaded. -/
def dependentWrites (loader : PolicyLoader) (evt : PolicyEvent) : Except EventError (List Write) :=
  if evt.dependents.isEmpty then .ok []
  else
    match loader.getAllMatching evt.dependents with
    | .error cause => .error (.loadDependents cause)
    | .ok toReload => .ok (evt.dependents.map .delete ++ toReload.map .add)

/-- `processPolicyEvent`: the table after each write, and the error. -/
def processPolicyEvent (x : Externals) (loader : PolicyLoader) (m : Manager) (evt : PolicyEvent) :
    List Manager × Option EventError :=
  match policyWrites loader m evt with
  | .error e => ([], some e)
  | .ok writes =>
    match m.runWrites x writes with
    | (tables, some e) => (tables, some e)
    | (tables, none) =>
      match dependentWrites loader evt with
      | .error e => (tables, some e)
      | .ok writes' =>
        let (tables', error) := (tables.getLastD m).runWrites x writes'
        (tables ++ tables', error)

/-- The table that an event leaves. -/
def afterEvent (x : Externals) (loader : PolicyLoader) (m : Manager) (evt : PolicyEvent) : Manager :=
  (m.processPolicyEvent x loader evt).1.getLastD m

end Manager

end AccessManagement
