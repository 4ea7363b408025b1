/-
  AccessManagement.Plan.Plan — THE RESOURCES PLANNER.

  `plan` answers "for which resources would the action be allowed": it walks policy kinds,
  roles and scopes like a check, but keeps the conditions on the unknown resource as nodes
  and combines them into one.  The walk differs from that of a check in three ways that the
  correctness statements have to live with:

    * resource policies come FIRST, and each kind ANDs its inverted DENY node on top of the
      tree built so far;
    * DENY nodes of resource policies are pooled over the roles, except that a constant DENY
      and a DENY of a role policy stay with their role;
    * a scope that requires parental consent leaves its ALLOW node "pending": the ALLOW node
      of the next scope that has one is ANDed to it, and if there is none the role has no
      ALLOW at all.

  Evaluation is lenient: `EvaluateCondition` always gives a node.
-/
import AccessManagement.Check.Check
import AccessManagement.Plan.Nodes

namespace AccessManagement

open Lib NodeAlgebra

/-- How conditions become nodes.  The node may depend on where the condition is evaluated
(kind and scope determine the derived roles an expression can refer to), what it denotes is a
predicate of the resource. -/
structure PlanConditions {N R : Type} (A : NodeAlgebra N R) where
  meaning : Condition → Option RowParams → R → Bool
  evaluateCondition : Kind → String → Condition → Option RowParams → N
  denote_evaluateCondition : ∀ kind scope c params r,
    A.denote (evaluateCondition kind scope c params) r = meaning c params r

/-! ## §1. The accumulators of the loops. -/

/-- The nodes of one scope. -/
structure ScopeNodes (N : Type) where
  allow : Option N := none
  deny : Option N := none
  denyRolePolicy : Option N := none

/-- The nodes of one role, as the scopes loop builds them. -/
structure RoleNodes (N : Type) where
  allow : Option N := none
  deny : Option N := none
  denyRolePolicy : Option N := none
  pendingAllow : Bool := false
  childOverrideAllow : Option N := none

/-- The nodes of one policy kind. -/
structure KindNodes (N : Type) where
  allow : Option N := none
  deny : Option N := none

/-- The tree built so far for an action. -/
structure ActionNodes (N : Type) where
  rootNode : Option N := none
  hasPolicyTypeAllow : Bool := false

/-- `planner.NodeFilter`. -/
structure NodeFilter (N : Type) where
  allowFilter : List N := []
  denyFilter : List N := []

section Planner

variable {V N R : Type} (env : CheckEnv V) {A : NodeAlgebra N R} (conds : PlanConditions A)
  (input : CheckInput)

/-! ## §2. One scope. -/

variable (kind : Kind) (scope : String)

/-- The node of an optional condition: no condition is TRUE. -/
def PlanConditions.conditionNode (c : Option Condition) (params : Option RowParams) : N :=
  match c with
  | none => A.constant true
  | some c => conds.evaluateCondition kind scope c params

/-- The node of a binding: its condition and that of its derived role. -/
def PlanConditions.bindingNode (b : BindingHandle) : N :=
  let node := conds.conditionNode kind scope b.core.condition b.core.params
  match b.core.derivedRoleCondition with
  | none => node
  | some c =>
    let drNode := conds.evaluateCondition kind scope c b.core.derivedRoleParams
    if b.core.condition.isNone then drNode else A.andOperation [node, drNode]

/-- One binding joins the nodes of its scope; a constant FALSE DENY is ignored. -/
def PlanConditions.addBinding (s : ScopeNodes N) (b : BindingHandle) : ScopeNodes N :=
  let node := conds.bindingNode kind scope b
  match b.core.effect with
  | .allow => { s with allow := addNode s.allow (some node) A.mkOrNode }
  | .deny =>
    if A.isConstBool node = some false then s
    else if b.core.fromRolePolicy then
      { s with denyRolePolicy := addNode s.denyRolePolicy (some node) A.mkOrNode }
    else { s with deny := addNode s.deny (some node) A.mkOrNode }
  | _ => s

def PlanConditions.scopeNodes (bs : List BindingHandle) : ScopeNodes N :=
  bs.foldl (conds.addBinding kind scope) {}

/-- Narrow a DENY to the resources that no more specific overriding scope allows. -/
def gateByChildOverrideAllow (A : NodeAlgebra N R) (childOverrideAllow deny : Option N) :
    Option N :=
  match deny, childOverrideAllow with
  | none, _ => none
  | some deny, none => some deny
  | some deny, some child =>
    let inv := A.invert child
    if A.isConstBool deny = some true then some inv else A.mkAndNode [inv, deny]

/-- The ALLOW node of a scope joins that of the role. -/
def joinAllow (A : NodeAlgebra N R) (roleAllow : Option N) (pendingAllow : Bool)
    (scopeAllow : N) : Option N :=
  match roleAllow with
  | none => some scopeAllow
  | some roleAllow =>
    if pendingAllow then A.mkAndNode [roleAllow, scopeAllow]
    else A.mkOrNode [roleAllow, scopeAllow]

/-- One round of the scopes loop: the nodes of a scope join those of the role. -/
def joinScope (A : NodeAlgebra N R) (permissions : ScopePermissions) (nodes : ScopeNodes N)
    (s : RoleNodes N) : RoleNodes N :=
  let deny := gateByChildOverrideAllow A s.childOverrideAllow nodes.deny
  let denyRolePolicy := gateByChildOverrideAllow A s.childOverrideAllow nodes.denyRolePolicy
  let s := { s with
    deny := addNode s.deny deny A.mkOrNode
    denyRolePolicy := addNode s.denyRolePolicy denyRolePolicy A.mkOrNode }
  match nodes.allow with
  | none => s
  | some allow =>
    { s with
      allow := joinAllow A s.allow s.pendingAllow allow
      -- consumed by the join; an ALLOW that needs consent is pending again
      pendingAllow := decide (permissions = .requireParentalConsentForAllows) ||
        (s.allow.isNone && s.pendingAllow)
      childOverrideAllow :=
        if permissions = .overrideParent then
          addNode s.childOverrideAllow (some allow) A.mkOrNode
        else s.childOverrideAllow }

/-! ## §3. The loops. -/

/-- The scopes loop.  Once a more specific scope allows unconditionally and overrides its
parent, the rest is skipped. -/
def planScopes (kind : Kind) (action role : String) : List String → RoleNodes N → RoleNodes N
  | [], s => s
  | scope :: scopes, s =>
    if A.isConstTrue s.childOverrideAllow then s
    else
      planScopes kind action role scopes (joinScope A (env.table.getScopeScopePermissions scope)
          (conds.scopeNodes kind scope (env.bindingsFor input kind action role scope)) s)

/-- How a role leaves the roles loop. -/
inductive RoleEnd (N : Type) where
  /-- An unconditional ALLOW ends the loop. -/
  | allowed (allow : Option N)
  | next (allow deny : Option N)

/-- The end of a role.  A constant DENY makes the role FALSE instead of being pooled, except
for principal policies, which have one round only. -/
def finishRole (A : NodeAlgebra N R) (kind : Kind) (s : RoleNodes N) : RoleEnd N :=
  let allow := if s.pendingAllow then none else s.allow
  if A.isConstTrue s.deny || A.isConstTrue s.denyRolePolicy then
    if kind = .principal then .next (restrict allow s.denyRolePolicy) s.deny
    else .next (some (A.constant false)) none
  else if s.deny.isNone && s.denyRolePolicy.isNone && A.isConstTrue allow then .allowed allow
  else .next (restrict allow s.denyRolePolicy) s.deny
where
  /-- An ALLOW is valid only if the role policy does not deny it. -/
  restrict (allow denyRolePolicy : Option N) : Option N :=
    match allow, denyRolePolicy with
    | some allow, some deny => A.mkAndNode [allow, A.invert deny]
    | allow, _ => allow

/-- The roles loop. -/
def planRoles (kind : Kind) (action : String) : List String → KindNodes N → KindNodes N
  | [], k => k
  | role :: roles, k =>
    match finishRole A kind (planScopes env conds input kind action role
        (env.scopesFor input kind) {}) with
    | .allowed allow => { allow := allow, deny := none }
    | .next allow deny =>
      planRoles kind action roles
        { allow := addNode k.allow allow A.mkOrNode, deny := addNode k.deny deny A.mkOrNode }

/-- The nodes of a policy kind join the tree: ALLOW by OR, then the inverted DENY by AND. -/
def joinKind (A : NodeAlgebra N R) (k : KindNodes N) (s : ActionNodes N) : ActionNodes N where
  hasPolicyTypeAllow := s.hasPolicyTypeAllow || k.allow.isSome
  rootNode :=
    let root := match k.allow, s.rootNode with
      | none, root => root
      | some allow, none => some allow
      | some allow, some root => A.mkOrNode [allow, root]
    match k.deny, root with
    | none, root => root
    | some deny, none => some (A.invert deny)
    | some deny, some root => A.mkAndNode [A.invert deny, root]

variable (action : String)

/-- Resource policies are planned before principal policies. -/
def planKinds : ActionNodes N :=
  [Kind.resource, Kind.principal].foldl (fun s kind =>
      joinKind A (planRoles env conds input kind action (CheckEnv.rolesFor input kind) {}) s) {}

/-! ## §4. The filter of an action. -/

namespace NodeFilter

def add (A : NodeAlgebra N R) (f : NodeFilter N) (filter : N) (effect : Effect) : NodeFilter N :=
  if effect = .allow then { f with allowFilter := f.allowFilter ++ [filter] }
  else { f with denyFilter := f.denyFilter ++ [A.invert filter] }

def resetToUnconditionalDeny (A : NodeAlgebra N R) (f : NodeFilter N) : NodeFilter N :=
  { f with denyFilter := [A.constant false] }

/-- The allow filters by OR, below the deny filters by AND; nothing at all is FALSE. -/
def toAST (A : NodeAlgebra N R) (f : NodeFilter N) : N :=
  match f.allowFilter, f.denyFilter with
  | [], [] => A.constant false
  | [], [d] => d
  | [], ds => A.andOperation ds
  | [a], [] => a
  | [a], ds => A.andOperation (ds ++ [a])
  | as, [] => A.orOperation as
  | as, ds => A.andOperation (ds ++ [A.orOperation as])

end NodeFilter

/-- The filter of an action. -/
def planFilter : NodeFilter N :=
  let s := planKinds env conds input action
  let nf : NodeFilter N := {}
  let nf := match s.rootNode with
    | none => nf
    | some root =>
      if s.hasPolicyTypeAllow then nf.add A root .allow else nf.resetToUnconditionalDeny A
  -- a conditional DENY becomes an unconditional one
  if nf.allowFilter.isEmpty && !nf.denyFilter.isEmpty then nf.resetToUnconditionalDeny A else nf

/-- **The plan** of an action: the node for the resources on which it is allowed.  Without a
scope for either kind everything is denied. -/
def plan : N :=
  if (env.scopesFor input .principal).isEmpty && (env.scopesFor input .resource).isEmpty then
    A.constant false
  else (planFilter env conds input action).toAST A

end Planner

end AccessManagement
