/-
  AccessManagement.Policy.Units — COMPILING A WHOLE UNIT (`compile.Compile`).

  A compilation unit is a policy together with everything it draws on: what it imports,
  directly or through an import, and its ancestors with what those import.  Definitions are
  known by their fully-qualified names (the source's module IDs are hashes of them).

  A compiled resource or principal policy holds the policies of the whole scope chain.  The
  SCHEMAS in force are those of the last one, the policy without a scope.

  What the variables and constants of a module come to is `Resolver`'s business: everything
  here holds whatever it makes of them.  No schema manager is passed (as the compile manager
  does it), so references to schemas are not followed.  Where several policies of a chain have
  errors, the source collects them all; here those of the first one are reported.
-/
import AccessManagement.Policy.Modules

namespace AccessManagement

/-! ## §1. Units. -/

/-- Policies by their fully-qualified names. -/
abbrev Definitions := AList (fun _ : String => Source.Policy)

/-- `policy.CompilationUnit`. -/
structure CompilationUnit where
  modID : String
  definitions : Definitions

inductive UnitError where
  | compile (e : CompileError)
  | resolve (description : String)
  | invalidCompilationUnit (modID : String)
  | unexpected (description : String)
  | missingAncestor (policyKey : String)
  deriving DecidableEq, Repr

/-- What `compilePolicyConstants`, `compilePolicyVariables` and the accounting of what is
used make of the variables and constants of a module: errors, the parameters of its rules,
and those of each derived role it defines. -/
structure Resolver where
  issues : Definitions → Source.Policy → List String
  policyParams : Definitions → Source.Policy → Params
  roleParams : Definitions → Source.Policy → String → Params

/-- `RunnablePolicySet`, with the schemas of a resource policy set. -/
structure RunnablePolicySet where
  policySet : PolicySet
  schemas : Option Source.Schemas := none

def PolicySet.fqn : PolicySet → String
  | .resourcePolicy fqn _ _ _ => fqn
  | .principalPolicy fqn _ _ _ => fqn
  | .rolePolicy fqn _ _ _ _ _ _ _ => fqn

/-! ## §2. The policies of a unit. -/

section Compile

variable (c : CelCompiler) (rs : Resolver) (defs : Definitions)

variable (p : Source.Policy)

def resolveErrors : List UnitError := (rs.issues defs p).map .resolve

/-- The sets of derived roles among the definitions. -/
def derivedRolesSets : List (Source.DerivedRoles String) :=
  defs.entries.filterMap (fun d =>
    match d.2.policyType with
    | .derivedRoles dr => some dr.toDerivedRoles
    | _ => none)

/-- The definitions that a resource policy imports derived roles from. -/
def importedModules (rp : Source.ResourceModule) : List Source.Policy :=
  rp.importDerivedRoles.filterMap (fun imp => defs.lookup (Namer.derivedRolesFqn imp))

/-- A derived role with the parameters that its module gives it. -/
def withRoleParams (dr : String × RunnableDerivedRole) : String × RunnableDerivedRole :=
  match defs.lookup dr.2.originFqn with
  | none => dr
  | some p =>
    (dr.1, { dr.2 with
      orderedVariables := (rs.roleParams defs p dr.1).orderedVariables
      constants := (rs.roleParams defs p dr.1).constants })

/-- `compileResourcePolicy`, for a module of a unit: errors in the imports stop it. -/
def compileResourceModule (rp : Source.ResourceModule) : Except (List UnitError) ResourcePolicy :=
  match (importErrors c (derivedRolesSets defs) rp.toResourcePolicy).map .compile ++
      (importedModules defs rp).flatMap (resolveErrors rs defs) with
  | [] =>
    match resolveErrors rs defs p ++
        (rp.rules.mapIdx (fun i rule => ruleErrors c rule (i + 1))).flatten.map .compile with
    | [] =>
      let assembled := assembleResourcePolicy c (derivedRolesSets defs) rp.toResourcePolicy
      .ok { assembled with
        derivedRoles := assembled.derivedRoles.map (withRoleParams rs defs)
        orderedVariables := (rs.policyParams defs p).orderedVariables
        constants := (rs.policyParams defs p).constants }
    | errs => .error errs
  | errs => .error errs

/-- One action of `compilePrincipalPolicy`, at a position (counted from 1). -/
def compilePrincipalAction (resource : String) (action : Source.PrincipalAction) (idx : Nat) :
    PrincipalActionRule where
  action := action.action
  name := Namer.principalResourceActionRuleName action.name resource idx
  condition := compileCondition c action.condition
  effect := action.effect
  output := none
  emitOutput := none

/-- The map of `compilePrincipalPolicy`: a later rule for a resource replaces an earlier one. -/
def principalResourceRules (rules : List Source.PrincipalRule) :
    AList (fun _ : String => List PrincipalActionRule) :=
  rules.foldl (fun resourceRules rule => resourceRules.insert rule.resource
    (rule.actions.mapIdx (fun i action =>
      compilePrincipalAction c rule.resource action (i + 1)))) ∅

/-- `compilePrincipalPolicy`. -/
def compilePrincipalModule (pp : Source.PrincipalModule) :
    Except (List UnitError) PrincipalPolicy :=
  match resolveErrors rs defs p ++ (pp.rules.flatMap (fun rule =>
        rule.actions.flatMap (fun action => conditionErrors c action.condition))).map .compile with
  | [] => .ok {
      scope := pp.scope
      resourceRules := (principalResourceRules c pp.rules).entries.map (fun e => (e.1, e.2))
      scopePermissions := pp.scopePermissions.normalise
      orderedVariables := (rs.policyParams defs p).orderedVariables
      constants := (rs.policyParams defs p).constants }
  | errs => .error errs

/-- One rule of `compileRolePolicySet`. -/
def compileRoleRule (rule : Source.RoleRule) : RoleRule where
  name := rule.name
  allowActions := rule.allowActions.eraseDups
  condition := compileCondition c rule.condition
  emitOutput := none

/-- The map of `compileRolePolicySet`: the rules of each resource, in their order. -/
def roleResources (rules : List Source.RoleRule) : AList (fun _ : String => List RoleRule) :=
  rules.foldl (fun resources rule => resources.insert rule.resource
    ((resources.lookup rule.resource).getD [] ++ [compileRoleRule c rule])) ∅

/-- `compileRolePolicySet`. -/
def compileRoleModule (rp : Source.RoleModule) : Except (List UnitError) PolicySet :=
  match resolveErrors rs defs p ++
      (rp.rules.flatMap (fun rule => conditionErrors c rule.condition)).map .compile with
  | [] => .ok (.rolePolicy p.fqn rp.role
      (if rp.version = "" then Namer.defaultVersion else rp.version) rp.scope rp.parentRoles
      ((roleResources c rp.rules).entries.map (fun e => (e.1, e.2)))
      (rs.policyParams defs p).orderedVariables (rs.policyParams defs p).constants)
  | errs => .error errs

/-! ## §3. The unit. -/

/-- The ancestors that are not in the unit. -/
def missingAncestors : List UnitError :=
  (p.ancestors.filter (fun fqn => (defs.lookup fqn).isNone)).map
    (fun fqn => .missingAncestor (Namer.policyKeyFromFqn fqn))

/-- The ancestors of a policy, each compiled with `compile`. -/
def compileAncestors {α : Type} (compile : Source.Policy → Except (List UnitError) α)
    (missing : List UnitError) : List String → Except (List UnitError) (List α)
  | [] => .ok []
  | fqn :: fqns =>
    match defs.lookup fqn with
    | none => .error missing
    | some p =>
      match compile p with
      | .error errs => .error errs
      | .ok a =>
        match compileAncestors compile missing fqns with
        | .error errs => .error errs
        | .ok as => .ok (a :: as)

/-- `compileResourcePolicy` at its start: the definition has to be a resource policy.  The
schemas of the policy come along. -/
def compileResourceAt : Except (List UnitError) (ResourcePolicy × Option Source.Schemas) :=
  match p.policyType with
  | .resourcePolicy rp =>
    match compileResourceModule c rs defs p rp with
    | .error errs => .error errs
    | .ok compiled => .ok (compiled, rp.schemas)
  | _ => .error [.unexpected "Not a resource policy definition"]

/-- `compilePrincipalPolicy` at its start. -/
def compilePrincipalAt : Except (List UnitError) PrincipalPolicy :=
  match p.policyType with
  | .principalPolicy pp => compilePrincipalModule c rs defs p pp
  | _ => .error [.unexpected "Not a principal policy definition"]

/-- `Compile`: nothing comes out for a policy that is there to be imported. -/
def compileUnit (unit : CompilationUnit) : Except (List UnitError) (Option RunnablePolicySet) :=
  match unit.definitions.lookup unit.modID with
  | none => .error [.invalidCompilationUnit unit.modID]
  | some p =>
    let missing := missingAncestors unit.definitions p
    match p.policyType with
    | .resourcePolicy rp =>
      match compileAncestors unit.definitions (compileResourceAt c rs unit.definitions) missing
          (unit.modID :: p.ancestors) with
      | .error errs => .error errs
      | .ok chain => .ok (some {
          policySet := .resourcePolicy p.fqn rp.resource rp.version (chain.map (·.1))
          -- only the schemas of the root policy are in effect
          schemas := (chain.getLast?.map (·.2)).join })
    | .principalPolicy pp =>
      match compileAncestors unit.definitions (compilePrincipalAt c rs unit.definitions) missing
          (unit.modID :: p.ancestors) with
      | .error errs => .error errs
      | .ok chain => .ok (some {
          policySet := .principalPolicy p.fqn pp.principal pp.version chain })
    | .rolePolicy rp =>
      match compileRoleModule c rs unit.definitions p rp with
      | .error errs => .error errs
      | .ok set => .ok (some { policySet := set })
    | _ => .ok none

end Compile

end AccessManagement
