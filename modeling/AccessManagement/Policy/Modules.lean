/-
  AccessManagement.Policy.Modules — POLICIES AS MODULES (packages `policy` and `namer`).

  A policy file holds one of six types of policies.  Three of them carry rules, the other
  three are there to be IMPORTED: derived roles, constants, variables.  A policy is known
  everywhere by its fully-qualified name, and it draws on other policies in two ways:

    * `dependencies` — what it imports by name;
    * `ancestors`    — the policies of the same name in the enclosing scopes.

  Left out: descriptions, metadata, the `disabled` flag, outputs of rules, JSON schemas.
-/
import AccessManagement.Policy.Compile

namespace AccessManagement

open Namer

/-! ## §1. The six types of policies. -/

namespace Source

/-- `policy.v1.Variables`. -/
structure Variables where
  imports : List String := []
  locals : List (String × String) := []
  deriving Repr

/-- `policy.v1.Constants`. -/
structure Constants where
  imports : List String := []
  locals : List (String × Value) := []
  deriving Repr

/-- `policy.v1.Schemas.Schema`; `ignoreWhen` lists the actions the schema is not for. -/
structure Schema where
  ref : String
  ignoreWhen : Option (List String) := none
  deriving DecidableEq, Repr

/-- `policy.v1.Schemas`. -/
structure Schemas where
  principalSchema : Option Schema := none
  resourceSchema : Option Schema := none
  deriving DecidableEq, Repr

/-- A resource policy with what is resolved or looked up beside its rules. -/
structure ResourceModule extends ResourcePolicy String where
  policyVariables : Variables := {}
  policyConstants : Constants := {}
  schemas : Option Schemas := none
  deriving Repr

/-- `policy.v1.PrincipalRule.Action`. -/
structure PrincipalAction where
  action : String
  effect : Effect
  condition : Option (Match String) := .none
  name : String := ""
  deriving Repr

/-- `policy.v1.PrincipalRule`. -/
structure PrincipalRule where
  resource : String
  actions : List PrincipalAction
  deriving Repr

/-- `policy.v1.PrincipalPolicy`. -/
structure PrincipalModule where
  principal : String
  version : String
  scope : String := ""
  scopePermissions : ScopePermissions := .unspecified
  rules : List PrincipalRule
  policyVariables : Variables := {}
  policyConstants : Constants := {}
  deriving Repr

/-- `policy.v1.RoleRule`. -/
structure RoleRule where
  resource : String
  allowActions : List String
  condition : Option (Match String) := .none
  name : String := ""
  deriving Repr

/-- `policy.v1.RolePolicy`. -/
structure RoleModule where
  role : String
  version : String := ""
  scope : String := ""
  parentRoles : List String := []
  rules : List RoleRule
  policyVariables : Variables := {}
  policyConstants : Constants := {}
  deriving Repr

/-- `policy.v1.DerivedRoles`. -/
structure DerivedRolesModule extends DerivedRoles String where
  policyVariables : Variables := {}
  policyConstants : Constants := {}
  deriving Repr

/-- The `policy_type` of a policy. -/
inductive PolicyType where
  | resourcePolicy (p : ResourceModule)
  | principalPolicy (p : PrincipalModule)
  | rolePolicy (p : RoleModule)
  | derivedRoles (p : DerivedRolesModule)
  | exportConstants (name : String) (definitions : List (String × Value))
  | exportVariables (name : String) (definitions : List (String × String))
  deriving Repr

/-- `policy.v1.Policy`; `deprecatedVariables` is its own, deprecated `variables` field. -/
structure Policy where
  policyType : PolicyType
  deprecatedVariables : List (String × String) := []
  deriving Repr

end Source

/-! ## §2. Names. -/

namespace Namer

def exportConstantsPrefix : String := "cerbos.export_constants"
def exportVariablesPrefix : String := "cerbos.export_variables"

/-- `ExportConstantsFQN`. -/
def exportConstantsFqn (constantsName : String) : String :=
  exportConstantsPrefix ++ "." ++ sanitize constantsName

/-- `ExportVariablesFQN`. -/
def exportVariablesFqn (variablesName : String) : String :=
  exportVariablesPrefix ++ "." ++ sanitize variablesName

/-- `PrincipalResourceActionRuleName`. -/
def principalResourceActionRuleName (name resource : String) (idx : Nat) : String :=
  if name ≠ "" then name else resource ++ "_rule-" ++ pad3 idx

/-- The prefixes of `pre ++ rest` that end right before a dot of `rest`, longest first. -/
def dotPrefixesFrom (pre : List Char) : List Char → List String
  | [] => []
  | c :: cs =>
    dotPrefixesFrom (pre ++ [c]) cs ++ (if c == '.' then [String.ofList pre] else [])

/-- `buildFQNTree`: a name in its scope, in the enclosing scopes, and in no scope. -/
def buildFqnTree (fqn scope : String) : List String :=
  if scope = "" then [fqn]
  else withScope fqn scope :: ((dotPrefixesFrom [] scope.toList).map (withScope fqn) ++ [fqn])

example : buildFqnTree "cerbos.resource.doc.vdefault" "a.b" =
    ["cerbos.resource.doc.vdefault/a.b", "cerbos.resource.doc.vdefault/a",
      "cerbos.resource.doc.vdefault"] := by decide

/-- The name of a policy starts with the prefix of its kind. -/
theorem policyFqn_start (start name version scope : String) :
    ∃ rest, policyFqn start name version scope = start ++ rest := by
  unfold policyFqn withScope
  split
  · exact ⟨_, by simp only [String.append_assoc]; rfl⟩
  · exact ⟨_, by simp only [String.append_assoc]; rfl⟩

end Namer

namespace Source.Policy

variable (p : Source.Policy)

/-- `GetKind`. -/
def kind : Kind :=
  match p.policyType with
  | .resourcePolicy _ => .resource
  | .principalPolicy _ => .principal
  | .rolePolicy _ => .rolePolicy
  | .derivedRoles _ => .derivedRoles
  | .exportConstants _ _ => .exportConstants
  | .exportVariables _ _ => .exportVariables

/-- `namer.FQN`. -/
def fqn : String :=
  match p.policyType with
  | .resourcePolicy m => resourcePolicyFqn m.resource m.version m.scope
  | .principalPolicy m => principalPolicyFqn m.principal m.version m.scope
  | .rolePolicy m => rolePolicyFqn m.role m.version m.scope
  | .derivedRoles m => derivedRolesFqn m.name
  | .exportConstants name _ => exportConstantsFqn name
  | .exportVariables name _ => exportVariablesFqn name

/-- `namer.FQNTree`. -/
def fqnTree : List String :=
  match p.policyType with
  | .resourcePolicy m =>
    buildFqnTree (resourcePolicyFqn m.resource m.version "") m.scope
  | .principalPolicy m =>
    buildFqnTree (principalPolicyFqn m.principal m.version "") m.scope
  -- role policies do not have ancestors, the other types have no scope
  | _ => [p.fqn]

/-- `Ancestors`: the first name is that of the policy itself. -/
def ancestors : List String := p.fqnTree.tail

/-- The variables and constants that a policy imports or defines. -/
def declarations : Variables × Constants :=
  match p.policyType with
  | .resourcePolicy m => (m.policyVariables, m.policyConstants)
  | .principalPolicy m => (m.policyVariables, m.policyConstants)
  | .rolePolicy m => (m.policyVariables, m.policyConstants)
  | .derivedRoles m => (m.policyVariables, m.policyConstants)
  | .exportConstants _ _ => ({}, {})
  | .exportVariables _ _ => ({}, {})

def importDerivedRoles : List String :=
  match p.policyType with
  | .resourcePolicy m => m.importDerivedRoles
  | _ => []

/-- `Dependencies`: the names of what a policy imports. -/
def dependencies : List String :=
  p.importDerivedRoles.map derivedRolesFqn ++
    p.declarations.2.imports.map exportConstantsFqn ++
    p.declarations.1.imports.map exportVariablesFqn

/-- `GetScope`. -/
def scope : String :=
  match p.policyType with
  | .resourcePolicy m => m.scope
  | .principalPolicy m => m.scope
  | _ => ""

end Source.Policy

end AccessManagement
