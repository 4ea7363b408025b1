/-
  AccessManagement.Policy.Types — THE DATA A RULE TABLE IS BUILT FROM.

  Three layers of the source's messages, each with the fields that the modelled
  code reads:

    * the enumerations of `effect.v1` and `policy.v1`, with the wire numbers the
      content hash writes;
    * the runtime pieces of a rule: expressions, conditions, variables, outputs,
      parameters, evaluation keys, and the flat `RuleRow` of the rule table;
    * the compiled ("runnable") policy sets that `AddPolicy` turns into rows.

  A Go map is an association list here (a Go `map[string]struct{}` a list of keys):
  the order of the list is one of the orders in which Go may range over the map, and
  no result below depends on it unless it says so.

  Left out because no modelled function reads them: annotations, source attributes,
  schemas, and the unordered `variables` maps of the policies (the one of a derived role
  stays: the content hash of a derived role reads it).
-/
import Mathlib.Data.List.Defs

namespace AccessManagement

/-! ## §1. Enumerations. -/

/-- `effect.v1.Effect`. -/
inductive Effect where
  | unspecified | allow | deny | noMatch
  deriving DecidableEq, Repr, Inhabited

def Effect.number : Effect → Nat
  | .unspecified => 0
  | .allow => 1
  | .deny => 2
  | .noMatch => 3

/-- `policy.v1.Kind`. -/
inductive Kind where
  | unspecified | derivedRoles | exportVariables | principal | resource | rolePolicy
  | exportConstants
  deriving DecidableEq, Repr, Inhabited

def Kind.number : Kind → Nat
  | .unspecified => 0
  | .derivedRoles => 1
  | .exportVariables => 2
  | .principal => 3
  | .resource => 4
  | .rolePolicy => 5
  | .exportConstants => 6

/-- `policy.v1.ScopePermissions`. -/
inductive ScopePermissions where
  | unspecified | overrideParent | requireParentalConsentForAllows
  deriving DecidableEq, Repr, Inhabited

def ScopePermissions.number : ScopePermissions → Nat
  | .unspecified => 0
  | .overrideParent => 1
  | .requireParentalConsentForAllows => 2

/-- `scopeperms.Normalise`: the unspecified setting means the documented default. -/
def ScopePermissions.normalise : ScopePermissions → ScopePermissions
  | .unspecified => .overrideParent
  | sp => sp

theorem ScopePermissions.normalise_ne_unspecified (sp : ScopePermissions) :
    sp.normalise ≠ .unspecified := by
  cases sp <;> decide

/-! ## §2. Dynamic values. -/

/-- A `float64`, by its IEEE 754 bits (`math.Float64bits`). -/
structure Double where
  bits : UInt64
  deriving DecidableEq, Repr, Inhabited

/-- `structpb.Value`. -/
inductive Value where
  | null
  | bool (b : Bool)
  | number (d : Double)
  | string (s : String)
  | list (values : List Value)
  | struct (fields : List (String × Value))
  deriving Repr, Inhabited

/-! ## §3. The runtime pieces of a rule. -/

/-- `runtime.v1.Expr`: the expression text, and the bytes its type-checked form adds to
a content hash (absent once the checked form has been released). -/
structure Expr where
  original : String
  checked : Option (List UInt8)
  deriving DecidableEq, Repr, Inhabited

/-- `runtime.v1.Condition`. -/
inductive Condition where
  | all (exprs : List Condition)
  | any (exprs : List Condition)
  | none (exprs : List Condition)
  | expr (e : Expr)
  deriving Repr, Inhabited

structure Variable where
  name : String
  expr : Expr
  deriving DecidableEq, Repr

/-- `runtime.v1.Output.When`. -/
structure OutputWhen where
  ruleActivated : Option Expr
  conditionNotMet : Option Expr
  deriving DecidableEq, Repr

/-- `runtime.v1.Output`. -/
structure Output where
  when : Option OutputWhen
  deriving DecidableEq, Repr

/-- `RuleRow.Params`: the ordered variables and the constants of a policy. -/
structure Params where
  orderedVariables : List Variable
  constants : List (String × Value)
  deriving Repr

/-- `runtime.v1.EvaluationKeyTuple`, the structured evaluation key of a rule. -/
structure EvaluationKeyTuple where
  keyPrefix : String := ""
  resource : String := ""
  principal : String := ""
  role : String := ""
  derivedRole : String := ""
  version : String := ""
  scope : String := ""
  ruleName : String := ""
  ruleId : Nat := 0
  deriving DecidableEq, Repr, Inhabited

/-- The `action_set` of a row: one action, or the allow list of a role policy rule. -/
inductive ActionSet where
  | action (a : String)
  | allowActions (actions : List String)
  deriving DecidableEq, Repr

/-- `runtime.v1.RuleTable.RuleRow`. -/
structure RuleRow where
  originFqn : String := ""
  resource : String := ""
  role : String := ""
  actionSet : Option ActionSet := none
  condition : Option Condition := none
  derivedRoleCondition : Option Condition := none
  effect : Effect := .unspecified
  scope : String := ""
  scopePermissions : ScopePermissions := .unspecified
  version : String := ""
  originDerivedRole : String := ""
  emitOutput : Option Output := none
  name : String := ""
  principal : String := ""
  params : Option Params := none
  derivedRoleParams : Option Params := none
  evaluationKey : String := ""
  evaluationKeyTuple : Option EvaluationKeyTuple := none
  policyKind : Kind := .unspecified
  fromRolePolicy : Bool := false

/-! ## §4. Compiled policy sets. -/

/-- `runtime.v1.RunnableDerivedRole`. -/
structure RunnableDerivedRole where
  name : String
  parentRoles : List String
  variableExprs : List (String × Expr)
  condition : Option Condition
  orderedVariables : List Variable
  constants : List (String × Value)
  originFqn : String

/-- `RunnableResourcePolicySet.Policy.Rule`; `output` is the deprecated form of
`emitOutput`. -/
structure ResourceRule where
  name : String
  actions : List String
  roles : List String
  derivedRoles : List String
  condition : Option Condition
  effect : Effect
  output : Option Expr
  emitOutput : Option Output

/-- `RunnableResourcePolicySet.Policy`. -/
structure ResourcePolicy where
  scope : String
  derivedRoles : List (String × RunnableDerivedRole)
  rules : List ResourceRule
  scopePermissions : ScopePermissions
  orderedVariables : List Variable
  constants : List (String × Value)

/-- `RunnablePrincipalPolicySet.Policy.ActionRule`. -/
structure PrincipalActionRule where
  action : String
  name : String
  condition : Option Condition
  effect : Effect
  output : Option Expr
  emitOutput : Option Output

/-- `RunnablePrincipalPolicySet.Policy`; `resourceRules` is keyed by resource. -/
structure PrincipalPolicy where
  scope : String
  resourceRules : List (String × List PrincipalActionRule)
  scopePermissions : ScopePermissions
  orderedVariables : List Variable
  constants : List (String × Value)

/-- `RunnableRolePolicySet.Rule`. -/
structure RoleRule where
  name : String
  allowActions : List String
  condition : Option Condition
  emitOutput : Option Output

/-- `RunnablePolicySet`: metadata, and the policies from the most specific scope up (of
which `AddPolicy` reads the first). -/
inductive PolicySet where
  | resourcePolicy (fqn resource version : String) (policies : List ResourcePolicy)
  | principalPolicy (fqn principal version : String) (policies : List PrincipalPolicy)
  | rolePolicy (fqn role version scope : String) (parentRoles : List String)
      (resources : List (String × List RoleRule)) (orderedVariables : List Variable)
      (constants : List (String × Value))

end AccessManagement
