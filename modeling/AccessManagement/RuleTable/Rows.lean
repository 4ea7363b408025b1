/-
  AccessManagement.RuleTable.Rows — FROM POLICIES TO ROWS (`AddPolicy`).

  A compiled policy set is flattened into rule rows: a resource policy gives one row per
  (action, role) and per (action, derived role, parent role), a principal policy one row per
  action rule with the wildcard role, a role policy one row per allow list.  A policy without
  rules still gives a row, so that its scope exists.

  In a scope that REQUIRES PARENTAL CONSENT, a conditional ALLOW becomes the DENY of its
  negated condition: the scope can only take away what a parent grants.
-/
import AccessManagement.Policy.Types
import AccessManagement.Policy.Namer

namespace AccessManagement

open Namer

/-! ## §1. The parts the three policy kinds share. -/

/-- The default of an unspecified setting, as `AddPolicy` applies it. -/
def effectiveScopePermissions (sp : ScopePermissions) : ScopePermissions := sp.normalise

/-- The output of a rule, in its current or its deprecated form. -/
def ruleOutput (emitOutput : Option Output) (output : Option Expr) : Option Output :=
  match emitOutput, output with
  | some out, _ => some out
  | none, some e => some { when := some { ruleActivated := some e, conditionNotMet := none } }
  | none, none => none

/-- A conditional ALLOW of a policy that requires parental consent becomes the DENY of its
negated condition; every other row stays. -/
def negateUnderConsent (sp : ScopePermissions) (row : RuleRow) : RuleRow :=
  match sp, row.effect, row.condition with
  | .requireParentalConsentForAllows, .allow, some cond =>
    { row with condition := some (.none [cond]), effect := .deny }
  | _, _, _ => row

/-- The row of a policy without rules. -/
def noopRow (fqn resource principal version scope : String) (sp : ScopePermissions)
    (kind : Kind) : RuleRow where
  originFqn := fqn
  resource := resource
  principal := principal
  scope := scope
  scopePermissions := effectiveScopePermissions sp
  version := version
  policyKind := kind
  params := some { orderedVariables := [], constants := [] }
  derivedRoleParams := some { orderedVariables := [], constants := [] }

/-! ## §2. Principal policies. -/

def principalRow (fqn principalID version : String) (p : PrincipalPolicy) (resource : String)
    (rule : PrincipalActionRule) : RuleRow :=
  let policyFqn := principalPolicyFqn principalID version p.scope
  negateUnderConsent p.scopePermissions {
    originFqn := fqn
    resource := sanitizedResource resource
    -- principal policies have no explicit roles
    role := "*"
    actionSet := some (.action rule.action)
    condition := rule.condition
    effect := rule.effect
    scope := p.scope
    scopePermissions := effectiveScopePermissions p.scopePermissions
    version := version
    emitOutput := ruleOutput rule.emitOutput rule.output
    name := rule.name
    principal := principalID
    params := some { orderedVariables := p.orderedVariables, constants := p.constants }
    evaluationKey := policyFqn ++ "#" ++ ruleFqn policyFqn rule.name ++ "#" ++ resource
    evaluationKeyTuple := some {
      keyPrefix := principalPoliciesPrefix, resource := resource, principal := principalID
      version := version, scope := p.scope, ruleName := rule.name }
    policyKind := .principal }

/-- `addPrincipalPolicy`. -/
def addPrincipalPolicy (fqn principalID version : String) (policies : List PrincipalPolicy) :
    List RuleRow :=
  match policies with
  | [] => []
  | p :: _ =>
    (if p.resourceRules.isEmpty then
      [noopRow fqn "" principalID version p.scope p.scopePermissions .principal]
    else []) ++
    p.resourceRules.flatMap (fun rr =>
      rr.2.map (principalRow fqn principalID version p rr.1))

/-! ## §3. Resource policies. -/

variable (fqn resource version : String) (p : ResourcePolicy) (rule : ResourceRule)

/-- The row of a rule for one action and one static role. -/
def resourceRow (action role : String) : RuleRow :=
  let policyFqn := resourcePolicyFqn resource version p.scope
  negateUnderConsent p.scopePermissions {
    originFqn := fqn
    resource := resource
    role := role
    actionSet := some (.action action)
    condition := rule.condition
    effect := rule.effect
    scope := p.scope
    scopePermissions := effectiveScopePermissions p.scopePermissions
    version := version
    emitOutput := ruleOutput rule.emitOutput rule.output
    name := rule.name
    params := some { orderedVariables := p.orderedVariables, constants := p.constants }
    evaluationKey := policyFqn ++ "#" ++ ruleFqn policyFqn rule.name
    evaluationKeyTuple := some {
      keyPrefix := resourcePoliciesPrefix, resource := resource, version := version
      scope := p.scope, ruleName := rule.name }
    policyKind := .resource }

/-- The row of a rule for one action, one derived role and one of its parent roles: the
derived role is merged in as a second condition. -/
def derivedRoleRow
    (action : String) (rdr : RunnableDerivedRole) (dr parentRole : String) : RuleRow :=
  let policyFqn := resourcePolicyFqn resource version p.scope
  negateUnderConsent p.scopePermissions {
    originFqn := fqn
    resource := resource
    role := parentRole
    actionSet := some (.action action)
    condition := rule.condition
    derivedRoleCondition := rdr.condition
    effect := rule.effect
    scope := p.scope
    scopePermissions := effectiveScopePermissions p.scopePermissions
    version := version
    originDerivedRole := dr
    emitOutput := ruleOutput rule.emitOutput rule.output
    name := rule.name
    params := some { orderedVariables := p.orderedVariables, constants := p.constants }
    derivedRoleParams := some { orderedVariables := rdr.orderedVariables
                                constants := rdr.constants }
    evaluationKey := derivedRolesFqn dr ++ "#" ++ ruleFqn policyFqn rule.name
    evaluationKeyTuple := some {
      keyPrefix := derivedRolesPrefix, resource := resource, derivedRole := dr
      version := version, scope := p.scope, ruleName := rule.name }
    policyKind := .resource }

/-- The rows of one rule. -/
def resourceRuleRows : List RuleRow :=
  rule.actions.flatMap (fun a =>
    rule.roles.map (resourceRow fqn resource version p rule a) ++
    rule.derivedRoles.flatMap (fun dr =>
      match p.derivedRoles.lookup dr with
      | none => []
      | some rdr => rdr.parentRoles.map (derivedRoleRow fqn resource version p rule a rdr dr)))

/-- `addResourcePolicy`. -/
def addResourcePolicy (fqn resource version : String) (policies : List ResourcePolicy) :
    List RuleRow :=
  let sanitized := sanitizedResource resource
  match policies with
  | [] => []
  | p :: _ =>
    (if p.rules.isEmpty then
      [noopRow fqn sanitized "" version p.scope p.scopePermissions .resource]
    else []) ++
    p.rules.flatMap (resourceRuleRows fqn sanitized version p)

/-! ## §4. Role policies. -/

def roleRow (fqn role version scope : String) (orderedVariables : List Variable)
    (constants : List (String × Value)) (resource : String) (idx : Nat) (rule : RoleRule) :
    RuleRow where
  originFqn := fqn
  role := role
  resource := resource
  actionSet := some (.allowActions rule.allowActions)
  condition := rule.condition
  emitOutput := rule.emitOutput
  name := rule.name
  scope := scope
  version := version
  params := some { orderedVariables := orderedVariables, constants := constants }
  evaluationKey := policyKeyFromFqn (rolePolicyFqn role version scope) ++ "#" ++ role
    ++ "_" ++ resource ++ "_rule-" ++ pad3 idx
  evaluationKeyTuple := some {
    keyPrefix := rolePoliciesPrefix, resource := resource, role := role, version := version
    scope := scope, ruleId := idx }
  policyKind := .resource
  fromRolePolicy := true

/-- `addRolePolicy`. -/
def addRolePolicy (fqn role version scope : String) (orderedVariables : List Variable)
    (constants : List (String × Value)) (resources : List (String × List RoleRule)) :
    List RuleRow :=
  resources.flatMap (fun rr => rr.2.mapIdx
    (fun idx rule => roleRow fqn role version scope orderedVariables constants rr.1 idx rule))

/-- `AddPolicy`: the rows of a policy set. -/
def PolicySet.rows : PolicySet → List RuleRow
  | .resourcePolicy fqn resource version policies => addResourcePolicy fqn resource version policies
  | .principalPolicy fqn principal version policies =>
    addPrincipalPolicy fqn principal version policies
  | .rolePolicy fqn role version scope _ resources orderedVariables constants =>
    addRolePolicy fqn role version scope orderedVariables constants resources

/-! ## §5. Where rows come from. -/

/-- Where the rows of a policy set come from. -/
inductive PolicySet.RowOf : PolicySet → RuleRow → Prop
  | noRules {fqn resource version : String} {p : ResourcePolicy} {ps : List ResourcePolicy}
      (empty : p.rules = []) : RowOf (.resourcePolicy fqn resource version (p :: ps))
        (noopRow fqn (Namer.sanitizedResource resource) "" version p.scope p.scopePermissions .resource)
  | static {fqn resource version : String} {p : ResourcePolicy} {ps : List ResourcePolicy}
      {rule : ResourceRule} {action role : String} (rule_mem : rule ∈ p.rules)
      (action_mem : action ∈ rule.actions) (role_mem : role ∈ rule.roles) :
      RowOf (.resourcePolicy fqn resource version (p :: ps))
        (resourceRow fqn (Namer.sanitizedResource resource) version p rule action role)
  | derived {fqn resource version : String} {p : ResourcePolicy} {ps : List ResourcePolicy}
      {rule : ResourceRule} {action dr parentRole : String} {rdr : RunnableDerivedRole}
      (rule_mem : rule ∈ p.rules) (action_mem : action ∈ rule.actions) (mem : dr ∈ rule.derivedRoles)
      (resolved : p.derivedRoles.lookup dr = some rdr) (parent_mem : parentRole ∈ rdr.parentRoles) :
      RowOf (.resourcePolicy fqn resource version (p :: ps))
        (derivedRoleRow fqn (Namer.sanitizedResource resource) version p rule action rdr dr parentRole)
  | noResources {fqn principal version : String} {p : PrincipalPolicy} {ps : List PrincipalPolicy}
      (empty : p.resourceRules = []) : RowOf (.principalPolicy fqn principal version (p :: ps))
        (noopRow fqn "" principal version p.scope p.scopePermissions .principal)
  | principal {fqn principal version : String} {p : PrincipalPolicy} {ps : List PrincipalPolicy}
      {resource : String} {rules : List PrincipalActionRule} {rule : PrincipalActionRule}
      (mem : (resource, rules) ∈ p.resourceRules) (rule_mem : rule ∈ rules) :
      RowOf (.principalPolicy fqn principal version (p :: ps))
        (principalRow fqn principal version p resource rule)
  | role {fqn role version scope : String} {parentRoles : List String}
      {resources : List (String × List RoleRule)} {orderedVariables : List Variable}
      {constants : List (String × Value)} {resource : String} {rules : List RoleRule} {idx : Nat}
      (mem : (resource, rules) ∈ resources) (lt : idx < rules.length) :
      RowOf (.rolePolicy fqn role version scope parentRoles resources orderedVariables constants)
        (roleRow fqn role version scope orderedVariables constants resource idx rules[idx])

variable {row : RuleRow}

theorem mem_resourceRuleRows {fqn resource version : String} {p : ResourcePolicy}
    {rule : ResourceRule} : row ∈ resourceRuleRows fqn resource version p rule ↔
      ∃ a ∈ rule.actions, (∃ r ∈ rule.roles, row = resourceRow fqn resource version p rule a r) ∨
        ∃ dr ∈ rule.derivedRoles, ∃ rdr, p.derivedRoles.lookup dr = some rdr ∧
          ∃ pr ∈ rdr.parentRoles, row = derivedRoleRow fqn resource version p rule a rdr dr pr := by
  simp only [resourceRuleRows, List.mem_flatMap, List.mem_append, List.mem_map]
  refine exists_congr fun a => and_congr_right fun _ => or_congr (by simp only [eq_comm]) ?_
  refine exists_congr fun dr => and_congr_right fun _ => ?_
  cases p.derivedRoles.lookup dr <;> simp [eq_comm]

/-- **The rows of a policy set**, one by one. -/
theorem PolicySet.mem_rows_iff {ps : PolicySet} : row ∈ ps.rows ↔ ps.RowOf row := by
  constructor
  · intro h
    cases ps with
    | resourcePolicy _ _ _ policies =>
      cases policies <;> grind [rows, addResourcePolicy, mem_resourceRuleRows, RowOf]
    | principalPolicy _ _ _ policies =>
      cases policies <;> grind [rows, addPrincipalPolicy, RowOf]
    | rolePolicy =>
      grind [rows, addRolePolicy, RowOf]
  · intro h
    cases h <;> grind [rows, addResourcePolicy, mem_resourceRuleRows, addPrincipalPolicy, addRolePolicy]

/-! ## §6. What every row satisfies. -/

/-- What the evaluation relies on in a row: a role-policy row grants nothing by itself, and
the other rows carry a scope permission and are rows of a resource or principal policy. -/
structure RuleRow.Ok (row : RuleRow) : Prop where
  roleRow : row.fromRolePolicy = true → row.effect = .unspecified ∧ row.policyKind = .resource
  scopePermissions : row.fromRolePolicy = false → row.scopePermissions ≠ .unspecified

theorem negateUnderConsent_ok {sp : ScopePermissions}
    (hrole : row.fromRolePolicy = false) (h : row.scopePermissions ≠ .unspecified) :
    (negateUnderConsent sp row).Ok := by
  unfold negateUnderConsent
  split
  · exact ⟨fun hr => Bool.noConfusion (hrole.symm.trans hr), fun _ => h⟩
  · exact ⟨fun hr => Bool.noConfusion (hrole.symm.trans hr), fun _ => h⟩

theorem noopRow_ok (fqn resource principal version scope : String) (sp : ScopePermissions)
    (kind : Kind) : (noopRow fqn resource principal version scope sp kind).Ok :=
  ⟨fun hr => Bool.noConfusion hr, fun _ => sp.normalise_ne_unspecified⟩

/-- **Every row of a policy set is well formed.** -/
theorem PolicySet.rows_ok (ps : PolicySet) : ∀ row ∈ ps.rows, row.Ok := by
  intro row hrow
  cases mem_rows_iff.mp hrow with
  | noRules | noResources => exact noopRow_ok ..
  | static | derived | principal =>
    exact negateUnderConsent_ok rfl (ScopePermissions.normalise_ne_unspecified _)
  | role => exact ⟨fun _ => ⟨rfl, rfl⟩, fun hr => Bool.noConfusion hr⟩

end AccessManagement
