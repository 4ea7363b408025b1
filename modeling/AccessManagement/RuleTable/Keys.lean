/-
  AccessManagement.RuleTable.Keys — WHAT AN EVALUATION KEY IDENTIFIES.

  `check` remembers the outcome of a row's conditions under its evaluation key, so two rows
  with one key must be evaluated in the same way: same condition, same condition of the
  derived role, same variables and constants (`SameEvaluation`).

  The key names the policy (by its resource, principal or role, its version and its scope),
  the derived role and the RULE NAME.  The policy part does its work: the key determines the
  name of the policy (`modID_of_key`), and policies have distinct names.  What can fail is
  the rule name: `Clashes` says that a policy has two rules of one name whose rows are
  evaluated differently.

  Main result: `keysIdentifyConditions_iff` — keys identify conditions exactly if no policy
  has such rules.
-/
import Mathlib.Data.Nat.Digits.Defs
import Mathlib.Tactic.Tauto
import AccessManagement.RuleTable.Table
import AccessManagement.Policy.Shape
import AccessManagement.Policy.Units

namespace AccessManagement

open List Namer

/-! ## §1. Generated names. -/

namespace Namer

theorem ofDigitChars_replicate_zero : ∀ k : Nat,
    Nat.ofDigitChars 10 (List.replicate k '0') 0 = 0 := by
  intro k
  induction k with
  | zero => rfl
  | succ k ih => rw [replicate_succ]; exact ih

/-- The number can be read back from its padded form. -/
theorem ofDigitChars_pad3 (n : Nat) : Nat.ofDigitChars 10 (pad3 n).toList 0 = n := by
  have hdigits : (toString n).toList = Nat.toDigits 10 n := by simp
  unfold pad3
  rw [hdigits, String.toList_ofList, Nat.ofDigitChars_append, ofDigitChars_replicate_zero,
    Nat.ofDigitChars_toDigits (by omega) (by omega)]

theorem pad3_injective {m n : Nat} (h : pad3 m = pad3 n) : m = n := by
  rw [← ofDigitChars_pad3 m, h, ofDigitChars_pad3 n]

end Namer

/-! ## §2. Rows that are evaluated in the same way. -/

structure RuleRow.SameEvaluation (row row' : RuleRow) : Prop where
  condition : row.condition = row'.condition
  derivedRoleCondition : row.derivedRoleCondition = row'.derivedRoleCondition
  params : row.params = row'.params
  derivedRoleParams : row.derivedRoleParams = row'.derivedRoleParams

/-- **Keys identify conditions**: rows with one evaluation key are evaluated in the same way. -/
def KeysIdentifyConditions (rows : List RuleRow) : Prop :=
  ∀ row ∈ rows, ∀ row' ∈ rows, row.evaluationKeyTuple = row'.evaluationKeyTuple →
    row.SameEvaluation row'

variable (sp : ScopePermissions)

/-- The condition of a row of a rule: that of the rule, negated in a conditional ALLOW of a
policy that requires parental consent. -/
def consentCondition (effect : Effect) (cond : Option Condition) : Option Condition :=
  match sp, effect, cond with
  | .requireParentalConsentForAllows, .allow, some cond => some (.none [cond])
  | _, _, cond => cond

/-- The effect of such a row. -/
def consentEffect (effect : Effect) (cond : Option Condition) : Effect :=
  match sp, effect, cond with
  | .requireParentalConsentForAllows, .allow, some _ => .deny
  | _, effect, _ => effect

@[simp] theorem negateUnderConsent_eq (row : RuleRow) : negateUnderConsent sp row = { row with
      condition := consentCondition sp row.effect row.condition
      effect := consentEffect sp row.effect row.condition } := by
  obtain ⟨⟩ := row
  unfold negateUnderConsent consentCondition consentEffect
  split <;> simp_all

/-! ## §3. The rows of a policy. -/

/-- The key of a row that a rule has for its roles. -/
@[simp] def resourceKey (resource version scope ruleName : String) : EvaluationKeyTuple where
  keyPrefix := resourcePoliciesPrefix
  resource := resource
  version := version
  scope := scope
  ruleName := ruleName

/-- The key of a row that a rule has for a derived role. -/
@[simp] def derivedRoleKey (resource version scope derivedRole ruleName : String) : EvaluationKeyTuple where
  keyPrefix := derivedRolesPrefix
  resource := resource
  derivedRole := derivedRole
  version := version
  scope := scope
  ruleName := ruleName

/-- The key of a row of a principal policy. -/
@[simp] def principalKey (resource principal version scope ruleName : String) : EvaluationKeyTuple where
  keyPrefix := principalPoliciesPrefix
  resource := resource
  principal := principal
  version := version
  scope := scope
  ruleName := ruleName

variable (fqn resource version : String) (p : ResourcePolicy) (rule : ResourceRule)

/-- The keys of the rows of rules. -/
@[simp] theorem resourceRow_key
    (a r : String) : (resourceRow fqn resource version p rule a r).evaluationKeyTuple =
      some (resourceKey resource version p.scope rule.name) := by
  simp [resourceRow]

@[simp] theorem derivedRoleRow_key (a : String) (rdr : RunnableDerivedRole) (dr pr : String) :
    (derivedRoleRow fqn resource version p rule a rdr dr pr).evaluationKeyTuple =
      some (derivedRoleKey resource version p.scope dr rule.name) := by
  simp [derivedRoleRow]

@[simp]
theorem principalRow_key (fqn principal version : String) (p : PrincipalPolicy) (resource : String)
    (rule : PrincipalActionRule) : (principalRow fqn principal version p resource rule).evaluationKeyTuple =
      some (principalKey resource principal version p.scope rule.name) := by
  simp [principalRow]

/-! ## §4. Policies with clashing rules. -/

/-- Two rules of one name whose rows are evaluated differently: they have different
conditions, each has an action, and each has a static role or both have the same derived
role. -/
structure ResourcePolicy.Clash (p : ResourcePolicy) (rule rule' : ResourceRule) : Prop where
  mem : rule ∈ p.rules
  mem' : rule' ∈ p.rules
  name : rule.name = rule'.name
  condition : consentCondition p.scopePermissions rule.effect rule.condition ≠
    consentCondition p.scopePermissions rule'.effect rule'.condition
  actions : rule.actions ≠ []
  actions' : rule'.actions ≠ []
  roles : (rule.roles ≠ [] ∧ rule'.roles ≠ []) ∨
    ∃ dr rdr, dr ∈ rule.derivedRoles ∧ dr ∈ rule'.derivedRoles ∧
      p.derivedRoles.lookup dr = some rdr ∧ rdr.parentRoles ≠ []

/-- Two action rules of one name for one resource, with different conditions. -/
structure PrincipalPolicy.Clash (p : PrincipalPolicy) (resource : String)
    (rules : List PrincipalActionRule) (rule rule' : PrincipalActionRule) : Prop where
  entry : (resource, rules) ∈ p.resourceRules
  mem : rule ∈ rules
  mem' : rule' ∈ rules
  name : rule.name = rule'.name
  condition : consentCondition p.scopePermissions rule.effect rule.condition ≠
    consentCondition p.scopePermissions rule'.effect rule'.condition

/-- Does a policy set have clashing rules? The rules of a role policy are numbered, so they
never clash. -/
def PolicySet.Clashes : PolicySet → Prop
  | .resourcePolicy _ _ _ (p :: _) => ∃ rule rule', p.Clash rule rule'
  | .principalPolicy _ _ _ (p :: _) => ∃ resource rules rule rule', p.Clash resource rules rule rule'
  | _ => False

/-- A policy set as compilation leaves it: its name is that of its first policy, and maps
have distinct keys. -/
def PolicySet.WellFormed : PolicySet → Prop
  | .resourcePolicy fqn resource version policies =>
    ∃ p ps, policies = p :: ps ∧ fqn = resourcePolicyFqn resource version p.scope
  | .principalPolicy fqn principal version policies =>
    ∃ p ps, policies = p :: ps ∧ fqn = principalPolicyFqn principal version p.scope ∧
      (p.resourceRules.map (·.1)).Nodup
  | .rolePolicy fqn role version scope _ resources _ _ =>
    fqn = rolePolicyFqn role version scope ∧ (resources.map (·.1)).Nodup

/-- The name of the policy that a key comes from. -/
def EvaluationKeyTuple.modID (k : EvaluationKeyTuple) : String :=
  if k.keyPrefix = principalPoliciesPrefix then
    principalPolicyFqn k.principal k.version k.scope
  else if k.keyPrefix = rolePoliciesPrefix then
    rolePolicyFqn k.role k.version k.scope
  -- the resource of a key is sanitised already
  else withScope
    (resourcePoliciesPrefix ++ "." ++ k.resource ++ ".v" ++ sanitize k.version) k.scope

variable {ps : PolicySet} {row : RuleRow} {k : EvaluationKeyTuple} {row' : RuleRow}
  {sets : List PolicySet}

/-- **The key of a row determines the name of its policy.** -/
theorem modID_of_key (hwf : ps.WellFormed) (hrow : row ∈ ps.rows)
    (hk : row.evaluationKeyTuple = some k) : k.modID = ps.fqn := by
  cases PolicySet.mem_rows_iff.mp hrow with
  | noRules | noResources => cases hk
  | static | derived =>
    obtain ⟨p, ps, ⟨⟩, rfl⟩ := hwf
    simp only [resourceRow_key, derivedRoleRow_key, Option.some.injEq] at hk
    subst hk
    rfl
  | principal =>
    obtain ⟨p, ps, ⟨⟩, rfl, -⟩ := hwf
    simp only [principalRow_key, Option.some.injEq] at hk
    subst hk
    rfl
  | role =>
    cases hk
    exact hwf.1.symm

/-! ## §5. When keys identify conditions. -/

/-- Rows without a key stand for policies without rules. -/
theorem eq_noopRow_of_no_key (hrow : row ∈ ps.rows)
    (hk : row.evaluationKeyTuple = none) : ∃ fqn resource principal version scope sp kind,
      row = noopRow fqn resource principal version scope sp kind := by
  cases PolicySet.mem_rows_iff.mp hrow with
  | noRules | noResources => exact ⟨_, _, _, _, _, _, _, rfl⟩
  | static | derived | principal => simp at hk
  | role => cases hk

/-- Rows of a policy set with one key come from rules of one name: both rows are for static roles,
or both are for the same derived role, or both are for the same resource. -/
inductive PolicySet.Pair : PolicySet → RuleRow → RuleRow → Prop
  | static {fqn resource version : String} {p : ResourcePolicy} {ps : List ResourcePolicy}
      {rule rule' : ResourceRule} {a r a' r' : String} (mem : rule ∈ p.rules) (mem' : rule' ∈ p.rules)
      (name : rule.name = rule'.name) (action_mem : a ∈ rule.actions) (action_mem' : a' ∈ rule'.actions)
      (role_mem : r ∈ rule.roles) (role_mem' : r' ∈ rule'.roles) :
      Pair (.resourcePolicy fqn resource version (p :: ps))
        (resourceRow fqn (Namer.sanitizedResource resource) version p rule a r)
        (resourceRow fqn (Namer.sanitizedResource resource) version p rule' a' r')
  | derived {fqn resource version : String} {p : ResourcePolicy} {ps : List ResourcePolicy}
      {rule rule' : ResourceRule} {a a' dr pr pr' : String} {rdr : RunnableDerivedRole}
      (mem : rule ∈ p.rules) (mem' : rule' ∈ p.rules) (name : rule.name = rule'.name)
      (action_mem : a ∈ rule.actions) (action_mem' : a' ∈ rule'.actions)
      (role_mem : dr ∈ rule.derivedRoles) (role_mem' : dr ∈ rule'.derivedRoles)
      (resolved : p.derivedRoles.lookup dr = some rdr) (parent_mem : pr ∈ rdr.parentRoles) :
      Pair (.resourcePolicy fqn resource version (p :: ps))
        (derivedRoleRow fqn (Namer.sanitizedResource resource) version p rule a rdr dr pr)
        (derivedRoleRow fqn (Namer.sanitizedResource resource) version p rule' a' rdr dr pr')
  | principal {fqn principal version : String} {p : PrincipalPolicy} {ps : List PrincipalPolicy}
      {resource : String} {rules : List PrincipalActionRule} {rule rule' : PrincipalActionRule}
      (entry : (resource, rules) ∈ p.resourceRules) (mem : rule ∈ rules) (mem' : rule' ∈ rules)
      (name : rule.name = rule'.name) : Pair (.principalPolicy fqn principal version (p :: ps))
        (principalRow fqn principal version p resource rule)
        (principalRow fqn principal version p resource rule')
  | refl {ps : PolicySet} {row : RuleRow} : Pair ps row row

theorem PolicySet.pair_of_key_eq (hwf : ps.WellFormed)
    (hrow : row ∈ ps.rows) (hrow' : row' ∈ ps.rows)
    (hk : row.evaluationKeyTuple = some k) (hk' : row'.evaluationKeyTuple = some k) :
    ps.Pair row row' := by
  have hpre : resourcePoliciesPrefix ≠ derivedRolesPrefix := by decide
  have hkey := hk.trans hk'.symm
  cases mem_rows_iff.mp hrow with
  | noRules | noResources => cases hk
  | static mem action_mem role_mem =>
    cases mem_rows_iff.mp hrow' with
    | noRules => cases hk'
    | static mem' action_mem' role_mem' =>
      simp at hkey
      exact .static mem mem' hkey action_mem action_mem' role_mem role_mem'
    | derived => simp [hpre] at hkey
  | derived mem action_mem dr_mem resolved parent_mem =>
    cases mem_rows_iff.mp hrow' with
    | noRules => cases hk'
    | static => simp [hpre.symm] at hkey
    | derived mem' action_mem' dr_mem' resolved' =>
      -- the key names the derived role, so both rows have the same one
      simp at hkey
      obtain ⟨rfl, hname⟩ := hkey
      obtain rfl := Option.some.inj (resolved.symm.trans resolved')
      exact .derived mem mem' hname action_mem action_mem' dr_mem dr_mem' resolved parent_mem
  | principal entry mem =>
    obtain ⟨p, ps, ⟨⟩, -, hnodup⟩ := hwf
    cases mem_rows_iff.mp hrow' with
    | noResources => cases hk'
    | principal entry' mem' =>
      simp at hkey
      obtain ⟨rfl, hname⟩ := hkey
      cases inj_on_of_nodup_map hnodup entry entry' rfl
      exact .principal entry mem mem' hname
  | role entry =>
    cases mem_rows_iff.mp hrow' with
    | role entry' =>
      obtain ⟨rfl, rfl⟩ := hkey
      cases inj_on_of_nodup_map hwf.2 entry entry' rfl
      exact .refl

/-- **Within a policy set, keys identify conditions unless rules clash.** -/
theorem PolicySet.Pair.sameEvaluation (h : ps.Pair row row')
    (hno : ¬ ps.Clashes) : row.SameEvaluation row' := by
  cases h with
  | static mem mem' name action_mem action_mem' role_mem role_mem' =>
    simp only [resourceRow, negateUnderConsent_eq]
    refine ⟨?_, rfl, rfl, rfl⟩
    by_contra hcond
    exact hno ⟨_, _, mem, mem', name, hcond, ne_nil_of_mem action_mem,
      ne_nil_of_mem action_mem', .inl ⟨ne_nil_of_mem role_mem, ne_nil_of_mem role_mem'⟩⟩
  | derived mem mem' name action_mem action_mem' role_mem role_mem' resolved parent_mem =>
    simp only [derivedRoleRow, negateUnderConsent_eq]
    refine ⟨?_, rfl, rfl, rfl⟩
    by_contra hcond
    exact hno ⟨_, _, mem, mem', name, hcond, ne_nil_of_mem action_mem, ne_nil_of_mem action_mem',
      .inr ⟨_, _, role_mem, role_mem', resolved, ne_nil_of_mem parent_mem⟩⟩
  | principal entry mem mem' name =>
    simp only [principalRow, negateUnderConsent_eq]
    refine ⟨?_, rfl, rfl, rfl⟩
    by_contra hcond
    exact hno ⟨_, _, _, _, entry, mem, mem', name, hcond⟩
  | refl => exact ⟨rfl, rfl, rfl, rfl⟩

/-- Clashing rules have rows with one key that are evaluated differently. -/
theorem PolicySet.Clashes.exists_rows (h : ps.Clashes) :
    ∃ row ∈ ps.rows, ∃ row' ∈ ps.rows, row.evaluationKeyTuple = row'.evaluationKeyTuple ∧
      ¬ row.SameEvaluation row' := by
  simp only [mem_rows_iff]
  unfold Clashes at h
  split at h
  · obtain ⟨rule, rule', hc⟩ := h
    obtain ⟨a, ha⟩ := exists_mem_of_ne_nil _ hc.actions
    obtain ⟨a', ha'⟩ := exists_mem_of_ne_nil _ hc.actions'
    rcases hc.roles with ⟨hr, hr'⟩ | ⟨dr, rdr, hdr, hdr', hl, hp⟩
    · obtain ⟨r, hr⟩ := exists_mem_of_ne_nil _ hr
      obtain ⟨r', hr'⟩ := exists_mem_of_ne_nil _ hr'
      refine ⟨_, .static hc.mem ha hr, _, .static hc.mem' ha' hr', by simp [hc.name], fun hsame => ?_⟩
      exact hc.condition (by simpa [resourceRow] using hsame.condition)
    · obtain ⟨pr, hpr⟩ := exists_mem_of_ne_nil _ hp
      refine ⟨_, .derived hc.mem ha hdr hl hpr, _, .derived hc.mem' ha' hdr' hl hpr, by simp [hc.name],
        fun hsame => ?_⟩
      exact hc.condition (by simpa [derivedRoleRow] using hsame.condition)
  · obtain ⟨resource, rules, rule, rule', hc⟩ := h
    refine ⟨_, .principal hc.entry hc.mem, _, .principal hc.entry hc.mem', by simp [hc.name],
      fun hsame => ?_⟩
    exact hc.condition (by simpa [principalRow] using hsame.condition)
  · exact h.elim

/-- **Keys identify conditions exactly if no policy has clashing rules**, for policies with
distinct names. -/
theorem keysIdentifyConditions_iff (hwf : ∀ ps ∈ sets, ps.WellFormed)
    (hnames : (sets.map PolicySet.fqn).Nodup) :
    KeysIdentifyConditions (RuleTable.rowsOf sets) ↔ ∀ ps ∈ sets, ¬ ps.Clashes := by
  constructor
  · intro h ps hps hclash
    obtain ⟨row, hrow, row', hrow', hkey, hne⟩ := hclash.exists_rows
    exact hne (h row (mem_flatMap.mpr ⟨ps, hps, hrow⟩) row'
      (mem_flatMap.mpr ⟨ps, hps, hrow'⟩) hkey)
  · intro hno row hrow row' hrow' hkey
    obtain ⟨ps, hps, hrow⟩ := mem_flatMap.mp hrow
    obtain ⟨ps', hps', hrow'⟩ := mem_flatMap.mp hrow'
    cases hk : row.evaluationKeyTuple with
    | none =>
      obtain ⟨_, _, _, _, _, _, _, rfl⟩ := eq_noopRow_of_no_key hrow hk
      obtain ⟨_, _, _, _, _, _, _, rfl⟩ := eq_noopRow_of_no_key hrow' (hkey.symm.trans hk)
      exact ⟨rfl, rfl, rfl, rfl⟩
    | some =>
      have hk' := hkey.symm.trans hk
      obtain rfl := inj_on_of_nodup_map hnames hps hps'
        ((modID_of_key (hwf ps hps) hrow hk).symm.trans (modID_of_key (hwf ps' hps') hrow' hk'))
      exact (PolicySet.pair_of_key_eq (hwf ps hps) hrow hrow' hk hk').sameEvaluation (hno ps hps)

/-- A row that is for an action has a key, and the key tells apart the rows of role policies,
which list their actions. -/
theorem key_of_actionSet (hrow : row ∈ ps.rows) {actions : ActionSet}
    (h : row.actionSet = some actions) : ∃ k, row.evaluationKeyTuple = some k ∧ k.keyPrefix ≠ "" ∧
      (k.keyPrefix = rolePoliciesPrefix ↔ ∃ names, actions = .allowActions names) := by
  cases PolicySet.mem_rows_iff.mp hrow with
  | noRules | noResources => cases h
  | static =>
    obtain rfl : ActionSet.action _ = actions := by simpa [resourceRow] using h
    exact ⟨_, resourceRow_key .., by simp [resourcePoliciesPrefix, rolePoliciesPrefix]⟩
  | derived =>
    obtain rfl : ActionSet.action _ = actions := by simpa [derivedRoleRow] using h
    exact ⟨_, derivedRoleRow_key .., by simp [derivedRolesPrefix, rolePoliciesPrefix]⟩
  | principal =>
    obtain rfl : ActionSet.action _ = actions := by simpa [principalRow] using h
    exact ⟨_, principalRow_key .., by simp [principalPoliciesPrefix, rolePoliciesPrefix]⟩
  | role =>
    obtain rfl := Option.some.inj h
    exact ⟨_, rfl, by simp [rolePoliciesPrefix]⟩

/-! ## §6. Rules with names of their own. -/

/-- No two rules of a policy (of a resource of it, for a principal policy) share a name. -/
def PolicySet.NamesApart : PolicySet → Prop
  | .resourcePolicy _ _ _ (p :: _) => ∀ rule ∈ p.rules, ∀ rule' ∈ p.rules,
      rule.name = rule'.name → rule = rule'
  | .principalPolicy _ _ _ (p :: _) => ∀ rr ∈ p.resourceRules, ∀ rule ∈ rr.2, ∀ rule' ∈ rr.2,
      rule.name = rule'.name → rule = rule'
  | _ => True

variable (fqn resource version : String) (p : ResourcePolicy) (rule : ResourceRule)

/-- The rows of one rule differ in their roles and actions, which are no part of their
function. -/
theorem sameFunction_resourceRow (a r a' r' : String) :
    (resourceRow fqn resource version p rule a r).SameFunction
      (resourceRow fqn resource version p rule a' r') := by
  unfold resourceRow negateUnderConsent
  cases p.scopePermissions <;> cases rule.effect <;> cases rule.condition <;>
    exact ⟨rfl, rfl, rfl, rfl, rfl, rfl, rfl, rfl, rfl⟩

theorem sameFunction_derivedRoleRow (rdr : RunnableDerivedRole) (dr a pr a' pr' : String) :
    (derivedRoleRow fqn resource version p rule a rdr dr pr).SameFunction
      (derivedRoleRow fqn resource version p rule a' rdr dr pr') := by
  unfold derivedRoleRow negateUnderConsent
  cases p.scopePermissions <;> cases rule.effect <;> cases rule.condition <;>
    exact ⟨rfl, rfl, rfl, rfl, rfl, rfl, rfl, rfl, rfl⟩

/-- **Where rules have names of their own, rows with one key have one function.** -/
theorem sameFunction_of_key_eq (hwf : ∀ ps ∈ sets, ps.WellFormed)
    (hnames : (sets.map PolicySet.fqn).Nodup) (hapart : ∀ ps ∈ sets, ps.NamesApart)
    (hrow : row ∈ RuleTable.rowsOf sets) (hrow' : row' ∈ RuleTable.rowsOf sets)
    (hk : row.evaluationKeyTuple = some k)
    (hk' : row'.evaluationKeyTuple = some k) : row.SameFunction row' := by
  obtain ⟨ps, hps, hrow⟩ := mem_flatMap.mp hrow
  obtain ⟨ps', hps', hrow'⟩ := mem_flatMap.mp hrow'
  obtain rfl := inj_on_of_nodup_map hnames hps hps'
    ((modID_of_key (hwf ps hps) hrow hk).symm.trans (modID_of_key (hwf ps' hps') hrow' hk'))
  have hself := hapart ps hps
  cases PolicySet.pair_of_key_eq (hwf ps hps) hrow hrow' hk hk' with
  | static mem mem' name =>
    obtain rfl := hself _ mem _ mem' name
    exact sameFunction_resourceRow ..
  | derived mem mem' name =>
    obtain rfl := hself _ mem _ mem' name
    exact sameFunction_derivedRoleRow ..
  | principal entry mem mem' name =>
    obtain rfl := hself _ entry _ mem _ mem' name
    exact ⟨rfl, rfl, rfl, rfl, rfl, rfl, rfl, rfl, rfl⟩
  | refl => exact ⟨rfl, rfl, rfl, rfl, rfl, rfl, rfl, rfl, rfl⟩

end AccessManagement
