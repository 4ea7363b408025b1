/-
  AccessManagement.Plan.Soundness — WHEN THE PLAN PROMISES NO MORE THAN CHECK ALLOWS.

  The plan of an action is a predicate of the unknown resource.  It is sound at a resource if
  "the plan is true there" implies "check allows the action there".

  Role by role the plan is sound: an ALLOW node is true only where an overriding scope
  grants, DENY nodes are exact, and pooling DENYs over roles only removes resources.  What is
  not sound is the way the two policy kinds are put together.  Resource policies come first,
  and if they contribute a DENY node but no ALLOW node, the tree is NOT(deny) — a filter that
  is meant to restrict what follows, but reads as "allowed unless denied".  The ALLOW of a
  principal policy is then ORed to it:

      OR(principal ALLOW, NOT(resource DENY))

  and every resource that the DENY rule spares is promised.

  Main results:
    * `plan_sound` — where check follows its rule, the plan is sound exactly outside that situation
      (`exposed`);
    * `plan_unsound_on_lone_deny` — a resource that is promised and denied.
-/
import AccessManagement.Plan.Agreement

namespace AccessManagement

open Lib NodeAlgebra List CheckEnv

variable {V N R : Type} {env : CheckEnv V} {A : NodeAlgebra N R} {conds : PlanConditions A}
  {input : CheckInput} {action role : String} {r : R}

/-! ## §1. What is promised, and what the rule allows. -/

section Rule

/-- A lone DENY at a resource for which nothing decides: no principal policy applies, and a role that
a scope grants is denied by its role policy. -/
def exposed (env : CheckEnv V) (conds : PlanConditions A) (input : CheckInput) (action : String)
    (r : R) : Bool :=
  loneDeny env conds input action r &&
  (rolesFor input .principal).all (fun role =>
    !env.roleDenied input .principal action role (conds.sat r) false &&
      !env.roleGranted input .principal action role (conds.sat r)) &&
  (rolesFor input .resource).all (fun role =>
    !env.roleGranted input .resource action role (conds.sat r) ||
      env.roleDenied input .resource action role (conds.sat r) true)

/-- An ALLOW that is true and not denied is one of the rule. -/
theorem roleOutcome_of_allow {kind : Kind}
    (hallow : (roleView env conds input kind action r role).allow = some true)
    (hdeny : env.roleDenied input kind action role (conds.sat r) false = false)
    (hrole : env.roleDenied input kind action role (conds.sat r) true = false) :
    env.roleOutcome input (fun _ _ => conds.sat r) kind action role = .allow := by
  refine (env.roleOutcome_allow_iff input kind action role _).mpr ⟨hdeny, hrole, ?_⟩
  have hsubset : roleVisited env conds input kind action role ⊆ env.scopesFor input kind :=
    visitedScopes_subset false _
  have hperm : ∀ scope ∈ roleVisited env conds input kind action role,
      hasAllowRule (env.bindingsFor input kind action role) scope = true →
      env.table.getScopeScopePermissions scope ≠ .unspecified := by
    intro scope _ hrule
    obtain ⟨b, hb, heffect⟩ := any_eq_true.mp hrule
    exact permissions_of_mem_bindingsFor hb (of_decide_eq_true heffect)
  have hgranted := @granted_of_joinedAllow _ _ _ _ none false False hperm (fun _ h => nomatch h) hallow
  obtain ⟨scope, hmem, hg⟩ := hgranted.resolve_left id
  exact any_eq_true.mpr ⟨scope, hsubset hmem, hg⟩

theorem rolesFor_principal : rolesFor input .principal = input.principal.roles.take 1 := if_pos rfl

variable {sat : Kind → String → BindingHandle → Bool}

/-- The first role speaks for the principal policies. -/
theorem principalOutcome_eq (hmem : role ∈ rolesFor input .principal) :
    env.principalOutcome input sat action = env.roleOutcome input sat .principal action role := by
  rw [rolesFor_principal] at hmem
  unfold principalOutcome
  cases hroles : input.principal.roles with
  | nil => rw [hroles] at hmem; exact absurd hmem not_mem_nil
  | cons =>
    rw [hroles, take_succ_cons, take_zero, mem_singleton] at hmem
    rw [hmem]

/-- The rule follows an allowed role, unless the principal policies deny. -/
theorem decision_of_role_allowed
    (hp : env.principalOutcome input sat action ≠ .deny) (hmem : role ∈ input.principal.roles)
    (h : env.roleOutcome input sat .resource action role = .allow) :
    env.decision input sat action = .allow := by
  rw [decision_eq_ite, if_pos]
  exact (env.principalOutcome_cases input sat action).imp_right
    (fun ho => ⟨ho.resolve_left hp, role, hmem, h⟩)

theorem decision_of_principal_allowed (hmem : role ∈ rolesFor input .principal)
    (h : env.roleOutcome input sat .principal action role = .allow) :
    env.decision input sat action = .allow := by
  rw [decision_eq_ite, if_pos (.inl ((principalOutcome_eq hmem).trans h))]

/-- The principal policies decide only for the first role. -/
theorem exists_of_principalOutcome (h : env.principalOutcome input sat action ≠ .noMatch) :
    ∃ role ∈ rolesFor input .principal,
      env.principalOutcome input sat action = env.roleOutcome input sat .principal action role := by
  cases hroles : input.principal.roles with
  | nil =>
    unfold principalOutcome at h
    rw [hroles] at h
    exact absurd rfl h
  | cons role =>
    have hmem : role ∈ rolesFor input .principal := by
      rw [rolesFor_principal, hroles, take_succ_cons]
      exact mem_cons_self
    exact ⟨role, hmem, principalOutcome_eq hmem⟩

/-- Without a DENY for the first role the principal policies do not deny. -/
theorem principalOutcome_ne_deny (h : ∀ role ∈ rolesFor input .principal,
      env.roleDenied input .principal action role (conds.sat r) false = false) :
    env.principalOutcome input (fun _ _ => conds.sat r) action ≠ .deny := by
  intro hdeny
  obtain ⟨role, hmem, hrole⟩ := exists_of_principalOutcome (by rw [hdeny]; decide)
  rw [hrole, roleOutcome_deny_iff, h role hmem, roleDenied_principal] at hdeny
  exact hdeny.elim Bool.false_ne_true Bool.false_ne_true

/-- **What is promised is allowed by the rule, or exposed.** -/
theorem decision_of_promised (hlit : A.Literal) (h : promised env conds input action r = true) :
    env.decision input (fun _ _ => conds.sat r) action = .allow ∨
      exposed env conds input action r = true := by
  unfold promised at h
  rw [Bool.and_eq_true, Bool.not_eq_true', any_eq_false, Bool.or_eq_true, Bool.or_eq_true] at h
  obtain ⟨hdenied, hcases⟩ := h
  have hnot : ∀ role ∈ rolesFor input .principal,
      env.roleDenied input .principal action role (conds.sat r) false = false :=
    fun role hmem => Bool.not_eq_true _ ▸ hdenied role hmem
  have hp := principalOutcome_ne_deny hnot
  rcases hcases with (hallow | hroles) | hlone
  · -- a principal policy allows
    obtain ⟨role, hmem, hrole⟩ := any_eq_true.mp hallow
    exact Or.inl (decision_of_principal_allowed hmem (roleOutcome_of_allow (beq_iff_eq.mp hrole)
      (hnot role hmem) (env.roleDenied_principal input action role _)))
  · -- resource policies allow some role
    left
    unfold rolePromised at hroles
    rw [Bool.or_eq_true, Bool.and_eq_true, Bool.not_eq_true', any_eq_false] at hroles
    rcases hroles with hout | ⟨hpromises, hpooled⟩
    · obtain ⟨role, hmem, hrole⟩ := any_eq_true.mp hout
      obtain ⟨hallow, hdeny, hpolicy⟩ := allow_of_allowedOutright hlit hrole
      exact decision_of_role_allowed hp hmem (roleOutcome_of_allow hallow hdeny hpolicy)
    · obtain ⟨role, hmem, hrole⟩ := any_eq_true.mp hpromises
      have hnone := hpooled role hmem
      unfold RoleView.promises at hrole
      unfold RoleView.pooled at hnone
      rw [Bool.and_eq_true, Bool.and_eq_true, Bool.not_eq_true', Bool.not_eq_true', beq_iff_eq]
        at hrole
      rw [hrole.1.1, Bool.not_false, Bool.true_and, Bool.not_eq_true] at hnone
      exact decision_of_role_allowed hp hmem (roleOutcome_of_allow hrole.1.2 hnone hrole.2)
  · -- the lone DENY of the resource policies: exposed, unless something else decides
    by_contra hneither
    rw [not_or] at hneither
    refine hneither.2 ?_
    unfold exposed
    rw [Bool.and_eq_true, Bool.and_eq_true, all_eq_true, all_eq_true]
    refine ⟨⟨hlone, fun role hmem => ?_⟩, fun role hmem => ?_⟩
    · rw [hnot role hmem, Bool.not_false, Bool.true_and, Bool.not_eq_true', ← Bool.not_eq_true]
      intro hg
      exact hneither.1 (decision_of_principal_allowed hmem
        ((env.roleOutcome_allow_iff input .principal action role _).mpr
          ⟨hnot role hmem, env.roleDenied_principal input action role _, hg⟩))
    · rw [Bool.or_eq_true, Bool.not_eq_true', ← Bool.not_eq_true, ← imp_iff_not_or]
      intro hg
      by_contra hpolicy
      unfold loneDeny at hlone
      rw [Bool.and_eq_true, Bool.and_eq_true, all_eq_true] at hlone
      have hrole := hlone.1.2 role hmem
      rw [Bool.and_eq_true, Bool.not_eq_true'] at hrole
      exact hneither.1 (decision_of_role_allowed hp hmem
        ((env.roleOutcome_allow_iff input .resource action role _).mpr
          ⟨hrole.2, Bool.not_eq_true _ ▸ hpolicy, hg⟩))

/-- **What is exposed is promised, and the rule denies it.** -/
theorem promised_of_exposed (h : exposed env conds input action r = true) :
    promised env conds input action r = true ∧
      env.decision input (fun _ _ => conds.sat r) action = .deny := by
  unfold exposed at h
  rw [Bool.and_eq_true, Bool.and_eq_true, all_eq_true, all_eq_true] at h
  obtain ⟨⟨hlone, hprincipal⟩, hroles⟩ := h
  have hsilent : ∀ role ∈ rolesFor input .principal,
      env.roleDenied input .principal action role (conds.sat r) false = false ∧
      env.roleGranted input .principal action role (conds.sat r) = false := by
    intro role hmem
    simpa using hprincipal role hmem
  constructor
  · unfold promised
    rw [hlone, Bool.or_true, Bool.and_true, Bool.not_eq_true', any_eq_false]
    exact fun role hmem => Bool.not_eq_true _ ▸ (hsilent role hmem).1
  · rw [decision_eq_ite, if_neg]
    rintro (ho | ⟨-, role, hmem, hout⟩)
    · obtain ⟨role, hmem, hrole⟩ := exists_of_principalOutcome (by rw [ho]; decide)
      rw [hrole, roleOutcome_allow_iff, (hsilent role hmem).2] at ho
      exact Bool.false_ne_true ho.2.2
    · obtain ⟨-, hpolicy, hg⟩ := (env.roleOutcome_allow_iff input .resource action role _).mp hout
      have hrole := hroles role hmem
      rw [hg, hpolicy] at hrole
      exact Bool.noConfusion hrole

end Rule

/-! ## §2. Soundness. -/

/-- **When the plan is sound at a resource.**  An exposed resource is promised, so check must allow
it, although the rule does not; and a resource that is promised by right must not be lost to shared
evaluation keys or to an early end of the check.  Where check follows its rule, both come down to
this: the resource is not exposed. -/
theorem plan_sound (env : CheckEnv V) (A : NodeAlgebra N ResourceData) (conds : PlanConditions A)
    (input : CheckInput) (action : String) (r : ResourceData) (hlit : A.Literal)
    (hfold : conds.Folded) (horacle : env.Oracle (input.forResource r) (conds.sat r))
    (hlenient : env.evalParams.strictEvaluation = false) (haction : action ∈ input.actions) :
    (∃ settled, env.SettledBy (input.forResource r) (fun _ _ => conds.sat r) settled) ∧
    (∀ settled, env.SettledBy (input.forResource r) (fun _ _ => conds.sat r) settled →
      ((A.denote (plan env conds input action) r = true →
          CheckEnv.checkedEffect env (input.forResource r) action = some .allow) ↔
        (exposed env conds input action r = true →
          env.AllowsSettled (input.forResource r) settled action) ∧
        (promised env conds input action r = true →
          env.decision input (fun _ _ => conds.sat r) action = .allow →
          env.AllowsSettled (input.forResource r) settled action))) ∧
    (env.FollowsRule (input.forResource r) (conds.sat r) →
      ((A.denote (plan env conds input action) r = true →
          CheckEnv.checkedEffect env (input.forResource r) action = some .allow) ↔
        exposed env conds input action r = false)) := by
  rw [denote_plan hlit hfold]
  refine ⟨env.exists_settledBy _ _, fun settled hset => ?_, fun hfollows => ?_⟩
  · rw [horacle.outcomes.checkedEffect_allow_iff (env.total_of_noFailure _ horacle.noFailure) hlenient
      hset haction]
    constructor
    · exact fun h => ⟨fun hexposed => h (promised_of_exposed hexposed).1,
        fun hpromised _ => h hpromised⟩
    · intro h hpromised
      exact (decision_of_promised hlit hpromised).elim (h.2 hpromised) h.1
  · -- nothing but the conditions looks at the attributes of the resource
    have heffect : CheckEnv.checkedEffect env (input.forResource r) action =
        some (env.decision input (fun _ _ => conds.sat r) action) := hfollows.checkedEffect_eq haction
    rw [heffect, Option.some.injEq, ← Bool.not_eq_true]
    constructor
    · intro h hexposed
      obtain ⟨hpromised, hdeny⟩ := promised_of_exposed hexposed
      exact Effect.noConfusion (hdeny.symm.trans (h hpromised))
    · exact fun h hpromised => (decision_of_promised hlit hpromised).resolve_right h

/-! ## §3. A resource that is promised and denied. -/

/-- Shared documents can be viewed by alice, whatever the roles of alice are. -/
def sharedPolicy : PolicySet :=
  .principalPolicy (Namer.principalPolicyFqn "alice" "default" "") "alice" "default" [{
    scope := ""
    resourceRules := [("document", [{
      action := "view"
      name := "rule-001"
      condition := some (.expr { original := "shared", checked := none })
      effect := .allow
      output := none
      emitOutput := none }])]
    scopePermissions := .unspecified
    orderedVariables := []
    constants := [] }]

/-- Users cannot view locked documents.  Nothing allows them to view the others. -/
def lockedPolicy : PolicySet :=
  .resourcePolicy (Namer.resourcePolicyFqn "document" "default" "") "document" "default" [{
    scope := ""
    derivedRoles := []
    rules := [documentRule "" 1 .deny (some "locked")]
    scopePermissions := .unspecified
    orderedVariables := []
    constants := [] }]

def sharedTable : LoadedTable Externals.sample :=
  LoadedTable.ofPolicies Externals.sample [sharedPolicy, lockedPolicy] (by decide +kernel)
    (by decide +kernel)

/-- A document with the given Boolean attributes set. -/
def flaggedResource (flags : List String) : ResourceData :=
  ⟨"d1", flags.map (fun flag => (flag, .bool true))⟩

/-- A document that is neither shared nor locked: the plan promises it, check denies it. -/
theorem plan_unsound_on_lone_deny :
    (flagEnv sharedTable).Oracle (CheckEnv.documentInput.forResource (flaggedResource []))
      (flagConditions.sat (flaggedResource [])) ∧
    flagAlgebra.denote (plan (flagEnv sharedTable) flagConditions CheckEnv.documentInput "view")
      (flaggedResource []) = true ∧ CheckEnv.checkedEffect (flagEnv sharedTable)
      (CheckEnv.documentInput.forResource (flaggedResource [])) "view" = some .deny := by
  refine ⟨flagEnv_oracle _ _ _, ?_, ?_⟩
  · decide +kernel
  · decide +kernel

/-- A shared document: the principal policy decides, so the document is not exposed. -/
theorem plan_sound_shared :
    flagAlgebra.denote (plan (flagEnv sharedTable) flagConditions documentInput "view")
      (flaggedResource ["shared"]) = true ∧
    CheckEnv.checkedEffect (flagEnv sharedTable)
      (documentInput.forResource (flaggedResource ["shared"])) "view" = some .allow := by
  have hplan : flagAlgebra.denote (plan (flagEnv sharedTable) flagConditions documentInput "view")
      (flaggedResource ["shared"]) = true := by decide +kernel
  have hsettled : (flagEnv sharedTable).SettledBy
      (documentInput.forResource (flaggedResource ["shared"]))
      (fun _ _ => flagConditions.sat (flaggedResource ["shared"]))
      (fun _ _ => flagConditions.sat (flaggedResource ["shared"])) :=
    KeysAgree.settledBy (by decide +kernel)
  refine ⟨hplan, ((plan_sound _ flagAlgebra flagConditions documentInput "view"
    (flaggedResource ["shared"]) flagAlgebra_literal flagConditions_folded (flagEnv_oracle _ _ _) rfl
    (by decide)).2.1 _ hsettled).mpr ⟨?_, ?_⟩ hplan⟩
  · -- not exposed
    intro hexposed
    exact absurd hexposed (by decide +kernel)
  · intro _ hallow
    exact ⟨by decide +kernel, hallow⟩

end AccessManagement
