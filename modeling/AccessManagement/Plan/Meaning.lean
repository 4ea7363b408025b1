/-
  AccessManagement.Plan.Meaning — WHAT THE PLANNER'S NODES SAY ABOUT ONE RESOURCE.

  Fix a resource `r`.  Every binding is then satisfied or not, and every node the planner
  builds is true or false.  This file computes the two sides of the comparison:

    * what a check decides, as "denied" and "granted" chains of scopes
      (`chainOutcome_allow_iff`);
    * what the nodes of a scope and of a role denote, and how they are put together
      (`scopeNodes_allow`, `joinScope_denyOf`, `value_planScopes_denyOf`, …).

  DENY nodes are exact.  ALLOW nodes are not: parental consent can make them false, or absent,
  where some overriding scope allows.
-/
import AccessManagement.Check.Decision
import AccessManagement.Plan.Plan

namespace AccessManagement

open Lib NodeAlgebra List CheckEnv

variable {V N R : Type} {env : CheckEnv V} {A : NodeAlgebra N R} {conds : PlanConditions A}
  {input : CheckInput} {kind : Kind} {action role : String} {r : R}

/-! ## §1. Chains of scopes, again. -/

section Chain

variable (permissions : String → ScopePermissions) (consult : String → List BindingHandle)
  (sat : BindingHandle → Bool)

/-- A scope allows, and overrides its parent. -/
def grantedAt (scope : String) : Bool :=
  anySatisfied sat .allow (consult scope) && decide (permissions scope = .overrideParent)

/-- A scope has a satisfied DENY that stems (or does not stem) from a role policy. -/
def deniedAt (fromRolePolicy : Bool) (scope : String) : Bool :=
  anySatisfied (fun b => sat b && b.core.fromRolePolicy == fromRolePolicy) .deny (consult scope)

/-- A DENY is reached before any scope that grants. -/
def chainDenied (fromRolePolicy : Bool) : List String → Bool
  | [] => false
  | scope :: scopes =>
    deniedAt consult sat fromRolePolicy scope ||
      (!grantedAt permissions consult sat scope && chainDenied fromRolePolicy scopes)

theorem chainDenied_cons (fromRolePolicy : Bool) (scope : String) (scopes : List String) :
    chainDenied permissions consult sat fromRolePolicy (scope :: scopes) =
      (deniedAt consult sat fromRolePolicy scope || (!grantedAt permissions consult sat scope &&
          chainDenied permissions consult sat fromRolePolicy scopes)) := rfl

variable (scopes : List String)

/-- Some scope grants. -/
def chainGranted : Bool := scopes.any (grantedAt permissions consult sat)

variable {permissions consult sat}

/-- Every DENY is of one of the two kinds. -/
theorem anySatisfied_deny_eq (scope : String) : anySatisfied sat .deny (consult scope) =
      (deniedAt consult sat false scope || deniedAt consult sat true scope) := by
  unfold deniedAt anySatisfied
  rw [Bool.eq_iff_iff]
  simp only [Bool.or_eq_true, any_eq_true, ← exists_or, ← and_or_left]
  refine exists_congr fun b => and_congr_right fun _ => ?_
  cases b.core.fromRolePolicy <;> simp

/-- The rule with the two kinds of DENY kept apart. -/
theorem chainOutcome_cons_split (scope : String) (scopes : List String) :
    chainOutcome permissions consult (fun _ => sat) (scope :: scopes) =
      if deniedAt consult sat false scope || deniedAt consult sat true scope then .deny
      else if grantedAt permissions consult sat scope then .allow
      else chainOutcome permissions consult (fun _ => sat) scopes := by
  rw [chainOutcome_cons, anySatisfied_deny_eq]
  unfold grantedAt
  simp only [Bool.and_eq_true, decide_eq_true_eq]

/-- A chain denies exactly if one of the two kinds of DENY is reached. -/
theorem chainOutcome_deny_iff : chainOutcome permissions consult (fun _ => sat) scopes = .deny ↔
      chainDenied permissions consult sat false scopes = true ∨
        chainDenied permissions consult sat true scopes = true := by
  induction scopes with
  | nil => simp [chainOutcome, chainDenied]
  | cons scope _ ih =>
    rw [chainOutcome_cons_split]
    unfold chainDenied
    cases deniedAt consult sat false scope <;> cases deniedAt consult sat true scope <;>
      cases grantedAt permissions consult sat scope <;> simp [ih]

/-- A chain allows exactly if no DENY is reached and some scope grants. -/
theorem chainOutcome_allow_iff : chainOutcome permissions consult (fun _ => sat) scopes = .allow ↔
      chainDenied permissions consult sat false scopes = false ∧
        chainDenied permissions consult sat true scopes = false ∧
        chainGranted permissions consult sat scopes = true := by
  induction scopes with
  | nil => simp [chainOutcome, chainGranted]
  | cons scope _ ih =>
    rw [chainOutcome_cons_split]
    unfold chainDenied chainGranted
    rw [any_cons]
    unfold chainGranted at ih
    cases deniedAt consult sat false scope <;> cases deniedAt consult sat true scope <;>
      cases grantedAt permissions consult sat scope <;> simp [ih]

end Chain

/-! ## §2. The nodes of a binding and of a scope. -/

/-- The DENY node of one of the two kinds of DENY. -/
def ScopeNodes.denyOf (s : ScopeNodes N) (fromRolePolicy : Bool) : Option N :=
  if fromRolePolicy then s.denyRolePolicy else s.deny

@[inherit_doc ScopeNodes.denyOf]
def RoleNodes.denyOf (s : RoleNodes N) (fromRolePolicy : Bool) : Option N :=
  if fromRolePolicy then s.denyRolePolicy else s.deny

/-- A DENY rule that is not known to be idle.  `known` tells what planning finds out about a rule. -/
def mayDeny (known : String → BindingHandle → Option Bool) (fromRolePolicy : Bool) (scope : String)
    (b : BindingHandle) : Bool :=
  decide (b.core.effect = .deny ∧ b.core.fromRolePolicy = fromRolePolicy ∧
    known scope b ≠ some false)

section Scope

variable (conds : PlanConditions A) (r : R)

/-- Is a binding satisfied on the resource? -/
def PlanConditions.sat (b : BindingHandle) : Bool :=
  b.core.derivedRoleCondition.elim true (conds.meaning · b.core.derivedRoleParams r) &&
    b.core.condition.elim true (conds.meaning · b.core.params r)

variable (kind : Kind) (scope : String)

theorem PlanConditions.denote_bindingNode (b : BindingHandle) :
    A.denote (conds.bindingNode kind scope b) r = conds.sat r b := by
  unfold bindingNode conditionNode sat
  cases b.core.derivedRoleCondition <;> cases b.core.condition <;>
    simp [A.denote_constant, A.denote_andOperation, conds.denote_evaluateCondition, Bool.and_comm]

/-- What is known about a binding when planning: the constant that its node is recognised as. -/
def PlanConditions.known (b : BindingHandle) : Option Bool :=
  A.isConstBool (conds.bindingNode kind scope b)

theorem PlanConditions.addBinding_allow (s : ScopeNodes N) (b : BindingHandle) :
    (conds.addBinding kind scope s b).allow = if b.core.effect = .allow then
      addNode s.allow (some (conds.bindingNode kind scope b)) A.mkOrNode else s.allow := by
  unfold addBinding
  cases b.core.effect with
  | unspecified | noMatch | allow => rfl
  | deny =>
    dsimp only
    split
    · rfl
    · cases b.core.fromRolePolicy <;> rfl

theorem PlanConditions.addBinding_denyOf (fromRolePolicy : Bool) (s : ScopeNodes N)
    (b : BindingHandle) : (conds.addBinding kind scope s b).denyOf fromRolePolicy =
      if mayDeny (conds.known kind) fromRolePolicy scope b then
        addNode (s.denyOf fromRolePolicy) (some (conds.bindingNode kind scope b)) A.mkOrNode
      else s.denyOf fromRolePolicy := by
  unfold addBinding mayDeny known ScopeNodes.denyOf
  cases b.core.effect with
  | unspecified | noMatch | allow => simp
  | deny =>
    by_cases hidle : A.isConstBool (conds.bindingNode kind scope b) = some false
    · simp [hidle]
    · cases fromRolePolicy <;> cases b.core.fromRolePolicy <;> simp [hidle]

variable (bs : List BindingHandle)

/-- The ALLOW node of a scope collects the nodes of its ALLOW rules. -/
theorem PlanConditions.scopeNodes_allow : (conds.scopeNodes kind scope bs).allow =
    A.collect (conds.bindingNode kind scope) (fun b => decide (b.core.effect = .allow)) bs none := by
  have hfold : ∀ s : ScopeNodes N, (bs.foldl (conds.addBinding kind scope) s).allow =
      A.collect (conds.bindingNode kind scope) (fun b => decide (b.core.effect = .allow)) bs
        s.allow := by
    induction bs with
    | nil => exact fun s => rfl
    | cons b bs ih =>
      intro s
      rw [foldl_cons, ih, collect_cons, conds.addBinding_allow]
      simp only [decide_eq_true_eq]
  exact hfold {}

/-- A DENY node of a scope collects the nodes of the DENY rules that are not known to be idle. -/
theorem PlanConditions.scopeNodes_denyOf (fromRolePolicy : Bool) :
    (conds.scopeNodes kind scope bs).denyOf fromRolePolicy =
      A.collect (conds.bindingNode kind scope) (mayDeny (conds.known kind) fromRolePolicy scope) bs
        none := by
  have hfold : ∀ s : ScopeNodes N,
      (bs.foldl (conds.addBinding kind scope) s).denyOf fromRolePolicy =
        A.collect (conds.bindingNode kind scope) (mayDeny (conds.known kind) fromRolePolicy scope) bs
          (s.denyOf fromRolePolicy) := by
    induction bs with
    | nil => exact fun s => rfl
    | cons b bs ih =>
      intro s
      rw [foldl_cons, ih, collect_cons, conds.addBinding_denyOf]
  refine (hfold {}).trans ?_
  cases fromRolePolicy <;> rfl

variable (consult : String → List BindingHandle)

theorem PlanConditions.value_scopeNodes_allow :
    A.value (conds.scopeNodes kind scope (consult scope)).allow r =
      anySatisfied (conds.sat r) .allow (consult scope) := by
  rw [conds.scopeNodes_allow, A.value_collect]
  unfold anySatisfied
  simp [conds.denote_bindingNode, Bool.and_comm]

theorem PlanConditions.value_scopeNodes_denyOf (fromRolePolicy : Bool) :
    A.value ((conds.scopeNodes kind scope (consult scope)).denyOf fromRolePolicy) r =
      deniedAt consult (conds.sat r) fromRolePolicy scope := by
  rw [conds.scopeNodes_denyOf, A.value_collect, value_none, Bool.false_or]
  unfold deniedAt anySatisfied mayDeny known
  congr 1
  funext b
  rw [conds.denote_bindingNode, Bool.eq_iff_iff]
  simp only [Bool.and_eq_true, decide_eq_true_eq, beq_iff_eq]
  constructor
  · exact fun h => ⟨⟨h.2, h.1.2.1⟩, h.1.1⟩
  · -- a node that is constantly false satisfies nothing
    intro h
    refine ⟨⟨h.2, h.1.2, fun hidle => ?_⟩, h.1.1⟩
    have hfalse := A.denote_of_isConstBool hidle r
    rw [conds.denote_bindingNode, h.1.1] at hfalse
    exact Bool.noConfusion hfalse

end Scope

/-! ## §3. One scope joins the role. -/

section Join

variable (A : NodeAlgebra N R)

/-- The gate lets a DENY through where no more specific scope grants. -/
theorem value_gateByChildOverrideAllow (child deny : Option N) :
    A.value (gateByChildOverrideAllow A child deny) r = (A.value deny r && !A.value child r) := by
  unfold gateByChildOverrideAllow
  cases deny <;> cases child <;> try simp
  split
  · rename_i hc
    simp [A.denote_invert, A.denote_of_isConstBool hc r]
  · simp [A.denote_invert, Bool.and_comm]

theorem gateByChildOverrideAllow_eq_none (child deny : Option N) :
    gateByChildOverrideAllow A child deny = none ↔ deny = none := by
  unfold gateByChildOverrideAllow
  cases deny <;> cases child <;> try simp
  split <;> simp [A.mkAndNode_ne_none]

/-- A DENY that has passed a gate is not a constant. -/
theorem unconditional_gateByChildOverrideAllow (hlit : A.Literal) {child : Option N}
    (hchild : ∀ n ∈ child, A.Folded n) (deny : Option N) :
    A.Unconditional (gateByChildOverrideAllow A child deny) ↔
      deny = none ∨ (child = none ∧ A.Unconditional deny) := by
  unfold gateByChildOverrideAllow
  cases deny with
  | none => simp
  | some d =>
    cases child with
    | none => simp
    | some c =>
      have hinv : A.isConstBool (A.invert c) = none := hchild c rfl
      dsimp only
      split <;> simp [hlit.unconditional_mkAndNode, hinv]

variable (permissions : ScopePermissions) (nodes : ScopeNodes N) (s : RoleNodes N)

theorem joinScope_denyOf (fromRolePolicy : Bool) :
    (joinScope A permissions nodes s).denyOf fromRolePolicy =
      addNode (s.denyOf fromRolePolicy)
        (gateByChildOverrideAllow A s.childOverrideAllow (nodes.denyOf fromRolePolicy))
        A.mkOrNode := by
  unfold joinScope
  cases fromRolePolicy <;> cases nodes.allow <;> rfl

theorem joinScope_childOverrideAllow : (joinScope A permissions nodes s).childOverrideAllow =
    if permissions = .overrideParent then addNode s.childOverrideAllow nodes.allow A.mkOrNode
    else s.childOverrideAllow := by
  unfold joinScope
  cases nodes.allow <;> simp

variable {nodes}

/-- A scope without ALLOW rules leaves the ALLOW of the role alone. -/
theorem joinScope_of_no_allow (h : nodes.allow = none) :
    (joinScope A permissions nodes s).allow = s.allow ∧
    (joinScope A permissions nodes s).pendingAllow = s.pendingAllow := by
  unfold joinScope
  rw [h]
  exact ⟨rfl, rfl⟩

theorem joinScope_of_allow {a : N} (h : nodes.allow = some a) :
    (joinScope A permissions nodes s).allow = joinAllow A s.allow s.pendingAllow a ∧
    (joinScope A permissions nodes s).pendingAllow =
      (decide (permissions = .requireParentalConsentForAllows) ||
        (s.allow.isNone && s.pendingAllow)) := by
  unfold joinScope
  rw [h]
  exact ⟨rfl, rfl⟩

end Join

/-! ## §4. The scopes loop. -/

section Role

/-- A scope has an ALLOW rule, satisfied or not. -/
def hasAllowRule (consult : String → List BindingHandle) (scope : String) : Bool :=
  (consult scope).any (fun b => decide (b.core.effect = .allow))

theorem PlanConditions.scopeNodes_allow_eq_none (conds : PlanConditions A) (kind : Kind)
    (consult : String → List BindingHandle) (scope : String) :
    (conds.scopeNodes kind scope (consult scope)).allow = none ↔
      hasAllowRule consult scope = false := by
  rw [conds.scopeNodes_allow, A.collect_eq_none, and_iff_right rfl]
  rfl

/-- **The DENY nodes of a role are exact**: they say that a DENY is reached before any scope
that grants. -/
theorem value_planScopes_denyOf (fromRolePolicy : Bool) (scopes : List String) (s : RoleNodes N) :
    A.value ((planScopes env conds input kind action role scopes s).denyOf fromRolePolicy) r =
      (A.value (s.denyOf fromRolePolicy) r || (!A.value s.childOverrideAllow r &&
        chainDenied env.table.getScopeScopePermissions (env.bindingsFor input kind action role)
          (conds.sat r) fromRolePolicy scopes)) := by
  fun_induction planScopes with
  | case1 => simp [chainDenied]
  | case2 scope _ _ hc =>
    -- the rest is skipped: a more specific scope grants, so no DENY is reached there
    simp [A.value_of_isConstTrue hc r]
  | case3 scope _ s _ ih =>
    have hchild : A.value (joinScope A (env.table.getScopeScopePermissions scope)
        (conds.scopeNodes kind scope (env.bindingsFor input kind action role scope))
        s).childOverrideAllow r = (A.value s.childOverrideAllow r ||
          grantedAt env.table.getScopeScopePermissions (env.bindingsFor input kind action role)
            (conds.sat r) scope) := by
      rw [joinScope_childOverrideAllow, grantedAt, ← conds.value_scopeNodes_allow r kind]
      split <;> rename_i hover <;> simp [hover]
    rw [ih, hchild, joinScope_denyOf, A.value_addNode, value_gateByChildOverrideAllow,
      conds.value_scopeNodes_denyOf, chainDenied_cons]
    cases A.value s.childOverrideAllow r <;> simp [Bool.or_assoc]

variable (env conds input kind action role) (sat : BindingHandle → Bool)

/-- A DENY is reached for the role. -/
def CheckEnv.roleDenied (fromRolePolicy : Bool) : Bool :=
  chainDenied env.table.getScopeScopePermissions (env.bindingsFor input kind action role) sat
    fromRolePolicy (env.scopesFor input kind)

/-- Some scope grants the role. -/
def CheckEnv.roleGranted : Bool :=
  chainGranted env.table.getScopeScopePermissions (env.bindingsFor input kind action role) sat
    (env.scopesFor input kind)

theorem CheckEnv.roleOutcome_allow_iff :
    env.roleOutcome input (fun _ _ => sat) kind action role = .allow ↔
      env.roleDenied input kind action role sat false = false ∧
        env.roleDenied input kind action role sat true = false ∧
        env.roleGranted input kind action role sat = true :=
  chainOutcome_allow_iff _

theorem CheckEnv.roleOutcome_deny_iff :
    env.roleOutcome input (fun _ _ => sat) kind action role = .deny ↔
      env.roleDenied input kind action role sat false = true ∨
        env.roleDenied input kind action role sat true = true :=
  chainOutcome_deny_iff _

/-- Principal policies have no role policies among them. -/
theorem CheckEnv.roleDenied_principal :
    env.roleDenied input .principal action role sat true = false := by
  unfold roleDenied
  generalize env.scopesFor input .principal = scopes
  induction scopes with
  | nil => rfl
  | cons scope _ ih =>
    have hno : deniedAt (env.bindingsFor input .principal action role) sat true scope = false := by
      unfold deniedAt anySatisfied
      rw [any_eq_false]
      intro b hb
      simp [fromRolePolicy_of_mem_bindingsFor hb]
    rw [chainDenied_cons, hno, ih, Bool.and_false]
    rfl

/-- The nodes of a role after its scopes. -/
def roleNodes : RoleNodes N :=
  planScopes env conds input kind action role (env.scopesFor input kind) {}

theorem value_roleNodes_denyOf (fromRolePolicy : Bool) (r : R) :
    A.value ((roleNodes env conds input kind action role).denyOf fromRolePolicy) r =
      env.roleDenied input kind action role (conds.sat r) fromRolePolicy := by
  refine (value_planScopes_denyOf fromRolePolicy (env.scopesFor input kind) {}).trans ?_
  cases fromRolePolicy <;> rfl

end Role

/-! ## §5. The end of a role. -/

section Finish

variable (A : NodeAlgebra N R)

theorem value_restrict (allow deny : Option N) :
    A.value (finishRole.restrict A allow deny) r = (A.value allow r && !A.value deny r) := by
  unfold finishRole.restrict
  cases allow <;> cases deny <;> simp [A.denote_invert]

theorem restrict_eq_none (allow deny : Option N) :
    finishRole.restrict A allow deny = none ↔ allow = none := by
  unfold finishRole.restrict
  cases allow <;> cases deny <;> simp [A.mkAndNode_ne_none]

/-- The ALLOW of a role once all its scopes have joined: none if consent is missing. -/
def RoleNodes.consentedAllow (s : RoleNodes N) : Option N :=
  if s.pendingAllow then none else s.allow

variable {A} {s : RoleNodes N}

theorem finishRole_eq : finishRole A kind s =
    if A.isConstTrue s.deny || A.isConstTrue s.denyRolePolicy then if kind = .principal then
        .next (finishRole.restrict A s.consentedAllow s.denyRolePolicy) s.deny
      else .next (some (A.constant false)) none
    else if s.deny.isNone && s.denyRolePolicy.isNone && A.isConstTrue s.consentedAllow then
      .allowed s.consentedAllow
    else .next (finishRole.restrict A s.consentedAllow s.denyRolePolicy) s.deny := rfl

end Finish

/-! ## §6. The tree of an action. -/

section Tree

variable (k : KindNodes N) (s : ActionNodes N)

/-- What the tree denotes once a policy kind has joined.  The DENY node is ANDed, except that
it stands alone if there is nothing else. -/
theorem value_joinKind : A.value (joinKind A k s).rootNode r =
      if k.allow = none ∧ s.rootNode = none then k.deny.isSome && !A.value k.deny r
      else !A.value k.deny r && (A.value k.allow r || A.value s.rootNode r) := by
  unfold joinKind
  obtain ⟨_ | a, _ | d⟩ := k <;> obtain ⟨_ | root, _⟩ := s
  case some.some.some =>
    obtain ⟨m, hm, hd⟩ := A.mkOrNode_spec a [root]
    simp [hm, hd, A.denote_invert]
  all_goals simp [A.denote_invert]

theorem joinKind_rootNode_eq_none :
    (joinKind A k s).rootNode = none ↔ k.allow = none ∧ k.deny = none ∧ s.rootNode = none := by
  unfold joinKind
  obtain ⟨_ | a, _ | d⟩ := k <;> obtain ⟨_ | root, _⟩ := s
  case some.some.some =>
    obtain ⟨m, hm, -⟩ := A.mkOrNode_spec a [root]
    simpa [hm] using A.mkAndNode_ne_none _ [m]
  all_goals simp [A.mkOrNode_ne_none, A.mkAndNode_ne_none]

/-- The nodes of a policy kind. -/
def planKind (env : CheckEnv V) (conds : PlanConditions A) (input : CheckInput) (kind : Kind)
    (action : String) : KindNodes N :=
  planRoles env conds input kind action (rolesFor input kind) {}

/-- When a plan is true at `r`: no principal policy denies, and a principal policy allows, or
resource policies allow and do not deny — or there is no ALLOW node of resource policies, and
their inverted DENY node, to which the ALLOW node of the principal policies is ORed, stands
alone below that of the principal policies. -/
theorem denote_plan_iff : let kr := planKind env conds input .resource action
    let kp := planKind env conds input .principal action
    A.denote (plan env conds input action) r = true ↔
      ((env.scopesFor input .principal).isEmpty && (env.scopesFor input .resource).isEmpty) = false ∧
      A.value kp.deny r = false ∧ (A.value kp.allow r = true ∨
        (A.value kr.deny r = false ∧ A.value kr.allow r = true) ∨
        (kp.allow ≠ none ∧ kr.allow = none ∧ kr.deny ≠ none ∧ A.value kr.deny r = false)) := by
  intro kr kp
  unfold plan
  cases (env.scopesFor input .principal).isEmpty && (env.scopesFor input .resource).isEmpty with
  | true => simp [A.denote_constant]
  | false =>
    have hkinds : planKinds env conds input action = joinKind A kp (joinKind A kr {}) := rfl
    have hroot : A.denote ((planFilter env conds input action).toAST A) r =
        ((planKinds env conds input action).hasPolicyTypeAllow &&
          A.value (planKinds env conds input action).rootNode r) := by
      unfold planFilter
      obtain ⟨_ | root, _ | _⟩ := planKinds env conds input action <;>
        simp [NodeFilter.add, NodeFilter.resetToUnconditionalDeny, NodeFilter.toAST,
          A.denote_constant]
    rw [if_neg Bool.false_ne_true, hroot, hkinds]
    simp only [value_joinKind, joinKind_rootNode_eq_none]
    clear_value kr kp
    obtain ⟨_ | ra, _ | rd⟩ := kr <;> obtain ⟨_ | pa, _ | pd⟩ := kp <;> simp [joinKind]

end Tree

end AccessManagement
