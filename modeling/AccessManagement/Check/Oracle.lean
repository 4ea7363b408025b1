/-
  AccessManagement.Check.Oracle — WHEN CHECK IMPLEMENTS ITS DECISION RULE.

  An oracle gives each consulted binding a fixed outcome, whatever the effective derived roles
  are and whichever values the check may hold for the variables.  The only state that can still
  come between the oracle and the decision is the condition cache, and it does: its key is the
  evaluation key, and two rules of one policy can share it (a rule NAMED `rule-002` in front of
  an unnamed second rule).  The second rule then takes the outcome of the first, if the rule
  looks at both.

  Main results:
    * `check_eq_decision` — if the bindings that the rule looks at and that have the same
      evaluation key have the same outcome, check decides by the rule, and the order of the
      roles does not matter;
    * `check_ne_decision_on_shared_key` — two rules that share a key, and a DENY that is lost.
-/
import AccessManagement.Check.Outcome
import AccessManagement.Check.Settled

namespace AccessManagement.CheckEnv

open List

variable {V : Type} (env : CheckEnv V) (input : CheckInput)

/-! ## §1. Oracles. -/

/-- A binding that some round of the loops may evaluate. -/
def Consulted (b : BindingHandle) : Prop := ∃ kind scope, env.ConsultedAt input kind scope b

/-- A context of lenient evaluation of the request, under whatever derived roles. -/
structure IsContext (ec : EvalContext) : Prop where
  request : ec.request = checkInputToRequest input
  lenient : ec.strictEvaluation = false

/-- Values that the check may hold for the variables with a key: those that some consulted rule or
some derived role gives to them. -/
inductive VarsComputed : UInt64 → Vars V → Prop
  | rule {b : BindingHandle} {rp : RowParams} {ec : EvalContext} {vars : Vars V}
      (consulted : env.Consulted input b)
      (params : b.core.params = some rp ∨ b.core.derivedRoleParams = some rp)
      (context : IsContext input ec)
      (value : ec.evaluatePrograms env.cel rp.constants rp.orderedVariables = .ok vars) :
      VarsComputed rp.key vars
  | derivedRole {scope : String} {dr : String × WrappedRunnableDerivedRole} {ec : EvalContext}
      {vars : Vars V} (mem : dr ∈ env.derivedRolesOf input scope) (context : IsContext input ec)
      (value : ec.evaluateVariables env.cel dr.2.role.constants dr.2.role.orderedVariables =
        .ok vars) :
      VarsComputed dr.2.varCacheKey vars

/-- Values that a parameter set may come with. -/
def MayHold : Option RowParams → Vars V → Prop
  | none, vars => vars = []
  | some rp, vars => env.VarsComputed input rp.key vars

/-- What each consulted binding comes to, whatever the derived roles are. -/
def Outcomes (sat : BindingHandle → Bool) : Prop :=
  ∀ b, env.Consulted input b → ∀ ec, IsContext input ec → ∀ vars drVars,
    env.MayHold input b.core.params vars → env.MayHold input b.core.derivedRoleParams drVars →
    bindingOutcome env.cel ec b vars drVars = .ok (sat b)

/-- Each consulted binding has a fixed outcome. -/
structure Oracle (sat : BindingHandle → Bool) : Prop where
  noFailure : env.cel.NoFailure
  outcomes : env.Outcomes input sat

/-- Computing variables never fails, neither those of a derived role nor those of a consulted
binding. -/
structure Total : Prop where
  derivedVariables : ∀ scope, ∀ dr ∈ env.derivedRolesOf input scope, ∀ ec : EvalContext,
    ec.strictEvaluation = false →
    ∃ vars, ec.evaluateVariables env.cel dr.2.role.constants dr.2.role.orderedVariables = .ok vars
  ruleVariables : ∀ b, env.Consulted input b → ∀ rp,
    (b.core.params = some rp ∨ b.core.derivedRoleParams = some rp) → ∀ ec : EvalContext,
    ∃ vars, ec.evaluatePrograms env.cel rp.constants rp.orderedVariables = .ok vars

theorem total_of_noFailure (h : env.cel.NoFailure) : env.Total input where
  derivedVariables := fun _ _ _ _ hec => EvalContext.evaluateVariables_ok h hec _ _
  ruleVariables := fun _ _ rp _ ec => EvalContext.evaluatePrograms_ok h ec rp.constants
    rp.orderedVariables

/-! ## §2. What is known of the carried state. -/

/-- What is known after some steps: lenient evaluation of the request, variables that some rule or
derived role gives, and in the condition cache the outcome of the first binding with each key. -/
structure CacheRight (sat : BindingHandle → Bool) (taken : List RuleStep) (s : CheckState V) :
    Prop where
  context : IsContext input s.evalCtx
  held : ∀ k vars, s.varCache.lookup k = some vars → env.VarsComputed input k vars
  cached : ∀ k, s.conditionCache.lookup k = (env.evaluated (fun _ _ => sat) taken).lookup k

variable {env input} {sat : BindingHandle → Bool} {settled : Kind → String → BindingHandle → Bool}
  {taken : List RuleStep} {b : BindingHandle}

section Enter

variable (ht : env.Total input) {s : CheckState V} (hs : env.CacheRight input sat taken s)

include ht hs

theorem CacheRight.processDerivedRole {scope : String} {dr : String × WrappedRunnableDerivedRole}
    (hdr : dr ∈ env.derivedRolesOf input scope) (allRoles : List String) (sdr : ScopedDerivedRoles) :
    ∃ sdr' s', env.processDerivedRole allRoles dr sdr s = .ok (sdr', s') ∧
      env.CacheRight input sat taken s' := by
  unfold CheckEnv.processDerivedRole
  split
  · exact ⟨sdr, s, rfl, hs⟩
  · have hvars : ∃ vars s', cachedVars dr.2.varCacheKey (s.evalCtx.evaluateVariables env.cel
        dr.2.role.constants dr.2.role.orderedVariables) s = .ok (vars, s') ∧
        env.CacheRight input sat taken s' := by
      unfold cachedVars
      cases s.varCache.lookup dr.2.varCacheKey with
      | some vars => exact ⟨vars, s, rfl, hs⟩
      | none =>
        obtain ⟨vars, hv⟩ := ht.derivedVariables scope dr hdr s.evalCtx hs.context.lenient
        have hheld := Lib.EntriesHold.insert hs.held (.derivedRole hdr hs.context hv)
        rw [hv]
        exact ⟨vars, _, rfl, { hs with held := hheld }⟩
    obtain ⟨vars, s₁, hc, hs₁⟩ := hvars
    rw [hc]
    dsimp only
    cases s₁.evalCtx.satisfiesCondition env.cel dr.2.role.condition dr.2.role.constants vars with
    | error =>
      -- a condition that cannot be evaluated leaves the role out
      rw [hs₁.context.lenient]
      exact ⟨sdr, s₁, rfl, hs₁⟩
    | ok r =>
      cases r with
      | true => exact ⟨_, _, rfl, { hs₁ with }⟩
      | false => exact ⟨_, s₁, rfl, hs₁⟩

theorem CacheRight.processDerivedRoles {scope : String} (allRoles : List String)
    (drs : List (String × WrappedRunnableDerivedRole)) (sdr : ScopedDerivedRoles)
    (hdrs : drs ⊆ env.derivedRolesOf input scope) :
    ∃ sdr' s', env.processDerivedRoles allRoles drs sdr s = .ok (sdr', s') ∧
      env.CacheRight input sat taken s' := by
  induction drs generalizing sdr s with
  | nil => exact ⟨sdr, s, rfl, hs⟩
  | cons dr _ ih =>
    obtain ⟨hdr, hrest⟩ := cons_subset.mp hdrs
    obtain ⟨sdr₁, s₁, h₁, hs₁⟩ := hs.processDerivedRole ht hdr allRoles sdr
    unfold CheckEnv.processDerivedRoles
    rw [h₁]
    exact ih hs₁ sdr₁ hrest

theorem CacheRight.enterScope (kind : Kind) (scope : String) :
    ∃ s', env.enterScope input kind scope s = .ok s' ∧ env.CacheRight input sat taken s' := by
  unfold CheckEnv.enterScope
  split
  · cases s.processedScopedDerivedRoles.lookup scope with
    | some => exact ⟨_, rfl, { hs with context := ⟨hs.context.request, hs.context.lenient⟩ }⟩
    | none =>
      obtain ⟨sdr, s₁, h₁, hs₁⟩ := hs.processDerivedRoles ht _
        (env.rangeOrder (env.derivedRolesOf input scope)) {} (env.rangeOrder_perm _).subset
      rw [h₁]
      exact ⟨_, rfl, { hs₁ with context := ⟨hs₁.context.request, hs₁.context.lenient⟩ }⟩
  · exact ⟨s, rfl, hs⟩

end Enter

/-! ## §3. The oracle as a simulation. -/

theorem CacheRight.enter {s : CheckState V} (h : env.CacheRight input sat taken s) (kind : Kind)
    (scope : String) : env.CacheRight input sat (taken ++ [.enter kind scope]) s :=
  { h with
    cached := fun k => by
      rw [evaluated, filterMap_append, filterMap_cons_none rfl, filterMap_nil, append_nil]
      exact h.cached k }

theorem evaluated_look (sat : BindingHandle → Bool) (taken : List RuleStep) (kind : Kind)
    (scope : String) (b : BindingHandle) :
    env.evaluated (fun _ _ => sat) (taken ++ [.look kind scope b]) =
      env.evaluated (fun _ _ => sat) taken ++ [(env.table.idx.evalKey b.id, sat b)] :=
  filterMap_append

/-- A binding whose key is known changes nothing. -/
theorem CacheRight.found {s : CheckState V} (h : env.CacheRight input sat taken s) {c : Bool}
    (hl : s.conditionCache.lookup (env.table.idx.evalKey b.id) = some c) (kind : Kind)
    (scope : String) : env.CacheRight input sat (taken ++ [.look kind scope b]) s := by
  refine { h with cached := fun k => ?_ }
  rw [h.cached] at hl
  rw [evaluated_look]
  exact Lib.lookup_of_log h.cached hl (sat b) k

/-- The outcome of a binding whose key is new is put in the cache. -/
theorem CacheRight.insert {s : CheckState V} (h : env.CacheRight input sat taken s)
    (hl : s.conditionCache.lookup (env.table.idx.evalKey b.id) = none) (kind : Kind)
    (scope : String) : env.CacheRight input sat (taken ++ [.look kind scope b]) { s with
      conditionCache := s.conditionCache.insert (env.table.idx.evalKey b.id) (sat b) } := by
  refine { h with cached := fun k => ?_ }
  rw [h.cached] at hl
  rw [evaluated_look]
  exact Lib.lookup_insert_of_log h.cached hl (sat b) k

section Simulation

variable (ho : env.Outcomes input sat) (ht : env.Total input)
  (hset : env.SettledBy input (fun _ _ => sat) settled)

include ho ht hset

/-- A binding that is looked at evaluates to the outcome that counts for it. -/
theorem Outcomes.evalBinding {kind : Kind} {scope : String} (hb : env.Consulted input b)
    (hlook : taken ++ [.look kind scope b] <+: env.allSteps input settled)
    (s : CheckState V) (hs : env.CacheRight input sat taken s) :
    ∃ s', env.evalBinding b s = .ok (.outcome (settled kind scope b), s') ∧
      env.CacheRight input sat (taken ++ [.look kind scope b]) s' := by
  have hvars : ∀ p : Option RowParams, (p = b.core.params ∨ p = b.core.derivedRoleParams) →
      ∀ s, env.CacheRight input sat taken s → ∃ vars s',
      env.paramVars p s = .ok (paramConstants p, vars, s') ∧ env.CacheRight input sat taken s' ∧
      env.MayHold input p vars := by
    intro p hp
    refine paramVars_of env (fun hnone => ?_) (fun rp hrp s vars hs hl => ?_) (fun rp hrp s hs => ?_)
    · rw [hnone]
      rfl
    · rw [hrp]
      exact hs.held _ vars hl
    · have hparams := hp.imp (fun h => h.symm.trans hrp) (fun h => h.symm.trans hrp)
      obtain ⟨vars, hv⟩ := ht.ruleVariables b hb rp hparams s.evalCtx
      have hcomputed : env.VarsComputed input rp.key vars := .rule hb hparams hs.context hv
      rw [hrp]
      exact ⟨vars, hv, hcomputed,
        { hs with held := Lib.EntriesHold.insert hs.held hcomputed }⟩
  have hsettled := hset.lookup_eq hlook
  rw [evaluated_look] at hsettled
  -- a binding that is not in the cache is the first with its key
  have hfirst : ∀ s, env.CacheRight input sat taken s →
      s.conditionCache.lookup (env.table.idx.evalKey b.id) = none → sat b = settled kind scope b := by
    intro s hs hl
    rw [hs.cached] at hl
    exact Option.some.inj ((Lib.lookup_append_of_none hl _).symm.trans hsettled)
  refine evalBinding_of env (hvars _ (Or.inl rfl)) (hvars _ (Or.inr rfl)) ?_ ?_ ?_ s hs
  · intro s c hs hl
    have hknown := hl
    rw [hs.cached] at hknown
    rw [Lib.lookup_append_of_some hknown] at hsettled
    exact ⟨Option.some.inj hsettled, hs.found hl kind scope⟩
  · intro s vars drVars hs hl hvars hdrVars
    rw [ho b hb s.evalCtx hs.context vars drVars hvars hdrVars, hfirst s hs hl]
  · intro s hs hl
    rw [← hfirst s hs hl]
    exact hs.insert hl kind scope

theorem Outcomes.simulates : Simulates env input settled (env.allSteps input settled)
    (env.CacheRight input sat) where
  enter := by
    intro taken kind scope s _ hs
    obtain ⟨s', henter, hs'⟩ := hs.enterScope ht kind scope
    exact ⟨s', henter, hs'.enter kind scope⟩
  eval := by
    intro taken kind scope b s hpre hs
    have hmem : .look kind scope b ∈ env.allSteps input settled := hpre.subset (by simp)
    obtain ⟨a, ha, hstep⟩ := mem_flatMap.mp hmem
    exact ho.evalBinding ht hset ⟨kind, scope, consultedAt_of_look_mem ha hstep⟩ hpre s hs

end Simulation

theorem cacheRight_initialState (hlenient : env.evalParams.strictEvaluation = false) :
    env.CacheRight input sat [] (env.initialState input) :=
  ⟨⟨rfl, hlenient⟩, (fun _ _ hl => nomatch hl), fun _ => rfl⟩

/-- **The answers of a check are those of the rule for the outcomes that count**, where variables can
be computed and outcomes are fixed. -/
theorem Outcomes.check_spec (ho : env.Outcomes input sat) (ht : env.Total input)
    (hlenient : env.evalParams.strictEvaluation = false)
    (hset : env.SettledBy input (fun _ _ => sat) settled) (hanswers : env.answers input = true) :
    ∃ result, env.check input = .ok result ∧ ∀ a ∈ input.actions, (answer result a).effect =
      if env.proceeds input then env.decision input settled a else .deny :=
  CheckEnv.check_spec (ho.simulates ht hset) (cacheRight_initialState hlenient) hanswers

/-! ## §4. A check that leaves early. -/

/-- A role that is allowed is allowed by a policy that the existence checks see, except that
they look for principal policies under the principal's version and the loops under the
resource's. -/
theorem reachesLoops_of_roleOutcome_allow {sat : Kind → String → BindingHandle → Bool}
    {kind : Kind} {action role : String} (hk : kind = .principal ∨ kind = .resource)
    (hversion : kind = .principal → env.principalVersion input = env.resourceVersion input)
    (hne : env.resourceVersion input ≠ "") (hkind : input.resource.kind ≠ "")
    (h : env.roleOutcome input sat kind action role = .allow) : env.reachesLoops input = true := by
  obtain ⟨scope, hscope, b, hb, -, hallow⟩ := exists_of_chainOutcome_allow h
  -- the ALLOW is an indexed binding: what is made up for role policies grants nothing
  rcases Index.mem_query env.table.exact hb with ⟨-, hsynthetic⟩ | ⟨i, hlive, hret⟩
  · exact absurd hallow hsynthetic.effect
  · have hbver := (hret.selects.version.resolve_left hne).1
    have hbsc : b.scope ∈ env.scopesFor input kind := by
      rw [hret.selects.scope]; exact hscope
    have hbkind : b.core.policyKind = kind :=
      hret.selects.kind.resolve_left (by rcases hk with rfl | rfl <;> exact Kind.noConfusion)
    have hexists : env.scopedPolicyExists input kind = true := by
      unfold scopedPolicyExists
      rcases hk with rfl | rfl
      · rw [hversion rfl]
        exact Index.scopedPrincipalExists_of_live env.table.exact hlive hbver hne hbsc hbkind
      · rw [if_neg (by decide)]
        exact Index.scopedResourceExists_of_live env.table.exact hlive hbver hne hbsc hbkind
          (hret.selects.resource.resolve_left hkind)
    have hnonempty : (env.scopesFor input kind).isEmpty = false := by
      cases hs : env.scopesFor input kind with
      | nil => rw [hs] at hscope; exact (not_mem_nil hscope).elim
      | cons => rfl
    unfold reachesLoops
    rcases hk with rfl | rfl
    · rw [hnonempty, hexists]; rfl
    · rw [hnonempty, hexists, Bool.and_false, Bool.or_true]; rfl

/-! ## §5. Check decides by the rule. -/

/-- **The effects that a check sets are those of the rule.** -/
def FollowsRule (env : CheckEnv V) (input : CheckInput) (sat : BindingHandle → Bool) : Prop :=
  ∃ result, env.check input = .ok result ∧ ∀ a ∈ input.actions,
    (answer result a).effect = env.decision input (fun _ _ => sat) a

/-- What must not happen: that the sharing of evaluation keys changes what the rule decides, or that
the check ends before its loops although the rule allows something. -/
structure Undisturbed (env : CheckEnv V) (input : CheckInput) (sat : BindingHandle → Bool)
    (settled : Kind → String → BindingHandle → Bool) : Prop where
  answers : env.answers input = true
  decided : env.proceeds input = true → ∀ a ∈ input.actions,
    env.decision input settled a = env.decision input (fun _ _ => sat) a
  denied : env.proceeds input = false → ∀ a ∈ input.actions,
    env.decision input (fun _ _ => sat) a = .deny

/-- **Check follows the rule exactly if it is not disturbed.** -/
theorem followsRule_iff (ho : env.Outcomes input sat) (ht : env.Total input)
    (hlenient : env.evalParams.strictEvaluation = false)
    (hset : env.SettledBy input (fun _ _ => sat) settled) :
    env.FollowsRule input sat ↔ env.Undisturbed input sat settled := by
  cases hanswers : env.answers input with
  | false =>
    -- validation fails, so there is no result
    constructor
    · rintro ⟨result, hcheck, -⟩
      rw [check_of_not_answers hanswers] at hcheck
      exact nomatch hcheck
    · intro h
      exact absurd (hanswers.symm.trans h.answers) Bool.false_ne_true
  | true =>
    obtain ⟨result, hcheck, hresult⟩ := ho.check_spec ht hlenient hset hanswers
    have hiff : env.FollowsRule input sat ↔ ∀ a ∈ input.actions,
        (if env.proceeds input then env.decision input settled a else .deny) =
          env.decision input (fun _ _ => sat) a := by
      unfold FollowsRule
      rw [hcheck]
      simp only [Except.ok.injEq, exists_eq_left']
      exact forall₂_congr (fun a ha => by rw [hresult a ha])
    rw [hiff]
    constructor
    · intro h
      refine ⟨hanswers, fun hp a ha => ?_, fun hp a ha => ?_⟩
      · rw [← h a ha, if_pos hp]
      · rw [← h a ha, hp]
        rfl
    · intro h a ha
      cases hp : env.proceeds input with
      | true => exact h.decided hp a ha
      | false => exact (h.denied hp a ha).symm

theorem FollowsRule.checkedEffect_eq (h : env.FollowsRule input sat) {a : String}
    (ha : a ∈ input.actions) :
    checkedEffect env input a = some (env.decision input (fun _ _ => sat) a) := by
  obtain ⟨result, hcheck, hresult⟩ := h
  unfold checkedEffect
  rw [hcheck, ← hresult a ha]

/-- The request gets to the loops, and the rule allows the action with the outcomes that are
settled. -/
def AllowsSettled (env : CheckEnv V) (input : CheckInput)
    (settled : Kind → String → BindingHandle → Bool) (action : String) : Prop :=
  env.proceeds input = true ∧ env.decision input settled action = .allow

/-- **When check allows an action.** -/
theorem Outcomes.checkedEffect_allow_iff (ho : env.Outcomes input sat) (ht : env.Total input)
    (hlenient : env.evalParams.strictEvaluation = false)
    (hset : env.SettledBy input (fun _ _ => sat) settled) {a : String} (ha : a ∈ input.actions) :
    checkedEffect env input a = some .allow ↔ env.AllowsSettled input settled a := by
  unfold AllowsSettled checkedEffect
  cases hanswers : env.answers input with
  | false =>
    rw [check_of_not_answers hanswers]
    refine ⟨(fun h => nomatch h), fun h => ?_⟩
    rw [answers_of_passes (Bool.and_eq_true_iff.mp h.1).2] at hanswers
    exact Bool.noConfusion hanswers
  | true =>
    obtain ⟨result, hcheck, hresult⟩ := ho.check_spec ht hlenient hset hanswers
    rw [hcheck]
    show some (answer result a).effect = some .allow ↔ _
    rw [hresult a ha, Option.some.injEq]
    cases env.proceeds input <;> simp

/-- Consulted bindings with the same evaluation key have the same outcome. -/
def ConsultedAgree (env : CheckEnv V) (input : CheckInput) (sat : BindingHandle → Bool) : Prop :=
  ∀ b b', env.Consulted input b → env.Consulted input b' →
    env.table.idx.evalKey b.id = env.table.idx.evalKey b'.id → sat b = sat b'

/-- Then so have those that the rule looks at. -/
theorem ConsultedAgree.settledBy (h : env.ConsultedAgree input sat) :
    env.SettledBy input (fun _ _ => sat) (fun _ _ => sat) := by
  refine KeysAgree.settledBy (fun p hp q hq hkey => ?_)
  obtain ⟨kind, scope, b, hb, rfl⟩ := mem_evaluated.mp hp
  obtain ⟨kind', scope', b', hb', rfl⟩ := mem_evaluated.mp hq
  obtain ⟨a, ha, hstep⟩ := mem_flatMap.mp hb
  obtain ⟨a', ha', hstep'⟩ := mem_flatMap.mp hb'
  exact h b b' ⟨kind, scope, consultedAt_of_look_mem ha hstep⟩
    ⟨kind', scope', consultedAt_of_look_mem ha' hstep'⟩ hkey

/-! ## §6. The order of the roles. -/

/-- The same request with other roles of the principal. -/
def withRoles (input : CheckInput) (roles : List String) : CheckInput :=
  { input with principal := { input.principal with roles := roles } }

/-- The bindings of principal policies do not depend on the role. -/
def PrincipalRoleFree (env : CheckEnv V) (input : CheckInput) : Prop :=
  ∀ action ∈ input.actions, ∀ scope ∈ env.scopesFor input .principal,
    ∀ role ∈ input.principal.roles, ∀ role' ∈ input.principal.roles,
    env.bindingsFor input .principal action role scope =
      env.bindingsFor input .principal action role' scope

section Order

variable {roles : List String} {action : String}

theorem consulted_of_subset (hfree : env.PrincipalRoleFree input)
    (hsub : roles ⊆ input.principal.roles)
    (h : env.Consulted (withRoles input roles) b) : env.Consulted input b := by
  obtain ⟨kind, scope, hk, hs, action, ha, role, hr, hb⟩ := h
  rcases hk with rfl | rfl
  · -- the first role of the reordered list stands for the first of the original one
    have hmem : role ∈ input.principal.roles := hsub (mem_of_mem_take hr)
    obtain ⟨first, rest, hroles⟩ := exists_cons_of_ne_nil (ne_nil_of_mem hmem)
    have hfirst : first ∈ input.principal.roles := by rw [hroles]; exact mem_cons_self
    refine ⟨.principal, scope, Or.inl rfl, hs, action, ha, first, ?_, ?_⟩
    · show first ∈ input.principal.roles.take 1
      rw [hroles]
      exact mem_cons_self
    · rw [hfree action ha scope hs first hfirst role hmem]
      exact hb
  · exact ⟨.resource, scope, Or.inr rfl, hs, action, ha, role, hsub hr, hb⟩

/-- The rule allows what it allows to one of the roles alone. -/
theorem decision_allow_iff (hfree : env.PrincipalRoleFree input)
    (sat : Kind → String → BindingHandle → Bool) (ha : action ∈ input.actions) :
    env.decision input sat action = .allow ↔ ∃ role ∈ input.principal.roles,
      env.decision (withRoles input [role]) sat action = .allow := by
  have hone : ∀ role ∈ input.principal.roles,
      env.principalOutcome (withRoles input [role]) sat action =
        env.principalOutcome input sat action := by
    intro role hrole
    obtain ⟨first, rest, hroles⟩ := exists_cons_of_ne_nil (ne_nil_of_mem hrole)
    unfold principalOutcome
    rw [hroles]
    exact chainOutcome_congr _ (fun scope hs =>
      hfree action ha scope hs role hrole first (by simp [hroles]))
  simp only [decision_eq_ite, ite_eq_left_iff, reduceCtorEq, imp_false, not_not]
  constructor
  · rintro (hprincipal | ⟨hprincipal, role, hrole, hout⟩)
    · cases hroles : input.principal.roles with
      | nil => simp [principalOutcome, hroles] at hprincipal
      | cons first rest =>
        exact ⟨first, mem_cons_self, .inl ((hone first (by simp [hroles])).trans hprincipal)⟩
    · exact ⟨role, hrole, .inr ⟨(hone role hrole).trans hprincipal, role, mem_singleton_self _, hout⟩⟩
  · rintro ⟨role, hrole, hprincipal | ⟨hprincipal, r, hr, hout⟩⟩
    · exact .inl ((hone role hrole).symm.trans hprincipal)
    · rw [mem_singleton.mp hr] at hout
      exact .inr ⟨(hone role hrole).symm.trans hprincipal, role, hrole, hout⟩

variable (hperm : roles.Perm input.principal.roles) (hfree : env.PrincipalRoleFree input)

include hperm hfree

theorem decision_withRoles (sat : Kind → String → BindingHandle → Bool)
    (ha : action ∈ input.actions) :
    env.decision (withRoles input roles) sat action = env.decision input sat action := by
  have hfree' : env.PrincipalRoleFree (withRoles input roles) := fun a ha scope hs role hr role' hr' =>
    hfree a ha scope hs role (hperm.subset hr) role' (hperm.subset hr')
  have hiff := (decision_allow_iff hfree' sat ha).trans ((exists_congr (fun role =>
    and_congr_left' hperm.mem_iff)).trans (decision_allow_iff hfree sat ha).symm)
  rw [decision_eq_ite, decision_eq_ite] at hiff ⊢
  split_ifs at hiff ⊢ <;> simp_all

end Order

/-- **Check implements its decision rule exactly if it is not disturbed**, whatever outcomes are
settled (and some are, if not the given ones then others).  And where it implements the rule, the
order of the roles does not matter, as long as the bindings of principal policies do not depend on
the role. -/
theorem check_eq_decision (env : CheckEnv V) (input : CheckInput) (sat : BindingHandle → Bool)
    (horacle : env.Oracle input sat) (hlenient : env.evalParams.strictEvaluation = false) :
    (∃ settled, env.SettledBy input (fun _ _ => sat) settled) ∧
    (∀ settled, env.SettledBy input (fun _ _ => sat) settled →
      (env.FollowsRule input sat ↔ env.Undisturbed input sat settled)) ∧
    ∀ roles, roles.Perm input.principal.roles → env.PrincipalRoleFree input →
      env.FollowsRule input sat → env.FollowsRule (withRoles input roles) sat →
      ∀ a ∈ input.actions,
        checkedEffect env (withRoles input roles) a = checkedEffect env input a := by
  refine ⟨env.exists_settledBy input _, fun settled hset => followsRule_iff horacle.outcomes
    (env.total_of_noFailure input horacle.noFailure) hlenient hset, ?_⟩
  intro roles hperm hfree hfollows hfollows' a ha
  rw [hfollows'.checkedEffect_eq ha, hfollows.checkedEffect_eq ha, decision_withRoles hperm hfree _ ha]

/-- **Roles do not interfere**: check allows an action exactly if it allows it to one of the roles
alone, as long as outcomes do not depend on the roles. -/
theorem check_allow_iff (env : CheckEnv V) (input : CheckInput) (sat : BindingHandle → Bool)
    (horacle : env.Oracle input sat) (hkeys : env.ConsultedAgree input sat)
    (hlenient : env.evalParams.strictEvaluation = false) (hschema : env.SchemaPasses)
    (hfree : env.PrincipalRoleFree input)
    (halone : ∀ role ∈ input.principal.roles, env.Oracle (withRoles input [role]) sat) :
    ∃ result, env.check input = .ok result ∧ ∀ a ∈ input.actions,
      ((answer result a).effect = .allow ↔ ∃ role ∈ input.principal.roles, ∃ result',
        env.check (withRoles input [role]) = .ok result' ∧ (answer result' a).effect = .allow) := by
  cases hreach : env.reachesLoops input with
  | false =>
    -- nobody gets to the loops, with one role or with many
    obtain ⟨result, hcheck, hdeny⟩ := check_of_not_proceeds (hschema.proceeds_eq.trans hreach)
      (answers_of_passes (hschema _ _))
    refine ⟨result, hcheck, fun a _ => ⟨fun h => ?_, ?_⟩⟩
    · rw [hdeny a] at h
      exact Effect.noConfusion h
    · rintro ⟨role, -, result', hcheck', hallow⟩
      have hp := proceeds_of_check_allow hcheck' hallow
      rw [hschema.proceeds_eq] at hp
      exact absurd (hreach.symm.trans hp) Bool.false_ne_true
  | true =>
    have hfollows : ∀ roles, roles ⊆ input.principal.roles → env.Oracle (withRoles input roles) sat →
        ∃ result, env.check (withRoles input roles) = .ok result ∧ ∀ a ∈ input.actions,
          (answer result a).effect = env.decision (withRoles input roles) (fun _ _ => sat) a := by
      intro roles hsub ho
      have hagree : env.ConsultedAgree (withRoles input roles) sat := fun b b' hb hb' =>
        hkeys b b' (consulted_of_subset hfree hsub hb) (consulted_of_subset hfree hsub hb')
      have hproceeds : env.proceeds (withRoles input roles) = true :=
        hschema.proceeds_eq.trans hreach
      have hspec := ho.outcomes.check_spec (env.total_of_noFailure _ ho.noFailure) hlenient
        hagree.settledBy (answers_of_passes (hschema _ _))
      rw [hproceeds] at hspec
      exact hspec
    obtain ⟨result, hcheck, hresult⟩ := hfollows input.principal.roles (List.Subset.refl _) horacle
    refine ⟨result, hcheck, fun a ha => ?_⟩
    rw [hresult a ha]
    refine (decision_allow_iff hfree _ ha).trans
      (exists_congr (fun role => and_congr_right (fun hrole => ?_)))
    obtain ⟨result', hcheck', hresult'⟩ := hfollows [role] (by simpa using hrole) (halone role hrole)
    simp only [hcheck', Except.ok.injEq, exists_eq_left', hresult' a ha]

/-! ## §7. Two rules with one evaluation key. -/

/-- A rule on viewing documents, named as the compiler names it. -/
def documentRule (name : String) (idx : Nat) (effect : Effect) (cond : Option String) :
    ResourceRule where
  name := Namer.resourceRuleName name idx
  actions := ["view"]
  roles := ["user"]
  derivedRoles := []
  condition := cond.map (fun e => .expr { original := e, checked := none })
  effect := effect
  output := none
  emitOutput := none

/-- Archived and locked documents cannot be viewed, all others can.  The first rule is named
`rule-002`, which is also the name the second one gets. -/
def documentPolicy : PolicySet :=
  .resourcePolicy (Namer.resourcePolicyFqn "document" "default" "") "document" "default" [{
    scope := ""
    derivedRoles := []
    rules := [ documentRule "rule-002" 1 .deny (some "R.attr.archived"),
      documentRule "" 2 .deny (some "R.attr.locked"),
      documentRule "open" 3 .allow none]
    scopePermissions := .unspecified
    orderedVariables := []
    constants := [] }]

def documentTable : LoadedTable Externals.sample :=
  LoadedTable.ofPolicies Externals.sample [documentPolicy] (by decide +kernel) (by decide +kernel)

variable (truth : String → Bool)

/-- `truth` gives the value of each condition. -/
def documentEnv : CheckEnv Bool :=
  CheckEnv.sample documentTable (fun e _ => truth e)

def documentInput : CheckInput where
  requestId := ""
  principal := { id := "alice", roles := ["user"], attr := [], policyVersion := "", scope := "" }
  resource := { kind := "document", id := "d1", attr := [], policyVersion := "", scope := "" }
  actions := ["view"]
  auxData := none

/-- The outcome of a rule without derived roles whose condition is a single expression. -/
def exprOutcome (b : BindingHandle) : Bool :=
  match b.core.condition with
  | some (.expr e) => truth e.original
  | _ => true

theorem oracle_of_leaves {input : CheckInput}
    (hshape : ((documentEnv (fun _ => false)).consulted input).all (fun b =>
      b.core.derivedRoleCondition.isNone && isLeaf b.core.condition) = true) :
    (documentEnv truth).Oracle input (exprOutcome truth) where
  noFailure := fun e act h => nomatch h
  outcomes := by
    intro b hb ec _ vars drVars _ _
    obtain ⟨_, _, hb⟩ := hb
    have hb' := all_eq_true.mp hshape b hb.mem_consulted
    rw [Bool.and_eq_true, Option.isNone_iff_eq_none] at hb'
    unfold bindingOutcome exprOutcome EvalContext.satisfiesCondition
    rw [hb'.1]
    cases hc : b.core.condition with
    | none => rfl
    | some c =>
      rw [hc] at hb'
      cases c with
      | expr => unfold EvalContext.satisfies; rfl
      | all | any | none => exact Bool.noConfusion hb'.2

theorem documentEnv_oracle : (documentEnv truth).Oracle documentInput (exprOutcome truth) :=
  oracle_of_leaves truth (by decide +kernel)

/-- A locked document that is not archived: the rule says DENY, because the second rule is
satisfied, but check takes the outcome of the first rule for it and allows. -/
theorem check_ne_decision_on_shared_key : let truth := fun e => e == "R.attr.locked"
    (documentEnv truth).Oracle documentInput (exprOutcome truth) ∧
    (documentEnv truth).evalParams.strictEvaluation = false ∧
    (documentEnv truth).reachesLoops documentInput = true ∧
    (documentEnv truth).decision documentInput (fun _ _ => exprOutcome truth) "view" = .deny ∧
    checkedEffect (documentEnv truth) documentInput "view" = some .allow := by
  refine ⟨documentEnv_oracle _, rfl, ?_, ?_, ?_⟩
  · decide +kernel
  · decide +kernel
  · decide +kernel

/-- Requests without principal policies. -/
theorem principalRoleFree_of_isEmpty {env : CheckEnv V} {input : CheckInput}
    (h : ∀ a ∈ input.actions, ∀ scope ∈ env.scopesFor input .principal,
      ∀ role ∈ input.principal.roles, (env.bindingsFor input .principal a role scope).isEmpty) :
    env.PrincipalRoleFree input := by
  intro a ha scope hs role hr role' hr'
  rw [isEmpty_iff.mp (h a ha scope hs role hr), isEmpty_iff.mp (h a ha scope hs role' hr')]

/-- An archived document that is not locked.  For the first role the rule stops at the first of the
two rules with one key, and for the second there is none, so check follows it in either order of the
roles. -/
theorem check_eq_decision_archived : let truth := fun e => e == "R.attr.archived"
    let input := withRoles documentInput ["user", "guest"]
    (documentEnv truth).FollowsRule input (exprOutcome truth) ∧
    checkedEffect (documentEnv truth) (withRoles input ["guest", "user"]) "view" =
      checkedEffect (documentEnv truth) input "view" := by
  intro truth input
  -- either way, what the rule looks at can be told apart by its keys
  have hfollows : ∀ {inp : CheckInput}, (documentEnv truth).Oracle inp (exprOutcome truth) →
      (documentEnv truth).KeysAgree (fun _ _ => exprOutcome truth)
        ((documentEnv truth).allSteps inp (fun _ _ => exprOutcome truth)) →
      (documentEnv truth).proceeds inp = true →
      (documentEnv truth).FollowsRule inp (exprOutcome truth) := by
    intro inp horacle hkeys hp
    refine ((check_eq_decision (documentEnv truth) inp _ horacle rfl).2.1 _ hkeys.settledBy).mpr
      ⟨answers_of_passes rfl, fun _ _ _ => rfl, fun hp' => absurd (hp'.symm.trans hp) (by decide)⟩
  have horacle : (documentEnv truth).Oracle input (exprOutcome truth) :=
    oracle_of_leaves truth (by decide +kernel)
  have hboth : (documentEnv truth).FollowsRule input (exprOutcome truth) ∧
      (documentEnv truth).FollowsRule (withRoles input ["guest", "user"]) (exprOutcome truth) :=
    ⟨hfollows horacle (by decide +kernel) (by decide +kernel),
      hfollows (oracle_of_leaves truth (by decide +kernel)) (by decide +kernel) (by decide +kernel)⟩
  exact ⟨hboth.1, (check_eq_decision (documentEnv truth) input _ horacle rfl).2.2 ["guest", "user"]
    (.swap "user" "guest" []) (principalRoleFree_of_isEmpty (by decide +kernel)) hboth.1 hboth.2
    "view" (by decide)⟩

/-- Where every condition holds, outcomes agree. -/
theorem check_allow_iff_document : let env := documentEnv (fun _ => true)
    let input := withRoles documentInput ["user", "guest"]
    ∃ result, env.check input = .ok result ∧ ∀ a ∈ input.actions, ((answer result a).effect = .allow ↔
      ∃ role ∈ ["user", "guest"], ∃ result', env.check (withRoles input [role]) = .ok result' ∧
        (answer result' a).effect = .allow) := by
  intro env input
  have hsat : ∀ b, exprOutcome (fun _ => true) b = true := by
    intro b
    unfold exprOutcome
    split <;> rfl
  refine check_allow_iff _ _ (exprOutcome (fun _ => true)) (oracle_of_leaves _ (by decide +kernel))
    (fun b b' _ _ _ => (hsat b).trans (hsat b').symm) rfl (fun _ _ => rfl)
    (principalRoleFree_of_isEmpty (by decide +kernel)) (fun role hr => ?_)
  rcases List.mem_pair.mp hr with rfl | rfl <;> exact oracle_of_leaves _ (by decide +kernel)

end AccessManagement.CheckEnv
