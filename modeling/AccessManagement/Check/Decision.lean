/-
  AccessManagement.Check.Decision — THE DECLARATIVE DECISION RULE AND THE LOOPS THAT COMPUTE IT.

  The rule, for bindings whose outcome is known (`sat`):

    * a role walks its chain of scopes from the most specific one; the first scope with a
      satisfied DENY, or with a satisfied ALLOW where the scope overrides its parent, decides
      (`chainOutcome`);
    * the principal's own policies come first and are final if they decide;
    * otherwise one role that is allowed is enough (`decision`).

  The rule looks at a part of the bindings only, and in a certain order: `steps`.  `Simulates`
  says what the carried state must guarantee for the loops to see the outcomes `sat`: on the
  steps of the rule, every scope can be entered and every binding evaluates to its outcome.  It
  names neither the caches nor the evaluation context, so it serves every account of what they
  do.

  Main result: `checkAction_spec` — under a simulation, one action is decided by the rule, and
  the loops take the steps of the rule.
-/
import AccessManagement.Check.Check
import AccessManagement.Index.QuerySpec
import AccessManagement.Lib.Loops

namespace AccessManagement

open List Lib

/-! ## §1. The rule. -/

/-- Is there a satisfied binding with the effect? -/
def anySatisfied (sat : BindingHandle → Bool) (e : Effect) (bs : List BindingHandle) : Bool :=
  bs.any (fun b => sat b && decide (b.core.effect = e))

theorem anySatisfied_cons (sat : BindingHandle → Bool) (e : Effect) (b : BindingHandle)
    (bs : List BindingHandle) : anySatisfied sat e (b :: bs) =
      ((sat b && decide (b.core.effect = e)) || anySatisfied sat e bs) := rfl

theorem exists_of_anySatisfied {sat : BindingHandle → Bool} {e : Effect}
    {bs : List BindingHandle} (h : anySatisfied sat e bs = true) :
    ∃ b ∈ bs, sat b = true ∧ b.core.effect = e := by
  obtain ⟨b, hb, hsat⟩ := any_eq_true.mp h
  rw [Bool.and_eq_true, decide_eq_true_eq] at hsat
  exact ⟨b, hb, hsat⟩

section Chain

variable (permissions : String → ScopePermissions) (consult : String → List BindingHandle)
  (sat : String → BindingHandle → Bool)

/-- Does a scope decide? -/
def decides (scope : String) : Bool :=
  anySatisfied (sat scope) .deny (consult scope) ||
    (anySatisfied (sat scope) .allow (consult scope) &&
      decide (permissions scope = .overrideParent))

/-- The outcome of a chain of scopes: that of the first scope that decides. -/
def chainOutcome (scopes : List String) : Effect :=
  match scopes.find? (decides permissions consult sat) with
  | none => .noMatch
  | some scope => if anySatisfied (sat scope) .deny (consult scope) then .deny else .allow

variable {permissions consult sat}

variable {scope : String} {scopes : List String}

/-- The rule as a recursion over the chain. -/
theorem chainOutcome_cons : chainOutcome permissions consult sat (scope :: scopes) =
      if anySatisfied (sat scope) .deny (consult scope) then .deny
      else if anySatisfied (sat scope) .allow (consult scope) ∧
          permissions scope = .overrideParent then .allow
      else chainOutcome permissions consult sat scopes := by
  unfold chainOutcome
  rw [List.find?_cons]
  cases hd : decides permissions consult sat scope <;> unfold decides at hd <;> grind

theorem chainOutcome_cons_of_deny (h : anySatisfied (sat scope) .deny (consult scope) = true) :
    chainOutcome permissions consult sat (scope :: scopes) = .deny := by
  rw [chainOutcome_cons, if_pos h]

variable (hdeny : anySatisfied (sat scope) .deny (consult scope) = false)

include hdeny

theorem chainOutcome_cons_of_allow (h : anySatisfied (sat scope) .allow (consult scope) = true)
    (hover : permissions scope = .overrideParent) :
    chainOutcome permissions consult sat (scope :: scopes) = .allow := by
  simp [chainOutcome_cons, hdeny, h, hover]

theorem chainOutcome_cons_of_not (h : anySatisfied (sat scope) .allow (consult scope) = true →
      permissions scope ≠ .overrideParent) :
    chainOutcome permissions consult sat (scope :: scopes) =
      chainOutcome permissions consult sat scopes := by
  grind [chainOutcome_cons]

omit hdeny

/-- A chain comes out as one of three effects. -/
theorem chainOutcome_cases (scopes : List String) :
    chainOutcome permissions consult sat scopes = .allow ∨
    chainOutcome permissions consult sat scopes = .deny ∨
    chainOutcome permissions consult sat scopes = .noMatch := by
  unfold chainOutcome
  cases scopes.find? (decides permissions consult sat) with
  | none => exact Or.inr (Or.inr rfl)
  | some =>
    dsimp only
    split
    · exact Or.inr (Or.inl rfl)
    · exact Or.inl rfl

/-- A chain only looks at its own scopes. -/
theorem chainOutcome_congr {consult' : String → List BindingHandle} (scopes : List String)
    (h : ∀ scope ∈ scopes, consult scope = consult' scope) :
    chainOutcome permissions consult sat scopes = chainOutcome permissions consult' sat scopes := by
  induction scopes with
  | nil => rfl
  | cons _ _ ih =>
    rw [forall_mem_cons] at h
    rw [chainOutcome_cons, chainOutcome_cons, h.1, ih h.2]

/-- Where an ALLOW of a chain comes from. -/
theorem exists_of_chainOutcome_allow (h : chainOutcome permissions consult sat scopes = .allow) :
    ∃ scope ∈ scopes, ∃ b ∈ consult scope, sat scope b = true ∧ b.core.effect = .allow := by
  induction scopes with
  | nil => cases h
  | cons scope _ ih =>
    rw [chainOutcome_cons] at h
    split_ifs at h with hdeny hallow
    · exact ⟨scope, mem_cons_self, exists_of_anySatisfied hallow.1⟩
    · obtain ⟨scope', hmem, hb⟩ := ih h
      exact ⟨scope', mem_cons_of_mem _ hmem, hb⟩

end Chain

/-- Does a verdict of the schema manager let the evaluation go on? -/
def Validation.passes : Validation → Bool
  | .valid => true
  | .invalid reject => !reject
  | .failed => false

namespace CheckEnv

variable {V : Type} (env : CheckEnv V) (input : CheckInput)
  (sat : Kind → String → BindingHandle → Bool)

/-- The outcome of a role for a policy kind. -/
def roleOutcome (kind : Kind) (action role : String) : Effect :=
  chainOutcome env.table.getScopeScopePermissions (env.bindingsFor input kind action role)
    (sat kind) (env.scopesFor input kind)

theorem roleOutcome_cases (kind : Kind) (action role : String) :
    env.roleOutcome input sat kind action role = .allow ∨
    env.roleOutcome input sat kind action role = .deny ∨
    env.roleOutcome input sat kind action role = .noMatch :=
  chainOutcome_cases _

/-- The outcome of the principal's own policies, computed for the first role only. -/
def principalOutcome (action : String) : Effect :=
  match input.principal.roles with
  | [] => .noMatch
  | role :: _ => env.roleOutcome input sat .principal action role

theorem principalOutcome_cases (action : String) : env.principalOutcome input sat action = .allow ∨
    env.principalOutcome input sat action = .deny ∨
    env.principalOutcome input sat action = .noMatch := by
  unfold principalOutcome
  cases input.principal.roles with
  | nil => exact Or.inr (Or.inr rfl)
  | cons role => exact env.roleOutcome_cases input sat .principal action role

/-- **The decision rule.** -/
def decision (action : String) : Effect :=
  match env.principalOutcome input sat action with
  | .noMatch =>
    if input.principal.roles.any
        (fun role => decide (env.roleOutcome input sat .resource action role = .allow))
    then .allow else .deny
  | e => e

theorem decision_eq_ite (action : String) : env.decision input sat action =
    if env.principalOutcome input sat action = .allow ∨
      env.principalOutcome input sat action = .noMatch ∧
        ∃ role ∈ input.principal.roles, env.roleOutcome input sat .resource action role = .allow
    then .allow else .deny := by
  unfold decision
  rcases env.principalOutcome_cases input sat action with h | h | h <;> simp [h]

/-! ## §2. What the rule looks at. -/

variable (kind : Kind) (action role : String)

/-- Is a binding a satisfied DENY? -/
def denies (sat : BindingHandle → Bool) (b : BindingHandle) : Bool :=
  sat b && decide (b.core.effect = .deny)

/-- The scopes that the rule gets to for a role: up to the first that decides. -/
def enteredScopes : List String :=
  upTo (decides env.table.getScopeScopePermissions (env.bindingsFor input kind action role)
    (sat kind)) (env.scopesFor input kind)

/-- The bindings that the rule looks at in a scope: up to the first satisfied DENY. -/
def bindingsSeen (scope : String) : List BindingHandle :=
  upTo (denies (sat kind scope)) (env.bindingsFor input kind action role scope)

/-- Is a role allowed? -/
def allows : Bool := decide (env.roleOutcome input sat kind action role = .allow)

/-- The roles that the rule gets to: up to the first that is allowed, and none for the resource
policies if those of the principal decide. -/
def reachedRoles : List String :=
  if kind = .resource ∧ env.principalOutcome input sat action ≠ .noMatch then []
  else upTo (env.allows input sat kind action) (rolesFor input kind)

/-- A step of the rule: it gets to a scope, or looks at a binding there. -/
inductive RuleStep where
  | enter (kind : Kind) (scope : String)
  | look (kind : Kind) (scope : String) (b : BindingHandle)

/-- The steps in a scope. -/
def stepsIn (scope : String) : List RuleStep :=
  .enter kind scope :: (env.bindingsSeen input sat kind action role scope).map (.look kind scope)

/-- The steps for a role. -/
def stepsFor : List RuleStep :=
  (env.enteredScopes input sat kind action role).flatMap (env.stepsIn input sat kind action role)

/-- **The steps that the rule takes for an action.** -/
def steps : List RuleStep :=
  [Kind.principal, Kind.resource].flatMap (fun kind =>
    (env.reachedRoles input sat kind action).flatMap (env.stepsFor input sat kind action))

/-- The steps for all actions of the request. -/
def allSteps : List RuleStep := input.actions.flatMap (env.steps input sat)

/-- The evaluation key of a step that looks at a binding. -/
def keyOf : RuleStep → Option EvaluationKeyTuple
  | .enter _ _ => none
  | .look _ _ b => some (env.table.idx.evalKey b.id)

/-- The outcome of a step that looks at a binding, under its key. -/
def evaluatedIn : RuleStep → Option (EvaluationKeyTuple × Bool)
  | .enter _ _ => none
  | .look kind scope b => some (env.table.idx.evalKey b.id, sat kind scope b)

/-- The outcomes on some steps, in their order. -/
def evaluated (taken : List RuleStep) : List (EvaluationKeyTuple × Bool) :=
  taken.filterMap (env.evaluatedIn sat)

/-- Bindings that are looked at and have the same evaluation key have the same outcome. -/
def KeysAgree (taken : List RuleStep) : Prop :=
  ∀ p ∈ env.evaluated sat taken, ∀ q ∈ env.evaluated sat taken, p.1 = q.1 → p.2 = q.2

instance (taken : List RuleStep) : Decidable (env.KeysAgree sat taken) :=
  inferInstanceAs (Decidable (∀ p ∈ env.evaluated sat taken, ∀ q ∈ env.evaluated sat taken,
    p.1 = q.1 → p.2 = q.2))

/-! ## §3. Simulations. -/

/-- The carried state guarantees the outcomes `sat` on the steps `total` of the rule.  `At taken s` is
what is known of the state after the steps `taken`. -/
structure Simulates (total : List RuleStep) (At : List RuleStep → CheckState V → Prop) : Prop where
  enter : ∀ {taken kind scope s}, taken ++ [.enter kind scope] <+: total → At taken s →
    ∃ s', env.enterScope input kind scope s = .ok s' ∧ At (taken ++ [.enter kind scope]) s'
  eval : ∀ {taken kind scope b s}, taken ++ [.look kind scope b] <+: total → At taken s →
    ∃ s', env.evalBinding b s = .ok (.outcome (sat kind scope b), s') ∧
      At (taken ++ [.look kind scope b]) s'

/-! ## §4. The consulted bindings. -/

/-- A binding that some round of the loops may evaluate, in the scope of that round. -/
structure ConsultedAt (kind : Kind) (scope : String) (b : BindingHandle) : Prop where
  kind_mem : kind = .principal ∨ kind = .resource
  scope_mem : scope ∈ env.scopesFor input kind
  query : ∃ action ∈ input.actions, ∃ role ∈ rolesFor input kind,
    b ∈ env.bindingsFor input kind action role scope

/-- The bindings that the rounds of the loops may evaluate, in their order. -/
def consulted : List BindingHandle :=
  [Kind.principal, Kind.resource].flatMap (fun kind => (env.scopesFor input kind).flatMap (fun scope =>
    input.actions.flatMap (fun action => (rolesFor input kind).flatMap (fun role =>
      env.bindingsFor input kind action role scope))))

section Consulted

variable {env input sat} {visited : List String} {scope : String} {kind : Kind}
  {action role : String} {b : BindingHandle}

theorem reachedRoles_subset : env.reachedRoles input sat kind action ⊆ rolesFor input kind := by
  unfold reachedRoles
  split
  · exact nil_subset _
  · exact upTo_subset _ _

theorem mem_steps {step : RuleStep} : step ∈ env.steps input sat action ↔
    ∃ kind role scope, (kind = .principal ∨ kind = .resource) ∧
      role ∈ env.reachedRoles input sat kind action ∧
      scope ∈ env.enteredScopes input sat kind action role ∧
      step ∈ env.stepsIn input sat kind action role scope := by
  simp only [steps, stepsFor, mem_flatMap, mem_cons, not_mem_nil, or_false]
  constructor
  · rintro ⟨kind, hk, role, hr, scope, hs, hstep⟩
    exact ⟨kind, role, scope, hk, hr, hs, hstep⟩
  · rintro ⟨kind, role, scope, hk, hr, hs, hstep⟩
    exact ⟨kind, hk, role, hr, scope, hs, hstep⟩

theorem mem_evaluated {taken : List RuleStep} {entry : EvaluationKeyTuple × Bool} :
    entry ∈ env.evaluated sat taken ↔ ∃ kind scope b, .look kind scope b ∈ taken ∧
      entry = (env.table.idx.evalKey b.id, sat kind scope b) := by
  rw [evaluated, mem_filterMap]
  constructor
  · rintro ⟨step, hstep, heq⟩
    cases step with
    | enter => cases heq
    | look kind scope b => exact ⟨kind, scope, b, hstep, (Option.some.inj heq).symm⟩
  · rintro ⟨kind, scope, b, hstep, rfl⟩
    exact ⟨.look kind scope b, hstep, rfl⟩

/-- What the rule looks at is consulted. -/
theorem consultedAt_of_look_mem (ha : action ∈ input.actions)
    (h : .look kind scope b ∈ env.steps input sat action) : env.ConsultedAt input kind scope b := by
  obtain ⟨kind', role, scope', hk, hr, hs, hstep⟩ := mem_steps.mp h
  rcases mem_cons.mp hstep with heq | hstep
  · cases heq
  · obtain ⟨b', hb, heq⟩ := mem_map.mp hstep
    cases heq
    exact ⟨hk, upTo_subset _ _ hs, action, ha, role, reachedRoles_subset hr, upTo_subset _ _ hb⟩

theorem ConsultedAt.mem_consulted (h : env.ConsultedAt input kind scope b) :
    b ∈ env.consulted input := by
  obtain ⟨hk, hs, action, ha, role, hr, hb⟩ := h
  simp only [consulted, mem_flatMap]
  exact ⟨kind, by simpa using hk, scope, hs, action, ha, role, hr, hb⟩

/-- The scope of an ALLOW binding has recorded permissions. -/
theorem permissions_of_mem_bindingsFor (hb : b ∈ env.bindingsFor input kind action role scope)
    (heffect : b.core.effect = .allow) : env.table.getScopeScopePermissions scope ≠ .unspecified := by
  rcases Index.mem_query env.table.exact hb with ⟨-, hsynthetic⟩ | ⟨i, hlive, hret⟩
  · exact absurd heffect hsynthetic.effect
  · have hperm := env.table.allowPermissions i b hlive heffect
    rw [hret.selects.scope] at hperm
    exact hperm

/-- A binding consulted for principal policies is not made up for a role policy. -/
theorem fromRolePolicy_of_mem_bindingsFor
    (hb : b ∈ env.bindingsFor input .principal action role scope) :
    b.core.fromRolePolicy = false := by
  rcases Index.mem_query env.table.exact hb with ⟨hkind, -⟩ | ⟨i, hlive, hret⟩
  · exact Kind.noConfusion hkind
  · exact env.table.principalNotRole i b hlive
      (hret.selects.kind.resolve_left (fun h => Kind.noConfusion h))

end Consulted

/-! ## §5. The loops compute the rule. -/

section Loops

variable {env input sat} {total : List RuleStep} {At : List RuleStep → CheckState V → Prop}

/-- What the end of a bindings loop says about the satisfied bindings. -/
def BindingsSpec (sat : BindingHandle → Bool) (bs : List BindingHandle) (p : RoleProgress) :
    BindingsEnd → Prop
  | .next p' => anySatisfied sat .deny bs = false ∧ p'.info.effect = p.info.effect ∧
      p'.hasAllow = (p.hasAllow || anySatisfied sat .allow bs)
  | .deny info => anySatisfied sat .deny bs = true ∧ info.effect = .deny
  | .strictDeny _ => False

variable {kind : Kind} {action role : String} {info roleInfo : EffectInfo} {rule : String → Effect}
  {effects : Effects} {taken : List RuleStep}

theorem bindingsLoop_spec (sim : Simulates env input sat total At) {scope : String}
    (bs : List BindingHandle) (taken : List RuleStep) (p : RoleProgress) (s : CheckState V)
    (hpre : taken ++ (upTo (denies (sat kind scope)) bs).map (.look kind scope) <+: total)
    (hat : At taken s) :
    ∃ e s', env.bindingsLoop scope bs p s = .ok (e, s') ∧
      At (taken ++ (upTo (denies (sat kind scope)) bs).map (.look kind scope)) s' ∧
      BindingsSpec (sat kind scope) bs p e := by
  induction bs generalizing taken p s with
  | nil =>
    refine ⟨.next p, s, rfl, ?_, rfl, rfl, (Bool.or_false _).symm⟩
    rw [upTo, map_nil, append_nil]
    exact hat
  | cons b bs ih =>
    obtain ⟨s₁, heval, hat₁⟩ := sim.eval (next_of_append_cons hpre).1 hat
    -- the steps of the rest of the loop come after this one
    have hrest : denies (sat kind scope) b = false → ∀ p', ∃ e s',
        env.bindingsLoop scope bs p' s₁ = .ok (e, s') ∧
        At (taken ++ (upTo (denies (sat kind scope)) (b :: bs)).map (.look kind scope)) s' ∧
        BindingsSpec (sat kind scope) bs p' e := by
      intro hnot p'
      rw [upTo_cons_of_not hnot] at hpre ⊢
      have hend := ih _ p' s₁ (next_of_append_cons hpre).2 hat₁
      rwa [append_assoc] at hend
    unfold bindingsLoop
    rw [heval]
    cases hsat : sat kind scope b with
    | false =>
      -- an unsatisfied binding leaves no trace
      obtain ⟨e, s₂, hloop, hat₂, hspec⟩ := hrest (by rw [denies, hsat]; rfl) p
      refine ⟨e, s₂, hloop, hat₂, ?_⟩
      cases e with
      | strictDeny => exact hspec
      | deny | next => simpa [BindingsSpec, anySatisfied_cons, hsat] using hspec
    | true =>
      by_cases hdeny : b.core.effect = .deny
      · refine ⟨.deny _, s₁, if_pos hdeny, ?_, ?_, rfl⟩
        · rw [upTo, if_pos (by simp [denies, hsat, hdeny])]
          exact hat₁
        · rw [anySatisfied_cons, hsat, hdeny]
          rfl
      · obtain ⟨e, s₂, hloop, hat₂, hspec⟩ := hrest (by simp [denies, hdeny]) (noteSatisfied b scope p)
        refine ⟨e, s₂, (if_neg hdeny).trans hloop, hat₂, ?_⟩
        have hinfo : (noteSatisfied b scope p).info.effect = p.info.effect := by
          unfold noteSatisfied
          split <;> rfl
        cases e with
        | strictDeny => exact hspec
        | deny => simpa [BindingsSpec, anySatisfied_cons, hdeny] using hspec
        | next =>
          obtain ⟨h1, h2, h3⟩ := hspec
          refine ⟨?_, h2.trans hinfo, ?_⟩
          · rw [anySatisfied_cons, h1, decide_eq_false hdeny, Bool.and_false]
            rfl
          · rw [h3, anySatisfied_cons, hsat, ← Bool.or_assoc]
            rfl

/-- One scope is entered, and its bindings are gone through. -/
theorem scope_spec (sim : Simulates env input sat total At) {scope : String} (p : RoleProgress)
    {s : CheckState V} (hpre : taken ++ env.stepsIn input sat kind action role scope <+: total)
    (hat : At taken s) :
    ∃ s₁ e s₂, env.enterScope input kind scope s = .ok s₁ ∧
      env.bindingsLoop scope (env.bindingsFor input kind action role scope) p s₁ = .ok (e, s₂) ∧
      At (taken ++ env.stepsIn input sat kind action role scope) s₂ ∧
      BindingsSpec (sat kind scope) (env.bindingsFor input kind action role scope) p e := by
  obtain ⟨hfirst, hlooks⟩ := next_of_append_cons hpre
  obtain ⟨s₁, henter, hat₁⟩ := sim.enter hfirst hat
  obtain ⟨e, s₂, hloop, hat₂, hspec⟩ := bindingsLoop_spec sim _ _ p s₁ hlooks hat₁
  rw [append_assoc] at hat₂
  exact ⟨s₁, e, s₂, henter, hloop, hat₂, hspec⟩

/-- The scopes of a role, where `decided` says of each whether it decides. -/
theorem scopesLoop_spec (sim : Simulates env input sat total At) {decided : String → Bool}
    (hdecided : decided = decides env.table.getScopeScopePermissions
      (env.bindingsFor input kind action role) (sat kind)) (scopes : List String)
    (taken : List RuleStep) (p : RoleProgress) (s : CheckState V)
    (hpre : taken ++ (upTo decided scopes).flatMap (env.stepsIn input sat kind action role) <+: total)
    (hno : p.hasAllow = false) (heffect : p.info.effect = .noMatch) (hat : At taken s) :
    ∃ info s', env.scopesLoop input kind action role scopes p s = .ok (.done info, s') ∧
      At (taken ++ (upTo decided scopes).flatMap (env.stepsIn input sat kind action role)) s' ∧
      info.effect = chainOutcome env.table.getScopeScopePermissions
        (env.bindingsFor input kind action role) (sat kind) scopes := by
  induction scopes generalizing taken p s with
  | nil =>
    refine ⟨p.info, s, rfl, ?_, heffect⟩
    rw [upTo, flatMap_nil, append_nil]
    exact hat
  | cons scope scopes ih =>
    have hfirst : taken ++ env.stepsIn input sat kind action role scope <+: total := by
      rw [upTo, flatMap_cons, ← append_assoc] at hpre
      exact (prefix_append _ _).trans hpre
    obtain ⟨s₁, e, s₂, henter, hloop, hat₂, hspec⟩ := scope_spec sim p hfirst hat
    have hdecides : decided scope = (anySatisfied (sat kind scope) .deny
        (env.bindingsFor input kind action role scope) ||
      (anySatisfied (sat kind scope) .allow (env.bindingsFor input kind action role scope) &&
        decide (env.table.getScopeScopePermissions scope = .overrideParent))) := by
      rw [hdecided]
      rfl
    -- what follows if the scope decides, and if it does not
    have hlast : decided scope = true → At (taken ++ (upTo decided (scope :: scopes)).flatMap
        (env.stepsIn input sat kind action role)) s₂ := by
      intro h
      rw [upTo, if_pos h, flatMap_singleton]
      exact hat₂
    have hnext : decided scope = false → ∀ p' : RoleProgress, p'.hasAllow = false →
        p'.info.effect = .noMatch → ∃ info s',
          env.scopesLoop input kind action role scopes p' s₂ = .ok (.done info, s') ∧
          At (taken ++ (upTo decided (scope :: scopes)).flatMap
            (env.stepsIn input sat kind action role)) s' ∧
          info.effect = chainOutcome env.table.getScopeScopePermissions
            (env.bindingsFor input kind action role) (sat kind) scopes := by
      intro h p' hno' heffect'
      rw [upTo_cons_of_not h, flatMap_cons, ← append_assoc] at hpre ⊢
      exact ih _ p' s₂ hpre hno' heffect' hat₂
    unfold scopesLoop
    rw [henter]
    dsimp only
    rw [hloop]
    cases e with
    | strictDeny => exact hspec.elim
    | deny info =>
      refine ⟨info, s₂, rfl, hlast ?_, hspec.2.trans (chainOutcome_cons_of_deny hspec.1).symm⟩
      rw [hdecides, hspec.1, Bool.true_or]
    | next p' =>
      obtain ⟨hdeny, heffect', hallow⟩ := hspec
      rw [hno, Bool.false_or] at hallow
      dsimp only
      cases hh : p'.hasAllow with
      | false =>
        -- no ALLOW here: the scope does not decide
        rw [hh] at hallow
        obtain ⟨info, s₃, hl, hat₃, hout⟩ := hnext (by rw [hdecides, hdeny, ← hallow]; rfl) p' hh
          (heffect'.trans heffect)
        exact ⟨info, s₃, hl, hat₃, hout.trans (chainOutcome_cons_of_not hdeny (by simp_all)).symm⟩
      | true =>
        rw [hh] at hallow
        cases hperm : env.table.getScopeScopePermissions scope with
        | overrideParent =>
          refine ⟨_, s₂, rfl, hlast ?_, (chainOutcome_cons_of_allow hdeny hallow.symm hperm).symm⟩
          simp [hdecides, ← hallow, hperm]
        | requireParentalConsentForAllows =>
          obtain ⟨info, s₃, hl, hat₃, hout⟩ := hnext (by simp [hdecides, hdeny, hperm])
            { p' with hasAllow := false } rfl (heffect'.trans heffect)
          exact ⟨info, s₃, hl, hat₃, hout.trans (chainOutcome_cons_of_not hdeny (by simp [hperm])).symm⟩
        | unspecified =>
          obtain ⟨b, hb, -, hba⟩ := exists_of_anySatisfied hallow.symm
          exact absurd hperm (permissions_of_mem_bindingsFor hb hba)

/-- A role that does not allow adds its effect to the action's only if that has none yet. -/
theorem effect_mergeRole
    (hinfo : info.effect = .noMatch ∨ info.effect = .deny) (hrole : roleInfo.effect ≠ .allow) :
    (mergeRole info roleInfo).effect =
      if info.effect = .noMatch then roleInfo.effect else info.effect := by
  unfold mergeRole
  rw [if_neg hrole]
  rcases hinfo with h | h
  · simp only [h, if_true]
    split <;> rfl
  · simp only [h, reduceCtorEq, if_false]
    split
    next hd => exact hd.1
    · exact h

theorem effect_mergeRole_of_allow (hrole : roleInfo.effect = .allow) :
    (mergeRole info roleInfo).effect = .allow := by
  unfold mergeRole
  rw [if_pos hrole, hrole]

/-- How the effects of the roles combine: an ALLOW is final, else the first match counts. -/
def combineRoles : Effect → List Effect → Effect
  | e, [] => e
  | e, o :: os =>
    if o = .allow then .allow else combineRoles (if e = .noMatch then o else e) os

theorem rolesLoop_spec (sim : Simulates env input sat total At) (roles : List String)
    (info : EffectInfo) (taken : List RuleStep) (s : CheckState V)
    (hpre : taken ++ (upTo (env.allows input sat kind action) roles).flatMap
      (env.stepsFor input sat kind action) <+: total)
    (hinfo : info.effect = .noMatch ∨ info.effect = .deny) (hat : At taken s) :
    ∃ info' s', env.rolesLoop input kind action roles info s = .ok (.done info', s') ∧
      At (taken ++ (upTo (env.allows input sat kind action) roles).flatMap
        (env.stepsFor input sat kind action)) s' ∧
      info'.effect = combineRoles info.effect (roles.map (env.roleOutcome input sat kind action)) := by
  induction roles generalizing info taken s with
  | nil =>
    refine ⟨info, s, rfl, ?_, rfl⟩
    rw [upTo, flatMap_nil, append_nil]
    exact hat
  | cons role _ ih =>
    have hfirst : taken ++ env.stepsFor input sat kind action role <+: total := by
      rw [upTo, flatMap_cons, ← append_assoc] at hpre
      exact (prefix_append _ _).trans hpre
    obtain ⟨roleInfo, s₁, hloop, hat₁, hout⟩ := scopesLoop_spec sim rfl
      (env.scopesFor input kind) _ { hasAllow := false, info := env.initialInfo input kind } s
      hfirst rfl rfl hat
    have houtcome : roleInfo.effect = env.roleOutcome input sat kind action role := hout
    unfold rolesLoop
    rw [hloop]
    dsimp only
    rw [map_cons, combineRoles, ← houtcome]
    by_cases hallow : roleInfo.effect = .allow
    · rw [if_pos hallow, if_pos hallow]
      refine ⟨_, s₁, rfl, ?_, effect_mergeRole_of_allow hallow⟩
      rw [upTo, if_pos (by rw [allows, ← houtcome, decide_eq_true hallow]), flatMap_singleton]
      exact hat₁
    · have hnot : env.allows input sat kind action role = false := by
        rw [allows, ← houtcome, decide_eq_false hallow]
      rw [if_neg hallow, if_neg hallow]
      rw [upTo_cons_of_not hnot, flatMap_cons, ← append_assoc] at hpre ⊢
      have hmerge := effect_mergeRole hinfo hallow
      have hcases : roleInfo.effect = .deny ∨ roleInfo.effect = .noMatch := by
        have h := env.roleOutcome_cases input sat kind action role
        rw [← houtcome] at h
        exact h.resolve_left hallow
      have hmerged : (mergeRole info roleInfo).effect = .noMatch ∨
          (mergeRole info roleInfo).effect = .deny := by
        rw [hmerge]
        split
        · exact hcases.symm
        · exact hinfo
      obtain ⟨info', s₂, hl, hat₂, heffect⟩ := ih _ _ s₁ hpre hmerged hat₁
      exact ⟨info', s₂, hl, hat₂, by rw [heffect, hmerge]⟩

/-- Of effects that are ALLOW, DENY or no match the combination is one too, and ALLOW iff one of them
is, starting from no match or DENY. -/
theorem combineRoles_spec (os : List Effect) (e : Effect) (he : e = .noMatch ∨ e = .deny)
    (hos : ∀ o ∈ os, o = .allow ∨ o = .deny ∨ o = .noMatch) :
    (combineRoles e os = .allow ↔ .allow ∈ os) ∧
      (combineRoles e os = .allow ∨ combineRoles e os = .deny ∨ combineRoles e os = .noMatch) := by
  induction os generalizing e with
  | nil => rcases he with rfl | rfl <;> simp [combineRoles]
  | cons o _ ih =>
    rw [forall_mem_cons] at hos
    unfold combineRoles
    split
    next ho => simp [ho]
    next ho =>
      rw [mem_cons, or_iff_right (Ne.symm ho)]
      exact ih _ (by split; exacts [(hos.1.resolve_left ho).symm, he]) hos.2

/-- The first role is all there is to the principal's own policies. -/
theorem combineRoles_principal : combineRoles .noMatch ((rolesFor input .principal).map
      (env.roleOutcome input sat .principal action)) = env.principalOutcome input sat action := by
  unfold rolesFor principalOutcome
  cases input.principal.roles with
  | nil => rfl
  | cons role =>
    show (if env.roleOutcome input sat .principal action role = .allow then Effect.allow
      else env.roleOutcome input sat .principal action role) = _
    split
    next h => exact h.symm
    · rfl

/-- The resource policies, role by role: some role allows the action, or it is denied, or nothing
matches. -/
theorem resourceRoles_spec (sim : Simulates env input sat total At) {s : CheckState V}
    (hinfo : info.effect = .noMatch)
    (hpre : taken ++ (upTo (env.allows input sat .resource action) input.principal.roles).flatMap
      (env.stepsFor input sat .resource action) <+: total) (hat : At taken s) :
    ∃ info' s',
      env.rolesLoop input .resource action input.principal.roles info s = .ok (.done info', s') ∧
      At (taken ++ (upTo (env.allows input sat .resource action) input.principal.roles).flatMap
        (env.stepsFor input sat .resource action)) s' ∧
      (info'.effect = .allow ↔ ∃ role ∈ input.principal.roles,
        env.roleOutcome input sat .resource action role = .allow) ∧
      (info'.effect = .allow ∨ info'.effect = .deny ∨ info'.effect = .noMatch) := by
  obtain ⟨info', s', hloop, hat', heffect⟩ := rolesLoop_spec sim _ info _ s hpre (Or.inl hinfo) hat
  obtain ⟨hallow, hcases⟩ := combineRoles_spec
    (input.principal.roles.map (env.roleOutcome input sat .resource action)) info.effect
    (Or.inl hinfo) (by
      intro o ho
      obtain ⟨role, -, rfl⟩ := mem_map.mp ho
      exact env.roleOutcome_cases input sat _ _ _)
  rw [← heffect] at hallow hcases
  exact ⟨info', s', hloop, hat', hallow.trans mem_map, hcases⟩

/-- **One action is decided by the rule**, and the loops take its steps. -/
theorem checkAction_spec (sim : Simulates env input sat total At) {s : CheckState V}
    (hpre : taken ++ env.steps input sat action <+: total) (hat : At taken s) :
    ∃ info s', env.checkAction input action s = .ok (info, s') ∧
      At (taken ++ env.steps input sat action) s' ∧ info.effect = env.decision input sat action := by
  have hsteps : env.steps input sat action =
      (env.reachedRoles input sat .principal action).flatMap
          (env.stepsFor input sat .principal action) ++
        (env.reachedRoles input sat .resource action).flatMap
          (env.stepsFor input sat .resource action) := by
    rw [steps, flatMap_cons, flatMap_singleton]
  -- the principal's own policies
  have hreach : env.reachedRoles input sat .principal action =
      upTo (env.allows input sat .principal action) (rolesFor input .principal) :=
    if_neg (fun h => Kind.noConfusion h.1)
  obtain ⟨pinfo, s₁, hp, hat₁, heffp⟩ := rolesLoop_spec sim
    (rolesFor input .principal) { effect := .noMatch } taken s
    (by rw [hsteps, ← append_assoc, hreach] at hpre; exact (prefix_append _ _).trans hpre)
    (Or.inl rfl) hat
  rw [combineRoles_principal] at heffp
  rw [← hreach] at hat₁
  have hcases := env.principalOutcome_cases input sat action
  rw [← heffp] at hcases
  unfold checkAction kindsLoop
  rw [hp]
  dsimp only
  by_cases hdecided : pinfo.effect = .allow ∨ pinfo.effect = .deny
  · rw [if_pos hdecided]
    have hnone : env.reachedRoles input sat .resource action = [] :=
      if_pos ⟨rfl, by rw [← heffp]; rintro h; simp [h] at hdecided⟩
    rw [hsteps, hnone, flatMap_nil, append_nil]
    refine ⟨_, s₁, rfl, hat₁, ?_⟩
    rw [decision_eq_ite, ← heffp]
    rcases hdecided with h | h <;> simp [h]
  · -- they do not decide
    have hno : pinfo.effect = .noMatch := (or_assoc.mpr hcases).resolve_left hdecided
    have hroles : rolesFor input .resource = input.principal.roles := if_neg (by decide)
    have hreach' : env.reachedRoles input sat .resource action =
        upTo (env.allows input sat .resource action) input.principal.roles :=
      (if_neg (fun h => h.2 (heffp.symm.trans hno))).trans (by rw [hroles])
    rw [hsteps, ← append_assoc, hreach'] at hpre ⊢
    have hreset : ({ pinfo with effect := .noMatch } : EffectInfo).effect = .noMatch := rfl
    obtain ⟨rinfo, s₂, hr, hat₂, hallow, hcase⟩ := resourceRoles_spec sim hreset hpre hat₁
    have hdecision : env.decision input sat action =
        if rinfo.effect = .allow then .allow else .deny := by
      rw [decision_eq_ite, ← heffp, hno]
      simp [hallow]
    rw [if_neg hdecided]
    unfold kindsLoop
    rw [hroles, hr, hdecision]
    rcases hcase with h | h | h
    · exact ⟨rinfo, s₂, by simp [h], hat₂, by rw [h]; rfl⟩
    · exact ⟨rinfo, s₂, by simp [h], hat₂, by rw [h]; rfl⟩
    · refine ⟨{ rinfo with effect := .deny }, s₂, ?_, hat₂, by rw [h]; rfl⟩
      simp [h, kindsLoop]

/-- The effects decided so far agree with the rule. -/
def EffectsOk (rule : String → Effect) (effects : Effects) : Prop :=
  ∀ a info, effects.lookup a = some info → info.effect = rule a

/-- Deciding an action again comes to the same. -/
theorem setEffect_eq_insert (h : EffectsOk rule effects) (hinfo : info.effect = rule action) :
    setEffect effects action info = effects.insert action info := by
  have hsame := h action
  unfold setEffect
  grind

theorem EffectsOk.insert (h : EffectsOk rule effects)
    (hinfo : info.effect = rule action) : EffectsOk rule (effects.insert action info) := by
  intro a i hi
  have hold := h a i
  grind

/-- The actions are decided by the rule one by one. -/
theorem actionsLoop_spec (sim : Simulates env input sat total At) (actions : List String)
    (taken : List RuleStep) (effects : Effects) (s : CheckState V)
    (hpre : taken ++ actions.flatMap (env.steps input sat) <+: total)
    (hok : EffectsOk (env.decision input sat) effects) (hat : At taken s) :
    ∃ effects' s', env.actionsLoop input actions effects s = .ok (effects', s') ∧
      EffectsOk (env.decision input sat) effects' ∧
      (∀ a, a ∈ actions ∨ a ∈ effects → a ∈ effects') := by
  induction actions generalizing taken effects s with
  | nil => exact ⟨effects, s, rfl, hok, fun a h => by simpa using h⟩
  | cons a actions ih =>
    rw [flatMap_cons, ← append_assoc] at hpre
    obtain ⟨info, s₁, hcheck, hat₁, heffect⟩ :=
      checkAction_spec sim ((prefix_append _ _).trans hpre) hat
    unfold actionsLoop
    rw [hcheck]
    dsimp only
    rw [setEffect_eq_insert hok heffect]
    obtain ⟨effects', s₂, hloop, hok', hmem⟩ := ih _ _ s₁ hpre (hok.insert heffect) hat₁
    refine ⟨effects', s₂, hloop, hok', fun b hb => hmem b ?_⟩
    rw [AList.mem_insert]
    rcases hb with hb | hb
    · rcases mem_cons.mp hb with rfl | hb
      · exact Or.inr (Or.inl rfl)
      · exact Or.inl hb
    · exact Or.inr (Or.inr hb)

/-- The answer for an action that the loop has decided. -/
theorem answer_of_effectsOk {roles : Finset String} (hok : EffectsOk rule effects)
    (hmem : action ∈ effects) : (answer ⟨effects, roles⟩ action).effect = rule action := by
  obtain ⟨info, hinfo⟩ := Option.isSome_iff_exists.mp (AList.lookup_isSome.mpr hmem)
  unfold answer
  rw [hinfo]
  exact hok action info hinfo

/-- **The answers of a check are those of the rule**, once it gets to the loops. -/
theorem evaluate_spec (sim : Simulates env input sat (env.allSteps input sat) At)
    (hat : At [] (env.initialState input)) (hreach : env.reachesLoops input = true) :
    ∃ result, env.evaluate input = .ok result ∧
      ∀ a ∈ input.actions, (answer result a).effect = env.decision input sat a := by
  obtain ⟨effects, s, hloop, hok, hmem⟩ := actionsLoop_spec sim input.actions [] ∅ _
    (prefix_refl _) (fun _ _ h => nomatch h) hat
  refine ⟨{ effects := effects, effectiveDerivedRoles := s.effectiveDerivedRoles }, ?_,
    fun a ha => answer_of_effectsOk hok (hmem a (Or.inl ha))⟩
  unfold evaluate
  rw [if_pos hreach, hloop]

end Loops

/-! ## §6. The check around the loops. -/

/-- Is there no scope with a policy, for either kind? -/
def noScopes : Bool :=
  (env.scopesFor input .principal).isEmpty && (env.scopesFor input .resource).isEmpty

/-- The verdict of the schema manager on the request. -/
def verdict : Validation := env.validate (env.policyFqnFor input .resource) input

/-- Does the request get to the loops? -/
def proceeds : Bool := env.reachesLoops input && (env.verdict input).passes

/-- Does the check return a result? Validation is not asked where no scope has a policy. -/
def answers : Bool := env.noScopes input || decide (env.verdict input ≠ .failed)

/-- The schema manager does not stand in the way. -/
def SchemaPasses : Prop := ∀ fqn inp, (env.validate fqn inp).passes = true

/-- A rejected input is denied throughout. -/
theorem answer_of_rejected (policy : String) (roles : Finset String) (a : String)
    (actions : List String) (effects : Effects) (hok : EffectsOk (fun _ => .deny) effects) :
    (answer ⟨actions.foldl (fun effects action =>
      setEffect effects action { effect := .deny, policy := policy }) effects, roles⟩ a).effect =
      .deny := by
  induction actions generalizing effects with
  | nil =>
    unfold answer
    cases hl : effects.lookup a with
    | none => rw [foldl_nil, hl]; rfl
    | some info => rw [foldl_nil, hl]; exact hok a info hl
  | cons _ _ ih =>
    exact ih _ (hok.insert rfl)

variable {env input}

theorem reachesLoops_of_noScopes (h : env.noScopes input = true) :
    env.reachesLoops input = false := by
  unfold noScopes at h
  unfold reachesLoops
  rw [h]
  rfl

theorem check_of_scopes (h : ¬env.noScopes input = true) : env.check input =
    match env.verdict input with
    | .failed => .error .failure
    | .invalid true =>
      .ok {
        effects := input.actions.foldl (fun effects action => setEffect effects action
          { effect := .deny, policy := env.policyKeyFor input .resource }) ∅
        effectiveDerivedRoles := ∅ }
    | _ => env.evaluate input :=
  if_neg h

/-- A check that proceeds is the evaluation. -/
theorem check_of_proceeds (h : env.proceeds input = true) : env.check input = env.evaluate input := by
  obtain ⟨hreach, hpass⟩ := Bool.and_eq_true_iff.mp h
  have hscopes : ¬env.noScopes input = true := by
    intro hno
    rw [reachesLoops_of_noScopes hno] at hreach
    exact Bool.noConfusion hreach
  rw [check_of_scopes hscopes]
  cases hv : env.verdict input with
  | failed => rw [hv] at hpass; exact Bool.noConfusion hpass
  | valid => rfl
  | invalid reject =>
    rw [hv] at hpass
    cases reject with
    | false => rfl
    | true => exact Bool.noConfusion hpass

/-- A check that does not proceed denies everything, if it returns. -/
theorem check_of_not_proceeds (h : env.proceeds input = false) (hanswers : env.answers input = true) :
    ∃ result, env.check input = .ok result ∧ ∀ a, (answer result a).effect = .deny := by
  by_cases hscopes : env.noScopes input = true
  · exact ⟨_, if_pos hscopes, fun _ => rfl⟩
  · have hfailed : env.verdict input ≠ .failed :=
      of_decide_eq_true ((Bool.or_eq_true_iff.mp hanswers).resolve_left hscopes)
    have hnot : (env.verdict input).passes = true → env.evaluate input =
        .ok { effects := ∅, effectiveDerivedRoles := ∅ } := by
      intro hpass
      unfold proceeds at h
      rw [hpass, Bool.and_true] at h
      unfold evaluate
      rw [h]
      rfl
    rw [check_of_scopes hscopes]
    cases hv : env.verdict input with
    | failed => exact absurd hv hfailed
    | valid => exact ⟨_, hnot (by rw [hv]; rfl), fun _ => rfl⟩
    | invalid reject =>
      cases reject with
      | false => exact ⟨_, hnot (by rw [hv]; rfl), fun _ => rfl⟩
      | true => exact ⟨_, rfl, fun a => answer_of_rejected _ _ a _ ∅ (fun _ _ h => nomatch h)⟩

/-- **The answers of a check are those of the rule**; a check that ends before its loops denies
everything. -/
theorem check_spec {sat : Kind → String → BindingHandle → Bool}
    {At : List RuleStep → CheckState V → Prop}
    (sim : Simulates env input sat (env.allSteps input sat) At) (hat : At [] (env.initialState input))
    (hanswers : env.answers input = true) :
    ∃ result, env.check input = .ok result ∧ ∀ a ∈ input.actions, (answer result a).effect =
      if env.proceeds input then env.decision input sat a else .deny := by
  cases hp : env.proceeds input with
  | true =>
    rw [check_of_proceeds hp]
    exact evaluate_spec sim hat (Bool.and_eq_true_iff.mp hp).1
  | false =>
    obtain ⟨result, hcheck, hdeny⟩ := check_of_not_proceeds hp hanswers
    exact ⟨result, hcheck, fun a _ => hdeny a⟩

/-- Without an answer, validation has failed. -/
theorem check_of_not_answers (h : env.answers input = false) :
    env.check input = .error .failure := by
  obtain ⟨hscopes, hfailed⟩ := Bool.or_eq_false_iff.mp h
  have hv : env.verdict input = .failed := not_not.mp (of_decide_eq_false hfailed)
  rw [check_of_scopes (by rw [hscopes]; exact Bool.false_ne_true), hv]

theorem answers_of_passes (h : (env.verdict input).passes = true) : env.answers input = true := by
  unfold answers
  rw [Bool.or_eq_true_iff, decide_eq_true_eq]
  refine .inr (fun hv => ?_)
  rw [hv] at h
  exact Bool.noConfusion h

theorem SchemaPasses.proceeds_eq (h : env.SchemaPasses) :
    env.proceeds input = env.reachesLoops input := by
  rw [proceeds, verdict, h, Bool.and_true]

/-- What is allowed is allowed by a check that proceeds. -/
theorem proceeds_of_check_allow {result : CheckResult} {action : String}
    (hcheck : env.check input = .ok result) (h : (answer result action).effect = .allow) :
    env.proceeds input = true := by
  cases hanswers : env.answers input with
  | false =>
    rw [check_of_not_answers hanswers] at hcheck
    exact nomatch hcheck
  | true =>
    cases hp : env.proceeds input with
    | true => rfl
    | false =>
      obtain ⟨result', hcheck', hdeny⟩ := check_of_not_proceeds hp hanswers
      rw [hcheck, Except.ok.injEq] at hcheck'
      rw [hcheck', hdeny action] at h
      exact Effect.noConfusion h

end CheckEnv

end AccessManagement
