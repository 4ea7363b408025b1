/-
  AccessManagement.Check.Settled — THE OUTCOMES THAT COUNT WHEN KEYS ARE SHARED.

  The condition cache answers for a binding with the outcome of the first binding that was looked
  at under the same evaluation key.  What this comes to can be said without the cache: outcomes are
  SETTLED if, of the bindings with one key that the rule looks at with these outcomes, the first
  has its own outcome and the others have the same.

  The rule is an inquiry (it asks for outcomes, and the answers decide what it asks next), so
  settled outcomes always exist (`exists_settledBy`).
-/
import AccessManagement.Check.Decision
import AccessManagement.Lib.Inquiry

namespace AccessManagement.CheckEnv

open List Lib

variable {V : Type} (env : CheckEnv V) (input : CheckInput)

/-! ## §1. Settled outcomes. -/

/-- **Outcomes as the condition cache makes them**: that of the first binding with the key counts. -/
def SettledBy (sat settled : Kind → String → BindingHandle → Bool) : Prop :=
  ∀ entry ∈ env.evaluated settled (env.allSteps input settled),
    (env.evaluated sat (env.allSteps input settled)).lookup entry.1 = some entry.2

/-- The condition cache, where every binding has an outcome: entries are added at the end, and the
first with a key counts. -/
def conditionMemory (sat : Kind → String → BindingHandle → Bool) :
    Memory RuleStep EvaluationKeyTuple (List (EvaluationKeyTuple × Bool)) where
  key := env.keyOf
  next known step := known ++ (env.evaluatedIn sat step).toList
  memo known k := known.lookup k
  kept := by
    intro known step k v h
    exact lookup_append_of_some h _
  answered := by
    intro known step k h
    cases step with
    | enter => cases h
    | look kind scope b =>
      cases h
      rw [lookup_append, Option.isSome_or]
      simp [evaluatedIn]

theorem after_conditionMemory (sat : Kind → String → BindingHandle → Bool) (taken : List RuleStep) :
    (env.conditionMemory sat).after [] taken = env.evaluated sat taken := by
  suffices h : ∀ known, (env.conditionMemory sat).after known taken =
      known ++ env.evaluated sat taken from h []
  induction taken with
  | nil => exact fun known => (append_nil known).symm
  | cons step _ ih =>
    intro known
    show (env.conditionMemory sat).after (known ++ (env.evaluatedIn sat step).toList) _ = _
    rw [ih, append_assoc, evaluated, evaluated, filterMap_cons]
    cases env.evaluatedIn sat step <;> rfl

/-- The answers that outcomes give on the steps of the rule. -/
def RuleStep.answer (sat : Kind → String → BindingHandle → Bool) : RuleStep → Bool
  | .enter _ _ => false
  | .look kind scope b => sat kind scope b

variable {env input} {sat settled : Kind → String → BindingHandle → Bool} {S : Type}

/-- Outcomes that a memory has in the end are consistent. -/
theorem consistent_of_evaluated {m : Memory RuleStep EvaluationKeyTuple S} {s : S}
    {taken : List RuleStep} (hkey : m.key = env.keyOf)
    (h : ∀ entry ∈ env.evaluated sat taken, m.memo (m.after s taken) entry.1 = some entry.2) :
    m.Consistent s (RuleStep.answer sat) taken := by
  intro step hstep k hk
  rw [hkey] at hk
  cases step with
  | enter => cases hk
  | look kind scope b =>
    cases hk
    exact h _ (mem_evaluated.mpr ⟨kind, scope, b, hstep, rfl⟩)

/-- The outcome of a binding is settled once it is looked at. -/
theorem SettledBy.lookup_eq (h : env.SettledBy input sat settled) {before : List RuleStep}
    {kind : Kind} {scope : String} {b : BindingHandle}
    (hpre : before ++ [.look kind scope b] <+: env.allSteps input settled) :
    (env.evaluated sat (before ++ [.look kind scope b])).lookup (env.table.idx.evalKey b.id) =
      some (settled kind scope b) := by
  have hconsistent : (env.conditionMemory sat).Consistent [] (RuleStep.answer settled)
      (env.allSteps input settled) := by
    refine consistent_of_evaluated rfl ?_
    rw [after_conditionMemory]
    exact h
  rw [← after_conditionMemory]
  exact hconsistent.memo_eq hpre rfl

/-- If keys agree on what the rule looks at, the outcomes are settled as they are. -/
theorem KeysAgree.settledBy (h : env.KeysAgree sat (env.allSteps input sat)) :
    env.SettledBy input sat sat := by
  intro entry hentry
  cases hl : (env.evaluated sat (env.allSteps input sat)).lookup entry.1 with
  | none => simpa using lookup_eq_none_iff.mp hl _ hentry
  | some v =>
    obtain ⟨before, after, heq, -⟩ := lookup_eq_some_iff.mp hl
    exact congrArg some (h (_, v) (by rw [heq]; simp) _ hentry rfl)

variable (env input)

/-! ## §2. The rule as an inquiry. -/

variable (kind : Kind) (action role scope : String)

/-- The bindings of a scope: no result is a satisfied DENY, else it is whether an ALLOW is
satisfied. -/
def bindingsInquiry : List BindingHandle → Bool → Inquiry RuleStep (Option Bool)
  | [], allowed => .done (some allowed)
  | b :: bs, allowed => .ask (.look kind scope b) (fun v =>
      if v && decide (b.core.effect = .deny) then .done none
      else bindingsInquiry bs (allowed || (v && decide (b.core.effect = .allow))))

/-- The scopes of a role. -/
def scopesInquiry : List String → Inquiry RuleStep Effect
  | [] => .done .noMatch
  | scope :: scopes => .ask (.enter kind scope) (fun _ =>
    (bindingsInquiry kind scope (env.bindingsFor input kind action role scope) false).bind
      (fun found =>
        match found with
        | none => .done .deny
        | some allowed =>
          if allowed && decide (env.table.getScopeScopePermissions scope = .overrideParent) then
            .done .allow
          else scopesInquiry scopes))

/-- The roles, up to the first that is allowed; the result is the outcome of the last. -/
def rolesInquiry : List String → Inquiry RuleStep Effect
  | [] => .done .noMatch
  | role :: roles =>
    (env.scopesInquiry input kind action role (env.scopesFor input kind)).bind (fun e =>
      if e = .allow ∨ roles = [] then .done e else rolesInquiry roles)

def actionInquiry : Inquiry RuleStep Effect :=
  (env.rolesInquiry input .principal action (rolesFor input .principal)).bind (fun e =>
    if e = .noMatch then env.rolesInquiry input .resource action (rolesFor input .resource)
    else .done e)

def requestInquiry : List String → Inquiry RuleStep Unit
  | [] => .done ()
  | action :: actions => (env.actionInquiry input action).bind (fun _ => requestInquiry actions)

/-- The outcomes that answers give to the bindings. -/
def told (answer : RuleStep → Bool) (kind : Kind) (scope : String) (b : BindingHandle) : Bool :=
  answer (.look kind scope b)

variable {env input kind action role scope} {answer : RuleStep → Bool}

/-- The inquiry asks for what the rule looks at, in its order. -/
theorem bindingsInquiry_spec (bs : List BindingHandle) (allowed : Bool) :
    (bindingsInquiry kind scope bs allowed).asked answer =
      (upTo (denies (told answer kind scope)) bs).map (.look kind scope) ∧
    (bindingsInquiry kind scope bs allowed).result answer =
      if anySatisfied (told answer kind scope) .deny bs then none
      else some (allowed || anySatisfied (told answer kind scope) .allow bs) := by
  induction bs generalizing allowed with
  | nil => exact ⟨rfl, by simp [bindingsInquiry, Inquiry.result, anySatisfied]⟩
  | cons b bs ih =>
    have hdenies : (answer (.look kind scope b) && decide (b.core.effect = .deny)) =
        denies (told answer kind scope) b := rfl
    rw [bindingsInquiry, Inquiry.asked, Inquiry.result, anySatisfied_cons, anySatisfied_cons,
      ← denies, hdenies]
    cases hd : denies (told answer kind scope) b with
    | true =>
      rw [upTo, if_pos hd]
      exact ⟨rfl, rfl⟩
    | false =>
      obtain ⟨hasked, hresult⟩ :=
        ih (allowed || (told answer kind scope b && decide (b.core.effect = .allow)))
      rw [upTo_cons_of_not hd, map_cons, ← hasked, Bool.false_or, ← Bool.or_assoc, ← hresult]
      exact ⟨rfl, rfl⟩

theorem scopesInquiry_spec (scopes : List String) :
    (env.scopesInquiry input kind action role scopes).asked answer =
      (upTo (decides env.table.getScopeScopePermissions (env.bindingsFor input kind action role)
        (told answer kind)) scopes).flatMap (env.stepsIn input (told answer) kind action role) ∧
    (env.scopesInquiry input kind action role scopes).result answer =
      chainOutcome env.table.getScopeScopePermissions (env.bindingsFor input kind action role)
        (told answer kind) scopes := by
  induction scopes with
  | nil => exact ⟨rfl, rfl⟩
  | cons scope scopes ih =>
    have hscope := @bindingsInquiry_spec kind scope answer
      (env.bindingsFor input kind action role scope) false
    rw [Bool.false_or] at hscope
    rw [scopesInquiry, Inquiry.asked, Inquiry.result, Inquiry.asked_bind, Inquiry.result_bind,
      hscope.1, hscope.2, chainOutcome_cons, upTo, flatMap_cons, stepsIn, cons_append, bindingsSeen,
      decides]
    cases anySatisfied ((told answer) kind scope) .deny
        (env.bindingsFor input kind action role scope) with
    | true => exact ⟨rfl, rfl⟩
    | false =>
      simp only [Bool.false_eq_true, if_false, Bool.false_or]
      cases hallow : anySatisfied ((told answer) kind scope) .allow
          (env.bindingsFor input kind action role scope) &&
        decide (env.table.getScopeScopePermissions scope = .overrideParent) with
      | true =>
        rw [Bool.and_eq_true, decide_eq_true_eq] at hallow
        rw [if_pos hallow]
        exact ⟨rfl, rfl⟩
      | false =>
        have hnot : ¬(anySatisfied ((told answer) kind scope) .allow
            (env.bindingsFor input kind action role scope) = true ∧
            env.table.getScopeScopePermissions scope = .overrideParent) := by
          rw [← decide_eq_true_eq (p := _ = ScopePermissions.overrideParent), ← Bool.and_eq_true,
            hallow]
          exact Bool.false_ne_true
        rw [if_neg hnot]
        exact ⟨congrArg (fun rest => _ :: (_ ++ rest)) ih.1, ih.2⟩

theorem rolesInquiry_spec (roles : List String) :
    (env.rolesInquiry input kind action roles).asked answer =
      ((upTo (env.allows input (told answer) kind action) roles).flatMap
        (env.stepsFor input (told answer) kind action)) ∧
    ∀ role, roles = [role] → (env.rolesInquiry input kind action roles).result answer =
      env.roleOutcome input (told answer) kind action role := by
  induction roles with
  | nil => exact ⟨rfl, fun role h => (cons_ne_nil role [] h.symm).elim⟩
  | cons role roles ih =>
    obtain ⟨hasked, hresult⟩ := @scopesInquiry_spec V env input kind action role answer
      (env.scopesFor input kind)
    have hsteps : (upTo (decides env.table.getScopeScopePermissions
        (env.bindingsFor input kind action role) ((told answer) kind))
        (env.scopesFor input kind)).flatMap (env.stepsIn input (told answer) kind action role) =
      env.stepsFor input (told answer) kind action role := rfl
    rw [rolesInquiry, Inquiry.asked_bind, Inquiry.result_bind, hasked, hresult, hsteps]
    refine ⟨?_, fun role' h => ?_⟩
    · by_cases hallow : env.roleOutcome input (told answer) kind action role = .allow
      · have hyes : env.allows input (told answer) kind action role = true := decide_eq_true hallow
        rw [if_pos (.inl hallow), upTo, if_pos hyes, flatMap_singleton]
        exact append_nil _
      · have hnot : env.allows input (told answer) kind action role = false := decide_eq_false hallow
        rw [upTo_cons_of_not hnot, flatMap_cons, ← ih.1]
        refine congrArg _ ?_
        cases roles with
        | nil => rw [if_pos (.inr rfl)]; rfl
        | cons => exact congrArg _ (if_neg (not_or.mpr ⟨hallow, cons_ne_nil _ _⟩))
    · obtain ⟨rfl, rfl⟩ := cons.inj h
      rw [if_pos (.inr rfl)]
      rfl

theorem actionInquiry_spec : (env.actionInquiry input action).asked answer =
    env.steps input (told answer) action := by
  obtain ⟨hasked, hresult⟩ := @rolesInquiry_spec V env input .principal action answer
    (rolesFor input .principal)
  have houtcome : (env.rolesInquiry input .principal action (rolesFor input .principal)).result
      answer = env.principalOutcome input (told answer) action := by
    unfold rolesFor principalOutcome at *
    cases hroles : input.principal.roles with
    | nil => rfl
    | cons role => rw [hroles] at hresult; exact hresult role rfl
  have hreach : env.reachedRoles input (told answer) .principal action =
      upTo (env.allows input (told answer) .principal action) (rolesFor input .principal) :=
    if_neg (fun h => Kind.noConfusion h.1)
  rw [actionInquiry, Inquiry.asked_bind, hasked, houtcome, steps, flatMap_cons, flatMap_singleton,
    hreach]
  refine congrArg _ ?_
  by_cases hno : env.principalOutcome input (told answer) action = .noMatch
  · have hreach' : env.reachedRoles input (told answer) .resource action =
        upTo (env.allows input (told answer) .resource action) (rolesFor input .resource) :=
      if_neg (fun h => h.2 hno)
    rw [if_pos hno, hreach']
    exact (rolesInquiry_spec _).1
  · have hnone : env.reachedRoles input (told answer) .resource action = [] := if_pos ⟨rfl, hno⟩
    rw [if_neg hno, hnone]
    rfl

theorem requestInquiry_spec (actions : List String) :
    (env.requestInquiry input actions).asked answer =
      actions.flatMap (env.steps input (told answer)) := by
  induction actions with
  | nil => rfl
  | cons action _ ih =>
    rw [requestInquiry, Inquiry.asked_bind, actionInquiry_spec, ih, flatMap_cons]

/-- Every memory has consistent outcomes on the steps of the rule. -/
theorem exists_outcomes {S : Type} (env : CheckEnv V) (input : CheckInput)
    {m : Memory RuleStep EvaluationKeyTuple S} (hkey : m.key = env.keyOf) (s : S) :
    ∃ sat, ∀ entry ∈ env.evaluated sat (env.allSteps input sat),
      m.memo (m.after s (env.allSteps input sat)) entry.1 = some entry.2 := by
  obtain ⟨answer, h⟩ := m.exists_consistent s (env.requestInquiry input input.actions)
  rw [requestInquiry_spec] at h
  refine ⟨told answer, fun entry hentry => ?_⟩
  obtain ⟨kind, scope, b, hmem, rfl⟩ := mem_evaluated.mp hentry
  exact h _ hmem _ (by rw [hkey]; rfl)

/-- **Settled outcomes exist.** -/
theorem exists_settledBy (env : CheckEnv V) (input : CheckInput)
    (sat : Kind → String → BindingHandle → Bool) : ∃ settled, env.SettledBy input sat settled := by
  obtain ⟨settled, h⟩ := env.exists_outcomes input (m := env.conditionMemory sat) rfl []
  rw [after_conditionMemory] at h
  exact ⟨settled, h⟩

end AccessManagement.CheckEnv
