/-
  AccessManagement.Check.Run — THE EVALUATIONS OF ONE CHECK, IN THEIR ORDER.

  `check` evaluates derived roles and bindings, each in the state that the evaluations before
  it left behind.  `events` lists them with these states; the loops are followed as they are
  written, so a binding is listed exactly when the run gets to it.

  What is true of every event is proved by `Preserved.events`: show that an invariant of the
  state survives the evaluation of a derived role, of a binding, and the change of context
  when a scope is entered; then it holds at every event.
-/
import AccessManagement.Check.Decision
import AccessManagement.Check.Outcome

namespace AccessManagement.CheckEnv

open List

variable {V : Type} (env : CheckEnv V) (input : CheckInput)

/-! ## §1. Events. -/

/-- An evaluation, with the state it starts from. -/
inductive Event (V : Type) where
  | derivedRole (scope : String) (dr : String × WrappedRunnableDerivedRole) (s : CheckState V)
  | binding (kind : Kind) (scope : String) (b : BindingHandle) (s : CheckState V)

def Event.state : Event V → CheckState V
  | .derivedRole _ _ s => s
  | .binding _ _ _ s => s

/-- The evaluations of the derived-roles loop; roles that the principal cannot have are
passed over. -/
def derivedRolesEvents (scope : String) (allRoles : List String) :
    List (String × WrappedRunnableDerivedRole) → ScopedDerivedRoles → CheckState V → List (Event V)
  | [], _, _ => []
  | dr :: drs, sdr, s =>
    (if setIntersects dr.2.role.parentRoles allRoles then [.derivedRole scope dr s] else []) ++
      (match env.processDerivedRole allRoles dr sdr s with
        | .error _ => []
        | .ok (sdr, s) => derivedRolesEvents scope allRoles drs sdr s)

/-- The evaluations on entering a scope: none if it was entered before. -/
def enterEvents (kind : Kind) (scope : String) (s : CheckState V) : List (Event V) :=
  if kind = .resource then
    match s.processedScopedDerivedRoles.lookup scope with
    | some _ => []
    | none => env.derivedRolesEvents scope (env.includingParentRoles input)
        (env.rangeOrder (env.derivedRolesOf input scope)) {} s
  else []

def bindingsEvents (kind : Kind) (scope : String) :
    List BindingHandle → RoleProgress → CheckState V → List (Event V)
  | [], _, _ => []
  | b :: bs, p, s =>
    .binding kind scope b s :: (match env.evalBinding b s with
        | .error _ => []
        | .ok (.strictDeny, _) => []
        | .ok (.skipped, s) => bindingsEvents kind scope bs p s
        | .ok (.outcome false, s) => bindingsEvents kind scope bs p s
        | .ok (.outcome true, s) =>
          if b.core.effect = .deny then []
          else bindingsEvents kind scope bs (noteSatisfied b scope p) s)

def scopesEvents (kind : Kind) (action role : String) :
    List String → RoleProgress → CheckState V → List (Event V)
  | [], _, _ => []
  | scope :: scopes, p, s =>
    env.enterEvents input kind scope s ++ (match env.enterScope input kind scope s with
        | .error _ => []
        | .ok s =>
          env.bindingsEvents kind scope (env.bindingsFor input kind action role scope) p s ++
            (match env.bindingsLoop scope (env.bindingsFor input kind action role scope) p s with
              | .ok (.next p, s) =>
                if p.hasAllow then
                  match env.table.getScopeScopePermissions scope with
                  | .requireParentalConsentForAllows =>
                    scopesEvents kind action role scopes { p with hasAllow := false } s
                  | .overrideParent => []
                  | .unspecified => scopesEvents kind action role scopes p s
                else scopesEvents kind action role scopes p s
              | _ => []))

def rolesEvents (kind : Kind) (action : String) : List String → CheckState V → List (Event V)
  | [], _ => []
  | role :: roles, s =>
    env.scopesEvents input kind action role (env.scopesFor input kind)
        { hasAllow := false, info := env.initialInfo input kind } s ++
      (match env.scopesLoop input kind action role (env.scopesFor input kind)
          { hasAllow := false, info := env.initialInfo input kind } s with
        | .ok (.done roleInfo, s) =>
          if roleInfo.effect = .allow then [] else rolesEvents kind action roles s
        | _ => [])

def kindsEvents (action : String) : List Kind → EffectInfo → CheckState V → List (Event V)
  | [], _, _ => []
  | kind :: kinds, info, s =>
    env.rolesEvents input kind action (rolesFor input kind) s ++
      (match env.rolesLoop input kind action (rolesFor input kind)
          { info with effect := .noMatch } s with
        | .ok (.done info, s) =>
          if info.effect = .allow ∨ info.effect = .deny then []
          else kindsEvents action kinds info s
        | _ => [])

def actionsEvents : List String → CheckState V → List (Event V)
  | [], _ => []
  | action :: actions, s =>
    env.kindsEvents input action [.principal, .resource] {} s ++
      (match env.checkAction input action s with
        | .error _ => []
        | .ok (_, s) => actionsEvents actions s)

/-- **The evaluations of a check.** -/
def events : List (Event V) :=
  match env.validate (env.policyFqnFor input .resource) input with
  | .failed => []
  | .invalid true => []
  | _ =>
    if env.reachesLoops input then
      env.actionsEvents input input.actions (env.initialState input)
    else []

/-! ## §2. Invariants. -/

/-- An invariant that every step keeps, where `E` is known of the evaluations. -/
structure Preserved (E : Event V → Prop) (Inv : CheckState V → Prop) : Prop where
  derivedRole : ∀ {scope dr sdr sdr' s s'}, scope ∈ env.scopesFor input .resource →
    dr ∈ env.derivedRolesOf input scope →
    (setIntersects dr.2.role.parentRoles (env.includingParentRoles input) = true →
      E (.derivedRole scope dr s)) → Inv s →
    env.processDerivedRole (env.includingParentRoles input) dr sdr s = .ok (sdr', s') → Inv s'
  settle : ∀ {s} (processed : AList (fun _ : String => ScopedDerivedRoles))
    (roles errRoles : Finset String), Inv s →
    Inv { s with
      processedScopedDerivedRoles := processed
      evalCtx := s.evalCtx.withEffectiveDerivedRoles roles errRoles }
  binding : ∀ {kind scope b s v s'}, env.ConsultedAt input kind scope b →
    E (.binding kind scope b s) → Inv s → env.evalBinding b s = .ok (v, s') → Inv s'

/-- What an event is about: a derived role of a scope that the principal may have, or a
binding that is consulted. -/
def EventOk : Event V → Prop
  | .derivedRole scope dr _ => scope ∈ env.scopesFor input .resource ∧
      dr ∈ env.derivedRolesOf input scope ∧
      setIntersects dr.2.role.parentRoles (env.includingParentRoles input) = true
  | .binding kind scope b _ => env.ConsultedAt input kind scope b

/-- What a part of the run does, where `E` is known of its events: the invariant holds at its
events and at its end. -/
def Keeps (E : Event V → Prop) (Inv : CheckState V → Prop) {ρ : Type} (evs : List (Event V))
    (result : Except EvalError (ρ × CheckState V)) : Prop :=
  (∀ e ∈ evs, E e) → (∀ e ∈ evs, env.EventOk input e ∧ Inv e.state) ∧
    ∀ r s, result = .ok (r, s) → Inv s

section Keeps

variable {env input} {E : Event V → Prop} {Inv : CheckState V → Prop} {ρ ρ' : Type}
  {evs evs' : List (Event V)} {result : Except EvalError (ρ × CheckState V)}
  {result' : Except EvalError (ρ' × CheckState V)} {s : CheckState V}

/-- A part of the run that ends in a given state, without further events. -/
theorem Keeps.stop (hs : Inv s) (r : ρ) : env.Keeps input E Inv [] (.ok (r, s)) :=
  fun _ => ⟨by simp, by rintro _ _ ⟨⟩; exact hs⟩

theorem Keeps.error (err : EvalError) :
    env.Keeps input E Inv [] (.error err : Except EvalError (ρ × CheckState V)) :=
  fun _ => ⟨by simp, by simp⟩

/-- An event in front of a part of the run. -/
theorem Keeps.cons {e : Event V} (hok : env.EventOk input e) (he : Inv e.state)
    (h : E e → env.Keeps input E Inv evs result) : env.Keeps input E Inv (e :: evs) result := by
  intro hE
  obtain ⟨hEe, hE⟩ := forall_mem_cons.mp hE
  exact ⟨forall_mem_cons.mpr ⟨⟨hok, he⟩, (h hEe hE).1⟩, (h hEe hE).2⟩

/-- A part of the run and then what follows it, from the state it ends in. -/
theorem Keeps.seq (h : env.Keeps input E Inv evs result)
    (herr : ∀ err, result = .error err → env.Keeps input E Inv evs' result')
    (hok : ∀ r s, result = .ok (r, s) → Inv s → env.Keeps input E Inv evs' result') :
    env.Keeps input E Inv (evs ++ evs') result' := by
  intro hE
  simp only [forall_mem_append] at hE ⊢
  obtain ⟨hevs, hend⟩ := h hE.1
  cases hresult : result with
  | error err => exact ⟨⟨hevs, (herr err hresult hE.2).1⟩, (herr err hresult hE.2).2⟩
  | ok res =>
    have hs := hok res.1 res.2 hresult (hend res.1 res.2 hresult) hE.2
    exact ⟨⟨hevs, hs.1⟩, hs.2⟩

end Keeps

namespace Preserved

variable {env input} {E : Event V → Prop} {Inv : CheckState V → Prop}

variable {scope : String} {kind : Kind} {action : String} {s : CheckState V}
  (h : env.Preserved input E Inv)

include h

theorem derivedRolesLoop (hscope : scope ∈ env.scopesFor input .resource)
    (drs : List (String × WrappedRunnableDerivedRole)) (sdr : ScopedDerivedRoles)
    (hsub : drs ⊆ env.derivedRolesOf input scope) (hs : Inv s) :
    env.Keeps input E Inv (env.derivedRolesEvents scope (env.includingParentRoles input) drs sdr s)
      (env.processDerivedRoles (env.includingParentRoles input) drs sdr s) := by
  induction drs generalizing sdr s with
  | nil => exact .stop hs sdr
  | cons dr _ ih =>
    obtain ⟨hdr, hrest⟩ := cons_subset.mp hsub
    unfold derivedRolesEvents processDerivedRoles
    by_cases hmeet : setIntersects dr.2.role.parentRoles (env.includingParentRoles input) = true
    · rw [if_pos hmeet]
      refine .cons ⟨hscope, hdr, hmeet⟩ hs (fun hE => ?_)
      cases hstep : env.processDerivedRole _ dr sdr s with
      | error err => exact .error err
      | ok => exact ih _ hrest (h.derivedRole hscope hdr (fun _ => hE) hs hstep)
    · rw [if_neg hmeet]
      cases hstep : env.processDerivedRole _ dr sdr s with
      | error err => exact .error err
      | ok => exact ih _ hrest (h.derivedRole hscope hdr (fun hm => absurd hm hmeet) hs hstep)

theorem enterScope (hscope : scope ∈ env.scopesFor input kind)
    (hs : Inv s) : env.Keeps input E Inv (env.enterEvents input kind scope s)
      ((env.enterScope input kind scope s).map (fun s => ((), s))) := by
  unfold enterEvents CheckEnv.enterScope
  by_cases hkind : kind = .resource
  · subst hkind
    cases hl : s.processedScopedDerivedRoles.lookup scope with
    | some sdr =>
      exact .stop (h.settle s.processedScopedDerivedRoles sdr.roles sdr.errDerivedRoles hs) ()
    | none =>
      have hloop := h.derivedRolesLoop hscope _ {} (env.rangeOrder_perm _).subset hs
      rw [← append_nil (env.derivedRolesEvents _ _ _ _ _)]
      refine hloop.seq (fun err hresult => ?_) (fun sdr s₁ hresult hs₁ => ?_) <;> simp only [hresult]
      · exact .error err
      · exact .stop (h.settle _ sdr.roles sdr.errDerivedRoles hs₁) ()
  · simp only [if_neg hkind]
    exact .stop hs ()

theorem bindingsLoop (bs : List BindingHandle) (p : RoleProgress)
    (hbs : ∀ b ∈ bs, env.ConsultedAt input kind scope b) (hs : Inv s) :
    env.Keeps input E Inv (env.bindingsEvents kind scope bs p s) (env.bindingsLoop scope bs p s) := by
  induction bs generalizing p s with
  | nil => exact .stop hs (BindingsEnd.next p)
  | cons b _ ih =>
    obtain ⟨hb, hrest⟩ := forall_mem_cons.mp hbs
    unfold bindingsEvents CheckEnv.bindingsLoop
    refine .cons hb hs (fun hE => ?_)
    cases hstep : env.evalBinding b s with
    | error err => exact .error err
    | ok res =>
      obtain ⟨v, s₁⟩ := res
      have hs₁ := h.binding hb hE hs hstep
      cases v with
      | strictDeny => exact .stop hs₁ _
      | skipped => exact ih p hrest hs₁
      | outcome sat =>
        cases sat with
        | false => exact ih p hrest hs₁
        | true =>
          by_cases hdeny : b.core.effect = .deny
          · simp only [if_pos hdeny]
            exact .stop hs₁ _
          · simp only [if_neg hdeny]
            exact ih _ hrest hs₁

variable (hkind : kind = .principal ∨ kind = .resource) (haction : action ∈ input.actions)

include hkind haction

theorem scopesLoop {role : String}
    (hrole : role ∈ rolesFor input kind) (scopes : List String) (p : RoleProgress)
    (hsub : scopes ⊆ env.scopesFor input kind) (hs : Inv s) :
    env.Keeps input E Inv (env.scopesEvents input kind action role scopes p s)
      (env.scopesLoop input kind action role scopes p s) := by
  induction scopes generalizing p s with
  | nil => exact .stop hs (ScopesEnd.done p.info)
  | cons scope _ ih =>
    obtain ⟨hscope, hrest⟩ := cons_subset.mp hsub
    unfold scopesEvents CheckEnv.scopesLoop
    refine (h.enterScope hscope hs).seq (fun err hresult => ?_) (fun _ s₁ hresult hs₁ => ?_) <;>
      cases hstep : env.enterScope input kind scope s <;> rw [hstep] at hresult <;> cases hresult
    · exact .error err
    · refine (h.bindingsLoop _ p
        (fun b hb => ⟨hkind, hscope, action, haction, role, hrole, hb⟩) hs₁).seq
        (fun err hloop => ?_) (fun r s₂ hloop hs₂ => ?_) <;> simp only [hloop]
      · exact .error err
      · cases r with
        | deny | strictDeny => exact .stop hs₂ _
        | next p₂ =>
          by_cases hallow : p₂.hasAllow = true
          · simp only [if_pos hallow]
            cases env.table.getScopeScopePermissions scope with
            | requireParentalConsentForAllows | unspecified => exact ih _ hrest hs₂
            | overrideParent => exact .stop hs₂ _
          · simp only [if_neg hallow]
            exact ih _ hrest hs₂

theorem rolesLoop (roles : List String) (info : EffectInfo) (hsub : roles ⊆ rolesFor input kind)
    (hs : Inv s) : env.Keeps input E Inv (env.rolesEvents input kind action roles s)
      (env.rolesLoop input kind action roles info s) := by
  induction roles generalizing info s with
  | nil => exact .stop hs (KindEnd.done info)
  | cons _ _ ih =>
    obtain ⟨hrole, hrest⟩ := cons_subset.mp hsub
    unfold rolesEvents CheckEnv.rolesLoop
    refine (h.scopesLoop hkind haction hrole _
      { hasAllow := false, info := env.initialInfo input kind } (fun _ hx => hx) hs).seq
      (fun err hloop => ?_) (fun r s₁ hloop hs₁ => ?_) <;> simp only [hloop]
    · exact .error err
    · cases r with
      | strictDeny => exact .stop hs₁ _
      | done roleInfo =>
        by_cases hallow : roleInfo.effect = .allow
        · simp only [if_pos hallow]
          exact .stop hs₁ _
        · simp only [if_neg hallow]
          exact ih _ hrest hs₁

omit hkind haction

theorem kindsLoop (haction : action ∈ input.actions)
    (kinds : List Kind) (info : EffectInfo) (hsub : kinds ⊆ [.principal, .resource]) (hs : Inv s) :
    env.Keeps input E Inv (env.kindsEvents input action kinds info s)
      (env.kindsLoop input action kinds info s) := by
  induction kinds generalizing info s with
  | nil => exact .stop hs info
  | cons _ _ ih =>
    obtain ⟨hkind, hrest⟩ := cons_subset.mp hsub
    unfold kindsEvents CheckEnv.kindsLoop
    refine (h.rolesLoop (by simpa using hkind) haction _
      { info with effect := .noMatch } (fun _ hx => hx) hs).seq
      (fun err hloop => ?_) (fun r s₁ hloop hs₁ => ?_) <;> simp only [hloop]
    · exact .error err
    · cases r with
      | strictDeny => exact .stop hs₁ _
      | done info₁ =>
        by_cases hdone : info₁.effect = .allow ∨ info₁.effect = .deny
        · simp only [if_pos hdone]
          exact .stop hs₁ _
        · simp only [if_neg hdone]
          exact ih _ hrest hs₁

theorem actionsLoop (actions : List String) (effects : Effects)
    (hsub : actions ⊆ input.actions) (hs : Inv s) :
    env.Keeps input E Inv (env.actionsEvents input actions s)
      (env.actionsLoop input actions effects s) := by
  induction actions generalizing effects s with
  | nil => exact .stop hs effects
  | cons _ _ ih =>
    obtain ⟨haction, hrest⟩ := cons_subset.mp hsub
    unfold actionsEvents CheckEnv.actionsLoop checkAction
    refine (h.kindsLoop haction [.principal, .resource] {} (fun _ hx => hx) hs).seq
      (fun err hloop => ?_) (fun info s₁ hloop hs₁ => ?_) <;> simp only [hloop]
    · exact .error err
    · exact ih _ hrest hs₁

/-- **What every step keeps holds at every event of a check.** -/
theorem events (hE : ∀ e ∈ env.events input, E e) (hinit : Inv (env.initialState input)) :
    ∀ e ∈ env.events input, env.EventOk input e ∧ Inv e.state := by
  have hloop := h.actionsLoop input.actions ∅ (fun _ hx => hx) hinit
  revert hE
  unfold CheckEnv.events
  split
  · simp
  · simp
  · split_ifs
    · exact fun hE => (hloop hE).1
    · simp

end Preserved

/-- The events of a run are about consulted bindings and the derived roles of its scopes. -/
theorem eventOk_of_mem_events {env : CheckEnv V} {input : CheckInput} {e : Event V}
    (he : e ∈ env.events input) : env.EventOk input e := by
  have htrivial : env.Preserved input (fun _ => True) (fun _ => True) :=
    ⟨fun _ _ _ _ _ => trivial, fun _ _ _ _ => trivial, fun _ _ _ _ => trivial⟩
  exact (htrivial.events (fun _ _ => trivial) trivial e he).1

/-! ## §3. What one evaluation does to the caches. -/

section Steps

variable {env} {s s' : CheckState V}

/-- **The evaluation of a binding**, step by step: its variables, the condition cache, the
variables of its derived role (if it has a condition), and the outcome, cached unless it is
an error. -/
inductive BindingStep (env : CheckEnv V) (b : BindingHandle) (s : CheckState V) :
    Verdict → CheckState V → Prop
  | cached {constants : List (String × Value)} {vars : Vars V} {s₁ : CheckState V}
      {satisfied : Bool} (params : env.paramVars b.core.params s = .ok (constants, vars, s₁))
      (found : s₁.conditionCache.lookup (env.table.idx.evalKey b.id) = some satisfied) :
      BindingStep env b s (.outcome satisfied) s₁
  | evaluated {constants : List (String × Value)} {vars : Vars V} {s₁ s₂ s' : CheckState V}
      {v : Verdict} (params : env.paramVars b.core.params s = .ok (constants, vars, s₁))
      (missing : s₁.conditionCache.lookup (env.table.idx.evalKey b.id) = none)
      (derivedRole : (b.core.derivedRoleCondition = none ∧ s₂ = s₁) ∨
        ∃ drc drConstants drVars, b.core.derivedRoleCondition = some drc ∧
          env.paramVars b.core.derivedRoleParams s₁ = .ok (drConstants, drVars, s₂))
      (cache : s' = s₂ ∨ ∃ satisfied, v = .outcome satisfied ∧ s' = { s₂ with
        conditionCache := s₂.conditionCache.insert (env.table.idx.evalKey b.id) satisfied }) :
      BindingStep env b s v s'

theorem evalCondition_cases (b : BindingHandle) (constants : List (String × Value))
    (vars : Vars V) (s : CheckState V) : (env.evalCondition b constants vars s).2 = s ∨
      ∃ satisfied, (env.evalCondition b constants vars s).1 = .outcome satisfied ∧
        (env.evalCondition b constants vars s).2 = { s with
          conditionCache := s.conditionCache.insert (env.table.idx.evalKey b.id) satisfied } := by
  unfold evalCondition
  cases s.evalCtx.satisfiesCondition env.cel b.core.condition constants vars with
  | error => exact .inl rfl
  | ok satisfied => exact .inr ⟨satisfied, rfl, rfl⟩

theorem evalBinding_step {b : BindingHandle} {v : Verdict}
    (h : env.evalBinding b s = .ok (v, s')) : BindingStep env b s v s' := by
  unfold evalBinding at h
  split at h
  · cases h
  next constants vars s₁ hp =>
    split at h
    next hl => cases h; exact .cached hp hl
    next hl =>
      split at h
      next hdrc =>
        have hend := @evalCondition_cases V env b constants vars s₁
        rw [Except.ok.inj h] at hend
        exact .evaluated hp hl (.inl ⟨hdrc, rfl⟩) hend
      next drc hdrc =>
        split at h
        · cases h
        next drConstants drVars s₂ hdp =>
          refine .evaluated hp hl (.inr ⟨drc, drConstants, drVars, hdrc, hdp⟩) ?_
          split at h
          · cases h; exact .inl rfl
          · cases h; exact .inr ⟨false, rfl, rfl⟩
          · have hend := @evalCondition_cases V env b constants vars s₂
            rw [Except.ok.inj h] at hend
            exact hend

/-- **The evaluation of a derived role**: a role the principal cannot have is passed over; for
another one the variables are looked up, and that is all that the caches see. -/
theorem processDerivedRole_cases {allRoles : List String} {sdr sdr' : ScopedDerivedRoles}
    {dr : String × WrappedRunnableDerivedRole}
    (h : env.processDerivedRole allRoles dr sdr s = .ok (sdr', s')) :
    (setIntersects dr.2.role.parentRoles allRoles = false ∧ s' = s) ∨
      ∃ vars s₁, setIntersects dr.2.role.parentRoles allRoles = true ∧
        cachedVars dr.2.varCacheKey (s.evalCtx.evaluateVariables env.cel dr.2.role.constants
          dr.2.role.orderedVariables) s = .ok (vars, s₁) ∧
        ∃ roles, s' = { s₁ with effectiveDerivedRoles := roles } := by
  unfold processDerivedRole at h
  cases hmeet : setIntersects dr.2.role.parentRoles allRoles with
  | false => simp_all
  | true =>
    simp only [hmeet, Bool.not_true, Bool.false_eq_true, if_false] at h
    split at h
    · cases h
    next vars s₁ hc =>
      refine .inr ⟨vars, s₁, rfl, hc, ?_⟩
      split at h
      · split at h <;> cases h <;> exact ⟨_, rfl⟩
      · cases h; exact ⟨_, rfl⟩
      · cases h; exact ⟨_, rfl⟩

end Steps

end AccessManagement.CheckEnv
