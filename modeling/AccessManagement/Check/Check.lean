/-
  AccessManagement.Check.Check — THE DECISION PROCEDURE (`check`).

  Four nested loops: actions, policy kinds (principal, then resource), roles of the
  principal, scopes from the most specific one up; inside, the bindings that the index
  returns.  Each loop is a recursion here, and what the source keeps in local variables that
  outlive a round is the explicit `CheckState`:

    * `varCache`         — variables, by the content hash of their parameters;
    * `conditionCache`   — outcomes, by evaluation key;
    * `processedScopedDerivedRoles` — the effective derived roles of each scope seen so far;
    * `evalCtx`          — the evaluation context, REPLACED whenever a scope of a resource
                           policy is entered, and never reset.

  Left out: traces, audit trail, outputs and the collected CEL errors, which no decision
  reads.
-/
import AccessManagement.Check.Eval
import AccessManagement.RuleTable.Table

namespace AccessManagement

/-! ## §1. What a check runs with. -/

/-- `evaluator.EvalParams` (globals and clock are part of `CelRuntime`). -/
structure EvalParams where
  defaultPolicyVersion : String
  defaultScope : String
  lenientScopeSearch : Bool
  strictEvaluation : Bool

/-- The verdict of the schema manager on an input. -/
inductive Validation where
  | valid
  | invalid (reject : Bool)
  | failed
  deriving DecidableEq, Repr

/-- A rule table with everything `check` is called with.  `rangeOrder` is the order in which
a map of derived roles is ranged over. -/
structure CheckEnv (V : Type) where
  externals : Externals
  table : LoadedTable externals
  cel : CelRuntime V
  evalParams : EvalParams
  validate : String → CheckInput → Validation
  rangeOrder : List (String × WrappedRunnableDerivedRole) →
    List (String × WrappedRunnableDerivedRole)
  rangeOrder_perm : ∀ drs, (rangeOrder drs).Perm drs

/-- `EffectInfo`. -/
structure EffectInfo where
  policy : String := ""
  scope : String := ""
  effect : Effect := .unspecified
  deriving DecidableEq, Repr

def noPolicyMatch : String := "NO_MATCH"
def noMatchScopePermissions : String := "NO_MATCH_FOR_SCOPE_PERMISSIONS"

/-- `scopedDerivedRoles`. -/
structure ScopedDerivedRoles where
  roles : Finset String := ∅
  errDerivedRoles : Finset String := ∅

structure CheckState (V : Type) where
  varCache : AList (fun _ : UInt64 => Vars V)
  conditionCache : AList (fun _ : EvaluationKeyTuple => Bool)
  processedScopedDerivedRoles : AList (fun _ : String => ScopedDerivedRoles)
  evalCtx : EvalContext
  effectiveDerivedRoles : Finset String

/-- `internal.SetIntersects`: the wildcard role meets every set. -/
def setIntersects (s₁ s₂ : List String) : Bool := s₁.any (fun v => v == "*" || s₂.contains v)

namespace CheckEnv

variable {V : Type} (env : CheckEnv V) (input : CheckInput)

/-- `evaluator.PolicyVersion`. -/
def policyVersion (version : String) : String :=
  if version = "" then env.evalParams.defaultPolicyVersion else version

/-- `evaluator.Scope`. -/
def scopeOf (scope : String) : String :=
  Namer.scopeValue (if scope = "" then env.evalParams.defaultScope else scope)

def principalVersion : String := env.policyVersion input.principal.policyVersion
def resourceVersion : String := env.policyVersion input.resource.policyVersion
def principalScope : String := env.scopeOf input.principal.scope
def resourceScope : String := env.scopeOf input.resource.scope
def resourceKind : ResourceKind := ResourceKind.new input.resource.kind

variable (kind : Kind)

/-- The chain of scopes for a policy kind. -/
def scopesFor : List String :=
  env.table.getAllScopes kind
    (if kind = .principal then env.principalScope input else env.resourceScope input)
    env.evalParams.lenientScopeSearch

/-- The first policy of a chain, by its name (`""` for an empty chain). -/
def policyFqnFor : String :=
  match env.scopesFor input kind with
  | [] => ""
  | s :: _ =>
    if kind = .principal then
      Namer.principalPolicyFqn input.principal.id (env.principalVersion input) s
    else Namer.resourcePolicyFqn input.resource.kind (env.resourceVersion input) s

/-- The key of the first policy of a chain. -/
def policyKeyFor : String := Namer.policyKeyFromFqn (env.policyFqnFor input kind)

/-- Does a policy of the kind exist in the chain, whether or not it has matching rules? -/
def scopedPolicyExists : Bool :=
  if kind = .principal then
    env.table.idx.scopedPrincipalExists (env.principalVersion input) (env.scopesFor input .principal)
  else
    env.table.idx.scopedResourceExists env.externals (env.resourceVersion input)
      (resourceKind input) (env.scopesFor input .resource)

/-- The roles of the principal with all their ancestors. -/
def includingParentRoles : List String :=
  env.table.idx.addParentRoles [env.resourceScope input] input.principal.roles

/-- The bindings consulted for a policy kind, an action, a role and a scope.  The principal
is only passed for principal policies. -/
def bindingsFor (action role scope : String) : List BindingHandle :=
  env.table.idx.query env.externals (env.resourceVersion input) (resourceKind input) scope action
    (env.table.idx.addParentRoles [env.resourceScope input] [role]) kind
    (if kind = .principal then input.principal.id else "")

/-- The roles that are looped over: principal policies are role agnostic, so the first role
covers all their rows. -/
def rolesFor : List String :=
  if kind = .principal then input.principal.roles.take 1 else input.principal.roles

/-! ## §2. Derived roles of a scope. -/

/-- The variables of a parameter set: cached under the key, else computed and cached. -/
def cachedVars (key : UInt64) (compute : Except EvalError (Vars V)) (s : CheckState V) :
    Except EvalError (Vars V × CheckState V) :=
  match s.varCache.lookup key with
  | some vars => .ok (vars, s)
  | none =>
    match compute with
    | .error err => .error err
    | .ok vars => .ok (vars, { s with varCache := s.varCache.insert key vars })

/-- One round of the derived-roles loop. -/
def processDerivedRole (allRoles : List String) (dr : String × WrappedRunnableDerivedRole)
    (sdr : ScopedDerivedRoles) (s : CheckState V) :
    Except EvalError (ScopedDerivedRoles × CheckState V) :=
  if !setIntersects dr.2.role.parentRoles allRoles then .ok (sdr, s)
  else
    match cachedVars dr.2.varCacheKey
        (s.evalCtx.evaluateVariables env.cel dr.2.role.constants dr.2.role.orderedVariables) s with
    | .error err => .error err
    | .ok (vars, s) =>
      match s.evalCtx.satisfiesCondition env.cel dr.2.role.condition dr.2.role.constants vars with
      | .error _ =>
        if s.evalCtx.strictEvaluation then
          .ok ({ sdr with errDerivedRoles := insert dr.1 sdr.errDerivedRoles }, s)
        else .ok (sdr, s)
      | .ok true =>
        .ok ({ sdr with roles := insert dr.1 sdr.roles },
          { s with effectiveDerivedRoles := insert dr.1 s.effectiveDerivedRoles })
      | .ok false => .ok (sdr, s)

def processDerivedRoles (allRoles : List String) :
    List (String × WrappedRunnableDerivedRole) → ScopedDerivedRoles → CheckState V →
    Except EvalError (ScopedDerivedRoles × CheckState V)
  | [], sdr, s => .ok (sdr, s)
  | dr :: drs, sdr, s =>
    match env.processDerivedRole allRoles dr sdr s with
    | .error err => .error err
    | .ok (sdr, s) => processDerivedRoles allRoles drs sdr s

/-- The derived roles that a scope's policy refers to. -/
def derivedRolesOf (scope : String) : List (String × WrappedRunnableDerivedRole) :=
  env.table.getDerivedRoles env.externals
    (Namer.resourcePolicyFqn input.resource.kind (env.resourceVersion input) scope)

/-- Entering a scope.  For resource policies the effective derived roles of the scope are
computed once, under the context of the scope before it, and become the context. -/
def enterScope (scope : String) (s : CheckState V) : Except EvalError (CheckState V) :=
  if kind = .resource then
    match s.processedScopedDerivedRoles.lookup scope with
    | some sdr =>
      .ok { s with
        evalCtx := s.evalCtx.withEffectiveDerivedRoles sdr.roles sdr.errDerivedRoles }
    | none =>
      match env.processDerivedRoles (env.includingParentRoles input)
          (env.rangeOrder (env.derivedRolesOf input scope)) {} s with
      | .error err => .error err
      | .ok (sdr, s) =>
        .ok { s with
          processedScopedDerivedRoles := s.processedScopedDerivedRoles.insert scope sdr
          evalCtx := s.evalCtx.withEffectiveDerivedRoles sdr.roles sdr.errDerivedRoles }
  else .ok s

/-! ## §3. One binding. -/

/-- What evaluating a binding comes to: an outcome, an error that skips the binding, or an
error that denies the action (strict evaluation). -/
inductive Verdict where
  | outcome (satisfied : Bool)
  | skipped
  | strictDeny
  deriving DecidableEq, Repr

/-- The variables and constants of a binding's parameters. -/
def paramVars (p : Option RowParams) (s : CheckState V) :
    Except EvalError (List (String × Value) × Vars V × CheckState V) :=
  match p with
  | none => .ok ([], [], s)
  | some rp =>
    match cachedVars rp.key
        (s.evalCtx.evaluatePrograms env.cel rp.constants rp.orderedVariables) s with
    | .error err => .error err
    | .ok (vars, s) => .ok (rp.constants, vars, s)

/-- An error in a condition is never cached. -/
def errorVerdict (s : CheckState V) : Verdict × CheckState V :=
  (if s.evalCtx.strictEvaluation then .strictDeny else .skipped, s)

variable (b : BindingHandle)

/-- The rule's own condition, once its derived role (if any) is known to apply. -/
def evalCondition (constants : List (String × Value)) (vars : Vars V)
    (s : CheckState V) : Verdict × CheckState V :=
  match s.evalCtx.satisfiesCondition env.cel b.core.condition constants vars with
  | .error _ => errorVerdict s
  | .ok satisfied =>
    (.outcome satisfied, { s with
      conditionCache := s.conditionCache.insert (env.table.idx.evalKey b.id) satisfied })

/-- The evaluation of a binding.  Its variables come first, then the condition cache, then
the derived role's condition, then its own. -/
def evalBinding (s : CheckState V) : Except EvalError (Verdict × CheckState V) :=
  match env.paramVars b.core.params s with
  | .error err => .error err
  | .ok (constants, vars, s) =>
    match s.conditionCache.lookup (env.table.idx.evalKey b.id) with
    | some satisfied => .ok (.outcome satisfied, s)
    | none =>
      match b.core.derivedRoleCondition with
      | none => .ok (env.evalCondition b constants vars s)
      | some drc =>
        match env.paramVars b.core.derivedRoleParams s with
        | .error err => .error err
        | .ok (drConstants, drVars, s) =>
          match s.evalCtx.satisfies env.cel drConstants drVars drc with
          | .error _ => .ok (errorVerdict s)
          | .ok false =>
            .ok (.outcome false, { s with
              conditionCache :=
                s.conditionCache.insert (env.table.idx.evalKey b.id) false })
          | .ok true => .ok (env.evalCondition b constants vars s)

/-! ## §4. The loops. -/

/-- The local variables of one round of the roles loop. -/
structure RoleProgress where
  hasAllow : Bool
  info : EffectInfo

/-- How the bindings loop ends. -/
inductive BindingsEnd where
  | next (p : RoleProgress)
  | deny (info : EffectInfo)
  | strictDeny (info : EffectInfo)

/-- The DENY of a strict evaluation error. -/
def strictDenyInfo (scope : String) : EffectInfo where
  effect := .deny
  policy := Namer.policyKeyFromFqn b.originFqn
  scope := scope

/-- The DENY of a satisfied binding.  The DENY of a role policy is attributed to it. -/
def denyInfo (scope : String) (info : EffectInfo) : EffectInfo where
  effect := .deny
  scope := scope
  policy := if b.core.fromRolePolicy then Namer.policyKeyFromFqn b.originFqn else info.policy

/-- A satisfied binding that does not deny. -/
def noteSatisfied (scope : String) (p : RoleProgress) : RoleProgress where
  hasAllow := p.hasAllow || b.core.effect = .allow
  info :=
    if b.noMatchForScopePermissions then
      { p.info with policy := noMatchScopePermissions, scope := scope }
    else p.info

def bindingsLoop (scope : String) : List BindingHandle → RoleProgress → CheckState V →
    Except EvalError (BindingsEnd × CheckState V)
  | [], p, s => .ok (.next p, s)
  | b :: bs, p, s =>
    match env.evalBinding b s with
    | .error err => .error err
    | .ok (.strictDeny, s) => .ok (.strictDeny (strictDenyInfo b scope), s)
    | .ok (.skipped, s) => bindingsLoop scope bs p s
    | .ok (.outcome false, s) => bindingsLoop scope bs p s
    | .ok (.outcome true, s) =>
      if b.core.effect = .deny then .ok (.deny (denyInfo b scope p.info), s)
      else bindingsLoop scope bs (noteSatisfied b scope p) s

/-- How the scopes loop ends. -/
inductive ScopesEnd where
  | done (info : EffectInfo)
  | strictDeny (info : EffectInfo)

/-- The scopes loop.  A role whose effect is set leaves the loop at once, so the test at the
top of a round of the source, whether the effect is already set, never succeeds. -/
def scopesLoop (kind : Kind) (action role : String) : List String → RoleProgress →
    CheckState V → Except EvalError (ScopesEnd × CheckState V)
  | [], p, s => .ok (.done p.info, s)
  | scope :: scopes, p, s =>
    match env.enterScope input kind scope s with
    | .error err => .error err
    | .ok s =>
      match env.bindingsLoop scope (env.bindingsFor input kind action role scope) p s with
      | .error err => .error err
      | .ok (.strictDeny info, s) => .ok (.strictDeny info, s)
      | .ok (.deny info, s) => .ok (.done info, s)
      | .ok (.next p, s) =>
        if p.hasAllow then
          match env.table.getScopeScopePermissions scope with
          | .requireParentalConsentForAllows =>
            scopesLoop kind action role scopes { p with hasAllow := false } s
          | .overrideParent =>
            .ok (.done { p.info with effect := .allow, scope := scope }, s)
          | .unspecified => scopesLoop kind action role scopes p s
        else scopesLoop kind action role scopes p s

/-- The effect a role starts with. -/
def initialInfo : EffectInfo where
  effect := .noMatch
  policy := if env.scopedPolicyExists input kind then env.policyKeyFor input kind else noPolicyMatch

/-- How the effect of one more role changes that of the action: the first match counts, an
ALLOW is final, and an explicit DENY replaces the DENY of an unlisted action. -/
def mergeRole (actionInfo roleInfo : EffectInfo) : EffectInfo :=
  let actionInfo := if actionInfo.effect = .noMatch then roleInfo else actionInfo
  if roleInfo.effect = .allow then roleInfo
  else if roleInfo.effect = .deny ∧ actionInfo.policy = noMatchScopePermissions ∧
      roleInfo.policy ≠ noMatchScopePermissions then roleInfo
  else actionInfo

/-- How the loops inside an action end: normally, or with the DENY of a strict error. -/
inductive KindEnd where
  | done (info : EffectInfo)
  | strictDeny (info : EffectInfo)

def rolesLoop (kind : Kind) (action : String) : List String → EffectInfo → CheckState V →
    Except EvalError (KindEnd × CheckState V)
  | [], info, s => .ok (.done info, s)
  | role :: roles, info, s =>
    match env.scopesLoop input kind action role (env.scopesFor input kind)
        { hasAllow := false, info := env.initialInfo input kind } s with
    | .error err => .error err
    | .ok (.strictDeny info, s) => .ok (.strictDeny info, s)
    | .ok (.done roleInfo, s) =>
      if roleInfo.effect = .allow then .ok (.done (mergeRole info roleInfo), s)
      else rolesLoop kind action roles (mergeRole info roleInfo) s

def kindsLoop (action : String) : List Kind → EffectInfo → CheckState V →
    Except EvalError (EffectInfo × CheckState V)
  | [], info, s => .ok (info, s)
  | kind :: kinds, info, s =>
    match env.rolesLoop input kind action (rolesFor input kind)
        { info with effect := .noMatch } s with
    | .error err => .error err
    | .ok (.strictDeny info, s) => .ok (info, s)
    | .ok (.done info, s) =>
      if info.effect = .allow ∨ info.effect = .deny then .ok (info, s)
      else kindsLoop action kinds info s

/-- The effect of one action: no match is DENY. -/
def checkAction (action : String) (s : CheckState V) : Except EvalError (EffectInfo × CheckState V) :=
  match env.kindsLoop input action [.principal, .resource] {} s with
  | .error err => .error err
  | .ok (info, s) => .ok (if info.effect = .noMatch then { info with effect := .deny } else info, s)

/-- The effects decided so far. -/
abbrev Effects := AList (fun _ : String => EffectInfo)

/-- `setEffect`: DENY always takes precedence. -/
def setEffect (effects : Effects) (action : String) (info : EffectInfo) : Effects :=
  if info.effect = .deny then effects.insert action info
  else
    match effects.lookup action with
    | none => effects.insert action info
    | some current => if current.effect ≠ .deny then effects.insert action info else effects

def actionsLoop : List String → Effects → CheckState V → Except EvalError (Effects × CheckState V)
  | [], effects, s => .ok (effects, s)
  | action :: actions, effects, s =>
    match env.checkAction input action s with
    | .error err => .error err
    | .ok (info, s) => actionsLoop actions (setEffect effects action info) s

/-! ## §5. `check`. -/

/-- The state before the first action. -/
def initialState : CheckState V where
  varCache := ∅
  conditionCache := ∅
  processedScopedDerivedRoles := ∅
  evalCtx := {
    request := checkInputToRequest input
    effectiveDerivedRoles := ∅
    errDerivedRoles := ∅
    strictEvaluation := env.evalParams.strictEvaluation }
  effectiveDerivedRoles := ∅

/-- What a check returns, as far as it is modelled. -/
structure CheckResult where
  effects : Effects
  effectiveDerivedRoles : Finset String

/-- Does the check get as far as the loops? It does not when no scope has a policy, or none
of the kind and version in question. -/
def reachesLoops : Bool :=
  !((env.scopesFor input .principal).isEmpty && (env.scopesFor input .resource).isEmpty) &&
    (env.scopedPolicyExists input .principal || env.scopedPolicyExists input .resource)

/-- The actions one by one, if the check gets that far. -/
def evaluate : Except EvalError CheckResult :=
  if env.reachesLoops input then
    match env.actionsLoop input input.actions ∅ (env.initialState input) with
    | .error err => .error err
    | .ok (effects, s) =>
      .ok { effects := effects, effectiveDerivedRoles := s.effectiveDerivedRoles }
  else .ok { effects := ∅, effectiveDerivedRoles := ∅ }

/-- `check`: an input that fails validation is an error, or denied if the schema rejects. -/
def check : Except EvalError CheckResult :=
  if (env.scopesFor input .principal).isEmpty && (env.scopesFor input .resource).isEmpty then
    .ok { effects := ∅, effectiveDerivedRoles := ∅ }
  else
    match env.validate (env.policyFqnFor input .resource) input with
    | .failed => .error .failure
    | .invalid true =>
      .ok {
        effects := input.actions.foldl (fun effects action => setEffect effects action
          { effect := .deny, policy := env.policyKeyFor input .resource }) ∅
        effectiveDerivedRoles := ∅ }
    | _ => env.evaluate input

/-- `checkWithAuditTrail`: the answer for an action; one that was not decided is denied. -/
def answer (result : CheckResult) (action : String) : EffectInfo :=
  (result.effects.lookup action).getD { effect := .deny, policy := noPolicyMatch }

/-- The effect a check answers for an action, where it has an answer. -/
def checkedEffect (env : CheckEnv V) (input : CheckInput) (action : String) : Option Effect :=
  match env.check input with
  | .ok result => some (answer result action).effect
  | .error _ => none

/-- A concrete environment, for evaluating the model on examples: expressions have Boolean
values, schemas are off. -/
def sample (table : LoadedTable Externals.sample) (eval : String → Activation Bool → Bool) :
    CheckEnv Bool where
  externals := Externals.sample
  table := table
  cel := { eval := fun e act => .value (eval e act), asBool := some }
  evalParams := { defaultPolicyVersion := "default", defaultScope := ""
                  lenientScopeSearch := false, strictEvaluation := false }
  validate := fun _ _ => .valid
  rangeOrder := id
  rangeOrder_perm := fun _ => List.Perm.refl _

end CheckEnv

end AccessManagement
