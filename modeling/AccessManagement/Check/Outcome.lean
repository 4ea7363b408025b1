/-
  AccessManagement.Check.Outcome — ONE BINDING, WITH AND WITHOUT THE CACHES.

  `bindingOutcome` is what a binding's conditions come to in an evaluation context, for given
  variables and without any cache.  `evalBinding_of` is the rule for the cached evaluation:
  if an invariant of the carried state makes every cached entry and every fresh evaluation
  agree on one outcome, the evaluation has that outcome and keeps the invariant.

  `NoFailure` is the assumption on CEL evaluation that the results need: expressions may have
  CEL errors, but evaluation itself does not break down.
-/
import AccessManagement.Check.Check
import AccessManagement.Policy.Conjunction

namespace AccessManagement

variable {V : Type}

/-! ## §1. Evaluation without failures. -/

/-- Evaluating an expression gives a value or a CEL error. -/
def CelRuntime.NoFailure (cel : CelRuntime V) : Prop :=
  ∀ e act, cel.eval e act ≠ .failure

namespace EvalContext

theorem evaluateEach_ok {run : Vars V → Variable → VariableOutcome V}
    (h : ∀ vars v, run vars v ≠ .failed) (vs : List Variable) (acc : Vars V) :
    ∃ vars, evaluateEach run vs acc false = .ok vars := by
  induction vs generalizing acc with
  | nil => exact ⟨acc, rfl⟩
  | cons v _ ih =>
    unfold evaluateEach
    cases hr : run acc v with
    | set | unset => exact ih _
    | failed => exact (h acc v hr).elim

variable {cel : CelRuntime V} {ec : EvalContext}

theorem evaluatePrograms_ok (h : cel.NoFailure) (ec : EvalContext)
    (constants : List (String × Value)) (vs : List Variable) :
    ∃ vars, ec.evaluatePrograms cel constants vs = .ok vars := by
  refine evaluateEach_ok (fun vars v hf => ?_) vs []
  cases he : cel.eval v.expr.original _ with
  | value | error => rw [he] at hf; exact nomatch hf
  | failure => exact h _ _ he

section Truth

variable {constants : List (String × Value)} {vars : Vars V} {truth : Expr → Bool}

mutual

/-- Check's evaluation of a tree computes its truth. -/
theorem satisfies_eq_holds : ∀ c : Condition,
    (∀ e ∈ c.leaves, ec.evaluateBoolCELExpr cel e constants vars = .ok (truth e)) →
    ec.satisfies cel constants vars c = .ok (c.holds truth)
  | .expr e, h => by unfold satisfies Condition.holds; exact h e (by simp [Condition.leaves])
  | .all cs, h => by
    exact (satisfiesAll_eq_holdAll cs (by rwa [Condition.leaves] at h)).1
  | .any cs, h => by
    exact (satisfiesAll_eq_holdAll cs (by rwa [Condition.leaves] at h)).2
  | .none cs, h => by
    unfold satisfies Condition.holds
    rw [(satisfiesAll_eq_holdAll cs (by rwa [Condition.leaves] at h)).2]
    simp

theorem satisfiesAll_eq_holdAll : ∀ cs : List Condition, (∀ e ∈ Condition.listLeaves cs,
      ec.evaluateBoolCELExpr cel e constants vars = .ok (truth e)) →
    ec.satisfiesAll cel constants vars cs = .ok (Condition.holdAll truth cs) ∧
    ec.satisfiesAny cel constants vars cs = .ok (!Condition.holdNot truth cs)
  | [], _ => by
    exact ⟨rfl, rfl⟩
  | c :: cs, h => by
    rw [Condition.listLeaves, List.forall_mem_append] at h
    obtain ⟨hall, hany⟩ := satisfiesAll_eq_holdAll cs h.2
    unfold satisfiesAll satisfiesAny Condition.holdAll Condition.holdNot
    rw [satisfies_eq_holds c h.1, hall, hany]
    cases c.holds truth <;> exact ⟨rfl, rfl⟩

end

end Truth

variable (h : cel.NoFailure) (hec : ec.strictEvaluation = false)

include h hec

/-- Lenient evaluation of an expression always has a result. -/
theorem evaluateCELExprToRaw_ok (e : Expr) (constants : List (String × Value))
    (vars : Vars V) : ∃ v, ec.evaluateCELExprToRaw cel e constants vars = .ok v := by
  unfold evaluateCELExprToRaw
  cases he : cel.eval e.original _ with
  | value val => exact ⟨some val, rfl⟩
  | error =>
    rw [hec]
    exact ⟨none, rfl⟩
  | failure => exact (h _ _ he).elim

variable (constants : List (String × Value))

theorem evaluateVariables_ok (vs : List Variable) :
    ∃ vars, ec.evaluateVariables cel constants vs = .ok vars := by
  refine evaluateEach_ok (fun vars v hf => ?_) vs []
  obtain ⟨val, hval⟩ := evaluateCELExprToRaw_ok h hec v.expr constants vars
  rw [hval] at hf
  exact nomatch hf

/-- Lenient evaluation of a condition always has a result. -/
theorem satisfies_ok (vars : Vars V)
    (c : Condition) : ∃ r, ec.satisfies cel constants vars c = .ok r := by
  have hleaf : ∀ e, ∃ b, ec.evaluateBoolCELExpr cel e constants vars = .ok b := by
    intro e
    obtain ⟨v, hv⟩ := evaluateCELExprToRaw_ok h hec e constants vars
    exact ⟨_, by rw [evaluateBoolCELExpr, hv]⟩
  choose truth htruth using hleaf
  exact ⟨c.holds truth, satisfies_eq_holds c (fun e _ => htruth e)⟩

theorem satisfiesCondition_ok (cond : Option Condition)
    (constants : List (String × Value)) (vars : Vars V) :
    ∃ r, ec.satisfiesCondition cel cond constants vars = .ok r := by
  cases cond with
  | none => exact ⟨true, rfl⟩
  | some c => exact satisfies_ok h hec constants vars c

end EvalContext

/-! ## §2. The outcome of a binding. -/

/-- The constants of a parameter set. -/
def paramConstants (p : Option RowParams) : List (String × Value) := (p.map (·.constants)).getD []

/-- The outcome of a binding's conditions: its derived role first, then the rule's own. -/
def bindingOutcome (cel : CelRuntime V) (ec : EvalContext) (b : BindingHandle)
    (vars drVars : Vars V) : Except EvalError Bool :=
  match b.core.derivedRoleCondition with
  | none => ec.satisfiesCondition cel b.core.condition (paramConstants b.core.params) vars
  | some drc =>
    match ec.satisfies cel (paramConstants b.core.derivedRoleParams) drVars drc with
    | .error err => .error err
    | .ok false => .ok false
    | .ok true => ec.satisfiesCondition cel b.core.condition (paramConstants b.core.params) vars

/-- Lenient evaluation of a binding always has an outcome. -/
theorem bindingOutcome_ok {cel : CelRuntime V} (h : cel.NoFailure) {ec : EvalContext}
    (hec : ec.strictEvaluation = false) (b : BindingHandle) (vars drVars : Vars V) :
    ∃ r, bindingOutcome cel ec b vars drVars = .ok r := by
  unfold bindingOutcome
  split
  · exact EvalContext.satisfiesCondition_ok h hec _ _ _
  next drc _ =>
      obtain ⟨r, hr⟩ := EvalContext.satisfies_ok h hec _
        drVars drc
      rw [hr]
      cases r with
      | true => exact EvalContext.satisfiesCondition_ok h hec _ _ _
      | false => exact ⟨false, rfl⟩

namespace CheckEnv

variable (env : CheckEnv V) {Good : CheckState V → Prop}

section Frame

variable {env} {s s' : CheckState V} {vars : Vars V} {constants : List (String × Value)}
  {p : Option RowParams}

/-- Variables are found in the cache, or computed and put there. -/
theorem cachedVars_cases {key : UInt64} {compute : Except EvalError (Vars V)}
    (h : cachedVars key compute s = .ok (vars, s')) : (s.varCache.lookup key = some vars ∧ s' = s) ∨
      (s.varCache.lookup key = none ∧ compute = .ok vars ∧
        s' = { s with varCache := s.varCache.insert key vars }) := by
  unfold cachedVars at h
  split at h
  next hl => cases h; exact .inl ⟨hl, rfl⟩
  next hl =>
    split at h <;> cases h
    exact .inr ⟨hl, rfl, rfl⟩

/-- The variables of a parameter set, if there is one, come through the cache. -/
theorem paramVars_cases (h : env.paramVars p s = .ok (constants, vars, s')) :
    (p = none ∧ vars = [] ∧ s' = s) ∨
      ∃ rp, p = some rp ∧ constants = rp.constants ∧ cachedVars rp.key
        (s.evalCtx.evaluatePrograms env.cel rp.constants rp.orderedVariables) s = .ok (vars, s') := by
  unfold paramVars at h
  split at h
  · cases h; exact .inl ⟨rfl, rfl, rfl⟩
  next rp =>
    split at h <;> cases h
    exact .inr ⟨rp, rfl, rfl, by assumption⟩

/-- Looking variables up leaves the rest of the state alone. -/
theorem paramVars_frame (h : env.paramVars p s = .ok (constants, vars, s')) :
    ∃ cache, s' = { s with varCache := cache } := by
  rcases paramVars_cases h with ⟨-, -, rfl⟩ | ⟨rp, -, -, hc⟩
  · exact ⟨s'.varCache, rfl⟩
  · rcases cachedVars_cases hc with ⟨-, rfl⟩ | ⟨-, -, rfl⟩
    · exact ⟨s'.varCache, rfl⟩
    · exact ⟨_, rfl⟩

end Frame

/-- The variables of a parameter set, through the cache: every cached and every computed map
is acceptable (`varsOk`), and caching one keeps the invariant. -/
theorem paramVars_of {p : Option RowParams} {varsOk : Vars V → Prop} (hnone : p = none → varsOk [])
    (hcached : ∀ rp, p = some rp → ∀ s vars, Good s →
      s.varCache.lookup rp.key = some vars → varsOk vars)
    (hcomputes : ∀ rp, p = some rp → ∀ s, Good s → ∃ vars,
      s.evalCtx.evaluatePrograms env.cel rp.constants rp.orderedVariables = .ok vars ∧
      varsOk vars ∧ Good { s with varCache := s.varCache.insert rp.key vars })
    (s : CheckState V) (hs : Good s) :
    ∃ vars s', env.paramVars p s = .ok (paramConstants p, vars, s') ∧ Good s' ∧ varsOk vars := by
  cases p with
  | none => exact ⟨[], s, rfl, hs, hnone rfl⟩
  | some rp =>
    unfold paramVars cachedVars
    dsimp only
    cases hl : s.varCache.lookup rp.key with
    | some vars => exact ⟨vars, s, rfl, hs, hcached rp rfl s vars hs hl⟩
    | none =>
      obtain ⟨vars, hc, hok, hgood⟩ := hcomputes rp rfl s hs
      rw [hc]
      exact ⟨vars, _, rfl, hgood, hok⟩

/-- **The cached evaluation of a binding.**  Variables are acceptable, a cached outcome is `v`, and
where there is none so is the outcome for acceptable variables: then the evaluation comes to `v`. -/
theorem evalBinding_of {After : CheckState V → Prop} {b : BindingHandle} {v : Bool}
    {varsOk drVarsOk : Vars V → Prop}
    (hparams : ∀ s, Good s → ∃ vars s',
      env.paramVars b.core.params s = .ok (paramConstants b.core.params, vars, s') ∧
      Good s' ∧ varsOk vars)
    (hdrParams : ∀ s, Good s → ∃ vars s', env.paramVars b.core.derivedRoleParams s =
        .ok (paramConstants b.core.derivedRoleParams, vars, s') ∧ Good s' ∧ drVarsOk vars)
    (hfound : ∀ s c, Good s → s.conditionCache.lookup (env.table.idx.evalKey b.id) = some c →
      c = v ∧ After s)
    (hout : ∀ s vars drVars, Good s →
      s.conditionCache.lookup (env.table.idx.evalKey b.id) = none → varsOk vars → drVarsOk drVars →
      bindingOutcome env.cel s.evalCtx b vars drVars = .ok v)
    (hinserts : ∀ s, Good s → s.conditionCache.lookup (env.table.idx.evalKey b.id) = none →
      After { s with
        conditionCache := s.conditionCache.insert (env.table.idx.evalKey b.id) v })
    (s : CheckState V) (hs : Good s) :
    ∃ s', env.evalBinding b s = .ok (.outcome v, s') ∧ After s' := by
  obtain ⟨vars, s₁, hp, hs₁, hvars⟩ := hparams s hs
  obtain ⟨drVars, s₂, hdp, hs₂, hdrVars⟩ := hdrParams s₁ hs₁
  unfold evalBinding
  rw [hp]
  dsimp only
  cases hl : s₁.conditionCache.lookup (env.table.idx.evalKey b.id) with
  | some c =>
    obtain ⟨rfl, hafter⟩ := hfound s₁ c hs₁ hl
    exact ⟨s₁, rfl, hafter⟩
  | none =>
    cases hdrc : b.core.derivedRoleCondition with
    | none =>
      have ho := hout s₁ vars drVars hs₁ hl hvars hdrVars
      unfold bindingOutcome at ho
      rw [hdrc] at ho
      dsimp only at ho ⊢
      unfold evalCondition
      rw [ho]
      exact ⟨_, rfl, hinserts s₁ hs₁ hl⟩
    | some drc =>
      have hl₂ : s₂.conditionCache.lookup (env.table.idx.evalKey b.id) = none := by
        obtain ⟨cache, rfl⟩ := paramVars_frame hdp
        exact hl
      have ho := hout s₂ vars drVars hs₂ hl₂ hvars hdrVars
      unfold bindingOutcome at ho
      rw [hdrc] at ho
      dsimp only at ho ⊢
      rw [hdp]
      dsimp only
      cases hdr : s₂.evalCtx.satisfies env.cel _
          drVars drc with
      | error err => rw [hdr] at ho; exact nomatch ho
      | ok r =>
        rw [hdr] at ho
        cases r with
        | false =>
          obtain rfl : false = v := Except.ok.inj ho
          exact ⟨_, rfl, hinserts s₂ hs₂ hl₂⟩
        | true =>
          dsimp only at ho ⊢
          unfold evalCondition
          rw [ho]
          exact ⟨_, rfl, hinserts s₂ hs₂ hl₂⟩

/-- Is a condition absent or a single expression? -/
def isLeaf : Option Condition → Bool
  | none => true
  | some (.expr _) => true
  | _ => false

end CheckEnv

end AccessManagement
