/-
  AccessManagement.Check.Eval — EVALUATING CONDITIONS (`EvalContext`).

  A condition is a tree of CEL expressions.  What an expression evaluates to is outside the
  repository, so it is a parameter, `CelRuntime`: a value, a CEL error (a missing attribute,
  a type mismatch), or a failure of the evaluation itself (a program that does not compile, a
  cancelled call).

  What `check` does with the three is here, and is where strict and lenient evaluation part:

    * LENIENT: a CEL error is no value, and a condition without a Boolean value is false;
    * STRICT: a CEL error is an error of the condition;
    * a failure is an error of the condition, or of the whole check when it happens in a variable.
-/
import Mathlib.Data.Finset.Insert
import AccessManagement.Policy.Types
import AccessManagement.Policy.Namer

namespace AccessManagement

/-! ## §1. Requests. -/

/-- `engine.v1.Principal`. -/
structure Principal where
  id : String
  roles : List String
  attr : List (String × Value)
  policyVersion : String
  scope : String

/-- `engine.v1.Resource`. -/
structure Resource where
  kind : String
  id : String
  attr : List (String × Value)
  policyVersion : String
  scope : String

/-- `engine.v1.AuxData`: the claims of the token. -/
structure AuxData where
  jwt : List (String × Value)

/-- `engine.v1.Request`, what a CEL expression sees of the input. -/
structure Request where
  principal : Principal
  resource : Resource
  auxData : Option AuxData

/-- `engine.v1.CheckInput`. -/
structure CheckInput where
  requestId : String
  principal : Principal
  resource : Resource
  actions : List String
  auxData : Option AuxData

/-- `checkInputToRequest`. -/
def checkInputToRequest (input : CheckInput) : Request where
  principal := { input.principal with scope := Namer.scopeValue input.principal.scope }
  resource := { input.resource with scope := Namer.scopeValue input.resource.scope }
  auxData := input.auxData

/-! ## §2. CEL. -/

/-- A variable map; a variable can be set without having a value. -/
abbrev Vars (V : Type) := List (String × Option V)

/-- What an expression is evaluated against.  `runtime` is the set of effective derived
roles, or the names of those that could not be computed: reading it then is an error. -/
structure Activation (V : Type) where
  request : Request
  runtime : Except (Finset String) (Finset String)
  constants : List (String × Value)
  variableMap : Vars V

/-- The result of running a CEL program. -/
inductive CelOutcome (V : Type) where
  | value (v : V)
  | error
  | failure

/-- CEL evaluation in the environment of one call (its globals and its clock). -/
structure CelRuntime (V : Type) where
  eval : String → Activation V → CelOutcome V
  asBool : V → Option Bool

/-- `EvalContext`. -/
structure EvalContext where
  request : Request
  effectiveDerivedRoles : Finset String
  errDerivedRoles : Finset String
  strictEvaluation : Bool

/-- Why an evaluation stopped: a CEL error under strict evaluation, or a failure. -/
inductive EvalError where
  | strict
  | failure
  deriving DecidableEq, Repr

namespace EvalContext

variable {V : Type}

/-- `lazyRuntime`. -/
def lazyRuntime (ec : EvalContext) : Except (Finset String) (Finset String) :=
  if ec.errDerivedRoles = ∅ then .ok ec.effectiveDerivedRoles else .error ec.errDerivedRoles

/-- `withEffectiveDerivedRoles`. -/
def withEffectiveDerivedRoles (ec : EvalContext) (roles errRoles : Finset String) : EvalContext :=
  { ec with effectiveDerivedRoles := roles, errDerivedRoles := errRoles }

/-- `buildEvalVars`. -/
def activation (ec : EvalContext) (constants : List (String × Value)) (variableMap : Vars V) :
    Activation V where
  request := ec.request
  runtime := ec.lazyRuntime
  constants := constants
  variableMap := variableMap

/-- `evaluateCELExprToRaw`. -/
def evaluateCELExprToRaw (ec : EvalContext) (cel : CelRuntime V) (expr : Expr)
    (constants : List (String × Value)) (variableMap : Vars V) : Except EvalError (Option V) :=
  match cel.eval expr.original (ec.activation constants variableMap) with
  | .value v => .ok (some v)
  | .error => if ec.strictEvaluation then .error .strict else .ok none
  | .failure => .error .failure

/-- `evaluateBoolCELExpr`: anything but a Boolean counts as false. -/
def evaluateBoolCELExpr (ec : EvalContext) (cel : CelRuntime V) (expr : Expr)
    (constants : List (String × Value)) (variableMap : Vars V) : Except EvalError Bool :=
  match ec.evaluateCELExprToRaw cel expr constants variableMap with
  | .error err => .error err
  | .ok v => .ok ((v.bind cel.asBool).getD false)

/-! ## §3. Variables. -/

/-- What becomes of one variable. -/
inductive VariableOutcome (V : Type) where
  | set (val : Option V)
  | unset
  | failed

/-- Variables are evaluated in order, each seeing the earlier ones.  A failure does not stop
the loop but makes the whole result an error. -/
def evaluateEach (run : Vars V → Variable → VariableOutcome V) :
    List Variable → Vars V → (failed : Bool) → Except EvalError (Vars V)
  | [], evalVars, failed => if failed then .error .failure else .ok evalVars
  | v :: vs, evalVars, failed =>
    match run evalVars v with
    | .set val => evaluateEach run vs ((v.name, val) :: evalVars) failed
    | .unset => evaluateEach run vs evalVars failed
    | .failed => evaluateEach run vs evalVars true

section

variable (ec : EvalContext) (cel : CelRuntime V) (constants : List (String × Value))

variable (orderedVariables : List Variable)

/-- `evaluateVariables`, used for derived roles: under lenient evaluation a variable with a
CEL error is set to no value. -/
def evaluateVariables : Except EvalError (Vars V) :=
  evaluateEach (fun evalVars v =>
    match ec.evaluateCELExprToRaw cel v.expr constants evalVars with
    | .ok val => .set val
    | .error .strict => .unset
    | .error .failure => .failed) orderedVariables [] false

/-- `evaluatePrograms`, used for rules: a variable with a CEL error stays unset. -/
def evaluatePrograms : Except EvalError (Vars V) :=
  evaluateEach (fun evalVars v =>
    match cel.eval v.expr.original (ec.activation constants evalVars) with
    | .value val => .set (some val)
    | .error => .unset
    | .failure => .failed) orderedVariables [] false

/-! ## §4. Conditions. -/

variable (variableMap : Vars V)

mutual

/-- `SatisfiesCondition` on a condition that is present. -/
def satisfies : Condition → Except EvalError Bool
  | .expr e => ec.evaluateBoolCELExpr cel e constants variableMap
  | .all cs => satisfiesAll cs
  | .any cs => satisfiesAny cs
  | .none cs =>
    match satisfiesAny cs with
    | .error err => .error err
    | .ok found => .ok (!found)

/-- The conjunction, up to the first condition that fails or is false. -/
def satisfiesAll : List Condition → Except EvalError Bool
  | [] => .ok true
  | c :: cs =>
    match satisfies c with
    | .error err => .error err
    | .ok true => satisfiesAll cs
    | .ok false => .ok false

/-- The disjunction, up to the first condition that fails or is true. -/
def satisfiesAny : List Condition → Except EvalError Bool
  | [] => .ok false
  | c :: cs =>
    match satisfies c with
    | .error err => .error err
    | .ok true => .ok true
    | .ok false => satisfiesAny cs

end

end

/-- `SatisfiesCondition`: no condition is satisfied. -/
def satisfiesCondition (ec : EvalContext) (cel : CelRuntime V) (cond : Option Condition)
    (constants : List (String × Value)) (variableMap : Vars V) : Except EvalError Bool :=
  match cond with
  | none => .ok true
  | some c => ec.satisfies cel constants variableMap c

end EvalContext

end AccessManagement
