/-
  AccessManagement.Storage.Breaker — CALLS THROUGH THE CIRCUIT BREAKER (`storage/overlay/store.go`).

  A call looks at the state of the breaker: if it is open, the fallback function is called.
  Otherwise the breaker executes the base function, and the call asserts the type of what comes
  back.  A breaker that refuses returns nil, and a base function may return a nil value of an
  interface type; no type assertion accepts nil.

  The breaker is a parameter: what `State` says and whether `Execute` lets a call in.  Callers run
  side by side, so the breaker may have changed in any way between the two.

  Main result: `calls_return_iff` — all calls return EXACTLY WHEN every call that found the breaker
  not open is let in and gets a value that is not nil.
-/
import Mathlib.Tactic.SplitIfs

namespace AccessManagement.Storage.CircuitBreaker

inductive State where
  | closed | halfOpen | open
  deriving DecidableEq

/-- A Go type, with its nil values if it is an interface type. -/
structure GoType where
  Val : Type
  nilInterface : Val → Bool

/-- A breaker: `State()`, and whether `Execute` runs the function it is given. -/
structure Breaker where
  Carrier : Type
  state : Carrier → State
  admits : Carrier → Bool

/-- How a call ends. -/
inductive Ending (α : Type) where
  | returned (a : α)
  | panicked

variable (T : GoType) {E : Type} (refusal : E)

/-- A value as an `any`: `none` is nil. -/
def toAny (v : T.Val) : Option T.Val := if T.nilInterface v then none else some v

def execute (admits : Bool) (fn : Option T.Val × Option E) : Option T.Val × Option E :=
  if admits then fn else (none, some refusal)

def withCircuitBreaker (state : State) (admits : Bool) (baseFn fallbackFn : T.Val × Option E) :
    Ending (T.Val × Option E) :=
  if state = .open then .returned fallbackFn
  else
    let (result, err) := execute T refusal admits (toAny T baseFn.1, baseFn.2)
    -- `result.(T)`
    match result with
    | some value => .returned (value, err)
    | none => .panicked

/-- The variant for functions without an error; where there is an error there is no value. -/
def withCircuitBreaker0 (state : State) (admits : Bool) (baseFn fallbackFn : T.Val) :
    Ending (T.Val × Option E) :=
  withCircuitBreaker T refusal state admits (baseFn, none) (fallbackFn, none)

/-- A call: when it looks at the breaker and when it has it execute the base function, what the two
functions return, and whether they have no error. -/
structure Call (T : GoType) (E : Type) where
  checkedAt : Nat
  executedAt : Nat
  baseFn : T.Val × Option E
  fallbackFn : T.Val × Option E
  noError : Bool := false

variable {T} {B : Breaker}

/-- How a call ends, with the breaker at each moment. -/
def Call.ending (breaker : Nat → B.Carrier) (c : Call T E) : Ending (T.Val × Option E) :=
  let state := B.state (breaker c.checkedAt)
  let admits := B.admits (breaker c.executedAt)
  if c.noError then withCircuitBreaker0 T refusal state admits c.baseFn.1 c.fallbackFn.1
  else withCircuitBreaker T refusal state admits c.baseFn c.fallbackFn

variable {refusal}

theorem withCircuitBreaker_returns_iff {state : State} {admits : Bool}
    {baseFn fallbackFn : T.Val × Option E} :
    (∃ r, withCircuitBreaker T refusal state admits baseFn fallbackFn = .returned r) ↔
      state = .open ∨ admits = true ∧ T.nilInterface baseFn.1 = false := by
  unfold withCircuitBreaker execute toAny
  split_ifs with hopen hadmits hnil <;> simp [*]

/-- **ALL CALLS RETURN EXACTLY WHEN EVERY CALL THAT FOUND THE BREAKER NOT OPEN IS LET IN AND GETS A
VALUE THAT IS NOT NIL.** -/
theorem calls_return_iff (breaker : Nat → B.Carrier) (calls : List (Call T E)) :
    (∀ c ∈ calls, ∃ r, c.ending refusal breaker = .returned r) ↔
      ∀ c ∈ calls, B.state (breaker c.checkedAt) = .open ∨
        B.admits (breaker c.executedAt) = true ∧ T.nilInterface c.baseFn.1 = false := by
  refine forall₂_congr fun c _ => ?_
  unfold Call.ending withCircuitBreaker0
  split_ifs <;> exact withCircuitBreaker_returns_iff

/-- A breaker that is open or closed. -/
def twoStates : Breaker := ⟨Bool, fun isOpen => if isOpen then .open else .closed, fun isOpen => !isOpen⟩

/-- **A call panics if the breaker opens after it has looked**, and so does one for a schema that is
not there: the reader it gets is a nil value of an interface type. -/
theorem opened_breaker_and_nil_reader_panic :
    Call.ending (T := ⟨Nat, fun _ => false⟩) (B := twoStates) "open" (fun t => decide (t = 1))
      ⟨0, 1, (1, none), (2, none), false⟩ = .panicked ∧
    Call.ending (T := ⟨Option Nat, Option.isNone⟩) (B := twoStates) "open" (fun _ => false)
      ⟨0, 1, (none, some "not found"), (some 2, none), false⟩ = .panicked :=
  ⟨rfl, rfl⟩

end AccessManagement.Storage.CircuitBreaker
