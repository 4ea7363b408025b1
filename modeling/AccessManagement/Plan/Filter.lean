/-
  AccessManagement.Plan.Filter — THE FILTER IN THE RESPONSE, AND WHAT IT MEANS
  (`PlanResourcesFilter`).

  A filter allows everything, denies everything, or is a tree of operands.  A tree is evaluated
  under an assignment of values to its variables; `none` is an evaluation error.  `and`, `or`,
  `not`, `eq` and `in` have their meaning here, every other operator is a parameter (`Calls`).
  Its operands reach it as `Arg`s: a meaning, a name (the field of a `get-field`, the variables
  of a `lambda`), or a whole lambda.
-/
import AccessManagement.Cel.Expr

namespace AccessManagement

open Lib List

/-! ## §1. Filters. -/

/-- `PlanResourcesFilter_Expression_Operand`; `empty` has no node. -/
inductive Operand where
  | empty
  | value (v : Value)
  | var (name : String)
  | expression (operator : String) (operands : List Operand)
  deriving Inhabited

/-- `PlanResourcesFilter`. -/
inductive PlanResourcesFilter where
  | alwaysAllowed
  | alwaysDenied
  | conditional (condition : Operand)

/-! ## §2. Evaluation. -/

/-- The values of the variables; a variable without a value is an error. -/
abbrev Assignment := String → Option Value

/-- An operand, as its operator sees it. -/
inductive Arg where
  | plain (meaning : Assignment → Option Value)
  | label (name : String)
  | lambda (args : List Arg)

/-- Names and lambdas have no value. -/
def Arg.value (ρ : Assignment) : Arg → Option Value
  | .plain meaning => meaning ρ
  | _ => none

/-- The operators whose meaning is not fixed here. -/
abbrev Calls := String → List Arg → Assignment → Option Value

def truth : Option Value → Option Bool
  | some (.bool b) => some b
  | _ => none

/-- The literal that decides an `and` or an `or`. -/
def dominant (operator : String) : Option Bool :=
  if operator = "and" then some false
  else if operator = "or" then some true
  else none

/-- `and` for `d = false`, `or` for `d = true`: one operand `d` decides, whatever fails beside it. -/
def junction (d : Bool) (ts : List (Option Bool)) : Option Bool :=
  if some d ∈ ts then some d
  else if ts.all (fun t => decide (t = some (!d))) then some (!d)
  else none

/-- `in`: an element of a list, or a key of a map. -/
def member (x : Value) : Value → Option Bool
  | .list vs => some (vs.any x.equal)
  | .struct fs => some (fs.any (fun kv => x.equal (.string kv.1)))
  | _ => none

def binary (f : Value → Value → Option Bool) : Option Value → Option Value → Option Value
  | some x, some y => (f x y).map .bool
  | _, _ => none

/-- An operator applied to its operands. -/
def applyOp (call : Calls) (operator : String) (args : List Arg) (ρ : Assignment) : Option Value :=
  match dominant operator with
  | some d => (junction d (args.map (fun a => truth (a.value ρ)))).map .bool
  | none =>
    match args with
    | [a] =>
      if operator = "not" then (truth (a.value ρ)).map (fun b => .bool (!b))
      else call operator args ρ
    | [a, b] =>
      if operator = "eq" then binary (fun x y => some (x.equal y)) (a.value ρ) (b.value ρ)
      else if operator = "in" then binary member (a.value ρ) (b.value ρ)
      else call operator args ρ
    | _ => call operator args ρ

/-- Where the names begin among the operands: the field of a `get-field`, the last one or two
operands of a `lambda`, which are the variables it binds. -/
def labelStart (operator : String) (operands : Nat) : Nat :=
  if operator = "get-field" then 1
  else if operator = "lambda" then max 1 (operands - 2)
  else operands

def labelled (o : Operand) (a : Arg) : Arg :=
  match o with
  | .var name => .label name
  | _ => a

mutual

def Operand.arg (call : Calls) : Operand → Arg
  | .empty => .plain (fun _ => none)
  | .value v => .plain (fun _ => some v)
  | .var name => .plain (fun ρ => ρ name)
  | .expression operator operands =>
    if operator = "lambda" then .lambda (args call (labelStart operator operands.length) operands)
    else .plain (applyOp call operator (args call (labelStart operator operands.length) operands))

/-- The operands as arguments; the first `k` of them are not names. -/
def args (call : Calls) : Nat → List Operand → List Arg
  | _, [] => []
  | 0, o :: os => labelled o (o.arg call) :: args call 0 os
  | k + 1, o :: os => o.arg call :: args call k os

end

variable {call : Calls} {ρ : Assignment} {os : List Operand}

/-- The value of a tree of operands. -/
def Operand.eval (call : Calls) (t : Operand) (ρ : Assignment) : Option Value := (t.arg call).value ρ

/-- Whether the filter lets a resource through. -/
@[simp] def PlanResourcesFilter.holds (call : Calls) (ρ : Assignment) : PlanResourcesFilter → Option Bool
  | .alwaysAllowed => some true
  | .alwaysDenied => some false
  | .conditional c => truth (c.eval call ρ)

theorem truth_eq_some {o : Option Value} {b : Bool} : truth o = some b ↔ o = some (.bool b) := by
  unfold truth
  split
  · simp
  · rename_i hne
    exact iff_of_false (Option.some_ne_none b).symm (fun h => hne b h)

theorem junction_false_eq_true {ts : List (Option Bool)} :
    junction false ts = some true ↔ ∀ t ∈ ts, t = some true := by
  unfold junction
  split_ifs with hfalse hall
  · exact iff_of_false (by simp) (fun h => by simpa using h _ hfalse)
  · simpa using hall
  · exact iff_of_false (by simp) (fun h => hall (by simpa using h))

theorem args_length (os : List Operand) : args call os.length os = os.map (Operand.arg call) := by
  induction os with
  | nil => rfl
  | cons _ _ ih => rw [length_cons, args, ih, map_cons]

/-- An `and` is true when every operand is. -/
theorem truth_eval_and : truth ((Operand.expression "and" os).eval call ρ) = some true ↔
    ∀ o ∈ os, truth (o.eval call ρ) = some true := by
  have heval : (Operand.expression "and" os).eval call ρ =
      (junction false (os.map (fun o => truth (o.eval call ρ)))).map .bool := by
    show Arg.value ρ (Operand.arg call _) = _
    rw [Operand.arg, if_neg (by decide), show labelStart "and" os.length = os.length from rfl,
      args_length]
    show Option.map _ (junction false (map _ (map _ os))) = _
    rw [map_map]
    rfl
  rw [truth_eq_some, heval, Option.map_eq_some_iff]
  simp [junction_false_eq_true]

end AccessManagement
