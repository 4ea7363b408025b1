/-
  AccessManagement.Cel.Expr — THE CEL EXPRESSIONS THAT THE POLICIES USE.

  Every expression in the policy files is one comparison between attributes of the request,
  literals, and sizes.  An expression is a syntax tree here, with

    * `src`  — its text, as it stands in the policy file;
    * `eval` — its documented meaning, where `none` is a CEL error (a missing attribute, two
               values that cannot be ordered, the size of a number).

  CEL itself is outside the repository.  `Evaluates` is what is assumed of it: on the texts of
  the given expressions it computes their meaning.

  Equality is between ANY two values and never an error; ordering is between numbers, texts
  and Booleans only; integer literals and attributes (always doubles) are compared as exact
  numbers, which is right for literals up to 2 ^ 53.
-/
import AccessManagement.Lib.Binary64
import AccessManagement.Check.Eval

namespace AccessManagement

open Lib

/-! ## §1. Values. -/

mutual

/-- CEL's `==` on the values of attributes. -/
def Value.equal : Value → Value → Bool
  | .null, .null => true
  | .bool b, .bool c => b == c
  | .number d, .number e =>
    match Binary64.value d.bits, Binary64.value e.bits with
    | some p, some q => decide (p = q)
    | _, _ => false
  | .string s, .string t => s == t
  | .list vs, .list ws => Value.listEqual vs ws
  | .struct fs, .struct gs => fs.length == gs.length && Value.fieldsIn fs gs
  | _, _ => false

def Value.listEqual : List Value → List Value → Bool
  | [], [] => true
  | v :: vs, w :: ws => v.equal w && Value.listEqual vs ws
  | _, _ => false

/-- Every field of the first struct is in the second one, with an equal value. -/
def Value.fieldsIn : List (String × Value) → List (String × Value) → Bool
  | [], _ => true
  | (k, v) :: fs, gs =>
    (match gs.lookup k with
      | some w => v.equal w
      | none => false) && Value.fieldsIn fs gs

end

namespace Cel

/-- A value in an expression: that of an attribute, or an integer (a literal or a size). -/
inductive Val where
  | ofValue (v : Value)
  | int (n : Int)

/-- The number a value stands for, if it stands for one. -/
def Val.number : Val → Option ExtRat
  | .ofValue (.number d) => Binary64.value d.bits
  | .int n => some (ExtRat.of n)
  | _ => none

/-- `==`: values of different types are different, except for the two kinds of numbers. -/
def Val.equal : Val → Val → Bool
  | .ofValue v, .ofValue w => v.equal w
  | u, v =>
    match u.number, v.number with
    | some p, some q => decide (p = q)
    | _, _ => false

/-- The order behind `<` and its relatives; an error between values that have none. -/
def Val.compare : Val → Val → Option Ordering
  | .ofValue (.string s), .ofValue (.string t) => some (cmp s t)
  | .ofValue (.bool b), .ofValue (.bool c) => some (cmp b c)
  | u, v =>
    match u.number, v.number with
    | some p, some q => some (cmp p q)
    | _, _ => none

/-- `in`: an element of a list, or a key of a map. -/
def Val.isIn : Val → Val → Option Bool
  | u, .ofValue (.list vs) => some (vs.any (fun v => Val.equal (.ofValue v) u))
  | .ofValue (.string s), .ofValue (.struct fs) => some (fs.any (fun f => f.1 == s))
  | _, .ofValue (.struct _) => some false
  | _, _ => none

/-- `size`: of a text in characters, of a list, of a map. -/
def Val.size : Val → Option Nat
  | .ofValue (.string s) => some s.length
  | .ofValue (.list vs) => some vs.length
  | .ofValue (.struct fs) => some fs.length
  | _ => none

/-! ## §2. Expressions. -/

inductive Term where
  | resourceAttr (name : String)
  | principalAttr (name : String)
  | principalId
  | int (n : Nat)
  | bool (b : Bool)
  | string (s : String)
  | strings (ss : List String)
  | size (t : Term)
  deriving DecidableEq, Repr

inductive Rel where
  | eq | ne | lt | le | gt | ge | isIn
  deriving DecidableEq, Repr

structure Expr where
  lhs : Term
  rel : Rel
  rhs : Term
  deriving DecidableEq, Repr

def quoted (s : String) : String := "\"" ++ s ++ "\""

def Term.src : Term → String
  | .resourceAttr name => "request.resource.attr." ++ name
  | .principalAttr name => "request.principal.attr." ++ name
  | .principalId => "request.principal.id"
  | .int n => toString n
  | .bool b => if b then "true" else "false"
  | .string s => quoted s
  | .strings ss => "[" ++ ", ".intercalate (ss.map quoted) ++ "]"
  | .size t => "size(" ++ t.src ++ ")"

def Rel.src : Rel → String
  | .eq => "=="
  | .ne => "!="
  | .lt => "<"
  | .le => "<="
  | .gt => ">"
  | .ge => ">="
  | .isIn => "in"

variable (e : Expr)

/-- The text of an expression. -/
def Expr.src : String := e.lhs.src ++ " " ++ e.rel.src ++ " " ++ e.rhs.src

def Term.eval (req : Request) : Term → Option Val
  | .resourceAttr name => (req.resource.attr.lookup name).map .ofValue
  | .principalAttr name => (req.principal.attr.lookup name).map .ofValue
  | .principalId => some (.ofValue (.string req.principal.id))
  | .int n => some (.int n)
  | .bool b => some (.ofValue (.bool b))
  | .string s => some (.ofValue (.string s))
  | .strings ss => some (.ofValue (.list (ss.map .string)))
  | .size t => (t.eval req).bind (fun v => v.size.map (fun n => .int n))

def Rel.eval : Rel → Val → Val → Option Bool
  | .eq, u, v => some (u.equal v)
  | .ne, u, v => some (!u.equal v)
  | .lt, u, v => (u.compare v).map (· == .lt)
  | .le, u, v => (u.compare v).map (· != .gt)
  | .gt, u, v => (u.compare v).map (· == .gt)
  | .ge, u, v => (u.compare v).map (· != .lt)
  | .isIn, u, v => u.isIn v

/-- The meaning of an expression; `none` is a CEL error. -/
def Expr.eval (req : Request) : Option Bool :=
  match e.lhs.eval req, e.rhs.eval req with
  | some u, some v => e.rel.eval u v
  | _, _ => none

theorem Expr.eval_eq_bind (req : Request) :
    e.eval req = (e.lhs.eval req).bind (fun u => (e.rhs.eval req).bind (e.rel.eval u)) := by
  unfold Expr.eval
  cases e.lhs.eval req with
  | none => rfl
  | some => cases e.rhs.eval req <;> rfl

/-- The truth of an expression under lenient evaluation: an error is not true. -/
def Expr.holds (req : Request) : Bool := (e.eval req).getD false

/-! ## §3. What is assumed of CEL. -/

/-- The runtime evaluates the texts of the expressions to their meaning, whatever variables,
constants and derived roles are around. -/
def Evaluates {V : Type} (cel : CelRuntime V) (exprs : List Expr) : Prop :=
  ∀ e ∈ exprs, ∀ act : Activation V,
    match e.eval act.request with
    | some b => ∃ v, cel.eval e.src act = .value v ∧ cel.asBool v = some b
    | none => cel.eval e.src act = .error

/-- Lenient evaluation of such an expression comes to its truth. -/
theorem Evaluates.evaluateBoolCELExpr {V : Type} {cel : CelRuntime V} {exprs : List Expr}
    (h : Evaluates cel exprs) {e : Expr} (he : e ∈ exprs) {ec : EvalContext}
    (hec : ec.strictEvaluation = false) {expr : AccessManagement.Expr}
    (hexpr : expr.original = e.src) (constants : List (String × Value)) (vars : Vars V) :
    ec.evaluateBoolCELExpr cel expr constants vars = .ok (e.holds ec.request) := by
  have hact := h e he (ec.activation constants vars)
  have hreq : (ec.activation constants vars).request = ec.request := rfl
  rw [hreq] at hact
  unfold EvalContext.evaluateBoolCELExpr EvalContext.evaluateCELExprToRaw Expr.holds
  rw [hexpr]
  cases hm : e.eval ec.request with
  | some =>
    rw [hm] at hact
    obtain ⟨v, hv, hb⟩ := hact
    rw [hv]
    show Except.ok ((cel.asBool v).getD false) = _
    rw [hb]
  | none =>
    rw [hm] at hact
    rw [hact, hec]
    rfl

/-- A runtime that knows the given expressions by their text, for evaluating the model on
examples. -/
def runtime (exprs : List Expr) : CelRuntime Bool where
  eval s act :=
    match exprs.find? (fun e => e.src == s) with
    | some e =>
      match e.eval act.request with
      | some b => .value b
      | none => .error
    | none => .failure
  asBool := some

theorem runtime_evaluates {exprs : List Expr} (hnodup : (exprs.map Expr.src).Nodup) :
    Evaluates (runtime exprs) exprs := by
  intro e he act
  have hfind : exprs.find? (fun e' => e'.src == e.src) = some e := by
    cases hf : exprs.find? (fun e' => e'.src == e.src) with
    | none => exact absurd (List.find?_eq_none.mp hf e he) (by simp)
    | some e' =>
      have hsrc : e'.src = e.src := by simpa using List.find?_some hf
      rw [List.inj_on_of_nodup_map hnodup (List.mem_of_find?_eq_some hf) he hsrc]
  have heval : (runtime exprs).eval e.src act = match e.eval act.request with
      | some b => .value b
      | none => .error := by
    show (match exprs.find? (fun e' => e'.src == e.src) with
      | some e => (match e.eval act.request with
        | some b => CelOutcome.value b
        | none => .error)
      | none => .failure) = _
    rw [hfind]
  rw [heval]
  cases e.eval act.request with
  | some b => exact ⟨b, rfl, rfl⟩
  | none => rfl

end Cel

end AccessManagement
