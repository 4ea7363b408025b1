/-
  AccessManagement.Cel.Ast — THE SYNTAX TREES OF CEL, as the planner handles them
  (`celast.Expr`, `exprpb.Expr`).

  `nil` is Go's nil expression: no parsed tree has one, but a rewriter that fails can leave
  one behind.  The kinds that are no more than a list of parts (global calls, lists, maps and
  messages with their entries) are one constructor with a `Head`, so that a traversal has one
  case for all of them.  Node ids are not kept.

    * `rewrite` — replace identifiers and selections, from the root downwards;
    * `visits`  — the identifiers and selections that `rewrite` asks about, in order;
    * `innerNodes`   — the identifiers and selections inside RESULTS OF COMPREHENSIONS, which
                  `rewrite false` copies without a look.
-/
import AccessManagement.Policy.Types

namespace AccessManagement

open List

/-- `exprpb.Constant`. -/
inductive Constant where
  | null
  | bool (b : Bool)
  | int (n : Int)
  | uint (n : Nat)
  | double (d : Double)
  | string (s : String)
  | bytes (bs : List UInt8)
  deriving DecidableEq

/-- What stands before a list of parts. -/
inductive Head where
  | call (function : String)
  | list (optionalIndices : List Nat)
  | map
  /-- The parts are the key and the value. -/
  | mapEntry (optional : Bool)
  | struct (typeName : String)
  /-- The only part is the value. -/
  | structField (name : String) (optional : Bool)
  deriving DecidableEq

inductive CelExpr where
  | nil
  | literal (c : Constant)
  | ident (name : String)
  | select (operand : CelExpr) (field : String) (testOnly : Bool)
  | parts (head : Head) (es : List CelExpr)
  | memberCall (function : String) (target : CelExpr) (args : List CelExpr)
  | comprehension (iterRange : CelExpr) (iterVar iterVar2 accuVar : String)
      (accuInit loopCondition loopStep result : CelExpr)

namespace CelExpr

@[match_pattern] abbrev call (function : String) (args : List CelExpr) : CelExpr :=
  .parts (.call function) args

@[match_pattern] abbrev list (elements : List CelExpr) : CelExpr := .parts (.list []) elements

@[match_pattern] abbrev map (entries : List CelExpr) : CelExpr := .parts .map entries

@[match_pattern] abbrev mapEntry (key value : CelExpr) : CelExpr :=
  .parts (.mapEntry false) [key, value]

/-- Induction over a tree, with a hypothesis for each member of a list of subtrees. -/
@[induction_eliminator]
theorem tree_induction {P : CelExpr → Prop} (nil : P .nil) (literal : ∀ c, P (.literal c))
    (ident : ∀ x, P (.ident x)) (select : ∀ o f t, P o → P (.select o f t))
    (parts : ∀ h es, (∀ a ∈ es, P a) → P (.parts h es))
    (memberCall : ∀ fn t args, P t → (∀ a ∈ args, P a) → P (.memberCall fn t args))
    (comprehension : ∀ i v v2 u b c s r, P i → P b → P c → P s → P r →
      P (.comprehension i v v2 u b c s r)) (e : CelExpr) : P e :=
  @CelExpr.rec P (fun es => ∀ a ∈ es, P a) nil literal ident select parts memberCall
    comprehension (forall_mem_nil P) (fun _ _ h hs => forall_mem_cons.mpr ⟨h, hs⟩) e

/-! ## §1. Accessors (`Kind`, `AsIdent`, `AsSelect`): a tree of another kind gives the
empty value. -/

@[simp] def isIdent : CelExpr → Bool
  | .ident _ => true
  | _ => false

@[simp] def asIdent : CelExpr → String
  | .ident x => x
  | _ => ""

@[simp] def isSelect : CelExpr → Bool
  | .select _ _ _ => true
  | _ => false

/-- `AsSelect().Operand()`. -/
@[simp] def selectOperand : CelExpr → CelExpr
  | .select o _ _ => o
  | _ => .nil

/-- `AsSelect().FieldName()`. -/
@[simp] def selectField : CelExpr → String
  | .select _ f _ => f
  | _ => ""

/-! ## §2. Rewriting. -/

section Rewriting

variable (results : Bool) (a : CelExpr → Option CelExpr)

mutual

/-- Replace each identifier and selection for which `a` has a replacement; what is replaced
is not looked into.  `results` says whether results of comprehensions are rewritten. -/
@[simp] def rewrite : CelExpr → CelExpr
  | .nil => .nil
  | .literal c => .literal c
  | .ident x => (a (.ident x)).getD (.ident x)
  | .select o f t => (a (.select o f t)).getD (.select (rewrite o) f t)
  | .parts h es => .parts h (rewriteList es)
  | .memberCall fn t args => .memberCall fn (rewrite t) (rewriteList args)
  | .comprehension i v v2 u b c s r =>
    .comprehension (rewrite i) v v2 u (rewrite b) (rewrite c) (rewrite s)
      (if results then rewrite r else r)

def rewriteList : List CelExpr → List CelExpr
  | [] => []
  | e :: es => rewrite e :: rewriteList es

end

mutual

/-- The identifiers and selections that are asked about, in order: arguments before the
target of a call, and nothing below what `a` replaces. -/
@[simp] def visits : CelExpr → List CelExpr
  | .nil => []
  | .literal _ => []
  | .ident x => [.ident x]
  | .select o f t => .select o f t :: (if (a (.select o f t)).isSome then [] else visits o)
  | .parts _ es => visitsList es
  | .memberCall _ t args => visitsList args ++ visits t
  | .comprehension i _ _ _ b c s _ => visits i ++ visits b ++ visits c ++ visits s

def visitsList : List CelExpr → List CelExpr
  | [] => []
  | e :: es => visits e ++ visitsList es

end

end Rewriting

/-- The identifiers and selections outside the results of comprehensions. -/
abbrev outerNodes (e : CelExpr) : List CelExpr := visits (fun _ => none) e

mutual

/-- The identifiers and selections inside the results of comprehensions. -/
@[simp] def innerNodes : CelExpr → List CelExpr
  | .nil => []
  | .literal _ => []
  | .ident _ => []
  | .select o _ _ => innerNodes o
  | .parts _ es => innerNodesList es
  | .memberCall _ t args => innerNodesList args ++ innerNodes t
  | .comprehension i _ _ _ b c s r =>
    innerNodes i ++ innerNodes b ++ innerNodes c ++ innerNodes s ++ (outerNodes r ++ innerNodes r)

def innerNodesList : List CelExpr → List CelExpr
  | [] => []
  | e :: es => innerNodes e ++ innerNodesList es

end

mutual

/-- No part of the tree is missing. -/
@[simp] def complete : CelExpr → Bool
  | .nil => false
  | .literal _ => true
  | .ident _ => true
  | .select o _ _ => complete o
  | .parts _ es => completeList es
  | .memberCall _ t args => complete t && completeList args
  | .comprehension i _ _ _ b c s r =>
    complete i && complete b && complete c && complete s && complete r

def completeList : List CelExpr → Bool
  | [] => true
  | e :: es => complete e && completeList es

end

/-- All identifiers and selections of a tree. -/
@[simp] def nodes (e : CelExpr) : List CelExpr := e.outerNodes ++ e.innerNodes

section Lists

variable (results : Bool) (a : CelExpr → Option CelExpr) (es : List CelExpr)

@[simp] theorem rewriteList_eq_map : rewriteList results a es = es.map (rewrite results a) := by
  induction es with
  | nil => rfl
  | cons _ _ ih => rw [rewriteList, ih, map_cons]

@[simp] theorem visitsList_eq_flatMap : visitsList a es = es.flatMap (visits a) := by
  induction es with
  | nil => rfl
  | cons _ _ ih => rw [visitsList, ih, flatMap_cons]

@[simp] theorem innerNodesList_eq_flatMap : innerNodesList es = es.flatMap innerNodes := by
  induction es with
  | nil => rfl
  | cons _ _ ih => rw [innerNodesList, ih, flatMap_cons]

@[simp] theorem completeList_eq_all : completeList es = es.all complete := by
  induction es with
  | nil => rfl
  | cons _ _ ih => rw [completeList, ih, all_cons]

end Lists

theorem visits_subset_outerNodes (a : CelExpr → Option CelExpr) (e : CelExpr) :
    visits a e ⊆ e.outerNodes := by
  induction e with
  | select o f t ih =>
    intro n hn
    simp only [visits, mem_cons] at hn ⊢
    refine hn.imp_right (fun hn => ?_)
    split at hn
    · cases hn
    · exact ih hn
  | _ => simp at * <;> grind

end CelExpr

end AccessManagement
