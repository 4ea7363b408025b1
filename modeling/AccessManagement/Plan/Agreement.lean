/-
  AccessManagement.Plan.Agreement — CHECK AND PLAN READ A CONDITION THE SAME WAY.

  A check evaluates a condition tree on a concrete resource, with short cuts and error paths;
  the planner turns the same tree into a node.  If the two agree on single expressions they
  agree on trees, and then the outcomes a check sees are what the planner's nodes denote:
  the condition an expression model has to meet is only about expressions
  (`ExpressionModel.oracle`).
-/
import AccessManagement.Check.Oracle
import AccessManagement.Plan.Promise

namespace AccessManagement

open Lib List

/-! ## §1. Condition trees. -/

/-- The node of a condition; no condition is TRUE. -/
def QpN.conditionNode {E : Type} (residual : Expr → QpN E) : Option Condition → QpN E
  | none => .constant true
  | some c => QpN.evaluateCondition residual c

/-- **Plan and check agree on condition trees.**  If at every resource the residual of each
leaf has the value that a check on the full request finds for the leaf, then at every resource
the node of the tree is true exactly if the check finds the tree satisfied. -/
theorem conditionNode_iff_satisfiesCondition {E R V : Type} (meaning : E → R → Bool)
    (residual : Expr → QpN E) (cel : CelRuntime V) (request : R → EvalContext)
    (constants : List (String × Value)) (vars : R → Vars V) (cond : Option Condition)
    (hleaf : ∀ e ∈ optLeaves cond, ∀ r, (request r).evaluateBoolCELExpr cel e constants (vars r) =
      .ok (QpN.denote meaning r (residual e))) (r : R) :
    QpN.denote meaning r (QpN.conditionNode residual cond) = true ↔
      (request r).satisfiesCondition cel cond constants (vars r) = .ok true := by
  cases cond with
  | none => simp [QpN.conditionNode, QpN.denote, EvalContext.satisfiesCondition]
  | some c =>
    show QpN.denote meaning r (QpN.evaluateCondition residual c) = true ↔
      (request r).satisfies cel constants (vars r) c = .ok true
    rw [QpN.denote_evaluateCondition c (fun e _ => rfl), EvalContext.satisfies_eq_holds c
      (fun e he => hleaf e he r), Except.ok.injEq]

/-! ## §2. Expressions as predicates of the resource. -/

/-- What a plan leaves open of the resource. -/
structure ResourceData where
  id : String
  attr : List (String × Value)

/-- The check that a plan request stands for, on a concrete resource. -/
def CheckInput.forResource (input : CheckInput) (r : ResourceData) : CheckInput :=
  { input with resource := { input.resource with id := r.id, attr := r.attr } }

/-- Expressions, their truth on a resource and their partial evaluation. -/
structure ExpressionModel {E : Type} (meaning : E → ResourceData → Bool) where
  truth : Expr → Option RowParams → ResourceData → Bool
  residual : Kind → String → Expr → Option RowParams → QpN E
  denote_residual : ∀ kind scope e params r,
    QpN.denote meaning r (residual kind scope e params) = truth e params r

namespace ExpressionModel

variable {E V : Type} {meaning : E → ResourceData → Bool} (model : ExpressionModel meaning)
  (same : QpN E → QpN E → Bool)
  (hsame : ∀ m n, same m n = true → ∀ r, QpN.denote meaning r m = QpN.denote meaning r n)

/-- The planner's conditions over the expressions. -/
def conditions : PlanConditions (QpN.algebra meaning same hsame) where
  meaning c params r := c.holds (fun e => model.truth e params r)
  evaluateCondition kind scope c params :=
    QpN.evaluateCondition (fun e => model.residual kind scope e params) c
  denote_evaluateCondition := fun kind scope c params r =>
    QpN.denote_evaluateCondition c (fun e _ => model.denote_residual kind scope e params r)

/-- The conditions of rules are folded, if partial evaluation leaves no constants in an
expression. -/
theorem folded (hresidual : ∀ kind scope e params,
      QpN.IsFolded (model.residual kind scope e params)) :
    (model.conditions same hsame).Folded := by
  intro kind scope b
  have hcond : ∀ (c : Condition) params,
      QpN.IsFolded ((model.conditions same hsame).evaluateCondition kind scope c params) :=
    fun c params => QpN.isFolded_evaluateCondition (fun e => hresidual kind scope e params) c
  unfold PlanConditions.bindingNode
  cases b.core.derivedRoleCondition with
  | none =>
    unfold PlanConditions.conditionNode
    cases b.core.condition with
    | none => rfl
    | some c => exact (hcond c b.core.params).isConstBool_invert
  | some dc =>
    cases b.core.condition with
    | none => exact (hcond dc b.core.derivedRoleParams).isConstBool_invert
    | some c => rfl

/-- A check on `r` evaluates every expression to its truth on `r`. -/
def EvaluatedBy (env : CheckEnv V) (input : CheckInput) (r : ResourceData) : Prop :=
  env.cel.NoFailure ∧ ∀ (ec : EvalContext) e params vars,
    ec.request = checkInputToRequest (input.forResource r) → ec.strictEvaluation = false →
    ec.evaluateBoolCELExpr env.cel e (paramConstants params) vars = .ok (model.truth e params r)

/-- **The outcomes of a check are what the planner's nodes denote.** -/
theorem oracle {env : CheckEnv V} {input : CheckInput} {r : ResourceData}
    (h : model.EvaluatedBy env input r) :
    env.Oracle (input.forResource r) ((model.conditions same hsame).sat r) where
  noFailure := h.1
  outcomes := by
    intro b _ ec hec vars drVars _ _
    have hcond : ∀ (c : Condition) params vars,
        ec.satisfies env.cel (paramConstants params) vars c =
          .ok ((model.conditions same hsame).meaning c params r) :=
      fun c params vars => EvalContext.satisfies_eq_holds c
        (fun e _ => h.2 ec e params vars hec.request hec.lenient)
    have hrule : ec.satisfiesCondition env.cel b.core.condition (paramConstants b.core.params)
        vars = .ok (b.core.condition.elim true
          ((model.conditions same hsame).meaning · b.core.params r)) := by
      cases b.core.condition with
      | none => rfl
      | some c => exact hcond c b.core.params vars
    unfold bindingOutcome PlanConditions.sat
    rw [hrule]
    cases b.core.derivedRoleCondition with
    | none => rfl
    | some dc =>
      -- the rule's own condition is only looked at if that of the derived role holds
      dsimp only
      rw [hcond dc b.core.derivedRoleParams drVars, Option.elim_some]
      cases (model.conditions same hsame).meaning dc b.core.derivedRoleParams r <;> rfl

end ExpressionModel

/-! ## §3. A concrete model: expressions are Boolean attributes of the resource. -/

namespace QpN

mutual

/-- Two nodes are equal. -/
@[simp] def equal {E : Type} [DecidableEq E] : QpN E → QpN E → Bool
  | .constant b, .constant b' => b == b'
  | .expression e, .expression e' => e == e'
  | .operation op ns, .operation op' ns' => op == op' && equalAll ns ns'
  | _, _ => false

def equalAll {E : Type} [DecidableEq E] : List (QpN E) → List (QpN E) → Bool
  | [], [] => true
  | n :: ns, n' :: ns' => equal n n' && equalAll ns ns'
  | _, _ => false

end

variable {E : Type} [DecidableEq E]

mutual

theorem eq_of_equal : ∀ m n : QpN E, equal m n = true → m = n
  | .constant b, .constant b', h => by rw [equal, beq_iff_eq] at h; rw [h]
  | .expression e, .expression e', h => by rw [equal, beq_iff_eq] at h; rw [h]
  | .operation op ns, .operation op' ns', h => by
    rw [equal, Bool.and_eq_true, beq_iff_eq] at h
    rw [h.1, eq_of_equalAll ns ns' h.2]
  | .constant _, .expression _, h => by simp at h
  | .constant _, .operation _ _, h => by simp at h
  | .expression _, .constant _, h => by simp at h
  | .expression _, .operation _ _, h => by simp at h
  | .operation _ _, .constant _, h => by simp at h
  | .operation _ _, .expression _, h => by simp at h

theorem eq_of_equalAll : ∀ ms ns : List (QpN E), equalAll ms ns = true → ms = ns
  | [], [], _ => rfl
  | m :: ms, n :: ns, h => by
    rw [equalAll, Bool.and_eq_true] at h
    rw [eq_of_equal m n h.1, eq_of_equalAll ms ns h.2]
  | [], _ :: _, h => by simp [equalAll] at h
  | _ :: _, [], h => by simp [equalAll] at h

end

mutual

theorem equal_self : ∀ n : QpN E, equal n n = true
  | .constant b => by simp
  | .expression e => by simp
  | .operation op ns => by rw [equal, equalAll_self ns]; simp

theorem equalAll_self : ∀ ns : List (QpN E), equalAll ns ns = true
  | [] => rfl
  | n :: ns => by rw [equalAll, equal_self n, equalAll_self ns]; rfl

end

theorem equal_iff (m n : QpN E) : equal m n = true ↔ m = n :=
  ⟨eq_of_equal m n, fun h => h ▸ equal_self m⟩

end QpN

/-- A Boolean attribute; anything else is not set. -/
def flagged (attr : List (String × Value)) (flag : String) : Bool :=
  match attr.lookup flag with
  | some (.bool b) => b
  | _ => false

/-- Expressions name attributes, and nothing is known about them when planning. -/
def flagModel : ExpressionModel (fun (flag : String) r => flagged r.attr flag) where
  truth e _ r := flagged r.attr e.original
  residual _ _ e _ := .expression e.original
  denote_residual := by
    intro kind scope e params r
    rw [QpN.denote]

def flagAlgebra : NodeAlgebra (QpN String) ResourceData :=
  QpN.algebra (fun flag r => flagged r.attr flag) QpN.equal
    (fun m n h r => by rw [QpN.eq_of_equal m n h])

def flagConditions : PlanConditions flagAlgebra :=
  flagModel.conditions QpN.equal (fun m n h r => by rw [QpN.eq_of_equal m n h])

theorem flagAlgebra_literal : flagAlgebra.Literal :=
  QpN.algebra_literal QpN.equal_iff

theorem flagConditions_folded : flagConditions.Folded :=
  flagModel.folded _ _ (fun _ _ _ _ => Or.inr rfl)

variable (table : LoadedTable Externals.sample)

def flagEnv : CheckEnv Bool :=
  CheckEnv.sample table (fun e act => flagged act.request.resource.attr e)

theorem flagEnv_oracle (input : CheckInput)
    (r : ResourceData) : (flagEnv table).Oracle (input.forResource r) (flagConditions.sat r) := by
  apply ExpressionModel.oracle
  refine ⟨(fun e act h => nomatch h), fun ec e params vars hreq _ => ?_⟩
  show Except.ok (flagged ec.request.resource.attr e.original) = _
  rw [hreq]
  rfl

/-- The condition that a document is open, or neither locked nor hidden. -/
def openCondition : Condition :=
  .any [.expr ⟨"open", none⟩, .none [.expr ⟨"locked", none⟩, .expr ⟨"hidden", none⟩]]

/-- A check of one document with the given attributes. -/
def flagContext (r : ResourceData) : EvalContext where
  request := checkInputToRequest (CheckEnv.documentInput.forResource r)
  effectiveDerivedRoles := ∅
  errDerivedRoles := ∅
  strictEvaluation := false

theorem conditionNode_iff_open : (flagContext ⟨"d1", []⟩).strictEvaluation = false ∧
    ∀ r, QpN.denote (fun flag r => flagged r.attr flag) r
        (QpN.conditionNode (fun e => .expression e.original) (some openCondition)) = true ↔
      (flagContext r).satisfiesCondition (CelRuntime.mk (fun flag (act : Activation Bool) =>
        .value (flagged act.request.resource.attr flag)) some) (some openCondition) [] [] =
        .ok true :=
  ⟨rfl, conditionNode_iff_satisfiesCondition _ _ _ flagContext [] (fun _ => []) _
    (fun _ _ _ => by rw [QpN.denote]; rfl)⟩

end AccessManagement
