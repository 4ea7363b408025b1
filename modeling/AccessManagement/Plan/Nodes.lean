/-
  AccessManagement.Plan.Nodes — THE PLANNER'S NODES AND THE CONDITIONS IT TURNS INTO NODES.

  A plan node is an expression or a logical operation over nodes.  Expressions that are not
  Boolean constants are left abstract (`E`), with the predicate of the resource they stand
  for as a parameter.

    * `mkOrNode`, `mkAndNode` drop nodes whose hash has been seen, `invert` strips a NOT:
      they denote or, and, not as soon as the same hash means the same predicate (`algebra`);
    * `evaluateCondition` folds constants while it walks a condition tree: the node denotes
      the condition, if the residual of each expression denotes the expression
      (`denote_evaluateCondition`).
-/
import AccessManagement.Lib.NodeAlgebra
import AccessManagement.Policy.Conjunction

namespace AccessManagement

open Lib List

inductive Operator where
  | and
  | or
  | not
deriving DecidableEq, Repr

/-- A node of the plan (`PlanResourcesAst_Node`). -/
inductive QpN (E : Type) where
  | constant (b : Bool)
  | expression (e : E)
  | operation (op : Operator) (nodes : List (QpN E))

namespace QpN

variable {E R : Type}

/-! ## §1. Denotation. -/

section Denote

variable (meaning : E → R → Bool) (r : R)

mutual

/-- What a node says of the resource `r`. -/
def denote : QpN E → Bool
  | .constant b => b
  | .expression e => meaning e r
  | .operation .and nodes => denoteAll nodes
  | .operation .or nodes => denoteAny nodes
  -- a NOT of several nodes is the NOT of their conjunction
  | .operation .not nodes => !denoteAll nodes

def denoteAll : List (QpN E) → Bool
  | [] => true
  | n :: ns => denote n && denoteAll ns

def denoteAny : List (QpN E) → Bool
  | [] => false
  | n :: ns => denote n || denoteAny ns

end

theorem denoteAll_eq_all (ns : List (QpN E)) :
    denoteAll meaning r ns = ns.all (denote meaning r) := by
  induction ns with
  | nil => rfl
  | cons _ _ ih => rw [denoteAll, ih, all_cons]

theorem denoteAny_eq_any (ns : List (QpN E)) :
    denoteAny meaning r ns = ns.any (denote meaning r) := by
  induction ns with
  | nil => rfl
  | cons _ _ ih => rw [denoteAny, ih, any_cons]

end Denote

/-! ## §2. Building nodes. -/

/-- `IsNodeConstBool`: only a constant expression counts, not an operation over constants. -/
def isConstBool : QpN E → Option Bool
  | .constant b => some b
  | _ => none

/-- `dedupNodes`: of the nodes with one hash the first one stays.  `same` tells whether two
nodes have the same hash. -/
def dedupNodes (same : QpN E → QpN E → Bool) : (seen : List (QpN E)) → List (QpN E) → List (QpN E)
  | _, [] => []
  | seen, n :: ns =>
    if seen.any (same n) then dedupNodes same seen ns
    else n :: dedupNodes same (n :: seen) ns

/-- The node over the remaining nodes, with the operation only if it is needed. -/
def combine (op : Operator) : List (QpN E) → Option (QpN E)
  | [] => none
  | [n] => some n
  | ns => some (.operation op ns)

def mkOrNode (same : QpN E → QpN E → Bool) (nodes : List (QpN E)) : Option (QpN E) :=
  combine .or (dedupNodes same [] nodes)

def mkAndNode (same : QpN E → QpN E → Bool) (nodes : List (QpN E)) : Option (QpN E) :=
  combine .and (dedupNodes same [] nodes)

/-- `InvertNodeBooleanValue`: the NOT of a NOT is stripped. -/
def invert : QpN E → QpN E
  | .operation .not [n] => n
  | .operation .not ns => .operation .and ns
  | n => .operation .not [n]

/-! ## §3. They denote or, and, not. -/

section Algebra

variable {meaning : E → R → Bool} {same : QpN E → QpN E → Bool}

/-- Dropping a node that denotes the same as one that was seen loses no value. -/
theorem mem_denote_dedupNodes (hsame : ∀ m n : QpN E, same m n = true →
      ∀ r, denote meaning r m = denote meaning r n) (r : R) (b : Bool) (ns : List (QpN E))
    (seen : List (QpN E)) :
    ((∃ n ∈ seen, denote meaning r n = b) ∨ ∃ n ∈ dedupNodes same seen ns, denote meaning r n = b) ↔
    ((∃ n ∈ seen, denote meaning r n = b) ∨ ∃ n ∈ ns, denote meaning r n = b) := by
  induction ns generalizing seen with
  | nil => rfl
  | cons n _ ih =>
    unfold dedupNodes
    split
    · rename_i hseen
      obtain ⟨m, hm, hmn⟩ := any_eq_true.mp hseen
      -- the dropped node is represented among those seen
      have hn : denote meaning r n = b → ∃ n ∈ seen, denote meaning r n = b :=
        fun h => ⟨m, hm, (hsame n m hmn r).symm.trans h⟩
      rw [ih seen]
      simp only [mem_cons, exists_eq_or_imp]
      rw [← or_assoc, or_iff_left_of_imp hn]
    · have h := ih (n :: seen)
      simp only [mem_cons, exists_eq_or_imp] at h ⊢
      simpa only [or_assoc, or_left_comm] using h

theorem dedupNodes_ne_nil (same : QpN E → QpN E → Bool) (n : QpN E) (ns : List (QpN E)) :
    dedupNodes same [] (n :: ns) ≠ [] := by
  exact cons_ne_nil _ _

variable (hsame : ∀ m n : QpN E, same m n = true → ∀ r, denote meaning r m = denote meaning r n)
  (r : R) (ns : List (QpN E))

include hsame

theorem any_dedupNodes :
    (dedupNodes same [] ns).any (denote meaning r) = ns.any (denote meaning r) := by
  rw [Bool.eq_iff_iff]
  simpa using mem_denote_dedupNodes hsame r true ns []

theorem all_dedupNodes :
    (dedupNodes same [] ns).all (denote meaning r) = ns.all (denote meaning r) := by
  rw [← Bool.not_inj_iff, Bool.eq_iff_iff]
  simpa using mem_denote_dedupNodes hsame r false ns []

omit hsame

theorem combine_or_spec (meaning : E → R → Bool) {ns : List (QpN E)} (h : ns ≠ []) :
    ∃ m, combine .or ns = some m ∧ ∀ r, denote meaning r m = ns.any (denote meaning r) := by
  match ns with
  | [] => exact absurd rfl h
  | [n] => exact ⟨n, rfl, fun r => by simp⟩
  | n :: n' :: ns => exact ⟨_, rfl, fun r => by rw [denote, denoteAny_eq_any]⟩

theorem combine_and_spec (meaning : E → R → Bool) {ns : List (QpN E)} (h : ns ≠ []) :
    ∃ m, combine .and ns = some m ∧ ∀ r, denote meaning r m = ns.all (denote meaning r) := by
  match ns with
  | [] => exact absurd rfl h
  | [n] => exact ⟨n, rfl, fun r => by simp⟩
  | n :: n' :: ns => exact ⟨_, rfl, fun r => by rw [denote, denoteAll_eq_all]⟩

theorem denote_invert (n : QpN E) (r : R) : denote meaning r (invert n) = !denote meaning r n := by
  unfold invert
  split
  · simp [denote, denoteAll]
  · simp [denote]
  · simp [denote, denoteAll]

end Algebra

/-- The planner's nodes as an algebra, if nodes with the same hash denote the same. -/
def algebra (meaning : E → R → Bool) (same : QpN E → QpN E → Bool)
    (hsame : ∀ m n : QpN E, same m n = true →
      ∀ r, denote meaning r m = denote meaning r n) : NodeAlgebra (QpN E) R where
  denote n r := denote meaning r n
  isConstBool := isConstBool
  constant := .constant
  orOperation := .operation .or
  andOperation := .operation .and
  mkOrNode := mkOrNode same
  mkAndNode := mkAndNode same
  invert := invert
  denote_of_isConstBool := by
    intro n b h r
    cases n with
    | constant c => exact Option.some.inj h
    | expression e => exact nomatch h
    | operation op ns => exact nomatch h
  denote_constant := fun _ _ => rfl
  denote_orOperation := fun ns r => denoteAny_eq_any meaning r ns
  denote_andOperation := fun ns r => denoteAll_eq_all meaning r ns
  mkOrNode_spec := by
    intro n ns
    obtain ⟨m, hm, hd⟩ := combine_or_spec meaning (dedupNodes_ne_nil same n ns)
    exact ⟨m, hm, fun r => (hd r).trans (any_dedupNodes hsame r (n :: ns))⟩
  mkAndNode_spec := by
    intro n ns
    obtain ⟨m, hm, hd⟩ := combine_and_spec meaning (dedupNodes_ne_nil same n ns)
    exact ⟨m, hm, fun r => (hd r).trans (all_dedupNodes hsame r (n :: ns))⟩
  denote_invert := fun n r => denote_invert n r

/-- Two nodes, if nodes with the same hash are equal: one of them, or the operation. -/
theorem combine_dedupNodes_pair {same : QpN E → QpN E → Bool}
    (hiff : ∀ m n : QpN E, same m n = true ↔ m = n) {op : Operator} {a b m : QpN E}
    (h : combine op (dedupNodes same [] [a, b]) = some m) :
    (a = b ∧ m = a) ∨ (a ≠ b ∧ m = .operation op [a, b]) := by
  by_cases hab : a = b
  · have hdedup : dedupNodes same [] [a, b] = [a] := by
      simp [dedupNodes, hab, (hiff b b).mpr rfl]
    rw [hdedup] at h
    exact Or.inl ⟨hab, (Option.some.inj h).symm⟩
  · have hdedup : dedupNodes same [] [a, b] = [a, b] := by
      have hne : same b a ≠ true := fun hs => hab ((hiff b a).mp hs).symm
      simp [dedupNodes, hne]
    rw [hdedup] at h
    exact Or.inr ⟨hab, (Option.some.inj h).symm⟩

theorem isConstBool_eq_some {n : QpN E} {v : Bool} : isConstBool n = some v ↔ n = .constant v := by
  cases n <;> simp [isConstBool]

/-- **Constants are recognised by their shape**, if nodes with the same hash are equal. -/
theorem algebra_literal {meaning : E → R → Bool} {same : QpN E → QpN E → Bool}
    {hsame : ∀ m n : QpN E, same m n = true → ∀ r, denote meaning r m = denote meaning r n}
    (hiff : ∀ m n : QpN E, same m n = true ↔ m = n) : (algebra meaning same hsame).Literal := by
  have hpair : ∀ {op : Operator} {a b m : QpN E} {v : Bool},
      combine op (dedupNodes same [] [a, b]) = some m →
      (isConstBool m = some v ↔ isConstBool a = some v ∧ isConstBool b = some v) := by
    intro op a b m v h
    obtain ⟨rfl, rfl⟩ | ⟨hne, rfl⟩ := combine_dedupNodes_pair hiff h
    · simp
    · -- two different nodes are not the same constant
      simp only [isConstBool_eq_some, reduceCtorEq, false_iff, not_and]
      exact fun ha hb => hne (ha.trans hb.symm)
  refine ⟨hpair, hpair, fun {a b m} h ha _ => ?_⟩
  obtain ⟨rfl, rfl⟩ | ⟨hne, rfl⟩ := combine_dedupNodes_pair hiff h
  · exact ha
  · rfl

/-! ## §4. Conditions become nodes. -/

/-- The nodes a tree operator is left with: constants of the neutral value are dropped, and
the first constant `stop` settles the operator (`none`). -/
def residualNodes (stop : Bool) : List (QpN E) → Option (List (QpN E))
  | [] => some []
  | n :: ns =>
    match isConstBool n with
    | some b => if b = stop then none else residualNodes stop ns
    | none => (residualNodes stop ns).map (n :: ·)

/-- The operator over the nodes that are left. -/
def operationOf (op : Operator) (neutral : Bool) (nodes : List (QpN E)) : QpN E :=
  (combine op nodes).getD (.constant neutral)

mutual

/-- `EvaluateCondition` on a condition; `residual` is the partial evaluation of an expression.
The expressions of a tree are evaluated one after the other without effect, so the nodes can
be computed before the fold. -/
def evaluateCondition (residual : Expr → QpN E) : Condition → QpN E
  | .expr e => residual e
  | .any cs =>
    match residualNodes true (evaluateConditions residual cs) with
    | none => .constant true
    | some nodes => operationOf .or false nodes
  | .all cs =>
    match residualNodes false (evaluateConditions residual cs) with
    | none => .constant false
    | some nodes => operationOf .and true nodes
  | .none cs =>
    match residualNodes true (evaluateConditions residual cs) with
    | none => .constant false
    | some nodes => operationOf .and true (nodes.map invert)

def evaluateConditions (residual : Expr → QpN E) : List Condition → List (QpN E)
  | [] => []
  | c :: cs => evaluateCondition residual c :: evaluateConditions residual cs

end

variable {R : Type} {meaning : E → R → Bool}

/-- What is left has the value `stop` among its nodes exactly if it was there before, and if
nothing is left it was. -/
theorem residualNodes_spec (meaning : E → R → Bool) (stop : Bool) (r : R) (ns : List (QpN E)) :
    match residualNodes stop ns with
    | none => ∃ n ∈ ns, denote meaning r n = stop
    | some ns' => (∃ n ∈ ns', denote meaning r n = stop) ↔ ∃ n ∈ ns, denote meaning r n = stop := by
  induction ns with
  | nil => exact Iff.rfl
  | cons n ns ih =>
    unfold residualNodes
    cases n with
    | constant b =>
      by_cases hb : b = stop
      · simp [isConstBool, hb, denote]
      · -- a neutral constant denotes the other value
        simpa [isConstBool, hb, denote] using ih
    | expression | operation =>
      cases hr : residualNodes stop ns with
      | none =>
        rw [hr] at ih
        obtain ⟨m, hm, hd⟩ := ih
        exact ⟨m, mem_cons_of_mem _ hm, hd⟩
      | some =>
        rw [hr] at ih
        simpa [isConstBool] using or_congr_right ih

theorem denote_operationOf_or (r : R) (ns : List (QpN E)) :
    denote meaning r (operationOf .or false ns) = ns.any (denote meaning r) := by
  cases ns with
  | nil => rfl
  | cons n ns =>
    obtain ⟨m, hm, hd⟩ := combine_or_spec meaning (cons_ne_nil n ns)
    unfold operationOf
    rw [hm]
    exact hd r

theorem denote_operationOf_and (r : R) (ns : List (QpN E)) :
    denote meaning r (operationOf .and true ns) = ns.all (denote meaning r) := by
  cases ns with
  | nil => rfl
  | cons n ns =>
    obtain ⟨m, hm, hd⟩ := combine_and_spec meaning (cons_ne_nil n ns)
    unfold operationOf
    rw [hm]
    exact hd r

/-- The three operators, given what their operands denote. -/
theorem denote_any_all_none (residual : Expr → QpN E) (r : R) (cs : List Condition) :
    let nodes := evaluateConditions residual cs
    denote meaning r (evaluateCondition residual (.any cs)) = nodes.any (denote meaning r) ∧
    denote meaning r (evaluateCondition residual (.all cs)) = nodes.all (denote meaning r) ∧
    denote meaning r (evaluateCondition residual (.none cs)) = !nodes.any (denote meaning r) := by
  intro nodes
  have htrue := residualNodes_spec meaning true r nodes
  have hfalse := residualNodes_spec meaning false r nodes
  have hinv : ∀ ns : List (QpN E),
      (ns.map invert).all (denote meaning r) = !ns.any (denote meaning r) := by
    simp [not_any_eq_all_not, Function.comp_def, denote_invert]
  refine ⟨?_, ?_, ?_⟩
  · rw [evaluateCondition, Bool.eq_iff_iff]
    cases hr : residualNodes true nodes <;> rw [hr] at htrue
    · simpa [denote] using htrue
    · simpa [denote_operationOf_or] using htrue
  · rw [evaluateCondition, ← Bool.not_inj_iff, Bool.eq_iff_iff]
    cases hr : residualNodes false nodes <;> rw [hr] at hfalse
    · simpa [denote] using hfalse
    · simpa [denote_operationOf_and] using hfalse
  · rw [evaluateCondition, ← Bool.not_inj_iff, Bool.eq_iff_iff]
    cases hr : residualNodes true nodes <;> rw [hr] at htrue
    · simpa [denote] using htrue
    · simpa [denote_operationOf_and, hinv] using htrue

section Evaluate

variable {residual : Expr → QpN E} {truth : Expr → Bool} {r : R}

mutual

/-- **`EvaluateCondition` returns a node that denotes the condition**, if partial evaluation
keeps the meaning of expressions. -/
theorem denote_evaluateCondition : ∀ c : Condition,
    (∀ e ∈ c.leaves, denote meaning r (residual e) = truth e) →
    denote meaning r (evaluateCondition residual c) = c.holds truth
  | .expr e, h => by rw [evaluateCondition, Condition.holds]; exact h e (by simp [Condition.leaves])
  | .any cs, h => by
    rw [(denote_any_all_none residual r cs).1, Condition.holds]
    exact (denote_evaluateConditions cs (by rwa [Condition.leaves] at h)).2
  | .all cs, h => by
    rw [(denote_any_all_none residual r cs).2.1, Condition.holds]
    exact (denote_evaluateConditions cs (by rwa [Condition.leaves] at h)).1
  | .none cs, h => by
    rw [(denote_any_all_none residual r cs).2.2, Condition.holds,
      (denote_evaluateConditions cs (by rwa [Condition.leaves] at h)).2, Bool.not_not]

theorem denote_evaluateConditions : ∀ cs : List Condition,
    (∀ e ∈ Condition.listLeaves cs, denote meaning r (residual e) = truth e) →
    (evaluateConditions residual cs).all (denote meaning r) = Condition.holdAll truth cs ∧
    (evaluateConditions residual cs).any (denote meaning r) = !Condition.holdNot truth cs
  | [], _ => by rw [evaluateConditions, Condition.holdAll, Condition.holdNot]; exact ⟨rfl, rfl⟩
  | c :: cs, h => by
    rw [Condition.listLeaves, List.forall_mem_append] at h
    obtain ⟨hall, hany⟩ := denote_evaluateConditions cs h.2
    rw [evaluateConditions, Condition.holdAll, Condition.holdNot, List.all_cons, List.any_cons,
      denote_evaluateCondition c h.1, hall, hany]
    exact ⟨rfl, by simp⟩

end

end Evaluate

/-! ## §5. Conditions are folded. -/

section Folded

mutual

/-- No constants are left in a node. -/
def constantFree : QpN E → Bool
  | .constant _ => false
  | .expression _ => true
  | .operation _ ns => constantFreeAll ns

def constantFreeAll : List (QpN E) → Bool
  | [] => true
  | n :: ns => constantFree n && constantFreeAll ns

end

theorem constantFreeAll_eq_all (ns : List (QpN E)) :
    constantFreeAll ns = ns.all constantFree := by
  induction ns with
  | nil => rfl
  | cons n ns ih => rw [constantFreeAll, ih, all_cons]

/-- A node is a constant, or has none in it. -/
def IsFolded (n : QpN E) : Prop := (∃ b, n = .constant b) ∨ constantFree n = true

theorem constantFree_invert {n : QpN E} (h : constantFree n = true) :
    constantFree (invert n) = true := by
  unfold invert
  split
  · simpa [constantFree, constantFreeAll] using h
  · simpa [constantFree] using h
  · simpa [constantFree, constantFreeAll] using h

theorem isConstBool_of_constantFree {n : QpN E} (h : constantFree n = true) :
    isConstBool n = none := by
  cases n with
  | constant b => exact nomatch h
  | expression e => rfl
  | operation op ns => rfl

/-- Negating a folded node does not give a constant. -/
theorem IsFolded.isConstBool_invert {n : QpN E} (h : IsFolded n) : isConstBool (invert n) = none := by
  rcases h with ⟨b, rfl⟩ | h
  · rfl
  · exact isConstBool_of_constantFree (constantFree_invert h)

theorem isFolded_operationOf {op : Operator} {neutral : Bool} {ns : List (QpN E)}
    (h : ns.all constantFree = true) : IsFolded (operationOf op neutral ns) := by
  match ns with
  | [] => exact Or.inl ⟨neutral, rfl⟩
  | [n] =>
    rw [all_cons, Bool.and_eq_true] at h
    exact Or.inr h.1
  | n :: n' :: ns => exact Or.inr ((constantFreeAll_eq_all _).trans h)

/-- What is left of folded operands has no constants. -/
theorem constantFree_residualNodes {stop : Bool} {ns ns' : List (QpN E)}
    (hns : ∀ n ∈ ns, IsFolded n) (h : residualNodes stop ns = some ns') :
    ns'.all constantFree = true := by
  induction ns generalizing ns' with
  | nil => cases h; rfl
  | cons n ns ih =>
    rw [forall_mem_cons] at hns
    unfold residualNodes at h
    rcases hns.1 with ⟨b, rfl⟩ | hfree
    · by_cases hb : b = stop
      · simp [isConstBool, hb] at h
      · exact ih hns.2 (by simpa [isConstBool, hb] using h)
    · rw [isConstBool_of_constantFree hfree] at h
      obtain ⟨rest, hrest, rfl⟩ := Option.map_eq_some_iff.mp h
      rw [all_cons, hfree, ih hns.2 hrest]
      rfl

variable {residual : Expr → QpN E}

mutual

/-- **`EvaluateCondition` leaves no constants inside a node**, if partial evaluation does not. -/
theorem isFolded_evaluateCondition (hresidual : ∀ e, IsFolded (residual e)) :
    ∀ c : Condition, IsFolded (evaluateCondition residual c)
  | .expr e => by rw [evaluateCondition]; exact hresidual e
  | .any cs => by
    rw [evaluateCondition]
    cases h : residualNodes true (evaluateConditions residual cs) with
    | none => exact Or.inl ⟨true, rfl⟩
    | some ns =>
      exact isFolded_operationOf
        (constantFree_residualNodes (isFolded_evaluateConditions hresidual cs) h)
  | .all cs => by
    rw [evaluateCondition]
    cases h : residualNodes false (evaluateConditions residual cs) with
    | none => exact Or.inl ⟨false, rfl⟩
    | some ns =>
      exact isFolded_operationOf
        (constantFree_residualNodes (isFolded_evaluateConditions hresidual cs) h)
  | .none cs => by
    rw [evaluateCondition]
    cases h : residualNodes true (evaluateConditions residual cs) with
    | none => exact Or.inl ⟨false, rfl⟩
    | some ns =>
      have hfree := constantFree_residualNodes (isFolded_evaluateConditions hresidual cs) h
      refine isFolded_operationOf (all_eq_true.mpr (fun n hn => ?_))
      obtain ⟨m, hm, rfl⟩ := mem_map.mp hn
      exact constantFree_invert (all_eq_true.mp hfree m hm)

theorem isFolded_evaluateConditions (hresidual : ∀ e, IsFolded (residual e)) :
    ∀ cs : List Condition, ∀ n ∈ evaluateConditions residual cs, IsFolded n
  | [], n, hn => by rw [evaluateConditions] at hn; exact absurd hn not_mem_nil
  | c :: cs, n, hn => by
    rw [evaluateConditions, mem_cons] at hn
    rcases hn with rfl | hn
    · exact isFolded_evaluateCondition hresidual c
    · exact isFolded_evaluateConditions hresidual cs n hn

end

end Folded

end QpN

end AccessManagement
