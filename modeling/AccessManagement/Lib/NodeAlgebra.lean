/-
  AccessManagement.Lib.NodeAlgebra — SYNTAX NODES THAT DENOTE PREDICATES.

  A planner builds the predicate it returns out of syntax nodes: it combines them by OR, AND
  and NOT, asks whether a node is a Boolean constant, and keeps a "not there yet" next to the
  nodes.  What matters for correctness is only what the nodes denote, so an algebra is the
  constructors together with the laws of their denotations.  Simplification is allowed: the
  laws say nothing about the shape of a result, except that combining nodes gives a node.

  An absent node denotes FALSE (`value`), which makes it the unit of OR.

  Which constants are recognised is a matter of shape.  In a `Literal` algebra a combination is
  recognised exactly if its parts are one and the same constant.
-/
import Mathlib.Data.List.Basic

namespace AccessManagement.Lib

/-- Nodes of type `N` that denote predicates on `R`. -/
structure NodeAlgebra (N R : Type) where
  denote : N → R → Bool
  /-- The constant a node is recognised as. -/
  isConstBool : N → Option Bool
  constant : Bool → N
  orOperation : List N → N
  andOperation : List N → N
  /-- Simplifying combinations: no node for an empty list. -/
  mkOrNode : List N → Option N
  mkAndNode : List N → Option N
  invert : N → N
  denote_of_isConstBool : ∀ {n b}, isConstBool n = some b → ∀ r, denote n r = b
  denote_constant : ∀ b r, denote (constant b) r = b
  denote_orOperation : ∀ ns r, denote (orOperation ns) r = ns.any (denote · r)
  denote_andOperation : ∀ ns r, denote (andOperation ns) r = ns.all (denote · r)
  mkOrNode_spec : ∀ n ns, ∃ m, mkOrNode (n :: ns) = some m ∧
    ∀ r, denote m r = (n :: ns).any (denote · r)
  mkAndNode_spec : ∀ n ns, ∃ m, mkAndNode (n :: ns) = some m ∧
    ∀ r, denote m r = (n :: ns).all (denote · r)
  denote_invert : ∀ n r, denote (invert n) r = !denote n r

namespace NodeAlgebra

variable {N R : Type} (A : NodeAlgebra N R) {o : Option N}

/-- What an optional node denotes: an absent one is false. -/
def value (o : Option N) (r : R) : Bool := o.elim false (A.denote · r)

@[simp] theorem value_none (r : R) : A.value none r = false := rfl

@[simp] theorem value_some (n : N) (r : R) : A.value (some n) r = A.denote n r := rfl

/-- Is there a node, and is it the constant TRUE? -/
def isConstTrue (o : Option N) : Bool := decide (o.bind A.isConstBool = some true)

theorem exists_of_isConstTrue (h : A.isConstTrue o = true) :
    ∃ n, o = some n ∧ A.isConstBool n = some true :=
  Option.bind_eq_some_iff.mp (of_decide_eq_true h)

theorem value_of_isConstTrue (h : A.isConstTrue o = true) (r : R) : A.value o r = true := by
  obtain ⟨n, rfl, hn⟩ := A.exists_of_isConstTrue h
  exact A.denote_of_isConstBool hn r

/-! ## §1. Two nodes. -/

@[simp] theorem value_mkOrNode_pair (a b : N) (r : R) :
    A.value (A.mkOrNode [a, b]) r = (A.denote a r || A.denote b r) := by
  obtain ⟨m, hm, hd⟩ := A.mkOrNode_spec a [b]
  rw [hm, value_some, hd]
  simp

@[simp] theorem value_mkAndNode_pair (a b : N) (r : R) :
    A.value (A.mkAndNode [a, b]) r = (A.denote a r && A.denote b r) := by
  obtain ⟨m, hm, hd⟩ := A.mkAndNode_spec a [b]
  rw [hm, value_some, hd]
  simp

theorem mkOrNode_ne_none (n : N) (ns : List N) : A.mkOrNode (n :: ns) ≠ none := by
  obtain ⟨m, hm, -⟩ := A.mkOrNode_spec n ns
  rw [hm]
  exact Option.some_ne_none m

theorem mkAndNode_ne_none (n : N) (ns : List N) : A.mkAndNode (n :: ns) ≠ none := by
  obtain ⟨m, hm, -⟩ := A.mkAndNode_spec n ns
  rw [hm]
  exact Option.some_ne_none m

/-! ## §2. Adding a node to what is there. -/

variable (curr next : Option N)

/-- Combine an optional node with another one; an absent one leaves the other as it is. -/
def addNode (combine : List N → Option N) : Option N :=
  match curr, next with
  | curr, none => curr
  | none, some next => some next
  | some curr, some next => combine [curr, next]

@[simp] theorem addNode_none (curr : Option N) (combine : List N → Option N) :
    addNode curr none combine = curr := by cases curr <;> rfl

@[simp] theorem none_addNode (next : Option N) (combine : List N → Option N) :
    addNode none next combine = next := by cases next <;> rfl

@[simp] theorem value_addNode (r : R) :
    A.value (addNode curr next A.mkOrNode) r = (A.value curr r || A.value next r) := by
  cases next with
  | none => simp
  | some n =>
    cases curr with
    | none => rfl
    | some c => exact A.value_mkOrNode_pair c n r

@[simp] theorem addNode_eq_none : addNode curr next A.mkOrNode = none ↔ curr = none ∧ next = none := by
  cases next with
  | none => simp
  | some n =>
    cases curr with
    | none => simp [addNode]
    | some c => simpa [addNode] using A.mkOrNode_ne_none c [n]

/-! ## §3. The nodes of some elements of a list. -/

section Collect

variable {B : Type} (node : B → N) (p : B → Bool)

/-- The nodes of the elements that satisfy `p`, added up one after the other. -/
def collect (bs : List B) (o : Option N) : Option N :=
  bs.foldl (fun o b => if p b then addNode o (some (node b)) A.mkOrNode else o) o

theorem collect_cons (b : B) (bs : List B) (o : Option N) : A.collect node p (b :: bs) o =
    A.collect node p bs (if p b then addNode o (some (node b)) A.mkOrNode else o) := rfl

theorem value_collect (bs : List B) (o : Option N) (r : R) :
    A.value (A.collect node p bs o) r =
      (A.value o r || bs.any (fun b => p b && A.denote (node b) r)) := by
  induction bs generalizing o with
  | nil => simp [collect]
  | cons b bs ih =>
    rw [collect_cons, ih, List.any_cons]
    cases p b <;> simp [Bool.or_assoc]

theorem collect_eq_none (bs : List B) (o : Option N) :
    A.collect node p bs o = none ↔ o = none ∧ bs.any p = false := by
  induction bs generalizing o with
  | nil => simp [collect]
  | cons b bs ih =>
    rw [collect_cons, ih, List.any_cons]
    cases p b <;> simp

end Collect

/-! ## §4. Constants that are recognised by their shape. -/

/-- A node that negating does not turn into a constant. -/
def Folded (n : N) : Prop := A.isConstBool (A.invert n) = none

/-- There is no node but the constant TRUE. -/
def Unconditional (o : Option N) : Prop := ∀ n ∈ o, A.isConstBool n = some true

/-- A combination is a constant exactly if its parts are one and the same constant. -/
structure Literal : Prop where
  or_pair : ∀ {a b m v}, A.mkOrNode [a, b] = some m →
    (A.isConstBool m = some v ↔ A.isConstBool a = some v ∧ A.isConstBool b = some v)
  and_pair : ∀ {a b m v}, A.mkAndNode [a, b] = some m →
    (A.isConstBool m = some v ↔ A.isConstBool a = some v ∧ A.isConstBool b = some v)
  folded_or : ∀ {a b m}, A.mkOrNode [a, b] = some m → A.Folded a → A.Folded b → A.Folded m

@[simp] theorem unconditional_none : A.Unconditional none := fun _ h => nomatch h

@[simp] theorem unconditional_some (n : N) :
    A.Unconditional (some n) ↔ A.isConstBool n = some true := by
  simp [Unconditional]

theorem isConstTrue_iff : A.isConstTrue o = true ↔ o ≠ none ∧ A.Unconditional o := by
  cases o <;> simp [isConstTrue]

namespace Literal

variable {A} (hlit : A.Literal)

include hlit

theorem unconditional_mkOrNode (a b : N) : A.Unconditional (A.mkOrNode [a, b]) ↔
    A.isConstBool a = some true ∧ A.isConstBool b = some true := by
  obtain ⟨m, hm, -⟩ := A.mkOrNode_spec a [b]
  rw [hm, unconditional_some, hlit.or_pair hm]

theorem unconditional_mkAndNode (a b : N) : A.Unconditional (A.mkAndNode [a, b]) ↔
    A.isConstBool a = some true ∧ A.isConstBool b = some true := by
  obtain ⟨m, hm, -⟩ := A.mkAndNode_spec a [b]
  rw [hm, unconditional_some, hlit.and_pair hm]

theorem unconditional_addNode (curr next : Option N) :
    A.Unconditional (addNode curr next A.mkOrNode) ↔ A.Unconditional curr ∧ A.Unconditional next := by
  cases next with
  | none => simp
  | some n =>
    cases curr with
    | none => simp [addNode]
    | some c => simpa [addNode] using hlit.unconditional_mkOrNode c n

theorem folded_addNode {curr next : Option N} (hcurr : ∀ n ∈ curr, A.Folded n)
    (hnext : ∀ n ∈ next, A.Folded n) : ∀ n ∈ addNode curr next A.mkOrNode, A.Folded n := by
  cases next with
  | none => simpa using hcurr
  | some n =>
    cases curr with
    | none => exact hnext
    | some c => exact fun m hm => hlit.folded_or hm (hcurr c rfl) (hnext n rfl)

variable {B : Type} {node : B → N} {p : B → Bool}

theorem unconditional_collect (bs : List B) (o : Option N) :
    A.Unconditional (A.collect node p bs o) ↔
      A.Unconditional o ∧ ∀ b ∈ bs, p b = true → A.isConstBool (node b) = some true := by
  induction bs generalizing o with
  | nil => simp [collect]
  | cons b bs ih =>
    rw [collect_cons, ih, List.forall_mem_cons]
    cases p b with
    | false => simp
    | true => simp [hlit.unconditional_addNode, and_assoc]

theorem folded_collect (hnode : ∀ b, A.Folded (node b)) (bs : List B) (o : Option N)
    (ho : ∀ n ∈ o, A.Folded n) : ∀ n ∈ A.collect node p bs o, A.Folded n := by
  induction bs generalizing o with
  | nil => exact ho
  | cons b bs ih =>
    rw [collect_cons]
    refine ih _ ?_
    cases p b with
    | false => exact ho
    | true => exact hlit.folded_addNode ho (fun n hn => Option.some.inj hn ▸ hnode b)

end Literal

end NodeAlgebra

end AccessManagement.Lib
