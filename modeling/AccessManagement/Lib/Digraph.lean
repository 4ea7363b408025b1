/-
  AccessManagement.Lib.Digraph — HOW DEEP A FINITE GRAPH WITHOUT CYCLES IS.

  A traversal that follows edges without marking what it has seen needs a bound on the length
  of paths.  `Depth next n a` says that no path from `a` has more than `n` edges.  When the
  nodes with outgoing edges are among finitely many and no node reaches itself, their number
  is such a bound.
-/
import Mathlib.Data.Finset.Card
import Mathlib.Logic.Relation

namespace AccessManagement.Lib

variable {α : Type}

/-- There is an edge from one node to the other. -/
def Edge (next : α → List α) (a b : α) : Prop := b ∈ next a

/-- No node reaches itself. -/
def Acyclic (next : α → List α) : Prop := ∀ a, ¬ Relation.TransGen (Edge next) a a

/-- Every path from the node has at most `n` edges. -/
def Depth (next : α → List α) : Nat → α → Prop
  | 0, a => next a = []
  | n + 1, a => ∀ b ∈ next a, Depth next n b

variable {next : α → List α}

/-- Edges that descend along a rank. -/
theorem acyclic_of_rank {rank : α → Nat} (hrank : ∀ a, ∀ b ∈ next a, rank b < rank a) :
    Acyclic next := by
  have hdescends : ∀ a b, Relation.TransGen (Edge next) a b → rank b < rank a := by
    intro a b hab
    induction hab with
    | single h => exact hrank _ _ h
    | tail _ h ih => exact (hrank _ _ h).trans ih
  intro a ha
  exact lt_irrefl _ (hdescends a a ha)

/-- The induction: the nodes still ahead shrink by the one that is left. -/
theorem Acyclic.depth_of_mem [DecidableEq α] (hacyclic : Acyclic next) :
    ∀ (n : Nat) (dom : Finset α) (a : α), dom.card = n →
    (∀ b, Relation.ReflTransGen (Edge next) a b → next b ≠ [] → b ∈ dom) → Depth next n a := by
  intro n
  induction n with
  | zero =>
    intro dom a hcard hdom
    by_contra hne
    have ha := hdom a .refl hne
    rw [Finset.card_eq_zero.mp hcard] at ha
    exact Finset.notMem_empty a ha
  | succ n ih =>
    intro dom a hcard hdom b hb
    have ha : a ∈ dom := hdom a .refl (List.ne_nil_of_mem hb)
    have hcard' : (dom.erase a).card = n := by rw [Finset.card_erase_of_mem ha, hcard]; rfl
    refine ih _ b hcard' ?_
    intro c hbc hc
    refine Finset.mem_erase.mpr ⟨?_, hdom c (.head hb hbc) hc⟩
    rintro rfl
    exact hacyclic c (Relation.TransGen.head' hb hbc)

/-- **A finite graph without cycles is no deeper than it has nodes with edges.** -/
theorem Acyclic.depth [DecidableEq α] (hacyclic : Acyclic next) {dom : List α}
    (hnodup : dom.Nodup) (hdom : ∀ a, next a ≠ [] → a ∈ dom) (a : α) : Depth next dom.length a :=
  hacyclic.depth_of_mem dom.length dom.toFinset a (List.toFinset_card_of_nodup hnodup)
    (fun b _ hb => List.mem_toFinset.mpr (hdom b hb))

end AccessManagement.Lib
