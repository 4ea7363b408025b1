/-
  AccessManagement.Lib.IdSet — FINITE SETS OF NUMERIC IDS, packed into the bits of one
  natural number.

  An inverted index answers a query by intersecting posting sets, one per
  (dimension, value) pair, and then walking the members of the intersection in
  ascending order.  This file is the set algebra such an index needs and nothing
  else: membership, insertion, removal, union, intersection, emptiness, and the
  ascending enumeration `ids`.

  The packed representation matters for one reason only: it EVALUATES.  Every
  operation is a single bitwise operation on `Nat`, so a concrete index can be
  queried inside a proof by `decide`.  No proof outside this file looks at `bits`;
  all of them go through `has`.
-/
import Mathlib.Data.Nat.Bitwise

namespace AccessManagement.Lib

/-- A finite set of IDs: `i` is a member iff bit `i` is set. -/
structure IdSet where
  bits : Nat
  deriving DecidableEq, Repr

namespace IdSet

variable (s : IdSet)

/-! ## §1. The operations. -/

/-- The empty set. -/
def empty : IdSet := ⟨0⟩

/-- Membership. -/
def has (i : Nat) : Bool := s.bits.testBit i

def add (i : Nat) : IdSet := ⟨s.bits ||| 2 ^ i⟩

/-- Clear bit `i` (a no-op when it is not set). -/
def remove (i : Nat) : IdSet := ⟨s.bits ^^^ (s.bits &&& 2 ^ i)⟩

def inter (s t : IdSet) : IdSet := ⟨s.bits &&& t.bits⟩

def union (s t : IdSet) : IdSet := ⟨s.bits ||| t.bits⟩

def isEmpty : Bool := s.bits == 0

/-- The intersection of a non-empty family, head first. -/
def interAll : IdSet → List IdSet → IdSet := List.foldl inter

/-- The union of a family. -/
def unionAll : List IdSet → IdSet := List.foldl union empty

/-- The members in ascending order. -/
def ids : List Nat := (List.range (s.bits.log2 + 1)).filter s.has

/-! ## §2. Membership after each operation. -/

@[simp] theorem has_empty (i : Nat) : empty.has i = false := by
  simp [has, empty]

@[simp, grind =] theorem has_add (i j : Nat) : (s.add i).has j = (s.has j || decide (i = j)) := by
  simp [has, add, Nat.testBit_two_pow]

@[simp, grind =] theorem has_remove (i j : Nat) :
    (s.remove i).has j = (s.has j && !decide (i = j)) := by
  simp only [has, remove, Nat.testBit_xor, Nat.testBit_and, Nat.testBit_two_pow]
  cases s.bits.testBit j <;> simp

@[simp] theorem has_inter (s t : IdSet) (i : Nat) : (s.inter t).has i = (s.has i && t.has i) := by
  simp [has, inter]

@[simp] theorem has_union (s t : IdSet) (i : Nat) : (s.union t).has i = (s.has i || t.has i) := by
  simp [has, union]

variable (i : Nat) (ts : List IdSet) (s : IdSet)

/-- A member of a folded intersection is a member of the seed and of every set folded in. -/
theorem has_interAll : (interAll s ts).has i = (s.has i && ts.all (·.has i)) := by
  induction ts generalizing s with
  | nil => simp [interAll]
  | cons t ts ih =>
    show (interAll (s.inter t) ts).has i = _
    rw [ih, has_inter, List.all_cons, Bool.and_assoc]

theorem has_foldl_union : (ts.foldl union s).has i = (s.has i || ts.any (·.has i)) := by
  induction ts generalizing s with
  | nil => simp
  | cons t ts ih =>
    show (ts.foldl union (s.union t)).has i = _
    rw [ih, has_union, List.any_cons, Bool.or_assoc]

@[simp] theorem has_unionAll (ts : List IdSet) (i : Nat) :
    (unionAll ts).has i = ts.any (·.has i) := by
  rw [unionAll, has_foldl_union, has_empty, Bool.false_or]

/-! ## §3. Emptiness and enumeration. -/

/-- A set is empty exactly when it has no member. -/
theorem isEmpty_iff : s.isEmpty = true ↔ ∀ i, s.has i = false := by
  constructor
  · intro h i
    have h0 : s.bits = 0 := by simpa [isEmpty] using h
    simp [has, h0]
  · intro h
    have h0 : s.bits = 0 := Nat.eq_of_testBit_eq (fun i => by simpa [has] using h i)
    simp [isEmpty, h0]

theorem isEmpty_eq_false_iff : s.isEmpty = false ↔ ∃ i, s.has i = true := by
  constructor
  · intro h
    by_contra hne
    have hall : ∀ i, s.has i = false := by
      intro i
      cases hi : s.has i with
      | false => rfl
      | true => exact absurd ⟨i, hi⟩ hne
    rw [(isEmpty_iff s).mpr hall] at h
    exact Bool.noConfusion h
  · rintro ⟨i, hi⟩
    cases he : s.isEmpty with
    | false => rfl
    | true =>
      rw [(isEmpty_iff s).mp he i] at hi
      exact Bool.noConfusion hi

/-- **`ids` enumerates exactly the members.** -/
@[simp] theorem mem_ids (i : Nat) : i ∈ s.ids ↔ s.has i = true := by
  rw [ids, List.mem_filter, List.mem_range]
  constructor
  · exact fun h => h.2
  · intro h
    refine ⟨?_, h⟩
    -- a set bit lies at or below the leading one
    have hle : 2 ^ i ≤ s.bits := Nat.ge_two_pow_of_testBit h
    have hne : s.bits ≠ 0 := by
      have := Nat.two_pow_pos i
      omega
    exact Nat.lt_succ_of_le ((Nat.le_log2 hne).mpr hle)

end IdSet

end AccessManagement.Lib
