/-
  AccessManagement.Lib.Postings — POSTING LISTS: a finite map from the values of one
  dimension to the set of IDs that carry the value.

  The structure keeps the one invariant an inverted index leans on: NO KEY MAPS TO THE
  EMPTY SET.  Removal drops a key together with its last ID, so "the key is absent" and
  "no ID carries the value" are the same fact and a lookup miss may be answered without
  looking at any set.

  Main results:
    * `has_add` / `has_remove` — pointwise effect of the two updates.
    * `get?_isSome_iff`        — a key is present iff some ID carries it.
    * `has_unionOver`, `has_unionWhere` — the two ways a query unions posting sets.
-/
import AccessManagement.Lib.IdSet
import AccessManagement.Lib.Maps

namespace AccessManagement.Lib

open AList

/-- Posting sets by key, none of them empty. -/
structure Postings (κ : Type) [DecidableEq κ] where
  sets : AList (fun _ : κ => IdSet)
  nonempty : ∀ k s, sets.lookup k = some s → s.isEmpty = false

namespace Postings

variable {κ : Type} [DecidableEq κ] (d : Postings κ)

/-! ## §1. Lookups. -/

def empty : Postings κ :=
  ⟨∅, by intro k s h; simp at h⟩

variable (k : κ)

/-- The posting set of a key, if the key is present. -/
def get? : Option IdSet := d.sets.lookup k

/-- The posting set of a key, empty when the key is absent. -/
def get : IdSet := (d.get? k).getD IdSet.empty

/-- Does ID `i` carry the value `k`? -/
def has (i : Nat) : Bool := (d.get k).has i

def keys : List κ := d.sets.keys

@[simp] theorem has_empty (i : Nat) : (empty : Postings κ).has k i = false := by
  simp [has, get, get?, empty]

theorem has_of_get? {d : Postings κ} {k : κ} {s : IdSet} (h : d.get? k = some s) (i : Nat) :
    d.has k i = s.has i := by
  simp [has, get, h]

/-- A miss says that no ID carries the value. -/
theorem has_of_get?_none {d : Postings κ} {k : κ} (h : d.get? k = none) (i : Nat) :
    d.has k i = false := by
  simp [has, get, h]

/-- **Presence is inhabitation.** -/
theorem get?_isSome_iff : (d.get? k).isSome = true ↔ ∃ i, d.has k i = true := by
  constructor
  · intro h
    obtain ⟨s, hs⟩ := Option.isSome_iff_exists.mp h
    obtain ⟨i, hi⟩ := (IdSet.isEmpty_eq_false_iff s).mp (d.nonempty k s hs)
    exact ⟨i, by rw [has_of_get? hs, hi]⟩
  · rintro ⟨i, hi⟩
    cases hk : d.get? k with
    | some => rfl
    | none => rw [has_of_get?_none hk] at hi; exact Bool.noConfusion hi

/-- An ID that carries a value is found under it. -/
theorem exists_get? {d : Postings κ} {k : κ} {i : Nat} (h : d.has k i = true) :
    ∃ s, d.get? k = some s ∧ s.has i = true := by
  obtain ⟨s, hs⟩ := Option.isSome_iff_exists.mp ((d.get?_isSome_iff k).mpr ⟨i, h⟩)
  exact ⟨s, hs, has_of_get? hs i ▸ h⟩

theorem mem_keys_iff : k ∈ d.keys ↔ ∃ i, d.has k i = true := by
  rw [← get?_isSome_iff]
  exact (lookup_isSome).symm

/-! ## §2. Updates. -/

/-- Record that ID `i` carries the value `k`. -/
def add (i : Nat) : Postings κ where
  sets := d.sets.insert k ((d.get k).add i)
  nonempty := EntriesHold.insert d.nonempty
    ((IdSet.isEmpty_eq_false_iff _).mpr ⟨i, by simp⟩)

/-- Forget that ID `i` carries the value `k`, dropping the key with its last ID. -/
def remove (i : Nat) : Postings κ :=
  match d.get? k with
  | none => d
  | some s =>
    if he : (s.remove i).isEmpty = true then
      { sets := d.sets.erase k
        nonempty := EntriesHold.erase d.nonempty k }
    else
      { sets := d.sets.insert k (s.remove i)
        nonempty := EntriesHold.insert d.nonempty (Bool.eq_false_iff.mpr he) }

@[simp, grind =] theorem has_add (k k' : κ) (i j : Nat) :
    (d.add k i).has k' j = (d.has k' j || (decide (k = k') && decide (i = j))) := by
  rcases eq_or_ne k' k with rfl | hne
  · simp [has, get, get?, add]
  · have hne' : k ≠ k' := hne.symm
    simp [has, get, get?, add, lookup_insert_ne hne, hne']

@[simp, grind =] theorem has_remove (k k' : κ) (i j : Nat) :
    (d.remove k i).has k' j = (d.has k' j && !(decide (k = k') && decide (i = j))) := by
  unfold remove
  split
  next hk =>
      rcases eq_or_ne k' k with rfl | hne
      · simp [has_of_get?_none hk]
      · simp [hne.symm]
  next s hk =>
      split
      next he =>
          rcases eq_or_ne k' k with rfl | hne
          · -- the key is dropped: every remaining member would be a member of `s.remove i`
            have hnone := (IdSet.isEmpty_iff _).mp he j
            rw [IdSet.has_remove] at hnone
            rw [has_of_get? hk]
            simp [has, get, get?, hnone]
          · simp [has, get, get?, lookup_erase_ne hne, hne.symm]
      next he =>
          rcases eq_or_ne k' k with rfl | hne
          · rw [has_of_get? hk]
            simp [has, get, get?]
          · simp [has, get, get?, lookup_insert_ne hne, hne.symm]

/-! ## §3. Unions of posting sets. -/

/-- The IDs that carry one of the listed values. -/
def unionOver (ks : List κ) : IdSet :=
  IdSet.unionAll (ks.map d.get)

/-- The IDs that carry some value satisfying `p`. -/
def unionWhere (p : κ → Bool) : IdSet :=
  d.unionOver (d.keys.filter p)

@[simp] theorem has_unionOver (ks : List κ) (i : Nat) :
    (d.unionOver ks).has i = ks.any (fun k => d.has k i) := by
  rw [unionOver, IdSet.has_unionAll, List.any_map]
  rfl

theorem has_unionWhere (p : κ → Bool) (i : Nat) :
    (d.unionWhere p).has i = true ↔ ∃ k, p k = true ∧ d.has k i = true := by
  rw [unionWhere, has_unionOver, List.any_eq_true]
  constructor
  · rintro ⟨k, hk, hi⟩
    exact ⟨k, (List.mem_filter.mp hk).2, hi⟩
  · rintro ⟨k, hp, hi⟩
    exact ⟨k, List.mem_filter.mpr ⟨(mem_keys_iff d k).mpr ⟨i, hi⟩, hp⟩, hi⟩

end Postings

end AccessManagement.Lib
