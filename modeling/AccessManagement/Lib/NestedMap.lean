/-
  AccessManagement.Lib.NestedMap — MAPS OF MAPS.

  A map by an outer and an inner key, as Go code writes it: an entry is put into the inner map,
  which is made if it is missing; and when an entry is dropped, an inner map that has become
  empty goes with it.  `get` is the entry of a pair of keys, and the laws are those of a map on
  pairs.
-/
import AccessManagement.Lib.Maps

namespace AccessManagement.Lib

open AList

/-- A map by two keys. -/
abbrev NestedMap (κ μ ν : Type) := AList (fun _ : κ => AList (fun _ : μ => ν))

namespace NestedMap

variable {κ μ ν : Type} [DecidableEq κ] (m : NestedMap κ μ ν) {k : κ} {i : AList (fun _ : μ => ν)}

/-! ## §1. Inner maps. -/

/-- The inner map of a key. -/
def inner (k : κ) : AList (fun _ : μ => ν) := (m.lookup k).getD ∅

@[grind =] theorem inner_insert (k k' : κ) :
    inner (m.insert k i) k' = if k' = k then i else m.inner k' := by
  unfold inner
  rw [lookup_insert_ite]
  split <;> rfl

@[grind =] theorem inner_erase (k k' : κ) :
    inner (m.erase k) k' = if k' = k then ∅ else m.inner k' := by
  unfold inner
  rw [lookup_erase_ite]
  split <;> rfl

theorem eq_empty_of_isEmpty (h : i.entries.isEmpty = true) : i = ∅ :=
  AList.ext (List.isEmpty_iff.mp h)

/-- No inner map is empty. -/
def NoEmpty : Prop := ∀ k, k ∈ m → m.inner k ≠ ∅

theorem noEmpty_empty : NoEmpty (∅ : NestedMap κ μ ν) := fun k h => (AList.notMem_empty k h).elim

theorem NoEmpty.insert {m : NestedMap κ μ ν} (h : m.NoEmpty) (hi : i ≠ ∅) (k : κ) :
    NoEmpty (AList.insert k i m : NestedMap κ μ ν) := by
  intro k' hk'
  rw [inner_insert]
  split
  · exact hi
  · next hne => exact h k' (((mem_insert _).mp hk').resolve_left hne)

variable [DecidableEq μ]

/-! ## §2. Entries. -/

def get (k : κ) (j : μ) : Option ν := (m.inner k).lookup j

def put (k : κ) (j : μ) (v : ν) : NestedMap κ μ ν :=
  m.insert k ((m.inner k).insert j v)

/-- An inner map goes with its last entry. -/
def drop (k : κ) (j : μ) : NestedMap κ μ ν :=
  if ((m.inner k).erase j).entries.isEmpty then m.erase k else m.insert k ((m.inner k).erase j)

theorem get_empty (k : κ) (j : μ) : get (∅ : NestedMap κ μ ν) k j = none := rfl

@[grind =] theorem get_put (k k' : κ) (j j' : μ) (v : ν) :
    (m.put k j v).get k' j' = if k' = k ∧ j' = j then some v else m.get k' j' := by
  unfold get put
  grind

theorem inner_drop (k k' : κ) (j : μ) :
    (m.drop k j).inner k' = if k' = k then (m.inner k).erase j else m.inner k' := by
  unfold drop
  split
  · next hempty => rw [inner_erase, eq_empty_of_isEmpty hempty]
  · rw [inner_insert]

@[grind =] theorem get_drop (k k' : κ) (j j' : μ) :
    (m.drop k j).get k' j' = if k' = k ∧ j' = j then none else m.get k' j' := by
  unfold get
  rw [inner_drop]
  grind

/-! ## §3. Maps without empty inner maps. -/

variable {m}

theorem insert_ne_empty (i : AList (fun _ : μ => ν)) (j : μ) (v : ν) : i.insert j v ≠ ∅ := by
  intro h
  have hlookup := congrArg (AList.lookup j) h
  rw [lookup_insert] at hlookup
  cases hlookup

theorem NoEmpty.put (h : m.NoEmpty) (k : κ) (j : μ) (v : ν) : (m.put k j v).NoEmpty :=
  h.insert (insert_ne_empty _ j v) k

theorem NoEmpty.drop (h : m.NoEmpty) (k : κ) (j : μ) : (m.drop k j).NoEmpty := by
  unfold NestedMap.drop
  split
  · intro k' hk'
    rw [mem_erase] at hk'
    rw [inner_erase, if_neg hk'.1]
    exact h k' hk'.2
  · next hempty =>
      exact h.insert (fun h => hempty (by rw [h]; rfl)) k

/-- The outer keys are those with an entry. -/
theorem NoEmpty.mem_iff (h : m.NoEmpty) : k ∈ m ↔ ∃ j v, m.get k j = some v := by
  constructor
  · intro hk
    have hne : (m.inner k).entries ≠ [] := fun hnil => h k hk (AList.ext hnil)
    obtain ⟨⟨j, v⟩, hjv⟩ := List.exists_mem_of_ne_nil _ hne
    exact ⟨j, v, mem_lookup_iff.mpr hjv⟩
  · rintro ⟨j, v, hjv⟩
    by_contra hk
    unfold get inner at hjv
    rw [lookup_eq_none.mpr hk] at hjv
    cases hjv

end NestedMap

end AccessManagement.Lib
