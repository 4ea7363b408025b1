/-
  AccessManagement.Lib.Batch — GROUPING BY A KEY AND SCATTERING RESULTS BACK.

  A batch is processed in three moves: the items are collected in a map from keys to groups,
  each group is processed in whatever order the map is iterated, and every result is written
  to the position of its item.

    * `groupBy` — the group of a key is the sublist of the items with that key, in their
      order (`lookup_groupBy`, `mem_groups`);
    * `scatter` — if every write to a position carries that position's value and every
      position is written, the order of the writes does not matter (`scatter_eq`).
-/
import Mathlib.Data.List.AList
import Mathlib.Data.List.Induction

namespace AccessManagement.Lib

open List

/-! ## §1. Groups. -/

section Groups

variable {α κ : Type} [DecidableEq κ] (key : α → κ)

/-- The item joins the group of its key. -/
def addToGroup (groups : AList (fun _ : κ => List α)) (x : α) : AList (fun _ : κ => List α) :=
  groups.insert (key x) ((groups.lookup (key x)).getD [] ++ [x])

variable (xs : List α)

def groupBy : AList (fun _ : κ => List α) := xs.foldl (addToGroup key) ∅

/-- The items with the key of `x`. -/
def classOf (k : κ) : List α := xs.filter (fun x => decide (key x = k))

theorem mem_classOf {xs : List α} {k : κ} {x : α} : x ∈ classOf key xs k ↔ x ∈ xs ∧ key x = k := by
  unfold classOf
  rw [mem_filter, decide_eq_true_eq]

theorem classOf_append_singleton (x : α) (k : κ) :
    classOf key (xs ++ [x]) k = classOf key xs k ++ (if key x = k then [x] else []) := by
  unfold classOf
  rw [filter_append, filter_cons, filter_nil]
  simp only [decide_eq_true_eq]

theorem lookup_groupBy (k : κ) : (groupBy key xs).lookup k =
      if classOf key xs k = [] then none else some (classOf key xs k) := by
  -- the map is built from the left, so the last item is peeled off
  induction xs using List.reverseRecOn with
  | nil => rfl
  | append_singleton xs x ih =>
    have hstep : groupBy key (xs ++ [x]) = addToGroup key (groupBy key xs) x := by
      unfold groupBy
      rw [foldl_append]
      rfl
    rw [hstep, classOf_append_singleton]
    unfold addToGroup
    by_cases hk : key x = k
    · subst hk
      have hne : classOf key xs (key x) ++ [x] ≠ [] :=
        append_ne_nil_of_right_ne_nil _ (cons_ne_nil x [])
      rw [AList.lookup_insert, ih, if_pos rfl]
      split
      · rename_i hnil
        rw [hnil]
        rfl
      · rfl
    · rw [AList.lookup_insert_ne (Ne.symm hk), ih, if_neg hk, append_nil]

/-- The groups, without their keys. -/
def groups : List (List α) := (groupBy key xs).entries.map (·.2)

/-- **The groups are the classes of the items.** -/
theorem mem_groups {xs g : List α} : g ∈ groups key xs ↔ g ≠ [] ∧ ∃ k, g = classOf key xs k := by
  unfold groups
  rw [mem_map]
  constructor
  · rintro ⟨⟨k, g'⟩, hmem, rfl⟩
    have hl := AList.mem_lookup_iff.mpr hmem
    rw [lookup_groupBy] at hl
    split at hl
    · exact nomatch hl
    · rename_i hne
      cases hl
      exact ⟨hne, k, rfl⟩
  · rintro ⟨hne, k, rfl⟩
    refine ⟨⟨k, _⟩, AList.mem_lookup_iff.mp ?_, rfl⟩
    rw [lookup_groupBy, if_neg hne]
    rfl

/-- An item lies in one group: that of its key. -/
theorem mem_group_iff {xs g : List α} {x : α} :
    g ∈ groups key xs ∧ x ∈ g ↔ x ∈ xs ∧ g = classOf key xs (key x) := by
  rw [mem_groups]
  constructor
  · rintro ⟨⟨-, k, rfl⟩, hx⟩
    obtain ⟨hxs, rfl⟩ := (mem_classOf key).mp hx
    exact ⟨hxs, rfl⟩
  · rintro ⟨hxs, rfl⟩
    have hx := (mem_classOf key).mpr ⟨hxs, rfl⟩
    exact ⟨⟨ne_nil_of_mem hx, _, rfl⟩, hx⟩

end Groups

/-! ## §2. Scattering. -/

section Scatter

variable {α : Type} {updates : List (Nat × α)} {vals : List α}

/-- Write the results to their positions. -/
def scatterInto (slots : List (Option α)) (updates : List (Nat × α)) : List (Option α) :=
  updates.foldl (fun slots u => slots.set u.1 (some u.2)) slots

theorem length_scatterInto (updates : List (Nat × α)) (slots : List (Option α)) :
    (scatterInto slots updates).length = slots.length := by
  induction updates generalizing slots with
  | nil => rfl
  | cons u updates ih =>
    show (scatterInto (slots.set u.1 (some u.2)) updates).length = _
    rw [ih, length_set]

theorem scatterInto_append (slots : List (Option α)) (us us' : List (Nat × α)) :
    scatterInto slots (us ++ us') = scatterInto (scatterInto slots us) us' := by
  unfold scatterInto
  rw [foldl_append]

/-- A slot holds its value as soon as it has been written, if all writes carry it. -/
theorem getElem?_scatterInto {i : Nat} {v : α}
    {slots : List (Option α)} (hv : vals[i]? = some v) (hi : i < slots.length)
    (hval : ∀ u ∈ updates, vals[u.1]? = some u.2)
    (h : slots[i]? = some (some v) ∨ ∃ u ∈ updates, u.1 = i) :
    (scatterInto slots updates)[i]? = some (some v) := by
  induction updates generalizing slots with
  | nil => simpa [scatterInto] using h
  | cons u updates ih =>
    rw [forall_mem_cons] at hval
    show (scatterInto (slots.set u.1 (some u.2)) updates)[i]? = _
    refine ih (by rw [length_set]; exact hi) hval.2 ?_
    by_cases hu : u.1 = i
    · left
      rw [hu, List.getElem?_set_self hi, ← hval.1, hu, hv]
    · rw [List.getElem?_set_ne hu]
      simpa [hu] using h

/-- **Scattering fills every slot with its value.** -/
theorem scatter_eq (hval : ∀ u ∈ updates, vals[u.1]? = some u.2)
    (hcover : ∀ i < vals.length, ∃ u ∈ updates, u.1 = i) :
    scatterInto (List.replicate vals.length none) updates = vals.map some := by
  apply ext_getElem?
  intro i
  rw [List.getElem?_map]
  cases hv : vals[i]? with
  | some =>
    have hi := (List.getElem?_eq_some_iff.mp hv).1
    exact getElem?_scatterInto hv (by rwa [length_replicate]) hval (Or.inr (hcover i hi))
  | none =>
    exact List.getElem?_eq_none (by
      rw [length_scatterInto, length_replicate]
      exact List.getElem?_eq_none_iff.mp hv)

end Scatter

end AccessManagement.Lib
