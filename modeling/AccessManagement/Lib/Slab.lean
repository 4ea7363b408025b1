/-
  AccessManagement.Lib.Slab — SLOT STORAGE WITH A FREE LIST.

  A slab hands out the position of a slot as the ID of the value it stores, and
  reuses the positions of released slots (last released, first reused) before it
  grows.  Nothing stops a caller from releasing a slot twice; the free list then names it
  twice, and two values get one ID.  A slab is VALID as long as its free list names each
  vacant slot exactly once.

  Main results:
    * `Valid.alloc`, `Valid.release` — allocation keeps a slab valid, and so does the release of
      a slot that holds something.
    * `Valid.get?_alloc` — allocation stores at a vacant ID and touches no other slot.
    * `get?_release` — release vacates one slot and touches no other.
-/
import Mathlib.Data.List.Basic

namespace AccessManagement.Lib

open List

/-- A range may end anywhere behind the last index that counts. -/
theorem filterMap_range_add {α : Type} (f : Nat → Option α) {n : Nat}
    (h : ∀ i, n ≤ i → f i = none) : ∀ k,
    (List.range (n + k)).filterMap f = (List.range n).filterMap f := by
  intro k
  induction k with
  | zero => rfl
  | succ k ih =>
    rw [Nat.add_succ, range_succ, filterMap_append, ih, filterMap_cons,
      h (n + k) (Nat.le_add_right n k), filterMap_nil, append_nil]

theorem filterMap_range_eq {α : Type} {f : Nat → Option α} {n m : Nat}
    (hn : ∀ i, n ≤ i → f i = none) (hm : ∀ i, m ≤ i → f i = none) :
    (List.range n).filterMap f = (List.range m).filterMap f := by
  rcases Nat.le_total n m with h | h
  · rw [← Nat.add_sub_cancel' h, filterMap_range_add f hn]
  · rw [← Nat.add_sub_cancel' h, filterMap_range_add f hm]

/-- Slots, and a stack of released ones. -/
structure Slab (α : Type) where
  slots : List (Option α)
  free : List Nat

namespace Slab

variable {α : Type} (s : Slab α)

def empty : Slab α := ⟨[], []⟩

/-- The free list names each vacant slot, and each once. -/
structure Valid : Prop where
  free_nodup : s.free.Nodup
  mem_free_iff : ∀ i, i ∈ s.free ↔ s.slots[i]? = some none

theorem valid_empty : (empty : Slab α).Valid := ⟨List.nodup_nil, by simp [empty]⟩

/-- The value stored under an ID (`none` for a vacant slot or one never handed out). -/
def get? (i : Nat) : Option α := s.slots[i]?.join

@[simp] theorem get?_empty (i : Nat) : (empty : Slab α).get? i = none := by
  simp [get?, empty]

/-- The ID the next allocation uses: the top of the free stack, else one past the end. -/
def nextId : Nat :=
  match s.free with
  | [] => s.slots.length
  | i :: _ => i

/-! ## §1. Allocation. -/

variable (f : Nat → α)

/-- Store a value, which may mention its own ID. -/
def alloc : Slab α :=
  match s.free with
  | [] => { slots := s.slots ++ [some (f s.slots.length)], free := [] }
  | id :: rest => { slots := s.slots.set id (some (f id)), free := rest }

section Valid

variable {s} (h : s.Valid)

include h

theorem Valid.vacant {id : Nat} {rest : List Nat} (hfree : s.free = id :: rest) :
    s.slots[id]? = some none := (h.mem_free_iff id).mp (by rw [hfree]; simp)

/-- The next ID is vacant. -/
theorem Valid.get?_nextId : s.get? s.nextId = none := by
  unfold nextId
  split
  · simp [get?]
  next hfree => simp [get?, h.vacant hfree]

theorem Valid.alloc : (s.alloc f).Valid := by
  unfold Slab.alloc
  split
  next hfree =>
    -- a new slot at the end is taken
    refine ⟨List.nodup_nil, fun i => ?_⟩
    have hold := h.mem_free_iff i
    rw [hfree] at hold
    rcases Nat.lt_trichotomy i s.slots.length with hlt | heq | hgt
    · rw [List.getElem?_append_left hlt]; exact hold
    · subst heq; simp
    · rw [List.getElem?_eq_none (by simp; omega)]; simp
  next id rest hfree =>
    -- a reused slot leaves the free list
    have hnodup := h.free_nodup
    rw [hfree] at hnodup
    obtain ⟨hout, hrest⟩ := nodup_cons.mp hnodup
    refine ⟨hrest, fun i => ?_⟩
    have hold := h.mem_free_iff i
    rw [hfree] at hold
    rw [List.getElem?_set]
    rcases eq_or_ne id i with rfl | hne
    · rw [if_pos rfl]
      refine iff_of_false hout (fun hvacant => ?_)
      split at hvacant <;> simp at hvacant
    · rw [if_neg hne, ← hold, mem_cons]
      exact ⟨Or.inr, fun hin => hin.resolve_left hne.symm⟩

/-- **Allocation stores at `nextId` and touches no other slot.** -/
theorem Valid.get?_alloc (i : Nat) :
    (s.alloc f).get? i = if i = s.nextId then some (f s.nextId) else s.get? i := by
  unfold Slab.alloc
  split
  next hfree =>
      have hnext : s.nextId = s.slots.length := by simp [nextId, hfree]
      rw [hnext]
      simp only [get?]
      rcases Nat.lt_trichotomy i s.slots.length with hlt | heq | hgt
      · rw [List.getElem?_append_left hlt, if_neg (by omega)]
      · subst heq; simp
      · rw [List.getElem?_eq_none (by simp; omega), List.getElem?_eq_none (by omega),
          if_neg (by omega)]
  next id rest hfree =>
      have hnext : s.nextId = id := by simp [nextId, hfree]
      have hlt : id < s.slots.length := (List.getElem?_eq_some_iff.mp (h.vacant hfree)).1
      rw [hnext]
      simp only [get?]
      rcases eq_or_ne i id with rfl | hne
      · simp [hlt]
      · simp [hne, hne.symm]

end Valid

/-- Only IDs that were handed out hold anything. -/
theorem lt_of_get? {s : Slab α} {i : Nat} {a : α} (h : s.get? i = some a) : i < s.slots.length := by
  unfold get? at h
  by_contra hge
  rw [List.getElem?_eq_none (Nat.not_lt.mp hge)] at h
  cases h

theorem length_alloc_le : (s.alloc f).slots.length ≤ s.slots.length + 1 := by
  unfold alloc
  split
  · exact Nat.le_of_eq length_append
  · rw [length_set]
    exact Nat.le_succ _

/-! ## §2. Release. -/

/-- Vacate a slot, and put it on the free list whatever it holds. -/
def release (id : Nat) : Slab α where
  slots := s.slots.set id none
  free := id :: s.free

/-- **Release vacates one slot and touches no other.** -/
@[simp] theorem get?_release (id i : Nat) :
    (s.release id).get? i = if i = id then none else s.get? i := by
  simp only [release, get?, List.getElem?_set]
  rcases eq_or_ne i id with rfl | hne
  · rw [if_pos rfl, if_pos rfl]
    split <;> rfl
  · rw [if_neg hne.symm, if_neg hne]

theorem Valid.release {s : Slab α} (h : s.Valid) {id : Nat} {a : α} (hid : s.get? id = some a) :
    (s.release id).Valid := by
  have hslot : s.slots[id]? = some (some a) := by
    unfold get? at hid
    cases hs : s.slots[id]? with
    | none => rw [hs] at hid; cases hid
    | some o => rw [hs] at hid; exact congrArg some hid
  have hlt : id < s.slots.length := (List.getElem?_eq_some_iff.mp hslot).1
  refine ⟨List.nodup_cons.mpr ⟨fun hmem => ?_, h.free_nodup⟩, fun i => ?_⟩
  · rw [h.mem_free_iff, hslot] at hmem
    cases hmem
  · show i ∈ id :: s.free ↔ (s.slots.set id none)[i]? = some none
    rw [List.getElem?_set, List.mem_cons, h.mem_free_iff]
    rcases eq_or_ne id i with rfl | hne
    · simp [hlt]
    · rw [if_neg hne]
      exact ⟨fun hin => hin.resolve_left hne.symm, Or.inr⟩

/-- The stored values, in slot order. -/
def values : List α := s.slots.filterMap id

/-- The stored values are what the IDs hold, in the order of the IDs. -/
theorem values_eq_filterMap : s.values = (List.range s.slots.length).filterMap s.get? := by
  have hslots : ∀ l : List (Option α),
      l.filterMap id = (List.range l.length).filterMap (fun i => l[i]?.join) := by
    intro l
    induction l with
    | nil => rfl
    | cons o l ih =>
      rw [length_cons, range_succ_eq_map, filterMap_cons, filterMap_cons, filterMap_map]
      cases o with
      | none => exact ih
      | some a => exact congrArg (a :: ·) ih
  exact hslots s.slots

theorem mem_values_iff (a : α) : a ∈ s.values ↔ ∃ i, s.get? i = some a := by
  rw [values_eq_filterMap, mem_filterMap]
  constructor
  · rintro ⟨i, -, hi⟩
    exact ⟨i, hi⟩
  · rintro ⟨i, hi⟩
    exact ⟨i, mem_range.mpr (lt_of_get? hi), hi⟩

/-- Filling a vacant slot adds one value. -/
theorem filterMap_set_perm (v : α) (l : List (Option α)) (i : Nat) (hi : l[i]? = some none) :
    ((l.set i (some v)).filterMap id).Perm (v :: l.filterMap id) := by
  induction l generalizing i with
  | nil => cases hi
  | cons o l ih =>
    cases i with
    | zero =>
      rw [List.getElem?_cons_zero, Option.some.injEq] at hi
      subst hi
      exact List.Perm.refl _
    | succ i =>
      cases o with
      | none => exact ih i hi
      | some a =>
        show (a :: (l.set i (some v)).filterMap id).Perm (v :: a :: l.filterMap id)
        exact ((ih i hi).cons a).trans (List.Perm.swap v a _)

/-- Allocation adds one value. -/
theorem Valid.values_alloc_perm {s : Slab α} (h : s.Valid) (f : Nat → α) :
    (s.alloc f).values.Perm (f s.nextId :: s.values) := by
  unfold Slab.alloc values
  split
  next hfree =>
      have hnext : s.nextId = s.slots.length := by simp [nextId, hfree]
      rw [hnext, filterMap_append]
      exact perm_append_comm
  next id rest hfree =>
      have hnext : s.nextId = id := by simp [nextId, hfree]
      rw [hnext]
      exact filterMap_set_perm (f id) s.slots id (h.vacant hfree)

/-- Slabs whose IDs hold the same, up to a filter, have the same values up to the filter. -/
theorem values_eq_of_get? {s s' : Slab α} {p : α → Bool}
    (h : ∀ i, s'.get? i = (s.get? i).filter p) : s'.values = s.values.filter p := by
  have hnone : ∀ (t : Slab α) (i : Nat), t.slots.length ≤ i → t.get? i = none := by
    intro t i hi
    cases hg : t.get? i with
    | none => rfl
    | some => exact absurd (lt_of_get? hg) (Nat.not_lt.mpr hi)
  rw [values_eq_filterMap, values_eq_filterMap, filter_filterMap]
  calc (List.range s'.slots.length).filterMap s'.get?
      = (List.range s'.slots.length).filterMap (fun i => (s.get? i).filter p) :=
        filterMap_congr (fun i _ => h i)
    _ = (List.range s.slots.length).filterMap (fun i => (s.get? i).filter p) :=
        filterMap_range_eq (fun i hi => (h i).symm.trans (hnone s' i hi))
          (fun i hi => by rw [hnone s i hi]; rfl)

end Slab

end AccessManagement.Lib
