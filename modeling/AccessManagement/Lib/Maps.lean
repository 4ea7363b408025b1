/-
  AccessManagement.Lib.Maps — MAPS THAT A LOOP FILLS, AND CACHES.

  A Go map is an `AList` in the models.  Two patterns occur again and again: a loop that
  inserts one entry per item, and a cache whose entries are all results of some computation.
  The first is read back by `lookup_foldl_insert`; for the second, `EntriesHold` says what is
  known of every entry and how it is kept.  A cache that never forgets is a log of what was
  computed.
-/
import Mathlib.Data.List.AList
import AccessManagement.Lib.Loops

namespace AccessManagement.Lib

open AList

variable {κ α ν : Type} [DecidableEq κ] {m : AList (fun _ : κ => ν)} {P : κ → ν → Prop}

/-! ## §1. Loops that insert. -/

@[grind =] theorem lookup_insert_ite (m : AList (fun _ : κ => ν)) (k k' : κ) (v : ν) :
    (m.insert k v).lookup k' = if k' = k then some v else m.lookup k' := by
  by_cases hk : k' = k
  · rw [if_pos hk, hk, lookup_insert]
  · rw [if_neg hk, lookup_insert_ne hk]

@[grind =] theorem lookup_erase_ite (k k' : κ) :
    (m.erase k).lookup k' = if k' = k then none else m.lookup k' := by
  by_cases hk : k' = k
  · rw [if_pos hk, hk, lookup_erase]
  · rw [if_neg hk, lookup_erase_ne hk]

/-- **What a loop leaves in a map**, when its items have distinct keys: the entry of the item
with the key, else what was there before. -/
theorem lookup_foldl_insert (key : α → κ) (value : α → ν) (as : List α) (m : AList (fun _ : κ => ν))
    (hnodup : (as.map key).Nodup) (k : κ) (v : ν) :
    (as.foldl (fun m a => m.insert (key a) (value a)) m).lookup k = some v ↔
      (∃ a ∈ as, key a = k ∧ value a = v) ∨ (k ∉ as.map key ∧ m.lookup k = some v) := by
  induction as generalizing m k v with
  | nil => simp
  | cons _ _ ih =>
    rw [List.map_cons, List.nodup_cons] at hnodup
    rw [List.foldl_cons, ih _ hnodup.2, lookup_insert_ite]
    split
    · next hk => simp_all; grind
    · next hk => simp [hk, Ne.symm hk]

/-- The keys of a map are distinct. -/
theorem nodup_keys {κ ν : Type} (m : AList (fun _ : κ => ν)) : (m.entries.map (fun e => e.1)).Nodup :=
  m.nodupKeys

/-- A loop over the entries of a map that computes a new value for each. -/
theorem lookup_foldl_entries (f : κ → α → ν) (m : AList (fun _ : κ => α)) (k : κ) :
    (m.entries.foldl (fun m' e => m'.insert e.1 (f e.1 e.2)) (∅ : AList (fun _ : κ => ν))).lookup k =
      (m.lookup k).map (f k) := by
  refine Option.ext (fun v => ?_)
  rw [lookup_foldl_insert (fun e : Sigma (fun _ : κ => α) => e.1) (fun e => f e.1 e.2) m.entries ∅
    (nodup_keys m) k v, Option.map_eq_some_iff]
  constructor
  · rintro (⟨⟨k', a⟩, he, rfl, hv⟩ | ⟨-, hv⟩)
    · exact ⟨a, mem_lookup_iff.mpr he, hv⟩
    · rw [lookup_empty] at hv
      cases hv
  · rintro ⟨a, ha, hv⟩
    exact .inl ⟨⟨k, a⟩, mem_lookup_iff.mp ha, rfl, hv⟩

/-! ## §2. Logs: lists in which the first entry with a key counts. -/

section Logs

variable {log : List (κ × ν)} {key : κ}

theorem lookup_append_of_some {v : ν} (h : log.lookup key = some v) (log' : List (κ × ν)) :
    (log ++ log').lookup key = some v := by
  rw [List.lookup_append, h, Option.some_or]

theorem lookup_append_of_none (h : log.lookup key = none) (v : ν) :
    (log ++ [(key, v)]).lookup key = some v := by
  rw [List.lookup_append, h, Option.none_or, List.lookup_cons_self]

theorem lookup_append_of_ne {k : κ} (hk : k ≠ key) (v : ν) :
    (log ++ [(key, v)]).lookup k = log.lookup k := by
  rw [List.lookup_append, List.lookup_cons, beq_eq_false_iff_ne.mpr hk, List.lookup_nil,
    Option.or_none]

variable (h : ∀ k, m.lookup k = log.lookup k)

include h

/-- A map keeps up with a log: a new key is put in, -/
theorem lookup_insert_of_log (hnew : log.lookup key = none) (v : ν) (k : κ) :
    (m.insert key v).lookup k = (log ++ [(key, v)]).lookup k := by
  rw [lookup_insert_ite]
  by_cases hk : k = key
  · rw [if_pos hk, hk, lookup_append_of_none hnew]
  · rw [if_neg hk, lookup_append_of_ne hk, h]

/-- and a known one is left alone. -/
theorem lookup_of_log {w : ν} (hold : log.lookup key = some w) (v : ν) (k : κ) :
    m.lookup k = (log ++ [(key, v)]).lookup k := by
  by_cases hk : k = key
  · rw [h, hk, hold, lookup_append_of_some hold]
  · rw [lookup_append_of_ne hk, h]

end Logs

/-! ## §3. Caches. -/

/-- Every entry of a cache satisfies `P`. -/
def EntriesHold (P : κ → ν → Prop) (m : AList (fun _ : κ => ν)) : Prop :=
  ∀ k v, m.lookup k = some v → P k v

theorem EntriesHold.empty (P : κ → ν → Prop) : EntriesHold P ∅ := by
  simp [EntriesHold]

theorem EntriesHold.insert (h : EntriesHold P m) {k : κ} {v : ν} (hkv : P k v) :
    EntriesHold P (m.insert k v) := by
  intro k' v' hl
  rw [lookup_insert_ite] at hl
  split at hl
  · next hk => rwa [hk, ← Option.some.inj hl]
  · exact h k' v' hl

theorem EntriesHold.erase (h : EntriesHold P m) (k : κ) : EntriesHold P (m.erase k) := by
  intro k' v' hl
  rw [lookup_erase_ite] at hl
  split at hl
  · cases hl
  · exact h k' v' hl

end AccessManagement.Lib
