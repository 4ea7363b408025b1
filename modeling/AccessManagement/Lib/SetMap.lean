/-
  AccessManagement.Lib.SetMap — MAPS FROM KEYS TO SETS.

  A relation between keys and values is often kept as a map whose entries are sets, a set
  being a list read up to membership.  Callers differ in what they do with a set that has
  become empty: some leave it, some drop its key.  What the map RELATES is the same either
  way, so everything is stated about `members`.

  Main results:
    * `mem_members_foldl_addMember`    — after a loop that adds.
    * `mem_members_foldl_removeMember` — after a loop that removes, for both ways of removing.
-/
import Mathlib.Data.List.AList

namespace AccessManagement.Lib

open List

/-- A map from keys to sets. -/
abbrev SetMap (κ ν : Type) := AList (fun _ : κ => List ν)

namespace SetMap

variable {κ ν : Type} [DecidableEq κ]

/-! ## §1. What the map relates. -/

/-- What a key is related to; nothing, if the key is absent. -/
def members (m : SetMap κ ν) (k : κ) : List ν := (m.lookup k).getD []

variable (m : SetMap κ ν) (k k' : κ)

theorem members_insert (vs : List ν) :
    SetMap.members (AList.insert k vs m) k' = if k' = k then vs else m.members k' := by
  unfold members
  split
  · next h => rw [h, AList.lookup_insert, Option.getD_some]
  · next h => rw [AList.lookup_insert_ne h]

theorem members_erase : SetMap.members (AList.erase k m) k' = if k' = k then [] else m.members k' := by
  unfold members
  split
  · next h => rw [h, AList.lookup_erase, Option.getD_none]
  · next h => rw [AList.lookup_erase_ne h]

variable {m : SetMap κ ν} {k k' : κ} {v v' : ν}

theorem mem_members_erase :
    v ∈ SetMap.members (AList.erase k m) k' ↔ k' ≠ k ∧ v ∈ m.members k' := by
  rw [members_erase]
  split
  · next h => simp [h]
  · next h => simp [h]

/-! ## §2. Updates. -/

variable [DecidableEq ν]

/-- Put a value into the set of a key, which is created if need be. -/
def addMember (m : SetMap κ ν) (k : κ) (v : ν) : SetMap κ ν :=
  m.insert k ((m.members k).insert v)

/-- Take a value out of the set of a key; the set stays, even if it is empty. -/
def removeMember (m : SetMap κ ν) (k : κ) (v : ν) : SetMap κ ν :=
  match m.lookup k with
  | some vs => m.insert k (vs.filter (· ≠ v))
  | none => m

/-- Take a value out of the set of a key; an empty set goes with its key. -/
def dropMember (m : SetMap κ ν) (k : κ) (v : ν) : SetMap κ ν :=
  if ((m.removeMember k v).members k).isEmpty then (m.removeMember k v).erase k
  else m.removeMember k v

theorem mem_members_addMember :
    v' ∈ (m.addMember k v).members k' ↔ v' ∈ m.members k' ∨ (k' = k ∧ v' = v) := by
  rw [addMember, members_insert]
  split
  · next h =>
      subst h
      rw [mem_insert_iff]
      tauto
  · next h => simp [h]

theorem mem_members_removeMember :
    v' ∈ (m.removeMember k v).members k' ↔ v' ∈ m.members k' ∧ ¬ (k' = k ∧ v' = v) := by
  unfold removeMember
  cases hk : m.lookup k with
  | none =>
    have hempty : m.members k = [] := by rw [members, hk, Option.getD_none]
    constructor
    · intro hv
      refine ⟨hv, ?_⟩
      rintro ⟨rfl, -⟩
      rw [hempty] at hv
      exact not_mem_nil hv
    · exact And.left
  | some vs =>
    have hvs : m.members k = vs := by rw [members, hk, Option.getD_some]
    show v' ∈ SetMap.members (AList.insert k (vs.filter (· ≠ v)) m) k' ↔ _
    rw [members_insert]
    split
    · next h =>
        subst h
        simp [hvs]
    · next h => simp [h]

theorem mem_members_dropMember :
    v' ∈ (m.dropMember k v).members k' ↔ v' ∈ m.members k' ∧ ¬ (k' = k ∧ v' = v) := by
  rw [← mem_members_removeMember]
  unfold dropMember
  split
  · next hempty =>
      rw [mem_members_erase]
      constructor
      · exact And.right
      · intro hv
        refine ⟨?_, hv⟩
        rintro rfl
        rw [isEmpty_iff.mp hempty] at hv
        exact not_mem_nil hv
  · exact Iff.rfl

/-! ## §3. Loops. -/

theorem mem_members_foldl_addMember {ι : Type} (key : ι → κ) (value : ι → ν) (is : List ι)
    (m : SetMap κ ν) (k : κ) (v : ν) :
    v ∈ (is.foldl (fun m i => m.addMember (key i) (value i)) m).members k ↔
      v ∈ m.members k ∨ ∃ i ∈ is, key i = k ∧ value i = v := by
  induction is generalizing m k v with
  | nil => simp
  | cons i _ ih =>
    rw [foldl_cons, ih, mem_members_addMember]
    constructor
    · rintro ((hv | ⟨rfl, rfl⟩) | ⟨j, hj, hkey⟩)
      · exact .inl hv
      · exact .inr ⟨i, mem_cons_self, rfl, rfl⟩
      · exact .inr ⟨j, mem_cons_of_mem i hj, hkey⟩
    · rintro (hv | ⟨j, hj, hk, hv⟩)
      · exact .inl (.inl hv)
      · rcases mem_cons.mp hj with rfl | hj
        · exact .inl (.inr ⟨hk.symm, hv.symm⟩)
        · exact .inr ⟨j, hj, hk, hv⟩

/-- **A loop that takes one value out of the sets of several keys**, by either operation. -/
theorem mem_members_foldl_removeMember {remove : SetMap κ ν → κ → ν → SetMap κ ν}
    (hremove : ∀ m k k' v v', v' ∈ (remove m k v).members k' ↔
      v' ∈ m.members k' ∧ ¬ (k' = k ∧ v' = v)) (v : ν) (ks : List κ) (m : SetMap κ ν) (k' : κ)
    (v' : ν) : v' ∈ (ks.foldl (fun m k => remove m k v) m).members k' ↔
      v' ∈ m.members k' ∧ ¬ (k' ∈ ks ∧ v' = v) := by
  induction ks generalizing m k' v' with
  | nil => simp
  | cons _ _ ih =>
    rw [foldl_cons, ih, hremove, mem_cons]
    tauto

end SetMap

end AccessManagement.Lib
