/-
  AccessManagement.Manager.Ancestors — THE ANCESTORS OF A ROLE.

  `collectParentRoles` is a depth-first search over the parent roles of one scope.  It marks a role
  before it goes on to its parents, so that it ends on every table, also where roles are their own
  ancestors: there is a run of `Lib.Search`, which has no bound on its depth.

  Main result: `ancestors_are_closure`.
-/
import AccessManagement.Lib.Search
import AccessManagement.Manager.ParentRoles

namespace AccessManagement.RuleTable

open Lib List Relation NestedMap

/-- The parent roles of a role, in one scope. -/
def parentsOf (parents : AList (fun _ : String => List String)) (role : String) : List String :=
  (parents.lookup role).getD []

/-- **The search for ancestors ends**, when it starts from a role with an entry. -/
theorem search_collectParentRoles {parents : AList (fun _ : String => List String)} {role : String}
    (hrole : role ∈ parents) : Search (parentsOf parents) (parentsOf parents role) ([], [role])
      (collectParentRoles parents (parents.entries.length + 1) role ([], [])) := by
  -- only roles with an entry are left to mark, and the one at the start is marked
  have hfuel : unseen parents.keys.toFinset [role] + 1 ≤ parents.entries.length := by
    have hless := unseen_cons_lt (mem_toFinset.mpr (AList.mem_keys.mp hrole)) (@not_mem_nil _ role)
    have hall : unseen parents.keys.toFinset [] ≤ parents.entries.length := by
      rw [unseen, toFinset_nil, Finset.sdiff_empty]
      exact (toFinset_card_le _).trans_eq (length_map _)
    omega
  obtain ⟨acc, hrun, rfl⟩ := @search_foldl _ _ (parentsOf parents) _ _ Eq
    (fun fuel acc pr => collectParentRoles parents fuel pr (acc.1.insert pr, acc.2)) 1
    (fun fuel acc found seen pr hpr hrel => by
      subst hrel
      cases fuel with
      | zero => rfl
      | succ => exact (if_pos hpr).symm)
    (fun fuel acc found seen pr hpr hrel => ⟨_, rfl, hrel ▸ if_neg hpr⟩)
    (fun r pr _ => by
      by_cases hpr : pr ∈ parents
      · exact .inl (mem_toFinset.mpr (AList.mem_keys.mp hpr))
      · refine .inr ⟨?_, Nat.one_pos⟩
        rw [parentsOf, AList.lookup_eq_none.mpr hpr]
        rfl)
    parents.entries.length role (parentsOf parents role) ([], [role]) _ rfl (fun _ => id) hfuel
  exact hrun

/-- **The compiled ancestors.**  Each role with an entry in a scope, and no other, gets a list.  The
search for it ends; the list has no role twice, and it has the roles that one or more steps to
parents in that scope lead to. -/
theorem ancestors_are_closure (spr : NestedMap String String (List String)) (scope role : String) :
    ((NestedMap.get (compileParentRoleAncestors spr) scope role).isSome =
      (spr.get scope role).isSome) ∧
    ∀ found ∈ NestedMap.get (compileParentRoleAncestors spr) scope role,
      (∃ visited, Search (parentsOf (spr.inner scope)) (parentsOf (spr.inner scope) role)
        ([], [role]) (found, visited)) ∧ found.Nodup ∧
      ∀ r, r ∈ found ↔ TransGen (Edge (parentsOf (spr.inner scope))) role r := by
  rw [get_compileParentRoleAncestors, ancestors]
  refine ⟨Option.isSome_map, fun found hfound => ?_⟩
  obtain ⟨roles, hroles, rfl⟩ := Option.map_eq_some_iff.mp hfound
  have hrun := search_collectParentRoles (AList.lookup_isSome.mp (Option.isSome_of_mem hroles))
  exact ⟨⟨_, hrun⟩, hrun.found.nodup nodup_nil, fun r => hrun.mem_iff (fun _ => id)⟩

end AccessManagement.RuleTable
