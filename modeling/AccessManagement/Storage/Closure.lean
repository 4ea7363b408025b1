/-
  AccessManagement.Storage.Closure — WHAT A COMPILATION UNIT HAS, AND WHO DEPENDS ON A MODULE.

  `addDepsToCompilationUnit` marks nothing: it goes into every import again, and it ends because
  imports do not go round in circles.  In the model the recursion has a bound, and to run into it is
  the error `importCycle`: that it ends says that this error does not come out.

  Main result: `units_and_dependents_exact`.
-/
import AccessManagement.Storage.BlobEvents

namespace AccessManagement.Storage

open Lib Relation List AList StorageIndex Externals

/-- **The recursion ends**: it fails when a module cannot be loaded, and for no other reason. -/
theorem StorageIndex.exists_load_error {fsys : FileSystem} {idx : StorageIndex} {id : String}
    {e : IndexError} {n : Nat} {defs : Definitions} (hdepth : Depth idx.dependencies.members n id)
    (h : idx.addDepsToCompilationUnit fsys (n + 1) defs id = .error e) :
    ∃ m, idx.loadPolicy fsys m = .error e := by
  induction n generalizing id defs with
  | zero =>
    rw [addDepsToCompilationUnit, show idx.dependencies.members id = [] from hdepth] at h
    cases h
  | succ n ih =>
    obtain ⟨dep, hdep, defs', hstep⟩ := exists_step_error h
    unfold addImport at hstep
    split at hstep
    · exact ih (hdepth dep hdep) hstep
    · split at hstep
      next hload =>
        cases hstep
        exact ⟨dep, hload⟩
      next => exact ih (hdepth dep hdep) hstep

/-- **Units and dependents.**  In every state of the index imports do not go round in circles.
The recursion of `GetCompilationUnits` ends, and if there is no error, the definitions of a module's
unit are the module, its ancestors and what can be reached from these through imports, as the files
have them.
`GetDependents` returns for each module that it is given those from which it can be reached. -/
theorem units_and_dependents_exact {x : Externals} {files : Files} {idx : StorageIndex}
    (h : Reached x files idx) (fsys : FileSystem) : Acyclic idx.dependencies.members ∧
    (∀ defs id, idx.addDepsToCompilationUnit fsys idx.maxDepth defs id ≠ .error .importCycle) ∧
    (∀ id ∈ idx.modIDToFile, ∀ units, idx.getCompilationUnits fsys [id] = .ok units → ∃ p unit,
        units.lookup id = some unit ∧ unit.modID = id ∧ idx.loadPolicy fsys id = .ok p ∧
        idx.Loaded fsys unit.definitions ∧ ∀ m, m ∈ unit.definitions ↔
          ∃ root ∈ id :: p.ancestors, ReflTransGen idx.ImportEdge root m) ∧
    ∀ ids, ∀ id ∈ ids, ∃ dependents, (idx.getDependents ids).lookup id = some dependents ∧
      ∀ m, m ∈ dependents ↔ TransGen idx.ImportEdge m id := by
  have hacyclic := h.consistent.acyclic
  refine ⟨hacyclic, fun defs id herror => ?_, fun id hid units hunits => ?_,
    fun ids id hid => ⟨idx.transitiveDependents id, ?_, fun m => ?_⟩⟩
  · obtain ⟨m, hload⟩ := exists_load_error (depth_of_acyclic hacyclic id) herror
    unfold loadPolicy at hload
    grind
  · rw [getCompilationUnits_singleton hid] at hunits
    rcases @getCompilationUnit_cases fsys idx hacyclic id with
      ⟨p, unit, hp, hunit, hmod, hloaded, hmem⟩ | ⟨e, herror, -⟩
    · rw [hunit] at hunits
      cases hunits
      exact ⟨p, unit, lookup_insert _, hmod, hp, hloaded, hmem⟩
    · rw [herror] at hunits
      cases hunits
  · rw [lookup_getDependents, if_pos hid]
  · rw [h.consistent.mem_transitiveDependents_iff, h.consistent.importEdge_iff]

/-- In the office with a scope, the unit of the policy in the scope has its ancestor, the roles and
the constants. -/
theorem branch_units_exact : ∃ idx units unit p dependents,
      build Externals.sample branchFiles = .ok idx ∧
      idx.getCompilationUnits (Directory.fileSystem branchFiles) [(scopedDoc "eu").fqn] =
        .ok units ∧
      units.lookup (scopedDoc "eu").fqn = some unit ∧
      idx.loadPolicy (Directory.fileSystem branchFiles) (scopedDoc "eu").fqn = .ok p ∧
      unit.definitions.keys = [staffRoles.fqn, limits.fqn, docPolicy.fqn, (scopedDoc "eu").fqn] ∧
      (∀ m, m ∈ unit.definitions ↔ ∃ root ∈ (scopedDoc "eu").fqn :: p.ancestors,
        ReflTransGen idx.ImportEdge root m) ∧
      (idx.getDependents [limits.fqn]).lookup limits.fqn = some dependents ∧
      docPolicy.fqn ∈ dependents ∧ staffRoles.fqn ∈ dependents ∧
      ∀ m, m ∈ dependents ↔ TransGen idx.ImportEdge m limits.fqn := by
  obtain ⟨idx, h, heval⟩ := toOption_map_eq_some_iff.mp
    (show (build sample branchFiles).toOption.map (fun idx =>
      ((idx.getCompilationUnits (Directory.fileSystem branchFiles)
        [(scopedDoc "eu").fqn]).toOption.bind (fun units =>
          (units.lookup (scopedDoc "eu").fqn).map (fun unit => unit.definitions.keys)),
        (idx.getDependents [limits.fqn]).lookup limits.fqn,
        decide ((scopedDoc "eu").fqn ∈ idx.modIDToFile))) =
      some (some [staffRoles.fqn, limits.fqn, docPolicy.fqn, (scopedDoc "eu").fqn],
        some [docPolicy.fqn, staffRoles.fqn], true) by decide +kernel)
  obtain ⟨-, -, hunits, hdependents⟩ :=
    units_and_dependents_exact (.built h) (Directory.fileSystem branchFiles)
  obtain ⟨hkeys, heval⟩ := Prod.mk.inj heval
  obtain ⟨hlookup, hin⟩ := Prod.mk.inj heval
  obtain ⟨units, hok, hkeys⟩ := Option.bind_eq_some_iff.mp hkeys
  obtain ⟨unit, hunit, hkeys⟩ := Option.map_eq_some_iff.mp hkeys
  have hok := toOption_eq_some_iff.mp hok
  obtain ⟨p, unit', hunit', -, hp, -, hmem⟩ := hunits _ (of_decide_eq_true hin) units hok
  obtain rfl := Option.some.inj (hunit'.symm.trans hunit)
  obtain ⟨dependents, hlookup', hdep⟩ := hdependents [limits.fqn] _ (mem_singleton.mpr rfl)
  obtain rfl := Option.some.inj (hlookup'.symm.trans hlookup)
  exact ⟨idx, units, unit', p, _, h, hok, hunit, hp, hkeys, hmem, hlookup, mem_cons_self,
    mem_cons_of_mem _ mem_cons_self, hdep⟩

end AccessManagement.Storage
