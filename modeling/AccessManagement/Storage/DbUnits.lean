/-
  AccessManagement.Storage.DbUnits — THE UNITS OF THE DATABASE STORE.

  The index follows imports as far as they go.  The database store has no recursive query: a unit
  is a union of six joins, the policies and two levels of imports, and the same of their ancestors.
  Two levels are all there are, because what is imported is of a lower kind.
-/
import AccessManagement.Storage.DbEvents
import AccessManagement.Storage.Rebuild

namespace AccessManagement.Storage.Db

open Lib Relation List AList StorageIndex

/-- The rows of `GetCompilationUnits`: the unit, a policy that belongs to it and its definition. -/
def Database.getCompilationUnits (db : Database) (ids : List String) :
    List (String × String × Source.Policy) :=
  ids.flatMap (fun id => (db.getCompilationUnit id).map (fun e => (id, e)))

/-- The database and the index have the same policies.  What these refer to is there, and the rows
of the database are what they refer to. -/
structure SamePolicies (dir : Directory) (db : Database) (idx : StorageIndex) : Prop where
  indexed : Consistent (policiesIn dir) idx
  stored : ∀ id p, db.Holds id p ↔ ∃ file, Defines (policiesIn dir) file id p
  dependencies : ∀ id d, (id, d) ∈ db.policyDependency ↔ ∃ p, db.Holds id p ∧ d ∈ p.dependencies
  ancestors : ∀ id a, (id, a) ∈ db.policyAncestor ↔ ∃ p, db.Holds id p ∧ a ∈ p.ancestors
  present : ∀ id p, db.Holds id p → ∀ d ∈ p.dependencies ++ p.ancestors, db.isEnabled d = true

variable {dir : Directory} {db : Database} {idx : StorageIndex} {id d : String}

/-- Imports go two levels deep. -/
theorem importEdges_iff {files : Files} (h : Consistent files idx) {root m : String} :
    ReflTransGen idx.ImportEdge root m ↔ m = root ∨ idx.ImportEdge root m ∨
      ∃ d, idx.ImportEdge root d ∧ idx.ImportEdge d m := by
  constructor
  · intro hpath
    rcases hpath.cases_head with rfl | ⟨a, ha, hpath⟩
    · exact .inl rfl
    rcases hpath.cases_head with rfl | ⟨b, hb, hpath⟩
    · exact .inr (.inl ha)
    rcases hpath.cases_head with rfl | ⟨c, hc, -⟩
    · exact .inr (.inr ⟨a, ha, hb⟩)
    -- a third level would be below the lowest kind
    have hroot : kindRank (kindFromFqn root) ≤ 2 := by
      cases kindFromFqn root <;> decide
    have hra := h.kindRank_lt ha
    have hrb := h.kindRank_lt hb
    have hrc := h.kindRank_lt hc
    omega
  · rintro (rfl | hm | ⟨d, hd, hm⟩)
    · exact .refl
    · exact .single hm
    · exact .head hd (.single hm)

theorem isEnabled_iff_holds : db.isEnabled id = true ↔ ∃ p, db.Holds id p := by
  simp [isEnabled_iff, Database.Holds]

namespace SamePolicies

variable (h : SamePolicies dir db idx)

include h

variable {p : Source.Policy}

theorem loaded_iff : idx.loadPolicy dir.fileSystem id = .ok p ↔ db.Holds id p :=
  h.indexed.loadPolicy_eq_ok.trans (h.stored id p).symm

theorem unique {p p' : Source.Policy} (hp : db.Holds id p) (hp' : db.Holds id p') : p = p' :=
  Except.ok.inj ((h.loaded_iff.mpr hp).symm.trans (h.loaded_iff.mpr hp'))

theorem importEdge_iff : idx.ImportEdge id d ↔ (id, d) ∈ db.policyDependency := by
  rw [h.indexed.importEdge_iff, h.dependencies]
  simp only [ImportsModule, h.stored]
  grind

/-- What a row leads to is enabled. -/
theorem enabled
    (hrow : (id, d) ∈ db.policyDependency ∨ (id, d) ∈ db.policyAncestor) : db.isEnabled d = true := by
  rcases hrow with hrow | hrow
  · obtain ⟨p, hp, hd⟩ := (h.dependencies id d).mp hrow
    exact h.present id p hp d (mem_append_left _ hd)
  · obtain ⟨p, hp, hd⟩ := (h.ancestors id d).mp hrow
    exact h.present id p hp d (mem_append_right _ hd)

variable {m : String}

/-- Two levels of joins are all imports. -/
theorem mem_withImports {roots : List String} :
    m ∈ db.withImports roots ↔ ∃ root ∈ roots, ReflTransGen idx.ImportEdge root m := by
  have henabled : ∀ c d, (c, d) ∈ db.policyDependency → db.isEnabled d = true :=
    fun c d hrow => h.enabled (.inl hrow)
  simp only [importEdges_iff h.indexed, h.importEdge_iff, Db.mem_withImports]
  grind

theorem enabled_of_inUnit
    (hp : db.Holds id p) (hm : idx.InUnit id p m) : db.isEnabled m = true := by
  obtain ⟨root, hroot, hpath⟩ := hm
  rcases hpath.cases_tail with rfl | ⟨c, -, hm⟩
  · rcases mem_cons.mp hroot with rfl | hroot
    · exact (holds_iff.mp hp).1
    · exact h.present id p hp _ (mem_append_right _ hroot)
  · exact h.enabled (.inl (h.importEdge_iff.mp hm))

/-- **The unit of the database**: the policy, its ancestors, and what these import. -/
theorem mem_getCompilationUnit {p q : Source.Policy} (hp : db.Holds id p) :
    (m, q) ∈ db.getCompilationUnit id ↔ idx.InUnit id p m ∧ db.Holds m q := by
  have hroots : ∀ root, root ∈ id :: db.join db.policyAncestor [id] ↔ root ∈ id :: p.ancestors := by
    intro root
    have hrow : (id, root) ∈ db.policyAncestor ↔ root ∈ p.ancestors := by
      rw [h.ancestors]
      exact ⟨fun ⟨p', hp', hroot⟩ => h.unique hp' hp ▸ hroot, fun hroot => ⟨p, hp, hroot⟩⟩
    have hon := fun hroot => h.enabled (.inr (hrow.mpr hroot))
    simp only [Database.join, mem_cons, mem_map, Prod.exists]
    grind
  have hunit : m ∈ db.withImports [id] ++ db.withImports (db.join db.policyAncestor [id]) ↔
      idx.InUnit id p m := by
    simp only [mem_append, h.mem_withImports, InUnit]
    grind
  have hon := h.enabled_of_inUnit (m := m) hp
  unfold Database.getCompilationUnit
  rw [if_pos (holds_iff.mp hp).1, mem_filterMap, holds_iff]
  simp only [Option.map_eq_some_iff]
  grind

theorem mem_modIDToFile : id ∈ idx.modIDToFile ↔ ∃ p, db.Holds id p := by
  simp only [h.stored]
  rw [← lookup_isSome, Option.isSome_iff_exists]
  simp only [← h.indexed.inverse, h.indexed.held]
  exact exists_comm

/-- **One unit.** -/
theorem getCompilationUnit_agrees (hid : id ∈ idx.modIDToFile) :
    ∃ unit, idx.getCompilationUnit dir.fileSystem id = .ok unit ∧ ∀ m q,
      unit.definitions.lookup m = some q ↔ (m, q) ∈ db.getCompilationUnit id := by
  obtain ⟨p, hp⟩ := h.mem_modIDToFile.mp hid
  rcases @getCompilationUnit_cases dir.fileSystem idx h.indexed.acyclic id with
    ⟨p', unit, hp', hunit, -, hload, hmem⟩ | ⟨e, -, hmiss⟩
  · obtain rfl := h.unique hp (h.loaded_iff.mp hp')
    refine ⟨unit, hunit, fun m q => ?_⟩
    rw [h.mem_getCompilationUnit hp, ← hmem, ← h.loaded_iff]
    constructor
    · intro hq
      exact ⟨lookup_isSome.mp (by rw [hq]; rfl), hload m q hq⟩
    · rintro ⟨hm, hq⟩
      obtain ⟨q', hq'⟩ := Option.isSome_iff_exists.mp (lookup_isSome.mpr hm)
      rw [hq', Except.ok.inj ((hload m q' hq').symm.trans hq)]
  · obtain ⟨m, hm, hnot⟩ := hmiss p (h.loaded_iff.mpr hp)
    obtain ⟨q, hq⟩ := isEnabled_iff_holds.mp (h.enabled_of_inUnit hp hm)
    exact absurd ⟨q, h.loaded_iff.mpr hq⟩ hnot

end SamePolicies

/-- **The two stores assemble the same units.** -/
theorem getCompilationUnits_agree (h : SamePolicies dir db idx) (ids : List String) :
    ∃ units, idx.getCompilationUnits dir.fileSystem ids = .ok units ∧ ∀ id m p,
      (∃ unit, units.lookup id = some unit ∧ unit.definitions.lookup m = some p) ↔
        (id, m, p) ∈ db.getCompilationUnits ids := by
  obtain ⟨units, hok, hunits⟩ := getCompilationUnits_ok ids
    (fun id hid => (h.getCompilationUnit_agrees hid).imp (fun _ => And.left))
  refine ⟨units, hok, fun id m p => ?_⟩
  have hrows : (id, m, p) ∈ db.getCompilationUnits ids ↔
      id ∈ ids ∧ (m, p) ∈ db.getCompilationUnit id := by
    simp [Database.getCompilationUnits]
  rw [hrows]
  by_cases hid : id ∈ idx.modIDToFile
  · obtain ⟨unit, hunit, hdefs⟩ := h.getCompilationUnit_agrees hid
    simp [hunits, hid, hunit, hdefs]
  · have hoff : ¬ db.isEnabled id = true := by rwa [isEnabled_iff_holds, ← h.mem_modIDToFile]
    simp [hunits, hid, Database.getCompilationUnit, hoff]

/-- The office with a scope, as rows: what is imported, and which policy stands above another. -/
def branchDatabase : Database where
  policy := AList.insert limits.fqn ⟨limits, false⟩ (AList.insert staffRoles.fqn ⟨staffRoles, false⟩
    (AList.insert docPolicy.fqn ⟨docPolicy, false⟩
      (AList.insert (scopedDoc "eu").fqn ⟨scopedDoc "eu", false⟩ ∅)))
  policyDependency := [(staffRoles.fqn, limits.fqn), (docPolicy.fqn, staffRoles.fqn),
    (docPolicy.fqn, limits.fqn)]
  policyAncestor := [((scopedDoc "eu").fqn, docPolicy.fqn)]

def branchPolicies : List Source.Policy := [limits, staffRoles, docPolicy, scopedDoc "eu"]

theorem holds_branch {p : Source.Policy} :
    branchDatabase.Holds id p ↔ p ∈ branchPolicies ∧ p.fqn = id := by
  have hentries : branchDatabase.policy.entries = branchPolicies.map (fun p => ⟨p.fqn, ⟨p, false⟩⟩) :=
    rfl
  have hrow : ∀ row, branchDatabase.policy.lookup id = some row ↔
      ∃ q ∈ branchPolicies, (⟨q.fqn, ⟨q, false⟩⟩ : Sigma fun _ : String => PolicyRow) = ⟨id, row⟩ := by
    intro row
    rw [← Option.mem_def, mem_lookup_iff, hentries, mem_map]
  unfold Database.Holds
  constructor
  · rintro ⟨row, hlookup, -, rfl⟩
    obtain ⟨q, hq, heq⟩ := (hrow row).mp hlookup
    cases heq
    exact ⟨hq, rfl⟩
  · rintro ⟨hp, rfl⟩
    exact ⟨⟨p, false⟩, (hrow _).mpr ⟨p, hp, rfl⟩, rfl, rfl⟩

theorem defines_branch {p : Source.Policy} :
    (∃ file, Defines (policiesIn branchFiles) file id p) ↔ p ∈ branchPolicies ∧ p.fqn = id := by
  unfold Defines
  rw [exists_and_right]
  refine and_congr_left (fun _ => ?_)
  simp only [← Option.mem_def, mem_lookup_iff, entries_branchFiles, branchPolicies]
  simp [exists_or]

theorem samePolicies_branch (h : Consistent (policiesIn branchFiles) idx) :
    SamePolicies branchFiles branchDatabase idx := by
  refine ⟨h, fun id p => by rw [holds_branch, defines_branch], fun id d => ?_, fun id a => ?_,
    fun id p hp => ?_⟩
  · have hrows : branchDatabase.policyDependency =
        branchPolicies.flatMap (fun p => p.dependencies.map (fun d => (p.fqn, d))) := by
      decide +kernel
    simp only [holds_branch, hrows, mem_flatMap, mem_map, Prod.mk.injEq]
    grind
  · have hrows : branchDatabase.policyAncestor =
        branchPolicies.flatMap (fun p => p.ancestors.map (fun a => (p.fqn, a))) := by
      decide +kernel
    simp only [holds_branch, hrows, mem_flatMap, mem_map, Prod.mk.injEq]
    grind
  · have henabled : ∀ p ∈ branchPolicies, ∀ d ∈ p.dependencies ++ p.ancestors,
        branchDatabase.isEnabled d = true := by decide +kernel
    exact henabled p (holds_branch.mp hp).1

/-- The unit of the policy in the scope has four definitions in both stores. -/
theorem getCompilationUnits_agree_branch : ∃ idx, build Externals.sample branchFiles = .ok idx ∧
    (∀ p ∈ branchPolicies, p.fqn ∈
      (branchDatabase.getCompilationUnits [(scopedDoc "eu").fqn]).map (fun r => r.2.1)) ∧
    ∃ units, idx.getCompilationUnits branchFiles.fileSystem [(scopedDoc "eu").fqn] = .ok units ∧
      ∀ id m p,
        (∃ unit, units.lookup id = some unit ∧ unit.definitions.lookup m = some p) ↔
          (id, m, p) ∈ branchDatabase.getCompilationUnits [(scopedDoc "eu").fqn] := by
  obtain ⟨idx, h⟩ := isOk_iff.mp
    (show (build Externals.sample branchFiles).isOk = true by decide +kernel)
  exact ⟨idx, h, by decide +kernel,
    getCompilationUnits_agree (samePolicies_branch (Reached.built h).consistent) _⟩

end AccessManagement.Storage.Db
