/-
  AccessManagement.Storage.Units — WHAT THE STORAGE INDEX LOADS.

  A compilation unit is complete when the module, its ancestors, and whatever these import
  directly or through other imports can be read.  Imports of policies never go round in circles:
  what is imported is of a lower kind.  So assembling a unit ends, and it fails exactly when
  something in it cannot be read (`getCompilationUnit_ok_iff`).

  Two consequences are worth knowing:

    * `GetAll` and `Iter` pass over units that fail, WITHOUT AN ERROR.  A build that succeeds
      does not rule that out, because a role policy excuses a missing ancestor when building
      but not when loading.
    * the event of an update names the direct importers of a module.  A policy that draws on the
      module through derived roles is not among them.
-/
import AccessManagement.Storage.Consistency

namespace AccessManagement.Storage

open Lib Relation List AList Namer Externals StorageIndex
open IndexBuilder (isExecutable)

/-! ## §1. Imports do not go round in circles. -/

/-- A name that starts with the prefix of a kind is of that kind. -/
theorem kindFromFqn_start (rest : String) :
    kindFromFqn (resourcePoliciesPrefix ++ rest) = .resource ∧
      kindFromFqn (principalPoliciesPrefix ++ rest) = .principal ∧
      kindFromFqn (rolePoliciesPrefix ++ rest) = .rolePolicy ∧
      kindFromFqn (derivedRolesPrefix ++ rest) = .derivedRoles ∧
      kindFromFqn (exportConstantsPrefix ++ rest) = .exportConstants ∧
      kindFromFqn (exportVariablesPrefix ++ rest) = .exportVariables := by
  unfold kindFromFqn hasStart
  simp only [String.toList_append]
  exact ⟨rfl, rfl, rfl, rfl, rfl, rfl⟩

variable (name : String)

theorem kindFromFqn_derivedRoles : kindFromFqn (derivedRolesFqn name) = .derivedRoles := by
  rw [derivedRolesFqn, String.append_assoc]
  exact (kindFromFqn_start _).2.2.2.1

theorem kindFromFqn_exportConstants : kindFromFqn (exportConstantsFqn name) = .exportConstants := by
  rw [exportConstantsFqn, String.append_assoc]
  exact (kindFromFqn_start _).2.2.2.2.1

theorem kindFromFqn_exportVariables : kindFromFqn (exportVariablesFqn name) = .exportVariables := by
  rw [exportVariablesFqn, String.append_assoc]
  exact (kindFromFqn_start _).2.2.2.2.2

theorem kindFromFqn_policyFqn (name version scope : String) :
    kindFromFqn (policyFqn resourcePoliciesPrefix name version scope) = .resource ∧
      kindFromFqn (policyFqn principalPoliciesPrefix name version scope) = .principal ∧
      kindFromFqn (policyFqn rolePoliciesPrefix name version scope) = .rolePolicy := by
  have hstart := fun start => policyFqn_start start name version scope
  obtain ⟨r, hr⟩ := hstart resourcePoliciesPrefix
  obtain ⟨p, hp⟩ := hstart principalPoliciesPrefix
  obtain ⟨o, ho⟩ := hstart rolePoliciesPrefix
  rw [hr, hp, ho]
  exact ⟨(kindFromFqn_start r).1, (kindFromFqn_start p).2.1, (kindFromFqn_start o).2.2.1⟩

/-- **A name tells the kind of the policy.** -/
theorem kindFromFqn_fqn (p : Source.Policy) : kindFromFqn p.fqn = p.kind := by
  unfold Source.Policy.fqn Source.Policy.kind
  split
  · exact (kindFromFqn_policyFqn _ _ _).1
  · exact (kindFromFqn_policyFqn _ _ _).2.1
  · exact (kindFromFqn_policyFqn _ _ _).2.2
  · exact kindFromFqn_derivedRoles _
  · exact kindFromFqn_exportConstants _
  · exact kindFromFqn_exportVariables _

/-- Policies with rules import derived roles, and both import variables and constants. -/
def kindRank : Kind → Nat
  | .exportConstants => 0
  | .exportVariables => 0
  | .derivedRoles => 1
  | _ => 2

/-- What is imported is of a lower kind. -/
theorem kindRank_dependencies (p : Source.Policy) {d : String} (hd : d ∈ p.dependencies) :
    kindRank (kindFromFqn d) < kindRank p.kind := by
  rw [Source.Policy.dependencies, mem_append, mem_append] at hd
  have hexport : d ∈ p.declarations.2.imports.map exportConstantsFqn ∨
      d ∈ p.declarations.1.imports.map exportVariablesFqn →
      kindRank (kindFromFqn d) = 0 ∧ 0 < kindRank p.kind := by
    intro hd
    constructor
    · rcases hd with hd | hd
      · obtain ⟨name, -, rfl⟩ := mem_map.mp hd
        rw [kindFromFqn_exportConstants]
        rfl
      · obtain ⟨name, -, rfl⟩ := mem_map.mp hd
        rw [kindFromFqn_exportVariables]
        rfl
    · cases hp : p.policyType with
      | exportConstants | exportVariables => simp [Source.Policy.declarations, hp] at hd
      | _ => simp [Source.Policy.kind, hp, kindRank]
  rcases hd with (hd | hd) | hd
  · obtain ⟨name, hname, rfl⟩ := mem_map.mp hd
    rw [kindFromFqn_derivedRoles]
    cases hp : p.policyType with
    | resourcePolicy => simp [Source.Policy.kind, hp, kindRank]
    | _ => simp [Source.Policy.importDerivedRoles, hp] at hname
  · obtain ⟨hzero, hpos⟩ := hexport (.inl hd)
    omega
  · obtain ⟨hzero, hpos⟩ := hexport (.inr hd)
    omega

variable {files : Files} {idx : StorageIndex}

theorem Consistent.kindRank_lt (h : Consistent files idx) {c d : String}
    (hd : d ∈ idx.dependencies.members c) :
    kindRank (kindFromFqn d) < kindRank (kindFromFqn c) := by
  obtain ⟨file, p, hp, hd⟩ := (h.imports c d).mp hd
  rw [← hp.2, kindFromFqn_fqn]
  exact kindRank_dependencies p hd

theorem Consistent.acyclic (h : Consistent files idx) : Acyclic idx.dependencies.members :=
  @acyclic_of_rank _ _ (fun id => kindRank (kindFromFqn id)) fun _ _ => h.kindRank_lt

/-! ## §2. Adding imports to a unit. -/

namespace StorageIndex

/-- The file of the module is known and can be read. -/
def Loadable (fsys : FileSystem) (idx : StorageIndex) (id : String) : Prop :=
  ∃ p, idx.loadPolicy fsys id = .ok p

/-- A module imports another, directly. -/
abbrev ImportEdge (idx : StorageIndex) : String → String → Prop := Edge idx.dependencies.members

/-- All definitions are what the files say. -/
def Loaded (fsys : FileSystem) (idx : StorageIndex) (defs : Definitions) : Prop :=
  ∀ id p, defs.lookup id = some p → idx.loadPolicy fsys id = .ok p

/-- What a step of the assembly does: it adds the modules of `new` to the definitions, or one
of them cannot be loaded. -/
def Adds (fsys : FileSystem) (idx : StorageIndex) (defs : Definitions) (new : String → Prop)
    (result : Except IndexError Definitions) : Prop :=
  (∃ defs', result = .ok defs' ∧ idx.Loaded fsys defs' ∧ ∀ m, m ∈ defs' ↔ m ∈ defs ∨ new m) ∨
    (∃ e m, result = .error e ∧ new m ∧ ¬ idx.Loadable fsys m)

variable {fsys : FileSystem} {idx : StorageIndex} {defs : Definitions}
  {result : Except IndexError Definitions} {id : String} {dep : String}

theorem Loaded.insert (h : idx.Loaded fsys defs) {p : Source.Policy}
    (hp : idx.loadPolicy fsys id = .ok p) : idx.Loaded fsys (AList.insert id p defs) :=
  EntriesHold.insert h hp

theorem not_loadable {e : IndexError} (h : idx.loadPolicy fsys id = .error e) :
    ¬ idx.Loadable fsys id := by
  rintro ⟨p, hp⟩
  rw [h] at hp
  cases hp

theorem Adds.congr {new new' : String → Prop}
    (h : idx.Adds fsys defs new result) (hiff : ∀ m, new m ↔ new' m) :
    idx.Adds fsys defs new' result := by
  rcases h with ⟨defs', hok, hloaded, hmem⟩ | ⟨e, m, herror, hm, hnot⟩
  · exact .inl ⟨defs', hok, hloaded, fun m => (hmem m).trans (or_congr_right (hiff m))⟩
  · exact .inr ⟨e, m, herror, (hiff m).mp hm, hnot⟩

/-- A loop whose steps add the modules of `new` adds them all. -/
theorem adds_foldlM {step : Definitions → String → Except IndexError Definitions}
    {new : String → String → Prop} (as : List String) (defs : Definitions)
    (hstep : (∀ a ∈ as, ∀ defs, idx.Loaded fsys defs → idx.Adds fsys defs (new a) (step defs a)))
    (hloaded : idx.Loaded fsys defs) :
    idx.Adds fsys defs (fun m => ∃ a ∈ as, new a m) (as.foldlM step defs) := by
  induction as generalizing defs with
  | nil =>
    exact .inl ⟨defs, rfl, hloaded, by simp⟩
  | cons a as ih =>
    rw [foldlM_cons]
    rcases hstep a mem_cons_self defs hloaded with
      ⟨defs₁, hok, hloaded₁, hmem₁⟩ | ⟨e, m, herror, hm, hnot⟩
    · rw [hok]
      show idx.Adds fsys defs _ (as.foldlM step defs₁)
      rcases ih defs₁ (fun b hb => hstep b (mem_cons_of_mem a hb)) hloaded₁ with
        ⟨defs₂, hok₂, hloaded₂, hmem₂⟩ | ⟨e, m, herror, ⟨b, hb, hm⟩, hnot⟩
      · refine .inl ⟨defs₂, hok₂, hloaded₂, fun m => ?_⟩
        rw [hmem₂, hmem₁, or_assoc]
        exact or_congr_right (exists_mem_cons_iff (fun a => new a m) a as).symm
      · exact .inr ⟨e, m, herror, ⟨b, mem_cons_of_mem a hb, hm⟩, hnot⟩
    · rw [herror]
      exact .inr ⟨e, m, rfl, ⟨a, mem_cons_self, hm⟩, hnot⟩

/-- A module and what it imports, when the definitions `defs₁` are `defs` and the module. -/
theorem Adds.root {defs₁ : Definitions} (hmem₁ : ∀ m, m ∈ defs₁ ↔ m = dep ∨ m ∈ defs)
    (h : idx.Adds fsys defs₁ (TransGen idx.ImportEdge dep) result) :
    idx.Adds fsys defs (ReflTransGen idx.ImportEdge dep) result := by
  rcases h with ⟨defs', hok, hloaded', hmem⟩ | ⟨e, m, herror, hm, hnot⟩
  · refine .inl ⟨defs', hok, hloaded', fun m => ?_⟩
    rw [hmem, hmem₁, reflTransGen_iff_eq_or_transGen]
    tauto
  · exact .inr ⟨e, m, herror, hm.to_reflTransGen, hnot⟩

theorem adds_addImport {descend : Definitions → String → Except IndexError Definitions}
    (hloaded : idx.Loaded fsys defs) (hdescends : ∀ defs, idx.Loaded fsys defs →
      idx.Adds fsys defs (TransGen idx.ImportEdge dep) (descend defs dep)) :
    idx.Adds fsys defs (ReflTransGen idx.ImportEdge dep) (idx.addImport fsys descend defs dep) := by
  unfold addImport
  cases hdep : defs.lookup dep with
  | some =>
    -- the module is in the definitions already
    have hin : dep ∈ defs := lookup_isSome.mp (by rw [hdep]; rfl)
    refine Adds.root (fun m => ⟨.inr, ?_⟩) (hdescends defs hloaded)
    rintro (rfl | hm)
    · exact hin
    · exact hm
  | none =>
    cases hp : idx.loadPolicy fsys dep with
    | error e => exact .inr ⟨e, dep, rfl, .refl, not_loadable hp⟩
    | ok =>
      exact Adds.root (fun m => mem_insert defs) (hdescends _ (hloaded.insert hp))

/-- **The recursion adds everything that is imported**, when imports are no deeper than it
goes. -/
theorem adds_addDeps : ∀ (n : Nat) (id : String) (defs : Definitions),
    Depth idx.dependencies.members n id → idx.Loaded fsys defs →
    idx.Adds fsys defs (TransGen idx.ImportEdge id)
      (idx.addDepsToCompilationUnit fsys (n + 1) defs id) := by
  have hhead : ∀ id m, (∃ dep ∈ idx.dependencies.members id, ReflTransGen idx.ImportEdge dep m) ↔
      TransGen idx.ImportEdge id m := fun id m => (TransGen.head'_iff (r := idx.ImportEdge)).symm
  intro n
  induction n with
  | zero =>
    intro id defs hdepth hloaded
    refine Adds.congr ?_ (hhead id)
    refine adds_foldlM _ defs ?_ hloaded
    intro dep hdep
    rw [show idx.dependencies.members id = [] from hdepth] at hdep
    exact (not_mem_nil hdep).elim
  | succ n ih =>
    intro id defs hdepth hloaded
    refine Adds.congr ?_ (hhead id)
    refine adds_foldlM _ defs ?_ hloaded
    intro dep hdep defs hloaded
    exact adds_addImport hloaded (fun defs hloaded => ih dep defs (hdepth dep hdep) hloaded)

/-! ## §3. Assembling a unit. -/

variable (hacyclic : Acyclic idx.dependencies.members)

include hacyclic

/-- The bound of the recursion is enough. -/
theorem depth_of_acyclic (id : String) :
    Depth idx.dependencies.members idx.dependencies.keys.length id := by
  refine hacyclic.depth idx.dependencies.keys_nodup ?_ id
  intro c hc
  by_contra hnot
  have hnone : idx.dependencies.lookup c = none := lookup_eq_none.mpr hnot
  exact hc (by rw [SetMap.members, hnone]; rfl)

theorem adds_addAncestor (policyKey ancestor : String)
    (hloaded : idx.Loaded fsys defs) : idx.Adds fsys defs (ReflTransGen idx.ImportEdge ancestor)
      (idx.addAncestor fsys policyKey defs ancestor) := by
  unfold addAncestor
  cases hp : idx.loadPolicy fsys ancestor with
  | error => exact .inr ⟨_, ancestor, rfl, .refl, not_loadable hp⟩
  | ok =>
    dsimp only
    rcases Adds.root (fun m => mem_insert defs) (adds_addDeps _ ancestor _
      (depth_of_acyclic hacyclic ancestor) (hloaded.insert hp)) with
      ⟨defs', hok, hadds⟩ | ⟨e, m, herror, hm, hnot⟩
    · rw [maxDepth, hok]
      exact .inl ⟨defs', rfl, hadds⟩
    · rw [maxDepth, herror]
      exact .inr ⟨_, m, rfl, hm, hnot⟩

/-- What a unit consists of: the module, its ancestors, and what these import. -/
def InUnit (idx : StorageIndex) (id : String) (p : Source.Policy) (m : String) : Prop :=
  ∃ root ∈ id :: p.ancestors, ReflTransGen idx.ImportEdge root m

/-- **A unit is assembled from exactly what belongs to it**, or something of it cannot be
loaded. -/
theorem getCompilationUnit_cases (id : String) :
    (∃ p unit, idx.loadPolicy fsys id = .ok p ∧ idx.getCompilationUnit fsys id = .ok unit ∧
        unit.modID = id ∧ idx.Loaded fsys unit.definitions ∧
        ∀ m, m ∈ unit.definitions ↔ idx.InUnit id p m) ∨
      (∃ e, idx.getCompilationUnit fsys id = .error e ∧ ∀ p, idx.loadPolicy fsys id = .ok p →
        ∃ m, idx.InUnit id p m ∧ ¬ idx.Loadable fsys m) := by
  unfold getCompilationUnit
  cases hp : idx.loadPolicy fsys id with
  | error e =>
    refine .inr ⟨e, rfl, ?_⟩
    intro p hp'
    cases hp'
  | ok p =>
    dsimp only
    have hempty : idx.Loaded fsys ∅ := by intro id' q hq; cases hq
    rcases Adds.root (fun m => mem_insert ∅) (adds_addDeps _ id _
      (depth_of_acyclic hacyclic id) (hempty.insert hp)) with
      ⟨defs₁, hok₁, hloaded₁, hmem₁⟩ | ⟨e, m, herror, hm, hnot⟩
    · rw [maxDepth, hok₁]
      dsimp only
      rcases adds_foldlM p.ancestors defs₁ (fun a _ defs hloaded =>
        adds_addAncestor hacyclic (policyKeyFromFqn p.fqn) a hloaded) hloaded₁ with
        ⟨defs₂, hok₂, hloaded₂, hmem₂⟩ | ⟨e, m, herror, ⟨a, ha, hm⟩, hnot⟩
      · rw [hok₂]
        refine .inl ⟨p, _, rfl, rfl, rfl, hloaded₂, fun m => ?_⟩
        show m ∈ defs₂ ↔ _
        rw [hmem₂, hmem₁, InUnit, exists_mem_cons_iff]
        simp only [notMem_empty, false_or]
      · rw [herror]
        refine .inr ⟨e, rfl, ?_⟩
        rintro q hq
        obtain rfl := Except.ok.inj hq
        exact ⟨m, ⟨a, mem_cons_of_mem _ ha, hm⟩, hnot⟩
    · rw [maxDepth, herror]
      refine .inr ⟨_, rfl, ?_⟩
      intro q hq
      exact ⟨m, ⟨id, mem_cons_self, hm⟩, hnot⟩

/-- Everything that a unit consists of can be read. -/
def Available (fsys : FileSystem) (idx : StorageIndex) (id : String) : Prop :=
  ∃ p, idx.loadPolicy fsys id = .ok p ∧ ∀ m, idx.InUnit id p m → idx.Loadable fsys m

theorem getCompilationUnit_ok_iff (id : String) :
    (∃ unit, idx.getCompilationUnit fsys id = .ok unit ∧ unit.modID = id) ↔
      idx.Available fsys id := by
  rcases @getCompilationUnit_cases fsys idx hacyclic id with
    ⟨p, unit, hp, hunit, hid, hloaded, hmem⟩ | ⟨e, herror, hmissing⟩
  · refine ⟨fun _ => ⟨p, hp, ?_⟩, fun _ => ⟨unit, hunit, hid⟩⟩
    intro m hm
    obtain ⟨q, hq⟩ := Option.isSome_iff_exists.mp (lookup_isSome.mpr ((hmem m).mpr hm))
    exact ⟨q, hloaded m q hq⟩
  · constructor
    · rintro ⟨unit, hunit, -⟩
      rw [herror] at hunit
      cases hunit
    · rintro ⟨p, hp, hall⟩
      obtain ⟨m, hm, hnot⟩ := hmissing p hp
      exact (hnot (hall m hm)).elim

omit hacyclic

/-- **Units for many IDs**, when none of them fails. -/
theorem getCompilationUnits_ok (ids : List String)
    (hall : ∀ id ∈ idx.modIDToFile, ∃ unit, idx.getCompilationUnit fsys id = .ok unit) :
    ∃ units, idx.getCompilationUnits fsys ids = .ok units ∧ ∀ id unit, units.lookup id = some unit ↔
      id ∈ ids ∧ id ∈ idx.modIDToFile ∧ idx.getCompilationUnit fsys id = .ok unit := by
  induction ids using List.reverseRecOn with
  | nil => exact ⟨∅, rfl, by simp⟩
  | append_singleton _ id ih =>
    obtain ⟨units, hok, hunits⟩ := ih
    unfold getCompilationUnits at hok ⊢
    rw [foldlM_append]
    by_cases hid : id ∈ idx.modIDToFile
    · obtain ⟨unit, hunit⟩ := hall id hid
      obtain ⟨file, hfile⟩ := Option.isSome_iff_exists.mp (lookup_isSome.mpr hid)
      refine ⟨AList.insert id unit units, ?_, fun id' unit' => ?_⟩
      · refine bind_eq_ok.mpr ⟨units, hok, ?_⟩
        rw [foldlM_cons, hfile, hunit]
        rfl
      by_cases hsame : id' = id
      · subst hsame
        simp [hid, hunit]
      · simp [hunits, hsame]
    · refine ⟨units, ?_, fun id' unit' => ?_⟩
      · refine bind_eq_ok.mpr ⟨units, hok, ?_⟩
        rw [foldlM_cons, lookup_eq_none.mpr hid]
        rfl
      grind

theorem getCompilationUnits_singleton (hid : id ∈ idx.modIDToFile) :
    idx.getCompilationUnits fsys [id] =
      (idx.getCompilationUnit fsys id).map (fun unit => AList.insert id unit ∅) := by
  obtain ⟨file, hfile⟩ := Option.isSome_iff_exists.mp (lookup_isSome.mpr hid)
  unfold getCompilationUnits
  rw [foldlM_cons, hfile]
  cases idx.getCompilationUnit fsys id <;> rfl

/-! ## §4. Loading everything. -/

/-- What comes out are the units that can be assembled. -/
theorem mem_assembled_iff {unit : CompilationUnit} : unit ∈ idx.assembled fsys ↔
      ∃ id ∈ idx.toCompile, idx.getCompilationUnit fsys id = .ok unit := by
  unfold assembled
  rw [mem_filterMap]
  refine exists_congr (fun id => and_congr_right (fun hid => ?_))
  have hindexed : id ∈ idx.modIDToFile := (mem_filter.mp hid).1
  rw [getCompilationUnits_singleton hindexed]
  cases idx.getCompilationUnit fsys id with
  | error => constructor <;> (intro h; cases h)
  | ok u =>
    show AList.lookup id (AList.insert id u (∅ : AList (fun _ : String => CompilationUnit))) =
      some unit ↔ _
    rw [lookup_insert, Option.some.injEq, Except.ok.injEq]

theorem exists_assembled_iff (hacyclic : Acyclic idx.dependencies.members) :
    (∃ unit ∈ idx.assembled fsys, unit.modID = id) ↔
      id ∈ idx.toCompile ∧ idx.Available fsys id := by
  rw [← getCompilationUnit_ok_iff hacyclic]
  constructor
  · rintro ⟨unit, hunit, rfl⟩
    obtain ⟨id, hid, hok⟩ := mem_assembled_iff.mp hunit
    rcases @getCompilationUnit_cases fsys idx hacyclic id with
      ⟨_, unit', -, hok', hmod, -⟩ | ⟨e, herror, -⟩
    · obtain rfl := Except.ok.inj (hok'.symm.trans hok)
      rw [hmod]
      exact ⟨hid, unit', hok, hmod⟩
    · rw [hok] at herror
      cases herror
  · rintro ⟨hid, unit, hok, rfl⟩
    exact ⟨unit, mem_assembled_iff.mpr ⟨_, hid, hok⟩, rfl⟩

end StorageIndex

/-- There is a unit for every policy with rules. -/
def Covers (files : Files) (units : List CompilationUnit) : Prop :=
  ∀ file p, files.lookup file = some p → isExecutable p = true →
    ∃ unit ∈ units, unit.modID = p.fqn

theorem Consistent.covers_iff (h : Consistent files idx) (fsys : FileSystem) :
    Covers files (idx.assembled fsys) ↔
      ∀ file p, files.lookup file = some p → isExecutable p = true →
        idx.Available fsys p.fqn := by
  refine forall₂_congr (fun file p => forall₂_congr (fun hp hrules => ?_))
  rw [exists_assembled_iff h.acyclic]
  refine and_iff_right (mem_filter.mpr ⟨?_, ?_⟩)
  · have hfile := (h.inverse _ _).mp ((h.held _ _).mpr ⟨p, hp, rfl⟩)
    exact lookup_isSome.mp (by rw [hfile]; rfl)
  · rw [Bool.or_eq_true, contains_iff_mem]
    exact .inl (h.executable file p hp hrules)

/-- The units that `Iter` yields. -/
def yielded (results : List (Except String CompilationUnit)) : List CompilationUnit :=
  results.filterMap Except.toOption

/-- **When loading everything drops nothing.**  Under a context that is never cancelled, `GetAll`
returns no error and `Iter` yields none.  They produce a unit for every policy with rules exactly
when each of these, with its ancestors and all that they import, can be read. -/
theorem loads_everything_iff {x : Externals} (h : Reached x files idx) (fsys : FileSystem) :
    ((∀ units, idx.getAll fsys none = .ok units → Covers files units) ↔
        ∀ file p, files.lookup file = some p → isExecutable p = true →
          idx.Available fsys p.fqn) ∧ (((∀ result ∈ idx.iter fsys none, result.isOk = true) →
          Covers files (yielded (idx.iter fsys none))) ↔
        ∀ file p, files.lookup file = some p → isExecutable p = true →
          idx.Available fsys p.fqn) := by
  have hiter : idx.iter fsys none = (idx.assembled fsys).map .ok := by
    unfold StorageIndex.iter
    dsimp only
    split
    · exact append_nil _
    · exact append_nil _
  have hyields : yielded (idx.iter fsys none) = idx.assembled fsys := by
    rw [hiter, yielded, filterMap_map]
    exact filterMap_some
  have hquiet : ∀ result ∈ idx.iter fsys none, result.isOk = true := by
    rw [hiter]
    intro result hresult
    obtain ⟨unit, -, rfl⟩ := mem_map.mp hresult
    rfl
  rw [← h.consistent.covers_iff fsys, hyields]
  refine ⟨⟨fun hall => hall _ rfl, ?_⟩, ⟨fun hall => hall hquiet, fun hcovers _ => hcovers⟩⟩
  intro hcovers units hunits
  obtain rfl := Except.ok.inj hunits
  exact hcovers

/-- What can be read in a directory whose files do not change. -/
def Directory.fileSystem (dir : Directory) : FileSystem := fun file =>
  match dir.lookup file with
  | some (.policy p) => some [{ policy := p }]
  | some (.disabled p) => some [{ policy := p }]
  | some .noPolicy => some []
  | _ => none

/-- A resource policy, in a scope. -/
def scopedDoc (scope : String) : Source.Policy where
  policyType := .resourcePolicy {
    resource := "doc"
    version := "default"
    scope := scope
    rules := [] }

/-- A role policy with a rule for the resource. -/
def staffOf (scope : String) : Source.Policy where
  policyType := .rolePolicy {
    role := "staff"
    scope := scope
    rules := [{ resource := "doc", allowActions := ["view"] }] }

/-- Scopes with all policies, and with a gap that a role policy fills. -/
def fullFiles : Directory :=
  ((∅ : Directory).insert "doc.yaml" (.policy (scopedDoc ""))).insert "a.yaml"
    (.policy (scopedDoc "a"))

def gapFiles : Directory :=
  (((∅ : Directory).insert "doc.yaml" (.policy (scopedDoc ""))).insert "staff.yaml"
    (.policy (staffOf "a"))).insert "ab.yaml" (.policy (scopedDoc "a.b"))

/-- The office with a policy in a scope, whose ancestor is the policy without one. -/
def branchFiles : Directory := officeFiles.insert "eu.yaml" (.policy (scopedDoc "eu"))

theorem entries_branchFiles : (policiesIn branchFiles).entries =
    [⟨"limits.yaml", limits⟩, ⟨"staff.yaml", staffRoles⟩, ⟨"doc.yaml", docPolicy⟩,
      ⟨"eu.yaml", scopedDoc "eu"⟩] := rfl

/-- Everything in the office can be read, so that no policy with rules is left out. -/
theorem branch_loads_everything : ∃ idx, build Externals.sample branchFiles = .ok idx ∧
      (∀ file p, (policiesIn branchFiles).lookup file = some p → isExecutable p = true →
        idx.Available (Directory.fileSystem branchFiles) p.fqn) ∧
      ∀ units, idx.getAll (Directory.fileSystem branchFiles) none = .ok units →
        Covers (policiesIn branchFiles) units := by
  obtain ⟨idx, h, hunits⟩ := toOption_map_eq_some_iff.mp
    (show (build sample branchFiles).toOption.map (fun idx =>
      (policiesIn branchFiles).entries.all (fun e => !isExecutable e.2 ||
        (idx.assembled (Directory.fileSystem branchFiles)).any (fun unit =>
          unit.modID == e.2.fqn))) = some true by decide +kernel)
  have hcovers : ∀ units, idx.getAll (Directory.fileSystem branchFiles) none = .ok units →
      Covers (policiesIn branchFiles) units := by
    intro units hall file p hp hrules
    obtain rfl := Except.ok.inj hall
    have hunit := all_eq_true.mp hunits _ (mem_lookup_iff.mp hp)
    rw [hrules, Bool.not_true, Bool.false_or, any_eq_true] at hunit
    obtain ⟨unit, hmem, hid⟩ := hunit
    exact ⟨unit, hmem, eq_of_beq hid⟩
  exact ⟨idx, h, (loads_everything_iff (.built h) _).1.mp hcovers, hcovers⟩

/-- The build accepts the gap, and loading leaves out the policy below it. -/
theorem gap_policy_dropped : ∃ idx units, build Externals.sample gapFiles = .ok idx ∧
      idx.getAll (Directory.fileSystem gapFiles) none = .ok units ∧
      (policiesIn gapFiles).lookup "ab.yaml" = some (scopedDoc "a.b") ∧
      isExecutable (scopedDoc "a.b") = true ∧
      ∀ unit ∈ units, unit.modID ≠ (scopedDoc "a.b").fqn := by
  obtain ⟨idx, h, hunits⟩ := toOption_map_eq_some_iff.mp
    (show (build sample gapFiles).toOption.map (fun idx =>
      (idx.assembled (Directory.fileSystem gapFiles)).all (fun unit =>
        decide (unit.modID ≠ (scopedDoc "a.b").fqn))) = some true by decide +kernel)
  refine ⟨idx, idx.assembled _, h, rfl, rfl, rfl, ?_⟩
  intro unit hunit
  exact of_decide_eq_true (all_eq_true.mp hunits unit hunit)

/-! ## §5. Whom an event names. -/

/-- A policy imports a module, directly. -/
def ImportsModule (files : Files) (c d : String) : Prop :=
  ∃ file p, Defines files file c p ∧ d ∈ p.dependencies

theorem Consistent.importEdge_iff (h : Consistent files idx) :
    idx.ImportEdge = ImportsModule files := by
  funext c d
  exact propext (h.imports c d)

/-- A successful update or deletion of a module `m`, with its event. -/
inductive Change (files : Files) (idx : StorageIndex) (m : String) :
    StorageIndex.Event → Files → StorageIndex → Prop
  | update {event : StorageIndex.Event} {idx' : StorageIndex} (file : String) (p : Source.Policy)
      (hm : p.fqn = m) (hok : idx.addOrUpdate file (some p) = (.ok event, idx')) :
      Change files idx m event (files.insert file p) idx'
  | deletion (file : String) (hfile : idx.fileToModID.lookup file = some m) :
      Change files idx m (idx.delete file).1 (files.erase file) (idx.delete file).2

namespace Change

variable {files' : Files} {idx' : StorageIndex} {m : String} {event : StorageIndex.Event}

variable (hc : Change files idx m event files' idx')

include hc

theorem consistent (h : Consistent files idx) : Consistent files' idx' := by
  cases hc with
  | update _ _ _ hok => exact h.addOrUpdate hok
  | deletion file => exact h.delete file

theorem dependents_eq : event.dependents = idx'.dependents.members m := by
  cases hc with
  | update _ _ hm hok =>
    obtain ⟨-, -, rfl⟩ := addOrUpdate_ok hok
    rw [← hm]
  | deletion _ hfile =>
    unfold StorageIndex.delete
    rw [hfile]

/-- **An event names the policies that import the module directly.** -/
theorem mem_dependents_iff (h : Consistent files idx)
    {file : String} {q : Source.Policy} (hq : files'.lookup file = some q) :
    q.fqn ∈ event.dependents ↔ m ∈ q.dependencies := by
  have h' := hc.consistent h
  rw [hc.dependents_eq, h'.mirrored, h'.imports]
  constructor
  · rintro ⟨file', q', hq', hm⟩
    obtain rfl := h'.file_unique hq' ⟨hq, rfl⟩
    rw [← Option.some.inj (hq'.1.symm.trans hq)]
    exact hm
  · exact fun hm => ⟨file, q, ⟨hq, rfl⟩, hm⟩

end Change

/-- **When an event names everything that a change affects.**  For the policies that draw on the
changed module through a chain of imports of their own, and likewise for those that draw on it
through the imports of their ancestors too: all of them are named exactly when all of them import
the module directly. -/
theorem event_names_affected_iff {x : Externals} {files' : Files} {idx' : StorageIndex} {m : String}
    {event : StorageIndex.Event} (h : Reached x files idx)
    (hc : Change files idx m event files' idx') :
    ((∀ file q, files'.lookup file = some q → isExecutable q = true →
        TransGen (ImportsModule files') q.fqn m → q.fqn ∈ event.dependents) ↔
      ∀ file q, files'.lookup file = some q → isExecutable q = true →
        TransGen (ImportsModule files') q.fqn m → m ∈ q.dependencies) ∧
    ((∀ file q, files'.lookup file = some q → isExecutable q = true →
        (∃ root ∈ q.fqn :: q.ancestors, TransGen (ImportsModule files') root m) →
          q.fqn ∈ event.dependents) ↔
      ∀ file q, files'.lookup file = some q → isExecutable q = true →
        (∃ root ∈ q.fqn :: q.ancestors, TransGen (ImportsModule files') root m) →
          m ∈ q.dependencies) := by
  constructor <;>
    refine forall₂_congr (fun file q => forall₂_congr (fun hq _ => ?_)) <;>
    rw [hc.mem_dependents_iff h.consistent hq]

/-- A resource policy that draws on the constants through the derived roles only. -/
def memoPolicy : Source.Policy where
  policyType := .resourcePolicy {
    resource := "memo"
    version := "default"
    importDerivedRoles := ["staff"]
    rules := [] }

def memoFiles : Directory :=
  (((∅ : Directory).insert "limits.yaml" (.policy limits)).insert "staff.yaml"
    (.policy staffRoles)).insert "memo.yaml" (.policy memoPolicy)

/-- An update of a built index, by what its event names. -/
theorem exists_update {x : Externals} {dir : Directory} {file : String} {p : Source.Policy}
    {named : List String}
    (h : (build x dir).toOption.bind (fun idx => (idx.addOrUpdate file (some p)).1.toOption.map
      (fun event => event.dependents)) = some named) : ∃ idx event idx', build x dir = .ok idx ∧
      idx.addOrUpdate file (some p) = (.ok event, idx') ∧ event.dependents = named := by
  obtain ⟨idx, hbuild, hupd⟩ := Option.bind_eq_some_iff.mp h
  obtain ⟨event, hevent, hnamed⟩ := toOption_map_eq_some_iff.mp hupd
  exact ⟨idx, event, _, toOption_eq_some_iff.mp hbuild, Prod.ext hevent rfl, hnamed⟩

/-- In the office the policy with rules imports the constants itself, and the event names it. -/
theorem office_event_names_affected : ∃ idx event idx',
      build Externals.sample officeFiles = .ok idx ∧
      idx.addOrUpdate "limits.yaml" (some newLimits) = (.ok event, idx') ∧
      (∀ file q, ((policiesIn officeFiles).insert "limits.yaml" newLimits).lookup file = some q →
        isExecutable q = true → newLimits.fqn ∈ q.dependencies) ∧
      ∀ file q, ((policiesIn officeFiles).insert "limits.yaml" newLimits).lookup file = some q →
        isExecutable q = true → (∃ root ∈ q.fqn :: q.ancestors,
          TransGen (ImportsModule ((policiesIn officeFiles).insert "limits.yaml" newLimits))
            root newLimits.fqn) → q.fqn ∈ event.dependents := by
  have hnamed : (build sample officeFiles).toOption.bind (fun idx =>
      (idx.addOrUpdate "limits.yaml" (some newLimits)).1.toOption.map
        (fun event => event.dependents)) = some [staffRoles.fqn, docPolicy.fqn] := by
    decide +kernel
  obtain ⟨idx, event, idx', h, hupd, -⟩ := exists_update hnamed
  have hdirect : ((policiesIn officeFiles).insert "limits.yaml" newLimits).entries.all (fun e =>
      !isExecutable e.2 || e.2.dependencies.contains newLimits.fqn) = true := by decide +kernel
  have himports : ∀ file q,
      ((policiesIn officeFiles).insert "limits.yaml" newLimits).lookup file = some q →
        isExecutable q = true → newLimits.fqn ∈ q.dependencies := by
    intro file q hq hrules
    have hin := all_eq_true.mp hdirect _ (mem_lookup_iff.mp hq)
    rwa [hrules, Bool.not_true, Bool.false_or, contains_iff_mem] at hin
  refine ⟨idx, event, idx', h, hupd, himports, ?_⟩
  exact (event_names_affected_iff (.built h) (.update "limits.yaml" newLimits rfl hupd)).2.mpr
    (fun file q hq hrules _ => himports file q hq hrules)

/-- The constants change, the policy that draws on them through derived roles is not named. -/
theorem memo_not_named : ∃ idx event idx', build Externals.sample memoFiles = .ok idx ∧
      idx.addOrUpdate "limits.yaml" (some newLimits) = (.ok event, idx') ∧
      isExecutable memoPolicy = true ∧
      ImportsModule ((policiesIn memoFiles).insert "limits.yaml" newLimits)
        memoPolicy.fqn staffRoles.fqn ∧
      ImportsModule ((policiesIn memoFiles).insert "limits.yaml" newLimits)
        staffRoles.fqn newLimits.fqn ∧ memoPolicy.fqn ∉ event.dependents := by
  have hnamed : (build sample memoFiles).toOption.bind (fun idx =>
      (idx.addOrUpdate "limits.yaml" (some newLimits)).1.toOption.map
        (fun event => event.dependents)) = some [staffRoles.fqn] := by decide +kernel
  obtain ⟨idx, event, idx', h, hupd, hdependents⟩ := exists_update hnamed
  refine ⟨idx, event, idx', h, hupd, rfl, ?_, ?_, ?_⟩
  · exact ⟨"memo.yaml", memoPolicy, ⟨rfl, rfl⟩, mem_singleton.mpr rfl⟩
  · exact ⟨"staff.yaml", staffRoles, ⟨rfl, rfl⟩, mem_singleton.mpr rfl⟩
  · rw [hdependents]
    decide +kernel

end AccessManagement.Storage
