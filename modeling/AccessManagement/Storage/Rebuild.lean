/-
  AccessManagement.Storage.Rebuild — AN INDEX THAT GREW AGAINST AN INDEX THAT WAS BUILT.

  The same files can get into an index in two ways: in one walk, or one at a time from nothing,
  through any updates and deletions that end in these files.  Both ways give the same maps
  (`Consistent` fixes what they relate), but not the same set `executables`: the builder puts in
  the policies that carry rules, `AddOrUpdate` every policy but derived roles.  An export of
  constants or variables counts as executable after an update and not after a build.

  Executable modules are enumerated whether they are imported or not, the others when nothing
  imports them, so the two indexes differ on the exports that somebody imports.

  Main results:
    * `Consistent.loadPolicy_eq`, `Consistent.available_iff` — what a unit is assembled from only
      depends on the files.
    * `grown_enumerates_as_built_iff` — when the two enumerate the same units.
-/
import AccessManagement.Storage.Units

namespace AccessManagement.Storage

open Lib Relation List AList StorageIndex Source.Policy

variable {files : Files} {idx : StorageIndex}

/-! ## §1. The two ways. -/

/-- An index that grew from nothing, with the policies it was given last. -/
abbrev Grown : Files → StorageIndex → Prop :=
  UpdatedFrom (fun files idx => files = ∅ ∧ idx = StorageIndex.empty)

theorem Grown.empty : Grown ∅ StorageIndex.empty := .start ⟨rfl, rfl⟩

variable {dir : Directory} {p : Source.Policy} {file : String}

theorem Grown.consistent (h : Grown files idx) : Consistent files idx := by
  refine UpdatedFrom.consistent (fun _ _ hstart => ?_) h
  obtain ⟨rfl, rfl⟩ := hstart
  exact Consistent.empty

/-! ## §2. What is executable. -/

/-- The set `executables` holds the policies that `counts` accepts, and nothing else. -/
def ExecutableAre (counts : Source.Policy → Prop) (files : Files) (idx : StorageIndex) : Prop :=
  ∀ id, id ∈ idx.executables ↔ ∃ file p, Defines files file id p ∧ counts p

namespace ExecutableAre

variable {counts : Source.Policy → Prop}

theorem empty : ExecutableAre counts ∅ StorageIndex.empty := by
  intro id
  constructor
  · intro h; cases h
  · rintro ⟨file, p, ⟨h, -⟩, -⟩; cases h

variable (h : ExecutableAre counts files idx)

include h

/-- Taking in a new file, whose policy goes into the set if it counts. -/
theorem withFile {file : String} (hfile : files.lookup file = none) {executables : List String}
    (hset : ∀ id, id ∈ executables ↔ id ∈ idx.executables ∨ (id = p.fqn ∧ counts p)) :
    ExecutableAre counts (files.insert file p) (idx.withFile file p executables) := by
  intro id
  unfold StorageIndex.withFile
  rw [(addDeps_fields p.fqn p.dependencies _).2.2.1]
  simp only [Consistent.defines_insert hfile]
  show id ∈ executables ↔ _
  rw [hset, h id]
  constructor
  · rintro (⟨file', q, hq, hcounts⟩ | ⟨rfl, hcounts⟩)
    · exact ⟨file', q, .inr hq, hcounts⟩
    · exact ⟨file, p, .inl ⟨rfl, rfl, rfl⟩, hcounts⟩
  · rintro ⟨file', q, ⟨-, rfl, rfl⟩ | hq, hcounts⟩
    · exact .inr ⟨rfl, hcounts⟩
    · exact .inl ⟨file', q, hq, hcounts⟩

/-- Forgetting a file takes its module out of the set. -/
theorem forget (hc : Consistent files idx) {file old : String}
    (hfile : idx.fileToModID.lookup file = some old) {idx' : StorageIndex}
    (hset : idx'.executables = idx.executables.filter (· ≠ old)) :
    ExecutableAre counts (files.erase file) idx' := by
  obtain ⟨p, hp⟩ := (hc.held _ _).mp hfile
  intro id
  simp only [Consistent.defines_erase]
  rw [hset, mem_filter, h id, decide_eq_true_iff]
  constructor
  · rintro ⟨⟨file', q, hq, hcounts⟩, hne⟩
    refine ⟨file', q, ⟨?_, hq⟩, hcounts⟩
    -- the file holds one policy, and that is the old one
    rintro rfl
    exact hne (by rw [← hq.2, ← hp.2, Option.some.inj (hq.1.symm.trans hp.1)])
  · rintro ⟨file', q, ⟨hne, hq⟩, hcounts⟩
    refine ⟨⟨file', q, hq, hcounts⟩, ?_⟩
    rintro rfl
    exact hne (hc.file_unique hq hp)

theorem congr {files' : Files} (hfiles : ∀ file, files'.lookup file = files.lookup file) :
    ExecutableAre counts files' idx := by
  intro id
  rw [h id]
  simp only [Defines, hfiles]

theorem clearFile (hc : Consistent files idx)
    (file : String) : ExecutableAre counts (files.erase file) (idx.clearFile file) := by
  unfold StorageIndex.clearFile
  split
  · next hfile => exact h.congr (hc.erase_unknown hfile)
  · next old hfile => exact h.forget hc hfile rfl

theorem delete (hc : Consistent files idx) (file : String) :
    ExecutableAre counts (files.erase file) (idx.delete file).2 := by
  unfold StorageIndex.delete
  split
  · next hfile => exact h.congr (hc.erase_unknown hfile)
  · next old hfile => exact h.forget hc hfile rfl

end ExecutableAre

/-- **After updates everything but derived roles is executable.** -/
theorem Grown.executables (h : Grown files idx) :
    ExecutableAre (fun p => p.kind ≠ .derivedRoles) files idx := by
  induction h with
  | start hstart =>
    obtain ⟨rfl, rfl⟩ := hstart
    exact ExecutableAre.empty
  | @updated files idx idx' event h file p hok ih =>
    obtain ⟨-, rfl, -⟩ := addOrUpdate_ok hok
    refine (ExecutableAre.withFile (ih.clearFile (Grown.consistent h) file) (lookup_erase _ _)
      ?_).congr (Consistent.lookup_insert_erase files file p)
    intro id
    split
    · next hkind => simp [hkind]
    · next hkind => rw [mem_insert_iff]; simp [hkind, or_comm]
  | refused _ _ _ herror ih =>
    rw [addOrUpdate_error herror]
    exact ih
  | deleted h file ih => exact ih.delete (Grown.consistent h) file

/-- **After a build the policies with rules are executable.** -/
theorem executables_of_build {x : Externals} (h : build x dir = .ok idx) :
    ExecutableAre (fun p => IndexBuilder.isExecutable p = true) (policiesIn dir) idx := by
  refine IndexBuilder.holds_build x ?_ ExecutableAre.empty h
  intro files idx file p hfile _ hbefore
  refine hbefore.withFile hfile ?_
  intro id
  split
  · next hrules => rw [mem_insert_iff]; simp [hrules, or_comm]
  · next hrules => simp [hrules]

/-! ## §3. What a unit is assembled from. -/

section SameFiles

variable {files files' : Files} {idx idx' : StorageIndex}
  (hfiles : ∀ file, files'.lookup file = files.lookup file)

include hfiles

theorem defines_congr {file id : String} : Defines files' file id p ↔ Defines files file id p := by
  unfold Defines
  rw [hfiles]

theorem importsModule_congr : ImportsModule files' = ImportsModule files := by
  funext c d
  unfold ImportsModule
  simp only [defines_congr hfiles]

variable (h : Consistent files idx) (h' : Consistent files' idx')

include h h'

/-- Two indexes of the same files find a module in the same file. -/
theorem Consistent.modIDToFile_eq (id : String) :
    idx'.modIDToFile.lookup id = idx.modIDToFile.lookup id := by
  refine Option.ext (fun file => ?_)
  rw [← h'.inverse, ← h.inverse, h'.held, h.held]
  simp only [defines_congr hfiles]

variable (fsys : FileSystem) (id : String)

theorem Consistent.loadPolicy_eq : idx'.loadPolicy fsys id = idx.loadPolicy fsys id := by
  unfold loadPolicy
  rw [h.modIDToFile_eq hfiles h']

theorem Consistent.available_iff : idx'.Available fsys id ↔ idx.Available fsys id := by
  unfold StorageIndex.Available StorageIndex.InUnit StorageIndex.Loadable
  rw [h'.importEdge_iff, h.importEdge_iff, importsModule_congr hfiles]
  simp only [h.loadPolicy_eq hfiles h']

end SameFiles

/-! ## §4. What is enumerated. -/

/-- The IDs that come out of `GetAllCompilationUnits`. -/
def unitIDs (fsys : FileSystem) (idx : StorageIndex) : List String :=
  (idx.getAllCompilationUnitsWithCount fsys none).2.map (fun unit => unit.modID)

theorem Consistent.mem_unitIDs_iff (h : Consistent files idx)
    {counts : Source.Policy → Prop} (hexecutable : ExecutableAre counts files idx)
    {fsys : FileSystem} {id : String} : id ∈ unitIDs fsys idx ↔
      (∃ file p, Defines files file id p ∧ (counts p ∨ ∀ c, ¬ ImportsModule files c id)) ∧
        idx.Available fsys id := by
  have htoCompile : id ∈ idx.toCompile ↔
      ∃ file p, Defines files file id p ∧ (counts p ∨ ∀ c, ¬ ImportsModule files c id) := by
    have hindexed : id ∈ idx.modIDToFile ↔ ∃ file p, Defines files file id p := by
      rw [← lookup_isSome, Option.isSome_iff_exists]
      exact exists_congr (fun file => by rw [← h.inverse, h.held])
    have hunused : (idx.dependents.members id).isEmpty = true ↔ ∀ c, ¬ ImportsModule files c id := by
      rw [List.isEmpty_iff, List.eq_nil_iff_forall_not_mem]
      exact forall_congr' (fun c => not_congr ((h.mirrored c id).trans (h.imports c id)))
    unfold toCompile
    rw [mem_filter, Bool.or_eq_true, contains_iff_mem, hexecutable id, hunused, ← AList.mem_keys,
      hindexed]
    constructor
    · rintro ⟨⟨file, p, hp⟩, ⟨file', q, hq, hcounts⟩ | hnone⟩
      · exact ⟨file', q, hq, .inl hcounts⟩
      · exact ⟨file, p, hp, .inr hnone⟩
    · rintro ⟨file, p, hp, hcounts | hnone⟩
      · exact ⟨⟨file, p, hp⟩, .inl ⟨file, p, hp, hcounts⟩⟩
      · exact ⟨⟨file, p, hp⟩, .inr hnone⟩
  rw [← htoCompile, ← exists_assembled_iff h.acyclic]
  exact mem_map

/-- The policies of a directory are what its files hold. -/
theorem lookup_policiesIn_iff :
    (policiesIn dir).lookup file = some p ↔ dir.lookup file = some (.policy p) := by
  -- the files are taken in from the left, so the last one is peeled off
  have hfold : ∀ es : List (Sigma fun _ : String => FileContent), (es.map Sigma.fst).Nodup →
      ((es.foldl (fun files e => e.2.record files e.1) (∅ : Files)).lookup file = some p ↔
        ⟨file, .policy p⟩ ∈ es) := by
    intro es hnodup
    induction es using List.reverseRecOn with
    | nil => simp
    | append_singleton es e ih =>
      rw [map_append, nodup_append] at hnodup
      have hnew : ∀ e' ∈ es, e'.1 ≠ e.1 := fun e' he' =>
        hnodup.2.2 _ (mem_map_of_mem he') _ (mem_singleton_self _)
      have hes := ih hnodup.1
      rw [foldl_append, mem_append, mem_singleton, ← hes]
      obtain ⟨file', content⟩ := e
      cases content with
      | policy q =>
        refine (Eq.congr_left (lookup_insert_ite _ file' file q)).trans ?_
        grind
      | _ => simp [FileContent.record]
  rw [policiesIn, hfold dir.entries dir.nodupKeys]
  exact mem_lookup_iff.symm

/-- An export: it carries no rules, and it is not derived roles. -/
def IsExport (p : Source.Policy) : Prop := p.kind = .exportConstants ∨ p.kind = .exportVariables

theorem isExport_iff :
    IsExport p ↔ p.kind ≠ .derivedRoles ∧ ¬ IndexBuilder.isExecutable p = true := by
  unfold IsExport IndexBuilder.isExecutable
  cases hp : p.policyType with
  | resourcePolicy => simp [kind, hp]
  | principalPolicy => simp [kind, hp]
  | rolePolicy | derivedRoles | exportConstants | exportVariables => simp [kind, hp]

/-- What is read of a directory that has not changed since. -/
theorem Consistent.loadPolicy_eq_ok (h : Consistent (policiesIn dir) idx) {id : String} :
    idx.loadPolicy dir.fileSystem id = .ok p ↔ ∃ file, Defines (policiesIn dir) file id p := by
  have hload : ∀ file q, Defines (policiesIn dir) file id q →
      idx.loadPolicy dir.fileSystem id = .ok q := by
    rintro file q ⟨hq, rfl⟩
    unfold loadPolicy Directory.fileSystem
    rw [(h.inverse file q.fqn).mp ((h.held _ _).mpr ⟨q, hq, rfl⟩)]
    dsimp only
    rw [lookup_policiesIn_iff.mp hq]
    simp
  refine ⟨fun hok => ?_, fun ⟨file, hp⟩ => hload file p hp⟩
  cases hfile : idx.modIDToFile.lookup id with
  | none =>
    rw [loadPolicy, hfile] at hok
    cases hok
  | some file =>
    obtain ⟨q, hq⟩ := (h.held file id).mp ((h.inverse file id).mpr hfile)
    exact ⟨file, Except.ok.inj ((hload file q hq).symm.trans hok) ▸ hq⟩

/-- The unit of an export is the export alone, so it can be assembled. -/
theorem available_of_isExport (h : Consistent (policiesIn dir) idx)
    (hp : (policiesIn dir).lookup file = some p) (hexport : IsExport p) :
    idx.Available dir.fileSystem p.fqn := by
  have hload : idx.loadPolicy dir.fileSystem p.fqn = .ok p :=
    h.loadPolicy_eq_ok.mpr ⟨file, hp, rfl⟩
  have hrank : kindRank p.kind = 0 := by
    rcases hexport with hkind | hkind
    · rw [hkind]; rfl
    · rw [hkind]; rfl
  have hancestors : p.ancestors = [] := by
    unfold ancestors fqnTree
    cases hp : p.policyType with
    | resourcePolicy | principalPolicy => simp [IsExport, kind, hp] at hexport
    | _ => rfl
  refine ⟨p, hload, ?_⟩
  rintro m ⟨root, hroot, hpath⟩
  rw [hancestors, mem_singleton] at hroot
  subst hroot
  rcases hpath.cases_head with rfl | ⟨d, hd, -⟩
  · exact ⟨p, hload⟩
  · -- an export imports nothing
    obtain ⟨file', q, hq, hdep⟩ := (h.imports _ _).mp hd
    have hlow := kindRank_dependencies q hdep
    rw [← kindFromFqn_fqn q, hq.2, kindFromFqn_fqn] at hlow
    omega

/-- **When updating equals rebuilding.**  An index that was built from files and an index that
grew to the same files enumerate the same compilation units, exactly when none of the files is
an export that a policy of the files imports. -/
theorem grown_enumerates_as_built_iff {x : Externals} {dir : Directory} {files : Files}
    {idx idx' : StorageIndex} (hbuilt : build x dir = .ok idx) (hgrown : Grown files idx')
    (hfiles : ∀ file, files.lookup file = (policiesIn dir).lookup file) :
    (∀ id, id ∈ unitIDs dir.fileSystem idx' ↔ id ∈ unitIDs dir.fileSystem idx) ↔
      ∀ file p, (policiesIn dir).lookup file = some p → IsExport p →
        ∀ c, ¬ ImportsModule (policiesIn dir) c p.fqn := by
  have hc := Consistent.build hbuilt
  have hc' := hgrown.consistent
  have hmem := fun id =>
    @Consistent.mem_unitIDs_iff _ _ hc _ (executables_of_build hbuilt) dir.fileSystem id
  have hmem' := fun id =>
    @Consistent.mem_unitIDs_iff _ _ hc' _ hgrown.executables dir.fileSystem id
  simp only [defines_congr hfiles, importsModule_congr hfiles,
    hc.available_iff hfiles hc' dir.fileSystem] at hmem'
  constructor
  · intro hsame file p hp hexport c himp
    have havailable := available_of_isExport hc hp hexport
    have hin := (hmem' p.fqn).mpr
      ⟨⟨file, p, ⟨hp, rfl⟩, .inl (isExport_iff.mp hexport).1⟩, havailable⟩
    obtain ⟨⟨file', q, hq, hrules | hunused⟩, -⟩ := (hmem p.fqn).mp ((hsame p.fqn).mp hin)
    · obtain rfl := hc.file_unique hq ⟨hp, rfl⟩
      obtain rfl := Option.some.inj (hq.1.symm.trans hp)
      exact (isExport_iff.mp hexport).2 hrules
    · exact hunused c himp
  · intro hnone id
    rw [hmem, hmem']
    refine and_congr_left (fun _ => exists₂_congr (fun file p => and_congr_right (fun hp => ?_)))
    constructor
    · rintro (hkind | hunused)
      · by_cases hrules : IndexBuilder.isExecutable p = true
        · exact .inl hrules
        · refine .inr ?_
          rw [← hp.2]
          exact hnone file p hp.1 (isExport_iff.mpr ⟨hkind, hrules⟩)
      · exact .inr hunused
    · rintro (hrules | hunused)
      · refine .inl ?_
        intro hkind
        rw [IndexBuilder.isExecutable, hkind] at hrules
        cases hrules
      · exact .inr hunused

/-! ## §5. Two directories. -/

theorem Grown.update (h : Grown files idx) (file : String)
    (p : Source.Policy) (hok : (idx.addOrUpdate file (some p)).1.isOk = true) :
    Grown (files.insert file p) (idx.addOrUpdate file (some p)).2 := by
  cases hresult : idx.addOrUpdate file _ with
  | mk result =>
    rw [hresult] at hok
    cases result with
    | error => cases hok
    | ok => exact h.updated file p hresult

/-- The index that the files grew into: one of them held another policy for a while. -/
def grownFull : StorageIndex :=
  (((StorageIndex.empty.addOrUpdate "doc.yaml" (some limits)).2.addOrUpdate "a.yaml"
    (some (scopedDoc "a"))).2.addOrUpdate "doc.yaml" (some (scopedDoc ""))).2

theorem full_scopes_enumerated_alike :
    ∃ idx, build Externals.sample fullFiles = .ok idx ∧ Grown (policiesIn fullFiles) grownFull ∧
      ∀ id, id ∈ unitIDs (Directory.fileSystem fullFiles) grownFull ↔
        id ∈ unitIDs (Directory.fileSystem fullFiles) idx := by
  have hgrown : Grown (policiesIn fullFiles) grownFull :=
    ((Grown.empty.update "doc.yaml" limits (by decide +kernel)).update "a.yaml" (scopedDoc "a")
      (by decide +kernel)).update "doc.yaml" (scopedDoc "") (by decide +kernel)
  obtain ⟨idx, h⟩ := isOk_iff.mp
    (show (build Externals.sample fullFiles).isOk = true by decide +kernel)
  refine ⟨idx, h, hgrown, (grown_enumerates_as_built_iff h hgrown (fun _ => rfl)).mpr ?_⟩
  -- there are no exports in these files
  have hnone : (policiesIn fullFiles).entries.all (fun e =>
      IndexBuilder.isExecutable e.2) = true := by decide +kernel
  intro file p hp hexport
  have hmem := mem_lookup_iff.mp hp
  exact ((isExport_iff.mp hexport).2 (all_eq_true.mp hnone _ hmem)).elim

/-- The index that the office grew into. -/
def grownOffice : StorageIndex :=
  (((StorageIndex.empty.addOrUpdate "doc.yaml" (some docPolicy)).2.addOrUpdate "staff.yaml"
    (some staffRoles)).2.addOrUpdate "limits.yaml" (some limits)).2

/-- The constants are imported.  After updates they have a unit of their own, after a build they
do not. -/
theorem imported_export_enumerated : ∃ idx, build Externals.sample officeFiles = .ok idx ∧
      Grown (policiesIn officeFiles) grownOffice ∧
      limits.fqn ∈ unitIDs (Directory.fileSystem officeFiles) grownOffice ∧
      limits.fqn ∉ unitIDs (Directory.fileSystem officeFiles) idx := by
  have hgrown : Grown (policiesIn officeFiles) grownOffice :=
    ((Grown.empty.update "doc.yaml" docPolicy (by decide +kernel)).update "staff.yaml" staffRoles
      (by decide +kernel)).update "limits.yaml" limits (by decide +kernel)
  obtain ⟨idx, h, hnot⟩ := toOption_map_eq_some_iff.mp
    (show (build Externals.sample officeFiles).toOption.map (fun idx =>
      (unitIDs (Directory.fileSystem officeFiles) idx).contains limits.fqn) = some false by
    decide +kernel)
  refine ⟨idx, h, hgrown, by decide +kernel, ?_⟩
  rw [← contains_iff_mem, hnot]
  exact Bool.false_ne_true

end AccessManagement.Storage
