/-
  AccessManagement.Storage.Consistency — THE MAPS OF THE STORAGE INDEX AGREE.

  Beside an index we carry what it is an index OF: `Files`, the policy that each file held when
  it was last taken in.  `Consistent files idx` says that the five maps are readings of that one
  map.  It holds of a built index and through every update, so of every index that is `Reached`.

  An update takes two steps, forgetting the old content of a file and taking in the new one.
  `AddOrUpdate` and `Delete` forget in slightly different ways (a set that becomes empty stays or
  goes), which `SetMap.members` does not see.
-/
import AccessManagement.Storage.Builder

namespace AccessManagement.Storage

open Lib List AList StorageIndex

variable {files : Files} {idx : StorageIndex} {x : Externals}

/-! ## §1. What an index is an index of. -/

/-- The policy of each file that is in the index. -/
abbrev Files := AList (fun _ : String => Source.Policy)

namespace FileContent

/-- A file with a policy that is not disabled. -/
def record (files : Files) (file : String) : FileContent → Files
  | .policy p => files.insert file p
  | _ => files

end FileContent

/-- The policies in a directory. -/
def policiesIn (dir : Directory) : Files :=
  dir.entries.foldl (fun files e => e.2.record files e.1) ∅

/-- An index that was updated from a start, with the policies it was given last. -/
inductive UpdatedFrom (start : Files → StorageIndex → Prop) : Files → StorageIndex → Prop
  | start {files : Files} {idx : StorageIndex} (h : start files idx) : UpdatedFrom start files idx
  | updated {files : Files} {idx idx' : StorageIndex} {event : StorageIndex.Event}
      (h : UpdatedFrom start files idx) (file : String) (p : Source.Policy)
      (hok : idx.addOrUpdate file (some p) = (.ok event, idx')) :
      UpdatedFrom start (files.insert file p) idx'
  | refused {files : Files} {idx idx' : StorageIndex} {e : IndexError}
      (h : UpdatedFrom start files idx) (file : String) (policy : Option Source.Policy)
      (herror : idx.addOrUpdate file policy = (.error e, idx')) : UpdatedFrom start files idx'
  | deleted {files : Files} {idx : StorageIndex} (h : UpdatedFrom start files idx) (file : String) :
      UpdatedFrom start (files.erase file) (idx.delete file).2

/-- An index that was built and updated. -/
abbrev Reached (x : Externals) : Files → StorageIndex → Prop :=
  UpdatedFrom (fun files idx => ∃ dir, files = policiesIn dir ∧ build x dir = .ok idx)

theorem Reached.built {x : Externals} {dir : Directory} {idx : StorageIndex}
    (h : build x dir = .ok idx) : Reached x (policiesIn dir) idx :=
  .start ⟨dir, rfl, h⟩

/-- A file holds the policy with this name. -/
def Defines (files : Files) (file id : String) (p : Source.Policy) : Prop :=
  files.lookup file = some p ∧ p.fqn = id

/-- The maps are readings of what the files hold. -/
structure Consistent (files : Files) (idx : StorageIndex) : Prop where
  held : ∀ file id, idx.fileToModID.lookup file = some id ↔ ∃ p, Defines files file id p
  inverse : ∀ file id, idx.fileToModID.lookup file = some id ↔ idx.modIDToFile.lookup id = some file
  domain : ∀ id, id ∈ idx.dependencies → id ∈ idx.modIDToFile
  imports : ∀ c d, d ∈ idx.dependencies.members c ↔
    ∃ file p, Defines files file c p ∧ d ∈ p.dependencies
  mirrored : ∀ c d, c ∈ idx.dependents.members d ↔ d ∈ idx.dependencies.members c
  executable : ∀ file p, files.lookup file = some p → IndexBuilder.isExecutable p = true →
    p.fqn ∈ idx.executables

namespace Consistent

theorem empty : Consistent ∅ StorageIndex.empty := by
  constructor <;> simp [Defines, StorageIndex.empty, SetMap.members]

variable (h : Consistent files idx)

include h

/-- Two files do not define one module. -/
theorem file_unique {file file' id : String} {p p' : Source.Policy}
    (hp : Defines files file id p) (hp' : Defines files file' id p') : file = file' := by
  have hfile := (h.inverse _ _).mp ((h.held _ _).mpr ⟨p, hp⟩)
  have hfile' := (h.inverse _ _).mp ((h.held _ _).mpr ⟨p', hp'⟩)
  exact Option.some.inj (hfile.symm.trans hfile')

theorem lookup_file (file : String) :
    idx.fileToModID.lookup file = (files.lookup file).map (fun p => p.fqn) := by
  ext id
  rw [h.held, Option.map_eq_some_iff]
  exact Iff.rfl

/-- Only what the files hold matters. -/
theorem congr {files' : Files}
    (hlookup : ∀ file, files'.lookup file = files.lookup file) : Consistent files' idx where
  held := by simpa only [Defines, hlookup] using h.held
  inverse := h.inverse
  domain := h.domain
  imports := by simpa only [Defines, hlookup] using h.imports
  mirrored := h.mirrored
  executable := by simpa only [hlookup] using h.executable

end Consistent

/-! ## §2. Taking in a file. -/

namespace StorageIndex

theorem addDeps_fields (child : String) : ∀ (parents : List String) (idx : StorageIndex),
    (idx.addDeps child parents).fileToModID = idx.fileToModID ∧
      (idx.addDeps child parents).modIDToFile = idx.modIDToFile ∧
      (idx.addDeps child parents).executables = idx.executables ∧
      (idx.addDeps child parents).dependencies =
        parents.foldl (fun m parent => m.addMember child parent) idx.dependencies ∧
      (idx.addDeps child parents).dependents =
        parents.foldl (fun m parent => m.addMember parent child) idx.dependents := by
  intro parents
  induction parents with
  | nil => intro idx; exact ⟨rfl, rfl, rfl, rfl, rfl⟩
  | cons parent _ ih => exact fun idx => ih (idx.addDep child parent)

variable {parents : List String} {child c d : String}

theorem mem_dependencies_addDeps : d ∈ (idx.addDeps child parents).dependencies.members c ↔
      d ∈ idx.dependencies.members c ∨ (c = child ∧ d ∈ parents) := by
  rw [(addDeps_fields child parents idx).2.2.2.1,
    SetMap.mem_members_foldl_addMember (fun _ => child) (fun parent => parent)]
  simp [eq_comm, and_comm]

theorem mem_dependents_addDeps : c ∈ (idx.addDeps child parents).dependents.members d ↔
      c ∈ idx.dependents.members d ∨ (c = child ∧ d ∈ parents) := by
  rw [(addDeps_fields child parents idx).2.2.2.2,
    SetMap.mem_members_foldl_addMember (fun parent => parent) (fun _ => child)]
  simp [eq_comm, and_comm]

theorem mem_keys_addDeps {child c : String}
    (h : c ∈ (idx.addDeps child parents).dependencies) : c = child ∨ c ∈ idx.dependencies := by
  induction parents generalizing idx with
  | nil => exact .inr h
  | cons _ _ ih =>
    rcases ih h with h | h
    · exact .inl h
    · exact (mem_insert _).mp h

/-- An index with one more file; `AddOrUpdate` and the builder differ in `executables`. -/
def withFile (idx : StorageIndex) (file : String) (p : Source.Policy)
    (executables : List String) : StorageIndex :=
  addDeps { idx with
      fileToModID := idx.fileToModID.insert file p.fqn
      modIDToFile := idx.modIDToFile.insert p.fqn file
      executables := executables }
    p.fqn p.dependencies

end StorageIndex

namespace Consistent

variable {file : String} {file' id : String} {p : Source.Policy}

theorem defines_insert {p p' : Source.Policy}
    (hfile : files.lookup file = none) : Defines (files.insert file p) file' id p' ↔
      (file' = file ∧ p' = p ∧ p.fqn = id) ∨ Defines files file' id p' := by
  unfold Defines
  grind

/-- **Taking in a file** that is not in the index, with a module that is not either. -/
theorem withFile (h : Consistent files idx)
    (hfile : files.lookup file = none) (hid : idx.modIDToFile.lookup p.fqn = none)
    {executables : List String} (hkeep : ∀ id ∈ idx.executables, id ∈ executables)
    (hexecutable : IndexBuilder.isExecutable p = true → p.fqn ∈ executables) :
    Consistent (files.insert file p) (idx.withFile file p executables) := by
  have hfields := addDeps_fields p.fqn p.dependencies { idx with
      fileToModID := idx.fileToModID.insert file p.fqn
      modIDToFile := idx.modIDToFile.insert p.fqn file
      executables := executables }
  obtain ⟨hfor, hback, hexec, -, -⟩ := hfields
  have hfresh : idx.fileToModID.lookup file = none := by
    rw [h.lookup_file, hfile]
    rfl
  constructor
  case held =>
    intro file' id
    rw [StorageIndex.withFile]
    simp only [defines_insert hfile]
    have hold := h.held file' id
    grind
  case inverse =>
    intro file' id
    rw [StorageIndex.withFile]
    have hold := h.inverse file' id
    grind
  case domain =>
    intro id hmem
    rw [StorageIndex.withFile, hback, mem_insert]
    exact (mem_keys_addDeps hmem).imp_right (h.domain id)
  case imports =>
    intro c d
    rw [StorageIndex.withFile, StorageIndex.mem_dependencies_addDeps, h.imports c d]
    simp only [defines_insert hfile]
    grind
  case mirrored =>
    intro c d
    rw [StorageIndex.withFile, StorageIndex.mem_dependents_addDeps, mem_dependencies_addDeps]
    exact or_congr_left (h.mirrored c d)
  case executable =>
    intro file' q hq hrules
    rw [StorageIndex.withFile, hexec]
    rcases (defines_insert hfile).mp ⟨hq, rfl⟩ with ⟨-, rfl, -⟩ | ⟨hq, -⟩
    · exact hexecutable hrules
    · exact hkeep _ (h.executable file' q hq hrules)

/-! ## §3. Forgetting a file. -/

theorem defines_erase :
    Defines (files.erase file) file' id p ↔ file' ≠ file ∧ Defines files file' id p := by
  unfold Defines
  grind

variable (h : Consistent files idx)

include h

/-- **Forgetting a file**, however the sets that become empty are kept. -/
theorem forget {id : String} (hfile : idx.fileToModID.lookup file = some id)
    {dependents : SetMap String String} (hdep : ∀ d c, c ∈ dependents.members d ↔
      c ∈ idx.dependents.members d ∧ ¬ (d ∈ idx.dependencies.members id ∧ c = id)) :
    Consistent (files.erase file)
      { fileToModID := idx.fileToModID.erase file
        executables := idx.executables.filter (· ≠ id)
        dependents := dependents
        dependencies := idx.dependencies.erase id
        modIDToFile := idx.modIDToFile.erase id } := by
  obtain ⟨p, hp⟩ := (h.held _ _).mp hfile
  -- the module is defined by this file and by no other
  have hiff : ∀ {file' id' q}, Defines files file' id' q → (file' = file ↔ id' = id) := by
    intro file' id' q hq
    constructor
    · rintro rfl
      rw [← hq.2, ← hp.2, Option.some.inj (hq.1.symm.trans hp.1)]
    · rintro rfl
      exact h.file_unique hq hp
  have hfiff : ∀ {file' id'}, idx.fileToModID.lookup file' = some id' →
      (file' = file ↔ id' = id) := by
    intro file' id' hlook
    obtain ⟨q, hq⟩ := (h.held _ _).mp hlook
    exact hiff hq
  constructor
  case held =>
    intro file' id'
    simp only [defines_erase]
    have hold := h.held file' id'
    grind
  case inverse =>
    intro file' id'
    have hold := h.inverse file' id'
    grind
  case domain =>
    intro id' hmem
    obtain ⟨hne, hmem⟩ := mem_erase.mp hmem
    exact mem_erase.mpr ⟨hne, h.domain id' hmem⟩
  case imports =>
    intro c d
    rw [SetMap.mem_members_erase, h.imports]
    simp only [defines_erase]
    grind
  case mirrored =>
    intro c d
    rw [hdep, SetMap.mem_members_erase, h.mirrored]
    grind
  case executable =>
    intro file' q hq hrules
    obtain ⟨hne, hq⟩ := (@defines_erase files file file' q.fqn q).mp ⟨hq, rfl⟩
    refine mem_filter.mpr ⟨h.executable file' q hq.1 hrules, ?_⟩
    exact decide_eq_true (fun hid => hne ((hiff hq).mpr hid))

/-- A file that the index does not know is forgotten already. -/
theorem erase_unknown (hfile : idx.fileToModID.lookup file = none) (file' : String) :
    (files.erase file).lookup file' = files.lookup file' := by
  rw [h.lookup_file, Option.map_eq_none_iff] at hfile
  grind

/-! ## §4. Updates. -/

theorem clearFile (file : String) : Consistent (files.erase file) (idx.clearFile file) := by
  unfold StorageIndex.clearFile
  split
  · next hfile => exact h.congr (h.erase_unknown hfile)
  · next old hfile =>
      refine h.forget hfile ?_
      intro d c
      exact SetMap.mem_members_foldl_removeMember
        (fun m k k' v v' => SetMap.mem_members_removeMember) old _ _ d c

theorem delete (file : String) : Consistent (files.erase file) (idx.delete file).2 := by
  unfold StorageIndex.delete
  split
  · next hfile => exact h.congr (h.erase_unknown hfile)
  · next id hfile =>
      refine h.forget hfile ?_
      intro d c
      exact SetMap.mem_members_foldl_removeMember
        (fun m k k' v v' => SetMap.mem_members_dropMember) id _ _ d c

end Consistent

variable {idx idx' : StorageIndex} {file : String}

/-- An error leaves the index as it was. -/
theorem StorageIndex.addOrUpdate_error {policy : Option Source.Policy} {e : IndexError}
    (h : idx.addOrUpdate file policy = (.error e, idx')) : idx' = idx := by
  unfold addOrUpdate at h
  cases policy with
  | none => exact (Prod.mk.inj h).2.symm
  | some =>
    dsimp only at h
    split at h
    · exact (Prod.mk.inj h).2.symm
    · cases (Prod.mk.inj h).1

/-- **What a successful update does**: no other file defines the module, and the old content of
the file gives way to the new one. -/
theorem StorageIndex.addOrUpdate_ok {p : Source.Policy} {event : Event}
    (h : idx.addOrUpdate file (some p) = (.ok event, idx')) :
    (∀ other, idx.modIDToFile.lookup p.fqn = some other → other = file) ∧
      idx' = (idx.clearFile file).addFile file p ∧
      event = {
        kind := .addOrUpdatePolicy
        policyID := p.fqn
        oldPolicyID := (idx.fileToModID.lookup file).filter (· ≠ p.fqn)
        dependents := idx'.dependents.members p.fqn } := by
  unfold addOrUpdate at h
  dsimp only at h
  split at h
  · cases (Prod.mk.inj h).1
  · next hfilter =>
      obtain ⟨hevent, rfl⟩ := Prod.mk.inj h
      refine ⟨?_, rfl, (Except.ok.inj hevent).symm⟩
      intro other hother
      rw [hother, Option.filter_eq_none_iff] at hfilter
      simpa using hfilter other rfl

namespace Consistent

/-- After the file is cleared, nothing defines the module that it is about to define. -/
theorem lookup_clearFile (h : Consistent files idx) {id : String}
    (hother : ∀ other, idx.modIDToFile.lookup id = some other → other = file) :
    (idx.clearFile file).modIDToFile.lookup id = none := by
  rw [Option.eq_none_iff_forall_ne_some]
  intro other hlook
  obtain ⟨q, hq⟩ := ((h.clearFile file).held _ _).mp (((h.clearFile file).inverse _ _).mpr hlook)
  obtain ⟨hne, hq⟩ := defines_erase.mp hq
  exact hne (hother other ((h.inverse _ _).mp ((h.held _ _).mpr ⟨q, hq⟩)))

theorem lookup_insert_erase (files : Files) (file : String) (p : Source.Policy) (file' : String) :
    (files.insert file p).lookup file' = ((files.erase file).insert file p).lookup file' := by
  grind

theorem addOrUpdate (h : Consistent files idx) {p : Source.Policy} {event : StorageIndex.Event}
    (hok : idx.addOrUpdate file (some p) = (.ok event, idx')) :
    Consistent (files.insert file p) idx' := by
  obtain ⟨hother, rfl, -⟩ := addOrUpdate_ok hok
  refine ((h.clearFile file).withFile (lookup_erase _ _) (h.lookup_clearFile hother) ?_ ?_).congr
    (lookup_insert_erase files file p)
  · intro id hid
    split
    · exact hid
    · exact mem_insert_of_mem hid
  · intro hrules
    rw [if_neg]
    · exact mem_insert_self
    · intro hkind
      rw [IndexBuilder.isExecutable, hkind] at hrules
      cases hrules

end Consistent

/-! ## §5. Building. -/

namespace IndexBuilder

/-- A step that only notes what is missing. -/
def Notes (b b' : IndexBuilder) : Prop :=
  b'.toStorageIndex = b.toStorageIndex ∧ b'.duplicates = b.duplicates

theorem Notes.trans {b b' b'' : IndexBuilder} (h : Notes b b') (h' : Notes b' b'') : Notes b b'' :=
  ⟨h'.1.trans h.1, h'.2.trans h.2⟩

theorem notes_foldl {α : Type} {f : IndexBuilder → α → IndexBuilder} (hf : ∀ b a, Notes b (f b a)) :
    ∀ (as : List α) (b : IndexBuilder), Notes b (as.foldl f b) := by
  intro as
  induction as with
  | nil => exact fun b => ⟨rfl, rfl⟩
  | cons a _ ih => exact fun b => (hf b a).trans (ih (f b a))

variable (x : Externals) (b : IndexBuilder) (file : String) (p : Source.Policy)

theorem notes_addRoleRule (rp : Source.RoleModule) (rule : Source.RoleRule) :
    Notes b (b.addRoleRule x rp rule) := by
  have hcovers : ∀ (version resource : String) (b : IndexBuilder),
      Notes b (roleRuleCovers x rp version rule b resource) := by
    intro version resource b
    unfold roleRuleCovers
    split <;> (try split) <;> exact ⟨rfl, rfl⟩
  exact notes_foldl (fun b resource => hcovers _ resource b) _ b

theorem notes_noteKind : Notes b (b.noteKind x p) := by
  unfold noteKind
  split
  · exact ⟨rfl, rfl⟩
  · next rp _ => exact notes_foldl (fun b rule => notes_addRoleRule x b rp rule) rp.rules b
  · exact ⟨rfl, rfl⟩

theorem notes_requireAncestor (fqn : String) : Notes b (requireAncestor x p b fqn) := by
  unfold requireAncestor
  dsimp only
  split <;> (try split) <;> (try split) <;> exact ⟨rfl, rfl⟩

theorem addImport_fields (dep : String) :
    (addImport file p b dep).toStorageIndex = b.toStorageIndex.addDep p.fqn dep ∧
      (addImport file p b dep).duplicates = b.duplicates := by
  unfold addImport
  dsimp only
  split <;> exact ⟨rfl, rfl⟩

theorem foldl_addImport : ∀ (deps : List String) (b : IndexBuilder),
    (deps.foldl (addImport file p) b).toStorageIndex = b.toStorageIndex.addDeps p.fqn deps ∧
      (deps.foldl (addImport file p) b).duplicates = b.duplicates := by
  intro deps
  induction deps with
  | nil => exact fun b => ⟨rfl, rfl⟩
  | cons dep _ ih =>
    intro b
    obtain ⟨hidx, hdup⟩ := addImport_fields b file p dep
    rw [foldl_cons, (ih _).1, (ih _).2, hidx, hdup]
    exact ⟨rfl, rfl⟩

/-- A policy is taken in, or reported as defined twice. -/
theorem addPolicy_cases :
    (∃ otherFile, otherFile ≠ file ∧ b.modIDToFile.lookup p.fqn = some otherFile ∧
        (b.addPolicy x file p).duplicates ≠ []) ∨
      ((∀ otherFile, b.modIDToFile.lookup p.fqn = some otherFile → otherFile = file) ∧
        (b.addPolicy x file p).duplicates = b.duplicates ∧
        (b.addPolicy x file p).toStorageIndex = b.toStorageIndex.withFile file p
          (if isExecutable p then b.executables.insert p.fqn else b.executables)) := by
  unfold addPolicy
  cases hother : (b.modIDToFile.lookup p.fqn).filter (· ≠ file) with
  | some otherFile =>
    obtain ⟨hlook, hne⟩ := Option.filter_eq_some_iff.mp hother
    exact .inl ⟨otherFile, by simpa using hne, hlook, by simp⟩
  | none =>
    refine .inr ⟨?_, ?_⟩
    · intro otherFile hlook
      rw [hlook, Option.filter_eq_none_iff] at hother
      simpa using hother otherFile rfl
    · have hkind := notes_noteKind x (b.register file p) p
      have himp := foldl_addImport file p p.dependencies
        (((b.register file p).noteKind x p).track p)
      have hancestors := notes_foldl (fun b fqn => notes_requireAncestor x b p fqn) p.ancestors
        (p.dependencies.foldl (addImport file p) (((b.register file p).noteKind x p).track p))
      refine ⟨hancestors.2.trans (himp.2.trans hkind.2), ?_⟩
      refine hancestors.1.trans (himp.1.trans ?_)
      rw [show (((b.register file p).noteKind x p).track p).toStorageIndex =
        (b.register file p).toStorageIndex from hkind.1]
      rfl

variable {content : FileContent}

theorem duplicates_addContent
    (hnone : (b.addContent x file content).duplicates = []) : b.duplicates = [] := by
  cases content with
  | policy p =>
    rcases addPolicy_cases x b file p with ⟨_, _, _, hsome⟩ | ⟨_, hdup, _⟩
    · exact (hsome hnone).elim
    · exact hdup.symm.trans hnone
  | _ => exact hnone

variable {P : Files → StorageIndex → Prop}
  (hstep : ∀ (files : Files) (idx : StorageIndex) (file : String) (p : Source.Policy),
    files.lookup file = none →
    (∀ otherFile, idx.modIDToFile.lookup p.fqn = some otherFile → otherFile = file) →
    P files idx → P (files.insert file p) (idx.withFile file p
      (if isExecutable p then idx.executables.insert p.fqn else idx.executables)))

include hstep

/-- One file of the walk: what taking in a policy keeps is kept, unless a policy is reported as
defined twice. -/
theorem holds_addContent
    (hfile : files.lookup file = none) (h : b.duplicates = [] → P files b.toStorageIndex)
    (hnone : (b.addContent x file content).duplicates = []) :
    P (content.record files file) (b.addContent x file content).toStorageIndex := by
  have hbefore := h (duplicates_addContent x b file hnone)
  cases content with
  | policy p =>
    rcases addPolicy_cases x b file p with ⟨_, _, _, hsome⟩ | ⟨hother, -, hidx⟩
    · exact (hsome hnone).elim
    · show P (files.insert file p) (b.addPolicy x file p).toStorageIndex
      rw [hidx]
      exact hstep files b.toStorageIndex file p hfile hother hbefore
  | _ => exact hbefore

/-- The walk, by induction on the files that are left; each is met once. -/
theorem holds_foldl : ∀ (es : List (Sigma fun _ : String => FileContent))
    (files : Files) (b : IndexBuilder), (es.map Sigma.fst).Nodup →
    (∀ e ∈ es, files.lookup e.1 = none) → (b.duplicates = [] → P files b.toStorageIndex) →
    (es.foldl (fun b e => b.addContent x e.1 e.2) b).duplicates = [] →
    P (es.foldl (fun files e => e.2.record files e.1) files)
      (es.foldl (fun b e => b.addContent x e.1 e.2) b).toStorageIndex := by
  intro es
  induction es with
  | nil => exact fun files b _ _ h hnone => h hnone
  | cons e _ ih =>
    intro files b hnodup hfresh h hnone
    rw [map_cons, nodup_cons] at hnodup
    refine ih _ _ hnodup.2 ?_ ?_ hnone
    · intro e' he'
      have hne : e'.1 ≠ e.1 := by
        intro hsame
        exact hnodup.1 (hsame ▸ mem_map_of_mem he')
      have hnew := hfresh e' (mem_cons_of_mem e he')
      show AList.lookup e'.1 (e.2.record files e.1) = none
      cases e.2 with
      | policy => exact (lookup_insert_ne hne).trans hnew
      | _ => exact hnew
    · exact holds_addContent x b e.1 hstep (hfresh e mem_cons_self) h

/-- **What taking in a policy keeps holds of a built index.** -/
theorem holds_build {dir : Directory} (hempty : P ∅ StorageIndex.empty)
    (h : Storage.build x dir = .ok idx) : P (policiesIn dir) idx := by
  unfold Storage.build IndexBuilder.build at h
  dsimp only at h
  split at h
  · cases h
  · next hzero =>
      obtain rfl := Except.ok.inj h
      have hnone : (IndexBuilder.walk x dir).duplicates = [] :=
        length_eq_zero_iff.mp (by omega)
      exact holds_foldl x hstep dir.entries ∅ newIndexBuilder dir.nodupKeys
        (fun e _ => rfl) (fun _ => hempty) hnone

end IndexBuilder

theorem Consistent.build {dir : Directory}
    (h : Storage.build x dir = .ok idx) : Consistent (policiesIn dir) idx := by
  refine IndexBuilder.holds_build x ?_ Consistent.empty h
  intro files idx file p hfile hother hconsistent
  have hid : idx.modIDToFile.lookup p.fqn = none := by
    rw [Option.eq_none_iff_forall_ne_some]
    intro otherFile hlook
    obtain ⟨q, hq, -⟩ := (hconsistent.held _ _).mp ((hconsistent.inverse _ _).mpr hlook)
    rw [hother otherFile hlook, hfile] at hq
    cases hq
  refine hconsistent.withFile hfile hid ?_ ?_
  · intro id hmem
    split
    · exact mem_insert_of_mem hmem
    · exact hmem
  · intro hrules
    rw [if_pos hrules]
    exact mem_insert_self

/-! ## §6. Every index that is reached. -/

/-- Updates keep the maps in agreement. -/
theorem UpdatedFrom.consistent {start : Files → StorageIndex → Prop}
    (hstart : ∀ files idx, start files idx → Consistent files idx) (h : UpdatedFrom start files idx) :
    Consistent files idx := by
  induction h with
  | start h => exact hstart _ _ h
  | updated _ _ _ hok ih => exact ih.addOrUpdate hok
  | refused _ _ _ herror ih =>
    rw [addOrUpdate_error herror]
    exact ih
  | deleted _ file ih => exact ih.delete file

/-- **The maps agree after a build and any updates.** -/
theorem Reached.consistent (h : Reached x files idx) : Consistent files idx := by
  refine UpdatedFrom.consistent (fun _ _ hstart => ?_) h
  obtain ⟨dir, rfl, hbuilt⟩ := hstart
  exact Consistent.build hbuilt

/-- **Mutual consistency of the storage index.**  Files and modules are matched one to one; only
indexed modules have imports recorded; who imports whom is recorded both ways and is what the
policies say that are indexed now; and a refused update changes nothing. -/
theorem maps_consistent {x : Externals} {files : Files} {idx : StorageIndex}
    (h : Reached x files idx) :
    (∀ file, idx.fileToModID.lookup file = (files.lookup file).map (fun p => p.fqn)) ∧
      (∀ file id, idx.fileToModID.lookup file = some id ↔ idx.modIDToFile.lookup id = some file) ∧
      (∀ id, id ∈ idx.dependencies → id ∈ idx.modIDToFile) ∧
      (∀ c d, c ∈ idx.dependents.members d ↔ d ∈ idx.dependencies.members c ∧
          ∃ file p, idx.modIDToFile.lookup c = some file ∧ files.lookup file = some p ∧
            p.fqn = c ∧ d ∈ p.dependencies) ∧
      (∀ file policy e idx', idx.addOrUpdate file policy = (.error e, idx') → idx' = idx) := by
  have hc := h.consistent
  refine ⟨hc.lookup_file, hc.inverse, hc.domain, fun c d => ?_, fun _ _ _ _ herror =>
    addOrUpdate_error herror⟩
  rw [hc.mirrored]
  constructor
  · intro hd
    obtain ⟨file, p, hp, hdp⟩ := (hc.imports c d).mp hd
    exact ⟨hd, file, p, (hc.inverse _ _).mp ((hc.held _ _).mpr ⟨p, hp⟩), hp.1, hp.2, hdp⟩
  · exact And.left

/-- Constants, derived roles that import them, and a resource policy that imports both. -/
def limits : Source.Policy := ⟨.exportConstants "limits" [], []⟩

def staffRoles : Source.Policy where
  policyType := .derivedRoles {
    name := "staff"
    definitions := []
    policyConstants := { imports := ["limits"] } }

def docPolicy : Source.Policy where
  policyType := .resourcePolicy {
    resource := "doc"
    version := "default"
    importDerivedRoles := ["staff"]
    rules := []
    policyConstants := { imports := ["limits"] } }

def officeFiles : Directory :=
  ((((∅ : Directory).insert "limits.yaml" (.policy limits)).insert "staff.yaml"
    (.policy staffRoles)).insert "doc.yaml" (.policy docPolicy))

/-- The constants with another content. -/
def newLimits : Source.Policy := ⟨.exportConstants "limits" [("strict", .bool true)], []⟩

/-- What three files hold, after one of them is updated and another one deleted. -/
theorem office_maps_consistent : ∃ idx event idx', build Externals.sample officeFiles = .ok idx ∧
      idx.addOrUpdate "limits.yaml" (some newLimits) = (.ok event, idx') ∧
      docPolicy.fqn ∈ (idx'.delete "staff.yaml").2.dependents.members limits.fqn ∧
      (∀ file id, (idx'.delete "staff.yaml").2.fileToModID.lookup file = some id ↔
        (idx'.delete "staff.yaml").2.modIDToFile.lookup id = some file) ∧
      ∀ c, c ∈ (idx'.delete "staff.yaml").2.dependents.members limits.fqn →
        limits.fqn ∈ (idx'.delete "staff.yaml").2.dependencies.members c := by
  obtain ⟨idx, h, heval⟩ := Lib.toOption_map_eq_some_iff.mp
    (show (build Externals.sample officeFiles).toOption.map (fun idx =>
      ((idx.addOrUpdate "limits.yaml" (some newLimits)).1.isOk,
        ((idx.addOrUpdate "limits.yaml" (some newLimits)).2.delete
          "staff.yaml").2.dependents.members limits.fqn)) = some (true, [docPolicy.fqn]) by
      decide +kernel)
  obtain ⟨hok, hmembers⟩ := Prod.mk.inj heval
  obtain ⟨event, hok⟩ := Lib.isOk_iff.mp hok
  have hupd : idx.addOrUpdate "limits.yaml" (some newLimits) =
      (.ok event, (idx.addOrUpdate "limits.yaml" (some newLimits)).2) := Prod.ext hok rfl
  have hrun := maps_consistent
    (((Reached.built h).updated "limits.yaml" newLimits hupd).deleted "staff.yaml")
  refine ⟨idx, event, _, h, hupd, ?_, hrun.2.1, fun c hc => ((hrun.2.2.2.1 c _).mp hc).1⟩
  rw [hmembers]
  exact List.mem_singleton.mpr rfl

end AccessManagement.Storage
