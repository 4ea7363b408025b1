/-
  AccessManagement.Storage.Sync — WHAT THE STORES THAT FOLLOW FILES HAVE IN COMMON.

  The directory watcher, the git store and the blob store all keep an index next to files that
  change.  They share how a path is classified (`util.FileType`), what reading a file gives
  (`policy.ReadPolicy`, followed in a build by the checks of the builder) and the events they
  send.

  `Tracks held idx` says that the index is one of the policies that `held` assigns to the files.
  It says more than that the maps of the index are right: an index that tracks can be updated,
  and `Tracks.put`, `Tracks.put_refused` and `Tracks.remove` say what each update does to it.

  Left out: metadata and source attributes of policies.
-/
import AccessManagement.Storage.Rebuild

namespace AccessManagement.Storage

open Lib List AList

/-! ## §1. Kinds of files. -/

/-- `util.IndexedFileType`. -/
inductive IndexedFileType where
  | notIndexed | policy | schema
  deriving DecidableEq, Repr

namespace Paths

def schemasDirectory : List Char := "_schemas".toList

def testDataDirectory : List Char := "testdata".toList

variable (name : List Char)

/-- `util.IsHidden`. -/
def isHidden : Bool :=
  if name = ['.'] ∨ name = ['.', '.'] then false else name.head? == some '.'

/-- `filepath.Ext` of a file name. -/
def ext : List Char :=
  match name.reverse.dropWhile (· ≠ '.') with
  | [] => []
  | _ => '.' :: (name.reverse.takeWhile (· ≠ '.')).reverse

def toLower (s : List Char) : List Char := s.map Char.toLower

/-- `util.IsSupportedFileType`. -/
def isSupportedFileType : Bool :=
  [".yaml".toList, ".yml".toList, ".json".toList].contains (toLower (ext name))

/-- `util.IsSupportedTestFile`. -/
def isSupportedTestFile : Bool :=
  isSupportedFileType name &&
    "_test".toList.isSuffixOf ((toLower name).take (name.length - (ext name).length))

/-- `util.IsJSONFileTypeExt`. -/
def isJsonFileTypeExt : Bool := toLower (ext name) == ".json".toList

/-- A folder on the way, or the file itself, that keeps a path from being indexed. -/
def excludes (inSchemas : Bool) (segment : List Char) : Bool :=
  isHidden segment || (segment == testDataDirectory && !inSchemas)

/-- `util.FileType`. -/
def fileType (path : String) : IndexedFileType :=
  let segments := path.toList.splitOn '/'
  let fileName := segments.getLastD []
  let inSchemas := segments.head? == some schemasDirectory
  if segments.any (excludes inSchemas) then .notIndexed
  else if inSchemas then
    if isJsonFileTypeExt fileName then .schema else .notIndexed
  else if isSupportedFileType fileName && !isSupportedTestFile fileName then .policy
  else .notIndexed

/-- `util.RelativeSchemaPath`. -/
def relativeSchemaPath (path : String) : Option String :=
  cutStart (String.ofList (schemasDirectory ++ ['/'])) path

example : fileType "a/doc.yaml" = .policy ∧ fileType "a/doc_test.yaml" = .notIndexed ∧
    fileType "_schemas/doc.json" = .schema ∧ fileType "a/.git/doc.yaml" = .notIndexed := by
  decide +kernel

/-- Schemas are not policies. -/
theorem relativeSchemaPath_eq_none {path : String} (h : fileType path = .policy) :
    relativeSchemaPath path = none := by
  unfold fileType at h
  dsimp only at h
  split at h
  · cases h
  · split at h
    · split at h
      · cases h
      · cases h
    · next hnot =>
        refine if_neg (fun hstart => hnot ?_)
        obtain ⟨rest, hrest⟩ := hasStart_iff.mp hstart
        rw [← hrest, String.toList_ofList]
        rfl

theorem relativeSchemaPath_of_schema {path : String} (h : fileType path = .schema) :
    ∃ schemaFile, relativeSchemaPath path = some schemaFile := by
  have hjoin : ['/'].intercalate (path.toList.splitOn '/') = path.toList :=
    intercalate_splitOn '/'
  unfold fileType at h
  dsimp only at h
  generalize path.toList.splitOn '/' = segments at h hjoin
  split at h
  · cases h
  · split at h
    · next hin =>
        split at h
        · next hjson =>
            obtain ⟨rest, rfl⟩ := List.head?_eq_some_iff.mp (beq_iff_eq.mp hin)
            cases rest with
            | nil =>
              -- the folder alone has no extension
              cases hjson
            | cons segment rest =>
              have hstart : hasStart (String.ofList (schemasDirectory ++ ['/'])) path = true := by
                rw [hasStart_iff, String.toList_ofList, ← hjoin]
                exact ⟨['/'].intercalate (segment :: rest), by simp⟩
              exact ⟨_, if_pos hstart⟩
        · cases h
    · split at h
      · cases h
      · cases h

end Paths

/-! ## §2. Files. -/

/-- What a file gives when it is read. -/
inductive RawFile where
  /-- `ReadPolicy` fails. -/
  | unreadable (error : String)
  /-- There is no document in the file. -/
  | empty
  /-- A policy, with the errors in its source and the error of `policy.Validate`. -/
  | document (p : Source.Policy) (disabled : Bool) (errors : List String) (invalid : Option String)

namespace RawFile

/-- A file with a policy and without faults. -/
def ofPolicy (p : Source.Policy) : RawFile := .document p false [] none

/-- What the builder makes of a file. -/
def content : RawFile → FileContent
  | .unreadable error => .loadFailure [error]
  | .empty => .noPolicy
  | .document p disabled errors invalid =>
    if errors ≠ [] then .loadFailure errors
    else if disabled then .disabled p
    else
      match invalid with
      | some error => .loadFailure [error]
      | none => .policy p

/-- The policy that the builder takes in. -/
def enabled (raw : RawFile) : Option Source.Policy :=
  match raw.content with
  | .policy p => some p
  | _ => none

/-- The file can be part of a valid set: the builder finds no fault with it. -/
def loads (raw : RawFile) : Bool :=
  match raw.content with
  | .loadFailure _ => false
  | _ => true

/-- What `ReadPolicy` returns: an error, or the policy if there is one. -/
def read : RawFile → Except String (Option Source.Policy)
  | .unreadable error => .error error
  | .empty => .ok none
  | .document p _ _ _ => .ok (some p)

variable {raw : RawFile} {p : Source.Policy}

/-- A file of a valid set is empty, holds a policy, or holds a disabled one. -/
theorem cases_of_loads (h : raw.loads = true) :
    (raw.read = .ok none ∧ raw.enabled = none) ∨ ∃ p, raw.read = .ok (some p) ∧
        (raw.enabled = some p ∨ raw.content = .disabled p ∧ raw.enabled = none) := by
  cases raw with
  | unreadable => cases h
  | empty => exact .inl ⟨rfl, rfl⟩
  | document p disabled errors invalid =>
    refine .inr ⟨p, rfl, ?_⟩
    cases errors with
    | cons => cases h
    | nil =>
      cases disabled with
      | true => exact .inr ⟨rfl, rfl⟩
      | false =>
        cases invalid with
        | some => cases h
        | none => exact .inl rfl

theorem read_of_enabled (h : raw.enabled = some p) : raw.read = .ok (some p) := by
  have hloads : raw.loads = true := by
    unfold enabled at h
    unfold loads
    cases hcontent : raw.content with
    | loadFailure => rw [hcontent] at h; cases h
    | _ => rfl
  rcases cases_of_loads hloads with ⟨-, hnone⟩ | ⟨q, hread, hq | ⟨-, hnone⟩⟩
  · rw [h] at hnone; cases hnone
  · rw [hread, ← Option.some.inj (h.symm.trans hq)]
  · rw [h] at hnone; cases hnone

theorem of_disabled (h : raw.content = .disabled p) :
    raw.read = .ok (some p) ∧ raw.enabled = none := by
  refine ⟨?_, by unfold enabled; rw [h]⟩
  cases raw with
  | unreadable | empty => cases h
  | document =>
    unfold content at h
    dsimp only at h
    split at h
    · cases h
    · split at h
      · cases h; rfl
      · split at h
        · cases h
        · cases h

end RawFile

/-- Files by path. -/
abbrev WorkTree := AList (fun _ : String => RawFile)

namespace WorkTree

variable (isPolicy : String → Bool) (tree : WorkTree)

/-- The policy of a file that the index should have. -/
def policyAt (file : String) : Option Source.Policy :=
  if isPolicy file then (tree.lookup file).bind RawFile.enabled else none

section

variable {isPolicy} {tree : WorkTree} {file : String}

theorem policyAt_of_not_isPolicy (h : ¬ isPolicy file = true) : tree.policyAt isPolicy file = none :=
  if_neg h

theorem policyAt_of_lookup {raw : RawFile} (hpolicy : isPolicy file = true)
    (h : tree.lookup file = some raw) : tree.policyAt isPolicy file = raw.enabled := by
  rw [policyAt, if_pos hpolicy, h, Option.bind_some]

theorem lookup_of_policyAt {p : Source.Policy} (h : tree.policyAt isPolicy file = some p) :
    isPolicy file = true ∧ ∃ raw, tree.lookup file = some raw ∧ raw.enabled = some p := by
  unfold policyAt at h
  split at h
  · next hpolicy => exact ⟨hpolicy, Option.bind_eq_some_iff.mp h⟩
  · cases h

end

/-- A valid set of policies: every policy file loads, and no policy is defined twice. -/
structure Valid : Prop where
  loads : ∀ file raw, isPolicy file = true → tree.lookup file = some raw → raw.loads = true
  distinct : ∀ file file' p p', tree.policyAt isPolicy file = some p →
    tree.policyAt isPolicy file' = some p' → p.fqn = p'.fqn → file = file'

/-- A check for valid sets. -/
theorem valid_of_entries (hloads : (tree.entries.all (fun e => e.2.loads)) = true)
    (hnodup : (tree.entries.filterMap (fun e => e.2.enabled.map (fun p => p.fqn))).Nodup) :
    tree.Valid isPolicy where
  loads := by
    intro file raw _ hraw
    exact all_eq_true.mp hloads _ (mem_lookup_iff.mp hraw)
  distinct := by
    intro file file' p p' hp hp' hid
    obtain ⟨-, raw, hraw, henabled⟩ := lookup_of_policyAt hp
    obtain ⟨-, raw', hraw', henabled'⟩ := lookup_of_policyAt hp'
    by_contra hne
    rw [List.Nodup, pairwise_filterMap] at hnodup
    have hsymm : Std.Symm (fun (e e' : Sigma fun _ : String => RawFile) =>
        ∀ b, e.2.enabled.map (fun p => p.fqn) = some b →
          ∀ b', e'.2.enabled.map (fun p => p.fqn) = some b' → b ≠ b') :=
      ⟨fun _ _ h b hb b' hb' => (h b' hb' b hb).symm⟩
    have hdiffers := hnodup.forall (mem_lookup_iff.mp hraw) (mem_lookup_iff.mp hraw')
      (fun heq => hne (congrArg Sigma.fst heq))
    exact hdiffers p.fqn (by rw [henabled]; rfl) p'.fqn (by rw [henabled']; rfl) hid

/-- The files as the builder walks them; it passes over what is not a policy file. -/
def directory : Directory :=
  tree.entries.foldl
    (fun dir e => dir.insert e.1 (if isPolicy e.1 then e.2.content else .noPolicy)) ∅

end WorkTree

/-- Two files with a policy each. -/
def firstTree : WorkTree :=
  ((∅ : WorkTree).insert "a.yaml" (.ofPolicy (scopedDoc ""))).insert "b.yaml" (.ofPolicy limits)

/-- One of the files has another name. -/
def renamedTree : WorkTree :=
  ((∅ : WorkTree).insert "c.yaml" (.ofPolicy (scopedDoc ""))).insert "b.yaml" (.ofPolicy limits)

/-- The files have changed places. -/
def exchangedTree : WorkTree :=
  ((∅ : WorkTree).insert "a.yaml" (.ofPolicy limits)).insert "b.yaml" (.ofPolicy (scopedDoc ""))

theorem WorkTree.lookup_policiesIn_directory (isPolicy : String → Bool) (tree : WorkTree)
    (file : String) :
    (policiesIn (tree.directory isPolicy)).lookup file = tree.policyAt isPolicy file := by
  refine Option.ext (fun p => ?_)
  rw [lookup_policiesIn_iff, directory, lookup_foldl_entries
    (fun file (raw : RawFile) => if isPolicy file then raw.content else .noPolicy),
    Option.map_eq_some_iff, policyAt]
  by_cases hpolicy : isPolicy file = true
  · rw [if_pos hpolicy, Option.bind_eq_some_iff]
    refine exists_congr (fun raw => and_congr_right (fun _ => ?_))
    rw [if_pos hpolicy, RawFile.enabled]
    cases raw.content with
    | policy => simp
    | _ => simp
  · rw [if_neg hpolicy]
    simp [hpolicy]

/-! ## §3. Events. -/

/-- `storage.Event`, with those for schemas. -/
inductive StoreEvent where
  | policy (event : StorageIndex.Event)
  | addOrUpdateSchema (file : String)
  | deleteSchema (file : String)
  deriving DecidableEq, Repr

/-- The dependents that one event carries for a whole batch: each once, and none that the batch
has an event for. -/
def newDependents (processed deps : List String) : List String :=
  deps.foldl (fun found d => if processed.contains d || found.contains d then found
    else found ++ [d]) []

theorem mem_newDependents {processed deps : List String} {d : String} :
    d ∈ newDependents processed deps ↔ d ∈ deps ∧ d ∉ processed := by
  -- the list is built from the left, so the last dependent is peeled off
  induction deps using List.reverseRecOn with
  | nil => simp [newDependents]
  | append_singleton deps a ih =>
    have hstep : newDependents processed (deps ++ [a]) =
        if processed.contains a || (newDependents processed deps).contains a then
          newDependents processed deps else newDependents processed deps ++ [a] := foldl_append
    rw [hstep]
    split
    next hskip =>
      simp only [Bool.or_eq_true, contains_iff_mem] at hskip
      rw [ih, mem_append, mem_singleton]
      grind
    next hnew =>
      simp only [Bool.or_eq_true, contains_iff_mem, not_or] at hnew
      rw [mem_append, ih, mem_append, mem_singleton]
      grind

/-! ## §4. An index of the files. -/

/-- The index is one of these policies. -/
def Tracks (held : String → Option Source.Policy) (idx : StorageIndex) : Prop :=
  ∃ files, Consistent files idx ∧ ∀ file, files.lookup file = held file

namespace Tracks

variable {held : String → Option Source.Policy} {idx : StorageIndex}

theorem of_reached {x : Externals} {files : Files} (h : Reached x files idx)
    (hfiles : ∀ file, files.lookup file = held file) : Tracks held idx :=
  ⟨files, h.consistent, hfiles⟩

variable (h : Tracks held idx)

include h

theorem congr {held' : String → Option Source.Policy}
    (hsame : ∀ file, held file = held' file) : Tracks held' idx := by
  obtain ⟨files, hc, hfiles⟩ := h
  exact ⟨files, hc, fun file => (hfiles file).trans (hsame file)⟩

/-- The two maps between files and modules are right. -/
theorem fileToModID_eq (file : String) :
    idx.fileToModID.lookup file = (held file).map (fun p => p.fqn) := by
  obtain ⟨files, hc, hfiles⟩ := h
  rw [hc.lookup_file, hfiles]

theorem modIDToFile_iff (file id : String) :
    idx.modIDToFile.lookup id = some file ↔ ∃ p, held file = some p ∧ p.fqn = id := by
  obtain ⟨files, hc, hfiles⟩ := h
  rw [← hc.inverse, hc.held, ← hfiles]
  exact Iff.rfl

/-- No two files have one policy. -/
theorem distinct {file file' : String} {p p' : Source.Policy}
    (hp : held file = some p) (hp' : held file' = some p') (hid : p.fqn = p'.fqn) : file = file' := by
  have hfile := (h.modIDToFile_iff file p.fqn).mpr ⟨p, hp, rfl⟩
  have hfile' := (h.modIDToFile_iff file' p.fqn).mpr ⟨p', hp', hid.symm⟩
  exact Option.some.inj (hfile.symm.trans hfile')

/-- **A file whose policy no other file has is taken in.** -/
theorem put {file : String} {p : Source.Policy}
    (hfree : ∀ other q, held other = some q → q.fqn = p.fqn → other = file) :
    ∃ event idx', idx.addOrUpdate file (some p) = (.ok event, idx') ∧
      Tracks (Function.update held file (some p)) idx' := by
  have hnone : (idx.modIDToFile.lookup p.fqn).filter (· ≠ file) = none := by
    rw [Option.filter_eq_none_iff]
    intro other hother
    obtain ⟨q, hq, hid⟩ := (h.modIDToFile_iff other p.fqn).mp hother
    simpa using hfree other q hq hid
  obtain ⟨files, hc, hfiles⟩ := h
  have hok : ∃ event idx', idx.addOrUpdate file (some p) = (.ok event, idx') := by
    unfold StorageIndex.addOrUpdate
    dsimp only
    rw [hnone]
    exact ⟨_, _, rfl⟩
  obtain ⟨event, idx', hok⟩ := hok
  refine ⟨event, idx', hok, files.insert file p, hc.addOrUpdate hok, ?_⟩
  intro file'
  by_cases hsame : file' = file
  · subst hsame
    rw [lookup_insert, Function.update_self]
  · rw [lookup_insert_ne hsame, Function.update_of_ne hsame, hfiles]

/-- **A file whose policy another file has is refused**, and the index stays as it is. -/
theorem put_refused {file other : String} {p q : Source.Policy}
    (hother : held other = some q) (hid : q.fqn = p.fqn) (hne : other ≠ file) :
    idx.addOrUpdate file (some p) = (.error (.duplicatePolicy other), idx) := by
  have hsome : (idx.modIDToFile.lookup p.fqn).filter (· ≠ file) = some other := by
    rw [Option.filter_eq_some_iff]
    exact ⟨(h.modIDToFile_iff other p.fqn).mpr ⟨q, hother, hid⟩, by simpa using hne⟩
  unfold StorageIndex.addOrUpdate
  dsimp only
  rw [hsome]

theorem remove (file : String) : Tracks (Function.update held file none) (idx.delete file).2 := by
  obtain ⟨files, hc, hfiles⟩ := h
  refine ⟨files.erase file, hc.delete file, ?_⟩
  intro file'
  by_cases hsame : file' = file
  · subst hsame
    rw [lookup_erase, Function.update_self]
  · rw [lookup_erase_ne hsame, Function.update_of_ne hsame, hfiles]

end Tracks

/-- The index maps exactly these files to the policies they hold. -/
def Follows (held : String → Option Source.Policy) (idx : StorageIndex) : Prop :=
  (∀ file, idx.fileToModID.lookup file = (held file).map (fun p => p.fqn)) ∧
    ∀ id file, idx.modIDToFile.lookup id = some file ↔ ∃ p, held file = some p ∧ p.fqn = id

theorem Tracks.follows {held : String → Option Source.Policy} {idx : StorageIndex}
    (h : Tracks held idx) : Follows held idx :=
  ⟨h.fileToModID_eq, fun id file => h.modIDToFile_iff file id⟩

end AccessManagement.Storage
