/-
  AccessManagement.Storage.BlobRun — RUNS OF THE BLOB STORE.

  The cloner takes a listing as known as soon as it has it.  An update that fails afterwards (a
  policy that cannot be read, a work directory that cannot be made, an index that does not build)
  leaves the store with its old files, and the next update finds nothing new: it succeeds without
  an event.

  Main results:
    * `clone_spec` — the cloner finds the differences between two listings.
    * `steady_step` — an update in which nothing goes wrong after the listing serves the new files.
    * `changes_announced` — a run of such updates announces every change.
-/
import AccessManagement.Storage.BlobEvents

namespace AccessManagement.Storage

open List Externals

namespace Blob

open Lib Paths

/-! ## §1. The cloner compares two listings. -/

/-- A file of the bucket that the store takes in. -/
def Listed (objects : List Object) (file etag : String) : Prop :=
  ∃ o ∈ objects, fileOfKey o.key = file ∧ fileType file ≠ .notIndexed ∧
    isSupportedFileType (baseName file) = true ∧ o.md5 = some etag

variable {objects : List Object} {state : Cloned} {cr cr' : Cloned × List Info}
  {fetches : Object → Bool} {o : Object} {all : Cloned} {file etag : String}

theorem Listed.cons :
    Listed (o :: objects) file etag ↔ Listed [o] file etag ∨ Listed objects file etag := by
  unfold Listed
  simp only [mem_cons, not_mem_nil, or_false, or_and_right, exists_or]

/-- A file that the cloner knows. -/
def Has (cloned : Cloned) (file etag : String) : Prop := file ∈ (cloned.lookup etag).getD []

theorem not_has_empty : ¬ Has ∅ file etag := List.not_mem_nil

@[grind =] theorem has_insert {file' etag' : String} :
    Has (all.insert etag ((all.lookup etag).getD [] ++ [file])) file' etag' ↔
      Has all file' etag' ∨ file' = file ∧ etag' = etag := by
  unfold Has
  grind

/-- What the cloner needs for a listing: it ends, the objects have hashes, and the new ones can be
downloaded. -/
structure CanList (state : Cloned) (poll : Poll) : Prop where
  complete : poll.complete = true
  hashed : ∀ o ∈ poll.objects, fileType (fileOfKey o.key) ≠ .notIndexed → o.md5 ≠ none
  fetched : ∀ o ∈ poll.objects, ∀ etag, Listed [o] (fileOfKey o.key) etag →
    state.lookup etag = none → poll.fetches o = true

/-- What one object of the listing does. -/
structure Takes (state : Cloned) (fetches : Object → Bool) (o : Object)
    (cr cr' : Cloned × List Info) : Prop where
  all : ∀ file etag, Has cr'.1 file etag ↔ Has cr.1 file etag ∨ Listed [o] file etag
  added : ∀ file etag, (⟨etag, file⟩ : Info) ∈ cr'.2 ↔
    (⟨etag, file⟩ : Info) ∈ cr.2 ∨ Listed [o] file etag ∧ ¬ Has state file etag
  hashed : fileType (fileOfKey o.key) ≠ .notIndexed → o.md5 ≠ none
  fetched : ∀ etag, Listed [o] (fileOfKey o.key) etag → state.lookup etag = none → fetches o = true

@[grind =] theorem listed_singleton : Listed [o] file etag ↔
    file = fileOfKey o.key ∧ fileType (fileOfKey o.key) ≠ .notIndexed ∧
      isSupportedFileType (baseName (fileOfKey o.key)) = true ∧ o.md5 = some etag := by
  constructor
  · rintro ⟨o', ho', rfl, hrest⟩
    cases mem_singleton.mp ho'
    exact ⟨rfl, hrest⟩
  · rintro ⟨rfl, hrest⟩
    exact ⟨o, mem_singleton_self _, rfl, hrest⟩

/-- **One object**, when there is no error. -/
theorem takes_of_cloneObject (h : cloneObject state fetches cr o = .ok cr') :
    Takes state fetches o cr cr' := by
  unfold cloneObject at h
  by_cases htype : fileType (fileOfKey o.key) = .notIndexed
  · constructor <;> grind
  rw [if_neg htype] at h
  cases hmd5 : o.md5 with
  | none => rw [hmd5] at h; cases h
  | some etag =>
    by_cases hsupported : isSupportedFileType (baseName (fileOfKey o.key)) = false
    · constructor <;> grind
    cases hstate : state.lookup etag with
    | some existingFiles =>
      -- only the contents are known, or also the name
      have hhas : Has state (fileOfKey o.key) etag ↔ fileOfKey o.key ∈ existingFiles := by
        rw [Has, hstate, Option.getD_some]
      constructor <;> grind
    | none =>
      have hnot : ¬ Has state (fileOfKey o.key) etag := by simp [Has, hstate]
      constructor <;> grind

/-- The listing, by induction on its objects. -/
theorem foldlM_cloneObject (h : objects.foldlM (cloneObject state fetches) cr = .ok cr') :
    (∀ file etag, Has cr'.1 file etag ↔ Has cr.1 file etag ∨ Listed objects file etag) ∧
      (∀ file etag, (⟨etag, file⟩ : Info) ∈ cr'.2 ↔
        (⟨etag, file⟩ : Info) ∈ cr.2 ∨ Listed objects file etag ∧ ¬ Has state file etag) ∧
      ∀ o ∈ objects, (fileType (fileOfKey o.key) ≠ .notIndexed → o.md5 ≠ none) ∧
        ∀ etag, Listed [o] (fileOfKey o.key) etag → state.lookup etag = none →
          fetches o = true := by
  induction objects generalizing cr cr' with
  | nil =>
    cases h
    simp [Listed]
  | cons o _ ih =>
    rw [foldlM_cons] at h
    cases hstep : cloneObject state fetches cr o with
    | error => rw [hstep] at h; cases h
    | ok =>
      rw [hstep] at h
      have htakes := takes_of_cloneObject hstep
      obtain ⟨hall, hadded, hrest⟩ := ih h
      refine ⟨fun file etag => ?_, fun file etag => ?_, fun o' ho' => ?_⟩
      · rw [hall, htakes.all, or_assoc, ← Listed.cons]
      · rw [hadded, htakes.added, or_assoc, ← or_and_right, ← Listed.cons]
      · rcases mem_cons.mp ho' with rfl | hin
        · exact ⟨htakes.hashed, htakes.fetched⟩
        · exact hrest o' hin

theorem isDeleted_iff : isDeleted all etag file = true ↔ ¬ Has all file etag := by
  unfold isDeleted Has
  cases all.lookup etag <;> simp

/-- The files that the cloner knows, in whatever order its map is gone through. -/
theorem has_iff_entry (order : MapOrder (Sigma fun _ : String => List String)) :
    Has all file etag ↔ ∃ files, (⟨etag, files⟩ : Sigma fun _ => _) ∈ order.order all.entries ∧
      file ∈ files := by
  simp only [(order.perm _).mem_iff, ← AList.mem_lookup_iff, Has]
  cases all.lookup etag <;> simp

/-- **The cloner** finds the differences between what it knows and the listing. -/
theorem clone_spec {poll : Poll} {cr : CloneResult} (h : clone state poll = .ok cr) :
    CanList state poll ∧ (∀ file etag, Has cr.all file etag ↔ Listed poll.objects file etag) ∧
      (∀ inf, inf ∈ cr.addedOrUpdated ↔
        Listed poll.objects inf.file inf.etag ∧ ¬ Has state inf.file inf.etag) ∧
      ∀ inf, inf ∈ cr.deleted ↔
        Has state inf.file inf.etag ∧ ¬ Listed poll.objects inf.file inf.etag := by
  unfold clone at h
  cases hfold : poll.objects.foldlM (cloneObject state poll.fetches) (∅, []) with
  | error => rw [hfold] at h; cases h
  | ok result =>
    obtain ⟨all, added⟩ := result
    rw [hfold] at h
    dsimp only at h
    obtain ⟨hall, hadded, hlist⟩ := foldlM_cloneObject hfold
    have hall' : ∀ file etag, Has all file etag ↔ Listed poll.objects file etag :=
      fun file etag => (hall file etag).trans (or_iff_right not_has_empty)
    by_cases hcomplete : poll.complete = true
    · rw [if_pos hcomplete] at h
      cases h
      refine ⟨⟨hcomplete, fun o ho => (hlist o ho).1, fun o ho => (hlist o ho).2⟩, hall',
        fun inf => (hadded inf.file inf.etag).trans (or_iff_right not_mem_nil), fun inf => ?_⟩
      rw [mem_flatMap, ← hall', has_iff_entry poll.stateOrder]
      constructor
      · rintro ⟨⟨etag, files⟩, he, hinf⟩
        obtain ⟨file, hfile, rfl⟩ := mem_map.mp hinf
        obtain ⟨hin, hdel⟩ := mem_filter.mp hfile
        exact ⟨⟨files, he, hin⟩, isDeleted_iff.mp hdel⟩
      · rintro ⟨⟨files, he, hin⟩, hnot⟩
        exact ⟨⟨inf.etag, files⟩, he,
          mem_map.mpr ⟨inf.file, mem_filter.mpr ⟨hin, isDeleted_iff.mpr hnot⟩, rfl⟩⟩
    · rw [if_neg hcomplete] at h
      cases h

/-! ## §2. The work directory. -/

/-- A directory links the files of a listing. -/
def Shows (dir : WorkDir) (objects : List Object) : Prop :=
  ∀ file etag, dir.lookup file = some etag ↔ Listed objects file etag

/-- No file is listed with different contents. -/
def OneContent (objects : List Object) : Prop :=
  ∀ file etag etag', Listed objects file etag → Listed objects file etag' → etag = etag'

/-- Links that are made one after the other. -/
theorem lookup_links : ∀ (links : List (String × String)) (dir : WorkDir) (file : String),
    (∀ etag, (links.foldl (fun dir l => dir.insert l.1 l.2) dir).lookup file = some etag →
      dir.lookup file = some etag ∨ (file, etag) ∈ links) ∧
    ((dir.lookup file).isSome = true ∨ (∃ etag, (file, etag) ∈ links) →
      ((links.foldl (fun dir l => dir.insert l.1 l.2) dir).lookup file).isSome = true) := by
  intro links
  induction links with
  | nil => simp
  | cons l _ ih =>
    intro dir file
    obtain ⟨hsound, hcomplete⟩ := ih (dir.insert l.1 l.2) file
    constructor <;> grind

/-- The links that are made. -/
def links (entries : List (Sigma fun _ : String => List String)) : List (String × String) :=
  entries.flatMap (fun e => e.2.map (fun file => (file, e.1)))

theorem createSymlinks_eq (order : MapOrder (Sigma fun _ : String => List String)) (all : Cloned) :
    createSymlinks order all =
      (links (order.order all.entries)).foldl (fun dir l => dir.insert l.1 l.2) ∅ := by
  unfold createSymlinks links
  rw [foldl_flatMap]
  simp only [foldl_map]

variable {order : MapOrder (Sigma fun _ : String => List String)}

theorem mem_links : (file, etag) ∈ links (order.order all.entries) ↔ Has all file etag := by
  rw [links, mem_flatMap, has_iff_entry order]
  constructor
  · rintro ⟨⟨etag', files⟩, he, hin⟩
    obtain ⟨file', hfile', heq⟩ := mem_map.mp hin
    cases heq
    exact ⟨files, he, hfile'⟩
  · rintro ⟨files, he, hin⟩
    exact ⟨⟨etag, files⟩, he, mem_map_of_mem hin⟩

/-- The new work directory shows the listing. -/
theorem shows_createSymlinks (hall : ∀ file etag, Has all file etag ↔ Listed objects file etag)
    (hone : OneContent objects) : Shows (createSymlinks order all) objects := by
  intro file etag
  obtain ⟨hsound, hcomplete⟩ := lookup_links _ ∅ file
  rw [createSymlinks_eq, ← hall, ← @mem_links _ _ _ order]
  constructor
  · intro h
    exact (hsound etag h).resolve_left (fun hnone => by cases hnone)
  · intro h
    obtain ⟨etag', hlook⟩ := Option.isSome_iff_exists.mp (hcomplete (.inr ⟨etag, h⟩))
    have hin := (hsound etag' hlook).resolve_left (fun hnone => by cases hnone)
    rw [mem_links, hall] at h hin
    rw [hlook, hone file etag' etag hin h]

/-! ## §3. An update in which nothing goes wrong. -/

/-- A file with contents that only one of two listings has. -/
def Differs (last objects : List Object) (file etag : String) : Prop :=
  ¬ (Listed last file etag ↔ Listed objects file etag)

variable (x : Externals) (contents : String → RawFile)

/-- Nothing goes wrong after the listing: no file is listed twice, and if anything is different
from the last time, the files can be opened, the changed policy files hold policies, and the new
set of files makes an index. -/
structure Clear (last : List Object) (poll : Poll) : Prop where
  one : OneContent poll.objects
  ready : ∀ file etag, Differs last poll.objects file etag →
    poll.prepares = true ∧ poll.walks = true
  readable : ∀ file etag, Differs last poll.objects file etag → fileType file = .policy →
    poll.opens file = true ∧ ∃ p, (contents etag).read = .ok (some p)
  builds : ∀ file etag, Differs last poll.objects file etag → ∀ dir, Shows dir poll.objects →
    ∃ idx, build x ((workTree contents dir).directory isPolicy) = .ok idx

/-- The store serves the files of a listing. -/
def Serves (s : BlobStore) (objects : List Object) : Prop :=
  Shows s.currDir objects ∧ build x ((workTree contents s.currDir).directory isPolicy) = .ok s.idx

/-- The store serves the files that the cloner knows. -/
structure Steady (s : BlobStore) (objects : List Object) : Prop where
  cloned : ∀ file etag, Has s.cloned file etag ↔ Listed objects file etag
  served : Serves x contents s objects

variable {x contents}

section Update

variable {kind : StorageIndex.EventKind} {schemaEvent : String → StoreEvent}
  {opens : String → Bool} {dir : WorkDir} {inf : Info}

/-- The event of a policy file that can be read. -/
theorem fileEvent_policy {p : Source.Policy} (htype : fileType inf.file = .policy)
    (hlook : dir.lookup inf.file = some inf.etag) (hopens : opens inf.file = true)
    (hread : (contents inf.etag).read = .ok (some p)) :
    fileEvent kind schemaEvent contents opens dir inf =
      .ok (.policy { kind := kind, policyID := p.fqn }) := by
  unfold fileEvent readPolicy
  rw [relativeSchemaPath_eq_none htype, hlook]
  dsimp only
  rw [if_pos hopens, hread]

theorem fileEvent_schema (htype : fileType inf.file = .schema) :
    ∃ e, fileEvent kind schemaEvent contents opens dir inf = .ok e := by
  obtain ⟨schemaFile, hschema⟩ := relativeSchemaPath_of_schema htype
  unfold fileEvent
  rw [hschema]
  exact ⟨_, rfl⟩

/-- The events of changed files that are linked in a directory. -/
theorem fileEvents_ok {last objects listing : List Object} {infs : List Info}
    (hlisted : ∀ inf ∈ infs, Listed listing inf.file inf.etag) (hshows : Shows dir listing)
    (hdiffers : ∀ inf ∈ infs, Differs last objects inf.file inf.etag)
    (hreadable : ∀ file etag, Differs last objects file etag → fileType file = .policy →
      opens file = true ∧ ∃ p, (contents etag).read = .ok (some p)) :
    ∃ events, infs.mapM (fileEvent kind schemaEvent contents opens dir) = .ok events := by
  refine exists_mapM (fun inf hinf => ?_)
  have hindexed : fileType inf.file ≠ .notIndexed := by
    obtain ⟨o, -, -, hindexed, -⟩ := hlisted inf hinf
    exact hindexed
  cases htype : fileType inf.file with
  | policy =>
    obtain ⟨hopens, p, hread⟩ := hreadable _ _ (hdiffers inf hinf) htype
    exact ⟨_, fileEvent_policy htype ((hshows _ _).mpr (hlisted inf hinf)) hopens hread⟩
  | schema => exact fileEvent_schema htype
  | notIndexed => exact (hindexed htype).elim

variable {s : BlobStore} {last : List Object} {poll : Poll} {cr : CloneResult}

/-- Changes are found where the listings differ. -/
theorem differs_iff (h : Steady x contents s last) (hclone : clone s.cloned poll = .ok cr)
    (inf : Info) : Differs last poll.objects inf.file inf.etag ↔
      inf ∈ cr.addedOrUpdated ∨ inf ∈ cr.deleted := by
  obtain ⟨-, -, hadded, hdel⟩ := clone_spec hclone
  rw [hadded, hdel, h.cloned]
  unfold Differs
  tauto

/-- The event of a file is among those that are sent. -/
theorem mem_allEvents {idx : StorageIndex} {deletions additions : List StoreEvent} {e : StoreEvent}
    (h : e ∈ deletions ∨ e ∈ additions) : e ∈ allEvents idx order deletions additions := by
  exact mem_append_left _ (mem_append.mpr h)

/-- The kinds of events that tell of a change. -/
def IsChange (event : StorageIndex.Event) : Prop :=
  event.kind = .addOrUpdatePolicy ∨ event.kind = .deleteOrDisablePolicy

/-- **A clear update** serves the new files and tells of the changed ones. -/
theorem updateIndex_clear (h : Steady x contents s last) (hclone : clone s.cloned poll = .ok cr)
    (hclear : Clear x contents last poll) : (updateIndex x contents s poll).error = none ∧
      Steady x contents (updateIndex x contents s poll).store poll.objects ∧
      ∀ (inf : Info) (p : Source.Policy), fileType inf.file = .policy →
        Differs last poll.objects inf.file inf.etag → (contents inf.etag).read = .ok (some p) →
        ∃ event, StoreEvent.policy event ∈ (updateIndex x contents s poll).emitted ∧
          IsChange event ∧ event.policyID = p.fqn := by
  obtain ⟨-, hall, hadded, hdel⟩ := clone_spec hclone
  have hdiffers := differs_iff h hclone
  unfold updateIndex applyChanges
  rw [hclone]
  dsimp only
  by_cases hempty : cr.isEmpty = true
  · rw [if_pos hempty]
    have hsame : ∀ file etag, Listed last file etag ↔ Listed poll.objects file etag := by
      intro file etag
      by_contra hdiff
      have hfound := (hdiffers ⟨etag, file⟩).mp hdiff
      simp_all [CloneResult.isEmpty]
    refine ⟨rfl, ⟨hall, fun file etag => ?_, h.served.2⟩, fun inf p _ hdiff _ => ?_⟩
    · exact (h.served.1 file etag).trans (hsame file etag)
    · exact (hdiff (hsame _ _)).elim
  rw [if_neg hempty]
  -- something is different, so the update goes through to its end
  obtain ⟨inf₀, hinf₀⟩ : ∃ inf : Info, Differs last poll.objects inf.file inf.etag := by
    by_contra hnone
    refine hempty (Bool.and_eq_true_iff.mpr ⟨?_, ?_⟩) <;>
      refine isEmpty_iff.mpr (eq_nil_iff_forall_not_mem.mpr (fun inf hinf => ?_))
    · exact hnone ⟨inf, (hdiffers inf).mpr (.inl hinf)⟩
    · exact hnone ⟨inf, (hdiffers inf).mpr (.inr hinf)⟩
  obtain ⟨hpre, hwalks⟩ := hclear.ready _ _ hinf₀
  have hshows : Shows (createSymlinks poll.allOrder cr.all) poll.objects :=
    shows_createSymlinks hall hclear.one
  obtain ⟨idx, hbuild⟩ := hclear.builds _ _ hinf₀ _ hshows
  obtain ⟨deletions, hdeletions⟩ : ∃ events,
      cr.deleted.mapM (deleteEvent contents poll.opens s.currDir) = .ok events :=
    fileEvents_ok (fun inf hinf => (h.cloned _ _).mp ((hdel inf).mp hinf).1) h.served.1
      (fun inf hinf => (hdiffers inf).mpr (.inr hinf)) hclear.readable
  obtain ⟨additions, hadd⟩ : ∃ events, cr.addedOrUpdated.mapM (addOrUpdateEvent contents
      poll.opens (createSymlinks poll.allOrder cr.all)) = .ok events :=
    fileEvents_ok (fun inf hinf => ((hadded inf).mp hinf).1) hshows
      (fun inf hinf => (hdiffers inf).mpr (.inl hinf)) hclear.readable
  rw [hdeletions]
  dsimp only
  rw [if_pos hpre, hadd]
  dsimp only
  unfold finishUpdate
  rw [if_pos hwalks, hbuild]
  refine ⟨rfl, ⟨hall, hshows, hbuild⟩, fun inf p htype hdiff hread => ?_⟩
  obtain ⟨hopens, -⟩ := hclear.readable _ _ hdiff htype
  rcases (hdiffers inf).mp hdiff with hin | hin
  · obtain ⟨e, he, hevent⟩ := mem_of_mapM hadd hin
    have hlook := (hshows _ _).mpr ((hadded inf).mp hin).1
    cases (fileEvent_policy htype hlook hopens hread).symm.trans hevent
    exact ⟨_, mem_allEvents (.inr he), .inl rfl, rfl⟩
  · obtain ⟨e, he, hevent⟩ := mem_of_mapM hdeletions hin
    have hlook := (h.served.1 _ _).mpr ((h.cloned _ _).mp ((hdel inf).mp hin).1)
    cases (fileEvent_policy htype hlook hopens hread).symm.trans hevent
    exact ⟨_, mem_allEvents (.inl he), .inr rfl, rfl⟩

end Update

/-! ## §4. Runs. -/

/-- A store, with the listing of the last update that succeeded, and what was sent since by which
store. -/
structure History where
  store : BlobStore
  content : List Object
  sent : List (BlobStore × List StoreEvent) := []

variable (x contents)

/-- What has been sent when an update returns. -/
def History.sentWith (h : History) (poll : Poll) : List (BlobStore × List StoreEvent) :=
  let o := updateIndex x contents h.store poll
  h.sent ++ [(o.store, o.emitted)]

def History.step (h : History) (poll : Poll) : History :=
  let o := updateIndex x contents h.store poll
  match o.error with
  | none => { store := o.store, content := poll.objects }
  | some _ => { store := o.store, content := h.content, sent := h.sentWith x contents poll }

def History.run (h : History) (polls : List Poll) : History :=
  polls.foldl (fun h poll => h.step x contents poll) h

/-- If the update succeeds, the changes since the last success were announced by a store that has
them. -/
def Announced (h : History) (poll : Poll) : Prop :=
  (updateIndex x contents h.store poll).error = none →
    ∀ file etag p, fileType file = .policy → Differs h.content poll.objects file etag →
      (contents etag).read = .ok (some p) →
      ∃ moment ∈ h.sentWith x contents poll, Serves x contents moment.1 poll.objects ∧
        ∃ event, StoreEvent.policy event ∈ moment.2 ∧ IsChange event ∧ event.policyID = p.fqn

/-- Every update of the run that gets a listing is clear. -/
def ClearThroughout (h : History) (polls : List Poll) : Prop :=
  ∀ before poll after, polls = before ++ poll :: after →
    CanList (h.run x contents before).store.cloned poll →
    Clear x contents (h.run x contents before).content poll

variable {x contents} {h : History} {s : BlobStore}

/-- Without a listing nothing happens. -/
theorem updateIndex_of_not_canList {poll : Poll} (h : ¬ CanList s.cloned poll) :
    ∃ e, updateIndex x contents s poll = ⟨s, some (.clone e), []⟩ := by
  unfold updateIndex
  cases hclone : clone s.cloned poll with
  | error e => exact ⟨e, rfl⟩
  | ok => exact (h (clone_spec hclone).1).elim

theorem content_step_of_not_canList {poll : Poll}
    (hnot : ¬ CanList h.store.cloned poll) : (h.step x contents poll).content = h.content := by
  obtain ⟨e, hout⟩ := @updateIndex_of_not_canList x contents _ _ hnot
  unfold History.step
  rw [hout]

/-- **One update**: it does not get a listing, or it is clear. -/
theorem steady_step {poll : Poll} (hsteady : Steady x contents h.store h.content)
    (hclear : CanList h.store.cloned poll → Clear x contents h.content poll) :
    Steady x contents (h.step x contents poll).store (h.step x contents poll).content ∧
      Announced x contents h poll := by
  cases hclone : clone h.store.cloned poll with
  | error e =>
    have hout : updateIndex x contents h.store poll = ⟨h.store, some (.clone e), []⟩ := by
      unfold updateIndex
      rw [hclone]
    constructor
    · unfold History.step
      rw [hout]
      exact hsteady
    · intro hnil
      rw [hout] at hnil
      cases hnil
  | ok =>
    obtain ⟨herror, hsteady', hevents⟩ :=
      updateIndex_clear hsteady hclone (hclear (clone_spec hclone).1)
    constructor
    · unfold History.step
      dsimp only
      rw [herror]
      exact hsteady'
    · intro _ file etag p htype hdiff hread
      exact ⟨_, mem_append_right _ (mem_singleton_self _), hsteady'.served,
        hevents ⟨etag, file⟩ p htype hdiff hread⟩

/-- The run, by induction on the updates. -/
theorem steady_run {polls : List Poll} (hsteady : Steady x contents h.store h.content)
    (hclear : ClearThroughout x contents h polls) :
    Steady x contents (h.run x contents polls).store (h.run x contents polls).content := by
  induction polls generalizing h with
  | nil => exact hsteady
  | cons poll polls ih =>
    refine @ih _ (steady_step hsteady (hclear [] poll polls rfl)).1 ?_
    intro before poll' after hsplit
    refine hclear (poll :: before) poll' after ?_
    rw [hsplit]
    rfl

theorem steady_init {poll : Poll} (h : init x contents poll = .ok s)
    (hone : OneContent poll.objects) : Steady x contents s poll.objects := by
  obtain ⟨cr, hclone, hcloned, hdir, hbuild⟩ := init_ok h
  have hall := (clone_spec hclone).2.1
  refine ⟨?_, ?_, hbuild⟩
  · rw [hcloned]
    exact hall
  · rw [hdir]
    exact shows_createSymlinks hall hone

/-- **Every change is announced** in a run of updates that are clear whenever they get a listing. -/
theorem changes_announced {poll₀ : Poll} {s : BlobStore} {polls : List Poll}
    (hinit : init x contents poll₀ = .ok s) (hone : OneContent poll₀.objects)
    (hclear : ClearThroughout x contents ⟨s, poll₀.objects, []⟩ polls) :
    ∀ before poll after, polls = before ++ poll :: after →
      Announced x contents (History.run x contents ⟨s, poll₀.objects, []⟩ before) poll := by
  intro before poll after hsplit
  refine (steady_step (steady_run (steady_init hinit hone) ?_) (hclear before poll after hsplit)).2
  intro before' poll' after' hsplit'
  refine hclear before' poll' (after' ++ poll :: after) ?_
  rw [hsplit, hsplit', append_assoc]
  rfl

/-- A bucket with one file. -/
def limitsPoll (etag : String) : Poll := smoothPoll [("limits.yaml", etag)]

theorem listed_limits {etag file etag' : String} :
    Listed (limitsPoll etag).objects file etag' ↔ file = "limits.yaml" ∧ etag' = etag := by
  have hindexed : fileType "limits.yaml" ≠ .notIndexed ∧
      isSupportedFileType (baseName "limits.yaml") = true ∧
      fileOfKey "limits.yaml" = "limits.yaml" := by decide +kernel
  refine listed_singleton.trans ?_
  rw [hindexed.2.2, Option.some.injEq]
  constructor
  · rintro ⟨hfile, -, -, heq⟩
    exact ⟨hfile, heq.symm⟩
  · rintro ⟨hfile, heq⟩
    exact ⟨hfile, hindexed.1, hindexed.2.1, heq.symm⟩

/-- One link is all there is to the directory. -/
theorem eq_of_shows_limits {dir : WorkDir} {etag : String}
    (h : Shows dir (limitsPoll etag).objects) : dir = (∅ : WorkDir).insert "limits.yaml" etag := by
  have hmem : ∀ e : Sigma (fun _ : String => String), e ∈ dir.entries ↔ e = ⟨"limits.yaml", etag⟩ := by
    rintro ⟨file, etag'⟩
    rw [← AList.mem_lookup_iff, Option.mem_def, h, listed_limits]
    constructor
    · rintro ⟨rfl, rfl⟩
      rfl
    · intro heq
      cases heq
      exact ⟨rfl, rfl⟩
  refine AList.ext ?_
  have hnodup : dir.entries.Nodup := dir.nodupKeys.nodup
  have hperm : dir.entries.Perm [⟨"limits.yaml", etag⟩] := by
    refine (perm_ext_iff_of_nodup hnodup (nodup_singleton _)).mpr (fun e => ?_)
    rw [hmem, mem_singleton]
  exact perm_singleton.mp hperm

theorem clear_limits : Clear sample officeContents (limitsPoll "l1").objects (limitsPoll "l2") where
  one file etag etag' h h' :=
    (listed_limits.mp h).2.trans (listed_limits.mp h').2.symm
  ready _ _ _ := ⟨rfl, rfl⟩
  readable file etag hdiff _ := by
    refine ⟨rfl, ?_⟩
    by_cases hfirst : etag = "l1"
    · subst hfirst
      exact ⟨_, rfl⟩
    · by_cases hsec : etag = "l2"
      · subst hsec
        exact ⟨_, rfl⟩
      · refine (hdiff ?_).elim
        rw [listed_limits, listed_limits]
        simp [hfirst, hsec]
  builds _ _ _ dir hdir := by
    rw [eq_of_shows_limits hdir]
    exact Lib.isOk_iff.mp (by decide +kernel)

/-- A change is announced when the next update got no listing. -/
theorem change_announced_after_outage :
    ∃ s, init Externals.sample officeContents (limitsPoll "l1") = .ok s ∧
      Announced Externals.sample officeContents (History.run Externals.sample officeContents
        ⟨s, (limitsPoll "l1").objects, []⟩ [{ limitsPoll "l2" with complete := false }])
        (limitsPoll "l2") := by
  obtain ⟨s, hinit⟩ := isOk_iff.mp
    (show (init sample officeContents (limitsPoll "l1")).isOk = true by decide +kernel)
  refine ⟨s, hinit, ?_⟩
  have hnot : ∀ state, ¬ CanList state { limitsPoll "l2" with complete := false } := by
    intro state hcan
    cases hcan.complete
  refine @changes_announced _ _ _ s [{ limitsPoll "l2" with complete := false }, limitsPoll "l2"]
    hinit ?_ ?_ [{ limitsPoll "l2" with complete := false }] (limitsPoll "l2") [] rfl
  · intro file etag etag' h h'
    exact (listed_limits.mp h).2.trans (listed_limits.mp h').2.symm
  · intro before poll after hsplit hcan
    rcases before with _ | ⟨first, _ | ⟨second, _ | ⟨third, before⟩⟩⟩ <;> cases hsplit
    · exact (hnot _ hcan).elim
    · have hcontent := @content_step_of_not_canList sample officeContents
        ⟨s, (limitsPoll "l1").objects, []⟩ _ (hnot _)
      unfold History.run
      rw [foldl_cons, foldl_nil, hcontent]
      exact clear_limits

/-- The work directory cannot be made once: the update fails, the next one finds nothing new and
succeeds, and the change was never announced. -/
theorem change_not_announced_after_failure :
    ∃ s, init Externals.sample officeContents (limitsPoll "l1") = .ok s ∧
      (updateIndex Externals.sample officeContents (History.run Externals.sample officeContents
        ⟨s, (limitsPoll "l1").objects, []⟩ [{ limitsPoll "l2" with prepares := false }]).store
        (limitsPoll "l2")).error = none ∧
      ¬ Announced Externals.sample officeContents (History.run Externals.sample officeContents
        ⟨s, (limitsPoll "l1").objects, []⟩ [{ limitsPoll "l2" with prepares := false }])
        (limitsPoll "l2") := by
  obtain ⟨s, hinit, heval⟩ := toOption_map_eq_some_iff.mp
    (show (init sample officeContents (limitsPoll "l1")).toOption.map (fun s =>
      let h := History.run sample officeContents ⟨s, (limitsPoll "l1").objects, []⟩
        [{ limitsPoll "l2" with prepares := false }]
      (h.content, (updateIndex sample officeContents h.store (limitsPoll "l2")).error,
        (h.sentWith sample officeContents (limitsPoll "l2")).map Prod.snd)) =
      some ((limitsPoll "l1").objects, none, [[], []]) by
    decide +kernel)
  simp only [Prod.mk.injEq] at heval
  obtain ⟨hcontent, hnil, hsent⟩ := heval
  refine ⟨s, hinit, hnil, fun hannounced => ?_⟩
  have hdiff : Differs (limitsPoll "l1").objects (limitsPoll "l2").objects "limits.yaml" "l2" := by
    intro hsame
    have hold := listed_limits.mp (hsame.mpr (listed_limits.mpr ⟨rfl, rfl⟩))
    exact absurd hold.2 (by decide)
  rw [← hcontent] at hdiff
  obtain ⟨moment, hmoment, -, event, hevent, -⟩ :=
    hannounced hnil "limits.yaml" "l2" _ (by decide +kernel) hdiff rfl
  have hin : moment.2 ∈ [[], ([] : List StoreEvent)] :=
    hsent ▸ mem_map.mpr ⟨moment, hmoment, rfl⟩
  rw [mem_cons, mem_singleton, or_self] at hin
  rw [hin] at hevent
  cases hevent

end Blob

end AccessManagement.Storage
