/-
  AccessManagement.Storage.BlobEvents — WHAT THE EVENTS OF THE BLOB STORE TELL.

  An update should tell of every changed policy and of every policy that depends on one.  The
  dependents are looked up for the IDs in a slice that two loops fill, each from the start: the
  first with the deleted policies, the second with the added ones.  What the second loop writes
  over is not looked up.

  Main results:
    * `mem_transitiveDependents_iff` — `GetDependents` finds the policies that import a module,
      directly or through others.
    * `dependents_announced_iff` — when the events of an update name all dependents.
-/
import AccessManagement.Storage.Blob

namespace AccessManagement.Storage

open Lib Relation List AList

variable {opens : String → Bool} {files : Files} {idx : StorageIndex}

/-! ## §1. `GetDependents`. -/

namespace StorageIndex

variable {idx : StorageIndex}

/-- The search has fuel for all modules that can be found. -/
theorem mem_transitiveDependents_edge {id d : String} :
    d ∈ idx.transitiveDependents id ↔ TransGen (Edge idx.dependents.members) id d := by
  refine @mem_collect_iff _ _ _ idx.dependentModules.toFinset ?_ _ ?_ id d
  · intro a b hb
    rw [mem_toFinset, dependentModules, mem_flatMap]
    unfold SetMap.members at hb
    cases ha : idx.dependents.lookup a with
    | none => rw [ha] at hb; cases hb
    | some ds =>
      rw [ha] at hb
      exact ⟨⟨a, ds⟩, mem_lookup_iff.mp ha, hb⟩
  · have hcard := toFinset_card_le idx.dependentModules
    omega

theorem lookup_getDependents (ids : List String) (id : String) : (idx.getDependents ids).lookup id =
      if id ∈ ids then some (idx.transitiveDependents id) else none := by
  induction ids using List.reverseRecOn with
  | nil => rfl
  | append_singleton ids a ih =>
    have hstep : idx.getDependents (ids ++ [a]) =
        (idx.getDependents ids).insert a (idx.transitiveDependents a) := foldl_append
    rw [hstep, lookup_insert_ite, ih]
    by_cases ha : id = a <;> simp [ha]

/-- What all lists of the result have together. -/
theorem mem_getDependents {ids : List String} {d : String} :
    d ∈ (idx.getDependents ids).entries.flatMap (fun e => e.2) ↔
      ∃ id ∈ ids, d ∈ idx.transitiveDependents id := by
  rw [mem_flatMap]
  constructor
  · rintro ⟨⟨id, ds⟩, he, hd⟩
    have hlook := mem_lookup_iff.mpr he
    simp only [lookup_getDependents] at hlook
    split at hlook <;> cases hlook
    exact ⟨id, by assumption, hd⟩
  · rintro ⟨id, hid, hd⟩
    refine ⟨⟨id, idx.transitiveDependents id⟩, mem_lookup_iff.mp ?_, hd⟩
    rw [Option.mem_def, lookup_getDependents, if_pos hid]

end StorageIndex

/-- **The policies that import a module**, directly or through others, are its dependents. -/
theorem Consistent.mem_transitiveDependents_iff (h : Consistent files idx) {id d : String} :
    d ∈ idx.transitiveDependents id ↔ TransGen (ImportsModule files) d id := by
  have hedge : Edge idx.dependents.members = Function.swap (ImportsModule files) := by
    funext a b
    exact propext ((h.mirrored b a).trans (h.imports b a))
  rw [StorageIndex.mem_transitiveDependents_edge, hedge, transGen_swap]

/-- Nothing imports a module without a name. -/
theorem not_importsModule_empty {c : String} : ¬ TransGen (ImportsModule files) c "" := by
  intro h
  obtain ⟨b, -, file, p, -, hd⟩ := TransGen.tail'_iff.mp h
  have hrank := kindRank_dependencies p hd
  have hempty : kindRank (kindFromFqn "") = 2 := by decide +kernel
  rw [hempty] at hrank
  unfold kindRank at hrank
  split at hrank <;> omega

/-- A module that is defined has a name. -/
theorem fqn_ne_empty (p : Source.Policy) : p.fqn ≠ "" := by
  intro hempty
  have hkind := kindFromFqn_fqn p
  rw [hempty] at hkind
  unfold Source.Policy.kind at hkind
  split at hkind <;> cases hkind

theorem Consistent.ne_empty (h : Consistent files idx)
    {id : String} (hid : id ∈ idx.modIDToFile) : id ≠ "" := by
  obtain ⟨file, hfile⟩ := Option.isSome_iff_exists.mp (lookup_isSome.mpr hid)
  obtain ⟨p, -, rfl⟩ := (h.held file id).mp ((h.inverse file id).mpr hfile)
  exact fqn_ne_empty p

namespace Blob

open Paths

/-! ## §2. The events of the files. -/

/-- The policy that a file is about, if it is about one. -/
def policyOf (contents : String → RawFile) (opens : String → Bool) (dir : WorkDir) (inf : Info) :
    Option String :=
  match relativeSchemaPath inf.file with
  | some _ => none
  | none => (readPolicy contents opens dir inf.file).toOption.map (fun p => p.fqn)

section Files

variable {kind : StorageIndex.EventKind} {schemaEvent : String → StoreEvent}
  {contents : String → RawFile} {dir : WorkDir} {inf : Info}

/-- The event of a file is about its policy. -/
theorem fileEvent_cases {e : StoreEvent}
    (h : fileEvent kind schemaEvent contents opens dir inf = .ok e) :
    (∃ schemaFile, e = schemaEvent schemaFile ∧ policyOf contents opens dir inf = none) ∨
      ∃ id, e = .policy { kind := kind, policyID := id } ∧
        policyOf contents opens dir inf = some id := by
  unfold fileEvent at h
  unfold policyOf
  cases hschema : relativeSchemaPath inf.file with
  | some schemaFile =>
    simp only [hschema] at h ⊢
    exact .inl ⟨schemaFile, (Except.ok.inj h).symm, trivial⟩
  | none =>
    cases hread : readPolicy contents opens dir inf.file with
    | error => simp [hschema, hread] at h
    | ok p =>
      simp only [hschema, hread] at h ⊢
      exact .inr ⟨p.fqn, (Except.ok.inj h).symm, rfl⟩

variable {infs : List Info} {events : List StoreEvent}
  (h : infs.mapM (fileEvent kind schemaEvent contents opens dir) = .ok events)
  (hschema : ∀ schemaFile event, schemaEvent schemaFile ≠ .policy event)

include h hschema

/-- The IDs that the loops write. -/
theorem policyIDs_of_mapM :
    events.map policyID = infs.map (fun inf => (policyOf contents opens dir inf).getD "") := by
  have hall := mapM_eq_ok.mp h
  clear h
  induction hall with
  | nil => rfl
  | cons he =>
    rw [map_cons, map_cons]
    congr 1
    rcases fileEvent_cases he with ⟨schemaFile, rfl, hnone⟩ | ⟨id, rfl, hsome⟩
    · rw [hnone]
      cases hevent : schemaEvent schemaFile with
      | policy event => exact (hschema schemaFile event hevent).elim
      | addOrUpdateSchema | deleteSchema => rfl
    · rw [hsome]
      rfl

/-- The events of the files carry no dependents. -/
theorem dependents_of_mapM {event : StorageIndex.Event}
    (hevent : StoreEvent.policy event ∈ events) : event.dependents = [] := by
  have hall := mapM_eq_ok.mp h
  clear h
  induction hall with
  | nil => cases hevent
  | cons he _ ih =>
    rcases mem_cons.mp hevent with rfl | hrest
    · rcases fileEvent_cases he with ⟨schemaFile, hnot, -⟩ | ⟨id, hid, -⟩
      · exact (hschema schemaFile event hnot.symm).elim
      · cases hid
        rfl
    · exact ih hrest

end Files

/-! ## §3. The events of an update. -/

/-- An event is about a policy, or names it as a dependent. -/
def Mentions (events : List StoreEvent) (id : String) : Prop :=
  ∃ event, StoreEvent.policy event ∈ events ∧ (event.policyID = id ∨ id ∈ event.dependents)

theorem mem_writeFront {additions deletions : List String} {id : String} (hid : id ≠ "") :
    id ∈ writeFront additions (writeFront deletions
        (List.replicate (additions.length + deletions.length) "")) ↔
      id ∈ additions ∨ id ∈ deletions.drop additions.length := by
  unfold writeFront
  rw [mem_append, drop_append, mem_append]
  refine or_congr_right (or_iff_left ?_)
  intro hzero
  exact hid (eq_of_mem_replicate (mem_of_mem_drop (mem_of_mem_drop hzero)))

/-- Events that carry no dependents. -/
def Plain (events : List StoreEvent) : Prop :=
  ∀ event, StoreEvent.policy event ∈ events → event.dependents = []

theorem mentions_depEvent {processed deps : List String} {id : String} (hid : id ≠ "") :
    Mentions (depEvent processed deps) id ↔ id ∈ deps ∧ id ∉ processed := by
  rw [← mem_newDependents]
  unfold Mentions depEvent
  dsimp only
  split
  · next hempty => simp [isEmpty_iff.mp hempty]
  · constructor
    · rintro ⟨event, hevent, hmentions⟩
      cases mem_singleton.mp hevent
      rcases hmentions with rfl | hin
      · exact (hid rfl).elim
      · exact hin
    · intro hin
      exact ⟨_, mem_singleton_self _, .inr hin⟩

theorem mentions_append {events events' : List StoreEvent} {id : String} :
    Mentions (events ++ events') id ↔ Mentions events id ∨ Mentions events' id := by
  unfold Mentions
  simp only [mem_append, or_and_right, exists_or]

theorem mentions_plain {events : List StoreEvent} (h : Plain events) {id : String} (hid : id ≠ "") :
    Mentions events id ↔ id ∈ events.map policyID := by
  rw [mem_map]
  constructor
  · rintro ⟨event, hevent, rfl | hin⟩
    · exact ⟨_, hevent, rfl⟩
    · rw [h event hevent] at hin
      cases hin
  · rintro ⟨e, he, rfl⟩
    cases e with
    | policy event => exact ⟨event, he, .inl rfl⟩
    | addOrUpdateSchema | deleteSchema => exact (hid rfl).elim

/-- **What the events of an update mention**: the policies of the files, and what depends on the
IDs that are left in the slice. -/
theorem mentions_allEvents {files : Files} {idx : StorageIndex} (h : Consistent files idx)
    {order : MapOrder (Sigma fun _ : String => List String)} {deletions additions : List StoreEvent}
    (hdeletions : Plain deletions) (hadditions : Plain additions) {id : String} (hid : id ≠ "") :
    Mentions (allEvents idx order deletions additions) id ↔
      id ∈ deletions.map policyID ∨ id ∈ additions.map policyID ∨
        ∃ m, (m ∈ additions.map policyID ∨ m ∈ (deletions.map policyID).drop additions.length) ∧
          TransGen (ImportsModule files) id m := by
  have hdeps : id ∈ (order.order (idx.getDependents (writeFront (additions.map policyID)
        (writeFront (deletions.map policyID)
          (List.replicate (additions.length + deletions.length) "")))).entries).flatMap
            (fun e => e.2) ↔
      ∃ m, (m ∈ additions.map policyID ∨ m ∈ (deletions.map policyID).drop additions.length) ∧
        TransGen (ImportsModule files) id m := by
    rw [((order.perm _).flatMap_right _).mem_iff, StorageIndex.mem_getDependents]
    refine exists_congr (fun m => ?_)
    rw [h.mem_transitiveDependents_iff]
    refine and_congr_left (fun himp => ?_)
    have hm : m ≠ "" := by
      rintro rfl
      exact not_importsModule_empty himp
    have hfront := @mem_writeFront (additions.map policyID) (deletions.map policyID) m hm
    rw [length_map, length_map] at hfront
    exact hfront
  unfold allEvents
  rw [mentions_append, mentions_append, mentions_plain hdeletions hid, mentions_plain hadditions hid,
    mentions_depEvent hid, hdeps, mem_append, not_or, or_assoc]
  grind

section Update

variable {x : Externals} {contents : String → RawFile} {poll : Poll} {s : BlobStore}
  {cr : CloneResult} {dir : WorkDir}

/-- Events are sent when all files have theirs. -/
theorem applyChanges_emitted (h : (applyChanges x contents poll s cr).emitted ≠ []) :
    ∃ deletions additions,
      cr.deleted.mapM (deleteEvent contents poll.opens s.currDir) = .ok deletions ∧
      cr.addedOrUpdated.mapM (addOrUpdateEvent contents poll.opens
        (createSymlinks poll.allOrder cr.all)) = .ok additions ∧
      (applyChanges x contents poll s cr).emitted =
        allEvents s.idx poll.depsOrder deletions additions := by
  revert h
  fun_cases applyChanges with
  | case4 =>
    refine fun _ => ⟨_, _, by assumption, by assumption, ?_⟩
    unfold finishUpdate
    split_ifs
    · split <;> rfl
    · rfl
  | _ => exact fun h => (h rfl).elim

/-- The policies of some files of a directory. -/
def PolicyAmong (contents : String → RawFile) (opens : String → Bool) (dir : WorkDir)
    (infs : List Info) (id : String) : Prop :=
  ∃ inf ∈ infs, policyOf contents opens dir inf = some id

theorem mem_policyIDs {infs : List Info} {id : String} (hid : id ≠ "") :
    id ∈ infs.map (fun inf => (policyOf contents opens dir inf).getD "") ↔
      PolicyAmong contents opens dir infs id := by
  rw [mem_map]
  refine exists_congr (fun inf => and_congr_right (fun _ => ?_))
  cases policyOf contents opens dir inf with
  | none => exact ⟨fun h => (hid h.symm).elim, fun h => by cases h⟩
  | some => exact ⟨fun h => congrArg some h, Option.some.inj⟩

theorem PolicyAmong.append {infs infs' : List Info}
    {id : String} : PolicyAmong contents opens dir (infs ++ infs') id ↔
      PolicyAmong contents opens dir infs id ∨ PolicyAmong contents opens dir infs' id := by
  unfold PolicyAmong
  simp only [mem_append, or_and_right, exists_or]

/-- The policies of the deleted files, as they were, and of the added ones, as they are. -/
def DeletedPolicy (contents : String → RawFile) (poll : Poll) (s : BlobStore) :=
  PolicyAmong contents poll.opens s.currDir

def AddedPolicy (contents : String → RawFile) (poll : Poll) (cr : CloneResult) :=
  PolicyAmong contents poll.opens (createSymlinks poll.allOrder cr.all) cr.addedOrUpdated

variable {files : Files}

/-- What the events that are sent mention. -/
theorem mentions_emitted (h : Consistent files s.idx)
    (hemits : (applyChanges x contents poll s cr).emitted ≠ []) {id : String} (hid : id ≠ "") :
    Mentions (applyChanges x contents poll s cr).emitted id ↔
      DeletedPolicy contents poll s cr.deleted id ∨ AddedPolicy contents poll cr id ∨
        ∃ m, (AddedPolicy contents poll cr m ∨
            DeletedPolicy contents poll s (cr.deleted.drop cr.addedOrUpdated.length) m) ∧
          TransGen (ImportsModule files) id m := by
  obtain ⟨deletions, additions, hdeletions, hadditions, hevents⟩ := applyChanges_emitted hemits
  have hdel := policyIDs_of_mapM hdeletions (fun _ _ => StoreEvent.noConfusion)
  have hadd := policyIDs_of_mapM hadditions (fun _ _ => StoreEvent.noConfusion)
  have hlen : additions.length = cr.addedOrUpdated.length :=
    (mapM_eq_ok.mp hadditions).length_eq.symm
  rw [hevents, mentions_allEvents h
    (fun _ => dependents_of_mapM hdeletions (fun _ _ => StoreEvent.noConfusion))
    (fun _ => dependents_of_mapM hadditions (fun _ _ => StoreEvent.noConfusion)) hid,
    hdel, hadd, hlen, ← map_drop, mem_policyIDs hid, mem_policyIDs hid]
  refine or_congr_right (or_congr_right (exists_congr (fun m => and_congr_left (fun himp => ?_))))
  have hm : m ≠ "" := by
    rintro rfl
    exact not_importsModule_empty himp
  exact or_congr (mem_policyIDs hm) (mem_policyIDs hm)

/-- **When the events name all dependents.**  The dependents of the first deleted files, as many
as files were added, are not looked up.  They have to be dependents of another changed file as
well, or policies of changed files themselves. -/
theorem dependents_announced_iff (h : Reached x files s.idx)
    (hemits : (applyChanges x contents poll s cr).emitted ≠ []) :
    (∀ m, DeletedPolicy contents poll s cr.deleted m ∨ AddedPolicy contents poll cr m →
      ∀ q ∈ s.idx.modIDToFile, TransGen (ImportsModule files) q m →
        Mentions (applyChanges x contents poll s cr).emitted q) ↔
    ∀ m, DeletedPolicy contents poll s (cr.deleted.take cr.addedOrUpdated.length) m →
      ∀ q ∈ s.idx.modIDToFile, TransGen (ImportsModule files) q m →
        DeletedPolicy contents poll s cr.deleted q ∨ AddedPolicy contents poll cr q ∨
          ∃ m', (AddedPolicy contents poll cr m' ∨
              DeletedPolicy contents poll s (cr.deleted.drop cr.addedOrUpdated.length) m') ∧
            TransGen (ImportsModule files) q m' := by
  have hc := h.consistent
  have hsplit : ∀ m, DeletedPolicy contents poll s cr.deleted m ↔
      DeletedPolicy contents poll s (cr.deleted.take cr.addedOrUpdated.length) m ∨
        DeletedPolicy contents poll s (cr.deleted.drop cr.addedOrUpdated.length) m := by
    intro m
    unfold DeletedPolicy
    rw [← PolicyAmong.append, take_append_drop]
  have hmentions : ∀ q ∈ s.idx.modIDToFile, _ :=
    fun q hq => @mentions_emitted x contents poll s cr files hc hemits q (hc.ne_empty hq)
  constructor
  · intro hall m hm q hq himp
    exact (hmentions q hq).mp (hall m (.inl ((hsplit m).mpr (.inl hm))) q hq himp)
  · intro hfirst m hm q hq himp
    rw [hmentions q hq]
    rcases hm with hdeleted | hadded
    · rcases (hsplit m).mp hdeleted with hearly | hlate
      · exact hfirst m hearly q hq himp
      · exact .inr (.inr ⟨m, .inr hlate, himp⟩)
    · exact .inr (.inr ⟨m, .inl hadded, himp⟩)

end Update

/-! ## §4. A bucket. -/

/-- The contents behind the hashes of a bucket. -/
def officeContents (etag : String) : RawFile :=
  if etag = "l1" then .ofPolicy limits
  else if etag = "l2" then .ofPolicy ⟨.exportConstants "limits" [("max", .bool true)], []⟩
  else if etag = "s1" then .ofPolicy staffRoles
  else if etag = "d1" then .ofPolicy docPolicy
  else if etag = "o1" then .ofPolicy ⟨.exportConstants "other" [], []⟩
  else .unreadable "no such object"

variable (objects : List (String × String))

/-- A poll in which nothing goes wrong outside the store. -/
def smoothPoll : Poll where
  objects := objects.map (fun o => ⟨o.1, some o.2⟩)
  complete := true
  fetches := fun _ => true
  opens := fun _ => true
  prepares := true
  walks := true
  stateOrder := ⟨id, List.Perm.refl⟩
  allOrder := ⟨id, List.Perm.refl⟩
  depsOrder := ⟨id, List.Perm.refl⟩

def officeObjects : List (String × String) :=
  [("limits.yaml", "l1"), ("staff.yaml", "s1"), ("doc.yaml", "d1")]

/-- The constants are changed. -/
def changedObjects : List (String × String) :=
  [("limits.yaml", "l2"), ("staff.yaml", "s1"), ("doc.yaml", "d1")]

/-- The constants are deleted, and others are added. -/
def exchangedObjects : List (String × String) :=
  [("staff.yaml", "s1"), ("doc.yaml", "d1"), ("other.yaml", "o1")]

/-- The store of the bucket, and what the cloner finds at the next poll. -/
def officeChange : Option (BlobStore × CloneResult) :=
  (init Externals.sample officeContents (smoothPoll officeObjects)).toOption.bind (fun s =>
    (clone s.cloned (smoothPoll objects)).toOption.map (fun cr => (s, cr)))

variable {contents : String → RawFile} {s : BlobStore} {x : Externals} {poll : Poll}

/-- A store that was started. -/
theorem init_ok
    (h : init x contents poll = .ok s) : ∃ cr, clone ∅ poll = .ok cr ∧ s.cloned = cr.all ∧
      s.currDir = createSymlinks poll.allOrder cr.all ∧
      build x ((workTree contents s.currDir).directory isPolicy) = .ok s.idx := by
  unfold init at h
  split at h
  · cases h
  next cr hclone =>
    split_ifs at h
    dsimp only at h
    split at h <;> cases h
    exact ⟨cr, hclone, rfl, rfl, by assumption⟩

/-- The store has an index of its files. -/
theorem reached_of_init (h : init x contents poll = .ok s) :
    Reached x (policiesIn ((workTree contents s.currDir).directory isPolicy)) s.idx := by
  obtain ⟨cr, -, -, -, hbuild⟩ := init_ok h
  exact .built hbuild

theorem officeChange_eq_some {objects : List (String × String)} {cr : CloneResult}
    (h : officeChange objects = some (s, cr)) :
    init Externals.sample officeContents (smoothPoll officeObjects) = .ok s ∧
      clone s.cloned (smoothPoll objects) = .ok cr := by
  obtain ⟨s', hinit, hmap⟩ := Option.bind_eq_some_iff.mp h
  obtain ⟨cr', hclone, hpair⟩ := Option.map_eq_some_iff.mp hmap
  cases hpair
  exact ⟨toOption_eq_some_iff.mp hinit, toOption_eq_some_iff.mp hclone⟩

/-- Constants that change are written over with themselves. -/
theorem changed_constants_announced :
    ∃ s cr files, init Externals.sample officeContents (smoothPoll officeObjects) = .ok s ∧
      clone s.cloned (smoothPoll changedObjects) = .ok cr ∧ Reached Externals.sample files s.idx ∧
      ∀ q ∈ s.idx.modIDToFile, TransGen (ImportsModule files) q limits.fqn →
        Mentions (applyChanges Externals.sample officeContents (smoothPoll changedObjects)
          s cr).emitted q := by
  have heval : (officeChange changedObjects).map
      (fun c => (c.2.deleted.map (policyOf officeContents (smoothPoll changedObjects).opens
          c.1.currDir),
        c.2.addedOrUpdated.map (policyOf officeContents (smoothPoll changedObjects).opens
          (createSymlinks (smoothPoll changedObjects).allOrder c.2.all)),
        (applyChanges Externals.sample officeContents (smoothPoll changedObjects)
          c.1 c.2).emitted.length)) = some ([some limits.fqn], [some limits.fqn], 3) := by
    decide +kernel
  obtain ⟨⟨s, cr⟩, hchange, hsame⟩ := Option.map_eq_some_iff.mp heval
  obtain ⟨hinit, hclone⟩ := officeChange_eq_some hchange
  simp only [Prod.mk.injEq] at hsame
  obtain ⟨hold, hnew, hsent⟩ := hsame
  have hemits : (applyChanges Externals.sample officeContents (smoothPoll changedObjects)
      s cr).emitted ≠ [] := by
    intro hnone
    rw [hnone] at hsent
    cases hsent
  have hlimits : AddedPolicy officeContents (smoothPoll changedObjects) cr limits.fqn := by
    refine mem_map.mp ?_
    rw [hnew]
    exact mem_singleton_self _
  refine ⟨s, cr, _, hinit, hclone, reached_of_init hinit, fun q hq himp => ?_⟩
  refine (dependents_announced_iff (reached_of_init hinit) hemits).mpr ?_ limits.fqn (.inr hlimits)
    q hq himp
  intro m hm q' _ himports'
  refine .inr (.inr ⟨m, .inl ?_, himports'⟩)
  obtain ⟨inf, hinf, hpolicy⟩ := hm
  have hin : some m ∈ cr.deleted.map
      (policyOf officeContents (smoothPoll changedObjects).opens s.currDir) :=
    mem_map.mpr ⟨inf, mem_of_mem_take hinf, hpolicy⟩
  rw [hold, mem_singleton, Option.some.injEq] at hin
  rw [hin]
  exact hlimits

/-- Constants are deleted and another file is added: the ID of the constants is written over, and
nothing is told of the derived roles that import them. -/
theorem deleted_constants_not_announced :
    ∃ s cr files, init Externals.sample officeContents (smoothPoll officeObjects) = .ok s ∧
      clone s.cloned (smoothPoll exchangedObjects) = .ok cr ∧
      Reached Externals.sample files s.idx ∧
      DeletedPolicy officeContents (smoothPoll exchangedObjects) s cr.deleted limits.fqn ∧
      staffRoles.fqn ∈ s.idx.modIDToFile ∧
      TransGen (ImportsModule files) staffRoles.fqn limits.fqn ∧
      ¬ Mentions (updateIndex Externals.sample officeContents s (smoothPoll exchangedObjects)).emitted
        staffRoles.fqn := by
  have heval : (officeChange exchangedObjects).map
      (fun c => (c.2.deleted.map (policyOf officeContents (smoothPoll exchangedObjects).opens
          c.1.currDir),
        (c.1.idx.modIDToFile.lookup staffRoles.fqn, c.1.idx.dependencies.members staffRoles.fqn),
        (updateIndex Externals.sample officeContents c.1 (smoothPoll exchangedObjects)).emitted)) =
      some ([some limits.fqn], (some "staff.yaml", [limits.fqn]),
        [.policy { kind := .deleteOrDisablePolicy, policyID := limits.fqn },
          .policy { kind := .addOrUpdatePolicy, policyID := "cerbos.export_constants.other" }]) := by
    decide +kernel
  obtain ⟨⟨s, cr⟩, hchange, hsame⟩ := Option.map_eq_some_iff.mp heval
  obtain ⟨hinit, hclone⟩ := officeChange_eq_some hchange
  simp only [Prod.mk.injEq] at hsame
  obtain ⟨hold, ⟨hfile, hdeps⟩, hsent⟩ := hsame
  have hreached := reached_of_init hinit
  refine ⟨s, cr, _, hinit, hclone, hreached, ?_, ?_, .single ?_, ?_⟩
  · refine mem_map.mp ?_
    rw [hold]
    exact mem_singleton_self _
  · exact lookup_isSome.mp (Option.isSome_iff_exists.mpr ⟨_, hfile⟩)
  · refine (hreached.consistent.imports _ _).mp ?_
    rw [hdeps]
    exact mem_singleton_self _
  · rw [hsent]
    rintro ⟨event, hevent, hmentions⟩
    have hnames : limits.fqn ≠ staffRoles.fqn ∧
        "cerbos.export_constants.other" ≠ staffRoles.fqn := by decide +kernel
    rcases mem_cons.mp hevent with hfirst | hrest
    · cases hfirst
      exact hmentions.elim hnames.1 not_mem_nil
    · cases mem_singleton.mp hrest
      exact hmentions.elim hnames.2 not_mem_nil

end Blob

end AccessManagement.Storage
