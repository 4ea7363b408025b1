/-
  AccessManagement.Storage.DbEvents — WHAT THE EVENTS OF THE DATABASE STORE ANNOUNCE.

  A policy is compiled from its own definition and from those it imports, directly or through one
  other policy (`GetCompilationUnits`).  An event makes the rule table load policies again: the one
  it is about, and its dependents.

  Main results:
    * `Holds.event` — what the table has loaded after an event that succeeds.
    * `changes_announced_iff` — after which calls every policy whose imports have changed is named by
      an event, so that the table has them all again.
-/
import AccessManagement.Storage.DbCalls

namespace AccessManagement

open Lib List

/-! ## §1. What an event makes the table load. -/

/-- What is held for each policy after an event that loads what it names. -/
def processed {ι α : Type} [DecidableEq ι] (load : ι → Option α) (deleted : Bool) (policyID : ι)
    (dependents : List ι) (held : ι → Option α) (id : ι) : Option α :=
  if id ∈ dependents then load id
  else if id = policyID then (if deleted then none else load id)
  else held id

namespace Manager

variable {x : Externals} {m : Manager} {evt : PolicyEvent} {loader : PolicyLoader}
  {load held : UInt64 → Option RunnablePolicySet} {loaded : Loaded} {rps : RunnablePolicySet}

/-- A store that keeps policies under their module IDs, and a loader that returns what it has. -/
structure Served (x : Externals) (load : UInt64 → Option RunnablePolicySet) (loader : PolicyLoader)
    (evt : PolicyEvent) : Prop where
  modID : ∀ id, ∀ rps ∈ load id, rps.policySet.modID x = id
  first : loader.getFirstMatch [evt.policyID] = .ok (load evt.policyID)
  all : ∀ rpss, loader.getAllMatching evt.dependents = .ok rpss → ∀ rps, rps ∈ rpss ↔
    rps.policySet.modID x ∈ evt.dependents ∧ load (rps.policySet.modID x) = some rps
  oldPolicyID : evt.oldPolicyID = none

theorem Served.mainPolicy_eq_some (h : Served x load loader evt) :
    evt.mainPolicy loader = some rps ↔ evt.kind = .addOrUpdatePolicy ∧
      rps.policySet.modID x = evt.policyID ∧ load (rps.policySet.modID x) = some rps := by
  have hmod := h.modID evt.policyID rps
  unfold PolicyEvent.mainPolicy
  rw [h.first]
  cases evt.kind <;> grind

/-- The loaded policies are those that should be there. -/
def Holds (x : Externals) (held : UInt64 → Option RunnablePolicySet) (loaded : Loaded) : Prop :=
  ∀ rps, rps ∈ loaded ↔ held (rps.policySet.modID x) = some rps

/-- **What the table has loaded after an event** that succeeds. -/
theorem Holds.event (h : Holds x held loaded) (hserved : Served x load loader evt)
    (hok : (m.processPolicyEvent x loader evt).2 = none) :
    Holds x (processed load (evt.kind == .deleteOrDisablePolicy) evt.policyID evt.dependents held)
      ((eventWrites x loader m evt).foldl (loadedWrite x) loaded) := by
  obtain ⟨toReload, hreload, hwrites⟩ := eventWrites_of_success hok
  have hdeps : ∀ rps, rps ∈ toReload ↔
      rps.policySet.modID x ∈ evt.dependents ∧ load (rps.policySet.modID x) = some rps := by
    rcases hreload with ⟨-, hall⟩ | ⟨hnil, rfl⟩
    · exact hserved.all _ hall
    · simp [hnil]
  have hremoved : evt.removed = [evt.policyID] := by
    unfold PolicyEvent.removed
    cases evt.kind <;> simp [hserved.oldPolicyID]
  intro rps
  rw [hwrites, foldl_loadedWrite_allWrites]
  simp only [mem_append, mem_reverse, hdeps, staying, mem_filter, Option.mem_toList,
    hserved.mainPolicy_eq_some, h rps, hremoved, processed]
  cases evt.kind <;> grind

end Manager

namespace Storage.Db

variable {db db' : Database} {mIDs policyKeys : List String} {id d : String}
  {upsertPolicy : UpsertPolicy} {policies : List Wrapper} {events : List StorageIndex.Event}
  {p : Source.Policy}

/-! ## §2. What a policy is compiled from. -/

namespace Database

/-- `JoinDependencies`, `JoinAncestors`: the enabled policies that pairs lead to. -/
def join (db : Database) (pairs : Pairs) (ids : List String) : List String :=
  (pairs.filter (fun r => ids.contains r.1 && db.isEnabled r.2)).map (fun r => r.2)

/-- Some policies with their imports, on two levels. -/
def withImports (db : Database) (ids : List String) : List String :=
  let direct := db.join db.policyDependency ids
  ids ++ direct ++ db.join db.policyDependency direct

/-- `GetCompilationUnits`, for one policy. -/
def getCompilationUnit (db : Database) (id : String) : List (String × Source.Policy) :=
  if db.isEnabled id then
    (db.withImports [id] ++ db.withImports (db.join db.policyAncestor [id])).filterMap
      (fun d => (db.policy.lookup d).map (fun row => (d, row.definition)))
  else []

/-- The part of the unit that is the policy with its imports. -/
def imports (db : Database) (id : String) : List (String × Source.Policy) :=
  if db.isEnabled id then
    (db.withImports [id]).filterMap
      (fun d => (db.policy.lookup d).map (fun row => (d, row.definition)))
  else []

end Database

theorem mem_withImports {ids : List String} : d ∈ db.withImports ids ↔ ∃ id ∈ ids, d = id ∨
    db.isEnabled d = true ∧ ((id, d) ∈ db.policyDependency ∨
      ∃ m, (id, m) ∈ db.policyDependency ∧ db.isEnabled m = true ∧ (m, d) ∈ db.policyDependency) := by
  simp [Database.withImports, Database.join]
  grind

theorem holds_iff : db.Holds d p ↔ db.isEnabled d = true ∧
    ∃ row, db.policy.lookup d = some row ∧ row.definition = p := by
  unfold Database.Holds Database.isEnabled
  cases db.policy.lookup d <;> simp

theorem mem_imports : (d, p) ∈ db.imports id ↔
    db.isEnabled id = true ∧ db.Holds d p ∧ (d = id ∨ (id, d) ∈ db.policyDependency ∨
      ∃ m, (id, m) ∈ db.policyDependency ∧ db.isEnabled m = true ∧ (m, d) ∈ db.policyDependency) := by
  rw [holds_iff]
  unfold Database.imports
  by_cases hid : db.isEnabled id = true
  · simp only [hid, if_true, true_and, mem_filterMap, mem_withImports, mem_singleton,
      exists_eq_left, Option.map_eq_some_iff, Prod.mk.injEq]
    grind
  · simp [hid]

/-- A policy is compiled from the same imports. -/
def SameImports (db db' : Database) (id : String) : Prop := ∀ e, e ∈ db.imports id ↔ e ∈ db'.imports id

/-- **Policies that import nothing that has changed.** -/
theorem sameImports_of_unchanged {changed : List String}
    (hlook : ∀ d ∉ changed, db'.policy.lookup d = db.policy.lookup d)
    (hrows : ∀ m ∉ changed, ∀ d, (m, d) ∈ db'.policyDependency ↔ (m, d) ∈ db.policyDependency)
    (hid : id ∉ changed) (hdir : ∀ d ∈ changed, (id, d) ∉ db.policyDependency)
    (hindirect : ∀ m, (id, m) ∈ db.policyDependency → db.isEnabled m = true →
      ∀ d ∈ changed, (m, d) ∉ db.policyDependency) : SameImports db db' id := by
  have henabled : ∀ d ∉ changed, db'.isEnabled d = db.isEnabled d := by
    intro d hd
    unfold Database.isEnabled
    rw [hlook d hd]
  have hholds : ∀ d ∉ changed, ∀ p, db'.Holds d p ↔ db.Holds d p := by
    intro d hd p
    unfold Database.Holds
    rw [hlook d hd]
  intro ⟨d, p⟩
  rw [mem_imports, mem_imports]
  grind

/-! ## §3. Events. -/

def Call.result (upsertPolicy : UpsertPolicy) (db : Database) : Call →
    Except DbError (Database × List StorageIndex.Event)
  | .addOrUpdate policies => Db.addOrUpdate (some upsertPolicy) db policies
  | .delete policyKeys => Db.delete db policyKeys
  | .disable policyKeys => Db.disable db policyKeys
  | .enable policyKeys => Db.enable db policyKeys

/-- Some event is about the policy, as such or as a dependent. -/
@[simp] def Named (events : List StorageIndex.Event) (id : String) : Prop :=
  ∃ e ∈ events, id = e.policyID ∨ id ∈ e.dependents

/-- **What has to hold for `Enable`**: no enabled policy that is not listed imports a listed policy
that is disabled, directly or through an enabled policy. -/
def Call.Announced (db : Database) : Call → Prop
  | .enable policyKeys => ∀ d ∈ policyKeys.map fqnFromPolicyKey, ∀ row,
      db.policy.lookup d = some row → row.disabled = true →
      ∀ p ∉ policyKeys.map fqnFromPolicyKey, db.isEnabled p = true →
        (p, d) ∉ db.policyDependency ∧ ∀ m, (p, m) ∈ db.policyDependency → db.isEnabled m = true →
          (m, d) ∉ db.policyDependency
  | _ => True

theorem mem_getDependents {p : String} : (id, p) ∈ db.getDependents mIDs ↔ id ∈ mIDs ∧
    ((p, id) ∈ db.policyDependency ∨
      ∃ m, (p, m) ∈ db.policyDependency ∧ (m, id) ∈ db.policyDependency) := by
  simp [Database.getDependents]
  grind

theorem named_dependentsEvent {deps : List String} (h : id ∈ deps) (hnot : id ∉ mIDs) :
    Named (dependentsEvent mIDs deps) id := by
  have hfound := mem_newDependents.mpr ⟨h, hnot⟩
  have hne : newDependents mIDs deps ≠ [] := ne_nil_of_mem hfound
  simp [dependentsEvent, hne, hfound]

theorem rows_foldlM (hupsert : OwnRow upsertPolicy) (hid : ∀ w ∈ policies, w.policy.fqn ≠ id)
    (h : policies.foldlM (addOrUpdateOne upsertPolicy) db = .ok db') (d : String) :
    (id, d) ∈ db'.policyDependency ↔ (id, d) ∈ db.policyDependency := by
  induction policies generalizing db with
  | nil =>
    cases h
    rfl
  | cons _ _ ih =>
    rw [forall_mem_cons] at hid
    obtain ⟨db₁, hstep, h⟩ := bind_eq_ok.mp h
    rw [ih hid.2 h, (addOrUpdateOne_ok hupsert hstep).2, if_neg fun hboth => hid.1 hboth.1.symm]

/-- **What a call changes**: policies that no event names stay as they are, and so do their imports,
but for those of `Enable`. -/
structure Outcome (db db' : Database) (events : List StorageIndex.Event) (announced : Prop) : Prop where
  unnamed : ∀ id, ¬ Named events id → db'.policy.lookup id = db.policy.lookup id
  deleted : ∀ e ∈ events, e.kind = .deleteOrDisablePolicy → db'.isEnabled e.policyID = false
  same : announced → ∀ id, db'.isEnabled id = true → ¬ Named events id → SameImports db db' id

/-- The policies that the events of `AddOrUpdate` do not name import nothing that is listed. -/
theorem unlisted_of_not_named
    (hevents : events = mIDs.map (fun id => { kind := .addOrUpdatePolicy, policyID := id }) ++
      dependentsEvent mIDs ((db.getDependents mIDs).map (fun r => r.2)))
    (hid : ¬ Named events id) : id ∉ mIDs ∧ ∀ d ∈ mIDs, (id, d) ∉ db.policyDependency ∧
      ∀ m, (id, m) ∈ db.policyDependency → (m, d) ∉ db.policyDependency := by
  have hnot : id ∉ mIDs := fun hmem => hid
    ⟨_, hevents ▸ mem_append_left _ (mem_map_of_mem hmem), .inl rfl⟩
  have hdep : ∀ d, (d, id) ∉ db.getDependents mIDs := by
    intro d hd
    obtain ⟨e, he, h⟩ := named_dependentsEvent (mem_map_of_mem (f := fun r => r.2) hd) hnot
    exact hid ⟨e, hevents ▸ mem_append_right _ he, h⟩
  refine ⟨hnot, fun d hd => ⟨fun hrow => ?_, fun m hm hrow => ?_⟩⟩
  · exact hdep d (mem_getDependents.mpr ⟨hd, .inl hrow⟩)
  · exact hdep d (mem_getDependents.mpr ⟨hd, .inr ⟨m, hm, hrow⟩⟩)

theorem outcome_addOrUpdate (hupsert : OwnRow upsertPolicy)
    (h : Db.addOrUpdate (some upsertPolicy) db policies = .ok (db', events)) :
    Outcome db db' events True := by
  have hloop := addOrUpdate_ok h
  have hevents : events = (policies.map (fun w => w.policy.fqn)).map
      (fun id => { kind := .addOrUpdatePolicy, policyID := id }) ++
        dependentsEvent (policies.map (fun w => w.policy.fqn))
          ((db.getDependents (policies.map (fun w => w.policy.fqn))).map (fun r => r.2)) := by
    unfold Db.addOrUpdate at h
    grind
  have hnamed := fun id (hid : ¬ Named events id) => unlisted_of_not_named hevents hid
  have hlook : ∀ id ∉ policies.map (fun w => w.policy.fqn),
      db'.policy.lookup id = db.policy.lookup id := by
    intro id hid
    rcases lookup_foldlM hupsert id hloop with ⟨hsame, -⟩ | ⟨before, w, after, rfl, rfl, -⟩
    · exact hsame
    · simp at hid
  refine ⟨fun id hid => hlook id (hnamed id hid).1, fun e he hkind => ?_, fun _ id _ hid => ?_⟩
  · rw [hevents] at he
    unfold dependentsEvent at he
    grind
  · obtain ⟨hnot, hdeps⟩ := hnamed id hid
    refine sameImports_of_unchanged hlook (fun m hm d => ?_) hnot (fun d hd => (hdeps d hd).1)
      fun m hm _ d hd => (hdeps d hd).2 m hm
    exact rows_foldlM hupsert (fun w hw heq => hm (mem_map.mpr ⟨w, hw, heq⟩)) hloop d

/-- Policies are taken away, with all that need them. -/
theorem outcome_removed (hneeds : ∀ id ∈ mIDs, ∀ p, db.Needs p id → p ∈ mIDs)
    (hlook : ∀ d ∉ mIDs, db'.policy.lookup d = db.policy.lookup d)
    (hgone : ∀ d ∈ mIDs, db'.isEnabled d = false)
    (hrows : ∀ m ∉ mIDs, ∀ d, (m, d) ∈ db'.policyDependency ↔ (m, d) ∈ db.policyDependency)
    (hnamed : ∀ id ∈ mIDs, Named events id)
    (hdel : ∀ e ∈ events, e.kind = .deleteOrDisablePolicy → e.policyID ∈ mIDs) :
    Outcome db db' events True where
  unnamed id hid := hlook id fun hmem => hid (hnamed id hmem)
  deleted e he hkind := hgone _ (hdel e he hkind)
  same := by
    intro _ id henabled hid
    have hnot : id ∉ mIDs := fun hmem => hid (hnamed id hmem)
    have hbefore : db.isEnabled id = true := by
      unfold Database.isEnabled at henabled ⊢
      rwa [hlook id hnot] at henabled
    have hstored : (db.policy.lookup id).isSome = true := by
      obtain ⟨row, hrow, -⟩ := isEnabled_iff.mp hbefore
      simp [hrow]
    exact sameImports_of_unchanged hlook hrows hnot
      (fun d hd hrow => hnot (hneeds d hd id (.inl ⟨hbefore, .inl hrow⟩)))
      fun m hm _ d hd hrow => hnot (hneeds d hd id (.inr ⟨hstored, m, hm, hrow⟩))

theorem outcome_delete
    (h : Db.delete db policyKeys = .ok (db', events)) : Outcome db db' events True := by
  unfold Db.delete at h
  dsimp only at h
  split at h
  · cases h
  next hvalid =>
    cases h
    refine outcome_removed (validateIntegrity_iff.mp hvalid) (fun d hd => ?_) (fun d hd => ?_)
      (fun m hm d => ?_) (fun id hid => ?_) (fun e he hkind => ?_)
    · rw [lookup_deletePolicies, if_neg hd]
    · unfold Database.isEnabled
      rw [lookup_deletePolicies, if_pos hd]
    · have hkept : ∀ x ∈ policyKeys, fqnFromPolicyKey x ≠ m := by simpa using hm
      simp only [Database.deletePolicies, mem_filter]
      simp [hm]
    · split
      · next d hd =>
        rw [hd, mem_singleton] at hid
        exact ⟨_, mem_singleton_self _, .inl hid⟩
      · exact ⟨_, mem_append_left _ (mem_map_of_mem hid), .inl rfl⟩
    · split at he
      · next d hd =>
        rw [mem_singleton.mp he, hd]
        exact mem_singleton_self d
      · unfold dependentsEvent at he
        grind

theorem outcome_disable
    (h : Db.disable db policyKeys = .ok (db', events)) : Outcome db db' events True := by
  unfold Db.disable at h
  dsimp only at h
  split at h
  · cases h
  next hvalid =>
    cases h
    refine outcome_removed (validateIntegrity_iff.mp hvalid) (fun d hd => ?_) (fun d hd => ?_)
      (fun m hm d => Iff.rfl) (fun id hid => ?_) (fun e he hkind => ?_)
    · rw [lookup_setDisabled]
      simp [hd]
    · have hnot := @isEnabled_setDisabled db (policyKeys.map fqnFromPolicyKey) d true
      simpa [hd] using hnot
    · exact ⟨_, mem_map_of_mem hid, .inl rfl⟩
    · obtain ⟨d, hd, rfl⟩ := mem_map.mp he
      exact hd

/-- The listed policies that are disabled are all that `Enable` changes. -/
theorem lookup_enable
    (hd : ¬ (d ∈ mIDs ∧ ∃ row, db.policy.lookup d = some row ∧ row.disabled = true)) :
    (db.setDisabled mIDs false).policy.lookup d = db.policy.lookup d := by
  rw [lookup_setDisabled]
  cases hrow : db.policy.lookup d with
  | none => rfl
  | some row =>
    obtain ⟨definition, disabled⟩ := row
    by_cases hmem : d ∈ mIDs
    · cases disabled with
      | true => exact (hd ⟨hmem, _, hrow, rfl⟩).elim
      | false => simp
    · simp [hmem]

theorem outcome_enable (h : Db.enable db policyKeys = .ok (db', events)) :
    Outcome db db' events ((Call.enable policyKeys).Announced db) ∧
      db' = db.setDisabled (policyKeys.map fqnFromPolicyKey) false ∧
      ∀ id, Named events id ↔ id ∈ policyKeys.map fqnFromPolicyKey := by
  unfold Db.enable at h
  unfold Call.Announced
  dsimp only at h ⊢
  split at h
  · cases h
  cases h
  generalize policyKeys.map fqnFromPolicyKey = mIDs
  have hnamed : ∀ id, Named (mIDs.map (fun id => { kind := .addOrUpdatePolicy, policyID := id })) id ↔
      id ∈ mIDs := by
    intro id
    simp
  refine ⟨⟨fun id hid => ?_, fun e he hkind => ?_, fun hannounced id hid hnot => ?_⟩, rfl, hnamed⟩
  · rw [hnamed] at hid
    exact lookup_enable fun hboth => hid hboth.1
  · obtain ⟨d, hd, rfl⟩ := mem_map.mp he
    cases hkind
  · rw [hnamed] at hnot
    have hbefore : db.isEnabled id = true := by
      rwa [isEnabled_setDisabled, if_neg hnot] at hid
    have hchanged : ∀ d, d ∈ mIDs.filter (fun d => (db.policy.lookup d).any (fun row => row.disabled)) ↔
        d ∈ mIDs ∧ ∃ row, db.policy.lookup d = some row ∧ row.disabled = true := by
      intro d
      rw [mem_filter]
      cases db.policy.lookup d <;> simp
    have hannounced' := fun d hd row hrow hdisabled =>
      hannounced d hd row hrow hdisabled id hnot hbefore
    refine sameImports_of_unchanged (fun d hd => lookup_enable (mt (hchanged d).mpr hd))
      (fun _ _ _ => Iff.rfl) (fun hmem => hnot ((hchanged id).mp hmem).1) (fun d hd => ?_)
      fun m hm henabled d hd => ?_
    · obtain ⟨hmem, row, hrow, hdisabled⟩ := (hchanged d).mp hd
      exact (hannounced' d hmem row hrow hdisabled).1
    · obtain ⟨hmem, row, hrow, hdisabled⟩ := (hchanged d).mp hd
      exact (hannounced' d hmem row hrow hdisabled).2 m hm henabled

theorem Call.outcome (hupsert : OwnRow upsertPolicy) {call : Call}
    (h : call.result upsertPolicy db = .ok (db', events)) :
    Outcome db db' events (call.Announced db) := by
  cases call with
  | addOrUpdate => exact outcome_addOrUpdate hupsert h
  | delete => exact outcome_delete h
  | disable => exact outcome_disable h
  | enable => exact (outcome_enable h).1

/-- What `Enable` makes visible to a policy that it does not name. -/
theorem not_sameImports_enable {p : String} {row : PolicyRow} (hd : d ∈ mIDs)
    (hrow : db.policy.lookup d = some row) (hdisabled : row.disabled = true) (hp : p ∉ mIDs)
    (henabled : db.isEnabled p = true) (hreaches : (p, d) ∈ db.policyDependency ∨
      ∃ m, (p, m) ∈ db.policyDependency ∧ db.isEnabled m = true ∧ (m, d) ∈ db.policyDependency) :
    ¬ SameImports db (db.setDisabled mIDs false) p := by
  intro hsame
  have hin : (d, row.definition) ∈ (db.setDisabled mIDs false).imports p := by
    refine mem_imports.mpr ⟨by rwa [isEnabled_setDisabled, if_neg hp],
      ⟨{ row with disabled := false }, by simp [lookup_setDisabled, hrow, hd], rfl, rfl⟩, .inr ?_⟩
    refine hreaches.imp_right fun ⟨m, hm, hmiddle, hmd⟩ => ⟨m, hm, ?_, hmd⟩
    obtain ⟨mrow, hmrow, -⟩ := isEnabled_iff.mp hmiddle
    rw [isEnabled_setDisabled]
    split
    · simp [hmrow]
    · exact hmiddle
  obtain ⟨-, ⟨row', hrow', henabled', -⟩, -⟩ := mem_imports.mp ((hsame _).mpr hin)
  cases hrow.symm.trans hrow'
  rw [hdisabled] at henabled'
  cases henabled'

/-- What the table should have for a policy. -/
def Database.compiled {α : Type} (compile : String → Set (String × Source.Policy) → Option α)
    (db : Database) (id : String) : Option α :=
  if db.isEnabled id then compile id {e | e ∈ db.imports id} else none

/-- What the table has after the events, if all of them succeed. -/
def processEvents {α : Type} (load : String → Option α) (events : List StorageIndex.Event)
    (held : String → Option α) : String → Option α :=
  events.foldl (fun held e =>
    processed load (e.kind == .deleteOrDisablePolicy) e.policyID e.dependents held) held

theorem processEvents_eq {α : Type} {load : String → Option α}
    (hdel : ∀ e ∈ events, e.kind = .deleteOrDisablePolicy → load e.policyID = none)
    (held : String → Option α) (id : String) :
    (Named events id → processEvents load events held id = load id) ∧
      (¬ Named events id → processEvents load events held id = held id) := by
  induction events using List.reverseRecOn with
  | nil => simp [processEvents]
  | append_singleton events e =>
    have hstep : processEvents load (events ++ [e]) held = processed load
        (e.kind == .deleteOrDisablePolicy) e.policyID e.dependents (processEvents load events held) := by
      simp [processEvents]
    have hnamed : Named (events ++ [e]) id ↔ Named events id ∨ id = e.policyID ∨ id ∈ e.dependents := by
      simp [or_and_right, exists_or]
    rw [hstep]
    unfold processed
    grind

/-- **Which calls announce all that they change**, and that the table then has all policies again. -/
theorem changes_announced_iff {upsertPolicy : UpsertPolicy} (hupsert : OwnRow upsertPolicy) {call : Call}
    {events : List StorageIndex.Event} (h : call.result upsertPolicy db = .ok (db', events)) :
    ((∀ id, db'.isEnabled id = true → ¬ SameImports db db' id → Named events id) ↔
        call.Announced db) ∧
      (call.Announced db → ∀ (α : Type) (compile : String → Set (String × Source.Policy) → Option α)
        (held : String → Option α), (∀ id, held id = db.compiled compile id) →
        ∀ id, processEvents (db'.compiled compile) events held id = db'.compiled compile id) := by
  have hout := Call.outcome hupsert h
  refine ⟨⟨fun hall => ?_, fun hannounced id hid hdiff => ?_⟩,
    fun hannounced α compile held hheld id => ?_⟩
  · cases call with
    | enable policyKeys =>
      obtain ⟨-, rfl, hnamed⟩ := outcome_enable h
      intro d hd row hrow hdisabled p hp henabled
      have hafter : (db.setDisabled (policyKeys.map fqnFromPolicyKey) false).isEnabled p = true := by
        rwa [isEnabled_setDisabled, if_neg hp]
      have hnot : ∀ hreaches, False := fun hreaches => hp ((hnamed p).mp (hall p hafter
        (not_sameImports_enable hd hrow hdisabled hp henabled hreaches)))
      exact ⟨fun hpd => hnot (.inl hpd), fun m hm hme hmd => hnot (.inr ⟨m, hm, hme, hmd⟩)⟩
    | _ => trivial
  · by_contra hnot
    exact hdiff (hout.same hannounced id hid hnot)
  · have hdel : ∀ e ∈ events, e.kind = .deleteOrDisablePolicy →
        db'.compiled compile e.policyID = none := by
      intro e he hkind
      simp [Database.compiled, hout.deleted e he hkind]
    obtain ⟨hyes, hno⟩ := processEvents_eq hdel held id
    by_cases hnamed : Named events id
    · exact hyes hnamed
    · have hsame : db'.isEnabled id = db.isEnabled id := by
        unfold Database.isEnabled
        rw [hout.unnamed id hnamed]
      rw [hno hnamed, hheld]
      unfold Database.compiled
      rw [hsame]
      split
      · next henabled =>
        congr 1
        ext e
        exact hout.same hannounced id (hsame.trans henabled) hnamed e
      · rfl

/-- Derived roles and a policy that imports them, both enabled. -/
def officeOpen : Database :=
  (Call.addOrUpdate [⟨staffRoles, false⟩, ⟨docPolicy, false⟩]).apply writeRow Database.empty

/-- The constants are stored, and the policy that was waiting for them is announced with them. -/
theorem stored_import_announced : ∃ db' events,
    (Call.addOrUpdate [⟨limits, false⟩]).result writeRow officeOpen = .ok (db', events) ∧
    db'.isEnabled docPolicy.fqn = true ∧ ¬ SameImports officeOpen db' docPolicy.fqn ∧
    Named events docPolicy.fqn := by
  obtain ⟨⟨db', events⟩, h, heval⟩ := toOption_map_eq_some_iff.mp
    (show ((Call.addOrUpdate [⟨limits, false⟩]).result writeRow officeOpen).toOption.map (fun r =>
      (r.1.isEnabled docPolicy.fqn, (r.1.imports docPolicy.fqn).any (fun e => e.1 == limits.fqn))) =
        some (true, true) by decide +kernel)
  have hbefore : (officeOpen.imports docPolicy.fqn).any (fun e => e.1 == limits.fqn) = false := by
    decide +kernel
  obtain ⟨henabled, himport⟩ := Prod.mk.inj heval
  have hdiff : ¬ SameImports officeOpen db' docPolicy.fqn := by
    intro hsame
    obtain ⟨e, he, hname⟩ := any_eq_true.mp himport
    exact any_eq_false.mp hbefore e ((hsame e).mpr he) hname
  exact ⟨db', events, h, henabled, hdiff,
    (changes_announced_iff ownRow_writeRow h).1.mpr trivial _ henabled hdiff⟩

/-- Derived roles that are disabled, and a policy that imports them. -/
def officeClosed : Database :=
  (Call.addOrUpdate [⟨staffRoles, true⟩, ⟨docPolicy, false⟩]).apply writeRow Database.empty

/-- The derived roles are enabled, and no event names the policy that imports them. -/
theorem enabled_import_unannounced : ∃ db' events,
    (Call.enable ["derived_roles.staff"]).result writeRow officeClosed = .ok (db', events) ∧
    db'.isEnabled docPolicy.fqn = true ∧ ¬ SameImports officeClosed db' docPolicy.fqn ∧
    ¬ Named events docPolicy.fqn := by
  have hok : ((Call.enable ["derived_roles.staff"]).result writeRow officeClosed).isOk = true := by
    decide +kernel
  have hstaff : (officeClosed.policy.lookup staffRoles.fqn).any (fun row => row.disabled) = true := by
    decide +kernel
  have hdoc : officeClosed.isEnabled docPolicy.fqn = true := by decide +kernel
  have hrow : (docPolicy.fqn, staffRoles.fqn) ∈ officeClosed.policyDependency := by decide +kernel
  have hlisted : staffRoles.fqn ∈ ["derived_roles.staff"].map fqnFromPolicyKey := by decide +kernel
  have hnot : docPolicy.fqn ∉ ["derived_roles.staff"].map fqnFromPolicyKey := by decide +kernel
  obtain ⟨⟨db', events⟩, h⟩ := isOk_iff.mp hok
  obtain ⟨-, hdb', hnamed⟩ := @outcome_enable officeClosed db' ["derived_roles.staff"] events h
  refine ⟨_, _, h, ?_, ?_, fun hname => hnot ((hnamed _).mp hname)⟩
  · rw [hdb']
    exact hdoc
  · obtain ⟨row, hlook, hdisabled⟩ := (Option.any_eq_true _ _).mp hstaff
    rw [hdb']
    exact not_sameImports_enable hlisted hlook hdisabled hnot hdoc (.inl hrow)

end Storage.Db

end AccessManagement
