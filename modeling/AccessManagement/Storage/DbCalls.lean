/-
  AccessManagement.Storage.DbCalls — WHAT THE CALLS OF THE DATABASE STORE LEAVE BEHIND.

  Main results:
    * `requirements_kept` — what remains enabled after `Delete` and `Disable` keeps what it imports
      and its ancestors; the calls are refused only for the sake of policies that are not listed.
-/
import AccessManagement.Lib.Runs
import AccessManagement.Manager.Permissions
import AccessManagement.Storage.Db

namespace AccessManagement.Storage.Db

open Lib List Namer Database

variable {db db' : Database} {mIDs : List String} {id : String} {policies : List Wrapper}
  {upsertPolicy : UpsertPolicy} {t : Tracker} {ps : List Source.Policy} {p : String}

/-! ## §1. Policies that are enabled. -/

theorem isEnabled_iff : db.isEnabled id = true ↔
    ∃ row, db.policy.lookup id = some row ∧ row.disabled = false := by
  unfold isEnabled
  cases db.policy.lookup id <;> simp

theorem lookup_deletePolicies (ids : List String) :
    (db.deletePolicies ids).policy.lookup id = if id ∈ ids then none else db.policy.lookup id :=
  lookup_foldl_erase ids id db.policy

theorem isEnabled_deletePolicies : (db.deletePolicies mIDs).isEnabled id = true ↔
    id ∉ mIDs ∧ db.isEnabled id = true := by
  simp only [isEnabled_iff, lookup_deletePolicies]
  by_cases hid : id ∈ mIDs <;> simp [hid]

theorem isEnabled_setDisabled {disabled : Bool} : (db.setDisabled mIDs disabled).isEnabled id = true ↔
    if id ∈ mIDs then disabled = false ∧ (db.policy.lookup id).isSome = true
    else db.isEnabled id = true := by
  simp only [isEnabled_iff, lookup_setDisabled]
  by_cases hid : id ∈ mIDs
  · cases db.policy.lookup id <;> simp [hid]
  · simp [hid]

/-! ## §2. Integrity. -/

namespace Database

/-- What is recorded for a policy: its imports and the ancestors of its scope. -/
def Requires (db : Database) (id d : String) : Prop :=
  (id, d) ∈ db.policyDependency ∨ (id, d) ∈ db.policyAncestor

/-- All that is recorded for a policy is there and enabled. -/
def Complete (db : Database) (id : String) : Prop := ∀ d, db.Requires id d → db.isEnabled d = true

/-- For the sake of `p` the policy `id` may not be taken away: `p` is enabled and imports it or
descends from its scope, or `p` is stored and imports it through another policy. -/
def Needs (db : Database) (p id : String) : Prop :=
  (db.isEnabled p = true ∧ db.Requires p id) ∨
    ((db.policy.lookup p).isSome = true ∧
      ∃ m, (p, m) ∈ db.policyDependency ∧ (m, id) ∈ db.policyDependency)

end Database

theorem mem_getDescendants : (id, p) ∈ db.getDescendants mIDs ↔
    id ∈ mIDs ∧ db.isEnabled p = true ∧ (p, id) ∈ db.policyAncestor := by
  simp [getDescendants]
  tauto

theorem mem_getDependentsWithNames : (id, p) ∈ db.getDependentsWithNames mIDs ↔
    id ∈ mIDs ∧ ((db.isEnabled p = true ∧ (p, id) ∈ db.policyDependency) ∨
      ((db.policy.lookup p).isSome = true ∧
        ∃ m, (p, m) ∈ db.policyDependency ∧ (m, id) ∈ db.policyDependency)) := by
  simp [getDependentsWithNames]
  grind

theorem missingFrom_eq_nil {pairs : Pairs} : missingFrom mIDs pairs id = [] ↔
    ∀ p, (id, p) ∈ pairs → p ∈ mIDs := by
  have hall : ((pairs.filter (fun r => r.1 == id)).map (fun r => r.2)).all mIDs.contains = true ↔
      ∀ p, (id, p) ∈ pairs → p ∈ mIDs := by
    simp
    grind
  unfold missingFrom
  dsimp only
  rw [← hall]
  split
  · next h => simp [h]
  · next h =>
    refine ⟨fun hnil => ?_, fun h' => (h h').elim⟩
    rw [hnil]
    rfl

/-- **`validateIntegrity`**: all policies that need a listed policy are listed. -/
theorem validateIntegrity_iff : db.validateIntegrity mIDs = .ok () ↔
    ∀ id ∈ mIDs, ∀ p, db.Needs p id → p ∈ mIDs := by
  have herr : db.validateIntegrity mIDs = .ok () ↔ ∀ id ∈ mIDs,
      missingFrom mIDs (db.getDescendants mIDs) id = [] ∧
        missingFrom mIDs (db.getDependentsWithNames mIDs) id = [] := by
    simp [validateIntegrity]
  rw [herr]
  simp only [missingFrom_eq_nil, mem_getDescendants, mem_getDependentsWithNames, Database.Needs,
    Database.Requires]
  grind

/-- The pairs of a policy that is not listed stay. -/
theorem requires_deletePolicies {d : String} (hid : id ∉ mIDs) :
    (db.deletePolicies mIDs).Requires id d ↔ db.Requires id d := by
  simp [deletePolicies, Database.Requires, hid]

/-- **Taking policies away**: what is recorded for a policy that stays is not touched, if all that
need a listed policy are listed. -/
theorem complete_of_needs (hneeds : ∀ id ∈ mIDs, ∀ p, db.Needs p id → p ∈ mIDs)
    (henabled : ∀ id, db'.isEnabled id = true ↔ id ∉ mIDs ∧ db.isEnabled id = true)
    (hpairs : ∀ id d, id ∉ mIDs → (db'.Requires id d ↔ db.Requires id d))
    (hid : db'.isEnabled id = true) (hcomplete : db.Complete id) :
    (∀ d, db'.Requires id d ↔ db.Requires id d) ∧ db'.Complete id := by
  obtain ⟨hnot, hbefore⟩ := (henabled id).mp hid
  refine ⟨fun d => hpairs id d hnot, fun d hd => (henabled d).mpr ⟨fun hlisted => ?_, ?_⟩⟩
  · exact hnot (hneeds d hlisted id (.inl ⟨hbefore, (hpairs id d hnot).mp hd⟩))
  · exact hcomplete d ((hpairs id d hnot).mp hd)

/-- **Deleting and disabling keep the requirements of what remains**, and are refused only for the
sake of a policy that is not listed. -/
theorem requirements_kept (db : Database) (policyKeys : List String) :
    (∀ db' events, delete db policyKeys = .ok (db', events) ∨ disable db policyKeys = .ok (db', events) →
      ∀ id, db'.isEnabled id = true → db.Complete id →
        (∀ d, db'.Requires id d ↔ db.Requires id d) ∧ db'.Complete id) ∧
    ∀ e, delete db policyKeys = .error e ∨ disable db policyKeys = .error e →
      ∃ id ∈ policyKeys.map fqnFromPolicyKey, ∃ p ∉ policyKeys.map fqnFromPolicyKey, db.Needs p id := by
  have hvalid := @validateIntegrity_iff db (policyKeys.map fqnFromPolicyKey)
  unfold delete disable
  dsimp only
  cases hresult : db.validateIntegrity (policyKeys.map fqnFromPolicyKey) with
  | error =>
    refine ⟨fun db' events h => by simp at h, fun _ _ => ?_⟩
    have href : ¬ ∀ id ∈ policyKeys.map fqnFromPolicyKey, ∀ p, db.Needs p id →
        p ∈ policyKeys.map fqnFromPolicyKey := fun hall => by simp [hvalid.mpr hall] at hresult
    push Not at href
    obtain ⟨id, hid, p, hneeds, hp⟩ := href
    exact ⟨id, hid, p, hp, hneeds⟩
  | ok =>
    have hneeds := hvalid.mp hresult
    refine ⟨fun db' events h id hid hcomplete => ?_, fun e h => by simp at h⟩
    rcases h with ⟨rfl, -⟩ | ⟨rfl, -⟩
    · exact complete_of_needs hneeds (fun _ => isEnabled_deletePolicies)
        (fun _ _ => requires_deletePolicies) hid hcomplete
    · refine complete_of_needs hneeds (fun id => ?_) (fun _ _ _ => Iff.rfl) hid hcomplete
      rw [isEnabled_setDisabled]
      by_cases hlisted : id ∈ policyKeys.map fqnFromPolicyKey <;> simp

/-! ## §3. The policies of a scope. -/

/-- An enabled policy. -/
def Database.Holds (db : Database) (id : String) (p : Source.Policy) : Prop :=
  ∃ row, db.policy.lookup id = some row ∧ row.disabled = false ∧ row.definition = p

/-- `scopeperms.Constrained`. -/
def Constrained (p : Source.Policy) : Prop := p.kind = .resource ∨ p.kind = .principal

/-- **The enabled policies of a scope agree** on its permissions. -/
def Agree (db : Database) : Prop :=
  ∀ id p id' p', db.Holds id p → db.Holds id' p' → Constrained p → Constrained p' →
    wrapperScope p = wrapperScope p' → (scopePermission p).normalise = (scopePermission p').normalise

/-- Policies are stored under their names. -/
def Keyed (db : Database) : Prop :=
  ∀ id row, db.policy.lookup id = some row → row.definition.fqn = id

/-- A stored policy is the only one of its name. -/
theorem Keyed.exists_last (h : Keyed db) {row : PolicyRow} (hrow : db.policy.lookup id = some row)
    {f : Sigma (fun _ : String => PolicyRow) → Bool} (hf : f ⟨id, row⟩ = true) :
    ∃ before after, db.policy.entries.filter f = before ++ ⟨id, row⟩ :: after ∧
      ∀ e ∈ after, e.2.definition.fqn ≠ row.definition.fqn := by
  obtain ⟨before, after, hsplit⟩ :=
    append_of_mem (mem_filter.mpr ⟨AList.mem_lookup_iff.mp hrow, hf⟩)
  refine ⟨before, after, hsplit, fun e he heq => ?_⟩
  have hmem : e ∈ db.policy.entries.filter f := by simp [hsplit, he]
  rw [h id row hrow, h e.1 e.2 (AList.mem_lookup_iff.mpr (mem_of_mem_filter hmem))] at heq
  have hkeys : (db.policy.entries.filter f).NodupKeys := db.policy.nodupKeys.sublist filter_sublist
  rw [hsplit, nodupKeys_middle, nodupKeys_cons] at hkeys
  have hin : e.1 ∈ (before ++ after).keys := mem_keys_of_mem (mem_append_right _ he)
  exact hkeys.1 (by rwa [heq] at hin)

theorem Constrained.fqn_start {p : Source.Policy} (h : Constrained p) :
    ∃ rest, p.fqn = fqnPrefix ++ rest := by
  have hstart : ∀ (tail name version scope : String), ∃ rest,
      policyFqn (fqnPrefix ++ tail) name version scope = fqnPrefix ++ rest := by
    intro tail name version scope
    obtain ⟨rest, hrest⟩ := policyFqn_start (fqnPrefix ++ tail) name version scope
    exact ⟨tail ++ rest, by rw [hrest, String.append_assoc]⟩
  unfold Constrained Source.Policy.kind at h
  unfold Source.Policy.fqn
  cases hp : p.policyType with
  | resourcePolicy => exact hstart "resource" _ _ _
  | principalPolicy => exact hstart "principal" _ _ _
  | _ => simp [hp] at h

theorem Constrained.key_inj {p q : Source.Policy} (hp : Constrained p) (hq : Constrained q)
    (h : policyKeyFromFqn p.fqn = policyKeyFromFqn q.fqn) : p.fqn = q.fqn := by
  obtain ⟨r, hr⟩ := hp.fqn_start
  obtain ⟨r', hr'⟩ := hq.fqn_start
  rw [hr, hr', policyKeyFromFqn_start, policyKeyFromFqn_start] at h
  rw [hr, hr', h]

/-- What `checkScopePermissions` does with a policy. -/
def track (t : Tracker) (p : Source.Policy) : Tracker :=
  t.add p.kind (policyKeyFromFqn p.fqn) (wrapperScope p) (scopePermission p)

theorem valid_track (h : t.Valid) (p : Source.Policy) : (track t p).Valid := by
  by_cases hp : Constrained p
  · exact h.add hp
  · rwa [show track t p = t from if_neg hp]

theorem valid_foldl_track (h : t.Valid) : (ps.foldl track t).Valid := by
  induction ps generalizing t with
  | nil => exact h
  | cons p _ ih => exact ih (valid_track h p)

theorem setting_foldl_track (h : t.Valid)
    {p : Source.Policy} (hp : Constrained p) (hne : ∀ q ∈ ps, q.fqn ≠ p.fqn) (scope : String) :
    (ps.foldl track t).setting scope (policyKeyFromFqn p.fqn) =
      t.setting scope (policyKeyFromFqn p.fqn) := by
  induction ps generalizing t with
  | nil => rfl
  | cons q _ ih =>
    rw [foldl_cons, ih (valid_track h q) fun q' hq' => hne q' (mem_cons_of_mem _ hq')]
    by_cases hq : Constrained q
    · have hkey : policyKeyFromFqn p.fqn ≠ policyKeyFromFqn q.fqn :=
        fun heq => hne q mem_cons_self (hq.key_inj hp heq.symm)
      exact (h.setting_add hq _ _).trans (if_neg hkey)
    · rw [show track t q = t from if_neg hq]

/-- **The last policy of a name has the say.** -/
theorem setting_of_last {ps before after : List Source.Policy} {p : Source.Policy}
    (hps : ps = before ++ p :: after) (hp : Constrained p) (hlast : ∀ q ∈ after, q.fqn ≠ p.fqn) :
    (ps.foldl track Tracker.new).setting (wrapperScope p) (policyKeyFromFqn p.fqn) =
      some (scopePermission p).normalise := by
  have hvalid : (before.foldl track Tracker.new).Valid := valid_foldl_track Tracker.Valid.new
  rw [hps, foldl_append, foldl_cons, setting_foldl_track (valid_track hvalid p) hp hlast]
  simpa [track] using
    @Tracker.Valid.setting_add _ _ (policyKeyFromFqn p.fqn) (wrapperScope p) (scopePermission p)
      hvalid hp (wrapperScope p) (policyKeyFromFqn p.fqn)

/-- The policy is the last of its name in the batch. -/
def LastOf (policies : List Wrapper) (p : Source.Policy) : Prop :=
  ∃ before w after, policies = before ++ w :: after ∧ w.policy = p ∧
    ∀ w' ∈ after, w'.policy.fqn ≠ p.fqn

/-- A policy of the batch is for this scope. -/
def Touches (policies : List Wrapper) (scope : String) : Prop :=
  ∃ w ∈ policies, Constrained w.policy ∧ wrapperScope w.policy = scope

/-- **`checkScopePermissions`**: no conflict among the enabled policies of the scopes of the batch,
with the batch in the place of those of the same names. -/
theorem check_ok (hcheck : db.checkScopePermissions policies = .ok ())
    {scope : String} (hscope : Touches policies scope) :
    ∃ f : Sigma (fun _ : String => PolicyRow) → Bool,
      (∀ e, f e = true ↔ Touches policies (wrapperScope e.2.definition) ∧ e.2.disabled = false ∧
        ∀ w ∈ policies, Constrained w.policy → w.policy.fqn ≠ e.1) ∧
      (((db.policy.entries.filter f).map (fun e => e.2.definition) ++
        policies.map (fun w => w.policy)).foldl track Tracker.new).conflicts = [] := by
  unfold checkScopePermissions at hcheck
  dsimp only at hcheck
  split at hcheck
  · next hempty =>
    obtain ⟨w, hw, hc, -⟩ := hscope
    simp only [List.isEmpty_iff, List.map_eq_nil_iff, List.filter_eq_nil_iff] at hempty
    exact absurd hc (by simpa [Constrained] using hempty w hw)
  · split at hcheck
    · next hconflicts =>
      refine ⟨_, fun e => ?_, by rw [foldl_append]; exact hconflicts⟩
      simp [Touches, Constrained]
      grind
    · cases hcheck

/-- **What `checkScopePermissions` is for**: the batch can be put in the place of the policies of the
same names. -/
theorem agree_of_check (hcheck : db.checkScopePermissions policies = .ok ())
    (hagree : Agree db) (hkeyed : Keyed db) (hafter : ∀ id p, db'.Holds id p → Constrained p →
      (db.Holds id p ∧ ∀ w ∈ policies, w.policy.fqn ≠ id) ∨ LastOf policies p) : Agree db' := by
  intro id p id' p' hp hp' hc hc' hscope
  by_cases htouches : Touches policies (wrapperScope p)
  · obtain ⟨f, hf, hconflicts⟩ := check_ok hcheck htouches
    -- what the tracker has for an enabled policy of the scope
    have hsettled : ∀ id q, db'.Holds id q → Constrained q → wrapperScope q = wrapperScope p →
        (((db.policy.entries.filter f).map (fun e => e.2.definition) ++
          policies.map (fun w => w.policy)).foldl track Tracker.new).setting (wrapperScope q)
          (policyKeyFromFqn q.fqn) = some (scopePermission q).normalise := by
      intro id q hq hcq hsq
      rcases hafter id q hq hcq with
        ⟨⟨row, hrow, henabled, rfl⟩, hnew⟩ | ⟨before, w, after, hpolicy, rfl, hlast⟩
      · obtain ⟨b, a, hba, hlast⟩ := hkeyed.exists_last hrow
          ((hf _).mpr ⟨hsq ▸ htouches, henabled, fun w hw _ => hnew w hw⟩)
        refine setting_of_last (by rw [hba, map_append, map_cons, append_assoc, cons_append]) hcq ?_
        intro q hq
        rcases mem_append.mp hq with hq | hq
        · obtain ⟨e, he, rfl⟩ := mem_map.mp hq
          exact hlast e he
        · obtain ⟨w, hw, rfl⟩ := mem_map.mp hq
          exact hkeyed id row hrow ▸ hnew w hw
      · refine @setting_of_last _ ((db.policy.entries.filter f).map (fun e => e.2.definition) ++
          before.map (fun w => w.policy)) (after.map (fun w => w.policy)) _ (by simp [hpolicy]) hcq ?_
        intro q hq
        obtain ⟨w', hw', rfl⟩ := mem_map.mp hq
        exact hlast w' hw'
    have hset := hsettled id p hp hc rfl
    have hset' := hsettled id' p' hp' hc' hscope.symm
    rw [← hscope] at hset'
    exact Tracker.conflicts_eq_nil_iff.mp hconflicts _ _ _ _ _ hset hset'
  · have hold : ∀ id q, db'.Holds id q → Constrained q → wrapperScope q = wrapperScope p →
        db.Holds id q := by
      intro id q hq hcq hsq
      rcases hafter id q hq hcq with h | ⟨before, w, after, rfl, rfl, -⟩
      · exact h.1
      · exact (htouches ⟨w, by simp, hcq, hsq⟩).elim
    exact hagree id p id' p' (hold id p hp hc rfl) (hold id' p' hp' hc' hscope.symm) hc hc' hscope

/-! ## §4. Calls side by side. -/

/-- **The loop of `AddOrUpdate`**: the last policy of a name is stored. -/
theorem lookup_foldlM (hupsert : OwnRow upsertPolicy) (id : String)
    (h : policies.foldlM (addOrUpdateOne upsertPolicy) db = .ok db') :
    (db'.policy.lookup id = db.policy.lookup id ∧ ∀ w ∈ policies, w.policy.fqn ≠ id) ∨
      ∃ before w after, policies = before ++ w :: after ∧ w.policy.fqn = id ∧
        (∀ w' ∈ after, w'.policy.fqn ≠ id) ∧
        db'.policy.lookup id = some ⟨w.policy, w.disabled⟩ := by
  induction policies generalizing db with
  | nil =>
    cases h
    exact .inl ⟨rfl, by simp⟩
  | cons w policies ih =>
    obtain ⟨db₁, hstep, h⟩ := bind_eq_ok.mp h
    have hpolicy := (addOrUpdateOne_ok hupsert hstep).1 id
    rcases ih h with ⟨hsame, hne⟩ | ⟨before, w', after, rfl, hid, hlast, hrow⟩
    · by_cases hid : w.policy.fqn = id
      · refine .inr ⟨[], w, policies, rfl, hid, hne, ?_⟩
        rw [hsame, hpolicy, if_pos hid.symm]
      · refine .inl ⟨?_, by simpa [hid] using hne⟩
        rw [hsame, hpolicy, if_neg (Ne.symm hid)]
    · exact .inr ⟨w :: before, w', after, rfl, hid, hlast, hrow⟩

/-- How far a call of `Enable` is: it has loaded the policies, or it has checked them. -/
inductive Phase where
  | loaded (toEnable : List Wrapper)
  | checked

/-- The database, and the calls of `Enable` that are under way. -/
structure State where
  db : Database
  enabling : List (List String × Phase)

/-- `AddOrUpdate`, `Delete` and `Disable` are transactions; `Enable` is three statements. -/
inductive Action where
  | addOrUpdate (policies : List Wrapper)
  | delete (policyKeys : List String)
  | disable (policyKeys : List String)
  | enableLoad (policyKeys : List String)
  | enableCheck (n : Nat)
  | enableUpdate (n : Nat)

def step (upsertPolicy : UpsertPolicy) (s : State) : Action → Option State
  | .addOrUpdate policies =>
    some { s with db := (Call.addOrUpdate policies).apply upsertPolicy s.db }
  | .delete policyKeys => some { s with db := (Call.delete policyKeys).apply upsertPolicy s.db }
  | .disable policyKeys => some { s with db := (Call.disable policyKeys).apply upsertPolicy s.db }
  | .enableLoad policyKeys =>
    some { s with enabling := s.enabling ++ [(policyKeys, .loaded (s.db.loadPolicy policyKeys))] }
  | .enableCheck n =>
    match s.enabling[n]? with
    | some (policyKeys, .loaded toEnable) =>
      match s.db.checkScopePermissions toEnable with
      | .ok _ => some { s with enabling := s.enabling.set n (policyKeys, .checked) }
      | .error _ => some { s with enabling := s.enabling.eraseIdx n }
    | _ => none
  | .enableUpdate n =>
    match s.enabling[n]? with
    | some (policyKeys, .checked) => some {
        db := s.db.setDisabled (policyKeys.map fqnFromPolicyKey) false
        enabling := s.enabling.eraseIdx n }
    | _ => none

/-- **What has to hold before a step**: when `Enable` writes, its check would pass again. -/
def Allowed (s : State) : Action → Prop
  | .enableUpdate n => ∀ policyKeys, s.enabling[n]? = some (policyKeys, .checked) →
      s.db.checkScopePermissions (s.db.loadPolicy policyKeys) = .ok ()
  | _ => True

structure Sound (db : Database) : Prop where
  agree : Agree db
  keyed : Keyed db

/-- Fewer policies agree. -/
theorem Sound.mono (h : Sound db) (hsub : ∀ id row', db'.policy.lookup id = some row' →
    ∃ row, db.policy.lookup id = some row ∧ row.definition = row'.definition ∧
      (row'.disabled = false → row.disabled = false)) : Sound db' where
  agree := by
    have hholds : ∀ id p, db'.Holds id p → db.Holds id p := by
      intro id p ⟨row', hrow', henabled, hdef⟩
      obtain ⟨row, hrow, hsame, himp⟩ := hsub id row' hrow'
      exact ⟨row, hrow, himp henabled, hsame.trans hdef⟩
    intro id p id' p' hp hp'
    exact h.agree id p id' p' (hholds id p hp) (hholds id' p' hp')
  keyed := by
    intro id row' hrow'
    obtain ⟨row, hrow, hsame, -⟩ := hsub id row' hrow'
    exact hsame ▸ h.keyed id row hrow

theorem Sound.addOrUpdate (hupsert : OwnRow upsertPolicy)
    (h : Sound db) (hcheck : db.checkScopePermissions policies = .ok ())
    (hok : policies.foldlM (addOrUpdateOne upsertPolicy) db = .ok db') : Sound db' where
  agree := by
    refine agree_of_check hcheck h.agree h.keyed fun id p ⟨row, hrow, henabled, hdef⟩ hc => ?_
    rcases lookup_foldlM hupsert id hok with
      ⟨hsame, hne⟩ | ⟨before, w, after, hpolicy, hid, hlast, hlook⟩
    · exact .inl ⟨⟨row, hsame ▸ hrow, henabled, hdef⟩, hne⟩
    · cases hrow.symm.trans hlook
      exact .inr ⟨before, w, after, hpolicy, hdef, hdef ▸ hid.symm ▸ hlast⟩
  keyed := by
    intro id row hrow
    rcases lookup_foldlM hupsert id hok with ⟨hsame, -⟩ | ⟨before, w, after, -, hid, -, hlook⟩
    · exact h.keyed id row (hsame ▸ hrow)
    · cases hrow.symm.trans hlook
      exact hid

theorem Sound.enable {policyKeys : List String} (h : Sound db)
    (hcheck : db.checkScopePermissions (db.loadPolicy policyKeys) = .ok ()) :
    Sound (db.setDisabled (policyKeys.map fqnFromPolicyKey) false) where
  agree := by
    refine agree_of_check hcheck h.agree h.keyed fun id p ⟨row', hrow', henabled, hdef⟩ hc => ?_
    rw [lookup_setDisabled] at hrow'
    obtain ⟨row, hrow, hrow'⟩ := Option.map_eq_some_iff.mp hrow'
    have hdefinition : row.definition = p := by
      rw [← hdef, ← hrow']
      split <;> rfl
    by_cases hid : id ∈ policyKeys.map fqnFromPolicyKey
    · obtain ⟨before, after, hsplit, hlast⟩ := h.keyed.exists_last hrow
        (f := fun e => (policyKeys.map fqnFromPolicyKey).contains e.1) (contains_iff_mem.mpr hid)
      refine .inr ⟨_, _, _, by rw [loadPolicy, hsplit, map_append, map_cons],
        hdefinition, fun w' hw' => ?_⟩
      obtain ⟨e, he, rfl⟩ := mem_map.mp hw'
      exact hdefinition ▸ hlast e he
    · rw [if_neg hid] at hrow'
      subst hrow'
      refine .inl ⟨⟨row, hrow, henabled, hdef⟩, fun w hw hname => hid ?_⟩
      obtain ⟨e, he, rfl⟩ := mem_map.mp hw
      obtain ⟨hentry, hlisted⟩ := mem_filter.mp he
      rw [← hname, h.keyed e.1 e.2 (AList.mem_lookup_iff.mpr hentry)]
      exact contains_iff_mem.mp hlisted
  keyed := by
    intro id row' hrow'
    rw [lookup_setDisabled] at hrow'
    obtain ⟨row, hrow, rfl⟩ := Option.map_eq_some_iff.mp hrow'
    split
    · exact h.keyed id row hrow
    · exact h.keyed id row hrow

theorem Sound.step (hupsert : OwnRow upsertPolicy) {s s' : State}
    {a : Action} (h : Sound s.db) (ha : Allowed s a) (hstep : step upsertPolicy s a = some s') :
    Sound s'.db := by
  have hremoves : ∀ policyKeys, Sound ((Call.delete policyKeys).apply upsertPolicy s.db) ∧
      Sound ((Call.disable policyKeys).apply upsertPolicy s.db) := by
    intro policyKeys
    simp only [Call.apply, Db.delete, Db.disable]
    cases s.db.validateIntegrity (policyKeys.map fqnFromPolicyKey) with
    | error => exact ⟨h, h⟩
    | ok =>
      refine ⟨h.mono fun id row' hrow' => ?_, h.mono fun id row' hrow' => ?_⟩
      · rw [lookup_deletePolicies] at hrow'
        exact ⟨row', by grind, rfl, fun henabled => henabled⟩
      · rw [lookup_setDisabled] at hrow'
        obtain ⟨row, hrow, rfl⟩ := Option.map_eq_some_iff.mp hrow'
        exact ⟨row, hrow, by split <;> rfl, by split <;> simp⟩
  cases a with
  | addOrUpdate policies =>
    cases hstep
    unfold Call.apply Db.addOrUpdate
    dsimp only
    cases hcheck : s.db.checkScopePermissions policies with
    | error => exact h
    | ok =>
      cases hok : policies.foldlM (addOrUpdateOne upsertPolicy) s.db with
      | error => exact h
      | ok => exact h.addOrUpdate hupsert hcheck hok
  | delete policyKeys =>
    cases hstep
    exact (hremoves policyKeys).1
  | disable policyKeys =>
    cases hstep
    exact (hremoves policyKeys).2
  | enableLoad =>
    cases hstep
    exact h
  | enableCheck =>
    unfold Db.step at hstep
    grind
  | enableUpdate =>
    unfold Db.step at hstep
    dsimp only at hstep
    split at hstep
    · next policyKeys hn =>
      cases hstep
      exact h.enable (ha policyKeys hn)
    · cases hstep

/-- **The enabled policies of each scope agree at every point** of a run in which every `Enable`
writes only what still passes its check. -/
theorem scope_permissions_agree {upsertPolicy : UpsertPolicy} (hupsert : OwnRow upsertPolicy)
    {s : State} {as : List Action} (hs : Sound s.db)
    (hallowed : EachStep (step upsertPolicy) Allowed s as) :
    Throughout (step upsertPolicy) (fun s => Agree s.db) s as :=
  hallowed.throughout (I := fun s => Sound s.db) Sound.agree (Sound.step hupsert) hs

/-- A principal policy for the scope of the document, which asks for the consent of the parents. -/
def consentPolicy : Source.Policy where
  policyType := .principalPolicy {
    principal := "maggie"
    version := "default"
    scopePermissions := .requireParentalConsentForAllows
    rules := [] }

theorem sound_empty : Sound Database.empty := by
  constructor
  · intro id p id' p' ⟨row, hrow, _⟩
    cases hrow
  · intro id row hrow
    cases hrow

/-- A call of `Enable` has made its check on an empty database, and the policy is stored then; the
check passes still. -/
theorem enable_after_store_agree : Throughout (step writeRow) (fun s => Agree s.db)
    ⟨Database.empty, [(["resource.doc.vdefault"], .checked)]⟩
    [.addOrUpdate [⟨scopedDoc "", true⟩], .enableUpdate 0] := by
  refine scope_permissions_agree ownRow_writeRow sound_empty ⟨trivial, fun s hs => ?_⟩
  cases hs
  refine ⟨fun policyKeys hn => ?_, fun _ _ => trivial⟩
  cases hn
  have hok : ((((Call.addOrUpdate [⟨scopedDoc "", true⟩]).apply writeRow Database.empty)).checkScopePermissions
      (((Call.addOrUpdate [⟨scopedDoc "", true⟩]).apply writeRow Database.empty).loadPolicy
        ["resource.doc.vdefault"])).isOk = true := by decide +kernel
  revert hok
  cases checkScopePermissions _ _ <;> simp [Except.toBool]

/-- Two stored policies are enabled and disagree. -/
def Database.disagree (db : Database) (id id' : String) : Bool :=
  match db.policy.lookup id, db.policy.lookup id' with
  | some row, some row' => !row.disabled && !row'.disabled && row.definition.kind == .resource &&
      row'.definition.kind == .principal &&
      wrapperScope row.definition == wrapperScope row'.definition &&
      (scopePermission row.definition).normalise != (scopePermission row'.definition).normalise
  | _, _ => false

theorem not_agree_of_disagree {id' : String} (h : db.disagree id id' = true) : ¬ Agree db := by
  intro hagree
  unfold disagree at h
  split at h
  · next row row' hrow hrow' =>
    simp only [Bool.and_eq_true, Bool.not_eq_true', beq_iff_eq, bne_iff_ne] at h
    obtain ⟨⟨⟨⟨⟨henabled, henabled'⟩, hkind⟩, hkind'⟩, hscope⟩, hne⟩ := h
    exact hne (hagree id _ id' _ ⟨row, hrow, henabled, rfl⟩ ⟨row', hrow', henabled', rfl⟩ (.inl hkind)
      (.inr hkind') hscope)
  · cases h

/-- A policy is stored and disabled; it is enabled while another call stores a policy that disagrees
with it. -/
def racingCalls : List Action :=
  [.addOrUpdate [⟨scopedDoc "", true⟩], .enableLoad ["resource.doc.vdefault"], .enableCheck 0,
    .addOrUpdate [⟨consentPolicy, false⟩], .enableUpdate 0]

theorem enable_races_update : Sound Database.empty ∧
    ∃ s', Lib.run (step writeRow) ⟨Database.empty, []⟩ racingCalls = some s' ∧ ¬ Agree s'.db := by
  have hrun : (Lib.run (step writeRow) ⟨Database.empty, []⟩ racingCalls).any
      (fun s => s.db.disagree (scopedDoc "").fqn consentPolicy.fqn) = true := by decide +kernel
  obtain ⟨s', hresult, hdisabled⟩ := (Option.any_eq_true _ _).mp hrun
  exact ⟨sound_empty, s', hresult, not_agree_of_disagree hdisabled⟩

end AccessManagement.Storage.Db
