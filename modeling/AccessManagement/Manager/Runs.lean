/-
  AccessManagement.Manager.Runs — WHAT THE MANAGER'S TABLE IS A TABLE OF.

  A run starts from a table that was built from policies, and is a sequence of successful additions
  and deletions.  Beside the table we carry the policies that are LOADED, the newest first: added
  and not deleted since.  `Runs` takes a condition on the steps, so that results may say which runs
  they are about.

  In every run the metadata are those of the loaded policies and the index holds their rows.
  The other parts of the table follow the loaded policies only as far as the steps allow; what
  each part needs is the subject of the modules after this one.
-/
import AccessManagement.Index.History
import AccessManagement.Manager.Manager
import AccessManagement.RuleTable.Ingest
import AccessManagement.RuleTable.Keys

namespace AccessManagement

open Lib List Namer

variable {x : Externals}

/-! ## §1. Policies as compilation leaves them. -/

namespace PolicySet

def roleName : PolicySet → String
  | .rolePolicy _ role _ _ _ _ _ _ => role
  | _ => ""

variable {ps : PolicySet}

theorem WellFormed.fqn_start (h : ps.WellFormed) :
    ∃ rest, ps.fqn = fqnPrefix ++ rest ∧ rest ≠ "" := by
  have hstarts : ∀ (start tail name version scope : String), start = fqnPrefix ++ tail → tail ≠ "" →
      ∃ rest, policyFqn start name version scope = fqnPrefix ++ rest ∧ rest ≠ "" := by
    rintro start tail name version scope rfl htail
    obtain ⟨rest, hrest⟩ := policyFqn_start _ name version scope
    exact ⟨tail ++ rest, by rw [hrest, String.append_assoc],
      fun h => htail (String.append_eq_empty_iff.mp h).1⟩
  cases ps with
  | resourcePolicy _ resource =>
    obtain ⟨p, ps, rfl, rfl⟩ := h
    exact hstarts resourcePoliciesPrefix "resource" _ _ _ rfl (by decide)
  | principalPolicy _ principal =>
    obtain ⟨p, ps, rfl, rfl, -⟩ := h
    exact hstarts principalPoliciesPrefix "principal" _ _ _ rfl (by decide)
  | rolePolicy _ role =>
    obtain ⟨rfl, -⟩ := h
    exact hstarts rolePoliciesPrefix "role" _ _ _ rfl (by decide)

theorem WellFormed.fqn_ne_empty (h : ps.WellFormed) : ps.fqn ≠ "" := by
  obtain ⟨rest, hrest, -⟩ := h.fqn_start
  intro hempty
  have hlist := congrArg String.toList (hrest.symm.trans hempty)
  rw [String.toList_append] at hlist
  cases hlist

theorem WellFormed.metadata (h : ps.WellFormed) :
    ps.metadata = some { fqn := ps.fqn, role := ps.roleName } := by
  cases ps with
  | resourcePolicy | principalPolicy =>
    obtain ⟨p, ps, rfl, -⟩ := h
    rfl
  | rolePolicy => rfl

end PolicySet

/-! ## §2. Runs. -/

namespace Manager

/-- The loaded policies, the newest first. -/
abbrev Loaded := List RunnablePolicySet

/-- The policies that are left when a module is deleted. -/
def without (x : Externals) (modID : UInt64) (loaded : Loaded) : Loaded :=
  loaded.filter (fun rps => decide (rps.policySet.modID x ≠ modID))

/-- The version of a module that was added last. -/
def newest (x : Externals) (modID : UInt64) (loaded : Loaded) : Option RunnablePolicySet :=
  loaded.find? (fun rps => decide (rps.policySet.modID x = modID))

/-- An addition that succeeds, of a policy as compilation leaves it.  Module IDs tell it apart from
the policies that are loaded. -/
structure Adds (x : Externals) (loaded : Loaded) (m : Manager) (rps : RunnablePolicySet)
    (m' : Manager) : Prop where
  wf : rps.policySet.WellFormed
  ids : ∀ q ∈ loaded, q.policySet.modID x = rps.policySet.modID x →
    q.policySet.fqn = rps.policySet.fqn
  ok : m.addPolicy x rps = .ok m'

/-- A table under construction: additions to an empty one, each of which satisfies a condition on
the policies that are loaded, the table and the call. -/
def Builds (x : Externals) (step : Loaded → Manager → Write → Prop) : Loaded → Manager → Prop
  | [], m' => m' = Manager.new
  | rps :: loaded, m' =>
    ∃ m, Builds x step loaded m ∧ Adds x loaded m rps m' ∧ step loaded m (.add rps)

/-- Runs of successful calls that satisfy a condition, from a table that was built. -/
inductive Runs (x : Externals) (step : Loaded → Manager → Write → Prop) : Loaded → Manager → Prop
  | built {loaded : Loaded} {m : Manager} (h : Builds x step loaded m) :
      Runs x step loaded m.finalizeBuild
  | added {loaded : Loaded} {m m' : Manager} (h : Runs x step loaded m) (rps : RunnablePolicySet)
      (hadd : Adds x loaded m rps m') (hstep : step loaded m (.add rps)) :
      Runs x step (rps :: loaded) m'
  | deleted {loaded : Loaded} {m : Manager} (h : Runs x step loaded m) (modID : UInt64)
      (hstep : step loaded m (.delete modID)) :
      Runs x step (without x modID loaded) (m.deletePolicy modID)

/-- The rows of the loaded policies. -/
def loadedRows (loaded : Loaded) : List RuleRow :=
  loaded.flatMap (fun rps => rps.policySet.rows.reverse)

/-- What is true in every run. -/
structure Follows (x : Externals) (loaded : Loaded) (m : Manager) : Prop where
  wf : ∀ rps ∈ loaded, rps.policySet.WellFormed
  ids : ∀ q ∈ loaded, ∀ q' ∈ loaded, q.policySet.modID x = q'.policySet.modID x →
    q.policySet.fqn = q'.policySet.fqn
  metadata : ∀ modID, m.metadata.lookup modID = (newest x modID loaded).map
      (fun rps => { fqn := rps.policySet.fqn, role := rps.policySet.roleName })
  history : Index.History x (loadedRows loaded) m.idx

section Steps

variable {loaded : Loaded} {m m' : Manager} {rps : RunnablePolicySet}

/-- **What an addition does**, whatever its outcome. -/
theorem addPolicy_spec (h : m.addPolicy x rps = .ok m' ∨ m.addPolicy x rps = .error m') :
    RuleTable.Ingested x m.toRuleTable rps.policySet m'.toRuleTable ∧
      m'.metadata = (m.noteMetadata x rps).metadata ∧
      m'.schemas = (m.noteMetadata x rps).schemas := by
  unfold addPolicy at h
  cases hingested : m.toRuleTable.ingestPolicy x rps.policySet with
  | error =>
    rw [hingested] at h
    rcases h with h | h <;> cases h
    exact ⟨.of_ingestPolicy (.inr hingested), rfl, rfl⟩
  | ok =>
    rw [hingested] at h
    rcases h with h | h <;> cases h
    exact ⟨.of_ingestPolicy (.inl hingested), rfl, rfl⟩

theorem addPolicy_ingestPolicy (h : m.addPolicy x rps = .ok m') :
    m.toRuleTable.ingestPolicy x rps.policySet = .ok m'.toRuleTable := by
  unfold addPolicy at h
  cases hingested : m.toRuleTable.ingestPolicy x rps.policySet with
  | error => rw [hingested] at h; cases h
  | ok =>
    rw [hingested] at h
    obtain rfl := Except.ok.inj h
    rfl

theorem newest_cons (modID : UInt64) : newest x modID (rps :: loaded) =
      if rps.policySet.modID x = modID then some rps else newest x modID loaded := by
  unfold newest
  by_cases h : rps.policySet.modID x = modID <;> simp [h]

variable {modID : UInt64} {q : RunnablePolicySet}

theorem newest_mem (h : newest x modID loaded = some rps) :
    rps ∈ loaded ∧ rps.policySet.modID x = modID := by
  exact ⟨mem_of_find?_eq_some h, by simpa using List.find?_some h⟩

theorem newest_eq_none_iff :
    newest x modID loaded = none ↔ ∀ rps ∈ loaded, rps.policySet.modID x ≠ modID := by
  unfold newest
  simp

/-- The newest versions of the modules that are left. -/
theorem newest_filter (ids : List UInt64) :
    newest x modID (loaded.filter (fun q => decide (q.policySet.modID x ∉ ids))) =
      if modID ∈ ids then none else newest x modID loaded := by
  unfold newest
  rw [List.find?_filter]
  split
  · next h =>
      rw [List.find?_eq_none]
      intro rps _
      by_cases hrps : rps.policySet.modID x = modID <;> simp [hrps, h]
  · next h =>
      congr 1
      funext rps
      by_cases hrps : rps.policySet.modID x = modID <;> simp [hrps, h]

/-- Deleting a module leaves the newest versions of the others. -/
theorem newest_without (modID modID' : UInt64) : newest x modID' (without x modID loaded) =
      if modID' = modID then none else newest x modID' loaded := by
  have hloaded : without x modID loaded =
      loaded.filter (fun q => decide (q.policySet.modID x ∉ [modID])) := by
    unfold without
    simp only [mem_singleton]
  rw [hloaded, newest_filter]
  simp only [mem_singleton]

/-- The version of its module that was added last. -/
def Current (x : Externals) (loaded : Loaded) (q : RunnablePolicySet) : Prop :=
  newest x (q.policySet.modID x) loaded = some q

theorem Current.mem (h : Current x loaded q) : q ∈ loaded := (newest_mem h).1

theorem current_cons : Current x (rps :: loaded) q ↔
      q = rps ∨ (q.policySet.modID x ≠ rps.policySet.modID x ∧ Current x loaded q) := by
  unfold Current
  rw [newest_cons]
  split
  · next hmod => simp [hmod, eq_comm]
  · next hmod =>
      have hne : q ≠ rps := fun h => hmod (h ▸ rfl)
      simp [hne, Ne.symm hmod]

theorem current_without :
    Current x (without x modID loaded) q ↔ q.policySet.modID x ≠ modID ∧ Current x loaded q := by
  unfold Current
  rw [newest_without]
  by_cases hmod : q.policySet.modID x = modID <;> simp

theorem current_filter {ids : List UInt64} :
    Current x (loaded.filter (fun q => decide (q.policySet.modID x ∉ ids))) q ↔
      q.policySet.modID x ∉ ids ∧ Current x loaded q := by
  unfold Current
  rw [newest_filter]
  by_cases hmod : q.policySet.modID x ∈ ids <;> simp

/-- `IndexRules` in a history. -/
theorem history_indexRules (new rows : List RuleRow) (ix ix' : Index) (h : Index.History x rows ix)
    (hok : ix.indexRules x new = .ok ix') : Index.History x (new.reverse ++ rows) ix' := by
  induction new generalizing rows ix ix' with
  | nil =>
    obtain rfl := Except.ok.inj hok
    exact h
  | cons row _ ih =>
    unfold Index.indexRules at hok
    split at hok
    · cases hok
    next ix₁ hrow =>
        rw [reverse_cons, append_assoc]
        exact ih _ ix₁ ix' (h.indexRule row hrow) hok

/-- The metadata are those of the current versions. -/
def MetadataOf (x : Externals) (loaded : Loaded) (m : Manager) : Prop :=
  ∀ modID, m.metadata.lookup modID = (newest x modID loaded).map
    (fun rps => { fqn := rps.policySet.fqn, role := rps.policySet.roleName })

theorem MetadataOf.added (h : MetadataOf x loaded m) (hwf : rps.policySet.WellFormed)
    (hout : m.addPolicy x rps = .ok m' ∨ m.addPolicy x rps = .error m') :
    MetadataOf x (rps :: loaded) m' := by
  obtain ⟨-, hmetadata, -⟩ := addPolicy_spec hout
  intro modID
  rw [hmetadata, newest_cons]
  unfold noteMetadata
  rw [hwf.metadata]
  by_cases hmod : rps.policySet.modID x = modID
  · rw [if_pos hmod, ← hmod, AList.lookup_insert]
    rfl
  · rw [if_neg hmod, AList.lookup_insert_ne (Ne.symm hmod), h modID]

theorem MetadataOf.deleted (h : MetadataOf x loaded m) (modID : UInt64) :
    MetadataOf x (without x modID loaded) (m.deletePolicy modID) := by
  intro modID'
  rw [newest_without]
  unfold deletePolicy
  cases hentry : m.metadata.lookup modID with
  | none =>
    dsimp only
    split
    · next hsame => rw [hsame, hentry]; rfl
    · exact h modID'
  | some =>
    show (m.metadata.erase modID).lookup modID' = _
    split
    · next hsame => rw [hsame, AList.lookup_erase]; rfl
    · next hsame => rw [AList.lookup_erase_ne hsame, h modID']

theorem Follows.new : Follows x [] Manager.new where
  wf := by intro rps h; exact (not_mem_nil h).elim
  ids := by intro q h; exact (not_mem_nil h).elim
  metadata := by intro modID; rfl
  history := .new

theorem Follows.added (h : Follows x loaded m) (hadd : Adds x loaded m rps m') :
    Follows x (rps :: loaded) m' := by
  constructor
  case wf =>
    exact forall_mem_cons.mpr ⟨hadd.wf, h.wf⟩
  case ids =>
    intro q hq q' hq' hmod
    rcases mem_cons.mp hq with rfl | hold <;> rcases mem_cons.mp hq' with rfl | hold'
    · rfl
    · exact (hadd.ids q' hold' hmod.symm).symm
    · exact hadd.ids q hold hmod
    · exact h.ids q hold q' hold' hmod
  case metadata => exact MetadataOf.added h.metadata hadd.wf (.inl hadd.ok)
  case history =>
    obtain ⟨ix, hix, hidx⟩ := RuleTable.ingestPolicy_idx (addPolicy_ingestPolicy hadd.ok)
    rw [hidx]
    exact (history_indexRules _ _ _ _ h.history hix).indexParentRoles _

/-- Filtering what a list of groups holds, when a group stays or goes as a whole. -/
theorem filter_flatMap_of_groups {α β : Type} (f : α → List β) {p : β → Bool} {q : α → Bool}
    (as : List α) (h : (∀ a ∈ as, ∀ b ∈ f a, p b = q a)) :
    (as.flatMap f).filter p = (as.filter q).flatMap f := by
  induction as with
  | nil => rfl
  | cons a _ ih =>
    have hgroup := h a mem_cons_self
    rw [flatMap_cons, filter_append, ih (fun b hb => h b (mem_cons_of_mem a hb))]
    cases hq : q a with
    | true =>
      rw [filter_cons_of_pos hq]
      congr 1
      exact filter_eq_self.mpr (fun b hb => (hgroup b hb).trans hq)
    | false =>
      rw [filter_cons_of_neg (by simp [hq])]
      have hnone : (f a).filter p = [] :=
        filter_eq_nil_iff.mpr (fun b hb => by simp [hgroup b hb, hq])
      rw [hnone, nil_append]

/-- The rows that are left are those of the policies that are left. -/
theorem Follows.withoutPolicy_loadedRows (h : Follows x loaded m) (hq : q ∈ loaded) :
    Index.withoutPolicy q.policySet.fqn (loadedRows loaded) =
      loadedRows (without x (q.policySet.modID x) loaded) := by
  unfold Index.withoutPolicy
  rw [if_neg (h.wf q hq).fqn_ne_empty]
  refine filter_flatMap_of_groups _ loaded ?_
  intro rps hrps row hrow
  have hsame : rps.policySet.fqn = q.policySet.fqn ↔ rps.policySet.modID x = q.policySet.modID x :=
    ⟨congrArg x.hasher.str, h.ids rps hrps q hq⟩
  rw [(PolicySet.stamped_of_mem_rows (mem_reverse.mp hrow)).originFqn]
  exact decide_eq_decide.mpr (not_congr hsame)

/-- A deletion does nothing for a module that is not loaded. -/
theorem MetadataOf.deletePolicy_cases (h : MetadataOf x loaded m) (modID : UInt64) :
    m.deletePolicy modID = m ∧ without x modID loaded = loaded ∨
      ∃ q ∈ loaded, q.policySet.modID x = modID ∧ m.deletePolicy modID =
        m.doDeletePolicy modID { fqn := q.policySet.fqn, role := q.policySet.roleName } := by
  unfold deletePolicy
  cases hentry : m.metadata.lookup modID with
  | none =>
    rw [h, Option.map_eq_none_iff, newest_eq_none_iff] at hentry
    exact .inl ⟨rfl, filter_eq_self.mpr (fun rps hrps => decide_eq_true (hentry rps hrps))⟩
  | some =>
    rw [h, Option.map_eq_some_iff] at hentry
    obtain ⟨q, hq, rfl⟩ := hentry
    exact .inr ⟨q, (newest_mem hq).1, (newest_mem hq).2, rfl⟩

theorem Follows.deleted (h : Follows x loaded m) (modID : UInt64) :
    Follows x (without x modID loaded) (m.deletePolicy modID) := by
  have hmetadata := MetadataOf.deleted h.metadata modID
  obtain ⟨hsame, hloaded⟩ | ⟨q, hmem, rfl, hdeleted⟩ :=
    MetadataOf.deletePolicy_cases h.metadata modID
  · rw [hsame, hloaded]
    exact h
  · refine ⟨fun rps hrps => h.wf rps (mem_of_mem_filter hrps),
      fun p hp p' hp' => h.ids p (mem_of_mem_filter hp) p' (mem_of_mem_filter hp'), hmetadata, ?_⟩
    have hdel := h.history.deletePolicy q.policySet.fqn
    rw [h.withoutPolicy_loadedRows hmem] at hdel
    rw [hdeleted]
    unfold doDeletePolicy
    split
    · exact hdel
    · exact hdel.indexParentRoles _

theorem Follows.finalizeBuild (h : Follows x loaded m) : Follows x loaded m.finalizeBuild :=
  ⟨h.wf, h.ids, h.metadata, h.history⟩

variable {step : Loaded → Manager → Write → Prop}

/-- **The rule for runs.**  What additions and deletions keep, and the end of the construction, holds
in every run; metadata and index follow the loaded policies along with it. -/
theorem Runs.rule {P : Loaded → Manager → Prop} (hnew : P [] Manager.new)
    (hadded : ∀ {loaded m rps m'}, Adds x loaded m rps m' → step loaded m (.add rps) →
      P loaded m → P (rps :: loaded) m')
    (hdeleted : ∀ {loaded m} (modID), Follows x loaded m → step loaded m (.delete modID) →
      P loaded m → P (without x modID loaded) (m.deletePolicy modID))
    (hfinal : ∀ {loaded m}, P loaded m → P loaded m.finalizeBuild) (h : Runs x step loaded m) :
    Follows x loaded m ∧ P loaded m := by
  have hbuilds : ∀ loaded m, Builds x step loaded m → Follows x loaded m ∧ P loaded m := by
    intro loaded
    induction loaded with
    | nil =>
      intro m hbuilt
      obtain rfl : m = Manager.new := hbuilt
      exact ⟨.new, hnew⟩
    | cons rps loaded ih =>
      intro m' hbuilt
      obtain ⟨m, hrest, hadd, hstep⟩ := hbuilt
      obtain ⟨hfollows, hP⟩ := ih m hrest
      exact ⟨hfollows.added hadd, hadded hadd hstep hP⟩
  induction h with
  | built hbuilt =>
    obtain ⟨hfollows, hP⟩ := hbuilds _ _ hbuilt
    exact ⟨hfollows.finalizeBuild, hfinal hP⟩
  | added _ _ hadd hstep ih => exact ⟨ih.1.added hadd, hadded hadd hstep ih.2⟩
  | deleted _ modID hstep ih => exact ⟨ih.1.deleted modID, hdeleted modID ih.1 hstep ih.2⟩

/-- **Metadata and index follow the loaded policies** in every run. -/
theorem Runs.follows (h : Runs x step loaded m) : Follows x loaded m :=
  (h.rule (P := fun _ _ => True) trivial (fun _ _ _ => trivial) (fun _ _ _ _ => trivial)
    (fun _ => trivial)).1

end Steps

section Mono

variable {step step' : Loaded → Manager → Write → Prop}
  (hstep : ∀ loaded m w, step loaded m w → step' loaded m w)

include hstep

theorem Builds.mono (loaded : Loaded) (m' : Manager) (h : Builds x step loaded m') :
    Builds x step' loaded m' := by
  induction loaded generalizing m' with
  | nil => exact h
  | cons rps loaded ih =>
    obtain ⟨m, hrest, hadd, hs⟩ := h
    exact ⟨m, ih m hrest, hadd, hstep _ _ _ hs⟩

/-- A run under a condition is one under a weaker condition. -/
theorem Runs.mono {loaded : Loaded} {m : Manager} (h : Runs x step loaded m) :
    Runs x step' loaded m := by
  induction h with
  | built hbuilt => exact .built (hbuilt.mono hstep)
  | added _ rps hadd hs ih => exact ih.added rps hadd (hstep _ _ _ hs)
  | deleted _ modID hs ih => exact ih.deleted modID (hstep _ _ _ hs)

end Mono

/-- The table that was built from no policies. -/
theorem Runs.new {step : Loaded → Manager → Write → Prop} : Runs x step [] Manager.new :=
  Runs.built (m := Manager.new) rfl

/-! ## §3. Policies for examples. -/

/-- A principal policy without rules. -/
def plainPrincipal (scope : String) (sp : ScopePermissions := .overrideParent) :
    RunnablePolicySet where
  policySet := .principalPolicy (principalPolicyFqn "alice" "default" scope) "alice" "default"
    [{ scope := scope, resourceRules := [], scopePermissions := sp, orderedVariables := []
       constants := [] }]

/-- A resource policy without rules. -/
def plainResource (resource scope : String) (sp : ScopePermissions := .overrideParent) :
    RunnablePolicySet where
  policySet := .resourcePolicy (resourcePolicyFqn resource "default" scope) resource "default"
    [{ scope := scope, derivedRoles := [], rules := [], scopePermissions := sp
       orderedVariables := [], constants := [] }]

theorem plainPrincipal_wellFormed (scope : String) (sp : ScopePermissions) :
    (plainPrincipal scope sp).policySet.WellFormed := ⟨_, _, rfl, rfl, List.nodup_nil⟩

theorem plainResource_wellFormed (resource scope : String) (sp : ScopePermissions) :
    (plainResource resource scope sp).policySet.WellFormed := ⟨_, _, rfl, rfl⟩

/-- A policy without variables can be added to any table. -/
theorem exists_addPolicy (m : Manager) {rps : RunnablePolicySet}
    (hvars : ∀ row ∈ rps.policySet.rows, row.NoVariables) : ∃ m', m.addPolicy x rps = .ok m' := by
  obtain ⟨ix, hix⟩ := Index.indexRules_ok rps.policySet.rows
    (rps.policySet.rows.foldl (RuleTable.noteRow x)
      (m.toRuleTable.notePolicy x rps.policySet)).idx hvars
  unfold addPolicy RuleTable.ingestPolicy RuleTable.indexRules
  dsimp only
  rw [hix]
  exact ⟨_, rfl⟩

theorem exists_add_plainPrincipal (m : Manager) (scope : String)
    (sp : ScopePermissions) : ∃ m', m.addPolicy x (plainPrincipal scope sp) = .ok m' :=
  exists_addPolicy m (forall_mem_singleton.mpr ⟨rfl, rfl⟩)

theorem plainResource_noVariables (resource scope : String) (sp : ScopePermissions) :
    ∀ row ∈ (plainResource resource scope sp).policySet.rows, row.NoVariables :=
  forall_mem_singleton.mpr ⟨rfl, rfl⟩

theorem exists_add_plainResource (m : Manager) (resource scope : String)
    (sp : ScopePermissions) : ∃ m', m.addPolicy x (plainResource resource scope sp) = .ok m' :=
  exists_addPolicy m (plainResource_noVariables resource scope sp)

end Manager

end AccessManagement
