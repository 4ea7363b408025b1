/-
  AccessManagement.Manager.ParentRoles — THE PARENT ROLES OF A MANAGED TABLE.

  `ScopeParentRoles` is keyed by scope and role, while a role policy has a version too.  So the
  versions of one role in one scope share an entry: the version that is added last writes it, and
  the deletion of ANY version takes it away.  The scope of an entry that a deletion takes away is
  what follows the first slash of the policy's name, which is another scope if the name of the
  role has a slash.

  Main results:
    * `parents_exact_of_runs`     — the entries are those of the loaded role policies, and the
      ancestors depend on nothing else, as long as no step falls into one of these gaps.
    * `parents_lost_with_version` — a version that is loaded and whose parent roles are gone.
-/
import AccessManagement.Manager.Runs

namespace AccessManagement

open Lib List Externals RuleTable NestedMap

namespace PolicySet

/-- Scope and role of a role policy: the key that its parent roles are entered under. -/
def roleKey : PolicySet → Option (String × String)
  | .rolePolicy _ role _ scope _ _ _ _ => some (scope, role)
  | _ => none

def parentRoles : PolicySet → List String
  | .rolePolicy _ _ _ _ parentRoles _ _ _ => parentRoles
  | _ => []

/-- The key that a deletion takes away. -/
def droppedKey (ps : PolicySet) : Option (String × String) :=
  if ps.roleName = "" then none else some (Namer.scopeFromFqn ps.fqn, ps.roleName)

end PolicySet

/-! ## §1. Ancestors. -/

namespace RuleTable

/-- The ancestors of a role depend on what the parent roles of each role are. -/
theorem collectParentRoles_congr {parents parents' : AList (fun _ : String => List String)}
    (h : ∀ role, parents.lookup role = parents'.lookup role) (fuel : Nat) (role : String)
    (acc : List String × List String) :
    collectParentRoles parents fuel role acc = collectParentRoles parents' fuel role acc := by
  induction fuel generalizing role acc with
  | zero => rfl
  | succ _ ih =>
    unfold collectParentRoles
    rw [h role]
    simp only [ih]

/-- Maps with the same entries have equally many. -/
theorem entries_length_congr {ν : Type} {i i' : AList (fun _ : String => ν)}
    (h : ∀ j, i.lookup j = i'.lookup j) : i.entries.length = i'.entries.length := by
  refine (lookup_ext i.nodupKeys i'.nodupKeys ?_).length_eq
  intro j v
  have hj : i.entries.dlookup j = i'.entries.dlookup j := h j
  rw [hj]

variable (spr : NestedMap String String (List String))

/-- The ancestors of a role in a scope. -/
def ancestors (scope role : String) : Option (List String) :=
  (spr.get scope role).map (fun _ =>
    (collectParentRoles (spr.inner scope) ((spr.inner scope).entries.length + 1) role ([], [])).1)

/-- The inner loop of `compileParentRoleAncestors`. -/
def compiledRoles (roles : AList (fun _ : String => List String)) :
    AList (fun _ : String => List String) :=
  roles.entries.foldl (fun byRole r =>
    byRole.insert r.1 (collectParentRoles roles (roles.entries.length + 1) r.1 ([], [])).1) ∅

/-- **What `compileParentRoleAncestors` leaves.** -/
theorem get_compileParentRoleAncestors (scope role : String) :
    NestedMap.get (compileParentRoleAncestors spr) scope role = ancestors spr scope role := by
  have houter : (compileParentRoleAncestors spr).lookup scope =
      (spr.lookup scope).map compiledRoles :=
    lookup_foldl_entries (fun _ roles => compiledRoles roles) spr scope
  unfold ancestors NestedMap.get NestedMap.inner
  rw [houter]
  cases spr.lookup scope with
  | none => rfl
  | some roles =>
    exact lookup_foldl_entries (fun role _ =>
      (collectParentRoles roles (roles.entries.length + 1) role ([], [])).1) roles role

theorem ancestors_congr {spr spr' : NestedMap String String (List String)}
    (h : ∀ scope role, spr.get scope role = spr'.get scope role) (scope role : String) :
    ancestors spr scope role = ancestors spr' scope role := by
  unfold ancestors
  rw [h scope role, entries_length_congr (h scope), collectParentRoles_congr (h scope)]

end RuleTable

namespace Manager

variable {x : Externals} {loaded : Loaded} {m m' : Manager} {rps q : RunnablePolicySet}
  {key : String × String}

/-! ## §2. Exactness. -/

/-- The version of its module that was added last, and a role policy for the key. -/
def Declares (x : Externals) (loaded : Loaded) (key : String × String) (q : RunnablePolicySet) :
    Prop :=
  newest x (q.policySet.modID x) loaded = some q ∧ q.policySet.roleKey = some key

/-- **The parent roles are those of the loaded role policies.** -/
structure ParentsExact (x : Externals) (loaded : Loaded)
    (spr : NestedMap String String (List String)) : Prop where
  declared : ∀ key q, Declares x loaded key q → spr.get key.1 key.2 = some q.policySet.parentRoles
  undeclared : ∀ key, (¬ ∃ q, Declares x loaded key q) → spr.get key.1 key.2 = none

theorem declares_cons :
    Declares x (rps :: loaded) key q ↔ (q = rps ∧ rps.policySet.roleKey = some key) ∨
        (q.policySet.modID x ≠ rps.policySet.modID x ∧ Declares x loaded key q) := by
  have hcons := @current_cons x loaded rps q
  unfold Current at hcons
  grind [Declares]

theorem declares_without {modID : UInt64} : Declares x (without x modID loaded) key q ↔
      q.policySet.modID x ≠ modID ∧ Declares x loaded key q := by
  have hwithout := @current_without x loaded modID q
  unfold Current at hwithout
  grind [Declares]

/-! ## §3. Steps. -/

/-- An addition agrees with the other versions of the role that are loaded, and the entry of the
version that it replaces is its own or also another's. -/
def AgreesOnParents (x : Externals) (loaded : Loaded) (rps : RunnablePolicySet) : Prop :=
  (∀ key q, rps.policySet.roleKey = some key → Declares x loaded key q →
    q.policySet.modID x ≠ rps.policySet.modID x →
    q.policySet.parentRoles = rps.policySet.parentRoles) ∧
  (∀ key q, Declares x loaded key q → q.policySet.modID x = rps.policySet.modID x →
    rps.policySet.roleKey ≠ some key →
    ∃ q', Declares x loaded key q' ∧ q'.policySet.modID x ≠ rps.policySet.modID x)

/-- A deletion takes away an entry that no policy that stays has declared, and leaves none that
only the deleted policy has declared. -/
def DropsOwnParents (x : Externals) (loaded : Loaded) (modID : UInt64) : Prop :=
  ∀ q, newest x modID loaded = some q →
    (∀ key q', q.policySet.droppedKey = some key → Declares x loaded key q' →
      q'.policySet.modID x = modID) ∧
    (∀ key, q.policySet.roleKey = some key → q.policySet.droppedKey ≠ some key →
      ∃ q', Declares x loaded key q' ∧ q'.policySet.modID x ≠ modID)

/-- The entries after an addition. -/
theorem get_notePolicy (t : RuleTable) (ps : PolicySet) (key : String × String) :
    NestedMap.get (t.notePolicy x ps).scopeParentRoles key.1 key.2 =
      if ps.roleKey = some key then some ps.parentRoles
      else NestedMap.get t.scopeParentRoles key.1 key.2 := by
  cases ps with
  | resourcePolicy _ _ _ policies =>
    cases policies with
    | nil => rfl
    | cons =>
      unfold notePolicy
      dsimp only
      split <;> rfl
  | principalPolicy => rfl
  | rolePolicy _ role _ scope parentRoles =>
    refine (get_put t.scopeParentRoles scope key.1 role key.2 parentRoles).trans ?_
    exact if_congr (by grind [PolicySet.roleKey]) rfl rfl

theorem parentsExact_added_iff {t t' : RuleTable} (h : ParentsExact x loaded t.scopeParentRoles)
    (hingested : RuleTable.Ingested x t rps.policySet t') :
    ParentsExact x (rps :: loaded) t'.scopeParentRoles ↔ AgreesOnParents x loaded rps := by
  have hget := fun key => get_notePolicy (x := x) t rps.policySet key
  rw [← hingested.scopeParentRoles] at hget
  constructor
  · intro hexact
    refine ⟨fun key q hkey hq hne => ?_, fun key q hq hmod hkey => ?_⟩
    · have hold := hexact.declared key q (declares_cons.mpr (.inr ⟨hne, hq⟩))
      grind
    · by_contra hnone
      have hgone := hexact.undeclared key (by grind [declares_cons])
      grind [h.declared key q hq]
  · intro ⟨hagree, hleft⟩
    refine ⟨fun key q hq => ?_, fun key hnone => ?_⟩
    · rcases declares_cons.mp hq with ⟨rfl, hkey⟩ | ⟨hne, hother⟩
      · rw [hget, if_pos hkey]
      · grind [h.declared key q hother]
    · have hkey : rps.policySet.roleKey ≠ some key :=
        fun hkey => hnone ⟨rps, declares_cons.mpr (.inl ⟨rfl, hkey⟩)⟩
      rw [hget, if_neg hkey]
      refine h.undeclared key ?_
      rintro ⟨q, hq⟩
      by_cases hmod : q.policySet.modID x = rps.policySet.modID x
      · obtain ⟨q', hq', hne⟩ := hleft key q hq hmod hkey
        exact hnone ⟨q', declares_cons.mpr (.inr ⟨hne, hq'⟩)⟩
      · exact hnone ⟨q, declares_cons.mpr (.inr ⟨hmod, hq⟩)⟩

theorem dropParentRoles_eq (spr : NestedMap String String (List String)) (scope role : String) :
    dropParentRoles spr scope role = spr.drop scope role := by
  unfold dropParentRoles NestedMap.drop NestedMap.inner
  cases h : spr.lookup scope with
  | none =>
    have hgone : spr.entries.kerase scope = spr.entries :=
      kerase_of_notMem_keys (AList.lookup_eq_none.mp h)
    exact (AList.ext hgone).symm
  | some => rfl

/-- The entries after a deletion. -/
theorem Follows.get_deletePolicy (h : Follows x loaded m) (modID : UInt64) (key : String × String) :
    NestedMap.get (m.deletePolicy modID).scopeParentRoles key.1 key.2 =
      if (newest x modID loaded).bind (fun q => q.policySet.droppedKey) = some key then none
      else NestedMap.get m.scopeParentRoles key.1 key.2 := by
  unfold deletePolicy
  rw [h.metadata]
  cases newest x modID loaded with
  | none => rfl
  | some =>
    unfold doDeletePolicy PolicySet.droppedKey
    dsimp only [Option.map_some, Option.bind_some]
    split
    · rfl
    · rw [dropParentRoles_eq, get_drop]
      exact if_congr (by grind) rfl rfl

theorem Follows.parentsExact_deleted_iff (hfollows : Follows x loaded m)
    (h : ParentsExact x loaded m.scopeParentRoles) (modID : UInt64) :
    ParentsExact x (without x modID loaded) (m.deletePolicy modID).scopeParentRoles ↔
      DropsOwnParents x loaded modID := by
  have hget := hfollows.get_deletePolicy modID
  constructor
  · intro hexact q hq
    refine ⟨fun key q' hkey hq' => ?_, fun key hkey hdropped => ?_⟩
    · by_contra hne
      have hold := hexact.declared key q' (declares_without.mpr ⟨hne, hq'⟩)
      grind
    · by_contra hnone
      have hgone := hexact.undeclared key (by grind [declares_without])
      have hown : Declares x loaded key q := ⟨by rw [(newest_mem hq).2]; exact hq, hkey⟩
      grind [h.declared key q hown]
  · intro hdrops
    refine ⟨fun key q' hq' => ?_, fun key hnone => ?_⟩
    · obtain ⟨hne, hother⟩ := declares_without.mp hq'
      rw [hget, if_neg, h.declared key q' hother]
      intro hdropped
      obtain ⟨q, hq, hkey⟩ := Option.bind_eq_some_iff.mp hdropped
      exact hne ((hdrops q hq).1 key q' hkey hother)
    · rw [hget]
      split
      · rfl
      · next hdropped =>
        refine h.undeclared key ?_
        rintro ⟨q', hq'⟩
        by_cases hmod : q'.policySet.modID x = modID
        · -- the deleted policy itself: its entry is declared by another too
          have hnew : newest x modID loaded = some q' := by rw [← hmod]; exact hq'.1
          rw [hnew] at hdropped
          obtain ⟨q'', hq'', hne⟩ := (hdrops q' hnew).2 key hq'.2 hdropped
          exact hnone ⟨q'', declares_without.mpr ⟨hne, hq''⟩⟩
        · exact hnone ⟨q', declares_without.mpr ⟨hmod, hq'⟩⟩

/-! ## §4. Runs. -/

/-- What is true of the parent roles in every run. -/
structure ParentsCompiled (m : Manager) : Prop where
  noEmpty : NestedMap.NoEmpty m.scopeParentRoles
  compiled : m.idx.parentRoles = RuleTable.compileParentRoleAncestors m.scopeParentRoles

theorem parentRoles_deletePolicy (ix : Index) (fqn : String) :
    (ix.deletePolicy fqn).parentRoles = ix.parentRoles := by
  refine @Index.deletePolicy_induction ix (fun ix' => ix'.parentRoles = ix.parentRoles) fqn rfl ?_
    (fun _ _ h => h)
  intro ix' id h
  rw [← h]
  unfold Index.deleteBinding Index.dropOrigin
  dsimp only
  repeat (first | rfl | split)

theorem Runs.parentsCompiled {step : Loaded → Manager → Write → Prop} (h : Runs x step loaded m) :
    ParentsCompiled m := by
  refine (h.rule (P := fun _ m => ParentsCompiled m) ⟨noEmpty_empty, rfl⟩ ?_ ?_ ?_).2
  · intro loaded m rps m' hadd _ hold
    obtain ⟨ix, -, hidx⟩ := ingestPolicy_idx (addPolicy_ingestPolicy hadd.ok)
    refine ⟨?_, by rw [hidx]⟩
    rw [(addPolicy_spec (.inl hadd.ok)).1.scopeParentRoles]
    unfold notePolicy
    split
    · split <;> exact hold.noEmpty
    · exact hold.noEmpty.put _ _ _
    · exact hold.noEmpty
  · intro loaded m modID _ _ hold
    unfold deletePolicy
    cases m.metadata.lookup modID with
    | none => exact hold
    | some entry =>
      by_cases hrole : entry.role = ""
      · refine ⟨?_, ?_⟩ <;> simp only [doDeletePolicy, hrole, if_true]
        · exact hold.noEmpty
        · rw [parentRoles_deletePolicy]
          exact hold.compiled
      · refine ⟨?_, ?_⟩ <;> simp only [doDeletePolicy, hrole, if_false, dropParentRoles_eq]
        exact hold.noEmpty.drop _ _
  · intro loaded m hold
    exact ⟨hold.noEmpty, hold.compiled⟩

/-- The condition on the steps of a run. -/
def KeepsParents (x : Externals) (loaded : Loaded) (_ : Manager) : Write → Prop
  | .add rps => AgreesOnParents x loaded rps
  | .delete modID => DropsOwnParents x loaded modID

theorem Runs.parentsExact (h : Runs x (KeepsParents x) loaded m) :
    ParentsExact x loaded m.scopeParentRoles := by
  refine (h.rule (P := fun loaded m => ParentsExact x loaded m.scopeParentRoles) ?_ ?_ ?_ ?_).2
  · refine ⟨?_, fun key _ => get_empty _ _⟩
    rintro key q ⟨hq, -⟩
    cases hq
  · intro loaded m rps m' hadd hstep hexact
    exact (parentsExact_added_iff hexact (addPolicy_spec (.inl hadd.ok)).1).mpr hstep
  · intro loaded m modID hfollows hstep hexact
    exact (hfollows.parentsExact_deleted_iff hexact modID).mpr hstep
  · intro loaded m hexact
    exact hexact

/-- Exact tables of the same role policies have the same entries. -/
theorem ParentsExact.get_eq {loaded' : Loaded} {spr spr' : NestedMap String String (List String)}
    (h : ParentsExact x loaded spr) (h' : ParentsExact x loaded' spr')
    (hsame : ∀ key q, Declares x loaded key q ↔ Declares x loaded' key q) (scope role : String) :
    spr.get scope role = spr'.get scope role := by
  by_cases hsome : ∃ q, Declares x loaded (scope, role) q
  · obtain ⟨q, hq⟩ := hsome
    exact (h.declared _ q hq).trans
      (h'.declared (scope, role) q ((hsame _ q).mp hq)).symm
  · refine (h.undeclared _ hsome).trans (h'.undeclared (scope, role) ?_).symm
    rintro ⟨q, hq⟩
    exact hsome ⟨q, (hsame _ q).mpr hq⟩

/-- `AddParentRoles` reads the ancestors of a role in a scope and nothing else. -/
theorem addParentRoles_congr {ix ix' : Index}
    (h : ∀ scope role, NestedMap.get ix.parentRoles scope role =
      NestedMap.get ix'.parentRoles scope role) : ix.addParentRoles = ix'.addParentRoles := by
  funext scopes roles
  refine congrArg (roles ++ ·) (flatMap_congr (fun role _ => flatMap_congr (fun scope _ => ?_)))
  have hread := congrArg (fun o => Option.getD o []) (h scope role)
  unfold NestedMap.get NestedMap.inner at hread
  cases hl : ix.parentRoles.lookup scope <;> cases hl' : ix'.parentRoles.lookup scope <;>
    rw [hl, hl'] at hread <;> exact hread

/-- **Parent roles of a managed table.**  In a run in which additions agree with the other loaded
versions of the role, and deletions take away entries of the deleted policy alone, the entries are
those of the loaded role policies.  Two such runs that end with the same role policies have the same
parent roles and the same ancestors.  The next step keeps this exactly when it does the same. -/
theorem parents_exact_of_runs (h : Runs x (KeepsParents x) loaded m) :
    ((∀ key q, Declares x loaded key q →
        NestedMap.get m.scopeParentRoles key.1 key.2 = some q.policySet.parentRoles) ∧
      (∀ key, (¬ ∃ q, Declares x loaded key q) →
        NestedMap.get m.scopeParentRoles key.1 key.2 = none)) ∧
    (∀ loaded' m', Runs x (KeepsParents x) loaded' m' →
      (∀ key q, Declares x loaded key q ↔ Declares x loaded' key q) →
      (∀ scope, scope ∈ m.scopeParentRoles ↔ scope ∈ m'.scopeParentRoles) ∧
      (∀ scope role, NestedMap.get m.scopeParentRoles scope role =
        NestedMap.get m'.scopeParentRoles scope role) ∧
      (∀ scope role, NestedMap.get m.idx.parentRoles scope role =
        NestedMap.get m'.idx.parentRoles scope role) ∧
      m.idx.addParentRoles = m'.idx.addParentRoles) ∧ (∀ rps m', m.addPolicy x rps = .ok m' →
      (ParentsExact x (rps :: loaded) m'.scopeParentRoles ↔ AgreesOnParents x loaded rps)) ∧
    (∀ modID, ParentsExact x (without x modID loaded) (m.deletePolicy modID).scopeParentRoles ↔
      DropsOwnParents x loaded modID) := by
  have hexact := h.parentsExact
  refine ⟨⟨hexact.declared, hexact.undeclared⟩, ?_, ?_, h.follows.parentsExact_deleted_iff hexact⟩
  · intro loaded' m' h' hsame
    have hentries := hexact.get_eq h'.parentsExact hsame
    have hancestors : ∀ scope role, NestedMap.get m.idx.parentRoles scope role =
        NestedMap.get m'.idx.parentRoles scope role := by
      intro scope role
      rw [h.parentsCompiled.compiled, h'.parentsCompiled.compiled,
        get_compileParentRoleAncestors, get_compileParentRoleAncestors]
      exact ancestors_congr hentries scope role
    refine ⟨?_, hentries, hancestors, addParentRoles_congr hancestors⟩
    intro scope
    rw [h.parentsCompiled.noEmpty.mem_iff, h'.parentsCompiled.noEmpty.mem_iff]
    simp only [hentries]
  · intro rps m' hok
    exact parentsExact_added_iff hexact (addPolicy_spec (.inl hok)).1

/-- A version of the policy for a role in a scope. -/
def acmeRole (role version : String) (parentRoles : List String) : RunnablePolicySet where
  policySet := .rolePolicy (Namer.rolePolicyFqn role version "acme") role version "acme"
    parentRoles [("doc", [{ allowActions := ["view"], condition := none, emitOutput := none
                            name := "view" }])] [] []

/-- A new policy whose parent roles are those of the other versions of its role. -/
theorem agreesOnParents_of (hnew : ∀ q ∈ loaded, q.policySet.modID x ≠ rps.policySet.modID x)
    (hsame : ∀ q ∈ loaded, q.policySet.roleKey = rps.policySet.roleKey →
      q.policySet.parentRoles = rps.policySet.parentRoles) : AgreesOnParents x loaded rps := by
  constructor
  · intro key q hkey hq _
    exact hsame q (newest_mem hq.1).1 (hq.2.trans hkey.symm)
  · intro key q hq hmod
    exact (hnew q (newest_mem hq.1).1 hmod).elim

theorem exists_adds_acmeRole (m : Manager) (role version : String) (parentRoles : List String)
    (hnew : ∀ q ∈ loaded, q.policySet.modID x ≠
      (acmeRole role version parentRoles).policySet.modID x) :
    ∃ m', Adds x loaded m (acmeRole role version parentRoles) m' := by
  obtain ⟨m', hm'⟩ := @exists_addPolicy x m (acmeRole role version parentRoles)
    (forall_mem_singleton.mpr ⟨rfl, rfl⟩)
  exact ⟨m', ⟨rfl, List.nodup_singleton _⟩, fun q hq hmod => (hnew q hq hmod).elim, hm'⟩

/-- A table that is built from one version. -/
theorem exists_acmeRole_run (version : String) (parentRoles : List String) :
    ∃ m, Runs sample (KeepsParents sample) [acmeRole "manager" version parentRoles] m := by
  have hnone : ∀ q ∈ ([] : Loaded), q.policySet.modID sample ≠
      (acmeRole "manager" version parentRoles).policySet.modID sample :=
    fun q hq => (not_mem_nil hq).elim
  obtain ⟨m, hm⟩ := exists_adds_acmeRole Manager.new "manager" version parentRoles hnone
  have hbuilds : Builds sample (KeepsParents sample) [acmeRole "manager" version parentRoles] m :=
    ⟨Manager.new, rfl, hm, agreesOnParents_of hnone
      (fun q hq => (not_mem_nil hq).elim)⟩
  exact ⟨_, .built hbuilds⟩

/-- The two versions of a role that are loaded in the end, the last one first. -/
abbrev twoVersions (last first : String) : Loaded :=
  [acmeRole "manager" last ["staff"], acmeRole "manager" first ["staff"]]

/-- The policy of the other role is the only one with its key. -/
theorem dropsOwnParents_lead : DropsOwnParents sample (acmeRole "manager" "1" ["staff"] ::
    [acmeRole "lead" "1" ["manager"], acmeRole "manager" "2" ["staff"]])
    ((acmeRole "lead" "1" ["manager"]).policySet.modID sample) := by
  intro q hq
  obtain rfl : acmeRole "lead" "1" ["manager"] = q := Option.some.inj hq
  constructor
  · intro key q' hkey hq'
    have hown : ∀ q' ∈ acmeRole "manager" "1" ["staff"] ::
        [acmeRole "lead" "1" ["manager"], acmeRole "manager" "2" ["staff"]],
        q'.policySet.roleKey = (acmeRole "lead" "1" ["manager"]).policySet.droppedKey →
        q'.policySet.modID sample = (acmeRole "lead" "1" ["manager"]).policySet.modID sample := by
      decide
    exact hown q' (newest_mem hq'.1).1 (hq'.2.trans hkey.symm)
  · intro key hkey hne
    exact (hne hkey).elim

/-- Two histories with the same role policies in the end.  In the first another role comes and goes
between the versions; in the second the versions come in the other order. -/
theorem versions_parents_exact :
    ∃ m m', Runs Externals.sample (KeepsParents Externals.sample) (twoVersions "1" "2") m ∧
      Runs Externals.sample (KeepsParents Externals.sample) (twoVersions "2" "1") m' ∧
      NestedMap.get m.scopeParentRoles "acme" "manager" = some ["staff"] ∧
      NestedMap.get m.scopeParentRoles "acme" "lead" = none ∧
      m.idx.addParentRoles = m'.idx.addParentRoles := by
  obtain ⟨m₁, h₁⟩ := exists_acmeRole_run "2" ["staff"]
  have hlead : ∀ q ∈ [acmeRole "manager" "2" ["staff"]],
      q.policySet.modID sample ≠ (acmeRole "lead" "1" ["manager"]).policySet.modID sample := by decide
  obtain ⟨m₂, h₂⟩ := exists_adds_acmeRole m₁ "lead" "1" ["manager"] hlead
  have hrun₂ := h₁.added _ h₂ (agreesOnParents_of hlead (by decide))
  have hfirst : ∀ q ∈ [acmeRole "lead" "1" ["manager"], acmeRole "manager" "2" ["staff"]],
      q.policySet.modID sample ≠ (acmeRole "manager" "1" ["staff"]).policySet.modID sample := by
    decide
  obtain ⟨m₃, h₃⟩ := exists_adds_acmeRole m₂ "manager" "1" ["staff"] hfirst
  have hrun₃ := hrun₂.added _ h₃ (agreesOnParents_of hfirst (by decide))
  have hrun : Runs sample (KeepsParents sample) (twoVersions "1" "2") _ :=
    hrun₃.deleted ((acmeRole "lead" "1" ["manager"]).policySet.modID sample) dropsOwnParents_lead
  obtain ⟨m₁', h₁'⟩ := exists_acmeRole_run "1" ["staff"]
  have hsecond : ∀ q ∈ [acmeRole "manager" "1" ["staff"]],
      q.policySet.modID sample ≠ (acmeRole "manager" "2" ["staff"]).policySet.modID sample := by
    decide
  obtain ⟨m', h'⟩ := exists_adds_acmeRole m₁' "manager" "2" ["staff"] hsecond
  have hrun' : Runs sample (KeepsParents sample) (twoVersions "2" "1") m' :=
    h₁'.added _ h' (agreesOnParents_of hsecond (by decide))
  have hexact := parents_exact_of_runs hrun
  refine ⟨_, m', hrun, hrun', hexact.1.1 ("acme", "manager")
    (acmeRole "manager" "1" ["staff"]) ⟨rfl, rfl⟩,
    hexact.1.2 ("acme", "lead") ?_, ?_⟩
  · rintro ⟨q, hq, hkey⟩
    have hother : ∀ q ∈ twoVersions "1" "2", q.policySet.roleKey ≠ some ("acme", "lead") := by decide
    exact hother q (newest_mem hq).1 hkey
  · refine (hexact.2.1 _ _ hrun' ?_).2.2.2
    intro key q
    have hempty : ¬ Declares sample [] key q := fun h => by cases h.1
    have hne := hsecond _ mem_cons_self
    simp only [declares_cons]
    grind

theorem managerRole_ids : (acmeRole "manager" "1" ["employee"]).policySet.modID sample ≠
    (acmeRole "manager" "2" ["staff"]).policySet.modID sample := by decide

/-- Two versions are added and the first is deleted: the parent roles of the second, which is
loaded still, are gone.  Without the first version they are there. -/
theorem parents_lost_with_version :
    ∃ m m', Runs Externals.sample (fun _ _ _ => True) [acmeRole "manager" "2" ["staff"]] m ∧
      Runs Externals.sample (fun _ _ _ => True) [acmeRole "manager" "2" ["staff"]] m' ∧
      Declares Externals.sample [acmeRole "manager" "2" ["staff"]] ("acme", "manager")
        (acmeRole "manager" "2" ["staff"]) ∧
      NestedMap.get m.scopeParentRoles "acme" "manager" = none ∧
      NestedMap.get m'.scopeParentRoles "acme" "manager" = some ["staff"] := by
  have hdeclares : Declares sample [acmeRole "manager" "2" ["staff"]] ("acme", "manager")
      (acmeRole "manager" "2" ["staff"]) := ⟨by rw [newest_cons, if_pos rfl], rfl⟩
  obtain ⟨m', hm'⟩ := exists_acmeRole_run "2" ["staff"]
  obtain ⟨m₁, h₁⟩ := exists_acmeRole_run "1" ["employee"]
  have hfree : Runs sample (fun _ _ _ => True) [acmeRole "manager" "1" ["employee"]] m₁ :=
    h₁.mono (fun _ _ _ _ => trivial)
  have hnew : ∀ q ∈ [acmeRole "manager" "1" ["employee"]], q.policySet.modID sample ≠
      (acmeRole "manager" "2" ["staff"]).policySet.modID sample :=
    forall_mem_singleton.mpr managerRole_ids
  obtain ⟨m₂, h₂⟩ := exists_adds_acmeRole m₁ "manager" "2" ["staff"] hnew
  have hadded := hfree.added _ h₂ trivial
  have hdel := hadded.deleted ((acmeRole "manager" "1" ["employee"]).policySet.modID sample) trivial
  refine ⟨_, m', hdel, hm'.mono (fun _ _ _ _ => trivial), hdeclares, ?_,
    hm'.parentsExact.declared _ _ hdeclares⟩
  rw [hadded.follows.get_deletePolicy _ ("acme", "manager"), newest_cons,
    if_neg managerRole_ids.symm, newest_cons, if_pos rfl]
  exact if_pos (by decide)

end Manager

end AccessManagement
