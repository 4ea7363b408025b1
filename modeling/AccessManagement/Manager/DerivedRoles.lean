/-
  AccessManagement.Manager.DerivedRoles — THE DERIVED ROLES OF A MANAGED TABLE.

  Derived roles pass through two maps.  `AddPolicy` writes those of a policy to the transport map,
  but only if there are any; `indexRules` copies them from there to the runtime map, on top of
  what it holds.  A deletion clears the runtime map and NOT the transport map, which is cleared once,
  when the table has been built.  So a version without derived roles gets those of an earlier one
  that was added since; and a version that replaces a loaded one keeps the names that it dropped.

  Main results:
    * `roles_exact_of_runs`    — the runtime map is exact as long as no addition does either.
    * `Builds.keepsRoles`      — while a table is built, none does.
    * `dropped_role_returns`   — a derived role of a version that was deleted.
-/
import AccessManagement.Manager.Runs

namespace AccessManagement

open List Externals RuleTable

namespace PolicySet

/-- The derived roles of the policy that the rows come from. -/
def derivedRoles : PolicySet → List (String × RunnableDerivedRole)
  | .resourcePolicy _ _ _ (p :: _) => p.derivedRoles
  | _ => []

def isResourcePolicy : PolicySet → Bool
  | .resourcePolicy _ _ _ _ => true
  | _ => false

theorem rowKind_of_isResourcePolicy {ps : PolicySet} (h : ps.isResourcePolicy = true) :
    ps.rowKind = .resource ∧ ps.isRolePolicy = false := by
  cases ps with
  | resourcePolicy => exact ⟨rfl, rfl⟩
  | principalPolicy | rolePolicy => cases h

end PolicySet

namespace Manager

variable {x : Externals} {loaded : Loaded} {m m' : Manager} {rps : RunnablePolicySet}

/-! ## §1. Exactness. -/

/-- **The runtime map is exact**: for a resource policy that is loaded, it has the derived roles of
the version that was added last. -/
def RolesExact (x : Externals) (loaded : Loaded) (t : RuleTable) : Prop :=
  ∀ modID v, newest x modID loaded = some v → v.policySet.isResourcePolicy = true →
    ∀ name, t.derivedRole x v.policySet.fqn name =
      broughtRole x v.policySet.derivedRoles name

variable {t t' : RuleTable} {ps : PolicySet}

/-- Exactness in terms of what `GetDerivedRoles` returns. -/
theorem rolesExact_iff :
    RolesExact x loaded t ↔ ∀ v, newest x (v.policySet.modID x) loaded = some v →
      v.policySet.isResourcePolicy = true → ∀ name w,
        (name, w) ∈ t.getDerivedRoles x v.policySet.fqn ↔
          broughtRole x v.policySet.derivedRoles name = some w := by
  simp only [mem_getDerivedRoles_iff]
  constructor
  · intro h v hv hresource name w
    rw [h _ v hv hresource name]
  · intro h modID v hv hresource name
    rw [← (newest_mem hv).2] at hv
    exact Option.ext (h v hv hresource name)

/-- The version brings along all derived roles that the table has for the policy, and if it has
none itself the transport map has none for it either. -/
def ReplacesRoles (x : Externals) (t : RuleTable) (ps : PolicySet) : Prop :=
  (∀ name, t.derivedRole x ps.fqn name ≠ none → name ∈ ps.derivedRoles.map Prod.fst) ∧
    (ps.derivedRoles = [] → (t.protoDerivedRoles.lookup (ps.modID x)).getD [] = [])

theorem broughtRole_eq_none_iff {roles : List (String × RunnableDerivedRole)} {name : String} :
    broughtRole x roles name = none ↔ name ∉ roles.map Prod.fst := by
  unfold broughtRole
  rw [Option.map_eq_none_iff, List.find?_eq_none, mem_map]
  constructor
  · rintro hnone ⟨dr, hdr, hname⟩
    exact hnone dr (mem_reverse.mpr hdr) (beq_iff_eq.mpr hname)
  · intro hnot dr hdr hname
    exact hnot ⟨dr, mem_reverse.mp hdr, beq_iff_eq.mp hname⟩

variable (h : RuleTable.Ingested x t ps t') (hresource : ps.isResourcePolicy = true)

include h hresource

/-- The transport map after an addition. -/
theorem protoDerivedRoles_added : (t'.protoDerivedRoles.lookup (ps.modID x)).getD [] =
      if ps.derivedRoles = [] then (t.protoDerivedRoles.lookup (ps.modID x)).getD []
      else ps.derivedRoles := by
  rw [h.protoDerivedRoles]
  cases ps with
  | principalPolicy | rolePolicy => cases hresource
  | resourcePolicy fqn _ _ policies =>
    cases policies with
    | nil => rfl
    | cons p =>
      by_cases hroles : p.derivedRoles = []
      · simp [notePolicy, PolicySet.derivedRoles, hroles]
      · simp [notePolicy, PolicySet.derivedRoles, PolicySet.modID, PolicySet.fqn, hroles]

/-- The runtime map after an addition: what the transport map has by then goes on top. -/
theorem derivedRole_added (hrows : ps.rows ≠ []) (name : String) :
    t'.derivedRole x ps.fqn name = (broughtRole x (if ps.derivedRoles = [] then
        (t.protoDerivedRoles.lookup (ps.modID x)).getD [] else ps.derivedRoles) name).or
        (t.derivedRole x ps.fqn name) := by
  obtain ⟨hkind, hrole⟩ := PolicySet.rowKind_of_isResourcePolicy hresource
  rw [h.derivedRole, if_pos ⟨hrows, hkind, hrole, rfl⟩, ← protoDerivedRoles_added h hresource]
  rfl

/-- **The runtime map after an addition** is exact for the policy exactly when the version replaces
what was there. -/
theorem derivedRole_added_iff (hrows : ps.rows ≠ []) :
    (∀ name, t'.derivedRole x ps.fqn name = broughtRole x ps.derivedRoles name) ↔
      ReplacesRoles x t ps := by
  -- the old entry shows through exactly where the new version brings nothing
  have hthrough : ∀ {o o' : Option WrappedRunnableDerivedRole}, o.or o' = o ↔
      (o' ≠ none → o ≠ none) := by
    intro o o'
    cases o <;> simp
  simp only [derivedRole_added h hresource hrows]
  unfold ReplacesRoles
  by_cases hroles : ps.derivedRoles = []
  · rw [hroles]
    have hnothing : ∀ name, broughtRole x [] name = none := fun name => rfl
    simp only [hnothing, Option.or_eq_none_iff, map_nil, not_mem_nil, true_implies]
    constructor
    · intro hnone
      refine ⟨fun name hsome => hsome (hnone name).2, ?_⟩
      by_contra hproto
      obtain ⟨dr, hdr⟩ := exists_mem_of_ne_nil _ hproto
      exact (broughtRole_eq_none_iff.mp (hnone dr.1).1) (mem_map_of_mem hdr)
    · rintro ⟨hold, hproto⟩ name
      refine ⟨by rw [hproto]; rfl, ?_⟩
      by_contra hsome
      exact hold name hsome
  · simp only [if_neg hroles, hthrough, ne_eq, broughtRole_eq_none_iff, not_not]
    exact ⟨fun hsame => ⟨hsame, fun hnone => (hroles hnone).elim⟩, And.left⟩

/-! ## §2. Steps. -/

omit h hresource

/-- An addition leaves the derived roles of the other policies. -/
theorem derivedRole_added_ne {fqn name : String}
    (h : RuleTable.Ingested x t ps t') (hne : x.hasher.str ps.fqn ≠ x.hasher.str fqn) :
    t'.derivedRole x fqn name = t.derivedRole x fqn name := by
  rw [h.derivedRole, if_neg (fun hboth => hne hboth.2.2.2)]

theorem rolesExact_added_iff (h : RuleTable.Ingested x t rps.policySet t')
    (hexact : RolesExact x loaded t)
    (hrows : rps.policySet.isResourcePolicy = true → rps.policySet.rows ≠ []) :
    RolesExact x (rps :: loaded) t' ↔
      (rps.policySet.isResourcePolicy = true → ReplacesRoles x t rps.policySet) := by
  constructor
  · intro hexact' hresource
    refine (derivedRole_added_iff h hresource (hrows hresource)).mp ?_
    refine hexact' (rps.policySet.modID x) rps ?_ hresource
    rw [newest_cons, if_pos rfl]
  · intro hreplaces modID v hv hresource
    rw [newest_cons] at hv
    split at hv
    · obtain rfl := Option.some.inj hv
      exact (derivedRole_added_iff h hresource (hrows hresource)).mpr (hreplaces hresource)
    · next hne =>
        intro name
        rw [derivedRole_added_ne h (by rw [← (newest_mem hv).2] at hne; exact hne)]
        exact hexact modID v hv hresource name

/-- A deletion does not touch the transport map. -/
theorem protoDerivedRoles_deletePolicy (m : Manager) (modID : UInt64) :
    (m.deletePolicy modID).protoDerivedRoles = m.protoDerivedRoles := by
  unfold deletePolicy
  cases m.metadata.lookup modID with
  | none => rfl
  | some => rfl

theorem RolesExact.deleted (h : RolesExact x loaded m.toRuleTable) (modID : UInt64) :
    RolesExact x (without x modID loaded) (m.deletePolicy modID).toRuleTable := by
  intro modID' v hv hresource name
  rw [newest_without] at hv
  split at hv
  · cases hv
  · next hne =>
      rw [← h modID' v hv hresource name]
      unfold deletePolicy
      cases m.metadata.lookup modID with
      | none => rfl
      | some =>
        have hid : x.hasher.str v.policySet.fqn = modID' := (newest_mem hv).2
        unfold derivedRole doDeletePolicy
        rw [hid, AList.lookup_erase_ne hne]

/-! ## §3. Runs. -/

/-- The condition on the steps of a run.  A resource policy gives at least one row, as it does
when it was compiled. -/
def KeepsRoles (x : Externals) (_ : Loaded) (m : Manager) : Write → Prop
  | .add rps => rps.policySet.isResourcePolicy = true →
      rps.policySet.rows ≠ [] ∧ ReplacesRoles x m.toRuleTable rps.policySet
  | .delete _ => True

theorem Runs.rolesExact (h : Runs x (KeepsRoles x) loaded m) :
    RolesExact x loaded m.toRuleTable := by
  refine (h.rule (P := fun loaded m => RolesExact x loaded m.toRuleTable) ?_ ?_ ?_ ?_).2
  · intro modID v hv
    cases hv
  · intro loaded m rps m' hadd hstep hexact
    exact (rolesExact_added_iff (addPolicy_spec (.inl hadd.ok)).1 hexact
      (fun hresource => (hstep hresource).1)).mpr (fun hresource => (hstep hresource).2)
  · intro loaded m modID _ _ hexact
    exact hexact.deleted modID
  · intro loaded m hexact
    exact hexact

/-- While a table is built, each policy is added once. -/
def AddsOnce (x : Externals) (loaded : Loaded) (_ : Manager) : Write → Prop
  | .add rps => newest x (rps.policySet.modID x) loaded = none ∧
      (rps.policySet.isResourcePolicy = true → rps.policySet.rows ≠ [])
  | .delete _ => True

/-- An addition leaves the transport entries of the other modules. -/
theorem protoDerivedRoles_added_ne {modID : UInt64} (h : RuleTable.Ingested x t ps t')
    (hne : ps.modID x ≠ modID) :
    t'.protoDerivedRoles.lookup modID = t.protoDerivedRoles.lookup modID := by
  rw [h.protoDerivedRoles]
  unfold notePolicy
  split
  · split
    · rfl
    · exact AList.lookup_insert_ne (Ne.symm hne)
  · rfl
  · rfl

/-- A table under construction has no derived roles for a module that was not added yet. -/
theorem Builds.no_roles {step : Loaded → Manager → Write → Prop} (loaded : Loaded) (m : Manager)
    (h : Builds x step loaded m) (fqn : String) (hnone : newest x (x.hasher.str fqn) loaded = none) :
    (∀ name, m.derivedRole x fqn name = none) ∧
      m.protoDerivedRoles.lookup (x.hasher.str fqn) = none := by
  induction loaded generalizing m with
  | nil =>
    obtain rfl : m = Manager.new := h
    exact ⟨fun _ => rfl, rfl⟩
  | cons rps loaded ih =>
    obtain ⟨m₀, hrest, hadd, -⟩ := h
    rw [newest_cons] at hnone
    split at hnone
    · cases hnone
    · next hne =>
        have hingested := (addPolicy_spec (.inl hadd.ok)).1
        obtain ⟨hroles, hproto⟩ := ih m₀ hrest hnone
        exact ⟨fun name => (derivedRole_added_ne hingested hne).trans (hroles name),
          (protoDerivedRoles_added_ne hingested hne).trans hproto⟩

/-- **Every table that is built from policies of different modules is a start**: the condition on
the steps says nothing about its construction. -/
theorem Builds.keepsRoles (loaded : Loaded) (m : Manager) (h : Builds x (AddsOnce x) loaded m) :
    Builds x (KeepsRoles x) loaded m := by
  induction loaded generalizing m with
  | nil => exact h
  | cons rps loaded ih =>
    obtain ⟨m₀, hrest, hadd, hnone, hrows⟩ := h
    refine ⟨m₀, ih m₀ hrest, hadd, fun hresource => ⟨hrows hresource, ?_⟩⟩
    obtain ⟨hroles, hproto⟩ := hrest.no_roles loaded m₀ rps.policySet.fqn hnone
    refine ⟨fun name hsome => (hsome (hroles name)).elim, fun _ => ?_⟩
    show (m₀.protoDerivedRoles.lookup (x.hasher.str rps.policySet.fqn)).getD [] = []
    rw [hproto]
    rfl

/-- **Derived roles of a managed table.**  In a run in which every version that is added replaces
the derived roles that the table has for its policy, `GetDerivedRoles` returns those of the version
that was added last.  The next addition keeps it so exactly when it does that too. -/
theorem roles_exact_of_runs (h : Runs x (KeepsRoles x) loaded m) :
    (∀ v, newest x (v.policySet.modID x) loaded = some v →
      v.policySet.isResourcePolicy = true → ∀ name w,
        (name, w) ∈ m.getDerivedRoles x v.policySet.fqn ↔
          RuleTable.broughtRole x v.policySet.derivedRoles name = some w) ∧
    (∀ rps m', m.addPolicy x rps = .ok m' → rps.policySet.isResourcePolicy = true →
      rps.policySet.rows ≠ [] → ((∀ v, newest x (v.policySet.modID x) (rps :: loaded) = some v →
        v.policySet.isResourcePolicy = true → ∀ name w,
          (name, w) ∈ m'.getDerivedRoles x v.policySet.fqn ↔
            RuleTable.broughtRole x v.policySet.derivedRoles name = some w) ↔
        ReplacesRoles x m.toRuleTable rps.policySet)) := by
  have hexact := h.rolesExact
  refine ⟨rolesExact_iff.mp hexact, ?_⟩
  intro rps m' hok hresource hrows
  rw [← rolesExact_iff, rolesExact_added_iff (addPolicy_spec (.inl hok)).1 hexact (fun _ => hrows)]
  exact ⟨fun hreplaces => hreplaces hresource, fun hreplaces _ => hreplaces⟩

/-- A policy whose only rule is for the owners of a document. -/
def ownedDoc (parentRole : String) : RunnablePolicySet where
  policySet := .resourcePolicy (Namer.resourcePolicyFqn "doc" "default" "") "doc" "default"
    [{ scope := "", scopePermissions := .overrideParent, orderedVariables := [], constants := []
       derivedRoles := [("owner",
        { name := "owner", parentRoles := [parentRole], variableExprs := [], condition := none
          orderedVariables := [], constants := [], originFqn := "cerbos.derived_roles.staff" })]
       rules := [{ name := "view", actions := ["view"], roles := [], derivedRoles := ["owner"]
                   condition := none, effect := .allow, output := none, emitOutput := none }] }]

theorem exists_adds_ownedDoc (m : Manager) (parentRole : String) :
    ∃ m', Adds sample [] m (ownedDoc parentRole) m' := by
  obtain ⟨m', hm'⟩ := @exists_addPolicy sample m (ownedDoc parentRole)
    (forall_mem_singleton.mpr ⟨rfl, rfl⟩)
  exact ⟨m', ⟨_, _, rfl, rfl⟩, fun q hq => (not_mem_nil hq).elim, hm'⟩

theorem exists_adds_plainDoc (m : Manager) : ∃ m', Adds sample [] m (plainResource "doc" "") m' := by
  obtain ⟨m', hm'⟩ := exists_add_plainResource (x := sample) m "doc" "" .overrideParent
  exact ⟨m', plainResource_wellFormed _ _ _, fun q hq => (not_mem_nil hq).elim, hm'⟩

/-- After a deletion the runtime map has nothing for the module. -/
theorem derivedRole_deleted (h : Follows x loaded m) {q : RunnablePolicySet} (hq : q ∈ loaded)
    (name : String) :
    (m.deletePolicy (q.policySet.modID x)).derivedRole x q.policySet.fqn name = none := by
  obtain ⟨hsame, hloaded⟩ | ⟨p, -, -, hdel⟩ :=
    MetadataOf.deletePolicy_cases h.metadata (q.policySet.modID x)
  · -- the module is loaded, so the deletion does something
    rw [← hloaded] at hq
    exact (of_decide_eq_true (mem_filter.mp hq).2 rfl).elim
  · rw [hdel]
    show (((m.policyDerivedRoles.erase (x.hasher.str q.policySet.fqn)).lookup
      (x.hasher.str q.policySet.fqn)).getD ∅).lookup name = none
    rw [AList.lookup_erase]
    rfl

/-- A table is built with a policy that has a derived role.  An update takes the role away, and
another brings one back with another definition. -/
theorem updatedDoc_roles_exact :
    ∃ m₁ m₂, Runs Externals.sample (KeepsRoles Externals.sample) [plainResource "doc" ""] m₁ ∧
      Runs Externals.sample (KeepsRoles Externals.sample) [ownedDoc "employee"] m₂ ∧
      (∀ name w, (name, w) ∉
        m₁.getDerivedRoles Externals.sample (plainResource "doc" "").policySet.fqn) ∧
      ∃ w, w.role.parentRoles = ["employee"] ∧ ("owner", w) ∈
        m₂.getDerivedRoles Externals.sample (ownedDoc "employee").policySet.fqn := by
  obtain ⟨m, hm⟩ := exists_adds_ownedDoc Manager.new "user"
  have hbuilds : Builds sample (AddsOnce sample) [ownedDoc "user"] m :=
    ⟨Manager.new, rfl, hm, rfl, fun _ => cons_ne_nil _ _⟩
  have hbuilt : Runs sample (KeepsRoles sample) [ownedDoc "user"] m.finalizeBuild :=
    .built (hbuilds.keepsRoles _ _)
  have hdel := hbuilt.deleted ((ownedDoc "user").policySet.modID sample) trivial
  obtain ⟨m₁, h₁⟩ := exists_adds_plainDoc
    (m.finalizeBuild.deletePolicy ((ownedDoc "user").policySet.modID sample))
  have hrun₁ := hdel.added _ h₁ (fun _ => ⟨cons_ne_nil _ _,
    fun name hsome => (hsome (derivedRole_deleted hbuilt.follows mem_cons_self name)).elim, by
      -- the construction of the table has cleared the transport map
      intro _
      rw [protoDerivedRoles_deletePolicy]
      rfl⟩)
  have hdel₁ := hrun₁.deleted ((plainResource "doc" "").policySet.modID sample) trivial
  obtain ⟨m₂, h₂⟩ := exists_adds_ownedDoc
    (m₁.deletePolicy ((plainResource "doc" "").policySet.modID sample)) "employee"
  have hrun₂ := hdel₁.added _ h₂ (fun _ => ⟨cons_ne_nil _ _,
    fun name hsome => (hsome (derivedRole_deleted hrun₁.follows mem_cons_self name)).elim,
    fun hnone => (cons_ne_nil _ _ hnone).elim⟩)
  refine ⟨m₁, m₂, hrun₁, hrun₂, ?_, ?_⟩
  · intro name w hmem
    have hrole := ((roles_exact_of_runs hrun₁).1 (plainResource "doc" "")
      (by rw [newest_cons, if_pos rfl]) rfl name w).mp hmem
    cases hrole
  · exact ⟨_, rfl, ((roles_exact_of_runs hrun₂).1 (ownedDoc "employee")
      (by rw [newest_cons, if_pos rfl]) rfl "owner" _).mpr rfl⟩

/-- The policy is deleted and added again without derived roles, and the derived role of the
deleted version is back. -/
theorem dropped_role_returns :
    ∃ m, Runs Externals.sample (fun _ _ _ => True) [plainResource "doc" ""] m ∧
      (plainResource "doc" "").policySet.derivedRoles = [] ∧ ∃ w, ("owner", w) ∈
        m.getDerivedRoles Externals.sample (plainResource "doc" "").policySet.fqn := by
  obtain ⟨m₁, h₁⟩ := exists_adds_ownedDoc Manager.new "user"
  have hrun₁ := (@Runs.new sample (fun _ _ _ => True)).added _ h₁ trivial
  have hdel := hrun₁.deleted ((ownedDoc "user").policySet.modID sample) trivial
  obtain ⟨m₂, h₂⟩ := exists_adds_plainDoc
    (m₁.deletePolicy ((ownedDoc "user").policySet.modID sample))
  refine ⟨m₂, hdel.added _ h₂ trivial, rfl, ?_⟩
  -- the transport map has the roles of the version that was deleted
  have hsome : (ownedDoc "user").policySet.derivedRoles ≠ [] := cons_ne_nil _ _
  have hproto := protoDerivedRoles_added (addPolicy_spec (.inl h₁.ok)).1 rfl
  rw [if_neg hsome, ← protoDerivedRoles_deletePolicy m₁
    ((ownedDoc "user").policySet.modID sample)] at hproto
  have hnone : (plainResource "doc" "").policySet.derivedRoles = [] := rfl
  have hrole := derivedRole_added (addPolicy_spec (.inl h₂.ok)).1 rfl (cons_ne_nil _ _) "owner"
  rw [if_pos hnone, show (plainResource "doc" "").policySet.modID sample =
    (ownedDoc "user").policySet.modID sample from rfl, hproto] at hrole
  exact ⟨_, mem_getDerivedRoles_iff.mpr hrole⟩

end Manager

end AccessManagement
