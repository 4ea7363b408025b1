/-
  AccessManagement.Manager.Scopes — THE SCOPE MAPS OF A MANAGED TABLE.

  `GetAllScopes` looks for the scopes of a request in one of two maps, one for principal
  policies and one for resource policies (which role policies count as).  Additions fill the map
  of their kind.  Deletions prune BOTH maps by the scopes that any policy is left in.  So a scope
  stays in the map of one kind when only policies of the other kind are left in it.

  Main results:
    * `scopes_exact_of_runs`      — the maps are exact as long as no deletion takes the last policy
      of a kind out of a scope with policies of the other kind; and such a deletion breaks them.
    * `principal_scope_remains`   — a principal policy that is gone and its scope that is not.
-/
import AccessManagement.Manager.Runs

namespace AccessManagement.Manager

open Lib List Externals

/-! ## §1. Scopes with rows. -/

/-- A loaded policy has a row of a kind in a scope. -/
def HasRowIn (loaded : Loaded) (kind : Kind) (scope : String) : Prop :=
  ∃ rps ∈ loaded, ∃ row ∈ rps.policySet.rows, row.policyKind = kind ∧ row.scope = scope

/-- **The scope maps are the scopes of the rows**, by kind. -/
structure ScopesExact (loaded : Loaded) (t : RuleTable) : Prop where
  principal : ∀ scope, scope ∈ t.principalScopeMap ↔ HasRowIn loaded .principal scope
  resource : ∀ scope, scope ∈ t.resourceScopeMap ↔ HasRowIn loaded .resource scope

variable {x : Externals} {loaded : Loaded} {m m' : Manager} {rps : RunnablePolicySet}

variable {kind : Kind} {scope : String} {t t' : RuleTable}

/-- The rows of a policy set have one kind and one scope. -/
theorem exists_row_iff {ps : PolicySet} :
    (∃ row ∈ ps.rows, row.policyKind = kind ∧ row.scope = scope) ↔
      ps.rows ≠ [] ∧ ps.rowKind = kind ∧ ps.scope = scope := by
  constructor
  · rintro ⟨row, hrow, hkind, hscope⟩
    have hstamp := PolicySet.stamped_of_mem_rows hrow
    exact ⟨ne_nil_of_mem hrow, hstamp.policyKind.symm.trans hkind, hstamp.scope.symm.trans hscope⟩
  · rintro ⟨hne, hkind, hscope⟩
    obtain ⟨row, hrow⟩ := exists_mem_of_ne_nil _ hne
    have hstamp := PolicySet.stamped_of_mem_rows hrow
    exact ⟨row, hrow, hstamp.policyKind.trans hkind, hstamp.scope.trans hscope⟩

theorem hasRowIn_cons : HasRowIn (rps :: loaded) kind scope ↔
      (rps.policySet.rows ≠ [] ∧ rps.policySet.rowKind = kind ∧ rps.policySet.scope = scope) ∨
        HasRowIn loaded kind scope := by
  unfold HasRowIn
  rw [exists_mem_cons_iff, exists_row_iff]

theorem ScopesExact.ingested (h : ScopesExact loaded t)
    (hingested : RuleTable.Ingested x t rps.policySet t') : ScopesExact (rps :: loaded) t' := by
  constructor
  · intro scope
    rw [hingested.principalScopeMap, hasRowIn_cons, ← h.principal]
    split
    · next hrow => rw [Finset.mem_insert]; tauto
    · next hrow => tauto
  · intro scope
    rw [hingested.resourceScopeMap, hasRowIn_cons, ← h.resource]
    split
    · next hrow => rw [Finset.mem_insert]; tauto
    · next hrow => tauto

/-- A live binding for every row of the history, and the other way round: so the keys of the
scope dimension are the scopes of the rows. -/
theorem mem_scopes_iff {rows : List RuleRow} {ix : Index} (h : Index.History x rows ix)
    (scope : String) : scope ∈ ix.scope.keys ↔ ∃ row ∈ rows, row.scope = scope := by
  obtain ⟨offered, hr⟩ := h.reachable
  rw [hr.inv.exact.noEmptyKeys.scope]
  have hval : (∃ i b, ix.getBinding i = some b ∧ b.scope = scope) ↔
      ∃ c ∈ ix.bindings.values.map Index.content, c.1.scope = scope := by
    constructor
    · rintro ⟨i, b, hb, hscope⟩
      obtain ⟨⟨b', k⟩, hget, rfl⟩ := Option.map_eq_some_iff.mp hb
      exact ⟨_, mem_map_of_mem ((Slab.mem_values_iff _ _).mpr ⟨i, hget⟩), hscope⟩
    · rintro ⟨c, hc, hscope⟩
      obtain ⟨⟨b, k⟩, hbk, rfl⟩ := mem_map.mp hc
      obtain ⟨i, hget⟩ := (Slab.mem_values_iff _ _).mp hbk
      exact ⟨i, b, by rw [Index.getBinding, hget]; rfl, hscope⟩
  rw [hval]
  constructor
  · rintro ⟨c, hc, hscope⟩
    obtain ⟨row, hrow, rfl⟩ := mem_map.mp (h.accounted.rows.mem_iff.mp hc)
    exact ⟨row, hrow, hscope⟩
  · rintro ⟨row, hrow, hscope⟩
    exact ⟨_, h.accounted.rows.mem_iff.mpr (mem_map_of_mem hrow), hscope⟩

/-- A row of any kind in a scope. -/
def InUse (loaded : Loaded) (scope : String) : Prop :=
  HasRowIn loaded .principal scope ∨ HasRowIn loaded .resource scope

theorem exists_loadedRow_iff :
    (∃ row ∈ loadedRows loaded, row.scope = scope) ↔ InUse loaded scope := by
  constructor
  · rintro ⟨row, hrow, hscope⟩
    obtain ⟨q, hq, hrow⟩ := mem_flatMap.mp hrow
    have hrow := mem_reverse.mp hrow
    have hkind := (PolicySet.stamped_of_mem_rows hrow).policyKind
    cases hps : q.policySet with
    | principalPolicy =>
      rw [hps] at hkind
      exact .inl ⟨q, hq, row, hrow, hkind, hscope⟩
    | resourcePolicy | rolePolicy =>
      rw [hps] at hkind
      exact .inr ⟨q, hq, row, hrow, hkind, hscope⟩
  · rintro (⟨q, hq, row, hrow, -, hscope⟩ | ⟨q, hq, row, hrow, -, hscope⟩)
    · exact ⟨row, mem_flatMap.mpr ⟨q, hq, mem_reverse.mpr hrow⟩, hscope⟩
    · exact ⟨row, mem_flatMap.mpr ⟨q, hq, mem_reverse.mpr hrow⟩, hscope⟩

/-! ## §2. Deletions. -/

/-- A deletion that takes the last row of a kind out of a scope leaves no row in the scope. -/
def LeavesOneKind (x : Externals) (loaded : Loaded) (modID : UInt64) : Prop :=
  ∀ kind scope, kind = .principal ∨ kind = .resource → HasRowIn loaded kind scope →
    InUse (without x modID loaded) scope → HasRowIn (without x modID loaded) kind scope

theorem hasRowIn_of_without {modID : UInt64}
    (h : HasRowIn (without x modID loaded) kind scope) : HasRowIn loaded kind scope := by
  obtain ⟨q, hq, hrow⟩ := h
  exact ⟨q, mem_of_mem_filter hq, hrow⟩

variable (h : Follows x loaded m) (hexact : ScopesExact loaded m.toRuleTable) (modID : UInt64)

include h hexact

/-- The two maps after a deletion: what was in them and is in use still. -/
theorem Follows.mem_scopeMaps_deletePolicy (scope : String) :
    (scope ∈ (m.deletePolicy modID).principalScopeMap ↔
        HasRowIn loaded .principal scope ∧ InUse (without x modID loaded) scope) ∧
      (scope ∈ (m.deletePolicy modID).resourceScopeMap ↔
        HasRowIn loaded .resource scope ∧ InUse (without x modID loaded) scope) := by
  obtain ⟨hsame, hloaded⟩ | ⟨q, -, -, hdel⟩ := MetadataOf.deletePolicy_cases h.metadata modID
  · rw [hsame, hloaded, hexact.principal, hexact.resource]
    exact ⟨⟨fun h => ⟨h, .inl h⟩, And.left⟩, ⟨fun h => ⟨h, .inr h⟩, And.left⟩⟩
  · -- the index without the policy has the rows that are left
    have hrows : ∀ scope, scope ∈ (m.idx.deletePolicy q.policySet.fqn).scope.keys ↔
        InUse (without x modID loaded) scope := by
      intro scope
      have hkeys := mem_scopes_iff (h.deleted modID).history scope
      rw [← exists_loadedRow_iff, ← hkeys, hdel]
      unfold doDeletePolicy
      split
      · exact Iff.rfl
      · exact Iff.rfl
    rw [hdel]
    unfold doDeletePolicy
    rw [Finset.mem_filter, Finset.mem_filter, hrows, hexact.principal, hexact.resource]
    exact ⟨Iff.rfl, Iff.rfl⟩

/-- **A deletion keeps the maps exact exactly when it leaves no scope to the other kind alone.** -/
theorem Follows.scopesExact_deletePolicy_iff :
    ScopesExact (without x modID loaded) (m.deletePolicy modID).toRuleTable ↔
      LeavesOneKind x loaded modID := by
  have hmaps := h.mem_scopeMaps_deletePolicy hexact modID
  constructor
  · rintro hexact' kind scope (rfl | rfl) hrow huse
    · exact (hexact'.principal scope).mp ((hmaps scope).1.mpr ⟨hrow, huse⟩)
    · exact (hexact'.resource scope).mp ((hmaps scope).2.mpr ⟨hrow, huse⟩)
  · intro hleaves
    constructor
    · intro scope
      rw [(hmaps scope).1]
      exact ⟨fun h => hleaves _ scope (.inl rfl) h.1 h.2, fun h => ⟨hasRowIn_of_without h, .inl h⟩⟩
    · intro scope
      rw [(hmaps scope).2]
      exact ⟨fun h => hleaves _ scope (.inr rfl) h.1 h.2, fun h => ⟨hasRowIn_of_without h, .inr h⟩⟩

/-! ## §3. Runs. -/

/-- The condition on the steps of a run. -/
def KeepsScopes (x : Externals) (loaded : Loaded) (_ : Manager) : Write → Prop
  | .add _ => True
  | .delete modID => LeavesOneKind x loaded modID

omit h hexact

theorem ScopesExact.new : ScopesExact [] RuleTable.new := by
  constructor
  · intro scope
    constructor
    · intro h; exact (Finset.notMem_empty scope h).elim
    · rintro ⟨rps, h, -⟩; exact (not_mem_nil h).elim
  · intro scope
    constructor
    · intro h; exact (Finset.notMem_empty scope h).elim
    · rintro ⟨rps, h, -⟩; exact (not_mem_nil h).elim

theorem Runs.scopesExact (h : Runs x (KeepsScopes x) loaded m) :
    ScopesExact loaded m.toRuleTable := by
  refine (h.rule (P := fun loaded m => ScopesExact loaded m.toRuleTable) .new ?_ ?_ ?_).2
  · intro loaded m rps m' hadd _ hexact
    exact hexact.ingested (addPolicy_spec (.inl hadd.ok)).1
  · intro loaded m modID hfollows hstep hexact
    exact (hfollows.scopesExact_deletePolicy_iff hexact modID).mpr hstep
  · intro loaded m hexact
    exact ⟨hexact.principal, hexact.resource⟩

/-- A table that is built from policies has exact scope maps. -/
theorem scopesExact_ingestPolicies (pss : List RunnablePolicySet) (loaded : Loaded)
    (t t' : RuleTable) (h : ScopesExact loaded t)
    (hok : t.ingestPolicies x (pss.map RunnablePolicySet.policySet) = .ok t') :
    ScopesExact (pss.reverse ++ loaded) t' := by
  induction pss generalizing loaded t t' with
  | nil =>
    obtain rfl := Except.ok.inj hok
    exact h
  | cons _ _ ih =>
    rw [map_cons] at hok
    unfold RuleTable.ingestPolicies at hok
    split at hok
    · cases hok
    next t₁ h₁ =>
        rw [reverse_cons, append_assoc]
        exact ih _ t₁ t' (h.ingested (.of_ingestPolicy (.inl h₁))) hok

/-- Exact scope maps of the same policies give the same answers. -/
theorem ScopesExact.getAllScopes_eq {loaded' : Loaded}
    (h : ScopesExact loaded t) (h' : ScopesExact loaded' t')
    (hsame : ∀ rps, rps ∈ loaded ↔ rps ∈ loaded') : t.getAllScopes = t'.getAllScopes := by
  have hrows : ∀ kind scope, HasRowIn loaded kind scope ↔ HasRowIn loaded' kind scope := by
    intro kind scope
    unfold HasRowIn
    simp only [hsame]
  have hprincipal : t.principalScopeMap = t'.principalScopeMap := by
    ext scope
    rw [h.principal, h'.principal, hrows]
  have hresource : t.resourceScopeMap = t'.resourceScopeMap := by
    ext scope
    rw [h.resource, h'.resource, hrows]
  unfold RuleTable.getAllScopes
  rw [hprincipal, hresource]

/-- **Scope maps of a managed table.**  In a run in which no deletion takes the last row of a kind
out of a scope with rows of the other kind, the maps are the scopes of the rows of the loaded
policies, and `GetAllScopes` answers as on a table built anew from them.  A deletion that does so
leaves a map that is not exact. -/
theorem scopes_exact_of_runs (h : Runs x (KeepsScopes x) loaded m) :
    ((∀ scope, scope ∈ m.principalScopeMap ↔ HasRowIn loaded .principal scope) ∧
      (∀ scope, scope ∈ m.resourceScopeMap ↔ HasRowIn loaded .resource scope)) ∧
    (∀ (pss : List RunnablePolicySet) (t : RuleTable), pss.Perm loaded →
      RuleTable.new.ingestPolicies x (pss.map RunnablePolicySet.policySet) = .ok t →
      m.toRuleTable.getAllScopes = t.getAllScopes) ∧
    (∀ modID, ScopesExact (without x modID loaded) (m.deletePolicy modID).toRuleTable ↔
      LeavesOneKind x loaded modID) := by
  have hexact := h.scopesExact
  refine ⟨⟨hexact.principal, hexact.resource⟩, ?_, h.follows.scopesExact_deletePolicy_iff hexact⟩
  intro pss t hperm hok
  have hbuilt := scopesExact_ingestPolicies pss [] RuleTable.new t .new hok
  refine hexact.getAllScopes_eq hbuilt ?_
  intro rps
  rw [append_nil, mem_reverse, hperm.mem_iff]

/-- One policy of each kind in a scope. -/
def tenantPolicies : Loaded := [plainResource "doc" "acme", plainPrincipal "acme"]

theorem tenant_ids : (plainPrincipal "acme").policySet.modID sample ≠
    (plainResource "doc" "acme").policySet.modID sample := by decide

theorem exists_tenant_build : ∃ m, Builds sample (KeepsScopes sample) tenantPolicies m := by
  obtain ⟨m₁, h₁⟩ := exists_add_plainPrincipal (x := sample) Manager.new "acme" .overrideParent
  obtain ⟨m₂, h₂⟩ := exists_add_plainResource (x := sample) m₁ "doc" "acme" .overrideParent
  have hfirst : Adds sample [] Manager.new (plainPrincipal "acme") m₁ :=
    ⟨plainPrincipal_wellFormed _ _, fun q hq => (not_mem_nil hq).elim, h₁⟩
  refine ⟨m₂, m₁, ⟨Manager.new, rfl, hfirst, trivial⟩,
    ⟨plainResource_wellFormed _ _ _, ?_, h₂⟩, trivial⟩
  intro q hq hmod
  rw [mem_singleton.mp hq] at hmod
  exact (tenant_ids hmod).elim

/-- Another tenant's policy. -/
abbrev otherTenant : RunnablePolicySet := plainResource "doc" "beta"

theorem scope_of_tenantPolicies (h : HasRowIn tenantPolicies kind scope) : scope = "acme" := by
  have hall : ∀ rps ∈ tenantPolicies, ∀ row ∈ rps.policySet.rows, row.scope = "acme" := by decide
  obtain ⟨rps, hrps, row, hrow, -, hscope⟩ := h
  rw [← hscope, hall rps hrps row hrow]

/-- A table is built from the policies of one tenant; the policy of another is added and deleted
again.  Its scope is in the map in between, and is gone in the end. -/
theorem tenant_scopes_exact :
    ∃ m₁ m₂, Runs Externals.sample (KeepsScopes Externals.sample) (otherTenant :: tenantPolicies) m₁ ∧
      Runs Externals.sample (KeepsScopes Externals.sample) tenantPolicies m₂ ∧
      "beta" ∈ m₁.resourceScopeMap ∧ "beta" ∉ m₂.resourceScopeMap ∧
      "acme" ∈ m₂.principalScopeMap ∧ "acme" ∈ m₂.resourceScopeMap := by
  obtain ⟨m, hm⟩ := exists_tenant_build
  obtain ⟨m₁, h₁⟩ := exists_add_plainResource (x := sample) m.finalizeBuild "doc" "beta"
    .overrideParent
  have hids : ∀ q ∈ tenantPolicies,
      q.policySet.modID sample ≠ otherTenant.policySet.modID sample := by decide
  have hrun₁ := (Runs.built hm).added otherTenant ⟨plainResource_wellFormed _ _ _,
    fun q hq hmod => (hids q hq hmod).elim, h₁⟩ trivial
  have hrun₂ := hrun₁.deleted (otherTenant.policySet.modID sample) (by
    -- nothing is left in the scope of the policy that is deleted
    intro kind scope _ hrow huse
    rcases hasRowIn_cons.mp hrow with ⟨-, -, rfl⟩ | hold
    · rcases huse with huse | huse <;> exact absurd (scope_of_tenantPolicies huse) (by decide)
    · exact hold)
  refine ⟨m₁, _, hrun₁, hrun₂, ?_, ?_, ?_, ?_⟩
  · exact ((scopes_exact_of_runs hrun₁).1.2 "beta").mpr ⟨_, mem_cons_self, _, mem_cons_self, rfl, rfl⟩
  · intro hmem
    exact absurd (scope_of_tenantPolicies (((scopes_exact_of_runs hrun₂).1.2 "beta").mp hmem))
      (by decide)
  · exact ((scopes_exact_of_runs hrun₂).1.1 "acme").mpr
      ⟨_, mem_cons_of_mem _ mem_cons_self, _, mem_cons_self, rfl, rfl⟩
  · exact ((scopes_exact_of_runs hrun₂).1.2 "acme").mpr ⟨_, mem_cons_self, _, mem_cons_self, rfl, rfl⟩

/-- The principal policy is deleted, and its scope stays in the map of principal policies because
a resource policy is left in it. -/
theorem principal_scope_remains :
    ∃ m, Runs Externals.sample (fun _ _ _ => True) [plainResource "doc" "acme"] m ∧
      "acme" ∈ m.principalScopeMap ∧ ¬ HasRowIn [plainResource "doc" "acme"] .principal "acme" := by
  obtain ⟨m, hm⟩ := exists_tenant_build
  have hrun := Runs.built hm
  have hfree : Runs sample (fun _ _ _ => True) tenantPolicies m.finalizeBuild :=
    hrun.mono (fun _ _ _ _ => trivial)
  refine ⟨_, hfree.deleted ((plainPrincipal "acme").policySet.modID sample) trivial, ?_, ?_⟩
  · rw [(hrun.follows.mem_scopeMaps_deletePolicy hrun.scopesExact _ _).1]
    exact ⟨⟨_, mem_cons_of_mem _ mem_cons_self, _, mem_cons_self, rfl, rfl⟩,
      .inr ⟨_, mem_cons_self, _, mem_cons_self, rfl, rfl⟩⟩
  · rintro ⟨rps, hrps, row, hrow, hkind, -⟩
    rw [mem_singleton.mp hrps] at hrow
    rw [mem_singleton.mp hrow] at hkind
    cases hkind

end AccessManagement.Manager
