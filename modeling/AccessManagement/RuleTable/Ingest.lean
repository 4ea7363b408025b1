/-
  AccessManagement.RuleTable.Ingest — WHAT ADDING A POLICY DOES TO EACH PART OF THE TABLE.

  All rows of a policy set have the same origin, kind, scope and scope permissions (its STAMP),
  and the maps beside the index are filled from the stamp.  So however many rows a policy set
  has, each map is updated as by one row, or not at all when there are no rows.

  The theorems say this for a call of `ingestPolicy` whatever its outcome: the maps are filled
  before the rows are indexed.
-/
import AccessManagement.Policy.Units
import AccessManagement.RuleTable.Load

namespace AccessManagement

open Lib List AList

variable {x : Externals} {ps : PolicySet} {row : RuleRow}

/-! ## §1. The stamp of a policy set. -/

namespace PolicySet

/-- The scope of the policy that the rows come from. -/
def scope : PolicySet → String
  | .resourcePolicy _ _ _ (p :: _) => p.scope
  | .principalPolicy _ _ _ (p :: _) => p.scope
  | .rolePolicy _ _ _ scope _ _ _ _ => scope
  | _ => ""

/-- The kind in the rows: those of role policies count as rows of resource policies. -/
def rowKind : PolicySet → Kind
  | .principalPolicy _ _ _ _ => .principal
  | _ => .resource

def isRolePolicy : PolicySet → Bool
  | .rolePolicy _ _ _ _ _ _ _ _ => true
  | _ => false

/-- The setting of the policy that the rows come from. -/
def scopePermissions : PolicySet → ScopePermissions
  | .resourcePolicy _ _ _ (p :: _) => p.scopePermissions
  | .principalPolicy _ _ _ (p :: _) => p.scopePermissions
  | _ => .unspecified

end PolicySet

/-- A row carries the stamp of a policy set. -/
structure RuleRow.Stamped (row : RuleRow) (ps : PolicySet) : Prop where
  originFqn : row.originFqn = ps.fqn
  policyKind : row.policyKind = ps.rowKind
  fromRolePolicy : row.fromRolePolicy = ps.isRolePolicy
  scope : row.scope = ps.scope
  scopePermissions : ps.isRolePolicy = false →
    row.scopePermissions.normalise = ps.scopePermissions.normalise

theorem RuleRow.Stamped.negateUnderConsent (h : row.Stamped ps)
    (sp : ScopePermissions) : (negateUnderConsent sp row).Stamped ps := by
  unfold AccessManagement.negateUnderConsent
  split
  · exact { h with }
  · exact h

theorem ScopePermissions.normalise_normalise (sp : ScopePermissions) :
    sp.normalise.normalise = sp.normalise := by
  cases sp <;> rfl

/-- **Every row carries the stamp of its policy set.** -/
theorem PolicySet.stamped_of_mem_rows (h : row ∈ ps.rows) : row.Stamped ps := by
  cases PolicySet.mem_rows_iff.mp h with
  | noRules | noResources =>
    exact ⟨rfl, rfl, rfl, rfl, fun _ => ScopePermissions.normalise_normalise _⟩
  | static | derived | principal =>
    exact RuleRow.Stamped.negateUnderConsent
      ⟨rfl, rfl, rfl, rfl, fun _ => ScopePermissions.normalise_normalise _⟩ _
  | role => exact ⟨rfl, rfl, rfl, rfl, fun h => Bool.noConfusion h⟩

/-! ## §2. One row. -/

namespace RuleTable

/-- A derived role of a policy, by name. -/
def derivedRole (x : Externals) (t : RuleTable) (fqn name : String) :
    Option WrappedRunnableDerivedRole :=
  ((t.policyDerivedRoles.lookup (x.hasher.str fqn)).getD ∅).lookup name

/-- The derived role of a name among those that a policy set brings along, as it is stored. -/
def broughtRole (x : Externals) (roles : List (String × RunnableDerivedRole)) (name : String) :
    Option WrappedRunnableDerivedRole :=
  (roles.reverse.find? (fun dr => dr.1 == name)).map
    (fun dr => { role := dr.2, varCacheKey := x.hasher.sum dr.2.tokens })

theorem mem_getDerivedRoles_iff {t : RuleTable} {fqn name : String}
    {w : WrappedRunnableDerivedRole} :
    (name, w) ∈ t.getDerivedRoles x fqn ↔ t.derivedRole x fqn name = some w := by
  unfold getDerivedRoles derivedRole
  cases t.policyDerivedRoles.lookup (x.hasher.str fqn) with
  | none =>
    constructor
    · intro h; exact (not_mem_nil h).elim
    · intro h; cases h
  | some m =>
    show (name, w) ∈ m.entries.map (fun s => (s.1, s.2)) ↔ m.lookup name = some w
    rw [← Option.mem_def, mem_lookup_iff, mem_map]
    constructor
    · rintro ⟨s, hs, heq⟩
      obtain ⟨rfl, rfl⟩ := Prod.mk.inj heq
      exact hs
    · exact fun h => ⟨_, h, rfl⟩

/-- Derived roles entered one by one: the last of a name stays. -/
theorem lookup_foldl_roles (name : String) (roles : List (String × RunnableDerivedRole))
    (m : AList (fun _ : String => WrappedRunnableDerivedRole)) :
    (roles.foldl (fun m dr => m.insert dr.1
      ({ role := dr.2, varCacheKey := x.hasher.sum dr.2.tokens } : WrappedRunnableDerivedRole))
      m).lookup name = (broughtRole x roles name).or (m.lookup name) := by
  induction roles generalizing m with
  | nil => rfl
  | cons dr roles ih =>
    rw [foldl_cons, ih, lookup_insert_ite]
    unfold broughtRole
    rw [reverse_cons, List.find?_append]
    cases roles.reverse.find? (fun dr => dr.1 == name) with
    | some => rfl
    | none =>
      by_cases hname : name = dr.1
      · simp [hname]
      · simp [hname, Ne.symm hname]

theorem derivedRole_noteRow (t : RuleTable) (row : RuleRow) (fqn name : String) :
    (t.noteRow x row).derivedRole x fqn name =
      if row.policyKind = .resource ∧ row.fromRolePolicy = false ∧
          x.hasher.str row.originFqn = x.hasher.str fqn then
        (broughtRole x ((t.protoDerivedRoles.lookup (x.hasher.str fqn)).getD []) name).or
          (t.derivedRole x fqn name) else t.derivedRole x fqn name := by
  unfold derivedRole
  rw [(noteRow_fields t row).2.2.2.2.2.2.2]
  unfold noteDerivedRoles
  by_cases hkind : row.policyKind = .resource ∧ row.fromRolePolicy = false
  · rw [if_pos hkind]
    by_cases hid : x.hasher.str row.originFqn = x.hasher.str fqn
    · rw [if_pos ⟨hkind.1, hkind.2, hid⟩, hid]
      cases t.protoDerivedRoles.lookup (x.hasher.str fqn) with
      | none => rfl
      | some =>
        rw [lookup_insert, Option.getD_some, lookup_foldl_roles]
        rfl
    · rw [if_neg (fun h => hid h.2.2)]
      cases t.protoDerivedRoles.lookup (x.hasher.str row.originFqn) with
      | none => rfl
      | some =>
        rw [lookup_insert_ne (Ne.symm hid)]
  · rw [if_neg hkind, if_neg (fun h => hkind ⟨h.1, h.2.1⟩)]

/-! ## §3. All rows of a policy set. -/

/-- Rows that all update a part of the table in one and the same way, or none of them does; the
update has no further effect when it is repeated. -/
theorem field_foldl_noteRow {α : Type} (field : RuleTable → α) (sort : Prop) [Decidable sort]
    (f : α → α) (hidem : ∀ a, f (f a) = f a) (rows : List RuleRow)
    (hrow : ∀ row ∈ rows, ∀ t, field (t.noteRow x row) = if sort then f (field t) else field t)
    (t : RuleTable) : field (rows.foldl (noteRow x) t) =
      if rows ≠ [] ∧ sort then f (field t) else field t := by
  induction rows generalizing t with
  | nil => simp
  | cons _ rows ih =>
    rw [forall_mem_cons] at hrow
    rw [foldl_cons, ih hrow.2, hrow.1]
    by_cases hsort : sort
    · by_cases hrows : rows = [] <;> simp [hsort, hidem]
    · simp [hsort]

end RuleTable

variable (tr : Tracker) (kind : Kind) (policyKey scope : String)

/-- The setting counts as the default applies to it. -/
theorem Tracker.add_normalise {sp sp' : ScopePermissions} (h : sp.normalise = sp'.normalise) :
    tr.add kind policyKey scope sp = tr.add kind policyKey scope sp' := by
  unfold Tracker.add
  rw [h]

/-- Adding a policy again changes nothing. -/
theorem Tracker.add_add (sp : ScopePermissions) :
    (tr.add kind policyKey scope sp).add kind policyKey scope sp =
      tr.add kind policyKey scope sp := by
  by_cases hkind : kind = .resource ∨ kind = .principal
  · have hset : (((tr.add kind policyKey scope sp).scopes.lookup scope).getD ∅).lookup policyKey =
        some sp.normalise := by
      unfold Tracker.add
      rw [if_pos hkind]
      split
      next h => exact h
      · dsimp only
        rw [lookup_insert, Option.getD_some, lookup_insert]
    generalize tr.add kind policyKey scope sp = tr' at hset ⊢
    unfold Tracker.add
    rw [if_pos hkind, if_pos hset]
  · unfold Tracker.add
    rw [if_neg hkind]

namespace RuleTable

/-- The table after a call of `ingestPolicy`, whatever its outcome. -/
structure Ingested (x : Externals) (t : RuleTable) (ps : PolicySet) (t' : RuleTable) : Prop where
  protoDerivedRoles : t'.protoDerivedRoles = (t.notePolicy x ps).protoDerivedRoles
  scopeParentRoles : t'.scopeParentRoles = (t.notePolicy x ps).scopeParentRoles
  principalScopeMap : t'.principalScopeMap =
    if ps.rows ≠ [] ∧ ps.rowKind = .principal then insert ps.scope t.principalScopeMap
    else t.principalScopeMap
  resourceScopeMap : t'.resourceScopeMap =
    if ps.rows ≠ [] ∧ ps.rowKind = .resource then insert ps.scope t.resourceScopeMap
    else t.resourceScopeMap
  scopePermsTracker : t'.scopePermsTracker =
    if ps.rows ≠ [] ∧ ps.isRolePolicy = false then
      t.scopePermsTracker.add ps.rowKind (Namer.policyKeyFromFqn ps.fqn) ps.scope ps.scopePermissions
    else t.scopePermsTracker
  scopeScopePermissions : t'.scopeScopePermissions =
    if ps.rows ≠ [] ∧ ps.isRolePolicy = false then
      t.scopeScopePermissions.insert ps.scope ps.scopePermissions.normalise
    else t.scopeScopePermissions
  derivedRole : ∀ fqn name, t'.derivedRole x fqn name =
    if ps.rows ≠ [] ∧ ps.rowKind = .resource ∧ ps.isRolePolicy = false ∧
        x.hasher.str ps.fqn = x.hasher.str fqn then
      (broughtRole x ((t'.protoDerivedRoles.lookup (x.hasher.str fqn)).getD []) name).or
        (t.derivedRole x fqn name)
    else t.derivedRole x fqn name

theorem Ingested.of_foldl (t : RuleTable) (ps : PolicySet) :
    Ingested x t ps (ps.rows.foldl (noteRow x) (t.notePolicy x ps)) := by
  obtain ⟨-, hprincipal, hresource, hparents, hperms, hroles⟩ := @notePolicy_fields x t ps
  have hstamp : ∀ row ∈ ps.rows, row.Stamped ps := fun row h => ps.stamped_of_mem_rows h
  have hproto := field_foldl_noteRow (x := x) RuleTable.protoDerivedRoles False id (fun _ => rfl)
    ps.rows (fun row _ t => (noteRow_fields t row).2.1) (t.notePolicy x ps)
  rw [id, ite_self] at hproto
  constructor
  case protoDerivedRoles => exact hproto
  case scopeParentRoles =>
    rw [field_foldl_noteRow RuleTable.scopeParentRoles False id (fun _ => rfl)
      _ (fun row _ t => (noteRow_fields t row).2.2.1), id, ite_self]
  case principalScopeMap =>
    rw [field_foldl_noteRow RuleTable.principalScopeMap (ps.rowKind = .principal)
      (insert ps.scope) (Finset.insert_idem _), hprincipal]
    intro row hrow t
    rw [(noteRow_fields t row).2.2.2.1, (hstamp row hrow).policyKind, (hstamp row hrow).scope]
  case resourceScopeMap =>
    rw [field_foldl_noteRow RuleTable.resourceScopeMap (ps.rowKind = .resource)
      (insert ps.scope) (Finset.insert_idem _), hresource]
    intro row hrow t
    rw [(noteRow_fields t row).2.2.2.2.1, (hstamp row hrow).policyKind, (hstamp row hrow).scope]
  case scopePermsTracker =>
    rw [field_foldl_noteRow RuleTable.scopePermsTracker (ps.isRolePolicy = false)
      (fun a => a.add ps.rowKind (Namer.policyKeyFromFqn ps.fqn) ps.scope ps.scopePermissions)
      (fun a => Tracker.add_add a _ _ _ _), hparents]
    intro row hrow t
    have h := hstamp row hrow
    rw [(noteRow_fields t row).2.2.2.2.2.1, h.fromRolePolicy, h.policyKind, h.originFqn, h.scope]
    cases hrole : ps.isRolePolicy with
    | true => rfl
    | false => exact Tracker.add_normalise _ _ _ _ (h.scopePermissions hrole)
  case scopeScopePermissions =>
    rw [field_foldl_noteRow RuleTable.scopeScopePermissions (ps.isRolePolicy = false)
      (fun a => a.insert ps.scope ps.scopePermissions.normalise) (fun a => insert_insert a), hperms]
    intro row hrow t
    have h := hstamp row hrow
    rw [(noteRow_fields t row).2.2.2.2.2.2.1, h.fromRolePolicy, h.scope]
    cases hrole : ps.isRolePolicy with
    | true => rfl
    | false =>
      rw [h.scopePermissions hrole]
      rfl
  case derivedRole =>
    intro fqn name
    have hsame : (t.notePolicy x ps).derivedRole x fqn name = t.derivedRole x fqn name := by
      unfold RuleTable.derivedRole
      rw [hroles]
    -- what is stored depends on the roles brought along, which stay the same
    have hpair := field_foldl_noteRow (x := x)
      (fun t : RuleTable => (t.protoDerivedRoles, t.derivedRole x fqn name))
      (ps.rowKind = .resource ∧ ps.isRolePolicy = false ∧ x.hasher.str ps.fqn = x.hasher.str fqn)
      (fun a => (a.1, (broughtRole x ((a.1.lookup (x.hasher.str fqn)).getD []) name).or a.2))
      (fun a => by rw [← Option.or_assoc, Option.or_self]) ps.rows ?_ (t.notePolicy x ps)
    · rw [hproto]
      refine (congrArg Prod.snd hpair).trans ?_
      rw [apply_ite Prod.snd, hsame]
    · intro row hrow t
      have h := hstamp row hrow
      rw [(noteRow_fields t row).2.1, derivedRole_noteRow, h.policyKind, h.fromRolePolicy, h.originFqn]
      split <;> rfl

/-- **Adding a policy, part by part.** -/
theorem Ingested.of_ingestPolicy {t t' : RuleTable} {ps : PolicySet}
    (h : t.ingestPolicy x ps = .ok t' ∨ t.ingestPolicy x ps = .error t') : Ingested x t ps t' := by
  have hfold := Ingested.of_foldl (x := x) t ps
  have hidx : ∀ ix, Ingested x t ps
      { ps.rows.foldl (noteRow x) (t.notePolicy x ps) with idx := ix } := fun _ => { hfold with }
  unfold ingestPolicy indexRules at h
  dsimp only at h
  split at h
  · rcases h with h | h
    · cases h
    · obtain rfl := Except.error.inj h
      exact hidx _
  · rcases h with h | h
    · obtain rfl := Except.ok.inj h
      exact hidx _
    · cases h

/-- The index after a policy was added: its rows are indexed, and the parent roles compiled. -/
theorem ingestPolicy_idx {t t' : RuleTable} {ps : PolicySet} (h : t.ingestPolicy x ps = .ok t') :
    ∃ ix, t.idx.indexRules x ps.rows = .ok ix ∧
      t'.idx = { ix with parentRoles := compileParentRoleAncestors t'.scopeParentRoles } := by
  obtain ⟨ix, hix, rfl⟩ := ingestPolicy_ok h
  exact ⟨ix, hix, rfl⟩

end RuleTable

end AccessManagement
