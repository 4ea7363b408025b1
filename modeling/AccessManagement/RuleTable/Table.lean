/-
  AccessManagement.RuleTable.Table — THE RULE TABLE AND HOW IT IS BUILT
  (`indexRules`, `ingestPolicy`, `GetAllScopes`, package `scopeperms`).

  The table is the index plus what `check` and `plan` look up beside it: the scopes in which
  policies of a kind exist, the scope permissions, the derived roles of a policy.

  Building a table goes through every row, so what is true of every row is true of every
  binding.  `LoadedTable` carries the three facts that evaluation relies on:

    * the index is exact;
    * the scope of an ALLOW binding has recorded permissions;
    * a binding of a principal policy does not come from a role policy.

  Main result: `RuleTable.loaded` — every table built from policy sets is loaded, provided
  that the content hash separates the rows that were indexed.

  Left out because no modelled function reads it: metadata, schemas, program caches.
-/
import Mathlib.Data.Finset.Insert
import AccessManagement.Index.Query
import AccessManagement.Index.Invariant
import AccessManagement.RuleTable.Rows

namespace AccessManagement

open Lib List

/-! ## §1. Scope permissions of the policies in a scope. -/

/-- `scopeperms.Tracker`: by scope, the setting of each policy; and the scope of a policy. -/
structure Tracker where
  scopes : AList (fun _ : String => AList (fun _ : String => ScopePermissions))
  policies : AList (fun _ : String => String)

namespace Tracker

def new : Tracker := ⟨∅, ∅⟩

/-- `Remove`: a scope goes with its last policy. -/
def remove (t : Tracker) (policyKey : String) : Tracker :=
  match t.policies.lookup policyKey with
  | none => t
  | some scope =>
    let settings := ((t.scopes.lookup scope).getD ∅).erase policyKey
    { policies := t.policies.erase policyKey
      scopes :=
        if settings.entries.isEmpty then t.scopes.erase scope
        else t.scopes.insert scope settings }

/-- `Add`: adding a policy again replaces its setting. -/
def add (t : Tracker) (kind : Kind) (policyKey scope : String) (sp : ScopePermissions) :
    Tracker :=
  if kind = .resource ∨ kind = .principal then
    if ((t.scopes.lookup scope).getD ∅).lookup policyKey = some sp.normalise then t
    else
      let t' := t.remove policyKey
      { policies := t'.policies.insert policyKey scope
        scopes := t'.scopes.insert scope
          (((t'.scopes.lookup scope).getD ∅).insert policyKey sp.normalise) }
  else t

/-- `Conflicts`: the scopes whose policies disagree. -/
def conflicts (t : Tracker) : List String :=
  t.scopes.entries.filterMap (fun s =>
    match s.2.entries.map (·.2) with
    | [] => none
    | sp :: sps => if sps.all (· = sp) then none else some s.1)

end Tracker

/-! ## §2. The table. -/

/-- `WrappedRunnableDerivedRole`. -/
structure WrappedRunnableDerivedRole where
  role : RunnableDerivedRole
  varCacheKey : UInt64

/-- `RuleTable`.  `protoDerivedRoles` and `scopeParentRoles` are the fields of the transport
message that indexing reads; derived roles are keyed by module ID. -/
structure RuleTable where
  protoDerivedRoles : AList (fun _ : UInt64 => List (String × RunnableDerivedRole))
  scopeParentRoles : AList (fun _ : String => AList (fun _ : String => List String))
  idx : Index
  principalScopeMap : Finset String
  resourceScopeMap : Finset String
  scopePermsTracker : Tracker
  scopeScopePermissions : AList (fun _ : String => ScopePermissions)
  policyDerivedRoles :
    AList (fun _ : UInt64 => AList (fun _ : String => WrappedRunnableDerivedRole))

namespace RuleTable

def new : RuleTable where
  protoDerivedRoles := ∅
  scopeParentRoles := ∅
  idx := Index.new
  principalScopeMap := ∅
  resourceScopeMap := ∅
  scopePermsTracker := Tracker.new
  scopeScopePermissions := ∅
  policyDerivedRoles := ∅

/-- `GetScopeScopePermissions`. -/
def getScopeScopePermissions (t : RuleTable) (scope : String) : ScopePermissions :=
  (t.scopeScopePermissions.lookup scope).getD .unspecified

variable (x : Externals)

/-- `GetDerivedRoles`. -/
def getDerivedRoles (t : RuleTable) (fqn : String) : List (String × WrappedRunnableDerivedRole) :=
  match t.policyDerivedRoles.lookup (x.hasher.str fqn) with
  | none => []
  | some m => m.entries.map (fun s => (s.1, s.2))

/-- `GetAllScopes` (its list of scopes): the scope itself if a policy of the kind exists in
it, without which a strict search finds nothing, and then its parents that have one. -/
def getAllScopes (t : RuleTable) (kind : Kind) (scope : String) (lenient : Bool) : List String :=
  let scopeMap := match kind with
    | .principal => t.principalScopeMap
    | .resource => t.resourceScopeMap
    | _ => ∅
  let parents := (Namer.scopeParents scope).filter (fun s => s ∈ scopeMap)
  if scope ∈ scopeMap then scope :: parents
  else if lenient then parents else []

theorem mem_getAllScopes {t : RuleTable} {scope s : String} {lenient : Bool} :
    s ∈ t.getAllScopes .resource scope lenient ↔ s ∈ t.resourceScopeMap ∧
      (s = scope ∨ s ∈ Namer.scopeParents scope ∧ (scope ∈ t.resourceScopeMap ∨ lenient = true)) := by
  unfold getAllScopes
  split_ifs <;> simp <;> grind

/-- A chain of scopes has no repetitions. -/
theorem getAllScopes_nodup (t : RuleTable) (kind : Kind) (scope : String) (lenient : Bool) :
    (t.getAllScopes kind scope lenient).Nodup := by
  have hnodup := Namer.scope_cons_scopeParents_nodup scope
  rw [nodup_cons] at hnodup
  have hchain : ∀ scopeMap : Finset String, (if scope ∈ scopeMap then
        scope :: (Namer.scopeParents scope).filter (fun s => s ∈ scopeMap)
      else if lenient then (Namer.scopeParents scope).filter (fun s => s ∈ scopeMap)
      else []).Nodup := by
    intro scopeMap
    split
    · rw [nodup_cons]
      exact ⟨fun h => hnodup.1 (mem_of_mem_filter h), hnodup.2.filter _⟩
    · split
      · exact hnodup.2.filter _
      · exact nodup_nil
  exact hchain _

/-! ## §3. Parent roles. -/

/-- `collectParentRoles`: the ancestors of a role, and the roles visited on the way.  The
fuel bounds the depth; one more than the number of declared roles is enough, since the roles
on a path are distinct and all but the last are declared. -/
def collectParentRoles (parents : AList (fun _ : String => List String)) :
    Nat → String → List String × List String → List String × List String
  | 0, _, acc => acc
  | fuel + 1, role, (found, visited) =>
    if role ∈ visited then (found, visited)
    else ((parents.lookup role).getD []).foldl
      (fun acc pr => collectParentRoles parents fuel pr (acc.1.insert pr, acc.2))
      (found, role :: visited)

/-- `compileParentRoleAncestors`. -/
def compileParentRoleAncestors
    (spr : AList (fun _ : String => AList (fun _ : String => List String))) : ParentRoles :=
  spr.entries.foldl (fun compiled s =>
    compiled.insert s.1 (s.2.entries.foldl (fun byRole r =>
      byRole.insert r.1 (collectParentRoles s.2 (s.2.entries.length + 1) r.1 ([], [])).1) ∅)) ∅

/-! ## §4. Indexing. -/

/-- The derived roles that a row's policy brings along. -/
def noteDerivedRoles (t : RuleTable) (row : RuleRow) : RuleTable :=
  let modID := x.hasher.str row.originFqn
  if row.policyKind = .resource ∧ row.fromRolePolicy = false then
    match t.protoDerivedRoles.lookup modID with
    | none => t
    | some pdr =>
      { t with
        policyDerivedRoles := t.policyDerivedRoles.insert modID
          (pdr.foldl (fun m dr => m.insert dr.1
            { role := dr.2, varCacheKey := x.hasher.sum dr.2.tokens })
            ((t.policyDerivedRoles.lookup modID).getD ∅)) }
  else t

/-- The permissions of a row's scope; role policies have none. -/
def noteScopePermissions (t : RuleTable) (row : RuleRow) : RuleTable :=
  if row.fromRolePolicy then t
  else { t with
    scopePermsTracker := t.scopePermsTracker.add row.policyKind
      (Namer.policyKeyFromFqn row.originFqn) row.scope row.scopePermissions
    scopeScopePermissions :=
      t.scopeScopePermissions.insert row.scope row.scopePermissions.normalise }

/-- The scope of a row, by policy kind. -/
def noteScope (t : RuleTable) (row : RuleRow) : RuleTable :=
  match row.policyKind with
  | .principal => { t with principalScopeMap := insert row.scope t.principalScopeMap }
  | .resource => { t with resourceScopeMap := insert row.scope t.resourceScopeMap }
  | _ => t

/-- One round of the first loop of `indexRules`. -/
def noteRow (t : RuleTable) (row : RuleRow) : RuleTable :=
  ((t.noteDerivedRoles x row).noteScopePermissions row).noteScope row

/-- `indexRules`; an error carries the table as the failed call leaves it. -/
def indexRules (t : RuleTable) (rows : List RuleRow) : Except RuleTable RuleTable :=
  let t' := rows.foldl (noteRow x) t
  match t'.idx.indexRules x rows with
  | .error ix => .error { t' with idx := ix }
  | .ok ix => .ok { t' with
      idx := { ix with parentRoles := compileParentRoleAncestors t'.scopeParentRoles } }

/-- What `AddPolicy` enters in the transport message beside the rows. -/
def notePolicy (t : RuleTable) : PolicySet → RuleTable
  | .resourcePolicy fqn _ _ (p :: _) =>
    if p.derivedRoles.isEmpty then t
    else { t with
      protoDerivedRoles := t.protoDerivedRoles.insert (x.hasher.str fqn) p.derivedRoles }
  | .rolePolicy _ role _ scope parentRoles _ _ _ =>
    { t with
      scopeParentRoles := t.scopeParentRoles.insert scope
        (((t.scopeParentRoles.lookup scope).getD ∅).insert role parentRoles) }
  | _ => t

/-- `ingestPolicy`. -/
def ingestPolicy (t : RuleTable) (ps : PolicySet) : Except RuleTable RuleTable :=
  (t.notePolicy x ps).indexRules x ps.rows

/-- The ingest loop of `newRuleTableFromIterableLoader`. -/
def ingestPolicies (x : Externals) : RuleTable → List PolicySet → Except RuleTable RuleTable
  | t, [] => .ok t
  | t, ps :: rest =>
    match t.ingestPolicy x ps with
    | .error t' => .error t'
    | .ok t' => ingestPolicies x t' rest

/-- `finalizeBuild`: the derived roles of the transport message are not kept.  It also compacts
the index and releases checked expressions, which no evaluation reads. -/
def finalizeBuild (t : RuleTable) : RuleTable := { t with protoDerivedRoles := ∅ }

/-- `NewRuleTableFromLoader`: it also fails when the policies of a scope disagree on its
permissions. -/
def fromPolicies (pss : List PolicySet) : Option RuleTable :=
  match new.ingestPolicies x pss with
  | .error _ => none
  | .ok t => if t.scopePermsTracker.conflicts.isEmpty then some t.finalizeBuild else none

/-! ## §5. What a build keeps. -/

/-- What is known after the rows `rows` have been indexed. -/
structure Inv (rows : List RuleRow) (t : RuleTable) : Prop where
  reachable : Index.Reachable x rows t.idx
  rowsOk : ∀ row ∈ rows, row.Ok
  permissions : ∀ row ∈ rows, row.fromRolePolicy = false →
    t.getScopeScopePermissions row.scope ≠ .unspecified

section

variable {x} {rows : List RuleRow} {t t' : RuleTable} {ps : PolicySet}
  {pss : List PolicySet} {P : List RuleRow → RuleTable → Prop}

theorem noteDerivedRoles_eq (t : RuleTable) (row : RuleRow) : ∃ roles,
    t.noteDerivedRoles x row = { t with policyDerivedRoles := roles } := by
  unfold noteDerivedRoles
  dsimp only
  split
  · split <;> exact ⟨_, rfl⟩
  · exact ⟨_, rfl⟩

/-- The parts of the table that a row does not touch, or touches as its fields say. -/
theorem noteRow_fields (t : RuleTable) (row : RuleRow) : (t.noteRow x row).idx = t.idx ∧
      (t.noteRow x row).protoDerivedRoles = t.protoDerivedRoles ∧
      (t.noteRow x row).scopeParentRoles = t.scopeParentRoles ∧
      (t.noteRow x row).principalScopeMap =
        (if row.policyKind = .principal then insert row.scope t.principalScopeMap
        else t.principalScopeMap) ∧ (t.noteRow x row).resourceScopeMap =
        (if row.policyKind = .resource then insert row.scope t.resourceScopeMap
        else t.resourceScopeMap) ∧
      (t.noteRow x row).scopePermsTracker = (if row.fromRolePolicy then t.scopePermsTracker
        else t.scopePermsTracker.add row.policyKind (Namer.policyKeyFromFqn row.originFqn) row.scope
          row.scopePermissions) ∧
      (t.noteRow x row).scopeScopePermissions = (if row.fromRolePolicy then t.scopeScopePermissions
        else t.scopeScopePermissions.insert row.scope row.scopePermissions.normalise) ∧
      (t.noteRow x row).policyDerivedRoles = (t.noteDerivedRoles x row).policyDerivedRoles := by
  obtain ⟨roles, hroles⟩ := noteDerivedRoles_eq t row
  unfold noteRow noteScope noteScopePermissions
  rw [hroles]
  cases row.policyKind <;> cases row.fromRolePolicy <;>
    exact ⟨rfl, rfl, rfl, rfl, rfl, rfl, rfl, rfl⟩

theorem idx_foldl_noteRow (x : Externals) : (rows.foldl (noteRow x) t).idx = t.idx :=
  List.foldlRecOn (motive := fun t' : RuleTable => t'.idx = t.idx) _ _ rfl
    (fun t' h row _ => (noteRow_fields t' row).1.trans h)

/-- The permissions after a row: those of its scope are set, the others stay. -/
theorem getScopeScopePermissions_noteRow (x : Externals) (row : RuleRow)
    (scope : String) : (t.noteRow x row).getScopeScopePermissions scope =
      if row.fromRolePolicy = false ∧ scope = row.scope then row.scopePermissions.normalise
      else t.getScopeScopePermissions scope := by
  unfold getScopeScopePermissions
  rw [(noteRow_fields t row).2.2.2.2.2.2.1]
  grind

/-- A scope with recorded permissions keeps some, and every row records some for its scope. -/
theorem getScopeScopePermissions_foldl (x : Externals) (rows : List RuleRow) (t : RuleTable)
    (scope : String)
    (h : t.getScopeScopePermissions scope ≠ .unspecified ∨
      ∃ row ∈ rows, row.fromRolePolicy = false ∧ row.scope = scope) :
    (rows.foldl (noteRow x) t).getScopeScopePermissions scope ≠ .unspecified := by
  induction rows generalizing t scope with
  | nil => simpa using h
  | cons row _ ih =>
    refine ih _ scope ?_
    have hset := row.scopePermissions.normalise_ne_unspecified
    rw [getScopeScopePermissions_noteRow]
    grind

/-- What a policy set changes in the table before its rows are looked at. -/
theorem notePolicy_fields (t : RuleTable) (ps : PolicySet) : (t.notePolicy x ps).idx = t.idx ∧
      (t.notePolicy x ps).principalScopeMap = t.principalScopeMap ∧
      (t.notePolicy x ps).resourceScopeMap = t.resourceScopeMap ∧
      (t.notePolicy x ps).scopePermsTracker = t.scopePermsTracker ∧
      (t.notePolicy x ps).scopeScopePermissions = t.scopeScopePermissions ∧
      (t.notePolicy x ps).policyDerivedRoles = t.policyDerivedRoles := by
  unfold notePolicy
  split <;> (try split) <;> exact ⟨rfl, rfl, rfl, rfl, rfl, rfl⟩

/-- What a successful call of `ingestPolicy` does. -/
theorem ingestPolicy_ok (h : t.ingestPolicy x ps = .ok t') :
    ∃ ix, t.idx.indexRules x ps.rows = .ok ix ∧
      t' = { ps.rows.foldl (noteRow x) (t.notePolicy x ps) with
        idx := { ix with
          parentRoles := compileParentRoleAncestors
            (ps.rows.foldl (noteRow x) (t.notePolicy x ps)).scopeParentRoles } } := by
  unfold ingestPolicy indexRules at h
  dsimp only at h
  rw [idx_foldl_noteRow, (notePolicy_fields t ps).1] at h
  split at h
  · cases h
  · next ix hix => exact ⟨ix, hix, (Except.ok.inj h).symm⟩

/-- One policy keeps the invariant. -/
theorem Inv.ingestPolicy (h : Inv x rows t) (ps : PolicySet)
    (hok : t.ingestPolicy x ps = .ok t') : Inv x (ps.rows.reverse ++ rows) t' := by
  obtain ⟨ix, hix, rfl⟩ := ingestPolicy_ok hok
  have hreach := Index.indexRules_induction ps.rows rows t.idx ix
    (fun row _ _ _ _ hr hstep => Index.Reachable.indexRule row hr hstep) h.reachable hix
  refine ⟨hreach.indexParentRoles _, ?_, ?_⟩
  · intro row hrow
    rcases mem_append.mp hrow with hrow | hrow
    · exact ps.rows_ok row (mem_reverse.mp hrow)
    · exact h.rowsOk row hrow
  · intro row hrow hrole
    refine getScopeScopePermissions_foldl x ps.rows _ row.scope ?_
    rcases mem_append.mp hrow with hrow | hrow
    · exact .inr ⟨row, mem_reverse.mp hrow, hrole, rfl⟩
    · refine .inl ?_
      rw [getScopeScopePermissions, (notePolicy_fields t ps).2.2.2.2.1]
      exact h.permissions row hrow hrole

/-- The rows that a list of policy sets brings along. -/
def rowsOf (pss : List PolicySet) : List RuleRow := pss.flatMap PolicySet.rows

/-- What every policy keeps, a loop over policies keeps. -/
theorem ingestPolicies_rule (pss : List PolicySet) (rows : List RuleRow) (t t' : RuleTable)
    (hstep : ∀ ps ∈ pss, ∀ rows t t', P rows t → t.ingestPolicy x ps = .ok t' →
      P (ps.rows.reverse ++ rows) t')
    (h : P rows t) (hok : t.ingestPolicies x pss = .ok t') :
    P ((rowsOf pss).reverse ++ rows) t' := by
  induction pss generalizing rows t t' with
  | nil =>
    obtain rfl := Except.ok.inj hok
    exact h
  | cons ps _ ih =>
    unfold RuleTable.ingestPolicies at hok
    split at hok
    · cases hok
    · next t₁ h₁ =>
      have hrest := ih _ t₁ t' (fun p hp => hstep p (mem_cons_of_mem ps hp))
        (hstep ps mem_cons_self rows t t₁ h h₁) hok
      rw [← append_assoc, ← reverse_append] at hrest
      exact hrest

/-- **The rule for loads.** -/
theorem fromPolicies_rule (h : fromPolicies x pss = some t) (hnew : P [] new)
    (hstep : ∀ ps ∈ pss, ∀ rows t t', P rows t → t.ingestPolicy x ps = .ok t' →
      P (ps.rows.reverse ++ rows) t') (hfinal : ∀ rows t, P rows t → P rows t.finalizeBuild) :
    P (rowsOf pss).reverse t := by
  unfold fromPolicies at h
  split at h
  · cases h
  · next t₁ h₁ =>
    split at h
    · obtain rfl := Option.some.inj h
      have hP := ingestPolicies_rule pss [] new t₁ hstep hnew h₁
      rw [append_nil] at hP
      exact hfinal _ _ hP
    · cases h

theorem inv_new (x : Externals) : Inv x [] new :=
  ⟨Index.Reachable.new, fun _ h => (not_mem_nil h).elim, fun _ h => (not_mem_nil h).elim⟩

/-- **What a load leaves behind**: every binding comes from a row of the policies. -/
theorem inv_of_fromPolicies (h : fromPolicies x pss = some t) : Inv x (rowsOf pss).reverse t :=
  fromPolicies_rule h (inv_new x) (fun ps _ _ _ _ hinv hok => hinv.ingestPolicy ps hok)
    (fun _ _ hinv => ⟨hinv.reachable, hinv.rowsOk, hinv.permissions⟩)

end

end RuleTable

/-! ## §6. Loaded tables. -/

/-- The content hash separates the functional parts of the rows. -/
def SeparatesRows (x : Externals) (rows : List RuleRow) : Prop :=
  ∀ row ∈ rows, ∀ row' ∈ rows, row.funcSum x.hasher = row'.funcSum x.hasher →
    Token.encode x.hasher.wire row.functionalTokens =
      Token.encode x.hasher.wire row'.functionalTokens

/-- A rule table with what evaluation relies on. -/
structure LoadedTable (x : Externals) extends RuleTable where
  exact : Index.Exact x idx
  allowPermissions : ∀ i b, idx.getBinding i = some b → b.core.effect = .allow →
    toRuleTable.getScopeScopePermissions b.scope ≠ .unspecified
  principalNotRole : ∀ i b, idx.getBinding i = some b → b.core.policyKind = .principal →
    b.core.fromRolePolicy = false

/-- **Every table built from policies is a loaded table.** -/
def RuleTable.loaded {x : Externals} {rows : List RuleRow} (t : RuleTable)
    (h : t.Inv x rows) (hsep : SeparatesRows x rows) : LoadedTable x where
  toRuleTable := t
  exact := h.reachable.inv.exact
  allowPermissions := by
    intro i b hb heffect
    obtain ⟨⟨b', k⟩, hget, rfl⟩ := Option.map_eq_some_iff.mp hb
    obtain ⟨row, hrow, core, ⟨r, hr, hsum, p, drp, hcore, -⟩, rfl, -⟩ :=
      h.reachable.inv.provenance.bindings i b' k hget
    subst hcore
    have hgrant : r.effect = .allow := heffect
    -- the row that owns the core grants, so it is no role-policy row; nor is the sharing row
    have hrole : r.fromRolePolicy = false := by
      by_contra hne
      have hunset := ((h.rowsOk r hr).roleRow (by simpa using hne)).1
      exact Effect.noConfusion (hgrant.symm.trans hunset)
    have hsame := RuleRow.fromRolePolicy_eq_of_encode_eq (hsep r hr row hrow hsum)
    exact h.permissions row hrow (hsame.symm.trans hrole)
  principalNotRole := by
    intro i b hb hkind
    obtain ⟨⟨b', k⟩, hget, rfl⟩ := Option.map_eq_some_iff.mp hb
    obtain ⟨row, hrow, core, ⟨r, hr, hsum, p, drp, hcore, -⟩, rfl, -⟩ :=
      h.reachable.inv.provenance.bindings i b' k hget
    subst hcore
    have hprincipal : r.policyKind = .principal := hkind
    show r.fromRolePolicy = false
    by_contra hne
    have hresource := ((h.rowsOk r hr).roleRow (by simpa using hne)).2
    exact Kind.noConfusion (hprincipal.symm.trans hresource)

/-- The loaded table of some policies, when they can be loaded. -/
def LoadedTable.ofPolicies (x : Externals) (pss : List PolicySet)
    (hload : (RuleTable.fromPolicies x pss).isSome = true)
    (hsep : SeparatesRows x (RuleTable.rowsOf pss).reverse) : LoadedTable x :=
  ((RuleTable.fromPolicies x pss).get hload).loaded
    (RuleTable.inv_of_fromPolicies (Option.some_get hload).symm) hsep

theorem LoadedTable.fromPolicies_eq {x : Externals} {pss : List PolicySet}
    (hload : (RuleTable.fromPolicies x pss).isSome = true)
    (hsep : SeparatesRows x (RuleTable.rowsOf pss).reverse) :
    RuleTable.fromPolicies x pss = some (LoadedTable.ofPolicies x pss hload hsep).toRuleTable :=
  (Option.some_get hload).symm

instance (x : Externals) (rows : List RuleRow) : Decidable (SeparatesRows x rows) := by
  unfold SeparatesRows
  infer_instance

end AccessManagement
