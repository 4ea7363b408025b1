/-
  AccessManagement.RuleTable.Load — WHOLE LOADS.

  `inv_of_fromPolicies` says that a load adds nothing of its own.  This file has the other
  direction and the rule both are instances of:

    * `fromPolicies_induction` — what every step of a load keeps holds of the loaded table;
    * `hasRow_of_fromPolicies` — EVERY row of the policies ends up as a live binding;
    * `fromPolicies_idx_induction` — the same rule for the index alone;
    * `id_lt_of_fromPolicies` — no ID is larger than the number of rows.
-/
import AccessManagement.Lib.NestedMap
import AccessManagement.RuleTable.Table
import AccessManagement.Index.History

namespace AccessManagement

open Lib List

variable {x : Externals}

/-! ## §1. The rule for loads. -/

namespace RuleTable

variable {P : RuleTable → Prop}

/-- What every step of adding a policy keeps, `ingestPolicy` keeps. -/
theorem ingestPolicy_induction {ps : PolicySet} {t t' : RuleTable}
    (hpolicy : ∀ t, P t → P (t.notePolicy x ps))
    (hrow : ∀ row ∈ ps.rows, ∀ t, P t → P (t.noteRow x row))
    (hidx : ∀ (t : RuleTable) (ix : Index), P t → P { t with
      idx := { ix with parentRoles := compileParentRoleAncestors t.scopeParentRoles } })
    (h : P t) (hok : t.ingestPolicy x ps = .ok t') : P t' := by
  obtain ⟨ix, -, rfl⟩ := ingestPolicy_ok hok
  exact hidx _ ix (List.foldlRecOn _ _ (hpolicy t h) (fun t ht row hr => hrow row hr t ht))

/-- **The rule for loads.** -/
theorem fromPolicies_induction {pss : List PolicySet} {t : RuleTable}
    (h : fromPolicies x pss = some t) (hnew : P new)
    (hpolicy : ∀ ps ∈ pss, ∀ t, P t → P (t.notePolicy x ps))
    (hrow : ∀ row ∈ rowsOf pss, ∀ t, P t → P (t.noteRow x row))
    (hidx : ∀ (t : RuleTable) (ix : Index), P t → P { t with
      idx := { ix with parentRoles := compileParentRoleAncestors t.scopeParentRoles } })
    (hfinal : ∀ t, P t → P t.finalizeBuild) : P t :=
  fromPolicies_rule (P := fun _ t => P t) h hnew (fun ps hps _ _ _ hP hok =>
    ingestPolicy_induction (hpolicy ps hps)
      (fun row hr => hrow row (mem_flatMap.mpr ⟨ps, hps, hr⟩)) hidx hP hok) (fun _ => hfinal)

end RuleTable

/-! ## §2. Every row has a binding. -/

namespace Index

variable {rows : List RuleRow} {ix ix' : Index} {row : RuleRow}

/-- A row is indexed: there is a live binding with its routing half, and with a core of its
content hash. -/
def HasRow (x : Externals) (ix : Index) (row : RuleRow) : Prop :=
  ∃ i core, ix.getBinding i = some { handleOf row core with id := i } ∧
    core.sum = row.funcSum x.hasher

theorem CoreFrom.sum_eq {s : UInt64} {core : FunctionalCore}
    (h : CoreFrom x rows s core) : core.sum = s := by
  obtain ⟨row, -, hs, p, drp, rfl, -⟩ := h
  exact hs

/-- Indexing a row stores it and leaves every other binding alone. -/
theorem getBinding_indexRule (hr : Reachable x rows ix) (h : ix.indexRule x row = .ok ix') :
    ∃ core, core.sum = row.funcSum x.hasher ∧
      (∃ e, ix'.coresBySum.lookup core.sum = some e ∧ e.core = core) ∧ ∀ i, ix'.getBinding i =
        if i = ix.bindings.nextId then some { handleOf row core with id := ix.bindings.nextId }
        else ix.getBinding i := by
  have hcores := (hr.indexRule row h).inv.provenance.cores
  obtain ⟨core, e, ix₀, rfl, hsame, -, hinserted, rfl, -⟩ := indexRule_stored h
  have hl : (ix₀.addBinding x (handleOf row e.core) (makeEvaluationKeyTuple row)).coresBySum.lookup
      (row.funcSum x.hasher) = some e := by
    rw [addBinding, hinserted, AList.lookup_insert]
  have hsum := (hcores _ e hl).sum_eq
  exact ⟨e.core, hsum, ⟨e, hsum ▸ hl, rfl⟩, hsame.getBinding_addBinding hr.inv.exact.slots _ _⟩

/-- One more row keeps the rows there are and brings its own. -/
theorem hasRow_indexRule (hr : Reachable x rows ix) (h : ix.indexRule x row = .ok ix') :
    (∀ r, HasRow x ix r → HasRow x ix' r) ∧ HasRow x ix' row := by
  obtain ⟨core, hsum, -, hget⟩ := getBinding_indexRule hr h
  have hvacant := getBinding_nextId hr.inv.exact.slots
  refine ⟨fun r hrow => ?_, _, core, by rw [hget, if_pos rfl], hsum⟩
  obtain ⟨i, core', hi, hsum'⟩ := hrow
  refine ⟨i, core', ?_, hsum'⟩
  rw [hget, if_neg (fun he => by rw [he, hvacant] at hi; cases hi)]
  exact hi

end Index

namespace RuleTable

/-- A row is where `check` looks for it: in the index, and in the scope map of its kind. -/
structure HasRow (x : Externals) (t : RuleTable) (row : RuleRow) : Prop where
  idx : Index.HasRow x t.idx row
  scope : row.policyKind = .resource → row.scope ∈ t.resourceScopeMap

theorem resourceScopeMap_foldl (rows : List RuleRow) (t : RuleTable) :
    t.resourceScopeMap ⊆ (rows.foldl (noteRow x) t).resourceScopeMap ∧
      ∀ row ∈ rows, row.policyKind = .resource →
        row.scope ∈ (rows.foldl (noteRow x) t).resourceScopeMap := by
  induction rows generalizing t with
  | nil => simp
  | cons row =>
    have hrow := (noteRow_fields (x := x) t row).2.2.2.2.1
    grind

/-- **Every row of the policies is in the loaded table.** -/
theorem hasRow_of_fromPolicies {pss : List PolicySet} {t : RuleTable}
    (h : fromPolicies x pss = some t) : ∀ row ∈ rowsOf pss, HasRow x t row := by
  have hload := fromPolicies_rule (P := fun rows t => Inv x rows t ∧ ∀ row ∈ rows, HasRow x t row) h
    ⟨inv_new x, by simp⟩ (fun ps _ rows t t' hP hok => ?_)
    (fun rows t hP => ⟨⟨hP.1.reachable, hP.1.rowsOk, hP.1.permissions⟩,
      fun row hrow => ⟨(hP.2 row hrow).idx, (hP.2 row hrow).scope⟩⟩)
  · exact fun row hrow => hload.2 row (mem_reverse.mpr hrow)
  · refine ⟨hP.1.ingestPolicy ps hok, fun row hrow => ?_⟩
    obtain ⟨ix, hix, rfl⟩ := ingestPolicy_ok hok
    -- rows keep their bindings while further rows are indexed
    have hrows := Index.indexRules_induction (P := fun rows' ix => Index.Reachable x rows' ix ∧
        ∀ row ∈ rows', Index.HasRow x ix row) ps.rows rows t.idx ix
      (fun row _ rows' ix ix' hP' hstep => ⟨hP'.1.indexRule row hstep, fun r hr => by
        obtain ⟨hkeep, hnew⟩ := Index.hasRow_indexRule hP'.1 hstep
        rcases mem_cons.mp hr with rfl | hr
        · exact hnew
        · exact hkeep r (hP'.2 r hr)⟩)
      ⟨hP.1.reachable, fun r hr => (hP.2 r hr).idx⟩ hix
    obtain ⟨hsub, hscope⟩ := resourceScopeMap_foldl ps.rows _
    rw [(notePolicy_fields t ps).2.2.1] at hsub
    refine ⟨hrows.2 row hrow, fun hk => ?_⟩
    rcases mem_append.mp hrow with hr | hr
    · exact hscope row (mem_reverse.mp hr) hk
    · exact hsub ((hP.2 row hr).scope hk)

end RuleTable

/-! ## §3. The index of a load. -/

namespace RuleTable

/-- **The rule for the index of a load**: it is filled row by row. -/
theorem fromPolicies_idx_induction {P : List RuleRow → Index → Prop} {pss : List PolicySet}
    {t : RuleTable} (h : fromPolicies x pss = some t) (hnew : P [] Index.new)
    (hrule : ∀ rows ix row ix', P rows ix → Index.indexRule x ix row = .ok ix' →
      P (row :: rows) ix')
    (hparents : ∀ rows (ix : Index) pr, P rows ix → P rows { ix with parentRoles := pr }) :
    P (rowsOf pss).reverse t.idx := by
  refine fromPolicies_rule (P := fun rows t => P rows t.idx) h hnew (fun ps _ rows t t' hP hok => ?_)
    (fun _ _ hP => hP)
  obtain ⟨ix, hix, rfl⟩ := ingestPolicy_ok hok
  exact hparents _ ix _ (Index.indexRules_induction ps.rows rows t.idx ix
    (fun row _ rows ix ix' hP hstep => hrule rows ix row ix' hP hstep) hP hix)

end RuleTable

namespace Index

theorem length_slots_indexRule {ix ix' : Index} {row : RuleRow} (h : ix.indexRule x row = .ok ix') :
    ix'.bindings.slots.length ≤ ix.bindings.slots.length + 1 := by
  obtain ⟨core, e, ix₀, -, hsame, -, -, rfl, -⟩ := indexRule_stored h
  rw [← hsame.bindings]
  exact Slab.length_alloc_le _ _

end Index

namespace RuleTable

variable {pss : List PolicySet} {t : RuleTable}

/-- **The IDs of a load count its rows.** -/
theorem id_lt_of_fromPolicies (h : fromPolicies x pss = some t) {i : Nat} {b : BindingHandle}
    (hb : t.idx.getBinding i = some b) : i < (rowsOf pss).length := by
  have hlen := fromPolicies_idx_induction (P := fun rows ix =>
    ix.bindings.slots.length ≤ rows.length) h (Nat.le_refl _)
    (fun rows ix row ix' hP hstep => by
      have := Index.length_slots_indexRule hstep
      rw [length_cons]
      omega)
    (fun rows ix pr hP => hP)
  rw [length_reverse] at hlen
  obtain ⟨⟨b', k⟩, hget, -⟩ := Option.map_eq_some_iff.mp hb
  exact Nat.lt_of_lt_of_le (Slab.lt_of_get? hget) hlen

end RuleTable

/-! ## §4. Loads that cannot fail. -/

/-- A row without variables: there is nothing in it that could fail to compile. -/
def RuleRow.NoVariables (row : RuleRow) : Prop :=
  (row.params.map (·.orderedVariables)).getD [] = [] ∧
    (row.derivedRoleParams.map (·.orderedVariables)).getD [] = []

namespace Index

theorem getOrGenerateParams_isSome (cache : ParamsCache) {p : Option Params}
    (h : (p.map (·.orderedVariables)).getD [] = []) :
    ∃ r, getOrGenerateParams x cache p = some r := by
  unfold getOrGenerateParams
  dsimp only
  split
  · exact ⟨_, rfl⟩
  · rw [h]
    exact ⟨_, rfl⟩

theorem indexRule_ok (ix : Index) {row : RuleRow} (h : row.NoVariables) :
    ∃ ix', ix.indexRule x row = .ok ix' := by
  have hparams : ∃ r, rowParams x ix.paramsCache ix.drParamsCache row = .ok r := by
    obtain ⟨r, hr⟩ := getOrGenerateParams_isSome ix.paramsCache h.1
    obtain ⟨r', hr'⟩ := getOrGenerateParams_isSome ix.drParamsCache h.2
    unfold rowParams
    rw [hr]
    split
    · dsimp only
      split
      · exact ⟨_, rfl⟩
      · rw [hr']
        exact ⟨_, rfl⟩
    · exact ⟨_, rfl⟩
    · exact ⟨_, rfl⟩
  obtain ⟨r, hr⟩ := hparams
  unfold indexRule
  rw [hr]
  exact ⟨_, rfl⟩

theorem indexRules_ok (rows : List RuleRow) (ix : Index) (h : (∀ row ∈ rows, row.NoVariables)) :
    ∃ ix', ix.indexRules x rows = .ok ix' := by
  induction rows generalizing ix with
  | nil => exact ⟨ix, rfl⟩
  | cons row _ ih =>
    obtain ⟨ix₁, h₁⟩ := indexRule_ok ix (h row mem_cons_self)
    obtain ⟨ix₂, h₂⟩ := ih ix₁ (fun r hr => h r (mem_cons_of_mem row hr))
    refine ⟨ix₂, ?_⟩
    unfold indexRules
    rw [h₁]
    exact h₂

end Index

namespace Tracker

/-- The setting of a policy in a scope. -/
def setting (t : Tracker) (scope policyKey : String) : Option ScopePermissions :=
  NestedMap.get t.scopes scope policyKey

theorem setting_eq_some_iff {t : Tracker} {scope policyKey : String} {sp : ScopePermissions} :
    t.setting scope policyKey = some sp ↔
      ∃ settings, ⟨scope, settings⟩ ∈ t.scopes.entries ∧ ⟨policyKey, sp⟩ ∈ settings.entries := by
  simp only [← AList.mem_lookup_iff]
  show ((t.scopes.lookup scope).getD ∅).lookup policyKey = some sp ↔ _
  cases t.scopes.lookup scope <;> simp

/-- **No conflicts**: the settings of a scope are the same. -/
theorem conflicts_eq_nil_iff {t : Tracker} : t.conflicts = [] ↔
    ∀ scope policyKey policyKey' sp sp', t.setting scope policyKey = some sp →
      t.setting scope policyKey' = some sp' → sp = sp' := by
  unfold conflicts
  rw [filterMap_eq_nil_iff]
  constructor
  · intro h scope policyKey policyKey' sp sp' hset hset'
    obtain ⟨settings, hmem, hkey⟩ := setting_eq_some_iff.mp hset
    obtain ⟨settings', hmem', hkey'⟩ := setting_eq_some_iff.mp hset'
    obtain rfl : settings = settings' := Option.some.inj
      ((AList.mem_lookup_iff.mpr hmem).symm.trans (AList.mem_lookup_iff.mpr hmem'))
    have hnone := h _ hmem
    have hsp : sp ∈ settings.entries.map (·.2) := mem_map_of_mem hkey
    have hsp' : sp' ∈ settings.entries.map (·.2) := mem_map_of_mem hkey'
    split at hnone
    · next hnil => rw [hnil] at hsp; cases hsp
    · next hcons => grind
  · intro h s hs
    have hsame : ∀ sp ∈ s.2.entries.map (·.2), ∀ sp' ∈ s.2.entries.map (·.2), sp = sp' := by
      simp only [mem_map]
      rintro _ ⟨e, he, rfl⟩ _ ⟨e', he', rfl⟩
      exact h s.1 e.1 e'.1 e.2 e'.2 (setting_eq_some_iff.mpr ⟨s.2, hs, he⟩)
        (setting_eq_some_iff.mpr ⟨s.2, hs, he'⟩)
    split
    · rfl
    · next first rest hcons =>
      rw [hcons] at hsame
      have hfirst := fun sp hsp => hsame sp (mem_cons_of_mem first hsp) first mem_cons_self
      rw [if_pos (by simpa using hfirst)]

end Tracker

end AccessManagement
