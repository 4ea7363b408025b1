/-
  AccessManagement.Check.Flat — WHAT CHECK DECIDES ON FLAT POLICIES.

  On a table of flat policies the whole machinery of scopes, caches, shared cores and derived
  roles comes down to one sentence about the rules as they stand in the policies:

      an action is allowed iff the request gets to the policies at all and the principal has
      a role for which SOME ALLOW rule fires and NO DENY rule fires.

  The DENY that one role meets says nothing about the other roles.

  Main result: `checkedEffect_flat`.
-/
import AccessManagement.Check.Oracle
import AccessManagement.RuleTable.Flat

namespace AccessManagement

open Lib List Namer FlatPolicy Index

variable {truth : Expr → Bool}

/-! ## §1. Conjunctions. -/

/-- A conjunction is satisfied iff all its leaves are. -/
theorem EvalContext.satisfies_conjunction {V : Type} {cel : CelRuntime V} {ec : EvalContext}
    {constants : List (String × Value)} {vars : Vars V} {c : Condition}
    (hc : c.isConjunction = true)
    (h : ∀ e ∈ c.leaves, ec.evaluateBoolCELExpr cel e constants vars = .ok (truth e)) :
    ec.satisfies cel constants vars c = .ok (c.leaves.all truth) := by
  rw [satisfies_eq_holds c h, c.holds_conjunction hc]

/-! ## §2. Rules that fire. -/

namespace FlatPolicy

/-- Does a policy apply to a resource kind, as written or sanitised? -/
def covers (p : FlatPolicy) (kind : String) : Bool :=
  p.rowResource == kind || p.rowResource == sanitizedResource kind

section Fires

variable (x : Externals) (truth : Expr → Bool) (p : FlatPolicy) (rule : ResourceRule)

def condHolds (cond : Option Condition) : Bool := (optLeaves cond).all truth

/-- Is the rule about the action?  The empty action is not restricted. -/
def forAction (action : String) : Bool :=
  rule.actions.any (fun a => action == "" || keyMatches x a action)

/-- Is the rule about the role: directly, or through a derived role that holds? -/
def forRole (role : String) : Bool :=
  rule.roles.any (fun r => keyMatches x r role) || rule.derivedRoles.any (fun dr =>
      match p.derivedRoles.lookup dr with
      | none => false
      | some rdr =>
        rdr.parentRoles.any (fun r => keyMatches x r role) && condHolds truth rdr.condition)

/-- **A rule fires** for an action and a role. -/
def fires (action role : String) : Bool :=
  forAction x rule action && forRole x truth p rule role && condHolds truth rule.condition

end Fires

section Decide

variable (x : Externals) (truth : Expr → Bool) (ps : List FlatPolicy) (kind action role : String)

/-- Does a rule with the effect fire? -/
def someFires (e : Effect) : Bool :=
  ps.any (fun p => p.covers kind &&
    p.rules.any (fun rule => decide (rule.effect = e) && p.fires x truth rule action role))

/-- Is the action allowed for the role? -/
def permits : Bool := someFires x truth ps kind action role .allow &&
  !someFires x truth ps kind action role .deny

end Decide

end FlatPolicy

/-! ## §3. Rows that a query selects. -/

/-- The rows that a query for the resource policies of a kind selects. -/
structure RuleRow.SelectedBy (x : Externals) (kind action role : String) (row : RuleRow) : Prop where
  resource : row.resource = kind ∨ row.resource = Namer.sanitizedResource kind
  role : Index.keyMatches x row.role role = true
  action : ∃ a, row.actionSet = some (.action a) ∧
    (action = "" ∨ Index.keyMatches x a action = true)

variable {checked : String → List UInt8} {rule : ResourceRule} {p : FlatPolicy} {x : Externals}
  {row : RuleRow} {ps : List FlatPolicy}

/-- For a literal resource, being indexed under a kind is being the kind, in either form. -/
theorem resourceMatches_iff {b : BindingHandle} {kind : String}
    (hne : b.resource ≠ "") (hlit : isGlob b.resource = false) :
    resourceMatches x b (ResourceKind.new kind) .resource = true ↔
      b.resource = kind ∨ b.resource = sanitizedResource kind := by
  unfold resourceMatches ResourceKind.new
  by_cases hs : sanitizedResource kind = kind
  · simp [hs, keyMatches, hlit, hne]
  · by_cases he : sanitizedResource kind = ""
    · simp [he, keyMatches, hlit, hne]
    · simp [hs, he, hlit, hne]

theorem FlatPolicy.Yields.resource (h : p.Yields rule row) : row.resource = p.rowResource := by
  cases h <;> rfl

/-- **A rule fires iff it yields a row that is for the action and the role and holds.** -/
theorem FlatPolicy.fires_iff {action role : String} :
    p.fires x truth rule action role = true ↔ ∃ row, p.Yields rule row ∧
      keyMatches x row.role role = true ∧ (∃ a, row.actionSet = some (.action a) ∧
        (action = "" ∨ keyMatches x a action = true)) ∧ row.leaves.all truth = true := by
  unfold fires forAction forRole condHolds
  simp only [Bool.and_eq_true, Bool.or_eq_true, any_eq_true, beq_iff_eq]
  constructor
  · rintro ⟨⟨⟨a, ha, haction⟩, ⟨r, hr, hmatch⟩ | ⟨dr, hdr, hmatch⟩⟩, hcond⟩
    · refine ⟨p.ruleRow rule a r, .role ha hr, hmatch, ⟨a, rfl, haction⟩, ?_⟩
      show (optLeaves rule.condition ++ []).all truth = true
      rw [append_nil]
      exact hcond
    · split at hmatch
      · cases hmatch
      next rdr hl =>
        rw [Bool.and_eq_true, any_eq_true] at hmatch
        obtain ⟨⟨r, hr, hmatch⟩, hdcond⟩ := hmatch
        refine ⟨p.derivedRow rule a rdr dr r, .derived ha hdr hl hr, hmatch, ⟨a, rfl, haction⟩, ?_⟩
        show (optLeaves rule.condition ++ optLeaves rdr.condition).all truth = true
        rw [all_append, hcond]
        exact hdcond
  · rintro ⟨row, hyields, hrole, ⟨a, heq, haction⟩, hall⟩
    cases hyields with
    | role ha hr =>
      cases heq
      have hcond : (optLeaves rule.condition ++ []).all truth = true := hall
      rw [append_nil] at hcond
      exact ⟨⟨⟨_, ha, haction⟩, .inl ⟨_, hr, hrole⟩⟩, hcond⟩
    | derived ha hdr hl hr =>
      cases heq
      obtain ⟨hcond, hdcond⟩ := Bool.and_eq_true_iff.mp (all_append.symm.trans hall)
      refine ⟨⟨⟨_, ha, haction⟩, .inr ⟨_, hdr, ?_⟩⟩, hcond⟩
      rw [hl]
      exact Bool.and_eq_true_iff.mpr ⟨any_eq_true.mpr ⟨_, hr, hrole⟩, hdcond⟩

/-- **A rule with an effect fires iff it has a selected row that holds.** -/
theorem FlatPolicy.someFires_iff (hps : ∀ p ∈ ps, p.Ok checked) (kind action role : String)
    (e : Effect) : someFires x truth ps kind action role e = true ↔
      ∃ row ∈ rowsOf ps, row.SelectedBy x kind action role ∧ row.effect = e ∧
        row.leaves.all truth = true := by
  have heffect : ∀ {p : FlatPolicy} {rule row}, p.Yields rule row → row.effect = rule.effect := by
    intro p rule row h
    cases h <;> rfl
  unfold someFires covers
  simp only [any_eq_true, Bool.and_eq_true, Bool.or_eq_true, beq_iff_eq, decide_eq_true_eq,
    fires_iff]
  constructor
  · rintro ⟨p, hp, hcovers, rule, hrule, rfl, row, hyields, hrole, haction, hall⟩
    refine ⟨row, (mem_rowsOf_iff hps _).mpr ⟨p, hp, rule, hrule, hyields⟩,
      ⟨?_, hrole, haction⟩, heffect hyields, hall⟩
    rw [hyields.resource]
    exact hcovers
  · rintro ⟨row, hrow, ⟨hresource, hrole, haction⟩, rfl, hall⟩
    obtain ⟨p, hp, rule, hrule, hyields⟩ := (mem_rowsOf_iff hps row).mp hrow
    rw [hyields.resource] at hresource
    exact ⟨p, hp, hresource, rule, hrule, (heffect hyields).symm, row, hyields, hrole, haction, hall⟩

/-! ## §4. Evaluation keys. -/

/-- Every flat row has a key that is not the zero key. -/
theorem FlatPolicy.Yields.key_ne (h : p.Yields rule row) : makeEvaluationKeyTuple row ≠ {} := by
  intro hkey
  have hpre := congrArg EvaluationKeyTuple.keyPrefix hkey
  cases h with
  | role => exact absurd hpre (show resourcePoliciesPrefix ≠ "" by decide)
  | derived => exact absurd hpre (show derivedRolesPrefix ≠ "" by decide)

/-- **Rows of flat policies with the same evaluation key have the same leaves.** -/
theorem FlatPolicy.leaves_eq_of_key_eq (hps : ∀ p ∈ ps, p.Ok checked)
    (hresources : (ps.map rowResource).Nodup) {row row' : RuleRow}
    (hrow : row ∈ rowsOf ps) (hrow' : row' ∈ rowsOf ps)
    (hkey : makeEvaluationKeyTuple row = makeEvaluationKeyTuple row') :
    row.leaves = row'.leaves := by
  obtain ⟨p, hp, rule, hrule, hyields⟩ := (mem_rowsOf_iff hps row).mp hrow
  obtain ⟨p', hp', rule', hrule', hyields'⟩ := (mem_rowsOf_iff hps row').mp hrow'
  have hresource := congrArg EvaluationKeyTuple.resource hkey
  have hname := congrArg EvaluationKeyTuple.ruleName hkey
  have hpre := congrArg EvaluationKeyTuple.keyPrefix hkey
  have hdr := congrArg EvaluationKeyTuple.derivedRole hkey
  -- the key names the policy, and within the policy the rule
  have hsame : p.rowResource = p'.rowResource → rule.name = rule'.name → p = p' ∧ rule = rule' := by
    intro hr hn
    obtain rfl := inj_on_of_nodup_map hresources hp hp' hr
    exact ⟨rfl, inj_on_of_nodup_map (hps p hp).names hrule hrule' hn⟩
  have hkinds : resourcePoliciesPrefix ≠ derivedRolesPrefix := by decide
  cases hyields with
  | role =>
    cases hyields' with
    | role =>
      obtain ⟨rfl, rfl⟩ := hsame hresource hname
      rfl
    | derived => exact absurd hpre hkinds
  | @derived _ dr _ _ _ _ hl _ =>
    cases hyields' with
    | role => exact absurd hpre hkinds.symm
    | @derived _ dr' _ _ _ _ hl' _ =>
      obtain ⟨rfl, rfl⟩ := hsame hresource hname
      have hdr' : dr = dr' := hdr
      rw [← hdr', hl] at hl'
      obtain rfl := Option.some.inj hl'
      rfl

/-! ## §5. The check. -/

namespace CheckEnv

variable {V : Type} {env : CheckEnv V} {ps : List FlatPolicy} {input : CheckInput}

/-- Does the request get to the policies: does it concern the default version and, unless
scopes are searched leniently, the root scope? -/
def reachesRoot (env : CheckEnv V) (input : CheckInput) : Bool :=
  env.resourceVersion input == defaultVersion &&
    (env.resourceScope input == "" || env.evalParams.lenientScopeSearch)

/-- A request to a table of flat policies, each leaf of which has a truth value. -/
structure FlatRequest (env : CheckEnv V) (checked : String → List UInt8) (ps : List FlatPolicy)
    (input : CheckInput) (truth : Expr → Bool) : Prop where
  load : FlatLoad env.externals checked ps env.table.toRuleTable
  lenient : env.evalParams.strictEvaluation = false
  schema : env.SchemaPasses
  version_ne : env.resourceVersion input ≠ ""
  kind_ne : input.resource.kind ≠ ""
  leaves : ∀ row ∈ FlatPolicy.rowsOf ps, ∀ e ∈ row.leaves, ∀ ec : EvalContext,
    ec.request = checkInputToRequest input → ec.strictEvaluation = false →
    ∀ constants vars, ec.evaluateBoolCELExpr env.cel e constants vars = .ok (truth e)

namespace FlatRequest

variable (h : env.FlatRequest checked ps input truth)
include h

theorem scopesFor_principal : env.scopesFor input .principal = [] := by
  unfold scopesFor RuleTable.getAllScopes
  rw [h.load.plain.principalScopeMap]
  simp

/-- Only the root is a scope of the table. -/
theorem eq_root_of_mem_scopesFor {scope : String} (hs : scope ∈ env.scopesFor input .resource) :
    scope = "" ∧ (env.resourceScope input = "" ∨ env.evalParams.lenientScopeSearch = true) := by
  have hmap := h.load.plain.resourceScopeMap
  obtain ⟨hin, hchain⟩ := RuleTable.mem_getAllScopes.mp hs
  obtain rfl := hmap _ hin
  refine ⟨rfl, ?_⟩
  rcases hchain with hroot | ⟨-, hscope | hlen⟩
  · exact .inl hroot.symm
  · exact .inl (hmap _ hscope)
  · exact .inr hlen

variable {row : RuleRow} {action role : String} {b : BindingHandle}

theorem scopesFor_resource (hrow : row ∈ rowsOf ps)
    (hroot : env.reachesRoot input = true) : env.scopesFor input .resource = [""] := by
  obtain ⟨pss, hload, -, hrows⟩ := h.load.load_rows
  have hflat := h.load.flat row hrow
  have hmem := (RuleTable.hasRow_of_fromPolicies hload row ((hrows row).mpr hrow)).scope
    hflat.policyKind
  rw [hflat.scope] at hmem
  have hin : "" ∈ env.scopesFor input .resource := by
    unfold reachesRoot at hroot
    rw [Bool.and_eq_true, Bool.or_eq_true, beq_iff_eq, beq_iff_eq] at hroot
    refine RuleTable.mem_getAllScopes.mpr ⟨hmem, ?_⟩
    by_cases hscope : env.resourceScope input = ""
    · exact .inl hscope.symm
    · exact .inr ⟨root_mem_scopeParents hscope, .inr (hroot.2.resolve_left hscope)⟩
  -- a chain has no repetitions, so the root is all of it
  have hnodup : (env.scopesFor input .resource).Nodup := env.table.getAllScopes_nodup _ _ _
  refine perm_singleton.mp ((perm_ext_iff_of_nodup hnodup (nodup_singleton "")).mpr
    (fun scope => ⟨fun hs => ?_, fun hs => ?_⟩))
  · exact mem_singleton.mpr (h.eq_root_of_mem_scopesFor hs).1
  · rw [mem_singleton.mp hs]
    exact hin

/-- The index has no role policies. -/
theorem allowActions_eq_none : ∀ i b, env.table.idx.getBinding i = some b →
    b.allowActions = none := by
  intro i b hb
  obtain ⟨row, hrow, hstands, -⟩ := h.load.exists_row_of_binding hb
  obtain ⟨core, id, rfl⟩ := hstands.handle
  obtain ⟨a, ha, -⟩ := (h.load.flat row hrow).actionSet
  unfold handleOf
  rw [ha]

theorem addParentRoles_eq (scopes roles : List String) :
    env.table.idx.addParentRoles scopes roles = roles := by
  unfold addParentRoles
  rw [h.load.plain.parentRoles]
  simp

/-- The resource and the action under which a binding is indexed are those of its row. -/
theorem indexed_of_standsFor (hrow : row ∈ rowsOf ps)
    (hstands : b.StandsFor checked row) (kind : String) :
    (resourceMatches env.externals b (ResourceKind.new kind) .resource = true ↔
        row.resource = kind ∨ row.resource = sanitizedResource kind) ∧
      row.actionSet = some (.action (indexedAction b)) := by
  obtain ⟨p, hp, rule, -, hyields⟩ := (mem_rowsOf_iff h.load.policies row).mp hrow
  have hpok := h.load.policies p hp
  obtain ⟨a, ha, -⟩ := (h.load.flat row hrow).actionSet
  obtain ⟨core, id, rfl⟩ := hstands.handle
  constructor
  · refine resourceMatches_iff ?_ ?_
    · show row.resource ≠ ""
      rw [hyields.resource]
      exact hpok.resource_ne
    · show isGlob row.resource = false
      rw [hyields.resource]
      exact hpok.resource_literal
  · unfold indexedAction handleOf
    rw [ha]
    rfl

/-- **The bindings of a query stand for the rows that it selects.** -/
theorem exists_row_of_mem (hb : b ∈ env.bindingsFor input .resource action role "") :
    ∃ row ∈ rowsOf ps, b.StandsFor checked row ∧
      row.SelectedBy env.externals input.resource.kind action role := by
  unfold bindingsFor at hb
  rw [h.addParentRoles_eq, mem_query_iff env.table.exact h.allowActions_eq_none] at hb
  obtain ⟨i, hi, hret⟩ := hb
  obtain ⟨row, hrow, hstands, -⟩ := h.load.exists_row_of_binding hi
  obtain ⟨hresource, haction⟩ := h.indexed_of_standsFor hrow hstands input.resource.kind
  obtain ⟨r, hr, hmatch⟩ := hret.selects.roles.resolve_left (cons_ne_nil role [])
  rw [mem_singleton.mp hr] at hmatch
  refine ⟨row, hrow, hstands, hresource.mp (hret.selects.resource.resolve_left h.kind_ne), ?_,
    _, haction, hret.action⟩
  obtain ⟨core, id, rfl⟩ := hstands.handle
  exact hmatch

theorem exists_mem_of_row (hroot : env.reachesRoot input = true) (hrow : row ∈ rowsOf ps)
    (hselected : row.SelectedBy env.externals input.resource.kind action role) :
    ∃ b ∈ env.bindingsFor input .resource action role "", b.StandsFor checked row := by
  obtain ⟨i, b, hb, hstands⟩ := h.load.exists_binding_of_row hrow
  refine ⟨b, ?_, hstands⟩
  unfold bindingsFor
  rw [h.addParentRoles_eq, mem_query_iff env.table.exact h.allowActions_eq_none]
  have hversion : env.resourceVersion input = defaultVersion := by
    unfold reachesRoot at hroot
    rw [Bool.and_eq_true, beq_iff_eq] at hroot
    exact hroot.1
  have hflat := h.load.flat row hrow
  have hkind := hstands.policyKind
  obtain ⟨hmatches, haction⟩ := h.indexed_of_standsFor hrow hstands input.resource.kind
  obtain ⟨a, ha, hmatch⟩ := hselected.action
  rw [haction] at ha
  cases ha
  have hresource := hmatches.mpr hselected.resource
  obtain ⟨core, id, rfl⟩ := hstands.handle
  refine ⟨i, hb, ⟨hflat.scope, Or.inr ⟨?_, h.version_ne⟩, Or.inr hresource, Or.inr ⟨role,
    mem_singleton_self role, hselected.role⟩, Or.inr hkind, Or.inl rfl⟩, hmatch⟩
  rw [hversion]
  exact hflat.version

/-- Only resource policies are consulted, and only in the root scope. -/
theorem exists_row_of_consulted (hb : env.Consulted input b) :
    ∃ row ∈ rowsOf ps, b.StandsFor checked row ∧
      (b.id ≠ noEvalKey → env.table.idx.evalKey b.id = makeEvaluationKeyTuple row) ∧
      env.table.idx.getBinding b.id = some b := by
  obtain ⟨kind, scope, hk, hs, action, ha, role, hr, hmem⟩ := hb
  rcases hk with rfl | rfl
  · rw [h.scopesFor_principal] at hs
    exact (not_mem_nil hs).elim
  · unfold bindingsFor at hmem
    rw [mem_query_iff env.table.exact h.allowActions_eq_none] at hmem
    obtain ⟨i, hi, -⟩ := hmem
    obtain ⟨row, hrow, hstands, hid, hkey⟩ := h.load.exists_row_of_binding hi
    rw [← hid] at hkey hi
    exact ⟨row, hrow, hstands, hkey, hi⟩

theorem total : env.Total input where
  derivedVariables := by
    intro scope dr hdr ec _
    have hnone : dr.2.role.orderedVariables = [] := by
      unfold derivedRolesOf RuleTable.getDerivedRoles at hdr
      split at hdr
      · exact (not_mem_nil hdr).elim
      next m hm =>
          obtain ⟨entry, hentry, rfl⟩ := mem_map.mp hdr
          exact h.load.plain.policyDerivedRoles _ m hm entry.1 entry.2
            (AList.mem_lookup_iff.mpr hentry)
    rw [hnone]
    exact ⟨[], rfl⟩
  ruleVariables := by
    intro b hb rp hrp ec
    obtain ⟨row, -, hstands, -⟩ := h.exists_row_of_consulted hb
    rw [hstands.params rp hrp]
    exact ⟨[], rfl⟩

/-- A condition of a binding is satisfied iff its leaves are true. -/
theorem satisfies_eq (hrow : row ∈ rowsOf ps) {c : Condition}
    (hc : c.isConjunction = true) (hleaves : ∀ e ∈ c.leaves, e ∈ row.leaves) {ec : EvalContext}
    (hreq : ec.request = checkInputToRequest input) (hlenient : ec.strictEvaluation = false)
    (constants : List (String × Value)) (vars : Vars V) :
    ec.satisfies env.cel constants vars c = .ok (c.leaves.all truth) :=
  EvalContext.satisfies_conjunction hc
    (fun e he => h.leaves row hrow e (hleaves e he) ec hreq hlenient constants vars)

theorem outcomes : env.Outcomes input (fun b => b.leaves.all truth) := by
  intro b hb ec hec vars drVars _ _
  obtain ⟨hreq, hlenient⟩ := hec
  obtain ⟨row, hrow, hstands, -⟩ := h.exists_row_of_consulted hb
  have hsub : ∀ e ∈ b.leaves, e ∈ row.leaves := fun e he => hstands.leaves ▸ he
  have hcond : ec.satisfiesCondition env.cel b.core.condition (paramConstants b.core.params) vars =
      .ok ((optLeaves b.core.condition).all truth) := by
    cases hc : b.core.condition with
    | none => rfl
    | some c =>
      refine h.satisfies_eq hrow (hstands.condition c hc).1 (fun e he => hsub e ?_) hreq hlenient _ _
      unfold BindingHandle.leaves
      rw [hc]
      exact mem_append_left _ he
  unfold bindingOutcome BindingHandle.leaves
  dsimp only
  rw [all_append]
  cases hd : b.core.derivedRoleCondition with
  | none =>
    rw [hcond]
    show _ = Except.ok (_ && ([] : List Expr).all truth)
    rw [all_nil, Bool.and_true]
  | some drc =>
    have hdr := h.satisfies_eq hrow (hstands.derivedRoleCondition drc hd).1 (fun e he => hsub e (by
        unfold BindingHandle.leaves
        rw [hd]
        exact mem_append_right _ he)) hreq hlenient (paramConstants b.core.derivedRoleParams)
      drVars
    dsimp only
    rw [hdr, hcond]
    show _ = Except.ok ((optLeaves b.core.condition).all truth && drc.leaves.all truth)
    cases drc.leaves.all truth with
    | false => rw [Bool.and_false]
    | true => rw [Bool.and_true]

theorem consultedAgree : env.ConsultedAgree input (fun b => b.leaves.all truth) := by
  intro b b' hb hb' hkey
  obtain ⟨row, hrow, hstands, hk, hget⟩ := h.exists_row_of_consulted hb
  obtain ⟨row', hrow', hstands', hk', hget'⟩ := h.exists_row_of_consulted hb'
  have hne : ∀ {r : RuleRow}, r ∈ rowsOf ps → makeEvaluationKeyTuple r ≠ {} := by
    intro r hr
    obtain ⟨p, -, rule, -, hyields⟩ := (mem_rowsOf_iff h.load.policies r).mp hr
    exact hyields.key_ne
  -- the sentinel ID has the zero key, which no row has
  by_cases hid : b.id = noEvalKey
  · by_cases hid' : b'.id = noEvalKey
    · rw [hid] at hget
      rw [hid', hget] at hget'
      rw [Option.some.inj hget']
    · rw [hid, hk' hid'] at hkey
      exact absurd hkey.symm (hne hrow')
  · by_cases hid' : b'.id = noEvalKey
    · rw [hid', hk hid] at hkey
      exact absurd hkey (hne hrow)
    · rw [hk hid, hk' hid'] at hkey
      show b.leaves.all truth = b'.leaves.all truth
      rw [hstands.leaves, hstands'.leaves,
        leaves_eq_of_key_eq h.load.policies h.load.resources hrow hrow' hkey]

theorem anySatisfied_eq (hroot : env.reachesRoot input = true) (action role : String) (e : Effect) :
    anySatisfied (fun b => b.leaves.all truth) e (env.bindingsFor input .resource action role "") =
      someFires env.externals truth ps input.resource.kind action role e := by
  rw [Bool.eq_iff_iff, someFires_iff h.load.policies]
  unfold anySatisfied
  rw [any_eq_true]
  constructor
  · rintro ⟨b, hb, hsat⟩
    rw [Bool.and_eq_true, decide_eq_true_eq] at hsat
    obtain ⟨row, hrow, hstands, hselected⟩ := h.exists_row_of_mem hb
    refine ⟨row, hrow, hselected, hstands.effect.symm.trans hsat.2, ?_⟩
    rw [← hstands.leaves]
    exact hsat.1
  · rintro ⟨row, hrow, hselected, heffect, hall⟩
    obtain ⟨b, hb, hstands⟩ := h.exists_mem_of_row hroot hrow hselected
    refine ⟨b, hb, ?_⟩
    rw [Bool.and_eq_true, decide_eq_true_eq, hstands.effect]
    refine ⟨?_, heffect⟩
    show b.leaves.all truth = true
    rw [hstands.leaves]
    exact hall

/-- A role that is allowed is allowed by a request that gets to the policies. -/
theorem reachesRoot_of_roleOutcome
    (ho : env.roleOutcome input (fun _ _ b => b.leaves.all truth) .resource action role = .allow) :
    env.reachesRoot input = true ∧ ∃ row, row ∈ rowsOf ps := by
  obtain ⟨scope, hscope, b, hb, -, -⟩ := exists_of_chainOutcome_allow ho
  unfold bindingsFor at hb
  rw [mem_query_iff env.table.exact h.allowActions_eq_none] at hb
  obtain ⟨i, hi, hret⟩ := hb
  obtain ⟨row, hrow, hstands, -⟩ := h.load.exists_row_of_binding hi
  refine ⟨?_, row, hrow⟩
  have hversion := (hret.selects.version.resolve_left h.version_ne).1
  obtain ⟨core, id, rfl⟩ := hstands.handle
  unfold reachesRoot
  rw [Bool.and_eq_true, Bool.or_eq_true, beq_iff_eq, beq_iff_eq]
  exact ⟨hversion.symm.trans (h.load.flat row hrow).version, (h.eq_root_of_mem_scopesFor hscope).2⟩

/-- A role is allowed iff the request gets to the policies, an ALLOW rule fires for the role and
no DENY rule does. -/
theorem roleOutcome_eq_allow_iff (action role : String) :
    env.roleOutcome input (fun _ _ b => b.leaves.all truth) .resource action role = .allow ↔
      env.reachesRoot input = true ∧
        permits env.externals truth ps input.resource.kind action role = true := by
  unfold permits
  rw [Bool.and_eq_true, Bool.not_eq_true']
  constructor
  · intro ho
    obtain ⟨hroot, row, hrow⟩ := h.reachesRoot_of_roleOutcome ho
    unfold roleOutcome at ho
    rw [h.scopesFor_resource hrow hroot, chainOutcome_cons] at ho
    rw [← h.anySatisfied_eq hroot, ← h.anySatisfied_eq hroot]
    split at ho
    · exact nomatch ho
    next hdeny =>
        split at ho
        next hallow => exact ⟨hroot, hallow.1, Bool.not_eq_true _ ▸ hdeny⟩
        · exact nomatch ho
  · rintro ⟨hroot, hallow, hdeny⟩
    rw [← h.anySatisfied_eq hroot] at hallow hdeny
    obtain ⟨b, hb, -, heffect⟩ := exists_of_anySatisfied hallow
    obtain ⟨row, hrow, -⟩ := h.exists_row_of_mem hb
    have hover := (h.load.plain.permissions "").resolve_left (permissions_of_mem_bindingsFor hb heffect)
    unfold roleOutcome
    rw [h.scopesFor_resource hrow hroot]
    exact chainOutcome_cons_of_allow hdeny hallow hover

theorem decision_eq : env.decision input (fun _ _ b => b.leaves.all truth) action =
      if env.reachesRoot input && input.principal.roles.any
          (permits env.externals truth ps input.resource.kind action) then .allow else .deny := by
  have hprincipal : env.principalOutcome input (fun _ _ b => b.leaves.all truth) action = .noMatch := by
    unfold principalOutcome roleOutcome
    rw [h.scopesFor_principal]
    cases input.principal.roles <;> rfl
  rw [decision_eq_ite]
  refine if_congr ?_ rfl rfl
  rw [hprincipal, Bool.and_eq_true, any_eq_true]
  simp only [reduceCtorEq, false_or, true_and, h.roleOutcome_eq_allow_iff]
  constructor
  · rintro ⟨role, hrole, hroot, hp⟩
    exact ⟨hroot, role, hrole, hp⟩
  · rintro ⟨hroot, role, hrole, hp⟩
    exact ⟨role, hrole, hroot, hp⟩

/-- **What check decides on flat policies**: ALLOW iff the request gets to the policies and
some role of the principal is permitted, DENY otherwise. -/
theorem checkedEffect_flat (ha : action ∈ input.actions) :
    checkedEffect env input action = some (if env.reachesRoot input && input.principal.roles.any
          (permits env.externals truth ps input.resource.kind action) then .allow else .deny) := by
  have hdeny : env.reachesLoops input = false →
      ∀ a, env.decision input (fun _ _ b => b.leaves.all truth) a = .deny := by
    intro hr a
    rw [h.decision_eq, if_neg]
    intro hany
    rw [Bool.and_eq_true] at hany
    obtain ⟨hroot, hany⟩ := hany
    obtain ⟨role, -, hpermits⟩ := any_eq_true.mp hany
    have hreach := reachesLoops_of_roleOutcome_allow (Or.inr rfl) (fun hk => nomatch hk)
      h.version_ne h.kind_ne ((h.roleOutcome_eq_allow_iff a role).mpr ⟨hroot, hpermits⟩)
    rw [hr] at hreach
    exact Bool.noConfusion hreach
  have hundisturbed : env.Undisturbed input (fun b => b.leaves.all truth)
      (fun _ _ b => b.leaves.all truth) :=
    ⟨answers_of_passes (h.schema _ _), fun _ _ _ => rfl,
      fun hp a _ => hdeny (h.schema.proceeds_eq.symm.trans hp) a⟩
  have hfollows := (followsRule_iff h.outcomes h.total h.lenient
    h.consultedAgree.settledBy).mpr hundisturbed
  rw [hfollows.checkedEffect_eq ha, h.decision_eq]

end FlatRequest

end CheckEnv

end AccessManagement
