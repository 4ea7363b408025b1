/-
  AccessManagement.RuleTable.Flat — FLAT POLICIES AND THEIR TABLE.

  A flat policy is a resource policy of the default version in the root scope, without
  variables and outputs, whose conditions are conjunctions.  A table of flat policies has
  nothing in it that makes decisions hard to predict: one scope, no principal policies, no
  role policies, and cores that are shared only between rows with the same meaning.

  Main results:
    * `FlatLoad.plain` — what a table of flat policies looks like beside its index;
    * `exists_row_of_binding`, `exists_binding_of_row` — its live bindings are the rows of the
      policies, with the rows' own effects and leaves.
-/
import AccessManagement.Policy.Conjunction
import AccessManagement.RuleTable.Load

namespace AccessManagement

open Lib List AList Namer RuleTable

variable {t : RuleTable} {x : Externals}

/-! ## §1. Flat policies. -/

structure FlatPolicy where
  resource : String
  derivedRoles : List (String × RunnableDerivedRole)
  rules : List ResourceRule

namespace FlatPolicy

variable (p : FlatPolicy)

def policy : ResourcePolicy where
  scope := ""
  derivedRoles := p.derivedRoles
  rules := p.rules
  scopePermissions := .overrideParent
  orderedVariables := []
  constants := []

def policySet : PolicySet :=
  .resourcePolicy (resourcePolicyFqn p.resource defaultVersion "") p.resource
    defaultVersion [p.policy]

/-- The name that the rows of a policy are indexed under. -/
def rowResource : String := sanitizedResource p.resource

/-- What is required of a flat policy; `checked` is the checked form of an expression. -/
structure Ok (checked : String → List UInt8) (p : FlatPolicy) : Prop where
  resource_ne : p.rowResource ≠ ""
  resource_literal : isGlob p.rowResource = false
  rules_ne : p.rules ≠ []
  names : (p.rules.map (·.name)).Nodup
  actions : ∀ rule ∈ p.rules, ∀ a ∈ rule.actions, a.utf8ByteSize < 2 ^ 64
  outputs : ∀ rule ∈ p.rules, rule.output = none ∧ rule.emitOutput = none
  conditions : ∀ rule ∈ p.rules, ReadableConjunction checked rule.condition
  derivedConditions : ∀ dr ∈ p.derivedRoles, ReadableConjunction checked dr.2.condition
  derivedVariables : ∀ dr ∈ p.derivedRoles, dr.2.orderedVariables = [] ∧ dr.2.constants = []

/-- The row of a rule for an action and a role. -/
def ruleRow (rule : ResourceRule) (action role : String) : RuleRow :=
  resourceRow (resourcePolicyFqn p.resource defaultVersion "") p.rowResource
    defaultVersion p.policy rule action role

/-- The row of a rule for an action, a derived role and a parent role. -/
def derivedRow (rule : ResourceRule) (action : String)
    (rdr : RunnableDerivedRole) (dr parentRole : String) : RuleRow :=
  derivedRoleRow (resourcePolicyFqn p.resource defaultVersion "") p.rowResource
    defaultVersion p.policy rule action rdr dr parentRole

/-- The rows of one rule. -/
inductive Yields (p : FlatPolicy) (rule : ResourceRule) : RuleRow → Prop
  | role {action role : String} : action ∈ rule.actions → role ∈ rule.roles →
      Yields p rule (p.ruleRow rule action role)
  | derived {action dr parentRole : String} {rdr : RunnableDerivedRole} :
      action ∈ rule.actions → dr ∈ rule.derivedRoles → p.derivedRoles.lookup dr = some rdr →
      parentRole ∈ rdr.parentRoles → Yields p rule (p.derivedRow rule action rdr dr parentRole)

theorem mem_rows_iff {p : FlatPolicy} (hne : p.rules ≠ []) (row : RuleRow) :
    row ∈ p.policySet.rows ↔ ∃ rule ∈ p.rules, p.Yields rule row := by
  rw [PolicySet.mem_rows_iff]
  constructor
  · intro h
    cases h with
    | noRules empty => exact (hne empty).elim
    | static rule_mem action_mem role_mem => exact ⟨_, rule_mem, .role action_mem role_mem⟩
    | derived rule_mem action_mem mem resolved parent_mem =>
      exact ⟨_, rule_mem, .derived action_mem mem resolved parent_mem⟩
  · intro ⟨rule, hrule, h⟩
    cases h with
    | role action_mem role_mem => exact .static hrule action_mem role_mem
    | derived action_mem mem resolved parent_mem =>
      exact .derived hrule action_mem mem resolved parent_mem

end FlatPolicy

/-! ## §2. Their rows. -/

/-- The leaves of a row: those of its rule, then those of its derived role. -/
def RuleRow.leaves (row : RuleRow) : List Expr :=
  optLeaves row.condition ++ optLeaves row.derivedRoleCondition

/-- What the rows of flat policies have in common. -/
structure RuleRow.Flat (checked : String → List UInt8) (row : RuleRow) : Prop where
  condition : ReadableConjunction checked row.condition
  derivedRoleCondition : ReadableConjunction checked row.derivedRoleCondition
  emitOutput : row.emitOutput = none
  params : ∀ p ∈ row.params, p.orderedVariables = [] ∧ p.constants = []
  derivedRoleParams : ∀ p ∈ row.derivedRoleParams, p.orderedVariables = [] ∧ p.constants = []
  policyKind : row.policyKind = .resource
  fromRolePolicy : row.fromRolePolicy = false
  scopePermissions : row.scopePermissions = .overrideParent
  scope : row.scope = ""
  version : row.version = Namer.defaultVersion
  actionSet : ∃ action, row.actionSet = some (.action action) ∧ action.utf8ByteSize < 2 ^ 64

variable {checked : String → List UInt8}

theorem FlatPolicy.Yields.flat {p : FlatPolicy} (hp : p.Ok checked) {rule : ResourceRule}
    (hrule : rule ∈ p.rules) {row : RuleRow} (h : p.Yields rule row) : row.Flat checked := by
  have hout : ruleOutput rule.emitOutput rule.output = none := by
    rw [(hp.outputs rule hrule).1, (hp.outputs rule hrule).2]
    rfl
  cases h with
  | role ha =>
    exact {
      condition := hp.conditions rule hrule
      derivedRoleCondition := fun _ hc => nomatch hc
      emitOutput := hout
      params := fun q hq => by obtain rfl := Option.some.inj hq; exact ⟨rfl, rfl⟩
      derivedRoleParams := fun _ hq => nomatch hq
      policyKind := rfl, fromRolePolicy := rfl, scopePermissions := rfl, scope := rfl
      version := rfl, actionSet := ⟨_, rfl, hp.actions rule hrule _ ha⟩ }
  | @derived action dr parentRole rdr ha hdr hl hpr =>
    have hmem : (dr, rdr) ∈ p.derivedRoles := by
      obtain ⟨_, _, heq, -⟩ := lookup_eq_some_iff.mp hl
      rw [heq]
      exact mem_append_right _ mem_cons_self
    exact {
      condition := hp.conditions rule hrule
      derivedRoleCondition := hp.derivedConditions _ hmem
      emitOutput := hout
      params := fun q hq => by obtain rfl := Option.some.inj hq; exact ⟨rfl, rfl⟩
      derivedRoleParams := fun q hq => by
        obtain rfl := Option.some.inj hq
        exact hp.derivedVariables _ hmem
      policyKind := rfl, fromRolePolicy := rfl, scopePermissions := rfl, scope := rfl
      version := rfl, actionSet := ⟨_, rfl, hp.actions rule hrule _ ha⟩ }

/-- The functional part of a row starts with its action, its leaves and its effect. -/
theorem RuleRow.functionalTokens_eq {row : RuleRow} {action : String}
    (h : row.actionSet = some (.action action)) : ∃ ts, row.functionalTokens =
      .text action :: (row.leaves.flatMap Expr.tokens ++ .varint row.effect.number :: ts) := by
  unfold RuleRow.functionalTokens RuleRow.leaves
  rw [h, optTokens_eq_leaves, optTokens_eq_leaves, flatMap_append]
  simp only [optTokens, ActionSet.tokens, Option.map_some, Option.getD_some, append_assoc,
    cons_append, nil_append, append_cancel_left_eq, List.cons.injEq, true_and, exists_eq']

namespace RuleRow.Flat

variable {row row' : RuleRow}

theorem readable (h : row.Flat checked) : ∀ e ∈ row.leaves, e.Readable checked := by
  intro e he
  rcases mem_append.mp he with he | he
  · exact h.condition.readable e he
  · exact h.derivedRoleCondition.readable e he

/-- **Flat rows with the same functional bytes have the same leaves and the same effect.** -/
theorem eq_of_encode_eq (h : row.Flat checked) (h' : row'.Flat checked) {w : Protowire}
    (heq : Token.encode w row.functionalTokens = Token.encode w row'.functionalTokens) :
    row.leaves = row'.leaves ∧ row.effect = row'.effect := by
  obtain ⟨action, haction, hsize⟩ := h.actionSet
  obtain ⟨action', haction', hsize'⟩ := h'.actionSet
  obtain ⟨ts, hts⟩ := functionalTokens_eq haction
  obtain ⟨ts', hts'⟩ := functionalTokens_eq haction'
  rw [hts, hts'] at heq
  -- the actions are told apart first
  have hsame : action = action' := by
    by_contra hne
    have hclash : (Token.text action).clash (.text action') = true := bne_iff_ne.mpr hne
    exact Token.bytes_append_ne_of_clash w hclash (decide_eq_true hsize) (decide_eq_true hsize')
      _ _ heq
  rw [hsame, Token.encode_cons, Token.encode_cons] at heq
  replace heq := append_cancel_left heq
  have hlt : ∀ e : Effect, e.number < 4 := fun e => by cases e <;> decide
  obtain ⟨hleaves, hnum⟩ := leaves_eq_of_encode_eq row.leaves row'.leaves _ _ ts ts' h.readable
    h'.readable (hlt _) (hlt _) heq
  refine ⟨hleaves, ?_⟩
  cases he : row.effect <;> cases he' : row'.effect <;> rw [he, he'] at hnum <;>
    first | rfl | exact absurd hnum (by decide)

theorem noVariables (h : row.Flat checked) : row.NoVariables := by
  constructor
  · cases hp : row.params with
    | none => rfl
    | some q => exact (h.params q hp).1
  · cases hp : row.derivedRoleParams with
    | none => rfl
    | some q => exact (h.derivedRoleParams q hp).1

end RuleRow.Flat

/-! ## §3. Tables of flat policies. -/

/-- The rows of a list of flat policies. -/
def FlatPolicy.rowsOf (ps : List FlatPolicy) : List RuleRow :=
  RuleTable.rowsOf (ps.map FlatPolicy.policySet)

/-- A table that was loaded from flat policies, in whatever order, one for each resource. -/
structure FlatLoad (x : Externals) (checked : String → List UInt8) (ps : List FlatPolicy)
    (t : RuleTable) : Prop where
  policies : ∀ p ∈ ps, p.Ok checked
  resources : (ps.map FlatPolicy.rowResource).Nodup
  load : ∃ pss, pss.Perm (ps.map FlatPolicy.policySet) ∧ RuleTable.fromPolicies x pss = some t
  separates : SeparatesRows x (FlatPolicy.rowsOf ps)

/-- What a table of flat policies looks like beside its index. -/
structure RuleTable.Plain (t : RuleTable) : Prop where
  principalScopeMap : t.principalScopeMap = ∅
  resourceScopeMap : ∀ scope ∈ t.resourceScopeMap, scope = ""
  scopeParentRoles : t.scopeParentRoles = ∅
  parentRoles : t.idx.parentRoles = ∅
  permissions : ∀ scope, t.getScopeScopePermissions scope = .unspecified ∨
    t.getScopeScopePermissions scope = .overrideParent
  protoDerivedRoles : ∀ id drs, t.protoDerivedRoles.lookup id = some drs →
    ∀ dr ∈ drs, dr.2.orderedVariables = []
  policyDerivedRoles : ∀ id m, t.policyDerivedRoles.lookup id = some m →
    ∀ name w, m.lookup name = some w → w.role.orderedVariables = []

namespace RuleTable.Plain

theorem new : RuleTable.new.Plain where
  principalScopeMap := rfl
  resourceScopeMap := fun _ h => absurd h (Finset.notMem_empty _)
  scopeParentRoles := rfl
  parentRoles := rfl
  permissions := fun _ => Or.inl rfl
  protoDerivedRoles := fun _ _ h => nomatch h
  policyDerivedRoles := fun _ _ h => nomatch h

theorem notePolicy (h : t.Plain) {p : FlatPolicy} (hp : p.Ok checked) :
    (t.notePolicy x p.policySet).Plain := by
  show RuleTable.Plain (if p.derivedRoles.isEmpty then t else { t with
    protoDerivedRoles := t.protoDerivedRoles.insert
      (x.hasher.str (resourcePolicyFqn p.resource defaultVersion "")) p.derivedRoles })
  split
  · exact h
  · exact { h with
      protoDerivedRoles := EntriesHold.insert h.protoDerivedRoles
        (fun dr hdr => (hp.derivedVariables dr hdr).1) }

/-- The derived roles of a policy are added one by one. -/
theorem foldl_insert {drs : List (String × RunnableDerivedRole)}
    (hdrs : ∀ dr ∈ drs, dr.2.orderedVariables = [])
    {m : AList (fun _ : String => WrappedRunnableDerivedRole)}
    (hm : EntriesHold (fun _ w => w.role.orderedVariables = []) m) :
    EntriesHold (fun _ w => w.role.orderedVariables = []) (drs.foldl (fun m dr => m.insert dr.1
      { role := dr.2, varCacheKey := x.hasher.sum dr.2.tokens }) m) :=
  foldlRecOn (motive := EntriesHold _) drs _ hm (fun _ h dr hdr => h.insert (hdrs dr hdr))

theorem noteDerivedRoles (h : t.Plain) (row : RuleRow) : (t.noteDerivedRoles x row).Plain := by
  unfold RuleTable.noteDerivedRoles
  dsimp only
  split
  · split
    · exact h
    next drs hdrs =>
        refine { h with
          policyDerivedRoles := EntriesHold.insert h.policyDerivedRoles
            (foldl_insert (h.protoDerivedRoles _ drs hdrs) (fun name w hw => ?_)) }
        cases hm : t.policyDerivedRoles.lookup _ with
        | none => rw [hm] at hw; exact nomatch hw
        | some m => rw [hm] at hw; exact h.policyDerivedRoles _ m hm name w hw
  · exact h

theorem noteRow (h : t.Plain) {row : RuleRow} (hrow : row.Flat checked) :
    (t.noteRow x row).Plain := by
  have hdr := h.noteDerivedRoles (x := x) row
  have hperm : ∀ scope, (t.noteRow x row).getScopeScopePermissions scope = .unspecified ∨
      (t.noteRow x row).getScopeScopePermissions scope = .overrideParent := by
    intro scope
    rw [getScopeScopePermissions_noteRow, hrow.scopePermissions]
    split
    · exact Or.inr rfl
    · exact h.permissions scope
  have heq : t.noteRow x row = { t.noteDerivedRoles x row with
      scopePermsTracker := (t.noteDerivedRoles x row).scopePermsTracker.add row.policyKind
        (policyKeyFromFqn row.originFqn) row.scope row.scopePermissions
      scopeScopePermissions := (t.noteDerivedRoles x row).scopeScopePermissions.insert row.scope
        row.scopePermissions.normalise
      resourceScopeMap := insert row.scope (t.noteDerivedRoles x row).resourceScopeMap } := by
    unfold RuleTable.noteRow noteScope noteScopePermissions
    rw [hrow.policyKind, hrow.fromRolePolicy]
    rfl
  rw [heq] at hperm ⊢
  exact { hdr with
    resourceScopeMap := fun scope hs => (Finset.mem_insert.mp hs).elim
      (fun heq => heq.trans hrow.scope) (hdr.resourceScopeMap scope)
    permissions := hperm }

end RuleTable.Plain

theorem FlatPolicy.mem_rowsOf_iff {ps : List FlatPolicy} (hps : ∀ p ∈ ps, p.Ok checked)
    (row : RuleRow) :
    row ∈ FlatPolicy.rowsOf ps ↔ ∃ p ∈ ps, ∃ rule ∈ p.rules, p.Yields rule row := by
  unfold FlatPolicy.rowsOf RuleTable.rowsOf
  rw [mem_flatMap]
  constructor
  · rintro ⟨set, hset, hrow⟩
    obtain ⟨p, hp, rfl⟩ := mem_map.mp hset
    exact ⟨p, hp, (FlatPolicy.mem_rows_iff (hps p hp).rules_ne row).mp hrow⟩
  · rintro ⟨p, hp, hyields⟩
    exact ⟨p.policySet, mem_map.mpr ⟨p, hp, rfl⟩,
      (FlatPolicy.mem_rows_iff (hps p hp).rules_ne row).mpr hyields⟩

/-- The leaves of a binding's conditions. -/
def BindingHandle.leaves (b : BindingHandle) : List Expr :=
  optLeaves b.core.condition ++ optLeaves b.core.derivedRoleCondition

/-- A binding that stands for a row: it has the routing half of the row, and a core with the
meaning of the row. -/
structure BindingHandle.StandsFor (checked : String → List UInt8) (b : BindingHandle)
    (row : RuleRow) : Prop where
  handle : ∃ core id, b = { Index.handleOf row core with id := id }
  leaves : b.leaves = row.leaves
  effect : b.core.effect = row.effect
  policyKind : b.core.policyKind = .resource
  condition : ReadableConjunction checked b.core.condition
  derivedRoleCondition : ReadableConjunction checked b.core.derivedRoleCondition
  params : ∀ rp, b.core.params = some rp ∨ b.core.derivedRoleParams = some rp →
    rp.orderedVariables = []

namespace FlatLoad

variable {ps : List FlatPolicy}

variable (h : FlatLoad x checked ps t)

include h

theorem flat : ∀ row ∈ FlatPolicy.rowsOf ps, row.Flat checked := by
  intro row hrow
  obtain ⟨p, hp, rule, hrule, hyields⟩ := (FlatPolicy.mem_rowsOf_iff h.policies row).mp hrow
  exact hyields.flat (h.policies p hp) hrule

/-- The rows do not depend on the order of the load. -/
theorem load_rows : ∃ pss, RuleTable.fromPolicies x pss = some t ∧
      (∀ set ∈ pss, ∃ p ∈ ps, set = p.policySet) ∧
      ∀ row, row ∈ RuleTable.rowsOf pss ↔ row ∈ FlatPolicy.rowsOf ps := by
  obtain ⟨pss, hperm, hload⟩ := h.load
  refine ⟨pss, hload, fun set hset => ?_, fun row => ?_⟩
  · obtain ⟨p, hp, rfl⟩ := mem_map.mp (hperm.mem_iff.mp hset)
    exact ⟨p, hp, rfl⟩
  · exact (hperm.flatMap_right PolicySet.rows).mem_iff

theorem plain : t.Plain := by
  obtain ⟨pss, hload, hsets, hrows⟩ := h.load_rows
  refine fromPolicies_induction hload RuleTable.Plain.new ?_ ?_ ?_
    (fun t ht => { ht with protoDerivedRoles := fun _ _ h => nomatch h })
  · intro set hset t ht
    obtain ⟨p, hp, rfl⟩ := hsets set hset
    exact ht.notePolicy (h.policies p hp)
  · intro row hrow t ht
    exact ht.noteRow (h.flat row ((hrows row).mp hrow))
  · intro t ix ht
    refine { ht with parentRoles := ?_ }
    show compileParentRoleAncestors t.scopeParentRoles = ∅
    rw [ht.scopeParentRoles]
    rfl

/-- The core stored for a row has the meaning of the row. -/
theorem standsFor {row : RuleRow} (hrow : row ∈ FlatPolicy.rowsOf ps)
    {rows : List RuleRow} (hrows : ∀ r ∈ rows, r ∈ FlatPolicy.rowsOf ps) {core : FunctionalCore}
    (hcore : Index.CoreFrom x rows (row.funcSum x.hasher) core) (i : Nat) :
    BindingHandle.StandsFor checked { Index.handleOf row core with id := i } row := by
  obtain ⟨r, hr, hsum, p, drp, rfl, hparams⟩ := hcore
  have hflat := h.flat r (hrows r hr)
  have henc := h.separates r (hrows r hr) row hrow hsum
  obtain ⟨hleaves, heffect⟩ := hflat.eq_of_encode_eq (h.flat row hrow) henc
  refine ⟨⟨_, i, rfl⟩, hleaves, heffect, hflat.policyKind, hflat.condition,
    hflat.derivedRoleCondition, fun rp hrp => ?_⟩
  rcases hrp with hrp | hrp
  · obtain ⟨r', hr', -, rfl⟩ := hparams.of_params hrp
    exact (h.flat r' (hrows r' hr')).noVariables.1
  · obtain ⟨r', hr', -, rfl⟩ := hparams.of_drParams hrp
    exact (h.flat r' (hrows r' hr')).noVariables.2

/-- **Every live binding stands for a row of the policies**, under the row's evaluation key. -/
theorem exists_row_of_binding {i : Nat} {b : BindingHandle} (hb : t.idx.getBinding i = some b) :
    ∃ row ∈ FlatPolicy.rowsOf ps, b.StandsFor checked row ∧ b.id = i ∧
      (i ≠ noEvalKey → t.idx.evalKey i = Index.makeEvaluationKeyTuple row) := by
  obtain ⟨pss, hload, -, hrows⟩ := h.load_rows
  have hinv := inv_of_fromPolicies hload
  obtain ⟨⟨b', k⟩, hget, rfl⟩ := Option.map_eq_some_iff.mp hb
  obtain ⟨row, hrow, core, hcore, rfl, rfl⟩ :=
    hinv.reachable.inv.provenance.bindings i b' k hget
  have hmem : ∀ r ∈ (rowsOf pss).reverse, r ∈ FlatPolicy.rowsOf ps :=
    fun r hr => (hrows r).mp (mem_reverse.mp hr)
  refine ⟨row, hmem row hrow, h.standsFor (hmem row hrow) hmem hcore i, rfl, fun hi => ?_⟩
  unfold Index.evalKey
  rw [if_neg hi, hget]

/-- **Every row of the policies has a live binding that stands for it.** -/
theorem exists_binding_of_row {row : RuleRow} (hrow : row ∈ FlatPolicy.rowsOf ps) :
    ∃ i b, t.idx.getBinding i = some b ∧ b.StandsFor checked row := by
  obtain ⟨pss, hload, -, hrows⟩ := h.load_rows
  have hinv := inv_of_fromPolicies hload
  obtain ⟨i, core, hb, hsum⟩ :=
    (hasRow_of_fromPolicies hload row ((hrows row).mpr hrow)).idx
  -- the binding's core comes from a row with the same hash, whatever row that is
  obtain ⟨⟨b', k⟩, hget, heq⟩ := Option.map_eq_some_iff.mp hb
  obtain ⟨row', -, core', hcore, hb', -⟩ := hinv.reachable.inv.provenance.bindings i b' k hget
  have hcores : core' = core := by
    have heq' : ({ Index.handleOf row' core' with id := i } : BindingHandle) =
        { Index.handleOf row core with id := i } := hb'.symm.trans heq
    exact congrArg BindingHandle.core heq'
  rw [hcores] at hcore
  rw [← hcore.sum_eq, hsum] at hcore
  exact ⟨i, _, hb, h.standsFor hrow (fun r hr => (hrows r).mp (mem_reverse.mp hr)) hcore i⟩

end FlatLoad

end AccessManagement
