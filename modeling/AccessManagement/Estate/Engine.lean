/-
  AccessManagement.Estate.Engine — AN ENGINE THAT RUNS THE POLICIES OF THE ESTATE.

  An `Engine` is a check environment whose table was loaded, in whatever order, from what the
  compiler makes of the policy files, with CEL as documented.  Everything else about it is
  free: the other parameters of evaluation, the order maps are ranged over, the hash function
  as long as it tells the rows apart.

  Main result: `Engine.checkedEffect_eq` — for the kinds that turn on tenancy, what check
  decides can be read off the policy file of the kind.
-/
import AccessManagement.Check.Source
import AccessManagement.Estate.Policies
import AccessManagement.Manager.Tracker

namespace AccessManagement.Estate

open Lib List FlatPolicy

/-! ## §1. The policy files are flat. -/

/-- The expressions that occur in the policy files. -/
def exprs : List Cel.Expr :=
  (commonErpRoles.definitions.flatMap (fun d => Source.optLeaves d.condition) ++
    policies.flatMap (fun p =>
      p.rules.flatMap (fun rule => Source.optLeaves rule.condition))).eraseDups

theorem exprs_texts : Source.Texts exprs where
  distinct := by decide +kernel
  four_le := by decide +kernel
  lt_size := by decide +kernel

theorem mem_exprs_of_role {d : Source.RoleDef Cel.Expr} (hd : d ∈ commonErpRoles.definitions)
    {e : Cel.Expr} (he : e ∈ Source.optLeaves d.condition) : e ∈ exprs := by
  unfold exprs
  rw [mem_eraseDups]
  exact mem_append_left _ (mem_flatMap.mpr ⟨d, hd, he⟩)

variable {p : Policy}

theorem mem_exprs_of_rule (hp : p ∈ policies) {rule : Rule} (hrule : rule ∈ p.rules)
    {e : Cel.Expr} (he : e ∈ Source.optLeaves rule.condition) : e ∈ exprs := by
  unfold exprs
  rw [mem_eraseDups]
  exact mem_append_right _ (mem_flatMap.mpr
    ⟨p, hp, mem_flatMap.mpr ⟨rule, hrule, he⟩⟩)

theorem commonErpRoles_flat : Source.FlatRoles exprs commonErpRoles where
  names := by decide +kernel
  conditions := by decide +kernel
  leaves := fun _ hd _ he => mem_exprs_of_role hd he

/-- The parts of `Source.Flat` that are checked file by file. -/
theorem policies_check : ∀ p ∈ policies, (p.version = Namer.defaultVersion ∧ p.scope = "" ∧
      p.scopePermissions.normalise = .overrideParent ∧
      p.importDerivedRoles = [commonErpRoles.name]) ∧ (Namer.sanitizedResource p.resource ≠ "" ∧
      isGlob (Namer.sanitizedResource p.resource) = false ∧ p.rules.isEmpty = false ∧
      (p.rules.mapIdx (fun i rule => Namer.resourceRuleName rule.name (i + 1))).Nodup) ∧
    ∀ rule ∈ p.rules, (rule.derivedRoles.isEmpty && rule.roles.isEmpty) = false ∧
      (∀ n ∈ rule.derivedRoles, n ∈ commonErpRoles.definitions.map (·.name)) ∧
      Source.optIsConjunction rule.condition = true ∧
      ∀ a ∈ rule.actions, a.utf8ByteSize < 2 ^ 64 := by
  decide +kernel

theorem policies_flat (hp : p ∈ policies) : Source.Flat exprs commonErpRoles p := by
  obtain ⟨⟨hversion, hscope, hperm, himp⟩, ⟨hne, hlit, hrules, hnames⟩, hrule⟩ :=
    policies_check p hp
  exact {
    version := hversion
    scope := hscope
    scopePermissions := hperm
    imports := himp
    resource_ne := hne
    resource_literal := hlit
    rules_ne := fun hnil => by rw [hnil] at hrules; exact Bool.noConfusion hrules
    names := hnames
    actions := fun rule hr => (hrule rule hr).2.2.2
    roles := fun rule hr => (hrule rule hr).1
    defined := fun rule hr => (hrule rule hr).2.1
    conditions := fun rule hr => (hrule rule hr).2.2.1
    leaves := fun rule hr e he => mem_exprs_of_rule hp hr he }

/-- The policies that turn on tenancy name their actions and roles. -/
theorem tenantPolicies_check : ∀ p ∈ tenantPolicies, ∀ rule ∈ p.rules,
    rule.actions.isEmpty = false ∧ (∀ a ∈ rule.actions, Source.literal a = true) ∧
      ∀ r ∈ rule.roles, Source.literal r = true := by
  decide +kernel

theorem tenantPolicies_literal (hp : p ∈ tenantPolicies) : Source.Literal commonErpRoles p where
  actions_ne := fun rule hr hnil => by
    have h := (tenantPolicies_check p hp rule hr).1
    rw [hnil] at h
    exact Bool.noConfusion h
  actions := fun rule hr => (tenantPolicies_check p hp rule hr).2.1
  roles := fun rule hr => (tenantPolicies_check p hp rule hr).2.2
  parentRoles := by decide +kernel

/-- The policies are for different resources, and no resource is the sanitised form of another. -/
theorem resources_nodup : (policies.map (fun p => Namer.sanitizedResource p.resource)).Nodup := by
  decide +kernel

theorem sanitizedResource_ne : ∀ p ∈ policies, ∀ q ∈ policies,
    Namer.sanitizedResource q.resource ≠ p.resource := by
  decide +kernel

/-! ## §2. The engine. -/

/-- The flat policies of the estate. -/
def flatPolicies (c : CelCompiler) : List FlatPolicy := policies.map (flatPolicy c commonErpRoles)

structure Engine (V : Type) extends CheckEnv V where
  /-- The type checker, which accepts the expressions of the estate. -/
  compiler : CelCompiler
  typechecks : ∀ e ∈ exprs, compiler.issues e.src = false
  /-- What the compiler makes of the policy files. -/
  sets : List PolicySet
  compiled : policies.map (fun p => compileResourcePolicySet compiler
    [commonErpRoles.map Cel.Expr.src] (p.map Cel.Expr.src)) = sets.map .ok
  load : ∃ pss : List PolicySet, pss.Perm sets ∧
    RuleTable.fromPolicies externals pss = some table.toRuleTable
  separates : SeparatesRows externals (RuleTable.rowsOf sets)
  /-- CEL computes the documented meaning of the expressions. -/
  evaluates : Cel.Evaluates cel exprs
  /-- The default.  Strict evaluation denies an action when a rule for it raises an error. -/
  lenient : evalParams.strictEvaluation = false
  /-- The default version of a configuration is never empty. -/
  defaultPolicyVersion_ne : evalParams.defaultPolicyVersion ≠ ""
  schema : toCheckEnv.SchemaPasses

namespace Engine

variable {V : Type} (eng : Engine V) {input : CheckInput}

/-- The compiler makes the flat policies of the files. -/
theorem sets_eq : eng.sets = (flatPolicies eng.compiler).map policySet := by
  have hmap : policies.map (fun p => compileResourcePolicySet eng.compiler
      [commonErpRoles.map Cel.Expr.src] (p.map Cel.Expr.src)) =
      ((flatPolicies eng.compiler).map policySet).map .ok := by
    exact map_congr_left (fun p hp =>
      compile_eq eng.compiler commonErpRoles_flat (policies_flat hp) eng.typechecks)
  exact map_injective_iff.mpr (fun _ _ h => Except.ok.inj h) (eng.compiled.symm.trans hmap)

theorem flatLoad : FlatLoad eng.externals eng.compiler.checked (flatPolicies eng.compiler)
    eng.table.toRuleTable where
  policies := by
    intro fp hfp
    obtain ⟨p, hp, rfl⟩ := mem_map.mp hfp
    exact flatPolicy_ok eng.compiler eng.typechecks exprs_texts commonErpRoles_flat
      (policies_flat hp)
  resources := by
    exact resources_nodup
  load := by
    rw [← eng.sets_eq]
    exact eng.load
  separates := by
    unfold rowsOf
    rw [← eng.sets_eq]
    exact eng.separates

/-- The truth of an expression for a request. -/
def truth (input : CheckInput) (e : Cel.Expr) : Bool := e.holds (checkInputToRequest input)

/-- Every leaf of a row is the compiled form of an expression of the estate. -/
theorem exists_leaf {row : RuleRow} (hrow : row ∈ rowsOf (flatPolicies eng.compiler))
    {e : Expr} (he : e ∈ row.leaves) : ∃ e' ∈ exprs, e = compileLeaf eng.compiler e' := by
  have hcond : ∀ cond : Option (Source.Match Cel.Expr), (∀ e ∈ Source.optLeaves cond, e ∈ exprs) →
      e ∈ optLeaves (compiledCondition eng.compiler cond) →
      ∃ e' ∈ exprs, e = compileLeaf eng.compiler e' := by
    intro cond hsub he
    rw [optLeaves_compiledCondition] at he
    obtain ⟨e', he', rfl⟩ := mem_map.mp he
    exact ⟨e', hsub e' he', rfl⟩
  obtain ⟨fp, hfp, rule, hrule, hyields⟩ :=
    (mem_rowsOf_iff eng.flatLoad.policies row).mp hrow
  obtain ⟨p, hp, rfl⟩ := mem_map.mp hfp
  obtain ⟨i, hi, rfl⟩ := mem_mapIdx.mp hrule
  have hleaves := (policies_flat hp).leaves _ (getElem_mem hi)
  cases hyields with
  | role =>
    rcases mem_append.mp he with he | he
    · exact hcond _ hleaves he
    · exact (not_mem_nil he).elim
  | @derived _ dr _ rdr _ _ hl _ =>
    rcases mem_append.mp he with he | he
    · exact hcond _ hleaves he
    · obtain ⟨_, _, heq, -⟩ := lookup_eq_some_iff.mp hl
      have hmem : (dr, rdr) ∈ (flatPolicy eng.compiler commonErpRoles p).derivedRoles := by
        rw [heq]
        exact mem_append_right _ mem_cons_self
      obtain ⟨d, hd, hrdr⟩ := exists_definition_of_mem eng.compiler commonErpRoles_flat
        (policies_flat hp) hmem
      have he' : e ∈ optLeaves rdr.condition := he
      rw [show rdr = compiledRoleDef eng.compiler commonErpRoles d from hrdr] at he'
      exact hcond _ (commonErpRoles_flat.leaves d hd) he'

theorem flatRequest (hkind : input.resource.kind ≠ "") :
    eng.toCheckEnv.FlatRequest eng.compiler.checked (flatPolicies eng.compiler) input
      (truthOf exprs (truth input)) where
  load := eng.flatLoad
  lenient := eng.lenient
  schema := eng.schema
  version_ne := by
    unfold CheckEnv.resourceVersion CheckEnv.policyVersion
    split
    · exact eng.defaultPolicyVersion_ne
    next hne => exact hne
  kind_ne := hkind
  leaves := by
    intro row hrow e he ec hreq hec constants vars
    obtain ⟨e', he', rfl⟩ := eng.exists_leaf hrow he
    rw [truthOf_compileLeaf exprs_texts he',
      eng.evaluates.evaluateBoolCELExpr he' hec rfl constants vars, hreq]
    rfl

/-- **What check decides on a kind that turns on tenancy**: ALLOW iff the request gets to the
policies and the policy file of the kind permits the action to some role of the principal. -/
theorem checkedEffect_eq {p : Policy} (hp : p ∈ tenantPolicies)
    (hkind : input.resource.kind = p.resource) {action : String} (ha : action ∈ input.actions) :
    eng.toCheckEnv.checkedEffect input action = some
      (if eng.toCheckEnv.reachesRoot input && input.principal.roles.any
          (p.permits (truth input) commonErpRoles action) then .allow else .deny) := by
  have hmem : p ∈ policies := mem_append_left _ hp
  have hkind_ne : input.resource.kind ≠ "" := by
    intro he
    have hresource := (policies_flat hmem).resource_ne
    rw [← hkind, he] at hresource
    exact hresource rfl
  have hcovers : (flatPolicy eng.compiler commonErpRoles p).covers p.resource = true := by
    unfold covers
    rw [Bool.or_eq_true, beq_iff_eq, beq_iff_eq]
    exact Or.inr rfl
  have honly : ∀ q ∈ policies,
      (flatPolicy eng.compiler commonErpRoles q).covers p.resource = true → q = p := by
    intro q hq h
    unfold covers at h
    rw [Bool.or_eq_true, beq_iff_eq, beq_iff_eq] at h
    exact inj_on_of_nodup_map resources_nodup hq hmem
      (h.resolve_left (sanitizedResource_ne p hmem q hq))
  have hpermits : ∀ role, permits eng.externals (truthOf exprs (truth input))
      (flatPolicies eng.compiler) p.resource action role =
      p.permits (truth input) commonErpRoles action role :=
    permits_flatPolicy exprs_texts commonErpRoles_flat (policies_flat hmem)
      (tenantPolicies_literal hp) eng.externals hmem hcovers honly action
  rw [(eng.flatRequest hkind_ne).checkedEffect_flat ha, hkind]
  have hany : input.principal.roles.any (permits eng.externals
      (truthOf exprs (truth input)) (flatPolicies eng.compiler) p.resource action) =
      input.principal.roles.any (p.permits (truth input) commonErpRoles action) :=
    any_congr rfl (fun role => hpermits role)
  rw [hany]

end Engine

/-! ## §3. A concrete engine. -/

/-- A row up to its functional part: the leaves of its two conditions, where it has them, and
its effect. -/
structure Signature where
  action : String
  condition : Option (List Cel.Expr)
  derivedCondition : Option (List Cel.Expr)
  effect : Effect
  deriving DecidableEq

def Signature.tokens (c : CelCompiler) (s : Signature) : Tokens :=
  .text s.action :: (s.condition.getD []).flatMap (fun e => (compileLeaf c e).tokens)
    ++ (s.derivedCondition.getD []).flatMap (fun e => (compileLeaf c e).tokens)
    ++ [.varint s.effect.number, .varint ScopePermissions.overrideParent.number]
    ++ [.varint Kind.resource.number, .varint 0]
    ++ [.varint (s.condition.isSome.toNat + 2 * s.derivedCondition.isSome.toNat)]

def leavesOf (cond : Option (Source.Match Cel.Expr)) : Option (List Cel.Expr) :=
  cond.map Source.Match.leaves

/-- The signatures of a rule, for an action: one for its roles and one for each derived role. -/
def ruleSignatures (rule : Source.ResourceRule Cel.Expr) (action : String) : List Signature :=
  ⟨action, leavesOf rule.condition, none, rule.effect⟩ ::
    rule.derivedRoles.filterMap (fun name => (commonErpRoles.definition name).map
      (fun d => ⟨action, leavesOf rule.condition, leavesOf d.condition, rule.effect⟩))

/-- The signatures of the estate. -/
def signatures : List Signature :=
  (policies.flatMap (fun p => p.rules.flatMap (fun rule =>
    rule.actions.flatMap (ruleSignatures rule)))).eraseDups

section Separates

variable (c : CelCompiler)

variable (cond : Option (Source.Match Cel.Expr))

theorem optTokens_compiled : optTokens Condition.tokens (compiledCondition c cond) =
      ((leavesOf cond).getD []).flatMap (fun e => (compileLeaf c e).tokens) := by
  rw [optTokens_eq_leaves, optLeaves_compiledCondition, flatMap_map]
  rfl

theorem isSome_compiled : (compiledCondition c cond).isSome = (leavesOf cond).isSome := by
  cases cond <;> rfl

/-- The functional part of a row is that of a signature. -/
theorem exists_signature (hc : ∀ e ∈ exprs, c.issues e.src = false) {row : RuleRow}
    (hrow : row ∈ rowsOf (flatPolicies c)) :
    ∃ s ∈ signatures, row.functionalTokens = s.tokens c := by
  have hok : ∀ fp ∈ flatPolicies c, fp.Ok c.checked := by
    intro fp hfp
    obtain ⟨p, hp, rfl⟩ := mem_map.mp hfp
    exact flatPolicy_ok c hc exprs_texts commonErpRoles_flat (policies_flat hp)
  obtain ⟨fp, hfp, rule', hrule', hyields⟩ := (mem_rowsOf_iff hok row).mp hrow
  obtain ⟨p, hp, rfl⟩ := mem_map.mp hfp
  obtain ⟨i, hi, rfl⟩ := mem_mapIdx.mp hrule'
  have hrule := getElem_mem hi
  have hmem : ∀ a ∈ (compiledRule c i p.rules[i]).actions, ∀ s ∈ ruleSignatures p.rules[i] a,
      s ∈ signatures := by
    intro a ha s hs
    unfold signatures
    rw [mem_eraseDups]
    exact mem_flatMap.mpr ⟨p, hp, mem_flatMap.mpr ⟨_, hrule,
      mem_flatMap.mpr ⟨a, mem_eraseDups.mp ha, hs⟩⟩⟩
  cases hyields with
  | @role action _ ha =>
    refine ⟨_, hmem action ha _ mem_cons_self, ?_⟩
    show [Token.text action] ++ optTokens Condition.tokens
      (compiledCondition c p.rules[i].condition) ++ [] ++ _ ++ [] ++ [] ++ [] ++ _ ++
      [Token.varint ((compiledCondition c p.rules[i].condition).isSome.toNat + _)] = _
    rw [optTokens_compiled, isSome_compiled]
    unfold Signature.tokens
    simp only [Option.getD_none, flatMap_nil, append_nil]
    rfl
  | @derived action dr _ rdr ha hdr hl _ =>
    replace hdr : dr ∈ p.rules[i].derivedRoles := mem_eraseDups.mp hdr
    rw [lookup_derivedRoles c commonErpRoles_flat (policies_flat hp) hrule hdr] at hl
    obtain ⟨d, hd, rfl⟩ := Option.map_eq_some_iff.mp hl
    refine ⟨⟨action, leavesOf p.rules[i].condition, leavesOf d.condition, p.rules[i].effect⟩,
      hmem action ha _ (mem_cons_of_mem _ (mem_filterMap.mpr ⟨dr, hdr, by rw [hd]; rfl⟩)), ?_⟩
    show [Token.text action] ++ optTokens Condition.tokens
      (compiledCondition c p.rules[i].condition) ++ optTokens Condition.tokens
      (compiledCondition c d.condition) ++ _ ++ [] ++ [] ++ [] ++ _ ++
      [Token.varint ((compiledCondition c p.rules[i].condition).isSome.toNat +
        2 * (compiledCondition c d.condition).isSome.toNat)] = _
    rw [optTokens_compiled, optTokens_compiled, isSome_compiled, isSome_compiled]
    simp only [append_nil]
    rfl

/-- A hash function that tells the signatures apart tells the rows apart. -/
theorem separatesRows_of_signatures (hc : ∀ e ∈ exprs, c.issues e.src = false) (x : Externals)
    (hnodup : (signatures.map (fun s => x.hasher.sum (s.tokens c))).Nodup) :
    SeparatesRows x (rowsOf (flatPolicies c)) := by
  intro row hrow row' hrow' hsum
  obtain ⟨s, hs, htokens⟩ := exists_signature c hc hrow
  obtain ⟨s', hs', htokens'⟩ := exists_signature c hc hrow'
  unfold RuleRow.funcSum at hsum
  rw [htokens, htokens'] at hsum ⊢
  rw [inj_on_of_nodup_map hnodup hs hs' hsum]

end Separates

/-- A type checker that accepts everything. -/
def sampleCompiler : CelCompiler where
  issues := fun _ => false
  checked := fun _ => []

def sampleSets : List PolicySet := (flatPolicies sampleCompiler).map policySet

theorem sample_separates : SeparatesRows Externals.sample (RuleTable.rowsOf sampleSets) :=
  separatesRows_of_signatures sampleCompiler (fun _ _ => rfl) Externals.sample (by decide +kernel)

theorem sample_separates_reverse :
    SeparatesRows Externals.sample (RuleTable.rowsOf sampleSets).reverse :=
  fun row hrow row' hrow' => sample_separates row (mem_reverse.mp hrow) row'
    (mem_reverse.mp hrow')

theorem sample_flat : ∀ row ∈ RuleTable.rowsOf sampleSets, row.Flat sampleCompiler.checked := by
  intro row hrow
  have hok : ∀ fp ∈ flatPolicies sampleCompiler, fp.Ok sampleCompiler.checked := by
    intro fp hfp
    obtain ⟨p, hp, rfl⟩ := mem_map.mp hfp
    exact flatPolicy_ok sampleCompiler (fun _ _ => rfl) exprs_texts commonErpRoles_flat
      (policies_flat hp)
  obtain ⟨fp, hfp, rule, hrule, hyields⟩ := (mem_rowsOf_iff hok row).mp hrow
  exact hyields.flat (hok fp hfp) hrule

theorem sample_loads : (RuleTable.fromPolicies Externals.sample sampleSets).isSome = true := by
  have hperm : ∀ row ∈ RuleTable.rowsOf sampleSets,
      row.scopePermissions.normalise = ScopePermissions.overrideParent := by
    intro row hrow
    rw [(sample_flat row hrow).scopePermissions]
    rfl
  obtain ⟨t, ht⟩ := RuleTable.exists_fromPolicies
    (fun row hrow => (sample_flat row hrow).noVariables) hperm
  rw [ht]
  rfl

def sampleTable : LoadedTable Externals.sample :=
  LoadedTable.ofPolicies Externals.sample sampleSets sample_loads sample_separates_reverse

theorem sample_typechecks : ∀ e ∈ exprs, sampleCompiler.issues e.src = false := fun _ _ => rfl

theorem sample_schema : CheckEnv.SchemaPasses
    { CheckEnv.sample sampleTable (fun _ _ => false) with cel := Cel.runtime exprs } :=
  fun _ _ => rfl

theorem sample_compiled : policies.map (fun p => compileResourcePolicySet sampleCompiler
    [commonErpRoles.map Cel.Expr.src] (p.map Cel.Expr.src)) = sampleSets.map .ok := by
  exact map_congr_left (fun p hp =>
    compile_eq sampleCompiler commonErpRoles_flat (policies_flat hp) (fun _ _ => rfl))

theorem defaultVersion_ne : Namer.defaultVersion ≠ "" := by decide

/-- An engine with a concrete hash function and a CEL runtime that knows the expressions of the
estate. -/
def sampleEngine : Engine Bool where
  toCheckEnv := { CheckEnv.sample sampleTable (fun _ _ => false) with cel := Cel.runtime exprs }
  compiler := sampleCompiler
  typechecks := sample_typechecks
  sets := sampleSets
  compiled := sample_compiled
  load := ⟨sampleSets, List.Perm.refl _,
    LoadedTable.fromPolicies_eq sample_loads sample_separates_reverse⟩
  separates := sample_separates
  evaluates := Cel.runtime_evaluates exprs_texts.distinct
  lenient := rfl
  defaultPolicyVersion_ne := defaultVersion_ne
  schema := sample_schema

end AccessManagement.Estate
