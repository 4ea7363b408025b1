/-
  AccessManagement.Check.Source — WHAT CHECK DECIDES, READ OFF THE POLICY FILES.

  A policy file whose conditions are conjunctions compiles to a flat policy (`compile_eq`), and
  a compiled rule fires exactly when the rule of the file does (`fires_eq`).  So the decision on
  flat policies can be stated over the files: `permits` below mentions neither rows nor
  bindings nor compiled expressions.

  Actions and roles have to be LITERAL: not empty, and not patterns.
-/
import AccessManagement.Cel.Expr
import AccessManagement.Check.Flat
import AccessManagement.Policy.Compile

namespace AccessManagement

variable {exprs : List Cel.Expr} {p : Source.ResourcePolicy Cel.Expr}

open Lib List FlatPolicy
open Cel.Expr (src)

/-! ## §1. Conditions of a policy file. -/

namespace Source

variable {ε : Type}

mutual

/-- The expressions of a condition, from left to right. -/
def Match.leaves : Match ε → List ε
  | .expr e => [e]
  | .all ms => Match.listLeaves ms
  | .any ms => Match.listLeaves ms
  | .none ms => Match.listLeaves ms

def Match.listLeaves : List (Match ε) → List ε
  | [] => []
  | m :: ms => m.leaves ++ Match.listLeaves ms

end

mutual

/-- Is the condition made of expressions and `all` only? -/
def Match.isConjunction : Match ε → Bool
  | .expr _ => true
  | .all ms => Match.areConjunctions ms
  | .any _ => false
  | .none _ => false

def Match.areConjunctions : List (Match ε) → Bool
  | [] => true
  | m :: ms => m.isConjunction && Match.areConjunctions ms

end

/-- The leaves of a condition that may be absent. -/
def optLeaves (cond : Option (Match ε)) : List ε := (cond.map Match.leaves).getD []

/-- An absent condition counts as a conjunction. -/
def optIsConjunction (cond : Option (Match ε)) : Bool :=
  (cond.map Match.isConjunction).getD true

end Source

section CompileMatch

variable (c : CelCompiler)

/-- A leaf of a policy file, compiled. -/
def compileLeaf (e : Cel.Expr) : Expr := compileCELExpr c e.src

mutual

/-- Compilation keeps the shape of a condition, and reports nothing if no leaf has issues. -/
theorem compileMatch_spec : ∀ m : Source.Match Cel.Expr,
    (compileMatch c (m.map src)).leaves = m.leaves.map (compileLeaf c) ∧
    (compileMatch c (m.map src)).isConjunction = m.isConjunction ∧
    ((∀ e ∈ m.leaves, c.issues e.src = false) → matchErrors c (m.map src) = [])
  | .expr e => by
    simp [Source.Match.map, compileMatch, Condition.leaves, Source.Match.leaves, compileLeaf,
      Condition.isConjunction, Source.Match.isConjunction, matchErrors, exprErrors]
  | .all ms => by
    simpa only [Source.Match.map, compileMatch, Condition.leaves, Source.Match.leaves,
      Condition.isConjunction, Source.Match.isConjunction, matchErrors] using compileMatchList_spec ms
  | .any ms | .none ms => by
    obtain ⟨hleaves, -, herr⟩ := compileMatchList_spec ms
    simp only [Source.Match.map, compileMatch, Condition.leaves, Source.Match.leaves, hleaves,
      Condition.isConjunction, Source.Match.isConjunction, matchErrors, true_and]
    exact herr

theorem compileMatchList_spec : ∀ ms : List (Source.Match Cel.Expr),
    Condition.listLeaves (compileMatchList c (Source.Match.mapList src ms)) =
      (Source.Match.listLeaves ms).map (compileLeaf c) ∧
    Condition.areConjunctions (compileMatchList c (Source.Match.mapList src ms)) =
      Source.Match.areConjunctions ms ∧
    ((∀ e ∈ Source.Match.listLeaves ms, c.issues e.src = false) →
      matchListErrors c (Source.Match.mapList src ms) = [])
  | [] => by
    simp [Source.Match.mapList, compileMatchList, Condition.listLeaves, Source.Match.listLeaves,
      Condition.areConjunctions, Source.Match.areConjunctions, matchListErrors]
  | m :: ms => by
    obtain ⟨hleaves, hconj, herr⟩ := compileMatch_spec m
    obtain ⟨hleaves', hconj', herrors'⟩ := compileMatchList_spec ms
    simp only [Source.Match.mapList, compileMatchList, Condition.listLeaves,
      Source.Match.listLeaves, Condition.areConjunctions, Source.Match.areConjunctions,
      matchListErrors, hleaves, hleaves', hconj, hconj', List.map_append, List.forall_mem_append,
      true_and]
    exact fun h => List.append_eq_nil_iff.mpr ⟨herr h.1, herrors' h.2⟩

end

variable (cond : Option (Source.Match Cel.Expr))

/-- The compiled form of a condition of a policy file. -/
def compiledCondition : Option Condition :=
  compileCondition c (cond.map (Source.Match.map src))

theorem optLeaves_compiledCondition :
    optLeaves (compiledCondition c cond) = (Source.optLeaves cond).map (compileLeaf c) := by
  cases cond with
  | none => rfl
  | some m => exact (compileMatch_spec c m).1

theorem conditionErrors_eq_nil {cond : Option (Source.Match Cel.Expr)}
    (h : ∀ e ∈ Source.optLeaves cond, c.issues e.src = false) :
    conditionErrors c (cond.map (Source.Match.map src)) = [] := by
  cases cond with
  | none => rfl
  | some m => exact (compileMatch_spec c m).2.2 h

end CompileMatch

/-! ## §2. Policy files that compile to flat policies. -/

namespace Source

/-- What is required of the texts of the expressions in use. -/
structure Texts (exprs : List Cel.Expr) : Prop where
  distinct : (exprs.map src).Nodup
  four_le : ∀ e ∈ exprs, 4 ≤ e.src.utf8ByteSize
  lt_size : ∀ e ∈ exprs, e.src.utf8ByteSize < 2 ^ 64

/-- A set of derived roles with conjunctions of the given expressions as conditions. -/
structure FlatRoles (exprs : List Cel.Expr) (dr : DerivedRoles Cel.Expr) : Prop where
  names : (dr.definitions.map (·.name)).Nodup
  conditions : ∀ d ∈ dr.definitions, optIsConjunction d.condition = true
  leaves : ∀ d ∈ dr.definitions, ∀ e ∈ optLeaves d.condition, e ∈ exprs

/-- A policy of the default version in the root scope, with conjunctions of the given
expressions as conditions, that imports one set of derived roles. -/
structure Flat (exprs : List Cel.Expr) (dr : DerivedRoles Cel.Expr)
    (p : ResourcePolicy Cel.Expr) : Prop where
  version : p.version = Namer.defaultVersion
  scope : p.scope = ""
  scopePermissions : p.scopePermissions.normalise = .overrideParent
  imports : p.importDerivedRoles = [dr.name]
  resource_ne : Namer.sanitizedResource p.resource ≠ ""
  resource_literal : isGlob (Namer.sanitizedResource p.resource) = false
  rules_ne : p.rules ≠ []
  actions : ∀ rule ∈ p.rules, ∀ a ∈ rule.actions, a.utf8ByteSize < 2 ^ 64
  names : (p.rules.mapIdx (fun i rule => Namer.resourceRuleName rule.name (i + 1))).Nodup
  roles : ∀ rule ∈ p.rules, (rule.derivedRoles.isEmpty && rule.roles.isEmpty) = false
  defined : ∀ rule ∈ p.rules, ∀ n ∈ rule.derivedRoles, n ∈ dr.definitions.map (·.name)
  conditions : ∀ rule ∈ p.rules, optIsConjunction rule.condition = true
  leaves : ∀ rule ∈ p.rules, ∀ e ∈ optLeaves rule.condition, e ∈ exprs

end Source

/-- The definition of a derived role. -/
def Source.DerivedRoles.definition {ε : Type} (dr : Source.DerivedRoles ε) (name : String) :
    Option (Source.RoleDef ε) :=
  dr.definitions.find? (fun d => d.name == name)

section CompilePolicy

variable (c : CelCompiler) (dr : Source.DerivedRoles Cel.Expr)

/-- A definition of a policy file, compiled. -/
def compiledRoleDef (d : Source.RoleDef Cel.Expr) : RunnableDerivedRole :=
  compileRoleDef c dr.name (d.map src)

/-- A rule of a policy file, compiled. -/
def compiledRule (i : Nat) (rule : Source.ResourceRule Cel.Expr) : ResourceRule :=
  compileResourceRule c (rule.map src) (i + 1)

/-- The flat policy that a policy file compiles to. -/
def flatPolicy (p : Source.ResourcePolicy Cel.Expr) : FlatPolicy where
  resource := p.resource
  derivedRoles := referencedRoles c [dr.map src] (p.map src)
  rules := p.rules.mapIdx (compiledRule c)

variable {dr} {rule : Source.ResourceRule Cel.Expr} {name : String}

/-- A set of derived roles is imported under its name. -/
theorem isImportOf_self (dr : Source.DerivedRoles Cel.Expr) :
    isImportOf dr.name (dr.map src) = true :=
  beq_self_eq_true (Namer.derivedRolesFqn dr.name)

theorem importedSets_flat (hp : Source.Flat exprs dr p) :
    importedSets [dr.map src] (p.map src) = [dr.map src] := by
  show p.importDerivedRoles.filterMap _ = _
  rw [hp.imports]
  have hfind : [dr.map src].find? (isImportOf dr.name) = some (dr.map src) :=
    List.find?_cons_of_pos (isImportOf_self dr)
  rw [filterMap_cons, hfind]
  rfl

theorem find?_eq_some_iff_of_nodup {α : Type} {key : α → String} {as : List α} {k : String} {a : α}
    (hnodup : (as.map key).Nodup) :
    as.find? (fun a => key a == k) = some a ↔ a ∈ as ∧ key a = k := by
  constructor
  · intro h
    exact ⟨mem_of_find?_eq_some h, by simpa using List.find?_some h⟩
  · rintro ⟨hmem, rfl⟩
    have hsome : (as.find? (fun b => key b == key a)).isSome = true :=
      List.find?_isSome.mpr ⟨a, hmem, beq_self_eq_true _⟩
    obtain ⟨b, hb⟩ := Option.isSome_iff_exists.mp hsome
    have hkey : key b = key a := by simpa using List.find?_some hb
    rw [hb, inj_on_of_nodup_map hnodup (mem_of_find?_eq_some hb) hmem hkey]

/-- One import defines a role, or none does. -/
theorem roleImports_flat (hdr : Source.FlatRoles exprs dr) (name : String) :
    roleImports c [dr.map src] name =
      ((dr.definition name).map (compiledRoleDef c dr)).toList := by
  have hlookup : (compileDerivedRoles c (dr.map src)).lookup name =
      (dr.definition name).map (compiledRoleDef c dr) := by
    refine Option.ext (fun rdr => ?_)
    refine (lookup_foldl_insert (·.name) _ (dr.map src).definitions
      ∅ ?_ name rdr).trans ?_
    · show ((dr.definitions.map _).map _).Nodup
      rw [map_map]
      exact hdr.names
    · rw [Option.map_eq_some_iff]
      constructor
      · rintro (⟨_, hd', hname, rfl⟩ | ⟨-, h⟩)
        · obtain ⟨d, hd, rfl⟩ := mem_map.mp hd'
          exact ⟨d, (find?_eq_some_iff_of_nodup hdr.names).mpr ⟨hd, hname⟩, rfl⟩
        · cases h
      · rintro ⟨d, hd, rfl⟩
        obtain ⟨hmem, hname⟩ := (find?_eq_some_iff_of_nodup hdr.names).mp hd
        exact .inl ⟨d.map src, mem_map_of_mem hmem, hname, rfl⟩
  unfold roleImports
  rw [filterMap_cons, hlookup]
  cases (dr.definition name).map (compiledRoleDef c dr) <;> rfl

/-- The derived roles that a policy refers to, looked up. -/
theorem lookup_filterMap_pairs {β : Type} (g : String → Option β) (name : String) :
    ∀ names : List String, (names.filterMap (fun n => (g n).map (fun b => (n, b)))).lookup name =
      if name ∈ names then g name else none := by
  intro names
  induction names with
  | nil => rfl
  | cons n _ ih =>
    by_cases hn : name = n
    · subst hn
      cases hg : g name with
      | none => simp [hg, ih]
      | some => simp [hg]
    · cases hg : g n with
      | none => simp [hg, hn, ih]
      | some => simp [hg, hn, ih, lookup_cons, beq_false_of_ne hn]

theorem mem_mentionedRoles (hrule : rule ∈ p.rules) (hname : name ∈ rule.derivedRoles) :
    name ∈ mentionedRoles (p.map src) := by
  unfold mentionedRoles
  rw [mem_eraseDups, mem_flatMap]
  exact ⟨rule.map src, mem_map.mpr ⟨rule, hrule, rfl⟩, hname⟩

variable (hdr : Source.FlatRoles exprs dr) (hp : Source.Flat exprs dr p)

include hdr hp

theorem referencedRoles_flat : referencedRoles c [dr.map src] (p.map src) =
      (mentionedRoles (p.map src)).filterMap (fun name =>
        ((dr.definition name).map (compiledRoleDef c dr)).map (fun rdr => (name, rdr))) := by
  unfold referencedRoles
  rw [importedSets_flat hp]
  refine filterMap_congr (fun name _ => ?_)
  rw [roleImports_flat c hdr]
  cases (dr.definition name).map (compiledRoleDef c dr) <;> rfl

/-- The role that a rule of the policy means by a name. -/
theorem lookup_derivedRoles (hrule : rule ∈ p.rules)
    (hname : name ∈ rule.derivedRoles) : (flatPolicy c dr p).derivedRoles.lookup name =
      (dr.definition name).map (compiledRoleDef c dr) := by
  show (referencedRoles c [dr.map src] (p.map src)).lookup name = _
  rw [referencedRoles_flat c hdr hp, lookup_filterMap_pairs,
    if_pos (mem_mentionedRoles hrule hname)]

theorem exists_definition_of_mem
    {entry : String × RunnableDerivedRole} (h : entry ∈ (flatPolicy c dr p).derivedRoles) :
    ∃ d ∈ dr.definitions, entry.2 = compiledRoleDef c dr d := by
  have h' : entry ∈ referencedRoles c [dr.map src] (p.map src) := h
  rw [referencedRoles_flat c hdr hp, mem_filterMap] at h'
  obtain ⟨name, -, hentry⟩ := h'
  obtain ⟨rdr, hrdr, rfl⟩ := Option.map_eq_some_iff.mp hentry
  obtain ⟨d, hd, rfl⟩ := Option.map_eq_some_iff.mp hrdr
  exact ⟨d, mem_of_find?_eq_some hd, rfl⟩

variable (hc : ∀ e ∈ exprs, c.issues e.src = false)
include hc

theorem importErrors_flat : importErrors c [dr.map src] (p.map src) = [] := by
  unfold importErrors
  rw [importedSets_flat hp]
  refine append_eq_nil_iff.mpr ⟨append_eq_nil_iff.mpr ⟨?_, ?_⟩, ?_⟩
  · show (p.importDerivedRoles.filter _).map _ = _
    rw [hp.imports]
    have hany : ([dr.map src].any (isImportOf dr.name)) = true := by
      rw [any_cons, isImportOf_self, Bool.true_or]
    rw [filter_cons_of_neg (by rw [hany]; decide)]
    rfl
  · rw [flatMap_cons, flatMap_nil, append_nil, flatMap_eq_nil_iff]
    intro d' hd'
    obtain ⟨d, hd, rfl⟩ := mem_map.mp hd'
    exact conditionErrors_eq_nil c (fun e he => hc e (hdr.leaves d hd e he))
  · rw [flatMap_eq_nil_iff]
    intro name hname
    unfold mentionedRoles at hname
    rw [mem_eraseDups, mem_flatMap] at hname
    obtain ⟨rule', hrule', hname⟩ := hname
    obtain ⟨rule, hrule, rfl⟩ := mem_map.mp hrule'
    obtain ⟨d, hd, hdname⟩ := mem_map.mp (hp.defined rule hrule name hname)
    have hsome : (dr.definition name).isSome = true := by
      unfold Source.DerivedRoles.definition
      rw [List.find?_isSome]
      exact ⟨d, hd, by rw [beq_iff_eq]; exact hdname⟩
    obtain ⟨d', hd'⟩ := Option.isSome_iff_exists.mp hsome
    rw [roleImports_flat c hdr, hd']
    rfl

/-- **A flat policy file compiles**, to its flat policy. -/
theorem compile_eq : compileResourcePolicySet c [dr.map src] (p.map src) =
      .ok (flatPolicy c dr p).policySet := by
  have hrules : ((p.map src).rules.mapIdx
      (fun i rule => ruleErrors c rule (i + 1))).flatten = [] := by
    rw [flatten_eq_nil_iff]
    intro errs herrs
    obtain ⟨i, hi, rfl⟩ := mem_mapIdx.mp herrs
    obtain ⟨rule, hrule, heq⟩ := mem_map.mp (getElem_mem hi)
    rw [← heq]
    unfold ruleErrors
    have hroles : ((rule.map src).derivedRoles.isEmpty &&
        (rule.map src).roles.isEmpty) = false := hp.roles rule hrule
    rw [hroles]
    exact conditionErrors_eq_nil c (fun e he => hc e (hp.leaves rule hrule e he))
  have hassembled : assembleResourcePolicy c [dr.map src] (p.map src) =
      (flatPolicy c dr p).policy := by
    unfold assembleResourcePolicy policy flatPolicy
    have hidx : (p.map src).rules.mapIdx
        (fun i rule => compileResourceRule c rule (i + 1)) = p.rules.mapIdx (compiledRule c) := by
      refine ext_getElem? (fun i => ?_)
      show ((p.rules.map (Source.ResourceRule.map src)).mapIdx _)[i]? = _
      rw [List.getElem?_mapIdx, List.getElem?_mapIdx, List.getElem?_map, Option.map_map]
      rfl
    rw [hidx]
    show ResourcePolicy.mk p.scope _ _ p.scopePermissions.normalise _ _ = _
    rw [hp.scope, hp.scopePermissions]
  unfold compileResourcePolicySet compileResourcePolicy
  rw [importErrors_flat c hdr hp hc]
  rw [hrules]
  rw [hassembled]
  show Except.ok (PolicySet.resourcePolicy (Namer.resourcePolicyFqn p.resource p.version p.scope)
    p.resource p.version _) = _
  rw [hp.version, hp.scope]
  rfl

omit hdr hp

theorem readable_compileLeaf (ht : Source.Texts exprs) {e : Cel.Expr} (he : e ∈ exprs) :
    (compileLeaf c e).Readable c.checked where
  checked_eq := by
    show (if c.issues e.src then none else some (c.checked e.src)) = _
    rw [hc e he]
    rfl
  four_le := ht.four_le e he
  lt_size := ht.lt_size e he

theorem readableConjunction_compiled (ht : Source.Texts exprs)
    {cond : Option (Source.Match Cel.Expr)} (hconj : Source.optIsConjunction cond = true)
    (hleaves : ∀ e ∈ Source.optLeaves cond, e ∈ exprs) :
    ReadableConjunction c.checked (compiledCondition c cond) := by
  cases cond with
  | none => intro _ hcond; exact nomatch hcond
  | some m =>
    intro cond' hcond
    obtain rfl : compileMatch c _ = cond' := Option.some.inj hcond
    refine ⟨(compileMatch_spec c m).2.1.trans hconj, fun e' he' => ?_⟩
    rw [(compileMatch_spec c m).1] at he'
    obtain ⟨e, he, rfl⟩ := mem_map.mp he'
    exact readable_compileLeaf c hc ht (hleaves e he)

/-- **The flat policy of a policy file is as required.** -/
theorem flatPolicy_ok (ht : Source.Texts exprs) (hdr : Source.FlatRoles exprs dr)
    (hp : Source.Flat exprs dr p) : (flatPolicy c dr p).Ok c.checked := by
  have hmem : ∀ rule ∈ (flatPolicy c dr p).rules,
      ∃ i, ∃ src ∈ p.rules, rule = compiledRule c i src := by
    intro rule hrule
    obtain ⟨i, hi, rfl⟩ := mem_mapIdx.mp hrule
    exact ⟨i, _, getElem_mem hi, rfl⟩
  exact {
    resource_ne := hp.resource_ne
    resource_literal := hp.resource_literal
    rules_ne := fun hnil => hp.rules_ne (mapIdx_eq_nil_iff.mp hnil)
    names := by
      have heq : (flatPolicy c dr p).rules.map (·.name) =
          p.rules.mapIdx (fun i rule => Namer.resourceRuleName rule.name (i + 1)) := by
        refine ext_getElem? (fun i => ?_)
        show ((p.rules.mapIdx (compiledRule c)).map _)[i]? = _
        rw [List.getElem?_map, List.getElem?_mapIdx, List.getElem?_mapIdx, Option.map_map]
        rfl
      rw [heq]
      exact hp.names
    actions := by
      intro rule hrule a ha
      obtain ⟨i, src, hsrc, rfl⟩ := hmem rule hrule
      exact hp.actions src hsrc a (mem_eraseDups.mp ha)
    outputs := by
      intro rule hrule
      obtain ⟨i, src, -, rfl⟩ := hmem rule hrule
      exact ⟨rfl, rfl⟩
    conditions := by
      intro rule hrule
      obtain ⟨i, src, hsrc, rfl⟩ := hmem rule hrule
      exact readableConjunction_compiled c hc ht (hp.conditions src hsrc) (hp.leaves src hsrc)
    derivedConditions := by
      intro entry hentry
      obtain ⟨d, hd, heq⟩ := exists_definition_of_mem c hdr hp hentry
      rw [heq]
      exact readableConjunction_compiled c hc ht (hdr.conditions d hd) (hdr.leaves d hd)
    derivedVariables := by
      intro entry hentry
      obtain ⟨d, -, heq⟩ := exists_definition_of_mem c hdr hp hentry
      rw [heq]
      exact ⟨rfl, rfl⟩ }

end CompilePolicy

/-! ## §3. Rules of a policy file that fire. -/

namespace Source

section Fires

variable (truth : Cel.Expr → Bool) (dr : DerivedRoles Cel.Expr)

def condHolds (cond : Option (Match Cel.Expr)) : Bool := (optLeaves cond).all truth

/-- Is the rule about the action?  The empty action is not restricted. -/
def ResourceRule.forAction (rule : ResourceRule Cel.Expr) (action : String) : Bool :=
  action == "" || rule.actions.contains action

/-- Is the rule about the role: directly, or through a derived role that holds? -/
def ResourceRule.forRole (rule : ResourceRule Cel.Expr) (role : String) : Bool :=
  rule.roles.contains role || rule.derivedRoles.any (fun name =>
      match dr.definition name with
      | none => false
      | some d => d.parentRoles.contains role && condHolds truth d.condition)

/-- **A rule fires** for an action and a role. -/
def ResourceRule.fires (rule : ResourceRule Cel.Expr) (action role : String) : Bool :=
  rule.forAction action && rule.forRole truth dr role && condHolds truth rule.condition

/-- Does a rule with the effect fire? -/
def ResourcePolicy.someFires (p : ResourcePolicy Cel.Expr) (action role : String) (e : Effect) :
    Bool :=
  p.rules.any (fun rule => decide (rule.effect = e) && rule.fires truth dr action role)

/-- Is the action allowed for the role? -/
def ResourcePolicy.permits (p : ResourcePolicy Cel.Expr) (action role : String) : Bool :=
  p.someFires truth dr action role .allow && !p.someFires truth dr action role .deny

end Fires

/-- A name that is neither empty nor a pattern. -/
def literal (s : String) : Bool := s != "" && !isGlob s

/-- A policy that names its actions and roles, and whose derived roles name theirs. -/
structure Literal (dr : DerivedRoles Cel.Expr) (p : ResourcePolicy Cel.Expr) : Prop where
  actions_ne : ∀ rule ∈ p.rules, rule.actions ≠ []
  actions : ∀ rule ∈ p.rules, ∀ a ∈ rule.actions, literal a = true
  roles : ∀ rule ∈ p.rules, ∀ r ∈ rule.roles, literal r = true
  parentRoles : ∀ d ∈ dr.definitions, ∀ r ∈ d.parentRoles, literal r = true

theorem keyMatches_of_literal (x : Externals) {key : String} (h : literal key = true)
    (value : String) : Index.keyMatches x key value = (key == value) := by
  unfold literal at h
  rw [Bool.and_eq_true, bne_iff_ne, Bool.not_eq_true'] at h
  unfold Index.keyMatches
  rw [h.2, if_neg Bool.false_ne_true, decide_eq_true h.1, Bool.true_and]

theorem any_keyMatches_of_literal (x : Externals) {keys : List String}
    (h : ∀ k ∈ keys, literal k = true) (value : String) :
    keys.any (fun k => Index.keyMatches x k value) = keys.contains value := by
  rw [Bool.eq_iff_iff, any_eq_true, contains_iff_mem]
  constructor
  · rintro ⟨k, hk, hmatch⟩
    rw [keyMatches_of_literal x (h k hk), beq_iff_eq] at hmatch
    exact hmatch ▸ hk
  · intro hv
    exact ⟨value, hv, by rw [keyMatches_of_literal x (h value hv), beq_self_eq_true]⟩

theorem any_eraseDups (f : String → Bool) (l : List String) : l.eraseDups.any f = l.any f := by
  rw [Bool.eq_iff_iff, any_eq_true, any_eq_true]
  simp only [mem_eraseDups]

/-- Literal roles are kept by the compiler, without repetitions. -/
theorem roleSet_of_literal {roles : List String} (h : ∀ r ∈ roles, literal r = true) :
    roleSet roles = roles.eraseDups := by
  refine if_neg (fun hstar => ?_)
  have hlit := h "*" (contains_iff_mem.mp hstar)
  exact absurd hlit (by decide)

end Source

/-! ## §4. A compiled rule fires when the rule of the file does. -/

/-- The truth of a compiled expression: that of the expression with its text. -/
def truthOf (exprs : List Cel.Expr) (truth : Cel.Expr → Bool) (e : Expr) : Bool :=
  exprs.any (fun e' => e'.src == e.original && truth e')

section Transfer

variable {c : CelCompiler} {truth : Cel.Expr → Bool} {dr : Source.DerivedRoles Cel.Expr}

theorem truthOf_compileLeaf (ht : Source.Texts exprs) {e : Cel.Expr} (he : e ∈ exprs) :
    truthOf exprs truth (compileLeaf c e) = truth e := by
  have horiginal : (compileLeaf c e).original = e.src := rfl
  unfold truthOf
  rw [Bool.eq_iff_iff, any_eq_true, horiginal]
  constructor
  · rintro ⟨e', he', h⟩
    rw [Bool.and_eq_true, beq_iff_eq] at h
    rw [← inj_on_of_nodup_map ht.distinct he' he h.1]
    exact h.2
  · intro h
    exact ⟨e, he, by rw [h, beq_self_eq_true]; rfl⟩

theorem condHolds_compiled (ht : Source.Texts exprs) {cond : Option (Source.Match Cel.Expr)}
    (hleaves : ∀ e ∈ Source.optLeaves cond, e ∈ exprs) :
    condHolds (truthOf exprs truth) (compiledCondition c cond) = Source.condHolds truth cond := by
  unfold condHolds Source.condHolds
  rw [optLeaves_compiledCondition, all_map, Bool.eq_iff_iff, all_eq_true, all_eq_true]
  refine forall₂_congr (fun e he => ?_)
  show truthOf exprs truth (compileLeaf c e) = true ↔ _
  rw [truthOf_compileLeaf ht (hleaves e he)]

variable (ht : Source.Texts exprs) (hdr : Source.FlatRoles exprs dr) (hp : Source.Flat exprs dr p)
  (hl : Source.Literal dr p) (x : Externals)
include ht hdr hp hl

/-- **A compiled rule fires exactly when the rule of the file does.** -/
theorem fires_compiledRule {rule : Source.ResourceRule Cel.Expr} (hrule : rule ∈ p.rules) (i : Nat)
    (action role : String) :
    (flatPolicy c dr p).fires x (truthOf exprs truth) (compiledRule c i rule) action role =
      rule.fires truth dr action role := by
  have haction : forAction x (compiledRule c i rule) action = rule.forAction action := by
    show rule.actions.eraseDups.any (fun a => action == "" || Index.keyMatches x a action) = _
    unfold Source.ResourceRule.forAction
    rw [Source.any_eraseDups]
    by_cases he : action = ""
    · -- the empty action is about every rule, and every rule has an action
      obtain ⟨a, as, has⟩ := exists_cons_of_ne_nil (hl.actions_ne rule hrule)
      rw [he, has]
      rfl
    · rw [beq_false_of_ne he, ← Source.any_keyMatches_of_literal x
        (hl.actions rule hrule)]
      rfl
  have hroles : ∀ {roles : List String}, (∀ r ∈ roles, Source.literal r = true) →
      (roleSet roles).any (fun r => Index.keyMatches x r role) = roles.contains role := by
    intro roles hlit
    rw [Source.roleSet_of_literal hlit, Source.any_eraseDups,
      Source.any_keyMatches_of_literal x hlit]
  have hrole : forRole x (truthOf exprs truth) (flatPolicy c dr p)
      (compiledRule c i rule) role = rule.forRole truth dr role := by
    show ((roleSet rule.roles).any _ || rule.derivedRoles.eraseDups.any _) = _
    rw [hroles (hl.roles rule hrule), Source.any_eraseDups]
    congr 1
    rw [Bool.eq_iff_iff, any_eq_true, any_eq_true]
    refine exists_congr (fun name => and_congr_right (fun hname => ?_))
    rw [lookup_derivedRoles c hdr hp hrule hname]
    cases hd : dr.definition name with
    | none => rfl
    | some d =>
      have hmem : d ∈ dr.definitions := mem_of_find?_eq_some hd
      show ((roleSet d.parentRoles).any _ &&
        condHolds _ (compiledCondition c d.condition)) = true ↔ _
      rw [hroles (hl.parentRoles d hmem), condHolds_compiled ht (hdr.leaves d hmem)]
  have hcond : condHolds (truthOf exprs truth) (compiledRule c i rule).condition =
      Source.condHolds truth rule.condition := condHolds_compiled ht (hp.leaves rule hrule)
  unfold fires Source.ResourceRule.fires
  rw [haction, hrole, hcond]

/-- Where one policy of many covers a kind, the kind's decisions are those of its file. -/
theorem permits_flatPolicy {ps : List (Source.ResourcePolicy Cel.Expr)} (hmem : p ∈ ps)
    {kind : String} (hcovers : (flatPolicy c dr p).covers kind = true)
    (honly : ∀ q ∈ ps, (flatPolicy c dr q).covers kind = true → q = p) (action role : String) :
    permits x (truthOf exprs truth) (ps.map (flatPolicy c dr)) kind action role =
      p.permits truth dr action role := by
  have hfires : ∀ e, someFires x (truthOf exprs truth) (ps.map (flatPolicy c dr)) kind
      action role e = p.someFires truth dr action role e := by
    intro e
    unfold someFires Source.ResourcePolicy.someFires
    rw [Bool.eq_iff_iff, any_eq_true, any_eq_true]
    constructor
    · rintro ⟨fp, hfp, h⟩
      obtain ⟨q, hq, rfl⟩ := mem_map.mp hfp
      rw [Bool.and_eq_true, any_eq_true] at h
      obtain ⟨hqcov, rule', hrule', h⟩ := h
      obtain rfl := honly q hq hqcov
      obtain ⟨i, hi, rfl⟩ := mem_mapIdx.mp hrule'
      rw [fires_compiledRule ht hdr hp hl x (getElem_mem hi)] at h
      exact ⟨_, getElem_mem hi, h⟩
    · rintro ⟨rule, hrule, h⟩
      obtain ⟨i, hi, rfl⟩ := mem_iff_getElem.mp hrule
      refine ⟨flatPolicy c dr p, mem_map.mpr ⟨p, hmem, rfl⟩, ?_⟩
      rw [Bool.and_eq_true, any_eq_true]
      refine ⟨hcovers, compiledRule c i p.rules[i], mem_mapIdx.mpr ⟨i, hi, rfl⟩, ?_⟩
      rw [fires_compiledRule ht hdr hp hl x hrule]
      exact h
  unfold permits Source.ResourcePolicy.permits
  rw [hfires, hfires]

end Transfer

end AccessManagement
