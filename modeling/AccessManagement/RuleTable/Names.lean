/-
  AccessManagement.RuleTable.Names — FROM THE NAMES IN A POLICY FILE TO THE KEYS OF ITS ROWS.

  Three functions decide together whether the rules of a policy get distinct keys:

    * `Validate` refuses two rules that are GIVEN the same name, and ignores unnamed rules;
    * compilation gives an unnamed rule a name made of its position;
    * `AddPolicy` builds the evaluation key from the name that comes out.

  A generated name can be one that another rule was given, and nothing looks for that.  So
  two rules share their key exactly if one is unnamed and the other has been given the name
  generated for it (`eq_or_takes_of_name_eq`).

  Main result: `AcceptedUnit.clashes_iff` — a policy that passed validation and compilation
  has clashing rules exactly if its file has such a pair (`NameClash`).
-/
import AccessManagement.Policy.Validate
import AccessManagement.RuleTable.Keys

namespace AccessManagement

open Lib List Namer

variable {c : CelCompiler} {rs : Resolver}

/-! ## §1. Given and generated names. -/

section Names

variable {α : Type} {nameOf : α → String} {generated : Nat → String} {as : List α} {i j : Nat}
  {a b : α}

/-- The name an item goes by: the one it is given, else the one generated for its position. -/
def effectiveName (nameOf : α → String) (generated : Nat → String) (a : α) (i : Nat) : String :=
  if nameOf a ≠ "" then nameOf a else generated i

/-- Items that are given the same name are the same. -/
theorem idx_eq_of_givenName_eq (hnodup : (givenNames nameOf as).Nodup)
    (ha : as[i]? = some a) (hb : as[j]? = some b) (hne : nameOf a ≠ "")
    (hname : nameOf a = nameOf b) : i = j := by
  unfold givenNames List.Nodup at hnodup
  rw [pairwise_filterMap, pairwise_iff_getElem] at hnodup
  obtain ⟨hi, rfl⟩ := List.getElem?_eq_some_iff.mp ha
  obtain ⟨hj, rfl⟩ := List.getElem?_eq_some_iff.mp hb
  have hgiven : givenName (nameOf as[i]) = some (nameOf as[i]) := if_neg hne
  have hgiven' : givenName (nameOf as[j]) = some (nameOf as[i]) := by rw [← hname]; exact hgiven
  rcases Nat.lt_trichotomy i j with hlt | rfl | hgt
  · exact (hnodup i j hi hj hlt _ hgiven _ hgiven' rfl).elim
  · rfl
  · exact (hnodup j i hj hi hgt _ hgiven' _ hgiven rfl).elim

/-- Item `i` has no name, and item `j` has been given the name generated for it. -/
structure TakesName (nameOf : α → String) (generated : Nat → String) (as : List α) (i : Nat)
    (unnamed named : α) : Prop where
  unnamed_at : as[i]? = some unnamed
  mem : named ∈ as
  no_name : nameOf unnamed = ""
  taken : nameOf named = generated (i + 1)

/-- **Two items go by one name only if they are the same or one takes the name of the
other.** -/
theorem eq_or_takes_of_name_eq (hnodup : (givenNames nameOf as).Nodup)
    (hinj : ∀ m n, generated m = generated n → m = n) (ha : as[i]? = some a) (hb : as[j]? = some b)
    (hname : effectiveName nameOf generated a (i + 1) = effectiveName nameOf generated b (j + 1)) :
    a = b ∨ TakesName nameOf generated as i a b ∨ TakesName nameOf generated as j b a := by
  have hmem := mem_of_getElem? ha
  have hmem' := mem_of_getElem? hb
  unfold effectiveName at hname
  split_ifs at hname with hna hnb hnb
  · obtain rfl := idx_eq_of_givenName_eq hnodup ha hb hna hname
    exact .inl (Option.some.inj (ha.symm.trans hb))
  · exact .inr (.inr ⟨hb, hmem, not_not.mp hnb, hname⟩)
  · exact .inr (.inl ⟨ha, hmem', not_not.mp hna, hname.symm⟩)
  · have hij : i = j := by have := hinj _ _ hname; omega
    subst hij
    exact .inl (Option.some.inj (ha.symm.trans hb))

/-- An item whose name another one takes goes by that name, and so does the other one. -/
theorem TakesName.name_eq {unnamed named : α}
    (h : TakesName nameOf generated as i unnamed named) (hne : generated (i + 1) ≠ "") :
    effectiveName nameOf generated unnamed (i + 1) = effectiveName nameOf generated named j := by
  have hnamed : nameOf named ≠ "" := by rw [h.taken]; exact hne
  unfold effectiveName
  rw [if_neg (not_not_intro h.no_name), if_pos hnamed, h.taken]

end Names

namespace Namer

/-- The name generated for a resource rule. -/
def generatedRuleName (idx : Nat) : String := "rule-" ++ pad3 idx

variable (resource : String)

/-- The name generated for an action rule of a principal policy. -/
def generatedActionRuleName (idx : Nat) : String :=
  resource ++ "_rule-" ++ pad3 idx

theorem generatedRuleName_injective : ∀ m n, generatedRuleName m = generatedRuleName n → m = n :=
  fun _ _ h => pad3_injective ((String.append_right_inj _).mp h)

theorem generatedActionRuleName_injective : ∀ m n,
    generatedActionRuleName resource m = generatedActionRuleName resource n → m = n :=
  fun _ _ h => pad3_injective ((String.append_right_inj _).mp h)

theorem generatedRuleName_ne_empty (idx : Nat) : generatedRuleName idx ≠ "" :=
  fun h => absurd (String.append_eq_empty_iff.mp h).1 (by decide)

theorem generatedActionRuleName_ne_empty (idx : Nat) : generatedActionRuleName resource idx ≠ "" := by
  intro h
  have hstart := (String.append_eq_empty_iff.mp h).1
  exact absurd (String.append_eq_empty_iff.mp hstart).2 (by decide)

end Namer

/-! ## §2. Clashes in a policy file. -/

/-- An unspecified setting does not negate anything either. -/
theorem consentCondition_normalise (sp : ScopePermissions) (effect : Effect)
    (cond : Option Condition) :
    consentCondition sp.normalise effect cond = consentCondition sp effect cond := by
  cases sp <;> cases effect <;> cases cond <;> rfl

namespace Source

variable (c : CelCompiler)

/-- The condition that the rows of a rule get. -/
def ResourceModule.rowCondition (m : ResourceModule) (rule : ResourceRule String) :
    Option Condition :=
  consentCondition m.scopePermissions rule.effect (compileCondition c rule.condition)

def PrincipalModule.rowCondition (m : PrincipalModule) (action : PrincipalAction) :
    Option Condition :=
  consentCondition m.scopePermissions action.effect (compileCondition c action.condition)

/-- A rule without a name whose generated name another rule is given, where both have an
action and a role in common (two static roles count as one), and different conditions. -/
structure ResourceModule.NameClash (sets : List (DerivedRoles String)) (m : ResourceModule)
    (i : Nat) (unnamed named : ResourceRule String) : Prop where
  takes : TakesName ResourceRule.name Namer.generatedRuleName m.rules i unnamed named
  condition : m.rowCondition c unnamed ≠ m.rowCondition c named
  actions : unnamed.actions ≠ [] ∧ named.actions ≠ []
  roles : (unnamed.roles ≠ [] ∧ named.roles ≠ []) ∨
    ∃ dr rdr, dr ∈ unnamed.derivedRoles ∧ dr ∈ named.derivedRoles ∧
      (referencedRoles c sets m.toResourcePolicy).lookup dr = some rdr ∧ rdr.parentRoles ≠ []

/-- The same for the actions of a rule of a principal policy. -/
structure PrincipalModule.NameClash (m : PrincipalModule) (rule : PrincipalRule) (i : Nat)
    (unnamed named : PrincipalAction) : Prop where
  rule_mem : rule ∈ m.rules
  takes : TakesName PrincipalAction.name (Namer.generatedActionRuleName rule.resource)
    rule.actions i unnamed named
  condition : m.rowCondition c unnamed ≠ m.rowCondition c named

end Source

/-! ## §3. Compiled rules. -/

section Compiled

variable {defs : Definitions} {l : List String}

theorem eraseDups_ne_nil : l.eraseDups ≠ [] ↔ l ≠ [] := by
  cases l with
  | nil => simp
  | cons => simp [eraseDups_cons]

theorem roleSet_ne_nil : roleSet l ≠ [] ↔ l ≠ [] := by
  unfold roleSet
  split
  next h =>
      rw [contains_iff_mem] at h
      simp [ne_nil_of_mem h]
  · exact eraseDups_ne_nil

variable {p : Source.Policy} {rp : Source.ResourceModule} {compiled : ResourcePolicy}

/-- What a compiled resource policy is made of. -/
theorem compileResourceModule_eq_ok (h : compileResourceModule c rs defs p rp = .ok compiled) :
    compiled = { assembleResourcePolicy c (derivedRolesSets defs) rp.toResourcePolicy with
        derivedRoles := (referencedRoles c (derivedRolesSets defs) rp.toResourcePolicy).map
          (withRoleParams rs defs)
        orderedVariables := (rs.policyParams defs p).orderedVariables
        constants := (rs.policyParams defs p).constants } := by
  unfold compileResourceModule at h
  split at h
  · split at h
    · exact (Except.ok.inj h).symm
    · cases h
  · cases h

variable (dr : String × RunnableDerivedRole)

theorem withRoleParams_fst : (withRoleParams rs defs dr).1 = dr.1 := by
  unfold withRoleParams
  split <;> rfl

theorem withRoleParams_parentRoles : (withRoleParams rs defs dr).2.parentRoles = dr.2.parentRoles := by
  unfold withRoleParams
  split <;> rfl

variable {drs : List (String × RunnableDerivedRole)}

/-- Adding parameters keeps the roles that have parents. -/
theorem exists_lookup_withRoleParams {dr : String} :
    (∃ rdr, (drs.map (withRoleParams rs defs)).lookup dr = some rdr ∧ rdr.parentRoles ≠ []) ↔
      ∃ rdr, drs.lookup dr = some rdr ∧ rdr.parentRoles ≠ [] := by
  induction drs with
  | nil => simp
  | cons e _ ih =>
    rw [map_cons, lookup_cons, lookup_cons, withRoleParams_fst]
    cases dr == e.1 with
    | true => simp [withRoleParams_parentRoles]
    | false => exact ih

/-- Compiled rules are those of the file, at their positions. -/
theorem mem_mapIdx_iff {α β : Type} {f : Nat → α → β} {as : List α} {b : β} :
    b ∈ as.mapIdx f ↔ ∃ i a, as[i]? = some a ∧ b = f i a := by
  rw [mem_iff_getElem?]
  simp only [getElem?_mapIdx, Option.map_eq_some_iff, eq_comm (a := b)]

/-- What two rules have in common, before and after compilation. -/
theorem roles_compileResourceRule {src src' : Source.ResourceRule String} {i i' : Nat} :
    ((compileResourceRule c src i).roles ≠ [] ∧ (compileResourceRule c src' i').roles ≠ [] ∨
      ∃ dr rdr, dr ∈ (compileResourceRule c src i).derivedRoles ∧
        dr ∈ (compileResourceRule c src' i').derivedRoles ∧
        (drs.map (withRoleParams rs defs)).lookup dr = some rdr ∧ rdr.parentRoles ≠ []) ↔
    (src.roles ≠ [] ∧ src'.roles ≠ [] ∨ ∃ dr rdr, dr ∈ src.derivedRoles ∧ dr ∈ src'.derivedRoles ∧
      drs.lookup dr = some rdr ∧ rdr.parentRoles ≠ []) := by
  refine or_congr (and_congr roleSet_ne_nil roleSet_ne_nil) (exists_congr fun dr => ?_)
  simp only [exists_and_left, exists_lookup_withRoleParams]
  exact and_congr mem_eraseDups (and_congr mem_eraseDups Iff.rfl)

/-- A policy that takes no name has no clashing rules, and one that does has. -/
theorem resource_clash_iff (hnodup : (givenNames (·.name) rp.rules).Nodup)
    (h : compileResourceModule c rs defs p rp = .ok compiled) :
    (∃ rule rule', compiled.Clash rule rule') ↔
      ∃ i unnamed named, rp.NameClash c (derivedRolesSets defs) i unnamed named := by
  obtain rfl := compileResourceModule_eq_ok h
  have hcond : ∀ (src : Source.ResourceRule String) (i : Nat),
      consentCondition rp.scopePermissions.normalise (compileResourceRule c src i).effect
        (compileResourceRule c src i).condition = rp.rowCondition c src :=
    fun _ _ => consentCondition_normalise ..
  constructor
  · rintro ⟨rule, rule', hclash⟩
    obtain ⟨i, src, hsrc, rfl⟩ := mem_mapIdx_iff.mp hclash.mem
    obtain ⟨j, src', hsrc', rfl⟩ := mem_mapIdx_iff.mp hclash.mem'
    have hne : rp.rowCondition c src ≠ rp.rowCondition c src' := by
      rw [← hcond src (i + 1), ← hcond src' (j + 1)]
      exact hclash.condition
    have haction := eraseDups_ne_nil.mp hclash.actions
    have haction' := eraseDups_ne_nil.mp hclash.actions'
    have hshares := roles_compileResourceRule.mp hclash.roles
    rcases eq_or_takes_of_name_eq hnodup generatedRuleName_injective hsrc hsrc' hclash.name
      with rfl | ht | ht
    · exact (hne rfl).elim
    · exact ⟨i, src, src', ht, hne, ⟨haction, haction'⟩, hshares⟩
    · refine ⟨j, src', src, ht, hne.symm, ⟨haction', haction⟩, ?_⟩
      rcases hshares with ⟨hr, hr'⟩ | ⟨dr, rdr, hdr, hdr', hl⟩
      · exact .inl ⟨hr', hr⟩
      · exact .inr ⟨dr, rdr, hdr', hdr, hl⟩
  · rintro ⟨i, unnamed, named, hn⟩
    obtain ⟨j, hj⟩ := mem_iff_getElem?.mp hn.takes.mem
    refine ⟨compileResourceRule c unnamed (i + 1), compileResourceRule c named (j + 1),
      mem_mapIdx_iff.mpr ⟨i, unnamed, hn.takes.unnamed_at, rfl⟩, mem_mapIdx_iff.mpr ⟨j, named, hj, rfl⟩,
      hn.takes.name_eq (generatedRuleName_ne_empty _), ?_,
      eraseDups_ne_nil.mpr hn.actions.1, eraseDups_ne_nil.mpr hn.actions.2,
      roles_compileResourceRule.mpr hn.roles⟩
    show consentCondition rp.scopePermissions.normalise _ _ ≠
      consentCondition rp.scopePermissions.normalise _ _
    rw [hcond, hcond]
    exact hn.condition

/-- The entries of the map of a principal policy, when its rules are for distinct resources. -/
theorem mem_principalResourceRules {rules : List Source.PrincipalRule}
    (hnodup : (rules.map (·.resource)).Nodup) {resource : String}
    {actions : List PrincipalActionRule} :
    (resource, actions) ∈ (principalResourceRules c rules).entries.map (fun e => (e.1, e.2)) ↔
      ∃ rule ∈ rules, rule.resource = resource ∧ rule.actions.mapIdx (fun i action =>
        compilePrincipalAction c rule.resource action (i + 1)) = actions := by
  have hlookup := lookup_foldl_insert (·.resource) (fun rule : Source.PrincipalRule =>
    rule.actions.mapIdx (fun i action => compilePrincipalAction c rule.resource action (i + 1)))
    rules ∅ hnodup resource actions
  have hentry : (resource, actions) ∈
      (principalResourceRules c rules).entries.map (fun e => (e.1, e.2)) ↔
      (principalResourceRules c rules).lookup resource = some actions := by
    rw [← Option.mem_def, AList.mem_lookup_iff, mem_map]
    constructor
    · rintro ⟨⟨k, v⟩, he, heq⟩
      obtain ⟨rfl, rfl⟩ := Prod.mk.inj heq
      exact he
    · exact fun he => ⟨⟨resource, actions⟩, he, rfl⟩
  rw [hentry]
  refine hlookup.trans (or_iff_left ?_)
  rintro ⟨-, hv⟩
  cases hv

variable {pp : Source.PrincipalModule} {compiled : PrincipalPolicy}

theorem compilePrincipalModule_eq_ok (h : compilePrincipalModule c rs defs p pp = .ok compiled) :
    compiled = {
      scope := pp.scope
      resourceRules := (principalResourceRules c pp.rules).entries.map (fun e => (e.1, e.2))
      scopePermissions := pp.scopePermissions.normalise
      orderedVariables := (rs.policyParams defs p).orderedVariables
      constants := (rs.policyParams defs p).constants } := by
  unfold compilePrincipalModule at h
  split at h
  · exact (Except.ok.inj h).symm
  · cases h

/-- The same for principal policies. -/
theorem principal_clash_iff (hresource : (pp.rules.map (·.resource)).Nodup)
    (hnodup : ∀ rule ∈ pp.rules, (givenNames (·.name) rule.actions).Nodup)
    (h : compilePrincipalModule c rs defs p pp = .ok compiled) :
    (∃ resource rules rule rule', compiled.Clash resource rules rule rule') ↔
      ∃ rule i unnamed named, pp.NameClash c rule i unnamed named := by
  obtain rfl := compilePrincipalModule_eq_ok h
  have hcond : ∀ (resource : String) (action : Source.PrincipalAction) (i : Nat),
      consentCondition pp.scopePermissions.normalise
        (compilePrincipalAction c resource action i).effect
        (compilePrincipalAction c resource action i).condition = pp.rowCondition c action :=
    fun _ _ _ => consentCondition_normalise ..
  constructor
  · rintro ⟨resource, rules, rule, rule', hclash⟩
    obtain ⟨src, hsrc, rfl, rfl⟩ := (mem_principalResourceRules hresource).mp hclash.entry
    obtain ⟨i, a, ha, rfl⟩ := mem_mapIdx_iff.mp hclash.mem
    obtain ⟨j, b, hb, rfl⟩ := mem_mapIdx_iff.mp hclash.mem'
    have hne : pp.rowCondition c a ≠ pp.rowCondition c b := by
      rw [← hcond src.resource a (i + 1), ← hcond src.resource b (j + 1)]
      exact hclash.condition
    rcases eq_or_takes_of_name_eq (hnodup src hsrc)
      (generatedActionRuleName_injective src.resource) ha hb hclash.name with rfl | ht | ht
    · exact (hne rfl).elim
    · exact ⟨src, i, a, b, hsrc, ht, hne⟩
    · exact ⟨src, j, b, a, hsrc, ht, hne.symm⟩
  · rintro ⟨rule, i, unnamed, named, hn⟩
    obtain ⟨j, hj⟩ := mem_iff_getElem?.mp hn.takes.mem
    refine ⟨rule.resource, _, compilePrincipalAction c rule.resource unnamed (i + 1),
      compilePrincipalAction c rule.resource named (j + 1),
      (mem_principalResourceRules hresource).mpr ⟨rule, hn.rule_mem, rfl, rfl⟩,
      mem_mapIdx_iff.mpr ⟨i, unnamed, hn.takes.unnamed_at, rfl⟩,
      mem_mapIdx_iff.mpr ⟨j, named, hj, rfl⟩,
      hn.takes.name_eq (generatedActionRuleName_ne_empty _ _), ?_⟩
    show consentCondition pp.scopePermissions.normalise _ _ ≠
      consentCondition pp.scopePermissions.normalise _ _
    rw [hcond, hcond]
    exact hn.condition

end Compiled

/-! ## §4. Policies that passed validation and compilation. -/

/-- A compilation unit whose main policy was accepted by `Validate` and that compiled. -/
structure AcceptedUnit (c : CelCompiler) (rs : Resolver) where
  unit : CompilationUnit
  main : Source.Policy
  sourceCtx : SourceCtx
  runnable : RunnablePolicySet
  main_eq : unit.definitions.lookup unit.modID = some main
  modID_eq : main.fqn = unit.modID
  valid : validate sourceCtx main = []
  compiled : compileUnit c rs unit = .ok (some runnable)

namespace AcceptedUnit

/-- Does the file of the policy have a pair of rules that clash? -/
def NameClash (u : AcceptedUnit c rs) : Prop :=
  match u.main.policyType with
  | .resourcePolicy rp =>
    ∃ i unnamed named, rp.NameClash c (derivedRolesSets u.unit.definitions) i unnamed named
  | .principalPolicy pp => ∃ rule i unnamed named, pp.NameClash c rule i unnamed named
  | _ => False

/-- The policy sets of some units. -/
def policySets (us : List (AcceptedUnit c rs)) : List PolicySet :=
  us.map (fun u => u.runnable.policySet)

/-- What the first of a chain of compiled policies is. -/
theorem compileAncestors_cons {α : Type} {defs : Definitions}
    {compile : Source.Policy → Except (List UnitError) α} {missing : List UnitError} {fqn : String}
    {fqns : List String} {chain : List α} {p : Source.Policy} (hp : defs.lookup fqn = some p)
    (h : compileAncestors defs compile missing (fqn :: fqns) = .ok chain) :
    ∃ a as, compile p = .ok a ∧ chain = a :: as := by
  unfold compileAncestors at h
  simp only [hp] at h
  cases hc : compile p with
  | error => rw [hc] at h; cases h
  | ok a =>
    simp only [hc] at h
    split at h
    · cases h
    next as _ => exact ⟨a, as, rfl, (Except.ok.inj h).symm⟩

section Kinds

variable (u : AcceptedUnit c rs)

theorem runnable_resource {rp : Source.ResourceModule}
    (hp : u.main.policyType = .resourcePolicy rp) :
    ∃ p ps, u.runnable.policySet = .resourcePolicy u.main.fqn rp.resource rp.version (p :: ps) ∧
      compileResourceModule c rs u.unit.definitions u.main rp = .ok p := by
  have h := u.compiled
  unfold compileUnit at h
  simp only [u.main_eq, hp] at h
  split at h
  · cases h
  next chain hchain =>
      obtain ⟨⟨p, schemas⟩, as, hfirst, rfl⟩ := compileAncestors_cons u.main_eq hchain
      unfold compileResourceAt at hfirst
      simp only [hp] at hfirst
      split at hfirst
      · cases hfirst
      next compiled hcompiled =>
          obtain ⟨rfl, rfl⟩ := Prod.mk.inj (Except.ok.inj hfirst)
          have hr := Option.some.inj (Except.ok.inj h)
          exact ⟨compiled, as.map (·.1), by rw [← hr]; rfl, hcompiled⟩

theorem runnable_principal {pp : Source.PrincipalModule}
    (hp : u.main.policyType = .principalPolicy pp) :
    ∃ p ps, u.runnable.policySet = .principalPolicy u.main.fqn pp.principal pp.version (p :: ps) ∧
      compilePrincipalModule c rs u.unit.definitions u.main pp = .ok p := by
  have h := u.compiled
  unfold compileUnit at h
  simp only [u.main_eq, hp] at h
  split at h
  · cases h
  next chain hchain =>
      obtain ⟨p, as, hfirst, rfl⟩ := compileAncestors_cons u.main_eq hchain
      unfold compilePrincipalAt at hfirst
      simp only [hp] at hfirst
      have hr := Option.some.inj (Except.ok.inj h)
      exact ⟨p, as, by rw [← hr], hfirst⟩

theorem runnable_role {rp : Source.RoleModule} (hp : u.main.policyType = .rolePolicy rp) :
    u.runnable.policySet = .rolePolicy u.main.fqn rp.role
      (if rp.version = "" then defaultVersion else rp.version) rp.scope rp.parentRoles
      ((roleResources c rp.rules).entries.map (fun e => (e.1, e.2)))
      (rs.policyParams u.unit.definitions u.main).orderedVariables
      (rs.policyParams u.unit.definitions u.main).constants := by
  have h := u.compiled
  unfold compileUnit at h
  simp only [u.main_eq, hp] at h
  split at h
  · cases h
  next set hset =>
      unfold compileRoleModule at hset
      split at hset
      · rw [← Option.some.inj (Except.ok.inj h)]
        exact (Except.ok.inj hset).symm
      · cases hset

/-- A unit that is there to be imported yields nothing to run. -/
theorem main_cases :
    (∃ rp, u.main.policyType = .resourcePolicy rp) ∨ (∃ pp, u.main.policyType = .principalPolicy pp) ∨
      ∃ rp, u.main.policyType = .rolePolicy rp := by
  have h := u.compiled
  unfold compileUnit at h
  simp only [u.main_eq] at h
  cases hp : u.main.policyType with
  | resourcePolicy rp => exact .inl ⟨rp, rfl⟩
  | principalPolicy pp => exact .inr (.inl ⟨pp, rfl⟩)
  | rolePolicy rp => exact .inr (.inr ⟨rp, rfl⟩)
  | _ => simp [hp] at h

/-- **The policy set of an accepted unit is well formed and goes by the unit's name.** -/
theorem wellFormed : u.runnable.policySet.WellFormed ∧ u.runnable.policySet.fqn = u.unit.modID := by
  rw [← u.modID_eq]
  rcases u.main_cases with ⟨rp, hp⟩ | ⟨pp, hp⟩ | ⟨rp, hp⟩
  · obtain ⟨p, ps, hset, hcompiled⟩ := u.runnable_resource hp
    have hscope : p.scope = rp.scope := by rw [compileResourceModule_eq_ok hcompiled]; rfl
    have hfqn : u.main.fqn = resourcePolicyFqn rp.resource rp.version p.scope := by
      rw [hscope]
      unfold Source.Policy.fqn
      rw [hp]
    rw [hset]
    exact ⟨⟨p, ps, rfl, hfqn⟩, rfl⟩
  · obtain ⟨p, ps, hset, hcompiled⟩ := u.runnable_principal hp
    have hc := compilePrincipalModule_eq_ok hcompiled
    have hfqn : u.main.fqn = principalPolicyFqn pp.principal pp.version p.scope := by
      rw [hc]
      unfold Source.Policy.fqn
      rw [hp]
    have hkeys : (p.resourceRules.map (·.1)).Nodup := by
      rw [hc, map_map]
      exact nodup_keys _
    rw [hset]
    exact ⟨⟨p, ps, rfl, hfqn, hkeys⟩, rfl⟩
  · rw [u.runnable_role hp]
    refine ⟨⟨?_, ?_⟩, rfl⟩
    · unfold Source.Policy.fqn
      rw [hp]
      show rolePolicyFqn rp.role rp.version rp.scope = rolePolicyFqn rp.role
        (if rp.version = "" then defaultVersion else rp.version) rp.scope
      unfold rolePolicyFqn
      by_cases hv : rp.version = ""
      · rw [if_pos hv, if_neg (by decide)]
      · rw [if_neg hv, if_neg hv]
    · rw [map_map]
      exact nodup_keys _

/-- **An accepted policy has clashing rules exactly if its file has a clash of names.** -/
theorem clashes_iff : u.runnable.policySet.Clashes ↔ u.NameClash := by
  unfold NameClash
  have hvalid := u.valid
  unfold validate at hvalid
  rcases u.main_cases with ⟨rp, hp⟩ | ⟨pp, hp⟩ | ⟨rp, hp⟩
  · obtain ⟨p, ps, hset, hcompiled⟩ := u.runnable_resource hp
    simp only [hp] at hvalid ⊢
    rw [hset]
    exact resource_clash_iff (validateResourcePolicy_eq_nil.mp hvalid).2 hcompiled
  · obtain ⟨p, ps, hset, hcompiled⟩ := u.runnable_principal hp
    simp only [hp] at hvalid ⊢
    rw [hset]
    obtain ⟨hresource, hnames⟩ := validatePrincipalPolicy_eq_nil.mp hvalid
    exact principal_clash_iff hresource hnames hcompiled
  · simp only [hp]
    rw [u.runnable_role hp]
    rfl

/-- Is a generated name given to another rule, whatever the two rules say? -/
def SharesName : Prop :=
  match u.main.policyType with
  | .resourcePolicy rp => ∃ i unnamed named,
      TakesName Source.ResourceRule.name generatedRuleName rp.rules i unnamed named
  | .principalPolicy pp => ∃ rule ∈ pp.rules, ∃ i unnamed named,
      TakesName Source.PrincipalAction.name (generatedActionRuleName rule.resource)
        rule.actions i unnamed named
  | _ => False

theorem NameClash.sharesName {u : AcceptedUnit c rs} (h : u.NameClash) : u.SharesName := by
  unfold NameClash at h
  unfold SharesName
  cases hp : u.main.policyType with
  | resourcePolicy =>
    simp only [hp] at h
    obtain ⟨i, unnamed, named, hclash⟩ := h
    exact ⟨i, unnamed, named, hclash.takes⟩
  | principalPolicy =>
    simp only [hp] at h
    obtain ⟨rule, i, unnamed, named, hclash⟩ := h
    exact ⟨rule, hclash.rule_mem, i, unnamed, named, hclash.takes⟩
  | _ => simp only [hp] at h

/-- **Unless a generated name is given to another rule, rules have names of their own.** -/
theorem namesApart (h : ¬ u.SharesName) : u.runnable.policySet.NamesApart := by
  unfold SharesName at h
  have hvalid := u.valid
  unfold validate at hvalid
  rcases u.main_cases with ⟨rp, hp⟩ | ⟨pp, hp⟩ | ⟨rp, hp⟩
  · obtain ⟨p, ps, hset, hcompiled⟩ := u.runnable_resource hp
    simp only [hp] at hvalid h
    rw [hset]
    intro rule hrule rule' hrule' hname
    rw [compileResourceModule_eq_ok hcompiled] at hrule hrule'
    obtain ⟨i, src, hsrc, rfl⟩ := mem_mapIdx_iff.mp hrule
    obtain ⟨j, src', hsrc', rfl⟩ := mem_mapIdx_iff.mp hrule'
    rcases eq_or_takes_of_name_eq (validateResourcePolicy_eq_nil.mp hvalid).2
      generatedRuleName_injective hsrc hsrc' hname with rfl | ht | ht
    · have hname : resourceRuleName src.name (i + 1) = resourceRuleName src.name (j + 1) := hname
      unfold compileResourceRule
      rw [hname]
    · exact (h ⟨i, src, src', ht⟩).elim
    · exact (h ⟨j, src', src, ht⟩).elim
  · obtain ⟨p, ps, hset, hcompiled⟩ := u.runnable_principal hp
    simp only [hp] at hvalid h
    rw [hset]
    obtain ⟨hresource, hnames⟩ := validatePrincipalPolicy_eq_nil.mp hvalid
    rintro ⟨resource, rules⟩ hrr rule hrule rule' hrule' hname
    rw [compilePrincipalModule_eq_ok hcompiled] at hrr
    obtain ⟨src, hsrc, rfl, rfl⟩ := (mem_principalResourceRules hresource).mp hrr
    obtain ⟨i, a, ha, rfl⟩ := mem_mapIdx_iff.mp hrule
    obtain ⟨j, b, hb, rfl⟩ := mem_mapIdx_iff.mp hrule'
    rcases eq_or_takes_of_name_eq (hnames src hsrc)
      (generatedActionRuleName_injective src.resource) ha hb hname with rfl | ht | ht
    · have hname : principalResourceActionRuleName a.name src.resource (i + 1) =
          principalResourceActionRuleName a.name src.resource (j + 1) := hname
      unfold compilePrincipalAction
      rw [hname]
    · exact (h ⟨src, hsrc, i, a, b, ht⟩).elim
    · exact (h ⟨src, hsrc, j, b, a, ht⟩).elim
  · rw [u.runnable_role hp]
    trivial

end Kinds

section Sets

variable {us : List (AcceptedUnit c rs)}

theorem wellFormed_policySets : ∀ ps ∈ policySets us, ps.WellFormed := by
  intro ps hps
  obtain ⟨u, -, rfl⟩ := mem_map.mp hps
  exact u.wellFormed.1

theorem fqns_policySets : (policySets us).map PolicySet.fqn = us.map (fun u => u.unit.modID) := by
  unfold policySets
  rw [map_map]
  exact map_congr_left (fun u _ => u.wellFormed.2)

/-- The keys of the rows of accepted policies identify their conditions exactly if no file
has a clash of names. -/
theorem keysIdentifyConditions_iff (hnames : (us.map (fun u => u.unit.modID)).Nodup) :
    KeysIdentifyConditions (RuleTable.rowsOf (policySets us)) ↔ ∀ u ∈ us, ¬ u.NameClash := by
  rw [AccessManagement.keysIdentifyConditions_iff wellFormed_policySets
    (by rw [fqns_policySets]; exact hnames)]
  constructor
  · intro h u hu hclash
    exact h _ (mem_map_of_mem hu) (u.clashes_iff.mpr hclash)
  · intro h ps hps hclash
    obtain ⟨u, hu, rfl⟩ := mem_map.mp hps
    exact h u hu (u.clashes_iff.mp hclash)

/-- Unless a generated name is given to another rule, rows with one key have one function. -/
theorem sameFunction_of_key_eq (hnames : (us.map (fun u => u.unit.modID)).Nodup)
    (hno : ∀ u ∈ us, ¬ u.SharesName) {row row' : RuleRow}
    (hrow : row ∈ RuleTable.rowsOf (policySets us))
    (hrow' : row' ∈ RuleTable.rowsOf (policySets us)) {k : EvaluationKeyTuple}
    (hk : row.evaluationKeyTuple = some k) (hk' : row'.evaluationKeyTuple = some k) :
    row.SameFunction row' := by
  have hapart : ∀ ps ∈ policySets us, ps.NamesApart := by
    intro ps hps
    obtain ⟨u, hu, rfl⟩ := mem_map.mp hps
    exact u.namesApart (hno u hu)
  exact AccessManagement.sameFunction_of_key_eq wellFormed_policySets
    (by rw [fqns_policySets]; exact hnames) hapart hrow hrow' hk hk'

end Sets

end AcceptedUnit

end AccessManagement
