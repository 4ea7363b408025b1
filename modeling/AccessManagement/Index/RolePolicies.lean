/-
  AccessManagement.Index.RolePolicies — WHEN A ROLE POLICY DENIES what it does not list.

  A role policy is meant to be exhaustive: within its version and scope, the role may do
  what an allow list of the policy names and nothing else.  `Query` enforces it by a
  synthetic DENY.  But the DENY is synthesised AFTER the query has intersected all its
  filters, the resource filter included, and a query whose intersection is empty returns
  before it gets there.

  Main result: `roleDeny_iff_reached` — on every reachable index, the unlisted roles of a
  query are denied exactly when the query reaches the synthesis: there is an action and a
  resource kind, SOME binding of the resource kind is selected for one of the roles, and the
  role's own key is seen by the role dimension.

  Where the synthesis is reached, `denies_mean` says what its DENY bindings amount to: they are
  the promise of the role policies, whose roles have names that are no patterns.
-/
import AccessManagement.Index.QuerySpec
import AccessManagement.Policy.Conjunction

namespace AccessManagement.Index

open Lib List

variable {x : Externals} {ix : Index} {roles : List String} {resource : ResourceKind}

/-! ## §1. Role policies of a role. -/

/-- A role-policy binding of the role for the version (`""` for any) and scope. -/
structure OfRolePolicy (version scope role : String) (b : BindingHandle) : Prop where
  allowActions : b.allowActions.isSome = true
  role : b.role = role
  scope : b.scope = scope
  version : version = "" ∨ b.version = version

/-- The role has a role policy for the version and scope. -/
def HasRolePolicy (ix : Index) (version scope role : String) : Prop :=
  ∃ i b, ix.getBinding i = some b ∧ OfRolePolicy version scope role b

/-- One of the role's allow lists for the version and scope covers the resource kind and
names the action. -/
def RolePolicyAllows (x : Externals) (ix : Index) (version scope role kind action : String) :
    Prop :=
  ∃ i b, ix.getBinding i = some b ∧ OfRolePolicy version scope role b ∧
    resourceMatches x b (ResourceKind.new kind) .resource = true ∧ b.allowsAction x action = true

/-- The unconditional synthetic DENY of a role and action. -/
structure IsRoleDeny (role action : String) (b : BindingHandle) : Prop where
  synthetic : b.noMatchForScopePermissions = true
  fromRolePolicy : b.core.fromRolePolicy = true
  effect : b.core.effect = .deny
  condition : b.core.condition = none
  derivedRoleCondition : b.core.derivedRoleCondition = none
  role : b.role = role
  action : b.action = action

theorem isRoleDeny_new (role version scope resource action : String) :
    IsRoleDeny role action (newNoMatchRolePolicyDeny role version scope resource action) := by
  constructor <;> rfl

variable {version scope kind principalID : String} {rows : List RuleRow} {b : BindingHandle}
  {action role : String}

/-- Nothing in the index itself is a synthetic DENY. -/
theorem not_isRoleDeny_of_live (h : Provenance x rows ix) {i : Nat} (hb : ix.getBinding i = some b)
    (role action : String) : ¬ IsRoleDeny role action b := by
  intro hd
  obtain ⟨⟨b', k⟩, hget, rfl⟩ := Option.map_eq_some_iff.mp hb
  obtain ⟨row, -, core, -, hb', -⟩ := h.bindings i b' k hget
  have hsynthetic := hd.synthetic
  rw [hb'] at hsynthetic
  exact Bool.noConfusion hsynthetic

/-! ## §2. The synthesis for one role. -/

section RoleDenies

variable {role action : String} {rep : BindingHandle} {roleBindings : List BindingHandle}

/-- **The synthesis for one action**: the unconditional DENY if no list names the action, else
what the lists that do contribute. -/
theorem mem_roleDenies_iff {d : BindingHandle} :
    d ∈ roleDenies x resource role rep roleBindings [action] ↔
      ((∀ b ∈ roleBindings, b.allowsAction x action = false) ∧
        d = newNoMatchRolePolicyDeny role (roleBindings.headD rep).version
          (roleBindings.headD rep).scope ((roleBindings.head?.map (·.resource)).getD resource.raw)
          action) ∨
      ∃ b ∈ roleBindings, b.allowsAction x action = true ∧ allowListBinding action b = some d := by
  unfold roleDenies
  cases roleBindings with
  | nil => simp
  | cons rb rest =>
    by_cases hno : ∀ b ∈ rb :: rest, b.allowsAction x action = false
    · have hfilter : (rb :: rest).filter (fun b => b.allowsAction x action) = [] :=
        filter_eq_nil_iff.mpr (fun b hb => by simp [hno b hb])
      grind
    · have hfilter : ((rb :: rest).filter (fun b => b.allowsAction x action)).isEmpty = false := by
        rw [isEmpty_eq_false_iff, ne_eq, filter_eq_nil_iff]
        exact fun hnil => hno (fun b hb => Bool.eq_false_iff.mpr (hnil b hb))
      simp only [flatMap_cons, flatMap_nil, append_nil, hfilter,
        Bool.false_eq_true, if_false, mem_filterMap, mem_filter, and_assoc, hno,
        false_and, false_or]

/-- What a matching allow list contributes is never the unconditional DENY. -/
theorem not_isRoleDeny_allowListBinding {action' : String} {mb b : BindingHandle}
    (h : allowListBinding action' mb = some b) (role action : String) :
    ¬ IsRoleDeny role action b := by
  intro hd
  have hsynthetic := hd.synthetic
  unfold allowListBinding at h
  split at h <;> (try split at h) <;> cases h <;> cases hsynthetic

/-- The DENY bindings of a role are of that role. -/
theorem role_eq_of_mem_roleDenies {b : BindingHandle}
    (hb : b ∈ roleDenies x resource role rep roleBindings [action]) {role' action' : String}
    (hd : IsRoleDeny role' action' b) : role' = role := by
  rcases mem_roleDenies_iff.mp hb with ⟨-, rfl⟩ | ⟨mb, -, -, hmb⟩
  · exact hd.role.symm
  · exact absurd hd (not_isRoleDeny_allowListBinding hmb role' action')

end RoleDenies

/-! ## §3. The synthesis for a query. -/

section Synthesis

variable {version : String} {scope action : String} {kind : Kind} {principalID : String}
  {f : QueryFilters}

/-- The candidates of the synthesis: the role-policy bindings for the version and scope whose
role key one of the queried roles matches. -/
structure IsCandidate (x : Externals) (version scope : String) (roles : List String)
    (b : BindingHandle) : Prop where
  allowActions : b.allowActions.isSome = true
  version : version = "" ∨ b.version = version
  scope : b.scope = scope
  roles : roles = [] ∨ ∃ r ∈ roles, keyMatches x b.role r = true

def candidateBM (ix : Index) (f : QueryFilters) : IdSet :=
  IdSet.interAll ix.allowActionsBitmap
    (f.versionBM.toList ++ (some f.scopeBM).toList ++ f.roleBM.toList)

theorem candidateBM_selected (h : Exact x ix)
    (hf : FiltersOk ix x version resource scope roles kind principalID f) :
    Selected ix (candidateBM ix f) (IsCandidate x version scope roles) := by
  have hallow : Selected ix ix.allowActionsBitmap (fun b => b.allowActions.isSome = true) :=
    fun i => h.allowActionsBitmap () i
  have hscope : FilterSpec ix (some (some f.scopeBM)) (fun b => b.scope = scope) := hf.scope
  unfold candidateBM
  rw [interAll_append, interAll_append]
  refine (FilterSpec.interAll (FilterSpec.interAll (FilterSpec.interAll hallow hf.version)
    hscope) hf.role).congr (fun b => ⟨fun hall => ?_, fun hc => ?_⟩)
  · obtain ⟨⟨⟨ha, hv⟩, hs⟩, hr⟩ := hall
    exact ⟨ha, hv.imp_right And.left, hs, hr⟩
  · refine ⟨⟨⟨hc.allowActions, ?_⟩, hc.scope⟩, hc.roles⟩
    by_cases hv : version = ""
    · exact Or.inl hv
    · exact Or.inr ⟨hc.version.resolve_left hv, hv⟩

/-- The bindings of a role that the synthesis looks at. -/
def roleBindings (x : Externals) (ix : Index) (f : QueryFilters) (resource : ResourceKind)
    (role : String) : List BindingHandle :=
  (ix.bindingsOf ((candidateBM ix f).inter (ix.resourceQuery x resource .resource))).filter
    (fun b => b.role == role)

/-- With one resource, one action and some roles, the synthesis goes role by role. -/
theorem mem_rolePolicyDenies_iff (f : QueryFilters) (hroles : roles ≠ []) (b : BindingHandle) :
    b ∈ ix.rolePolicyDenies x [resource] roles [action] f.versionBM (some f.scopeBM) f.roleBM ↔
      ∃ role ∈ roles, ∃ rep,
        (ix.bindingsOf (candidateBM ix f)).find? (fun b => b.role == role) = some rep ∧
        b ∈ roleDenies x resource role rep (roleBindings x ix f resource role) [action] := by
  unfold rolePolicyDenies
  have hne : roles.isEmpty = false := by
    cases roles with
    | nil => exact absurd rfl hroles
    | cons => rfl
  simp only [flatMap_cons, flatMap_nil, append_nil, hne, Bool.false_eq_true,
    isEmpty_cons, mem_flatMap]
  refine exists_congr (fun role => and_congr_right (fun _ => ?_))
  unfold roleBindings candidateBM
  generalize (ix.bindingsOf _).find? _ = rep?
  cases rep? <;> simp

variable (h : Exact x ix) (hf : FiltersOk ix x version resource scope roles kind principalID f)

include h hf

/-- A representative is found for the roles with a role policy whose key a queried role
matches. -/
theorem exists_representative_iff (hroles : roles ≠ []) (role : String) :
    (∃ rep, (ix.bindingsOf (candidateBM ix f)).find? (fun b => b.role == role) = some rep) ↔
      HasRolePolicy ix version scope role ∧ ∃ r ∈ roles, keyMatches x role r = true := by
  have hcandidates := candidateBM_selected h hf
  constructor
  · rintro ⟨rep, hrep⟩
    obtain ⟨i, hi, hc⟩ := (hcandidates.mem_bindingsOf rep).mp (mem_of_find?_eq_some hrep)
    have hrole : rep.role = role := by simpa using List.find?_some hrep
    refine ⟨⟨i, rep, hi, hc.allowActions, hrole, hc.scope, hc.version⟩, ?_⟩
    rw [← hrole]
    exact hc.roles.resolve_left hroles
  · rintro ⟨⟨i, b, hi, hb⟩, hseen⟩
    have hmem : b ∈ ix.bindingsOf (candidateBM ix f) := (hcandidates.mem_bindingsOf b).mpr
      ⟨i, hi, hb.allowActions, hb.version, hb.scope, .inr (hb.role ▸ hseen)⟩
    refine Option.isSome_iff_exists.mp (List.find?_isSome.mpr ⟨b, hmem, ?_⟩)
    rw [hb.role]
    exact beq_self_eq_true role

/-- For such a role they are those of its policies for the resource. -/
theorem mem_roleBindings_iff {role : String}
    (hseen : ∃ r ∈ roles, keyMatches x role r = true) (b : BindingHandle) :
    b ∈ roleBindings x ix f resource role ↔
      ∃ i, ix.getBinding i = some b ∧ OfRolePolicy version scope role b ∧
        resourceMatches x b resource .resource = true := by
  have hmatches := (candidateBM_selected h hf).inter (h.resourceQuery resource .resource)
  rw [roleBindings, mem_filter, hmatches.mem_bindingsOf b, beq_iff_eq]
  constructor
  · rintro ⟨⟨i, hi, hc, hresource⟩, hrole⟩
    exact ⟨i, hi, ⟨hc.allowActions, hrole, hc.scope, hc.version⟩, hresource⟩
  · rintro ⟨i, hi, hb, hresource⟩
    exact ⟨⟨i, hi, ⟨hb.allowActions, hb.version, hb.scope, .inr (hb.role ▸ hseen)⟩, hresource⟩, hb.role⟩

end Synthesis

/-! ## §4. Exhaustiveness. -/

/-- A query for resource policies that reaches the synthesis denies every role that has a
role policy, is seen by the role dimension, and is not allowed the action. -/
theorem roleDeny_of_reached (h : Exact x ix)
    (hrole : role ∈ roles) (hpolicy : HasRolePolicy ix version scope role)
    (hnot : ¬ RolePolicyAllows x ix version scope role kind action)
    (ha : action ≠ "") (hk : kind ≠ "") (hselects : ∃ i b, ix.getBinding i = some b ∧
      Selects x version (ResourceKind.new kind) scope roles .resource principalID b)
    (hseen : ∃ r ∈ roles, keyMatches x role r = true) :
    ∃ b ∈ ix.query x version (ResourceKind.new kind) scope action roles .resource principalID,
      IsRoleDeny role action b := by
  obtain ⟨denies, resultBM, heq, -, hdenies⟩ :=
    query_spec version (ResourceKind.new kind) scope action roles .resource principalID h
  obtain ⟨f, hf, -, rfl⟩ := hdenies.resolve_left fun hnone =>
    hselects.elim fun i ⟨b, hb, hs⟩ => hnone.2 i b hb hs
  -- the role's own policy is a candidate, so a representative is found
  obtain ⟨rep, hrep⟩ :=
    (exists_representative_iff h hf (ne_nil_of_mem hrole) role).mpr ⟨hpolicy, hseen⟩
  -- none of the role's bindings for the resource allows the action
  have hno : ∀ b ∈ roleBindings x ix f (ResourceKind.new kind) role,
      b.allowsAction x action = false := by
    intro b hb
    obtain ⟨k, hk, hown, hresource⟩ := (mem_roleBindings_iff h hf hseen b).mp hb
    exact Bool.eq_false_iff.mpr (fun hallow => hnot ⟨k, b, hk, hown, hresource, hallow⟩)
  have hdeny := (@mem_roleDenies_iff x (ResourceKind.new kind) role action rep _ _).mpr
    (.inl ⟨hno, rfl⟩)
  have hallNe : ¬ ix.allowActionsBitmap.isEmpty = true := by
    intro he
    obtain ⟨j, c, hc, hcpol⟩ := hpolicy
    have hj : ix.allowActionsBitmap.has j = true :=
      (h.allowActionsBitmap () j).mpr ⟨c, hc, hcpol.allowActions⟩
    rw [(IdSet.isEmpty_iff _).mp he j] at hj
    exact Bool.noConfusion hj
  have hmem := (mem_rolePolicyDenies_iff f (ne_nil_of_mem hrole) _).mpr
    ⟨role, hrole, rep, hrep, hdeny⟩
  rw [heq, queryDenies, if_pos ⟨ha, hk, rfl, hallNe⟩]
  exact ⟨_, mem_append_left _ hmem, isRoleDeny_new _ _ _ _ _⟩

/-- Conversely, a DENY of a role in the answer says that the query reached the synthesis. -/
theorem reached_of_roleDeny (hinv : Inv x rows ix) (hrole : role ∈ roles)
    (hb : b ∈ ix.query x version (ResourceKind.new kind) scope action roles .resource principalID)
    (hd : IsRoleDeny role action b) : action ≠ "" ∧ kind ≠ "" ∧ (∃ i b, ix.getBinding i = some b ∧
        Selects x version (ResourceKind.new kind) scope roles .resource principalID b) ∧
      ∃ r ∈ roles, keyMatches x role r = true := by
  have h := hinv.exact
  obtain ⟨denies, resultBM, heq, hresult, hdenies⟩ :=
    query_spec version (ResourceKind.new kind) scope action roles .resource principalID h
  rw [heq, mem_append] at hb
  rcases hb with hb | hb
  · -- a query that selects nothing makes nothing up
    obtain ⟨f, hf, hselects, rfl⟩ := hdenies.resolve_left fun hnone => by
      rw [hnone.1] at hb
      exact not_mem_nil hb
    unfold queryDenies at hb
    split at hb
    next hcond =>
        refine ⟨hcond.1, hcond.2.1, hselects, ?_⟩
        obtain ⟨role', -, rep, hrep, hmem⟩ :=
          (mem_rolePolicyDenies_iff f (ne_nil_of_mem hrole) b).mp hb
        obtain rfl := role_eq_of_mem_roleDenies hmem hd
        exact ((exists_representative_iff h hf (ne_nil_of_mem hrole) _).mp ⟨rep, hrep⟩).2
    next => exact (not_mem_nil hb).elim
  · obtain ⟨j, hj, -⟩ := (hresult.mem_bindingsOf b).mp hb
    exact absurd hd (not_isRoleDeny_of_live hinv.provenance hj role action)

/-- **Role policies deny what they do not list exactly when the query gets that far.**  On
every index reachable by `IndexRule` and `DeletePolicy` and for every query for resource
policies: each queried role that has a role policy for the version and scope, none of whose
lists covers the resource kind and names the action, is given its unconditional DENY iff, for
each such role, the action and the kind are not empty, some indexed binding is selected by
the filters of the query, and a queried role matches the role's own key. -/
theorem roleDeny_iff_reached {x : Externals} {rows : List RuleRow} {ix : Index}
    (hreach : Reachable x rows ix) (version scope kind action principalID : String)
    (roles : List String) : (∀ role ∈ roles, HasRolePolicy ix version scope role →
        ¬ RolePolicyAllows x ix version scope role kind action →
        ∃ b ∈ ix.query x version (ResourceKind.new kind) scope action roles .resource principalID,
          IsRoleDeny role action b) ↔ (∀ role ∈ roles, HasRolePolicy ix version scope role →
        ¬ RolePolicyAllows x ix version scope role kind action → action ≠ "" ∧ kind ≠ "" ∧
        (∃ i b, ix.getBinding i = some b ∧
          Selects x version (ResourceKind.new kind) scope roles .resource principalID b) ∧
        ∃ r ∈ roles, keyMatches x role r = true) := by
  have hinv := hreach.inv
  refine ⟨fun hall role hrole hpolicy hnot => ?_, fun hall role hrole hpolicy hnot => ?_⟩
  · obtain ⟨b, hb, hd⟩ := hall role hrole hpolicy hnot
    exact reached_of_roleDeny hinv hrole hb hd
  · obtain ⟨ha, hk, hselects, hseen⟩ := hall role hrole hpolicy hnot
    exact roleDeny_of_reached hinv.exact hrole hpolicy hnot ha hk hselects hseen

/-! ## §5. A role policy that is skipped. -/

/-- A role policy of `contractor` in the scope `acme` that lists `view` on one resource. -/
def contractorRow : RuleRow where
  originFqn := "cerbos.role.contractor.vdefault/acme"
  role := "contractor"
  resource := "leave_request"
  actionSet := some (.allowActions ["view"])
  scope := "acme"
  version := "default"
  params := some { orderedVariables := [], constants := [] }
  evaluationKeyTuple := some { keyPrefix := Namer.rolePoliciesPrefix, resource := "leave_request",
                               role := "contractor", version := "default", scope := "acme" }
  policyKind := .resource
  fromRolePolicy := true

/-- The index that holds that one row. -/
def contractorIndex : Index :=
  match Index.new.indexRule Externals.sample contractorRow with
  | .ok ix => ix
  | .error ix => ix

theorem contractorIndex_reachable : Reachable Externals.sample [contractorRow] contractorIndex :=
  Reachable.indexRule contractorRow Reachable.new rfl

theorem contractorIndex_getBinding (i : Nat) (hi : i ≠ 0) : contractorIndex.getBinding i = none := by
  cases i with
  | zero => exact absurd rfl hi
  | succ => rfl

/-- **The DENY is missing where the resource is not indexed.**  The contractor's role policy
lists nothing on `salary_record`, but no binding of that scope is indexed under the kind, so
the query returns before the role policies are looked at. -/
theorem roleDeny_missing_on_unindexed_kind :
    HasRolePolicy contractorIndex "default" "acme" "contractor" ∧
      ¬ RolePolicyAllows Externals.sample contractorIndex "default" "acme" "contractor"
        "salary_record" "view" ∧
      contractorIndex.query Externals.sample "default" (ResourceKind.new "salary_record") "acme"
        "view" ["contractor"] .resource "" = [] := by
  refine ⟨⟨0, _, rfl, ⟨rfl, rfl, rfl, Or.inr rfl⟩⟩, ?_, by decide +kernel⟩
  rintro ⟨i, b, hb, -, hresource, -⟩
  by_cases hi : i = 0
  · subst hi
    obtain rfl := Option.some.inj hb
    exact absurd hresource (by decide +kernel)
  · rw [contractorIndex_getBinding i hi] at hb
    exact nomatch hb

theorem contractor_not_allowed : ¬ RolePolicyAllows Externals.sample contractorIndex "default" "acme"
    "contractor" "leave_request" "approve" := by
  rintro ⟨i, b, hb, -, -, hallows⟩
  by_cases hi : i = 0
  · subst hi
    obtain rfl := Option.some.inj hb
    exact absurd hallows (by decide +kernel)
  · rw [contractorIndex_getBinding i hi] at hb
    exact nomatch hb

/-- On the kind that the policy covers, the query reaches the synthesis and denies what the
list does not name. -/
theorem roleDeny_iff_reached_contractor :
    HasRolePolicy contractorIndex "default" "acme" "contractor" ∧
      ¬ RolePolicyAllows Externals.sample contractorIndex "default" "acme" "contractor"
        "leave_request" "approve" ∧
      ∃ b ∈ contractorIndex.query Externals.sample "default" (ResourceKind.new "leave_request")
        "acme" "approve" ["contractor"] .resource "", IsRoleDeny "contractor" "approve" b := by
  have hpolicy : HasRolePolicy contractorIndex "default" "acme" "contractor" :=
    ⟨0, _, rfl, ⟨rfl, rfl, rfl, Or.inr rfl⟩⟩
  refine ⟨hpolicy, contractor_not_allowed, ?_⟩
  refine (roleDeny_iff_reached contractorIndex_reachable "default" "acme" "leave_request" "approve" ""
    ["contractor"]).mpr ?_ "contractor" (by decide) hpolicy contractor_not_allowed
  intro role hrole _ _
  obtain rfl := mem_singleton.mp hrole
  exact ⟨by decide, by decide, ⟨0, _, rfl, rfl, .inr ⟨rfl, by decide⟩, .inr (by decide +kernel),
    .inr ⟨_, hrole, by decide +kernel⟩, .inr rfl, .inl rfl⟩, ⟨_, hrole, by decide +kernel⟩⟩

/-! ## §6. What the synthetic bindings mean. -/

/-- A truth assignment to the expressions, by the variables and constants they refer to. -/
abbrev Truth := Option RowParams → Expr → Bool

theorem holds_none_singleton (truth : Expr → Bool) (c : Condition) :
    Condition.holds truth (.none [c]) = !c.holds truth := by
  simp [Condition.holds, Condition.holdNot]

/-- The conditions of the binding hold. -/
structure Satisfies (σ : Truth) (b : BindingHandle) : Prop where
  condition : ∀ c, b.core.condition = some c → c.holds (σ b.core.params) = true
  derivedRole : ∀ c, b.core.derivedRoleCondition = some c →
    c.holds (σ b.core.derivedRoleParams) = true

/-- The condition of the binding is false. -/
def Fails (σ : Truth) (b : BindingHandle) : Prop :=
  ∃ c, b.core.condition = some c ∧ c.holds (σ b.core.params) = false

/-- **The promise of a role policy.**  The role has one for the version and scope, and either no
list of it covers the resource and the action, or one that does has a condition that is false. -/
def PolicyDenies (x : Externals) (ix : Index) (σ : Truth) (version scope kind action : String)
    (role : String) : Prop :=
  HasRolePolicy ix version scope role ∧ (¬ RolePolicyAllows x ix version scope role kind action ∨
      ∃ i b, ix.getBinding i = some b ∧ OfRolePolicy version scope role b ∧
        resourceMatches x b (ResourceKind.new kind) .resource = true ∧
        b.allowsAction x action = true ∧ Fails σ b)

/-- An allow list that names the action denies when its condition is false. -/
theorem allowListBinding_denies_iff (σ : Truth) (action : String) (mb : BindingHandle) :
    (∃ d, allowListBinding action mb = some d ∧ d.core.effect = .deny ∧ Satisfies σ d) ↔
      Fails σ mb := by
  unfold allowListBinding Fails
  cases hc : mb.core.condition with
  | none =>
    refine iff_of_false ?_ (by simp)
    rintro ⟨d, hd, heffect, -⟩
    cases ho : mb.core.emitOutput <;> rw [ho] at hd <;> cases hd
    cases heffect
  | some cond =>
    constructor
    · rintro ⟨d, hd, -, hsat⟩
      obtain rfl := Option.some.inj hd
      have hnone := hsat.condition _ rfl
      rw [holds_none_singleton, Bool.not_eq_true'] at hnone
      exact ⟨cond, rfl, hnone⟩
    · rintro ⟨c, hc', hfalse⟩
      obtain rfl := Option.some.inj hc'
      exact ⟨_, rfl, rfl, by simp [holds_none_singleton, hfalse], by simp⟩

/-- The synthesis for one role and action. -/
theorem roleDenies_denies_iff (σ : Truth) (role : String)
    (rep : BindingHandle) (roleBindings : List BindingHandle) (action : String) :
    (∃ d ∈ roleDenies x resource role rep roleBindings [action],
        d.core.effect = .deny ∧ Satisfies σ d) ↔
      (∀ b ∈ roleBindings, b.allowsAction x action = false) ∨
        ∃ b ∈ roleBindings, b.allowsAction x action = true ∧ Fails σ b := by
  have hnew : ∀ version scope kind,
      Satisfies σ (newNoMatchRolePolicyDeny role version scope kind action) :=
    fun _ _ _ => ⟨fun c hc => (by cases hc), fun c hc => (by cases hc)⟩
  simp only [mem_roleDenies_iff]
  constructor
  · rintro ⟨d, ⟨hno, -⟩ | ⟨b, hb, hallow, hlist⟩, hdeny⟩
    · exact .inl hno
    · exact .inr ⟨b, hb, hallow, (allowListBinding_denies_iff σ action b).mp ⟨d, hlist, hdeny⟩⟩
  · rintro (hno | ⟨b, hb, hallow, hfails⟩)
    · exact ⟨_, .inl ⟨hno, rfl⟩, rfl, hnew _ _ _⟩
    · obtain ⟨d, hlist, hdeny⟩ := (allowListBinding_denies_iff σ action b).mpr hfails
      exact ⟨d, .inr ⟨b, hb, hallow, hlist⟩, hdeny⟩

/-- The synthesis keeps the promise of the policies of the roles that are seen. -/
theorem rolePolicyDenies_denies_iff (h : Exact x ix) {f : QueryFilters}
    (hf : FiltersOk ix x version (ResourceKind.new kind) scope roles .resource principalID f)
    (hroles : roles ≠ []) (action : String) (σ : Truth) :
    (∃ d ∈ ix.rolePolicyDenies x [ResourceKind.new kind] roles [action] f.versionBM
        (some f.scopeBM) f.roleBM, d.core.effect = .deny ∧ Satisfies σ d) ↔
      ∃ role ∈ roles, (∃ r ∈ roles, keyMatches x role r = true) ∧
        PolicyDenies x ix σ version scope kind action role := by
  have hrole : ∀ role, (∃ r ∈ roles, keyMatches x role r = true) → ∀ rep,
      ((∃ d ∈ roleDenies x (ResourceKind.new kind) role rep
          (roleBindings x ix f (ResourceKind.new kind) role) [action],
            d.core.effect = .deny ∧ Satisfies σ d) ↔
        ¬ RolePolicyAllows x ix version scope role kind action ∨
          ∃ i b, ix.getBinding i = some b ∧ OfRolePolicy version scope role b ∧
            resourceMatches x b (ResourceKind.new kind) .resource = true ∧
            b.allowsAction x action = true ∧ Fails σ b) := by
    intro role hseen rep
    have hmem := mem_roleBindings_iff h hf hseen
    rw [roleDenies_denies_iff]
    simp only [RolePolicyAllows]
    grind
  constructor
  · rintro ⟨d, hd, hdeny⟩
    obtain ⟨role, hin, rep, hrep, hmem⟩ := (mem_rolePolicyDenies_iff f hroles d).mp hd
    obtain ⟨hpolicy, hseen⟩ := (exists_representative_iff h hf hroles role).mp ⟨rep, hrep⟩
    exact ⟨role, hin, hseen, hpolicy, (hrole role hseen rep).mp ⟨d, hmem, hdeny⟩⟩
  · rintro ⟨role, hin, hseen, hpolicy, hprovides⟩
    obtain ⟨rep, hrep⟩ := (exists_representative_iff h hf hroles role).mpr ⟨hpolicy, hseen⟩
    obtain ⟨d, hmem, hdeny⟩ := (hrole role hseen rep).mpr hprovides
    exact ⟨d, (mem_rolePolicyDenies_iff f hroles d).mpr ⟨role, hin, rep, hrep, hmem⟩, hdeny⟩

/-- What a policy file may give as the role of a role policy. -/
def validRoleName (role : String) : Bool :=
  role != "" && role.toList.all (fun c => !"!*?[]\x7b\x7d".toList.contains c)

theorem keyMatches_of_validRoleName (x : Externals) (h : validRoleName role = true) :
    keyMatches x role role = true := by
  obtain ⟨hne, hall⟩ := Bool.and_eq_true_iff.mp h
  have hliteral : isGlob role = false := by
    unfold isGlob
    rw [Bool.eq_false_iff, Ne, List.contains_iff_mem]
    intro hstar
    have hvalid := List.all_eq_true.mp hall '*' hstar
    exact absurd hvalid (by decide)
  unfold keyMatches
  rw [hliteral]
  simpa using hne

/-- A role with a role policy is the role of a row that was indexed. -/
theorem exists_row_of_hasRolePolicy (h : Provenance x rows ix)
    (hpolicy : HasRolePolicy ix version scope role) :
    ∃ row ∈ rows, row.role = role ∧ ∃ as, row.actionSet = some (.allowActions as) := by
  obtain ⟨i, b, hb, hof⟩ := hpolicy
  obtain ⟨⟨b', k⟩, hget, rfl⟩ := Option.map_eq_some_iff.mp hb
  obtain ⟨row, hrow, core, -, hb', -⟩ := h.bindings i b' k hget
  refine ⟨row, hrow, by rw [← hof.role, hb']; rfl, ?_⟩
  have hallow := hof.allowActions
  rw [hb', handleOf] at hallow
  dsimp only at hallow
  split at hallow
  · next as has => exact ⟨as, has⟩
  · cases hallow

/-- **Synthetic DENY bindings mean what role policies promise**: where the synthesis is reached,
one of them is satisfied exactly if a role of the list has a role policy for the version and scope
that does not list the action for the resource, or lists it under a condition that is false. -/
theorem denies_mean {x : Externals} {rows : List RuleRow} {ix : Index}
    (hreach : Reachable x rows ix)
    (hnames : ∀ row ∈ rows, ∀ as, row.actionSet = some (.allowActions as) →
      validRoleName row.role = true) {version scope kind action principalID : String}
    {roles : List String} {f : QueryFilters} (hroles : roles ≠ [])
    (hf : ix.queryFilters x version (ResourceKind.new kind) scope roles .resource principalID =
      some f) (σ : Truth) :
    (∃ d ∈ ix.rolePolicyDenies x [ResourceKind.new kind] roles [action] f.versionBM
        (some f.scopeBM) f.roleBM, d.core.effect = .deny ∧ Satisfies σ d) ↔
      ∃ role ∈ roles, PolicyDenies x ix σ version scope kind action role := by
  have hspec := queryFilters_spec hreach.inv.exact version (ResourceKind.new kind) scope roles
    .resource principalID
  rw [hf] at hspec
  rw [rolePolicyDenies_denies_iff hreach.inv.exact hspec.1 hroles action σ]
  constructor
  · rintro ⟨role, hin, -, hdeny⟩
    exact ⟨role, hin, hdeny⟩
  · rintro ⟨role, hin, hdeny⟩
    -- the role is seen, since its name is no pattern
    obtain ⟨row, hrow, rfl, as, has⟩ := exists_row_of_hasRolePolicy hreach.inv.provenance hdeny.1
    exact ⟨row.role, hin, ⟨row.role, hin, keyMatches_of_validRoleName x (hnames row hrow as has)⟩,
      hdeny⟩

/-- A role policy of `auditor` that lists two actions on every resource, under a condition. -/
def auditorRow : RuleRow :=
  { contractorRow with
    originFqn := "cerbos.role.auditor.vdefault/acme", role := "auditor", resource := "*"
    actionSet := some (.allowActions ["approve", "view"])
    condition := some (.expr { original := "R.attr.open", checked := none }) }

def twoRolesIndex : Index :=
  match contractorIndex.indexRule Externals.sample auditorRow with
  | .ok ix => ix
  | .error ix => ix

/-- The contractor's list does not name the action; the auditor's does, and its condition holds. -/
theorem denies_mean_two_roles : ∃ f,
    twoRolesIndex.queryFilters Externals.sample "default" (ResourceKind.new "leave_request")
      "acme" ["auditor", "contractor"] .resource "" = some f ∧
    ∃ d ∈ twoRolesIndex.rolePolicyDenies Externals.sample [ResourceKind.new "leave_request"]
        ["auditor", "contractor"] ["approve"] f.versionBM (some f.scopeBM) f.roleBM,
        d.core.effect = .deny ∧ Satisfies (fun _ _ => true) d := by
  obtain ⟨f, hf⟩ := Option.isSome_iff_exists.mp
    (show (twoRolesIndex.queryFilters Externals.sample "default" (ResourceKind.new "leave_request")
      "acme" ["auditor", "contractor"] .resource "").isSome = true by decide +kernel)
  have hreach : Reachable Externals.sample [auditorRow, contractorRow] twoRolesIndex :=
    Reachable.indexRule auditorRow contractorIndex_reachable rfl
  refine ⟨f, hf, (denies_mean hreach ?_ (cons_ne_nil _ _) hf _).mpr
    ⟨"contractor", by decide, ⟨0, _, rfl, ⟨rfl, rfl, rfl, .inr rfl⟩⟩, .inl ?_⟩⟩
  · intro row hrow _ _
    simp only [mem_cons, not_mem_nil, or_false] at hrow
    obtain rfl | rfl := hrow <;> decide +kernel
  · rintro ⟨i, b, hb, hpolicy, -, hallows⟩
    cases i with
    | zero =>
      obtain rfl := Option.some.inj hb
      exact absurd hallows (by decide +kernel)
    | succ i =>
      cases i with
      | zero =>
        obtain rfl := Option.some.inj hb
        exact absurd hpolicy.role (by decide +kernel)
      | succ => cases hb

end AccessManagement.Index
