/-
  AccessManagement.Index.QuerySpec — A QUERY IS A LINEAR SCAN.

  On an exact index, each filter of a query is a predicate on live bindings, and the whole
  intersection is the conjunction of the predicates (`Selects`).  The early exits are
  harmless for the INDEXED bindings: each of them only fires when no live binding satisfies
  the conjunction, and then there is nothing to return.

  Main results:
    * `GlobExact.query`, `Exact.resourceQuery` — the glob dimensions as predicates.
    * `queryFilters_spec` — the filters a query goes on with, or why it left.
    * `query_spec`, `mem_query_of_returns`, `mem_query` — the bindings a query returns.
-/
import AccessManagement.Index.Invariant
import AccessManagement.Index.Query

namespace AccessManagement.Index

open Lib List IdSet Postings

variable {ix : Index} {x : Externals} {b : BindingHandle} {version : String}

/-! ## §1. Sets of IDs as predicates on live bindings. -/

/-- The set holds exactly the IDs of the live bindings that satisfy `P`. -/
def Selected (ix : Index) (bm : IdSet) (P : BindingHandle → Prop) : Prop :=
  ∀ i, bm.has i = true ↔ ∃ b, ix.getBinding i = some b ∧ P b

section Selected

variable {s t : IdSet} {P Q : BindingHandle → Prop}

/-- The posting set of one key of an exact family. -/
theorem Tracks.selected {κ : Type} [DecidableEq κ] {d : Postings κ}
    {carries : BindingHandle → κ → Prop} (h : Tracks ix d.has carries) (k : κ) :
    Selected ix (d.get k) (fun b => carries b k) :=
  fun i => h k i

variable (hs : Selected ix s P)

include hs

theorem Selected.union (ht : Selected ix t Q) : Selected ix (s.union t) (fun b => P b ∨ Q b) := by
  intro i
  rw [has_union, Bool.or_eq_true, hs i, ht i]
  grind

theorem Selected.inter (ht : Selected ix t Q) : Selected ix (s.inter t) (fun b => P b ∧ Q b) := by
  intro i
  rw [has_inter, Bool.and_eq_true, hs i, ht i]
  grind

theorem Selected.congr (hpq : ∀ b, P b ↔ Q b) : Selected ix s Q := by
  simpa [Selected, hpq] using hs

/-- An empty set says that no live binding satisfies its predicate. -/
theorem Selected.none_of_isEmpty (he : s.isEmpty = true) (i : Nat)
    (b : BindingHandle) (hb : ix.getBinding i = some b) : ¬ P b := by
  intro hp
  have hi := (hs i).mpr ⟨b, hb, hp⟩
  rw [(isEmpty_iff s).mp he i] at hi
  exact Bool.noConfusion hi

theorem Selected.isEmpty_eq_false_iff : s.isEmpty = false ↔ ∃ i b, ix.getBinding i = some b ∧ P b := by
  rw [IdSet.isEmpty_eq_false_iff]
  exact exists_congr (fun i => hs i)

/-- **The bindings behind a set are the live ones that satisfy its predicate.** -/
theorem Selected.mem_bindingsOf (b : BindingHandle) :
    b ∈ ix.bindingsOf s ↔ ∃ i, ix.getBinding i = some b ∧ P b := by
  unfold bindingsOf
  simp only [mem_filterMap, mem_ids, hs _]
  grind

end Selected

/-! ## §2. Dimensions with globs. -/

/-- A stored key matches a queried value: a pattern by matching it, a literal by being it. -/
def keyMatches (x : Externals) (key value : String) : Bool :=
  if isGlob key then x.matchesGlob key value else key ≠ "" && key == value

variable {P : BindingHandle → Prop}

theorem compiles_of_matchesGlob {g v : String} (h : x.matchesGlob g v = true) :
    (x.getOrCompileGlob g).isSome = true := by
  unfold Externals.matchesGlob at h
  grind

section Globs

variable {d : GlobDimension} {value : BindingHandle → String}

variable (h : GlobExact x ix d value)

include h

theorem GlobExact.globsWhere (p : String → Bool)
    (hp : ∀ g, p g = true → (x.getOrCompileGlob g).isSome = true) :
    Selected ix (d.globs.unionWhere p) (fun b => isGlob (value b) = true ∧ p (value b) = true) := by
  intro i
  rw [has_unionWhere]
  simp only [h.globs _ i]
  grind

/-- **A glob dimension answers with the bindings whose key matches.** -/
theorem GlobExact.query (v : String) :
    Selected ix (d.query x v) (fun b => keyMatches x (value b) v = true) := by
  refine ((h.literals.selected v).union
    (h.globsWhere _ (fun g hg => compiles_of_matchesGlob hg))).congr (fun b => ?_)
  unfold keyMatches
  grind

theorem GlobExact.queryMultiple (vs : List String) :
    Selected ix (d.queryMultiple x vs) (fun b => ∃ v ∈ vs, keyMatches x (value b) v = true) := by
  intro i
  rw [GlobDimension.queryMultiple, has_unionAll, any_map, any_eq_true]
  simp only [Function.comp_apply, h.query _ i]
  grind

end Globs

/-! ## §3. The resource of a binding. -/

/-- A binding is indexed under the resource kind: literally, in either form, or by a glob
for the kind as written; the globs of principal policies also see the sanitised form, unless
the query is for resource policies. -/
def resourceMatches (x : Externals) (b : BindingHandle) (r : ResourceKind) (kind : Kind) : Bool :=
  if r.sanitized = "" then keyMatches x b.resource r.raw
  else if isGlob b.resource then
    x.matchesGlob b.resource r.raw || (x.matchesGlob b.resource r.sanitized &&
        (kind == .principal || (kind != .resource && b.core.policyKind == .principal)))
  else b.resource ≠ "" && (b.resource == r.raw || b.resource == r.sanitized)

theorem Exact.sanitizedOnlyGlobs (h : Exact x ix) (r : ResourceKind) (kind : Kind) :
    Selected ix (ix.sanitizedOnlyGlobs x r kind) (fun b => (isGlob b.resource = true ∧
        (!x.matchesGlob b.resource r.raw && x.matchesGlob b.resource r.sanitized) = true) ∧
      (kind = .principal ∨ (kind ≠ .resource ∧ b.core.policyKind = .principal))) := by
  have hglobs := h.resource.globsWhere
    (fun g => !x.matchesGlob g r.raw && x.matchesGlob g r.sanitized)
    (fun g hg => compiles_of_matchesGlob (Bool.and_eq_true _ _ ▸ hg).2)
  have hmask := hglobs.inter (h.policyKind.selected .principal)
  unfold Index.sanitizedOnlyGlobs
  split
  · intro i
    simp
  · exact hglobs.congr (fun b => by simp)
  · next hresource hprincipal => exact hmask.congr (fun b => by grind)

/-- **The resource query, as a predicate.** -/
theorem Exact.resourceQuery (h : Exact x ix) (r : ResourceKind) (kind : Kind) :
    Selected ix (ix.resourceQuery x r kind) (fun b => resourceMatches x b r kind = true) := by
  unfold Index.resourceQuery resourceMatches
  by_cases hs : r.sanitized = ""
  · simp only [if_pos hs]
    exact h.resource.query r.raw
  · simp only [if_neg hs]
    refine ((((h.resource.literals.selected r.raw).union
      (h.resource.literals.selected r.sanitized)).union
      (h.resource.globsWhere (fun g => x.matchesGlob g r.raw)
        (fun g hg => compiles_of_matchesGlob hg))).union
      (h.sanitizedOnlyGlobs r kind)).congr (fun b => ?_)
    by_cases hg : isGlob b.resource = true
    · -- a pattern is stored among the globs only
      grind
    · simp
      grind

/-! ## §4. The filters of a query. -/

/-- What a filter stands for: it left early because no live binding satisfies `P`, it does
not restrict because all bindings do, or its set holds those that do. -/
def FilterSpec (ix : Index) (o : Option (Option IdSet)) (P : BindingHandle → Prop) : Prop :=
  match o with
  | none => ∀ i b, ix.getBinding i = some b → ¬ P b
  | some none => ∀ b, P b
  | some (some bm) => Selected ix bm P

theorem exactFilter_spec {κ : Type} [DecidableEq κ] {d : Postings κ}
    {carries : BindingHandle → κ → Prop} (h : Tracks ix d.has carries) (unset value : κ) :
    FilterSpec ix (exactFilter d unset value) (fun b => value = unset ∨ carries b value) := by
  unfold exactFilter
  split
  · next hv => exact fun b => .inl hv
  · next hv =>
    have hi := h value
    cases hg : d.get? value with
    | none =>
      intro i b hb hor
      have := has_of_get?_none hg i
      grind
    | some bm =>
      have hbm : Selected ix bm (fun b => carries b value) := fun i => by
        rw [← hi i, has_of_get? hg]
      exact hbm.congr (fun b => by simp [hv])

theorem setFilter_spec {bm : IdSet} (h : Selected ix bm P) (restrict : Bool) :
    FilterSpec ix (setFilter restrict bm) (fun b => restrict = false ∨ P b) := by
  unfold setFilter
  cases restrict with
  | false => exact fun b => .inl rfl
  | true =>
    cases he : bm.isEmpty with
    | true => exact fun i b hb hor => h.none_of_isEmpty he i b hb (by simpa using hor)
    | false => exact h.congr (fun b => by simp)

/-- A filter that is not the reason to leave early. -/
theorem FilterSpec.bind {o : Option (Option IdSet)} {S : BindingHandle → Prop}
    {R : QueryFilters → Prop} {k : Option IdSet → Option QueryFilters} (h : FilterSpec ix o P)
    (hS : ∀ b, S b → P b) (hk : ∀ bm, FilterSpec ix (some bm) P → (k bm).elim
      (∀ i b, ix.getBinding i = some b → ¬ S b) R) :
    (o.bind k).elim (∀ i b, ix.getBinding i = some b → ¬ S b) R := by
  cases o with
  | none => exact fun i b hb hs => h i b hb (hS b hs)
  | some bm => exact hk bm h

/-- Adding the filters that are set to an intersection. -/
theorem FilterSpec.interAll {s : IdSet} {Q : BindingHandle → Prop}
    {o : Option IdSet} (hs : Selected ix s P) (ho : FilterSpec ix (some o) Q) :
    Selected ix (interAll s o.toList) (fun b => P b ∧ Q b) := by
  cases o with
  | none => exact hs.congr (fun b => by simp [ho b])
  | some => exact hs.inter ho

theorem interAll_append (s : IdSet) (xs ys : List IdSet) :
    interAll s (xs ++ ys) = interAll (interAll s xs) ys :=
  foldl_append

/-- **What a query selects**: the value of each dimension, where the query restricts it. -/
structure Selects (x : Externals) (version : String) (resource : ResourceKind) (scope : String)
    (roles : List String) (kind : Kind) (principalID : String) (b : BindingHandle) : Prop where
  scope : b.scope = scope
  version : version = "" ∨ (b.version = version ∧ version ≠ "")
  resource : resource.raw = "" ∨ resourceMatches x b resource kind = true
  roles : roles = [] ∨ ∃ r ∈ roles, keyMatches x b.role r = true
  kind : kind = .unspecified ∨ b.core.policyKind = kind
  principal : principalID = "" ∨ (b.principal = principalID ∧ principalID ≠ "")

/-- The parts of the filters that the synthesis of DENY bindings goes on with. -/
structure FiltersOk (ix : Index) (x : Externals) (version : String) (resource : ResourceKind)
    (scope : String) (roles : List String) (kind : Kind) (principalID : String)
    (f : QueryFilters) : Prop where
  base : Selected ix f.baseBM (Selects x version resource scope roles kind principalID)
  scope : Selected ix f.scopeBM (fun b => b.scope = scope)
  version : FilterSpec ix (some f.versionBM)
    (fun b => version = "" ∨ (b.version = version ∧ version ≠ ""))
  role : FilterSpec ix (some f.roleBM)
    (fun b => roles = [] ∨ ∃ r ∈ roles, keyMatches x b.role r = true)

/-- **The filters of a query.**  Either no live binding is selected and the query has left
early, or it goes on with filters that mean what they say. -/
theorem queryFilters_spec (h : Exact x ix) (version : String)
    (resource : ResourceKind) (scope : String) (roles : List String) (kind : Kind)
    (principalID : String) : (ix.queryFilters x version resource scope roles kind principalID).elim
      (∀ i b, ix.getBinding i = some b →
        ¬ Selects x version resource scope roles kind principalID b)
      (fun f => FiltersOk ix x version resource scope roles kind principalID f ∧
        ∃ i b, ix.getBinding i = some b ∧
          Selects x version resource scope roles kind principalID b) := by
  unfold queryFilters
  split
  · next hu =>
    intro i b hb _
    have hi : ix.universeBitmap.has i = true := (h.universeBitmap () i).mpr ⟨b, hb, trivial⟩
    rw [(isEmpty_iff _).mp hu i] at hi
    cases hi
  · simp only [Option.bind_eq_bind]
    refine (exactFilter_spec h.principal "" principalID).bind (fun b hb => hb.principal)
      (fun principalBM hprincipal => ?_)
    cases hs : ix.scope.get? scope with
    | none =>
      intro i b hb hselects
      have hi := (h.scope scope i).mpr ⟨b, hb, hselects.scope⟩
      rw [has_of_get?_none hs] at hi
      cases hi
    | some scopeBM =>
    have hsc : Selected ix scopeBM (fun b => b.scope = scope) := fun i => by
      rw [← h.scope scope i, has_of_get? hs]
    refine (exactFilter_spec h.version "" version).bind (fun b hb => hb.version)
      (fun versionBM hversion => ?_)
    refine (setFilter_spec (h.resourceQuery resource kind) _).bind
      (fun b hb => by simpa using hb.resource) (fun resourceBM hresource => ?_)
    refine (setFilter_spec (h.role.queryMultiple roles) _).bind
      (fun b hb => by simpa using hb.roles) (fun roleBM hrole => ?_)
    refine (exactFilter_spec h.policyKind .unspecified kind).bind (fun b hb => hb.kind)
      (fun policyKindBM hkind => ?_)
    -- the intersection, one filter after the other
    have hbase : Selected ix (interAll scopeBM
        (versionBM.toList ++ resourceBM.toList ++ roleBM.toList ++ policyKindBM.toList ++
          principalBM.toList)) (Selects x version resource scope roles kind principalID) := by
      rw [interAll_append, interAll_append, interAll_append, interAll_append]
      refine (FilterSpec.interAll (FilterSpec.interAll (FilterSpec.interAll
        (FilterSpec.interAll (FilterSpec.interAll hsc hversion) hresource) hrole) hkind) hprincipal).congr
        (fun b => ⟨fun hall => ?_, fun hselects => ?_⟩)
      · obtain ⟨⟨⟨⟨⟨h1, h2⟩, h3⟩, h4⟩, h5⟩, h6⟩ := hall
        exact ⟨h1, h2, by simpa using h3, by simpa using h4, h5, h6⟩
      · exact ⟨⟨⟨⟨⟨hselects.scope, hselects.version⟩, by simpa using hselects.resource⟩,
          by simpa using hselects.roles⟩, hselects.kind⟩, hselects.principal⟩
    split
    · next he => exact fun i b hb hselects => hbase.none_of_isEmpty he i b hb hselects
    · next he =>
      refine ⟨⟨hbase, hsc, hversion, ?_⟩, hbase.isEmpty_eq_false_iff.mp (by simpa using he)⟩
      simpa using hrole

/-! ## §5. The bindings a query returns. -/

section Query

variable (version : String) (resource : ResourceKind) (scope action : String) (roles : List String)
  (kind : Kind) (principalID : String)

/-- The DENY bindings that `Query` puts in front of the indexed ones. -/
def queryDenies (x : Externals) (ix : Index) (f : QueryFilters) : List BindingHandle :=
  if action ≠ "" ∧ resource.raw ≠ "" ∧ kind = .resource ∧ ¬ ix.allowActionsBitmap.isEmpty then
    ix.rolePolicyDenies x [resource] roles [action] f.versionBM (some f.scopeBM) f.roleBM
  else []

/-- The indexed bindings that a query returns. -/
structure Returns (x : Externals) (b : BindingHandle) : Prop where
  selects : Selects x version resource scope roles kind principalID b
  action : action = "" ∨ keyMatches x (indexedAction b) action = true

/-- **A query** returns the selected bindings whose action matches, behind the DENY bindings of the
role policies if anything is selected. -/
theorem query_spec (h : Exact x ix) : ∃ denies resultBM,
    ix.query x version resource scope action roles kind principalID =
        denies ++ ix.bindingsOf resultBM ∧
      Selected ix resultBM (Returns version resource scope action roles kind principalID x) ∧
      ((denies = [] ∧ ∀ i b, ix.getBinding i = some b →
          ¬ Selects x version resource scope roles kind principalID b) ∨
        ∃ f, FiltersOk ix x version resource scope roles kind principalID f ∧
          (∃ i b, ix.getBinding i = some b ∧
            Selects x version resource scope roles kind principalID b) ∧
          denies = queryDenies resource action roles kind x ix f) := by
  have hspec := queryFilters_spec h version resource scope roles kind principalID
  unfold query
  cases hf : ix.queryFilters x version resource scope roles kind principalID with
  | none =>
    rw [hf] at hspec
    refine ⟨[], .empty, rfl, fun i => ?_, .inl ⟨rfl, hspec⟩⟩
    rw [has_empty]
    exact iff_of_false Bool.false_ne_true fun ⟨b, hb, hr⟩ => hspec i b hb hr.selects
  | some f =>
    rw [hf] at hspec
    obtain ⟨hok, hselects⟩ := hspec
    refine ⟨_, if action = "" then f.baseBM else f.baseBM.inter _, rfl, ?_,
      .inr ⟨f, hok, hselects, rfl⟩⟩
    by_cases ha : action = ""
    · rw [if_pos ha]
      exact hok.base.congr (fun b => ⟨fun hs => ⟨hs, Or.inl ha⟩, fun hr => hr.selects⟩)
    · rw [if_neg ha]
      exact (hok.base.inter (h.action.query action)).congr (fun b =>
        ⟨fun hs => ⟨hs.1, Or.inr hs.2⟩, fun hr => ⟨hr.selects, hr.action.resolve_left ha⟩⟩)

/-- **The indexed bindings of a query are a linear scan.**  A binding is returned behind the
synthetic ones iff it is live, selected, and carries a matching action. -/
theorem mem_query_of_returns (h : Exact x ix) {i : Nat} (hb : ix.getBinding i = some b)
    (hr : Returns version resource scope action roles kind principalID x b) :
    b ∈ ix.query x version resource scope action roles kind principalID := by
  obtain ⟨denies, resultBM, heq, hresult, -⟩ :=
    query_spec version resource scope action roles kind principalID h
  rw [heq, mem_append]
  exact Or.inr ((hresult.mem_bindingsOf b).mpr ⟨i, hb, hr⟩)

end Query

/-! ## §6. The synthetic bindings. -/

/-- What the bindings made up for role policies have in common: they grant nothing. -/
structure Synthetic (b : BindingHandle) : Prop where
  effect : b.core.effect ≠ .allow
  fromRolePolicy : b.core.fromRolePolicy = true
  policyKind : b.core.policyKind = .resource

/-- The bindings made up for role policies: the DENY of an unlisted action, or what a list
that names the action contributes. -/
inductive MadeUp (ix : Index) : BindingHandle → Prop
  | unlisted (role version scope resource action : String) :
      MadeUp ix (newNoMatchRolePolicyDeny role version scope resource action)
  | listed {i : Nat} {mb b : BindingHandle} (action : String) (live : ix.getBinding i = some mb)
      (isList : mb.allowActions.isSome = true) (h : allowListBinding action mb = some b) : MadeUp ix b

section MadeUp

variable {resource : ResourceKind}

theorem madeUp_of_mem_roleDenies {role : String} {rep : BindingHandle}
    {roleBindings : List BindingHandle} {actions : List String}
    (hlists : ∀ mb ∈ roleBindings, ∃ i, ix.getBinding i = some mb ∧ mb.allowActions.isSome = true)
    (h : b ∈ roleDenies x resource role rep roleBindings actions) : MadeUp ix b := by
  cases roleBindings with
  | nil =>
    obtain ⟨action, -, rfl⟩ := mem_map.mp h
    exact .unlisted ..
  | cons =>
    obtain ⟨action, -, h⟩ := mem_flatMap.mp h
    dsimp only at h
    split at h
    · rw [mem_singleton.mp h]
      exact .unlisted ..
    · obtain ⟨mb, hmb, hb⟩ := mem_filterMap.mp h
      obtain ⟨i, hlive, hlist⟩ := hlists mb (mem_of_mem_filter hmb)
      exact .listed action hlive hlist hb

theorem madeUp_of_mem_rolePolicyDenies (hx : Exact x ix) {resources : List ResourceKind}
    {roles targetActions : List String} {versionBM scopeBM roleBM : Option IdSet}
    (h : b ∈ ix.rolePolicyDenies x resources roles targetActions versionBM scopeBM roleBM) :
    MadeUp ix b := by
  obtain ⟨resource, -, h⟩ := mem_flatMap.mp h
  obtain ⟨role, -, h⟩ := mem_flatMap.mp h
  split at h
  · cases h
  · refine madeUp_of_mem_roleDenies (fun mb hmb => ?_) h
    -- every candidate is in the set of allow lists
    obtain ⟨i, hi, hmb⟩ := mem_filterMap.mp (mem_of_mem_filter hmb)
    rw [mem_ids, has_inter, has_interAll] at hi
    simp only [Bool.and_eq_true] at hi
    obtain ⟨b', hb', hsome⟩ := (hx.allowActionsBitmap () i).mp hi.1.1
    rw [hmb, Option.some.injEq] at hb'
    subst hb'
    exact ⟨i, hmb, hsome⟩

/-- What `Query` puts in front of the indexed bindings is made up for role policies. -/
theorem madeUp_of_mem_queryDenies (hx : Exact x ix) {action : String}
    {roles : List String} {kind : Kind} {f : QueryFilters}
    (h : b ∈ queryDenies resource action roles kind x ix f) :
    (action ≠ "" ∧ resource.raw ≠ "" ∧ kind = .resource) ∧ MadeUp ix b := by
  unfold queryDenies at h
  split at h
  · next hcond =>
    exact ⟨⟨hcond.1, hcond.2.1, hcond.2.2.1⟩, madeUp_of_mem_rolePolicyDenies hx h⟩
  · cases h

theorem MadeUp.synthetic (h : MadeUp ix b) : Synthetic b := by
  cases h with
  | unlisted => exact ⟨fun h => Effect.noConfusion h, rfl, rfl⟩
  | listed _ _ _ h =>
    unfold allowListBinding at h
    split at h <;> (try split at h) <;> cases h <;> exact ⟨fun h => Effect.noConfusion h, rfl, rfl⟩

end MadeUp

section Returned

variable {resource : ResourceKind} {scope action : String} {roles : List String} {kind : Kind}
  {principalID : String}

variable (h : Exact x ix)
  (hb : b ∈ ix.query x version resource scope action roles kind principalID)

include h hb

theorem mem_query_cases :
    (∃ f, b ∈ queryDenies resource action roles kind x ix f) ∨ ∃ i, ix.getBinding i = some b ∧
      Returns version resource scope action roles kind principalID x b := by
  obtain ⟨denies, resultBM, heq, hresult, hdenies⟩ :=
    query_spec version resource scope action roles kind principalID h
  rw [heq, mem_append, hresult.mem_bindingsOf b] at hb
  refine hb.imp_left fun hb => ?_
  rcases hdenies with ⟨rfl, -⟩ | ⟨f, -, -, rfl⟩
  · exact (not_mem_nil hb).elim
  · exact ⟨f, hb⟩

/-- **Whatever a query returns** is either an indexed binding that it selects, or, in a query
for resource policies, a binding made up for a role policy. -/
theorem mem_query : (kind = .resource ∧ Synthetic b) ∨ ∃ i, ix.getBinding i = some b ∧
      Returns version resource scope action roles kind principalID x b := by
  refine (mem_query_cases h hb).imp_left (fun ⟨f, hb⟩ => ?_)
  obtain ⟨hcond, hmade⟩ := madeUp_of_mem_queryDenies h hb
  exact ⟨hcond.2.2, hmade.synthetic⟩

omit h hb

/-- Without role policies, a query returns the indexed bindings that it selects and no other. -/
theorem mem_query_iff (h : Exact x ix)
    (hnone : ∀ i b, ix.getBinding i = some b → b.allowActions = none) :
    b ∈ ix.query x version resource scope action roles kind principalID ↔
    ∃ i, ix.getBinding i = some b ∧
      Returns version resource scope action roles kind principalID x b := by
  have hempty : ix.allowActionsBitmap.isEmpty = true := by
    rw [IdSet.isEmpty_iff]
    intro i
    have := h.allowActionsBitmap () i
    grind
  refine ⟨fun hb => ?_, fun ⟨i, hi, hr⟩ => mem_query_of_returns _ _ _ _ _ _ _ h hi hr⟩
  refine (mem_query_cases h hb).resolve_left (fun ⟨f, hb⟩ => ?_)
  unfold queryDenies at hb
  rw [if_neg (fun hcond => hcond.2.2.2 hempty)] at hb
  exact not_mem_nil hb

end Returned

/-! ## §7. The existence checks. -/

section Exists

variable {i : Nat} {scopes : List String}

variable (h : Exact x ix) (hb : ix.getBinding i = some b) (hversion : b.version = version)
  (hne : version ≠ "") (hscope : b.scope ∈ scopes)

include h hb hversion hne hscope

/-- What the two existence checks share: a live binding of the version and kind, in one of
the scopes, that satisfies the remaining filters. -/
theorem interAll_isEmpty_of_live {kind : Kind}
    (hkind : b.core.policyKind = kind) (others : List IdSet) (hothers : ∀ s ∈ others, s.has i = true) :
    ∃ versionBM kindBM, ix.version.get? version = some versionBM ∧
      ix.policyKind.get? kind = some kindBM ∧
      (IdSet.interAll versionBM (ix.scope.unionOver scopes :: (others ++ [kindBM]))).isEmpty =
        false := by
  obtain ⟨versionBM, hvb, hv⟩ := exists_get? ((h.version version i).mpr ⟨b, hb, hversion, hne⟩)
  obtain ⟨kindBM, hkb, hk⟩ := exists_get? ((h.policyKind kind i).mpr ⟨b, hb, hkind⟩)
  have hsc : (ix.scope.unionOver scopes).has i = true := by
    rw [has_unionOver, any_eq_true]
    exact ⟨b.scope, hscope, (h.scope b.scope i).mpr ⟨b, hb, rfl⟩⟩
  refine ⟨versionBM, kindBM, hvb, hkb, (IdSet.isEmpty_eq_false_iff _).mpr ⟨i, ?_⟩⟩
  rw [IdSet.has_interAll]
  simpa [hv, hsc, hk] using hothers

theorem scopedPrincipalExists_of_live
    (hkind : b.core.policyKind = .principal) : ix.scopedPrincipalExists version scopes = true := by
  obtain ⟨versionBM, kindBM, hvb, hkb, hlive⟩ :=
    interAll_isEmpty_of_live h hb hversion hne hscope hkind [] (by simp)
  unfold Index.scopedPrincipalExists
  cases scopes with
  | nil => exact (not_mem_nil hscope).elim
  | cons =>
    rw [hvb, hkb]
    exact congrArg not hlive

theorem scopedResourceExists_of_live
    (hkind : b.core.policyKind = .resource) {resource : ResourceKind}
    (hresource : resourceMatches x b resource .resource = true) :
    ix.scopedResourceExists x version resource scopes = true := by
  have hr := (h.resourceQuery resource .resource i).mpr ⟨b, hb, hresource⟩
  obtain ⟨versionBM, kindBM, hvb, hkb, hlive⟩ := interAll_isEmpty_of_live h hb hversion hne hscope hkind
    [ix.resourceQuery x resource .resource] (by simpa using hr)
  unfold Index.scopedResourceExists
  cases scopes with
  | nil => exact (not_mem_nil hscope).elim
  | cons =>
    rw [hvb, hkb]
    exact congrArg not hlive

end Exists

end AccessManagement.Index
