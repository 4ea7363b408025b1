/-
  AccessManagement.Index.Scan — A QUERY IS A LINEAR SCAN.

  `Query` never looks at a row to decide whether it matches: it intersects the posting sets of
  six dimensions, with several early exits.  Its specification is the opposite, a scan: go
  through the live rows in the order of their IDs and keep those that match (`scan`).

  On every reachable index the two agree (`query_eq_append_scan`), behind the bindings that are
  made up for role policies (`MadeUp`).

  The specification says `key = kind` only for keys that are NO patterns.  A pattern counts by
  matching, even for a kind that is spelled like it.
-/
import AccessManagement.Index.RolePolicies
import AccessManagement.Index.Layout

namespace AccessManagement

open Lib List

namespace Namer

theorem replaceInvalid_ne_nil (c : Char) (cs : List Char) : replaceInvalid false (c :: cs) ≠ [] := by
  unfold replaceInvalid
  split
  · exact cons_ne_nil _ _
  · rw [if_neg Bool.false_ne_true]
    exact cons_ne_nil _ _

/-- Only the empty kind is sanitised to nothing. -/
theorem sanitizedResource_ne_empty {kind : String} (h : kind ≠ "") : sanitizedResource kind ≠ "" := by
  have hchars : kind.toList ≠ [] := fun he => h (String.toList_eq_nil_iff.mp he)
  unfold sanitizedResource sanitize
  split
  · exact h
  · split
    · cases hc : kind.toList with
      | nil => exact absurd hc hchars
      | cons c cs =>
        intro he
        have hnil : replaceInvalid false (c :: cs) = [] := by
          have := congrArg String.toList he
          rwa [String.toList_ofList] at this
        exact replaceInvalid_ne_nil c cs hnil
    · exact h

end Namer

namespace Index

open Classical in
/-- **The bindings behind a set are the rows that satisfy its predicate**, in their order. -/
theorem Selected.bindingsOf_eq {ix : Index} {s : IdSet} {P : BindingHandle → Prop}
    (h : Selected ix s P) :
    ix.bindingsOf s = (ix.bindings.values.filter (fun r => decide (P r.1))).map (·.1) := by
  have hids : ix.bindingsOf s = (List.range (s.bits.log2 + 1)).filterMap
      (fun i => if s.has i then ix.getBinding i else none) := by
    unfold bindingsOf IdSet.ids
    rw [filterMap_filter]
  have hval : (ix.bindings.values.filter (fun r => decide (P r.1))).map (·.1) =
      (List.range ix.bindings.slots.length).filterMap
        (fun i => if s.has i then ix.getBinding i else none) := by
    rw [Slab.values_eq_filterMap, ← filterMap_eq_filter, filterMap_filterMap, map_filterMap]
    refine filterMap_congr (fun i _ => ?_)
    have hi := h i
    unfold getBinding at hi ⊢
    cases hg : ix.bindings.get? i with
    | none => simp
    | some r =>
      rw [hg] at hi
      have hhas : s.has i = decide (P r.1) := Bool.eq_iff_iff.mpr (by simpa using hi)
      by_cases hP : P r.1 <;> simp [hhas, Option.guard]
  rw [hids, hval]
  refine filterMap_range_eq (fun i hi => ?_) (fun i hi => ?_)
  · have hout : s.has i = false := by
      rw [Bool.eq_false_iff, ne_eq, ← IdSet.mem_ids]
      intro hmem
      exact absurd (mem_range.mp (mem_of_mem_filter hmem)) (Nat.not_lt.mpr hi)
    rw [hout]
    rfl
  · have hnone : ix.getBinding i = none := by
      unfold getBinding
      cases hg : ix.bindings.get? i with
      | none => rfl
      | some => exact absurd (Slab.lt_of_get? hg) (Nat.not_lt.mpr hi)
    rw [hnone, ite_self]

/-! ## §1. The specification. -/

/-- Does the resource key of a row match a kind?  A literal is the kind, as written or
sanitised; a pattern matches the kind as written and, in a principal policy, sanitised. -/
def resourceKeyMatches (x : Externals) (b : BindingHandle) (kind : String) : Bool :=
  if isGlob b.resource then
    x.matchesGlob b.resource kind ||
      (b.core.policyKind == .principal && x.matchesGlob b.resource (Namer.sanitizedResource kind))
  else b.resource == kind || b.resource == Namer.sanitizedResource kind

/-- Does a row match a query?  What is not given does not restrict. -/
def matchesQuery (x : Externals) (version resource scope action : String) (roles : List String)
    (kind : Kind) (principalID : String) (b : BindingHandle) : Bool :=
  b.scope == scope && (version == "" || b.version == version) &&
    (kind == .unspecified || b.core.policyKind == kind) &&
    (principalID == "" || b.principal == principalID) &&
    (roles.isEmpty || roles.any (fun r => keyMatches x b.role r)) &&
    (action == "" || (b.allowActions.isNone && keyMatches x b.action action)) &&
    (resource == "" || resourceKeyMatches x b resource)

/-- The live rows that match a query, in the order of their IDs. -/
def scan (x : Externals) (ix : Index) (version resource scope action : String)
    (roles : List String) (kind : Kind) (principalID : String) : List BindingHandle :=
  ix.getAllRows.filter (matchesQuery x version resource scope action roles kind principalID)

/-! ## §2. The parts of the specification. -/

section Parts

variable {x : Externals} {b : BindingHandle} {kind : Kind}

/-- In a query that is restricted to a policy kind, or to none, the resource query looks at the
key of a row as the specification does. -/
theorem resourceMatches_new {resource : String} (hresource : resource ≠ "")
    (hkind : kind = .unspecified ∨ b.core.policyKind = kind) :
    resourceMatches x b (ResourceKind.new resource) kind = resourceKeyMatches x b resource := by
  have hsanitized := Namer.sanitizedResource_ne_empty hresource
  unfold resourceMatches resourceKeyMatches ResourceKind.new keyMatches
  by_cases hsame : Namer.sanitizedResource resource = resource
  · rw [if_pos hsame, if_pos rfl]
    split <;> grind
  · rw [if_neg hsame, if_neg hsanitized]
    split <;> grind

theorem keyMatches_indexedAction {action : String} :
    keyMatches x (indexedAction b) action = (b.allowActions.isNone && keyMatches x b.action action) := by
  unfold indexedAction
  cases b.allowActions with
  | none => simp
  | some =>
    unfold keyMatches
    simp [isGlob_empty]

/-- **What the filters of a query return is what the specification wants.** -/
theorem returns_iff_matchesQuery {version resource scope action : String} {roles : List String}
    {principalID : String} :
    Returns version (ResourceKind.new resource) scope action roles kind principalID x b ↔
      matchesQuery x version resource scope action roles kind principalID b = true := by
  unfold matchesQuery
  rw [← keyMatches_indexedAction]
  simp only [Bool.and_eq_true, Bool.or_eq_true, beq_iff_eq, List.isEmpty_iff, List.any_eq_true]
  have hresource : (kind = .unspecified ∨ b.core.policyKind = kind) → ((resource = "" ∨
      resourceMatches x b (ResourceKind.new resource) kind = true) ↔
        (resource = "" ∨ resourceKeyMatches x b resource = true)) := by
    intro hkind
    by_cases hempty : resource = ""
    · simp [hempty]
    · rw [resourceMatches_new hempty hkind]
  refine ⟨fun h => ?_, fun h => ?_⟩
  · have hselects := h.selects
    exact ⟨⟨⟨⟨⟨⟨hselects.scope, hselects.version.imp_right And.left⟩, hselects.kind⟩,
      hselects.principal.imp_right And.left⟩, hselects.roles⟩, h.action⟩,
      (hresource hselects.kind).mp hselects.resource⟩
  · obtain ⟨⟨⟨⟨⟨⟨hscope, hversion⟩, hkind⟩, hprincipal⟩, hroles⟩, haction⟩, hkey⟩ := h
    exact ⟨⟨hscope, by grind, (hresource hkind).mpr hkey, hroles, hkind, by grind⟩, haction⟩

end Parts

/-! ## §3. Queries. -/

section Queries

variable {x : Externals} {ix : Index} {version resource scope action : String}
  {principalID : String} {roles : List String} {kind : Kind}

/-- The rows of a scan come in the order of their IDs. -/
theorem scan_pairwise (hx : Exact x ix) (version resource scope action : String)
    (roles : List String) (kind : Kind) (principalID : String) :
    (ix.scan x version resource scope action roles kind principalID).Pairwise
      (fun b b' => b.id < b'.id) := by
  have hrows : ix.getAllRows = (List.range ix.bindings.slots.length).filterMap ix.getBinding := by
    unfold getAllRows getBinding
    rw [Slab.values_eq_filterMap, map_filterMap]
  unfold scan
  rw [hrows]
  refine List.Pairwise.filter _ (pairwise_filterMap.mpr ?_)
  refine pairwise_lt_range.imp (fun {i j} hij b hb b' hb' => ?_)
  rw [hx.id_eq i b hb, hx.id_eq j b' hb']
  exact hij

/-- A row that a scan keeps is live, and every live row that matches is kept. -/
theorem mem_scan_iff {b : BindingHandle} :
    b ∈ ix.scan x version resource scope action roles kind principalID ↔
      (∃ i, ix.getBinding i = some b) ∧
        matchesQuery x version resource scope action roles kind principalID b = true := by
  unfold scan
  rw [mem_filter]
  refine and_congr_left (fun _ => ⟨fun h => ?_, fun h => ?_⟩)
  · obtain ⟨r, hr, rfl⟩ := mem_map.mp h
    obtain ⟨i, hi⟩ := (Slab.mem_values_iff _ _).mp hr
    exact ⟨i, Option.map_eq_some_iff.mpr ⟨r, hi, rfl⟩⟩
  · obtain ⟨i, hi⟩ := h
    obtain ⟨r, hr, rfl⟩ := Option.map_eq_some_iff.mp hi
    exact mem_map.mpr ⟨r, (Slab.mem_values_iff _ _).mpr ⟨i, hr⟩, rfl⟩

open Classical in
/-- The bindings behind a set that holds what the specification wants are a scan. -/
theorem Selected.bindingsOf_eq_scan {bm : IdSet} (h : Selected ix bm
      (Returns version (ResourceKind.new resource) scope action roles kind principalID x)) :
    ix.bindingsOf bm = ix.scan x version resource scope action roles kind principalID := by
  rw [h.bindingsOf_eq]
  unfold scan getAllRows
  rw [filter_map]
  refine congrArg _ (filter_congr (fun r _ => ?_))
  exact Bool.eq_iff_iff.mpr (decide_eq_true_iff.trans returns_iff_matchesQuery)

/-- **On an exact index, a query is a scan**, behind the bindings made up for role policies. -/
theorem Exact.query_eq_append_scan (hx : Exact x ix) (version resource scope action : String)
    (roles : List String) (kind : Kind) (principalID : String) : ∃ made, (∀ b ∈ made, MadeUp ix b) ∧
      (made ≠ [] → action ≠ "" ∧ resource ≠ "" ∧ kind = .resource) ∧
      ix.query x version (ResourceKind.new resource) scope action roles kind principalID =
        made ++ ix.scan x version resource scope action roles kind principalID := by
  obtain ⟨made, bm, heq, hresult, hmade⟩ :=
    query_spec version (ResourceKind.new resource) scope action roles kind principalID hx
  rw [hresult.bindingsOf_eq_scan] at heq
  rcases hmade with ⟨rfl, -⟩ | ⟨f, -, -, rfl⟩
  · exact ⟨[], fun b hb => (not_mem_nil hb).elim, fun hne => absurd rfl hne, heq⟩
  · refine ⟨_, fun b hb => (madeUp_of_mem_queryDenies hx hb).2, fun hne => ?_, heq⟩
    obtain ⟨b, hb⟩ := exists_mem_of_ne_nil _ hne
    exact (madeUp_of_mem_queryDenies hx hb).1

/-- **`Query` agrees with a linear scan** on every index that updates, compactions and queries
lead to. -/
theorem query_is_linear_scan {offered rows : List RuleRow} {l : Layout} (h : Run x offered rows ix l)
    (version resource scope action : String) (roles : List String) (kind : Kind)
    (principalID : String) : ∃ made, (∀ b ∈ made, MadeUp ix b) ∧
      ix.query x version (ResourceKind.new resource) scope action roles kind principalID =
        made ++ ix.scan x version resource scope action roles kind principalID ∧
      (ix.scan x version resource scope action roles kind principalID).Pairwise
        (fun b b' => b.id < b'.id) ∧
      ∀ b, b ∈ ix.scan x version resource scope action roles kind principalID ↔
        (∃ i, ix.getBinding i = some b) ∧
          matchesQuery x version resource scope action roles kind principalID b = true := by
  have hx := h.reachable.inv.exact
  obtain ⟨made, hmade, -, heq⟩ :=
    hx.query_eq_append_scan version resource scope action roles kind principalID
  exact ⟨made, hmade, heq, scan_pairwise hx .., fun b => mem_scan_iff⟩

end Queries

/-! ## §4. A kind that is spelled like a pattern. -/

/-- Globs with the class `[a]` in front, beside those of the sample. -/
def classGlob (g v : String) : Bool :=
  match g.toList with
  | '[' :: 'a' :: ']' :: p =>
    match v.toList with
    | 'a' :: w => globMatch p w
    | _ => false
  | p => globMatch p v.toList

def classGlobs : Externals :=
  { Externals.sample with globCompile := fun g => some (classGlob g) }

/-- A row of the policy of a principal, for every kind that starts with `a`. -/
def classRow : RuleRow where
  originFqn := "cerbos.principal.alice.vdefault"
  principal := "alice"
  resource := "[a]*"
  role := "*"
  actionSet := some (.action "view")
  effect := .allow
  scopePermissions := .overrideParent
  version := "default"
  policyKind := .principal

/-- The same for one kind, and for another. -/
def classRows : List RuleRow :=
  [classRow, { classRow with resource := "ab" }, { classRow with resource := "report" }]

def classIndex : Index := classRows.foldl (afterCall classGlobs) Index.new

theorem classIndex_run : ∃ l, Run classGlobs classRows.reverse classRows.reverse classIndex l := by
  have hfirst : Run classGlobs _ _ (afterCall classGlobs Index.new classRow) _ :=
    .indexRule classRow .new rfl
  have hsecond : Run classGlobs _ _ (afterCall classGlobs (afterCall classGlobs Index.new classRow)
      { classRow with resource := "ab" }) _ :=
    .indexRule { classRow with resource := "ab" } hfirst rfl
  exact ⟨_, (Run.indexRule { classRow with resource := "report" } hsecond rfl).compact⟩

/-- A query for a kind that starts with `a` finds two of the rows by a scan. -/
theorem class_query_is_scan :
    (classIndex.scan classGlobs "default" "ab" "" "view" ["user"] .principal "alice").map (·.id) =
      [0, 1] ∧ ∃ made, (∀ b ∈ made, MadeUp classIndex b) ∧
      classIndex.query classGlobs "default" (ResourceKind.new "ab") "" "view" ["user"] .principal
          "alice" =
        made ++ classIndex.scan classGlobs "default" "ab" "" "view" ["user"] .principal "alice" := by
  obtain ⟨l, hrun⟩ := classIndex_run
  obtain ⟨made, hmade, heq, -⟩ :=
    query_is_linear_scan hrun "default" "ab" "" "view" ["user"] .principal "alice"
  exact ⟨by decide +kernel, made, hmade, heq⟩

/-- The key of the row EQUALS the kind of the query, which restricts nothing else; it is not
found, because the pattern does not match its own text. -/
theorem pattern_not_found_by_its_text :
    (∃ l, Run classGlobs classRows.reverse classRows.reverse classIndex l) ∧
    ∃ b, classIndex.getBinding 0 = some b ∧ b.scope = "" ∧ b.resource = "[a]*" ∧
      b ∉ classIndex.query classGlobs "" (ResourceKind.new "[a]*") "" "" [] .unspecified "" := by
  obtain ⟨l, hrun⟩ := classIndex_run
  refine ⟨⟨l, hrun⟩, _, rfl, rfl, rfl, fun hb => ?_⟩
  obtain ⟨made, -, hnone, heq⟩ :=
    hrun.reachable.inv.exact.query_eq_append_scan "" "[a]*" "" "" [] .unspecified ""
  have hmade : made = [] := by
    by_contra hne
    exact (hnone hne).1 rfl
  rw [heq, hmade] at hb
  have hm := (mem_scan_iff.mp hb).2
  revert hm
  decide

end Index

end AccessManagement
