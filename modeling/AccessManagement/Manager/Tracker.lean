/-
  AccessManagement.Manager.Tracker — THE TRACKER OF SCOPE PERMISSIONS AS A MAP.

  `scopeperms.Tracker` has two maps: the settings by scope and policy, and the scope of each
  policy.  As long as they agree (`Valid`), the tracker is a map from policies to their scope and
  setting: adding a policy replaces its entry, removing it drops the entry, and `Check` looks
  through the entries of one scope.

  Main results:
    * `tracker_consistent` — the two maps agree after any calls, and `Check` foresees the
      conflicts that putting a policy in would make.
    * `exists_fromPolicies` — policies without variables, which agree on the permissions of
      their scopes, can be loaded.
-/
import AccessManagement.RuleTable.Load
import AccessManagement.Manager.Manager

namespace AccessManagement.Tracker

open Lib List

variable {t : Tracker}

/-- The two maps agree. -/
structure Valid (t : Tracker) : Prop where
  scope : ∀ scope policyKey sp, t.setting scope policyKey = some sp →
    t.policies.lookup policyKey = some scope
  setting : ∀ policyKey scope, t.policies.lookup policyKey = some scope →
    (t.setting scope policyKey).isSome = true

theorem Valid.new : Tracker.new.Valid where
  scope := by intro scope policyKey sp h; cases h
  setting := by intro policyKey scope h; cases h

/-- **What `Remove` does to the settings.** -/
theorem Valid.setting_remove (h : t.Valid) (policyKey scope policyKey' : String) :
    (t.remove policyKey).setting scope policyKey' =
      if policyKey' = policyKey then none else t.setting scope policyKey' := by
  have hknown := h.scope scope policyKey'
  unfold remove
  cases hscope : t.policies.lookup policyKey with
  | none => cases hset : t.setting scope policyKey' <;> grind
  | some own =>
    show NestedMap.get (NestedMap.drop t.scopes own policyKey) scope policyKey' = _
    unfold Tracker.setting at hknown ⊢
    cases hset : NestedMap.get t.scopes scope policyKey' <;> grind

theorem policies_remove (t : Tracker) (policyKey policyKey' : String) :
    (t.remove policyKey).policies.lookup policyKey' =
      if policyKey' = policyKey then none else t.policies.lookup policyKey' := by
  unfold remove
  cases hscope : t.policies.lookup policyKey with
  | none => grind
  | some =>
    show (t.policies.erase policyKey).lookup policyKey' = _
    grind

theorem Valid.remove (h : t.Valid) (policyKey : String) : (t.remove policyKey).Valid := by
  constructor
  · intro scope policyKey' sp hset
    have hold := h.scope scope policyKey' sp
    grind [h.setting_remove, policies_remove]
  · intro policyKey' scope hscope
    have hold := h.setting policyKey' scope
    grind [h.setting_remove, policies_remove]

variable {kind : Kind} {policyKey scope : String} {sp : ScopePermissions}

/-- The tracker after an addition; a repetition leaves it. -/
theorem add_eq (hkind : kind = .resource ∨ kind = .principal) :
    t.add kind policyKey scope sp = if t.setting scope policyKey = some sp.normalise then t else
      { policies := (t.remove policyKey).policies.insert policyKey scope
        scopes := NestedMap.put (t.remove policyKey).scopes scope policyKey sp.normalise } := by
  unfold add
  rw [if_pos hkind]
  rfl

variable (h : t.Valid) (hkind : kind = .resource ∨ kind = .principal)

include h hkind

/-- **What `Add` does to the settings.** -/
theorem Valid.setting_add (scope' policyKey' : String) :
    (t.add kind policyKey scope sp).setting scope' policyKey' =
      if policyKey' = policyKey then (if scope' = scope then some sp.normalise else none)
      else t.setting scope' policyKey' := by
  rw [add_eq hkind]
  split
  · next hsame =>
    -- a policy is in one scope only
    have hown := h.scope scope policyKey _ hsame
    have hother := h.scope scope' policyKey'
    cases hset : t.setting scope' policyKey' <;> grind
  · have hremove : NestedMap.get (t.remove policyKey).scopes scope' policyKey' = _ :=
      h.setting_remove policyKey scope' policyKey'
    refine (NestedMap.get_put _ scope scope' policyKey policyKey' sp.normalise).trans ?_
    grind

theorem Valid.policies_add (policyKey' : String) :
    (t.add kind policyKey scope sp).policies.lookup policyKey' =
      if policyKey' = policyKey then some scope else t.policies.lookup policyKey' := by
  rw [add_eq hkind]
  have hown := h.scope scope policyKey sp.normalise
  have hremove := policies_remove t policyKey policyKey'
  split <;> grind

theorem Valid.add : (t.add kind policyKey scope sp).Valid := by
  constructor
  · intro scope' policyKey' sp' hset
    have hold := h.scope scope' policyKey' sp'
    grind [h.setting_add hkind, h.policies_add hkind]
  · intro policyKey' scope' hscope
    have hold := h.setting policyKey' scope'
    grind [h.setting_add hkind, h.policies_add hkind]

omit h hkind

theorem add_of_unconstrained (hkind : ¬(kind = .resource ∨ kind = .principal))
    (policyKey scope : String) (sp : ScopePermissions) : t.add kind policyKey scope sp = t :=
  if_neg hkind

/-- All policies have the same setting. -/
def AllSet (sp : ScopePermissions) (t : Tracker) : Prop :=
  t.Valid ∧ ∀ scope policyKey sp', t.setting scope policyKey = some sp' → sp' = sp

theorem AllSet.add (h : t.AllSet sp) (kind : Kind) (policyKey scope : String)
    {sp' : ScopePermissions} (hsp : sp'.normalise = sp) :
    (t.add kind policyKey scope sp').AllSet sp := by
  by_cases hkind : kind = .resource ∨ kind = .principal
  · refine ⟨h.1.add hkind, fun scope' policyKey' sp'' hset => ?_⟩
    have hold := h.2 scope' policyKey' sp''
    grind [h.1.setting_add hkind]
  · rwa [add_of_unconstrained hkind]

theorem AllSet.conflicts_eq_nil (h : t.AllSet sp) : t.conflicts = [] :=
  conflicts_eq_nil_iff.mpr fun _ _ _ _ _ hset hset' => (h.2 _ _ _ hset).trans (h.2 _ _ _ hset').symm

/-- A scope with a setting is tracked. -/
theorem tracked_of_setting (h : t.setting scope policyKey = some sp) : t.tracked scope = true := by
  unfold tracked
  cases hempty : ((t.scopes.lookup scope).getD ∅).entries.isEmpty with
  | false => rfl
  | true =>
    have hnone : (t.scopes.lookup scope).getD ∅ = ∅ := NestedMap.eq_empty_of_isEmpty hempty
    have hget : ((t.scopes.lookup scope).getD ∅).lookup policyKey = some sp := h
    rw [hnone] at hget
    cases hget

/-- **What `Check` looks for**: another policy of the scope with another setting. -/
theorem check_eq_nil_iff {ignored : String} (hkind : kind = .resource ∨ kind = .principal) :
    t.check kind policyKey scope sp ignored = [] ↔ ∀ policyKey' sp',
      t.setting scope policyKey' = some sp' →
        policyKey' = policyKey ∨ policyKey' = ignored ∨ sp' = sp.normalise := by
  unfold check
  rw [if_pos hkind, map_eq_nil_iff, filter_eq_nil_iff]
  constructor
  · intro h policyKey' sp' hset
    have hnot := h ⟨policyKey', sp'⟩ (AList.mem_lookup_iff.mp hset)
    simp only [decide_eq_true_eq, not_and_or, not_not] at hnot
    exact hnot
  · intro h e he
    have hsame := h e.1 e.2 (AList.mem_lookup_iff.mpr he)
    simp only [decide_eq_true_eq, not_and_or, not_not]
    exact hsame

/-! ## Runs of the tracker. -/

/-- The calls that change a tracker. -/
inductive Call where
  | add (kind : Kind) (policyKey scope : String) (sp : ScopePermissions)
  | remove (policyKey : String)

def call (t : Tracker) : Call → Tracker
  | .add kind policyKey scope sp => t.add kind policyKey scope sp
  | .remove policyKey => t.remove policyKey

/-- The tracker after a sequence of calls. -/
def after (calls : List Call) : Tracker := calls.foldl call new

/-- What every call keeps: the two tables agree, no scope is empty, and no setting is stored
before it is normalised. -/
structure Kept (t : Tracker) : Prop where
  valid : t.Valid
  noEmpty : NestedMap.NoEmpty t.scopes
  normalised : ∀ scope policyKey sp, t.setting scope policyKey = some sp → sp ≠ .unspecified

theorem Kept.remove (h : t.Kept) (policyKey : String) : (t.remove policyKey).Kept where
  valid := h.valid.remove policyKey
  noEmpty := by
    unfold Tracker.remove
    split
    · exact h.noEmpty
    · exact h.noEmpty.drop _ policyKey
  normalised := by
    intro scope policyKey' sp hset
    rw [h.valid.setting_remove] at hset
    have hold := h.normalised scope policyKey' sp
    grind

theorem Kept.add (h : t.Kept) (kind : Kind) (policyKey scope : String) (sp : ScopePermissions) :
    (t.add kind policyKey scope sp).Kept := by
  by_cases hkind : kind = .resource ∨ kind = .principal
  case neg => rwa [add_of_unconstrained hkind]
  refine ⟨h.valid.add hkind, ?_, ?_⟩
  · rw [add_eq hkind]
    split
    · exact h.noEmpty
    · exact (h.remove policyKey).noEmpty.put scope policyKey sp.normalise
  · intro scope' policyKey' sp' hset
    rw [h.valid.setting_add hkind] at hset
    have hold := h.normalised scope' policyKey' sp'
    have hnew : sp.normalise ≠ .unspecified := by cases sp <;> decide
    grind

theorem kept_after (calls : List Call) : (after calls).Kept := by
  refine List.foldlRecOn calls call ?_ ?_
  · exact ⟨Valid.new, NestedMap.noEmpty_empty, by intro scope policyKey sp h; cases h⟩
  · intro t h c _
    cases c with
    | add kind policyKey scope sp => exact h.add kind policyKey scope sp
    | remove policyKey => exact h.remove policyKey

/-- Removing a policy makes no conflict. -/
theorem Valid.conflicts_remove (h : t.Valid) (hfree : t.conflicts = []) (policyKey : String) :
    (t.remove policyKey).conflicts = [] := by
  rw [conflicts_eq_nil_iff] at hfree ⊢
  intro scope k k' sp sp' hk hk'
  rw [h.setting_remove] at hk hk'
  grind

/-- **`Check` foresees the conflicts**: in a tracker without conflicts it finds nothing exactly
when there are still none once the ignored policy has gone and the new one has been put in. -/
theorem Valid.check_iff (h : t.Valid) (hfree : t.conflicts = []) (kind : Kind)
    (policyKey scope : String) (sp : ScopePermissions) (ignored : String) :
    t.check kind policyKey scope sp ignored = [] ↔
      (((t.remove ignored).remove policyKey).add kind policyKey scope sp).conflicts = [] := by
  have hremove := (h.remove ignored).conflicts_remove (h.conflicts_remove hfree ignored) policyKey
  have hvalid := (h.remove ignored).remove policyKey
  by_cases hkind : kind = .resource ∨ kind = .principal
  case neg =>
    rw [add_of_unconstrained hkind]
    exact iff_of_true (if_neg hkind) hremove
  rw [check_eq_nil_iff hkind, conflicts_eq_nil_iff]
  rw [conflicts_eq_nil_iff] at hremove
  have hsetting (scope' policyKey' : String) :
      (((t.remove ignored).remove policyKey).add kind policyKey scope sp).setting scope' policyKey' =
        if policyKey' = policyKey then (if scope' = scope then some sp.normalise else none)
        else if policyKey' = ignored then none else t.setting scope' policyKey' := by
    rw [hvalid.setting_add hkind, (h.remove ignored).setting_remove, h.setting_remove]
    grind
  constructor
  · intro hothers scope' k k' sp₁ sp₂ hk hk'
    have hold := hremove scope' k k' sp₁ sp₂
    rw [(h.remove ignored).setting_remove, (h.remove ignored).setting_remove, h.setting_remove,
      h.setting_remove] at hold
    grind
  · intro hall policyKey' sp' hset
    have hsame := hall scope policyKey' policyKey sp' sp.normalise
    grind

/-- **THE TRACKER OVER ALL RUNS.**  After any calls the table by scope and the table by policy are
inverse to one another, so that a policy is in at most one scope, and no scope is empty.  In every
such state that has no conflicts, reached by calls or not, `Check` answers exactly whether the
replacement keeps it so. -/
theorem tracker_consistent (calls : List Call) :
    (∀ scope policyKey, (∃ sp, (after calls).setting scope policyKey = some sp) ↔
      (after calls).policies.lookup policyKey = some scope) ∧
    (∀ policyKey scope scope' sp sp', (after calls).setting scope policyKey = some sp →
      (after calls).setting scope' policyKey = some sp' → scope = scope') ∧
    (∀ scope settings, (after calls).scopes.lookup scope = some settings → settings ≠ ∅) ∧
    (after calls).Valid ∧
    (∀ t : Tracker, t.Valid → t.conflicts = [] → ∀ kind policyKey scope sp ignored,
      t.check kind policyKey scope sp ignored = [] ↔
        (((t.remove ignored).remove policyKey).add kind policyKey scope sp).conflicts = []) := by
  have hkept := kept_after calls
  have hvalid := hkept.valid
  refine ⟨?_, ?_, ?_, hvalid, fun _ => Valid.check_iff⟩
  · intro scope policyKey
    rw [← Option.isSome_iff_exists]
    refine ⟨fun h => ?_, hvalid.setting policyKey scope⟩
    obtain ⟨sp, hset⟩ := Option.isSome_iff_exists.mp h
    exact hvalid.scope scope policyKey sp hset
  · intro policyKey scope scope' sp sp' hset hset'
    have hown := (hvalid.scope _ _ _ hset).symm.trans (hvalid.scope _ _ _ hset')
    exact Option.some.inj hown
  · intro scope settings hscope
    have hne := hkept.noEmpty scope (AList.lookup_isSome.mp (by rw [hscope]; rfl))
    rwa [NestedMap.inner, hscope] at hne

end AccessManagement.Tracker

namespace AccessManagement.RuleTable

open List

/-- **Policies without variables, all with the same scope permissions, can be loaded.** -/
theorem exists_fromPolicies {x : Externals} {pss : List PolicySet} {sp : ScopePermissions}
    (hvars : ∀ row ∈ rowsOf pss, row.NoVariables)
    (hsp : ∀ row ∈ rowsOf pss, row.scopePermissions.normalise = sp) :
    ∃ t, fromPolicies x pss = some t := by
  have hingested : ∀ (pss : List PolicySet), (∀ row ∈ rowsOf pss, row.NoVariables) →
      ∀ t : RuleTable, ∃ t', t.ingestPolicies x pss = .ok t' := by
    intro pss
    induction pss with
    | nil => intro _ t; exact ⟨t, rfl⟩
    | cons ps _ ih =>
      intro h t
      obtain ⟨ix, hix⟩ := Index.indexRules_ok ps.rows
        (ps.rows.foldl (noteRow x) (t.notePolicy x ps)).idx
        (fun r hr => h r (mem_append_left _ hr))
      obtain ⟨t', ht'⟩ := ih (fun r hr => h r (mem_append_right ps.rows hr)) _
      refine ⟨t', ?_⟩
      unfold ingestPolicies ingestPolicy indexRules
      dsimp only
      rw [hix]
      exact ht'
  obtain ⟨t, ht⟩ := hingested pss hvars new
  have huniform : t.scopePermsTracker.AllSet sp := by
    refine ingestPolicies_rule pss [] new t
      (fun ps hps _ t t' h hok => ingestPolicy_induction (P := fun t =>
        t.scopePermsTracker.AllSet sp) (fun t h => ?_) (fun row hr t h => ?_) (fun t ix h => h) h hok)
      ⟨Tracker.Valid.new, fun _ _ _ h => by cases h⟩ ht
    · rw [(notePolicy_fields t ps).2.2.2.1]
      exact h
    · rw [(noteRow_fields t row).2.2.2.2.2.1]
      split
      · exact h
      · exact h.add _ _ _ (hsp row (mem_flatMap.mpr ⟨ps, hps, hr⟩))
  refine ⟨t.finalizeBuild, ?_⟩
  unfold fromPolicies
  rw [ht]
  dsimp only
  rw [huniform.conflicts_eq_nil]
  rfl

end AccessManagement.RuleTable
