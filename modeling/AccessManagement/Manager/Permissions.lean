/-
  AccessManagement.Manager.Permissions — THE SCOPE PERMISSIONS OF A MANAGED TABLE.

  All resource and principal policies of a scope must have the same scope permissions, since the
  table keeps one value per scope.  `processPolicyEvent` checks the policy of an event before it
  is added.  It does NOT check the dependents, so a dependent that comes back with other
  permissions than its neighbours gets in.

  Main results:
    * `permissions_exact_of_events`  — permissions are consistent after every sequence of events
      whose dependents agree with their neighbours; and the next event keeps that exactly if its
      dependents do.
    * `dependent_breaks_scope`       — an event that lets in a dependent with other permissions.
-/
import AccessManagement.Manager.Events
import AccessManagement.Manager.Tracker
import AccessManagement.Storage.Units

namespace AccessManagement

open Lib List Namer Externals

/-! ## §1. Policy keys. -/

namespace Namer

theorem policyKeyFromFqn_start (rest : String) : policyKeyFromFqn (fqnPrefix ++ rest) = rest := by
  have hlist : (fqnPrefix ++ rest).toList = fqnPrefix.toList ++ rest.toList := String.toList_append
  have hstart : fqnPrefix.toList.isPrefixOf (fqnPrefix ++ rest).toList = true := by
    rw [hlist, isPrefixOf_iff_prefix]
    exact prefix_append _ _
  unfold policyKeyFromFqn
  rw [if_pos hstart, hlist, drop_left' String.length_toList, String.ofList_toList]

end Namer

namespace PolicySet

/-- The key of a policy in the tracker. -/
def policyKey (ps : PolicySet) : String := policyKeyFromFqn ps.fqn

variable {ps ps' : PolicySet}

variable (h : ps.WellFormed)

include h

theorem WellFormed.policyKey_eq_iff (h' : ps'.WellFormed) :
    ps.policyKey = ps'.policyKey ↔ ps.fqn = ps'.fqn := by
  obtain ⟨rest, hrest, -⟩ := h.fqn_start
  obtain ⟨rest', hrest', -⟩ := h'.fqn_start
  unfold policyKey
  rw [hrest, hrest', policyKeyFromFqn_start, policyKeyFromFqn_start]
  exact ⟨fun h => by rw [h], fun h => String.append_right_inj _ |>.mp h⟩

theorem WellFormed.policyKey_ne_empty : ps.policyKey ≠ "" := by
  obtain ⟨rest, hrest, hne⟩ := h.fqn_start
  unfold policyKey
  rw [hrest, policyKeyFromFqn_start]
  exact hne

theorem WellFormed.setting (hrole : ps.isRolePolicy = false) :
    ps.setting = some (ps.rowKind, ps.scope, ps.scopePermissions) := by
  cases ps with
  | resourcePolicy | principalPolicy => obtain ⟨p, ps, rfl, -⟩ := h; rfl
  | rolePolicy => cases hrole

/-- The name tells whether it is a role policy. -/
theorem WellFormed.isRolePolicy_iff :
    ps.isRolePolicy = true ↔ Storage.kindFromFqn ps.fqn = .rolePolicy := by
  cases ps with
  | resourcePolicy _ resource version =>
    obtain ⟨p, ps, rfl, rfl⟩ := h
    have hkind := (Storage.kindFromFqn_policyFqn resource version p.scope).1
    exact ⟨fun h => Bool.noConfusion h, fun h => Kind.noConfusion (hkind.symm.trans h)⟩
  | principalPolicy _ principal version =>
    obtain ⟨p, ps, rfl, rfl, -⟩ := h
    have hkind := (Storage.kindFromFqn_policyFqn principal version p.scope).2.1
    exact ⟨fun h => Bool.noConfusion h, fun h => Kind.noConfusion (hkind.symm.trans h)⟩
  | rolePolicy =>
    obtain ⟨rfl, -⟩ := h
    exact iff_of_true rfl (Storage.kindFromFqn_policyFqn _ _ _).2.2

theorem WellFormed.isRolePolicy_eq (h' : ps'.WellFormed)
    (hfqn : ps.fqn = ps'.fqn) : ps.isRolePolicy = ps'.isRolePolicy := by
  rw [Bool.eq_iff_iff, h.isRolePolicy_iff, h'.isRolePolicy_iff, hfqn]

/-- A policy as compilation leaves it: one with permissions has rows. -/
structure Compiled (ps : PolicySet) : Prop where
  wf : ps.WellFormed
  rows : ps.isRolePolicy = false → ps.rows ≠ []

end PolicySet

namespace Manager

variable {x : Externals} {loaded : Loaded} {m m' : Manager} {rps : RunnablePolicySet}

/-! ## §2. What is always so. -/

/-- A loaded policy with permissions, in the version that was added last. -/
def Constrained (x : Externals) (loaded : Loaded) (q : RunnablePolicySet) : Prop :=
  Current x loaded q ∧ q.policySet.isRolePolicy = false

/-- **Metadata and tracker are those of the loaded policies**, also after additions that failed. -/
structure Tracks (x : Externals) (loaded : Loaded) (m : Manager) : Prop where
  compiled : ∀ q ∈ loaded, q.policySet.Compiled
  ids : ToldApart x loaded
  metadata : MetadataOf x loaded m
  valid : m.scopePermsTracker.Valid
  settings : ∀ scope policyKey sp, m.scopePermsTracker.setting scope policyKey = some sp ↔
    ∃ q, Constrained x loaded q ∧ q.policySet.policyKey = policyKey ∧
      q.policySet.scope = scope ∧ q.policySet.scopePermissions.normalise = sp

variable {q q' : RunnablePolicySet} {evt : PolicyEvent} {loader : PolicyLoader}
  {l : List RunnablePolicySet}

/-- The key of a policy with permissions stands for its module. -/
theorem policyKey_eq_iff_modID (hq : q.policySet.WellFormed) (hq' : q'.policySet.WellFormed)
    (hids : q.policySet.modID x = q'.policySet.modID x → q.policySet.fqn = q'.policySet.fqn) :
    q.policySet.policyKey = q'.policySet.policyKey ↔
      q.policySet.modID x = q'.policySet.modID x := by
  rw [hq.policyKey_eq_iff hq']
  exact ⟨congrArg x.hasher.str, hids⟩

@[grind =] theorem constrained_cons : Constrained x (rps :: loaded) q ↔
      (q = rps ∧ rps.policySet.isRolePolicy = false) ∨
        (q.policySet.modID x ≠ rps.policySet.modID x ∧ Constrained x loaded q) := by
  unfold Constrained
  rw [current_cons]
  grind

@[grind =] theorem constrained_without {modID : UInt64} : Constrained x (without x modID loaded) q ↔
      q.policySet.modID x ≠ modID ∧ Constrained x loaded q := by
  unfold Constrained
  rw [current_without, and_assoc]

/-- The kind in the rows of a policy with permissions. -/
theorem rowKind_constrained (ps : PolicySet) : ps.rowKind = .resource ∨ ps.rowKind = .principal := by
  cases ps <;> simp [PolicySet.rowKind]

theorem Tracks.added (h : Tracks x loaded m) (hcompiled : rps.policySet.Compiled)
    (hids : ToldApart x (rps :: loaded))
    (hout : m.addPolicy x rps = .ok m' ∨ m.addPolicy x rps = .error m') :
    Tracks x (rps :: loaded) m' := by
  have htracker := (addPolicy_spec hout).1.scopePermsTracker
  constructor
  case compiled => exact forall_mem_cons.mpr ⟨hcompiled, h.compiled⟩
  case ids => exact hids
  case metadata => exact h.metadata.added hcompiled.wf hout
  case valid =>
    rw [htracker]
    split
    · exact h.valid.add (rowKind_constrained _)
    · exact h.valid
  case settings =>
    intro scope policyKey sp
    cases hrole : rps.policySet.isRolePolicy with
    | true =>
      -- the policy has no permissions, and takes the place of none that has
      rw [htracker, if_neg (fun h => by rw [hrole] at h; cases h.2), h.settings]
      have hother : ∀ q, Constrained x loaded q → q.policySet.modID x ≠ rps.policySet.modID x := by
        intro q hq hsame
        have hfqn := hids q (mem_cons_of_mem _ hq.1.mem) rps mem_cons_self hsame
        have heq := (h.compiled q hq.1.mem).wf.isRolePolicy_eq hcompiled.wf hfqn
        rw [hq.2, hrole] at heq
        cases heq
      grind
    | false =>
      rw [htracker, if_pos ⟨hcompiled.rows hrole, hrole⟩, h.valid.setting_add (rowKind_constrained _)]
      have hkeys : ∀ q, Constrained x loaded q → (q.policySet.policyKey = rps.policySet.policyKey ↔
            q.policySet.modID x = rps.policySet.modID x) := fun q hq =>
        policyKey_eq_iff_modID (h.compiled q hq.1.mem).wf hcompiled.wf
          (hids q (mem_cons_of_mem _ hq.1.mem) rps mem_cons_self)
      have hold := h.settings scope policyKey sp
      grind [PolicySet.policyKey]

theorem Tracks.deleted (h : Tracks x loaded m) (modID : UInt64) :
    Tracks x (without x modID loaded) (m.deletePolicy modID) := by
  obtain ⟨hsame, hloaded⟩ | ⟨gone, hmem, rfl, hdel⟩ := h.metadata.deletePolicy_cases modID
  · rw [hsame, hloaded]
    exact h
  · have htracker : (m.deletePolicy (gone.policySet.modID x)).scopePermsTracker =
        m.scopePermsTracker.remove gone.policySet.policyKey := by rw [hdel]; rfl
    constructor
    case compiled => exact fun q hq => h.compiled q (mem_of_mem_filter hq)
    case ids => exact h.ids.mono (fun q hq => mem_of_mem_filter hq)
    case metadata => exact h.metadata.deleted _
    case valid => rw [htracker]; exact h.valid.remove _
    case settings =>
      intro scope policyKey sp
      have hkeys : ∀ q, Constrained x loaded q → (q.policySet.policyKey = gone.policySet.policyKey ↔
            q.policySet.modID x = gone.policySet.modID x) := fun q hq =>
        policyKey_eq_iff_modID (h.compiled q hq.1.mem).wf (h.compiled gone hmem).wf
          (h.ids q hq.1.mem gone hmem)
      rw [htracker, h.valid.setting_remove]
      have hold := h.settings scope policyKey sp
      grind

/-! ## §3. Values. -/

/-- **The value of a scope is the setting of its policies.** -/
def ValuesExact (x : Externals) (loaded : Loaded) (m : Manager) : Prop :=
  ∀ q, Constrained x loaded q →
    m.scopeScopePermissions.lookup q.policySet.scope = some q.policySet.scopePermissions.normalise

/-- A policy has the permissions of the others in its scope. -/
def AgreesInScope (x : Externals) (loaded : Loaded) (rps : RunnablePolicySet) : Prop :=
  rps.policySet.isRolePolicy = false → ∀ q, Constrained x loaded q →
    q.policySet.modID x ≠ rps.policySet.modID x → q.policySet.scope = rps.policySet.scope →
    q.policySet.scopePermissions.normalise = rps.policySet.scopePermissions.normalise

theorem ValuesExact.added (h : ValuesExact x loaded m) (hcompiled : rps.policySet.Compiled)
    (hout : m.addPolicy x rps = .ok m' ∨ m.addPolicy x rps = .error m')
    (hagrees : AgreesInScope x loaded rps) : ValuesExact x (rps :: loaded) m' := by
  have hval := (addPolicy_spec hout).1.scopeScopePermissions
  intro q hq
  rw [hval]
  cases hrole : rps.policySet.isRolePolicy with
  | true =>
    grind [ValuesExact]
  | false =>
    rw [if_pos ⟨hcompiled.rows hrole, rfl⟩]
    have hsame := hagrees hrole
    grind [ValuesExact]

/-- A deletion drops the value of a scope only if no policy is left in it. -/
theorem ValuesExact.deleted (h : ValuesExact x loaded m) (htracks : Tracks x loaded m)
    (modID : UInt64) : ValuesExact x (without x modID loaded) (m.deletePolicy modID) := by
  intro q hq
  have hvalue := h q (constrained_without.mp hq).2
  have hset := ((htracks.deleted modID).settings _ _ _).mpr ⟨q, hq, rfl, rfl, rfl⟩
  have htrack := Tracker.tracked_of_setting hset
  unfold deletePolicy at htrack ⊢
  cases hentry : m.metadata.lookup modID with
  | none => exact hvalue
  | some entry =>
    rw [hentry] at htrack
    replace htrack : (m.scopePermsTracker.remove (policyKeyFromFqn entry.fqn)).tracked
      q.policySet.scope = true := htrack
    show (if (m.scopePermsTracker.remove (policyKeyFromFqn entry.fqn)).tracked
        (scopeFromFqn entry.fqn) then m.scopeScopePermissions
      else m.scopeScopePermissions.erase (scopeFromFqn entry.fqn)).lookup _ = _
    split
    · exact hvalue
    · next hnot => grind

/-! ## §4. Sequences of writes. -/

/-- Every policy that is added agrees with those that are loaded at the time. -/
def Agreeing (x : Externals) : Loaded → List Write → Prop
  | _, [] => True
  | loaded, .delete modID :: ws => Agreeing x (without x modID loaded) ws
  | loaded, .add rps :: ws => AgreesInScope x loaded rps ∧ Agreeing x (rps :: loaded) ws

theorem agreeing_append {ws ws' : List Write} : Agreeing x loaded (ws ++ ws') ↔
      Agreeing x loaded ws ∧ Agreeing x (ws.foldl (loadedWrite x) loaded) ws' := by
  induction ws generalizing loaded with
  | nil => exact ⟨fun h => ⟨trivial, h⟩, And.right⟩
  | cons w _ ih =>
    cases w with
    | delete => exact ih
    | add =>
      rw [cons_append, Agreeing, ih, Agreeing, and_assoc]
      rfl

theorem agreeing_deletes (ids : List UInt64) (loaded : Loaded) :
    Agreeing x loaded (ids.map .delete) := by
  induction ids generalizing loaded with
  | nil => exact trivial
  | cons _ _ ih => exact ih _

/-- **Writes keep what is tracked, and agreeing writes keep the values exact.** -/
theorem Tracks.foldl_write {ws : List Write} (h : Tracks x loaded m)
    (hcompiled : ∀ rps ∈ additions ws, rps.policySet.Compiled)
    (hids : ToldApart x (additions ws ++ loaded)) :
    Tracks x (ws.foldl (loadedWrite x) loaded) (ws.foldl (write x) m) ∧
      (ValuesExact x loaded m → Agreeing x loaded ws →
        ValuesExact x (ws.foldl (loadedWrite x) loaded) (ws.foldl (write x) m)) := by
  induction ws generalizing loaded m with
  | nil => exact ⟨h, fun hval _ => hval⟩
  | cons w ws ih =>
    have hids' := hids.mono (loadedWrite_subset (x := x) w ws loaded)
    cases w with
    | delete modID =>
      obtain ⟨htracks, hexact⟩ := ih (h.deleted modID) hcompiled hids'
      exact ⟨htracks, fun hval => hexact (hval.deleted h modID)⟩
    | add rps =>
      have hrps := hcompiled rps mem_cons_self
      have hids₁ : ToldApart x (rps :: loaded) :=
        hids'.mono (fun q hq => mem_append_right _ hq)
      obtain ⟨htracks, hexact⟩ := ih (h.added hrps hids₁ (addPolicy_write m rps))
        (fun q hq => hcompiled q (mem_cons_of_mem rps hq)) hids'
      exact ⟨htracks, fun hval hagrees =>
        hexact (hval.added hrps (addPolicy_write m rps) hagrees.1) hagrees.2⟩

/-! ## §5. Events. -/

/-- The loaded policies when the dependents of an event are added. -/
def staying (x : Externals) (loader : PolicyLoader) (evt : PolicyEvent) (loaded : Loaded) : Loaded :=
  ((evt.mainPolicy loader).toList ++
    loaded.filter (fun q => decide (q.policySet.modID x ∉ evt.removed))).filter
    (fun q => decide (q.policySet.modID x ∉ evt.dependents))

/-- The condition on an event: the dependents that the loader returns have the same permissions, scope by
scope, as each other and as the policies that stay. -/
def DependentsAgree (x : Externals) (loaded : Loaded) (_ : Manager) (loader : PolicyLoader)
    (evt : PolicyEvent) : Prop :=
  evt.dependents ≠ [] → ∀ toReload, loader.getAllMatching evt.dependents = .ok toReload →
    ∀ rps ∈ toReload, rps.policySet.isRolePolicy = false →
      (∀ q ∈ toReload, q.policySet.isRolePolicy = false → q.policySet.scope = rps.policySet.scope →
        q.policySet.scopePermissions.normalise = rps.policySet.scopePermissions.normalise) ∧
      AgreesInScope x (staying x loader evt loaded) rps

theorem constrained_filter {ids : List UInt64} :
    Constrained x (loaded.filter (fun q => decide (q.policySet.modID x ∉ ids))) q ↔
      q.policySet.modID x ∉ ids ∧ Constrained x loaded q := by
  unfold Constrained
  rw [current_filter, and_assoc]

/-- The policy of an event agrees with those that it meets, since it has been checked. -/
theorem Tracks.agreesInScope_of_checkPolicy (h : Tracks x loaded m) (hwf : rps.policySet.WellFormed)
    (hids : ToldApart x (rps :: loaded)) (hold : ∀ old ∈ evt.oldPolicyID, old ∈ evt.removed)
    (hcheck : m.checkPolicy rps evt.oldPolicyID = []) :
    AgreesInScope x (loaded.filter (fun q => decide (q.policySet.modID x ∉ evt.removed))) rps := by
  intro hrole q hq hne hscope
  obtain ⟨hstays, hq⟩ := constrained_filter.mp hq
  have hset := (h.settings _ _ _).mpr ⟨q, hq, rfl, rfl, rfl⟩
  have hqwf := (h.compiled q hq.1.mem).wf
  unfold checkPolicy at hcheck
  rw [hwf.setting hrole] at hcheck
  rw [hscope] at hset
  rcases (Tracker.check_eq_nil_iff (rowKind_constrained _)).mp hcheck _ _ hset with hkey | hkey | hsame
  · -- the key is the policy's own
    have hmod := (policyKey_eq_iff_modID hqwf hwf
      (hids q (mem_cons_of_mem _ hq.1.mem) rps mem_cons_self)).mp hkey
    exact (hne hmod).elim
  · -- the key is that of the policy that has been replaced
    cases hentry : evt.oldPolicyID.bind m.metadata.lookup with
    | none =>
      rw [hentry] at hkey
      exact (hqwf.policyKey_ne_empty hkey).elim
    | some =>
      rw [hentry] at hkey
      obtain ⟨old, hsome, hlookup⟩ := Option.bind_eq_some_iff.mp hentry
      rw [h.metadata, Option.map_eq_some_iff] at hlookup
      obtain ⟨gone, hgone, rfl⟩ := hlookup
      obtain ⟨hmem, rfl⟩ := newest_mem hgone
      have hmod := (policyKey_eq_iff_modID hqwf (h.compiled gone hmem).wf
        (h.ids q hq.1.mem gone hmem)).mp hkey
      rw [hmod] at hstays
      exact (hstays (hold _ hsome)).elim
  · exact hsame

/-- Dependents that agree with each other and with what stays, added one after another. -/
theorem agreeing_adds {rpss : List RunnablePolicySet}
    (hothers : ∀ rps ∈ rpss, AgreesInScope x loaded rps)
    (heach : ∀ rps ∈ rpss, ∀ q ∈ rpss, rps.policySet.isRolePolicy = false →
      q.policySet.isRolePolicy = false → q.policySet.scope = rps.policySet.scope →
      q.policySet.scopePermissions.normalise = rps.policySet.scopePermissions.normalise) :
    Agreeing x loaded (rpss.map .add) := by
  induction rpss generalizing loaded with
  | nil => exact trivial
  | cons rps _ ih =>
    refine ⟨hothers rps mem_cons_self, ih ?_ ?_⟩
    · intro rps' hrps' hrole q hq hne hscope
      rcases constrained_cons.mp hq with ⟨rfl, hrole'⟩ | ⟨-, hold⟩
      · exact heach rps' (mem_cons_of_mem _ hrps') q mem_cons_self hrole hrole' hscope
      · exact hothers rps' (mem_cons_of_mem _ hrps') hrole q hold hne hscope
    · intro rps' hrps' q hq
      exact heach rps' (mem_cons_of_mem _ hrps') q (mem_cons_of_mem _ hq)

/-- The loaded policies before the dependents of an event are added. -/
theorem foldl_loadedWrite_staying : (evt.dependents.map Write.delete).foldl (loadedWrite x)
      ((evt.removed.map Write.delete ++ (evt.mainPolicy loader).toList.map Write.add).foldl
        (loadedWrite x) loaded) = staying x loader evt loaded := by
  have hone : (evt.mainPolicy loader).toList.reverse = (evt.mainPolicy loader).toList := by
    cases evt.mainPolicy loader <;> rfl
  unfold staying
  rw [foldl_append, foldl_loadedWrite_delete, foldl_loadedWrite_add, foldl_loadedWrite_delete, hone]

/-- The loaded policies after both halves of an event. -/
theorem foldl_loadedWrite_allWrites (toReload : List RunnablePolicySet) :
    (allWrites loader evt toReload).foldl (loadedWrite x) loaded =
      toReload.reverse ++ staying x loader evt loaded := by
  unfold allWrites
  rw [foldl_append, foldl_append, foldl_loadedWrite_staying, foldl_loadedWrite_add]

/-- All policies that the loader returns for an event. -/
def PolicyEvent.returned (loader : PolicyLoader) (evt : PolicyEvent) : List RunnablePolicySet :=
  (evt.mainPolicy loader).toList ++
    match loader.getAllMatching evt.dependents with
    | .ok toReload => toReload
    | .error _ => []

theorem additions_allWrites (toReload : List RunnablePolicySet) :
    additions (allWrites loader evt toReload) = (evt.mainPolicy loader).toList ++ toReload := by
  unfold allWrites
  rw [additions_append, additions_append, additions_append, additions_delete, additions_delete,
    additions_add, additions_add, nil_append, nil_append]

theorem additions_eventWrites_subset :
    additions (eventWrites x loader m evt) ⊆ evt.returned loader := by
  obtain ⟨toReload, hreload, ⟨rest, hrest⟩, -⟩ := @eventWrites_isPrefix x loader evt m
  intro rps hrps
  have hall : rps ∈ additions (allWrites loader evt toReload) := by
    rw [← hrest, additions_append]
    exact mem_append_left _ hrps
  rw [additions_allWrites] at hall
  unfold PolicyEvent.returned
  rcases mem_append.mp hall with hmain | hdep
  · exact mem_append_left _ hmain
  · rcases hreload with ⟨-, hok⟩ | rfl
    · rw [hok]
      exact mem_append_right _ hdep
    · exact (not_mem_nil hdep).elim

theorem oldPolicyID_mem_removed
    (h : rps ∈ evt.mainPolicy loader) : ∀ old ∈ evt.oldPolicyID, old ∈ evt.removed := by
  intro old hold
  unfold PolicyEvent.mainPolicy at h
  unfold PolicyEvent.removed
  cases hkind : evt.kind with
  | deleteOrDisablePolicy => rw [hkind] at h; cases h
  | addOrUpdatePolicy => exact mem_cons_of_mem _ (Option.mem_toList.mpr hold)

/-- **The writes of an event agree if its dependents do.** -/
theorem Tracks.agreeing_eventWrites (h : Tracks x loaded m)
    (hcompiled : ∀ rps ∈ evt.returned loader, rps.policySet.Compiled)
    (hids : ToldApart x (evt.returned loader ++ loaded))
    (hagree : DependentsAgree x loaded m loader evt) :
    Agreeing x loaded (eventWrites x loader m evt) := by
  obtain ⟨toReload, hreload, ⟨rest, hrest⟩, hchecked⟩ := @eventWrites_isPrefix x loader evt m
  by_cases hempty : eventWrites x loader m evt = []
  · rw [hempty]
    exact trivial
  · have hall : Agreeing x loaded (allWrites loader evt toReload) := by
      unfold allWrites
      rw [agreeing_append, agreeing_append, agreeing_append, foldl_loadedWrite_staying,
        foldl_loadedWrite_delete]
      refine ⟨⟨agreeing_deletes _ _, ?_⟩, agreeing_deletes _ _, ?_⟩
      · cases hmain : evt.mainPolicy loader with
        | none => exact trivial
        | some rps =>
          have hret : rps ∈ evt.returned loader := by
            unfold PolicyEvent.returned
            rw [hmain]
            exact mem_append_left _ mem_cons_self
          refine ⟨h.agreesInScope_of_checkPolicy (hcompiled rps hret).wf ?_
            (oldPolicyID_mem_removed hmain) (hchecked hempty rps hmain), trivial⟩
          refine hids.mono (cons_subset.mpr ⟨mem_append_left _ hret, ?_⟩)
          exact subset_append_right _ _
      · rcases hreload with ⟨hdeps, hok⟩ | rfl
        · have hall := hagree hdeps toReload hok
          refine agreeing_adds (fun rps hrps hrole => (hall rps hrps hrole).2 hrole) ?_
          intro rps hrps q hq hrole
          exact (hall rps hrps hrole).1 q hq
        · exact trivial
    rw [← hrest] at hall
    exact (agreeing_append.mp hall).1

/-! ## §6. Sequences of events. -/

/-- Sequences of events that satisfy a condition, failed ones included, from a table that was built
from policies without conflicts. -/
inductive EventRuns (x : Externals) (step : Loaded → Manager → PolicyLoader → PolicyEvent → Prop) :
    Loaded → Manager → Prop
  | built (pss : List RunnablePolicySet) (hcompiled : ∀ rps ∈ pss, rps.policySet.Compiled)
      (hids : (pss.map (fun rps => rps.policySet.modID x)).Nodup)
      (hok : (Manager.new.runWrites x (pss.map .add)).2 = none)
      (hconflicts : ((pss.map .add).foldl (write x) Manager.new).scopePermsTracker.conflicts = []) :
      EventRuns x step pss.reverse ((pss.map .add).foldl (write x) Manager.new).finalizeBuild
  | event {loaded : Loaded} {m : Manager} (h : EventRuns x step loaded m) (loader : PolicyLoader)
      (evt : PolicyEvent) (hcompiled : ∀ rps ∈ evt.returned loader, rps.policySet.Compiled)
      (hids : ToldApart x (evt.returned loader ++ loaded)) (hstep : step loaded m loader evt) :
      EventRuns x step ((eventWrites x loader m evt).foldl (loadedWrite x) loaded)
        (afterEvent x loader m evt)

theorem Tracks.new : Tracks x [] Manager.new where
  compiled := by intro q hq; exact (not_mem_nil hq).elim
  ids := by intro q hq; exact (not_mem_nil hq).elim
  metadata := by intro modID; rfl
  valid := Tracker.Valid.new
  settings := by
    intro scope policyKey sp
    constructor
    · intro h; cases h
    · rintro ⟨q, ⟨hq, -⟩, -⟩; cases hq

theorem Tracks.finalizeBuild (h : Tracks x loaded m) : Tracks x loaded m.finalizeBuild :=
  ⟨h.compiled, h.ids, h.metadata, h.valid, h.settings⟩

/-- Of different modules all versions are current. -/
theorem current_of_nodup (h : (l.map (fun q => q.policySet.modID x)).Nodup)
    (hq : q ∈ l) : Current x l q := by
  induction l with
  | nil => exact (not_mem_nil hq).elim
  | cons p l ih =>
    rw [map_cons, nodup_cons] at h
    rw [current_cons]
    rcases mem_cons.mp hq with rfl | hq
    · exact .inl rfl
    · exact .inr ⟨fun hmod => h.1 (mem_map.mpr ⟨q, hq, hmod⟩), ih h.2 hq⟩

theorem toldApart_of_nodup (h : (l.map (fun q => q.policySet.modID x)).Nodup) : ToldApart x l := by
  intro q hq q' hq' hmod
  rw [inj_on_of_nodup_map h hq hq' hmod]

theorem eventRuns_exact {step : Loaded → Manager → PolicyLoader → PolicyEvent → Prop}
    (hstep : ∀ loaded m loader evt, step loaded m loader evt → DependentsAgree x loaded m loader evt)
    (h : EventRuns x step loaded m) : Tracks x loaded m ∧ ValuesExact x loaded m := by
  induction h with
  | built pss hcompiled hids _ hconflicts =>
    obtain ⟨htracks, hexact⟩ := @Tracks.foldl_write x [] Manager.new _ Tracks.new
      (by rw [additions_add]; exact hcompiled)
      (by rw [additions_add, append_nil]; exact toldApart_of_nodup hids)
    rw [foldl_loadedWrite_add, append_nil] at htracks hexact
    have hvalues := hexact (by rintro q ⟨hq, -⟩; cases hq) (agreeing_adds ?_ ?_)
    · exact ⟨htracks.finalizeBuild, fun q hq => hvalues q hq⟩
    · rintro rps - - q ⟨hq, -⟩; cases hq
    · -- policies of one scope are both in the tracker, and it has no conflicts
      intro rps hrps q hq hrole hrole' hscope
      have hcur : ∀ p ∈ pss, Current x pss.reverse p := fun p hp =>
        current_of_nodup (by rw [map_reverse, nodup_reverse]; exact hids)
          (mem_reverse.mpr hp)
      have hset := (htracks.settings _ _ _).mpr ⟨q, ⟨hcur q hq, hrole'⟩, rfl, hscope, rfl⟩
      have hset' := (htracks.settings _ _ _).mpr ⟨rps, ⟨hcur rps hrps, hrole⟩, rfl, rfl, rfl⟩
      exact Tracker.conflicts_eq_nil_iff.mp hconflicts _ _ _ _ _ hset hset'
  | @event loaded m hrun loader evt hcompiled hids hs ih =>
    obtain ⟨htracks, hval⟩ := ih
    have hsub : additions (eventWrites x loader m evt) ⊆ evt.returned loader :=
      additions_eventWrites_subset
    rw [afterEvent_eq]
    obtain ⟨htracks', hexact⟩ := htracks.foldl_write (fun rps hrps => hcompiled rps (hsub hrps))
      (hids.mono (append_subset.mpr ⟨fun q hq => mem_append_left _ (hsub hq),
        subset_append_right _ _⟩))
    exact ⟨htracks', hexact hval
      (htracks.agreeing_eventWrites hcompiled hids (hstep _ _ _ _ hs))⟩

theorem valuesExact_iff : ValuesExact x loaded m ↔ ∀ q, Constrained x loaded q →
      m.getScopeScopePermissions q.policySet.scope = q.policySet.scopePermissions.normalise := by
  unfold RuleTable.getScopeScopePermissions
  refine forall₂_congr (fun q _ => ?_)
  have hne := ScopePermissions.normalise_ne_unspecified q.policySet.scopePermissions
  cases m.scopeScopePermissions.lookup q.policySet.scope <;> simp [hne.symm]

/-- Two policies in one scope with an exact value. -/
theorem ValuesExact.agree (h : ValuesExact x loaded m)
    (hq : Constrained x loaded q) (hq' : Constrained x loaded q')
    (hscope : q.policySet.scope = q'.policySet.scope) :
    q.policySet.scopePermissions.normalise = q'.policySet.scopePermissions.normalise := by
  have hvalue := h q hq
  rw [hscope, h q' hq'] at hvalue
  exact (Option.some.inj hvalue).symm

/-- A policy that stays is current if none of the policies that are added has its module. -/
theorem current_append
    (hne : ∀ p ∈ l, p.policySet.modID x ≠ q.policySet.modID x) (hq : Current x loaded q) :
    Current x (l ++ loaded) q := by
  induction l with
  | nil => exact hq
  | cons p l ih =>
    rw [cons_append, current_cons]
    exact .inr ⟨(hne p mem_cons_self).symm, ih (fun p' hp' => hne p' (mem_cons_of_mem _ hp'))⟩

theorem current_append_left (hq : Current x l q) : Current x (l ++ loaded) q := by
  unfold Current newest at hq ⊢
  rw [List.find?_append, hq]
  rfl

/-- **Scope permissions of a managed table.**  After a sequence of events whose dependents agree with
each other and with what stays, all loaded policies of a scope have the same permissions, and they are
the value of the scope.  The next event that succeeds keeps that exactly if its dependents agree too. -/
theorem permissions_exact_of_events (h : EventRuns x (DependentsAgree x) loaded m) :
    ((∀ q q', Constrained x loaded q → Constrained x loaded q' →
        q.policySet.scope = q'.policySet.scope →
        q.policySet.scopePermissions.normalise = q'.policySet.scopePermissions.normalise) ∧
      (∀ q, Constrained x loaded q →
        m.getScopeScopePermissions q.policySet.scope = q.policySet.scopePermissions.normalise)) ∧
    (∀ loader evt, (∀ rps ∈ evt.returned loader, rps.policySet.Compiled) →
      ToldApart x (evt.returned loader ++ loaded) → OrderlyEvent x loader evt →
      (m.processPolicyEvent x loader evt).2 = none →
      ((∀ q, Constrained x ((eventWrites x loader m evt).foldl (loadedWrite x) loaded) q →
          (afterEvent x loader m evt).getScopeScopePermissions q.policySet.scope =
            q.policySet.scopePermissions.normalise) ↔ DependentsAgree x loaded m loader evt)) := by
  obtain ⟨htracks, hval⟩ := eventRuns_exact (fun _ _ _ _ h => h) h
  refine ⟨⟨fun q q' hq hq' => hval.agree hq hq', valuesExact_iff.mp hval⟩, ?_⟩
  intro loader evt hcompiled hids horderly hok
  rw [← valuesExact_iff]
  constructor
  · intro hexact hdeps toReload hreload rps hrps hrole
    obtain ⟨toReload', hreload', hwrites⟩ := eventWrites_of_success hok
    obtain rfl : toReload' = toReload := by
      rcases hreload' with ⟨-, hreload'⟩ | ⟨hnil, -⟩
      · exact Except.ok.inj (hreload'.symm.trans hreload)
      · exact (hdeps hnil).elim
    rw [hwrites, foldl_loadedWrite_allWrites] at hexact
    obtain ⟨hnodup, hreq⟩ := horderly.reloaded toReload' hreload
    -- the dependents are all current after the event
    have hcur : ∀ q ∈ toReload', q.policySet.isRolePolicy = false →
        Constrained x (toReload'.reverse ++ staying x loader evt loaded) q := by
      intro q hq hrole
      refine ⟨current_append_left (current_of_nodup ?_ (mem_reverse.mpr hq)), hrole⟩
      rw [map_reverse, nodup_reverse]
      exact hnodup
    refine ⟨fun q hq hrole' hscope => hexact.agree (hcur q hq hrole') (hcur rps hrps hrole) hscope, ?_⟩
    intro _ q hq _ hscope
    refine hexact.agree ⟨current_append ?_ hq.1, hq.2⟩ (hcur rps hrps hrole) hscope
    intro p hp hmod
    have hnot := (current_filter.mp hq.1).1
    rw [← hmod] at hnot
    exact hnot (hreq p (mem_reverse.mp hp)).1
  · intro hagree
    exact (eventRuns_exact (fun _ _ _ _ h => h) (h.event loader evt hcompiled hids hagree)).2

/-- A principal policy and a resource policy in one scope. -/
def acmePolicies : List RunnablePolicySet := [plainPrincipal "acme", plainResource "doc" "acme"]

variable (step : Loaded → Manager → PolicyLoader → PolicyEvent → Prop)

include step

theorem acme_built : EventRuns sample step acmePolicies.reverse
      ((acmePolicies.map .add).foldl (write sample) Manager.new).finalizeBuild := by
  refine .built acmePolicies ?_ (by decide +kernel) (by decide +kernel) (by decide +kernel)
  exact forall_mem_cons.mpr ⟨⟨plainPrincipal_wellFormed _ _, fun _ => cons_ne_nil _ _⟩,
    forall_mem_singleton.mpr ⟨plainResource_wellFormed _ _ _, fun _ => cons_ne_nil _ _⟩⟩

/-- Derived roles have changed that the resource policy imports. -/
def staffChanged : PolicyEvent where
  kind := .addOrUpdatePolicy
  policyID := sample.hasher.str "cerbos.derived_roles.staff"
  dependents := [(plainResource "doc" "acme").policySet.modID sample]

/-- The resource policy as the store has it, with some permissions. -/
def acmeLoader (sp : ScopePermissions) : PolicyLoader where
  getFirstMatch := fun _ => .ok none
  getAllMatching := fun _ => .ok [plainResource "doc" "acme" sp]

/-- The event on the two policies. -/
theorem acme_event (sp : ScopePermissions)
    (hids : ToldApart sample (staffChanged.returned (acmeLoader sp) ++ acmePolicies.reverse))
    (hstep : step acmePolicies.reverse
      ((acmePolicies.map .add).foldl (write sample) Manager.new).finalizeBuild (acmeLoader sp)
      staffChanged) :
    ∃ m, EventRuns sample step [plainResource "doc" "acme" sp, plainPrincipal "acme"] m := by
  have hevent := (acme_built step).event (acmeLoader sp) staffChanged
    (forall_mem_singleton.mpr ⟨plainResource_wellFormed _ _ _, fun _ => cons_ne_nil _ _⟩) hids hstep
  exact ⟨_, hevent⟩

omit step

theorem acme_permissions_exact : ∃ m, EventRuns Externals.sample (DependentsAgree Externals.sample)
        [plainResource "doc" "acme", plainPrincipal "acme"] m ∧
      m.getScopeScopePermissions "acme" = .overrideParent := by
  obtain ⟨m, hm⟩ := acme_event (DependentsAgree sample) .overrideParent
    (by unfold ToldApart; decide +kernel) (by
      intro _ toReload hreload rps hrps hrole
      obtain rfl := Except.ok.inj hreload
      rw [mem_singleton.mp hrps]
      refine ⟨fun q hq _ _ => by rw [mem_singleton.mp hq], ?_⟩
      intro _ q hq _ _
      rw [mem_singleton.mp hq.1.mem]
      rfl)
  exact ⟨m, hm, (permissions_exact_of_events hm).1.2 _
    ⟨current_cons.mpr (.inl rfl), rfl⟩⟩

/-- The resource policy has been given other permissions at the same time.  It comes back as a
dependent, unchecked, and its scope has policies that disagree. -/
theorem dependent_breaks_scope : ∃ m q q', EventRuns Externals.sample (fun _ _ _ _ => True)
        [plainResource "doc" "acme" .requireParentalConsentForAllows, plainPrincipal "acme"] m ∧
      Constrained Externals.sample
        [plainResource "doc" "acme" .requireParentalConsentForAllows, plainPrincipal "acme"] q ∧
      Constrained Externals.sample
        [plainResource "doc" "acme" .requireParentalConsentForAllows, plainPrincipal "acme"] q' ∧
      q.policySet.scope = q'.policySet.scope ∧
      q.policySet.scopePermissions.normalise ≠ q'.policySet.scopePermissions.normalise := by
  obtain ⟨m, hm⟩ := acme_event (fun _ _ _ _ => True) .requireParentalConsentForAllows
    (by unfold ToldApart; decide +kernel) trivial
  refine ⟨m, _, plainPrincipal "acme", hm, ⟨current_cons.mpr (.inl rfl), rfl⟩,
    ⟨current_cons.mpr (.inr ⟨by decide +kernel, current_cons.mpr (.inl rfl)⟩), rfl⟩, rfl, by decide⟩

end Manager

end AccessManagement
