/-
  AccessManagement.Manager.Overlay — TWO STORES BEHIND ONE RULE TABLE (`storage/overlay/store.go`).

  An overlay asks its base store while the circuit breaker is closed, and its fallback store while
  it is open.  The manager is subscribed to both: it processes an event of the fallback store with
  what the base store returns.

  Main results:
    * `isLoaded_afterEvent` — which events leave a policy of the loader loaded.
    * `base_policies_loaded` — along which runs all policies of the base store stay loaded.
-/
import AccessManagement.Manager.Events
import AccessManagement.Lib.Runs

namespace AccessManagement.Overlay

open Lib Manager List Externals

variable {x : Externals} {rpss : List RunnablePolicySet} {id : UInt64}

/-! ## §1. The store. -/

/-- A policy loader, with its list of all policies. -/
structure Loader extends PolicyLoader where
  getAll : Except String (List RunnablePolicySet)

structure Store where
  base : Loader
  fallback : Loader
  breakerOpen : Bool

def Store.withCircuitBreaker {α : Type} (s : Store) (baseFn fallbackFn : α) : α :=
  if s.breakerOpen then fallbackFn else baseFn

/-- The lookups of the overlay. -/
def Store.loader (s : Store) : Loader where
  getFirstMatch ids := s.withCircuitBreaker (s.base.getFirstMatch ids) (s.fallback.getFirstMatch ids)
  getAllMatching ids :=
    s.withCircuitBreaker (s.base.getAllMatching ids) (s.fallback.getAllMatching ids)
  getAll := s.withCircuitBreaker s.base.getAll s.fallback.getAll

inductive Event where
  | policy (evt : PolicyEvent)
  | reload

/-- `buildRuleTable`: all policies, unless one cannot be added or scopes are in conflict. -/
def buildRuleTable (x : Externals) (l : Loader) : Option Manager :=
  match l.getAll with
  | .error _ => none
  | .ok rpss =>
    match rpss.foldlM (addPolicy x) Manager.new with
    | .error _ => none
    | .ok m => if m.scopePermsTracker.conflicts.isEmpty then some m.finalizeBuild else none

/-- `OnStorageEvent`. -/
def onStorageEvent (x : Externals) (s : Store) (m : Manager) : Event → Manager
  | .policy evt => m.afterEvent x s.loader.toPolicyLoader evt
  | .reload => (buildRuleTable x s.loader).getD m

structure System where
  store : Store
  manager : Manager
  /-- What the base store has published and the manager has not processed. -/
  pending : List Event

inductive Action where
  | baseChanges (base : Loader) (published : List Event)
  | fallbackChanges (fallback : Loader)
  | baseEvent
  | fallbackEvent (evt : Event)

def step (x : Externals) (s : System) : Action → Option System
  | .baseChanges base published =>
    some { s with store := { s.store with base }, pending := s.pending ++ published }
  | .fallbackChanges fallback => some { s with store := { s.store with fallback } }
  | .baseEvent =>
    match s.pending with
    | [] => none
    | evt :: rest => some { s with manager := onStorageEvent x s.store s.manager evt, pending := rest }
  | .fallbackEvent evt => some { s with manager := onStorageEvent x s.store s.manager evt }

/-! ## §2. What an event leaves loaded. -/

/-- A policy with this module ID is in the store and compiles. -/
def Loader.Has (l : Loader) (id : UInt64) : Prop := ∃ rps, l.getFirstMatch [id] = .ok (some rps)

/-- What the compiler puts out has metadata, and programs can be made of its variables. -/
structure Compiled (x : Externals) (rps : RunnablePolicySet) : Prop where
  named : rps.policySet.metadata.isSome = true
  ingests : ∀ m : Manager, ∃ m', m.addPolicy x rps = .ok m'

/-- What is said of policy loaders: the policies that are found have the module IDs that were asked
for, and none that compiles is missing. -/
structure Loader.Lawful (x : Externals) (l : Loader) : Prop where
  first : ∀ {id rps}, l.getFirstMatch [id] = .ok (some rps) →
    rps.policySet.modID x = id ∧ Compiled x rps
  matching : ∀ {ids rpss}, l.getAllMatching ids = .ok rpss → (∀ rps ∈ rpss, Compiled x rps) ∧
    ∀ id ∈ ids, l.Has id → ∃ rps ∈ rpss, rps.policySet.modID x = id
  all : ∀ {rpss}, l.getAll = .ok rpss → (∀ rps ∈ rpss, Compiled x rps) ∧
    ∀ id, l.Has id → ∃ rps ∈ rpss, rps.policySet.modID x = id

/-- Deletions, then additions. -/
theorem isLoaded_replace (ids : List UInt64) (m : Manager)
    (hrpss : ∀ rps ∈ rpss, Compiled x rps) (id : UInt64) :
    ((ids.map Write.delete ++ rpss.map Write.add).foldl (write x) m).isLoaded id = true ↔
      (∃ rps ∈ rpss, rps.policySet.modID x = id) ∨ id ∉ ids ∧ m.isLoaded id = true := by
  have hadds : ∀ m : Manager, ((rpss.map Write.add).foldl (write x) m).isLoaded id = true ↔
      (∃ rps ∈ rpss, rps.policySet.modID x = id) ∨ m.isLoaded id = true := by
    induction rpss with
    | nil => simp
    | cons rps _ ih =>
      intro m
      have hw : (Write.add rps).Named := (hrpss rps mem_cons_self).named
      rw [map_cons, foldl_cons, ih (fun q hq => hrpss q (mem_cons_of_mem _ hq)), isLoaded_write m hw]
      by_cases hid : id = rps.policySet.modID x
      · simp [hid, Write.modID, Write.isAdd]
      · simp [hid, Ne.symm hid, Write.modID]
  rw [foldl_append, hadds, isLoaded_foldl_delete]
  simp

/-- No write fails. -/
theorem runWrites_replace (ids : List UInt64) (m : Manager) (hrpss : ∀ rps ∈ rpss, Compiled x rps) :
    (m.runWrites x (ids.map Write.delete ++ rpss.map Write.add)).2 = none := by
  induction ids generalizing m with
  | nil =>
    induction rpss generalizing m with
    | nil => rfl
    | cons rps _ ih =>
      obtain ⟨m', hadd⟩ := (hrpss rps mem_cons_self).ingests m
      have hrun : m.runWrite x (.add rps) = .ok m' := hadd
      simpa [runWrites, hrun] using ih (fun q hq => hrpss q (mem_cons_of_mem _ hq)) m'
  | cons d _ ih => simpa [runWrites, runWrite] using ih (m.deletePolicy d)

/-- The event loads the policy, or loads it again. -/
def Event.Names (id : UInt64) : Event → Prop
  | .policy evt => evt.kind = .addOrUpdatePolicy ∧ evt.policyID = id ∨ id ∈ evt.dependents
  | .reload => True

/-- The event takes the policy out of the table, and does not put it back itself. -/
def Event.Removes (id : UInt64) : Event → Prop
  | .policy evt => id ∈ evt.removed ∧ ¬ (evt.kind = .addOrUpdatePolicy ∧ evt.policyID = id)
  | .reload => False

/-- The policy of an event loads and passes `checkPolicy`, and its dependents load; all policies
load, and their scopes are not in conflict. -/
def Event.Accepted (x : Externals) (l : Loader) (m : Manager) : Event → Prop
  | .policy evt => (∃ ws, policyWrites l.toPolicyLoader m evt = .ok ws) ∧
      ∃ ws, dependentWrites l.toPolicyLoader evt = .ok ws
  | .reload => (buildRuleTable x l).isSome = true

section Events

variable {l : Loader} {m : Manager} {evt : PolicyEvent} {id : UInt64}

theorem mainPolicy_compiled (hl : l.Lawful x) :
    ∀ rps ∈ (evt.mainPolicy l.toPolicyLoader).toList, Compiled x rps := by
  intro rps h
  have hmain := Option.mem_toList.mp h
  unfold PolicyEvent.mainPolicy at hmain
  split at hmain
  · next hfirst => exact (hl.first (hfirst.trans (congrArg _ hmain))).2
  · cases hmain

/-- **The first half of an event.** -/
theorem isLoaded_firstWrites_of_has (hl : l.Lawful x) (hhas : l.Has id)
    (h : m.isLoaded id = true ∧ ¬ Event.Removes id (.policy evt) ∨
      evt.kind = .addOrUpdatePolicy ∧ evt.policyID = id) :
    ((firstWrites l.toPolicyLoader evt).foldl (write x) m).isLoaded id = true := by
  unfold firstWrites
  rw [isLoaded_replace _ _ (mainPolicy_compiled hl)]
  by_cases hadd : evt.kind = .addOrUpdatePolicy ∧ evt.policyID = id
  · obtain ⟨hkind, rfl⟩ := hadd
    obtain ⟨rps, hrps⟩ := hhas
    exact .inl ⟨rps, by simp [PolicyEvent.mainPolicy, hkind, hrps], (hl.first hrps).1⟩
  · have hkept := h.resolve_right hadd
    exact .inr ⟨fun hremoved => hkept.2 ⟨hremoved, hadd⟩, hkept.1⟩

/-- **What a policy event leaves loaded**, and what it loads when it is accepted. -/
theorem isLoaded_afterEvent (hl : l.Lawful x) (hhas : l.Has id)
    (h : m.isLoaded id = true ∧ ¬ Event.Removes id (.policy evt) ∨
      Event.Names id (.policy evt) ∧ Event.Accepted x l m (.policy evt)) :
    (m.afterEvent x l.toPolicyLoader evt).isLoaded id = true := by
  have hfirst : (m.runWrites x (firstWrites l.toPolicyLoader evt)).2 = none :=
    runWrites_replace _ m (mainPolicy_compiled hl)
  rw [afterEvent_eq]
  rcases @eventWrites_spec x l.toPolicyLoader evt m with
    ⟨hwrites, e, he, -⟩ | ⟨-, ⟨-, he, -⟩ |
      ⟨-, ⟨hwrites, cause, he, -⟩ | ⟨ws, table, hdeps, hwrites, -⟩⟩⟩
  · rw [hwrites]
    rcases h with h | ⟨-, ⟨ws, hok⟩, -⟩
    · exact h.1
    · cases he.symm.trans hok
  · cases hfirst.symm.trans he
  · rw [hwrites]
    rcases h with h | ⟨-, -, ws, hok⟩
    · exact isLoaded_firstWrites_of_has hl hhas (.inl h)
    · cases he.symm.trans hok
  · obtain ⟨toReload, hreload, rfl⟩ := dependentWrites_ok hdeps
    have hcompiled : ∀ rps ∈ toReload, Compiled x rps := by
      rcases hreload with ⟨-, hok⟩ | ⟨-, rfl⟩
      · exact (hl.matching hok).1
      · simp
    rw [hwrites, executed_eq_self (runWrites_replace _ _ hcompiled), foldl_append,
      isLoaded_replace _ _ hcompiled]
    by_cases hdep : id ∈ evt.dependents
    · rcases hreload with ⟨-, hok⟩ | ⟨hnil, -⟩
      · exact .inl ((hl.matching hok).2 id hdep hhas)
      · simp [hnil] at hdep
    · exact .inr ⟨hdep, isLoaded_firstWrites_of_has hl hhas
        (h.imp_right fun h => h.1.resolve_right hdep)⟩

theorem foldlM_addPolicy {m m' : Manager}
    (h : rpss.foldlM (addPolicy x) m = .ok m') : (rpss.map Write.add).foldl (write x) m = m' := by
  induction rpss generalizing m with
  | nil => exact Except.ok.inj h
  | cons rps _ ih =>
    rw [foldlM_cons] at h
    rcases addPolicy_write m rps with hadd | hadd
    · rw [hadd] at h
      exact ih h
    · rw [hadd] at h
      cases h

/-- A new table has all policies. -/
theorem isLoaded_buildRuleTable (hl : l.Lawful x) (hhas : l.Has id)
    (h : buildRuleTable x l = some m) : m.isLoaded id = true := by
  unfold buildRuleTable at h
  split at h
  · cases h
  next rpss hall =>
    split at h
    · cases h
    next m' hadd =>
      split at h
      · obtain rfl := Option.some.inj h
        obtain ⟨hcompiled, hfound⟩ := hl.all hall
        have hloaded := isLoaded_replace [] Manager.new hcompiled id
        rw [map_nil, nil_append, foldlM_addPolicy hadd] at hloaded
        exact hloaded.mpr (.inl (hfound id hhas))
      · cases h

end Events

/-! ## §3. Runs with a closed breaker. -/

theorem Store.loader_of_closed {s : Store} (h : s.breakerOpen = false) : s.loader = s.base := by
  simp [loader, withCircuitBreaker, h]

theorem isLoaded_onStorageEvent {s : Store} {m : Manager} {e : Event}
    (hclosed : s.breakerOpen = false) (hl : s.base.Lawful x) (hhas : s.base.Has id)
    (h : m.isLoaded id = true ∧ ¬ e.Removes id ∨ e.Names id ∧ e.Accepted x s.base m) :
    (onStorageEvent x s m e).isLoaded id = true := by
  cases e with
  | policy =>
    unfold onStorageEvent
    rw [Store.loader_of_closed hclosed]
    exact isLoaded_afterEvent hl hhas h
  | reload =>
    unfold onStorageEvent
    rw [Store.loader_of_closed hclosed]
    cases hbuild : buildRuleTable x s.base with
    | some => exact isLoaded_buildRuleTable hl hhas hbuild
    | none =>
      rcases h with h | ⟨-, hok⟩
      · exact h.1
      · simp [Event.Accepted, hbuild] at hok

/-- Some event that waits will load the policy. -/
def Awaited (pending : List Event) (id : UInt64) : Prop := ∃ e ∈ pending, e.Names id

/-- **What has to hold before a step.**  The base store announces the policies that it gains.  An
event of its own that is about a policy that it has is accepted and loads it, or leaves it loaded,
or is followed by an event that will load it.  An event of the fallback store takes away nothing
that the base store has, or something that the base store is about to announce. -/
def Allowed (x : Externals) (s : System) : Action → Prop
  | .baseChanges base published => base.Lawful x ∧
      ∀ id, base.Has id → s.store.base.Has id ∨ Awaited published id
  | .fallbackChanges _ => True
  | .baseEvent => ∀ e rest, s.pending = e :: rest → ∀ id, s.store.base.Has id →
      e.Names id ∨ e.Removes id → (e.Names id ∧ e.Accepted x s.store.base s.manager) ∨
        (s.manager.isLoaded id = true ∧ ¬ e.Removes id) ∨ Awaited rest id
  | .fallbackEvent e => ∀ id, e.Removes id → s.store.base.Has id → Awaited s.pending id

/-- The policies of the base store are loaded, but for those with an event that waits. -/
structure Held (x : Externals) (s : System) : Prop where
  closed : s.store.breakerOpen = false
  lawful : s.store.base.Lawful x
  held : ∀ id, s.store.base.Has id → s.manager.isLoaded id = true ∨ Awaited s.pending id

theorem Held.step {s s' : System} {a : Action} (h : Held x s) (ha : Allowed x s a)
    (hstep : step x s a = some s') : Held x s' := by
  cases a with
  | baseChanges =>
    cases hstep
    refine ⟨h.closed, ha.1, fun id hhas => ?_⟩
    rcases ha.2 id hhas with hhas | ⟨e, he, hnames⟩
    · exact (h.held id hhas).imp_right fun ⟨e, he, hnames⟩ => ⟨e, mem_append_left _ he, hnames⟩
    · exact .inr ⟨e, mem_append_right _ he, hnames⟩
  | fallbackChanges =>
    cases hstep
    exact ⟨h.closed, h.lawful, h.held⟩
  | baseEvent =>
    cases hpending : s.pending with
    | nil => simp [Overlay.step, hpending] at hstep
    | cons e rest =>
      simp only [Overlay.step, hpending, Option.some.injEq] at hstep
      subst hstep
      refine ⟨h.closed, h.lawful, fun id hhas => ?_⟩
      have hloaded := isLoaded_onStorageEvent (m := s.manager) (e := e) h.closed h.lawful hhas
      by_cases habout : e.Names id ∨ e.Removes id
      · rcases ha e rest hpending id hhas habout with hnamed | hkept | hlater
        · exact .inl (hloaded (.inr hnamed))
        · exact .inl (hloaded (.inl hkept))
        · exact .inr hlater
      · -- the event is not about the policy
        obtain ⟨hnames, hremoves⟩ := not_or.mp habout
        rcases h.held id hhas with hheld | ⟨e', he', hnames'⟩
        · exact .inl (hloaded (.inl ⟨hheld, hremoves⟩))
        · rw [hpending] at he'
          rcases mem_cons.mp he' with rfl | hrest
          · exact (hnames hnames').elim
          · exact .inr ⟨e', hrest, hnames'⟩
  | fallbackEvent e =>
    cases hstep
    refine ⟨h.closed, h.lawful, fun id hhas => ?_⟩
    have hloaded := isLoaded_onStorageEvent (m := s.manager) (e := e) h.closed h.lawful hhas
    have hheld := h.held id hhas
    have hback := ha id
    grind

/-- **The policies of the base store stay loaded** along runs with a closed breaker whose steps are
all allowed, and nothing that the fallback store has gets into the table. -/
theorem base_policies_loaded (x : Externals) {s s' : System} {as : List Action} (hs : Held x s)
    (hallowed : EachStep (step x) (Allowed x) s as) (hrun : run (step x) s as = some s')
    (hdone : s'.pending = []) : (∀ id, s'.store.base.Has id → s'.manager.isLoaded id = true) ∧
      ∀ fallback e, onStorageEvent x { s'.store with fallback } s'.manager e =
        onStorageEvent x s'.store s'.manager e := by
  have hheld : Held x s' := (hallowed.throughout id Held.step hs).last hrun
  refine ⟨fun id hhas => (hheld.held id hhas).resolve_right ?_, fun fallback e => ?_⟩
  · simp [Awaited, hdone]
  · have hsame : Store.loader { s'.store with fallback } = s'.store.loader := by
      simp [Store.loader, Store.withCircuitBreaker, hheld.closed]
    cases e <;> simp [onStorageEvent, hsame]

/-- A store with one policy. -/
def docBase : Loader where
  getFirstMatch ids := .ok (if ids = [docID] then some (plainResource "doc" "") else none)
  getAllMatching ids := .ok (if docID ∈ ids then [plainResource "doc" ""] else [])
  getAll := .ok [plainResource "doc" ""]

theorem docBase_has : docBase.Has id ↔ id = docID := by
  simp [Loader.Has, docBase]

theorem docBase_lawful : docBase.Lawful sample := by
  have hdoc : Compiled sample (plainResource "doc" "") :=
    ⟨rfl, fun m => exists_add_plainResource m "doc" "" .overrideParent⟩
  refine ⟨fun h => ?_, fun h => ?_, fun h => ?_⟩
  · simp only [docBase, List.cons.injEq, and_true, Except.ok.injEq, Option.ite_none_right_eq_some,
      Option.some.injEq] at h
    obtain ⟨rfl, rfl⟩ := h
    exact ⟨rfl, hdoc⟩
  · obtain rfl := Except.ok.inj h
    split
    · next hmem => exact ⟨by simpa using hdoc, fun id _ hid => ⟨_, mem_singleton_self _,
        (docBase_has.mp hid).symm⟩⟩
    · next hmem => exact ⟨by simp, fun id hid hhas => (hmem (docBase_has.mp hhas ▸ hid)).elim⟩
  · obtain rfl := Except.ok.inj h
    simp only [docBase_has]
    exact ⟨by simpa using hdoc, fun id hid => ⟨_, mem_singleton_self _, hid.symm⟩⟩

/-- The manager has loaded the policy of the base store. -/
def docLoaded (m : Manager) : System where
  store := { base := docBase, fallback := docBase, breakerOpen := false }
  manager := m
  pending := []

/-- The fallback store tells of a policy that it no longer has. -/
def gone (id : UInt64) : Action :=
  .fallbackEvent (.policy { kind := .deleteOrDisablePolicy, policyID := id })

theorem exists_docLoaded : ∃ m : Manager, m.isLoaded docID = true ∧ Held sample (docLoaded m) := by
  obtain ⟨m, hm, -⟩ := exists_office_run
  have hdoc := (isLoaded_office hm).1
  exact ⟨m, hdoc, rfl, docBase_lawful, fun id hid => .inl (docBase_has.mp hid ▸ hdoc)⟩

/-- Another policy of the fallback store goes, and the policy of the base store stays. -/
theorem unrelated_delete_keeps : ∃ m s', m.isLoaded docID = true ∧
    run (step Externals.sample) (docLoaded m) [gone (docID + 1)] = some s' ∧
      s'.manager.isLoaded docID = true := by
  obtain ⟨m, hm, hheld⟩ := exists_docLoaded
  have hallowed : EachStep (step sample) (Allowed sample) (docLoaded m)
      [gone (docID + 1)] := by
    refine ⟨fun id hremoved hhas => ?_, fun _ _ => trivial⟩
    have hid : id = docID + 1 := by simpa [PolicyEvent.removed] using hremoved.1
    rw [docBase_has.mp hhas] at hid
    exact absurd hid (by simp)
  exact ⟨m, _, hm, rfl, (base_policies_loaded sample hheld hallowed rfl rfl).1 docID
    (docBase_has.mpr rfl)⟩

/-- The fallback store deletes its copy of a policy, and the table loses that of the base store. -/
theorem fallback_delete_unloads : ∃ m s', m.isLoaded docID = true ∧
    Held Externals.sample (docLoaded m) ∧
    run (step Externals.sample) (docLoaded m) [gone docID] = some s' ∧ s'.pending = [] ∧
      s'.store.base.Has docID ∧ s'.manager.isLoaded docID = false := by
  obtain ⟨m, hm, hheld⟩ := exists_docLoaded
  refine ⟨m, _, hm, hheld, rfl, rfl, docBase_has.mpr rfl, ?_⟩
  exact (isLoaded_deletePolicy m docID docID).trans (if_pos rfl)

end AccessManagement.Overlay
