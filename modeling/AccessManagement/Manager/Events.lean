/-
  AccessManagement.Manager.Events — EVENTS AS SEQUENCES OF WRITES.

  `processPolicyEvent` takes and releases the write lock once for every module that it deletes
  and for every policy that it adds.  Here an event is the list of the writes that it gets to,
  and what can be said of it follows from what a write does to the set of loaded modules.

  Main results:
    * `checks_see_before_or_after_iff`   — readers see the table before or after the event exactly
      when at most one of its writes takes effect.
    * `check_between_delete_and_add`     — a reader between the two writes of an update.
    * `unchanged_after_failure`   — a failed event leaves the table as it was if it fails before its
      first write; otherwise only if it put back what it took away.
    * `dependents_failure_keeps_update`  — a failed event after which a policy is gone.
-/
import AccessManagement.Manager.Runs

namespace AccessManagement.Manager

open List Externals

/-! ## §1. The writes of an event. -/

/-- The table after a write, whatever its outcome. -/
def write (x : Externals) (m : Manager) (w : Write) : Manager :=
  match m.runWrite x w with
  | .ok m' => m'
  | .error m' => m'

/-- The writes up to and including the first that fails. -/
def executed (x : Externals) : Manager → List Write → List Write
  | _, [] => []
  | m, w :: ws =>
    match m.runWrite x w with
    | .error _ => [w]
    | .ok m' => w :: executed x m' ws

/-- The writes that an event gets to. -/
def eventWrites (x : Externals) (loader : PolicyLoader) (m : Manager) (evt : PolicyEvent) :
    List Write :=
  match policyWrites loader m evt with
  | .error _ => []
  | .ok writes =>
    match m.runWrites x writes with
    | (_, some _) => executed x m writes
    | (tables, none) =>
      match dependentWrites loader evt with
      | .error _ => writes
      | .ok writes' => writes ++ executed x (tables.getLastD m) writes'

/-- The table after each write. -/
def tablesAfter (x : Externals) : Manager → List Write → List Manager
  | _, [] => []
  | m, w :: ws => m.write x w :: tablesAfter x (m.write x w) ws

variable {x : Externals} {loader : PolicyLoader} {m : Manager} {evt : PolicyEvent}

theorem tablesAfter_append (ws ws' : List Write) : tablesAfter x m (ws ++ ws') =
      tablesAfter x m ws ++ tablesAfter x (ws.foldl (write x) m) ws' := by
  induction ws generalizing m with
  | nil => rfl
  | cons _ _ ih =>
    rw [cons_append, tablesAfter, ih]
    rfl

variable (ws : List Write) (m : Manager)

theorem getLastD_tablesAfter : (tablesAfter x m ws).getLastD m = ws.foldl (write x) m := by
  induction ws generalizing m with
  | nil => rfl
  | cons _ _ ih =>
    rw [tablesAfter, getLastD_cons, ih]
    rfl

/-- **`runWrites` in terms of the writes that are executed.** -/
theorem runWrites_fst : (m.runWrites x ws).1 = tablesAfter x m (executed x m ws) := by
  induction ws generalizing m with
  | nil => rfl
  | cons w ws ih =>
    unfold runWrites executed
    cases hw : m.runWrite x w with
    | error m' =>
      show [m'] = [m.write x w]
      rw [write, hw]
    | ok m' =>
      have hwrite : m.write x w = m' := by rw [write, hw]
      show m' :: (m'.runWrites x ws).1 = m.write x w :: tablesAfter x (m.write x w) _
      rw [ih, hwrite]

variable {ws ws' : List Write} {m : Manager} {w : Write} {t : Manager} {loaded : Loaded}
  {cause : String}

theorem executed_eq_self (h : (m.runWrites x ws).2 = none) : executed x m ws = ws := by
  induction ws generalizing m with
  | nil => rfl
  | cons =>
    unfold runWrites at h
    unfold executed
    grind

/-- **The tables of an event are those after each of its writes.** -/
theorem processPolicyEvent_fst :
    (m.processPolicyEvent x loader evt).1 = tablesAfter x m (eventWrites x loader m evt) := by
  unfold processPolicyEvent eventWrites
  cases policyWrites loader m evt with
  | error => rfl
  | ok writes =>
    dsimp only
    cases hrun : m.runWrites x writes with
    | mk tables error =>
      have htables : tables = tablesAfter x m (executed x m writes) := by
        rw [← runWrites_fst, hrun]
      cases error with
      | some => exact htables
      | none =>
        have hall : executed x m writes = writes := executed_eq_self (by rw [hrun])
        rw [hall] at htables
        cases dependentWrites loader evt with
        | error => exact htables
        | ok =>
          dsimp only
          rw [runWrites_fst, tablesAfter_append, ← getLastD_tablesAfter, ← htables]

theorem afterEvent_eq :
    afterEvent x loader m evt = (eventWrites x loader m evt).foldl (write x) m := by
  unfold afterEvent
  rw [processPolicyEvent_fst, getLastD_tablesAfter]

/-! ## §2. Loaded modules. -/

/-- A module is loaded if it has metadata. -/
def isLoaded (m : Manager) (modID : UInt64) : Bool := (m.metadata.lookup modID).isSome

/-- The module that a write is about. -/
def Write.modID (x : Externals) : Write → UInt64
  | .delete modID => modID
  | .add rps => rps.policySet.modID x

def Write.isAdd : Write → Bool
  | .delete _ => false
  | .add _ => true

/-- An addition brings metadata along, as those of compiled policies do. -/
def Write.Named : Write → Prop
  | .delete _ => True
  | .add rps => rps.policySet.metadata.isSome = true

theorem write_delete (modID : UInt64) : m.write x (.delete modID) = m.deletePolicy modID := rfl

/-- An addition, whatever its outcome, in terms of its specification. -/
theorem addPolicy_write (m : Manager) (rps : RunnablePolicySet) :
    m.addPolicy x rps = .ok (m.write x (.add rps)) ∨
      m.addPolicy x rps = .error (m.write x (.add rps)) := by
  have hrun : m.runWrite x (.add rps) = m.addPolicy x rps := rfl
  unfold write
  rw [hrun]
  cases m.addPolicy x rps with
  | ok => exact .inl rfl
  | error => exact .inr rfl

theorem isLoaded_deletePolicy (m : Manager) (modID modID' : UInt64) :
    (m.deletePolicy modID).isLoaded modID' = if modID' = modID then false else m.isLoaded modID' := by
  unfold deletePolicy isLoaded
  cases hentry : m.metadata.lookup modID with
  | none => grind
  | some =>
    show ((m.metadata.erase modID).lookup modID').isSome = _
    grind

/-- **What a write does to the loaded modules.** -/
theorem isLoaded_write (m : Manager) (hw : w.Named) (modID : UInt64) :
    (m.write x w).isLoaded modID = if modID = w.modID x then w.isAdd else m.isLoaded modID := by
  cases w with
  | delete deleted => exact isLoaded_deletePolicy m deleted modID
  | add rps =>
    obtain ⟨-, hmetadata, -⟩ := addPolicy_spec (addPolicy_write m rps)
    obtain ⟨entry, hentry⟩ := Option.isSome_iff_exists.mp hw
    unfold isLoaded
    rw [hmetadata]
    unfold noteMetadata
    grind [Write.modID, Write.isAdd]

/-- A write takes effect, unless it deletes a module that is not loaded. -/
def takesEffect (m : Manager) : Write → Bool
  | .delete modID => m.isLoaded modID
  | .add _ => true

theorem write_eq_self (h : m.takesEffect w = false) : m.write x w = m := by
  cases w with
  | add => cases h
  | delete modID =>
    have hnone : m.metadata.lookup modID = none := by simpa [takesEffect, isLoaded] using h
    rw [write_delete, deletePolicy, hnone]

/-- The policies that writes add. -/
def additions : List Write → List RunnablePolicySet
  | [] => []
  | .delete _ :: ws => additions ws
  | .add rps :: ws => rps :: additions ws

/-- How many of the writes take effect, each on the table that it finds. -/
def effects (x : Externals) : Manager → List Write → Nat
  | _, [] => 0
  | m, w :: ws => (if m.takesEffect w then 1 else 0) + effects x (m.write x w) ws

/-- Additions take effect. -/
theorem length_additions_le_effects (m : Manager) (ws : List Write) :
    (additions ws).length ≤ effects x m ws := by
  induction ws generalizing m with
  | nil => exact le_refl 0
  | cons w ws ih =>
    have hrest := ih (m.write x w)
    cases w with
    | delete =>
      rw [additions, effects]
      omega
    | add =>
      rw [additions, effects, takesEffect, if_pos rfl, length_cons]
      omega

theorem foldl_write_of_effects_eq_zero (h : effects x m ws = 0) :
    ws.foldl (write x) m = m ∧ ∀ t ∈ tablesAfter x m ws, t = m := by
  induction ws generalizing m with
  | nil => exact ⟨rfl, fun t ht => (not_mem_nil ht).elim⟩
  | cons w _ ih =>
    unfold effects at h
    cases heffect : m.takesEffect w with
    | true => rw [heffect, if_pos rfl] at h; omega
    | false =>
      have hsame : m.write x w = m := write_eq_self heffect
      rw [heffect, hsame] at h
      obtain ⟨hlast, hall⟩ := ih (by simpa using h)
      rw [foldl_cons, hsame]
      refine ⟨hlast, ?_⟩
      intro t ht
      rw [tablesAfter, hsame] at ht
      rcases mem_cons.mp ht with rfl | ht
      · rfl
      · exact hall t ht

/-- A module that no write is about stays as it is. -/
theorem isLoaded_foldl_write_of_ne {modID : UInt64}
    (hnamed : ∀ w ∈ ws, w.Named) (hne : ∀ w ∈ ws, w.modID x ≠ modID) :
    (ws.foldl (write x) m).isLoaded modID = m.isLoaded modID := by
  induction ws generalizing m with
  | nil => rfl
  | cons w _ ih =>
    rw [foldl_cons, ih (fun w' h => hnamed w' (mem_cons_of_mem w h))
      (fun w' h => hne w' (mem_cons_of_mem w h)), isLoaded_write m (hnamed w mem_cons_self),
      if_neg (Ne.symm (hne w mem_cons_self))]

/-! ## §3. The two halves of an event. -/

/-- The modules that the first half of an event deletes. -/
def PolicyEvent.removed (evt : PolicyEvent) : List UInt64 :=
  match evt.kind with
  | .addOrUpdatePolicy => evt.policyID :: evt.oldPolicyID.toList
  | .deleteOrDisablePolicy => [evt.policyID]

/-- The policy that the first half of an event adds. -/
def PolicyEvent.mainPolicy (loader : PolicyLoader) (evt : PolicyEvent) : Option RunnablePolicySet :=
  match evt.kind, loader.getFirstMatch [evt.policyID] with
  | .addOrUpdatePolicy, .ok rps => rps
  | _, _ => none

/-- **The first half of an event.** -/
theorem policyWrites_ok (h : policyWrites loader m evt = .ok ws) :
    ws = evt.removed.map .delete ++ (evt.mainPolicy loader).toList.map .add ∧
      ∀ rps ∈ evt.mainPolicy loader, m.checkPolicy rps evt.oldPolicyID = [] := by
  unfold policyWrites at h
  unfold PolicyEvent.removed PolicyEvent.mainPolicy
  cases hkind : evt.kind with
  | deleteOrDisablePolicy => grind
  | addOrUpdatePolicy =>
    rw [hkind] at h
    cases hfirst : loader.getFirstMatch [evt.policyID] with
    | error => rw [hfirst] at h; cases h
    | ok rps =>
      rw [hfirst] at h
      cases rps with
      | none => grind
      | some rps =>
        cases hcheck : m.checkPolicy rps evt.oldPolicyID with
        | cons => simp [hcheck] at h
        | nil =>
          grind

theorem policyWrites_of_checkPolicy {rps : RunnablePolicySet}
    (hkind : evt.kind = .addOrUpdatePolicy)
    (hfirst : loader.getFirstMatch [evt.policyID] = .ok (some rps))
    (hcheck : m.checkPolicy rps evt.oldPolicyID = []) : policyWrites loader m evt =
      .ok (.delete evt.policyID :: evt.oldPolicyID.toList.map .delete ++ [.add rps]) := by
  unfold policyWrites
  rw [hkind, hfirst]
  dsimp only [Option.map_some]
  rw [hcheck]
  rfl

theorem eq_index_of_runWrites {e : EventError}
    (h : (m.runWrites x ws).2 = some e) : e = .index := by
  induction ws generalizing m with
  | nil => cases h
  | cons =>
    unfold runWrites at h
    grind

/-- The writes of the first half of an event. -/
def firstWrites (loader : PolicyLoader) (evt : PolicyEvent) : List Write :=
  evt.removed.map .delete ++ (evt.mainPolicy loader).toList.map .add

/-- **How far an event gets**, by its error. -/
theorem eventWrites_spec :
    (eventWrites x loader m evt = [] ∧ ∃ e, policyWrites loader m evt = .error e ∧
      (m.processPolicyEvent x loader evt).2 = some e ∧ e ≠ .index ∧ ∀ cause, e ≠ .loadDependents cause) ∨
    policyWrites loader m evt = .ok (firstWrites loader evt) ∧
      ((eventWrites x loader m evt = executed x m (firstWrites loader evt) ∧
          (m.runWrites x (firstWrites loader evt)).2 = some .index ∧
          (m.processPolicyEvent x loader evt).2 = some .index) ∨
        (m.runWrites x (firstWrites loader evt)).2 = none ∧
          ((eventWrites x loader m evt = firstWrites loader evt ∧ ∃ cause,
              dependentWrites loader evt = .error (.loadDependents cause) ∧
                (m.processPolicyEvent x loader evt).2 = some (.loadDependents cause)) ∨
            ∃ ws table, dependentWrites loader evt = .ok ws ∧
              eventWrites x loader m evt = firstWrites loader evt ++ executed x table ws ∧
              (m.processPolicyEvent x loader evt).2 = (table.runWrites x ws).2 ∧
              table = (firstWrites loader evt).foldl (write x) m)) := by
  unfold eventWrites processPolicyEvent
  cases hwrites : policyWrites loader m evt with
  | error e =>
    refine .inl ⟨rfl, e, rfl, rfl, ?_⟩
    unfold policyWrites at hwrites
    grind
  | ok ws =>
    have hws : ws = firstWrites loader evt := (policyWrites_ok hwrites).1
    subst hws
    have htables := @runWrites_fst x (firstWrites loader evt) m
    cases hrun : m.runWrites x _ with
    | mk tables error =>
      cases error with
      | some =>
        obtain rfl := eq_index_of_runWrites (congrArg Prod.snd hrun)
        simp [hrun]
      | none =>
        cases hdeps : dependentWrites loader evt with
        | error e =>
          obtain ⟨cause, rfl⟩ : ∃ cause, e = .loadDependents cause := by
            unfold dependentWrites at hdeps
            grind
          simp [hrun]
        | ok ws' =>
          refine .inr ⟨rfl, .inr ⟨by simp, .inr ⟨ws', tables.getLastD m, rfl, ?_, ?_, ?_⟩⟩⟩
          · simp [hrun]
          · simp [hrun]
          · rw [hrun, executed_eq_self (congrArg Prod.snd hrun)] at htables
            rw [← getLastD_tablesAfter, ← htables]

theorem dependentWrites_ok (h : dependentWrites loader evt = .ok ws) :
    ∃ toReload, ((evt.dependents ≠ [] ∧ loader.getAllMatching evt.dependents = .ok toReload) ∨
        (evt.dependents = [] ∧ toReload = [])) ∧
      ws = evt.dependents.map .delete ++ toReload.map .add := by
  unfold dependentWrites at h
  split at h
  · next hempty => exact ⟨[], .inr ⟨isEmpty_iff.mp hempty, rfl⟩, by simp_all⟩
  · next hne =>
    split at h
    · cases h
    · next toReload hok =>
      cases h
      exact ⟨toReload, .inl ⟨fun h => hne (isEmpty_iff.mpr h), hok⟩, rfl⟩

/-! ## §4. The policies that are loaded after a sequence of writes. -/

/-- The loaded policies after a write. -/
def loadedWrite (x : Externals) (loaded : Loaded) : Write → Loaded
  | .delete modID => without x modID loaded
  | .add rps => rps :: loaded

/-- Policies with the same module ID have the same name. -/
def ToldApart (x : Externals) (qs : List RunnablePolicySet) : Prop :=
  ∀ q ∈ qs, ∀ q' ∈ qs, q.policySet.modID x = q'.policySet.modID x →
    q.policySet.fqn = q'.policySet.fqn

theorem ToldApart.mono {qs qs' : List RunnablePolicySet} (h : ToldApart x qs) (hsub : qs' ⊆ qs) :
    ToldApart x qs' := fun q hq q' hq' => h q (hsub hq) q' (hsub hq')

theorem loadedWrite_subset (w : Write) (ws : List Write) (loaded : Loaded) :
    additions ws ++ loadedWrite x loaded w ⊆ additions (w :: ws) ++ loaded := by
  cases w with
  | delete => grind [additions, loadedWrite, without]
  | add => grind [additions, loadedWrite]

variable (ids : List UInt64)

theorem foldl_loadedWrite_delete (loaded : Loaded) :
    (ids.map Write.delete).foldl (loadedWrite x) loaded =
      loaded.filter (fun q => decide (q.policySet.modID x ∉ ids)) := by
  induction ids generalizing loaded with
  | nil => exact (filter_eq_self.mpr (fun q _ => decide_eq_true not_mem_nil)).symm
  | cons _ _ ih =>
    rw [map_cons, foldl_cons, ih, loadedWrite, without, filter_filter]
    refine filter_congr (fun q _ => ?_)
    simp [Bool.and_comm]

variable (rpss : List RunnablePolicySet)

theorem foldl_loadedWrite_add (loaded : Loaded) :
    (rpss.map Write.add).foldl (loadedWrite x) loaded = rpss.reverse ++ loaded := by
  induction rpss generalizing loaded with
  | nil => rfl
  | cons _ _ ih =>
    rw [map_cons, foldl_cons, ih, reverse_cons, append_assoc]
    rfl

theorem additions_append : additions (ws ++ ws') = additions ws ++ additions ws' := by
  induction ws with
  | nil => rfl
  | cons w _ ih => cases w <;> simp [additions, ih]

theorem additions_delete : additions (ids.map .delete) = [] := by
  induction ids with
  | nil => rfl
  | cons _ _ ih => exact ih

theorem additions_add : additions (rpss.map .add) = rpss := by
  induction rpss with
  | nil => rfl
  | cons rps _ ih => exact congrArg (rps :: ·) ih

/-! ## §5. Readers. -/

/-- What the scheduler runs next: a write of the event, or a call of `Check`. -/
inductive Slot where
  | write | check
  deriving DecidableEq, Repr

/-- The tables that the calls of `Check` see.  A call holds the read lock, so that no write falls
into it. -/
def observed (x : Externals) : Manager → List Write → List Slot → List Manager
  | _, _, [] => []
  | m, ws, .check :: slots => m :: observed x m ws slots
  | m, [], .write :: slots => observed x m [] slots
  | m, w :: ws, .write :: slots => observed x (m.write x w) ws slots

variable {slots : List Slot}

theorem mem_of_mem_observed (h : t ∈ observed x m ws slots) : t = m ∨ t ∈ tablesAfter x m ws := by
  induction slots generalizing m ws with
  | nil => exact (not_mem_nil h).elim
  | cons slot _ ih =>
    cases slot with
    | check =>
      rw [observed] at h
      grind
    | write =>
      cases ws with
      | nil => exact ih h
      | cons => grind [tablesAfter, ih h]

theorem exists_observed
    (h : t = m ∨ t ∈ tablesAfter x m ws) : ∃ slots, t ∈ observed x m ws slots := by
  induction ws generalizing m with
  | nil =>
    rcases h with rfl | h
    · exact ⟨[.check], mem_cons_self⟩
    · exact (not_mem_nil h).elim
  | cons _ _ ih =>
    rcases h with rfl | h
    · exact ⟨[.check], mem_cons_self⟩
    · obtain ⟨slots, hslots⟩ := ih (mem_cons.mp h)
      exact ⟨.write :: slots, hslots⟩

/-- The first write that takes effect. -/
theorem exists_first_effect (h : effects x m ws ≠ 0) :
    ∃ pre w post, ws = pre ++ w :: post ∧ effects x m pre = 0 ∧ m.takesEffect w = true ∧
      effects x m ws = 1 + effects x (m.write x w) post := by
  induction ws generalizing m with
  | nil => exact (h rfl).elim
  | cons w ws ih =>
    cases heffect : m.takesEffect w with
    | true => exact ⟨[], w, ws, rfl, rfl, heffect, by rw [effects, heffect, if_pos rfl]⟩
    | false =>
      have hcount : ∀ ws, effects x m (w :: ws) = effects x m ws := by
        intro ws
        rw [effects, heffect, write_eq_self heffect]
        simp
      rw [hcount] at h ⊢
      obtain ⟨pre, w', post, rfl, hpre, hw', hrest⟩ := ih h
      exact ⟨w :: pre, w', post, rfl, (hcount pre).trans hpre, hw', hrest⟩

/-- If at most one write takes effect, every call sees the first table or the last. -/
theorem eq_or_eq_of_effects_le_one (h : effects x m ws ≤ 1)
    (ht : t ∈ observed x m ws slots) : t = m ∨ t = ws.foldl (write x) m := by
  rcases mem_of_mem_observed ht with rfl | ht
  · exact .inl rfl
  · by_cases hzero : effects x m ws = 0
    · exact .inl ((foldl_write_of_effects_eq_zero hzero).2 t ht)
    · obtain ⟨pre, w, post, rfl, hpre, -, hcount⟩ := exists_first_effect hzero
      obtain ⟨hsame, hbefore⟩ := foldl_write_of_effects_eq_zero hpre
      obtain ⟨hlast, hafter⟩ :=
        foldl_write_of_effects_eq_zero (show effects x (m.write x w) post = 0 by omega)
      rw [tablesAfter_append, hsame, mem_append] at ht
      rw [foldl_append, hsame, foldl_cons, hlast]
      exact ht.imp (hbefore t) (fun ht => (mem_cons.mp ht).elim id (hafter t))

/-- Additions of modules that are not loaded at the time. -/
def Fresh (x : Externals) : Manager → List Write → Prop
  | _, [] => True
  | m, w :: ws => (w.isAdd = true → m.isLoaded (w.modID x) = false) ∧ Fresh x (m.write x w) ws

theorem fresh_append :
    Fresh x m (ws ++ ws') ↔ Fresh x m ws ∧ Fresh x (ws.foldl (write x) m) ws' := by
  induction ws generalizing m with
  | nil => exact ⟨fun h => ⟨trivial, h⟩, And.right⟩
  | cons _ _ ih =>
    rw [cons_append, Fresh, Fresh, ih, foldl_cons, and_assoc]

/-- Writes that each put a module into another state, and no module more than twice. -/
structure Orderly (x : Externals) (m : Manager) (ws : List Write) : Prop where
  named : ∀ w ∈ ws, w.Named
  fresh : Fresh x m ws
  twice : ∀ modID, (ws.map (Write.modID x)).count modID ≤ 2

theorem isLoaded_write_of_takesEffect (hnamed : w.Named)
    (hfresh : w.isAdd = true → m.isLoaded (w.modID x) = false) (heffect : m.takesEffect w = true) :
    (m.write x w).isLoaded (w.modID x) ≠ m.isLoaded (w.modID x) := by
  rw [isLoaded_write m hnamed, if_pos rfl]
  cases w with
  | delete modID =>
    have hloaded : m.isLoaded modID = true := heffect
    show false ≠ m.isLoaded modID
    rw [hloaded]
    exact Bool.false_ne_true
  | add =>
    rw [hfresh rfl]
    exact Bool.false_ne_true.symm

/-- **With two effects a reader may see a table that is neither the first nor the last**: the modules
that are loaded in it tell. -/
theorem Orderly.exists_between (h : Orderly x m ws) (heffects : 1 < effects x m ws) :
    ∃ slots, ∃ t ∈ observed x m ws slots, (∃ modID, t.isLoaded modID ≠ m.isLoaded modID) ∧
      ∃ modID, t.isLoaded modID ≠ (ws.foldl (write x) m).isLoaded modID := by
  obtain ⟨pre, w₁, rest, rfl, hnone, heffect₁, hcount⟩ := @exists_first_effect x ws m (by omega)
  obtain ⟨mid, w₂, post, rfl, hnone', heffect₂, -⟩ :=
    @exists_first_effect x rest (m.write x w₁) (by omega)
  have hpre := (foldl_write_of_effects_eq_zero hnone).1
  have hmid := (foldl_write_of_effects_eq_zero hnone').1
  have hnamed₁ : w₁.Named := h.named w₁ (by simp)
  have hnamed₂ : w₂.Named := h.named w₂ (by simp)
  -- the tables after the two writes, and the last one
  have htables : ∀ t, t = m.write x w₁ ∨ t = (m.write x w₁).write x w₂ →
      ∃ slots, t ∈ observed x m (pre ++ w₁ :: (mid ++ w₂ :: post)) slots := by
    intro t ht
    refine exists_observed (.inr ?_)
    rw [tablesAfter_append, hpre, tablesAfter, tablesAfter_append, hmid, tablesAfter]
    grind
  have hlast : (pre ++ w₁ :: (mid ++ w₂ :: post)).foldl (write x) m =
      post.foldl (write x) ((m.write x w₁).write x w₂) := by
    rw [foldl_append, hpre, foldl_cons, foldl_append, hmid, foldl_cons]
  have hfresh := (fresh_append.mp h.fresh).2
  rw [hpre] at hfresh
  have hfresh₂ := (fresh_append.mp hfresh.2).2
  rw [hmid] at hfresh₂
  have htoggled₁ := isLoaded_write_of_takesEffect hnamed₁ hfresh.1 heffect₁
  have htoggled₂ := isLoaded_write_of_takesEffect hnamed₂ hfresh₂.1 heffect₂
  rw [hlast]
  by_cases hsame : ∀ modID, (m.write x w₁).isLoaded modID =
      (post.foldl (write x) ((m.write x w₁).write x w₂)).isLoaded modID
  · -- then the table after the second write is not the last one
    obtain ⟨slots, hslots⟩ := htables _ (.inr rfl)
    refine ⟨slots, _, hslots, ⟨w₁.modID x, ?_⟩, ⟨w₂.modID x, by rw [← hsame]; exact htoggled₂⟩⟩
    by_cases hmod : w₁.modID x = w₂.modID x
    · -- two writes about one module: the rest of the event leaves it alone
      have htwice := h.twice (w₁.modID x)
      have hpost : ∀ w ∈ post, w.modID x ≠ w₁.modID x := by
        intro w hw hmod'
        have hpos : 0 < (post.map (Write.modID x)).count (w₁.modID x) :=
          count_pos_iff.mpr (mem_map.mpr ⟨w, hw, hmod'⟩)
        simp only [map_append, map_cons, count_append, count_cons, ← hmod,
          beq_self_eq_true, if_true] at htwice
        omega
      have hkept : (post.foldl (write x) ((m.write x w₁).write x w₂)).isLoaded (w₁.modID x) =
          ((m.write x w₁).write x w₂).isLoaded (w₁.modID x) :=
        isLoaded_foldl_write_of_ne (fun w hw => h.named w (by simp [hw])) hpost
      rw [← hmod] at htoggled₂
      exact (htoggled₂ (hkept.symm.trans (hsame _).symm)).elim
    · rw [isLoaded_write _ hnamed₂, if_neg hmod]
      exact htoggled₁
  · obtain ⟨modID, hdiff⟩ := not_forall.mp hsame
    obtain ⟨slots, hslots⟩ := htables _ (.inl rfl)
    exact ⟨slots, _, hslots, ⟨_, htoggled₁⟩, ⟨modID, hdiff⟩⟩

/-- Events as storage makes them, and loaders that return the policies that they are asked for. -/
structure OrderlyEvent (x : Externals) (loader : PolicyLoader) (evt : PolicyEvent) : Prop where
  distinct : (evt.removed ++ evt.dependents).Nodup
  main : ∀ rps ∈ evt.mainPolicy loader,
    rps.policySet.modID x = evt.policyID ∧ rps.policySet.metadata.isSome = true
  reloaded : ∀ toReload, loader.getAllMatching evt.dependents = .ok toReload →
    (toReload.map (fun rps => rps.policySet.modID x)).Nodup ∧
      ∀ rps ∈ toReload, rps.policySet.modID x ∈ evt.dependents ∧
        rps.policySet.metadata.isSome = true

theorem executed_isPrefix (ws : List Write) (m : Manager) : executed x m ws <+: ws := by
  induction ws generalizing m with
  | nil => exact prefix_rfl
  | cons w ws ih =>
    unfold executed
    cases m.runWrite x w with
    | error => exact prefix_append [w] ws
    | ok m' => exact (prefix_cons_inj w).mpr (ih m')

theorem Orderly.of_isPrefix (h : Orderly x m ws') (hinitial : ws <+: ws') : Orderly x m ws := by
  obtain ⟨rest, rfl⟩ := hinitial
  refine ⟨fun w hw => h.named w (mem_append_left _ hw), (fresh_append.mp h.fresh).1, ?_⟩
  intro modID
  have htwice := h.twice modID
  rw [map_append, count_append] at htwice
  omega

/-- All writes of an event that runs to its end. -/
def allWrites (loader : PolicyLoader) (evt : PolicyEvent) (toReload : List RunnablePolicySet) :
    List Write :=
  (evt.removed.map .delete ++ (evt.mainPolicy loader).toList.map .add) ++
    (evt.dependents.map .delete ++ toReload.map .add)

/-- **The writes that an event gets to** are the first of all its writes.  If there are any, the
policy of the event has been checked. -/
theorem eventWrites_isPrefix :
    ∃ toReload, ((evt.dependents ≠ [] ∧ loader.getAllMatching evt.dependents = .ok toReload) ∨
        toReload = []) ∧ eventWrites x loader m evt <+: allWrites loader evt toReload ∧
      (eventWrites x loader m evt ≠ [] →
        ∀ rps ∈ evt.mainPolicy loader, m.checkPolicy rps evt.oldPolicyID = []) := by
  rcases @eventWrites_spec x loader evt m with
    ⟨hwrites, -⟩ | ⟨hok, ⟨hwrites, -⟩ | ⟨-, ⟨hwrites, -⟩ | ⟨ws, table, hdeps, hwrites, -⟩⟩⟩
  · exact ⟨[], .inr rfl, hwrites ▸ nil_prefix, fun h => (h hwrites).elim⟩
  · exact ⟨[], .inr rfl, hwrites ▸ (executed_isPrefix _ m).trans (prefix_append _ _),
      fun _ => (policyWrites_ok hok).2⟩
  · exact ⟨[], .inr rfl, hwrites ▸ prefix_append _ _, fun _ => (policyWrites_ok hok).2⟩
  · obtain ⟨toReload, hreload, rfl⟩ := dependentWrites_ok hdeps
    exact ⟨toReload, hreload.imp_right And.right,
      hwrites ▸ (prefix_append_right_inj _).mpr (executed_isPrefix _ _),
      fun _ => (policyWrites_ok hok).2⟩

/-- An event that succeeds gets to all its writes. -/
theorem eventWrites_of_success (h : (m.processPolicyEvent x loader evt).2 = none) :
    ∃ toReload, ((evt.dependents ≠ [] ∧ loader.getAllMatching evt.dependents = .ok toReload) ∨
        (evt.dependents = [] ∧ toReload = [])) ∧
      eventWrites x loader m evt = allWrites loader evt toReload := by
  rcases @eventWrites_spec x loader evt m with
    ⟨-, e, -, he, -⟩ | ⟨-, ⟨-, -, he⟩ | ⟨-, ⟨-, cause, -, he⟩ | ⟨ws, table, hdeps, hwrites, he, -⟩⟩⟩
  · cases he.symm.trans h
  · cases he.symm.trans h
  · cases he.symm.trans h
  · obtain ⟨toReload, hreload, rfl⟩ := dependentWrites_ok hdeps
    rw [executed_eq_self (he.symm.trans h)] at hwrites
    exact ⟨toReload, hreload, hwrites⟩

theorem isLoaded_foldl_delete (m : Manager) (modID : UInt64) :
    ((ids.map Write.delete).foldl (write x) m).isLoaded modID =
      if modID ∈ ids then false else m.isLoaded modID := by
  induction ids generalizing m with
  | nil => simp
  | cons _ _ ih =>
    rw [map_cons, foldl_cons, ih, write_delete, isLoaded_deletePolicy]
    grind

theorem fresh_deletes (m : Manager) : Fresh x m (ids.map .delete) := by
  induction ids generalizing m with
  | nil => exact trivial
  | cons _ _ ih => exact ⟨fun hadd => Bool.noConfusion hadd, ih _⟩

theorem fresh_adds {rpss : List RunnablePolicySet}
    (hnamed : ∀ rps ∈ rpss, rps.policySet.metadata.isSome = true)
    (hnodup : (rpss.map (fun rps => rps.policySet.modID x)).Nodup)
    (hfresh : ∀ rps ∈ rpss, m.isLoaded (rps.policySet.modID x) = false) :
    Fresh x m (rpss.map .add) := by
  induction rpss generalizing m with
  | nil => exact trivial
  | cons rps _ ih =>
    rw [map_cons, nodup_cons] at hnodup
    refine ⟨fun _ => hfresh rps mem_cons_self, ?_⟩
    refine ih (fun q hq => hnamed q (mem_cons_of_mem _ hq)) hnodup.2 ?_
    intro q hq
    have hne : q.policySet.modID x ≠ rps.policySet.modID x :=
      fun hmod => hnodup.1 (mem_map.mpr ⟨q, hq, hmod⟩)
    have hw : (Write.add rps).Named := hnamed rps mem_cons_self
    rw [isLoaded_write m hw]
    exact (if_neg hne).trans (hfresh q (mem_cons_of_mem _ hq))

theorem policyID_mem_removed (evt : PolicyEvent) : evt.policyID ∈ evt.removed := by
  unfold PolicyEvent.removed
  cases evt.kind <;> exact mem_cons_self

/-- **The writes of an orderly event are orderly.** -/
theorem OrderlyEvent.orderly (h : OrderlyEvent x loader evt) (m : Manager) :
    Orderly x m (eventWrites x loader m evt) := by
  obtain ⟨toReload, hreload, hinitial, -⟩ := @eventWrites_isPrefix x loader evt m
  have hall : (toReload.map (fun rps => rps.policySet.modID x)).Nodup ∧
      ∀ rps ∈ toReload, rps.policySet.modID x ∈ evt.dependents ∧
        rps.policySet.metadata.isSome = true := by
    rcases hreload with ⟨-, hok⟩ | rfl
    · exact h.reloaded toReload hok
    · exact ⟨nodup_nil, fun rps hrps => (not_mem_nil hrps).elim⟩
  have hmain : ∀ rps ∈ (evt.mainPolicy loader).toList, rps.policySet.modID x = evt.policyID ∧
      rps.policySet.metadata.isSome = true := fun rps hrps => h.main rps (Option.mem_toList.mp hrps)
  have hone : ((evt.mainPolicy loader).toList.map (fun rps => rps.policySet.modID x)).Nodup := by
    cases evt.mainPolicy loader <;> simp
  refine Orderly.of_isPrefix ?_ hinitial
  constructor
  case named =>
    intro w hw
    simp only [allWrites, mem_append, mem_map] at hw
    rcases hw with (⟨id, -, rfl⟩ | ⟨rps, hrps, rfl⟩) | (⟨id, -, rfl⟩ | ⟨rps, hrps, rfl⟩)
    · exact trivial
    · exact (hmain rps hrps).2
    · exact trivial
    · exact (hall.2 rps hrps).2
  case fresh =>
    unfold allWrites
    rw [fresh_append, fresh_append, fresh_append]
    refine ⟨⟨fresh_deletes _ _, fresh_adds (fun rps hrps => (hmain rps hrps).2) hone ?_⟩,
      fresh_deletes _ _, fresh_adds (fun rps hrps => (hall.2 rps hrps).2) hall.1 ?_⟩
    · intro rps hrps
      rw [(hmain rps hrps).1]
      exact (isLoaded_foldl_delete _ _ _).trans (if_pos (policyID_mem_removed evt))
    · intro rps hrps
      exact (isLoaded_foldl_delete _ _ _).trans (if_pos (hall.2 rps hrps).1)
  case twice =>
    intro modID
    have hdel := nodup_iff_count_le_one.mp h.distinct modID
    have hdistinct : ((evt.mainPolicy loader).toList.map (fun rps => rps.policySet.modID x) ++
        toReload.map (fun rps => rps.policySet.modID x)).Nodup := by
      refine List.Nodup.append hone hall.1 ?_
      intro id hid hid'
      obtain ⟨rps, hrps, rfl⟩ := mem_map.mp hid
      obtain ⟨rps', hrps', hmod⟩ := mem_map.mp hid'
      refine (nodup_append.mp h.distinct).2.2 _ (policyID_mem_removed evt) _
        (hall.2 rps' hrps').1 ?_
      rw [hmod, (hmain rps hrps).1]
    have hadded := nodup_iff_count_le_one.mp hdistinct modID
    simp only [allWrites, map_append, map_map, Function.comp_def, Write.modID, map_id',
      count_append] at hdel hadded ⊢
    omega

/-- **Readers and one event.**  If at most one write of the event takes effect, every call of `Check`
sees the table before the event or the table after it.  For the events of storage that is the only
case: with two effects there is a schedule in which a call sees other modules loaded than before and
other modules than after. -/
theorem checks_see_before_or_after_iff (x : Externals) (loader : PolicyLoader) (m : Manager)
    (evt : PolicyEvent) : (effects x m (eventWrites x loader m evt) ≤ 1 →
      ∀ slots, ∀ t ∈ observed x m (eventWrites x loader m evt) slots,
        t = m ∨ t = afterEvent x loader m evt) ∧
    (OrderlyEvent x loader evt → ((∀ slots, ∀ t ∈ observed x m (eventWrites x loader m evt) slots,
          t = m ∨ t = afterEvent x loader m evt) ↔ effects x m (eventWrites x loader m evt) ≤ 1) ∧
      (1 < effects x m (eventWrites x loader m evt) →
        ∃ slots, ∃ t ∈ observed x m (eventWrites x loader m evt) slots,
          (∃ modID, t.isLoaded modID ≠ m.isLoaded modID) ∧
          ∃ modID, t.isLoaded modID ≠ (afterEvent x loader m evt).isLoaded modID)) := by
  rw [afterEvent_eq]
  refine ⟨fun hone _ _ => eq_or_eq_of_effects_le_one hone, fun horderly => ?_⟩
  have hbetween := fun htwo => (horderly.orderly m).exists_between htwo
  refine ⟨⟨fun hsees => ?_, fun hone _ _ => eq_or_eq_of_effects_le_one hone⟩, hbetween⟩
  by_contra hmany
  obtain ⟨slots, t, ht, ⟨id, hbefore⟩, ⟨id', hafter⟩⟩ := hbetween (by omega)
  rcases hsees slots t ht with rfl | rfl
  · exact hbefore rfl
  · exact hafter rfl

/-- Writes whose additions bring no variables along do not fail. -/
theorem runWrites_of_noVariables (m : Manager)
    (h : ∀ rps ∈ additions ws, ∀ row ∈ rps.policySet.rows, row.NoVariables) :
    (m.runWrites x ws).2 = none := by
  induction ws generalizing m with
  | nil => rfl
  | cons w ws ih =>
    cases w with
    | delete => exact ih _ h
    | add rps =>
      obtain ⟨m', hadd⟩ := exists_addPolicy (x := x) m (h rps mem_cons_self)
      have hrun : m.runWrite x (.add rps) = .ok m' := hadd
      rw [runWrites, hrun]
      exact ih m' (fun q hq => h q (mem_cons_of_mem rps hq))

/-- An event that is checked and whose additions do not fail. -/
theorem eventWrites_of_noVariables (hwrites : policyWrites loader m evt = .ok ws)
    (hdeps : dependentWrites loader evt = .ok ws')
    (h : ∀ rps ∈ additions (ws ++ ws'), ∀ row ∈ rps.policySet.rows, row.NoVariables) :
    eventWrites x loader m evt = ws ++ ws' ∧ (m.processPolicyEvent x loader evt).2 = none := by
  rw [additions_append] at h
  have hfirst := runWrites_of_noVariables (x := x) m (fun rps hrps => h rps (mem_append_left _ hrps))
  have hsecond := fun t => runWrites_of_noVariables (x := x) t
    (fun rps hrps => h rps (mem_append_right _ hrps))
  unfold eventWrites processPolicyEvent
  rw [hwrites, hdeps]
  dsimp only
  cases hresult : m.runWrites x ws with
  | mk tables error =>
    rw [hresult] at hfirst
    obtain rfl : error = none := hfirst
    dsimp only
    rw [executed_eq_self (hsecond _)]
    exact ⟨rfl, hsecond _⟩

abbrev docPolicy : RunnablePolicySet := plainResource "doc" ""
abbrev memoPolicy : RunnablePolicySet := plainResource "memo" ""
abbrev noteSet : RunnablePolicySet := plainResource "note" ""

/-- A policy that is in conflict with them: its scope is theirs, and its permissions are not. -/
abbrev strictPolicy : RunnablePolicySet := plainPrincipal "" .requireParentalConsentForAllows

def docID : UInt64 := docPolicy.policySet.modID sample
def memoID : UInt64 := memoPolicy.policySet.modID sample

/-- A table that was built from two policies.  New versions of them are in no conflict with it, nor
is a policy of another resource. -/
theorem exists_office_run : ∃ m, Runs sample (fun _ _ _ => True) [memoPolicy, docPolicy] m ∧
    m.checkPolicy docPolicy none = [] ∧ m.checkPolicy noteSet none = [] ∧
    m.checkPolicy strictPolicy none ≠ [] := by
  obtain ⟨m₁, h₁⟩ := exists_add_plainResource (x := sample) Manager.new "doc" "" .overrideParent
  obtain ⟨m₂, h₂⟩ := exists_add_plainResource (x := sample) m₁ "memo" "" .overrideParent
  have hdoc : Adds sample [] Manager.new docPolicy m₁ :=
    ⟨plainResource_wellFormed _ _ _, fun q hq => (not_mem_nil hq).elim, h₁⟩
  have hne : docID ≠ memoID := by decide
  have hmemo : Adds sample [docPolicy] m₁ memoPolicy m₂ :=
    ⟨plainResource_wellFormed _ _ _, fun q hq hmod =>
      (hne (by rw [mem_singleton.mp hq] at hmod; exact hmod)).elim, h₂⟩
  have hbuilds : Builds sample (fun _ _ _ => True) [memoPolicy, docPolicy] m₂ :=
    ⟨m₁, ⟨Manager.new, rfl, hdoc, trivial⟩, hmemo, trivial⟩
  have htracker := (addPolicy_spec (.inl h₂)).1.scopePermsTracker
  rw [(addPolicy_spec (.inl h₁)).1.scopePermsTracker] at htracker
  refine ⟨_, .built hbuilds, ?_, ?_, ?_⟩
  · show m₂.scopePermsTracker.check .resource _ "" .overrideParent "" = []
    rw [htracker]
    decide +kernel
  · show m₂.scopePermsTracker.check .resource _ "" .overrideParent "" = []
    rw [htracker]
    decide +kernel
  · show m₂.scopePermsTracker.check .principal _ "" .requireParentalConsentForAllows "" ≠ []
    rw [htracker]
    decide +kernel

theorem isLoaded_office (h : Runs sample (fun _ _ _ => True) [memoPolicy, docPolicy] m) :
    m.isLoaded docID = true ∧ m.isLoaded memoID = true ∧
      m.isLoaded (sample.hasher.str "cerbos.derived_roles.staff") = false := by
  unfold isLoaded
  rw [h.follows.metadata, h.follows.metadata, h.follows.metadata]
  exact ⟨rfl, rfl, rfl⟩

/-- Derived roles that both policies import have been edited. -/
def staffEdited : PolicyEvent where
  kind := .addOrUpdatePolicy
  policyID := sample.hasher.str "cerbos.derived_roles.staff"
  dependents := [docID, memoID]

/-- A policy has been added. -/
def noteAdded : PolicyEvent where
  kind := .addOrUpdatePolicy
  policyID := noteSet.policySet.modID sample

/-- The policy has been edited. -/
def docEdited : PolicyEvent where
  kind := .addOrUpdatePolicy
  policyID := docID

/-- Derived roles are no policy of their own. -/
def officeLoader : PolicyLoader where
  getFirstMatch := fun ids => .ok ([docPolicy, noteSet].find?
    (fun rps => decide (rps.policySet.modID sample ∈ ids)))
  getAllMatching := fun ids => .ok ([docPolicy, memoPolicy].filter
    (fun rps => decide (rps.policySet.modID sample ∈ ids)))

theorem staffEdited_orderly : OrderlyEvent sample officeLoader staffEdited where
  distinct := by decide
  main := by
    intro rps hrps
    cases hrps
  reloaded := by
    intro toReload hok
    obtain rfl := Except.ok.inj hok
    decide

/-- While the policies are reloaded a call may see a table that is neither the one before nor the one
after; while a policy is added for the first time none can. -/
theorem office_checks : ∃ m, Runs Externals.sample (fun _ _ _ => True) [memoPolicy, docPolicy] m ∧
    (∃ slots, ∃ t ∈ observed Externals.sample m
      (eventWrites Externals.sample officeLoader m staffEdited) slots,
      (∃ modID, t.isLoaded modID ≠ m.isLoaded modID) ∧ ∃ modID,
        t.isLoaded modID ≠ (afterEvent Externals.sample officeLoader m staffEdited).isLoaded modID) ∧
    ∀ slots, ∀ t ∈ observed Externals.sample m
      (eventWrites Externals.sample officeLoader m noteAdded) slots,
      t = m ∨ t = afterEvent Externals.sample officeLoader m noteAdded := by
  obtain ⟨m, hm, -, hcheck, -⟩ := exists_office_run
  refine ⟨m, hm, ?_, ?_⟩
  · refine ((checks_see_before_or_after_iff sample officeLoader m staffEdited).2
      staffEdited_orderly).2 ?_
    have hwrites : policyWrites officeLoader m staffEdited = .ok [.delete staffEdited.policyID] := rfl
    have hdeps : dependentWrites officeLoader staffEdited =
        .ok [.delete docID, .delete memoID, .add docPolicy, .add memoPolicy] := rfl
    have hevent : eventWrites sample officeLoader m staffEdited = _ :=
      (eventWrites_of_noVariables hwrites hdeps
        (forall_mem_cons.mpr ⟨plainResource_noVariables _ _ _,
          forall_mem_singleton.mpr (plainResource_noVariables _ _ _)⟩)).1
    have hlength := length_additions_le_effects (x := sample) m (eventWrites sample officeLoader m
      staffEdited)
    rw [hevent] at hlength ⊢
    exact hlength
  · refine (checks_see_before_or_after_iff sample officeLoader m noteAdded).1 ?_
    have hwrites : policyWrites officeLoader m noteAdded =
        .ok [.delete noteAdded.policyID, .add noteSet] :=
      policyWrites_of_checkPolicy rfl rfl hcheck
    have hevent : eventWrites sample officeLoader m noteAdded =
        [.delete noteAdded.policyID, .add noteSet] :=
      (eventWrites_of_noVariables hwrites rfl
        (forall_mem_singleton.mpr (plainResource_noVariables _ _ _))).1
    have hnew : m.isLoaded (noteSet.policySet.modID sample) = false := by
      unfold isLoaded
      rw [hm.follows.metadata]
      rfl
    rw [hevent]
    show (if m.isLoaded (noteSet.policySet.modID sample) then 1 else 0) + (1 + 0) ≤ 1
    rw [hnew]
    decide

/-- A policy is updated, and a call between the two writes finds it gone. -/
theorem check_between_delete_and_add :
    ∃ m, Runs Externals.sample (fun _ _ _ => True) [memoPolicy, docPolicy] m ∧
      (m.processPolicyEvent Externals.sample officeLoader docEdited).2 = none ∧
      ∃ t ∈ observed Externals.sample m (eventWrites Externals.sample officeLoader m docEdited)
          [.write, .check], m.isLoaded docID = true ∧ t.isLoaded docID = false ∧
          (afterEvent Externals.sample officeLoader m docEdited).isLoaded docID = true := by
  obtain ⟨m, hm, hcheck, -⟩ := exists_office_run
  have hwrites : policyWrites officeLoader m docEdited = .ok [.delete docID, .add docPolicy] :=
    policyWrites_of_checkPolicy rfl rfl hcheck
  obtain ⟨hevent, hok⟩ := eventWrites_of_noVariables (x := sample) hwrites rfl
    (forall_mem_singleton.mpr (plainResource_noVariables _ _ _))
  refine ⟨m, hm, hok, m.deletePolicy docID, ?_, (isLoaded_office hm).1, ?_, ?_⟩
  · rw [hevent]
    exact mem_cons_self
  · exact (isLoaded_deletePolicy m docID docID).trans (if_pos rfl)
  · have hnamed : (Write.add docPolicy).Named := rfl
    rw [afterEvent_eq, hevent]
    exact (isLoaded_write _ hnamed docID).trans (if_pos rfl)

/-! ## §6. Failed events. -/

/-- **The event fails before it has changed anything**: the policy cannot be loaded, or is in conflict
with others; or nothing that is loaded is removed, nothing is added, and the dependents cannot be
loaded. -/
inductive FailsEarly (loader : PolicyLoader) (m : Manager) (evt : PolicyEvent) : Prop
  | notLoaded {cause : String} (hkind : evt.kind = .addOrUpdatePolicy)
      (hload : loader.getFirstMatch [evt.policyID] = .error cause) : FailsEarly loader m evt
  | rejected {rps : RunnablePolicySet} (hkind : evt.kind = .addOrUpdatePolicy)
      (hload : loader.getFirstMatch [evt.policyID] = .ok (some rps))
      (hcheck : m.checkPolicy rps evt.oldPolicyID ≠ []) : FailsEarly loader m evt
  | dependentsNotLoaded {cause : String} (hremoved : ∀ id ∈ evt.removed, m.isLoaded id = false)
      (hmain : evt.mainPolicy loader = none) (hdeps : evt.dependents ≠ [])
      (hload : loader.getAllMatching evt.dependents = .error cause) : FailsEarly loader m evt

/-- What the event removes was loaded exactly if it is put back. -/
def PutsBack (x : Externals) (loader : PolicyLoader) (m : Manager) (evt : PolicyEvent) : Prop :=
  ∀ id ∈ evt.removed, m.isLoaded id = true ↔
    ∃ rps ∈ evt.mainPolicy loader, rps.policySet.modID x = id

theorem policyWrites_error_iff : (∃ e, policyWrites loader m evt = .error e) ↔
    evt.kind = .addOrUpdatePolicy ∧ ((∃ cause, loader.getFirstMatch [evt.policyID] = .error cause) ∨
      ∃ rps, loader.getFirstMatch [evt.policyID] = .ok (some rps) ∧
        m.checkPolicy rps evt.oldPolicyID ≠ []) := by
  unfold policyWrites
  cases evt.kind with
  | deleteOrDisablePolicy => simp
  | addOrUpdatePolicy =>
    cases loader.getFirstMatch [evt.policyID] with
    | error => simp
    | ok rps =>
      cases rps with
      | none => simp
      | some rps => cases hcheck : m.checkPolicy rps evt.oldPolicyID <;> simp [hcheck]

theorem effects_append (ws ws' : List Write) (m : Manager) : effects x m (ws ++ ws') =
    effects x m ws + effects x (ws.foldl (write x) m) ws' := by
  induction ws generalizing m with
  | nil => exact (Nat.zero_add _).symm
  | cons w ws ih =>
    rw [cons_append, effects, effects, ih, foldl_cons, Nat.add_assoc]

/-- A write that fails is an addition. -/
theorem effects_executed_pos {e : EventError} (h : (m.runWrites x ws).2 = some e) :
    0 < effects x m (executed x m ws) := by
  induction ws generalizing m with
  | nil => cases h
  | cons w ws ih =>
    unfold runWrites at h
    unfold executed
    cases w with
    | delete modID =>
      have hrest : 0 < effects x (m.deletePolicy modID) (executed x (m.deletePolicy modID) ws) := ih h
      show 0 < _ + effects x (m.deletePolicy modID) (executed x (m.deletePolicy modID) ws)
      omega
    | add rps =>
      have heffect : ∀ ws, 0 < effects x m (.add rps :: ws) := by
        intro ws
        rw [effects, takesEffect, if_pos rfl]
        omega
      cases m.runWrite x (.add rps) <;> exact heffect _

theorem effects_deletes_eq_zero_iff (ids : List UInt64) (m : Manager) :
    effects x m (ids.map .delete) = 0 ↔ ∀ id ∈ ids, m.isLoaded id = false := by
  induction ids generalizing m with
  | nil => simp [effects]
  | cons id ids ih =>
    rw [map_cons, effects, forall_mem_cons]
    cases hloaded : m.isLoaded id with
    | true => simp [takesEffect, hloaded]
    | false =>
      have hsame : m.write x (.delete id) = m := write_eq_self hloaded
      simp [takesEffect, hloaded, hsame, ih]

theorem effects_firstWrites_eq_zero_iff : effects x m (firstWrites loader evt) = 0 ↔
    (∀ id ∈ evt.removed, m.isLoaded id = false) ∧ evt.mainPolicy loader = none := by
  unfold firstWrites
  rw [effects_append, Nat.add_eq_zero_iff, effects_deletes_eq_zero_iff]
  cases evt.mainPolicy loader with
  | none => simp [effects]
  | some => simp [effects, takesEffect]

theorem FailsEarly.of_policyWrites (h : FailsEarly loader m evt)
    (hok : policyWrites loader m evt = .ok ws) : (∀ id ∈ evt.removed, m.isLoaded id = false) ∧
      evt.mainPolicy loader = none ∧ ∃ cause, dependentWrites loader evt = .error cause := by
  cases h with
  | notLoaded hkind hload =>
    obtain ⟨e, he⟩ := policyWrites_error_iff.mpr ⟨hkind, .inl ⟨_, hload⟩⟩
    cases he.symm.trans hok
  | rejected hkind hload hcheck =>
    obtain ⟨e, he⟩ := policyWrites_error_iff.mpr ⟨hkind, .inr ⟨_, hload, hcheck⟩⟩
    cases he.symm.trans hok
  | @dependentsNotLoaded cause hremoved hmain hdeps hload =>
    refine ⟨hremoved, hmain, .loadDependents cause, ?_⟩
    unfold dependentWrites
    rw [if_neg (by simpa using hdeps), hload]

theorem dependentWrites_error {e : EventError} (h : dependentWrites loader evt = .error e) :
    evt.dependents ≠ [] ∧ ∃ cause, loader.getAllMatching evt.dependents = .error cause := by
  unfold dependentWrites at h
  split at h
  · cases h
  · next hne =>
    refine ⟨fun hnil => hne (isEmpty_iff.mpr hnil), ?_⟩
    cases hload : loader.getAllMatching evt.dependents with
    | error cause => exact ⟨cause, rfl⟩
    | ok => rw [hload] at h; cases h

/-- **A failed event takes no effect exactly if it fails early.** -/
theorem effects_eventWrites_eq_zero_iff (hfail : (m.processPolicyEvent x loader evt).2 ≠ none) :
    effects x m (eventWrites x loader m evt) = 0 ↔ FailsEarly loader m evt := by
  rcases @eventWrites_spec x loader evt m with
    ⟨hnone, e, he, -⟩ | ⟨hok, ⟨hwrites, hrun, -⟩ | ⟨hrun, ⟨hwrites, cause, hdeps, -⟩ |
      ⟨ws, table, hdeps, hwrites, he, htable⟩⟩⟩
  · rw [hnone]
    refine ⟨fun _ => ?_, fun _ => rfl⟩
    obtain ⟨hkind, ⟨cause, hload⟩ | ⟨rps, hload, hcheck⟩⟩ := policyWrites_error_iff.mp ⟨e, he⟩
    · exact .notLoaded hkind hload
    · exact .rejected hkind hload hcheck
  · -- the addition of the policy fails, so there is one
    have hpos := effects_executed_pos hrun
    rw [hwrites]
    refine ⟨fun hzero => by omega, fun hearly => ?_⟩
    obtain ⟨-, hmain, -⟩ := hearly.of_policyWrites hok
    have hnone : (m.runWrites x (firstWrites loader evt)).2 = none := by
      refine runWrites_of_noVariables m ?_
      unfold firstWrites
      rw [hmain, additions_append, additions_delete]
      exact fun rps hrps => (not_mem_nil hrps).elim
    cases hnone.symm.trans hrun
  · rw [hwrites, effects_firstWrites_eq_zero_iff]
    constructor
    · rintro ⟨hremoved, hmain⟩
      obtain ⟨hne, cause, hload⟩ := dependentWrites_error hdeps
      exact .dependentsNotLoaded hremoved hmain hne hload
    · intro hearly
      obtain ⟨hremoved, hmain, -⟩ := hearly.of_policyWrites hok
      exact ⟨hremoved, hmain⟩
  · -- the addition of a dependent fails
    rw [he] at hfail
    obtain ⟨e, herror⟩ := Option.ne_none_iff_exists'.mp hfail
    have hpos := effects_executed_pos herror
    rw [hwrites, effects_append, ← htable]
    refine ⟨fun hzero => by omega, fun hearly => ?_⟩
    obtain ⟨-, -, cause, hcause⟩ := hearly.of_policyWrites hok
    cases hcause.symm.trans hdeps

/-- The tables are those before the event exactly if no write takes effect. -/
theorem Orderly.tables_eq_iff (h : Orderly x m ws) :
    (∀ t ∈ tablesAfter x m ws, t = m) ↔ effects x m ws = 0 := by
  constructor
  · intro hall
    by_contra hne
    obtain ⟨pre, w, post, rfl, hpre, heffect, -⟩ := exists_first_effect hne
    have hsame := (foldl_write_of_effects_eq_zero hpre).1
    have hfresh := (fresh_append.mp h.fresh).2
    rw [hsame] at hfresh
    refine isLoaded_write_of_takesEffect (h.named w (by simp)) hfresh.1 heffect ?_
    rw [hall (m.write x w)]
    rw [tablesAfter_append, hsame]
    exact mem_append_right _ mem_cons_self
  · intro hzero
    exact (foldl_write_of_effects_eq_zero hzero).2

/-- The first half of an event is executed as a whole: only its last write may fail. -/
theorem executed_firstWrites (m : Manager) :
    executed x m (firstWrites loader evt) = firstWrites loader evt := by
  unfold firstWrites
  induction evt.removed generalizing m with
  | nil =>
    cases evt.mainPolicy loader with
    | none => rfl
    | some rps =>
      show executed x m [.add rps] = [.add rps]
      unfold executed
      cases m.runWrite x (.add rps) <;> rfl
  | cons id ids ih => exact congrArg (Write.delete id :: ·) (ih _)

/-- **What the first half of an event leaves loaded** of the modules that it removes. -/
theorem isLoaded_firstWrites (hmain : ∀ rps ∈ evt.mainPolicy loader,
      rps.policySet.modID x = evt.policyID ∧ rps.policySet.metadata.isSome = true)
    (modID : UInt64) : ((firstWrites loader evt).foldl (write x) m).isLoaded modID = true ↔
      (∃ rps ∈ evt.mainPolicy loader, rps.policySet.modID x = modID) ∨
        modID ∉ evt.removed ∧ m.isLoaded modID = true := by
  unfold firstWrites
  rw [foldl_append]
  cases hpolicy : evt.mainPolicy loader with
  | none =>
    show ((evt.removed.map Write.delete).foldl (write x) m).isLoaded modID = true ↔ _
    rw [isLoaded_foldl_delete]
    simp
  | some rps =>
    have hnamed : (Write.add rps).Named := (hmain rps hpolicy).2
    show (Manager.write x _ (.add rps)).isLoaded modID = true ↔ _
    rw [isLoaded_write _ hnamed, isLoaded_foldl_delete]
    by_cases hmod : modID = rps.policySet.modID x
    · simp [hmod, Write.modID, Write.isAdd]
    · simp [hmod, Ne.symm hmod, Write.modID]

/-- An event that gets past its checks: the first half as a whole, then writes about dependents. -/
theorem OrderlyEvent.eventWrites_eq (h : OrderlyEvent x loader evt)
    (hok : policyWrites loader m evt = .ok ws) :
    ∃ rest, eventWrites x loader m evt = firstWrites loader evt ++ rest ∧
      (∀ w ∈ rest, w.Named ∧ w.modID x ∈ evt.dependents) ∧
      ∀ cause, (m.processPolicyEvent x loader evt).2 = some (.loadDependents cause) → rest = [] := by
  rcases @eventWrites_spec x loader evt m with
    ⟨-, e, he, -⟩ | ⟨-, ⟨hwrites, -, -⟩ | ⟨-, ⟨hwrites, -⟩ | ⟨ws, table, hdeps, hwrites, he, -⟩⟩⟩
  · cases he.symm.trans hok
  · refine ⟨[], ?_, fun w hw => (not_mem_nil hw).elim, fun _ _ => rfl⟩
    rw [hwrites, executed_firstWrites, append_nil]
  · refine ⟨[], ?_, fun w hw => (not_mem_nil hw).elim, fun _ _ => rfl⟩
    rw [hwrites, append_nil]
  · refine ⟨_, hwrites, ?_, ?_⟩
    · intro w hw
      obtain ⟨toReload, hload, rfl⟩ := dependentWrites_ok hdeps
      rcases mem_append.mp ((executed_isPrefix _ _).subset hw) with hw | hw
      · obtain ⟨id, hid, rfl⟩ := mem_map.mp hw
        exact ⟨trivial, hid⟩
      · obtain ⟨rps, hrps, rfl⟩ := mem_map.mp hw
        rcases hload with ⟨-, hload⟩ | ⟨-, rfl⟩
        · exact (((h.reloaded toReload hload).2 rps hrps).symm)
        · exact (not_mem_nil hrps).elim
    · intro cause hcause
      cases eq_index_of_runWrites (he.symm.trans hcause)

/-- The modules that are removed, after an event that got past its checks. -/
theorem OrderlyEvent.isLoaded_removed (h : OrderlyEvent x loader evt)
    (hok : policyWrites loader m evt = .ok ws) {id : UInt64} (hid : id ∈ evt.removed) :
    (afterEvent x loader m evt).isLoaded id = true ↔
      ∃ rps ∈ evt.mainPolicy loader, rps.policySet.modID x = id := by
  obtain ⟨rest, hwrites, hrest, -⟩ := h.eventWrites_eq hok
  have hne : ∀ w ∈ rest, w.modID x ≠ id := by
    intro w hw hmod
    exact (nodup_append.mp h.distinct).2.2 id hid _ (hrest w hw).2 hmod.symm
  rw [afterEvent_eq, hwrites, foldl_append,
    isLoaded_foldl_write_of_ne (fun w hw => (hrest w hw).1) hne, isLoaded_firstWrites h.main]
  simp [hid]

theorem policyWrites_of_loadDependents
    (h : (m.processPolicyEvent x loader evt).2 = some (.loadDependents cause)) :
    ∃ ws, policyWrites loader m evt = .ok ws := by
  rcases @eventWrites_spec x loader evt m with ⟨-, e, -, he, -, hne⟩ | ⟨hok, -⟩
  · cases he.symm.trans h
    exact (hne cause rfl).elim
  · exact ⟨_, hok⟩

/-- **Failed events.**  An event that fails before it has changed anything leaves the table as it was.
For the events of storage these are the only ones whose tables are all the table before.  Any
other puts back exactly the modules that it removed, or leaves other modules loaded than before;
and if it is the dependents that cannot be loaded, it leaves the same modules if it puts them
back. -/
theorem unchanged_after_failure (x : Externals) (loader : PolicyLoader) (m : Manager)
    (evt : PolicyEvent) (hfail : (m.processPolicyEvent x loader evt).2 ≠ none) :
    (FailsEarly loader m evt → afterEvent x loader m evt = m) ∧
    (OrderlyEvent x loader evt →
      ((∀ t ∈ (m.processPolicyEvent x loader evt).1, t = m) ↔ FailsEarly loader m evt) ∧
      ((∀ modID, (afterEvent x loader m evt).isLoaded modID = m.isLoaded modID) →
        FailsEarly loader m evt ∨ PutsBack x loader m evt) ∧
      (∀ cause, (m.processPolicyEvent x loader evt).2 = some (.loadDependents cause) →
        ((∀ modID, (afterEvent x loader m evt).isLoaded modID = m.isLoaded modID) ↔
          PutsBack x loader m evt))) := by
  have hzero := effects_eventWrites_eq_zero_iff hfail
  refine ⟨?_, fun horderly => ⟨?_, ?_, ?_⟩⟩
  · intro hearly
    rw [afterEvent_eq]
    exact (foldl_write_of_effects_eq_zero (hzero.mpr hearly)).1
  · rw [processPolicyEvent_fst, (horderly.orderly m).tables_eq_iff, hzero]
  · intro hsame
    cases hwrites : policyWrites loader m evt with
    | error e =>
      have hnone : eventWrites x loader m evt = [] := by rw [eventWrites, hwrites]
      exact .inl (hzero.mp (by rw [hnone]; rfl))
    | ok ws =>
      refine .inr (fun id hid => ?_)
      rw [← hsame, horderly.isLoaded_removed hwrites hid]
  · intro cause hcause
    obtain ⟨ws, hwrites⟩ := policyWrites_of_loadDependents hcause
    constructor
    · intro hsame id hid
      rw [← hsame, horderly.isLoaded_removed hwrites hid]
    · intro hback modID
      rw [Bool.eq_iff_iff]
      by_cases hid : modID ∈ evt.removed
      · rw [horderly.isLoaded_removed hwrites hid, hback modID hid]
      · obtain ⟨rest, heq, -, hrest⟩ := horderly.eventWrites_eq (x := x) hwrites
        rw [afterEvent_eq, heq, hrest cause hcause, append_nil, isLoaded_firstWrites horderly.main]
        have hother : ¬ ∃ rps ∈ evt.mainPolicy loader, rps.policySet.modID x = modID := by
          rintro ⟨rps, hrps, rfl⟩
          exact hid ((horderly.main rps hrps).1 ▸ policyID_mem_removed evt)
        rw [or_iff_right hother]
        simp [hid]

/-- A policy for a principal has been added. -/
def strictAdded : PolicyEvent where
  kind := .addOrUpdatePolicy
  policyID := strictPolicy.policySet.modID sample

def strictLoader : PolicyLoader where
  getFirstMatch := fun _ => .ok (some strictPolicy)
  getAllMatching := fun _ => .ok []

theorem strictAdded_orderly : OrderlyEvent sample strictLoader strictAdded where
  distinct := by decide
  main := by
    intro rps hrps
    obtain rfl := Option.some.inj hrps
    exact ⟨rfl, rfl⟩
  reloaded := by
    intro toReload hok
    obtain rfl := Except.ok.inj hok
    exact ⟨nodup_nil, fun rps hrps => (not_mem_nil hrps).elim⟩

/-- A policy with other permissions is offered to a scope.  It is rejected, and the table stays as it
is all the time. -/
theorem rejected_leaves_table :
    ∃ m, Runs Externals.sample (fun _ _ _ => True) [memoPolicy, docPolicy] m ∧
      (m.processPolicyEvent Externals.sample strictLoader strictAdded).2 ≠ none ∧
      afterEvent Externals.sample strictLoader m strictAdded = m ∧
      ∀ t ∈ (m.processPolicyEvent Externals.sample strictLoader strictAdded).1, t = m := by
  obtain ⟨m, hm, -, -, hcheck⟩ := exists_office_run
  have hearly : FailsEarly strictLoader m strictAdded := .rejected rfl rfl hcheck
  obtain ⟨e, he⟩ : ∃ e, policyWrites strictLoader m strictAdded = .error e :=
    policyWrites_error_iff.mpr ⟨rfl, .inr ⟨strictPolicy, rfl, hcheck⟩⟩
  have hfail : (m.processPolicyEvent sample strictLoader strictAdded).2 ≠ none := by
    rw [processPolicyEvent, he]
    exact Option.some_ne_none e
  have hsame := unchanged_after_failure sample strictLoader m strictAdded hfail
  exact ⟨m, hm, hfail, hsame.1 hearly, (hsame.2 strictAdded_orderly).1.mpr hearly⟩

/-- The file of the policy has been given to derived roles that a policy for memos imports. -/
def fileTakenOver : PolicyEvent where
  kind := .addOrUpdatePolicy
  policyID := sample.hasher.str "cerbos.derived_roles.staff"
  oldPolicyID := some docID
  dependents := [memoID]

/-- Derived roles are no policy of their own, and the policy for memos does not compile. -/
def memoBroken : PolicyLoader where
  getFirstMatch := fun _ => .ok none
  getAllMatching := fun _ => .error "failed to compile"

/-- The event fails, and the policy that the file held before is gone. -/
theorem dependents_failure_keeps_update :
    ∃ m, Runs Externals.sample (fun _ _ _ => True) [memoPolicy, docPolicy] m ∧
      (m.processPolicyEvent Externals.sample memoBroken fileTakenOver).2 =
        some (.loadDependents "failed to compile") ∧ m.isLoaded docID = true ∧
      (afterEvent Externals.sample memoBroken m fileTakenOver).isLoaded docID = false := by
  obtain ⟨m, hm, -⟩ := exists_office_run
  refine ⟨m, hm, rfl, (isLoaded_office hm).1, ?_⟩
  rw [afterEvent_eq]
  exact (isLoaded_deletePolicy _ docID docID).trans (if_pos rfl)

end AccessManagement.Manager
