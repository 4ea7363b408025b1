/-
  AccessManagement.Authzen.Batch — WHEN A BATCH ANSWERS LIKE SINGLE EVALUATIONS.

  An engine input is built from the first evaluation of an inner group, and the auxiliary data
  from the first one of the outer group.  The other evaluations of the group agree with it on
  the keys only: subject id, hash of the auxiliary data, resource type, resource id.  Subject
  type and properties — which hold the ROLES — and resource properties are not looked at.

  So the batch answers like single evaluations, for every engine, exactly if the keys
  determine the rest (`accessEvaluationBatch_eq_iff`).  If they do not, two questions about
  the same subject id and resource id can get the answer of the first one
  (`accessEvaluationBatch_takes_first_roles`).
-/
import AccessManagement.Authzen.Service

namespace AccessManagement.Authzen

open Lib List

variable (svc : Service) (eng : Engine)

/-! ## §1. What the engine is asked. -/

/-- What an engine sees of an evaluation. -/
structure Question where
  principal : Principal
  resource : AccessManagement.Resource
  auxData : Option AuxData

/-- The question an evaluation asks on its own. -/
def EvalRequest.own (req : EvalRequest) : Question :=
  ⟨toPrincipal req.subject, toResource req.resource, req.auxData⟩

/-- The outer group of an evaluation, and its inner group. -/
def groupOf (evals : List EvalRequest) (req : EvalRequest) : List EvalRequest :=
  classOf (groupKey svc) evals (groupKey svc req)

def innerGroupOf (evals : List EvalRequest) (req : EvalRequest) : List EvalRequest :=
  classOf resourceKey (groupOf svc evals req) (resourceKey req)

/-- The question the batch asks for an evaluation: that of the first evaluations of its
groups. -/
def EvalRequest.asked (evals : List EvalRequest) (req : EvalRequest) : Question :=
  ⟨toPrincipal ((innerGroupOf svc evals req).headD req).subject,
    toResource ((innerGroupOf svc evals req).headD req).resource,
    ((groupOf svc evals req).headD req).auxData⟩

/-- The engine's answer to a question. -/
def Engine.allows (q : Question) (action : String) : Bool :=
  decide (eng q.principal q.resource q.auxData action = .allow)

theorem decision_check {input : CheckInput} {a : String} (ha : a ∈ input.actions) :
    decision (eng.check input) a =
      eng.allows ⟨input.principal, input.resource, input.auxData⟩ a := by
  unfold decision Engine.check Engine.allows
  rw [lookup_graph _ ha]
  simp only [Option.some.injEq]

/-! ## §2. One outer group. -/

/-- The result of an evaluation of an inner group, with its position. -/
def resultOf (auxData : Option AuxData) (reqs : List EvalRequest) (req : EvalRequest) : Nat × Bool :=
  (req.index, eng.allows ⟨toPrincipal (reqs.headD req).subject,
    toResource (reqs.headD req).resource, auxData⟩ req.actionName)

/-- Each mapping leads to the output of its own inner group. -/
theorem buildInputs_spec (auxData : Option AuxData) {gs : List (List EvalRequest)} (i : Nat)
    (h : ∀ g ∈ gs, g ≠ [] ∧ g.length ≤ svc.limits.maxActionsPerResource) :
    ∃ inputs mappings, buildInputs svc auxData i gs = .ok (inputs, mappings) ∧
      ∀ pre : List CheckInput, pre.length = i → mappings.map (fun m => (m.responseIdx,
          decision (((pre ++ inputs).map eng.check).getD m.inputIdx []) m.action)) =
        gs.flatMap (fun g => g.map (resultOf eng auxData g)) := by
  induction gs generalizing i with
  | nil => exact ⟨[], [], rfl, fun _ _ => rfl⟩
  | cons _ _ ih =>
    obtain ⟨⟨hne, hlen⟩, hrest⟩ := forall_mem_cons.mp h
    obtain ⟨inputs, mappings, hbuild, hspec⟩ := ih (i + 1) hrest
    obtain ⟨first, rest, rfl⟩ := exists_cons_of_ne_nil hne
    refine ⟨engineInput auxData first (first :: rest) :: inputs,
      (first :: rest).map (fun req => ⟨req.actionName, i, req.index⟩) ++ mappings, ?_, ?_⟩
    · unfold buildInputs
      rw [if_neg (by omega), hbuild]
    · intro pre hpre
      rw [map_append]
      congr 1
      · -- the mappings of this group point at its own input
        rw [map_map]
        apply map_congr_left
        intro req hreq
        have hget : ((pre ++ engineInput auxData first (first :: rest) :: inputs).map
            eng.check).getD i [] = eng.check (engineInput auxData first (first :: rest)) := by
          rw [getD_eq_getElem?_getD, List.getElem?_map,
            List.getElem?_append_right (by omega), hpre, Nat.sub_self]
          rfl
        show (req.index, decision (((pre ++ engineInput auxData first (first :: rest) ::
          inputs).map eng.check).getD i []) req.actionName) = _
        rw [hget, decision_check eng (mem_map.mpr ⟨req, hreq, rfl⟩)]
        rfl
      · have h' := hspec (pre ++ [engineInput auxData first (first :: rest)])
          (by rw [length_append, hpre]; rfl)
        rw [append_assoc] at h'
        exact h'

/-- The groups of an accepted batch are within the limits. -/
def WithinLimits (reqs : List EvalRequest) : Prop :=
  (groups resourceKey reqs).length ≤ svc.limits.maxResourcesPerRequest ∧
    ∀ g ∈ groups resourceKey reqs, g.length ≤ svc.limits.maxActionsPerResource

/-- The results of an outer group. -/
def groupResults (reqs : List EvalRequest) : List (Nat × Bool) :=
  (svc.rangeOrder (groups resourceKey reqs)).flatMap (fun g =>
    g.map (fun req => resultOf eng (reqs.headD req).auxData g req))

variable {reqs : List EvalRequest}

theorem forall_mem_rangeOrder {κ : Type} [DecidableEq κ] (key : EvalRequest → κ)
    {P : List EvalRequest → Prop} (h : ∀ g ∈ groups key reqs, P g) :
    ∀ g ∈ svc.rangeOrder (groups key reqs), g ≠ [] ∧ P g := by
  intro g hg
  rw [(svc.rangeOrder_perm _).mem_iff] at hg
  exact ⟨((mem_groups key).mp hg).1, h g hg⟩

theorem processGroup_spec (hne : reqs ≠ [])
    (hlimits : WithinLimits svc reqs) (responses : List (Option Bool)) :
    processGroup svc eng reqs responses =
      .ok (scatterInto responses (groupResults svc eng reqs)) := by
  obtain ⟨first, rest, rfl⟩ := exists_cons_of_ne_nil hne
  have hperm := svc.rangeOrder_perm (groups resourceKey (first :: rest))
  obtain ⟨inputs, mappings, hbuild, hspec⟩ := buildInputs_spec svc eng first.auxData 0
    (forall_mem_rangeOrder svc resourceKey hlimits.2)
  unfold processGroup
  dsimp only
  rw [if_neg (by rw [hperm.length_eq]; exact Nat.not_lt.mpr hlimits.1), hbuild]
  dsimp only
  rw [← nil_append inputs, hspec [] rfl]
  rfl

theorem processGroups_spec (gs : List (List EvalRequest)) (responses : List (Option Bool))
    (h : ∀ reqs ∈ gs, reqs ≠ [] ∧ WithinLimits svc reqs) : processGroups svc eng gs responses =
      .ok (scatterInto responses (gs.flatMap (groupResults svc eng))) := by
  induction gs generalizing responses with
  | nil => rfl
  | cons _ _ ih =>
    obtain ⟨⟨hne, hlimits⟩, hrest⟩ := forall_mem_cons.mp h
    unfold processGroups
    rw [processGroup_spec svc eng hne hlimits]
    dsimp only
    rw [ih _ hrest, flatMap_cons, scatterInto_append]

/-! ## §3. The whole batch. -/

/-- The results of the groups are the answers to what is asked for each evaluation. -/
theorem mem_results (evals : List EvalRequest) (u : Nat × Bool) :
    u ∈ (svc.rangeOrder (groups (groupKey svc) evals)).flatMap (groupResults svc eng) ↔
      ∃ req ∈ evals, u = (req.index, eng.allows (req.asked svc evals) req.actionName) := by
  -- an evaluation lies in one outer and in one inner group: those of its own keys
  constructor
  · intro h
    obtain ⟨reqs, hreqs, hu⟩ := mem_flatMap.mp h
    obtain ⟨g, hg, hu⟩ := mem_flatMap.mp hu
    obtain ⟨req, hreq, rfl⟩ := mem_map.mp hu
    rw [(svc.rangeOrder_perm _).mem_iff] at hreqs hg
    obtain ⟨hin, rfl⟩ := (mem_group_iff resourceKey).mp ⟨hg, hreq⟩
    obtain ⟨hmem, rfl⟩ := (mem_group_iff _).mp ⟨hreqs, hin⟩
    exact ⟨req, hmem, rfl⟩
  · rintro ⟨req, hmem, rfl⟩
    obtain ⟨houter, hin⟩ := (mem_group_iff (groupKey svc)).mpr ⟨hmem, rfl⟩
    obtain ⟨hinner, hreq⟩ := (mem_group_iff resourceKey).mpr ⟨hin, rfl⟩
    exact mem_flatMap.mpr ⟨_, (svc.rangeOrder_perm _).mem_iff.mpr houter, mem_flatMap.mpr
      ⟨_, (svc.rangeOrder_perm _).mem_iff.mpr hinner, mem_map.mpr ⟨req, hreq, rfl⟩⟩⟩

theorem collect_map_some (ds : List Bool) : collect (ds.map some) = .ok ds := by
  induction ds with
  | nil => rfl
  | cons _ _ ih =>
    rw [map_cons, collect, ih]

/-- The context of an evaluation: its own, or that of the request. -/
def contextOf (r : BatchRequest) (e : Evaluation) : Properties :=
  if e.context.isEmpty then r.context else e.context

/-- A complete request for an evaluation. -/
structure Completes (r : BatchRequest) (e : Evaluation) (i : Nat) (req : EvalRequest) : Prop where
  subject : merge r.subject e.subject = some req.subject
  resource : merge r.resource e.resource = some req.resource
  action : merge r.action e.action = req.action
  auxData : extractAuxData svc (contextOf r e) = .ok req.auxData
  index : req.index = i

variable {a : EvalRequest} {r : BatchRequest} {defaultAux : Option AuxData} {e : Evaluation}
  {req : EvalRequest} {evals : List EvalRequest} {b : EvalRequest} {i : Nat}

theorem extractAuxData_of_default
    (h : defaultAuxData svc r = .ok defaultAux) : extractAuxData svc r.context = .ok defaultAux := by
  unfold defaultAuxData at h
  split at h
  · rename_i hempty
    rw [isEmpty_iff.mp hempty]
    exact h
  · exact h

theorem completes_of_evalRequest (hdef : defaultAuxData svc r = .ok defaultAux)
    (h : evalRequest svc r defaultAux i e = .ok req) : Completes svc r e i req := by
  unfold evalRequest at h
  dsimp only at h
  split_ifs at h with hc
  · split at h
    next subject resource hs hr =>
      cases h
      exact ⟨hs, hr, rfl, by rw [contextOf, if_pos hc, extractAuxData_of_default svc hdef], rfl⟩
    · cases h
  · -- a context of its own
    split at h
    · cases h
    next aux haux =>
      split at h
      next subject resource hs hr =>
        cases h
        exact ⟨hs, hr, rfl, by rw [contextOf, if_neg hc, haux], rfl⟩
      · cases h

/-- The evaluations are completed one by one and keep their positions. -/
theorem evalRequests_spec (hdef : defaultAuxData svc r = .ok defaultAux) {es : List Evaluation}
    (h : evalRequests svc r defaultAux i es = .ok evals) :
    evals.length = es.length ∧ ∀ j req, evals[j]? = some req →
      ∃ e, es[j]? = some e ∧ Completes svc r e (i + j) req := by
  fun_induction evalRequests generalizing evals with
  | case1 =>
    cases h
    exact ⟨rfl, fun j req hj => nomatch hj⟩
  | case4 i e _ _ he _ hes ih =>
    cases h
    obtain ⟨hlen, hspec⟩ := ih hes
    refine ⟨by rw [length_cons, length_cons, hlen], ?_⟩
    intro j req' hj
    cases j with
    | zero =>
      cases hj
      exact ⟨e, rfl, completes_of_evalRequest svc hdef he⟩
    | succ j =>
      obtain ⟨e', he', hcompleted⟩ := hspec j req' hj
      refine ⟨e', he', ?_⟩
      rw [show i + (j + 1) = i + 1 + j by omega]
      exact hcompleted
  | _ => cases h

theorem completeRequests_spec (h : completeRequests svc r = .ok evals) :
    evals.length = r.evaluations.length ∧ ∀ j req, evals[j]? = some req →
      ∃ e, r.evaluations[j]? = some e ∧ Completes svc r e j req := by
  unfold completeRequests at h
  cases hd : defaultAuxData svc r with
  | error => rw [hd] at h; exact nomatch h
  | ok =>
    rw [hd] at h
    obtain ⟨hlen, hspec⟩ := evalRequests_spec svc hd h
    refine ⟨hlen, fun j req hj => ?_⟩
    obtain ⟨e, he, hcompleted⟩ := hspec j req hj
    rw [Nat.zero_add] at hcompleted
    exact ⟨e, he, hcompleted⟩

/-- What a batch has to pass to be answered. -/
structure Accepts (r : BatchRequest) (evals : List EvalRequest) : Prop where
  total : r.evaluations.length ≤
    svc.limits.maxActionsPerResource * svc.limits.maxResourcesPerRequest
  complete : completeRequests svc r = .ok evals
  limits : ∀ reqs ∈ groups (groupKey svc) evals, WithinLimits svc reqs

/-- **The batch answers what is asked for each evaluation.** -/
theorem accessEvaluationBatch_spec (h : Accepts svc r evals) :
    accessEvaluationBatch svc eng r = .ok (answered r.evaluationsSemantic
      (evals.map (fun req => eng.allows (req.asked svc evals) req.actionName))) := by
  obtain ⟨hlen, hspec⟩ := completeRequests_spec svc h.complete
  have hindex : ∀ req ∈ evals, evals[req.index]? = some req := by
    intro req hmem
    obtain ⟨j, hj⟩ := mem_iff_getElem?.mp hmem
    obtain ⟨e, -, hcompleted⟩ := hspec j req hj
    rw [hcompleted.index]
    exact hj
  have hslots : scatterInto (List.replicate r.evaluations.length none)
      ((svc.rangeOrder (groups (groupKey svc) evals)).flatMap (groupResults svc eng)) =
      (evals.map (fun req => eng.allows (req.asked svc evals) req.actionName)).map some := by
    rw [← hlen, ← length_map (fun req => eng.allows _ req.actionName)]
    refine scatter_eq ?_ ?_
    · intro u hu
      obtain ⟨req, hmem, rfl⟩ := (mem_results svc eng evals u).mp hu
      rw [List.getElem?_map, hindex req hmem]
      rfl
    · intro i hi
      rw [length_map] at hi
      refine ⟨_, (mem_results svc eng evals _).mpr ⟨evals[i], getElem_mem hi, rfl⟩, ?_⟩
      obtain ⟨e, -, hcompleted⟩ := hspec i _ (List.getElem?_eq_getElem hi)
      exact hcompleted.index
  unfold accessEvaluationBatch
  rw [if_neg (Nat.not_lt.mpr h.total), h.complete]
  dsimp only
  rw [processGroups_spec svc eng _ _ (forall_mem_rangeOrder svc _ h.limits)]
  dsimp only
  rw [hslots, collect_map_some]

/-! ## §4. An evaluation on its own. -/

/-- The request for an evaluation on its own, with the defaults filled in. -/
def singleRequest (r : BatchRequest) (e : Evaluation) : Option EvaluationRequest :=
  match merge r.subject e.subject, merge r.resource e.resource, merge r.action e.action with
  | some subject, some resource, some action =>
    some { subject := subject, resource := resource, action := action, context := contextOf r e }
  | _, _, _ => none

/-- What `AccessEvaluation` says to an evaluation. -/
def evaluateAlone (r : BatchRequest) (e : Evaluation) : Except Failure Bool :=
  match singleRequest r e with
  | none => .error .nilDereference
  | some q => accessEvaluation svc eng q

/-- Validation makes sure that every evaluation has an action. -/
theorem exists_action (he : e ∈ r.evaluations) :
    ∃ action, merge r.action e.action = some action := by
  cases ha : e.action with
  | some action => exact ⟨action, rfl⟩
  | none =>
    rcases r.actions with h | h
    · obtain ⟨action, hd⟩ := Option.isSome_iff_exists.mp h
      exact ⟨action, hd⟩
    · have := h e he
      rw [ha] at this
      exact nomatch this

/-- **On its own, an evaluation is answered by what it asks.** -/
theorem evaluateAlone_spec (he : e ∈ r.evaluations) (h : Completes svc r e i req) :
    evaluateAlone svc eng r e = .ok (eng.allows req.own req.actionName) := by
  obtain ⟨action, haction⟩ := exists_action he
  have hname : req.actionName = action.name := by
    unfold EvalRequest.actionName
    rw [← h.action, haction]
    rfl
  unfold evaluateAlone singleRequest
  rw [h.subject, h.resource, haction]
  unfold accessEvaluation
  dsimp only
  rw [h.auxData, hname]
  dsimp only
  rw [decision_check eng mem_cons_self]
  rfl

theorem evaluateAlone_map (h : completeRequests svc r = .ok evals) :
    r.evaluations.map (evaluateAlone svc eng r) =
      (evals.map (fun req => eng.allows req.own req.actionName)).map .ok := by
  obtain ⟨hlen, hspec⟩ := completeRequests_spec svc h
  apply ext_getElem?
  intro j
  rw [List.getElem?_map, List.getElem?_map, List.getElem?_map]
  cases hj : evals[j]? with
  | none =>
    rw [List.getElem?_eq_none (by rw [← hlen]; exact List.getElem?_eq_none_iff.mp hj)]
    rfl
  | some req =>
    obtain ⟨e, he, hcompleted⟩ := hspec j req hj
    rw [he, Option.map_some, evaluateAlone_spec svc eng (mem_of_getElem? he) hcompleted]
    rfl

/-! ## §5. Keys that determine the rest. -/

/-- Evaluations that agree on the keys of the groups ask the same question. -/
structure KeysDetermine (evals : List EvalRequest) : Prop where
  auxData : ∀ a ∈ evals, ∀ b ∈ evals, groupKey svc a = groupKey svc b → a.auxData = b.auxData
  principal : ∀ a ∈ evals, ∀ b ∈ evals, groupKey svc a = groupKey svc b →
    resourceKey a = resourceKey b → toPrincipal a.subject = toPrincipal b.subject
  resource : ∀ a ∈ evals, ∀ b ∈ evals, groupKey svc a = groupKey svc b →
    resourceKey a = resourceKey b → toResource a.resource = toResource b.resource

theorem headD_mem {α : Type} {l : List α} {x : α} (h : x ∈ l) : l.headD x ∈ l := by
  cases l with
  | nil => exact absurd h not_mem_nil
  | cons => exact mem_cons_self

theorem headD_congr {α : Type} {l : List α} {x : α} (h : x ∈ l) (y : α) : l.headD x = l.headD y := by
  cases l with
  | nil => exact absurd h not_mem_nil
  | cons => rfl

variable {svc}

/-- The first evaluations of the groups of an evaluation. -/
theorem firsts_mem (hmem : req ∈ evals) : ((groupOf svc evals req).headD req ∈ evals ∧
      groupKey svc ((groupOf svc evals req).headD req) = groupKey svc req) ∧
    ((innerGroupOf svc evals req).headD req ∈ evals ∧
      groupKey svc ((innerGroupOf svc evals req).headD req) = groupKey svc req ∧
      resourceKey ((innerGroupOf svc evals req).headD req) = resourceKey req) := by
  have hself : req ∈ groupOf svc evals req := (mem_classOf (groupKey svc)).mpr ⟨hmem, rfl⟩
  have hinner : req ∈ innerGroupOf svc evals req := (mem_classOf resourceKey).mpr ⟨hself, rfl⟩
  obtain ⟨hg, hr⟩ := (mem_classOf resourceKey).mp (headD_mem hinner)
  obtain ⟨he, hk⟩ := (mem_classOf _).mp hg
  exact ⟨(mem_classOf _).mp (headD_mem hself), he, hk, hr⟩

/-- The firsts of a group are the same for all of its members. -/
theorem first_group_eq (ha : a ∈ evals) (hg : groupKey svc a = groupKey svc b) :
    (groupOf svc evals a).headD a = (groupOf svc evals b).headD b := by
  unfold groupOf
  rw [← hg]
  exact headD_congr ((mem_classOf _).mpr ⟨ha, rfl⟩) b

/-- With equal keys the same question is asked. -/
theorem asked_eq (ha : a ∈ evals)
    (hg : groupKey svc a = groupKey svc b) (hr : resourceKey a = resourceKey b) :
    a.asked svc evals = b.asked svc evals := by
  have hinner : (innerGroupOf svc evals a).headD a = (innerGroupOf svc evals b).headD b := by
    unfold innerGroupOf groupOf
    rw [← hg, ← hr]
    exact headD_congr ((mem_classOf resourceKey).mpr
      ⟨(mem_classOf (groupKey svc)).mpr ⟨ha, rfl⟩, rfl⟩) b
  unfold EvalRequest.asked
  rw [hinner, first_group_eq ha hg]

/-- The keys determine the rest exactly if every evaluation is asked its own question. -/
theorem keysDetermine_iff :
    KeysDetermine svc evals ↔ ∀ req ∈ evals, req.asked svc evals = req.own := by
  constructor
  · intro h req hmem
    obtain ⟨⟨hg, hgk⟩, hf, hfk, hfr⟩ := firsts_mem hmem
    unfold EvalRequest.asked EvalRequest.own
    rw [h.principal _ hf _ hmem hfk hfr, h.resource _ hf _ hmem hfk hfr, h.auxData _ hg _ hmem hgk]
  · intro h
    have hsame : ∀ a ∈ evals, ∀ b ∈ evals, groupKey svc a = groupKey svc b →
        resourceKey a = resourceKey b → a.own = b.own := by
      intro a ha b hb hg hr
      rw [← h a ha, ← h b hb]
      exact asked_eq ha hg hr
    refine ⟨fun a ha b hb hg => ?_, fun a ha b hb hg hr => congrArg Question.principal
      (hsame a ha b hb hg hr), fun a ha b hb hg hr => congrArg Question.resource
      (hsame a ha b hb hg hr)⟩
    -- the auxiliary data only depends on the outer group
    calc a.auxData = ((groupOf svc evals a).headD a).auxData :=
          (congrArg Question.auxData (h a ha)).symm
      _ = ((groupOf svc evals b).headD b).auxData := by rw [first_group_eq ha hg]
      _ = b.auxData := congrArg Question.auxData (h b hb)

/-- The keys of an evaluation can be read off its question. -/
theorem keys_eq_of_own_eq (svc : Service) (h : a.own = b.own) :
    groupKey svc a = groupKey svc b ∧ resourceKey a = resourceKey b := by
  have hp : a.subject.id = b.subject.id := congrArg (·.principal.id) h
  have ht : a.resource.type = b.resource.type := congrArg (·.resource.kind) h
  have hi : a.resource.id = b.resource.id := congrArg (·.resource.id) h
  have ha : a.auxData = b.auxData := congrArg Question.auxData h
  unfold groupKey resourceKey
  rw [hp, ht, hi, ha]
  exact ⟨rfl, rfl⟩

/-! ## §6. Batch and single evaluation. -/

theorem upTo_append {target : Bool} {ps : List Bool} (ds : List Bool) (h : ∀ p ∈ ps, p ≠ target) :
    upTo target (ps ++ ds) = ps ++ upTo target ds := by
  induction ps with
  | nil => rfl
  | cons _ _ ih =>
    rw [forall_mem_cons] at h
    rw [cons_append, upTo, if_neg h.1, ih h.2]
    rfl

/-- A semantic cannot hide a decision if none before it ends the answer. -/
theorem eq_of_answered_eq {semantic : String} {ps ds ds' : List Bool} {d d' : Bool}
    (hps : ∀ p ∈ ps, p ≠ decide (semantic = "permit_on_first_permit"))
    (h : answered semantic (ps ++ d :: ds) = answered semantic (ps ++ d' :: ds')) : d = d' := by
  unfold answered at h
  split at h
  · exact (List.cons.inj (append_cancel_left h)).1
  · rw [upTo_append _ hps, upTo_append _ hps] at h
    have htail := append_cancel_left h
    unfold upTo at htail
    split at htail <;> split at htail <;> exact (List.cons.inj htail).1

/-- An engine that gives one question the answer `target` and all others the opposite one. -/
noncomputable def spotlight (q : Question) (target : Bool) : Engine := fun p res aux _ =>
  open Classical in if (⟨p, res, aux⟩ : Question) = q ↔ target = true then .allow else .deny

theorem spotlight_self (q : Question) (target : Bool) (action : String) :
    (spotlight q target).allows q action = target := by
  unfold Engine.allows spotlight
  cases target <;> simp

theorem spotlight_ne {q q' : Question} (h : q' ≠ q) (target : Bool) (action : String) :
    (spotlight q target).allows q' action = !target := by
  unfold Engine.allows spotlight
  cases target <;> simp [h]

/-- If the answers agree for every engine, every evaluation is asked its own question. -/
theorem asked_of_answered_eq (semantic : String) (h : ∀ eng : Engine,
      answered semantic (evals.map fun req => eng.allows (req.asked svc evals) req.actionName) =
      answered semantic (evals.map fun req => eng.allows req.own req.actionName)) :
    ∀ req ∈ evals, req.asked svc evals = req.own := by
  classical
  by_contra hno
  push Not at hno
  obtain ⟨bad, hbad, hne⟩ := hno
  -- the first evaluation that is asked something else
  obtain ⟨req, hfind⟩ := Option.isSome_iff_exists.mp (List.find?_isSome.mpr
    ⟨bad, hbad, decide_eq_true hne⟩ : (evals.find? (fun req =>
      decide (req.asked svc evals ≠ req.own))).isSome = true)
  obtain ⟨hreq, pre, post, heq, hpre⟩ := List.find?_eq_some_iff_append.mp hfind
  rw [decide_eq_true_eq] at hreq
  have hagree : ∀ a ∈ pre, a.asked svc evals = a.own := by
    intro a ha
    simpa using hpre a ha
  -- no earlier evaluation asks the same: it would be asked something else, too
  have hdistinct : ∀ a ∈ pre, a.own ≠ req.own := by
    intro a ha hown
    have hmem : a ∈ evals := by rw [heq]; exact mem_append_left _ ha
    obtain ⟨hg, hr⟩ := keys_eq_of_own_eq svc hown
    exact hreq ((asked_eq hmem hg hr).symm.trans ((hagree a ha).trans hown))
  have hanswer := h (spotlight req.own (decide (semantic = "permit_on_first_permit")))
  have hsplit : ∀ f : EvalRequest → Bool, evals.map f = pre.map f ++ f req :: post.map f := by
    intro f
    conv_lhs => rw [heq]
    rw [map_append, map_cons]
  have hearlier : pre.map (fun a => (spotlight req.own _).allows (a.asked svc evals) a.actionName) =
      pre.map (fun a => (spotlight req.own (decide (semantic = "permit_on_first_permit"))).allows
        a.own a.actionName) :=
    map_congr_left (fun a ha => by rw [hagree a ha])
  rw [hsplit, hsplit, hearlier] at hanswer
  have hd := eq_of_answered_eq ?_ hanswer
  · rw [spotlight_ne hreq, spotlight_self] at hd
    exact Bool.not_ne_self _ hd
  · intro p hp
    obtain ⟨a, ha, rfl⟩ := mem_map.mp hp
    rw [spotlight_ne (hdistinct a ha)]
    exact Bool.not_ne_self _

/-- **A batch answers like single evaluations, whatever the engine decides, exactly if the
keys of the groups determine the rest.**  With `permit_on_first_permit` or
`deny_on_first_deny` the answer is cut off after the first permit or deny (`answered`). -/
theorem accessEvaluationBatch_eq_iff (svc : Service) (r : BatchRequest) (evals : List EvalRequest)
    (h : Accepts svc r evals) :
    (∀ eng : Engine, ∃ ds : List Bool, r.evaluations.map (evaluateAlone svc eng r) = ds.map .ok ∧
      accessEvaluationBatch svc eng r = .ok (answered r.evaluationsSemantic ds)) ↔
    KeysDetermine svc evals := by
  rw [keysDetermine_iff]
  constructor
  · intro hall
    refine asked_of_answered_eq r.evaluationsSemantic (fun eng => ?_)
    obtain ⟨ds, halone, hbatch⟩ := hall eng
    rw [evaluateAlone_map svc eng h.complete] at halone
    have hds := map_injective_iff.mpr (fun a b hab => Except.ok.inj hab) halone
    rw [accessEvaluationBatch_spec svc eng h, ← hds] at hbatch
    exact Except.ok.inj hbatch
  · intro hasked eng
    refine ⟨evals.map (fun req => eng.allows req.own req.actionName),
      evaluateAlone_map svc eng h.complete, ?_⟩
    rw [accessEvaluationBatch_spec svc eng h]
    congr 2
    exact map_congr_left (fun req hmem => by rw [hasked req hmem])

/-! ## §7. Two questions about one subject id. -/

/-- A service without auxiliary data. -/
def plainService : Service where
  limits := { maxActionsPerResource := 50, maxResourcesPerRequest := 50 }
  extract := fun _ => none
  hashAuxData := fun _ => 0
  rangeOrder := id
  rangeOrder_perm := fun l => List.Perm.refl l

/-- Only admins may do anything. -/
def adminEngine : Engine := fun p _ _ _ => if "admin" ∈ p.roles then .allow else .deny

/-- May alice, with the given role, delete the document? -/
@[simp] def deleteAs (role : String) : Evaluation where
  subject := some ⟨"user", "alice", [("cerbos.roles", .list [.string role])]⟩
  resource := some ⟨"document", "d1", []⟩
  action := some ⟨"delete", []⟩
  context := []

def deleteRequest (first second : String) : BatchRequest where
  subject := none
  resource := none
  action := none
  context := []
  evaluations := [deleteAs first, deleteAs second]
  evaluationsSemantic := "execute_all"
  subjects := Or.inr (by simp)
  resources := Or.inr (by simp)
  actions := Or.inr (by simp)

/-- Alice as an admin, then alice as a guest: the guest gets the answer of the admin. -/
theorem accessEvaluationBatch_takes_first_roles : (deleteRequest "admin" "guest").evaluations.map
        (evaluateAlone plainService adminEngine (deleteRequest "admin" "guest")) =
      [.ok true, .ok false] ∧
    accessEvaluationBatch plainService adminEngine (deleteRequest "admin" "guest") =
      .ok [true, true] := by
  constructor
  · decide +kernel
  · decide +kernel

/-- The same question twice: the keys determine the rest. -/
theorem accessEvaluationBatch_eq_iff_guest :
    ∃ evals, Accepts plainService (deleteRequest "guest" "guest") evals ∧
    ∀ eng : Engine, ∃ ds : List Bool, (deleteRequest "guest" "guest").evaluations.map
          (evaluateAlone plainService eng (deleteRequest "guest" "guest")) = ds.map .ok ∧
      accessEvaluationBatch plainService eng (deleteRequest "guest" "guest") =
        .ok (answered "execute_all" ds) := by
  have hcompleted : completeRequests plainService (deleteRequest "guest" "guest") = .ok
      [⟨⟨"user", "alice", [("cerbos.roles", .list [.string "guest"])]⟩, ⟨"document", "d1", []⟩,
          some ⟨"delete", []⟩, [], none, 0⟩,
        ⟨⟨"user", "alice", [("cerbos.roles", .list [.string "guest"])]⟩, ⟨"document", "d1", []⟩,
          some ⟨"delete", []⟩, [], none, 1⟩] := rfl
  have haccepts : Accepts plainService (deleteRequest "guest" "guest") _ :=
    ⟨by decide, hcompleted, by unfold WithinLimits; decide +kernel⟩
  refine ⟨_, haccepts,
    (accessEvaluationBatch_eq_iff plainService (deleteRequest "guest" "guest") _ haccepts).mpr
      ⟨?_, ?_, ?_⟩⟩
  · simp
  · simp
  · simp

end AccessManagement.Authzen
