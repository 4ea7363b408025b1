/-
  AccessManagement.Mcp.FailClosed — WHEN THE SURFACE SAYS YES.

  `grants_iff` says exactly which requests get an answer that allows an action: those that
  present the token, name one of the tools, carry a tenant, a resource and an action, and for
  which the first result of the checker maps the action to `EFFECT_ALLOW`.  Every malformed
  shape of the request or of the checker's answer ends in an error.

  The header `X-Tenant-Id` is the one loose end.  It is compared with the principal's tenant
  only if it is NOT EMPTY: a request that sends it empty is answered as if it had not sent it,
  although no principal's tenant equals it.
-/
import AccessManagement.Mcp.Surface

namespace AccessManagement.Mcp

open Lib List Json

variable {svc : Service} {actions : List Json} {principal resource : Json}

/-! ## §1. What a request asks. -/

/-- What the handler reads off the body of a request. -/
structure Invocation where
  tool : String
  arguments : Json
  principal : Json
  tenant : Json
  resource : Json

variable (inv : Invocation)

/-- The body asks for this invocation. -/
structure Invocation.Of (body : Json) : Prop where
  tool : body.get "tool" = .ok (.str inv.tool)
  arguments : argumentsOf body = .ok inv.arguments
  principal : inv.arguments.get "principal" = .ok inv.principal
  tenant : ∃ attr, inv.principal.get "attr" = .ok attr ∧ attr.get "tenant_id" = .ok inv.tenant
  resource : inv.arguments.get "resource" = .ok inv.resource

/-- The requested actions: those of the array, or the one action. -/
def Invocation.Asks (actions : List Json) : Prop :=
  if inv.tool = "allowed_actions" then inv.arguments.get "actions" = .ok (.arr actions)
  else ∃ action, inv.arguments.get "action" = .ok action ∧ actions = [action]

/-- The first result of an answer of the checker maps the action to `EFFECT_ALLOW`. -/
def FirstAllows (data : Json) (action : String) : Prop :=
  ∃ results first decisions, data.get "results" = .ok results ∧ results.first = .ok first ∧
    first.get "actions" = .ok decisions ∧ decisions.get action = .ok (.str "EFFECT_ALLOW")

/-- The checker, asked about the actions for exactly this principal and resource, allows one. -/
def Allowed (svc : Service) (principal resource : Json) (actions : List Json) (action : String) :
    Prop :=
  ∃ data, svc.checker principal (payloadFor actions resource) "mcp" = .ok data ∧
    FirstAllows data action

variable (response : Response)

/-- A 200 answer whose result is this. -/
def Answers (result : Json) : Prop :=
  response.status = 200 ∧ response.body.get "result" = .ok result

/-- A 200 answer that says `allowed: true`. -/
def SaysAllowed : Prop :=
  ∃ result, Answers response result ∧ result.get "allowed" = .ok (.bool true)

/-- A 200 answer that lists the action under `allowed_actions`. -/
def Lists (action : Json) : Prop :=
  ∃ result listed, Answers response result ∧
    result.get "allowed_actions" = .ok (.arr listed) ∧ action ∈ listed

/-- The token is the configured one, the principal has a tenant, the header restates it, and
the checker allows the action, which was asked for. -/
def Justified (svc : Service) (req : HttpRequest) (action : Json) : Prop :=
  presented req.authorization = svc.token ∧
  ∃ body inv actions name, req.body = some body ∧ Invocation.Of inv body ∧
    inv.tenant.truthy = true ∧
    (∀ header, req.xTenantId = some header → inv.tenant = .str header) ∧
    inv.Asks actions ∧ action ∈ actions ∧
    action = .str name ∧ Allowed svc inv.principal inv.resource actions name

/-- The requests that get as far as the checker. -/
structure Admitted (svc : Service) (req : HttpRequest) (body : Json) (inv : Invocation) : Prop where
  token : presented req.authorization = svc.token
  token_ne : svc.token ≠ ""
  token_ascii : isAscii svc.token = true
  body_eq : req.body = some body
  server : ∃ server, body.get "server" = .ok server ∧
    (server.truthy = true → server = .str contractServerName)
  of : inv.Of body
  tool : inv.tool ∈ toolNames
  tenant : inv.tenant.truthy = true
  -- an empty header is taken for none
  header : ∀ header, req.xTenantId = some header → header ≠ "" → inv.tenant = .str header
  kind : ∃ kind, inv.resource.get "kind" = .ok kind ∧ kind.truthy = true

/-- The requests that are answered with a grant of the action. -/
structure Warranted (svc : Service) (req : HttpRequest) (inv : Invocation) (action : String) :
    Prop where
  admitted : ∃ body, Admitted svc req body inv
  named : inv.tool ≠ "allowed_actions" → action ≠ ""
  allowed : ∃ actions, inv.Asks actions ∧ (∀ a ∈ actions, a.hashable = true) ∧
    .str action ∈ actions ∧ Allowed svc inv.principal inv.resource actions action

/-! ## §2. The checker's answer. -/

variable {action x principal resource tool arg : Json} {arguments result : Json} {α : Type}
  {req : HttpRequest} {xTenantId : Option String} {response : Response} {decisions : Json}

/-- An action is allowed iff it is a text that the decisions map to `EFFECT_ALLOW`. -/
theorem allows_eq_true : allows decisions action = .ok true ↔
      ∃ s, action = .str s ∧ decisions.get s = .ok (.str "EFFECT_ALLOW") := by
  unfold allows
  rw [bind_eq_ok]
  constructor
  · rintro ⟨d, hget, heq⟩
    have hd : d = .str "EFFECT_ALLOW" := (equal_str_right _ _).mp (Except.ok.inj heq)
    subst hd
    cases action with
    | str s =>
      exact ⟨s, rfl, hget⟩
    -- any other key is looked up in vain, or raises
    | _ => cases decisions <;> cases hget
  · rintro ⟨s, rfl, hget⟩
    exact ⟨_, hget, by rw [(equal_str_right _ _).mpr rfl]; rfl⟩

/-- A decision is made for every action that can be a key. -/
theorem allows_obj {entries : List (String × Json)}
    (h : action.hashable = true) : ∃ b, allows (.obj entries) action = .ok b := by
  cases action with
  | arr | obj => cases h
  | _ => exact ⟨_, rfl⟩

theorem hashable_of_allows {b : Bool}
    (h : allows decisions action = .ok b) : action.hashable = true := by
  cases action with
  | arr | obj => cases decisions <;> cases h
  | _ => rfl

section DecideEach

variable {decisions : Json} {acc decided : List (Json × Bool)}

theorem decideEach_cons : decideEach decisions (action :: actions) acc = .ok decided ↔
      ∃ b, allows decisions action = .ok b ∧
        decideEach decisions actions (dictInsert action b acc) = .ok decided := bind_eq_ok

theorem decideEach_obj {entries : List (String × Json)} (h : ∀ a ∈ actions, a.hashable = true) :
    ∃ decided, decideEach (.obj entries) actions acc = .ok decided := by
  induction actions generalizing acc with
  | nil => exact ⟨acc, rfl⟩
  | cons action _ ih =>
    obtain ⟨b, hb⟩ := allows_obj (h action mem_cons_self)
    obtain ⟨decided, hd⟩ := ih (fun a ha => h a (mem_cons_of_mem action ha))
    exact ⟨decided, decideEach_cons.mpr ⟨b, hb, hd⟩⟩

/-- Every action that is decided can be a key.  What is decided to be allowed is a text that was
asked for and is mapped to `EFFECT_ALLOW`. -/
theorem decideEach_sound {asked : List Json}
    (h : decideEach decisions actions acc = .ok decided) (hsub : ∀ a ∈ actions, a ∈ asked)
    (hacc : ∀ e ∈ acc, e.2 = true → e.1 ∈ asked ∧ allows decisions e.1 = .ok true) :
    (∀ a ∈ actions, a.hashable = true) ∧
      ∀ e ∈ decided, e.2 = true → e.1 ∈ asked ∧ allows decisions e.1 = .ok true := by
  induction actions generalizing acc with
  | nil =>
    cases h
    exact ⟨by simp, hacc⟩
  | cons _ _ ih =>
    obtain ⟨b, hb, hrest⟩ := decideEach_cons.mp h
    rw [forall_mem_cons] at hsub ⊢
    rw [and_assoc]
    refine ⟨hashable_of_allows hb, ih hrest hsub.2 ?_⟩
    intro e he htrue
    rcases mem_dictInsert he with he | ⟨hv, hk⟩
    · exact hacc e he htrue
    · rw [← hv, htrue] at hb
      rcases hk with hk | ⟨_, hequal⟩
      · rw [hk]
        exact ⟨hsub.1, hb⟩
      · -- the key that was there equals a text, so it is that text
        obtain ⟨s, rfl, _⟩ := allows_eq_true.mp hb
        rw [(equal_str_right _ _).mp hequal]
        exact ⟨hsub.1, hb⟩

theorem decideEach_complete {s : String}
    (h : decideEach decisions actions acc = .ok decided) (hs : allows decisions (.str s) = .ok true)
    (hmem : .str s ∈ actions ∨ (Json.str s, true) ∈ acc) : (Json.str s, true) ∈ decided := by
  induction actions generalizing acc with
  | nil =>
    cases h
    exact hmem.resolve_left not_mem_nil
  | cons action _ ih =>
    obtain ⟨b, hb, hrest⟩ := decideEach_cons.mp h
    refine ih hrest ?_
    by_cases haction : action = .str s
    · subst haction
      rw [hs] at hb
      cases hb
      exact Or.inr (mem_dictInsert_self s true acc)
    · rcases hmem with hmem | hmem
      · exact Or.inl ((mem_cons.mp hmem).resolve_left (fun h => haction h.symm))
      · exact Or.inr (mem_dictInsert_of_ne haction hmem)

end DecideEach

/-- A value that counts as true has a first item, if it is a list at all. -/
theorem truthy_of_first {y : Json} (h : x.first = .ok y) : x.truthy = true := by
  cases x with
  | arr items =>
    cases items with
    | nil => cases h
    | cons => rfl
  | str =>
    unfold truthy
    rw [bne_iff_ne]
    rintro rfl
    cases h
  | _ => cases h

section Decide

variable {decided : List (Json × Bool)}

theorem decide_of_checker {data : Json}
    (h : svc.checker principal (payloadFor actions resource) "mcp" = .ok data) :
    svc.decide principal actions resource = .ok decided ↔
      ∃ results first decisions, (data.orElse (.obj [])).get "results" = .ok results ∧
        results.truthy = true ∧ results.first = .ok first ∧ first.get "actions" = .ok decisions ∧
        decideEach (decisions.orElse (.obj [])) actions [] = .ok decided := by
  unfold Service.decide
  rw [h]
  show ((data.orElse (.obj [])).get "results" >>= _) = _ ↔ _
  rw [bind_eq_ok]
  refine exists_congr fun results => ?_
  cases htruthy : results.truthy with
  | false =>
    have hempty : results.orElse (.arr []) = .arr [] := by
      unfold orElse
      rw [htruthy]
      rfl
    rw [hempty]
    refine iff_of_false ?_ ?_
    · rintro ⟨_, h⟩
      cases h
    · rintro ⟨_, _, _, h, _⟩
      cases h
  | true =>
    simp only [orElse_of_truthy htruthy, htruthy, Bool.not_true, Bool.false_eq_true, if_false,
      bind_eq_ok, true_and]
    constructor
    · rintro ⟨hget, first, hfirst, decisions, hdecisions, hrest⟩
      exact ⟨first, decisions, hget, hfirst, hdecisions, hrest⟩
    · rintro ⟨first, decisions, hget, hfirst, hdecisions, hrest⟩
      exact ⟨hget, first, hfirst, decisions, hdecisions, hrest⟩

/-- What `_decide` allows was asked for, and the first result of the checker allows it. -/
theorem decide_sound {key : Json}
    (h : svc.decide principal actions resource = .ok decided) (hmem : (key, true) ∈ decided) :
    (∀ a ∈ actions, a.hashable = true) ∧ key ∈ actions ∧ ∃ s, key = .str s ∧
      Allowed svc principal resource actions s := by
  cases hcheck : svc.checker principal _ "mcp" with
  | error =>
    unfold Service.decide at h
    rw [hcheck] at h
    cases h
  | ok data =>
    obtain ⟨results, first, decisions, hresults, htruthy, hfirst, hdecisions, heach⟩ :=
      (decide_of_checker hcheck).mp h
    obtain ⟨hhash, hsound⟩ := decideEach_sound heach (fun a ha => ha) (by simp)
    obtain ⟨hasked, hallows⟩ := hsound _ hmem rfl
    obtain ⟨s, hs, hget⟩ := allows_eq_true.mp hallows
    rw [get_orElse_obj htruthy] at hresults
    rw [get_orElse_obj rfl] at hget
    exact ⟨hhash, hasked, s, hs, data, hcheck, results, first, decisions, hresults, hfirst,
      hdecisions, hget⟩

/-- **`_decide` allows an action iff it was asked for, every action can be a key, and the first
result of the checker maps it to `EFFECT_ALLOW`.** -/
theorem decide_allows {action : String} :
    (∃ decided, svc.decide principal actions resource = .ok decided ∧
      (Json.str action, true) ∈ decided) ↔
    (∀ a ∈ actions, a.hashable = true) ∧ .str action ∈ actions ∧
      Allowed svc principal resource actions action := by
  constructor
  · rintro ⟨decided, hdecided, hmem⟩
    obtain ⟨hhash, hasked, s, hs, hdata⟩ := decide_sound hdecided hmem
    cases hs
    exact ⟨hhash, hasked, hdata⟩
  · rintro ⟨hhash, hasked, data, hcheck, results, first, decisions, hresults, hfirst, hdecisions, hget⟩
    have hobj : decisions.orElse (.obj []) = decisions :=
      orElse_of_truthy (truthy_of_get hget rfl)
    have htruthy := truthy_of_first hfirst
    have hallows := allows_eq_true.mpr ⟨action, rfl, hget⟩
    obtain ⟨entries, rfl, _⟩ := get_eq_ok.mp hget
    obtain ⟨decided, heach⟩ := decideEach_obj hhash
    refine ⟨decided, (decide_of_checker hcheck).mpr ⟨results, first, _,
      (get_orElse_obj htruthy).mpr hresults, htruthy, hfirst, hdecisions, ?_⟩,
      decideEach_complete heach hallows (Or.inl hasked)⟩
    rw [hobj]
    exact heach

end Decide

/-! ## §3. `invoke`. -/

/-- The principal has this tenant, and it is not empty. -/
def HasTenant (principal tenant : Json) : Prop :=
  (∃ attr, principal.get "attr" = .ok attr ∧ attr.get "tenant_id" = .ok tenant) ∧
    tenant.truthy = true

def HasKind (resource : Json) : Prop :=
  ∃ kind, resource.get "kind" = .ok kind ∧ kind.truthy = true

theorem validatePrincipal_eq_ok {q : Json} :
    validatePrincipal principal = .ok q ↔ q = principal ∧ ∃ tenant, HasTenant principal tenant := by
  unfold validatePrincipal attrOf requiredPrincipalAttrs pdpError
  simp only [requireAttrs, pdpError, ite_else_error_eq_ok, bind_eq_ok, pure, Except.pure,
    Except.ok.injEq]
  constructor
  · rintro ⟨_, _, ⟨attr, hattr, rfl⟩, _, ⟨tenant, htenant, htruthy, _⟩, rfl⟩
    exact ⟨rfl, tenant, ⟨attr, hattr, (get_orElse_obj htruthy).mp htenant⟩, htruthy⟩
  · rintro ⟨rfl, tenant, ⟨attr, hattr, htenant⟩, htruthy⟩
    exact ⟨isObj_of_get hattr, _, ⟨attr, hattr, rfl⟩, (),
      ⟨tenant, (get_orElse_obj htruthy).mpr htenant, htruthy, trivial⟩, rfl⟩

theorem validateResource_eq_ok {q : Json} :
    validateResource resource = .ok q ↔ q = resource ∧ HasKind resource := by
  unfold validateResource pdpError
  simp only [ite_else_error_eq_ok, bind_eq_ok, pure, Except.pure, Except.ok.injEq]
  constructor
  · rintro ⟨_, kind, hkind, htruthy, rfl⟩
    exact ⟨rfl, kind, hkind, htruthy⟩
  · rintro ⟨rfl, kind, hkind, htruthy⟩
    exact ⟨isObj_of_get hkind, kind, hkind, htruthy, rfl⟩

/-- The tools that `invoke` knows, by name. -/
theorem any_toolNames : toolNames.any (fun name => (Json.str name).equal tool) = true ↔
      ∃ name ∈ toolNames, tool = .str name := by
  rw [any_eq_true]
  exact exists_congr fun name => and_congr_right fun _ => equal_str_left name tool

/-- What the tool of an invocation returns. -/
def Invocation.Returns (svc : Service) (result : Json) : Prop :=
  if inv.tool = "allowed_actions" then
    ∃ actions, inv.arguments.get "actions" = .ok actions ∧
      svc.allowedActions inv.principal inv.resource actions = .ok result
  else
    ∃ action, inv.arguments.get "action" = .ok action ∧
      svc.oneAction (.str inv.tool) inv.principal inv.resource action = .ok result

/-- **`invoke` returns what the tool returns, after all checks have passed.** -/
theorem invoke_eq_ok :
    svc.invoke tool arguments = .ok result ↔ ∃ name ∈ toolNames, tool = .str name ∧
      ∃ principal tenant resource, arguments.get "principal" = .ok principal ∧
        HasTenant principal tenant ∧ arguments.get "resource" = .ok resource ∧ HasKind resource ∧
        Invocation.Returns ⟨name, arguments, principal, tenant, resource⟩ svc result := by
  unfold Service.invoke Invocation.Returns pdpError
  simp only [ite_error_eq_ok, bind_eq_ok, Bool.not_eq_true', Bool.not_eq_false, any_toolNames,
    validatePrincipal_eq_ok, validateResource_eq_ok]
  constructor
  · rintro ⟨_, ⟨name, hname, rfl⟩, principal, hprincipal, _, ⟨rfl, tenant, htenant⟩, resource,
      hresource, _, ⟨rfl, hkind⟩, hresult⟩
    refine ⟨name, hname, rfl, _, tenant, _, hprincipal, htenant, hresource, hkind, ?_⟩
    simp only [equal_str_right, Json.str.injEq] at hresult
    split at hresult
    next h => rw [if_pos h]; exact bind_eq_ok.mp hresult
    next h => rw [if_neg h]; exact bind_eq_ok.mp hresult
  · rintro ⟨name, hname, rfl, principal, tenant, resource, hprincipal, htenant, hresource, hkind,
      hresult⟩
    refine ⟨rfl, ⟨name, hname, rfl⟩, principal, hprincipal, _, ⟨rfl, tenant, htenant⟩, resource,
      hresource, _, ⟨rfl, hkind⟩, ?_⟩
    simp only [equal_str_right, Json.str.injEq]
    split at hresult
    next h => rw [if_pos h]; exact bind_eq_ok.mpr hresult
    next h => rw [if_neg h]; exact bind_eq_ok.mpr hresult

/-- What `sorted` lists. -/
theorem mem_sorted {xs : List Json} : x ∈ sorted xs ↔ ∃ s, x = .str s ∧ .str s ∈ xs := by
  unfold sorted
  rw [mem_map]
  constructor
  · rintro ⟨s, hs, rfl⟩
    rw [mem_mergeSort, mem_filterMap] at hs
    obtain ⟨y, hy, htext⟩ := hs
    cases y <;> cases htext
    exact ⟨s, rfl, hy⟩
  · rintro ⟨s, rfl, hs⟩
    refine ⟨s, ?_, rfl⟩
    rw [mem_mergeSort, mem_filterMap]
    exact ⟨.str s, hs, rfl⟩

section Tools

/-- `allowed_actions` lists the actions of a non-empty array that are decided to be allowed. -/
theorem allowedActions_lists :
    (∃ result listed, svc.allowedActions principal resource arg = .ok result ∧
      result.get "allowed_actions" = .ok (.arr listed) ∧ x ∈ listed) ↔
    ∃ s actions, x = .str s ∧ arg = .arr actions ∧
      ∃ decided, svc.decide principal actions resource = .ok decided ∧
        (Json.str s, true) ∈ decided := by
  have hlists : ∀ decided : List (Json × Bool), x ∈ sorted ((decided.filter (·.2)).map (·.1)) ↔
        ∃ s, x = .str s ∧ (Json.str s, true) ∈ decided := by
    intro decided
    rw [mem_sorted]
    refine exists_congr fun s => and_congr_right fun _ => ?_
    rw [mem_map]
    constructor
    · rintro ⟨⟨k, b⟩, he, rfl⟩
      obtain ⟨hmem, rfl⟩ := mem_filter.mp he
      exact hmem
    · intro hmem
      exact ⟨_, mem_filter.mpr ⟨hmem, rfl⟩, rfl⟩
  constructor
  · rintro ⟨result, listed, hok, hget, hx⟩
    cases arg with
    | arr items =>
      cases items with
      | nil => cases hok
      | cons a as =>
        obtain ⟨decided, hdecided, hresult⟩ := bind_eq_ok.mp hok
        cases hresult
        cases hget
        obtain ⟨s, hs, hmem⟩ := (hlists decided).mp hx
        exact ⟨s, a :: as, hs, rfl, decided, hdecided, hmem⟩
    | _ => cases hok
  · rintro ⟨s, actions, rfl, rfl, decided, hdecided, hmem⟩
    cases actions with
    -- nothing can have been asked for
    | nil => exact (not_mem_nil (decide_allows.mp ⟨decided, hdecided, hmem⟩).2.1).elim
    | cons a as =>
      refine ⟨_, _, bind_eq_ok.mpr ⟨decided, hdecided, rfl⟩, rfl, ?_⟩
      exact (hlists decided).mpr ⟨s, rfl, hmem⟩

/-- The two other tools say `allowed` iff their one action is decided to be allowed. -/
theorem oneAction_answers (tool : Json) :
    (∃ result, svc.oneAction tool principal resource arg = .ok result ∧
      result.get "allowed" = .ok (.bool true)) ↔
    ∃ s, s ≠ "" ∧ arg = .str s ∧ ∃ decided, svc.decide principal [.str s] resource = .ok decided ∧
        (Json.str s, true) ∈ decided := by
  constructor
  · rintro ⟨result, hok, hget⟩
    cases arg with
    | str s =>
      unfold Service.oneAction pdpError at hok
      rw [ite_error_eq_ok, bind_eq_ok] at hok
      obtain ⟨hne, decided, hdecided, hresult⟩ := hok
      have hany : decided.any (·.2) = true := by
        split at hresult
        · cases hresult
          exact Json.bool.inj (Except.ok.inj hget)
        · obtain ⟨reason, _, hresult⟩ := bind_eq_ok.mp hresult
          cases hresult
          exact Json.bool.inj (Except.ok.inj hget)
      obtain ⟨⟨key, b⟩, hmem, rfl⟩ := any_eq_true.mp hany
      have hkey := mem_singleton.mp (decide_sound hdecided hmem).2.1
      rw [hkey] at hmem
      exact ⟨s, hne, rfl, decided, hdecided, hmem⟩
    | _ => cases hok
  · rintro ⟨s, hne, rfl, decided, hdecided, hmem⟩
    have hany : decided.any (·.2) = true := any_eq_true.mpr ⟨_, hmem, rfl⟩
    unfold Service.oneAction pdpError
    simp only [ite_error_eq_ok, bind_eq_ok]
    split
    · exact ⟨_, ⟨hne, decided, hdecided, rfl⟩, by rw [hany]; rfl⟩
    · refine ⟨_, ⟨hne, decided, hdecided, bind_eq_ok.mpr ⟨"allowed", ?_, rfl⟩⟩, by rw [hany]; rfl⟩
      rw [hany]
      rfl

end Tools

/-! ## §4. The endpoint. -/

theorem uncaught_eq_ok {x : Except Raised α} {a : α} : uncaught x = .ok a ↔ x = .ok a := by
  cases x <;> simp [uncaught]

theorem invokeOrReport_eq_ok :
    svc.invokeOrReport tool arguments = .ok result ↔ svc.invoke tool arguments = .ok result := by
  unfold Service.invokeOrReport
  cases svc.invoke tool arguments with
  | ok => simp
  | error raised => cases raised <;> simp

theorem authenticate_eq_ok {authorization : Option String} :
    svc.authenticate authorization = .ok () ↔
      presented authorization = svc.token ∧ svc.token ≠ "" ∧ isAscii svc.token = true := by
  unfold Service.authenticate compareDigest
  simp only [ite_error_eq_ok, ite_else_error_eq_ok, bind_eq_ok, uncaught_eq_ok, Bool.and_eq_true,
    Except.ok.injEq]
  constructor
  · rintro ⟨hne, b, ⟨⟨_, hascii⟩, hbeq⟩, hb, _⟩
    rw [hb, beq_iff_eq] at hbeq
    rw [hbeq] at hne
    exact ⟨hbeq, hne, hascii⟩
  · rintro ⟨heq, hne, hascii⟩
    rw [heq]
    exact ⟨hne, true, ⟨⟨hascii, hascii⟩, beq_self_eq_true _⟩, rfl, rfl⟩

/-- **For a principal with a tenant, the header passes iff it is absent, empty, or the tenant.** -/
theorem checkTenantHeader_eq_ok {tenant : Json}
    (hprincipal : arguments.get "principal" = .ok principal) (htenant : HasTenant principal tenant) :
    checkTenantHeader xTenantId arguments = .ok () ↔
      ∀ header, xTenantId = some header → header ≠ "" → tenant = .str header := by
  obtain ⟨⟨attr, hattr, hget⟩, htruthy⟩ := htenant
  have hclaimed : claimedTenant arguments = .ok tenant := by
    obtain ⟨entries, rfl, hlook⟩ := get_eq_ok.mp hattr
    obtain ⟨fields, rfl, _⟩ := get_eq_ok.mp hget
    -- the attributes are there, so the default of `get` is not used
    have hsome : entries.lookup "attr" = some (.obj fields) := by
      cases h : entries.lookup "attr" with
      | none => rw [h] at hlook; cases hlook
      | some => rw [h] at hlook; exact congrArg some hlook
    refine bind_eq_ok.mpr ⟨_, hprincipal, bind_eq_ok.mpr ⟨.obj fields, ?_, hget⟩⟩
    show Except.ok ((entries.lookup "attr").getD (.obj [])) = _
    rw [hsome]
    rfl
  unfold checkTenantHeader
  cases xTenantId with
  | none => exact iff_of_true rfl (fun header h => by cases h)
  | some header =>
    rw [Option.getD_some]
    by_cases hempty : header = ""
    · rw [if_pos hempty]
      refine iff_of_true rfl (fun header' h hne => ?_)
      cases h
      exact absurd hempty hne
    · rw [if_neg hempty, hclaimed]
      show (if (tenant.truthy && !tenant.equal (.str header)) = true then _ else _) = _ ↔ _
      rw [ite_error_eq_ok, htruthy, Bool.true_and, Bool.not_eq_true', Bool.not_eq_false,
        equal_str_right]
      constructor
      · rintro ⟨heq, _⟩ header' h _
        cases h
        exact heq
      · intro h
        exact ⟨h header rfl hempty, rfl⟩

theorem serve_eq_ok {body : Json} :
    svc.serve xTenantId body = .ok response ↔ (∃ server, body.get "server" = .ok server ∧
        (server.truthy = true → server = .str contractServerName)) ∧
      ∃ tool arguments result, body.get "tool" = .ok tool ∧ tool.truthy = true ∧
        argumentsOf body = .ok arguments ∧ arguments.isObj = true ∧
        checkTenantHeader xTenantId arguments = .ok () ∧ svc.invoke tool arguments = .ok result ∧
        response = ⟨200, .obj [("tool", tool), ("result", result)]⟩ := by
  have hserver : ∀ server : Json, ¬ (server.truthy && !server.equal (.str contractServerName)) = true ↔
        (server.truthy = true → server = .str contractServerName) := by
    intro server
    rw [Bool.and_eq_true, not_and, Bool.not_eq_true', Bool.not_eq_false, equal_str_right]
  unfold Service.serve
  simp only [bind_eq_ok, uncaught_eq_ok, invokeOrReport_eq_ok, ite_error_eq_ok, hserver,
    Bool.not_eq_true', Bool.not_eq_false]
  constructor
  · rintro ⟨server, hget, hname, tool, htool, htruthy, arguments, hargs, hobj, _, hheader, result,
      hinv, hresp⟩
    cases hresp
    exact ⟨⟨server, hget, hname⟩, tool, arguments, result, htool, htruthy, hargs, hobj, hheader,
      hinv, rfl⟩
  · rintro ⟨⟨server, hget, hname⟩, tool, arguments, result, htool, htruthy, hargs, hobj, hheader,
      hinv, rfl⟩
    exact ⟨server, hget, hname, tool, htool, htruthy, arguments, hargs, hobj, (), hheader, result,
      hinv, rfl⟩

theorem handle_eq_ok : svc.handle req = .ok response ↔
      svc.authenticate req.authorization = .ok () ∧ ∃ body, req.body = some body ∧
        svc.serve req.xTenantId body = .ok response := by
  unfold Service.handle
  rw [bind_eq_ok]
  cases req.body with
  | none => simp
  | some body =>
    constructor
    · rintro ⟨_, hauthenticated, hserve⟩
      exact ⟨hauthenticated, body, rfl, hserve⟩
    · rintro ⟨hauthenticated, _, ⟨⟩, hserve⟩
      exact ⟨(), hauthenticated, hserve⟩

/-! ## §5. Errors are not answered with 200. -/

/-- An error of this computation is not a 200 answer. -/
def Reports {α : Type} (x : Except Response α) : Prop := ∀ r, x = .error r → r.status ≠ 200

theorem Reports.ok {a : α} : Reports (.ok a) := fun r h => by cases h

theorem Reports.error {r : Response} (h : r.status ≠ 200) :
    Reports (.error r : Except Response α) := by
  intro r' h'
  cases h'
  exact h

theorem Reports.bind {β : Type} {x : Except Response α} {f : α → Except Response β}
    (hx : Reports x) (hf : ∀ a, Reports (f a)) : Reports (x >>= f) := by
  cases x with
  | error r => exact .error (hx r rfl)
  | ok a => exact hf a

theorem Reports.ite {c : Prop} [Decidable c] {x y : Except Response α}
    (hx : Reports x) (hy : Reports y) : Reports (if c then x else y) := by
  split
  · exact hx
  · exact hy

theorem Reports.uncaught (x : Except Raised α) : Reports (uncaught x) := by
  cases x with
  | ok => exact .ok
  | error => exact .error (by decide)

theorem pdpErrorStatus_ne (message : String) : pdpErrorStatus message ≠ 200 := by
  unfold pdpErrorStatus
  split
  · decide
  · split <;> decide

theorem Reports.invokeOrReport (svc : Service) (tool arguments : Json) :
    Reports (svc.invokeOrReport tool arguments) := by
  unfold Service.invokeOrReport
  cases svc.invoke tool arguments with
  | ok => exact .ok
  | error raised =>
    cases raised with
    | error message => exact .error (pdpErrorStatus_ne message)
    | uncaught => exact .error (by decide)

theorem Reports.handle (svc : Service) (req : HttpRequest) : Reports (svc.handle req) := by
  have hauthenticated : Reports (svc.authenticate req.authorization) :=
    .ite (.error (by decide))
      (.bind (.uncaught _) (fun _ => .ite .ok (.error (by decide))))
  refine .bind hauthenticated (fun _ => ?_)
  cases req.body with
  | none => exact .error (by decide)
  | some =>
    have hheader : ∀ arguments, Reports (checkTenantHeader req.xTenantId arguments) := fun _ =>
      .ite .ok (.bind (.uncaught _) (fun _ =>
        .ite (.error (by decide)) .ok))
    refine .bind (.uncaught _) (fun server =>
      .ite (.error (show 404 ≠ 200 by decide)) ?_)
    refine .bind (.uncaught _) (fun tool => .ite (.error (by decide)) ?_)
    refine .bind (.uncaught _) (fun args => .ite (.error (by decide)) ?_)
    exact .bind (hheader args) (fun _ =>
      .bind (.invokeOrReport svc tool args) (fun _ => .ok))

theorem tool_truthy {name : String} (h : name ∈ toolNames) : (Json.str name).truthy = true := by
  have hne : ∀ name ∈ toolNames, name ≠ "" := by decide
  exact bne_iff_ne.mpr (hne name h)

/-- **A 200 answer is what the tool returns on an admitted request.** -/
theorem answers_iff : Answers (svc.respond req) result ↔
      ∃ body inv, Admitted svc req body inv ∧ inv.Returns svc result := by
  unfold Service.respond
  constructor
  · intro h
    cases hhandle : svc.handle req with
    | error r =>
      rw [hhandle] at h
      exact absurd h.1 (Reports.handle svc req r hhandle)
    | ok =>
      rw [hhandle] at h
      obtain ⟨hauthenticated, body, hbody, hserve⟩ := handle_eq_ok.mp hhandle
      obtain ⟨hserver, tool, arguments, result', htool, _, hargs, _, hheader, hinv, rfl⟩ :=
        serve_eq_ok.mp hserve
      cases h.2
      obtain ⟨name, hname, rfl, principal, tenant, resource, hprincipal, htenant, hresource,
        hkind, hresult⟩ := invoke_eq_ok.mp hinv
      obtain ⟨htoken, hne, hascii⟩ := authenticate_eq_ok.mp hauthenticated
      refine ⟨body, ⟨name, arguments, principal, tenant, resource⟩, ?_, hresult⟩
      exact
        { token := htoken, token_ne := hne, token_ascii := hascii, body_eq := hbody
          server := hserver, of := ⟨htool, hargs, hprincipal, htenant.1, hresource⟩
          tool := hname, tenant := htenant.2
          header := (checkTenantHeader_eq_ok hprincipal htenant).mp hheader, kind := hkind }
  · rintro ⟨body, inv, ha, hret⟩
    have htenant : HasTenant inv.principal inv.tenant := ⟨ha.of.tenant, ha.tenant⟩
    have hinv : svc.invoke (.str inv.tool) inv.arguments = .ok result :=
      invoke_eq_ok.mpr ⟨inv.tool, ha.tool, rfl, inv.principal, inv.tenant, inv.resource,
        ha.of.principal, htenant, ha.of.resource, ha.kind, hret⟩
    have hserve := serve_eq_ok.mpr ⟨ha.server, .str inv.tool, inv.arguments, result, ha.of.tool,
      tool_truthy ha.tool, ha.of.arguments, isObj_of_get ha.of.principal,
      (checkTenantHeader_eq_ok ha.of.principal htenant).mpr ha.header, hinv, rfl⟩
    have hauthenticated := authenticate_eq_ok.mpr ⟨ha.token, ha.token_ne, ha.token_ascii⟩
    rw [handle_eq_ok.mpr ⟨hauthenticated, body, ha.body_eq, hserve⟩]
    exact ⟨rfl, rfl⟩

/-! ## §6. Grants. -/

/-- The answer of `allowed_actions` has no entry `allowed`. -/
theorem allowedActions_get_allowed (h : svc.allowedActions principal resource arg = .ok result) :
    result.get "allowed" = .ok .null := by
  cases arg with
  | arr items =>
    cases items with
    | nil => cases h
    | cons =>
      obtain ⟨decided, _, hresult⟩ := bind_eq_ok.mp h
      cases hresult
      rfl
  | _ => cases h

/-- The answers of the other tools have no entry `allowed_actions`. -/
theorem oneAction_get_allowedActions (h : svc.oneAction tool principal resource arg = .ok result) :
    result.get "allowed_actions" = .ok .null := by
  cases arg with
  | str =>
    unfold Service.oneAction pdpError at h
    rw [ite_error_eq_ok, bind_eq_ok] at h
    obtain ⟨_, decided, _, hresult⟩ := h
    split at hresult
    · cases hresult
      rfl
    · obtain ⟨reason, _, hresult⟩ := bind_eq_ok.mp hresult
      cases hresult
      rfl
  | _ => cases h

/-- **The answer says `allowed` exactly for the warranted requests that name one action.** -/
theorem saysAllowed_iff : SaysAllowed (svc.respond req) ↔
      ∃ inv action, inv.tool ≠ "allowed_actions" ∧ Warranted svc req inv action := by
  constructor
  · rintro ⟨result, hanswer, hget⟩
    obtain ⟨body, inv, ha, hret⟩ := answers_iff.mp hanswer
    unfold Invocation.Returns at hret
    split at hret
    · obtain ⟨actions, _, hok⟩ := hret
      rw [allowedActions_get_allowed hok] at hget
      cases hget
    next hsingle =>
      obtain ⟨arg, harg, hok⟩ := hret
      obtain ⟨s, hs, rfl, hdecided⟩ := (oneAction_answers _).mp ⟨result, hok, hget⟩
      refine ⟨inv, s, hsingle, ⟨body, ha⟩, fun _ => hs, [.str s], ?_, decide_allows.mp hdecided⟩
      unfold Invocation.Asks
      rw [if_neg hsingle]
      exact ⟨_, harg, rfl⟩
  · rintro ⟨inv, action, hsingle, ⟨body, ha⟩, hnamed, actions, hasks, hall⟩
    unfold Invocation.Asks at hasks
    rw [if_neg hsingle] at hasks
    obtain ⟨arg, harg, rfl⟩ := hasks
    obtain rfl := mem_singleton.mp hall.2.1
    obtain ⟨result, hok, hget⟩ := (oneAction_answers _).mpr
      ⟨action, hnamed hsingle, rfl, decide_allows.mpr hall⟩
    refine ⟨result, answers_iff.mpr ⟨body, inv, ha, ?_⟩, hget⟩
    unfold Invocation.Returns
    rw [if_neg hsingle]
    exact ⟨_, harg, hok⟩

/-- **The answer lists exactly the warranted actions of the array.** -/
theorem lists_iff : Lists (svc.respond req) x ↔
      ∃ inv action, inv.tool = "allowed_actions" ∧ x = .str action ∧
        Warranted svc req inv action := by
  constructor
  · rintro ⟨result, listed, hanswer, hget, hx⟩
    obtain ⟨body, inv, ha, hret⟩ := answers_iff.mp hanswer
    unfold Invocation.Returns at hret
    split at hret
    next hmany =>
      obtain ⟨arg, harg, hok⟩ := hret
      obtain ⟨s, actions, rfl, rfl, hdecided⟩ :=
        allowedActions_lists.mp ⟨result, listed, hok, hget, hx⟩
      refine ⟨inv, s, hmany, rfl, ⟨body, ha⟩, fun h => absurd hmany h, actions, ?_,
        decide_allows.mp hdecided⟩
      unfold Invocation.Asks
      rw [if_pos hmany]
      exact harg
    · obtain ⟨arg, _, hok⟩ := hret
      rw [oneAction_get_allowedActions hok] at hget
      cases hget
  · rintro ⟨inv, action, hmany, rfl, ⟨body, ha⟩, _, actions, hasks, hall⟩
    unfold Invocation.Asks at hasks
    rw [if_pos hmany] at hasks
    obtain ⟨result, listed, hok, hget, hx⟩ := allowedActions_lists.mpr
      ⟨action, actions, rfl, rfl, decide_allows.mpr hall⟩
    refine ⟨result, listed, answers_iff.mpr ⟨body, inv, ha, ?_⟩, hget, hx⟩
    unfold Invocation.Returns
    rw [if_pos hmany]
    exact ⟨_, hasks, hok⟩

theorem Justified.header_ne (h : Justified svc req x) : req.xTenantId ≠ some "" := by
  obtain ⟨_, _, _, _, _, _, _, htruthy, hheader, _⟩ := h
  intro hempty
  rw [hheader "" hempty] at htruthy
  cases htruthy

/-- A warranted grant is justified iff the header was not sent empty. -/
theorem Warranted.justified_iff {inv : Invocation}
    {action : String} (h : Warranted svc req inv action) :
    Justified svc req (.str action) ↔ req.xTenantId ≠ some "" := by
  obtain ⟨⟨body, ha⟩, hnamed, actions, hasks, hhash, hasked, hall⟩ := h
  refine ⟨Justified.header_ne, fun hne => ?_⟩
  refine ⟨ha.token, body, inv, actions, action, ha.body_eq, ha.of, ha.tenant, ?_, hasks, hasked,
    rfl, hall⟩
  intro header hheader
  refine ha.header header hheader ?_
  rintro rfl
  exact hne hheader

/-- **The surface fails closed, except for an empty `X-Tenant-Id`.** An answer that allows or
lists an action is justified, for every request and every behaviour of the checker, iff the
header is not sent empty with a request that is answered with a grant. -/
theorem grants_justified_iff (svc : Service) (req : HttpRequest) :
    ((SaysAllowed (svc.respond req) → ∃ action, Justified svc req action) ∧
      ∀ action, Lists (svc.respond req) action → Justified svc req action) ↔
    (req.xTenantId = some "" → ∀ inv action, ¬ Warranted svc req inv action) := by
  constructor
  · rintro ⟨hone, hlists⟩ hempty inv action hw
    by_cases hmany : inv.tool = "allowed_actions"
    · have hj := hlists _ (lists_iff.mpr ⟨inv, action, hmany, rfl, hw⟩)
      exact hj.header_ne hempty
    · obtain ⟨_, hj⟩ := hone (saysAllowed_iff.mpr ⟨inv, action, hmany, hw⟩)
      exact hj.header_ne hempty
  · intro h
    refine ⟨fun hone => ?_, fun x hlists => ?_⟩
    · obtain ⟨inv, action, _, hw⟩ := saysAllowed_iff.mp hone
      exact ⟨_, hw.justified_iff.mpr (fun hempty => h hempty inv action hw)⟩
    · obtain ⟨inv, action, _, rfl, hw⟩ := lists_iff.mp hlists
      exact hw.justified_iff.mpr (fun hempty => h hempty inv action hw)

/-- A service whose checker allows `issue`, whoever asks. -/
def sampleService : Service where
  token := "t0ken"
  checker _ _ _ := .ok (.obj [("results",
    .arr [.obj [("actions", .obj [("issue", .str "EFFECT_ALLOW")])]])])
  pyStr _ := ""

/-- Amy of tenant `t-1` asks to issue a refund; the header is sent, and empty. -/
def emptyHeaderRequest : HttpRequest where
  authorization := some "Bearer t0ken"
  xTenantId := some ""
  body := some (.obj [("tool", .str "check_access"), ("arguments", .obj [
    ("principal", .obj [("id", .str "amy"), ("attr", .obj [("tenant_id", .str "t-1")])]),
    ("action", .str "issue"),
    ("resource", .obj [("kind", .str "commerce:refund"), ("id", .str "r-1")])])])

theorem empty_header_allowed : SaysAllowed (sampleService.respond emptyHeaderRequest) ∧
      ∀ action, ¬ Justified sampleService emptyHeaderRequest action := by
  constructor
  · exact ⟨.obj [("allowed", .bool true)], ⟨rfl, rfl⟩, rfl⟩
  · exact fun _ hj => hj.header_ne rfl

end AccessManagement.Mcp
