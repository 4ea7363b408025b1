/-
  AccessManagement.Mcp.Surface — THE MCP DECISION SURFACE (`integration/mcp`).

  `POST /invoke` authenticates the caller, takes the JSON body apart, compares the tenant of the
  header with that of the principal, and asks the checker.  The code is Python: nothing has a
  type until it is looked at, and what does not fit raises.  An exception that the handler does
  not catch is answered with 500.

  The web framework decodes headers and body; a body that is no JSON is `none` here.  Texts
  are sequences of Unicode scalar values, so a body with lone surrogates is not represented.
-/
import AccessManagement.Lib.PyJson

namespace AccessManagement.Mcp

open Lib

/-! ## §1. Texts. -/

/-- The characters that `str.strip` removes. -/
def isSpace (c : Char) : Bool :=
  c.toNat ∈ ([0x09, 0x0A, 0x0B, 0x0C, 0x0D, 0x1C, 0x1D, 0x1E, 0x1F, 0x20, 0x85, 0xA0, 0x1680,
    0x2028, 0x2029, 0x202F, 0x205F, 0x3000] : List Nat) || (0x2000 ≤ c.toNat && c.toNat ≤ 0x200A)

/-- `str.strip`. -/
def strip (s : String) : String :=
  String.ofList ((s.toList.dropWhile isSpace).reverse.dropWhile isSpace).reverse

/-- `s.lower().startswith(lowered)`, for a text of ASCII letters and blanks that no other letter
is the upper case of. -/
def startsWithLower (s lowered : String) : Bool :=
  (s.toList.take lowered.length).map Char.toLower == lowered.toList

def isAscii (s : String) : Bool := s.toList.all (fun c => c.toNat < 128)

/-- `needle in s`. -/
def containsText (s needle : String) : Bool := s.toList.tails.any (needle.toList.isPrefixOf ·)

/-! ## §2. The tools (`pdp_contract.py`). -/

def contractServerName : String := "access_management"

def requiredPrincipalAttrs : List String := ["tenant_id"]

/-- The names of `TOOLS`. -/
def toolNames : List String := ["check_access", "allowed_actions", "explain_denial"]

/-- What the surface is built with.  `pyStr` is how Python prints a value in a message. -/
structure Service where
  token : String
  checker : Json → Json → String → Except String Json
  pyStr : Json → String

/-- `raise PdpError(message)`. -/
def pdpError {α : Type} (message : String) : Except Raised α := .error (.error message)

/-- `x.get("attr") or {}`. -/
def attrOf (x : Json) : Except Raised Json := do
  return (← x.get "attr").orElse (.obj [])

/-- The loop of `_validate_principal` over the required attributes. -/
def requireAttrs (attrs : Json) : List String → Except Raised Unit
  | [] => .ok ()
  | required :: rest => do
      if (← attrs.get required).truthy then requireAttrs attrs rest
      else pdpError ("principal.attr." ++ required ++ " is required")

/-- `_validate_principal`. -/
def validatePrincipal (principal : Json) : Except Raised Json :=
  if principal.isObj then do
    requireAttrs (← attrOf principal) requiredPrincipalAttrs
    return principal
  else pdpError "principal must be an object"

/-- `_validate_resource`. -/
def validateResource (resource : Json) : Except Raised Json :=
  if resource.isObj then do
    if (← resource.get "kind").truthy then return resource
    else pdpError "resource.kind is required"
  else pdpError "resource must be an object"

/-- `explain`. -/
def explain (principal resource : Json) (allowed : Bool) : Except Raised String :=
  if allowed then .ok "allowed"
  else do
    let pAttr ← attrOf principal
    let rAttr ← attrOf resource
    if !(← pAttr.get "tenant_id").equal (← rAttr.get "tenant_id") then
      return "denied: resource belongs to a different tenant"
    let flag ← rAttr.get "approved_by_human"
    let approved ← match flag with
      | .null => rAttr.get "approved"
      | _ => pure flag
    if approved.isBool false then
      return "denied: this action requires a recorded human approval " ++
        "(route it through the approval gate, then retry)"
    if approved.isBool true && !(← rAttr.get "approval_ref").truthy then
      return "denied: the approval flag is set but no approval_ref names the " ++
        "approval record (the enforcing service must resolve the " ++
        "ApprovalRequest, not forward a bare flag)"
    match rAttr with
    | .obj entries =>
      if ["amount", "order_total", "cost"].any (fun k => (entries.lookup k).isSome) then
        return "denied: the value exceeds this principal's authority band " ++
          "(a higher role, or a human approval, is required)"
      return "denied: this principal's roles do not permit this action"
    -- `get` has raised on anything else
    | _ => .error .uncaught

/-! ## §3. `ContractSurface`. -/

/-- What is asked of the checker. -/
def payloadFor (actions : List Json) (resource : Json) : Json :=
  .arr [.obj [("actions", .arr actions), ("resource", resource)]]

/-- `decisions.get(action) == "EFFECT_ALLOW"`. -/
def allows (decisions action : Json) : Except Raised Bool := do
  return (← decisions.getKey action).equal (.str "EFFECT_ALLOW")

/-- The comprehension at the end of `_decide`, one action after the other. -/
def decideEach (decisions : Json) :
    List Json → List (Json × Bool) → Except Raised (List (Json × Bool))
  | [], decided => .ok decided
  | action :: actions, decided => do
      let allowed ← allows decisions action
      decideEach decisions actions (dictInsert action allowed decided)

variable (svc : Service)

/-- `_decide`. -/
def Service.decide (principal : Json) (actions : List Json) (resource : Json) :
    Except Raised (List (Json × Bool)) :=
  match svc.checker principal (payloadFor actions resource) "mcp" with
  | .error exc => pdpError ("policy decision unavailable: " ++ exc)
  | .ok data => do
      let results := (← (data.orElse (.obj [])).get "results").orElse (.arr [])
      if !results.truthy then pdpError "policy decision unavailable: empty response"
      else
        let decisions := (← (← results.first).get "actions").orElse (.obj [])
        decideEach decisions actions []

/-- The text a value is. -/
def text? : Json → Option String
  | .str s => some s
  | _ => none

/-- `sorted`.  The values are keys whose entry is true, and only texts have one. -/
def sorted (xs : List Json) : List Json :=
  ((xs.filterMap text?).mergeSort (fun a b => a ≤ b)).map .str

/-- What `invoke` does for `allowed_actions`, given the `actions` of the arguments. -/
def Service.allowedActions (principal resource : Json) : Json → Except Raised Json
  | .arr (a :: as) => do
      let decided ← svc.decide principal (a :: as) resource
      return .obj [("allowed_actions", .arr (sorted ((decided.filter (·.2)).map (·.1))))]
  | _ => pdpError "'actions' must be a non-empty array"

/-- What `invoke` does for the two other tools, given the `action` of the arguments. -/
def Service.oneAction (tool principal resource : Json) : Json → Except Raised Json
  | .str action =>
    if action = "" then pdpError "'action' is required"
    else do
      let decided ← svc.decide principal [.str action] resource
      -- the one key of the dictionary is the action
      let allowed := decided.any (·.2)
      if tool.equal (.str "check_access") then return .obj [("allowed", .bool allowed)]
      else
        let reason ← explain principal resource allowed
        return .obj [("allowed", .bool allowed), ("reason", .str reason)]
  | _ => pdpError "'action' is required"

/-- `ContractSurface.invoke`. -/
def Service.invoke (tool arguments : Json) : Except Raised Json :=
  if !tool.hashable then .error .uncaught
  else if !toolNames.any (fun name => (Json.str name).equal tool) then
    pdpError ("unknown tool: " ++ svc.pyStr tool)
  else do
    let principal ← validatePrincipal (← arguments.get "principal")
    let resource ← validateResource (← arguments.get "resource")
    if tool.equal (.str "allowed_actions") then
      svc.allowedActions principal resource (← arguments.get "actions")
    else svc.oneAction tool principal resource (← arguments.get "action")

/-! ## §4. The endpoint (`server.py`). -/

/-- A request to `/invoke`, as the framework hands it over. -/
structure HttpRequest where
  authorization : Option String
  xTenantId : Option String
  body : Option Json

structure Response where
  status : Nat
  body : Json

def errorResponse (status : Nat) (message : String) : Response :=
  ⟨status, .obj [("error", .str message)]⟩

def unauthorized : Response := ⟨401, .obj [("detail", .str "unauthorized")]⟩

/-- The framework's answer to an exception that was not caught. -/
def internalServerError : Response := ⟨500, .str "Internal Server Error"⟩

/-- Outside of `invoke` nothing is caught. -/
def uncaught {α : Type} : Except Raised α → Except Response α
  | .ok a => .ok a
  | .error _ => .error internalServerError

/-- The bearer token that the header presents. -/
def presented : Option String → String
  | some authorization =>
    if startsWithLower authorization "bearer " then
      strip (String.ofList (authorization.toList.drop 7))
    else ""
  | none => ""

/-- `hmac.compare_digest`, which takes ASCII texts only. -/
def compareDigest (a b : String) : Except Raised Bool :=
  if isAscii a && isAscii b then .ok (a == b) else .error .uncaught

/-- `_authenticate`. -/
def Service.authenticate (authorization : Option String) : Except Response Unit :=
  if presented authorization = "" then .error unauthorized
  else do
    if ← uncaught (compareDigest (presented authorization) svc.token) then return ()
    else .error unauthorized

/-- `body.get("arguments") or body.get("args") or {}`. -/
def argumentsOf (body : Json) : Except Raised Json := do
  return ((← body.get "arguments").orElse (← body.get "args")).orElse (.obj [])

/-- The tenant that the principal of the body claims. -/
def claimedTenant (arguments : Json) : Except Raised Json := do
  match ← arguments.get "principal" with
  | .obj entries => (← (Json.obj entries).getD "attr" (.obj [])).get "tenant_id"
  | _ => return .null

/-- The header may only restate the tenant. -/
def checkTenantHeader (xTenantId : Option String) (arguments : Json) : Except Response Unit :=
  if xTenantId.getD "" = "" then .ok ()
  else do
    let claimed ← uncaught (claimedTenant arguments)
    if claimed.truthy && !claimed.equal (.str (xTenantId.getD "")) then
      .error (errorResponse 403 "X-Tenant-Id does not match principal.attr.tenant_id")
    else return ()

/-- The status of a `PdpError`. -/
def pdpErrorStatus (message : String) : Nat :=
  if "unknown tool".toList.isPrefixOf message.toList then 404
  else if containsText message "unavailable" then 503
  else 422

def Service.invokeOrReport (tool arguments : Json) : Except Response Json :=
  match svc.invoke tool arguments with
  | .ok result => .ok result
  | .error (.error message) => .error (errorResponse (pdpErrorStatus message) message)
  | .error .uncaught => .error internalServerError

/-- The body of the handler, from the parsed request on. -/
def Service.serve (xTenantId : Option String) (body : Json) : Except Response Response := do
  let server ← uncaught (body.get "server")
  if server.truthy && !server.equal (.str contractServerName) then
    .error (errorResponse 404 ("unknown server: " ++ svc.pyStr server))
  else
    let tool ← uncaught (body.get "tool")
    if !tool.truthy then .error (errorResponse 400 "'tool' is required")
    else
      let arguments ← uncaught (argumentsOf body)
      if !arguments.isObj then .error (errorResponse 422 "'arguments' must be an object")
      else
        checkTenantHeader xTenantId arguments
        let result ← svc.invokeOrReport tool arguments
        return ⟨200, .obj [("tool", tool), ("result", result)]⟩

/-- `POST /invoke`. -/
def Service.handle (req : HttpRequest) : Except Response Response := do
  svc.authenticate req.authorization
  match req.body with
  | none => .error (errorResponse 400 "invalid JSON")
  | some body => svc.serve req.xTenantId body

/-- The answer, whichever way it came about. -/
def Service.respond (req : HttpRequest) : Response :=
  match svc.handle req with
  | .ok response => response
  | .error response => response

end AccessManagement.Mcp
