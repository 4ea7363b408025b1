/-
  AccessManagement.Authzen.Service — THE AUTHZEN AUTHORIZATION SERVICE.

  `accessEvaluation` answers one question: may the subject perform the action on the
  resource.  `accessEvaluationBatch` answers many, with defaults for what they leave out.  To
  make few engine calls it groups the evaluations twice — by subject id and auxiliary data,
  then by resource type and id — and builds ONE engine input per inner group, from the first
  evaluation of the group.  The results are scattered back to the positions of the
  evaluations, and two of the three evaluation semantics cut the answer off early.

  The engine is a parameter: what it decides for an action is a function of the principal,
  the resource, the auxiliary data and the action.  So is the extraction of auxiliary data
  (signature checks on tokens).
-/
import AccessManagement.Lib.Batch
import AccessManagement.Check.Eval

namespace AccessManagement.Authzen

open Lib

/-- A map from names to values, in a fixed order of its keys. -/
abbrev Properties := List (String × Value)

/-! ## §1. Messages. -/

structure Subject where
  type : String
  id : String
  properties : Properties

structure Resource where
  type : String
  id : String
  properties : Properties

structure Action where
  name : String
  properties : Properties

/-- `AccessEvaluationRequest`: all parts are required. -/
structure EvaluationRequest where
  subject : Subject
  resource : Resource
  action : Action
  context : Properties

/-- `AccessEvaluationBatchRequest.Evaluation`. -/
structure Evaluation where
  subject : Option Subject
  resource : Option Resource
  action : Option Action
  context : Properties

/-- `AccessEvaluationBatchRequest`.  Validation guarantees that a part without a default is
given by every evaluation. -/
structure BatchRequest where
  subject : Option Subject
  resource : Option Resource
  action : Option Action
  context : Properties
  evaluations : List Evaluation
  evaluationsSemantic : String
  subjects : subject.isSome = true ∨ ∀ e ∈ evaluations, e.subject.isSome = true
  resources : resource.isSome = true ∨ ∀ e ∈ evaluations, e.resource.isSome = true
  actions : action.isSome = true ∨ ∀ e ∈ evaluations, e.action.isSome = true

/-- How a call ends without an answer. -/
inductive Failure where
  | invalidArgument (message : String)
  /-- A part of the request is missing that validation should have insisted on. -/
  | nilDereference
  deriving DecidableEq, Repr

/-! ## §2. Conversion to engine inputs. -/

def cerbosProp (s : String) : String := "cerbos." ++ s

def lookup (m : Properties) (k : String) : Option Value := m.lookup (cerbosProp k)

/-- `Value.GetStringValue`. -/
def stringValue : Value → String
  | .string s => s
  | _ => ""

/-- `Value.GetListValue().GetValues()`. -/
def listValues : Value → List Value
  | .list vs => vs
  | _ => []

def lookupOrEmptyString (m : Properties) (k : String) : String :=
  (lookup m k).elim "" stringValue

def toResource (res : Resource) : AccessManagement.Resource where
  kind := res.type
  policyVersion := lookupOrEmptyString res.properties "policyVersion"
  attr := res.properties
  scope := lookupOrEmptyString res.properties "scope"
  id := res.id

/-- The roles come from the `cerbos.roles` property; without one, the subject's type is its
role. -/
def toPrincipal (subj : Subject) : Principal where
  id := subj.id
  policyVersion := lookupOrEmptyString subj.properties "policyVersion"
  roles :=
    let roles := (((lookup subj.properties "roles").elim [] listValues).map stringValue).filter
      (fun r => r ≠ "")
    if roles = [] then [subj.type] else roles
  attr := subj.properties
  scope := lookupOrEmptyString subj.properties "scope"

/-- The engine: a decision for each action. -/
abbrev Engine :=
  Principal → AccessManagement.Resource → Option AuxData → String → Effect

/-- The actions of a check output. -/
def Engine.check (eng : Engine) (input : CheckInput) : List (String × Effect) :=
  input.actions.map (fun a => (a, eng input.principal input.resource input.auxData a))

/-- `output.Actions[action].Effect == EFFECT_ALLOW`. -/
def decision (output : List (String × Effect)) (action : String) : Bool :=
  decide (output.lookup action = some .allow)

structure RequestLimits where
  maxActionsPerResource : Nat
  maxResourcesPerRequest : Nat

/-- What the service is configured with.  Maps are ranged over in an arbitrary order. -/
structure Service where
  limits : RequestLimits
  /-- Deserialise auxiliary data and extract it; `none` is a failure. -/
  extract : Value → Option (Option AuxData)
  hashAuxData : Option AuxData → UInt64
  rangeOrder : {α : Type} → List α → List α
  rangeOrder_perm : ∀ {α : Type} (l : List α), (rangeOrder l).Perm l

variable (svc : Service) (eng : Engine)

/-- `extractAuxData`: no auxiliary data without the property. -/
def extractAuxData (m : Properties) : Except Failure (Option AuxData) :=
  match lookup m "auxData" with
  | none => .ok none
  | some v =>
    match svc.extract v with
    | some aux => .ok aux
    | none => .error (.invalidArgument "invalid auxData")

/-! ## §3. One evaluation. -/

/-- `AccessEvaluation`. -/
def accessEvaluation (r : EvaluationRequest) : Except Failure Bool :=
  match extractAuxData svc r.context with
  | .error err => .error err
  | .ok auxData =>
    .ok (decision (eng.check {
        requestId := lookupOrEmptyString r.context "requestId"
        actions := [r.action.name]
        principal := toPrincipal r.subject
        resource := toResource r.resource
        auxData := auxData })
      r.action.name)

/-! ## §4. Many evaluations. -/

/-- An evaluation with the defaults filled in, and its position. -/
structure EvalRequest where
  subject : Subject
  resource : Resource
  action : Option Action
  context : Properties
  auxData : Option AuxData
  index : Nat

variable (req : EvalRequest)

/-- `req.action.GetName()`. -/
def EvalRequest.actionName : String := req.action.elim "" (·.name)

/-- `merge`: what is given overrides the default. -/
def merge {α : Type} (defaults override : Option α) : Option α := override.or defaults

variable (r : BatchRequest)

/-- The default auxiliary data: a request without context has none. -/
def defaultAuxData : Except Failure (Option AuxData) :=
  if r.context.isEmpty then .ok none else extractAuxData svc r.context

/-- One evaluation with the defaults filled in.  A context of its own brings its own auxiliary
data. -/
def evalRequest (defaultAux : Option AuxData) (index : Nat) (e : Evaluation) :
    Except Failure EvalRequest :=
  let merged (context : Properties) (auxData : Option AuxData) : Except Failure EvalRequest :=
    match merge r.subject e.subject, merge r.resource e.resource with
    | some subject, some resource =>
      .ok {
        subject := subject
        resource := resource
        action := merge r.action e.action
        context := context
        auxData := auxData
        index := index }
    | _, _ => .error .nilDereference
  if e.context.isEmpty then merged r.context defaultAux
  else
    match extractAuxData svc e.context with
    | .error err => .error err
    | .ok auxData => merged e.context auxData

def evalRequests (r : BatchRequest) (defaultAux : Option AuxData) :
    (index : Nat) → List Evaluation → Except Failure (List EvalRequest)
  | _, [] => .ok []
  | index, e :: es =>
    match evalRequest svc r defaultAux index e with
    | .error err => .error err
    | .ok req =>
      match evalRequests r defaultAux (index + 1) es with
      | .error err => .error err
      | .ok reqs => .ok (req :: reqs)

/-- All evaluations, complete. -/
def completeRequests : Except Failure (List EvalRequest) :=
  match defaultAuxData svc r with
  | .error err => .error err
  | .ok defaultAux => evalRequests svc r defaultAux 0 r.evaluations

/-- The outer group: subject id and hash of the auxiliary data. -/
def groupKey : String × UInt64 :=
  (req.subject.id, svc.hashAuxData req.auxData)

/-- The inner group: resource type and id. -/
def resourceKey : String × String := (req.resource.type, req.resource.id)

def tooMany (what : String) (n limit : Nat) : Failure :=
  .invalidArgument ("number of " ++ what ++ " (" ++ toString n ++ ") exceeds configured limit (" ++
      toString limit ++ ")")

/-- Where the result of an evaluation is found and where it goes. -/
structure ResultMapping where
  action : String
  inputIdx : Nat
  responseIdx : Nat

/-- The engine input of an inner group, built from its first evaluation. -/
def engineInput (auxData : Option AuxData) (first : EvalRequest) (reqs : List EvalRequest) :
    CheckInput where
  requestId := lookupOrEmptyString first.context "requestId"
  actions := reqs.map EvalRequest.actionName
  principal := toPrincipal first.subject
  resource := toResource first.resource
  auxData := auxData

/-- One engine input for each inner group. -/
def buildInputs (auxData : Option AuxData) : (inputIdx : Nat) → List (List EvalRequest) →
    Except Failure (List CheckInput × List ResultMapping)
  | _, [] => .ok ([], [])
  | inputIdx, reqs :: rest =>
    if reqs.length > svc.limits.maxActionsPerResource then
      .error (tooMany "actions" reqs.length svc.limits.maxActionsPerResource)
    else
      match reqs, buildInputs auxData (inputIdx + 1) rest with
      | _, .error err => .error err
      | [], _ => .error .nilDereference
      | first :: _, .ok (inputs, mappings) =>
        .ok (engineInput auxData first reqs :: inputs,
          reqs.map (fun req => ⟨req.actionName, inputIdx, req.index⟩) ++ mappings)

/-- One outer group: an engine call, and its results in their places. -/
def processGroup (reqs : List EvalRequest) (responses : List (Option Bool)) :
    Except Failure (List (Option Bool)) :=
  match reqs with
  | [] => .error .nilDereference
  | first :: _ =>
    let reqsByRes := svc.rangeOrder (groups resourceKey reqs)
    if reqsByRes.length > svc.limits.maxResourcesPerRequest then
      .error (tooMany "resources in batch" reqsByRes.length svc.limits.maxResourcesPerRequest)
    else
      match buildInputs svc first.auxData 0 reqsByRes with
      | .error err => .error err
      | .ok (inputs, mappings) =>
        let outputs := inputs.map eng.check
        .ok (scatterInto responses (mappings.map fun m =>
          (m.responseIdx, decision (outputs.getD m.inputIdx []) m.action)))

def processGroups : List (List EvalRequest) → List (Option Bool) →
    Except Failure (List (Option Bool))
  | [], responses => .ok responses
  | reqs :: rest, responses =>
    match processGroup svc eng reqs responses with
    | .error err => .error err
    | .ok responses => processGroups rest responses

/-- The decisions up to and including the first one that is `target`. -/
def upTo (target : Bool) : List Bool → List Bool
  | [] => []
  | d :: ds => if d = target then [d] else d :: upTo target ds

/-- The evaluation semantics: all decisions, or those up to the first permit or deny. -/
def answered (semantic : String) (decisions : List Bool) : List Bool :=
  if semantic = "" ∨ semantic = "execute_all" then decisions
  else upTo (decide (semantic = "permit_on_first_permit")) decisions

/-- Every response is there. -/
def collect : List (Option Bool) → Except Failure (List Bool)
  | [] => .ok []
  | none :: _ => .error .nilDereference
  | some d :: rest =>
    match collect rest with
    | .error err => .error err
    | .ok ds => .ok (d :: ds)

/-- `AccessEvaluationBatch`. -/
def accessEvaluationBatch : Except Failure (List Bool) :=
  let total := svc.limits.maxActionsPerResource * svc.limits.maxResourcesPerRequest
  if r.evaluations.length > total then
    .error (tooMany "evaluations" r.evaluations.length total)
  else
    match completeRequests svc r with
    | .error err => .error err
    | .ok evals =>
      match processGroups svc eng (svc.rangeOrder (groups (groupKey svc) evals))
          (List.replicate r.evaluations.length none) with
      | .error err => .error err
      | .ok responses =>
        match collect responses with
        | .error err => .error err
        | .ok decisions => .ok (answered r.evaluationsSemantic decisions)

end AccessManagement.Authzen
