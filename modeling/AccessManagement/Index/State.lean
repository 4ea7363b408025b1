/-
  AccessManagement.Index.State — THE BITMAP INDEX AND ITS UPDATES (package `index`).

  Every indexed rule row becomes a BINDING with a numeric ID.  Each dimension (version,
  scope, role, action, resource, policy kind, principal) keeps, per value, the set of IDs
  that carry it; `allowActionsBitmap` keeps the role-policy bindings.  The behavioural half
  of a row, its FUNCTIONAL CORE, is shared between rows with the same content hash.

  Modelling notes:
    * interned string handles are strings, the zero handle is `""`;
    * the lazy and the eager dimensions store the same sets and are one type;
    * `compiled` of a glob dimension is determined by the keys of `globs` and is not kept;
    * the `origins` of a core live in its `coresBySum` entry and reference counts in the
      params caches, because both are shared through pointers in the source.
-/
import AccessManagement.Lib.Maps
import AccessManagement.Lib.Postings
import AccessManagement.Lib.Slab
import AccessManagement.Policy.ContentHash
import AccessManagement.Policy.Namer

namespace AccessManagement

open Lib

/-! ## §1. Code outside the repository. -/

/-- What the index takes from other packages: the byte hash, the glob compiler (with `:`
as separator; `none` for an invalid pattern), and whether a CEL expression compiles. -/
structure Externals where
  hasher : Hasher
  globCompile : String → Option (String → Bool)
  celCompiles : String → Bool

/-- `util.IsGlob`. -/
def isGlob (s : String) : Bool := s.toList.contains '*'

/-- `fixGlob`: a lone `*` means `**`. -/
def fixGlob (g : String) : String := if g = "*" then "**" else g

/-- `util.GetOrCompileGlob`. -/
def Externals.getOrCompileGlob (x : Externals) (g : String) : Option (String → Bool) :=
  x.globCompile (fixGlob g)

/-- `util.MatchesGlob`. -/
def Externals.matchesGlob (x : Externals) (g val : String) : Bool :=
  match x.getOrCompileGlob g with
  | some m => m val
  | none => false

/-- Glob matching for patterns of literals, `*` (any text without `:`) and `**` (any text). -/
def globMatch : List Char → List Char → Bool
  | [] => fun s => s.isEmpty
  | '*' :: '*' :: p => fun s => s.tails.any (globMatch p)
  | '*' :: p => fun s => (List.range ((s.takeWhile (· ≠ ':')).length + 1)).any
      (fun n => globMatch p (s.drop n))
  | c :: p => fun s =>
    match s with
    | [] => false
    | d :: s' => c == d && globMatch p s'

/-- A concrete choice of the outside code, for evaluating the model on examples. -/
def Externals.sample : Externals where
  hasher := ⟨.sample, fun bs => UInt64.ofNat (bs.foldl (fun acc b => acc * 257 + b.toNat + 1) 0)⟩
  globCompile := fun g => some (fun v => globMatch g.toList v.toList)
  celCompiles := fun _ => true

/-! ## §2. Bindings. -/

/-- `index.RowParams`. -/
structure RowParams where
  key : UInt64
  orderedVariables : List Variable
  constants : List (String × Value)

/-- `index.FunctionalCore` (without its `origins`). -/
structure FunctionalCore where
  condition : Option Condition := none
  derivedRoleCondition : Option Condition := none
  emitOutput : Option Output := none
  params : Option RowParams := none
  derivedRoleParams : Option RowParams := none
  sum : UInt64 := 0
  effect : Effect := .unspecified
  scopePermissions : ScopePermissions := .unspecified
  policyKind : Kind := .unspecified
  fromRolePolicy : Bool := false

/-- `index.BindingHandle`. -/
structure BindingHandle where
  resource : String := ""
  originDerivedRole : String := ""
  action : String := ""
  role : String := ""
  scope : String := ""
  version : String := ""
  principal : String := ""
  name : String := ""
  allowActions : Option (List String) := none
  originFqn : String := ""
  core : FunctionalCore
  id : Nat
  noMatchForScopePermissions : Bool := false

/-- `allowsAction`: an allow-listed action, or one matched by an allow-listed glob. -/
def BindingHandle.allowsAction (x : Externals) (b : BindingHandle) (action : String) : Bool :=
  let actions := b.allowActions.getD []
  actions.contains action || (actions.filter isGlob).any (fun g => x.matchesGlob g action)

/-- `noEvalKey`, the ID of a binding without an evaluation key. -/
def noEvalKey : Nat := 2 ^ 32 - 1

/-! ## §3. Dimensions with globs. -/

/-- `globDimension`. -/
structure GlobDimension where
  literals : Postings String
  globs : Postings String

namespace GlobDimension

def empty : GlobDimension := ⟨Postings.empty, Postings.empty⟩

/-- `Set`: a pattern that does not compile is not stored. -/
def set (x : Externals) (d : GlobDimension) (key : String) (id : Nat) : GlobDimension :=
  if isGlob key then
    match x.getOrCompileGlob key with
    | none => d
    | some _ => { d with globs := d.globs.add key id }
  else { d with literals := d.literals.add key id }

def remove (d : GlobDimension) (key : String) (id : Nat) : GlobDimension :=
  if isGlob key then { d with globs := d.globs.remove key id }
  else { d with literals := d.literals.remove key id }

/-- `Query`: the literal's IDs and those of every matching pattern. -/
def query (x : Externals) (d : GlobDimension) (value : String) : IdSet :=
  (d.literals.get value).union (d.globs.unionWhere (fun g => x.matchesGlob g value))

/-- `QueryMultiple`. -/
def queryMultiple (x : Externals) (d : GlobDimension) (values : List String) : IdSet :=
  IdSet.unionAll (values.map (d.query x))

end GlobDimension

/-! ## §4. The index. -/

/-- An entry of `coresBySum`: the shared core and the policies that use it. -/
structure CoreEntry where
  core : FunctionalCore
  origins : List String

/-- A cached parameter set with its reference count. -/
structure ParamsEntry where
  params : RowParams
  refcount : Nat

abbrev ParamsCache := AList (fun _ : UInt64 => ParamsEntry)

/-- `parentRoles`: by scope, then by role, the ancestors of the role. -/
abbrev ParentRoles := AList (fun _ : String => AList (fun _ : String => List String))

/-- `index.Index` with its `bitmapIndex`. -/
structure Index where
  coresBySum : AList (fun _ : UInt64 => CoreEntry)
  version : Postings String
  scope : Postings String
  role : GlobDimension
  action : GlobDimension
  resource : GlobDimension
  policyKind : Postings Kind
  principal : Postings String
  fqnBindings : AList (fun _ : String => List Nat)
  universeBitmap : IdSet
  allowActionsBitmap : IdSet
  bindings : Slab (BindingHandle × EvaluationKeyTuple)
  parentRoles : ParentRoles
  paramsCache : ParamsCache
  drParamsCache : ParamsCache

namespace Index

/-- `New`. -/
def new : Index where
  coresBySum := ∅
  version := Postings.empty
  scope := Postings.empty
  role := GlobDimension.empty
  action := GlobDimension.empty
  resource := GlobDimension.empty
  policyKind := Postings.empty
  principal := Postings.empty
  fqnBindings := ∅
  universeBitmap := IdSet.empty
  allowActionsBitmap := IdSet.empty
  bindings := Slab.empty
  parentRoles := ∅
  paramsCache := ∅
  drParamsCache := ∅

/-- `getBinding`. -/
def getBinding (ix : Index) (id : Nat) : Option BindingHandle := (ix.bindings.get? id).map (·.1)

/-- `evalKey`: the zero key for the sentinel ID (and for a vacant slot). -/
def evalKey (ix : Index) (id : Nat) : EvaluationKeyTuple :=
  if id = noEvalKey then {}
  else match ix.bindings.get? id with
    | some (_, k) => k
    | none => {}

/-- `GetAllRows`. -/
def getAllRows (ix : Index) : List BindingHandle := ix.bindings.values.map (·.1)

/-! ## §5. `addBinding` and `removeBinding`. -/

/-- A dimension that skips the empty value. -/
def addNonempty (d : Postings String) (key : String) (id : Nat) : Postings String :=
  if key = "" then d else d.add key id

variable (x : Externals)

def setNonempty (d : GlobDimension) (key : String) (id : Nat) : GlobDimension :=
  if key = "" then d else d.set x key id

/-- `addBinding`: take an ID, store the binding, and enter it in every dimension it has a
value for (scope `""` is the root scope and is always entered). -/
def addBinding (ix : Index) (b : BindingHandle) (key : EvaluationKeyTuple) : Index :=
  let id := ix.bindings.nextId
  { ix with
    bindings := ix.bindings.alloc (fun i => ({ b with id := i }, key))
    universeBitmap := ix.universeBitmap.add id
    scope := ix.scope.add b.scope id
    version := addNonempty ix.version b.version id
    role := setNonempty x ix.role b.role id
    resource := setNonempty x ix.resource b.resource id
    allowActionsBitmap :=
      if b.allowActions.isSome then ix.allowActionsBitmap.add id else ix.allowActionsBitmap
    action := if b.allowActions.isSome then ix.action else setNonempty x ix.action b.action id
    policyKind := ix.policyKind.add b.core.policyKind id
    principal := addNonempty ix.principal b.principal id
    fqnBindings :=
      ix.fqnBindings.insert b.originFqn ((ix.fqnBindings.lookup b.originFqn).getD [] ++ [id]) }

/-- `removeBinding`: undo `addBinding` except for `fqnBindings`. -/
def removeBinding (ix : Index) (b : BindingHandle) : Index :=
  { ix with
    universeBitmap := ix.universeBitmap.remove b.id
    version := ix.version.remove b.version b.id
    scope := ix.scope.remove b.scope b.id
    role := ix.role.remove b.role b.id
    resource := ix.resource.remove b.resource b.id
    allowActionsBitmap :=
      if b.allowActions.isSome then ix.allowActionsBitmap.remove b.id
      else ix.allowActionsBitmap
    action :=
      if b.allowActions.isSome then ix.action
      else if b.action = "" then ix.action else ix.action.remove b.action b.id
    policyKind := ix.policyKind.remove b.core.policyKind b.id
    principal := ix.principal.remove b.principal b.id
    bindings := ix.bindings.release b.id }

/-! ## §6. `IndexRule`. -/

variable (cache : ParamsCache)

/-- `getOrGenerateParams`: the cached parameters with the same content hash, else those of
the row, provided that its variables compile (`none` is the compile error). -/
def getOrGenerateParams (p : Option Params) : Option (RowParams × ParamsCache) :=
  let h := x.hasher.sum (optTokens Params.tokens p)
  match cache.lookup h with
  | some e => some (e.params, cache)
  | none =>
    let vars := (p.map (·.orderedVariables)).getD []
    if vars.all (fun v => x.celCompiles v.expr.original) then
      let rp : RowParams :=
        { key := h, orderedVariables := vars, constants := (p.map (·.constants)).getD [] }
      some (rp, cache.insert h { params := rp, refcount := 0 })
    else none

/-- `addRef` on the cached entry of a parameter set. -/
def addRef (p : Option RowParams) : ParamsCache :=
  match p with
  | none => cache
  | some rp =>
    match cache.lookup rp.key with
    | some e => cache.insert rp.key { e with refcount := e.refcount + 1 }
    | none => cache

/-- `removeRef`: the entry is dropped with its last reference. -/
def removeRef (p : Option RowParams) : ParamsCache :=
  match p with
  | none => cache
  | some rp =>
    match cache.lookup rp.key with
    | some e =>
      if e.refcount ≤ 1 then cache.erase rp.key
      else cache.insert rp.key { e with refcount := e.refcount - 1 }
    | none => cache

/-- The parameters a row is indexed with, by policy kind, and the two caches after the
lookups.  An error carries the caches as the failed call leaves them. -/
def rowParams (pc drc : ParamsCache) (row : RuleRow) : Except (ParamsCache × ParamsCache)
      (Option RowParams × Option RowParams × ParamsCache × ParamsCache) :=
  match row.policyKind with
  | .resource =>
    match getOrGenerateParams x pc row.params with
    | none => .error (pc, drc)
    | some (p, pc') =>
      if row.originDerivedRole = "" then .ok (some p, none, pc', drc)
      else
        match getOrGenerateParams x drc row.derivedRoleParams with
        | none => .error (pc', drc)
        | some (drp, drc') => .ok (some p, some drp, pc', drc')
  | .principal =>
    match getOrGenerateParams x pc row.params with
    | none => .error (pc, drc)
    | some (p, pc') => .ok (some p, none, pc', drc)
  | _ => .ok (none, none, pc, drc)

variable (row : RuleRow)

/-- The core a row would have on its own. -/
def coreOf (params drParams : Option RowParams) : FunctionalCore where
  condition := row.condition
  derivedRoleCondition := row.derivedRoleCondition
  emitOutput := row.emitOutput
  params := params
  derivedRoleParams := drParams
  sum := row.funcSum x.hasher
  effect := row.effect
  scopePermissions := row.scopePermissions
  policyKind := row.policyKind
  fromRolePolicy := row.fromRolePolicy

/-- The core a row is bound to: the one already stored under its content hash, else its
own, which is then stored.  Either way the row's policy becomes one of its origins. -/
def shareCore (ix : Index) (row : RuleRow) (params drParams : Option RowParams) :
    FunctionalCore × Index :=
  let sum := row.funcSum x.hasher
  match ix.coresBySum.lookup sum with
  | some e =>
    (e.core, { ix with
      coresBySum := ix.coresBySum.insert sum { e with origins := e.origins.insert row.originFqn } })
  | none =>
    let core := coreOf x row params drParams
    (core, { ix with
      coresBySum := ix.coresBySum.insert sum { core := core, origins := [row.originFqn] }
      paramsCache := addRef ix.paramsCache params
      drParamsCache := addRef ix.drParamsCache drParams })

/-- The routing half of a row, bound to a core. -/
def handleOf (core : FunctionalCore) : BindingHandle where
  scope := row.scope
  version := row.version
  resource := row.resource
  role := row.role
  principal := row.principal
  originFqn := row.originFqn
  originDerivedRole := row.originDerivedRole
  name := row.name
  core := core
  allowActions :=
    match row.actionSet with
    | some (.allowActions as) => some as
    | _ => none
  action :=
    match row.actionSet with
    | some (.action a) => a
    | _ => ""
  id := 0

/-- `makeEvaluationKeyTuple`. -/
def makeEvaluationKeyTuple : EvaluationKeyTuple :=
  row.evaluationKeyTuple.getD { ruleName := row.evaluationKey }

/-- `IndexRule`.  It fails on a row with a variable that does not compile; the error
carries the index as the failed call leaves it. -/
def indexRule (ix : Index) (row : RuleRow) : Except Index Index :=
  match rowParams x ix.paramsCache ix.drParamsCache row with
  | .error (pc, drc) => .error { ix with paramsCache := pc, drParamsCache := drc }
  | .ok (params, drParams, pc, drc) =>
    let shared :=
      shareCore x { ix with paramsCache := pc, drParamsCache := drc } row params drParams
    .ok (shared.2.addBinding x (handleOf row shared.1) (makeEvaluationKeyTuple row))

/-- The index after a call, whether or not it succeeded. -/
def afterCall (ix : Index) (row : RuleRow) : Index :=
  match ix.indexRule x row with
  | .ok ix' => ix'
  | .error ix' => ix'

/-- `IndexRules`: the rows in order, up to the first that fails. -/
def indexRules (x : Externals) : Index → List RuleRow → Except Index Index
  | ix, [] => .ok ix
  | ix, row :: rows =>
    match ix.indexRule x row with
    | .error ix' => .error ix'
    | .ok ix' => indexRules x ix' rows

/-! ## §7. `DeletePolicy`. -/

/-- Drop an origin of a core, and the core with its last origin. -/
def dropOrigin (ix : Index) (core : FunctionalCore) (fqn : String) : Index :=
  match ix.coresBySum.lookup core.sum with
  | none => ix
  | some e =>
    let origins := e.origins.erase fqn
    if origins.isEmpty then
      { ix with
        coresBySum := ix.coresBySum.erase core.sum
        paramsCache := removeRef ix.paramsCache core.params
        drParamsCache := removeRef ix.drParamsCache core.derivedRoleParams }
    else { ix with coresBySum := ix.coresBySum.insert core.sum { e with origins := origins } }

/-- One round of the loop in `DeletePolicy`. -/
def deleteBinding (fqn : String) (ix : Index) (id : Nat) : Index :=
  match ix.getBinding id with
  | none => ix
  | some b => (ix.removeBinding b).dropOrigin b.core fqn

/-- `DeletePolicy`: remove every binding that originated from a policy. -/
def deletePolicy (ix : Index) (fqn : String) : Index :=
  if fqn = "" then ix
  else
    match ix.fqnBindings.lookup fqn with
    | none => ix
    | some ids =>
      let ix' := ids.foldl (deleteBinding fqn) ix
      { ix' with fqnBindings := ix'.fqnBindings.erase fqn }

end Index

end AccessManagement
