/-
  AccessManagement.Policy.Compile — FROM A RESOURCE POLICY TO A RUNNABLE POLICY SET
  (package `compile`).

  Compiling resolves the derived roles a policy refers to, names its unnamed rules by their
  position, and type-checks its expressions.  Errors are collected, and a policy with an error
  is not used at all; unresolved derived roles stop the compilation before its rules.

  Lists become the keys of Go maps on the way: repetitions go, and the role `*` swallows the
  other roles.

  Left out: variables, constants, outputs and schemas; the ancestors of a scoped policy, which
  are compiled in the same way and which `AddPolicy` never reads.
-/
import AccessManagement.Policy.Types
import AccessManagement.Policy.Namer
import Mathlib.Data.List.AList

namespace AccessManagement

/-! ## §1. Policies as they are written. -/

namespace Source

/-- `policy.v1.Match`, over expressions of type `ε` (texts, in a file). -/
inductive Match (ε : Type) where
  | expr (e : ε)
  | all (of : List (Match ε))
  | any (of : List (Match ε))
  | none (of : List (Match ε))
  deriving Repr

mutual

def Match.map {ε δ : Type} (f : ε → δ) : Match ε → Match δ
  | .expr e => .expr (f e)
  | .all ms => .all (Match.mapList f ms)
  | .any ms => .any (Match.mapList f ms)
  | .none ms => .none (Match.mapList f ms)

def Match.mapList {ε δ : Type} (f : ε → δ) : List (Match ε) → List (Match δ)
  | [] => []
  | m :: ms => m.map f :: Match.mapList f ms

end

/-- `policy.v1.ResourceRule`. -/
structure ResourceRule (ε : Type) where
  name : String := ""
  actions : List String
  effect : Effect
  roles : List String := []
  derivedRoles : List String := []
  condition : Option (Match ε) := .none
  deriving Repr

/-- `policy.v1.RoleDef`. -/
structure RoleDef (ε : Type) where
  name : String
  parentRoles : List String
  condition : Option (Match ε) := .none
  deriving Repr

/-- `policy.v1.DerivedRoles`. -/
structure DerivedRoles (ε : Type) where
  name : String
  definitions : List (RoleDef ε)
  deriving Repr

/-- `policy.v1.ResourcePolicy`. -/
structure ResourcePolicy (ε : Type) where
  resource : String
  version : String
  scope : String := ""
  importDerivedRoles : List String := []
  scopePermissions : ScopePermissions := .unspecified
  rules : List (ResourceRule ε)
  deriving Repr

section Map

variable {ε δ : Type} (f : ε → δ)

def ResourceRule.map (r : ResourceRule ε) : ResourceRule δ where
  name := r.name
  actions := r.actions
  effect := r.effect
  roles := r.roles
  derivedRoles := r.derivedRoles
  condition := r.condition.map (Match.map f)

def RoleDef.map (d : RoleDef ε) : RoleDef δ where
  name := d.name
  parentRoles := d.parentRoles
  condition := d.condition.map (Match.map f)

def DerivedRoles.map (dr : DerivedRoles ε) : DerivedRoles δ where
  name := dr.name
  definitions := dr.definitions.map (RoleDef.map f)

def ResourcePolicy.map (p : ResourcePolicy ε) : ResourcePolicy δ where
  resource := p.resource
  version := p.version
  scope := p.scope
  importDerivedRoles := p.importDerivedRoles
  scopePermissions := p.scopePermissions
  rules := p.rules.map (ResourceRule.map f)

end Map

end Source

/-! ## §2. Expressions and conditions. -/

/-- Type-checking of CEL expressions: whether it finds issues, and the bytes of the checked
form otherwise. -/
structure CelCompiler where
  issues : String → Bool
  checked : String → List UInt8

inductive CompileError where
  | importNotFound (name : String)
  | unknownDerivedRole (role : String)
  | ambiguousDerivedRole (role : String)
  | invalidResourceRule (name : String)
  | invalidExpression (expr : String)
  deriving DecidableEq, Repr

section Compile

variable (c : CelCompiler)

/-- `compileCELExpr`: an expression with issues keeps its text only. -/
def compileCELExpr (expr : String) : Expr where
  original := expr
  checked := if c.issues expr then none else some (c.checked expr)

def exprErrors (expr : String) : List CompileError :=
  if c.issues expr then [.invalidExpression expr] else []

mutual

/-- `compileMatch`. -/
def compileMatch : Source.Match String → Condition
  | .expr e => .expr (compileCELExpr c e)
  | .all ms => .all (compileMatchList ms)
  | .any ms => .any (compileMatchList ms)
  | .none ms => .none (compileMatchList ms)

/-- `compileMatchList`. -/
def compileMatchList : List (Source.Match String) → List Condition
  | [] => []
  | m :: ms => compileMatch m :: compileMatchList ms

end

mutual

def matchErrors : Source.Match String → List CompileError
  | .expr e => exprErrors c e
  | .all ms => matchListErrors ms
  | .any ms => matchListErrors ms
  | .none ms => matchListErrors ms

def matchListErrors : List (Source.Match String) → List CompileError
  | [] => []
  | m :: ms => matchErrors m ++ matchListErrors ms

end

variable (cond : Option (Source.Match String))

/-- `compileCondition`. -/
def compileCondition : Option Condition :=
  cond.map (compileMatch c)

def conditionErrors : List CompileError :=
  (cond.map (matchErrors c)).getD []

/-! ## §3. Derived roles. -/

/-- The keys of the map that a list of roles is turned into. -/
def roleSet (roles : List String) : List String :=
  if roles.contains "*" then ["*"] else roles.eraseDups

/-- One definition of `compileDerivedRoles`. -/
def compileRoleDef (setName : String) (d : Source.RoleDef String) : RunnableDerivedRole where
  name := d.name
  parentRoles := roleSet d.parentRoles
  variableExprs := []
  condition := compileCondition c d.condition
  orderedVariables := []
  constants := []
  originFqn := Namer.derivedRolesFqn setName

/-- `compileDerivedRoles`: a later definition of a name replaces an earlier one. -/
def compileDerivedRoles (dr : Source.DerivedRoles String) :
    AList (fun _ : String => RunnableDerivedRole) :=
  dr.definitions.foldl (fun compiled d => compiled.insert d.name (compileRoleDef c dr.name d)) ∅

/-- Is this the set of derived roles that an import names? Sets are known by their FQN. -/
def isImportOf (imp : String) (dr : Source.DerivedRoles String) : Bool :=
  Namer.derivedRolesFqn dr.name == Namer.derivedRolesFqn imp

variable (sets : List (Source.DerivedRoles String)) (rp : Source.ResourcePolicy String)

/-- The sets of derived roles that a policy imports and that exist. -/
def importedSets : List (Source.DerivedRoles String) :=
  rp.importDerivedRoles.filterMap (fun imp => sets.find? (isImportOf imp))

/-- The imports that define a role. -/
def roleImports (imported : List (Source.DerivedRoles String)) (role : String) :
    List RunnableDerivedRole :=
  imported.filterMap (fun dr => (compileDerivedRoles c dr).lookup role)

/-- The derived roles that the rules of a policy refer to. -/
def mentionedRoles : List String :=
  (rp.rules.flatMap (·.derivedRoles)).eraseDups

/-- `compileImportedDerivedRoles`: a role is resolved if exactly one import defines it. -/
def referencedRoles : List (String × RunnableDerivedRole) :=
  (mentionedRoles rp).filterMap (fun role =>
    match roleImports c (importedSets sets rp) role with
    | [rdr] => some (role, rdr)
    | _ => none)

/-- The errors of `compileImportedDerivedRoles`. -/
def importErrors : List CompileError :=
  (rp.importDerivedRoles.filter (fun imp => !sets.any (isImportOf imp))).map .importNotFound
    ++ (importedSets sets rp).flatMap (fun dr =>
        dr.definitions.flatMap (fun d => conditionErrors c d.condition))
    ++ (mentionedRoles rp).flatMap (fun role =>
        match roleImports c (importedSets sets rp) role with
        | [] => [.unknownDerivedRole role]
        | [_] => []
        | _ => [.ambiguousDerivedRole role])

/-! ## §4. Rules and policies. -/

variable (rule : Source.ResourceRule String)

/-- `compileResourceRule`, for the rule at a position (counted from 1). -/
def compileResourceRule (idx : Nat) : ResourceRule where
  name := Namer.resourceRuleName rule.name idx
  actions := rule.actions.eraseDups
  roles := roleSet rule.roles
  derivedRoles := rule.derivedRoles.eraseDups
  condition := compileCondition c rule.condition
  effect := rule.effect
  output := none
  emitOutput := none

def ruleErrors (idx : Nat) : List CompileError :=
  (if rule.derivedRoles.isEmpty && rule.roles.isEmpty then
    [.invalidResourceRule (Namer.resourceRuleName rule.name idx)] else [])
    ++ conditionErrors c rule.condition

/-- The policy that `compileResourcePolicy` assembles. -/
def assembleResourcePolicy : ResourcePolicy where
  scope := rp.scope
  derivedRoles := referencedRoles c sets rp
  rules := rp.rules.mapIdx (fun i rule => compileResourceRule c rule (i + 1))
  scopePermissions := rp.scopePermissions.normalise
  orderedVariables := []
  constants := []

/-- `compileResourcePolicy`. -/
def compileResourcePolicy : Except (List CompileError) ResourcePolicy :=
  match importErrors c sets rp with
  | [] =>
    match (rp.rules.mapIdx (fun i rule => ruleErrors c rule (i + 1))).flatten with
    | [] => .ok (assembleResourcePolicy c sets rp)
    | errs => .error errs
  | errs => .error errs

/-- `compileResourcePolicySet`. -/
def compileResourcePolicySet : Except (List CompileError) PolicySet :=
  match compileResourcePolicy c sets rp with
  | .error errs => .error errs
  | .ok p => .ok (.resourcePolicy (Namer.resourcePolicyFqn rp.resource rp.version rp.scope)
      rp.resource rp.version [p])

end Compile

end AccessManagement
