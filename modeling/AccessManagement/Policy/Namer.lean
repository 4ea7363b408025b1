/-
  AccessManagement.Policy.Namer — NAMES: sanitised identifiers, fully-qualified policy
  names, scope chains and rule names (package `namer`).

  The regular expressions of the package are spelled out as the automata they denote:
  `oldNamePattern` reads colon-separated segments that each start with a letter, and
  `invalidIdentifierChars` collapses every maximal run of non-identifier characters to
  one underscore.
-/
import Mathlib.Data.List.Basic

namespace AccessManagement.Namer

open List

/-! ## §1. Sanitised names. -/

variable (c : Char)

def isAlpha : Bool :=
  ('a' ≤ c && c ≤ 'z') || ('A' ≤ c && c ≤ 'Z')

/-- The characters of the class `[\w.]`. -/
def isIdentifierChar : Bool :=
  c == '.' || c == '_' || ('0' ≤ c && c ≤ '9') || isAlpha c

/-- `isInvalidIdentifierChar`. -/
def isInvalidIdentifierChar : Bool := !isIdentifierChar c

/-- The characters a segment of an old-style name may continue with. -/
def isOldNameChar : Bool :=
  isIdentifierChar c || c == '@' || c == '-' || c == '/'

/-- Inside a segment of `oldNamePattern` (`expectAlpha` right after its start). -/
def oldNameTail : (expectAlpha : Bool) → List Char → Bool
  | true, [] => false
  | true, c :: cs => isAlpha c && oldNameTail false cs
  | false, [] => true
  | false, c :: cs =>
    if c == ':' then oldNameTail true cs
    else isOldNameChar c && oldNameTail false cs

/-- `oldNamePattern.MatchString`. -/
def matchesOldNamePattern (v : String) : Bool := oldNameTail true v.toList

/-- `invalidIdentifierChars.ReplaceAllLiteralString(v, "_")`; `inRun` says that the
previous character was already replaced. -/
def replaceInvalid : (inRun : Bool) → List Char → List Char
  | _, [] => []
  | inRun, c :: cs =>
    if isIdentifierChar c then c :: replaceInvalid false cs
    else if inRun then replaceInvalid true cs
    else '_' :: replaceInvalid true cs

/-- `sanitize`. -/
def sanitize (v : String) : String :=
  if !v.toList.any isInvalidIdentifierChar then v
  else if matchesOldNamePattern v then String.ofList (replaceInvalid false v.toList)
  else v

/-- `SanitizedResource`. -/
def sanitizedResource (resource : String) : String := sanitize resource

/-! ## §2. Fully-qualified names. -/

def fqnPrefix : String := "cerbos."
def derivedRolesPrefix : String := "cerbos.derived_roles"
def principalPoliciesPrefix : String := "cerbos.principal"
def resourcePoliciesPrefix : String := "cerbos.resource"
def rolePoliciesPrefix : String := "cerbos.role"

def defaultVersion : String := "default"

def withScope (fqn scope : String) : String :=
  if scope = "" then fqn else fqn ++ "/" ++ scope

/-- The shape that the three policy names share: `<prefix>.<name>.v<version>[/scope]`. -/
def policyFqn (pfx name version scope : String) : String :=
  withScope (pfx ++ "." ++ sanitize name ++ ".v" ++ sanitize version) scope

/-- `ResourcePolicyFQN`. -/
def resourcePolicyFqn (resource version scope : String) : String :=
  policyFqn resourcePoliciesPrefix resource version scope

/-- `PrincipalPolicyFQN`. -/
def principalPolicyFqn (principal version scope : String) : String :=
  policyFqn principalPoliciesPrefix principal version scope

/-- `RolePolicyFQN`: an empty version means the default one. -/
def rolePolicyFqn (role version scope : String) : String :=
  policyFqn rolePoliciesPrefix role (if version = "" then defaultVersion else version) scope

/-- `DerivedRolesFQN`. -/
def derivedRolesFqn (roleSetName : String) : String :=
  derivedRolesPrefix ++ "." ++ sanitize roleSetName

/-- `PolicyKeyFromFQN`: drop the `cerbos.` prefix if it is there. -/
def policyKeyFromFqn (fqn : String) : String :=
  if fqnPrefix.toList.isPrefixOf fqn.toList then
    String.ofList (fqn.toList.drop fqnPrefix.length)
  else fqn

/-! ## §3. Scopes. -/

variable (scope : String)

/-- `ScopeValue`: one leading dot is dropped. -/
def scopeValue : String :=
  match scope.toList with
  | '.' :: rest => String.ofList rest
  | _ => scope

/-- The prefixes of `pre ++ rest` that end right before a dot of `rest`, longest first,
with the empty prefix when `rest` starts the string. -/
def scopeParentsFrom (pre : List Char) : List Char → List String
  | [] => []
  | c :: cs =>
    scopeParentsFrom (pre ++ [c]) cs ++
      (if c == '.' || pre.isEmpty then [String.ofList pre] else [])

/-- `ScopeParents`: the enclosing scopes of a scope, from the nearest to the root `""`.
The root itself has none. -/
def scopeParents : List String := scopeParentsFrom [] scope.toList

example : scopeParents "a.b.c" = ["a.b", "a", ""] := by decide

theorem length_of_mem_scopeParentsFrom : ∀ (cs pre : List Char),
    ∀ p ∈ scopeParentsFrom pre cs, pre.length ≤ p.length ∧ p.length < pre.length + cs.length := by
  intro cs
  induction cs with
  | nil => intro pre p hp; exact (not_mem_nil hp).elim
  | cons c _ ih =>
    intro pre p hp
    rcases mem_append.mp hp with hp | hp
    · have h := ih (pre ++ [c]) p hp
      rw [length_append, length_singleton] at h
      rw [length_cons]
      omega
    · split at hp
      · rw [mem_singleton.mp hp, String.length_ofList, length_cons]
        omega
      · exact (not_mem_nil hp).elim

/-- The enclosing scopes get shorter and shorter. -/
theorem scopeParentsFrom_pairwise (cs pre : List Char) :
    (scopeParentsFrom pre cs).Pairwise (fun p q => q.length < p.length) := by
  induction cs generalizing pre with
  | nil => exact List.Pairwise.nil
  | cons c cs ih =>
    unfold scopeParentsFrom
    rw [pairwise_append]
    refine ⟨ih _, ?_, ?_⟩
    · split
      · exact pairwise_singleton _ _
      · exact List.Pairwise.nil
    · intro p hp q hq
      have hlen := (length_of_mem_scopeParentsFrom cs (pre ++ [c]) p hp).1
      rw [length_append, length_singleton] at hlen
      split at hq
      · rw [mem_singleton.mp hq, String.length_ofList]
        omega
      · exact (not_mem_nil hq).elim

/-- A scope and its enclosing scopes are all different. -/
theorem scope_cons_scopeParents_nodup : (scope :: scopeParents scope).Nodup := by
  have hpair : (scope :: scopeParents scope).Pairwise (fun p q => q.length < p.length) := by
    refine List.Pairwise.cons ?_ (scopeParentsFrom_pairwise scope.toList [])
    intro p hp
    have h := (length_of_mem_scopeParentsFrom scope.toList [] p hp).2
    rw [length_nil, Nat.zero_add] at h
    exact h
  exact hpair.imp (fun {p q} hlt heq => by subst heq; exact Nat.lt_irrefl _ hlt)

/-- Every scope but the root lies in the root. -/
theorem root_mem_scopeParents {scope : String} (h : scope ≠ "") : "" ∈ scopeParents scope := by
  unfold scopeParents
  cases hc : scope.toList with
  | nil => exact absurd (String.toList_eq_nil_iff.mp hc) h
  | cons =>
    unfold scopeParentsFrom
    rw [isEmpty_nil, Bool.or_true]
    exact mem_append_right _ (mem_singleton_self _)

/-! ## §4. Rule names. -/

/-- `fmt.Sprintf("%03d", n)`. -/
def pad3 (n : Nat) : String :=
  let digits := (toString n).toList
  String.ofList (List.replicate (3 - digits.length) '0' ++ digits)

/-- `ResourceRuleName`: the name given in the policy, else the position of the rule. -/
def resourceRuleName (name : String) (idx : Nat) : String :=
  if name ≠ "" then name else "rule-" ++ pad3 idx

/-- `RuleFQN` for the metadata of a rule table: the policy key, then the rule name. -/
def ruleFqn (policyFqn ruleName : String) : String :=
  policyKeyFromFqn policyFqn ++ "#" ++ ruleName

end AccessManagement.Namer
