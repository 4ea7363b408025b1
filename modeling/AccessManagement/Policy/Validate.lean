/-
  AccessManagement.Policy.Validate — WHAT A POLICY FILE IS CHECKED FOR (`policy.Validate`).

  Validation works on a policy as it is WRITTEN: rules have the names that the file gives
  them, and a rule without a name takes no part in the check for clashes.  All errors are
  collected, each with the position of what it is about.

  The four checks for clashing names are one loop (`checkNames`).

  Main results: `checkNames_eq_nil` and, for each type of policy, what it means to be accepted.
-/
import AccessManagement.Policy.Modules

namespace AccessManagement

open List AList

/-! ## §1. Errors and where they are. -/

/-- `source.v1.Position`. -/
structure Position where
  line : Nat
  column : Nat
  path : String
  deriving DecidableEq, Repr

/-- `parser.SourceCtx`: where the value at a path of the policy stands in its file. -/
structure SourceCtx where
  positionOfValueAtProtoPath : String → Option Position
  positionAndContextForValueAtProtoPath : String → Option Position × String

/-- `ValidationError`. -/
structure ValidationError where
  message : String
  position : Option Position
  context : String
  deriving DecidableEq, Repr

namespace SourceCtx

variable (sc : SourceCtx)

/-- An error about the value at a path. -/
def errorAt (path message : String) : ValidationError where
  message := message
  position := (sc.positionAndContextForValueAtProtoPath path).1
  context := (sc.positionAndContextForValueAtProtoPath path).2

/-- The error about a value that clashes with an earlier one: `preposition` leads to the
position of the earlier value, where it is known. -/
def clashAt (path earlier message preposition : String) : ValidationError :=
  sc.errorAt path (match sc.positionOfValueAtProtoPath earlier with
    | some prev => message ++ preposition ++ toString prev.line ++ ":" ++ toString prev.column
    | none => message)

end SourceCtx

/-! ## §2. The loop over names. -/

section Loop

variable {α : Type} (nameOf : α → Option String) (before after : Nat → α → List ValidationError)
  (clash : Nat → Nat → α → ValidationError)

/-- The loop of the checks for clashing names.  `seen` maps a name to the number of the item
that has it (items are numbered from 1); an item without a name is passed over.  `before` and
`after` are what else is reported for an item. -/
def checkNames : Nat → AList (fun _ : String => Nat) → List α → List ValidationError
  | _, _, [] => []
  | i, seen, a :: as =>
    before i a ++
    (match nameOf a with
      | none => after i a ++ checkNames (i + 1) seen as
      | some name =>
        match seen.lookup name with
        | some idx => clash i idx a :: (after i a ++ checkNames (i + 1) seen as)
        | none => after i a ++ checkNames (i + 1) (seen.insert name (i + 1)) as)

variable {nameOf before after clash}

/-- **Nothing is reported exactly if the names are distinct and new, and no item has an error
of its own.** -/
theorem checkNames_eq_nil (as : List α) (i : Nat) (seen : AList (fun _ : String => Nat)) :
    checkNames nameOf before after clash i seen as = [] ↔
      (∀ k (a : α), as[k]? = some a → before (i + k) a = [] ∧ after (i + k) a = []) ∧
      (as.filterMap nameOf).Nodup ∧ ∀ name ∈ as.filterMap nameOf, name ∉ seen := by
  induction as generalizing i seen with
  | nil => simp [checkNames]
  | cons a as ih =>
    have hshift : (∀ k (x : α), (a :: as)[k]? = some x →
        before (i + k) x = [] ∧ after (i + k) x = []) ↔ (before i a = [] ∧ after i a = []) ∧
        ∀ k (x : α), as[k]? = some x → before (i + 1 + k) x = [] ∧ after (i + 1 + k) x = [] := by
      rw [← Nat.and_forall_add_one]
      simp [Nat.add_assoc, Nat.add_comm 1]
    rw [hshift]
    unfold checkNames
    cases hname : nameOf a with
    | none =>
      rw [filterMap_cons_none hname]
      simp only [append_eq_nil_iff, ih]
      tauto
    | some name =>
      rw [filterMap_cons_some hname, nodup_cons]
      cases hseen : seen.lookup name with
      | some =>
        have hmem : name ∈ seen := lookup_isSome.mp (by rw [hseen]; rfl)
        simp [hmem, hseen]
      | none =>
        have hnew : name ∉ seen := lookup_eq_none.mp hseen
        simp only [hseen, append_eq_nil_iff, ih, mem_cons, forall_eq_or_imp, mem_insert, not_or]
        constructor
        · rintro ⟨hb, ha, hrest, hnodup, hfresh⟩
          exact ⟨⟨⟨hb, ha⟩, hrest⟩, ⟨fun hin => (hfresh name hin).1 rfl, hnodup⟩, hnew,
            fun n hn => (hfresh n hn).2⟩
        · rintro ⟨⟨⟨hb, ha⟩, hrest⟩, ⟨hin, hnodup⟩, -, hfresh⟩
          exact ⟨hb, ha, hrest, hnodup, fun n hn => ⟨fun heq => hin (heq ▸ hn), hfresh n hn⟩⟩

end Loop

/-! ## §3. The types of policies. -/

/-- `%q`, for printable names. -/
def quoted (name : String) : String := name.quote

/-- A name, unless it is empty. -/
def givenName (name : String) : Option String := if name = "" then none else some name

def resourcePolicyRuleProtoPath (idx : Nat) : String := s!"resource_policy.rules[{idx}]"
def principalPolicyRuleProtoPath (idx : Nat) : String := s!"principal_policy.rules[{idx}]"
def principalPolicyActionRuleProtoPath (parentIdx idx : Nat) : String :=
  principalPolicyRuleProtoPath parentIdx ++ s!".actions[{idx}]"
def derivedRoleRuleProtoPath (idx : Nat) : String := s!"derived_roles.definitions[{idx}]"

section Types

variable (sc : SourceCtx)

/-- A rule without any roles. -/
def rolesErrors (i : Nat) (rule : Source.ResourceRule String) : List ValidationError :=
  if rule.roles.isEmpty && rule.derivedRoles.isEmpty then
    [sc.errorAt (resourcePolicyRuleProtoPath i)
      ("rule " ++ (if rule.name = "" then "#" ++ toString (i + 1) else rule.name)
        ++ " does not specify any roles or derived roles to match")]
  else []

/-- `validateResourcePolicy`. -/
def validateResourcePolicy (rp : Source.ResourceModule) : List ValidationError :=
  checkNames (fun rule => givenName rule.name) (rolesErrors sc) (fun _ _ => [])
    (fun i idx rule => sc.clashAt (resourcePolicyRuleProtoPath i)
      (resourcePolicyRuleProtoPath (idx - 1))
      ("duplicate rule name " ++ quoted rule.name ++ ": rule #" ++ toString (i + 1)
        ++ " has the same name as rule #" ++ toString idx) " defined at ")
    0 ∅ rp.rules

/-- The inner loop of `validatePrincipalPolicy`, for the rule at position `i`. -/
def validateActions (i : Nat) (rule : Source.PrincipalRule) : List ValidationError :=
  checkNames (fun action => givenName action.name) (fun _ _ => []) (fun _ _ => [])
    (fun j idx action => sc.clashAt (principalPolicyActionRuleProtoPath i j)
      (principalPolicyActionRuleProtoPath i (idx - 1))
      ("duplicate action rule name " ++ quoted action.name ++ ": action rule #" ++ toString (j + 1)
        ++ " for resource " ++ quoted rule.resource ++ " has the same name as action rule #"
        ++ toString idx) " defined at ")
    0 ∅ rule.actions

/-- `validatePrincipalPolicy`. -/
def validatePrincipalPolicy (pp : Source.PrincipalModule) : List ValidationError :=
  checkNames (fun rule => some rule.resource) (fun _ _ => []) (validateActions sc)
    (fun i idx rule => sc.clashAt (principalPolicyRuleProtoPath i)
      (principalPolicyRuleProtoPath (idx - 1))
      ("duplicate resource " ++ quoted rule.resource ++ " at rule #" ++ toString (i + 1)
        ++ ": previous definition in rule #" ++ toString idx) " at ")
    0 ∅ pp.rules

/-- `validateRolePolicy`: a missing version is only logged. -/
def validateRolePolicy (_ : Source.RoleModule) : List ValidationError := []

/-- `validateDerivedRoles`. -/
def validateDerivedRoles (dr : Source.DerivedRolesModule) : List ValidationError :=
  checkNames (fun rd => some rd.name) (fun _ _ => []) (fun _ _ => [])
    (fun i idx rd => sc.clashAt (derivedRoleRuleProtoPath i) (derivedRoleRuleProtoPath (idx - 1))
      ("duplicate derived role definition " ++ quoted rd.name ++ ": definition #"
        ++ toString (i + 1) ++ " has the same name as definition #" ++ toString idx) " at ")
    0 ∅ dr.definitions

/-- The check that `validateExportConstants` and `validateExportVariables` share. -/
def validateExports (exported : String) (p : Source.Policy) : List ValidationError :=
  if p.deprecatedVariables.isEmpty then []
  else [sc.errorAt "variables" ("export " ++ exported
    ++ " policies do not support the deprecated top-level variables field")]

/-- `Validate`. -/
def validate (p : Source.Policy) : List ValidationError :=
  match p.policyType with
  | .resourcePolicy rp => validateResourcePolicy sc rp
  | .principalPolicy pp => validatePrincipalPolicy sc pp
  | .rolePolicy rp => validateRolePolicy rp
  | .derivedRoles dr => validateDerivedRoles sc dr
  | .exportConstants _ _ => validateExports sc "constants" p
  | .exportVariables _ _ => validateExports sc "variables" p

variable {sc}

/-- The names that a list of items is given. -/
def givenNames {α : Type} (name : α → String) (as : List α) : List String :=
  as.filterMap (fun a => givenName (name a))

/-- **A resource policy is accepted exactly if every rule has a role and the names that its
rules are given are distinct.** -/
theorem validateResourcePolicy_eq_nil {rp : Source.ResourceModule} :
    validateResourcePolicy sc rp = [] ↔
      (∀ rule ∈ rp.rules, rule.roles ≠ [] ∨ rule.derivedRoles ≠ []) ∧
      (givenNames (·.name) rp.rules).Nodup := by
  unfold validateResourcePolicy
  rw [checkNames_eq_nil]
  have hroles : ∀ i (rule : Source.ResourceRule String), rolesErrors sc i rule = [] ↔
      rule.roles ≠ [] ∨ rule.derivedRoles ≠ [] := by
    intro i rule
    unfold rolesErrors
    cases hr : rule.roles <;> cases hd : rule.derivedRoles <;> simp
  simp only [hroles, and_true, notMem_empty, not_false_eq_true, implies_true]
  refine and_congr ⟨fun h rule hrule => ?_, fun h k rule hk => h rule (mem_of_getElem? hk)⟩
    Iff.rfl
  obtain ⟨k, hk⟩ := mem_iff_getElem?.mp hrule
  exact h k rule hk

/-- **A principal policy is accepted exactly if it has one rule for each resource and the
names that the actions of a rule are given are distinct.** -/
theorem validatePrincipalPolicy_eq_nil {pp : Source.PrincipalModule} :
    validatePrincipalPolicy sc pp = [] ↔ (pp.rules.map (·.resource)).Nodup ∧
      ∀ rule ∈ pp.rules, (givenNames (·.name) rule.actions).Nodup := by
  have haction : ∀ i (rule : Source.PrincipalRule), validateActions sc i rule = [] ↔
      (givenNames (·.name) rule.actions).Nodup := by
    intro i rule
    unfold validateActions
    rw [checkNames_eq_nil]
    simp [givenNames]
  unfold validatePrincipalPolicy
  rw [checkNames_eq_nil]
  simp only [haction, true_and, notMem_empty, not_false_eq_true, implies_true, and_true,
    filterMap_eq_map']
  refine and_comm.trans (and_congr Iff.rfl
    ⟨fun h rule hrule => ?_, fun h k rule hk => h rule (mem_of_getElem? hk)⟩)
  obtain ⟨k, hk⟩ := mem_iff_getElem?.mp hrule
  exact h k rule hk

end Types

end AccessManagement
