/-
  AccessManagement.Plan.Promise — FOR WHICH RESOURCES A PLAN IS TRUE.

  The plan is a tree of nodes, and its shape depends on which nodes are recognised as constants.
  This file says at which resources it is true without building it (`denote_plan`): from the rules
  that are satisfied at the resource, and from what is KNOWN about a rule when planning, that it
  applies to every resource or to none.

  One role at a time (`roleView`):

    * the scopes are VISITED up to the first that overrides its parent, if its ALLOW rules are all
      known to apply (`visitedScopes`);
    * the ALLOWs of the scopes are joined, by AND after a scope that requires consent, else by OR,
      and nothing is left if the last one still waits for consent (`joinedAllow`);
    * a DENY counts as CONSTANT if all DENY rules are known to apply and no more specific scope can
      override one of them (`deniesOutright`).
-/
import AccessManagement.Plan.Meaning

namespace AccessManagement

open Lib NodeAlgebra List CheckEnv

/-! ## §1. What the planner makes of a chain of scopes. -/

section Chain

variable (permissions : String → ScopePermissions) (consult : String → List BindingHandle)
  (known : String → BindingHandle → Option Bool) (sat : BindingHandle → Bool)

/-- A scope has an ALLOW rule and overrides its parent. -/
def overridesAllow (scope : String) : Bool :=
  hasAllowRule consult scope && decide (permissions scope = .overrideParent)

/-- All ALLOW rules of a scope are known to apply. -/
def allowsOutright (scope : String) : Bool :=
  (consult scope).all (fun b => !decide (b.core.effect = .allow) || known scope b == some true)

/-- The scopes that are visited; `overridden` tells whether an overriding scope came before. -/
def visitedScopes (overridden : Bool) : List String → List String
  | [] => []
  | scope :: scopes =>
    scope :: if !overridden && overridesAllow permissions consult scope &&
        allowsOutright consult known scope then []
      else visitedScopes (overridden || overridesAllow permissions consult scope) scopes

/-- A scope has a DENY rule that is not known to be idle. -/
def hasDenyRule (fromRolePolicy : Bool) (scope : String) : Bool :=
  (consult scope).any (mayDeny known fromRolePolicy scope)

/-- All DENY rules are known to apply, and none of them can be overridden. -/
def deniesOutright (fromRolePolicy : Bool) (overridden : Bool) : List String → Bool
  | [] => true
  | scope :: scopes =>
    (!hasDenyRule consult known fromRolePolicy scope || (!overridden &&
      (consult scope).all (fun b => !mayDeny known fromRolePolicy scope b ||
        known scope b == some true))) &&
    deniesOutright fromRolePolicy (overridden || overridesAllow permissions consult scope) scopes

/-- The ALLOW of one more scope: AND if the ALLOW so far is pending, else OR. -/
def joinAllowed (allowed : Option Bool) (pending scopeAllowed : Bool) : Bool :=
  match allowed with
  | none => scopeAllowed
  | some allowed => if pending then allowed && scopeAllowed else allowed || scopeAllowed

/-- The ALLOW that is left of a chain, if any, and whether it is true. -/
def joinedAllow (allowed : Option Bool) (pending : Bool) : List String → Option Bool
  | [] => if pending then none else allowed
  | scope :: scopes =>
    if hasAllowRule consult scope then
      joinedAllow (some (joinAllowed allowed pending (anySatisfied sat .allow (consult scope))))
        (decide (permissions scope = .requireParentalConsentForAllows)) scopes
    else joinedAllow allowed pending scopes

variable {permissions consult known sat}

theorem visitedScopes_subset (overridden : Bool) (scopes : List String) :
    visitedScopes permissions consult known overridden scopes ⊆ scopes := by
  induction scopes generalizing overridden with
  | nil => exact List.Subset.refl []
  | cons scope scopes ih =>
    unfold visitedScopes
    split
    · exact cons_subset_cons scope (nil_subset scopes)
    · exact cons_subset_cons scope (ih _)

theorem of_joinAllowed {allowed : Option Bool} {pending scopeAllowed : Bool}
    (h : joinAllowed allowed pending scopeAllowed = true) :
    (pending = false ∧ allowed = some true) ∨ scopeAllowed = true := by
  cases allowed with
  | none => exact Or.inr h
  | some allowed => cases pending <;> simp_all [joinAllowed]

/-- **An ALLOW that is true comes from a scope that grants**: of the scopes of the chain, or one
before it. -/
theorem granted_of_joinedAllow {scopes : List String} {allowed : Option Bool} {pending : Bool}
    {granted : Prop}
    (hperm : ∀ scope ∈ scopes, hasAllowRule consult scope = true → permissions scope ≠ .unspecified)
    (hbefore : pending = false → allowed = some true → granted)
    (h : joinedAllow permissions consult sat allowed pending scopes = some true) :
    granted ∨ ∃ scope ∈ scopes, grantedAt permissions consult sat scope = true := by
  induction scopes generalizing allowed pending granted with
  | nil =>
    unfold joinedAllow at h
    cases pending with
    | true => exact nomatch h
    | false => exact Or.inl (hbefore rfl h)
  | cons scope scopes ih =>
    rw [forall_mem_cons] at hperm
    unfold joinedAllow at h
    cases hrule : hasAllowRule consult scope with
    | false =>
      rw [hrule] at h
      exact (ih hperm.2 hbefore h).imp_right
        (fun ⟨scope', hmem, hg⟩ => ⟨scope', mem_cons_of_mem scope hmem, hg⟩)
    | true =>
      rw [hrule, if_pos rfl] at h
      have hnext : decide (permissions scope = .requireParentalConsentForAllows) = false →
          some (joinAllowed allowed pending (anySatisfied sat .allow (consult scope))) = some true →
          granted ∨ grantedAt permissions consult sat scope = true := by
        intro hconsent hall
        -- neither unspecified nor consenting: the scope overrides its parent
        have hover : permissions scope = .overrideParent := by
          have hne := hperm.1 hrule
          cases hp : permissions scope <;> simp [hp] at hconsent hne ⊢
        rcases of_joinAllowed (Option.some.inj hall) with ⟨hp, ha⟩ | hscope
        · exact Or.inl (hbefore hp ha)
        · exact Or.inr (by simp [grantedAt, hover, hscope])
      rcases ih hperm.2 hnext h with (hg | hg) | ⟨scope', hmem, hg⟩
      · exact Or.inl hg
      · exact Or.inr ⟨scope, mem_cons_self, hg⟩
      · exact Or.inr ⟨scope', mem_cons_of_mem scope hmem, hg⟩

end Chain

/-! ## §2. The rounds of the scopes loop. -/

variable {V N R : Type} {A : NodeAlgebra N R}

/-- No rule has a node that is the NOT of a constant: `EvaluateCondition` folds those. -/
def PlanConditions.Folded (conds : PlanConditions A) : Prop :=
  ∀ kind scope b, A.Folded (conds.bindingNode kind scope b)

section Rounds

variable (env : CheckEnv V) (conds : PlanConditions A) (input : CheckInput) (kind : Kind)
  (action role : String)

theorem map_denote_joinAllow (A : NodeAlgebra N R) (roleAllow : Option N) (pending : Bool) (a : N)
    (r : R) : (joinAllow A roleAllow pending a).map (A.denote · r) =
      some (joinAllowed (roleAllow.map (A.denote · r)) pending (A.denote a r)) := by
  unfold joinAllow joinAllowed
  cases roleAllow with
  | none => rfl
  | some c =>
    obtain ⟨m, hm, hd⟩ := A.mkOrNode_spec c [a]
    obtain ⟨m', hm', hd'⟩ := A.mkAndNode_spec c [a]
    cases pending <;> simp [hm, hm', hd, hd']

/-- One round of the scopes loop. -/
def joinRound (s : RoleNodes N) (scope : String) : RoleNodes N :=
  joinScope A (env.table.getScopeScopePermissions scope)
    (conds.scopeNodes kind scope (env.bindingsFor input kind action role scope)) s

variable {env conds input kind action role} (s : RoleNodes N) (scope : String)

theorem isSome_joinRound :
    (joinRound env conds input kind action role s scope).childOverrideAllow.isSome =
      (s.childOverrideAllow.isSome || overridesAllow env.table.getScopeScopePermissions
        (env.bindingsFor input kind action role) scope) := by
  have hnone := conds.scopeNodes_allow_eq_none kind (env.bindingsFor input kind action role) scope
  unfold joinRound overridesAllow
  rw [joinScope_childOverrideAllow]
  split <;> rename_i hover
  · rw [← Bool.not_inj_iff, Bool.eq_iff_iff]
    simp [hnone, hover]
  · simp [hover]

theorem unconditional_scopeNodes_allow (hlit : A.Literal) {scope : String} : A.Unconditional
      (conds.scopeNodes kind scope (env.bindingsFor input kind action role scope)).allow ↔
    allowsOutright (env.bindingsFor input kind action role) (conds.known kind) scope = true := by
  rw [conds.scopeNodes_allow, hlit.unconditional_collect]
  simp [allowsOutright, PlanConditions.known, or_iff_not_imp_left]

/-- When the overriding ALLOW becomes a constant: with the first overriding scope, or never. -/
theorem isConstTrue_joinRound (hlit : A.Literal)
    (hs : A.isConstTrue s.childOverrideAllow = false) :
    A.isConstTrue (joinRound env conds input kind action role s scope).childOverrideAllow =
      (!s.childOverrideAllow.isSome && overridesAllow env.table.getScopeScopePermissions
        (env.bindingsFor input kind action role) scope &&
        allowsOutright (env.bindingsFor input kind action role) (conds.known kind) scope) := by
  have hnone := conds.scopeNodes_allow_eq_none kind (env.bindingsFor input kind action role) scope
  unfold joinRound overridesAllow
  rw [joinScope_childOverrideAllow]
  split <;> rename_i hover
  · rw [Bool.eq_iff_iff, A.isConstTrue_iff, hlit.unconditional_addNode,
      unconditional_scopeNodes_allow hlit, ne_eq,
      A.addNode_eq_none, hnone]
    cases hc : s.childOverrideAllow with
    | none => simp [hover]
    | some c =>
      -- the ALLOW so far is there and not a constant
      rw [hc, ← Bool.not_eq_true, A.isConstTrue_iff] at hs
      simp_all
  · simp [hover, hs]

theorem folded_joinRound (hlit : A.Literal) (hfold : conds.Folded)
    (hs : ∀ n ∈ s.childOverrideAllow, A.Folded n) :
    ∀ n ∈ (joinRound env conds input kind action role s scope).childOverrideAllow, A.Folded n := by
  unfold joinRound
  rw [joinScope_childOverrideAllow]
  split
  · refine hlit.folded_addNode hs ?_
    rw [conds.scopeNodes_allow]
    exact hlit.folded_collect (fun b => hfold kind scope b) _ none (fun _ h => nomatch h)
  · exact hs

/-- **The loop runs over the scopes that are visited**, without exception. -/
theorem planScopes_eq_foldl (hlit : A.Literal) (scopes : List String) (s : RoleNodes N)
    (hs : A.isConstTrue s.childOverrideAllow = false) :
    planScopes env conds input kind action role scopes s =
      (visitedScopes env.table.getScopeScopePermissions (env.bindingsFor input kind action role)
        (conds.known kind) s.childOverrideAllow.isSome scopes).foldl
        (joinRound env conds input kind action role) s := by
  induction scopes generalizing s with
  | nil => rfl
  | cons scope scopes ih =>
    unfold planScopes visitedScopes
    rw [hs, if_neg Bool.false_ne_true, foldl_cons, ← isConstTrue_joinRound s scope hlit hs,
      ← isSome_joinRound]
    cases hc : A.isConstTrue
        (joinRound env conds input kind action role s scope).childOverrideAllow with
    | false =>
      rw [if_neg Bool.false_ne_true]
      exact ih _ hc
    | true =>
      rw [if_pos rfl]
      show planScopes env conds input kind action role scopes
        (joinRound env conds input kind action role s scope) = _
      cases scopes with
      | nil => rfl
      | cons => unfold planScopes; rw [if_pos hc]; rfl

variable (scopes : List String)

/-- What is left of the ALLOWs. -/
theorem foldl_consentedAllow (r : R) (hs : s.pendingAllow = true → s.allow ≠ none) :
    (scopes.foldl (joinRound env conds input kind action role) s).consentedAllow.map (A.denote · r) =
      joinedAllow env.table.getScopeScopePermissions (env.bindingsFor input kind action role)
        (conds.sat r) (s.allow.map (A.denote · r)) s.pendingAllow scopes := by
  induction scopes generalizing s with
  | nil =>
    unfold joinedAllow RoleNodes.consentedAllow
    cases hp : s.pendingAllow <;> simp [hp]
  | cons scope scopes ih =>
    have hnone := conds.scopeNodes_allow_eq_none kind (env.bindingsFor input kind action role) scope
    rw [foldl_cons]
    unfold joinedAllow
    cases h : (conds.scopeNodes kind scope (env.bindingsFor input kind action role scope)).allow with
    | none =>
      obtain ⟨ha, hp⟩ := joinScope_of_no_allow A (env.table.getScopeScopePermissions scope) s h
      rw [hnone.mp h, if_neg Bool.false_ne_true, ih _ (by unfold joinRound; rw [ha, hp]; exact hs)]
      unfold joinRound
      rw [ha, hp]
    | some a =>
      obtain ⟨ha, hp⟩ := joinScope_of_allow A (env.table.getScopeScopePermissions scope) s h
      have hrule : hasAllowRule (env.bindingsFor input kind action role) scope = true := by
        rw [← Bool.not_eq_false, ← hnone, h]
        exact Option.some_ne_none a
      have hv := conds.value_scopeNodes_allow r kind scope (env.bindingsFor input kind action role)
      rw [h, value_some] at hv
      have hjoined : (joinRound env conds input kind action role s scope).allow.map (A.denote · r) =
          some (joinAllowed (s.allow.map (A.denote · r)) s.pendingAllow
            (anySatisfied (conds.sat r) .allow (env.bindingsFor input kind action role scope))) := by
        unfold joinRound
        rw [ha, ← hv]
        exact map_denote_joinAllow A s.allow s.pendingAllow a r
      have hpending : (joinRound env conds input kind action role s scope).pendingAllow =
          decide (env.table.getScopeScopePermissions scope = .requireParentalConsentForAllows) := by
        unfold joinRound
        rw [hp]
        cases hp : s.pendingAllow with
        | false => simp
        | true => simp [hs hp]
      rw [hrule, if_pos rfl, ih _ ?_, hjoined, hpending]
      intro _ hn
      rw [hn] at hjoined
      exact nomatch hjoined

/-- When there is a DENY node. -/
theorem foldl_denyOf_eq_none (fromRolePolicy : Bool) :
    (scopes.foldl (joinRound env conds input kind action role) s).denyOf fromRolePolicy = none ↔
      s.denyOf fromRolePolicy = none ∧ scopes.any (hasDenyRule
        (env.bindingsFor input kind action role) (conds.known kind) fromRolePolicy) = false := by
  induction scopes generalizing s with
  | nil => simp
  | cons scope scopes ih =>
    rw [foldl_cons, ih, any_cons, Bool.or_eq_false_iff, ← and_assoc]
    refine and_congr_left' ?_
    unfold joinRound
    rw [joinScope_denyOf, A.addNode_eq_none, gateByChildOverrideAllow_eq_none,
      conds.scopeNodes_denyOf, A.collect_eq_none, and_iff_right rfl]
    rfl

/-- When the ALLOW node is a constant, if it is there. -/
theorem unconditional_foldl_allow (hlit : A.Literal) :
    A.Unconditional (scopes.foldl (joinRound env conds input kind action role) s).allow ↔
      A.Unconditional s.allow ∧ scopes.all (allowsOutright
        (env.bindingsFor input kind action role) (conds.known kind)) = true := by
  induction scopes generalizing s with
  | nil => simp
  | cons scope scopes ih =>
    rw [foldl_cons, ih, all_cons, Bool.and_eq_true, ← and_assoc]
    refine and_congr_left' ?_
    rw [← unconditional_scopeNodes_allow hlit]
    unfold joinRound
    cases h : (conds.scopeNodes kind scope (env.bindingsFor input kind action role scope)).allow with
    | none => rw [(joinScope_of_no_allow A _ s h).1]; simp
    | some a =>
      rw [(joinScope_of_allow A _ s h).1]
      unfold joinAllow
      cases s.allow with
      | none => simp
      | some c =>
        cases s.pendingAllow <;> simp [hlit.unconditional_mkOrNode, hlit.unconditional_mkAndNode]

/-- When a DENY node is a constant, if it is there. -/
theorem unconditional_foldl_denyOf (hlit : A.Literal) (hfold : conds.Folded) (fromRolePolicy : Bool)
    (hs : ∀ n ∈ s.childOverrideAllow, A.Folded n) :
    A.Unconditional ((scopes.foldl (joinRound env conds input kind action role) s).denyOf
        fromRolePolicy) ↔
      A.Unconditional (s.denyOf fromRolePolicy) ∧
        deniesOutright env.table.getScopeScopePermissions (env.bindingsFor input kind action role)
          (conds.known kind) fromRolePolicy s.childOverrideAllow.isSome scopes = true := by
  induction scopes generalizing s with
  | nil => simp [deniesOutright]
  | cons scope scopes ih =>
    have hdeny : A.Unconditional ((conds.scopeNodes kind scope
        (env.bindingsFor input kind action role scope)).denyOf fromRolePolicy) ↔
        (env.bindingsFor input kind action role scope).all (fun b =>
          !mayDeny (conds.known kind) fromRolePolicy scope b ||
            conds.known kind scope b == some true) = true := by
      rw [conds.scopeNodes_denyOf, hlit.unconditional_collect]
      simp [PlanConditions.known, or_iff_not_imp_left]
    have hnone : (conds.scopeNodes kind scope
        (env.bindingsFor input kind action role scope)).denyOf fromRolePolicy = none ↔
        hasDenyRule (env.bindingsFor input kind action role) (conds.known kind) fromRolePolicy
          scope = false := by
      rw [conds.scopeNodes_denyOf, A.collect_eq_none, and_iff_right rfl]
      rfl
    rw [foldl_cons, deniesOutright, Bool.and_eq_true, ← and_assoc,
      ih _ (folded_joinRound s scope hlit hfold hs), isSome_joinRound]
    refine and_congr_left' ?_
    unfold joinRound
    rw [joinScope_denyOf, hlit.unconditional_addNode,
      unconditional_gateByChildOverrideAllow A hlit hs, hdeny, hnone]
    refine and_congr_right' ?_
    cases s.childOverrideAllow <;> simp

end Rounds

/-! ## §3. One role. -/

/-- What the planner makes of one role, as seen at a resource. -/
structure RoleView where
  /-- The ALLOW that is left, if any, and whether it is true. -/
  allow : Option Bool
  /-- A DENY is reached. -/
  denied : Bool
  /-- A DENY of a role policy is reached. -/
  deniedByRolePolicy : Bool
  /-- There is a DENY rule that is not known to be idle. -/
  mayBeDenied : Bool
  /-- A DENY is a constant. -/
  deniedOutright : Bool
  /-- The ALLOW is a constant, and there is no DENY. -/
  allowedOutright : Bool

section Role

variable (env : CheckEnv V) (conds : PlanConditions A) (input : CheckInput) (kind : Kind)
  (action : String) (r : R) (role : String)

/-- The scopes that are visited for a role. -/
def roleVisited : List String :=
  visitedScopes env.table.getScopeScopePermissions (env.bindingsFor input kind action role)
    (conds.known kind) false (env.scopesFor input kind)

/-- One of the two kinds of DENY is there and a constant. -/
def constantDeny (fromRolePolicy : Bool) : Bool :=
  (roleVisited env conds input kind action role).any (hasDenyRule
    (env.bindingsFor input kind action role) (conds.known kind) fromRolePolicy) &&
  deniesOutright env.table.getScopeScopePermissions (env.bindingsFor input kind action role)
    (conds.known kind) fromRolePolicy false (roleVisited env conds input kind action role)

def roleView : RoleView :=
  let consult := env.bindingsFor input kind action role
  let scopes := roleVisited env conds input kind action role
  let allow := joinedAllow env.table.getScopeScopePermissions consult (conds.sat r) none false scopes
  { allow := allow
    denied := env.roleDenied input kind action role (conds.sat r) false
    deniedByRolePolicy := env.roleDenied input kind action role (conds.sat r) true
    mayBeDenied := scopes.any (hasDenyRule consult (conds.known kind) false)
    deniedOutright := constantDeny env conds input kind action role false ||
      constantDeny env conds input kind action role true
    allowedOutright := !scopes.any (hasDenyRule consult (conds.known kind) false) &&
      !scopes.any (hasDenyRule consult (conds.known kind) true) && allow.isSome &&
      scopes.all (allowsOutright consult (conds.known kind)) }

variable {env conds input kind action r role} (hlit : A.Literal)

include hlit

theorem roleNodes_eq_foldl : roleNodes env conds input kind action role =
    (roleVisited env conds input kind action role).foldl
      (joinRound env conds input kind action role) {} :=
  planScopes_eq_foldl hlit _ {} rfl

theorem roleNodes_allow :
    (roleNodes env conds input kind action role).consentedAllow.map (A.denote · r) =
      (roleView env conds input kind action r role).allow := by
  rw [roleNodes_eq_foldl hlit]
  exact foldl_consentedAllow {} _ r (fun h => nomatch h)

theorem roleNodes_allow_eq_none :
    (roleNodes env conds input kind action role).consentedAllow = none ↔
      (roleView env conds input kind action r role).allow = none := by
  rw [← roleNodes_allow hlit, Option.map_eq_none_iff]

theorem value_roleNodes_allow :
    A.value (roleNodes env conds input kind action role).consentedAllow r =
      ((roleView env conds input kind action r role).allow == some true) := by
  rw [← roleNodes_allow hlit]
  cases (roleNodes env conds input kind action role).consentedAllow <;> simp

theorem roleNodes_denyOf_eq_none (fromRolePolicy : Bool) :
    (roleNodes env conds input kind action role).denyOf fromRolePolicy = none ↔
      (roleVisited env conds input kind action role).any (hasDenyRule
        (env.bindingsFor input kind action role) (conds.known kind) fromRolePolicy) = false := by
  rw [roleNodes_eq_foldl hlit, foldl_denyOf_eq_none, and_iff_right]
  cases fromRolePolicy <;> rfl

theorem isConstTrue_roleNodes_denyOf (hfold : conds.Folded) (fromRolePolicy : Bool) :
    A.isConstTrue ((roleNodes env conds input kind action role).denyOf fromRolePolicy) =
      constantDeny env conds input kind action role fromRolePolicy := by
  rw [Bool.eq_iff_iff, A.isConstTrue_iff, ne_eq, roleNodes_denyOf_eq_none hlit, Bool.not_eq_false,
    roleNodes_eq_foldl hlit, unconditional_foldl_denyOf {} _ hlit hfold _ (fun _ h => nomatch h)]
  unfold constantDeny
  cases fromRolePolicy <;> simp [RoleNodes.denyOf]

theorem isConstTrue_roleNodes_allow :
    A.isConstTrue (roleNodes env conds input kind action role).consentedAllow =
      ((roleView env conds input kind action r role).allow.isSome &&
        (roleVisited env conds input kind action role).all (allowsOutright
          (env.bindingsFor input kind action role) (conds.known kind))) := by
  rw [Bool.eq_iff_iff, A.isConstTrue_iff, Bool.and_eq_true, Option.isSome_iff_ne_none, ne_eq, ne_eq,
    ← roleNodes_allow_eq_none hlit]
  refine and_congr_right (fun hne => ?_)
  -- an ALLOW that is there is not pending
  have hallow : (roleNodes env conds input kind action role).consentedAllow =
      (roleNodes env conds input kind action role).allow := by
    unfold RoleNodes.consentedAllow at hne ⊢
    cases hp : (roleNodes env conds input kind action role).pendingAllow with
    | true => rw [hp] at hne; exact absurd rfl hne
    | false => rfl
  rw [hallow, roleNodes_eq_foldl hlit, unconditional_foldl_allow {} _ hlit,
    and_iff_right A.unconditional_none]

/-- **The end of a role**, in terms of its view. -/
theorem finishRole_roleNodes (hfold : conds.Folded) :
    finishRole A kind (roleNodes env conds input kind action role) =
      if (roleView env conds input kind action r role).deniedOutright then
        if kind = .principal then
          .next (finishRole.restrict A (roleNodes env conds input kind action role).consentedAllow
            ((roleNodes env conds input kind action role).denyOf true))
            ((roleNodes env conds input kind action role).denyOf false)
        else .next (some (A.constant false)) none
      else if (roleView env conds input kind action r role).allowedOutright then
        .allowed (roleNodes env conds input kind action role).consentedAllow
      else
        .next (finishRole.restrict A (roleNodes env conds input kind action role).consentedAllow
          ((roleNodes env conds input kind action role).denyOf true))
          ((roleNodes env conds input kind action role).denyOf false) := by
  have hdenied : (roleView env conds input kind action r role).deniedOutright =
      (A.isConstTrue (roleNodes env conds input kind action role).deny ||
        A.isConstTrue (roleNodes env conds input kind action role).denyRolePolicy) :=
    congrArg₂ or (isConstTrue_roleNodes_denyOf hlit hfold false).symm
      (isConstTrue_roleNodes_denyOf hlit hfold true).symm
  have hnone : ∀ fromRolePolicy,
      (!(roleVisited env conds input kind action role).any (hasDenyRule
        (env.bindingsFor input kind action role) (conds.known kind) fromRolePolicy)) =
      ((roleNodes env conds input kind action role).denyOf fromRolePolicy).isNone := by
    intro fromRolePolicy
    rw [Bool.eq_iff_iff, Bool.not_eq_true', Option.isNone_iff_eq_none,
      roleNodes_denyOf_eq_none hlit]
  have hallowed : (roleView env conds input kind action r role).allowedOutright =
      ((roleNodes env conds input kind action role).deny.isNone &&
        (roleNodes env conds input kind action role).denyRolePolicy.isNone &&
        A.isConstTrue (roleNodes env conds input kind action role).consentedAllow) := by
    rw [isConstTrue_roleNodes_allow hlit (r := r), ← Bool.and_assoc]
    exact congrArg₂ and (congrArg₂ and (congrArg₂ and (hnone false) (hnone true)) rfl) rfl
  rw [hdenied, hallowed, finishRole_eq]
  rfl

end Role

/-! ## §4. The roles of a policy kind. -/

section Kinds

variable {env : CheckEnv V} {conds : PlanConditions A} {input : CheckInput} {action : String} {r : R}

/-- The ALLOW of a role is true and not taken back. -/
def RoleView.promises (v : RoleView) : Bool :=
  !v.deniedOutright && v.allow == some true && !v.deniedByRolePolicy

/-- The role adds to the DENYs that are pooled. -/
def RoleView.pooled (v : RoleView) : Bool := !v.deniedOutright && v.denied

/-- Without DENY rules there is no constant DENY. -/
theorem deniedOutright_of_allowedOutright {kind : Kind} {role : String}
    (h : (roleView env conds input kind action r role).allowedOutright = true) :
    (roleView env conds input kind action r role).deniedOutright = false := by
  unfold roleView constantDeny at *
  simp only [Bool.and_eq_true, Bool.not_eq_true'] at h
  simp [h]

variable (hlit : A.Literal) (hfold : conds.Folded)

include hlit

/-- A role that is allowed outright is allowed at every resource. -/
theorem allow_of_allowedOutright {kind : Kind} {role : String}
    (h : (roleView env conds input kind action r role).allowedOutright = true) :
    (roleView env conds input kind action r role).allow = some true ∧
    (roleView env conds input kind action r role).denied = false ∧
    (roleView env conds input kind action r role).deniedByRolePolicy = false := by
  unfold roleView at h
  simp only [Bool.and_eq_true, Bool.not_eq_true'] at h
  have hconst : A.isConstTrue (roleNodes env conds input kind action role).consentedAllow = true := by
    rw [isConstTrue_roleNodes_allow hlit (r := r), Bool.and_eq_true]
    exact ⟨h.1.2, h.2⟩
  have hdeny : ∀ fromRolePolicy,
      (roleVisited env conds input kind action role).any (hasDenyRule
        (env.bindingsFor input kind action role) (conds.known kind) fromRolePolicy) = false →
      env.roleDenied input kind action role (conds.sat r) fromRolePolicy = false := by
    intro fromRolePolicy hno
    rw [← value_roleNodes_denyOf, (roleNodes_denyOf_eq_none hlit fromRolePolicy).mpr hno]
    rfl
  have hallow := A.value_of_isConstTrue hconst r
  rw [value_roleNodes_allow hlit, beq_iff_eq] at hallow
  exact ⟨hallow, hdeny false h.1.1.1, hdeny true h.1.1.2⟩

include hfold

/-- One round of the roles loop for resource policies. -/
theorem planRoles_cons (role : String) (roles : List String) (k : KindNodes N) (r : R) :
    planRoles env conds input .resource action (role :: roles) k =
      if (roleView env conds input .resource action r role).deniedOutright then
        planRoles env conds input .resource action roles
          { k with allow := addNode k.allow (some (A.constant false)) A.mkOrNode }
      else if (roleView env conds input .resource action r role).allowedOutright then
        { allow := (roleNodes env conds input .resource action role).consentedAllow, deny := none }
      else
        planRoles env conds input .resource action roles
          { allow := addNode k.allow (finishRole.restrict A
              (roleNodes env conds input .resource action role).consentedAllow
              ((roleNodes env conds input .resource action role).denyOf true)) A.mkOrNode
            deny := addNode k.deny ((roleNodes env conds input .resource action role).denyOf false)
              A.mkOrNode } := by
  have hend : finishRole A .resource (planScopes env conds input .resource action role
      (env.scopesFor input .resource) {}) = _ := finishRole_roleNodes (r := r) hlit hfold
  rw [planRoles, hend]
  cases (roleView env conds input .resource action r role).deniedOutright with
  | true => simp
  | false => cases (roleView env conds input .resource action r role).allowedOutright <;> simp

/-- A role that is allowed outright ends the loop, and all pooled DENYs are dropped. -/
theorem planRoles_of_allowedOutright (roles : List String) (k : KindNodes N)
    (h : roles.any (fun role =>
      (roleView env conds input .resource action r role).allowedOutright) = true) :
    A.value (planRoles env conds input .resource action roles k).allow r = true ∧
      (planRoles env conds input .resource action roles k).deny = none := by
  induction roles generalizing k with
  | nil => exact nomatch h
  | cons role roles ih =>
    rw [any_cons, Bool.or_eq_true] at h
    rw [planRoles_cons hlit hfold role roles k r]
    cases hend : (roleView env conds input .resource action r role).allowedOutright with
    | true =>
      rw [deniedOutright_of_allowedOutright hend, if_neg Bool.false_ne_true, if_pos rfl]
      refine ⟨?_, rfl⟩
      rw [value_roleNodes_allow hlit, (allow_of_allowedOutright hlit hend).1]
      rfl
    | false =>
      rw [hend] at h
      have hrest := h.resolve_left Bool.false_ne_true
      rw [if_neg Bool.false_ne_true]
      split
      · exact ih _ hrest
      · exact ih _ hrest

/-- Otherwise the ALLOWs and the DENYs of all roles are added up, except that a constant DENY stays
with its role. -/
theorem planRoles_of_not_allowedOutright (roles : List String) (k : KindNodes N)
    (h : roles.any (fun role =>
      (roleView env conds input .resource action r role).allowedOutright) = false) :
    A.value (planRoles env conds input .resource action roles k).allow r = (A.value k.allow r ||
      roles.any (fun role => (roleView env conds input .resource action r role).promises)) ∧
    A.value (planRoles env conds input .resource action roles k).deny r = (A.value k.deny r ||
      roles.any (fun role => (roleView env conds input .resource action r role).pooled)) ∧
    ((planRoles env conds input .resource action roles k).allow = none ↔ k.allow = none ∧
      ∀ role ∈ roles, (roleView env conds input .resource action r role).deniedOutright = false ∧
        (roleView env conds input .resource action r role).allow = none) ∧
    ((planRoles env conds input .resource action roles k).deny = none ↔ k.deny = none ∧
      ∀ role ∈ roles, (roleView env conds input .resource action r role).deniedOutright = true ∨
        (roleView env conds input .resource action r role).mayBeDenied = false) := by
  induction roles generalizing k with
  | nil => simp [planRoles]
  | cons role roles ih =>
    rw [any_cons, Bool.or_eq_false_iff] at h
    rw [planRoles_cons hlit hfold role roles k r, h.1, if_neg Bool.false_ne_true]
    cases hconst : (roleView env conds input .resource action r role).deniedOutright with
    | true =>
      rw [if_pos rfl]
      obtain ⟨iha, ihd, ihan, ihdn⟩ := ih _ h.2
      rw [iha, ihd, ihan, ihdn]
      simp [RoleView.promises, RoleView.pooled, hconst, A.denote_constant]
    | false =>
      rw [if_neg Bool.false_ne_true]
      obtain ⟨iha, ihd, ihan, ihdn⟩ := ih _ h.2
      have hpromises : A.value (finishRole.restrict A
          (roleNodes env conds input .resource action role).consentedAllow
          ((roleNodes env conds input .resource action role).denyOf true)) r =
          (roleView env conds input .resource action r role).promises := by
        rw [value_restrict, value_roleNodes_allow hlit, value_roleNodes_denyOf, RoleView.promises,
          hconst]
        rfl
      have hpooled : A.value ((roleNodes env conds input .resource action role).denyOf false) r =
          (roleView env conds input .resource action r role).pooled := by
        rw [value_roleNodes_denyOf, RoleView.pooled, hconst]
        rfl
      have hdeny : (roleNodes env conds input .resource action role).denyOf false = none ↔
          (roleView env conds input .resource action r role).mayBeDenied = false :=
        roleNodes_denyOf_eq_none hlit false
      refine ⟨?_, ?_, ?_, ?_⟩
      · rw [iha, A.value_addNode, hpromises, any_cons, Bool.or_assoc]
      · rw [ihd, A.value_addNode, hpooled, any_cons, Bool.or_assoc]
      · rw [ihan, A.addNode_eq_none, restrict_eq_none, roleNodes_allow_eq_none hlit (r := r),
          forall_mem_cons, hconst, and_iff_right rfl, and_assoc]
      · rw [ihdn, A.addNode_eq_none, hdeny, forall_mem_cons, hconst,
          or_iff_right Bool.false_ne_true, and_assoc]

/-- The nodes of the principal policies for one role: its ALLOW and its DENY. -/
theorem planRoles_principal (role : String) :
    A.value (planRoles env conds input .principal action [role] {}).allow r =
      ((roleView env conds input .principal action r role).allow == some true) ∧
    A.value (planRoles env conds input .principal action [role] {}).deny r =
      (roleView env conds input .principal action r role).denied ∧
    ((planRoles env conds input .principal action [role] {}).allow = none ↔
      (roleView env conds input .principal action r role).allow = none) := by
  have hend : finishRole A .principal (planScopes env conds input .principal action role
      (env.scopesFor input .principal) {}) = _ := finishRole_roleNodes (r := r) hlit hfold
  have hdenied : A.value ((roleNodes env conds input .principal action role).denyOf false) r =
      (roleView env conds input .principal action r role).denied :=
    value_roleNodes_denyOf env conds input .principal action role false r
  have hrestrict : A.value (finishRole.restrict A
      (roleNodes env conds input .principal action role).consentedAllow
      ((roleNodes env conds input .principal action role).denyOf true)) r =
      ((roleView env conds input .principal action r role).allow == some true) := by
    rw [value_restrict, value_roleNodes_allow hlit, value_roleNodes_denyOf, roleDenied_principal]
    exact Bool.and_true _
  -- whatever the DENY is, it stays beside the ALLOW
  have hnext : A.value (finishRole.restrict A
        (roleNodes env conds input .principal action role).consentedAllow
        ((roleNodes env conds input .principal action role).denyOf true)) r =
        ((roleView env conds input .principal action r role).allow == some true) ∧
      A.value ((roleNodes env conds input .principal action role).denyOf false) r =
        (roleView env conds input .principal action r role).denied ∧
      (finishRole.restrict A (roleNodes env conds input .principal action role).consentedAllow
        ((roleNodes env conds input .principal action role).denyOf true) = none ↔
        (roleView env conds input .principal action r role).allow = none) :=
    ⟨hrestrict, hdenied, (restrict_eq_none A _ _).trans (roleNodes_allow_eq_none hlit)⟩
  rw [planRoles, hend, if_pos rfl]
  cases (roleView env conds input .principal action r role).deniedOutright with
  | true => simpa [planRoles] using hnext
  | false =>
    cases hout : (roleView env conds input .principal action r role).allowedOutright with
    | false => simpa [planRoles] using hnext
    | true =>
      exact ⟨value_roleNodes_allow hlit, (allow_of_allowedOutright hlit hout).2.1.symm,
        roleNodes_allow_eq_none hlit⟩

/-! ## §5. The plan. -/

variable (env conds input action r)

/-- The resource policies let a role through: it is allowed outright, or its ALLOW is true and no
DENY is pooled. -/
def rolePromised : Bool :=
  (rolesFor input .resource).any (fun role =>
    (roleView env conds input .resource action r role).allowedOutright) ||
  ((rolesFor input .resource).any (fun role =>
      (roleView env conds input .resource action r role).promises) &&
    !(rolesFor input .resource).any (fun role =>
      (roleView env conds input .resource action r role).pooled))

/-- The principal policies have an ALLOW, whatever it says of the resource, while the resource
policies have a DENY that is not reached at the resource, and no ALLOW. -/
def loneDeny : Bool :=
  (rolesFor input .principal).any (fun role =>
    (roleView env conds input .principal action r role).allow.isSome) &&
  (rolesFor input .resource).all (fun role =>
    (roleView env conds input .resource action r role).allow.isNone &&
      !(roleView env conds input .resource action r role).deniedOutright &&
      !(roleView env conds input .resource action r role).denied) &&
  (rolesFor input .resource).any (fun role =>
    (roleView env conds input .resource action r role).mayBeDenied)

/-- **What a plan promises**, from the policies and the resource. -/
def promised : Bool :=
  !(rolesFor input .principal).any (fun role =>
    (roleView env conds input .principal action r role).denied) &&
  ((rolesFor input .principal).any (fun role =>
      (roleView env conds input .principal action r role).allow == some true) ||
    rolePromised env conds input action r || loneDeny env conds input action r)

variable {env conds input action r}

theorem planKind_principal :
    A.value (planKind env conds input .principal action).allow r =
      (rolesFor input .principal).any (fun role =>
        (roleView env conds input .principal action r role).allow == some true) ∧
    A.value (planKind env conds input .principal action).deny r =
      (rolesFor input .principal).any (fun role =>
        (roleView env conds input .principal action r role).denied) ∧
    ((planKind env conds input .principal action).allow ≠ none ↔
      (rolesFor input .principal).any (fun role =>
        (roleView env conds input .principal action r role).allow.isSome) = true) := by
  unfold planKind rolesFor
  rw [if_pos rfl]
  cases input.principal.roles with
  | nil => simp [planRoles]
  | cons role =>
    rw [take_succ_cons, take_zero]
    obtain ⟨ha, hd, hn⟩ := @planRoles_principal V N R A env conds input action r hlit hfold role
    rw [ha, hd, ne_eq, hn]
    simp [Option.isSome_iff_ne_none]

/-- When resource policies allow, and when they have nothing but a DENY. -/
theorem planKind_resource :
    ((A.value (planKind env conds input .resource action).deny r = false ∧
      A.value (planKind env conds input .resource action).allow r = true) ↔
      rolePromised env conds input action r = true) ∧
    (((planKind env conds input .resource action).allow = none ∧
        (planKind env conds input .resource action).deny ≠ none ∧
        A.value (planKind env conds input .resource action).deny r = false) ↔
      (rolesFor input .resource).all (fun role =>
        (roleView env conds input .resource action r role).allow.isNone &&
          !(roleView env conds input .resource action r role).deniedOutright &&
          !(roleView env conds input .resource action r role).denied) = true ∧
      (rolesFor input .resource).any (fun role =>
        (roleView env conds input .resource action r role).mayBeDenied) = true) := by
  unfold planKind rolePromised
  cases hout : (rolesFor input .resource).any (fun role =>
      (roleView env conds input .resource action r role).allowedOutright) with
  | true =>
    obtain ⟨ha, hd⟩ := planRoles_of_allowedOutright hlit hfold _ {} hout
    refine ⟨by simp [ha, hd], ?_, ?_⟩
    · exact fun h => absurd hd h.2.1
    · -- the role that is allowed outright has an ALLOW
      intro h
      obtain ⟨role, hmem, hrole⟩ := any_eq_true.mp hout
      have hnone := all_eq_true.mp h.1 role hmem
      unfold roleView at hrole hnone
      simp only [Bool.and_eq_true, Option.isNone_iff_eq_none] at hrole hnone
      rw [hnone.1.1] at hrole
      exact nomatch hrole.1.2
  | false =>
    obtain ⟨ha, hd, han, hdn⟩ := planRoles_of_not_allowedOutright hlit hfold _ {} hout
    rw [ha, hd, han, ne_eq, hdn]
    refine ⟨by simp [and_comm], ?_, ?_⟩
    · rintro ⟨⟨-, hnone⟩, hdeny, hpooled⟩
      have hnot := any_eq_false.mp hpooled
      refine ⟨all_eq_true.mpr (fun role hmem => ?_), ?_⟩
      · have hrole := hnot role hmem
        rw [RoleView.pooled, (hnone role hmem).1] at hrole
        simpa [(hnone role hmem).1, (hnone role hmem).2] using hrole
      · by_contra hno
        rw [Bool.not_eq_true, any_eq_false] at hno
        exact hdeny ⟨rfl, fun role hmem => Or.inr (Bool.not_eq_true _ ▸ hno role hmem)⟩
    · rintro ⟨hall, hany⟩
      have hrole : ∀ role ∈ rolesFor input .resource,
          (roleView env conds input .resource action r role).allow = none ∧
          (roleView env conds input .resource action r role).deniedOutright = false ∧
          (roleView env conds input .resource action r role).denied = false := by
        intro role hmem
        simpa [and_assoc] using all_eq_true.mp hall role hmem
      refine ⟨⟨rfl, fun role hmem => ⟨(hrole role hmem).2.1, (hrole role hmem).1⟩⟩, ?_, ?_⟩
      · rintro ⟨-, hno⟩
        obtain ⟨role, hmem, hmay⟩ := any_eq_true.mp hany
        have hcases := hno role hmem
        simp [(hrole role hmem).2.1, hmay] at hcases
      · refine any_eq_false.mpr (fun role hmem => ?_)
        simp [RoleView.pooled, (hrole role hmem).2.2]

/-- **The plan is true exactly at the resources that are promised.** -/
theorem denote_plan : A.denote (plan env conds input action) r = promised env conds input action r := by
  obtain ⟨hpa, hpd, hpn⟩ := @planKind_principal V N R A env conds input action r hlit hfold
  obtain ⟨hra, hrn⟩ := @planKind_resource V N R A env conds input action r hlit hfold
  have hscopes : promised env conds input action r = true →
      ((env.scopesFor input .principal).isEmpty && (env.scopesFor input .resource).isEmpty) =
        false := by
    intro h
    by_contra hempty
    rw [Bool.not_eq_false, Bool.and_eq_true, List.isEmpty_iff, List.isEmpty_iff] at hempty
    simp [promised, rolePromised, loneDeny, roleView, roleVisited, RoleView.promises, hempty,
      visitedScopes, joinedAllow] at h
  rw [Bool.eq_iff_iff]
  refine (denote_plan_iff.trans (and_congr_right' ?_)).trans (and_iff_right_of_imp hscopes)
  unfold promised loneDeny
  rw [hpd, hpa, hra, hpn, hrn]
  simp only [Bool.and_eq_true, Bool.or_eq_true, Bool.not_eq_true', and_assoc, or_assoc]

end Kinds

end AccessManagement
