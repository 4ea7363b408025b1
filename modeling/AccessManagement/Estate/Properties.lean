/-
  AccessManagement.Estate.Properties — WHAT THE POLICIES OF THE ESTATE GUARANTEE.

  Each result is about every engine that runs the policies and every request: any principal,
  any list of roles, any attributes, present or missing and of whatever type.

    * `tenant_isolation` — ALLOW means that the tenants of principal and resource are equal;
    * `approval_of_highImpact` — the high-impact actions need a recorded approval;
    * `agent_denied_iff` — agents are denied what moves money out UNLESS another of their roles
      is allowed to do it: the DENY rules bind the agent role alone;
    * `large_move_approved_iff` — large price moves need an approval EXCEPT downwards: the band is
      `change_percent <= 15`, which every fall satisfies.
-/
import Mathlib.Tactic.NormNum
import AccessManagement.Estate.Engine

namespace AccessManagement.Estate

open Lib List Source.ResourceRule

variable {input : CheckInput}

/-! ## §1. What a rule needs in order to fire. -/

section Needs

variable {truth : Cel.Expr → Bool} {dr : Source.DerivedRoles Cel.Expr} {action role : String}
  {e : Cel.Expr}

/-- Does the rule only fire where the expression is true: is it a leaf of the rule's condition,
or of all the derived roles through which alone the rule can apply? -/
def needs (dr : Source.DerivedRoles Cel.Expr) (rule : Rule) (e : Cel.Expr) : Bool :=
  (Source.optLeaves rule.condition).contains e ||
    (rule.roles.isEmpty && rule.derivedRoles.all (fun name =>
      match dr.definition name with
      | none => true
      | some d => (Source.optLeaves d.condition).contains e))

theorem holds_of_contains {cond : Option (Source.Match Cel.Expr)}
    (hcond : Source.condHolds truth cond = true)
    (he : (Source.optLeaves cond).contains e = true) : truth e = true :=
  all_eq_true.mp hcond e (contains_iff_mem.mp he)

theorem holds_of_needs {rule : Rule}
    (hneeds : needs dr rule e = true) (hfires : rule.fires truth dr action role = true) :
    truth e = true := by
  unfold fires forRole at hfires
  rw [Bool.and_eq_true, Bool.and_eq_true, Bool.or_eq_true, any_eq_true] at hfires
  obtain ⟨⟨-, hrole⟩, hcond⟩ := hfires
  unfold needs at hneeds
  rw [Bool.or_eq_true, Bool.and_eq_true] at hneeds
  rcases hneeds with hleaf | ⟨hempty, hall⟩
  · exact holds_of_contains hcond hleaf
  · -- the rule names no role, so it fires through a derived role
    have hnone : rule.roles.contains role ≠ true := by
      rw [isEmpty_iff.mp hempty]
      exact Bool.false_ne_true
    obtain ⟨name, hname, hd⟩ := hrole.resolve_left hnone
    have hleaf := all_eq_true.mp hall name hname
    cases hdef : dr.definition name with
    | none => rw [hdef] at hd; exact Bool.noConfusion hd
    | some =>
      rw [hdef] at hd hleaf
      rw [Bool.and_eq_true] at hd
      exact holds_of_contains hd.2 hleaf

/-- What is permitted is permitted by a rule. -/
theorem exists_rule_of_permits {p : Policy} (h : p.permits truth dr action role = true) :
    ∃ rule ∈ p.rules, rule.effect = .allow ∧ rule.fires truth dr action role = true := by
  unfold Source.ResourcePolicy.permits at h
  rw [Bool.and_eq_true] at h
  obtain ⟨rule, hrule, hfires⟩ := any_eq_true.mp h.1
  rw [Bool.and_eq_true, decide_eq_true_eq] at hfires
  exact ⟨rule, hrule, hfires⟩

end Needs

/-! ## §2. What the expressions say about the attributes. -/

section Attributes

/-- Both sides have a tenant, the same one. -/
def SameTenant (input : CheckInput) : Prop :=
  ∃ v w, input.principal.attr.lookup "tenant_id" = some v ∧
    input.resource.attr.lookup "tenant_id" = some w ∧ w.equal v = true

/-- The approval of a request is recorded: the flag is set, and there is a reference. -/
def Approved (input : CheckInput) (flag : String) : Prop :=
  input.resource.attr.lookup flag = some (.bool true) ∧
    ∃ v n, input.resource.attr.lookup "approval_ref" = some v ∧
      Cel.Val.size (.ofValue v) = some n ∧ 0 < n

/-- An attribute that is a number, and which. -/
def NumberAttr (input : CheckInput) (name : String) (q : ExtRat) : Prop :=
  ∃ d, input.resource.attr.lookup name = some (.number d) ∧ Binary64.value d.bits = some q

theorem Value.equal_bool_iff (v : Value) (b : Bool) : v.equal (.bool b) = true ↔ v = .bool b := by
  cases v <;> simp [Value.equal]

/-- An expression is true where both sides have a value and these stand in the relation. -/
theorem truth_iff (e : Cel.Expr) : Engine.truth input e = true ↔
    ∃ u v, e.lhs.eval (checkInputToRequest input) = some u ∧
      e.rhs.eval (checkInputToRequest input) = some v ∧ e.rel.eval u v = some true := by
  unfold Engine.truth Cel.Expr.holds
  rw [Cel.Expr.eval_eq_bind]
  cases e.lhs.eval (checkInputToRequest input) with
  | none => simp
  | some => cases e.rhs.eval (checkInputToRequest input) <;> simp [Option.getD_eq_iff]

/-- An attribute of the resource in relation to a term that has a value. -/
theorem truth_resource_iff (name : String) (rel : Cel.Rel) {t : Cel.Term} {v : Cel.Val}
    (ht : t.eval (checkInputToRequest input) = some v) :
    Engine.truth input ⟨resource name, rel, t⟩ = true ↔
      ∃ w, input.resource.attr.lookup name = some w ∧ rel.eval (.ofValue w) v = some true := by
  have hattr : (resource name).eval (checkInputToRequest input) =
      (input.resource.attr.lookup name).map .ofValue := rfl
  simp [truth_iff, ht, hattr]

/-- Two attributes of the resource in relation. -/
theorem truth_resources_iff (name name' : String) (rel : Cel.Rel) :
    Engine.truth input ⟨resource name, rel, resource name'⟩ = true ↔
      ∃ v w, input.resource.attr.lookup name = some v ∧
        input.resource.attr.lookup name' = some w ∧ rel.eval (.ofValue v) (.ofValue w) = some true := by
  have hattr (name : String) : (resource name).eval (checkInputToRequest input) =
      (input.resource.attr.lookup name).map .ofValue := rfl
  simp [truth_iff, hattr]

theorem truth_tenantMatches : Engine.truth input tenantMatches = true ↔ SameTenant input := by
  have hprincipal : (principal "tenant_id").eval (checkInputToRequest input) =
      (input.principal.attr.lookup "tenant_id").map .ofValue := rfl
  unfold SameTenant
  cases hv : input.principal.attr.lookup "tenant_id" with
  | none => simp [truth_iff, tenantMatches, hprincipal, hv]
  | some =>
    rw [hv] at hprincipal
    show Engine.truth input ⟨resource "tenant_id", .eq, principal "tenant_id"⟩ = true ↔ _
    rw [truth_resource_iff "tenant_id" .eq hprincipal]
    simp [Cel.Rel.eval, Cel.Val.equal]

/-- An attribute compared with a Boolean literal. -/
theorem truth_eq_bool (name : String) (b : Bool) :
    Engine.truth input ⟨resource name, .eq, .bool b⟩ = true ↔
      input.resource.attr.lookup name = some (.bool b) := by
  rw [truth_resource_iff name .eq rfl]
  simp [Cel.Rel.eval, Cel.Val.equal, Value.equal_bool_iff]

/-- A value is ordered relative to an integer literal as the number that it is. -/
theorem compare_int (u : Cel.Val) (n : Nat) :
    u.compare (.int n) = u.number.map (fun q => cmp q (ExtRat.of n)) := by
  cases u with
  | int => show some (cmp _ (ExtRat.of ((n : ℤ) : ℚ))) = some _; rw [Int.cast_natCast]
  | ofValue v =>
    cases v with
    | number d =>
      -- a number that is not NaN is compared as an exact one
      unfold Cel.Val.compare Cel.Val.number
      dsimp only
      cases Binary64.value d.bits <;> rfl
    | _ => rfl

theorem truth_hasApprovalRef : Engine.truth input hasApprovalRef = true ↔
    ∃ v n, input.resource.attr.lookup "approval_ref" = some v ∧
      Cel.Val.size (.ofValue v) = some n ∧ 0 < n := by
  have hsize : (Cel.Term.size (resource "approval_ref")).eval (checkInputToRequest input) =
      ((input.resource.attr.lookup "approval_ref").map Cel.Val.ofValue).bind
        (fun v => v.size.bind (fun n => some (Cel.Val.int n))) := by
    simp [Cel.Term.eval, resource, checkInputToRequest]
  have hgt (n : Nat) : Cel.Rel.gt.eval (.int n) (.int (0 : Nat)) = some true ↔ 0 < n := by
    show ((Cel.Val.int n).compare (.int (0 : Nat))).map (· == .gt) = some true ↔ _
    show some (cmp (ExtRat.of ((n : ℤ) : ℚ)) (ExtRat.of ((0 : ℕ) : ℚ)) == .gt) = some true ↔ _
    rw [Option.some.injEq, beq_iff_eq, cmp_eq_gt_iff, ExtRat.of_lt_of]
    norm_cast
  rw [hasApprovalRef, truth_iff]
  simp only [hsize, Option.bind_eq_some_iff, Option.map_eq_some_iff, Option.some.injEq]
  constructor
  · rintro ⟨_, _, ⟨_, ⟨v, hv, rfl⟩, n, hn, rfl⟩, hzero, hpos⟩
    obtain rfl := Option.some.inj hzero
    exact ⟨v, n, hv, hn, (hgt n).mp hpos⟩
  · rintro ⟨v, n, hv, hn, hpos⟩
    exact ⟨_, _, ⟨_, ⟨v, hv, rfl⟩, n, hn, rfl⟩, rfl, (hgt n).mpr hpos⟩

/-- An attribute is one number only. -/
theorem NumberAttr.unique {name : String} {q r : ExtRat} (hq : NumberAttr input name q)
    (hr : NumberAttr input name r) : q = r := by
  obtain ⟨d, hd, hdq⟩ := hq
  obtain ⟨e, he, her⟩ := hr
  rw [hd] at he
  obtain rfl : d = e := Value.number.inj (Option.some.inj he)
  exact Option.some.inj (hdq.symm.trans her)

variable (name : String)

theorem truth_compare_int (rel : Cel.Rel) (test : Ordering → Bool)
    (hrel : ∀ u v, rel.eval u v = (Cel.Val.compare u v).map test) (n : Nat) :
    Engine.truth input ⟨resource name, rel, .int n⟩ = true ↔
      ∃ q, NumberAttr input name q ∧ test (cmp q (ExtRat.of n)) = true := by
  have hnum (w : Value) (q : ExtRat) : Cel.Val.number (.ofValue w) = some q ↔
      ∃ d, w = .number d ∧ Binary64.value d.bits = some q := by
    cases w <;> simp [Cel.Val.number]
  rw [truth_resource_iff name rel rfl]
  constructor
  · rintro ⟨w, hw, htest⟩
    rw [hrel, compare_int, Option.map_map, Option.map_eq_some_iff] at htest
    obtain ⟨q, hq, ho⟩ := htest
    obtain ⟨d, rfl, hd⟩ := (hnum w q).mp hq
    exact ⟨q, ⟨d, hw, hd⟩, ho⟩
  · rintro ⟨q, ⟨d, hw, hq⟩, ho⟩
    refine ⟨_, hw, ?_⟩
    rw [hrel, compare_int, (hnum _ q).mpr ⟨d, rfl, hq⟩]
    exact congrArg some ho

theorem truth_lt_int (n : Nat) : Engine.truth input ⟨resource name, .lt, .int n⟩ = true ↔
      ∃ q, NumberAttr input name q ∧ q < ExtRat.of n := by
  rw [truth_compare_int name .lt (· == .lt) (fun _ _ => rfl)]
  refine exists_congr (fun q => and_congr_right (fun _ => ?_))
  rw [beq_iff_eq, cmp_eq_lt_iff]

theorem truth_le_int (n : Nat) : Engine.truth input ⟨resource name, .le, .int n⟩ = true ↔
      ∃ q, NumberAttr input name q ∧ q ≤ ExtRat.of n := by
  rw [truth_compare_int name .le (· != .gt) (fun _ _ => rfl)]
  refine exists_congr (fun q => and_congr_right (fun _ => ?_))
  rw [bne_iff_ne, ne_eq, cmp_eq_gt_iff, not_lt]

theorem truth_approval (flag : String) :
    (Engine.truth input ⟨resource flag, .eq, .bool true⟩ = true ∧
      Engine.truth input hasApprovalRef = true) ↔ Approved input flag := by
  rw [truth_eq_bool, truth_hasApprovalRef]
  rfl

end Attributes

/-- A request of a principal with the given roles for one action on a resource of the
principal's tenant. -/
def requestFor (kind action : String) (roles : List String) (attr : List (String × Value)) :
    CheckInput where
  requestId := ""
  principal := { id := "sam", policyVersion := "", scope := "", roles := roles
                 attr := [("tenant_id", .string "tenant-a")] }
  resource := { kind := kind, id := "r-1", policyVersion := "", scope := ""
                attr := ("tenant_id", .string "tenant-a") :: attr }
  actions := [action]
  auxData := none

def hundred : Value := .number ⟨0x4059000000000000⟩
def twentyThousand : Value := .number ⟨0x40D3880000000000⟩
def minusTen : Value := .number ⟨0xC024000000000000⟩
def minusFifty : Value := .number ⟨0xC049000000000000⟩

/-! ## §3. Tenant isolation. -/

section Results

variable {V : Type} (eng : Engine V) {action : String} {p : Policy}

/-- What check allows on a kind, the kind's policy file permits to one of the principal's roles. -/
theorem allow_iff (hp : p ∈ tenantPolicies) (hkind : input.resource.kind = p.resource)
    (ha : action ∈ input.actions) : eng.toCheckEnv.checkedEffect input action = some .allow ↔
      eng.toCheckEnv.reachesRoot input = true ∧ ∃ role ∈ input.principal.roles,
        p.permits (Engine.truth input) commonErpRoles action role = true := by
  rw [eng.checkedEffect_eq hp hkind ha, ← any_eq_true, ← Bool.and_eq_true]
  split
  next h => simp [h]
  next h => simp [h]

/-- What check allows on a kind is allowed by a rule of the kind's policy file that fires for
one of the principal's roles. -/
theorem exists_rule_of_allow (hp : p ∈ tenantPolicies)
    (hkind : input.resource.kind = p.resource) (ha : action ∈ input.actions)
    (hallow : eng.toCheckEnv.checkedEffect input action = some .allow) :
    ∃ role ∈ input.principal.roles, ∃ rule ∈ p.rules, rule.effect = .allow ∧
      rule.fires (Engine.truth input) commonErpRoles action role = true := by
  obtain ⟨-, role, hrole, hpermits⟩ := (allow_iff eng hp hkind ha).mp hallow
  exact ⟨role, hrole, exists_rule_of_permits hpermits⟩

/-- The kinds that turn on tenancy. -/
def tenantKinds : List String :=
  ["agent:mcp_tool", "commerce:catalog", "commerce:marketplace_listing", "commerce:order",
    "commerce:payment", "commerce:refund", "commerce:rma", "commerce:shipment", "commerce:tax"]

theorem exists_tenantPolicy {kind : String} (h : kind ∈ tenantKinds) :
    ∃ p ∈ tenantPolicies, kind = p.resource := by
  have hkinds : tenantKinds = tenantPolicies.map (·.resource) := rfl
  rw [hkinds] at h
  obtain ⟨p, hp, rfl⟩ := mem_map.mp h
  exact ⟨p, hp, rfl⟩

/-- Every ALLOW rule needs the tenants to be equal, itself or through its derived roles. -/
theorem allow_needs_tenant : ∀ p ∈ tenantPolicies, ∀ rule ∈ p.rules, rule.effect = .allow →
    needs commonErpRoles rule tenantMatches = true := by
  decide +kernel

/-- **Tenant isolation**: whatever is allowed on these kinds, principal and resource have a
tenant, and it is the same one. -/
theorem tenant_isolation (eng : Engine V) (input : CheckInput) (action : String)
    (hkind : input.resource.kind ∈ tenantKinds) (ha : action ∈ input.actions)
    (hallow : eng.toCheckEnv.checkedEffect input action = some .allow) : SameTenant input := by
  obtain ⟨p, hp, hresource⟩ := exists_tenantPolicy hkind
  obtain ⟨role, -, rule, hrule, heffect, hfires⟩ := exists_rule_of_allow eng hp hresource ha hallow
  exact truth_tenantMatches.mp (holds_of_needs (allow_needs_tenant p hp rule hrule heffect) hfires)

theorem tenant_isolation_refund : sampleEngine.toCheckEnv.checkedEffect
        (requestFor "commerce:refund" "issue" ["support_agent"] [("amount", hundred)]) "issue" =
      some .allow ∧
    SameTenant (requestFor "commerce:refund" "issue" ["support_agent"] [("amount", hundred)]) := by
  refine (and_iff_left_of_imp
    (tenant_isolation sampleEngine _ "issue" (by decide) (mem_singleton_self _))).mpr ?_
  rw [sampleEngine.checkedEffect_eq (p := refund) (by simp) rfl
    (mem_singleton_self _)]
  decide +kernel

/-! ## §4. High-impact actions. -/

/-- The actions that need a recorded approval, each with the circumstances that make it so. -/
inductive HighImpact (input : CheckInput) : String → Prop
  | issue {q : ExtRat} : input.resource.kind = "commerce:refund" → NumberAttr input "amount" q →
      ExtRat.of 10000 ≤ q → HighImpact input "issue"
  | disburse : input.resource.kind = "commerce:payment" → HighImpact input "disburse"
  | dispatchDropship {q : ExtRat} : input.resource.kind = "commerce:order" →
      NumberAttr input "order_total" q → ExtRat.of 5000 ≤ q → HighImpact input "dispatch_dropship"
  | fileReturn : input.resource.kind = "commerce:tax" → HighImpact input "file_return"
  | remit : input.resource.kind = "commerce:tax" → HighImpact input "remit"
  | buyLabel {q : ExtRat} : input.resource.kind = "commerce:shipment" →
      NumberAttr input "cost" q → ExtRat.of 500 ≤ q → HighImpact input "buy_label"
  | authorize : input.resource.kind = "commerce:rma" →
      input.resource.attr.lookup "within_return_window" ≠ some (.bool true) →
      HighImpact input "authorize"
  | reprice {v w : Value} : input.resource.kind = "commerce:marketplace_listing" →
      input.resource.attr.lookup "new_price" = some v →
      input.resource.attr.lookup "floor_price" = some w →
      Cel.Val.compare (.ofValue v) (.ofValue w) = some .lt → HighImpact input "reprice"
  | dispatch : input.resource.kind = "agent:mcp_tool" →
      input.resource.attr.lookup "destructive" ≠ some (.bool false) → HighImpact input "dispatch"

/-- The attribute that says that a human approved. -/
def approvalFlag (kind : String) : String :=
  if kind = "agent:mcp_tool" then "approved" else "approved_by_human"

/-- Where every ALLOW rule for an action needs the approval, or something that is not true of
the request, the action is only allowed with the approval. -/
theorem approved_of_allow (p : Policy) (hp : p ∈ tenantPolicies)
    (hkind : input.resource.kind = p.resource) (ha : action ∈ input.actions)
    (excluded : List Cel.Expr)
    (hcheck : ∀ rule ∈ p.rules, rule.effect = .allow → rule.forAction action = true →
      (needs commonErpRoles rule ⟨resource (approvalFlag p.resource), .eq, .bool true⟩ &&
        needs commonErpRoles rule hasApprovalRef ||
          excluded.any (needs commonErpRoles rule)) = true)
    (hexcluded : excluded.Forall (fun e => Engine.truth input e ≠ true))
    (hallow : eng.toCheckEnv.checkedEffect input action = some .allow) :
    Approved input (approvalFlag input.resource.kind) := by
  rw [hkind]
  obtain ⟨role, -, rule, hrule, heffect, hfires⟩ := exists_rule_of_allow eng hp hkind ha hallow
  have haction : rule.forAction action = true := by
    unfold fires at hfires
    rw [Bool.and_eq_true, Bool.and_eq_true] at hfires
    exact hfires.1.1
  have h := hcheck rule hrule heffect haction
  rw [Bool.or_eq_true, Bool.and_eq_true] at h
  rcases h with ⟨hflag, href⟩ | hex
  · exact (truth_approval _).mp ⟨holds_of_needs hflag hfires, holds_of_needs href hfires⟩
  · obtain ⟨e, he, hneeds⟩ := any_eq_true.mp hex
    exact absurd (holds_of_needs hneeds hfires) (forall_iff_forall_mem.mp hexcluded e he)

/-- A number that has reached a bound is not below a smaller one. -/
theorem not_below {name : String} {q : ExtRat} {bound : ℚ} (hq : NumberAttr input name q)
    (hle : ExtRat.of bound ≤ q) {n : Nat} (hn : (n : ℚ) ≤ bound) :
    Engine.truth input ⟨resource name, .lt, .int n⟩ ≠ true := by
  intro htruth
  obtain ⟨r, hr, hlt⟩ := (truth_lt_int name n).mp htruth
  rw [hr.unique hq] at hlt
  exact absurd hlt (not_lt.mpr ((ExtRat.of_le_of.mpr hn).trans hle))

theorem not_atOrAboveFloor {v w : Value} (hv : input.resource.attr.lookup "new_price" = some v)
    (hw : input.resource.attr.lookup "floor_price" = some w)
    (hlt : Cel.Val.compare (.ofValue v) (.ofValue w) = some .lt) :
    Engine.truth input atOrAboveFloor ≠ true := by
  intro htruth
  obtain ⟨v', w', hv', hw', hge⟩ := (truth_resources_iff "new_price" "floor_price" .ge).mp htruth
  obtain rfl := Option.some.inj (hv.symm.trans hv')
  obtain rfl := Option.some.inj (hw.symm.trans hw')
  simp [Cel.Rel.eval, hlt] at hge

/-- **High-impact actions need a recorded human approval**, whatever the roles and attributes. -/
theorem approval_of_highImpact (eng : Engine V) (input : CheckInput) (action : String)
    (himpact : HighImpact input action) (ha : action ∈ input.actions)
    (hallow : eng.toCheckEnv.checkedEffect input action = some .allow) :
    Approved input (approvalFlag input.resource.kind) := by
  cases himpact with
  | issue hkind hq hle =>
    exact approved_of_allow eng refund (by simp) hkind ha
      [amountBelow 250, amountBelow 2500, amountBelow 10000] (by decide +kernel)
      ⟨not_below hq hle (by norm_num), not_below hq hle (by norm_num),
        not_below hq hle (by norm_num)⟩ hallow
  | disburse hkind =>
    exact approved_of_allow eng payment (by simp) hkind ha [] (by decide +kernel)
      trivial hallow
  | dispatchDropship hkind hq hle =>
    exact approved_of_allow eng order (by simp) hkind ha [totalBelow5000]
      (by decide +kernel) (not_below hq hle (by norm_num)) hallow
  | fileReturn hkind | remit hkind =>
    exact approved_of_allow eng tax (by simp) hkind ha [] (by decide +kernel)
      trivial hallow
  | buyLabel hkind hq hle =>
    exact approved_of_allow eng shipment (by simp) hkind ha [costBelow500]
      (by decide +kernel) (not_below hq hle (by norm_num)) hallow
  | authorize hkind hwindow =>
    exact approved_of_allow eng rma (by simp) hkind ha [withinWindow]
      (by decide +kernel) (fun htruth => hwindow ((truth_eq_bool _ _).mp htruth)) hallow
  | reprice hkind hv hw hlt =>
    exact approved_of_allow eng marketplaceListing (by simp) hkind ha
      [atOrAboveFloor] (by decide +kernel) (not_atOrAboveFloor hv hw hlt) hallow
  | dispatch hkind hdestructive =>
    exact approved_of_allow eng mcpTool (by simp) hkind ha [notDestructive]
      (by decide +kernel) (fun htruth => hdestructive ((truth_eq_bool _ _).mp htruth)) hallow

theorem approval_of_highImpact_refund : sampleEngine.toCheckEnv.checkedEffect
        (requestFor "commerce:refund" "issue" ["admin"] [("amount", twentyThousand),
          ("approved_by_human", .bool true), ("approval_ref", .string "appr-9001")]) "issue" =
      some .allow ∧
    Approved (requestFor "commerce:refund" "issue" ["admin"] [("amount", twentyThousand),
      ("approved_by_human", .bool true), ("approval_ref", .string "appr-9001")])
      "approved_by_human" := by
  refine (and_iff_left_of_imp (approval_of_highImpact sampleEngine _ "issue"
    (.issue (q := ExtRat.of 20000) rfl ⟨_, rfl, by decide +kernel⟩
      (ExtRat.of_le_of.mpr (by norm_num))) (mem_singleton_self _))).mpr ?_
  rw [sampleEngine.checkedEffect_eq (p := refund) (by simp) rfl
    (mem_singleton_self _)]
  decide +kernel

end Results

/-! ## §5. Agents and money. -/

/-- The actions that move money out or commit to moving it, as the policies mean to keep them
from agents. -/
inductive MoneyOut where
  | issue | disburse | fileReturn | remit | configureNexus | updateRate | dispatchDropship
  deriving DecidableEq, Repr

namespace MoneyOut

def policy : MoneyOut → Policy
  | issue => refund
  | disburse => payment
  | fileReturn | remit | configureNexus | updateRate => tax
  | dispatchDropship => order

def kind : MoneyOut → String
  | issue => "commerce:refund"
  | disburse => "commerce:payment"
  | fileReturn | remit | configureNexus | updateRate => "commerce:tax"
  | dispatchDropship => "commerce:order"

def action : MoneyOut → String
  | issue => "issue"
  | disburse => "disburse"
  | fileReturn => "file_return"
  | remit => "remit"
  | configureNexus => "configure_nexus"
  | updateRate => "update_rate"
  | dispatchDropship => "dispatch_dropship"

/-- The roles of agents. -/
def agentRoles : MoneyOut → List String
  | dispatchDropship => ["agent_operator"]
  | _ => ["agent_operator", "agent_supervisor"]

/-- Is the action open to a role on its own?  The circumstances are those of the policies. -/
def openTo (m : MoneyOut) (input : CheckInput) (role : String) : Prop :=
  Engine.truth input tenantMatches = true ∧
  match m with
  | issue =>
    (role = "support_agent" ∧ Engine.truth input (amountBelow 250) = true) ∨
    (role = "support_manager" ∧ Engine.truth input (amountBelow 2500) = true) ∨
    ((role = "finance_manager" ∨ role = "admin") ∧ (Engine.truth input (amountBelow 10000) = true ∨
        (Engine.truth input amountAtLeast10000 = true ∧
          Engine.truth input approvedByHuman = true ∧ Engine.truth input hasApprovalRef = true)))
  | disburse =>
    (role = "finance_manager" ∨ role = "admin") ∧ Engine.truth input methodPushesOut = true ∧
      Engine.truth input approvedByHuman = true ∧ Engine.truth input hasApprovalRef = true
  | fileReturn | remit =>
    (role = "finance_manager" ∨ role = "admin") ∧
      Engine.truth input approvedByHuman = true ∧ Engine.truth input hasApprovalRef = true
  | configureNexus | updateRate => role = "finance_manager" ∨ role = "admin"
  | dispatchDropship =>
    (role = "distributor_manager" ∧ Engine.truth input totalBelow5000 = true ∧
      Engine.truth input ⟨resource "distributor", .isIn, principal "distributors"⟩ = true) ∨
    (role = "admin" ∧ Engine.truth input totalAtLeast5000 = true ∧
      Engine.truth input approvedByHuman = true ∧ Engine.truth input hasApprovalRef = true)

/-- **The policies permit such an action exactly to the roles it is open to.** -/
theorem permits_iff (m : MoneyOut) (role : String) :
    m.policy.permits (Engine.truth input) commonErpRoles m.action role = true ↔
      m.openTo input role := by
  generalize htruth : Engine.truth input = truth
  unfold openTo
  rw [htruth]
  cases m <;>
    simp [policy, action, refund, payment, tax, order, policyFor,
      Source.ResourcePolicy.permits, Source.ResourcePolicy.someFires, fires,
      forAction, forRole, Source.condHolds,
      Source.optLeaves, Source.Match.leaves, Source.Match.listLeaves, expr, allOf,
      Source.DerivedRoles.definition, commonErpRoles] <;>
    grind

theorem policy_mem (m : MoneyOut) : m.policy ∈ tenantPolicies := by
  cases m <;> simp [policy]

end MoneyOut

/-- No action is open to a role of agents. -/
theorem MoneyOut.not_openTo_agent (m : MoneyOut) (input : CheckInput) :
    ∀ role ∈ m.agentRoles, ¬ m.openTo input role := by
  cases m <;> simp [agentRoles, openTo]

/-- **Agents are denied these actions exactly when none of their other roles may take them on its
own**: the DENY that the agent role meets says nothing about the others. -/
theorem agent_denied_iff {V : Type} (eng : Engine V) (m : MoneyOut) (input : CheckInput)
    (hkind : input.resource.kind = m.kind) (ha : m.action ∈ input.actions) :
    (∀ role ∈ m.agentRoles, ¬ m.openTo input role) ∧
      (eng.toCheckEnv.checkedEffect input m.action = some .deny ↔
        ¬ (eng.toCheckEnv.reachesRoot input = true ∧
          ∃ role ∈ input.principal.roles, m.openTo input role)) := by
  have hresource : input.resource.kind = m.policy.resource := by
    rw [hkind]
    cases m <;> rfl
  have hallow := allow_iff eng m.policy_mem hresource ha
  simp only [m.permits_iff] at hallow
  refine ⟨m.not_openTo_agent input, ?_⟩
  rw [← hallow, eng.checkedEffect_eq m.policy_mem hresource ha]
  split
  next => simp
  next => simp

/-- Someone who operates an agent and is an administrator as well issues a refund. -/
theorem agent_admin_issues_refund :
    "agent_operator" ∈ (requestFor "commerce:refund" "issue" ["agent_operator", "admin"]
      [("amount", hundred)]).principal.roles ∧
    sampleEngine.toCheckEnv.checkedEffect (requestFor "commerce:refund" "issue"
      ["agent_operator", "admin"] [("amount", hundred)]) "issue" = some .allow := by
  refine ⟨mem_cons_self, ?_⟩
  rw [sampleEngine.checkedEffect_eq (p := refund) (by simp) rfl
    (mem_singleton_self _)]
  decide +kernel

theorem agent_denied_refund :
    sampleEngine.toCheckEnv.checkedEffect (requestFor "commerce:refund" "issue"
      ["agent_operator"] [("amount", hundred)]) "issue" = some .deny := by
  obtain ⟨hagent, hdenied⟩ := agent_denied_iff sampleEngine .issue
    (requestFor "commerce:refund" "issue" ["agent_operator"] [("amount", hundred)]) rfl
    (mem_singleton_self _)
  refine hdenied.mpr ?_
  rintro ⟨-, role, hrole, hopen⟩
  obtain rfl : role = "agent_operator" := mem_singleton.mp hrole
  exact hagent _ mem_cons_self hopen

/-! ## §6. Price moves. -/

/-- The price moves by more than 15 percent, up or down. -/
def LargeMove (input : CheckInput) : Prop :=
  ∃ q, NumberAttr input "change_percent" q ∧ (ExtRat.of 15 < q ∨ q < ExtRat.of (-15))

/-- An unattended fall: by more than 15 percent, on a price that stays at or above the floor, by
someone who may reprice within the band. -/
structure UnattendedFall (input : CheckInput) : Prop where
  fall : ∃ q, NumberAttr input "change_percent" q ∧ q < ExtRat.of (-15)
  role : "pricing_analyst" ∈ input.principal.roles ∨ "agent_operator" ∈ input.principal.roles
  tenant : SameTenant input
  floor : Engine.truth input atOrAboveFloor = true

/-- A price is not both at or above the floor and below it. -/
theorem not_belowFloor (h : Engine.truth input atOrAboveFloor = true) :
    Engine.truth input belowFloor = false := by
  rw [Bool.eq_false_iff]
  intro hbelow
  obtain ⟨v, w, hv, hw, hlt⟩ := (truth_resources_iff "new_price" "floor_price" .lt).mp hbelow
  refine not_atOrAboveFloor hv hw ?_ h
  simpa [Cel.Rel.eval] using hlt

/-- To whom repricing is permitted. -/
theorem permits_reprice_iff (truth : Cel.Expr → Bool) (role : String) :
    marketplaceListing.permits truth commonErpRoles "reprice" role = true ↔
      truth tenantMatches = true ∧
      (((role = "pricing_analyst" ∨ role = "agent_operator") ∧ truth atOrAboveFloor = true ∧
          truth changeAtMost15 = true) ∨
        ((role = "pricing_manager" ∨ role = "admin") ∧ truth approvedByHuman = true ∧
          truth hasApprovalRef = true)) ∧
      ¬ (truth belowFloor = true ∧ truth notApprovedByHuman = true) := by
  simp [marketplaceListing, policyFor, Source.ResourcePolicy.permits,
    Source.ResourcePolicy.someFires, fires, forAction,
    forRole, Source.condHolds, Source.optLeaves, Source.Match.leaves,
    Source.Match.listLeaves, expr, allOf]
  grind

/-- **Large moves are approved, except for unattended falls** that reach the policies. -/
theorem large_move_approved_iff {V : Type} (eng : Engine V) (input : CheckInput)
    (hkind : input.resource.kind = "commerce:marketplace_listing")
    (ha : "reprice" ∈ input.actions) :
    (eng.toCheckEnv.checkedEffect input "reprice" = some .allow → LargeMove input →
        Approved input "approved_by_human") ↔ (Approved input "approved_by_human" ∨
        ¬ (eng.toCheckEnv.reachesRoot input = true ∧ UnattendedFall input)) := by
  have hmem : marketplaceListing ∈ tenantPolicies := by simp
  have hle15 : Engine.truth input changeAtMost15 = true ↔
      ∃ q, NumberAttr input "change_percent" q ∧ q ≤ ExtRat.of 15 := truth_le_int _ 15
  constructor
  · intro h
    by_contra hnot
    push Not at hnot
    obtain ⟨hunapproved, hroot, hfall⟩ := hnot
    obtain ⟨q, hq, hlt⟩ := hfall.fall
    have hbelow15 : q ≤ ExtRat.of 15 :=
      hlt.le.trans (ExtRat.of_le_of.mpr (by norm_num))
    -- the band rule fires for the analyst or the agent, and the floor rule does not
    have hpermits : ∀ role, role = "pricing_analyst" ∨ role = "agent_operator" →
        marketplaceListing.permits (Engine.truth input) commonErpRoles "reprice" role = true := by
      intro role hrole
      refine (permits_reprice_iff _ role).mpr ⟨truth_tenantMatches.mpr hfall.tenant,
        Or.inl ⟨hrole, hfall.floor, hle15.mpr ⟨q, hq, hbelow15⟩⟩, fun hdeny => ?_⟩
      rw [not_belowFloor hfall.floor] at hdeny
      exact Bool.noConfusion hdeny.1
    refine hunapproved (h ((allow_iff eng hmem hkind ha).mpr ⟨hroot, ?_⟩) ⟨q, hq, Or.inr hlt⟩)
    rcases hfall.role with hrole | hrole
    · exact ⟨_, hrole, hpermits _ (Or.inl rfl)⟩
    · exact ⟨_, hrole, hpermits _ (Or.inr rfl)⟩
  · rintro (happroved | hnot) hallow ⟨q, hq, hmove⟩
    · exact happroved
    · obtain ⟨hroot, role, hrole, hpermits⟩ := (allow_iff eng hmem hkind ha).mp hallow
      obtain ⟨htenant, hrule, -⟩ := (permits_reprice_iff _ role).mp hpermits
      rcases hrule with ⟨hname, hfloor, hle⟩ | ⟨-, hattended⟩
      · -- within the band a large move is a fall
        obtain ⟨r, hr, hr15⟩ := hle15.mp hle
        rw [hr.unique hq] at hr15
        refine absurd ⟨hroot, ⟨q, hq, ?_⟩, ?_, truth_tenantMatches.mp htenant, hfloor⟩ hnot
        · exact hmove.resolve_left (not_lt.mpr hr15)
        · rcases hname with rfl | rfl
          · exact Or.inl hrole
          · exact Or.inr hrole
      · exact (truth_approval "approved_by_human").mp hattended

/-- A price that is cut by half, down to 100 with a floor of 100, by an analyst. -/
theorem halved_price_unapproved :
    sampleEngine.toCheckEnv.checkedEffect (requestFor "commerce:marketplace_listing" "reprice"
      ["pricing_analyst"] [("new_price", hundred), ("floor_price", hundred),
        ("change_percent", minusFifty)]) "reprice" = some .allow ∧
    LargeMove (requestFor "commerce:marketplace_listing" "reprice" ["pricing_analyst"]
      [("new_price", hundred), ("floor_price", hundred), ("change_percent", minusFifty)]) ∧
    ¬ Approved (requestFor "commerce:marketplace_listing" "reprice" ["pricing_analyst"]
      [("new_price", hundred), ("floor_price", hundred), ("change_percent", minusFifty)])
      "approved_by_human" := by
  refine ⟨?_, ⟨ExtRat.of (-50), ⟨_, rfl, by decide +kernel⟩,
    Or.inr (ExtRat.of_lt_of.mpr (by norm_num))⟩, fun h => nomatch h.1⟩
  rw [sampleEngine.checkedEffect_eq (p := marketplaceListing) (by simp) rfl
    (mem_singleton_self _)]
  decide +kernel

theorem small_fall_needs_nothing :
    sampleEngine.toCheckEnv.checkedEffect (requestFor "commerce:marketplace_listing" "reprice"
      ["pricing_analyst"] [("new_price", hundred), ("floor_price", hundred),
        ("change_percent", minusTen)]) "reprice" = some .allow ∧
    ¬ LargeMove (requestFor "commerce:marketplace_listing" "reprice" ["pricing_analyst"]
      [("new_price", hundred), ("floor_price", hundred), ("change_percent", minusTen)]) := by
  refine (and_iff_left_of_imp (fun hallow hmove => ?_)).mpr ?_
  · -- the fall is not below the band, so the result holds, and there is no approval
    refine nomatch ((large_move_approved_iff sampleEngine _ rfl (mem_singleton_self _)).mpr
      (Or.inr ?_) hallow hmove).1
    rintro ⟨-, ⟨⟨q, hq, hlt⟩, -, -, -⟩⟩
    rw [hq.unique (r := ExtRat.of (-10)) ⟨_, rfl, by decide +kernel⟩, ExtRat.of_lt_of] at hlt
    norm_num at hlt
  · rw [sampleEngine.checkedEffect_eq (p := marketplaceListing) (by simp) rfl
      (mem_singleton_self _)]
    decide +kernel

end AccessManagement.Estate
