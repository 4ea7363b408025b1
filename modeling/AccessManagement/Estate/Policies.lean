/-
  AccessManagement.Estate.Policies — THE POLICIES OF THE ESTATE (`policies/`).

  One definition for each policy file, rule by rule and in the order of the file, and the
  derived roles they share.  No file names a rule, a scope or a schema, and none has variables.

  Every condition is an expression or an `all` of expressions, so the expressions that occur
  (`exprs`) are all there is to know about evaluation.
-/
import AccessManagement.Cel.Expr
import AccessManagement.Policy.Compile

namespace AccessManagement.Estate

/-! ## §1. Expressions and conditions. -/

def resource (name : String) : Cel.Term := .resourceAttr name
def principal (name : String) : Cel.Term := .principalAttr name

/-- `request.resource.attr.tenant_id == request.principal.attr.tenant_id`. -/
def tenantMatches : Cel.Expr := ⟨resource "tenant_id", .eq, principal "tenant_id"⟩

/-- `request.resource.attr.approved_by_human == true`. -/
def approvedByHuman : Cel.Expr := ⟨resource "approved_by_human", .eq, .bool true⟩

/-- `request.resource.attr.approved_by_human != true`. -/
def notApprovedByHuman : Cel.Expr := ⟨resource "approved_by_human", .ne, .bool true⟩

/-- `size(request.resource.attr.approval_ref) > 0`. -/
def hasApprovalRef : Cel.Expr := ⟨.size (resource "approval_ref"), .gt, .int 0⟩

example : tenantMatches.src =
    "request.resource.attr.tenant_id == request.principal.attr.tenant_id" := by decide +kernel
example : hasApprovalRef.src = "size(request.resource.attr.approval_ref) > 0" := by decide +kernel

/-- `match: expr`. -/
def expr (e : Cel.Expr) : Option (Source.Match Cel.Expr) := some (.expr e)

/-- `match: all: of`. -/
def allOf (es : List Cel.Expr) : Option (Source.Match Cel.Expr) := some (.all (es.map .expr))

abbrev Rule := Source.ResourceRule Cel.Expr
abbrev Policy := Source.ResourcePolicy Cel.Expr

/-! ## §2. Derived roles (`_common/derived_roles.yaml`). -/

def commonErpRoles : Source.DerivedRoles Cel.Expr where
  name := "common_erp_roles"
  definitions := [
    { name := "owner", parentRoles := ["employee"]
      condition := expr ⟨resource "owner", .eq, .principalId⟩ },
    { name := "same_department", parentRoles := ["employee"]
      condition := expr ⟨resource "department", .eq, principal "department"⟩ },
    { name := "same_tenant", parentRoles := ["employee"]
      condition := expr tenantMatches },
    { name := "channel_operator", parentRoles := ["channel_manager"]
      condition := allOf [tenantMatches, ⟨resource "channel", .isIn, principal "channels"⟩] },
    { name := "distributor_operator", parentRoles := ["distributor_manager"]
      condition := allOf [tenantMatches,
        ⟨resource "distributor", .isIn, principal "distributors"⟩] }]

/-- A policy for a resource, with what the files have in common. -/
def policyFor (kind : String) (rules : List Rule) : Policy where
  resource := kind
  version := "default"
  importDerivedRoles := ["common_erp_roles"]
  rules := rules

/-! ## §3. `agent/`. -/

def inToolScopes : Cel.Expr := ⟨resource "server", .isIn, principal "tool_scopes"⟩
def isDestructive : Cel.Expr := ⟨resource "destructive", .eq, .bool true⟩
def notDestructive : Cel.Expr := ⟨resource "destructive", .eq, .bool false⟩
def callApproved : Cel.Expr := ⟨resource "approved", .eq, .bool true⟩
def callNotApproved : Cel.Expr := ⟨resource "approved", .ne, .bool true⟩

def mcpTool : Policy := policyFor "agent:mcp_tool" [
  { actions := ["list", "describe"], effect := .allow, derivedRoles := ["same_tenant"] },
  { actions := ["dispatch"], effect := .allow, roles := ["agent_operator", "staff"]
    condition := allOf [tenantMatches, notDestructive, inToolScopes] },
  { actions := ["dispatch"], effect := .allow, roles := ["agent_supervisor", "admin"]
    condition := allOf [tenantMatches, isDestructive, callApproved, hasApprovalRef, inToolScopes] },
  { actions := ["dispatch"], effect := .deny
    roles := ["agent_operator", "agent_supervisor", "staff", "admin"]
    condition := allOf [isDestructive, callNotApproved] },
  { actions := ["administer"], effect := .allow, roles := ["admin"]
    condition := expr tenantMatches }]

/-! ## §4. `commerce/`. -/

def catalog : Policy := policyFor "commerce:catalog" [
  { actions := ["view", "list", "search"], effect := .allow
    roles := ["sales_rep", "support_agent", "warehouse_clerk", "catalog_manager",
      "agent_operator", "admin"]
    condition := expr tenantMatches },
  { actions := ["create", "update"], effect := .allow, roles := ["catalog_manager", "admin"]
    condition := expr tenantMatches },
  { actions := ["publish_fitment"], effect := .allow, roles := ["catalog_manager", "admin"]
    condition := allOf [tenantMatches, ⟨resource "fitment_validated", .eq, .bool true⟩] },
  { actions := ["publish_fitment"], effect := .deny
    roles := ["catalog_manager", "admin", "agent_operator"]
    condition := expr ⟨resource "fitment_validated", .ne, .bool true⟩ },
  { actions := ["bulk_import"], effect := .allow, derivedRoles := ["distributor_operator"] },
  { actions := ["delete"], effect := .allow, roles := ["admin"]
    condition := expr tenantMatches }]

def atOrAboveFloor : Cel.Expr := ⟨resource "new_price", .ge, resource "floor_price"⟩
def belowFloor : Cel.Expr := ⟨resource "new_price", .lt, resource "floor_price"⟩
def changeAtMost15 : Cel.Expr := ⟨resource "change_percent", .le, .int 15⟩

def marketplaceListing : Policy := policyFor "commerce:marketplace_listing" [
  { actions := ["view", "list"], effect := .allow
    roles := ["sales_rep", "channel_manager", "pricing_analyst", "admin"]
    condition := expr tenantMatches },
  { actions := ["create", "update"], effect := .allow, derivedRoles := ["channel_operator"] },
  { actions := ["publish", "unpublish"], effect := .allow, derivedRoles := ["channel_operator"] },
  { actions := ["reprice"], effect := .allow, roles := ["pricing_analyst", "agent_operator"]
    condition := allOf [tenantMatches, atOrAboveFloor, changeAtMost15] },
  { actions := ["reprice"], effect := .allow, roles := ["pricing_manager", "admin"]
    condition := allOf [tenantMatches, approvedByHuman, hasApprovalRef] },
  { actions := ["reprice"], effect := .deny
    roles := ["pricing_analyst", "agent_operator", "pricing_manager", "admin", "channel_manager"]
    condition := allOf [belowFloor, notApprovedByHuman] }]

def totalBelow5000 : Cel.Expr := ⟨resource "order_total", .lt, .int 5000⟩
def totalAtLeast5000 : Cel.Expr := ⟨resource "order_total", .ge, .int 5000⟩

def order : Policy := policyFor "commerce:order" [
  { actions := ["view", "list"], effect := .allow
    roles := ["sales_rep", "support_agent", "warehouse_clerk", "accountant", "admin"]
    condition := expr tenantMatches },
  { actions := ["create", "update"], effect := .allow
    roles := ["sales_rep", "support_agent", "agent_operator", "admin"]
    condition := expr tenantMatches },
  { actions := ["cancel"], effect := .allow
    roles := ["support_agent", "support_manager", "admin"]
    condition := allOf [tenantMatches, ⟨resource "fulfilled", .ne, .bool true⟩] },
  { actions := ["dispatch_dropship"], effect := .allow, derivedRoles := ["distributor_operator"]
    condition := expr totalBelow5000 },
  { actions := ["dispatch_dropship"], effect := .allow, roles := ["admin"]
    condition := allOf [tenantMatches, totalAtLeast5000, approvedByHuman, hasApprovalRef] },
  { actions := ["dispatch_dropship"], effect := .deny, roles := ["agent_operator"] }]

def methodPushesOut : Cel.Expr := ⟨resource "method", .isIn, .strings ["ach_credit", "wire"]⟩

def payment : Policy := policyFor "commerce:payment" [
  { actions := ["view", "list"], effect := .allow
    roles := ["accountant", "finance_manager", "support_agent", "admin"]
    condition := expr tenantMatches },
  { actions := ["charge", "authorize", "capture"], effect := .allow
    roles := ["accountant", "finance_manager", "agent_operator", "admin"]
    condition := allOf [tenantMatches, ⟨resource "method", .eq, .string "card"⟩] },
  { actions := ["charge"], effect := .allow, roles := ["finance_manager", "admin"]
    condition := allOf [tenantMatches, ⟨resource "method", .eq, .string "ach_debit"⟩,
      ⟨resource "amount", .lt, .int 25000⟩] },
  { actions := ["disburse"], effect := .allow, roles := ["finance_manager", "admin"]
    condition := allOf [tenantMatches, methodPushesOut, approvedByHuman, hasApprovalRef] },
  { actions := ["disburse"], effect := .deny, roles := ["agent_operator", "agent_supervisor"] },
  { actions := ["void"], effect := .allow, roles := ["finance_manager", "admin"]
    condition := expr tenantMatches }]

def amountBelow (n : Nat) : Cel.Expr := ⟨resource "amount", .lt, .int n⟩
def amountAtLeast10000 : Cel.Expr := ⟨resource "amount", .ge, .int 10000⟩

def refund : Policy := policyFor "commerce:refund" [
  { actions := ["view", "list"], effect := .allow
    roles := ["support_agent", "support_manager", "finance_manager", "accountant", "admin"]
    condition := expr tenantMatches },
  { actions := ["propose"], effect := .allow
    roles := ["support_agent", "support_manager", "finance_manager", "agent_operator", "admin"]
    condition := expr tenantMatches },
  { actions := ["issue"], effect := .allow, roles := ["support_agent"]
    condition := allOf [tenantMatches, amountBelow 250] },
  { actions := ["issue"], effect := .allow, roles := ["support_manager"]
    condition := allOf [tenantMatches, amountBelow 2500] },
  { actions := ["issue"], effect := .allow, roles := ["finance_manager", "admin"]
    condition := allOf [tenantMatches, amountBelow 10000] },
  { actions := ["issue"], effect := .allow, roles := ["finance_manager", "admin"]
    condition := allOf [tenantMatches, amountAtLeast10000, approvedByHuman, hasApprovalRef] },
  { actions := ["issue"], effect := .deny, roles := ["agent_operator", "agent_supervisor"] },
  { actions := ["reverse"], effect := .allow, roles := ["finance_manager", "admin"]
    condition := expr tenantMatches }]

def withinWindow : Cel.Expr := ⟨resource "within_return_window", .eq, .bool true⟩
def outsideWindow : Cel.Expr := ⟨resource "within_return_window", .ne, .bool true⟩

def rma : Policy := policyFor "commerce:rma" [
  { actions := ["view", "list"], effect := .allow
    roles := ["support_agent", "support_manager", "warehouse_clerk", "accountant", "admin"]
    condition := expr tenantMatches },
  { actions := ["create"], effect := .allow
    roles := ["support_agent", "support_manager", "agent_operator", "admin"]
    condition := expr tenantMatches },
  { actions := ["authorize"], effect := .allow
    roles := ["support_agent", "support_manager", "admin"]
    condition := allOf [tenantMatches, withinWindow] },
  { actions := ["authorize"], effect := .allow, roles := ["support_manager", "admin"]
    condition := allOf [tenantMatches, outsideWindow, approvedByHuman, hasApprovalRef] },
  { actions := ["authorize_warranty_claim"], effect := .allow
    roles := ["support_manager", "admin"]
    condition := expr tenantMatches },
  { actions := ["receive", "inspect", "restock"], effect := .allow
    roles := ["warehouse_clerk", "warehouse_manager", "admin"]
    condition := expr tenantMatches }]

def costBelow500 : Cel.Expr := ⟨resource "cost", .lt, .int 500⟩
def costAtLeast500 : Cel.Expr := ⟨resource "cost", .ge, .int 500⟩

def shipment : Policy := policyFor "commerce:shipment" [
  { actions := ["view", "list", "track"], effect := .allow
    roles := ["support_agent", "warehouse_clerk", "sales_rep", "agent_operator", "admin"]
    condition := expr tenantMatches },
  { actions := ["buy_label"], effect := .allow
    roles := ["warehouse_clerk", "warehouse_manager", "agent_operator", "admin"]
    condition := allOf [tenantMatches, costBelow500] },
  { actions := ["buy_label"], effect := .allow, roles := ["warehouse_manager", "admin"]
    condition := allOf [tenantMatches, costAtLeast500, approvedByHuman, hasApprovalRef] },
  { actions := ["void_label"], effect := .allow
    roles := ["warehouse_clerk", "warehouse_manager", "admin"]
    condition := expr tenantMatches }]

def tax : Policy := policyFor "commerce:tax" [
  { actions := ["view", "quote"], effect := .allow
    roles := ["accountant", "finance_manager", "sales_rep", "agent_operator", "admin"]
    condition := expr tenantMatches },
  { actions := ["configure_nexus", "update_rate"], effect := .allow
    roles := ["finance_manager", "admin"]
    condition := expr tenantMatches },
  { actions := ["file_return", "remit"], effect := .allow, roles := ["finance_manager", "admin"]
    condition := allOf [tenantMatches, approvedByHuman, hasApprovalRef] },
  { actions := ["file_return", "remit", "configure_nexus", "update_rate"], effect := .deny
    roles := ["agent_operator", "agent_supervisor"] },
  { actions := ["grant_exemption"], effect := .allow, roles := ["finance_manager", "admin"]
    condition := expr tenantMatches }]

/-! ## §5. The other modules of the ERP. -/

/-- The last rule of each of these policies. -/
def adminAnything : Rule := { actions := ["*"], effect := .allow, roles := ["admin"] }

def invoice : Policy := policyFor "finance:invoice" [
  { actions := ["view", "create"], effect := .allow, roles := ["accountant"] },
  { actions := ["view"], effect := .allow, derivedRoles := ["owner"] },
  { actions := ["approve"], effect := .allow, roles := ["finance_manager"]
    condition := expr (amountBelow 10000) },
  adminAnything]

def employeeRecord : Policy := policyFor "hr:employee_record" [
  { actions := ["view", "edit"], effect := .allow, roles := ["hr_specialist", "hr_manager"] },
  { actions := ["view"], effect := .allow, derivedRoles := ["owner"] },
  { actions := ["terminate"], effect := .allow, roles := ["hr_manager"] },
  adminAnything]

def item : Policy := policyFor "inventory:item" [
  { actions := ["view"], effect := .allow, roles := ["warehouse_clerk", "warehouse_manager"] },
  { actions := ["create", "adjust"], effect := .allow
    roles := ["warehouse_clerk", "warehouse_manager"]
    condition := expr ⟨resource "location", .eq, principal "location"⟩ },
  { actions := ["transfer", "delete"], effect := .allow, roles := ["warehouse_manager"] },
  adminAnything]

def workOrder : Policy := policyFor "manufacturing:work_order" [
  { actions := ["view"], effect := .allow, roles := ["operator", "supervisor"] },
  { actions := ["start", "complete"], effect := .allow, roles := ["operator"]
    condition := expr ⟨resource "line", .eq, principal "line"⟩ },
  { actions := ["start", "complete"], effect := .allow, roles := ["supervisor"] },
  { actions := ["cancel"], effect := .allow, roles := ["supervisor"] },
  adminAnything]

def purchaseOrder : Policy := policyFor "purchasing:purchase_order" [
  { actions := ["view", "create"], effect := .allow, roles := ["buyer", "purchasing_manager"] },
  { actions := ["submit"], effect := .allow, derivedRoles := ["owner"] },
  { actions := ["approve"], effect := .allow, roles := ["purchasing_manager"]
    condition := expr ⟨resource "amount", .le, .int 25000⟩ },
  adminAnything]

def lead : Policy := policyFor "sales:lead" [
  { actions := ["view", "create"], effect := .allow, roles := ["sales_rep", "sales_manager"] },
  { actions := ["update"], effect := .allow, derivedRoles := ["owner"] },
  { actions := ["update", "reassign"], effect := .allow, roles := ["sales_manager"] },
  adminAnything]

/-! ## §6. The estate. -/

/-- The policies that turn on tenancy: those of the agent gateway and of commerce. -/
@[simp] def tenantPolicies : List Policy :=
  [mcpTool, catalog, marketplaceListing, order, payment, refund, rma, shipment, tax]

def policies : List Policy :=
  tenantPolicies ++ [invoice, employeeRecord, item, workOrder, purchaseOrder, lead]

end AccessManagement.Estate
