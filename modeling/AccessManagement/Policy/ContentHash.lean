/-
  AccessManagement.Policy.ContentHash — WHAT THE CONTENT HASHES READ (the generated
  `HashPB` methods of `runtime.v1`).

  Each message is written to the hasher field by field, without tags and without marks
  around a nested message.  Two consequences shape everything that is keyed by a hash:

    * an absent message and an empty one write the same bytes, and so do null and false;
    * A CONDITION WRITES ONLY ITS LEAVES.  `all`, `any`, `none` and a bare expression over
      the same leaves write the same bytes.

  The byte hash and the bytes of numbers are parameters (`Hasher`).
-/
import AccessManagement.Lib.Wire
import AccessManagement.Policy.Types

namespace AccessManagement

open Lib List Token

/-- A 64-bit hash of a byte stream (`xxhash`), and how numbers are written to it. -/
structure Hasher where
  wire : Protowire
  hash : List UInt8 → UInt64

instance : CoeFun Hasher (fun _ => List UInt8 → UInt64) := ⟨Hasher.hash⟩

abbrev Tokens := List Token

/-- The hash of a token stream. -/
def Hasher.sum (h : Hasher) (ts : Tokens) : UInt64 := h (encode h.wire ts)

/-- `util.HashStr`. -/
def Hasher.str (h : Hasher) (s : String) : UInt64 := h (utf8 s)

/-! ## §1. Maps are written in key order. -/

def insertByKey {α : Type} (kv : String × α) : List (String × α) → List (String × α)
  | [] => [kv]
  | kv' :: rest => if kv.1 < kv'.1 then kv :: kv' :: rest else kv' :: insertByKey kv rest

/-- The entries of a map in ascending key order (`slices.Sorted(maps.Keys(m))`). -/
def sortByKey {α : Type} (m : List (String × α)) : List (String × α) := m.foldr insertByKey []

/-! ## §2. The messages. -/

mutual

/-- `google.protobuf.Value`. -/
def Value.tokens : Value → Tokens
  | .null => [.varint 0]
  | .bool b => [.varint b.toNat]
  | .number d => [.fixed64 d.bits]
  | .string s => [.text s]
  | .list vs => Value.listTokens vs
  | .struct fs => ((sortByKey (Value.fieldTokens fs)).map (fun kv => .text kv.1 :: kv.2)).flatten

def Value.listTokens : List Value → Tokens
  | [] => []
  | v :: vs => v.tokens ++ Value.listTokens vs

def Value.fieldTokens : List (String × Value) → List (String × Tokens)
  | [] => []
  | (k, v) :: fs => (k, v.tokens) :: Value.fieldTokens fs

end

def Expr.tokens (e : Expr) : Tokens :=
  .text e.original :: (match e.checked with
    | some bs => [.block bs]
    | none => [])

mutual

/-- `runtime.v1.Condition`: the operator is not written. -/
def Condition.tokens : Condition → Tokens
  | .all cs => Condition.listTokens cs
  | .any cs => Condition.listTokens cs
  | .none cs => Condition.listTokens cs
  | .expr e => e.tokens

def Condition.listTokens : List Condition → Tokens
  | [] => []
  | c :: cs => c.tokens ++ Condition.listTokens cs

end

/-- An optional message writes nothing when it is absent. -/
def optTokens {α : Type} (f : α → Tokens) (o : Option α) : Tokens := (o.map f).getD []

def OutputWhen.tokens (w : OutputWhen) : Tokens :=
  optTokens Expr.tokens w.ruleActivated ++ optTokens Expr.tokens w.conditionNotMet

def Output.tokens (o : Output) : Tokens := optTokens OutputWhen.tokens o.when

def Variable.tokens (v : Variable) : Tokens := .text v.name :: v.expr.tokens

/-- A map field: for each key, in order, the key and then its value. -/
def mapTokens {α : Type} (f : α → Tokens) (m : List (String × α)) : Tokens :=
  (sortByKey m).flatMap (fun kv => .text kv.1 :: f kv.2)

def Params.tokens (p : Params) : Tokens :=
  p.orderedVariables.flatMap Variable.tokens ++ mapTokens Value.tokens p.constants

def RunnableDerivedRole.tokens (dr : RunnableDerivedRole) : Tokens :=
  .text dr.name :: (mapTokens (fun _ => []) (dr.parentRoles.map (fun r => (r, ())))
      ++ mapTokens Expr.tokens dr.variableExprs
      ++ optTokens Condition.tokens dr.condition
      ++ dr.orderedVariables.flatMap Variable.tokens
      ++ mapTokens Value.tokens dr.constants
      ++ [.text dr.originFqn])

/-! ## §3. The functional part of a row. -/

def ActionSet.tokens : ActionSet → Tokens
  | .action a => [.text a]
  | .allowActions actions => mapTokens (fun _ => []) (actions.map (fun a => (a, ())))

/-- The row fields that `nonFunctionalChecksumFields` leaves in, in field order, then the
discriminator byte that `IndexRule` writes after them (a varint below 128 is that byte).  The
list names the fields `action` and `allow_actions`, while `HashPB` asks for `action_set`: the
actions are written too. -/
def RuleRow.functionalTokens (row : RuleRow) : Tokens :=
  optTokens ActionSet.tokens row.actionSet
    ++ optTokens Condition.tokens row.condition
    ++ optTokens Condition.tokens row.derivedRoleCondition
    ++ [.varint row.effect.number, .varint row.scopePermissions.number]
    ++ optTokens Output.tokens row.emitOutput
    ++ optTokens Params.tokens row.params
    ++ optTokens Params.tokens row.derivedRoleParams
    ++ [.varint row.policyKind.number, .varint row.fromRolePolicy.toNat]
    ++ [.varint (row.condition.isSome.toNat + 2 * row.derivedRoleCondition.isSome.toNat)]

/-- `funcSum`: the key under which `IndexRule` shares functional cores. -/
def RuleRow.funcSum (h : Hasher) (row : RuleRow) : UInt64 := h.sum row.functionalTokens

/-! ## §4. The end of the functional part is readable. -/

/-- The last three bytes of the functional part are the policy kind, the role-policy flag
and the discriminator. -/
theorem RuleRow.encode_functionalTokens (w : Protowire) (row : RuleRow) : ∃ pre,
    encode w row.functionalTokens = pre ++
      [UInt8.ofNat row.policyKind.number, UInt8.ofNat row.fromRolePolicy.toNat,
        UInt8.ofNat (row.condition.isSome.toNat + 2 * row.derivedRoleCondition.isSome.toNat)] := by
  have hkind : row.policyKind.number < 128 := by cases row.policyKind <;> decide
  have hflag : row.fromRolePolicy.toNat < 128 := by cases row.fromRolePolicy <;> decide
  have hdiscriminator :
      row.condition.isSome.toNat + 2 * row.derivedRoleCondition.isSome.toNat < 128 := by
    cases row.condition.isSome <;> cases row.derivedRoleCondition.isSome <;> decide
  unfold RuleRow.functionalTokens
  rw [append_assoc _ [varint _, varint _] [varint _], encode_append]
  refine ⟨_, congrArg _ ?_⟩
  simp only [cons_append, nil_append, encode_cons, encode_nil, bytes, w.appendVarint_of_lt _ hkind,
    w.appendVarint_of_lt _ hflag, w.appendVarint_of_lt _ hdiscriminator]

/-- Rows whose functional parts have the same bytes come from the same kind of policy. -/
theorem RuleRow.fromRolePolicy_eq_of_encode_eq {w : Protowire} {row row' : RuleRow}
    (h : encode w row.functionalTokens = encode w row'.functionalTokens) :
    row.fromRolePolicy = row'.fromRolePolicy := by
  obtain ⟨pre, hpre⟩ := row.encode_functionalTokens w
  obtain ⟨pre', hpre'⟩ := row'.encode_functionalTokens w
  rw [hpre, hpre'] at h
  have htail := (append_inj' h rfl).2
  simp only [List.cons.injEq] at htail
  have hflag := htail.2.1
  cases hr : row.fromRolePolicy <;> cases hr' : row'.fromRolePolicy <;>
    rw [hr, hr'] at hflag <;> first | rfl | exact absurd hflag (by decide)

end AccessManagement
