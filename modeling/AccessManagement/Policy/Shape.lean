/-
  AccessManagement.Policy.Shape — WHAT THE CONTENT HASH DOES NOT SEE OF A MESSAGE.

  The tokens of a message do not determine it.  What is missing is its SHAPE: the operators of
  a condition, the nesting of a value, which fields are there.  Blanking the texts and numbers
  of a message leaves its shape, and tokens and shape together determine the message, also
  when other tokens follow (`Peels`).

    * `peels_condition`, `peels_output`, `peels_params` — one lemma for each kind of message;
    * `RuleRow.sameFunction_of_tokens` — the functional part of a row;
    * `LegibleParams.content`, `Legible.sameFunction` — when already the bytes determine it.
-/
import AccessManagement.Lib.Binary64
import AccessManagement.Policy.ContentHash

namespace AccessManagement

open Lib List Token

/-! ## §1. Expressions, conditions, outputs. -/

def Expr.blank (e : Expr) : Expr := ⟨"", e.checked.map (fun _ => [])⟩

mutual

/-- A condition without its expressions. -/
def Condition.blank : Condition → Condition
  | .all cs => .all (Condition.blanks cs)
  | .any cs => .any (Condition.blanks cs)
  | .none cs => .none (Condition.blanks cs)
  | .expr e => .expr e.blank

def Condition.blanks : List Condition → List Condition
  | [] => []
  | c :: cs => c.blank :: Condition.blanks cs

end

mutual

/-- A value without its texts and numbers. -/
def Value.blank : Value → Value
  | .null => .null
  | .bool _ => .bool false
  | .number _ => .number ⟨0⟩
  | .string _ => .string ""
  | .list vs => .list (Value.blanks vs)
  | .struct fs => .struct (Value.blankFields fs)

def Value.blanks : List Value → List Value
  | [] => []
  | v :: vs => v.blank :: Value.blanks vs

def Value.blankFields : List (String × Value) → List (String × Value)
  | [] => []
  | (_, v) :: fs => ("", v.blank) :: Value.blankFields fs

end

def OutputWhen.blank (w : OutputWhen) : OutputWhen :=
  ⟨w.ruleActivated.map Expr.blank, w.conditionNotMet.map Expr.blank⟩

def Output.blank (o : Output) : Output := ⟨o.when.map OutputWhen.blank⟩

def Variable.blank (v : Variable) : Variable := ⟨"", v.expr.blank⟩

theorem peels_expr : Peels Expr.tokens Expr.blank := by
  intro e e' r r' hs ht
  obtain ⟨original, checked⟩ := e
  obtain ⟨original', checked'⟩ := e'
  cases checked <;> cases checked' <;> simp_all [Expr.tokens, Expr.blank]

mutual

/-- **Leaves and operators determine a condition.** -/
theorem peels_condition : ∀ (c c' : Condition) (r r' : Tokens), c.blank = c'.blank →
    c.tokens ++ r = c'.tokens ++ r' → c = c' ∧ r = r'
  | .all cs, c', r, r', hs, ht => by
    cases c' with
    | all cs' => simpa using peels_conditions cs cs' r r' (Condition.all.inj hs) ht
    | any | none | expr => cases hs
  | .any cs, c', r, r', hs, ht => by
    cases c' with
    | any cs' => simpa using peels_conditions cs cs' r r' (Condition.any.inj hs) ht
    | all | none | expr => cases hs
  | .none cs, c', r, r', hs, ht => by
    cases c' with
    | none cs' => simpa using peels_conditions cs cs' r r' (Condition.none.inj hs) ht
    | all | any | expr => cases hs
  | .expr e, c', r, r', hs, ht => by
    cases c' with
    | expr e' => simpa using peels_expr e e' r r' (Condition.expr.inj hs) ht
    | all | any | none => cases hs

theorem peels_conditions : ∀ (cs cs' : List Condition) (r r' : Tokens),
    Condition.blanks cs = Condition.blanks cs' →
    Condition.listTokens cs ++ r = Condition.listTokens cs' ++ r' → cs = cs' ∧ r = r'
  | [], cs', r, r', hs, ht => by
    cases cs' with
    | nil => exact ⟨rfl, ht⟩
    | cons => cases hs
  | c :: cs, cs', r, r', hs, ht => by
    cases cs' with
    | nil => cases hs
    | cons c' cs' =>
      rw [Condition.listTokens, Condition.listTokens, append_assoc, append_assoc] at ht
      obtain ⟨rfl, hrest⟩ := peels_condition c c' _ _ (cons.inj hs).1 ht
      obtain ⟨rfl, hend⟩ := peels_conditions cs cs' r r' (cons.inj hs).2 hrest
      exact ⟨rfl, hend⟩

end

theorem peels_output : Peels Output.tokens Output.blank := by
  have hwhen : Peels OutputWhen.tokens OutputWhen.blank := by
    refine (peels_expr.option.prod peels_expr.option).comap
      (f := fun w : OutputWhen => (w.ruleActivated, w.conditionNotMet)) ?_ (fun _ => rfl) ?_
    · rintro ⟨⟩ ⟨⟩ h
      simpa using h
    · intro w w' h
      simpa [OutputWhen.blank] using h
  refine hwhen.option.comap (f := Output.when) ?_ (fun _ => rfl) ?_
  · rintro ⟨⟩ ⟨⟩ h
    simpa using h
  · intro o o' h
    simpa [Output.blank] using h

/-! ## §2. Values. -/

/-- The keys of a map are listed in ascending order, each once. -/
def KeyOrder {α : Type} (m : List (String × α)) : Prop := m.Pairwise (fun a b => a.1 < b.1)

mutual

/-- Every map of a value is listed by its keys. -/
def Value.InOrder : Value → Prop
  | .list vs => Value.AllInOrder vs
  | .struct fs => KeyOrder fs ∧ Value.FieldsInOrder fs
  | _ => True

def Value.AllInOrder : List Value → Prop
  | [] => True
  | v :: vs => v.InOrder ∧ Value.AllInOrder vs

def Value.FieldsInOrder : List (String × Value) → Prop
  | [] => True
  | (_, v) :: fs => v.InOrder ∧ Value.FieldsInOrder fs

end

theorem sortByKey_of_keyOrder {α : Type} {m : List (String × α)} (h : KeyOrder m) :
    sortByKey m = m := by
  induction m with
  | nil => rfl
  | cons kv m ih =>
    obtain ⟨hfirst, hrest⟩ := pairwise_cons.mp h
    show insertByKey kv (sortByKey m) = _
    rw [ih hrest]
    cases m with
    | nil => rfl
    | cons kv' m => exact if_pos (hfirst kv' mem_cons_self)

/-- The fields of a struct, one after the other. -/
def fieldStream (fs : List (String × Value)) : Tokens :=
  fs.flatMap (fun kv => .text kv.1 :: kv.2.tokens)

theorem fieldTokens_eq (fs : List (String × Value)) :
    Value.fieldTokens fs = fs.map (fun kv => (kv.1, kv.2.tokens)) := by
  induction fs with
  | nil => rfl
  | cons kv fs ih => rw [Value.fieldTokens, ih]; rfl

theorem struct_tokens {fs : List (String × Value)} (h : KeyOrder fs) :
    (Value.struct fs).tokens = fieldStream fs := by
  have horder : KeyOrder (fs.map (fun kv => (kv.1, kv.2.tokens))) := pairwise_map.mpr h
  rw [Value.tokens, fieldTokens_eq, sortByKey_of_keyOrder horder, map_map, ← flatMap_def]
  rfl

mutual

/-- **Scalars and nesting determine a value.** -/
theorem peels_value : ∀ (v v' : Value) (r r' : Tokens), v.InOrder → v'.InOrder →
    v.blank = v'.blank → v.tokens ++ r = v'.tokens ++ r' → v = v' ∧ r = r'
  | .null, v', r, r', _, _, hs, ht => by
    cases v' with
    | null => exact ⟨rfl, (cons.inj ht).2⟩
    | bool | number | string | list | struct => cases hs
  | .bool b, v', r, r', _, _, hs, ht => by
    cases v' with
    | bool b' =>
      obtain ⟨hb, hrest⟩ := cons.inj ht
      refine ⟨?_, hrest⟩
      cases b <;> cases b' <;> first | rfl | cases hb
    | null | number | string | list | struct => cases hs
  | .number d, v', r, r', _, _, hs, ht => by
    cases v' with
    | number d' =>
      obtain ⟨hd, hrest⟩ := cons.inj ht
      obtain ⟨bits⟩ := d
      obtain ⟨bits'⟩ := d'
      exact ⟨by rw [show bits = bits' from Token.fixed64.inj hd], hrest⟩
    | null | bool | string | list | struct => cases hs
  | .string s, v', r, r', _, _, hs, ht => by
    cases v' with
    | string s' =>
      obtain ⟨htext, hrest⟩ := cons.inj ht
      exact ⟨by rw [Token.text.inj htext], hrest⟩
    | null | bool | number | list | struct => cases hs
  | .list vs, v', r, r', ho, ho', hs, ht => by
    cases v' with
    | list vs' => simpa using peels_values vs vs' r r' ho ho' (Value.list.inj hs) ht
    | null | bool | number | string | struct => cases hs
  | .struct fs, v', r, r', ho, ho', hs, ht => by
    cases v' with
    | struct fs' =>
      rw [struct_tokens ho.1, struct_tokens ho'.1] at ht
      simpa using peels_fields fs fs' r r' ho.2 ho'.2 (Value.struct.inj hs) ht
    | null | bool | number | string | list => cases hs

theorem peels_values : ∀ (vs vs' : List Value) (r r' : Tokens), Value.AllInOrder vs →
    Value.AllInOrder vs' → Value.blanks vs = Value.blanks vs' →
    Value.listTokens vs ++ r = Value.listTokens vs' ++ r' → vs = vs' ∧ r = r'
  | [], vs', r, r', _, _, hs, ht => by
    cases vs' with
    | nil => exact ⟨rfl, ht⟩
    | cons => cases hs
  | v :: vs, vs', r, r', ho, ho', hs, ht => by
    cases vs' with
    | nil => cases hs
    | cons v' vs' =>
      rw [Value.listTokens, Value.listTokens, append_assoc, append_assoc] at ht
      obtain ⟨rfl, hrest⟩ := peels_value v v' _ _ ho.1 ho'.1 (cons.inj hs).1 ht
      obtain ⟨rfl, hend⟩ := peels_values vs vs' r r' ho.2 ho'.2 (cons.inj hs).2 hrest
      exact ⟨rfl, hend⟩

theorem peels_fields : ∀ (fs fs' : List (String × Value)) (r r' : Tokens),
    Value.FieldsInOrder fs → Value.FieldsInOrder fs' →
    Value.blankFields fs = Value.blankFields fs' →
    fieldStream fs ++ r = fieldStream fs' ++ r' → fs = fs' ∧ r = r'
  | [], fs', r, r', _, _, hs, ht => by
    cases fs' with
    | nil => exact ⟨rfl, ht⟩
    | cons => cases hs
  | (k, v) :: fs, fs', r, r', ho, ho', hs, ht => by
    cases fs' with
    | nil => cases hs
    | cons f' fs' =>
      obtain ⟨k', v'⟩ := f'
      unfold fieldStream at ht
      rw [flatMap_cons, flatMap_cons, cons_append, cons_append, cons_append, cons_append,
        append_assoc, append_assoc] at ht
      obtain ⟨hk, hvalue⟩ := cons.inj ht
      obtain rfl := Token.text.inj hk
      have hblank := (Prod.mk.inj (cons.inj hs).1).2
      obtain ⟨rfl, hrest⟩ := peels_value v v' _ _ ho.1 ho'.1 hblank hvalue
      obtain ⟨rfl, hend⟩ := peels_fields fs fs' r r' ho.2 ho'.2 (cons.inj hs).2 hrest
      exact ⟨rfl, hend⟩

end

mutual

/-- No infinity and no NaN, at any depth. -/
def Value.isFinite : Value → Bool
  | .number d => decide (Binary64.exponent d.bits ≠ 2047)
  | .list vs => Value.allFinite vs
  | .struct fs => Value.fieldsFinite fs
  | _ => true

def Value.allFinite : List Value → Bool
  | [] => true
  | v :: vs => v.isFinite && Value.allFinite vs

def Value.fieldsFinite : List (String × Value) → Bool
  | [] => true
  | (_, v) :: fs => v.isFinite && Value.fieldsFinite fs

end

/-! ## §3. Parameters. -/

/-- The variables and constants of a parameter message; an absent one has none. -/
def paramContent (p : Option Params) : List Variable × List (String × Value) :=
  ((p.map (·.orderedVariables)).getD [], (p.map (·.constants)).getD [])

/-- How many variables there are, and how the constants are nested. -/
def paramShape (p : Option Params) : List Variable × List (String × Value) :=
  ((paramContent p).1.map Variable.blank, Value.blankFields (paramContent p).2)

/-- The constants are listed by their names, at every level. -/
def ParamsInOrder (p : Option Params) : Prop :=
  KeyOrder (paramContent p).2 ∧ Value.FieldsInOrder (paramContent p).2

theorem peels_variable : Peels Variable.tokens Variable.blank := by
  intro v v' r r' hs ht
  obtain ⟨name, expr⟩ := v
  obtain ⟨name', expr'⟩ := v'
  obtain ⟨hname, hrest⟩ := cons.inj ht
  obtain rfl := Token.text.inj hname
  obtain ⟨rfl, hend⟩ := peels_expr expr expr' r r' (Variable.mk.inj hs).2 hrest
  exact ⟨rfl, hend⟩

/-- **Tokens and shape determine the variables and constants of a message.** -/
theorem peels_params {p p' : Option Params} {r r' : Tokens} (ho : ParamsInOrder p)
    (ho' : ParamsInOrder p') (hs : paramShape p = paramShape p')
    (ht : optTokens Params.tokens p ++ r = optTokens Params.tokens p' ++ r') :
    paramContent p = paramContent p' ∧ r = r' := by
  have htokens : ∀ p, ParamsInOrder p → optTokens Params.tokens p =
      (paramContent p).1.flatMap Variable.tokens ++ fieldStream (paramContent p).2 := by
    intro p ho
    cases p with
    | none => rfl
    | some p =>
      have hsorted : sortByKey p.constants = p.constants := sortByKey_of_keyOrder ho.1
      show p.orderedVariables.flatMap _ ++ (sortByKey p.constants).flatMap _ = _
      rw [hsorted]
      rfl
  obtain ⟨hvars, hconsts⟩ := Prod.mk.inj hs
  rw [htokens p ho, htokens p' ho', append_assoc, append_assoc] at ht
  obtain ⟨h₁, hrest⟩ := peels_variable.list _ _ _ _ hvars ht
  obtain ⟨h₂, hend⟩ := peels_fields _ _ _ _ ho.2 ho'.2 hconsts hrest
  exact ⟨Prod.ext h₁ h₂, hend⟩

/-- Messages that the content hash tells apart: their tokens part in a way that the bytes show, and
messages with the same tokens have the same shape. -/
structure LegibleParams (ps : List (Option Params)) : Prop where
  inOrder : ∀ p ∈ ps, ParamsInOrder p
  parted : ∀ p ∈ ps, ∀ q ∈ ps,
    parted (optTokens Params.tokens p) (optTokens Params.tokens q) = true
  shape : ∀ p ∈ ps, ∀ q ∈ ps, optTokens Params.tokens p = optTokens Params.tokens q →
    paramShape p = paramShape q

theorem optTokens_params (p : Option Params) : optTokens Params.tokens p =
    Params.tokens ⟨(paramContent p).1, (paramContent p).2⟩ := by
  cases p <;> rfl

/-- Messages without variables and constants are legible. -/
theorem legibleParams_of_empty {ps : List (Option Params)}
    (h : ∀ p ∈ ps, paramContent p = ([], [])) : LegibleParams ps := by
  refine ⟨fun p hp => ?_, fun p hp q hq => ?_, fun p hp q hq _ => ?_⟩
  · rw [ParamsInOrder, h p hp]
    exact ⟨Pairwise.nil, trivial⟩
  · rw [optTokens_params, optTokens_params, h p hp, h q hq]
    rfl
  · rw [paramShape, paramShape, h p hp, h q hq]

/-- **The bytes of legible messages determine their variables and constants.** -/
theorem LegibleParams.content {ps : List (Option Params)} (h : LegibleParams ps) {w : Protowire}
    {p q : Option Params} (hp : p ∈ ps) (hq : q ∈ ps)
    (hbytes : encode w (optTokens Params.tokens p) = encode w (optTokens Params.tokens q)) :
    paramContent p = paramContent q := by
  have htokens := eq_of_encode_eq w (h.parted p hp q hq) hbytes
  have hshape := h.shape p hp q hq htokens
  exact (@peels_params p q [] [] (h.inOrder p hp) (h.inOrder q hq) hshape (by rw [htokens])).1

/-! ## §4. Rows. -/

/-- Two rows agree on what a core holds. -/
structure RuleRow.SameFunction (row row' : RuleRow) : Prop where
  effect : row.effect = row'.effect
  condition : row.condition = row'.condition
  derivedRoleCondition : row.derivedRoleCondition = row'.derivedRoleCondition
  emitOutput : row.emitOutput = row'.emitOutput
  scopePermissions : row.scopePermissions = row'.scopePermissions
  policyKind : row.policyKind = row'.policyKind
  fromRolePolicy : row.fromRolePolicy = row'.fromRolePolicy
  params : paramContent row.params = paramContent row'.params
  derivedRoleParams : paramContent row.derivedRoleParams = paramContent row'.derivedRoleParams

/-- The shape of the functional part of a row. -/
structure RuleRow.SameShape (row row' : RuleRow) : Prop where
  actions : (optTokens ActionSet.tokens row.actionSet).length =
    (optTokens ActionSet.tokens row'.actionSet).length
  condition : row.condition.map Condition.blank = row'.condition.map Condition.blank
  derivedRoleCondition : row.derivedRoleCondition.map Condition.blank =
    row'.derivedRoleCondition.map Condition.blank
  emitOutput : row.emitOutput.map Output.blank = row'.emitOutput.map Output.blank
  params : paramShape row.params = paramShape row'.params
  derivedRoleParams : paramShape row.derivedRoleParams = paramShape row'.derivedRoleParams

/-- **Tokens and shape determine the functional part of a row.** -/
theorem RuleRow.sameFunction_of_tokens {row row' : RuleRow}
    (ho : ParamsInOrder row.params ∧ ParamsInOrder row.derivedRoleParams)
    (ho' : ParamsInOrder row'.params ∧ ParamsInOrder row'.derivedRoleParams)
    (hs : row.SameShape row') (ht : row.functionalTokens = row'.functionalTokens) :
    row.SameFunction row' := by
  have hcond : Peels Condition.tokens Condition.blank := peels_condition
  unfold RuleRow.functionalTokens at ht
  simp only [append_assoc, cons_append, nil_append] at ht
  -- one field after the other is read off the front
  obtain ⟨-, ht⟩ := append_inj ht hs.actions
  obtain ⟨hcondition, ht⟩ := hcond.option _ _ _ _ hs.condition ht
  obtain ⟨hdrCondition, ht⟩ := hcond.option _ _ _ _ hs.derivedRoleCondition ht
  obtain ⟨heffect, ht⟩ := cons.inj ht
  obtain ⟨hpermissions, ht⟩ := cons.inj ht
  obtain ⟨houtput, ht⟩ := peels_output.option _ _ _ _ hs.emitOutput ht
  obtain ⟨hparams, ht⟩ := peels_params ho.1 ho'.1 hs.params ht
  obtain ⟨hdrParams, ht⟩ := peels_params ho.2 ho'.2 hs.derivedRoleParams ht
  obtain ⟨hkind, ht⟩ := cons.inj ht
  obtain ⟨hflag, -⟩ := cons.inj ht
  refine ⟨?_, hcondition, hdrCondition, houtput, ?_, ?_, ?_, hparams, hdrParams⟩
  · have hnumber := Token.varint.inj heffect
    cases he : row.effect <;> cases he' : row'.effect <;> rw [he, he'] at hnumber <;>
      first | rfl | cases hnumber
  · have hnumber := Token.varint.inj hpermissions
    cases he : row.scopePermissions <;> cases he' : row'.scopePermissions <;>
      rw [he, he'] at hnumber <;> first | rfl | cases hnumber
  · have hnumber := Token.varint.inj hkind
    cases he : row.policyKind <;> cases he' : row'.policyKind <;>
      rw [he, he'] at hnumber <;> first | rfl | cases hnumber
  · have hnumber := Token.varint.inj hflag
    cases he : row.fromRolePolicy <;> cases he' : row'.fromRolePolicy <;>
      rw [he, he'] at hnumber <;> first | rfl | cases hnumber

/-- The parameters of the row are those that its kind is indexed with: only resource and
principal policies have any, and only a derived role has derived-role parameters. -/
structure RuleRow.TakesParams (row : RuleRow) : Prop where
  params : row.policyKind = .resource ∨ row.policyKind = .principal ∨
    paramContent row.params = ([], [])
  derivedRoleParams : (row.policyKind = .resource ∧ row.originDerivedRole ≠ "") ∨
    paramContent row.derivedRoleParams = ([], [])

/-- Rows that the content hash tells apart. -/
structure Legible (rows : List RuleRow) : Prop where
  parted : ∀ row ∈ rows, ∀ row' ∈ rows,
    parted row.functionalTokens row'.functionalTokens = true
  shape : ∀ row ∈ rows, ∀ row' ∈ rows, row.functionalTokens = row'.functionalTokens →
    row.SameShape row'
  params : LegibleParams (rows.map RuleRow.params)
  derivedRoleParams : LegibleParams (rows.map RuleRow.derivedRoleParams)
  takesParams : ∀ row ∈ rows, row.TakesParams

/-- **The bytes of legible rows determine what their cores hold.** -/
theorem Legible.sameFunction {rows : List RuleRow} (h : Legible rows) {w : Protowire}
    {row row' : RuleRow} (hrow : row ∈ rows) (hrow' : row' ∈ rows)
    (hbytes : encode w row.functionalTokens = encode w row'.functionalTokens) :
    row.SameFunction row' := by
  have htokens := eq_of_encode_eq w (h.parted row hrow row' hrow') hbytes
  have horder : ∀ r ∈ rows, ParamsInOrder r.params ∧ ParamsInOrder r.derivedRoleParams :=
    fun r hr => ⟨h.params.inOrder _ (mem_map_of_mem hr),
      h.derivedRoleParams.inOrder _ (mem_map_of_mem hr)⟩
  exact RuleRow.sameFunction_of_tokens (horder row hrow) (horder row' hrow')
    (h.shape row hrow row' hrow' htokens) htokens

end AccessManagement
