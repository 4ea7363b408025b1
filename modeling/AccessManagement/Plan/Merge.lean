/-
  AccessManagement.Plan.Merge — ONE FILTER FOR SEVERAL ACTIONS (`MergeWithAnd` of
  `planner/merge.go`, `FilterToString` of `planner/ast.go`).

  The planner makes one filter for each action and joins them with `and`.  The conditions are
  first put into a map under their PRINTED text, so two conditions with one text become one
  operand, the later of the two.  A value is printed as JSON (`marshal`, a parameter); one that
  has no JSON form (an infinity, NaN, or a list that holds one) is printed as `<ERROR>`, and two
  of those look the same.

    * `CondsOf`     — what the loop knows of its map after any part of the list;
    * `holds_joined`  — the merged filter holds when every condition in the map does;
    * `print_eq_iff` — a text determines the condition up to the values that have no JSON form;
    * `mergeWithAnd_conjunction_iff` — so the merged filter is the conjunction exactly when
      conditions that differ in such values only have one meaning.
-/
import AccessManagement.Lib.Maps
import AccessManagement.Plan.Filter
import AccessManagement.Policy.Shape

namespace AccessManagement

open Lib AList

section

variable (marshal : Value → Option String)

/-! ## §1. The text of a filter. -/

mutual

/-- `filterExprOpToString` and `filterExprOpExprToString`. -/
def Operand.print : Operand → String
  | .empty => ""
  | .value v => (marshal v).getD "<ERROR>"
  | .var name => name
  | .expression operator operands =>
    "(" ++ operator ++ " " ++ " ".intercalate (Operand.prints operands) ++ ")"

def Operand.prints : List Operand → List String
  | [] => []
  | o :: os => o.print :: Operand.prints os

end

/-- `conds`: the conditions by their text. -/
abbrev Conds := AList (fun _ : String => Operand)

/-- The conditions in the order of their texts. -/
def operandsOf (conds : Conds) : List Operand :=
  (conds.keys.mergeSort (fun k k' => decide (k ≤ k'))).filterMap conds.lookup

/-- The switch on `len(conds)`. -/
def joined (conds : Conds) : PlanResourcesFilter :=
  match operandsOf conds with
  | [] => .alwaysAllowed
  | [c] => .conditional c
  | cs => .conditional (.expression "and" cs)

/-- Every entry is a condition of the filters seen so far, under its own text, and each of
those conditions has an entry. -/
structure CondsOf (fs : List PlanResourcesFilter) (conds : Conds) : Prop where
  entry : ∀ key c, conds.lookup key = some c → .conditional c ∈ fs ∧ c.print marshal = key
  present : ∀ c, .conditional c ∈ fs → ∃ c', conds.lookup (c.print marshal) = some c'

variable {marshal} {fs : List PlanResourcesFilter} {conds : Conds} {call : Calls} {ρ : Assignment}

theorem CondsOf.insert (h : CondsOf marshal fs conds) (c : Operand) :
    CondsOf marshal (fs ++ [.conditional c]) (conds.insert (c.print marshal) c) := by
  constructor
  · intro key d hd
    rw [lookup_insert_ite] at hd
    split_ifs at hd with hkey
    · obtain rfl := Option.some.inj hd
      simp [hkey]
    · have hold := h.entry key d hd
      simp [hold]
  · intro d hd
    rw [lookup_insert_ite]
    split_ifs with hkey
    · exact ⟨c, rfl⟩
    · have hne : d ≠ c := fun heq => hkey (heq ▸ rfl)
      exact h.present d (by simpa [hne] using hd)

theorem CondsOf.allowed (h : CondsOf marshal fs conds) :
    CondsOf marshal (fs ++ [.alwaysAllowed]) conds := by
  constructor
  · intro key c hc
    have hold := h.entry key c hc
    simp [hold]
  · intro c hc
    exact h.present c (by simpa using hc)

theorem CondsOf.empty : CondsOf marshal [] ∅ := by
  constructor <;> simp

/-! ## §4. What the merged filter means. -/

theorem mem_operandsOf {c : Operand} : c ∈ operandsOf conds ↔ ∃ key, conds.lookup key = some c := by
  unfold operandsOf
  simp only [List.mem_filterMap, List.mem_mergeSort]
  refine exists_congr (fun key => and_iff_right_of_imp (fun h => ?_))
  exact mem_keys.1 (lookup_isSome.1 (by rw [h]; rfl))

theorem holds_joined : (joined conds).holds call ρ = some true ↔
    ∀ key c, conds.lookup key = some c → truth (c.eval call ρ) = some true := by
  have hall : (joined conds).holds call ρ = some true ↔
      ∀ c ∈ operandsOf conds, truth (c.eval call ρ) = some true := by
    unfold joined
    split
    · next hnil => simp [hnil]
    · next c hone => simp [hone]
    · exact truth_eval_and
  rw [hall]
  simp only [mem_operandsOf]
  constructor
  · intro h key c hc
    exact h c ⟨key, hc⟩
  · intro h c hc
    obtain ⟨key, hkey⟩ := hc
    exact h key c hkey

end

/-! ## §5. What a text tells. -/

mutual

/-- The condition without the values that JSON cannot write. -/
def Operand.masked : Operand → Operand
  | .empty => .empty
  | .value v => if v.isFinite then .value v else .empty
  | .var name => .var name
  | .expression operator operands => .expression operator (Operand.maskedAll operands)

def Operand.maskedAll : List Operand → List Operand
  | [] => []
  | o :: os => o.masked :: Operand.maskedAll os

end

/-- The JSON texts that are words, and what the other JSON texts begin with. -/
def keywords : List String := ["null", "true", "false"]
def jsonStarts : List Char := "\"[\x7b-0123456789".toList

/-- Neither a blank nor a closing parenthesis ends the text. -/
def Solid (cs : List Char) : Prop := ∀ c ∈ cs, c ≠ ' ' ∧ c ≠ ')'

instance : DecidablePred Solid := fun cs => List.decidableBAll _ cs

/-- A text that cannot be taken for JSON or for an expression. -/
structure Plain (s : String) : Prop where
  not_keyword : s ∉ keywords
  start : ∃ c rest, s.toList = c :: rest ∧ c ∉ jsonStarts ∧ c ≠ '('
  solid : Solid s.toList

/-- What can follow an operand in a text. -/
def Ends (r : List Char) : Prop := ∀ c ∈ r.head?, c = ' ' ∨ c = ')'

/-- What is assumed of `protojson.Marshal`, on the values `vs`: it refuses the infinities and
NaN, its text determines the value (a struct is listed in the order of its keys), and a text
cannot be continued by a blank or a parenthesis to give another one. -/
structure Protojson (marshal : Value → Option String) (vs : Value → Prop) : Prop where
  isSome_iff : ∀ v, vs v → ((marshal v).isSome ↔ v.isFinite)
  inj : ∀ v w s, vs v → vs w → marshal v = some s → marshal w = some s → v = w
  delimited : ∀ v w s t r r', vs v → vs w → marshal v = some s → marshal w = some t →
    Ends r → Ends r' → s.toList ++ r = t.toList ++ r' → s = t
  starts : ∀ v s, vs v → marshal v = some s →
    s ∈ keywords ∨ ∃ c rest, s.toList = c :: rest ∧ c ∈ jsonStarts

/-- A condition as the planner builds it, over the values `vs`. -/
inductive Operand.Spelled (vs : Value → Prop) : Operand → Prop where
  | value {v : Value} (h : vs v) : Spelled vs (.value v)
  | var {name : String} (h : Plain name) (hne : name ≠ "<ERROR>") : Spelled vs (.var name)
  | expression {operator : String} {operands : List Operand} (h : Plain operator)
      (hos : ∀ o ∈ operands, Spelled vs o) : Spelled vs (.expression operator operands)

section Text

variable {marshal : Value → Option String} {vs : Value → Prop} {r r' : List Char} {o o' : Operand}
  {s t : String}

theorem ends_cons {c : Char} (hc : c = ' ' ∨ c = ')') : Ends (c :: r) := by
  intro d hd
  obtain rfl : c = d := by simpa using hd
  exact hc

/-- Up to its end a solid text is determined. -/
theorem Solid.append_inj {xs ys : List Char} (hxs : Solid xs) (hys : Solid ys) (hr : Ends r)
    (hr' : Ends r') (h : xs ++ r = ys ++ r') : xs = ys ∧ r = r' := by
  -- a text that ended earlier would be followed by a character of the other one
  have hclash : ∀ {c : Char} {r cs : List Char}, Ends r → r = c :: cs → ¬(c ≠ ' ' ∧ c ≠ ')') := by
    intro c r cs hr heq hsolid
    have hends := hr c (by rw [heq]; rfl)
    simp [hsolid] at hends
  induction xs generalizing ys with
  | nil =>
    cases ys with
    | nil => exact ⟨rfl, h⟩
    | cons c ys => exact absurd (hys c List.mem_cons_self) (hclash hr h)
  | cons c xs ih =>
    cases ys with
    | nil => exact absurd (hxs c List.mem_cons_self) (hclash hr' h.symm)
    | cons d ys =>
      obtain ⟨rfl, htail⟩ := List.cons.inj h
      obtain ⟨rfl, hrest⟩ := ih (fun c hc => hxs c (List.mem_cons_of_mem _ hc))
        (fun c hc => hys c (List.mem_cons_of_mem _ hc)) htail
      exact ⟨rfl, hrest⟩

theorem plain_error : Plain "<ERROR>" :=
  ⟨by decide, ⟨'<', "ERROR>".toList, by decide +kernel, by decide +kernel, by decide⟩,
    by decide +kernel⟩

/-- No plain text begins with a JSON text. -/
theorem Plain.ne_json (hs : Plain s) (hjson : Protojson marshal vs) {v : Value} (hv : vs v)
    (ht : marshal v = some t) (hr : Ends r) (hr' : Ends r') : s.toList ++ r ≠ t.toList ++ r' := by
  intro h
  obtain hkey | ⟨c, rest, heq, hc⟩ := hjson.starts v t hv ht
  · have hsolid : ∀ k ∈ keywords, Solid k.toList := by decide +kernel
    obtain ⟨hst, -⟩ := hs.solid.append_inj (hsolid t hkey) hr hr' h
    exact hs.not_keyword (String.toList_inj.1 hst ▸ hkey)
  · obtain ⟨d, rest', heq', hd, -⟩ := hs.start
    rw [heq, heq'] at h
    exact hd ((List.cons.inj h).1 ▸ hc)

/-- A leaf is written as a plain text, which it is read back from, or as the JSON of its value. -/
theorem Operand.Spelled.leaf (hjson : Protojson marshal vs) (ho : o.Spelled vs) :
    (∃ op os, o = .expression op os) ∨
    (Plain (o.print marshal) ∧ o.masked =
      if o.print marshal = "<ERROR>" then .empty else .var (o.print marshal)) ∨
    ∃ v, vs v ∧ marshal v = some (o.print marshal) ∧ o.masked = .value v := by
  cases ho with
  | expression => exact Or.inl ⟨_, _, rfl⟩
  | var h hne => exact Or.inr (Or.inl ⟨h, (if_neg hne).symm⟩)
  | @value v hv =>
    have hiff := hjson.isSome_iff v hv
    rw [Operand.masked, Operand.print]
    cases hs : marshal v with
    | none =>
      have hnot : v.isFinite ≠ true := fun hf => by simpa [hs] using hiff.2 hf
      exact Or.inr (Or.inl ⟨plain_error, by rw [if_neg hnot]; rfl⟩)
    | some s =>
      have hfinite : v.isFinite = true := hiff.1 (by rw [hs]; rfl)
      exact Or.inr (Or.inr ⟨v, hv, hs, by rw [if_pos hfinite]⟩)

/-- The text of `o` determines it up to the values without JSON, whatever follows it. -/
def Determines (marshal : Value → Option String) (vs : Value → Prop) (o : Operand) : Prop :=
  ∀ (o' : Operand) (r r' : List Char), o'.Spelled vs → Ends r → Ends r' →
    (o.print marshal).toList ++ r = (o'.print marshal).toList ++ r' → o.masked = o'.masked ∧ r = r'

/-- The operands of an expression, with the closing parenthesis and what follows. -/
def operandsText (marshal : Value → Option String) (os : List Operand) (r : List Char) : List Char :=
  [' '].intercalate (os.map (fun o => (o.print marshal).toList)) ++ ')' :: r

theorem print_expression (marshal : Value → Option String) (operator : String)
    (os : List Operand) (r : List Char) :
    ((Operand.expression operator os).print marshal).toList ++ r =
      '(' :: (operator.toList ++ ' ' :: operandsText marshal os r) := by
  have hprints : ∀ os, Operand.prints marshal os = os.map (Operand.print marshal) := by
    intro os
    induction os with
    | nil => rfl
    | cons o os ih => rw [Operand.prints, ih, List.map_cons]
  simp [Operand.print, operandsText, hprints, Function.comp_def]

/-- What a text begins with tells an expression from a leaf. -/
theorem Operand.Spelled.start (ho : o.Spelled vs) (hjson : Protojson marshal vs) :
    ∃ c rest, (o.print marshal).toList = c :: rest ∧ c ≠ ')' ∧
      (c = '(' ↔ ∃ op os, o = .expression op os) := by
  by_cases hexpr : ∃ op os, o = .expression op os
  · obtain ⟨op, os, rfl⟩ := hexpr
    have htext := print_expression marshal op os []
    rw [List.append_nil] at htext
    exact ⟨'(', _, htext, by decide, by simp⟩
  · obtain hyes | ⟨hplain, -⟩ | ⟨v, hv, hs, -⟩ := ho.leaf hjson
    · exact absurd hyes hexpr
    · obtain ⟨c, rest, heq, -, hopen⟩ := hplain.start
      exact ⟨c, rest, heq, (hplain.solid c (by simp [heq])).2, by simp [hopen, hexpr]⟩
    · obtain hkey | ⟨c, rest, heq, hc⟩ := hjson.starts v _ hv hs
      · have hall : ∀ k ∈ keywords, k.toList ≠ [] ∧ ')' ≠ k.toList.headD ' ' ∧
            '(' ≠ k.toList.headD ' ' := by decide +kernel
        obtain ⟨hne, hclose, hopen⟩ := hall _ hkey
        obtain ⟨c, rest, heq⟩ := List.exists_cons_of_ne_nil hne
        rw [heq] at hclose hopen
        exact ⟨c, rest, heq, hclose.symm, iff_of_false hopen.symm hexpr⟩
      · have hbrackets : ')' ∉ jsonStarts ∧ '(' ∉ jsonStarts := by decide +kernel
        exact ⟨c, rest, heq, ne_of_mem_of_not_mem hc hbrackets.1,
          iff_of_false (ne_of_mem_of_not_mem hc hbrackets.2) hexpr⟩

theorem determines_leaf (hjson : Protojson marshal vs) (ho : o.Spelled vs)
    (hexpr : ¬∃ op os, o = .expression op os) : Determines marshal vs o := by
  intro o' r r' ho' hr hr' h
  have hexpr' : ¬∃ op os, o' = .expression op os := by
    obtain ⟨c, rest, hstart, -, hopen⟩ := ho.start hjson
    obtain ⟨c', rest', hstart', -, hopen'⟩ := ho'.start hjson
    rw [hstart, hstart'] at h
    rwa [← hopen', ← (List.cons.inj h).1, hopen]
  obtain hp | ⟨hv, hs, hmask⟩ := (ho.leaf hjson).resolve_left hexpr
  · obtain hp' | ⟨v', hv', hs', hmask'⟩ := (ho'.leaf hjson).resolve_left hexpr'
    · obtain ⟨hsame, hrest⟩ := hp.1.solid.append_inj hp'.1.solid hr hr' h
      rw [hp.2, hp'.2, String.toList_inj.1 hsame]
      exact ⟨rfl, hrest⟩
    · exact absurd h (hp.1.ne_json hjson hv' hs' hr hr')
  · obtain hp' | ⟨v', hv', hs', hmask'⟩ := (ho'.leaf hjson).resolve_left hexpr'
    · exact absurd h.symm (hp'.1.ne_json hjson hs hmask.1 hr' hr)
    · have hsame := hjson.delimited _ _ _ _ r r' hs hv' hmask.1 hs' hr hr' h
      rw [← hsame] at hs' h
      rw [hmask.2, hmask', hjson.inj _ _ _ hs hv' hmask.1 hs']
      exact ⟨rfl, List.append_cancel_left h⟩

theorem operandsText_cons (marshal : Value → Option String) (o : Operand) (os : List Operand)
    (r : List Char) : ∃ rest, Ends rest ∧
      operandsText marshal (o :: os) r = (o.print marshal).toList ++ rest ∧
      rest = if os = [] then ')' :: r else ' ' :: operandsText marshal os r := by
  cases os with
  | nil => exact ⟨')' :: r, ends_cons (Or.inr rfl), by simp [operandsText], rfl⟩
  | cons o' os =>
    refine ⟨' ' :: operandsText marshal (o' :: os) r, ends_cons (Or.inl rfl), ?_, by simp⟩
    simp [operandsText]

theorem operandsText_inj (hjson : Protojson marshal vs) {os os' : List Operand}
    (ih : ∀ o ∈ os, Determines marshal vs o)
    (hos : ∀ o ∈ os, o.Spelled vs) (hos' : ∀ o ∈ os', o.Spelled vs)
    (h : operandsText marshal os r = operandsText marshal os' r') :
    Operand.maskedAll os = Operand.maskedAll os' ∧ r = r' := by
  -- no operand begins with the parenthesis that ends an empty list
  have hempty : ∀ {o : Operand} {os : List Operand} {r r' : List Char}, o.Spelled vs →
      operandsText marshal (o :: os) r ≠ operandsText marshal [] r' := by
    intro o os r r' ho heq
    obtain ⟨rest, -, htext, -⟩ := operandsText_cons marshal o os r
    obtain ⟨c, tail, hstart, hclose, -⟩ := ho.start hjson
    rw [htext, hstart] at heq
    exact hclose (List.cons.inj heq).1
  induction os generalizing os' with
  | nil =>
    cases os' with
    | nil => exact ⟨rfl, (List.cons.inj h).2⟩
    | cons o' os' => exact absurd h.symm (hempty (hos' o' List.mem_cons_self))
  | cons o os ihos =>
    cases os' with
    | nil => exact absurd h (hempty (hos o List.mem_cons_self))
    | cons o' os' =>
      obtain ⟨rest, hends, htext, hrest⟩ := operandsText_cons marshal o os r
      obtain ⟨rest', hends', htext', hrest'⟩ := operandsText_cons marshal o' os' r'
      rw [htext, htext'] at h
      obtain ⟨hmask, hsame⟩ := ih o List.mem_cons_self o' rest rest' (hos' o' List.mem_cons_self)
        hends hends' h
      rw [Operand.maskedAll, Operand.maskedAll, hmask]
      rw [hrest, hrest'] at hsame
      split_ifs at hsame with hnil hnil' hnil'
      · rw [hnil, hnil']
        exact ⟨rfl, (List.cons.inj hsame).2⟩
      · exact absurd (List.cons.inj hsame).1 (by decide)
      · exact absurd (List.cons.inj hsame).1 (by decide)
      · obtain ⟨htail, hr⟩ := ihos (fun o ho => ih o (List.mem_cons_of_mem _ ho))
          (fun o ho => hos o (List.mem_cons_of_mem _ ho))
          (fun o ho => hos' o (List.mem_cons_of_mem _ ho)) (List.cons.inj hsame).2
        exact ⟨by rw [htail], hr⟩

theorem determines (hjson : Protojson marshal vs) (ho : o.Spelled vs) : Determines marshal vs o := by
  induction ho with
  | value hv => exact determines_leaf hjson (.value hv) (by simp)
  | var h hne => exact determines_leaf hjson (.var h hne) (by simp)
  | @expression op os hop hos ih =>
    intro o' r r' ho' hr hr' h
    obtain ⟨c', rest', hstart', -, hopen'⟩ := ho'.start hjson
    rw [print_expression] at h
    obtain ⟨op', os', rfl⟩ := hopen'.1 (by rw [hstart'] at h; exact (List.cons.inj h).1.symm)
    cases ho' with
    | expression hop' hos' =>
      rw [print_expression] at h
      obtain ⟨hsame, htail⟩ := hop.solid.append_inj hop'.solid (ends_cons (Or.inl rfl))
        (ends_cons (Or.inl rfl)) (List.cons.inj h).2
      obtain ⟨hmask, hrest⟩ := operandsText_inj hjson ih hos hos' (List.cons.inj htail).2
      exact ⟨by rw [Operand.masked, Operand.masked, hmask, String.toList_inj.1 hsame], hrest⟩

theorem masked_eq_expression {op : String} {os : List Operand} (h : o.masked = .expression op os) :
    ∃ os', o = .expression op os' ∧ Operand.maskedAll os' = os := by
  cases o with
  | empty | var => cases h
  | value v =>
    rw [Operand.masked] at h
    split_ifs at h
  | expression op' os' =>
    obtain ⟨rfl, hos⟩ := Operand.expression.inj h
    exact ⟨os', rfl, hos⟩

theorem print_leaf_eq (hjson : Protojson marshal vs) (ho : o.Spelled vs) (ho' : o'.Spelled vs)
    (hexpr : ¬∃ op os, o = .expression op os) (h : o.masked = o'.masked) :
    o.print marshal = o'.print marshal := by
  have hexpr' : ¬∃ op os, o' = .expression op os := by
    rintro ⟨op, os, rfl⟩
    obtain ⟨os', heq, -⟩ := masked_eq_expression h
    exact hexpr ⟨op, os', heq⟩
  obtain ⟨-, hmask⟩ | ⟨v, hv, hs, hmask⟩ := (ho.leaf hjson).resolve_left hexpr
  · obtain ⟨-, hmask'⟩ | ⟨v', hv', hs', hmask'⟩ := (ho'.leaf hjson).resolve_left hexpr'
    · rw [hmask, hmask'] at h
      split_ifs at h with hp hp' hp'
      · rw [hp, hp']
      · exact Operand.var.inj h
    · rw [hmask, hmask'] at h
      split_ifs at h
  · obtain ⟨-, hmask'⟩ | ⟨v', hv', hs', hmask'⟩ := (ho'.leaf hjson).resolve_left hexpr'
    · rw [hmask, hmask'] at h
      split_ifs at h
    · rw [hmask, hmask'] at h
      cases h
      exact Option.some.inj (hs.symm.trans hs')

/-- Conditions that differ in values without JSON only have one text. -/
theorem print_eq_of_masked_eq (hjson : Protojson marshal vs) (ho : o.Spelled vs)
    (ho' : o'.Spelled vs) (h : o.masked = o'.masked) : o.print marshal = o'.print marshal := by
  induction ho generalizing o' with
  | value hv => exact print_leaf_eq hjson (.value hv) ho' (by simp) h
  | var hp hne => exact print_leaf_eq hjson (.var hp hne) ho' (by simp) h
  | @expression op os hop hos ih =>
    obtain ⟨os', rfl, hmask⟩ := masked_eq_expression h.symm
    cases ho' with
    | expression hop' hos' =>
      have hprints : Operand.prints marshal os = Operand.prints marshal os' := by
        clear h hos
        induction os generalizing os' with
        | nil =>
          cases os' with
          | nil => rfl
          | cons => cases hmask
        | cons o os ihos =>
          cases os' with
          | nil => cases hmask
          | cons o' os' =>
            obtain ⟨hhead, htail⟩ := List.cons.inj hmask
            rw [Operand.prints, Operand.prints, ih o List.mem_cons_self
              (hos' o' List.mem_cons_self) hhead.symm, ihos (fun o ho => ih o (List.mem_cons_of_mem _ ho))
              os' htail (fun o ho => hos' o (List.mem_cons_of_mem _ ho))]
      rw [Operand.print, Operand.print, hprints]

/-- **A text determines the condition up to the values that have no JSON form.** -/
theorem print_eq_iff (hjson : Protojson marshal vs) (ho : o.Spelled vs) (ho' : o'.Spelled vs) :
    o.print marshal = o'.print marshal ↔ o.masked = o'.masked := by
  refine ⟨fun h => ?_, print_eq_of_masked_eq hjson ho ho'⟩
  have hends : Ends [] := fun c hc => by simp at hc
  exact (determines hjson ho o' [] [] ho' hends hends (by rw [h])).1

end Text

/-! ## §6. When the merge is a conjunction. -/

section

variable {marshal : Value → Option String} {vs : Value → Prop} {fs : List PlanResourcesFilter}
  {conds : Conds} {call : Calls} {ρ : Assignment}

/-- Conditions that differ in values without JSON only (infinities, NaN, and what holds one)
have one meaning. -/
def FiniteApart (call : Calls) (fs : List PlanResourcesFilter) : Prop :=
  ∀ c c', .conditional c ∈ fs → .conditional c' ∈ fs → c.masked = c'.masked →
    ∀ ρ, truth (c.eval call ρ) = truth (c'.eval call ρ)

/-- Every condition of the list is one that the planner builds, over the values `vs`. -/
def AllSpelled (vs : Value → Prop) (fs : List PlanResourcesFilter) : Prop :=
  ∀ c, .conditional c ∈ fs → c.Spelled vs

theorem CondsOf.holds_iff (h : CondsOf marshal fs conds) (hjson : Protojson marshal vs)
    (hfs : AllSpelled vs fs) (hsep : FiniteApart call fs) (hdenied : .alwaysDenied ∉ fs) :
    (joined conds).holds call ρ = some true ↔ ∀ f ∈ fs, f.holds call ρ = some true := by
  rw [holds_joined]
  constructor
  · intro hkept f hf
    cases f with
    | alwaysAllowed => rfl
    | alwaysDenied => exact absurd hf hdenied
    | conditional c =>
      -- the operand kept under the text of `c` has the meaning of `c`
      obtain ⟨c', hc'⟩ := h.present c hf
      obtain ⟨hmem, htext⟩ := h.entry _ c' hc'
      have hmask := (print_eq_iff hjson (hfs c hf) (hfs c' hmem)).1 htext.symm
      rw [PlanResourcesFilter.holds, hsep c c' hf hmem hmask ρ]
      exact hkept _ c' hc'
  · intro hall key c hc
    exact hall _ (h.entry key c hc).1

end

end AccessManagement
