/-
  AccessManagement.Plan.Replace — REPLACING VARIABLES AND ATTRIBUTES IN AN EXPRESSION
  (`ruletable/planner/ast.go`).

  `replaceVarsGen` walks a tree, asks a function about each identifier and selection, and
  puts its answers in place.  Three things about it carry the results below:

    * ONE ERROR VARIABLE serves the whole walk and every answer assigns it, so what is
      returned is the error of the LAST node asked about (`traverse_eq`);
    * the RESULT of a comprehension is copied, not walked;
    * what an answer puts in place is not walked again.

  The output is renumbered at the end (`RenumberIDs` of cel-go, a parameter), which panics on
  some trees with missing parts and on no others.
-/
import Mathlib.Data.List.Basic
import AccessManagement.Cel.Ast

namespace AccessManagement

open CelExpr List

/-! ## §1. The generic walk. -/

/-- What a `replaceVarsFunc` returns. -/
structure Reply (ε : Type) where
  output : CelExpr
  matched : Bool
  err : Option ε

abbrev ReplaceVarsFunc (ε : Type) := CelExpr → Reply ε

/-- How a call of `replaceVarsGen` ends. -/
inductive Ending (ε : Type) where
  | ok (output : CelExpr)
  | error (err : ε)
  | panic

namespace Reply

variable {ε : Type}

def unmatched : Reply ε := ⟨.nil, false, none⟩

/-- What takes the node's place: nil after an error, the output after a match. -/
def replacement (reply : Reply ε) : Option CelExpr :=
  if reply.err.isSome then some .nil else if reply.matched then some reply.output else none

@[simp] theorem replacement_unmatched : (unmatched : Reply ε).replacement = none := rfl

@[simp] theorem replacement_matched (e : CelExpr) :
    (⟨e, true, none⟩ : Reply ε).replacement = some e := rfl

end Reply

section Walk

variable {ε : Type} (renumberPanics : CelExpr → Bool) (f : ReplaceVarsFunc ε)

/-- `e1, matched, err = f(e)` and the two tests that follow it. -/
def ask (e : CelExpr) : StateM (Option ε) (Option CelExpr) := do
  set (f e).err
  return (f e).replacement

mutual

/-- The closure `r`; the state is the variable `err` it shares with `replaceVarsGen`. -/
@[simp] def traverse : CelExpr → StateM (Option ε) CelExpr
  | .nil => return .nil
  | .literal c => return .literal c
  | .ident x => return (← ask f (.ident x)).getD (.ident x)
  | .select o g t => do
    match ← ask f (.select o g t) with
    | some e1 => return e1
    | none => return .select (← traverse o) g t
  | .parts h es => return .parts h (← traverseList es)
  | .memberCall fn t args => do
    let args ← traverseList args
    return .memberCall fn (← traverse t) args
  | .comprehension i v v2 u b c s r =>
    return .comprehension (← traverse i) v v2 u (← traverse b) (← traverse c) (← traverse s) r

@[simp] def traverseList : List CelExpr → StateM (Option ε) (List CelExpr)
  | [] => return []
  | e :: es => return (← traverse e) :: (← traverseList es)

end

def replaceVarsGen (e : CelExpr) : Ending ε :=
  match traverse f e none with
  | (_, some err) => .error err
  | (output, none) => if renumberPanics output then .panic else .ok output

/-- The answers of `f`, as a rewriter sees them. -/
abbrev answers (e : CelExpr) : Option CelExpr := (f e).replacement

/-- The nodes that the walk asks about. -/
abbrev visited : CelExpr → List CelExpr := visits (answers f)

/-- The value of the error variable after some questions. -/
@[simp] def errAfter (err : Option ε) (ns : List CelExpr) : Option ε :=
  ns.foldl (fun _ n => (f n).err) err

section StateM

variable {σ α β : Type} (m : StateM σ α) (g : α → StateM σ β) (h : α → β) (a : α) (s : σ)

@[simp] theorem stateM_map : (h <$> m) s = (h (m s).1, (m s).2) := rfl

@[simp] theorem stateM_pure : (pure a : StateM σ α) s = (a, s) := rfl

@[simp] theorem stateM_bind : (m >>= g) s = g (m s).1 (m s).2 := rfl

end StateM

/-- **THE WALK**: the output is a rewriting by the answers, whatever the error variable
holds, and the variable ends with what the last question assigned. -/
theorem traverse_eq (e : CelExpr) (err : Option ε) :
    traverse f e err = (rewrite false (answers f) e, errAfter f err (visited f e)) := by
  have hlist : ∀ es : List CelExpr, (∀ e ∈ es, ∀ err, traverse f e err =
        (rewrite false (answers f) e, errAfter f err (visited f e))) →
      ∀ err, traverseList f es err =
        (es.map (rewrite false (answers f)), errAfter f err (es.flatMap (visited f))) := by
    intro es h
    induction es with
    | nil => exact fun _ => rfl
    | cons e _ ih =>
      have hes := ih (fun e' he' => h e' (mem_cons_of_mem e he'))
      simp [h e, hes]
  induction e generalizing err with
  | nil | literal | ident => rfl
  | select o g t ih =>
    have hask : ask f (.select o g t) err =
        (answers f (.select o g t), (f (.select o g t)).err) := rfl
    cases h : answers f (.select o g t) <;>
      simp [hask, h, ih]
  | parts h es ih =>
    simp [hlist es ih]
  | memberCall _ _ args iht ih =>
    simp [hlist args ih, iht]
  | comprehension _ _ _ _ _ _ _ _ ihi ihb ihc ihs =>
    simp [ihi, ihb, ihc, ihs]

/-! ## §2. Errors. -/

theorem errAfter_eq (err : Option ε) (ns : List CelExpr) :
    errAfter f err ns = (ns.getLast?.map (fun n => (f n).err)).getD err := by
  induction ns generalizing err with
  | nil => rfl
  | cons n ns ih =>
    rw [show errAfter f err _ = errAfter f (f n).err ns from rfl, ih]
    cases hns : ns.getLast? <;> simp [List.getLast?_cons, hns]

theorem replaceVarsGen_eq_error_iff (e : CelExpr) (err : ε) :
    replaceVarsGen renumberPanics f e = .error err ↔
      ∃ n, (visited f e).getLast? = some n ∧ (f n).err = some err := by
  rw [replaceVarsGen, traverse_eq, errAfter_eq]
  cases hpanics : renumberPanics (rewrite false (answers f) e) <;>
    cases (visited f e).getLast? with
    | none => simp [hpanics]
    | some n => cases h : (f n).err <;> simp [h, hpanics]

theorem replaceVarsGen_eq_ok_iff (e out : CelExpr) :
    replaceVarsGen renumberPanics f e = .ok out ↔
      ((∀ n, (visited f e).getLast? = some n → (f n).err = none) ∧
        rewrite false (answers f) e = out) ∧ renumberPanics out = false := by
  rw [replaceVarsGen, traverse_eq, errAfter_eq]
  cases (visited f e).getLast? with
  | none =>
    simp
    grind
  | some n =>
    cases h : (f n).err <;> simp [h]
    grind

/-- The parts that a rewriting leaves missing are missing in the tree or in a replacement. -/
theorem complete_rewrite (a : CelExpr → Option CelExpr) (e : CelExpr) (he : e.complete)
    (h : ∀ n ∈ visits a e, ∀ e1, a n = some e1 → e1.complete) : (rewrite false a e).complete := by
  induction e with
  | nil | literal => exact he
  | ident x =>
    cases ha : a (.ident x) with
    | none => simp [ha]
    | some e1 => simpa [ha] using h _ (by simp) e1 ha
  | select o g t ih =>
    cases ha : a (.select o g t) with
    | none =>
      simp only [visits, ha, forall_mem_cons] at h
      simpa [ha] using ih (by simpa using he) h.2
    | some e1 => simpa [ha] using h _ (by simp) e1 ha
  | _ => simp at *; grind

/-- **ERRORS ARE KEPT EXACTLY WHEN THE LAST ONE TO BE ASKED FAILS, OR NOBODY DOES.**  Left:
an error on any visited node is returned, and without an error every visited node succeeded
and nothing is missing from the output that was not missing before. -/
theorem replaceVarsGen_errors_kept_iff (e : CelExpr) :
    ((∀ n ∈ visited f e, (f n).err ≠ none → ∃ err, replaceVarsGen renumberPanics f e = .error err) ∧
      ∀ out, replaceVarsGen renumberPanics f e = .ok out → (∀ n ∈ visited f e, (f n).err = none) ∧
        (e.complete → (∀ n ∈ visited f e, (f n).matched → (f n).output.complete) → out.complete)) ↔
    (∀ n ∈ visited f e, (f n).err = none) ∨
      ∃ n, (visited f e).getLast? = some n ∧ (f n).err ≠ none := by
  constructor
  · intro h
    by_cases hfail : ∃ n ∈ visited f e, (f n).err ≠ none
    · obtain ⟨n, hn, herr⟩ := hfail
      obtain ⟨err, hret⟩ := h.1 n hn herr
      obtain ⟨m, hm, herr⟩ := (replaceVarsGen_eq_error_iff _ f e err).mp hret
      exact .inr ⟨m, hm, by simp [herr]⟩
    · exact .inl (by simpa using hfail)
  · rintro (hall | ⟨n, hn, herr⟩)
    · refine ⟨fun n hn herr => absurd (hall n hn) herr, fun out hout => ⟨hall, fun he hf => ?_⟩⟩
      rw [← ((replaceVarsGen_eq_ok_iff _ f e out).mp hout).1.2]
      refine complete_rewrite _ e he (fun n hn e1 ha => ?_)
      simp only [Reply.replacement] at ha
      grind
    · obtain ⟨err, herr⟩ := Option.ne_none_iff_exists'.mp herr
      have hret := (replaceVarsGen_eq_error_iff renumberPanics f e err).mpr ⟨n, hn, herr⟩
      exact ⟨fun _ _ _ => ⟨err, hret⟩, by simp [hret]⟩

end Walk

/-- The first of two arguments fails and the second does not: no error is returned.  The first
argument of the output is missing, and renumbering it is a panic. -/
theorem replaceVarsGen_error_lost : let f : ReplaceVarsFunc Unit := fun n =>
      if n.asIdent = "bad" then ⟨.nil, false, some ()⟩ else .unmatched
    let e : CelExpr := .call "_&&_" [.ident "bad", .ident "good"]
    .ident "bad" ∈ visited f e ∧ (f (.ident "bad")).err = some () ∧
      ∀ renumberPanics : CelExpr → Bool,
        renumberPanics (.call "_&&_" [.nil, .ident "good"]) = true →
          replaceVarsGen renumberPanics f e = .panic := by
  refine ⟨mem_cons_self, rfl, fun renumberPanics hpanics => ?_⟩
  exact if_pos hpanics

/-- What is assumed of the renumbering: a tree without missing parts is not a panic. -/
def PanicsOnMissing (renumberPanics : CelExpr → Bool) : Prop :=
  ∀ e : CelExpr, e.complete → renumberPanics e = false

theorem complete_of_mem_visits {a : CelExpr → Option CelExpr} {e n : CelExpr} (he : e.complete)
    (hn : n ∈ visits a e) : n.complete := by
  induction e with
  | nil | literal => cases hn
  | ident => simp_all
  | select o g t ih =>
    simp only [visits, mem_cons] at hn
    cases hn with
    | inl heq => exact heq ▸ he
    | inr hrest =>
      split at hrest
      · cases hrest
      · exact ih he hrest
  | _ => simp at *; grind

/-! ## §3. Variables. -/

def celVariablesAbbrev : String := "V"
def celVariablesIdent : String := "variables"

variable (e : CelExpr)

/-- The bare `V` or `variables`. -/
def CelExpr.isVariablesIdent : Bool :=
  e.isIdent && (e.asIdent == celVariablesAbbrev || e.asIdent == celVariablesIdent)

/-- `x`, for `V.x` and `variables.x`. -/
def CelExpr.variableName : Option String :=
  if e.isSelect && e.selectOperand.isVariablesIdent then some e.selectField else none

/-- The answer for one node; the error is the name of a variable without a definition. -/
def variableReply (vars : List (String × CelExpr)) : ReplaceVarsFunc String := fun ex =>
  match ex.variableName with
  | none => .unmatched
  | some x =>
    match vars.lookup x with
    | some e1 => ⟨e1, true, none⟩
    | none => ⟨.nil, true, some x⟩

/-- Replace `V.x` and `variables.x` by the definition of `x`. -/
def replaceVars (renumberPanics : CelExpr → Bool) (vars : List (String × CelExpr)) : Ending String :=
  replaceVarsGen renumberPanics (variableReply vars) e

abbrev CelExpr.isVariable : Bool := e.variableName.isSome

/-- How many selections `V.x` and `variables.x` a tree has. -/
def CelExpr.variableCount : Nat := e.nodes.countP isVariable

section Variables

variable (vars : List (String × CelExpr))

/-- The output of `replaceVars`, if it succeeds. -/
abbrev inlined : CelExpr → CelExpr := rewrite false (answers (variableReply vars))

variable (n : CelExpr)

@[simp] theorem answers_variableReply :
    answers (variableReply vars) n = n.variableName.map (fun x => (vars.lookup x).getD .nil) := by
  rw [answers, variableReply]
  cases n.variableName with
  | none => rfl
  | some x => cases h : vars.lookup x <;> simp [h, Reply.replacement]

/-- A definition that is the bare `V` or `variables` is selected from, so that the
replacement makes a new selection of a variable. -/
@[simp] def makesVariable : Bool :=
  (n.selectOperand.variableName.bind (fun x => vars.lookup x)).any CelExpr.isVariablesIdent

/-- The selections of variables in the definition that takes the place of a node. -/
@[simp] def inDefinition : Nat :=
  (n.variableName.bind (fun x => vars.lookup x)).elim 0 CelExpr.variableCount

/-- A sum over nodes. -/
@[simp] def total (w : CelExpr → Nat) : List CelExpr → Nat
  | [] => 0
  | n :: ns => w n + total w ns

theorem total_append (w : CelExpr → Nat) (ns ns' : List CelExpr) :
    total w (ns ++ ns') = total w ns + total w ns' := by
  induction ns with
  | nil => simp
  | cons _ _ ih => rw [cons_append, total, total, ih, Nat.add_assoc]

/-- The selections of variables that one visited node leaves in the output. -/
@[simp] def variablesLeft : Nat :=
  inDefinition vars n + if makesVariable vars n then 1 else 0

@[simp] theorem variableName_select (o : CelExpr) (g : String) (t : Bool) :
    (select o g t).variableName = if o.isVariablesIdent then some g else none := rfl

/-- Only a definition can turn an operand into the bare `V` or `variables`. -/
theorem isVariablesIdent_rewrite (o : CelExpr) (h : o.isVariablesIdent = false) :
    (inlined vars o).isVariablesIdent =
      (o.variableName.bind (fun x => vars.lookup x)).any CelExpr.isVariablesIdent := by
  cases o with
  | select o g t =>
    rw [inlined, rewrite, answers_variableReply, variableName_select]
    have hnil : nil.isVariablesIdent = false := rfl
    have hselect : ∀ o, (select o g t).isVariablesIdent = false := fun _ => rfl
    by_cases ho : o.isVariablesIdent
    · cases hx : vars.lookup g <;> simp [ho, hx, hnil]
    · simp [ho, hselect]
  | ident => rw [inlined]; exact h
  | _ => rfl

theorem variableCount_rewrite (e : CelExpr) : (inlined vars e).variableCount =
      total (variablesLeft vars) e.outerNodes + e.innerNodes.countP isVariable := by
  simp only [variableCount, nodes, outerNodes, countP_append]
  have hlist : ∀ es : List CelExpr, (∀ e ∈ es,
      (visits (fun _ => none) (inlined vars e)).countP isVariable +
          (inlined vars e).innerNodes.countP isVariable =
        total (variablesLeft vars) (visits (fun _ => none) e) + e.innerNodes.countP isVariable) →
      ((es.map (inlined vars)).flatMap (visits (fun _ => none))).countP isVariable +
          ((es.map (inlined vars)).flatMap innerNodes).countP isVariable =
        total (variablesLeft vars) (es.flatMap (visits (fun _ => none))) +
          (es.flatMap innerNodes).countP isVariable := by
    intro es h
    induction es with
    | nil => rfl
    | cons e _ ih =>
      have he := h e mem_cons_self
      have hes := ih (fun e' he' => h e' (mem_cons_of_mem e he'))
      simp only [map_cons, flatMap_cons, countP_append, total_append]
      omega
  simp only [inlined] at hlist ⊢
  induction e with
  | nil => rfl
  | literal => rfl
  | ident x =>
    have hx : (ident x).variableName = none := rfl
    have hnil : nil.variableName = none := rfl
    simp [hx, hnil]
  | select o g =>
    by_cases ho : o.isVariablesIdent
    · cases o with
      | ident v =>
        -- a variable: only its definition counts
        have hv : (ident v).variableName = none := rfl
        have hnil : nil.variableName = none := rfl
        cases hx : vars.lookup g <;>
          simp [ho, hx, hv, hnil, variableCount]
      | _ => cases ho
    · have hmake := isVariablesIdent_rewrite vars o (by simpa using ho)
      cases hb : (o.variableName.bind (fun x => vars.lookup x)).any CelExpr.isVariablesIdent <;>
        simp [ho, hmake, hb, isVariable] <;>
        omega
  | parts h es ih => simpa using hlist es ih
  | memberCall _ _ args _ ih =>
    have hargs := hlist args ih
    simp only [rewrite, visits, innerNodes, rewriteList_eq_map, visitsList_eq_flatMap,
      innerNodesList_eq_flatMap, countP_append, total_append] at *
    omega
  | comprehension =>
    simp [total_append]
    omega

theorem total_variablesLeft (ns : List CelExpr) :
    total (variablesLeft vars) ns = total (inDefinition vars) ns + ns.countP (makesVariable vars) := by
  induction ns with
  | nil => rfl
  | cons =>
    simp only [total, variablesLeft, countP_cons]
    omega

/-- **INLINING IS COMPLETE EXACTLY WHEN NO RESULT OF A COMPREHENSION MENTIONS A VARIABLE**
(and no definition that is a bare `V` is selected from).  Left: the output has no more
selections of variables than the definitions that were put in place. -/
theorem replaceVars_complete_iff {renumberPanics : CelExpr → Bool}
    (hrenumber : PanicsOnMissing renumberPanics) (e : CelExpr) (he : e.complete)
    (hvars : ∀ x d, vars.lookup x = some d → d.complete)
    (hdef : ∀ n ∈ e.nodes, ∀ x, n.variableName = some x → (vars.lookup x).isSome) :
    (∃ out, replaceVars e renumberPanics vars = .ok out ∧
      out.variableCount = total (inDefinition vars) e.outerNodes) ↔
    (∀ n ∈ e.innerNodes, n.variableName = none) ∧
      ∀ n ∈ e.outerNodes, makesVariable vars n = false := by
  have hok : replaceVars e renumberPanics vars = .ok (inlined vars e) := by
    refine (replaceVarsGen_eq_ok_iff _ _ e _).mpr ⟨⟨fun n hn => ?_, rfl⟩, hrenumber _ ?_⟩
    swap
    · refine complete_rewrite _ e he (fun n hn e1 ha => ?_)
      rw [answers_variableReply, Option.map_eq_some_iff] at ha
      obtain ⟨x, hx, rfl⟩ := ha
      have hmem := visits_subset_outerNodes (answers (variableReply vars)) e hn
      obtain ⟨d, hd⟩ := Option.isSome_iff_exists.mp (hdef n (mem_append_left _ hmem) x hx)
      rw [hd]
      exact hvars x d hd
    have hmem := visits_subset_outerNodes (answers (variableReply vars)) e (mem_of_getLast? hn)
    have hx := hdef n (mem_append_left _ hmem)
    rw [variableReply]
    cases hname : n.variableName with
    | none => rfl
    | some x =>
      obtain ⟨d, hd⟩ := Option.isSome_iff_exists.mp (hx x hname)
      simp [hd]
  have hcount := variableCount_rewrite vars e
  rw [total_variablesLeft] at hcount
  have hin : e.innerNodes.countP isVariable = 0 ↔ ∀ n ∈ e.innerNodes, n.variableName = none := by
    simp
  have hout : e.outerNodes.countP (makesVariable vars) = 0 ↔
      ∀ n ∈ e.outerNodes, makesVariable vars n = false := by
    simp
  rw [← hin, ← hout]
  constructor
  · rintro ⟨out, hret, heq⟩
    obtain rfl : _ = out := Ending.ok.inj (hok.symm.trans hret)
    omega
  · rintro ⟨hi, ho⟩
    exact ⟨_, hok, by omega⟩

end Variables

/-- `V.x == 1` is inlined. -/
theorem replaceVars_complete_eq_one :
    ∃ out, replaceVars (.call "_==_" [.select (.ident "V") "x" false, .literal (.int 1)])
        (fun e => !e.complete) [("x", .select (.ident "R") "id" false)] = .ok out ∧
          out.variableCount = 0 :=
  (replaceVars_complete_iff [("x", .select (.ident "R") "id" false)] (fun e he => by simp [he])
    (.call "_==_" [.select (.ident "V") "x" false, .literal (.int 1)]) (by decide)
    (by simp [lookup_cons]; grind [complete])
    (by simp [variableName, isVariablesIdent, celVariablesAbbrev, celVariablesIdent])).mpr
    ⟨by simp, by decide⟩

/-- `cel.bind(a, 1, V.x == a)`: the body is the result of the comprehension that the macro
expands to, and keeps its variable. -/
theorem replaceVars_bind_keeps_variable :
    let body : CelExpr := .call "_==_" [.select (.ident "V") "x" false, .ident "a"]
    let e : CelExpr := .comprehension (.list []) "#unused" "" "a" (.literal (.int 1))
      (.literal (.bool false)) (.ident "a") body
    let vars : List (String × CelExpr) := [("x", .literal (.int 1))]
    replaceVars e (fun e => !e.complete) vars = .ok e ∧ e.variableCount = 1 ∧
      total (inDefinition vars) e.outerNodes = 0 :=
  ⟨rfl, by decide, by decide⟩

/-! ## §4. Known attributes of the resource. -/

def celAttrField : String := "attr"
def celResourceAbbrev : String := "R"
def celResourceField : String := "resource"
def celRequestIdent : String := "request"
def idFn : String := "id"

def wrapId : CelExpr := .call idFn [e]

variable (vals : String → Bool)

/-- The answer for one node; `e` is the ROOT of the walk, whose kind the first test reads. -/
def resourceValReply : ReplaceVarsFunc Empty := fun ex =>
  if !e.isSelect then .unmatched
  else if vals ex.selectField then
    let sel := ex.selectOperand
    if sel.selectField != celAttrField then .unmatched
    else if sel.selectOperand.isIdent && sel.selectOperand.asIdent == celResourceAbbrev then
      ⟨wrapId ex, true, none⟩
    else if sel.selectOperand.isSelect || sel.selectOperand.selectField != celResourceField then
      .unmatched
    else
      let sel := sel.selectOperand
      if sel.selectOperand.isIdent && sel.selectOperand.asIdent == celRequestIdent then
        ⟨wrapId ex, true, none⟩
      else .unmatched
  else .unmatched

/-- Wrap the known attributes of the resource in calls of `id`. -/
def replaceResourceVals (renumberPanics : CelExpr → Bool) : Ending Empty :=
  replaceVarsGen renumberPanics (resourceValReply e vals) e

/-- An occurrence of `R.attr.f` or `request.resource.attr.f`, for a known `f`. -/
def isResourceAttr : CelExpr → Bool
  | .select (.select (.ident x) g false) f false =>
    x == celResourceAbbrev && g == celAttrField && vals f
  | .select (.select (.select (.ident x) h false) g false) f false =>
    x == celRequestIdent && h == celResourceField && g == celAttrField && vals f
  | _ => false

/-- Wrap the nodes with a property. -/
def wrapWhere (results : Bool) (p : CelExpr → Bool) : CelExpr → CelExpr :=
  rewrite results (fun n => if p n then some (wrapId n) else none)

/-- What the wrapping is for: every occurrence, wherever it stands, and nothing else. -/
def wrapResourceAttrs (e : CelExpr) : CelExpr :=
  wrapWhere true (isResourceAttr vals) e

/-- What the code recognises: `R.attr.f`, presence tests included. -/
@[simp] def isAbbrevAttr : CelExpr → Bool
  | .select (.select (.ident x) g _) f _ => x == celResourceAbbrev && g == celAttrField && vals f
  | _ => false

/-- The root must be a selection, and the long form is never recognised: it is looked for
where the operand of `attr` is NOT a selection. -/
theorem answers_resourceValReply (n : CelExpr) : answers (resourceValReply e vals) n =
      if e.isSelect && isAbbrevAttr vals n then some (wrapId n) else none := by
  rw [answers, resourceValReply]
  cases e.isSelect with
  | false => rfl
  | true =>
    cases n with
    | select o f =>
      cases o with
      | select o g =>
        cases hf : vals f <;> cases hg : g == celAttrField <;> cases o with
        | ident x =>
          cases hx : x == celResourceAbbrev <;>
            simp [hf, hg, hx, celResourceField, bne]
        | _ => simp [hf, hg, celResourceField, bne]
      | _ => simp [celAttrField]
    | _ => simp [celAttrField]

/-- A node with the property has none below it. -/
def NoNesting (p : CelExpr → Bool) : Prop :=
  ∀ o f t, p (.select o f t) → ∀ m ∈ o.nodes, p m = false

theorem rewrite_none : rewrite true (fun _ => none) e = e := by
  induction e with
  | parts h es ih | memberCall fn t es _ ih =>
    have hes := map_congr_left ih
    simp_all
  | _ => simp_all

/-- Two wrappings agree exactly where their properties do. -/
theorem wrapWhere_eq_iff {p₂ : CelExpr → Bool} (h₂ : NoNesting p₂) (e : CelExpr) (results : Bool)
    (p₁ : CelExpr → Bool) (h₁ : NoNesting p₁) : wrapWhere results p₁ e = wrapWhere true p₂ e ↔
      (∀ n ∈ e.outerNodes, p₁ n = p₂ n) ∧ ∀ n ∈ e.innerNodes, (results && p₁ n) = p₂ n := by
  simp only [wrapWhere] at *
  induction e generalizing results p₁ with
  | nil | literal => simp
  | ident x =>
    cases hp : p₁ (.ident x) <;> cases hq : p₂ (.ident x) <;>
      simp [hp, hq, wrapId]
  | select o f t ih =>
    have ho := ih results p₁ h₁
    have hb₁ := h₁ o f t
    have hb₂ := h₂ o f t
    cases hp : p₁ (.select o f t) <;> cases hq : p₂ (.select o f t) <;>
      simp [hp, hq, wrapId] at *
    · exact ho
    · grind
  | comprehension _ _ _ _ _ _ _ r ihi ihb ihc ihs ihr =>
    have hr : (if results then rewrite results (fun n => if p₁ n then some (wrapId n) else none) r
        else r) = rewrite true (fun n => if p₂ n then some (wrapId n) else none) r ↔
        ∀ n ∈ r.outerNodes ++ r.innerNodes, (results && p₁ n) = p₂ n := by
      cases results with
      | true => simpa [forall_and, or_imp] using ihr true p₁ h₁
      | false =>
        have hcopy := ihr true (fun _ => false) (by simp [NoNesting])
        simpa [rewrite_none, forall_and, or_imp] using hcopy
    simp only [rewrite, visits, innerNodes, CelExpr.comprehension.injEq, ihi results p₁ h₁,
      ihb results p₁ h₁, ihc results p₁ h₁, ihs results p₁ h₁, mem_append]
    grind
  | memberCall | parts =>
    simp
    grind

theorem noNesting_isAbbrevAttr (b : Bool) (vals : String → Bool) :
    NoNesting (fun n => b && isAbbrevAttr vals n) := by
  intro o f t hp m hm
  have hp := (Bool.and_eq_true_iff.mp hp).2
  cases o with
  | select o g t' =>
    cases o with
    | ident x =>
      have hm : m = .select (.ident x) g t' ∨ m = .ident x := by
        simpa using hm
      rcases hm with rfl | rfl <;> exact Bool.and_false b
    | _ => cases hp
  | _ => cases hp

theorem noNesting_isResourceAttr : NoNesting (isResourceAttr vals) := by
  intro o f t hp m hm
  cases o with
  | select o g t' =>
    cases o with
    | ident x =>
      have hm : m = .select (.ident x) g t' ∨ m = .ident x := by
        simpa using hm
      rcases hm with rfl | rfl <;> rfl
    | select o h t'' =>
      cases o with
      | ident x =>
        have hm : m = .select (.select (.ident x) h t'') g t' ∨ m = .select (.ident x) h t'' ∨
            m = .ident x := by simpa using hm
        rcases hm with rfl | rfl | rfl
        · -- the operand would be an occurrence of the short form, but its root is `request`
          cases t <;> cases t' <;> cases t'' <;>
            simp_all [isResourceAttr, celResourceAbbrev, celRequestIdent]
        · rfl
        · rfl
      | _ => cases t <;> cases t' <;> cases t'' <;> cases hp
    | _ => cases t <;> cases t' <;> cases hp
  | _ => cases hp

/-- **WHEN THE KNOWN ATTRIBUTES ARE WRAPPED.**  The walk gives the specified expression
exactly when, outside the results of comprehensions, the occurrences are what the code
recognises under this root, and the results have no occurrence. -/
theorem replaceResourceVals_eq_iff {renumberPanics : CelExpr → Bool}
    (hrenumber : PanicsOnMissing renumberPanics) (e : CelExpr) (he : e.complete)
    (vals : String → Bool) :
    replaceResourceVals e vals renumberPanics = .ok (wrapResourceAttrs vals e) ↔
      (∀ n ∈ e.outerNodes, (e.isSelect && isAbbrevAttr vals n) = isResourceAttr vals n) ∧
        ∀ n ∈ e.innerNodes, isResourceAttr vals n = false := by
  have hanswers := funext (answers_resourceValReply e vals)
  have hnone : ∀ n, (resourceValReply e vals n).err = none := by
    intro n
    cases (resourceValReply e vals n).err with
    | none => rfl
    | some err => exact err.elim
  have hcomplete : (rewrite false (answers (resourceValReply e vals)) e).complete := by
    refine complete_rewrite _ e he (fun n hn e1 ha => ?_)
    have hnode := complete_of_mem_visits he hn
    rw [answers_resourceValReply] at ha
    split_ifs at ha
    obtain rfl := Option.some.inj ha
    simp [wrapId, hnode]
  rw [replaceResourceVals, replaceVarsGen_eq_ok_iff, and_iff_right (fun n _ => hnone n),
    and_iff_left_of_imp (fun heq => hrenumber _ (heq ▸ hcomplete)), hanswers]
  have h := wrapWhere_eq_iff (noNesting_isResourceAttr vals) e false _
    (noNesting_isAbbrevAttr e.isSelect vals)
  simp only [Bool.false_and, eq_comm (a := false)] at h
  exact h

/-- `R.attr.owner.name`: the known attribute below the root is wrapped. -/
theorem replaceResourceVals_owner :
    replaceResourceVals (.select (.select (.select (.ident "R") "attr" false) "owner" false) "name" false)
        (fun f => f == "owner") (fun e => !e.complete) =
      .ok (.select (wrapId (.select (.select (.ident "R") "attr" false) "owner" false)) "name" false) :=
  (replaceResourceVals_eq_iff (fun e he => by simp [he])
    (.select (.select (.select (.ident "R") "attr" false) "owner" false) "name" false) (by decide)
    (fun f => f == "owner")).2 (by decide)

/-- `R.attr.f == 1`: the root is a call, so nothing is wrapped. -/
theorem replaceResourceVals_under_call :
    let occurrence : CelExpr := .select (.select (.ident "R") "attr" false) "f" false
    let e : CelExpr := .call "_==_" [occurrence, .literal (.int 1)]
    replaceResourceVals e (fun f => f == "f") (fun e => !e.complete) = .ok e ∧
      wrapResourceAttrs (fun f => f == "f") e = .call "_==_" [wrapId occurrence, .literal (.int 1)] :=
  ⟨rfl, rfl⟩

end AccessManagement
