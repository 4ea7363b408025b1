/-
  AccessManagement.Index.Cores — WHEN SHARING A FUNCTIONAL CORE CHANGES NOTHING.

  `IndexRule` gives a row the core that is stored under the content hash of its functional
  fields.  Even with a hash that never collides, that is the row's own content only if the
  BYTES that the hash reads determine the fields, and they do not: a condition writes its
  leaves without their operators, the two expressions of an output and the variables and
  constants of a policy follow each other without marks.

  Main results:
    * `stored_core_matches` — rows that differ in shape only where they differ in their texts and
      numbers get cores with exactly their fields, in any run of `IndexRule` calls, failing ones
      included;
    * `any_stored_as_all` — a rule with an `any` condition gets the core of an earlier one
      with `all`, and so its meaning.
-/
import AccessManagement.Index.Invariant
import AccessManagement.Policy.Shape

namespace AccessManagement

open Lib List

/-! ## §1. Fields. -/

/-- The variables and constants that a core is evaluated with. -/
def rowParamContent (p : Option RowParams) : List Variable × List (String × Value) :=
  ((p.map (·.orderedVariables)).getD [], (p.map (·.constants)).getD [])

/-- The core has the fields of the row, its parameters apart. -/
structure FunctionalCore.Carries (core : FunctionalCore) (row : RuleRow) : Prop where
  effect : core.effect = row.effect
  condition : core.condition = row.condition
  derivedRoleCondition : core.derivedRoleCondition = row.derivedRoleCondition
  emitOutput : core.emitOutput = row.emitOutput
  scopePermissions : core.scopePermissions = row.scopePermissions
  policyKind : core.policyKind = row.policyKind
  fromRolePolicy : core.fromRolePolicy = row.fromRolePolicy

/-- The core has the content of the row. -/
structure FunctionalCore.Matches (core : FunctionalCore) (row : RuleRow) : Prop
    extends core.Carries row where
  params : rowParamContent core.params = paramContent row.params
  derivedRoleParams : rowParamContent core.derivedRoleParams = paramContent row.derivedRoleParams

/-- Everything that is hashed when a row is indexed. -/
def RuleRow.hashed (row : RuleRow) : List Tokens :=
  [row.functionalTokens, optTokens Params.tokens row.params,
    optTokens Params.tokens row.derivedRoleParams]

/-- The hash is injective on the byte streams of the rows. -/
def HashInjectiveOn (x : Externals) (rows : List RuleRow) : Prop :=
  ∀ ts ∈ rows.flatMap RuleRow.hashed, ∀ ts' ∈ rows.flatMap RuleRow.hashed,
    x.hasher.sum ts = x.hasher.sum ts' →
      Token.encode x.hasher.wire ts = Token.encode x.hasher.wire ts'

instance (x : Externals) (rows : List RuleRow) : Decidable (HashInjectiveOn x rows) := by
  unfold HashInjectiveOn
  infer_instance

namespace Index

/-! ## §2. A run of `IndexRule` calls. -/

/-- The binding that a call stores for its row; a failed call stores none. -/
def storedBinding (x : Externals) (ix : Index) (row : RuleRow) : Option BindingHandle :=
  match ix.indexRule x row with
  | .ok ix' => ix'.getBinding ix.bindings.nextId
  | .error _ => none

/-- The calls of a run, each with the binding it stored. -/
def indexCalls (x : Externals) : Index → List RuleRow → List (RuleRow × Option BindingHandle)
  | _, [] => []
  | ix, row :: rows => (row, ix.storedBinding x row) :: indexCalls x (ix.afterCall x row) rows

/-- Every binding that the run stores has a core with the content of its row. -/
def CoresMatch (x : Externals) (rows : List RuleRow) : Prop :=
  ∀ e ∈ indexCalls x Index.new rows, ∀ b ∈ e.2, b.core.Matches e.1

section Matches

variable {x : Externals} {rows : List RuleRow} {row : RuleRow} {ix : Index}

/-- The core that a call stores for its row comes from a row with the same hash. -/
theorem coreFrom_storedBinding (h : Inv x rows ix) :
    ∀ b ∈ ix.storedBinding x row, CoreFrom x (row :: rows) (row.funcSum x.hasher) b.core := by
  intro b hb
  have hafter := h.provenance.afterCall h.exact.slots row
  unfold storedBinding at hb
  unfold afterCall at hafter
  cases hix : ix.indexRule x row with
  | error =>
    rw [hix] at hb
    cases hb
  | ok =>
    rw [hix] at hb hafter
    obtain ⟨core, e, ix₀, hcore, hsame, -, hcores, rfl, -⟩ := indexRule_stored hix
    have hget := hsame.getBinding_addBinding (x := x) h.exact.slots (handleOf row core)
      (makeEvaluationKeyTuple row) ix.bindings.nextId
    rw [if_pos rfl] at hget
    rw [← Option.some.inj (hget.symm.trans hb)]
    have hstored := hafter.cores (row.funcSum x.hasher) e
      (by simp only [addBinding, hcores, AList.lookup_insert])
    exact hcore ▸ hstored

/-- Messages with the same content bring along the same parameters. -/
theorem paramsOf_eq {p q : Option Params} (h : paramContent p = paramContent q) :
    paramsOf x p = paramsOf x q := by
  have hparams : ∀ p : Option Params, paramsOf x p =
      ⟨x.hasher.sum (optTokens Params.tokens p), (paramContent p).1, (paramContent p).2⟩ :=
    fun _ => rfl
  rw [hparams, hparams, optTokens_params, optTokens_params, h]

/-- Parameters that come from a row with the same hash are those of the row. -/
theorem FromParams.eq_paramsOf {get : RuleRow → Option Params} {rp : RowParams}
    (h : FromParams x get rows (paramsOf x (get row)).key rp) (hrow : row ∈ rows)
    (hget : ∀ r, optTokens Params.tokens (get r) ∈ r.hashed) (hinj : HashInjectiveOn x rows)
    (hl : LegibleParams (rows.map get)) : rp = paramsOf x (get row) := by
  obtain ⟨r, hr, hhash, rfl⟩ := h
  have hbytes := hinj _ (mem_flatMap.mpr ⟨r, hr, hget r⟩) _
    (mem_flatMap.mpr ⟨row, hrow, hget row⟩) hhash
  exact paramsOf_eq (hl.content (mem_map_of_mem hr) (mem_map_of_mem hrow) hbytes)

/-- **A core that is stored under the hash of a legible row is that of a row with the same function,
with the parameters of its own.** -/
theorem CoreFrom.own (hl : Legible rows) (hinj : HashInjectiveOn x rows) (hrow : row ∈ rows)
    {core : FunctionalCore} (h : CoreFrom x rows (row.funcSum x.hasher) core) :
    ∃ r ∈ rows, r.SameFunction row ∧ core = coreOf x r
      (if r.policyKind = .resource ∨ r.policyKind = .principal then some (paramsOf x row.params)
        else none)
      (if r.policyKind = .resource ∧ r.originDerivedRole ≠ "" then
        some (paramsOf x row.derivedRoleParams) else none) := by
  obtain ⟨r, hr, hsum, p, drp, rfl, hfrom⟩ := h
  have hbytes := hinj _ (mem_flatMap.mpr ⟨r, hr, mem_cons_self⟩) _
    (mem_flatMap.mpr ⟨row, hrow, mem_cons_self⟩) hsum
  have hsame := hl.sameFunction hr hrow hbytes
  refine ⟨r, hr, hsame, ?_⟩
  congr 1
  · have hp := hfrom.params
    split at hp
    next hk =>
      obtain ⟨rp, rfl, hrp⟩ := hp
      rw [if_pos hk, hrp.eq_paramsOf hr (fun r => mem_cons_of_mem _ mem_cons_self) hinj hl.params,
        paramsOf_eq hsame.params]
    next hk => rw [if_neg hk, hp]
  · have hdrp := hfrom.drParams
    split at hdrp
    next hk =>
      obtain ⟨rp, rfl, hrp⟩ := hdrp
      rw [if_pos hk, hrp.eq_paramsOf hr
        (fun r => mem_cons_of_mem _ (mem_cons_of_mem _ mem_cons_self)) hinj hl.derivedRoleParams,
        paramsOf_eq hsame.derivedRoleParams]
    next hk => rw [if_neg hk, hdrp]

/-- **A core that is stored under the hash of a legible row has its content.** -/
theorem CoreFrom.matches (hl : Legible rows) (hinj : HashInjectiveOn x rows) (hrow : row ∈ rows)
    {core : FunctionalCore} (h : CoreFrom x rows (row.funcSum x.hasher) core) :
    core.Matches row := by
  obtain ⟨r, hr, hsame, rfl⟩ := h.own hl hinj hrow
  have htakes := hl.takesParams r hr
  refine ⟨⟨hsame.effect, hsame.condition, hsame.derivedRoleCondition, hsame.emitOutput,
    hsame.scopePermissions, hsame.policyKind, hsame.fromRolePolicy⟩, ?_, ?_⟩
  · show rowParamContent (ite _ _ _) = _
    split
    · rfl
    next hk =>
      -- a row of another kind has no parameters
      rw [← hsame.params, (or_assoc.mpr htakes.params).resolve_left hk]
      rfl
  · show rowParamContent (ite _ _ _) = _
    split
    · rfl
    next hk =>
      rw [← hsame.derivedRoleParams, htakes.derivedRoleParams.resolve_left hk]
      rfl

/-- A run of calls stores matching cores, if the rows are legible. -/
theorem matches_of_mem_indexCalls (hl : Legible rows) (hinj : HashInjectiveOn x rows)
    (calls offered : List RuleRow) (ix : Index) (hcalls : calls ⊆ rows) (hoffered : offered ⊆ rows)
    (hix : Inv x offered ix) :
    ∀ e ∈ indexCalls x ix calls, ∀ b ∈ e.2, b.core.Matches e.1 := by
  induction calls generalizing offered ix with
  | nil => intro e he; exact (not_mem_nil he).elim
  | cons row calls ih =>
    intro e he b hb
    obtain ⟨hrow, hrest⟩ := cons_subset.mp hcalls
    have hsub : row :: offered ⊆ rows := cons_subset.mpr ⟨hrow, hoffered⟩
    rcases mem_cons.mp he with rfl | he
    · exact ((coreFrom_storedBinding hix b hb).mono hsub).matches hl hinj hrow
    · exact ih (row :: offered) _ hrest hsub (hix.afterCall row) e he b hb

end Matches

/-- **Sharing cores changes nothing for rows that the content hash tells apart**, in any run of
`IndexRule` calls. -/
theorem stored_core_matches (x : Externals) (rows : List RuleRow) (hinj : HashInjectiveOn x rows)
    (hl : Legible rows) : CoresMatch x rows :=
  matches_of_mem_indexCalls hl hinj rows [] Index.new (Subset.refl rows) (nil_subset rows)
    (inv_new x)

/-! ## §5. Rows that share a core. -/

def textExpr (e : String) : Condition := .expr { original := e, checked := none }

/-- A row of a resource policy. -/
def sampleRow (role : String) (condition : Condition) : RuleRow where
  originFqn := "cerbos.resource.doc.vdefault"
  resource := "doc"
  role := role
  actionSet := some (.action "view")
  condition := some condition
  effect := .allow
  scopePermissions := .overrideParent
  version := "default"
  params := some { orderedVariables := [], constants := [] }
  policyKind := .resource

/-- A rule that needs both expressions, for two roles, and a rule that needs either, for another
action. -/
def legibleRows : List RuleRow :=
  [sampleRow "user" (.all [textExpr "a", textExpr "b"]),
    sampleRow "admin" (.all [textExpr "a", textExpr "b"]),
    { sampleRow "user" (.any [textExpr "a", textExpr "b"]) with actionSet := some (.action "edit") }]

/-- A rule that needs both expressions, and one that needs either. -/
def allAndAnyRows : List RuleRow :=
  [sampleRow "user" (.all [textExpr "a", textExpr "b"]),
    sampleRow "admin" (.any [textExpr "a", textExpr "b"])]

theorem legible_legibleRows : Legible legibleRows := by
  have hmem : ∀ row ∈ legibleRows, row = sampleRow "user" (.all [textExpr "a", textExpr "b"]) ∨
      row = sampleRow "admin" (.all [textExpr "a", textExpr "b"]) ∨
      row = { sampleRow "user" (.any [textExpr "a", textExpr "b"]) with
        actionSet := some (.action "edit") } := by
    simp [legibleRows]
  refine ⟨by decide +kernel, fun row hrow row' hrow' => ?_,
    legibleParams_of_empty (forall_mem_map.mpr fun row hrow => ?_),
    legibleParams_of_empty (forall_mem_map.mpr fun row hrow => ?_), fun row hrow => ?_⟩
  · rcases hmem row hrow with rfl | rfl | rfl <;> rcases hmem row' hrow' with rfl | rfl | rfl <;>
      first
      | exact fun _ => ⟨rfl, rfl, rfl, rfl, rfl, rfl⟩
      | exact fun htokens => absurd htokens (by decide +kernel)
  · rcases hmem row hrow with rfl | rfl | rfl <;> rfl
  · rcases hmem row hrow with rfl | rfl | rfl <;> rfl
  · rcases hmem row hrow with rfl | rfl | rfl <;> exact ⟨Or.inl rfl, Or.inr rfl⟩

/-- The rows of one rule share its core, and the other rule keeps its own. -/
theorem legibleRows_cores_match : HashInjectiveOn Externals.sample legibleRows ∧
    CoresMatch Externals.sample legibleRows := by
  have hinj : HashInjectiveOn Externals.sample legibleRows := by decide +kernel
  exact ⟨hinj, stored_core_matches Externals.sample legibleRows hinj legible_legibleRows⟩

/-- The rule that needs either expression is stored as one that needs both. -/
theorem any_stored_as_all : HashInjectiveOn Externals.sample allAndAnyRows ∧
    ∃ row b, (row, some b) ∈ indexCalls Externals.sample Index.new allAndAnyRows ∧
      row.condition = some (.any [textExpr "a", textExpr "b"]) ∧
      b.core.condition = some (.all [textExpr "a", textExpr "b"]) := by
  refine ⟨by decide +kernel, sampleRow "admin" (.any [textExpr "a", textExpr "b"]), ?_⟩
  exact ⟨_, mem_cons_of_mem _ mem_cons_self, rfl, rfl⟩

end Index

end AccessManagement
