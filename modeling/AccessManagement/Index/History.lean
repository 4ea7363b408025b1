/-
  AccessManagement.Index.History — WHAT A HISTORY OF UPDATES LEAVES BEHIND.

  Ten structures of the index are updated by every `IndexRule` and every `DeletePolicy`, IDs are
  reused, and cores are shared between policies.  The invariant that ties them together is the
  list of rows that were indexed and not deleted since (`History`):

    * the live bindings are these rows, one binding for each;
    * every dimension lists the live bindings with its value, and no value without one;
    * a core is stored exactly as long as a live binding has it, and its origins are the
      policies of those bindings.

  Main results: `History.accounted`, `Exact.noEmptyKeys`.

  `DeletePolicy` goes through the bindings of a policy one by one.  In between, the cores of
  bindings that are still to be removed may already be gone; `Between` is what the loop keeps.
-/
import AccessManagement.Index.Cores

namespace AccessManagement.Index

open Lib List Externals

variable {ix : Index} {x : Externals}

/-! ## §1. Histories. -/

/-- The rows that remain when a policy is deleted; the empty name deletes nothing. -/
def withoutPolicy (fqn : String) (rows : List RuleRow) : List RuleRow :=
  if fqn = "" then rows else rows.filter (fun row => decide (row.originFqn ≠ fqn))

/-- The indexes reachable by updates, with the rows that were indexed and not deleted since.  A
call of `IndexRule` that fails indexes nothing. -/
inductive History (x : Externals) : List RuleRow → Index → Prop
  | new : History x [] Index.new
  | indexRule {rows : List RuleRow} {ix ix' : Index} (row : RuleRow) :
      History x rows ix → ix.indexRule x row = .ok ix' → History x (row :: rows) ix'
  | indexRuleFailed {rows : List RuleRow} {ix ix' : Index} (row : RuleRow) :
      History x rows ix → ix.indexRule x row = .error ix' → History x rows ix'
  | deletePolicy {rows : List RuleRow} {ix : Index} (fqn : String) :
      History x rows ix → History x (withoutPolicy fqn rows) (ix.deletePolicy fqn)
  | indexParentRoles {rows : List RuleRow} {ix : Index} (parentRoles : ParentRoles) :
      History x rows ix → History x rows { ix with parentRoles := parentRoles }

variable {rows : List RuleRow}

/-- A history is one of the runs that keep the index exact. -/
theorem History.reachable (h : History x rows ix) : ∃ offered, Reachable x offered ix := by
  induction h with
  | new => exact ⟨[], .new⟩
  | indexRule row _ hok ih =>
    obtain ⟨offered, hr⟩ := ih
    exact ⟨row :: offered, hr.indexRule row hok⟩
  | indexRuleFailed row _ herr ih =>
    obtain ⟨offered, hr⟩ := ih
    exact ⟨row :: offered, hr.indexRuleFailed row herr⟩
  | deletePolicy fqn _ ih =>
    obtain ⟨offered, hr⟩ := ih
    exact ⟨offered, hr.deletePolicy fqn⟩
  | indexParentRoles parentRoles _ ih =>
    obtain ⟨offered, hr⟩ := ih
    exact ⟨offered, hr.indexParentRoles parentRoles⟩

/-- What a stored row has of its own: its routing fields, the content hash of its core and its
evaluation key. -/
def content (r : BindingHandle × EvaluationKeyTuple) : BindingHandle × UInt64 × EvaluationKeyTuple :=
  ({ r.1 with id := 0, core := {} }, r.1.core.sum, r.2)

/-- The same of a row that is to be stored. -/
def rowContent (x : Externals) (row : RuleRow) : BindingHandle × UInt64 × EvaluationKeyTuple :=
  (handleOf row {}, row.funcSum x.hasher, makeEvaluationKeyTuple row)

/-- **The stored cores are those of the live bindings**, and their origins the policies. -/
structure CoresExact (ix : Index) : Prop where
  held : ∀ i b, ix.getBinding i = some b →
    ∃ e, ix.coresBySum.lookup b.core.sum = some e ∧ e.core = b.core
  sum_eq : ∀ s e, ix.coresBySum.lookup s = some e → e.core.sum = s
  nodup : ∀ s e, ix.coresBySum.lookup s = some e → e.origins.Nodup
  ne_nil : ∀ s e, ix.coresBySum.lookup s = some e → e.origins ≠ []
  origins : ∀ s e, ix.coresBySum.lookup s = some e → ∀ f,
    f ∈ e.origins ↔ ∃ i b, ix.getBinding i = some b ∧ b.core = e.core ∧ b.originFqn = f

/-- The lists of `fqnBindings` name no ID twice, and are not empty. -/
def FqnListed (ix : Index) : Prop :=
  ∀ f ids, ix.fqnBindings.lookup f = some ids → ids.Nodup ∧ ids ≠ []

/-! ## §2. One call of `IndexRule`. -/

section Step

variable {ix ix' : Index} {row : RuleRow}

theorem CoresExact.indexRule (hc : CoresExact ix) (hslots : ix.bindings.Valid)
    (h : ix.indexRule x row = .ok ix') : CoresExact ix' := by
  obtain ⟨core, e, ix₀, hcore, hsame, -, hcores, rfl, hstored⟩ := indexRule_stored h
  have hget := hsame.getBinding_addBinding (x := x) hslots (handleOf row core)
    (makeEvaluationKeyTuple row)
  have hvacant := getBinding_nextId hslots
  have hlook : ∀ s, (ix₀.addBinding x (handleOf row core)
      (makeEvaluationKeyTuple row)).coresBySum.lookup s =
        if s = row.funcSum x.hasher then some e else ix.coresBySum.lookup s := by
    intro s
    show ix₀.coresBySum.lookup s = _
    rw [hcores, lookup_insert_ite]
  -- the core has the content hash of the row, and the entry lists its origins
  have hsum : core.sum = row.funcSum x.hasher := by
    rcases hstored with ⟨e₀, hl, rfl, -⟩ | ⟨-, hs, -⟩
    · exact hc.sum_eq _ e₀ hl
    · exact hs
  have hentry : e.origins.Nodup ∧ ∀ f, f ∈ e.origins ↔ f = row.originFqn ∨
      ∃ i b, ix.getBinding i = some b ∧ b.core = core ∧ b.originFqn = f := by
    rcases hstored with ⟨e₀, hl, rfl, horiginal⟩ | ⟨hl, -, horiginal⟩
    · rw [horiginal]
      refine ⟨(hc.nodup _ e₀ hl).insert, fun f => ?_⟩
      rw [mem_insert_iff, hc.origins _ e₀ hl f]
    · rw [horiginal]
      refine ⟨nodup_singleton _, fun f => ?_⟩
      have hnone := hc.held
      grind
  refine ⟨fun i b hb => ?_, fun s e' he' => ?_, fun s e' he' => ?_, fun s e' he' => ?_,
    fun s e' he' f => ?_⟩
  · have hheld := hc.held i b
    grind [handleOf]
  · have := hc.sum_eq s e'
    grind
  · have := hc.nodup s e'
    grind
  · have := hc.ne_nil s e'
    have := hentry.2 row.originFqn
    grind
  · rw [hlook] at he'
    simp only [hget]
    split at he'
    · -- the policy of the row is the one new origin
      obtain rfl := Option.some.inj he'
      rw [hentry.2 f, hcore]
      constructor
      · rintro (rfl | ⟨i, b, hb, hrest⟩)
        · exact ⟨_, _, if_pos rfl, rfl, rfl⟩
        · exact ⟨i, b, by grind, hrest⟩
      · rintro ⟨i, b, hb, hrest⟩
        grind [handleOf]
    · -- the new binding has a core of another hash
      next hs =>
      have hs' := hc.sum_eq s e' he'
      rw [hc.origins s e' he' f]
      refine exists_congr (fun i => exists_congr (fun b => ?_))
      grind [handleOf]

theorem FqnListed.indexRule (hl : FqnListed ix) (hf : FqnExact ix) (hslots : ix.bindings.Valid)
    (h : ix.indexRule x row = .ok ix') : FqnListed ix' := by
  obtain ⟨core, e, ix₀, -, hsame, hfqn, -, rfl, -⟩ := indexRule_stored h
  -- the new ID is vacant, so no list names it
  have hnew := hf row.originFqn ix.bindings.nextId
  rw [getBinding_nextId hslots] at hnew
  intro f ids hids
  have hold := hl f ids
  have hown := hl row.originFqn
  change (ix₀.fqnBindings.insert row.originFqn
    ((ix₀.fqnBindings.lookup row.originFqn).getD [] ++ [ix₀.bindings.nextId])).lookup f = _ at hids
  rw [hfqn, hsame.bindings, lookup_insert_ite] at hids
  split at hids
  · obtain rfl := Option.some.inj hids
    refine ⟨?_, by simp⟩
    cases hlk : ix.fqnBindings.lookup row.originFqn <;> grind
  · exact hold hids

end Step

/-! ## §3. The loop of `DeletePolicy`. -/

section Delete

variable {fqn : String}

/-- What the loop keeps: cores and origins are right as far as the other policies go, and the
policy is an origin only of cores that one of its remaining bindings has. -/
structure Between (fqn : String) (ix : Index) : Prop where
  held : ∀ i b, ix.getBinding i = some b → b.originFqn ≠ fqn →
    ∃ e, ix.coresBySum.lookup b.core.sum = some e ∧ e.core = b.core
  sum_eq : ∀ s e, ix.coresBySum.lookup s = some e → e.core.sum = s
  nodup : ∀ s e, ix.coresBySum.lookup s = some e → e.origins.Nodup
  ne_nil : ∀ s e, ix.coresBySum.lookup s = some e → e.origins ≠ []
  others : ∀ s e, ix.coresBySum.lookup s = some e → ∀ f, f ≠ fqn →
    (f ∈ e.origins ↔ ∃ i b, ix.getBinding i = some b ∧ b.core = e.core ∧ b.originFqn = f)
  own : ∀ s e, ix.coresBySum.lookup s = some e → fqn ∈ e.origins →
    ∃ i b, ix.getBinding i = some b ∧ b.core = e.core ∧ b.originFqn = fqn

theorem CoresExact.between (h : CoresExact ix) (fqn : String) : Between fqn ix :=
  ⟨fun i b hb _ => h.held i b hb, h.sum_eq, h.nodup, h.ne_nil,
    fun s e he f _ => h.origins s e he f, fun s e he hmem => (h.origins s e he fqn).mp hmem⟩

/-- Once the policy has no bindings left, the cores are exact. -/
theorem Between.coresExact (h : Between fqn ix)
    (hnone : ∀ i b, ix.getBinding i = some b → b.originFqn ≠ fqn) : CoresExact ix := by
  refine ⟨fun i b hb => h.held i b hb (hnone i b hb), h.sum_eq, h.nodup, h.ne_nil,
    fun s e he f => ?_⟩
  by_cases hf : f = fqn
  · subst hf
    refine iff_of_false (fun hmem => ?_) (fun hex => ?_)
    · obtain ⟨i, b, hb, -, hown⟩ := h.own s e he hmem
      exact hnone i b hb hown
    · obtain ⟨i, b, hb, -, hown⟩ := hex
      exact hnone i b hb hown
  · exact h.others s e he f hf

/-- What a round of the loop leaves of the stored cores. -/
theorem lookup_deleteBinding {id : Nat} {b : BindingHandle} (hb : ix.getBinding id = some b)
    (fqn : String) (s : UInt64) : (Index.deleteBinding fqn ix id).coresBySum.lookup s =
      if s = b.core.sum then (ix.coresBySum.lookup s).bind (fun e =>
        if e.origins.erase fqn = [] then none else some { e with origins := e.origins.erase fqn })
      else ix.coresBySum.lookup s := by
  have hcores : (ix.removeBinding b).coresBySum = ix.coresBySum := rfl
  unfold Index.deleteBinding dropOrigin
  cases hl : ix.coresBySum.lookup b.core.sum <;> grind

/-- One round of the loop. -/
theorem Between.deleteBinding (hx : Exact x ix) (h : Between fqn ix) {id : Nat}
    (hid : ∀ b, ix.getBinding id = some b → b.originFqn = fqn) :
    Between fqn (Index.deleteBinding fqn ix id) := by
  have hget := getBinding_deleteBinding hx fqn id
  cases hb : ix.getBinding id with
  | none =>
    unfold Index.deleteBinding
    rw [hb]
    exact h
  | some b =>
    have hown := hid b hb
    have hlook := lookup_deleteBinding hb fqn
    have hstored : ∀ s e, (Index.deleteBinding fqn ix id).coresBySum.lookup s = some e →
        ∃ e₀, ix.coresBySum.lookup s = some e₀ ∧ e.core = e₀.core ∧
          ((s ≠ b.core.sum ∧ e.origins = e₀.origins) ∨
            (e.origins = e₀.origins.erase fqn ∧ e.origins ≠ [])) := by
      intro s e he
      rw [hlook] at he
      cases hl : ix.coresBySum.lookup s <;> grind
    refine ⟨fun i b' hb' hne => ?_, fun s e he => ?_, fun s e he => ?_, fun s e he => ?_,
      fun s e he f hf => ?_, fun s e he hmem => ?_⟩
    · obtain ⟨e, he, hcore⟩ := h.held i b' (by grind) hne
      have hmem := (h.others _ e he b'.originFqn hne).mpr ⟨i, b', by grind, hcore.symm, rfl⟩
      have hleft := (mem_erase_of_ne hne).mpr hmem
      grind
    all_goals obtain ⟨e₀, he₀, hcore, horiginal⟩ := hstored s e he
    · exact hcore ▸ h.sum_eq s e₀ he₀
    · have := h.nodup s e₀ he₀
      grind
    · have := h.ne_nil s e₀ he₀
      grind
    · have hlive : ∀ core, (∃ i b', (Index.deleteBinding fqn ix id).getBinding i = some b' ∧
          b'.core = core ∧ b'.originFqn = f) ↔
          ∃ i b', ix.getBinding i = some b' ∧ b'.core = core ∧ b'.originFqn = f := by
        intro core
        refine exists_congr (fun i => exists_congr (fun b' => ?_))
        grind
      rw [hlive, hcore, ← h.others s e₀ he₀ f hf]
      grind
    · -- the removed binding did not have a core of another hash
      have hnot := List.Nodup.not_mem_erase (a := fqn) (h.nodup s e₀ he₀)
      obtain ⟨i, b', hb', hcore', hf⟩ := h.own s e₀ he₀ (by grind)
      have hsum := h.sum_eq s e₀ he₀
      exact ⟨i, b', by grind, hcore'.trans hcore.symm, hf⟩

/-- The whole loop. -/
theorem Between.foldl_deleteBinding (ids : List Nat) (ix : Index) (hx : Exact x ix)
    (h : Between fqn ix) (hids : (∀ id ∈ ids, ∀ b, ix.getBinding id = some b → b.originFqn = fqn)) :
    Between fqn (ids.foldl (Index.deleteBinding fqn) ix) := by
  induction ids generalizing ix with
  | nil => exact h
  | cons id _ ih =>
    refine ih _ (hx.deleteBinding fqn id) (h.deleteBinding hx (hids id mem_cons_self)) ?_
    intro id' hid' b hb
    rw [getBinding_deleteBinding hx] at hb
    split at hb
    · cases hb
    · exact hids id' (mem_cons_of_mem id hid') b hb

theorem CoresExact.deletePolicy (hx : Exact x ix) (hf : FqnExact ix) (h : CoresExact ix)
    (fqn : String) : CoresExact (ix.deletePolicy fqn) := by
  by_cases hne : fqn = ""
  · unfold Index.deletePolicy
    rw [if_pos hne]
    exact h
  · have hleft : ∀ i b, (ix.deletePolicy fqn).getBinding i = some b → b.originFqn ≠ fqn := by
      intro i b hb
      rw [getBinding_deletePolicy hx hf fqn hne] at hb
      simpa using (Option.filter_eq_some_iff.mp hb).2
    refine @Between.coresExact _ fqn ?_ hleft
    unfold Index.deletePolicy
    rw [if_neg hne]
    cases hids : ix.fqnBindings.lookup fqn with
    | none => exact h.between fqn
    | some ids =>
      have hlookp := Between.foldl_deleteBinding ids ix hx (h.between fqn) (fun id hid b hb => by
        obtain ⟨b', hb', ho⟩ := (hf fqn id).mp (by rw [hids]; exact hid)
        rw [hb, Option.some.injEq] at hb'
        rw [hb']
        exact ho)
      exact { hlookp with }

theorem FqnListed.deletePolicy (h : FqnListed ix) (fqn : String) :
    FqnListed (ix.deletePolicy fqn) := by
  by_cases hne : fqn = ""
  · rw [Index.deletePolicy, if_pos hne]
    exact h
  · intro f ids hids
    rw [lookup_fqnBindings_deletePolicy fqn hne] at hids
    exact h f ids (by grind)

/-- **The rows that a deletion leaves**, in their order. -/
theorem values_deletePolicy (hx : Exact x ix) (hf : FqnExact ix) (hne : fqn ≠ "") :
    (ix.deletePolicy fqn).bindings.values =
      ix.bindings.values.filter (fun r => decide (r.1.originFqn ≠ fqn)) :=
  Slab.values_eq_of_get? (fun i => get?_deletePolicy hx hf fqn hne i)

end Delete

/-! ## §4. Whole histories. -/

/-- A dimension has a key for every value that a live binding carries, and no other. -/
def KeysExact {κ : Type} [DecidableEq κ] (ix : Index) (d : Postings κ)
    (carries : BindingHandle → κ → Prop) : Prop :=
  ∀ k, k ∈ d.keys ↔ ∃ i b, ix.getBinding i = some b ∧ carries b k

theorem Tracks.keysExact {κ : Type} [DecidableEq κ] {d : Postings κ}
    {carries : BindingHandle → κ → Prop} (h : Tracks ix d.has carries) : KeysExact ix d carries := by
  intro k
  rw [Postings.mem_keys_iff]
  exact exists_congr (fun i => h k i)

/-- No dimension has a key without a live binding. -/
structure NoEmptyKeys (x : Externals) (ix : Index) : Prop where
  version : KeysExact ix ix.version (fun b v => b.version = v ∧ v ≠ "")
  scope : KeysExact ix ix.scope (fun b s => b.scope = s)
  policyKind : KeysExact ix ix.policyKind (fun b k => b.core.policyKind = k)
  principal : KeysExact ix ix.principal (fun b p => b.principal = p ∧ p ≠ "")
  role : KeysExact ix ix.role.literals (fun b k => b.role = k ∧ k ≠ "" ∧ isGlob k = false)
  roleGlobs : KeysExact ix ix.role.globs
    (fun b k => b.role = k ∧ isGlob k = true ∧ (x.getOrCompileGlob k).isSome = true)
  action : KeysExact ix ix.action.literals
    (fun b k => indexedAction b = k ∧ k ≠ "" ∧ isGlob k = false)
  actionGlobs : KeysExact ix ix.action.globs
    (fun b k => indexedAction b = k ∧ isGlob k = true ∧ (x.getOrCompileGlob k).isSome = true)
  resource : KeysExact ix ix.resource.literals
    (fun b k => b.resource = k ∧ k ≠ "" ∧ isGlob k = false)
  resourceGlobs : KeysExact ix ix.resource.globs
    (fun b k => b.resource = k ∧ isGlob k = true ∧ (x.getOrCompileGlob k).isSome = true)

theorem Exact.noEmptyKeys (h : Exact x ix) : NoEmptyKeys x ix where
  version := h.version.keysExact
  scope := h.scope.keysExact
  policyKind := h.policyKind.keysExact
  principal := h.principal.keysExact
  role := h.role.literals.keysExact
  roleGlobs := h.role.globs.keysExact
  action := h.action.literals.keysExact
  actionGlobs := h.action.globs.keysExact
  resource := h.resource.literals.keysExact
  resourceGlobs := h.resource.globs.keysExact

/-- What a history keeps beside exactness. -/
structure Accounted (x : Externals) (rows : List RuleRow) (ix : Index) : Prop where
  rows : (ix.bindings.values.map content).Perm (rows.map (rowContent x))
  fqnListed : FqnListed ix
  cores : CoresExact ix

theorem content_handleOf {row : RuleRow} {core : FunctionalCore}
    (hsum : core.sum = row.funcSum x.hasher) (i : Nat) :
    content ({ handleOf row core with id := i }, makeEvaluationKeyTuple row) = rowContent x row := by
  unfold content rowContent
  rw [← hsum]
  rfl

theorem History.accounted (h : History x rows ix) : Accounted x rows ix := by
  induction h with
  | new =>
    refine ⟨List.Perm.refl _, ?_, ?_⟩
    · intro f ids hids; cases hids
    · constructor <;> (intro _ _ h; cases h)
  | @indexRule rows ix ix' row hist hok ih =>
    obtain ⟨offered, hr⟩ := hist.reachable
    have hslots := hr.inv.exact.slots
    have hcores := ih.cores.indexRule hslots hok
    refine ⟨?_, ih.fqnListed.indexRule hr.inv.fqn hslots hok, hcores⟩
    obtain ⟨core, e, ix₀, rfl, hsame, -, hstored, rfl, -⟩ := indexRule_stored hok
    have hsum := hcores.sum_eq (row.funcSum x.hasher) e
      (by rw [addBinding, hstored, AList.lookup_insert])
    have hslots₀ : ix₀.bindings.Valid := hsame.bindings.symm ▸ hslots
    have hvalues := (hslots₀.values_alloc_perm
      (fun i => (({ handleOf row e.core with id := i } : BindingHandle),
        makeEvaluationKeyTuple row))).map content
    rw [map_cons, content_handleOf hsum] at hvalues
    have hrows := ih.rows
    rw [← hsame.bindings] at hrows
    exact hvalues.trans (hrows.cons _)
  | @indexRuleFailed rows ix ix' row hist herr ih =>
    obtain ⟨hsame, hfqn, hcores⟩ := indexRule_error herr
    have hbind := hsame.bindings
    cases ix
    cases ix'
    subst hbind hfqn hcores
    exact ⟨ih.rows, ih.fqnListed, { ih.cores with }⟩
  | @deletePolicy rows ix fqn hist ih =>
    obtain ⟨offered, hr⟩ := hist.reachable
    refine ⟨?_, ih.fqnListed.deletePolicy fqn, ih.cores.deletePolicy hr.inv.exact hr.inv.fqn fqn⟩
    by_cases hne : fqn = ""
    · unfold withoutPolicy Index.deletePolicy
      rw [if_pos hne, if_pos hne]
      exact ih.rows
    · unfold withoutPolicy
      rw [if_neg hne, values_deletePolicy hr.inv.exact hr.inv.fqn hne]
      -- the origin is part of the content
      have hfilter := ih.rows.filter (fun c => decide (c.1.originFqn ≠ fqn))
      rw [filter_map, filter_map] at hfilter
      exact hfilter
  | indexParentRoles _ _ ih => exact ⟨ih.rows, ih.fqnListed, { ih.cores with }⟩

/-- A row of another policy with the same core. -/
def sharingRow : RuleRow :=
  { sampleRow "user" (textExpr "a") with originFqn := "cerbos.resource.report.vdefault" }

/-- Two policies that share a core, of which one is deleted. -/
def halfDeleted : Index :=
  ((Index.new.afterCall sample (sampleRow "user" (textExpr "a"))).afterCall
    sample sharingRow).deletePolicy "cerbos.resource.doc.vdefault"

end AccessManagement.Index
