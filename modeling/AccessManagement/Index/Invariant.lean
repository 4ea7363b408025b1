/-
  AccessManagement.Index.Invariant — THE DIMENSIONS ARE EXACT, on every reachable index.

  A query never looks at a binding to decide whether it matches: it intersects posting
  sets.  What makes that right is that every posting set holds exactly the IDs of the live
  bindings with the set's value (`Exact`).  This file proves it for every index reachable by
  `IndexRule` and `DeletePolicy`, and traces each live binding back to the rows it was made
  from (`Provenance`): the row that gave its routing fields and the row, with the same
  content hash, that gave its core.

  Main results:
    * `Exact.addBinding` / `Exact.removeBinding` — one update keeps the dimensions exact.
    * `getBinding_deletePolicy` — a deletion removes the bindings of the policy, no others.
    * `Reachable.inv` — any run of updates keeps all of it.
-/
import AccessManagement.Index.State

namespace AccessManagement.Index

open Lib List Index

variable {x : Externals}

/-! ## §1. Exact families of posting sets. -/

/-- The family holds, under each key, exactly the IDs of the live bindings that carry it. -/
def Tracks {κ : Type} (ix : Index) (has : κ → Nat → Bool) (carries : BindingHandle → κ → Prop) :
    Prop :=
  ∀ k i, has k i = true ↔ ∃ b, ix.getBinding i = some b ∧ carries b k

section Tracks

variable {κ : Type} {ix ix' : Index} {has has' : κ → Nat → Bool}
  {carries : BindingHandle → κ → Prop} {n : Nat} {b : BindingHandle}

/-- Storing `b` under a vacant ID and entering it under the keys it carries. -/
theorem Tracks.add (h : Tracks ix has carries) (hvacant : ix.getBinding n = none)
    (hget : ∀ i, ix'.getBinding i = if i = n then some b else ix.getBinding i)
    (hhas : ∀ k i, has' k i = true ↔ has k i = true ∨ (carries b k ∧ n = i)) :
    Tracks ix' has' carries := by
  intro k i
  rw [hhas, hget, h k i]
  split
  · next hi => simp [hi, hvacant]
  · next hi => simp [Ne.symm hi]

/-- Vacating the slot of `b` and leaving the keys it carries. -/
theorem Tracks.remove (h : Tracks ix has carries) (hb : ix.getBinding n = some b)
    (hget : ∀ i, ix'.getBinding i = if i = n then none else ix.getBinding i)
    (atKey : κ → Prop) (hat : ∀ k, carries b k → atKey k)
    (hhas : ∀ k i, has' k i = true ↔ has k i = true ∧ ¬ (atKey k ∧ n = i)) :
    Tracks ix' has' carries := by
  intro k i
  rw [hhas, hget, h k i]
  split
  · next hi =>
    subst hi
    simpa [hb] using hat k
  · next hi => simp [Ne.symm hi]

end Tracks

/-- Exactness of a dimension with globs: literals and valid patterns, apart.  `value` gives
`""` for a binding that stays out of the dimension. -/
structure GlobExact (x : Externals) (ix : Index) (d : GlobDimension)
    (value : BindingHandle → String) : Prop where
  literals : Tracks ix d.literals.has (fun b k => value b = k ∧ k ≠ "" ∧ isGlob k = false)
  globs : Tracks ix d.globs.has
    (fun b k => value b = k ∧ isGlob k = true ∧ (x.getOrCompileGlob k).isSome = true)

/-- The action a binding is indexed under: none for the allow list of a role policy. -/
def indexedAction (b : BindingHandle) : String :=
  if b.allowActions.isSome then "" else b.action

/-- **The index is exact**: IDs are slots, and every dimension tracks its value. -/
structure Exact (x : Externals) (ix : Index) : Prop where
  slots : ix.bindings.Valid
  id_eq : ∀ i b, ix.getBinding i = some b → b.id = i
  universeBitmap : Tracks ix (fun (_ : Unit) i => ix.universeBitmap.has i) (fun _ _ => True)
  version : Tracks ix ix.version.has (fun b v => b.version = v ∧ v ≠ "")
  scope : Tracks ix ix.scope.has (fun b s => b.scope = s)
  role : GlobExact x ix ix.role (·.role)
  resource : GlobExact x ix ix.resource (·.resource)
  action : GlobExact x ix ix.action indexedAction
  policyKind : Tracks ix ix.policyKind.has (fun b k => b.core.policyKind = k)
  principal : Tracks ix ix.principal.has (fun b p => b.principal = p ∧ p ≠ "")
  allowActionsBitmap : Tracks ix (fun (_ : Unit) i => ix.allowActionsBitmap.has i)
    (fun b _ => b.allowActions.isSome = true)

/-! ## §2. One update of a dimension. -/

@[grind =] theorem isGlob_empty : isGlob "" = false := by decide

theorem has_addNonempty (d : Postings String) (key k : String) (id i : Nat) :
    (addNonempty d key id).has k i = true ↔ d.has k i = true ∨ ((key = k ∧ k ≠ "") ∧ id = i) := by
  unfold addNonempty
  split <;> grind

theorem has_setNonempty (x : Externals) (d : GlobDimension) (key k : String) (id i : Nat) :
    ((setNonempty x d key id).literals.has k i = true ↔
      d.literals.has k i = true ∨ ((key = k ∧ k ≠ "" ∧ isGlob k = false) ∧ id = i)) ∧
    ((setNonempty x d key id).globs.has k i = true ↔ d.globs.has k i = true ∨
      ((key = k ∧ isGlob k = true ∧ (x.getOrCompileGlob k).isSome = true) ∧ id = i)) := by
  unfold setNonempty GlobDimension.set
  split
  · grind
  · split
    · split <;> grind
    · grind

/-! ## §3. One update of the index. -/

theorem getBinding_addBinding (x : Externals) {ix : Index} (h : ix.bindings.Valid)
    (b : BindingHandle) (key : EvaluationKeyTuple) (i : Nat) :
    (ix.addBinding x b key).getBinding i =
      if i = ix.bindings.nextId then some { b with id := ix.bindings.nextId }
      else ix.getBinding i := by
  unfold getBinding addBinding
  rw [h.get?_alloc]
  split <;> rfl

theorem getBinding_nextId {ix : Index} (h : ix.bindings.Valid) :
    ix.getBinding ix.bindings.nextId = none := by
  rw [getBinding, h.get?_nextId, Option.map_none]

theorem getBinding_removeBinding (ix : Index) (b : BindingHandle) (i : Nat) :
    (ix.removeBinding b).getBinding i = if i = b.id then none else ix.getBinding i := by
  unfold getBinding removeBinding
  rw [Slab.get?_release]
  split <;> rfl

section GlobExact

variable {ix ix' : Index} {d : GlobDimension} {value : BindingHandle → String} {n : Nat}
  {b : BindingHandle}

variable (h : GlobExact x ix d value)

include h

theorem GlobExact.add {key : String} (hvacant : ix.getBinding n = none)
    (hget : ∀ i, ix'.getBinding i = if i = n then some b else ix.getBinding i)
    (hkey : value b = key) : GlobExact x ix' (setNonempty x d key n) value := by
  subst hkey
  exact ⟨h.literals.add hvacant hget (fun k i => (has_setNonempty x d _ k n i).1),
    h.globs.add hvacant hget (fun k i => (has_setNonempty x d (value b) k n i).2)⟩

variable (hb : ix.getBinding n = some b)
  (hget : ∀ i, ix'.getBinding i = if i = n then none else ix.getBinding i)

include hb hget

theorem GlobExact.remove : GlobExact x ix' (d.remove (value b) n) value := by
  unfold GlobDimension.remove
  split
  · -- the literals do not change: no literal is a pattern
    exact ⟨h.literals.remove hb hget (fun _ => False) (by grind) (by simp),
      h.globs.remove hb hget (value b = ·) (by grind) (by grind)⟩
  · exact ⟨h.literals.remove hb hget (value b = ·) (by grind) (by grind),
      h.globs.remove hb hget (fun _ => False) (by grind) (by simp)⟩

/-- A binding without an indexed action is in no posting set of the action dimension. -/
theorem GlobExact.unchanged (hv : value b = "") : GlobExact x ix' d value where
  literals := h.literals.remove hb hget (fun _ => False) (by grind) (by simp)
  globs := h.globs.remove hb hget (fun _ => False) (by grind) (by simp)

end GlobExact

variable {ix : Index} {rows rows' : List RuleRow}

/-- **Adding a binding keeps the index exact.** -/
theorem Exact.addBinding (h : Exact x ix) (b : BindingHandle)
    (key : EvaluationKeyTuple) : Exact x (ix.addBinding x b key) := by
  have hvacant := getBinding_nextId h.slots
  have hget := getBinding_addBinding x h.slots b key
  have haction : (ix.addBinding x b key).action
      = setNonempty x ix.action (indexedAction b) ix.bindings.nextId := by
    simp only [Index.addBinding, indexedAction]
    split <;> rfl
  constructor
  case slots => exact Slab.Valid.alloc (fun id => ({ b with id }, key)) h.slots
  case id_eq =>
    intro i b' hb'
    have := h.id_eq i b'
    grind
  case universeBitmap => exact h.universeBitmap.add hvacant hget (by simp [Index.addBinding])
  case version => exact h.version.add hvacant hget (fun k i => has_addNonempty _ _ _ _ _)
  case scope => exact h.scope.add hvacant hget (by simp [Index.addBinding])
  case role => exact h.role.add hvacant hget rfl
  case resource => exact h.resource.add hvacant hget rfl
  case action => rw [haction]; exact h.action.add hvacant hget rfl
  case policyKind => exact h.policyKind.add hvacant hget (by simp [Index.addBinding])
  case principal => exact h.principal.add hvacant hget (fun k i => has_addNonempty _ _ _ _ _)
  case allowActionsBitmap =>
    refine h.allowActionsBitmap.add hvacant hget (fun _ i => ?_)
    simp only [Index.addBinding]
    split <;> grind

/-- **Removing a live binding keeps the index exact.** -/
theorem Exact.removeBinding (h : Exact x ix) {n : Nat}
    {b : BindingHandle} (hb : ix.getBinding n = some b) : Exact x (ix.removeBinding b) := by
  obtain rfl := h.id_eq n b hb
  have hget := getBinding_removeBinding ix b
  constructor
  case slots =>
    obtain ⟨_, hslot, -⟩ := Option.map_eq_some_iff.mp hb
    exact h.slots.release hslot
  case id_eq =>
    intro i b' hb'
    have := h.id_eq i b'
    grind
  case universeBitmap =>
    exact h.universeBitmap.remove hb hget (fun _ => True) (by simp) (by simp [Index.removeBinding])
  case version =>
    exact h.version.remove hb hget (b.version = ·) (by grind) (by grind [removeBinding])
  case scope =>
    exact h.scope.remove hb hget (b.scope = ·) (by grind) (by grind [removeBinding])
  case role => exact h.role.remove hb hget
  case resource => exact h.resource.remove hb hget
  case action =>
    simp only [Index.removeBinding]
    split
    · exact h.action.unchanged hb hget (by grind [indexedAction])
    · next ha =>
      have hval : indexedAction b = b.action := if_neg ha
      rw [← hval]
      split
      · exact h.action.unchanged hb hget ‹_›
      · exact h.action.remove hb hget
  case policyKind =>
    exact h.policyKind.remove hb hget (b.core.policyKind = ·) (by grind)
      (by grind [removeBinding])
  case principal =>
    exact h.principal.remove hb hget (b.principal = ·) (by grind) (by grind [removeBinding])
  case allowActionsBitmap =>
    refine h.allowActionsBitmap.remove hb hget (fun _ => b.allowActions.isSome = true)
      (fun _ ha => ha) (fun _ i => ?_)
    simp only [Index.removeBinding]
    split <;> grind

/-! ## §4. Updates that leave the dimensions alone. -/

/-- The two indexes have the same bindings and the same dimensions. -/
structure SameRouting (ix ix' : Index) : Prop where
  bindings : ix'.bindings = ix.bindings
  universeBitmap : ix'.universeBitmap = ix.universeBitmap
  version : ix'.version = ix.version
  scope : ix'.scope = ix.scope
  role : ix'.role = ix.role
  resource : ix'.resource = ix.resource
  action : ix'.action = ix.action
  policyKind : ix'.policyKind = ix.policyKind
  principal : ix'.principal = ix.principal
  allowActionsBitmap : ix'.allowActionsBitmap = ix.allowActionsBitmap

section SameRouting

variable {ix ix' : Index} {row : RuleRow}

theorem SameRouting.getBinding (s : SameRouting ix ix') (i : Nat) :
    ix'.getBinding i = ix.getBinding i := by
  rw [Index.getBinding, s.bindings, Index.getBinding]

theorem SameRouting.exact (s : SameRouting ix ix') (h : Exact x ix) : Exact x ix' := by
  obtain ⟨⟩ := ix
  obtain ⟨⟩ := ix'
  obtain ⟨rfl, rfl, rfl, rfl, rfl, rfl, rfl, rfl, rfl, rfl⟩ := s
  exact ⟨h.slots, h.id_eq, h.universeBitmap, h.version, h.scope, ⟨h.role.literals, h.role.globs⟩,
    ⟨h.resource.literals, h.resource.globs⟩, ⟨h.action.literals, h.action.globs⟩, h.policyKind,
    h.principal, h.allowActionsBitmap⟩

/-- A binding added after such an update. -/
theorem SameRouting.getBinding_addBinding (s : SameRouting ix ix') (h : ix.bindings.Valid)
    (b : BindingHandle) (key : EvaluationKeyTuple) (i : Nat) :
    (ix'.addBinding x b key).getBinding i =
      if i = ix.bindings.nextId then some { b with id := ix.bindings.nextId }
      else ix.getBinding i := by
  rw [Index.getBinding_addBinding x (s.bindings.symm ▸ h), s.bindings, s.getBinding]

theorem sameRouting_dropOrigin (ix : Index) (core : FunctionalCore) (fqn : String) :
    SameRouting ix (ix.dropOrigin core fqn) := by
  unfold dropOrigin
  split
  · constructor <;> rfl
  · dsimp only
    split <;> constructor <;> rfl

/-- **What a successful call of `IndexRule` does**: it adds a binding for the row with a core,
which is the one stored under its content hash or a new one, and makes its policy an origin of
the core. -/
theorem indexRule_stored (h : ix.indexRule x row = .ok ix') :
    ∃ core e ix₀, e.core = core ∧ SameRouting ix ix₀ ∧ ix₀.fqnBindings = ix.fqnBindings ∧
      ix₀.coresBySum = ix.coresBySum.insert (row.funcSum x.hasher) e ∧
      ix' = ix₀.addBinding x (handleOf row core) (makeEvaluationKeyTuple row) ∧
      ((∃ e₀, ix.coresBySum.lookup (row.funcSum x.hasher) = some e₀ ∧ e₀.core = core ∧
          e.origins = e₀.origins.insert row.originFqn) ∨
        (ix.coresBySum.lookup (row.funcSum x.hasher) = none ∧
          core.sum = row.funcSum x.hasher ∧ e.origins = [row.originFqn])) := by
  unfold indexRule at h
  split at h
  · cases h
  · next params drParams pc drc _ =>
    obtain rfl := Except.ok.inj h
    unfold shareCore
    dsimp only
    split
    · next e₀ hl =>
      exact ⟨e₀.core, { e₀ with origins := e₀.origins.insert row.originFqn },
        { ix with paramsCache := pc, drParamsCache := drc, coresBySum := _ }, rfl,
        by constructor <;> rfl, rfl, rfl, rfl, .inl ⟨e₀, hl, rfl, rfl⟩⟩
    · next hl =>
      exact ⟨coreOf x row params drParams, ⟨_, [row.originFqn]⟩,
        { ix with
          paramsCache := addRef pc params, drParamsCache := addRef drc drParams, coresBySum := _ },
        rfl, by constructor <;> rfl, rfl, rfl, rfl, .inr ⟨hl, rfl, rfl⟩⟩

/-- A call that fails leaves everything but the caches of parameters. -/
theorem indexRule_error (h : ix.indexRule x row = .error ix') :
    SameRouting ix ix' ∧ ix'.fqnBindings = ix.fqnBindings ∧ ix'.coresBySum = ix.coresBySum := by
  unfold indexRule at h
  split at h
  · obtain rfl := Except.error.inj h
    exact ⟨by constructor <;> rfl, rfl, rfl⟩
  · cases h

end SameRouting

/-! ## §5. Deleting a policy. -/

/-- `fqnBindings` lists, under each policy name, the IDs of its live bindings. -/
def FqnExact (ix : Index) : Prop :=
  ∀ f i, i ∈ (ix.fqnBindings.lookup f).getD [] ↔ ∃ b, ix.getBinding i = some b ∧ b.originFqn = f

section Delete

variable {ix : Index}

theorem FqnExact.addBinding (h : FqnExact ix) (hslots : ix.bindings.Valid) (b : BindingHandle)
    (key : EvaluationKeyTuple) : FqnExact (ix.addBinding x b key) := by
  intro f i
  have hold := h f i
  have hvacant := getBinding_nextId hslots
  rw [getBinding_addBinding x hslots]
  show i ∈ ((ix.fqnBindings.insert b.originFqn
    ((ix.fqnBindings.lookup b.originFqn).getD [] ++ [ix.bindings.nextId])).lookup f).getD [] ↔ _
  grind

/-- What every round of the deletion loop keeps, the deletion keeps. -/
theorem deletePolicy_induction {P : Index → Prop} {fqn : String} (h : P ix)
    (hround : ∀ ix id, P ix → P (deleteBinding fqn ix id))
    (hfqn : ∀ (ix : Index) m, P ix → P { ix with fqnBindings := m }) : P (ix.deletePolicy fqn) := by
  unfold deletePolicy
  split
  · exact h
  · split
    · exact h
    · exact hfqn _ _ (List.foldlRecOn _ _ h (fun ix hix id _ => hround ix id hix))

variable (h : Exact x ix) (fqn : String)

include h

/-- One round of the deletion loop vacates its ID, if anything. -/
theorem get?_deleteBinding (id i : Nat) :
    (deleteBinding fqn ix id).bindings.get? i = if i = id then none else ix.bindings.get? i := by
  unfold deleteBinding
  split
  · next hnone =>
    have hvacant : ix.bindings.get? id = none := Option.map_eq_none_iff.mp hnone
    grind
  · next b hb =>
    rw [(sameRouting_dropOrigin _ _ _).bindings, ← h.id_eq id b hb]
    exact Slab.get?_release _ _ i

theorem getBinding_deleteBinding (id i : Nat) :
    (deleteBinding fqn ix id).getBinding i = if i = id then none else ix.getBinding i := by
  rw [getBinding, get?_deleteBinding h]
  split <;> rfl

theorem Exact.deleteBinding (id : Nat) : Exact x (deleteBinding fqn ix id) := by
  unfold Index.deleteBinding
  split
  · exact h
  · next b hb => exact (sameRouting_dropOrigin _ _ _).exact (h.removeBinding hb)

omit h

/-- The whole loop vacates exactly the listed IDs. -/
theorem get?_foldl_deleteBinding (fqn : String) (i : Nat) (ids : List Nat) (ix : Index)
    (h : Exact x ix) : (ids.foldl (deleteBinding fqn) ix).bindings.get? i =
      if i ∈ ids then none else ix.bindings.get? i := by
  induction ids generalizing ix with
  | nil => simp
  | cons id _ ih =>
    rw [foldl_cons, ih _ (h.deleteBinding fqn id), get?_deleteBinding h]
    grind

/-- The loop of `DeletePolicy` does not touch `fqnBindings`. -/
theorem fqnBindings_foldl_deleteBinding (fqn : String) (ids : List Nat) :
    (ids.foldl (deleteBinding fqn) ix).fqnBindings = ix.fqnBindings := by
  refine List.foldlRecOn (motive := fun ix' : Index => ix'.fqnBindings = ix.fqnBindings) _ _ rfl ?_
  intro ix' h id _
  rw [← h]
  unfold deleteBinding dropOrigin
  split
  · rfl
  · split
    · rfl
    · dsimp only
      split <;> rfl

/-- **A deletion removes the bindings of the policy and no others.** -/
theorem get?_deletePolicy (h : Exact x ix) (hf : FqnExact ix) (fqn : String) (hne : fqn ≠ "")
    (i : Nat) : (ix.deletePolicy fqn).bindings.get? i =
      (ix.bindings.get? i).filter (fun r => decide (r.1.originFqn ≠ fqn)) := by
  have howned := hf fqn i
  unfold getBinding at howned
  unfold deletePolicy
  rw [if_neg hne]
  split
  · cases hr : ix.bindings.get? i <;> simp_all [Option.filter]
  · next ids hids =>
    show (ids.foldl (deleteBinding fqn) ix).bindings.get? i = _
    rw [get?_foldl_deleteBinding fqn i ids ix h]
    cases hr : ix.bindings.get? i <;> simp_all [Option.filter]

theorem getBinding_deletePolicy (h : Exact x ix) (hf : FqnExact ix) (fqn : String) (hne : fqn ≠ "")
    (i : Nat) : (ix.deletePolicy fqn).getBinding i =
      (ix.getBinding i).filter (fun b => decide (b.originFqn ≠ fqn)) := by
  rw [getBinding, get?_deletePolicy h hf fqn hne, getBinding, Option.filter_map]
  rfl

theorem lookup_fqnBindings_deletePolicy (fqn : String) (hne : fqn ≠ "") (f : String) :
    (ix.deletePolicy fqn).fqnBindings.lookup f =
      if f = fqn then none else ix.fqnBindings.lookup f := by
  unfold deletePolicy
  rw [if_neg hne]
  split
  · grind
  · dsimp only
    rw [fqnBindings_foldl_deleteBinding, lookup_erase_ite]

theorem FqnExact.deletePolicy (h : Exact x ix) (hf : FqnExact ix) (fqn : String) :
    FqnExact (ix.deletePolicy fqn) := by
  by_cases hne : fqn = ""
  · rw [Index.deletePolicy, if_pos hne]
    exact hf
  · intro f i
    rw [getBinding_deletePolicy h hf fqn hne i, lookup_fqnBindings_deletePolicy fqn hne]
    have hold := hf f i
    cases hb : ix.getBinding i <;> grind

end Delete

/-! ## §6. Where the parts of a binding come from. -/

/-- The parameters a row brings along. -/
def paramsOf (x : Externals) (p : Option Params) : RowParams where
  key := x.hasher.sum (optTokens Params.tokens p)
  orderedVariables := (p.map (·.orderedVariables)).getD []
  constants := (p.map (·.constants)).getD []

/-- Parameters with this hash that one of the rows brought along; `get` is the field of the row. -/
def FromParams (x : Externals) (get : RuleRow → Option Params) (rows : List RuleRow) (k : UInt64)
    (rp : RowParams) : Prop :=
  ∃ r ∈ rows, (paramsOf x (get r)).key = k ∧ rp = paramsOf x (get r)

/-- The parameters that a row is indexed with, by its kind. -/
structure RowHolds (x : Externals) (Q Q' : UInt64 → RowParams → Prop) (row : RuleRow)
    (p drp : Option RowParams) : Prop where
  params : if row.policyKind = .resource ∨ row.policyKind = .principal then
      ∃ rp, p = some rp ∧ Q (paramsOf x row.params).key rp
    else p = none
  drParams : if row.policyKind = .resource ∧ row.originDerivedRole ≠ "" then
      ∃ rp, drp = some rp ∧ Q' (paramsOf x row.derivedRoleParams).key rp
    else drp = none

/-- A core stored under the content hash `s` is the core of a row with that hash, with
parameters that rows with the hash of its parameters brought along. -/
def CoreFrom (x : Externals) (rows : List RuleRow) (s : UInt64) (core : FunctionalCore) : Prop :=
  ∃ row ∈ rows, row.funcSum x.hasher = s ∧ ∃ p drp, core = coreOf x row p drp ∧
    RowHolds x (FromParams x RuleRow.params rows) (FromParams x RuleRow.derivedRoleParams rows)
      row p drp

/-- The parameters in a cache satisfy `Q`, with their content hash. -/
def Cached (Q : UInt64 → RowParams → Prop) (cache : ParamsCache) : Prop :=
  EntriesHold (fun k e => Q k e.params) cache

/-- Every part of the index comes from one of `rows`. -/
structure Provenance (x : Externals) (rows : List RuleRow) (ix : Index) : Prop where
  params : Cached (FromParams x RuleRow.params rows) ix.paramsCache
  drParams : Cached (FromParams x RuleRow.derivedRoleParams rows) ix.drParamsCache
  cores : ∀ s e, ix.coresBySum.lookup s = some e → CoreFrom x rows s e.core
  bindings : ∀ i b k, ix.bindings.get? i = some (b, k) →
    ∃ row ∈ rows, ∃ core, CoreFrom x rows (row.funcSum x.hasher) core ∧
      b = { handleOf row core with id := i } ∧ k = makeEvaluationKeyTuple row

theorem FromParams.mono {get : RuleRow → Option Params} (hsub : rows ⊆ rows') {k : UInt64}
    {rp : RowParams} (h : FromParams x get rows k rp) : FromParams x get rows' k rp := by
  obtain ⟨r, hr, hrest⟩ := h
  exact ⟨r, hsub hr, hrest⟩

theorem RowHolds.mono {Q Q' R R' : UInt64 → RowParams → Prop} {row : RuleRow}
    {p drp : Option RowParams} (hQ : ∀ k rp, Q k rp → R k rp) (hQ' : ∀ k rp, Q' k rp → R' k rp)
    (h : RowHolds x Q Q' row p drp) : RowHolds x R R' row p drp := by
  obtain ⟨hp, hdrp⟩ := h
  constructor
  · split at hp
    next hc =>
      rw [if_pos hc]
      obtain ⟨rp, rfl, hrp⟩ := hp
      exact ⟨rp, rfl, hQ _ _ hrp⟩
    next hc => rwa [if_neg hc]
  · split at hdrp
    next hc =>
      rw [if_pos hc]
      obtain ⟨rp, rfl, hrp⟩ := hdrp
      exact ⟨rp, rfl, hQ' _ _ hrp⟩
    next hc => rwa [if_neg hc]

theorem RowHolds.of_params {Q Q' : UInt64 → RowParams → Prop} {row : RuleRow}
    {p drp : Option RowParams} (h : RowHolds x Q Q' row p drp) {rp : RowParams} (hrp : p = some rp) :
    Q (paramsOf x row.params).key rp := by
  have hp := h.params
  split at hp
  · obtain ⟨rp', rfl, hrp'⟩ := hp
    exact Option.some.inj hrp ▸ hrp'
  · rw [hp] at hrp
    cases hrp

theorem RowHolds.of_drParams {Q Q' : UInt64 → RowParams → Prop} {row : RuleRow}
    {p drp : Option RowParams} (h : RowHolds x Q Q' row p drp) {rp : RowParams}
    (hrp : drp = some rp) : Q' (paramsOf x row.derivedRoleParams).key rp := by
  have hdrp := h.drParams
  split at hdrp
  · obtain ⟨rp', rfl, hrp'⟩ := hdrp
    exact Option.some.inj hrp ▸ hrp'
  · rw [hdrp] at hrp
    cases hrp

theorem CoreFrom.mono {s : UInt64}
    {core : FunctionalCore} (h : CoreFrom x rows s core) (hsub : rows ⊆ rows') :
    CoreFrom x rows' s core := by
  obtain ⟨row, hrow, hs, p, drp, hcore, hrest⟩ := h
  exact ⟨row, hsub hrow, hs, p, drp, hcore, hrest.mono (fun _ _ => .mono hsub) (fun _ _ => .mono hsub)⟩

theorem Provenance.mono
    (h : Provenance x rows ix) (hsub : rows ⊆ rows') : Provenance x rows' ix where
  params := fun k e hk => (h.params k e hk).mono hsub
  drParams := fun k e hk => (h.drParams k e hk).mono hsub
  cores := fun s e hs => (h.cores s e hs).mono hsub
  bindings := fun i b k hb => by
    obtain ⟨row, hrow, core, hcore, hb', hk⟩ := h.bindings i b k hb
    exact ⟨row, hsub hrow, core, hcore.mono hsub, hb', hk⟩

section Stores

variable {Q Q' : UInt64 → RowParams → Prop} {R : UInt64 → FunctionalCore → Prop}
  {cache cache' pc drc : ParamsCache} {ix ix' : Index} {row : RuleRow} {p drp : Option RowParams}

/-- What is known of the parameters in the two caches, and of the stored cores. -/
structure Stores (Q Q' : UInt64 → RowParams → Prop) (R : UInt64 → FunctionalCore → Prop)
    (ix : Index) : Prop where
  params : Cached Q ix.paramsCache
  drParams : Cached Q' ix.drParamsCache
  cores : EntriesHold (fun s e => R s e.core) ix.coresBySum

/-- A cache lookup returns parameters with the hash it looks for, and keeps the cache. -/
theorem Cached.getOrGenerateParams {p : Option Params} {rp : RowParams} (h : Cached Q cache)
    (hp : Q (paramsOf x p).key (paramsOf x p))
    (hg : getOrGenerateParams x cache p = some (rp, cache')) :
    Q (paramsOf x p).key rp ∧ Cached Q cache' := by
  unfold Index.getOrGenerateParams at hg
  dsimp only at hg
  split at hg
  · next e he =>
    obtain ⟨rfl, rfl⟩ := Prod.mk.inj (Option.some.inj hg)
    exact ⟨h _ e he, h⟩
  · split at hg
    · obtain ⟨rfl, rfl⟩ := Prod.mk.inj (Option.some.inj hg)
      exact ⟨hp, EntriesHold.insert h hp⟩
    · cases hg

theorem Cached.addRef (h : Cached Q cache) (p : Option RowParams) : Cached Q (addRef cache p) := by
  unfold Index.addRef
  split
  · exact h
  · split
    · next e he => exact EntriesHold.insert h (h _ e he)
    · exact h

theorem Cached.removeRef (h : Cached Q cache) (p : Option RowParams) :
    Cached Q (removeRef cache p) := by
  unfold Index.removeRef
  split
  · exact h
  · split
    · next e he =>
      split
      · exact EntriesHold.erase h _
      · exact EntriesHold.insert h (h _ e he)
    · exact h

/-- What `rowParams` finds, and what it leaves in the caches whether or not it succeeds. -/
theorem rowParams_spec (hp : Q (paramsOf x row.params).key (paramsOf x row.params))
    (hdrp : Q' (paramsOf x row.derivedRoleParams).key (paramsOf x row.derivedRoleParams))
    (hpc : Cached Q pc) (hdrc : Cached Q' drc) :
    (∀ pc' drc', rowParams x pc drc row = .error (pc', drc') → Cached Q pc' ∧ Cached Q' drc') ∧
    (∀ p drp pc' drc', rowParams x pc drc row = .ok (p, drp, pc', drc') →
      RowHolds x Q Q' row p drp ∧ Cached Q pc' ∧ Cached Q' drc') := by
  have hfound := fun rp cache' => @hpc.getOrGenerateParams x Q pc cache' row.params rp hp
  have hfoundDr := fun rp cache' =>
    @hdrc.getOrGenerateParams x Q' drc cache' row.derivedRoleParams rp hdrp
  unfold rowParams
  split
  · split
    · grind
    · split
      · grind [RowHolds]
      · split
        · grind
        · refine ⟨by simp, fun p drp pc' drc' h => ?_⟩
          obtain ⟨hp, hpc⟩ := hfound _ _ ‹_›
          obtain ⟨hdrp, hdrc⟩ := hfoundDr _ _ ‹_›
          obtain ⟨rfl, rfl, rfl, rfl⟩ := by simpa using h
          exact ⟨⟨by simp_all, by simp_all⟩, hpc, hdrc⟩
  · split <;> grind [RowHolds]
  · grind [RowHolds]

theorem Stores.shareCore (h : Stores Q Q' R ix)
    (hcore : R (row.funcSum x.hasher) (coreOf x row p drp)) :
    Stores Q Q' R (shareCore x ix row p drp).2 := by
  unfold Index.shareCore
  dsimp only
  split
  · next e he => exact ⟨h.params, h.drParams, h.cores.insert (h.cores _ e he)⟩
  · exact ⟨h.params.addRef p, h.drParams.addRef drp, h.cores.insert hcore⟩

/-- **One call of `IndexRule` keeps what is known of the stores**, if it holds of the row. -/
theorem Stores.afterCall (h : Stores Q Q' R ix)
    (hp : Q (paramsOf x row.params).key (paramsOf x row.params))
    (hdrp : Q' (paramsOf x row.derivedRoleParams).key (paramsOf x row.derivedRoleParams))
    (hcore : ∀ p drp, RowHolds x Q Q' row p drp → R (row.funcSum x.hasher) (coreOf x row p drp)) :
    Stores Q Q' R (ix.afterCall x row) := by
  obtain ⟨herr, hok⟩ := rowParams_spec hp hdrp h.params h.drParams
  unfold Index.afterCall Index.indexRule
  cases hr : rowParams x ix.paramsCache ix.drParamsCache row with
  | error caches =>
    obtain ⟨hpc, hdrc⟩ := herr caches.1 caches.2 hr
    exact ⟨hpc, hdrc, h.cores⟩
  | ok found =>
    obtain ⟨p, drp, pc, drc⟩ := found
    obtain ⟨hrow, hpc, hdrc⟩ := hok p drp pc drc hr
    have hshared := @Stores.shareCore x Q Q' R { ix with paramsCache := pc, drParamsCache := drc }
      row p drp ⟨hpc, hdrc, h.cores⟩ (hcore p drp hrow)
    exact ⟨hshared.params, hshared.drParams, hshared.cores⟩

theorem Stores.deleteBinding (h : Stores Q Q' R ix) (fqn : String) (id : Nat) :
    Stores Q Q' R (deleteBinding fqn ix id) := by
  unfold Index.deleteBinding
  split
  · exact h
  · next b hb =>
    have hremoved : Stores Q Q' R (ix.removeBinding b) := ⟨h.params, h.drParams, h.cores⟩
    unfold dropOrigin
    split
    · exact hremoved
    · next e he =>
      dsimp only
      split
      · exact ⟨hremoved.params.removeRef _, hremoved.drParams.removeRef _, hremoved.cores.erase _⟩
      · exact ⟨hremoved.params, hremoved.drParams, hremoved.cores.insert (hremoved.cores _ e he)⟩

end Stores

section Provenance

variable {rows : List RuleRow} {ix ix' : Index}

variable (h : Provenance x rows ix)

include h

theorem Provenance.stores :
    Stores (FromParams x RuleRow.params rows) (FromParams x RuleRow.derivedRoleParams rows)
      (CoreFrom x rows) ix :=
  ⟨h.params, h.drParams, h.cores⟩

/-- One `IndexRule` keeps the provenance, whether or not it succeeds. -/
theorem Provenance.afterCall (hslots : ix.bindings.Valid) (row : RuleRow) :
    Provenance x (row :: rows) (ix.afterCall x row) := by
  have hrow : row ∈ row :: rows := mem_cons_self
  have hprovenance := h.mono (subset_cons_self row rows)
  have hstores := @Stores.afterCall x _ _ _ ix row hprovenance.stores ⟨row, hrow, rfl, rfl⟩
    ⟨row, hrow, rfl, rfl⟩ (fun p drp hp => ⟨row, hrow, rfl, p, drp, rfl, hp⟩)
  refine ⟨hstores.params, hstores.drParams, hstores.cores, ?_⟩
  revert hstores
  unfold Index.afterCall
  cases hix' : ix.indexRule x row with
  | error =>
    intro _
    rw [(indexRule_error hix').1.bindings]
    exact hprovenance.bindings
  | ok =>
    obtain ⟨core, e, ix₀, hcore, hsame, -, hcores, rfl, -⟩ := indexRule_stored hix'
    intro hstores i b k hb
    have hstored := hstores.cores (row.funcSum x.hasher) e
      (by simp only [addBinding, hcores, AList.lookup_insert])
    have hget : (ix₀.addBinding x (handleOf row core) (makeEvaluationKeyTuple row)).bindings.get? i
        = _ := Slab.Valid.get?_alloc _ (hsame.bindings.symm ▸ hslots) i
    rw [hget, hsame.bindings] at hb
    split at hb
    · next hi =>
      obtain ⟨rfl, rfl⟩ := Prod.mk.inj (Option.some.inj hb)
      exact ⟨row, hrow, core, hcore ▸ hstored, by rw [hi], rfl⟩
    · exact hprovenance.bindings i b k hb

theorem Provenance.deleteBinding (hx : Exact x ix) (fqn : String)
    (id : Nat) : Provenance x rows (deleteBinding fqn ix id) := by
  have hstores := h.stores.deleteBinding fqn id
  refine ⟨hstores.params, hstores.drParams, hstores.cores, fun i b k hb => ?_⟩
  rw [get?_deleteBinding hx] at hb
  exact h.bindings i b k (by grind)

end Provenance

/-! ## §7. Reachable indexes. -/

/-- The indexes reachable by `IndexRule` (successful or not), `DeletePolicy` and
`IndexParentRoles`, with the rows offered so far. -/
inductive Reachable (x : Externals) : List RuleRow → Index → Prop
  | new : Reachable x [] Index.new
  | indexRule {rows : List RuleRow} {ix ix' : Index} (row : RuleRow) :
      Reachable x rows ix → ix.indexRule x row = .ok ix' → Reachable x (row :: rows) ix'
  | indexRuleFailed {rows : List RuleRow} {ix ix' : Index} (row : RuleRow) :
      Reachable x rows ix → ix.indexRule x row = .error ix' → Reachable x (row :: rows) ix'
  | deletePolicy {rows : List RuleRow} {ix : Index} (fqn : String) :
      Reachable x rows ix → Reachable x rows (ix.deletePolicy fqn)
  | indexParentRoles {rows : List RuleRow} {ix : Index} (parentRoles : ParentRoles) :
      Reachable x rows ix → Reachable x rows { ix with parentRoles := parentRoles }

/-- What holds of every reachable index. -/
structure Inv (x : Externals) (rows : List RuleRow) (ix : Index) : Prop where
  exact : Exact x ix
  fqn : FqnExact ix
  provenance : Provenance x rows ix

theorem inv_new (x : Externals) : Inv x [] Index.new := by
  have hget : ∀ i, Index.new.getBinding i = none := fun i => by
    rw [getBinding, Index.new, Slab.get?_empty, Option.map_none]
  refine ⟨?_, ?_, ?_⟩
  · refine ⟨Slab.valid_empty, ?_, ?_, ?_, ?_, ⟨?_, ?_⟩, ⟨?_, ?_⟩, ⟨?_, ?_⟩, ?_, ?_, ?_⟩ <;>
      simp [Tracks, hget] <;> simp [Index.new, GlobDimension.empty]
  · intro f i
    rw [hget]
    simp [Index.new]
  · constructor <;> simp [Index.new, Cached, EntriesHold]

/-- One `IndexRule` keeps the invariant, whether or not it succeeds. -/
theorem Inv.afterCall (h : Inv x rows ix) (row : RuleRow) :
    Inv x (row :: rows) (ix.afterCall x row) := by
  have hprovenance := h.provenance.afterCall h.exact.slots row
  have hkeeps {ix' : Index} (hsame : SameRouting ix ix') (hfqn : ix'.fqnBindings = ix.fqnBindings) :
      FqnExact ix' := fun f i => by
    rw [hsame.getBinding, hfqn]
    exact h.fqn f i
  revert hprovenance
  unfold Index.afterCall
  cases hix' : ix.indexRule x row with
  | error =>
    obtain ⟨hsame, hfqn, -⟩ := indexRule_error hix'
    exact fun hprovenance => ⟨hsame.exact h.exact, hkeeps hsame hfqn, hprovenance⟩
  | ok =>
    obtain ⟨core, e, ix₀, -, hsame, hfqn, -, rfl, -⟩ := indexRule_stored hix'
    exact fun hprovenance =>
      ⟨(hsame.exact h.exact).addBinding _ _,
        (hkeeps hsame hfqn).addBinding (hsame.exact h.exact).slots _ _, hprovenance⟩

/-- **Every reachable index is exact, and its bindings come from the rows offered.** -/
theorem Reachable.inv (h : Reachable x rows ix) : Inv x rows ix := by
  induction h with
  | new => exact inv_new x
  | indexRule row _ hok ih => simpa [afterCall, hok] using ih.afterCall row
  | indexRuleFailed row _ herr ih => simpa [afterCall, herr] using ih.afterCall row
  | @deletePolicy rows ix fqn _ ih =>
    -- the loop needs exactness to know which slot a binding is in
    have hprovenance := @deletePolicy_induction ix (fun ix => Exact x ix ∧ Provenance x rows ix) fqn
      ⟨ih.exact, ih.provenance⟩
      (fun _ id h => ⟨h.1.deleteBinding fqn id, h.2.deleteBinding h.1 fqn id⟩)
      (fun _ _ h => ⟨SameRouting.exact (by constructor <;> rfl) h.1, h.2.params, h.2.drParams,
        h.2.cores, h.2.bindings⟩)
    exact ⟨hprovenance.1, FqnExact.deletePolicy ih.exact ih.fqn fqn, hprovenance.2⟩
  | indexParentRoles _ _ ih =>
    exact ⟨SameRouting.exact (by constructor <;> rfl) ih.exact, ih.fqn, ih.provenance.params,
      ih.provenance.drParams, ih.provenance.cores, ih.provenance.bindings⟩

/-- What every `IndexRule` keeps, `IndexRules` keeps. -/
theorem indexRules_induction {P : List RuleRow → Index → Prop} (new rows : List RuleRow)
    (ix ix' : Index)
    (hstep : ∀ row ∈ new, ∀ rows ix ix', P rows ix → ix.indexRule x row = .ok ix' →
      P (row :: rows) ix')
    (h : P rows ix) (hok : ix.indexRules x new = .ok ix') : P (new.reverse ++ rows) ix' := by
  induction new generalizing rows ix ix' with
  | nil =>
    obtain rfl : ix = ix' := Except.ok.inj hok
    exact h
  | cons row _ ih =>
    unfold indexRules at hok
    split at hok
    · cases hok
    · next ix₁ h₁ =>
      rw [reverse_cons, append_assoc]
      exact ih _ ix₁ ix' (fun r hr => hstep r (mem_cons_of_mem row hr))
        (hstep row mem_cons_self rows ix ix₁ h h₁) hok

end AccessManagement.Index
