/-
  AccessManagement.Index.Layout — THE INDEX WITH ITS LAZY DIMENSIONS.

  Principals, roles, actions and resources are kept in dimensions that choose between a slice and
  a bitmap (`LazyDimension`).  A `Layout` is these dimensions as they are stored.  Updates write to
  them what they write to the posting sets of the index, `Compact` and queries change only how they
  are stored, and so in every run they stand for the posting sets (`Run.stores`).

  Main result: `exact_after_updates`, on everything that is left after any sequence of updates,
  compactions and queries.
-/
import AccessManagement.Index.History
import AccessManagement.Index.LazyDimension

namespace AccessManagement.Index

open Lib List Externals

variable {x : Externals} {ix ix' : Index}

/-! ## §1. The lazy dimensions. -/

/-- `globDimension`, as it is stored. -/
structure LazyGlobs where
  literals : LazyDimension
  globs : LazyDimension

namespace LazyGlobs

/-- `Set`. -/
def set (x : Externals) (d : LazyGlobs) (key : String) (id : Nat) : LazyGlobs :=
  if isGlob key then
    match x.getOrCompileGlob key with
    | none => d
    | some _ => { d with globs := d.globs.run (.add key id) }
  else { d with literals := d.literals.run (.add key id) }

/-- `Remove`. -/
def remove (d : LazyGlobs) (key : String) (id : Nat) : LazyGlobs :=
  if isGlob key then { d with globs := d.globs.run (.remove key id) }
  else { d with literals := d.literals.run (.remove key id) }

end LazyGlobs

/-- The dimensions of an index that are stored lazily. -/
structure Layout where
  principal : LazyDimension
  role : LazyGlobs
  action : LazyGlobs
  resource : LazyGlobs

namespace Layout

def new : Layout := ⟨∅, ⟨∅, ∅⟩, ⟨∅, ∅⟩, ⟨∅, ∅⟩⟩

/-- What `addBinding` writes to the lazy dimensions. -/
def addBinding (x : Externals) (l : Layout) (b : BindingHandle) (id : Nat) : Layout where
  principal := if b.principal = "" then l.principal else l.principal.run (.add b.principal id)
  role := if b.role = "" then l.role else l.role.set x b.role id
  action :=
    if b.allowActions.isSome then l.action
    else if b.action = "" then l.action else l.action.set x b.action id
  resource := if b.resource = "" then l.resource else l.resource.set x b.resource id

/-- What `removeBinding` writes to the lazy dimensions. -/
def removeBinding (l : Layout) (b : BindingHandle) : Layout where
  principal := l.principal.run (.remove b.principal b.id)
  role := l.role.remove b.role b.id
  action :=
    if b.allowActions.isSome then l.action
    else if b.action = "" then l.action else l.action.remove b.action b.id
  resource := l.resource.remove b.resource b.id

/-- One round of the loop of `DeletePolicy`. -/
def deleteBinding (fqn : String) (s : Index × Layout) (id : Nat) : Index × Layout :=
  (Index.deleteBinding fqn s.1 id,
    match s.1.getBinding id with
    | none => s.2
    | some b => s.2.removeBinding b)

/-- `DeletePolicy`. -/
def deletePolicy (ix : Index) (l : Layout) (fqn : String) : Layout :=
  if fqn = "" then l
  else (((ix.fqnBindings.lookup fqn).getD []).foldl (deleteBinding fqn) (ix, l)).2

/-- `Compact`, which otherwise only gives memory back. -/
def compact (l : Layout) : Layout where
  principal := l.principal.run .compact
  role := ⟨l.role.literals.run .compact, l.role.globs.run .compact⟩
  action := ⟨l.action.literals.run .compact, l.action.globs.run .compact⟩
  resource := ⟨l.resource.literals.run .compact, l.resource.globs.run .compact⟩

end Layout

/-- The keys that were looked up have got bitmaps. -/
def LazyDimension.Queried (d d' : LazyDimension) : Prop :=
  ∃ keys : List String, d' = keys.foldl (fun d key => d.run (.bitmap key)) d

/-- What queries may do to a layout. -/
structure Layout.Queried (l l' : Layout) : Prop where
  principal : l.principal.Queried l'.principal
  role : l.role.literals.Queried l'.role.literals ∧ l.role.globs.Queried l'.role.globs
  action : l.action.literals.Queried l'.action.literals ∧ l.action.globs.Queried l'.action.globs
  resource : l.resource.literals.Queried l'.resource.literals ∧
    l.resource.globs.Queried l'.resource.globs

/-! ## §2. They stand for the posting sets. -/

/-- The posting sets as a map. -/
def postings (d : Postings String) : String → Set Nat := fun key => {i | d.has key i = true}

/-- The lazy dimension stands for the posting sets. -/
def Stands (l : LazyDimension) (d : Postings String) : Prop := l.Means (postings d)

structure StandsGlobs (l : LazyGlobs) (d : GlobDimension) : Prop where
  literals : Stands l.literals d.literals
  globs : Stands l.globs d.globs

/-- The layout stands for the index. -/
structure Layout.Stores (l : Layout) (ix : Index) : Prop where
  principal : Stands l.principal ix.principal
  role : StandsGlobs l.role ix.role
  action : StandsGlobs l.action ix.action
  resource : StandsGlobs l.resource ix.resource

section Stands

variable {l l' : LazyDimension} {d : Postings String} {lg : LazyGlobs} {gd : GlobDimension}

theorem Stands.add (h : Stands l d) (key : String) (id : Nat) :
    Stands (l.run (.add key id)) (d.add key id) := by
  have hrun := LazyDimension.Means.run h (c := .add key id) (fun _ _ hc => by cases hc)
  have hpairs : LazyCall.pairs (postings d) (.add key id) = postings (d.add key id) := by
    funext k
    ext i
    by_cases hk : k = key
    · subst hk
      simp [LazyCall.pairs, postings, or_comm, @eq_comm _ i]
    · simp [LazyCall.pairs, postings, hk, Ne.symm hk]
  rw [hpairs] at hrun
  exact hrun

theorem Stands.remove (h : Stands l d) (key : String) (id : Nat) :
    Stands (l.run (.remove key id)) (d.remove key id) := by
  have hrun := LazyDimension.Means.run h (c := .remove key id) (fun _ _ hc => by cases hc)
  have hpairs : LazyCall.pairs (postings d) (.remove key id) = postings (d.remove key id) := by
    funext k
    ext i
    by_cases hk : k = key
    · subst hk
      simp [LazyCall.pairs, postings, @eq_comm _ i]
    · simp [LazyCall.pairs, postings, hk, Ne.symm hk]
  rw [hpairs] at hrun
  exact hrun

theorem Stands.compact (h : Stands l d) : Stands (l.run .compact) d :=
  LazyDimension.Means.run h (c := .compact) (fun _ _ hc => by cases hc)

theorem Stands.queried (h : Stands l d) (hq : l.Queried l') : Stands l' d := by
  obtain ⟨keys, rfl⟩ := hq
  induction keys generalizing l with
  | nil => exact h
  | cons key keys ih =>
    exact ih (LazyDimension.Means.run h (c := .bitmap key) (fun _ _ hc => by cases hc))

theorem StandsGlobs.set (h : StandsGlobs lg gd) (key : String) (id : Nat) :
    StandsGlobs (lg.set x key id) (gd.set x key id) := by
  unfold LazyGlobs.set GlobDimension.set
  split
  · cases x.getOrCompileGlob key with
    | none => exact h
    | some => exact ⟨h.literals, h.globs.add key id⟩
  · exact ⟨h.literals.add key id, h.globs⟩

theorem StandsGlobs.setNonempty (h : StandsGlobs lg gd) (key : String) (id : Nat) :
    StandsGlobs (if key = "" then lg else lg.set x key id) (setNonempty x gd key id) := by
  unfold Index.setNonempty
  split
  · exact h
  · exact h.set key id

theorem StandsGlobs.remove (h : StandsGlobs lg gd) (key : String) (id : Nat) :
    StandsGlobs (lg.remove key id) (gd.remove key id) := by
  unfold LazyGlobs.remove GlobDimension.remove
  split
  · exact ⟨h.literals, h.globs.remove key id⟩
  · exact ⟨h.literals.remove key id, h.globs⟩

end Stands

section Stores

variable {l l' : Layout} (h : l.Stores ix)

include h

theorem Layout.Stores.sameRouting (s : SameRouting ix ix') : l.Stores ix' := by
  obtain ⟨hprincipal, hrole, haction, hresource⟩ := h
  constructor
  · rwa [s.principal]
  · rwa [s.role]
  · rwa [s.action]
  · rwa [s.resource]

theorem Layout.Stores.addBinding (b : BindingHandle) (key : EvaluationKeyTuple) :
    (l.addBinding x b ix.bindings.nextId).Stores (ix.addBinding x b key) := by
  refine ⟨?_, h.role.setNonempty _ _, ?_, h.resource.setNonempty _ _⟩
  · unfold Layout.addBinding Index.addBinding addNonempty
    dsimp only
    split
    · exact h.principal
    · exact h.principal.add _ _
  · unfold Layout.addBinding Index.addBinding
    dsimp only
    split
    · exact h.action
    · exact h.action.setNonempty _ _

theorem Layout.Stores.removeBinding (b : BindingHandle) :
    (l.removeBinding b).Stores (ix.removeBinding b) := by
  refine ⟨h.principal.remove _ _, h.role.remove _ _, ?_, h.resource.remove _ _⟩
  unfold Layout.removeBinding Index.removeBinding
  dsimp only
  split
  · exact h.action
  · split
    · exact h.action
    · exact h.action.remove _ _

theorem Layout.Stores.compact : l.compact.Stores ix :=
  ⟨h.principal.compact, ⟨h.role.literals.compact, h.role.globs.compact⟩,
    ⟨h.action.literals.compact, h.action.globs.compact⟩,
    ⟨h.resource.literals.compact, h.resource.globs.compact⟩⟩

theorem Layout.Stores.queried (hq : l.Queried l') : l'.Stores ix :=
  ⟨h.principal.queried hq.principal,
    ⟨h.role.literals.queried hq.role.1, h.role.globs.queried hq.role.2⟩,
    ⟨h.action.literals.queried hq.action.1, h.action.globs.queried hq.action.2⟩,
    ⟨h.resource.literals.queried hq.resource.1, h.resource.globs.queried hq.resource.2⟩⟩

theorem Layout.Stores.deleteBinding (fqn : String) (id : Nat) :
    (Layout.deleteBinding fqn (ix, l) id).2.Stores (Layout.deleteBinding fqn (ix, l) id).1 := by
  unfold Layout.deleteBinding Index.deleteBinding
  dsimp only
  cases ix.getBinding id with
  | none => exact h
  | some b => exact (h.removeBinding b).sameRouting (sameRouting_dropOrigin _ _ _)

theorem Layout.Stores.foldl_deleteBinding (fqn : String) (ids : List Nat) :
    (ids.foldl (Layout.deleteBinding fqn) (ix, l)).2.Stores
      (ids.foldl (Index.deleteBinding fqn) ix) := by
  induction ids generalizing ix l with
  | nil => exact h
  | cons id ids ih => exact ih (h.deleteBinding fqn id)

theorem Layout.Stores.deletePolicy (fqn : String) :
    (l.deletePolicy ix fqn).Stores (ix.deletePolicy fqn) := by
  unfold Layout.deletePolicy Index.deletePolicy
  split
  · exact h
  · have hloop := h.foldl_deleteBinding fqn ((ix.fqnBindings.lookup fqn).getD [])
    split
    next hnone =>
      rw [hnone]
      exact h
    next ids hids =>
      rw [hids] at hloop ⊢
      exact hloop.sameRouting (by constructor <;> rfl)

end Stores

/-! ## §3. Runs. -/

/-- The indexes that updates, compactions and queries lead to, with their layouts, the rows that
were offered and those that were indexed and not deleted since. -/
inductive Run (x : Externals) : List RuleRow → List RuleRow → Index → Layout → Prop
  | new : Run x [] [] Index.new Layout.new
  | indexRule {offered rows : List RuleRow} {ix ix' : Index} {l : Layout} (row : RuleRow) :
      Run x offered rows ix l → ix.indexRule x row = .ok ix' →
      Run x (row :: offered) (row :: rows) ix'
        (l.addBinding x (handleOf row {}) ix.bindings.nextId)
  | indexRuleFailed {offered rows : List RuleRow} {ix ix' : Index} {l : Layout} (row : RuleRow) :
      Run x offered rows ix l → ix.indexRule x row = .error ix' → Run x (row :: offered) rows ix' l
  | deletePolicy {offered rows : List RuleRow} {ix : Index} {l : Layout} (fqn : String) :
      Run x offered rows ix l →
      Run x offered (withoutPolicy fqn rows) (ix.deletePolicy fqn) (l.deletePolicy ix fqn)
  | indexParentRoles {offered rows : List RuleRow} {ix : Index} {l : Layout}
      (parentRoles : ParentRoles) : Run x offered rows ix l →
      Run x offered rows { ix with parentRoles := parentRoles } l
  | compact {offered rows : List RuleRow} {ix : Index} {l : Layout} :
      Run x offered rows ix l → Run x offered rows ix l.compact
  | query {offered rows : List RuleRow} {ix : Index} {l l' : Layout} :
      Run x offered rows ix l → l.Queried l' → Run x offered rows ix l'

section Run

variable {offered rows : List RuleRow} {l : Layout} (h : Run x offered rows ix l)

include h

theorem Run.history : History x rows ix := by
  induction h with
  | new => exact .new
  | indexRule row _ hok ih => exact ih.indexRule row hok
  | indexRuleFailed row _ herr ih => exact ih.indexRuleFailed row herr
  | deletePolicy fqn _ ih => exact ih.deletePolicy fqn
  | indexParentRoles parentRoles _ ih => exact ih.indexParentRoles parentRoles
  | compact _ ih => exact ih
  | query _ _ ih => exact ih

theorem Run.reachable : Reachable x offered ix := by
  induction h with
  | new => exact .new
  | indexRule row _ hok ih => exact ih.indexRule row hok
  | indexRuleFailed row _ herr ih => exact ih.indexRuleFailed row herr
  | deletePolicy fqn _ ih => exact ih.deletePolicy fqn
  | indexParentRoles parentRoles _ ih => exact ih.indexParentRoles parentRoles
  | compact _ ih => exact ih
  | query _ _ ih => exact ih

theorem Run.subset : rows ⊆ offered := by
  induction h with
  | new => exact Subset.refl []
  | indexRule row _ _ ih => exact cons_subset_cons row ih
  | indexRuleFailed row _ _ ih => exact subset_cons_of_subset row ih
  | deletePolicy fqn _ ih =>
    unfold withoutPolicy
    split
    · exact ih
    · exact fun row hrow => ih (mem_of_mem_filter hrow)
  | indexParentRoles _ _ ih => exact ih
  | compact _ ih => exact ih
  | query _ _ ih => exact ih

/-- **The layout stands for the index.** -/
theorem Run.stores : l.Stores ix := by
  induction h with
  | new =>
    have hempty : Stands ∅ Postings.empty := fun key => by
      show postings Postings.empty key = ∅
      simp [postings]
    exact ⟨hempty, ⟨hempty, hempty⟩, ⟨hempty, hempty⟩, ⟨hempty, hempty⟩⟩
  | indexRule row _ hok ih =>
    obtain ⟨core, e, ix₀, -, hsame, -, -, rfl, -⟩ := indexRule_stored hok
    -- the lazy dimensions do not look at the core
    have hadd := (ih.sameRouting hsame).addBinding (x := x) (handleOf row core)
      (makeEvaluationKeyTuple row)
    rw [hsame.bindings] at hadd
    exact hadd
  | indexRuleFailed row _ herr ih => exact ih.sameRouting (indexRule_error herr).1
  | deletePolicy fqn _ ih => exact ih.deletePolicy fqn
  | indexParentRoles _ _ ih => exact ⟨ih.principal, ih.role, ih.action, ih.resource⟩
  | compact _ ih => exact ih.compact
  | query _ hq ih => exact ih.queried hq

end Run

/-! ## §4. Bindings and rows. -/

/-- The binding has the routing fields of the row. -/
structure Routes (b : BindingHandle) (row : RuleRow) : Prop where
  resource : b.resource = row.resource
  role : b.role = row.role
  scope : b.scope = row.scope
  version : b.version = row.version
  principal : b.principal = row.principal
  name : b.name = row.name
  originFqn : b.originFqn = row.originFqn
  originDerivedRole : b.originDerivedRole = row.originDerivedRole
  action : ∀ a, row.actionSet = some (.action a) → b.action = a ∧ b.allowActions = none
  allowActions : ∀ as, row.actionSet = some (.allowActions as) →
    b.action = "" ∧ b.allowActions = some as
  noActions : row.actionSet = none → b.action = "" ∧ b.allowActions = none

/-- The stored binding is that of the row.  Its core is one of a row with the same content hash,
and the row's own if the content hash tells the rows apart. -/
structure StoredFor (x : Externals) (offered : List RuleRow) (row : RuleRow)
    (r : BindingHandle × EvaluationKeyTuple) : Prop where
  routes : Routes r.1 row
  key : r.2 = makeEvaluationKeyTuple row
  core : ∃ row' ∈ offered, row'.funcSum x.hasher = row.funcSum x.hasher ∧
    r.1.core.Carries row' ∧ RowHolds x (FromParams x RuleRow.params offered)
      (FromParams x RuleRow.derivedRoleParams offered) row' r.1.core.params
      r.1.core.derivedRoleParams
  own : HashInjectiveOn x offered → Legible offered → r.1.core.Matches row

theorem storedFor_of_content {offered : List RuleRow} {row : RuleRow}
    {r : BindingHandle × EvaluationKeyTuple} (hprovenance : Provenance x offered ix)
    (hr : r ∈ ix.bindings.values) (hrow : row ∈ offered) (heq : content r = rowContent x row) :
    StoredFor x offered row r := by
  obtain ⟨i, hi⟩ := (Slab.mem_values_iff _ r).mp hr
  obtain ⟨hhandle, hrest⟩ := Prod.mk.inj heq
  obtain ⟨hsum, hkey⟩ := Prod.mk.inj hrest
  have hfield : ∀ {α : Type} (f : BindingHandle → α),
      f { r.1 with id := 0, core := {} } = f (handleOf row {}) := fun f => congrArg f hhandle
  obtain ⟨row₀, -, core, hcore, hb, -⟩ := hprovenance.bindings i r.1 r.2 hi
  -- the core is stored under the hash of the row
  have hown : r.1.core = core := by rw [hb]; rfl
  have hfrom : CoreFrom x offered (row.funcSum x.hasher) r.1.core := by
    obtain ⟨row', hrow', hsum', p, drp, rfl, hrest⟩ := hcore
    rw [hown] at hsum ⊢
    exact ⟨row', hrow', hsum, p, drp, rfl, hrest⟩
  have haction : r.1.action = _ := hfield (·.action)
  have hallow : r.1.allowActions = _ := hfield (·.allowActions)
  refine ⟨⟨hfield (·.resource), hfield (·.role), hfield (·.scope), hfield (·.version),
    hfield (·.principal), hfield (·.name), hfield (·.originFqn), hfield (·.originDerivedRole),
    fun a ha => ?_, fun as has => ?_, fun hnone => ?_⟩, hkey, ?_,
    fun hinj hl => hfrom.matches hl hinj hrow⟩
  · rw [haction, hallow, handleOf, ha]
    exact ⟨rfl, rfl⟩
  · rw [haction, hallow, handleOf, has]
    exact ⟨rfl, rfl⟩
  · rw [haction, hallow, handleOf, hnone]
    exact ⟨rfl, rfl⟩
  · obtain ⟨row', hrow', hsum', p, drp, hof, hholds⟩ := hfrom
    rw [hof]
    exact ⟨row', hrow', hsum', ⟨rfl, rfl, rfl, rfl, rfl, rfl, rfl⟩, hholds⟩

/-- **The live bindings are the rows**, one for each. -/
theorem Run.live {offered rows : List RuleRow} {l : Layout} (h : Run x offered rows ix l) :
    ∃ live, Forall₂ (StoredFor x offered) rows live ∧ live.Perm ix.bindings.values := by
  have hperm := h.history.accounted.rows.symm
  have hvalues : Forall₂ (fun c r => content r = c ∧ r ∈ ix.bindings.values)
      (ix.bindings.values.map content) ix.bindings.values :=
    forall₂_map_left_iff.mpr (forall₂_same.mpr (fun r hr => ⟨rfl, hr⟩))
  obtain ⟨live, hlive, hsame⟩ := perm_comp_forall₂ hperm hvalues
  refine ⟨live, ?_, hsame⟩
  obtain ⟨hlength, hget⟩ := forall₂_iff_get.mp (forall₂_map_left_iff.mp hlive)
  refine forall₂_iff_get.mpr ⟨hlength, fun i hi hi' => ?_⟩
  obtain ⟨heq, hmem⟩ := hget i hi hi'
  exact storedFor_of_content h.reachable.inv.provenance hmem (h.subset (get_mem rows ⟨i, hi⟩)) heq

/-- The lazy dimensions read as the posting sets do. -/
structure Layout.Agrees (l : Layout) (ix : Index) : Prop where
  principal : l.principal.Agrees (postings ix.principal)
  role : l.role.literals.Agrees (postings ix.role.literals) ∧
    l.role.globs.Agrees (postings ix.role.globs)
  action : l.action.literals.Agrees (postings ix.action.literals) ∧
    l.action.globs.Agrees (postings ix.action.globs)
  resource : l.resource.literals.Agrees (postings ix.resource.literals) ∧
    l.resource.globs.Agrees (postings ix.resource.globs)

theorem Layout.Stores.agrees {l : Layout} (h : l.Stores ix) : l.Agrees ix where
  principal := LazyDimension.Means.agrees h.principal
  role := ⟨LazyDimension.Means.agrees h.role.literals, LazyDimension.Means.agrees h.role.globs⟩
  action :=
    ⟨LazyDimension.Means.agrees h.action.literals, LazyDimension.Means.agrees h.action.globs⟩
  resource :=
    ⟨LazyDimension.Means.agrees h.resource.literals, LazyDimension.Means.agrees h.resource.globs⟩

/-- **After any run** the live bindings are the rows that were indexed and not deleted since; the
free list names the vacant slots, each once; every dimension, the universe, the allow lists and
`fqnBindings` list exactly the live bindings with their value, without empty keys, whichever way
they are stored; and the cores are those of the live bindings, with their policies as origins. -/
theorem exact_after_updates {x : Externals} {offered rows : List RuleRow} {ix : Index} {l : Layout}
    (h : Run x offered rows ix l) :
    (∃ live, Forall₂ (StoredFor x offered) rows live ∧ live.Perm ix.bindings.values) ∧
    (ix.bindings.free.Nodup ∧ ∀ i, i ∈ ix.bindings.free ↔ ix.bindings.slots[i]? = some none) ∧
    Exact x ix ∧ NoEmptyKeys x ix ∧ l.Agrees ix ∧ FqnExact ix ∧ FqnListed ix ∧ CoresExact ix := by
  have hinv := h.reachable.inv
  have haccounted := h.history.accounted
  exact ⟨h.live, ⟨hinv.exact.slots.free_nodup, hinv.exact.slots.mem_free_iff⟩, hinv.exact,
    hinv.exact.noEmptyKeys, h.stores.agrees, hinv.fqn, haccounted.fqnListed, haccounted.cores⟩

theorem exists_halfDeleted_run :
    ∃ l, Run sample [sharingRow, sampleRow "user" (textExpr "a")] [sharingRow] halfDeleted l := by
  have hfirst : Run sample _ _ (Index.new.afterCall sample (sampleRow "user" (textExpr "a"))) _ :=
    .indexRule (sampleRow "user" (textExpr "a")) .new rfl
  have hboth : Run sample _ _ ((Index.new.afterCall sample
      (sampleRow "user" (textExpr "a"))).afterCall sample sharingRow) _ :=
    .indexRule sharingRow hfirst rfl
  obtain ⟨l, hdeleted⟩ : ∃ l, Run sample [sharingRow, sampleRow "user" (textExpr "a")] [sharingRow]
      halfDeleted l := ⟨_, hboth.compact.deletePolicy "cerbos.resource.doc.vdefault"⟩
  exact ⟨{ l with role := { l.role with literals := l.role.literals.run (.bitmap "user") } },
    hdeleted.query ⟨⟨[], rfl⟩, ⟨⟨["user"], rfl⟩, [], rfl⟩, ⟨⟨[], rfl⟩, [], rfl⟩, ⟨[], rfl⟩, [], rfl⟩⟩

/-- Two policies share a core, the index is compacted, one of them is deleted and the role looked
up: the shared core stays with the policy that is left. -/
theorem halfDeleted_exact :
    ∃ l, Run Externals.sample [sharingRow, sampleRow "user" (textExpr "a")] [sharingRow]
        halfDeleted l ∧ (∃ live, Forall₂ (StoredFor Externals.sample
          [sharingRow, sampleRow "user" (textExpr "a")]) [sharingRow] live ∧
          live.Perm halfDeleted.bindings.values) ∧
      halfDeleted.bindings.free = [0] ∧ l.Agrees halfDeleted ∧ CoresExact halfDeleted := by
  obtain ⟨l, hrun⟩ := exists_halfDeleted_run
  obtain ⟨hlive, -, -, -, hagrees, -, -, hcores⟩ := exact_after_updates hrun
  exact ⟨l, hrun, hlive, rfl, hagrees, hcores⟩

end AccessManagement.Index
