/-
  AccessManagement.Check.ConditionCache — WHAT A CACHED OUTCOME IS THE OUTCOME OF.

  `check` looks a binding's outcome up under the evaluation key of its ID before it evaluates
  the binding.  A binding that a query returned for an action is of one of three sorts
  (`Origin`): a stored binding of a rule, the unconditional DENY of a role policy, or the DENY
  for an allow list with a condition, which borrows the ID of the list.  Bindings of different
  sorts have different keys, so an outcome is only ever shared inside a sort; there it is
  shared by bindings that are evaluated alike if rules have names of their own.

  Main result: `check_reads_own_outcome` — the keys of accepted policies identify their
  conditions exactly if no file has a clash of names; and where no generated name is given to
  another rule and the content hash tells the rows apart, an outcome read from the cache is the
  outcome of the binding it is used for.
-/
import AccessManagement.Check.Run
import AccessManagement.RuleTable.Names
import AccessManagement.RuleTable.Load
import AccessManagement.Index.RolePolicies

namespace AccessManagement

open Lib List CheckEnv Externals RuleTable AcceptedUnit

/-! ## §1. The sorts of bindings. -/

namespace Index

/-- Where a binding that a query returned comes from. -/
inductive Origin (ix : Index) (b : BindingHandle) : Prop
  /-- A binding of a rule, as it is stored. -/
  | stored (live : ix.getBinding b.id = some b) (lists_eq : b.allowActions = none)
      (action_ne : b.action ≠ "")
  /-- The DENY of a role policy that does not list the action. -/
  | noMatch (id_eq : b.id = noEvalKey) (params : b.core.params = none)
      (condition : b.core.condition = none)
      (derivedRoleCondition : b.core.derivedRoleCondition = none)
      (derivedRoleParams : b.core.derivedRoleParams = none)
  /-- The binding for an allow list that names the action. -/
  | allowList (mb : BindingHandle) (live : ix.getBinding b.id = some mb)
      (lists : mb.allowActions.isSome = true) (params : b.core.params = mb.core.params)
      (condition : b.core.condition = mb.core.condition.map (fun cond => .none [cond]))
      (derivedRoleCondition : b.core.derivedRoleCondition = none)
      (derivedRoleParams : b.core.derivedRoleParams = none)

variable {x : Externals} {rows : List RuleRow} {ix : Index} {b : BindingHandle}

/-- A stored binding has its own ID, the key of its row and a core for the hash of its row. -/
theorem Inv.row_of_live (h : Inv x rows ix) {i : Nat} (hb : ix.getBinding i = some b) : b.id = i ∧
      ∃ row ∈ rows, b = { handleOf row b.core with id := i } ∧
        CoreFrom x rows (row.funcSum x.hasher) b.core ∧
        (i ≠ noEvalKey → ix.evalKey i = makeEvaluationKeyTuple row) := by
  obtain ⟨⟨b', k⟩, hget, rfl⟩ := Option.map_eq_some_iff.mp hb
  obtain ⟨row, hrow, core, hcore, rfl, rfl⟩ := h.provenance.bindings i b' k hget
  refine ⟨rfl, row, hrow, rfl, hcore, fun hne => ?_⟩
  unfold evalKey
  rw [if_neg hne, hget]

theorem MadeUp.origin (h : Inv x rows ix) (hb : MadeUp ix b) : Origin ix b := by
  cases hb with
  | unlisted => exact .noMatch rfl rfl rfl rfl rfl
  | @listed i mb b action hlive hlists hb =>
    have hid : ix.getBinding mb.id = some mb := by rw [(h.row_of_live hlive).1]; exact hlive
    unfold allowListBinding at hb
    split at hb
    · next hcond =>
      split at hb
      · cases hb
      · cases hb
        exact .allowList mb hid hlists rfl (by rw [hcond]; rfl) rfl rfl
    · next cond hcond =>
      cases hb
      exact .allowList mb hid hlists rfl (by rw [hcond]; rfl) rfl rfl

/-- **Every binding that a query returns for an action is of one of the sorts.** -/
theorem origin_of_mem_query (h : Inv x rows ix) {version : String} {resource : ResourceKind}
    {scope action : String} {roles : List String} {kind : Kind} {principalID : String}
    (haction : action ≠ "")
    (hb : b ∈ ix.query x version resource scope action roles kind principalID) : Origin ix b := by
  rcases mem_query_cases h.exact hb with ⟨f, hb⟩ | ⟨i, hi, hret⟩
  · exact (madeUp_of_mem_queryDenies h.exact hb).2.origin h
  · have hkey : indexedAction b ≠ "" := by
      intro hempty
      have hm := hret.action.resolve_left haction
      rw [hempty] at hm
      simp [keyMatches, isGlob_empty] at hm
    have hlive : ix.getBinding b.id = some b := by rw [(h.row_of_live hi).1]; exact hi
    unfold indexedAction at hkey
    cases hlists : b.allowActions with
    | some => rw [hlists] at hkey; exact (hkey rfl).elim
    | none =>
      rw [hlists] at hkey
      exact .stored hlive hlists hkey

end Index

/-! ## §2. Bindings with one key. -/

/-- Two bindings are evaluated in the same way.  The parameters of a derived role are those of
its condition. -/
structure BindingHandle.SameEvaluation (b b' : BindingHandle) : Prop where
  condition : b.core.condition = b'.core.condition
  derivedRoleCondition : b.core.derivedRoleCondition = b'.core.derivedRoleCondition
  params : b.core.params = b'.core.params
  derivedRoleParams : b.core.derivedRoleCondition ≠ none →
    b.core.derivedRoleParams = b'.core.derivedRoleParams

/-- A derived role with a condition has a name. -/
def RuleRow.NamesRole (row : RuleRow) : Prop :=
  row.derivedRoleCondition ≠ none → row.policyKind = .resource ∧ row.originDerivedRole ≠ ""

/-- A table loaded from accepted policies with distinct names, none of which gives a
generated name to another rule, with rows that the content hash tells apart. -/
structure NamedApart (x : Externals) {c : CelCompiler} {rs : Resolver}
    (us : List (AcceptedUnit c rs)) (t : RuleTable) : Prop where
  loaded : RuleTable.fromPolicies x (AcceptedUnit.policySets us) = some t
  names : (us.map (fun u => u.unit.modID)).Nodup
  apart : ∀ u ∈ us, ¬ u.SharesName
  legible : Legible (RuleTable.rowsOf (AcceptedUnit.policySets us))
  separates : HashInjectiveOn x (RuleTable.rowsOf (AcceptedUnit.policySets us))
  roles : ∀ row ∈ RuleTable.rowsOf (AcceptedUnit.policySets us), row.NamesRole
  fits : (RuleTable.rowsOf (AcceptedUnit.policySets us)).length ≤ noEvalKey

namespace NamedApart

variable {x : Externals} {c : CelCompiler} {rs : Resolver} {us : List (AcceptedUnit c rs)}
  {t : RuleTable}

variable (h : NamedApart x us t)

include h

theorem inv : Index.Inv x (rowsOf (policySets us)).reverse t.idx :=
  (inv_of_fromPolicies h.loaded).reachable.inv

/-- What the key of a stored binding says about it. -/
theorem key_of_live {i : Nat} {b : BindingHandle}
    (hb : t.idx.getBinding i = some b) (haction : b.allowActions.isSome = true ∨ b.action ≠ "") :
    ∃ row ∈ rowsOf (policySets us),
      row.evaluationKeyTuple = some (t.idx.evalKey i) ∧
      Index.CoreFrom x (rowsOf (policySets us)) (row.funcSum x.hasher) b.core ∧
      (t.idx.evalKey i).keyPrefix ≠ "" ∧
      ((t.idx.evalKey i).keyPrefix = Namer.rolePoliciesPrefix ↔ b.allowActions.isSome = true) := by
  obtain ⟨-, row, hrow, heq, hcore, hkey⟩ := h.inv.row_of_live hb
  rw [mem_reverse] at hrow
  have hlt := id_lt_of_fromPolicies h.loaded hb
  have hfits := h.fits
  have hkey := hkey (by omega)
  obtain ⟨ps, hps, hmem⟩ := mem_flatMap.mp hrow
  have hset : ∃ actions, row.actionSet = some actions ∧
      ((∃ names, actions = .allowActions names) ↔ b.allowActions.isSome = true) := by
    rw [heq] at haction ⊢
    cases hset : row.actionSet with
    | none => simp [Index.handleOf, hset] at haction
    | some actions =>
      refine ⟨actions, rfl, ?_⟩
      cases actions <;> simp [Index.handleOf, hset]
  obtain ⟨actions, hset, hlists⟩ := hset
  obtain ⟨k, hk, hne, hrole⟩ := key_of_actionSet hmem hset
  have hkk : t.idx.evalKey i = k := by
    rw [hkey]
    unfold Index.makeEvaluationKeyTuple
    rw [hk]
    rfl
  rw [hkk]
  exact ⟨row, hrow, hk, hcore.mono (reverse_subset.mpr (Subset.refl _)), hne,
    hrole.trans hlists⟩

variable {b b' : BindingHandle}

/-- Stored bindings with one key are evaluated in the same way, whichever rows gave their cores. -/
theorem sameEvaluation_of_key_eq {i j : Nat}
    (hb : t.idx.getBinding i = some b) (hb' : t.idx.getBinding j = some b')
    (ha : b.allowActions.isSome = true ∨ b.action ≠ "")
    (ha' : b'.allowActions.isSome = true ∨ b'.action ≠ "")
    (hkey : t.idx.evalKey i = t.idx.evalKey j) : b.SameEvaluation b' := by
  obtain ⟨row, hrow, hk, hcore, -⟩ := h.key_of_live hb ha
  obtain ⟨row', hrow', hk', hcore', -⟩ := h.key_of_live hb' ha'
  have hsame := AcceptedUnit.sameFunction_of_key_eq h.names h.apart hrow hrow' hk
    (by rw [hk', hkey])
  obtain ⟨r, hr, hown, hof⟩ := hcore.own h.legible h.separates hrow
  obtain ⟨r', hr', hown', hof'⟩ := hcore'.own h.legible h.separates hrow'
  have hkind : r.policyKind = r'.policyKind :=
    hown.policyKind.trans (hsame.policyKind.trans hown'.policyKind.symm)
  have hderived : r.derivedRoleCondition = r'.derivedRoleCondition := hown.derivedRoleCondition.trans
    (hsame.derivedRoleCondition.trans hown'.derivedRoleCondition.symm)
  refine ⟨?_, ?_, ?_, fun hne => ?_⟩
  · rw [hof, hof']
    exact hown.condition.trans (hsame.condition.trans hown'.condition.symm)
  · rw [hof, hof']
    exact hderived
  · rw [hof, hof']
    show ite _ _ _ = ite _ _ _
    rw [hkind, Index.paramsOf_eq hsame.params]
  · -- both rows name a derived role
    rw [hof] at hne
    rw [hof, hof']
    show ite _ _ _ = ite _ _ _
    rw [if_pos (h.roles r hr hne), if_pos (h.roles r' hr' (hderived ▸ hne)),
      Index.paramsOf_eq hsame.derivedRoleParams]

/-- **Bindings with one key are evaluated in the same way.** -/
theorem sameEvaluation (hb : t.idx.Origin b) (hb' : t.idx.Origin b')
    (hkey : t.idx.evalKey b.id = t.idx.evalKey b'.id) : b.SameEvaluation b' := by
  have hzero : ∀ b : BindingHandle, b.id = noEvalKey → (t.idx.evalKey b.id).keyPrefix = "" := by
    intro b hid
    rw [hid]
    unfold Index.evalKey
    rw [if_pos rfl]
  -- the prefix of the key tells the origins apart
  cases hb with
  | stored live lists_eq action_ne =>
    obtain ⟨-, -, -, -, hne, hrole⟩ := h.key_of_live live (.inr action_ne)
    rw [hkey] at hne hrole
    cases hb' with
    | stored live' _ action_ne' =>
      exact h.sameEvaluation_of_key_eq live live' (.inr action_ne) (.inr action_ne') hkey
    | noMatch id_eq => exact (hne (hzero b' id_eq)).elim
    | allowList _ live' lists =>
      obtain ⟨-, -, -, -, -, hrole'⟩ := h.key_of_live live' (.inl lists)
      rw [← hrole', hrole, lists_eq] at lists
      cases lists
  | noMatch id_eq params condition derivedRoleCondition derivedRoleParams =>
    have hempty := hzero b id_eq
    rw [hkey] at hempty
    cases hb' with
    | stored live' _ action_ne' =>
      obtain ⟨-, -, -, -, hne, -⟩ := h.key_of_live live' (.inr action_ne')
      exact (hne hempty).elim
    | noMatch _ params' condition' derivedRoleCondition' derivedRoleParams' =>
      exact ⟨condition.trans condition'.symm,
        derivedRoleCondition.trans derivedRoleCondition'.symm, params.trans params'.symm,
        fun _ => derivedRoleParams.trans derivedRoleParams'.symm⟩
    | allowList _ live' lists =>
      obtain ⟨-, -, -, -, hne, -⟩ := h.key_of_live live' (.inl lists)
      exact (hne hempty).elim
  | allowList _ live lists params condition derivedRoleCondition derivedRoleParams =>
    obtain ⟨-, -, -, -, hne, hrole⟩ := h.key_of_live live (.inl lists)
    rw [hkey] at hne hrole
    cases hb' with
    | stored live' lists_eq' action_ne' =>
      obtain ⟨-, -, -, -, -, hrole'⟩ := h.key_of_live live' (.inr action_ne')
      rw [← hrole, hrole', lists_eq'] at lists
      cases lists
    | noMatch id_eq => exact (hne (hzero b' id_eq)).elim
    | allowList _ live' lists' params' condition' derivedRoleCondition' derivedRoleParams' =>
      have hlist := h.sameEvaluation_of_key_eq live live' (.inl lists) (.inl lists') hkey
      exact ⟨by rw [condition, condition', hlist.condition],
        derivedRoleCondition.trans derivedRoleCondition'.symm,
        params.trans (hlist.params.trans params'.symm),
        fun _ => derivedRoleParams.trans derivedRoleParams'.symm⟩

end NamedApart

/-! ## §3. The cache over a run. -/

namespace CheckEnv

variable {V : Type} {env : CheckEnv V} {input : CheckInput} {b : BindingHandle} {scope : String}

theorem evalBinding_congr {b b' : BindingHandle} (h : b.SameEvaluation b')
    (hkey : env.table.idx.evalKey b.id = env.table.idx.evalKey b'.id) (s : CheckState V) :
    env.evalBinding b s = env.evalBinding b' s := by
  unfold evalBinding evalCondition
  rw [h.params, h.condition, hkey]
  cases hdr : b.core.derivedRoleCondition with
  | none => rw [← h.derivedRoleCondition, hdr]
  | some => rw [← h.derivedRoleCondition, hdr, h.derivedRoleParams (by rw [hdr]; simp)]

/-- An outcome that the run computed for a binding with the key, while nothing was cached
under it. -/
def Computed (env : CheckEnv V) (input : CheckInput) (key : EvaluationKeyTuple)
    (satisfied : Bool) : Prop :=
  ∃ kind scope b s s', Event.binding kind scope b s ∈ env.events input ∧
    env.table.idx.evalKey b.id = key ∧ s.conditionCache.lookup key = none ∧
    env.evalBinding b s = .ok (.outcome satisfied, s')

/-- **Everything in the condition cache was computed in the run.** -/
theorem preserved_computed : env.Preserved input (· ∈ env.events input)
    (fun s => EntriesHold (env.Computed input) s.conditionCache) where
  derivedRole := by
    intro scope dr sdr sdr' s s' _ _ _ hs hstep
    rcases processDerivedRole_cases hstep with ⟨-, rfl⟩ | ⟨vars, s₁, -, hc, roles, rfl⟩
    · exact hs
    · rcases cachedVars_cases hc with ⟨-, rfl⟩ | ⟨-, -, rfl⟩ <;> exact hs
  settle := fun _ _ _ hs => hs
  binding := by
    intro kind scope b s v s' _ hev hs hstep
    have hcond : ∀ {p : Option RowParams} {constants : List (String × Value)} {vars : Vars V}
        {s s' : CheckState V}, env.paramVars p s = .ok (constants, vars, s') →
        s'.conditionCache = s.conditionCache := by
      intro p constants vars s s' hp
      obtain ⟨cache, rfl⟩ := paramVars_frame hp
      rfl
    cases evalBinding_step hstep with
    | cached hp =>
      rw [hcond hp]
      exact hs
    | @evaluated constants vars s₁ s₂ _ _ hp hmiss hdr hcache =>
      have hs₂ : s₂.conditionCache = s.conditionCache := by
        rcases hdr with ⟨-, rfl⟩ | ⟨drc, drConstants, drVars, -, hdp⟩
        · exact hcond hp
        · exact (hcond hdp).trans (hcond hp)
      rcases hcache with rfl | ⟨satisfied, rfl, rfl⟩
      · rw [hs₂]
        exact hs
      · rw [hcond hp] at hmiss
        rw [hs₂]
        exact hs.insert ⟨kind, scope, b, s, _, hev, rfl, hmiss, hstep⟩

theorem computed_of_cached {kind : Kind} {s : CheckState V}
    (he : Event.binding kind scope b s ∈ env.events input) :
    EntriesHold (env.Computed input) s.conditionCache :=
  (preserved_computed.events (fun _ h => h) (EntriesHold.empty _) _ he).2

/-- A binding that a run evaluates for actions that are not empty. -/
theorem origin_of_consulted {rows : List RuleRow} (hinv : Index.Inv env.externals rows env.table.idx)
    (hactions : "" ∉ input.actions) {kind : Kind}
    (hb : env.ConsultedAt input kind scope b) : env.table.idx.Origin b := by
  obtain ⟨-, -, action, haction, role, -, hb⟩ := hb
  exact Index.origin_of_mem_query hinv (fun h => hactions (h ▸ haction)) hb

end CheckEnv

/-! ## §4. Accepted policies. -/

/-- **What the keys of accepted policies identify.**  For every list of policies that
validation and compilation accept, with distinct names: the rows they are loaded as have keys
that identify their conditions, the conditions of their derived roles, their variables and
their constants exactly if in no file a rule with a generated name meets another rule that is
given this name and has another condition.  And in every check over a table loaded from
files in which no generated name is given to another rule, with rows that the content hash tells
apart, an outcome that is read from the condition cache is the result of evaluating the very
binding it is read for, in the state in which the run put it there. -/
theorem check_reads_own_outcome {c : CelCompiler} {rs : Resolver} (us : List (AcceptedUnit c rs))
    (hnames : (us.map (fun u => u.unit.modID)).Nodup) :
    (KeysIdentifyConditions (RuleTable.rowsOf (AcceptedUnit.policySets us)) ↔
      ∀ u ∈ us, ¬ u.NameClash) ∧
    ((∀ u ∈ us, ¬ u.SharesName) → Legible (RuleTable.rowsOf (AcceptedUnit.policySets us)) →
      (∀ row ∈ RuleTable.rowsOf (AcceptedUnit.policySets us), row.NamesRole) →
      ∀ {V : Type} (env : CheckEnv V) (input : CheckInput),
      HashInjectiveOn env.externals (RuleTable.rowsOf (AcceptedUnit.policySets us)) →
      RuleTable.fromPolicies env.externals (AcceptedUnit.policySets us) =
        some env.table.toRuleTable →
      (RuleTable.rowsOf (AcceptedUnit.policySets us)).length ≤ noEvalKey → "" ∉ input.actions →
      ∀ kind scope b s satisfied, CheckEnv.Event.binding kind scope b s ∈ env.events input →
        s.conditionCache.lookup (env.table.idx.evalKey b.id) = some satisfied →
        ∃ kind₀ scope₀ b₀ s₀ s₁, CheckEnv.Event.binding kind₀ scope₀ b₀ s₀ ∈ env.events input ∧
          s₀.conditionCache.lookup (env.table.idx.evalKey b.id) = none ∧
          env.evalBinding b s₀ = .ok (.outcome satisfied, s₁)) := by
  refine ⟨AcceptedUnit.keysIdentifyConditions_iff hnames, ?_⟩
  intro hapart hlegible hroles V env input hinj hload hfits haction kind scope b s satisfied he hl
  have hnamed : NamedApart env.externals us env.table.toRuleTable :=
    ⟨hload, hnames, hapart, hlegible, hinj, hroles, hfits⟩
  obtain ⟨kind₀, scope₀, b₀, s₀, s₁, he₀, hkey, hmiss, heval⟩ :=
    computed_of_cached he _ _ hl
  have hb := origin_of_consulted hnamed.inv haction (eventOk_of_mem_events he)
  have hb₀ := origin_of_consulted hnamed.inv haction (eventOk_of_mem_events he₀)
  refine ⟨kind₀, scope₀, b₀, s₀, s₁, he₀, hmiss, ?_⟩
  rw [evalBinding_congr (hnamed.sameEvaluation hb hb₀ hkey.symm) hkey.symm]
  exact heval

/-! ## §5. Two rules on memos. -/

/-- Archived memos can neither be viewed nor edited, and locked ones cannot be viewed.  The
first rule has a name; the second one is named by its position. -/
def memoModule (name : String) : Source.ResourceModule where
  resource := "memo"
  version := "default"
  rules := [
    { name := name, actions := ["view", "edit"], effect := .deny, roles := ["user"]
      condition := some (.expr "R.attr.archived") },
    { name := "", actions := ["view"], effect := .deny, roles := ["user"]
      condition := some (.expr "R.attr.locked") }]

def memoSource (name : String) : Source.Policy where
  policyType := .resourcePolicy (memoModule name)

/-- A type checker that accepts every expression. -/
def lenientCompiler : CelCompiler where
  issues := fun _ => false
  checked := fun _ => []

def noVariables : Resolver where
  issues := fun _ _ => []
  policyParams := fun _ _ => { orderedVariables := [], constants := [] }
  roleParams := fun _ _ _ => { orderedVariables := [], constants := [] }

def noPositions : SourceCtx where
  positionOfValueAtProtoPath := fun _ => none
  positionAndContextForValueAtProtoPath := fun _ => (none, "")

def memoUnit (name : String) : CompilationUnit where
  modID := (memoSource name).fqn
  definitions := AList.singleton (memoSource name).fqn (memoSource name)

def memoRunnable (name : String) : RunnablePolicySet where
  policySet := .resourcePolicy (memoSource name).fqn "memo" "default" [{
    scope := ""
    derivedRoles := []
    rules := (memoModule name).rules.mapIdx (fun i rule =>
      compileResourceRule lenientCompiler rule (i + 1))
    scopePermissions := .overrideParent
    orderedVariables := []
    constants := [] }]

variable (name : String)

theorem memoSource_valid : validate noPositions (memoSource name) = [] := by
  refine validateResourcePolicy_eq_nil.mpr ⟨?_, ?_⟩
  · intro rule hrule
    simp only [memoModule, mem_cons, not_mem_nil, or_false] at hrule
    rcases hrule with rfl | rfl <;> simp
  · by_cases hname : name = "" <;> simp [memoModule, givenNames, givenName, hname]

theorem lookup_memoUnit :
    (memoUnit name).definitions.lookup (memoUnit name).modID = some (memoSource name) :=
  AList.lookup_insert ∅

theorem memoUnit_compiles :
    compileUnit lenientCompiler noVariables (memoUnit name) = .ok (some (memoRunnable name)) := by
  unfold compileUnit
  unfold compileAncestors
  rw [lookup_memoUnit]
  rfl

/-- Whatever name the first rule has, the file is accepted. -/
def memoAccepted (name : String) : AcceptedUnit lenientCompiler noVariables where
  unit := memoUnit name
  main := memoSource name
  sourceCtx := noPositions
  runnable := memoRunnable name
  main_eq := lookup_memoUnit name
  modID_eq := rfl
  valid := memoSource_valid name
  compiled := memoUnit_compiles name

theorem memo_not_sharesName {name : String} (hname : name ≠ "rule-002") :
    ¬ (memoAccepted name).SharesName := by
  intro h
  obtain ⟨i, unnamed, named, htakes⟩ : ∃ i unnamed named, TakesName Source.ResourceRule.name
    Namer.generatedRuleName (memoModule name).rules i unnamed named := h
  have hnamed : named.name = name ∨ named.name = "" := by
    have hmem := htakes.mem
    simp only [memoModule, mem_cons, not_mem_nil, or_false] at hmem
    rcases hmem with rfl | rfl
    · exact .inl rfl
    · exact .inr rfl
  have htaken := htakes.taken
  have hne := Namer.generatedRuleName_ne_empty (i + 1)
  rcases hnamed with hn | hn
  · -- the name generated for the second rule is the only one that could be taken
    rcases i with _ | _ | i
    · have hfirst : unnamed.name = name := by cases htakes.unnamed_at; rfl
      exact hne (htaken.symm.trans (hn.trans (hfirst.symm.trans htakes.no_name)))
    · exact hname (hn.symm.trans (htaken.trans (by decide)))
    · cases htakes.unnamed_at
  · exact hne (htaken.symm.trans hn)

theorem memo_loads : (fromPolicies sample
    (policySets [memoAccepted "archived"])).isSome = true := by decide +kernel

theorem memo_separates : SeparatesRows sample
    (rowsOf (policySets [memoAccepted "archived"])).reverse := by
  decide +kernel

def memoTable : LoadedTable sample :=
  LoadedTable.ofPolicies sample _ memo_loads memo_separates

theorem clashingMemo_loads : (fromPolicies sample
    (policySets [memoAccepted "rule-002"])).isSome = true := by decide +kernel

theorem clashingMemo_separates : SeparatesRows sample
    (rowsOf (policySets [memoAccepted "rule-002"])).reverse := by
  decide +kernel

/-- The same file with a first rule that takes the name of the second. -/
def clashingMemoTable : LoadedTable sample :=
  LoadedTable.ofPolicies sample _ clashingMemo_loads clashingMemo_separates

/-- All memos are locked, and none is archived. -/
def memoEnv (table : LoadedTable sample) : CheckEnv Bool :=
  sample table (fun e _ => e == "R.attr.locked")

def memoInput (actions : List String) : CheckInput where
  requestId := ""
  principal := { id := "alice", roles := ["user"], attr := [], policyVersion := "", scope := "" }
  resource := { kind := "memo", id := "m1", attr := [], policyVersion := "", scope := "" }
  actions := actions
  auxData := none

/-- Does an evaluation find its outcome in the cache? -/
def readsCache (env : CheckEnv Bool) : CheckEnv.Event Bool → Bool
  | .derivedRole _ _ _ => false
  | .binding _ _ b s => (s.conditionCache.lookup (env.table.idx.evalKey b.id)).isSome

/-- Does an evaluation find an outcome that it would not come to by itself? -/
def misreads (env : CheckEnv Bool) : CheckEnv.Event Bool → Bool
  | .derivedRole _ _ _ => false
  | .binding _ _ b s =>
    match s.conditionCache.lookup (env.table.idx.evalKey b.id),
        env.evalBinding b { s with conditionCache := ∅ } with
    | some found, .ok (.outcome satisfied, _) => found != satisfied
    | _, _ => false

/-- The rows of the memo policy have one action and one expression each, and nothing else that is
hashed. -/
theorem memo_rows : ∀ row ∈ rowsOf (policySets [memoAccepted "archived"]),
    (∃ a, row.actionSet = some (.action a)) ∧
    row.condition.map Condition.blank = some (.expr ⟨"", some []⟩) ∧
    row.derivedRoleCondition = none ∧ row.emitOutput = none ∧ row.params = some ⟨[], []⟩ ∧
    row.derivedRoleParams = none ∧ row.policyKind = .resource :=
  forall_mem_cons.mpr ⟨⟨⟨_, rfl⟩, rfl, rfl, rfl, rfl, rfl, rfl⟩,
    forall_mem_cons.mpr ⟨⟨⟨_, rfl⟩, rfl, rfl, rfl, rfl, rfl, rfl⟩,
      forall_mem_cons.mpr ⟨⟨⟨_, rfl⟩, rfl, rfl, rfl, rfl, rfl, rfl⟩,
        fun _ h => (not_mem_nil h).elim⟩⟩⟩

theorem memo_legible : Legible (rowsOf (policySets [memoAccepted "archived"])) := by
  refine ⟨by decide +kernel, fun row hrow row' hrow' _ => ?_,
    legibleParams_of_empty (forall_mem_map.mpr fun row hrow => ?_),
    legibleParams_of_empty (forall_mem_map.mpr fun row hrow => ?_), fun row hrow => ?_⟩
  · obtain ⟨⟨a, ha⟩, hcond, hderived, hout, hparams, hdrParams, -⟩ := memo_rows row hrow
    obtain ⟨⟨a', ha'⟩, hcond', hderived', hout', hparams', hdrParams', -⟩ := memo_rows row' hrow'
    exact ⟨by rw [ha, ha']; rfl, hcond.trans hcond'.symm, by rw [hderived, hderived'],
      by rw [hout, hout'], by rw [hparams, hparams'], by rw [hdrParams, hdrParams']⟩
  · obtain ⟨-, -, -, -, hparams, -, -⟩ := memo_rows row hrow
    rw [hparams]
    rfl
  · obtain ⟨-, -, -, -, -, hdrParams, -⟩ := memo_rows row hrow
    rw [hdrParams]
    rfl
  · obtain ⟨-, -, -, -, -, hdrParams, hkind⟩ := memo_rows row hrow
    exact ⟨.inl hkind, .inr (by rw [hdrParams]; rfl)⟩

theorem memo_reads_own_outcome :
    KeysIdentifyConditions (RuleTable.rowsOf (AcceptedUnit.policySets [memoAccepted "archived"])) ∧
    ∃ (b : BindingHandle) (satisfied : Bool) (s s₀ s₁ : CheckState Bool),
      s.conditionCache.lookup ((memoEnv memoTable).table.idx.evalKey b.id) = some satisfied ∧
      s₀.conditionCache.lookup ((memoEnv memoTable).table.idx.evalKey b.id) = none ∧
      (memoEnv memoTable).evalBinding b s₀ = .ok (.outcome satisfied, s₁) := by
  have hapart : ∀ u ∈ [memoAccepted "archived"], ¬ u.SharesName := by
    intro u hu
    rw [mem_singleton.mp hu]
    exact memo_not_sharesName (by decide)
  obtain ⟨hkeys, hread⟩ := check_reads_own_outcome [memoAccepted "archived"]
    (nodup_singleton _)
  refine ⟨hkeys.mpr (fun u hu hclash => hapart u hu hclash.sharesName), ?_⟩
  have hany : ((memoEnv memoTable).events (memoInput ["view", "edit"])).any
      (readsCache (memoEnv memoTable)) = true := by decide +kernel
  obtain ⟨e, he, hreads⟩ := any_eq_true.mp hany
  cases e with
  | derivedRole => cases hreads
  | binding kind scope b s =>
    obtain ⟨satisfied, hl⟩ := Option.isSome_iff_exists.mp hreads
    obtain ⟨-, -, -, s₀, s₁, -, hmiss, heval⟩ := hread hapart memo_legible
      (fun row hrow hne => (hne (memo_rows row hrow).2.2.1).elim) _
      (memoInput ["view", "edit"]) (by decide +kernel)
      (LoadedTable.fromPolicies_eq memo_loads memo_separates)
      (by decide +kernel) (by decide) kind scope b s satisfied he hl
    exact ⟨b, satisfied, s, s₀, s₁, hl, hmiss, heval⟩

/-- The two rules of the accepted file have one key and different conditions, and a check on
a memo that is locked but not archived uses the outcome of the first one for the second. -/
theorem memo_keys_shared : ¬ KeysIdentifyConditions
      (RuleTable.rowsOf (AcceptedUnit.policySets [memoAccepted "rule-002"])) ∧
    ((memoEnv clashingMemoTable).events (memoInput ["view"])).any
      (misreads (memoEnv clashingMemoTable)) = true := by
  refine ⟨fun h => ?_, by decide +kernel⟩
  have hnames : ([memoAccepted "rule-002"].map (fun u => u.unit.modID)).Nodup :=
    nodup_singleton _
  have hno := (AcceptedUnit.keysIdentifyConditions_iff hnames).mp h (memoAccepted "rule-002")
    (mem_singleton_self _)
  refine hno ⟨1, _, _, ⟨rfl, mem_cons_self, rfl, ?_⟩, ?_, ?_, .inl ?_⟩
  · decide
  · intro hcond
    have hexpr : some (Condition.expr (compileCELExpr lenientCompiler "R.attr.locked")) =
        some (Condition.expr (compileCELExpr lenientCompiler "R.attr.archived")) := hcond
    rw [Option.some.injEq, Condition.expr.injEq] at hexpr
    exact absurd (congrArg Expr.original hexpr) (by decide)
  · exact ⟨by decide, by decide⟩
  · exact ⟨by decide, by decide⟩

end AccessManagement
