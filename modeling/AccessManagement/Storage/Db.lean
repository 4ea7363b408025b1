/-
  AccessManagement.Storage.Db — THE DEPENDENCY TABLE OF THE DATABASE STORES (package `storage/db`).

  Beside the policies the database keeps two tables of pairs: who imports what, and who has which
  ancestors.  `AddOrUpdate` writes the rows of a policy anew when the policy has any, and leaves
  the table alone when it has none; a policy that loses its last import keeps its old rows.

  `definitions db policies id` lists what a policy was and becomes in a batch.  The rows of the
  policy after the batch are the imports of the last definition that has some
  (`mem_rows_addOrUpdate`), and should be those of the last definition.

  Modelling notes:
    * a module ID is the fully-qualified name it is made from;
    * tables are lists up to order; a table of pairs has each pair once (its primary key), so
      that inserting one twice fails;
    * deleting a policy deletes its pairs (`ON DELETE CASCADE`);
    * a transaction that fails leaves the database as it was.
-/
import AccessManagement.Storage.Sync

namespace AccessManagement.Storage

open Lib List

namespace Db

/-! ## §1. Tables. -/

/-- `policy.Wrapper`. -/
structure Wrapper where
  policy : Source.Policy
  disabled : Bool := false

/-- A row of the table `policy`. -/
structure PolicyRow where
  definition : Source.Policy
  disabled : Bool

/-- Pairs of a policy and another one. -/
abbrev Pairs := List (String × String)

structure Database where
  policy : AList (fun _ : String => PolicyRow)
  policyDependency : Pairs
  policyAncestor : Pairs

/-- `responsev1.IntegrityErrors`, with the key of the policy. -/
structure IntegrityErrors where
  policyKey : String
  breaksScopeChain : List String
  requiredByOtherPolicies : List String
  deriving DecidableEq, Repr

inductive DbError where
  | upsertPolicyRequired
  | upsert (fqn cause : String)
  | insertDependencies (fqn : String)
  | insertAncestors (fqn : String)
  | scopePermissions (conflicts : List String)
  | integrity (errors : List IntegrityErrors)
  deriving DecidableEq, Repr

/-- The rows of a policy, written anew if there are any. -/
def rewriteRows (rows : Pairs) (id : String) (others : List String) (e : DbError) :
    Except DbError Pairs :=
  if others = [] then .ok rows
  else if others.Nodup then .ok (rows.filter (fun r => r.1 ≠ id) ++ others.map (fun o => (id, o)))
  else .error e

namespace Database

variable (db : Database)

def isEnabled (id : String) : Bool :=
  match db.policy.lookup id with
  | some row => !row.disabled
  | none => false

variable (ids : List String)

/-- `getDependents`: who imports one of the policies, directly or through one other policy. -/
def getDependents : Pairs :=
  let direct := (db.policyDependency.filter (fun r => ids.contains r.2)).map (fun r => (r.2, r.1))
  let transitive := db.policyDependency.flatMap (fun parent =>
    (db.policyDependency.filter (fun child => child.1 == parent.2 && ids.contains child.2)).map
      (fun child => (child.2, parent.1)))
  (direct ++ transitive).dedup

/-- `getDependentsWithNames`: direct dependents count when they are enabled. -/
def getDependentsWithNames : Pairs :=
  let direct := (db.policyDependency.filter (fun r => ids.contains r.2 && db.isEnabled r.1)).map
    (fun r => (r.2, r.1))
  let transitive := db.policyDependency.flatMap (fun parent =>
    (db.policyDependency.filter (fun child => child.1 == parent.2 && ids.contains child.2 &&
      (db.policy.lookup parent.1).isSome)).map (fun child => (child.2, parent.1)))
  (direct ++ transitive).dedup

/-- `getDescendants`. -/
def getDescendants : Pairs :=
  (db.policyAncestor.filter (fun r => ids.contains r.2 && db.isEnabled r.1)).map
    (fun r => (r.2, r.1))

/-- `checkScopePermissions`. -/
def checkScopePermissions (policies : List Wrapper) : Except DbError Unit :=
  let constrained := policies.filter (fun w =>
    w.policy.kind == .resource || w.policy.kind == .principal)
  let batch := constrained.map (fun w => w.policy.fqn)
  let scopes := constrained.map (fun w => wrapperScope w.policy)
  if scopes.isEmpty then .ok ()
  else
    let recs := db.policy.entries.filter (fun e =>
      scopes.contains (wrapperScope e.2.definition) && !e.2.disabled && !batch.contains e.1)
    let add := fun (t : Tracker) (p : Source.Policy) =>
      t.add p.kind (Namer.policyKeyFromFqn p.fqn) (wrapperScope p) (scopePermission p)
    let tracker := (policies.map (fun w => w.policy)).foldl add
      ((recs.map (fun e => e.2.definition)).foldl add Tracker.new)
    if tracker.conflicts = [] then .ok () else .error (.scopePermissions tracker.conflicts)

/-- What others have on a policy, if the batch does not include all of them. -/
def missingFrom (mIDs : List String) (pairs : Pairs) (id : String) : List String :=
  let others := (pairs.filter (fun r => r.1 == id)).map (fun r => r.2)
  if others.all mIDs.contains then [] else others

/-- `validateIntegrity`. -/
def validateIntegrity (mIDs : List String) : Except DbError Unit :=
  let errors := mIDs.dedup.filterMap (fun id =>
    let descendants := missingFrom mIDs (db.getDescendants mIDs) id
    let dependents := missingFrom mIDs (db.getDependentsWithNames mIDs) id
    if descendants.isEmpty && dependents.isEmpty then none
    else some {
      policyKey := Namer.policyKeyFromFqn id
      breaksScopeChain := descendants.map Namer.policyKeyFromFqn
      requiredByOtherPolicies := dependents.map Namer.policyKeyFromFqn })
  if errors = [] then .ok () else .error (.integrity errors)

end Database

/-! ## §2. Operations. -/

/-- How the driver writes the row of a policy. -/
abbrev UpsertPolicy := Database → Wrapper → Except String Database

/-- The loop of `AddOrUpdate` for one policy. -/
def addOrUpdateOne (upsertPolicy : UpsertPolicy) (db : Database) (w : Wrapper) :
    Except DbError Database :=
  match upsertPolicy db w with
  | .error cause => .error (.upsert w.policy.fqn cause)
  | .ok db₁ =>
    match rewriteRows db₁.policyDependency w.policy.fqn w.policy.dependencies
        (.insertDependencies w.policy.fqn) with
    | .error e => .error e
    | .ok dependencies =>
      match rewriteRows db₁.policyAncestor w.policy.fqn w.policy.ancestors
          (.insertAncestors w.policy.fqn) with
      | .error e => .error e
      | .ok ancestors =>
        .ok { db₁ with policyDependency := dependencies, policyAncestor := ancestors }

/-- The event for the dependents of a batch, if there are any. -/
def dependentsEvent (processed deps : List String) : List StorageIndex.Event :=
  let found := newDependents processed deps
  if found.isEmpty then [] else [{ kind := .addOrUpdatePolicy, dependents := found }]

/-- `AddOrUpdate`, with the events it sends. -/
def addOrUpdate (upsertPolicy : Option UpsertPolicy) (db : Database) (policies : List Wrapper) :
    Except DbError (Database × List StorageIndex.Event) :=
  match upsertPolicy with
  | none => .error .upsertPolicyRequired
  | some upsertPolicy =>
    let modIDs := policies.map (fun w => w.policy.fqn)
    match db.checkScopePermissions policies with
    | .error e => .error e
    | .ok _ =>
      match policies.foldlM (addOrUpdateOne upsertPolicy) db with
      | .error e => .error e
      | .ok db' =>
        .ok (db', modIDs.map (fun id => { kind := .addOrUpdatePolicy, policyID := id }) ++
          dependentsEvent modIDs ((db.getDependents modIDs).map (fun r => r.2)))

/-- `namer.FQNFromPolicyKey`. -/
def fqnFromPolicyKey (policyKey : String) : String := Namer.fqnPrefix ++ policyKey

/-- Deleting policies deletes their pairs. -/
def Database.deletePolicies (db : Database) (ids : List String) : Database :=
  let gone := fun id => ids.contains id && (db.policy.lookup id).isSome
  { policy := ids.foldl (fun policies id => policies.erase id) db.policy
    policyDependency := db.policyDependency.filter (fun r => !gone r.1)
    policyAncestor := db.policyAncestor.filter (fun r => !gone r.1) }

/-- `Delete`, with the events it sends. -/
def delete (db : Database) (policyKeys : List String) :
    Except DbError (Database × List StorageIndex.Event) :=
  let mIDs := policyKeys.map fqnFromPolicyKey
  match db.validateIntegrity mIDs with
  | .error e => .error e
  | .ok _ =>
    let dependents := db.getDependentsWithNames mIDs
    let events : List StorageIndex.Event :=
      match mIDs with
      | [id] => [{
          kind := .deleteOrDisablePolicy
          policyID := id
          dependents := (dependents.filter (fun r => r.1 == id)).map (fun r => r.2) }]
      | _ => mIDs.map (fun id => { kind := .deleteOrDisablePolicy, policyID := id }) ++
          dependentsEvent mIDs (dependents.map (fun r => r.2))
    .ok (db.deletePolicies mIDs, events)

/-- The column `disabled` of some policies. -/
def Database.setDisabled (db : Database) (ids : List String) (disabled : Bool) : Database :=
  { db with
    policy := ids.foldl (fun policies id =>
      match policies.lookup id with
      | some row => policies.insert id { row with disabled := disabled }
      | none => policies) db.policy }

/-- `Disable`, with the events it sends. -/
def disable (db : Database) (policyKeys : List String) :
    Except DbError (Database × List StorageIndex.Event) :=
  let mIDs := policyKeys.map fqnFromPolicyKey
  match db.validateIntegrity mIDs with
  | .error e => .error e
  | .ok _ =>
    .ok (db.setDisabled mIDs true,
      mIDs.map (fun id => { kind := .deleteOrDisablePolicy, policyID := id }))

/-- `LoadPolicy`. -/
def Database.loadPolicy (db : Database) (policyKeys : List String) : List Wrapper :=
  (db.policy.entries.filter (fun e => (policyKeys.map fqnFromPolicyKey).contains e.1)).map
    (fun e => { policy := e.2.definition, disabled := e.2.disabled })

/-- `Enable`, with the events it sends. -/
def enable (db : Database) (policyKeys : List String) :
    Except DbError (Database × List StorageIndex.Event) :=
  let mIDs := policyKeys.map fqnFromPolicyKey
  match db.checkScopePermissions (db.loadPolicy policyKeys) with
  | .error e => .error e
  | .ok _ =>
    .ok (db.setDisabled mIDs false,
      mIDs.map (fun id => { kind := .addOrUpdatePolicy, policyID := id }))

/-! ## §3. The imports of a list of definitions. -/

/-- What a policy was and becomes in a batch. -/
def definitions (db : Database) (policies : List Wrapper) (id : String) : List Source.Policy :=
  ((db.policy.lookup id).map (fun row => row.definition)).toList ++
    (policies.filter (fun w => w.policy.fqn = id)).map (fun w => w.policy)

variable (ds : List Source.Policy)

/-- The imports of the last definition that has some. -/
@[simp] def lastImports : List String :=
  ds.foldl (fun imports p => if p.dependencies = [] then imports else p.dependencies) []

theorem lastImports_concat (p : Source.Policy) :
    lastImports (ds ++ [p]) = if p.dependencies = [] then lastImports ds else p.dependencies := by
  rw [lastImports, foldl_append]
  rfl

theorem lastImports_eq_nil_iff : lastImports ds = [] ↔ ∀ q ∈ ds, q.dependencies = [] := by
  induction ds using List.reverseRecOn with
  | nil => simp
  | append_singleton _ p ih =>
    rw [lastImports_concat]
    split
    · next hp =>
        rw [ih]
        simp [or_imp, forall_and, hp]
    · next hp =>
        constructor
        · exact fun h => (hp h).elim
        · exact fun h => h p (by simp)

variable {ds : List Source.Policy} {id : String}

/-- **The last definition has these imports**, unless it has none and one before it has. -/
theorem lastImports_right_iff {last : Source.Policy}
    (h : ds.getLast? = some last) : (∀ d, d ∈ lastImports ds ↔ d ∈ last.dependencies) ↔
      (last.dependencies = [] → ∀ q ∈ ds, q.dependencies = []) := by
  obtain ⟨front, rfl⟩ := List.getLast?_eq_some_iff.mp h
  rw [lastImports_concat]
  split
  · next hnone =>
      have hempty : (∀ d, d ∈ lastImports front ↔ d ∈ last.dependencies) ↔
          lastImports front = [] := by
        rw [hnone, eq_nil_iff_forall_not_mem]
        exact forall_congr' (fun d => by simp)
      rw [hempty, lastImports_eq_nil_iff]
      simp [or_imp, forall_and, hnone]
  · next hsome =>
      exact ⟨fun _ hnone => (hsome hnone).elim, fun _ _ => Iff.rfl⟩

/-! ## §4. What the operations do to the tables. -/

/-- What the drivers do: they insert or overwrite the row of the policy, and nothing else. -/
def OwnRow (upsertPolicy : UpsertPolicy) : Prop :=
  ∀ db w db', upsertPolicy db w = .ok db' → (∀ id, db'.policy.lookup id =
      if id = w.policy.fqn then some ⟨w.policy, w.disabled⟩ else db.policy.lookup id) ∧
    db'.policyDependency = db.policyDependency ∧ db'.policyAncestor = db.policyAncestor

theorem mem_rewriteRows {rows rows' : Pairs} {others : List String} {e : DbError}
    (h : rewriteRows rows id others e = .ok rows') (id' o : String) :
    (id', o) ∈ rows' ↔ if id' = id ∧ others ≠ [] then o ∈ others else (id', o) ∈ rows := by
  unfold rewriteRows at h
  split at h
  · next hnone =>
      cases h
      rw [if_neg (fun hboth => hboth.2 hnone)]
  · next hsome =>
      split at h
      · cases h
        by_cases hid : id' = id
        · subst hid
          rw [if_pos ⟨rfl, hsome⟩]
          simp
        · rw [if_neg (fun hboth => hid hboth.1)]
          simp [hid, Ne.symm hid]
      · cases h

variable {upsertPolicy : UpsertPolicy} {db db' : Database} {policies : List Wrapper}
  {events : List StorageIndex.Event}

theorem addOrUpdateOne_ok (hupsert : OwnRow upsertPolicy)
    {w : Wrapper} (h : addOrUpdateOne upsertPolicy db w = .ok db') : (∀ id, db'.policy.lookup id =
        if id = w.policy.fqn then some ⟨w.policy, w.disabled⟩ else db.policy.lookup id) ∧
      ∀ id d, (id, d) ∈ db'.policyDependency ↔
        if id = w.policy.fqn ∧ w.policy.dependencies ≠ [] then d ∈ w.policy.dependencies
        else (id, d) ∈ db.policyDependency := by
  unfold addOrUpdateOne at h
  split at h
  · cases h
  · next db₁ hwrite =>
      obtain ⟨hpolicy, hdep, -⟩ := hupsert db w db₁ hwrite
      split at h
      · cases h
      · next dependencies hrows =>
          split at h
          · cases h
          · cases h
            refine ⟨hpolicy, fun id d => ?_⟩
            rw [mem_rewriteRows hrows, hdep]

/-- **The loop of `AddOrUpdate`**, for a policy whose definitions so far are `ds`. -/
theorem foldlM_addOrUpdateOne (hupsert : OwnRow upsertPolicy)
    (hok : policies.foldlM (addOrUpdateOne upsertPolicy) db = .ok db')
    (hlast : ds.getLast? = (db.policy.lookup id).map (fun row => row.definition))
    (hrows : ∀ d, (id, d) ∈ db.policyDependency ↔ d ∈ lastImports ds) :
    (ds ++ (policies.filter (fun w => w.policy.fqn = id)).map (fun w => w.policy)).getLast? =
        (db'.policy.lookup id).map (fun row => row.definition) ∧
      ∀ d, (id, d) ∈ db'.policyDependency ↔ d ∈ lastImports
        (ds ++ (policies.filter (fun w => w.policy.fqn = id)).map (fun w => w.policy)) := by
  induction policies generalizing db ds with
  | nil =>
    cases hok
    rw [filter_nil, map_nil, append_nil]
    exact ⟨hlast, hrows⟩
  | cons w _ ih =>
    obtain ⟨db₁, hstep, hok⟩ := bind_eq_ok.mp hok
    obtain ⟨hpolicy, hdep⟩ := addOrUpdateOne_ok hupsert hstep
    by_cases hid : w.policy.fqn = id
    · rw [filter_cons_of_pos (by simpa using hid), map_cons, append_cons]
      refine ih hok ?_ ?_
      · rw [hpolicy, if_pos hid.symm]
        simp
      · intro d
        rw [hdep, lastImports_concat]
        by_cases hnone : w.policy.dependencies = []
        · rw [if_pos hnone, if_neg (fun hboth => hboth.2 hnone), hrows]
        · rw [if_neg hnone, if_pos ⟨hid.symm, hnone⟩]
    · rw [filter_cons_of_neg (by simpa using hid)]
      refine ih hok ?_ ?_
      · rw [hpolicy, if_neg (Ne.symm hid)]
        exact hlast
      · intro d
        rw [hdep, if_neg (fun hboth => hid hboth.1.symm)]
        exact hrows d

/-- A successful `AddOrUpdate` is the loop. -/
theorem addOrUpdate_ok (h : addOrUpdate (some upsertPolicy) db policies = .ok (db', events)) :
    policies.foldlM (addOrUpdateOne upsertPolicy) db = .ok db' := by
  unfold addOrUpdate at h
  dsimp only at h
  split at h
  · cases h
  · split at h
    · cases h
    · next db₁ hok =>
        cases h
        exact hok

theorem lookup_foldl_erase (ids : List String) (id : String) (m : AList (fun _ : String => PolicyRow)) :
    (ids.foldl (fun policies id => policies.erase id) m).lookup id =
      if id ∈ ids then none else m.lookup id := by
  induction ids generalizing m with
  | nil => rfl
  | cons a _ ih =>
    rw [foldl_cons, ih, lookup_erase_ite]
    by_cases ha : id = a <;> simp [ha]

theorem lookup_setDisabled (db : Database) (ids : List String) (disabled : Bool) (id : String) :
    (db.setDisabled ids disabled).policy.lookup id = (db.policy.lookup id).map
      (fun row => if id ∈ ids then { row with disabled := disabled } else row) := by
  unfold Database.setDisabled
  induction ids generalizing db with
  | nil => simp
  | cons a _ ih =>
    rw [foldl_cons]
    cases ha : db.policy.lookup a with
    | none =>
      by_cases hid : id = a
      · subst hid
        simpa [ha] using ih db
      · simpa [hid] using ih db
    | some row =>
      have hrest := ih { db with policy := db.policy.insert a { row with disabled := disabled } }
      by_cases hid : id = a
      · subst hid
        simpa [ha] using hrest
      · simpa [hid] using hrest

theorem definition_setDisabled (ids : List String) (disabled : Bool) (id : String) :
    ((db.setDisabled ids disabled).policy.lookup id).map (fun row => row.definition) =
      (db.policy.lookup id).map (fun row => row.definition) := by
  rw [lookup_setDisabled, Option.map_map]
  congr 1
  funext row
  split <;> rfl

/-! ## §5. Any calls. -/

/-- The dependency rows of each stored policy are the imports of its definition. -/
def Exact (db : Database) : Prop :=
  ∀ id row, db.policy.lookup id = some row →
    ∀ d, (id, d) ∈ db.policyDependency ↔ d ∈ row.definition.dependencies

/-- All rows belong to stored policies. -/
def Referenced (db : Database) : Prop :=
  ∀ id d, (id, d) ∈ db.policyDependency → (db.policy.lookup id).isSome = true

/-- The last definition of each policy in the batch has imports, or no definition of it has. -/
def KeepsImports (db : Database) (policies : List Wrapper) : Prop :=
  ∀ id last, (definitions db policies id).getLast? = some last → last.dependencies = [] →
    ∀ q ∈ definitions db policies id, q.dependencies = []

/-- Together: the rows are the imports of the stored definitions. -/
theorem exact_referenced_iff : Exact db ∧ Referenced db ↔ ∀ id d, (id, d) ∈ db.policyDependency ↔
    ∃ p, (db.policy.lookup id).map (fun row => row.definition) = some p ∧ d ∈ p.dependencies := by
  constructor
  · rintro ⟨hexact, href⟩ id d
    cases hrow : db.policy.lookup id with
    | none =>
      have hsome := href id d
      simp_all
    | some row => simpa using hexact id row hrow d
  · intro h
    refine ⟨fun id row hrow d => by simp [h, hrow], fun id d hd => ?_⟩
    obtain ⟨p, hp, -⟩ := (h id d).mp hd
    rw [← Option.isSome_map, hp, Option.isSome_some]

/-- The rows of a policy, before a batch. -/
theorem mem_rows_iff (h : Exact db ∧ Referenced db) (id d : String) :
    (id, d) ∈ db.policyDependency ↔
      d ∈ lastImports ((db.policy.lookup id).map (fun row => row.definition)).toList := by
  rw [exact_referenced_iff.mp h]
  cases (db.policy.lookup id).map (fun row => row.definition) with
  | none => simp
  | some => simpa using ne_nil_of_mem

/-- **After a batch the table is exact if and only if the batch keeps imports**, and every row
belongs to a stored policy. -/
theorem exact_addOrUpdate_iff (hupsert : OwnRow upsertPolicy) (h : Exact db ∧ Referenced db)
    (hok : addOrUpdate (some upsertPolicy) db policies = .ok (db', events)) :
    Referenced db' ∧ (Exact db' ↔ KeepsImports db policies) := by
  have hloop := fun id => foldlM_addOrUpdateOne hupsert (addOrUpdate_ok hok)
    (by cases db.policy.lookup id <;> rfl) (mem_rows_iff h id)
  refine ⟨?_, ?_⟩
  · intro id d hd
    by_contra hnone
    rw [Option.isSome_iff_ne_none, not_not] at hnone
    have hlast := (hloop id).1
    rw [hnone, Option.map_none, List.getLast?_eq_none_iff] at hlast
    have hin := ((hloop id).2 d).mp hd
    rw [hlast] at hin
    cases hin
  · have hat : ∀ id last, (definitions db policies id).getLast? = some last ↔
        ∃ row, db'.policy.lookup id = some row ∧ row.definition = last := by
      intro id last
      rw [definitions, (hloop id).1, Option.map_eq_some_iff]
    constructor
    · intro hexact' id last hlast
      obtain ⟨row, hrow, rfl⟩ := (hat id last).mp hlast
      refine (lastImports_right_iff hlast).mp (fun d => ?_)
      exact ((hloop id).2 d).symm.trans (hexact' id row hrow d)
    · intro hkeeps id row hrow d
      have hlast := (hat id row.definition).mpr ⟨row, hrow, rfl⟩
      rw [(hloop id).2 d]
      exact (lastImports_right_iff hlast).mpr (hkeeps id row.definition hlast) d

theorem exact_deletePolicies (h : Exact db ∧ Referenced db) (ids : List String) :
    Exact (db.deletePolicies ids) ∧ Referenced (db.deletePolicies ids) := by
  rw [exact_referenced_iff] at h ⊢
  intro id d
  simp only [Database.deletePolicies, lookup_foldl_erase, mem_filter, h]
  by_cases hin : id ∈ ids
  · simp +contextual [hin]
  · simp [hin]

theorem exact_setDisabled (h : Exact db ∧ Referenced db) (ids : List String) (disabled : Bool) :
    Exact (db.setDisabled ids disabled) ∧ Referenced (db.setDisabled ids disabled) := by
  rw [exact_referenced_iff] at h ⊢
  intro id d
  rw [definition_setDisabled]
  exact h id d

/-- A call of the store. -/
inductive Call where
  | addOrUpdate (policies : List Wrapper)
  | delete (policyKeys : List String)
  | disable (policyKeys : List String)
  | enable (policyKeys : List String)

/-- What a call does to the database; a call that fails does nothing. -/
def Call.apply (upsertPolicy : UpsertPolicy) (db : Database) (call : Call) : Database :=
  let result :=
    match call with
    | .addOrUpdate policies => Db.addOrUpdate (some upsertPolicy) db policies
    | .delete policyKeys => Db.delete db policyKeys
    | .disable policyKeys => Db.disable db policyKeys
    | .enable policyKeys => Db.enable db policyKeys
  match result with
  | .ok (db', _) => db'
  | .error _ => db

/-- An `AddOrUpdate` keeps imports; the other calls need not do anything. -/
def Call.Keeps (db : Database) : Call → Prop
  | .addOrUpdate policies => KeepsImports db policies
  | _ => True

def Database.empty : Database := ⟨∅, [], []⟩

def run (upsertPolicy : UpsertPolicy) (db : Database) (calls : List Call) : Database :=
  calls.foldl (Call.apply upsertPolicy) db

def RunKeeps (upsertPolicy : UpsertPolicy) : Database → List Call → Prop
  | _, [] => True
  | db, call :: calls => call.Keeps db ∧ RunKeeps upsertPolicy (call.apply upsertPolicy db) calls

/-- One call. -/
theorem exact_apply (hupsert : OwnRow upsertPolicy)
    (h : Exact db ∧ Referenced db) (call : Call) (hkeeps : call.Keeps db) :
    Exact (call.apply upsertPolicy db) ∧ Referenced (call.apply upsertPolicy db) := by
  unfold Call.apply
  cases call with
  | addOrUpdate policies =>
    dsimp only
    cases hok : addOrUpdate _ db policies with
    | error => exact h
    | ok =>
      obtain ⟨href', hiff⟩ := exact_addOrUpdate_iff hupsert h hok
      exact ⟨hiff.mpr hkeeps, href'⟩
  | delete policyKeys =>
    dsimp only [Db.delete]
    cases db.validateIntegrity (policyKeys.map fqnFromPolicyKey) with
    | error => exact h
    | ok => exact exact_deletePolicies h _
  | disable policyKeys =>
    dsimp only [Db.disable]
    cases db.validateIntegrity (policyKeys.map fqnFromPolicyKey) with
    | error => exact h
    | ok => exact exact_setDisabled h _ _
  | enable policyKeys =>
    dsimp only [Db.enable]
    cases db.checkScopePermissions (db.loadPolicy policyKeys) with
    | error e => exact h
    | ok _ => exact exact_setDisabled h _ _

theorem exact_run (hupsert : OwnRow upsertPolicy) :
    ∀ (calls : List Call) (db : Database), Exact db ∧ Referenced db →
    RunKeeps upsertPolicy db calls →
    Exact (run upsertPolicy db calls) ∧ Referenced (run upsertPolicy db calls) := by
  intro calls
  induction calls with
  | nil => exact fun db h _ => h
  | cons call _ ih =>
    intro db h hkeeps
    exact ih _ (exact_apply hupsert h call hkeeps.1) hkeeps.2

/-- **When the dependency table is exact.**  It is after any calls whose updates keep imports; and
after such calls the next `AddOrUpdate` leaves it exact if and only if it keeps imports. -/
theorem dependency_rows_exact {upsertPolicy : UpsertPolicy} (hupsert : OwnRow upsertPolicy)
    {calls : List Call} (hkeeps : RunKeeps upsertPolicy Database.empty calls) :
    Exact (run upsertPolicy Database.empty calls) ∧ ∀ policies db' events,
        addOrUpdate (some upsertPolicy) (run upsertPolicy Database.empty calls) policies =
          .ok (db', events) →
        (Exact db' ↔ KeepsImports (run upsertPolicy Database.empty calls) policies) := by
  have hempty : Exact Database.empty ∧ Referenced Database.empty := by
    constructor
    · intro id row hrow
      cases hrow
    · intro id d hd
      cases hd
  have h := exact_run hupsert calls _ hempty hkeeps
  exact ⟨h.1, fun policies db' events hok => (exact_addOrUpdate_iff hupsert h hok).2⟩

/-- A driver that writes the row. -/
def writeRow : UpsertPolicy := fun db w =>
  .ok { db with policy := db.policy.insert w.policy.fqn ⟨w.policy, w.disabled⟩ }

theorem ownRow_writeRow : OwnRow writeRow := by
  intro db w db' h
  cases h
  refine ⟨fun id => ?_, rfl, rfl⟩
  split
  · next hid =>
      subst hid
      exact AList.lookup_insert _
  · next hid => exact AList.lookup_insert_ne hid

/-- Derived roles and a policy that imports them; then the roles are disabled with it. -/
def officeCalls : List Call :=
  [.addOrUpdate [⟨staffRoles, false⟩, ⟨docPolicy, false⟩],
    .disable ["derived_roles.staff", "resource.doc.vdefault"]]

theorem office_rows_exact : Exact (run writeRow Database.empty officeCalls) := by
  refine (@dependency_rows_exact _ ownRow_writeRow officeCalls ⟨?_, trivial, trivial⟩).1
  intro id last hlast hnone
  have hmem := mem_of_getLast? hlast
  obtain ⟨w, hw, rfl⟩ := mem_map.mp hmem
  rcases mem_cons.mp (mem_of_mem_filter hw) with rfl | hw
  · cases hnone
  · rw [mem_singleton.mp hw] at hnone
    cases hnone

/-- The policy is stored again, without its imports. -/
def droppingCalls : List Call :=
  [.addOrUpdate [⟨docPolicy, false⟩], .addOrUpdate [⟨scopedDoc "", false⟩]]

/-- **A policy that loses its imports keeps their rows.** -/
theorem dropped_imports_keep_rows :
    (docPolicy.fqn, staffRoles.fqn) ∈ (run writeRow Database.empty droppingCalls).policyDependency ∧
      ¬ Exact (run writeRow Database.empty droppingCalls) := by
  have hrow : (docPolicy.fqn, staffRoles.fqn) ∈
      (run writeRow Database.empty droppingCalls).policyDependency := by decide +kernel
  have hnow : ((run writeRow Database.empty droppingCalls).policy.lookup docPolicy.fqn).map
      (fun row => row.definition.dependencies) = some [] := by decide +kernel
  refine ⟨hrow, fun hexact => ?_⟩
  obtain ⟨row, hlook, hnone⟩ := Option.map_eq_some_iff.mp hnow
  have hin := (hexact docPolicy.fqn row hlook staffRoles.fqn).mp hrow
  rw [hnone] at hin
  cases hin

end Db

end AccessManagement.Storage
