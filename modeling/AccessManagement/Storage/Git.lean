/-
  AccessManagement.Storage.Git — THE INDEX OF A GIT REPOSITORY (package `storage/git`).

  When a pull moves the head of the branch, the store goes through the differences between the
  two trees and applies them to its index, one after the other.  The first one that fails ends
  the update: the head has moved by then, so what was not applied is not seen again.

  A difference names a file of the old tree, a file of the new tree, or both.  What go-git
  promises about a list of them is `IsDiff`; nothing is assumed about its order.  `Orderly` is
  what the order has to be like: a policy is only added when every other file that had it has
  been dealt with.

  Modelling notes:
    * an object hash stands for the contents of the object;
    * reading a file without a document ends the process (`WithSourceAttributes` of no policy),
      which is an error here;
    * pulling, opening and reading the repository do not fail.
-/
import AccessManagement.Storage.Sync

namespace AccessManagement.Storage

open List AList WorkTree

namespace Git

open Paths

/-! ## §1. Paths. -/

/-- The path of a file in the directory of the policies. -/
def inSubDir (subDir path : String) : Option String :=
  if subDir ≠ "." then cutStart (subDir ++ "/") path else some path

/-- `normalizePath`. -/
def normalizePath (subDir path : String) : String × IndexedFileType :=
  if path = "" then (path, .notIndexed)
  else
    match inSubDir subDir path with
    -- not in the directory of the policies
    | none => (path, .notIndexed)
    | some path' =>
      if fileType path' = .schema then ((relativeSchemaPath path').getD "", .schema)
      else (path', fileType path')

/-- A policy file of the repository. -/
def isPolicy (subDir path : String) : Bool := (normalizePath subDir path).2 == .policy

theorem cutStart_injective {start s s' rest : String} (h : cutStart start s = some rest)
    (h' : cutStart start s' = some rest) : s = s' := by
  have hsplit : ∀ s, cutStart start s = some rest → s.toList = start.toList ++ rest.toList := by
    intro s h
    unfold cutStart at h
    split at h
    · next hstart =>
        obtain ⟨tail, htail⟩ := hasStart_iff.mp hstart
        rw [← Option.some.inj h, ← htail, ← String.length_toList, drop_left, String.toList_ofList]
    · cases h
  exact String.toList_inj.mp ((hsplit s h).trans (hsplit s' h').symm)

/-- The path of a policy file is the file name in the index, without the directory. -/
theorem normalizePath_of_isPolicy {subDir path : String} (h : isPolicy subDir path = true) :
    ∃ path', inSubDir subDir path = some path' ∧ normalizePath subDir path = (path', .policy) := by
  unfold isPolicy at h
  rw [beq_iff_eq] at h
  unfold normalizePath at h ⊢
  by_cases hempty : path = ""
  · rw [if_pos hempty] at h
    cases h
  · rw [if_neg hempty] at h ⊢
    cases hsub : inSubDir subDir path with
    | none => rw [hsub] at h; cases h
    | some path' =>
      rw [hsub] at h
      refine ⟨path', rfl, ?_⟩
      dsimp only at h ⊢
      by_cases hschema : fileType path' = .schema
      · rw [if_pos hschema] at h
        cases h
      · rw [if_neg hschema] at h ⊢
        exact Prod.ext rfl h

/-- Two policy files with one path are one file. -/
theorem normalizePath_injective {subDir path path' : String} (h : isPolicy subDir path = true)
    (heq : normalizePath subDir path = normalizePath subDir path') : path = path' := by
  have h' : isPolicy subDir path' = true := by
    unfold isPolicy at h ⊢
    rw [← heq]
    exact h
  obtain ⟨rest, hrest, hnorm⟩ := normalizePath_of_isPolicy h
  obtain ⟨rest', hrest', hnorm'⟩ := normalizePath_of_isPolicy h'
  rw [hnorm, hnorm'] at heq
  obtain rfl := (Prod.mk.inj heq).1
  unfold inSubDir at hrest hrest'
  split at hrest
  · next hsub =>
      rw [if_pos hsub] at hrest'
      exact cutStart_injective hrest hrest'
  · next hsub =>
      rw [if_neg hsub] at hrest'
      exact (Option.some.inj hrest).trans (Option.some.inj hrest').symm

/-! ## §2. `updateIndex`. -/

/-- `object.Change`: a name is empty where the change has no such side. -/
structure Change where
  fromName : String
  toName : String
  toBlob : RawFile

inductive UpdateError where
  | read (error : String)
  | nilPolicy
  | index (e : IndexError)
  deriving DecidableEq, Repr

/-- The index and the events that have been sent. -/
structure Progress where
  idx : StorageIndex
  sent : List StoreEvent

/-- `applyIndexUpdate` for a deletion. -/
def applyDelete (s : Progress) (name : String) : Progress :=
  { idx := (s.idx.delete name).2, sent := s.sent ++ [.policy (s.idx.delete name).1] }

/-- `applyIndexUpdate` for an addition or an update. -/
def applyAddOrUpdate (s : Progress) (name : String) (blob : RawFile) :
    Except UpdateError Progress :=
  match blob.read with
  | .error e => .error (.read e)
  | .ok none => .error .nilPolicy
  | .ok (some p) =>
    match s.idx.addOrUpdate name (some p) with
    | (.error e, _) => .error (.index e)
    | (.ok event, idx') => .ok { idx := idx', sent := s.sent ++ [.policy event] }

/-- The first half of the loop of `updateIndex`: what the change takes away. -/
def removeOld (subDir : String) (s : Progress) (c : Change) : Progress :=
  if normalizePath subDir c.fromName ≠ normalizePath subDir c.toName then
    match normalizePath subDir c.fromName with
    | (_, .policy) => applyDelete s c.fromName
    | (fromPath, .schema) => { s with sent := s.sent ++ [.deleteSchema fromPath] }
    | (_, .notIndexed) => s
  else s

/-- The loop of `updateIndex`; an error comes with what was done before it. -/
def processChange (subDir : String) (s : Progress) (c : Change) :
    Except (UpdateError × Progress) Progress :=
  let s := removeOld subDir s c
  match normalizePath subDir c.toName with
  | (_, .policy) =>
    match applyAddOrUpdate s c.toName c.toBlob with
    | .error e => .error (e, s)
    | .ok s' => .ok s'
  | (toPath, .schema) => .ok { s with sent := s.sent ++ [.addOrUpdateSchema toPath] }
  | (_, .notIndexed) => .ok s

/-- The store: the tree of the head of its branch, and the index. -/
structure GitStore where
  head : WorkTree
  idx : StorageIndex

/-- `updateIndex`, with the error it returns and the events it sends.  A pull finds a new tree, or
nothing new. -/
def updateIndex (subDir : String) (s : GitStore) (pulled : Option (WorkTree × List Change)) :
    GitStore × Option UpdateError × List StoreEvent :=
  match pulled with
  | none => (s, none, [])
  | some (tree, changes) =>
    match changes.foldlM (processChange subDir) ⟨s.idx, []⟩ with
    | .ok progress => (⟨tree, progress.idx⟩, none, progress.sent)
    | .error (e, progress) => (⟨tree, progress.idx⟩, some e, progress.sent)

/-! ## §3. Differences. -/

/-- What `DiffContext` promises: a change goes from a file of the old tree that is gone or also
its target to the contents of a file of the new tree, and every difference is in the list. -/
structure IsDiff (prev cur : WorkTree) (changes : List Change) : Prop where
  gone : ∀ c ∈ changes, c.fromName ≠ c.toName → cur.lookup c.fromName = none
  target : ∀ c ∈ changes, c.toName ≠ "" → cur.lookup c.toName = some c.toBlob
  removals : ∀ path, prev.lookup path ≠ none → cur.lookup path = none →
    ∃ c ∈ changes, c.fromName = path
  contents : ∀ path blob, cur.lookup path = some blob → prev.lookup path ≠ some blob →
    ∃ c ∈ changes, c.toName = path

section Step

variable (subDir : String)

/-- **What the order has to be like.**  Each file that is added or changed holds a policy that is
not disabled, and every other file that had this policy in the old tree is the source of the same
change or comes in an earlier one. -/
def Orderly (prev : WorkTree) : List String → List Change → Prop
  | _, [] => True
  | done, c :: changes =>
    (isPolicy subDir c.toName = true → ∃ p, c.toBlob.enabled = some p ∧
      ∀ other q, prev.policyAt (isPolicy subDir) other = some q → q.fqn = p.fqn →
        other = c.toName ∨ other = c.fromName ∨ other ∈ done) ∧
    Orderly prev (c.fromName :: c.toName :: done) changes

variable {prev cur : WorkTree} {subDir}

/-- What the index has when the files of `done` have been dealt with. -/
def midway (subDir : String) (prev cur : WorkTree) (done : List String) :
    String → Option Source.Policy :=
  fun file =>
    if file ∈ done then cur.policyAt (isPolicy subDir) file
    else prev.policyAt (isPolicy subDir) file

/-- The files of a change, apart from its target, have their new state once the old one is
removed. -/
@[simp] def removed (subDir : String) (held : String → Option Source.Policy) (c : Change) :
    String → Option Source.Policy :=
  fun file =>
    if file = c.fromName ∧ c.fromName ≠ c.toName ∧ isPolicy subDir c.fromName = true then none
    else held file

theorem tracks_removeOld {held : String → Option Source.Policy} {s : Progress}
    (h : Tracks held s.idx) (c : Change) :
    Tracks (removed subDir held c) (removeOld subDir s c).idx := by
  by_cases hpolicy : isPolicy subDir c.fromName = true
  · by_cases hsame : c.fromName = c.toName
    · unfold removeOld
      rw [hsame, if_neg (fun hne => hne rfl)]
      exact h.congr (fun file => by simp [hsame])
    · have hne : normalizePath subDir c.fromName ≠ normalizePath subDir c.toName :=
        fun heq => hsame (normalizePath_injective hpolicy heq)
      obtain ⟨path', -, hnorm⟩ := normalizePath_of_isPolicy hpolicy
      unfold removeOld
      rw [if_pos hne, hnorm]
      refine (h.remove c.fromName).congr (fun file => ?_)
      by_cases hfile : file = c.fromName <;> simp [hfile, hsame, hpolicy]
  · -- what is not a policy is not in the index
    have hidx : (removeOld subDir s c).idx = s.idx := by
      unfold removeOld
      split
      · split
        · next hnorm => simp [isPolicy, hnorm] at hpolicy
        · rfl
        · rfl
      · rfl
    rw [hidx]
    exact h.congr (fun file => by simp [hpolicy])

variable {changes : List Change} {c : Change} {s : Progress} {done : List String}

variable (hdiff : IsDiff prev cur changes) (hc : c ∈ changes)

include hdiff hc

/-- The source of a change that is not its target is not there any more. -/
theorem IsDiff.policyAt_from (hne : c.fromName ≠ c.toName) :
    cur.policyAt (isPolicy subDir) c.fromName = none := by
  unfold WorkTree.policyAt
  rw [hdiff.gone c hc hne, Option.bind_none, ite_self]

theorem IsDiff.policyAt_to (hpolicy : isPolicy subDir c.toName = true) :
    cur.policyAt (isPolicy subDir) c.toName = c.toBlob.enabled := by
  have hne : c.toName ≠ "" := by
    intro hempty
    rw [hempty] at hpolicy
    cases hpolicy
  exact policyAt_of_lookup hpolicy (hdiff.target c hc hne)

/-- Once the old side of a change is removed, all files but the target are as they are after the
change. -/
theorem midway_cons (done : List String)
    (file : String) : midway subDir prev cur (c.fromName :: c.toName :: done) file =
      if file = c.toName then cur.policyAt (isPolicy subDir) c.toName
      else removed subDir (midway subDir prev cur done) c file := by
  have hnew := @IsDiff.policyAt_from subDir _ _ _ _ hdiff hc
  by_cases hpolicy : isPolicy subDir c.fromName = true
  · grind [removed, midway]
  · have hnone := fun tree => @policyAt_of_not_isPolicy _ tree _ hpolicy
    grind [removed, midway]

/-! ## §4. One change, and all of them. -/

/-- No other file has the policy of the target, once the old side of the change is removed: which
is what the order has to be like. -/
theorem free_iff (hvalid : cur.Valid (isPolicy subDir))
    (hpolicy : isPolicy subDir c.toName = true) {p : Source.Policy}
    (hp : c.toBlob.enabled = some p) (done : List String) :
    (∀ other q, removed subDir (midway subDir prev cur done) c other = some q → q.fqn = p.fqn →
        other = c.toName) ↔
      ∀ other q, prev.policyAt (isPolicy subDir) other = some q → q.fqn = p.fqn →
        other = c.toName ∨ other = c.fromName ∨ other ∈ done := by
  have hto := (hdiff.policyAt_to hc hpolicy).trans hp
  constructor
  · intro hfree other q hq hid
    by_contra hnot
    rw [not_or, not_or] at hnot
    refine hnot.1 (hfree other q ?_ hid)
    unfold removed
    rw [if_neg (fun hboth => hnot.2.1 hboth.1), midway, if_neg hnot.2.2]
    exact hq
  · intro horder other q hq hid
    by_contra hne
    have hafter := @midway_cons subDir _ _ _ _ hdiff hc done other
    rw [if_neg hne, hq, midway] at hafter
    split at hafter
    · exact hne (hvalid.distinct _ _ _ _ hafter hto hid)
    · have := horder other q hafter hid
      simp_all

/-- **One change of the list**, when its target holds a policy that is not disabled.  It goes
through if no other file has the policy, else it fails with its old side removed. -/
theorem processChange_cases (h : Tracks (midway subDir prev cur done) s.idx)
    (henabled : isPolicy subDir c.toName = true → ∃ p, c.toBlob.enabled = some p) :
    ((isPolicy subDir c.toName = true → ∃ p, c.toBlob.enabled = some p ∧
          ∀ other q, removed subDir (midway subDir prev cur done) c other = some q →
            q.fqn = p.fqn → other = c.toName) ∧ ∃ s', processChange subDir s c = .ok s' ∧
          Tracks (midway subDir prev cur (c.fromName :: c.toName :: done)) s'.idx) ∨
      ∃ p other q e, isPolicy subDir c.toName = true ∧ c.toBlob.enabled = some p ∧
        removed subDir (midway subDir prev cur done) c other = some q ∧ q.fqn = p.fqn ∧
        other ≠ c.toName ∧ processChange subDir s c = .error (e, removeOld subDir s c) := by
  have hremoved := @tracks_removeOld subDir _ _ h c
  by_cases hpolicy : isPolicy subDir c.toName = true
  · obtain ⟨p, hp⟩ := henabled hpolicy
    obtain ⟨path', -, hnorm⟩ := normalizePath_of_isPolicy hpolicy
    by_cases hfree : ∀ other q, removed subDir (midway subDir prev cur done) c other = some q →
        q.fqn = p.fqn → other = c.toName
    · obtain ⟨event, idx', hok, htracks⟩ := hremoved.put hfree
      refine .inl ⟨fun _ => ⟨p, hp, hfree⟩, ⟨idx', (removeOld subDir s c).sent ++ [.policy event]⟩,
        ?_, htracks.congr (fun file => ?_)⟩
      · simp only [processChange, applyAddOrUpdate, hnorm, RawFile.read_of_enabled hp, hok]
      · rw [midway_cons hdiff hc, Function.update_apply, hdiff.policyAt_to hc hpolicy, hp]
    · push Not at hfree
      obtain ⟨other, q, hq, hid, hne⟩ := hfree
      refine .inr ⟨p, other, q, .index (.duplicatePolicy other), hpolicy, hp, hq, hid, hne, ?_⟩
      simp only [processChange, applyAddOrUpdate, hnorm, RawFile.read_of_enabled hp,
        hremoved.put_refused hq hid hne]
  · -- a target that is not a policy leaves the index alone
    refine .inl ⟨fun hyes => (hpolicy hyes).elim, ?_⟩
    have hok : ∃ s', processChange subDir s c = .ok s' ∧ s'.idx = (removeOld subDir s c).idx := by
      unfold processChange
      split
      · next hnorm => simp [isPolicy, hnorm] at hpolicy
      · exact ⟨_, rfl, rfl⟩
      · exact ⟨_, rfl, rfl⟩
    obtain ⟨s', hok, hidx⟩ := hok
    refine ⟨s', hok, ?_⟩
    rw [hidx]
    refine hremoved.congr (fun file => ?_)
    rw [midway_cons hdiff hc, policyAt_of_not_isPolicy hpolicy]
    split
    next hfile => simp [hfile, midway, policyAt_of_not_isPolicy hpolicy]
    · rfl

omit hdiff hc

/-- The files that have been dealt with after some changes. -/
def dealtWith (done : List String) (changes : List Change) : List String :=
  changes.foldl (fun done c => c.fromName :: c.toName :: done) done

theorem mem_dealtWith (file : String) : file ∈ dealtWith done changes ↔
      file ∈ done ∨ ∃ c ∈ changes, file = c.fromName ∨ file = c.toName := by
  induction changes generalizing done with
  | nil => simp [dealtWith]
  | cons c changes ih =>
    rw [show dealtWith done _ = dealtWith (c.fromName :: c.toName :: done) changes
      from rfl, ih, mem_cons, mem_cons, exists_mem_cons_iff, ← or_assoc, ← or_assoc,
      or_comm (b := file ∈ done)]

/-- **All changes, in order**: the index follows the files that have been dealt with. -/
theorem tracks_changes (hdiff : IsDiff prev cur changes) (hvalid : cur.Valid (isPolicy subDir))
    (todo : List Change) (hmem : ∀ c ∈ todo, c ∈ changes) (horderly : Orderly subDir prev done todo)
    (h : Tracks (midway subDir prev cur done) s.idx) :
    ∃ s', todo.foldlM (processChange subDir) s = .ok s' ∧
      Tracks (midway subDir prev cur (dealtWith done todo)) s'.idx := by
  induction todo generalizing done s with
  | nil => exact ⟨s, rfl, h⟩
  | cons c _ ih =>
    have hc := hmem c mem_cons_self
    rcases processChange_cases hdiff hc h (fun hpolicy =>
        (horderly.1 hpolicy).imp (fun p hp => hp.1)) with
      ⟨-, s', hok, htracks⟩ | ⟨p, other, q, e, hpolicy, hp, hq, hid, hne, -⟩
    · rw [foldlM_cons, hok]
      exact ih (fun c' hc' => hmem c' (mem_cons_of_mem _ hc')) horderly.2 htracks
    · obtain ⟨p', hp', horder⟩ := horderly.1 hpolicy
      obtain rfl := Option.some.inj (hp.symm.trans hp')
      exact (hne ((free_iff hdiff hc hvalid hpolicy hp done).mpr horder other q hq hid)).elim

/-- When all changes are dealt with, all files are as in the new tree. -/
theorem IsDiff.midway_eq (hdiff : IsDiff prev cur changes) (file : String) :
    midway subDir prev cur (dealtWith [] changes) file = cur.policyAt (isPolicy subDir) file := by
  unfold midway
  split
  · rfl
  · next hnot =>
      rw [mem_dealtWith, not_or] at hnot
      have hsame : prev.lookup file = cur.lookup file := by
        by_contra hdiffers
        cases hcur : cur.lookup file with
        | none =>
          obtain ⟨c, hc, hfrom⟩ := hdiff.removals file (hcur ▸ hdiffers) hcur
          exact hnot.2 ⟨c, hc, .inl hfrom.symm⟩
        | some blob =>
          obtain ⟨c, hc, hto⟩ := hdiff.contents file blob hcur (hcur ▸ hdiffers)
          exact hnot.2 ⟨c, hc, .inr hto.symm⟩
      unfold WorkTree.policyAt
      rw [hsame]

theorem midway_nil (file : String) :
    prev.policyAt (isPolicy subDir) file = midway subDir prev cur [] file :=
  (if_neg not_mem_nil).symm

/-- **An update whose changes come in order** makes the index one of the new tree. -/
theorem tracks_updateIndex {s : GitStore}
    (hdiff : IsDiff s.head cur changes) (hvalid : cur.Valid (isPolicy subDir))
    (horderly : Orderly subDir s.head [] changes)
    (h : Tracks (s.head.policyAt (isPolicy subDir)) s.idx) :
    (updateIndex subDir s (some (cur, changes))).2.1 = none ∧
      (updateIndex subDir s (some (cur, changes))).1.head = cur ∧
      Tracks (cur.policyAt (isPolicy subDir)) (updateIndex subDir s (some (cur, changes))).1.idx := by
  obtain ⟨s', hok, htracks⟩ := @tracks_changes _ _ _ _ ⟨s.idx, []⟩ [] hdiff hvalid
    changes (fun _ hc => hc) horderly (h.congr midway_nil)
  simp only [updateIndex, hok]
  exact ⟨trivial, trivial, htracks.congr hdiff.midway_eq⟩

/-- **If the index follows after the update, the changes came in order**, provided that their
targets hold policies that are not disabled. -/
theorem orderly_of_follows (hdiff : IsDiff prev cur changes) (hvalid : cur.Valid (isPolicy subDir))
    (henabled : ∀ c ∈ changes, isPolicy subDir c.toName = true → ∃ p, c.toBlob.enabled = some p)
    (todo : List Change) (hmem : ∀ c ∈ todo, c ∈ changes)
    (h : Tracks (midway subDir prev cur done) s.idx)
    (hfollows : ∀ e s', todo.foldlM (processChange subDir) s = .error (e, s') →
      Follows (cur.policyAt (isPolicy subDir)) s'.idx) : Orderly subDir prev done todo := by
  induction todo generalizing done s with
  | nil => trivial
  | cons c _ ih =>
    have hc := hmem c mem_cons_self
    rcases processChange_cases hdiff hc h (henabled c hc) with
      ⟨hfree, s', hok, htracks⟩ | ⟨p, other, q, e, hpolicy, hp, hq, hid, hne, herror⟩
    · refine ⟨fun hpolicy => ?_, ih (fun c' hc' => hmem c' (mem_cons_of_mem _ hc'))
        htracks ?_⟩
      · obtain ⟨p, hp, hother⟩ := hfree hpolicy
        exact ⟨p, hp, (free_iff hdiff hc hvalid hpolicy hp done).mp hother⟩
      · intro e s₂ hrest
        refine hfollows e s₂ ?_
        rw [foldlM_cons, hok]
        exact hrest
    · -- the update stopped here, and the other file still has the policy
      have hstop := hfollows e (removeOld subDir s c) (by
        rw [foldlM_cons, herror]
        rfl)
      have hother := (@tracks_removeOld subDir _ _ h c).fileToModID_eq other
      rw [hq, hstop.1, Option.map_some, Option.map_eq_some_iff] at hother
      obtain ⟨q', hq', hid'⟩ := hother
      exact (hne (hvalid.distinct _ _ _ _ hq' ((hdiff.policyAt_to hc hpolicy).trans hp)
        (hid'.trans hid))).elim

theorem follows_updateIndex_iff {s : GitStore}
    (hdiff : IsDiff s.head cur changes) (hvalid : cur.Valid (isPolicy subDir))
    (henabled : ∀ c ∈ changes, isPolicy subDir c.toName = true → ∃ p, c.toBlob.enabled = some p)
    (h : Tracks (s.head.policyAt (isPolicy subDir)) s.idx) :
    Follows (cur.policyAt (isPolicy subDir)) (updateIndex subDir s (some (cur, changes))).1.idx ↔
      Orderly subDir s.head [] changes := by
  constructor
  · intro hfollows
    refine @orderly_of_follows _ _ _ _ ⟨s.idx, []⟩ [] hdiff hvalid henabled changes
      (fun _ hc => hc) (h.congr midway_nil) (fun e s' herror => ?_)
    simpa only [updateIndex, herror] using hfollows
  · intro horderly
    exact (tracks_updateIndex hdiff hvalid horderly h).2.2.follows

end Step

/-! ## §5. Any number of pulls. -/

section Runs

variable (subDir : String)

/-- What pulls can find: nothing new, or a valid tree and its differences from the last one. -/
def Pulls : WorkTree → List (Option (WorkTree × List Change)) → Prop
  | _, [] => True
  | prev, none :: pulls => Pulls prev pulls
  | prev, some (cur, changes) :: pulls =>
    cur.Valid (isPolicy subDir) ∧ IsDiff prev cur changes ∧ Pulls cur pulls

/-- All differences come in order. -/
def OrderlyPulls : WorkTree → List (Option (WorkTree × List Change)) → Prop
  | _, [] => True
  | prev, none :: pulls => OrderlyPulls prev pulls
  | prev, some (cur, changes) :: pulls =>
    Orderly subDir prev [] changes ∧ OrderlyPulls cur pulls

/-- The tree of the last pull. -/
def latest (tree : WorkTree) (pulls : List (Option (WorkTree × List Change))) : WorkTree :=
  pulls.foldl (fun tree pulled => (pulled.map Prod.fst).getD tree) tree

def runUpdates (s : GitStore) (pulls : List (Option (WorkTree × List Change))) : GitStore :=
  pulls.foldl (fun s pulled => (updateIndex subDir s pulled).1) s

variable {subDir}

theorem head_updateIndex (s : GitStore) (pulled : Option (WorkTree × List Change)) :
    (updateIndex subDir s pulled).1.head = (pulled.map Prod.fst).getD s.head := by
  cases pulled with
  | none => rfl
  | some =>
    unfold updateIndex
    dsimp only
    split <;> rfl

variable (pulls : List (Option (WorkTree × List Change))) (s : GitStore)

theorem head_runUpdates : (runUpdates subDir s pulls).head = latest s.head pulls := by
  induction pulls generalizing s with
  | nil => rfl
  | cons pulled _ ih =>
    refine (ih (updateIndex subDir s pulled).1).trans ?_
    rw [head_updateIndex]
    rfl

/-- The run, by induction on the pulls; the head is the tree that the next one is compared to. -/
theorem tracks_runUpdates (h : Tracks (s.head.policyAt (isPolicy subDir)) s.idx)
    (hpulls : Pulls subDir s.head pulls) (horderly : OrderlyPulls subDir s.head pulls) :
    Tracks ((runUpdates subDir s pulls).head.policyAt (isPolicy subDir))
      (runUpdates subDir s pulls).idx := by
  induction pulls generalizing s with
  | nil => exact h
  | cons pulled _ ih =>
    cases pulled with
    | none => exact ih s h hpulls horderly
    | some =>
      obtain ⟨-, hhead, htracks⟩ := tracks_updateIndex hpulls.2.1 hpulls.1 horderly.1 h
      refine ih (updateIndex subDir s _).1 ?_ ?_ ?_ <;> rw [hhead]
      exacts [htracks, hpulls.2.2, horderly.2]

end Runs

/-- **When the index of the git store follows the repository.**  After a load and any pulls whose
differences come in order, the index maps exactly the policy files of the latest tree to their
policies.  From there the next pull, if its changed files hold policies that are not disabled, is
followed if and only if its differences come in order. -/
theorem index_follows_repository {x : Externals} {subDir : String} {tree : WorkTree}
    {idx : StorageIndex} {pulls : List (Option (WorkTree × List Change))}
    (hbuilt : build x (tree.directory (isPolicy subDir)) = .ok idx)
    (hpulls : Pulls subDir tree pulls) (horderly : OrderlyPulls subDir tree pulls) :
    (runUpdates subDir ⟨tree, idx⟩ pulls).head = latest tree pulls ∧
      Follows ((latest tree pulls).policyAt (isPolicy subDir))
        (runUpdates subDir ⟨tree, idx⟩ pulls).idx ∧
      ∀ cur changes, cur.Valid (isPolicy subDir) → IsDiff (latest tree pulls) cur changes →
        (∀ c ∈ changes, isPolicy subDir c.toName = true → ∃ p, c.toBlob.enabled = some p) →
        (Follows (cur.policyAt (isPolicy subDir)) (updateIndex subDir
            (runUpdates subDir ⟨tree, idx⟩ pulls) (some (cur, changes))).1.idx ↔
          Orderly subDir (latest tree pulls) [] changes) := by
  have hhead := @head_runUpdates subDir pulls ⟨tree, idx⟩
  have htracks := @tracks_runUpdates subDir pulls ⟨tree, idx⟩
    (Tracks.of_reached (.built hbuilt) (tree.lookup_policiesIn_directory _)) hpulls horderly
  refine ⟨hhead, ?_, ?_⟩
  · have hfollows := htracks.follows
    rw [hhead] at hfollows
    exact hfollows
  · intro cur changes hvalid hdiff henabled
    have hiff := @follows_updateIndex_iff subDir cur changes (runUpdates subDir ⟨tree, idx⟩ pulls)
      (by rw [hhead]; exact hdiff) hvalid henabled htracks
    rw [hhead] at hiff
    exact hiff

/-! ## §6. Two commits. -/

/-- A file is renamed; its old name comes first. -/
def renameChanges : List Change :=
  [⟨"a.yaml", "", .empty⟩, ⟨"", "c.yaml", .ofPolicy (scopedDoc "")⟩]

def exchangeChanges : List Change :=
  [⟨"a.yaml", "a.yaml", .ofPolicy limits⟩, ⟨"b.yaml", "b.yaml", .ofPolicy (scopedDoc "")⟩]

theorem isDiff_renamed : IsDiff firstTree renamedTree renameChanges := by
  constructor <;>
    simp [firstTree, renamedTree, renameChanges, Lib.lookup_insert_ite, -insert_empty] <;>
    grind

theorem isDiff_exchanged : IsDiff firstTree exchangedTree exchangeChanges := by
  constructor <;>
    simp [firstTree, exchangedTree, exchangeChanges, -insert_empty] <;>
    grind

theorem renamed_file_indexed :
    ∃ idx, build Externals.sample (firstTree.directory (isPolicy ".")) = .ok idx ∧
      Follows (renamedTree.policyAt (isPolicy "."))
        (runUpdates "." ⟨firstTree, idx⟩ [none, some (renamedTree, renameChanges)]).idx := by
  have hvalid : renamedTree.Valid (isPolicy ".") :=
    WorkTree.valid_of_entries _ _ (by decide +kernel) (by decide +kernel)
  obtain ⟨idx, hbuilt⟩ := Lib.isOk_iff.mp
    (show (build Externals.sample (firstTree.directory (isPolicy "."))).isOk = true by
      decide +kernel)
  refine ⟨idx, hbuilt, (@index_follows_repository _ _ _ _
    [none, some (renamedTree, renameChanges)] hbuilt ⟨hvalid, isDiff_renamed, trivial⟩
    ⟨⟨?_, ?_, trivial⟩, trivial⟩).2.1⟩
  · intro hpolicy
    cases hpolicy
  · intro _
    refine ⟨scopedDoc "", rfl, ?_⟩
    intro other q hq hid
    -- the policy was in the file whose name came first
    refine .inr (.inr (mem_cons.mpr (.inl ?_)))
    unfold WorkTree.policyAt firstTree at hq
    split at hq
    · by_cases hb : other = "b.yaml"
      · rw [hb] at hq
        obtain rfl := Option.some.inj hq
        exact absurd hid (by decide +kernel)
      · rw [lookup_insert_ne hb] at hq
        by_contra ha
        rw [lookup_insert_ne ha] at hq
        cases hq
    · cases hq

/-- Two files change places: the first change is refused, the update ends, and the index stays
as it was. -/
theorem exchanged_files_not_indexed :
    ∃ idx, build Externals.sample (firstTree.directory (isPolicy ".")) = .ok idx ∧
      Pulls "." firstTree [some (exchangedTree, exchangeChanges)] ∧
      (updateIndex "." ⟨firstTree, idx⟩ (some (exchangedTree, exchangeChanges))).2.1 =
        some (.index (.duplicatePolicy "b.yaml")) ∧
      ¬ Follows (exchangedTree.policyAt (isPolicy "."))
        (updateIndex "." ⟨firstTree, idx⟩ (some (exchangedTree, exchangeChanges))).1.idx := by
  have hvalid : exchangedTree.Valid (isPolicy ".") :=
    WorkTree.valid_of_entries _ _ (by decide +kernel) (by decide +kernel)
  obtain ⟨idx, hbuilt, hrun⟩ := Lib.toOption_map_eq_some_iff.mp
    (show (build Externals.sample (firstTree.directory (isPolicy "."))).toOption.map (fun idx =>
      let result := updateIndex "." ⟨firstTree, idx⟩ (some (exchangedTree, exchangeChanges))
      (result.2.1, result.1.idx.fileToModID.lookup "a.yaml")) =
      some (some (.index (.duplicatePolicy "b.yaml")), some (scopedDoc "").fqn) by
    decide +kernel)
  obtain ⟨herror, hlook⟩ := Prod.mk.inj hrun
  refine ⟨idx, hbuilt, ⟨hvalid, isDiff_exchanged, trivial⟩, herror, ?_⟩
  intro hfollows
  have hnow := hfollows.1 "a.yaml"
  rw [hlook] at hnow
  exact absurd hnow (by decide +kernel)

end Git

end AccessManagement.Storage
