/-
  AccessManagement.Storage.DirWatch — THE INDEX OF A WATCHED DIRECTORY (package `storage/disk`).

  The watcher collects the paths that change and, when it has been quiet for a while, brings the
  index up to date in two loops over the collected paths: first what is gone from the directory
  is deleted, then what is there is read and added.  Both loops range over a map, so their orders
  are any.  An update that the index refuses is logged and forgotten.

  `triggerUpdate_follows_iff` says for which changes the index ends up right in every order.  The
  first loop makes room for a file that is renamed; it does not help when the policies of files
  move between files that stay.

  Modelling notes:
    * the time that the watcher waits, its log and its metrics are left out;
    * reading a file without a document ends the process (`policy.Wrap` of no policy).
-/
import AccessManagement.Storage.Sync

namespace AccessManagement.Storage

open List WorkTree

namespace DirWatch

open Paths

/-! ## §1. `triggerUpdate`. -/

/-- A policy file in the directory. -/
def isPolicy (path : String) : Bool := fileType path == .policy

/-- The index, what is left of the batch, and the events that have been sent. -/
structure Progress where
  idx : StorageIndex
  eventBatch : List String
  sent : List StoreEvent

variable (dir : WorkTree)

/-- The body of the first loop. -/
def removeGone (s : Progress) (path : String) : Progress :=
  match dir.lookup path with
  | some _ => s
  | none =>
    match relativeSchemaPath path with
    | some schemaFile =>
      { s with
        eventBatch := s.eventBatch.filter (· ≠ path)
        sent := s.sent ++ [.deleteSchema schemaFile] }
    | none =>
      { idx := (s.idx.delete path).2
        eventBatch := s.eventBatch.filter (· ≠ path)
        sent := s.sent ++ [.policy (s.idx.delete path).1] }

/-- The process ends. -/
inductive Crash where
  | nilPolicy (path : String)
  deriving DecidableEq, Repr

/-- The body of the second loop. -/
def updatePath (s : StorageIndex × List StoreEvent) (path : String) :
    Except Crash (StorageIndex × List StoreEvent) :=
  match relativeSchemaPath path with
  | some schemaFile => .ok (s.1, s.2 ++ [.addOrUpdateSchema schemaFile])
  | none =>
    match dir.lookup path with
    -- the file cannot be opened
    | none => .ok s
    | some raw =>
      match raw.read with
      | .error _ => .ok s
      | .ok none => .error (.nilPolicy path)
      | .ok (some p) =>
        match s.1.addOrUpdate path (some p) with
        | (.error _, _) => .ok s
        | (.ok event, idx') => .ok (idx', s.2 ++ [.policy event])

/-- `triggerUpdate`, for a batch in the order of the first loop and an order for what is left. -/
def triggerUpdate (idx : StorageIndex) (eventBatch : List String)
    (reorder : List String → List String) : Except Crash (StorageIndex × List StoreEvent) :=
  let s := eventBatch.foldl (removeGone dir) ⟨idx, eventBatch, []⟩
  (reorder s.eventBatch).foldlM (updatePath dir) (s.idx, s.sent)

/-! ## §2. The first loop. -/

variable {prev cur tree : WorkTree} {idx : StorageIndex}

/-- A path of the batch is a policy file or a schema, and the code can tell. -/
theorem relativeSchemaPath_eq_none_iff {path : String} (h : fileType path ≠ .notIndexed) :
    relativeSchemaPath path = none ↔ isPolicy path = true := by
  unfold isPolicy
  rw [beq_iff_eq]
  constructor
  · intro hnone
    cases htype : fileType path with
    | notIndexed => exact (h htype).elim
    | policy => rfl
    | schema =>
      obtain ⟨schemaFile, hsome⟩ := relativeSchemaPath_of_schema htype
      rw [hsome] at hnone
      cases hnone
  · exact relativeSchemaPath_eq_none

/-- What the index has of a file after the first loop over some paths. -/
@[simp] def afterRemoval (cur : WorkTree) (held : String → Option Source.Policy) (paths : List String) :
    String → Option Source.Policy :=
  fun file => if file ∈ paths ∧ cur.lookup file = none then none else held file

theorem tracks_removeGone : ∀ (paths : List String) (s : Progress)
    (held : String → Option Source.Policy), Tracks held s.idx →
    (∀ path ∈ paths, relativeSchemaPath path ≠ none → held path = none) →
    Tracks (afterRemoval cur held paths) (paths.foldl (removeGone cur) s).idx := by
  intro paths
  induction paths with
  | nil => exact fun s held h _ => h.congr (fun file => by simp)
  | cons path _ ih =>
    intro s held h hnoSchema
    -- one path: the file is taken out of the index if it is gone
    have hone : Tracks (afterRemoval cur held [path]) (removeGone cur s path).idx := by
      unfold removeGone
      cases hlook : cur.lookup path with
      | some => exact h.congr (fun file => by grind [afterRemoval])
      | none =>
        cases hschema : relativeSchemaPath path with
        | none =>
          exact (h.remove path).congr (fun file => by grind [afterRemoval])
        | some =>
          exact h.congr (fun file => by grind [afterRemoval])
    refine (ih _ _ hone ?_).congr (fun file => by grind [afterRemoval])
    intro path' hpath' hsome
    rw [afterRemoval, hnoSchema path' (mem_cons_of_mem _ hpath') hsome, ite_self]

theorem eventBatch_removeGone (paths : List String) (s : Progress) :
    (paths.foldl (removeGone cur) s).eventBatch =
      s.eventBatch.filter (fun path => !(paths.contains path && (cur.lookup path).isNone)) := by
  induction paths generalizing s with
  | nil => simp
  | cons path _ ih =>
    rw [foldl_cons, ih]
    have hone : (removeGone cur s path).eventBatch =
        s.eventBatch.filter (fun p => !(p == path && (cur.lookup p).isNone)) := by
      unfold removeGone
      cases hlook : cur.lookup path with
      | some => exact (filter_eq_self.mpr (by grind)).symm
      | none => cases relativeSchemaPath path <;> exact filter_congr (by grind)
    rw [hone, filter_filter]
    exact filter_congr (by grind)

/-! ## §3. The second loop. -/

variable {held : String → Option Source.Policy} {sent : List StoreEvent} {path file : String}
  {other : String}

section Step

variable (h : Tracks held idx) {raw : RawFile} (hlook : cur.lookup path = some raw)
  (hpolicy : relativeSchemaPath path = none)

include hlook hpolicy

theorem updatePath_empty (hread : raw.read = .ok none) :
    updatePath cur (idx, sent) path = .error (.nilPolicy path) := by
  simp only [updatePath, hpolicy, hlook, hread]

include h

/-- A file whose policy no other file has is taken in. -/
theorem updatePath_put {p : Source.Policy} (hread : raw.read = .ok (some p))
    (hfree : ∀ other q, held other = some q → q.fqn = p.fqn → other = path) :
    ∃ idx' sent', updatePath cur (idx, sent) path = .ok (idx', sent') ∧
      Tracks (Function.update held path (some p)) idx' := by
  obtain ⟨event, idx', hok, htracks⟩ := h.put hfree
  exact ⟨idx', sent ++ [.policy event], by simp only [updatePath, hpolicy, hlook, hread, hok], htracks⟩

/-- A file whose policy another file has is refused. -/
theorem updatePath_refused {p q : Source.Policy} {other : String}
    (hread : raw.read = .ok (some p)) (hq : held other = some q) (hid : q.fqn = p.fqn)
    (hne : other ≠ path) : updatePath cur (idx, sent) path = .ok (idx, sent) := by
  simp only [updatePath, hpolicy, hlook, hread, h.put_refused hq hid hne]

/-- A file with a policy is taken in or refused. -/
theorem updatePath_cases {p : Source.Policy} (hread : raw.read = .ok (some p))
    {s : StorageIndex × List StoreEvent} (hstep : updatePath cur (idx, sent) path = .ok s) :
    Tracks (Function.update held path (some p)) s.1 ∨
      ∃ other q, held other = some q ∧ q.fqn = p.fqn ∧ other ≠ path ∧ s = (idx, sent) := by
  by_cases hfree : ∀ other q, held other = some q → q.fqn = p.fqn → other = path
  · obtain ⟨idx', sent', hok, htracks⟩ := @updatePath_put _ _ _ sent _ h _ hlook hpolicy _ hread hfree
    obtain rfl := Except.ok.inj (hok.symm.trans hstep)
    exact .inl htracks
  · push Not at hfree
    obtain ⟨other, q, hq, hid, hne⟩ := hfree
    rw [updatePath_refused h hlook hpolicy hread hq hid hne] at hstep
    exact .inr ⟨other, q, hq, hid, hne, (Except.ok.inj hstep).symm⟩

end Step

/-- A step only touches the entry of its own file. -/
theorem fileToModID_updatePath {s s' : StorageIndex × List StoreEvent}
    (hok : updatePath cur s path = .ok s') (hne : other ≠ path) :
    s'.1.fileToModID.lookup other = s.1.fileToModID.lookup other := by
  unfold updatePath at hok
  split at hok
  · cases hok; rfl
  · split at hok
    · cases hok; rfl
    · split at hok
      · cases hok; rfl
      · cases hok
      · next p _ =>
          split at hok
          · cases hok; rfl
          · next event idx' hadd =>
              cases hok
              obtain ⟨-, rfl, -⟩ := StorageIndex.addOrUpdate_ok hadd
              unfold StorageIndex.addFile
              rw [(StorageIndex.addDeps_fields _ _ _).1]
              show (AList.insert path p.fqn (s.1.clearFile path).fileToModID).lookup other = _
              rw [AList.lookup_insert_ne hne]
              unfold StorageIndex.clearFile
              split
              · rfl
              · exact AList.lookup_erase_ne hne

theorem fileToModID_foldlM (paths : List String)
    (s s' : StorageIndex × List StoreEvent) (hnot : other ∉ paths)
    (hok : paths.foldlM (updatePath cur) s = .ok s') :
    s'.1.fileToModID.lookup other = s.1.fileToModID.lookup other := by
  induction paths generalizing s with
  | nil => cases hok; rfl
  | cons _ _ ih =>
    rw [mem_cons, not_or] at hnot
    obtain ⟨s₁, hstep, hrest⟩ := Lib.bind_eq_ok.mp hok
    rw [ih s₁ hnot.2 hrest, fileToModID_updatePath hstep hnot.1]

/-! ## §4. Which changes are followed. -/

/-- What the index has when the second loop starts. -/
def remaining (prev cur : WorkTree) : String → Option Source.Policy :=
  fun file => if cur.lookup file = none then none else prev.policyAt isPolicy file

/-- What is said of a file of the batch: it holds a policy that no other file which is still
there held before; or it holds a disabled policy, was not in the index, and another file holds
the policy before and after. -/
def Settled (prev cur : WorkTree) (path : String) (raw : RawFile) : Prop :=
  (∃ p, raw.enabled = some p ∧ ∀ other q, remaining prev cur other = some q → q.fqn = p.fqn →
      other = path) ∨
    ∃ p, raw.content = .disabled p ∧ prev.policyAt isPolicy path = none ∧
      ∃ other q q', other ≠ path ∧ prev.policyAt isPolicy other = some q ∧ q.fqn = p.fqn ∧
        cur.policyAt isPolicy other = some q' ∧ q'.fqn = p.fqn

/-- What the index has while the second loop runs: the paths that are left are as before. -/
def midway (prev cur : WorkTree) (left : List String) : String → Option Source.Policy :=
  fun file => if file ∈ left then remaining prev cur file else cur.policyAt isPolicy file

theorem remaining_eq_some {p : Source.Policy}
    (h : remaining prev cur file = some p) : prev.policyAt isPolicy file = some p := by
  unfold remaining at h
  split at h
  · cases h
  · exact h

/-- One step of the second loop, for a path that is settled. -/
theorem tracks_step (hvalid : cur.Valid isPolicy) {left : List String} (hnot : path ∉ left)
    (hindexed : fileType path ≠ .notIndexed)
    (hset : isPolicy path = true → ∃ raw, cur.lookup path = some raw ∧ Settled prev cur path raw)
    (h : Tracks (midway prev cur (path :: left)) idx) :
    ∃ s, updatePath cur (idx, sent) path = .ok s ∧ Tracks (midway prev cur left) s.1 := by
  have hmine : midway prev cur (path :: left) path = remaining prev cur path :=
    if_pos mem_cons_self
  -- it is enough that this file has its new policy after the step
  have hnext : ∀ file, midway prev cur left file =
      if file = path then cur.policyAt isPolicy path else midway prev cur (path :: left) file := by
    grind [midway]
  by_cases hpolicy : isPolicy path = true
  · have hschema := (relativeSchemaPath_eq_none_iff hindexed).mpr hpolicy
    obtain ⟨raw, hlook, hcase⟩ := hset hpolicy
    have hnew := policyAt_of_lookup hpolicy hlook
    rcases hcase with ⟨p, hp, hfree⟩ | ⟨p, hp, hprev, other, q, q', hne, hq, hid, hq', hid'⟩
    · -- no other file has the policy now, and none had it before
      obtain ⟨idx', sent', hstep, htracks⟩ :=
        @updatePath_put _ _ _ sent _ h _ hlook hschema _ (RawFile.read_of_enabled hp) (by
          intro other q hq hid
          unfold midway at hq
          split at hq
          · exact hfree other q hq hid
          · exact hvalid.distinct _ _ _ _ hq (hnew.trans hp) hid)
      exact ⟨_, hstep, htracks.congr (fun file => by grind)⟩
    · have hread := RawFile.of_disabled hp
      obtain ⟨-, raw', hraw', -⟩ := lookup_of_policyAt hq'
      obtain ⟨r, hr, hrid⟩ : ∃ r, midway prev cur (path :: left) other = some r ∧ r.fqn = p.fqn := by
        unfold midway remaining
        split
        · exact ⟨q, by simp [hraw', hq], hid⟩
        · exact ⟨q', hq', hid'⟩
      refine ⟨_, updatePath_refused h hlook hschema hread.1 hr hrid hne, h.congr (fun file => ?_)⟩
      have hsame : remaining prev cur path = none := by rw [remaining, hprev, ite_self]
      grind
  · have hschema := mt (relativeSchemaPath_eq_none_iff hindexed).mp hpolicy
    obtain ⟨schemaFile, hsome⟩ := Option.ne_none_iff_exists'.mp hschema
    refine ⟨(idx, sent ++ [.addOrUpdateSchema schemaFile]), by simp [updatePath, hsome],
      h.congr (fun file => ?_)⟩
    grind [remaining, policyAt_of_not_isPolicy]

/-- **The second loop**, when every path that is left is settled. -/
theorem tracks_updatePath (hvalid : cur.Valid isPolicy) (left : List String)
    (s : StorageIndex × List StoreEvent) (hnodup : left.Nodup)
    (hindexed : ∀ path ∈ left, fileType path ≠ .notIndexed)
    (hset : ∀ path ∈ left, isPolicy path = true → ∃ raw, cur.lookup path = some raw ∧
      Settled prev cur path raw) (h : Tracks (midway prev cur left) s.1) :
    ∃ s', left.foldlM (updatePath cur) s = .ok s' ∧ Tracks (cur.policyAt isPolicy) s'.1 := by
  induction left generalizing s with
  | nil => exact ⟨s, rfl, h.congr (fun file => if_neg not_mem_nil)⟩
  | cons _ _ ih =>
    rw [nodup_cons] at hnodup
    rw [forall_mem_cons] at hindexed hset
    obtain ⟨s₁, hstep, htracks⟩ := tracks_step hvalid hnodup.1 hindexed.1 hset.1 h
    rw [foldlM_cons, hstep]
    exact ih s₁ hnodup.2 hindexed.2 hset.2 htracks

/-! ## §5. The whole update. -/

section Update

variable {x : Externals} {files : Files} {batch : List String}

/-- What the watcher knows: the index is one of the files as they were, the files are a valid
set again, and the batch has every policy file that changed. -/
structure Noticed (x : Externals) (files : Files) (idx : StorageIndex) (prev cur : WorkTree)
    (batch : List String) : Prop where
  reached : Reached x files idx
  before : ∀ file, files.lookup file = prev.policyAt isPolicy file
  valid : cur.Valid isPolicy
  nodup : batch.Nodup
  indexed : ∀ path ∈ batch, fileType path ≠ .notIndexed
  changed : ∀ path, isPolicy path = true → path ∉ batch → cur.lookup path = prev.lookup path

/-- The state between the loops. -/
def between (cur : WorkTree) (idx : StorageIndex) (first : List String) : Progress :=
  first.foldl (removeGone cur) ⟨idx, first, []⟩

variable (h : Noticed x files idx prev cur batch)

include h

variable {first : List String} {reorder : List String → List String} {path : String}
  {raw : RawFile} {p : Source.Policy}

theorem Noticed.tracks_between (hperm : first.Perm batch) :
    Tracks (remaining prev cur) (between cur idx first).idx := by
  have hstart : Tracks (prev.policyAt isPolicy) idx := Tracks.of_reached h.reached h.before
  refine (@tracks_removeGone cur first ⟨idx, first, []⟩ _ hstart ?_).congr (fun file => ?_)
  · intro path hpath hschema
    refine policyAt_of_not_isPolicy (fun hpolicy => hschema ?_)
    exact (relativeSchemaPath_eq_none_iff (h.indexed path (hperm.mem_iff.mp hpath))).mpr hpolicy
  · unfold afterRemoval remaining
    -- a file that is not there now and did not change was not there before
    have hprev := h.changed file
    grind [WorkTree.policyAt]

theorem Noticed.mem_left (hperm : first.Perm batch) (hreorder : ∀ paths, (reorder paths).Perm paths) :
    (reorder (between cur idx first).eventBatch).Nodup ∧
      ∀ path, path ∈ reorder (between cur idx first).eventBatch ↔
        path ∈ batch ∧ cur.lookup path ≠ none := by
  have hfilter : (between cur idx first).eventBatch =
      first.filter (fun path => !(first.contains path && (cur.lookup path).isNone)) :=
    eventBatch_removeGone first _
  constructor
  · rw [(hreorder _).nodup_iff, hfilter]
    exact (hperm.nodup_iff.mpr h.nodup).filter _
  · intro path
    rw [(hreorder _).mem_iff, hfilter, mem_filter, hperm.mem_iff]
    refine and_congr_right (fun hin => ?_)
    have hcontains : first.contains path = true :=
      contains_iff_mem.mpr (hperm.mem_iff.mpr hin)
    rw [hcontains, Bool.true_and, Bool.not_eq_true', Option.isNone_eq_false_iff,
      Option.isSome_iff_ne_none]

/-- The second loop starts from what is remaining. -/
theorem Noticed.midway_eq {left : List String}
    (hleft : ∀ path, path ∈ left ↔ path ∈ batch ∧ cur.lookup path ≠ none) (file : String) :
    remaining prev cur file = midway prev cur left file := by
  unfold midway
  split
  · rfl
  · next hnot =>
      have hsame := h.changed file
      grind [remaining, WorkTree.policyAt]

/-- **If every changed file is settled, the index follows**, in every order. -/
theorem Noticed.follows
    (hset : ∀ path ∈ batch, isPolicy path = true → ∀ raw, cur.lookup path = some raw →
      Settled prev cur path raw) (hperm : first.Perm batch)
    (hreorder : ∀ paths, (reorder paths).Perm paths) :
    ∃ idx' sent, triggerUpdate cur idx first reorder = .ok (idx', sent) ∧
      Follows (cur.policyAt isPolicy) idx' := by
  obtain ⟨hnodup, hmem⟩ := h.mem_left hperm hreorder
  obtain ⟨s, hok, htracks⟩ := tracks_updatePath h.valid _
    ((between cur idx first).idx, (between cur idx first).sent) hnodup
    (fun path hpath => h.indexed path ((hmem path).mp hpath).1)
    (fun path hpath hpolicy => by
      obtain ⟨raw, hraw⟩ := Option.ne_none_iff_exists'.mp ((hmem path).mp hpath).2
      exact ⟨raw, hraw, hset path ((hmem path).mp hpath).1 hpolicy raw hraw⟩)
    ((h.tracks_between hperm).congr (h.midway_eq hmem))
  exact ⟨s.1, s.2, hok, htracks.follows⟩

/-- An order for the second loop in which a file comes first. -/
def front (path : String) (paths : List String) : List String :=
  if path ∈ paths then path :: paths.erase path else paths

omit h in
theorem front_perm (path : String) (paths : List String) : (front path paths).Perm paths := by
  unfold front
  split
  · next hin => exact (perm_cons_erase hin).symm
  · exact .refl _

/-- The index follows, in every order of the two loops. -/
def FollowsAlways (cur : WorkTree) (idx : StorageIndex) (batch : List String) : Prop :=
  ∀ first, first.Perm batch → ∀ reorder : List String → List String,
    (∀ paths, (reorder paths).Perm paths) →
    ∃ idx' sent, triggerUpdate cur idx first reorder = .ok (idx', sent) ∧
      Follows (cur.policyAt isPolicy) idx'

/-- The state in which the second loop starts. -/
def started (cur : WorkTree) (idx : StorageIndex) (batch : List String) :
    StorageIndex × List StoreEvent :=
  ((between cur idx batch).idx, (between cur idx batch).sent)

/-- The step succeeds, and leaves the file as it should be. -/
def GoodStep (cur : WorkTree) (path : String) (s s' : StorageIndex × List StoreEvent) : Prop :=
  updatePath cur s path = .ok s' ∧
    s'.1.fileToModID.lookup path = (cur.policyAt isPolicy path).map (fun p => p.fqn)

/-- Every step is good if the index follows in the end: no later step touches the file. -/
theorem Noticed.goodStep (hall : FollowsAlways cur idx batch)
    (hreorder : ∀ paths, (reorder paths).Perm paths) {pre rest : List String}
    (horder : reorder (between cur idx batch).eventBatch = pre ++ path :: rest) :
    ∃ s s', pre.foldlM (updatePath cur) (started cur idx batch) = .ok s ∧ GoodStep cur path s s' := by
  obtain ⟨idx', sent, hrun, hfollows⟩ := hall batch (.refl batch) reorder hreorder
  have hnodup := (h.mem_left (.refl batch) hreorder).1
  rw [horder] at hnodup
  replace hrun : (reorder (between cur idx batch).eventBatch).foldlM (updatePath cur)
    (started cur idx batch) = .ok (idx', sent) := hrun
  rw [horder, foldlM_append] at hrun
  obtain ⟨s, hpre, hrun⟩ := Lib.bind_eq_ok.mp hrun
  obtain ⟨s', hstep, hrest⟩ := Lib.bind_eq_ok.mp hrun
  refine ⟨s, s', hpre, hstep, ?_⟩
  rw [← fileToModID_foldlM rest s' _ (nodup_cons.mp (nodup_append.mp hnodup).2.1).1 hrest, hfollows.1]

theorem Noticed.mem_eventBatch (hpath : path ∈ batch) (hraw : cur.lookup path = some raw) :
    path ∈ (between cur idx batch).eventBatch :=
  ((h.mem_left (.refl batch) (fun paths => .refl paths)).2 path).mpr ⟨hpath, by simp [hraw]⟩

/-- A file of the batch that is there can be the first of the second loop. -/
theorem Noticed.first_of_front (hall : FollowsAlways cur idx batch)
    (hpath : path ∈ batch) (hraw : cur.lookup path = some raw) :
    ∃ s, GoodStep cur path (started cur idx batch) s := by
  obtain ⟨s, s', hpre, hgood⟩ := @Noticed.goodStep _ _ _ _ _ _ h _ path hall
    (front_perm path) [] _ (if_pos (h.mem_eventBatch hpath hraw))
  cases hpre
  exact ⟨s', hgood⟩

theorem Noticed.schema_eq_none (hpath : path ∈ batch) (hpolicy : isPolicy path = true) :
    relativeSchemaPath path = none :=
  (relativeSchemaPath_eq_none_iff (h.indexed path hpath)).mpr hpolicy

/-- **A file with a policy is settled if the index follows in every order**: were its policy with
another file that is still there, the update would be refused when it comes first. -/
theorem Noticed.settled_of_enabled (hall : FollowsAlways cur idx batch)
    (hpath : path ∈ batch) (hpolicy : isPolicy path = true)
    (hraw : cur.lookup path = some raw) (hp : raw.enabled = some p) :
    ∀ other q, remaining prev cur other = some q → q.fqn = p.fqn → other = path := by
  have htracks := h.tracks_between (.refl batch)
  obtain ⟨s, hstep, hlook⟩ := h.first_of_front hall hpath hraw
  intro other q hq hid
  by_contra hne
  -- the index was not touched, so the file had this policy already, like the other one
  obtain rfl := Except.ok.inj ((updatePath_refused htracks hraw (h.schema_eq_none hpath hpolicy)
    (RawFile.read_of_enabled hp) hq hid hne).symm.trans hstep)
  rw [htracks.fileToModID_eq, policyAt_of_lookup hpolicy hraw, hp] at hlook
  obtain ⟨r, hr, hrid⟩ := Option.map_eq_some_iff.mp hlook
  exact hne (htracks.distinct hq hr (hid.trans hrid.symm))

/-- Two files of the batch that are there can be the first two of the second loop. -/
theorem Noticed.two_steps (hall : FollowsAlways cur idx batch) {other : String} {raw' : RawFile}
    (hne : other ≠ path) (hother : other ∈ batch) (hraw' : cur.lookup other = some raw')
    (hpath : path ∈ batch) (hraw : cur.lookup path = some raw) :
    ∃ s₁ s₂, GoodStep cur other (started cur idx batch) s₁ ∧ GoodStep cur path s₁ s₂ := by
  have hperm : ∀ paths, (front other (front path paths)).Perm paths := fun paths =>
    (front_perm other _).trans (front_perm path paths)
  have horder : front other (front path (between cur idx batch).eventBatch) =
      other :: path :: ((between cur idx batch).eventBatch.erase path).erase other := by
    have hin := (mem_erase_of_ne hne).mpr (h.mem_eventBatch hother hraw')
    rw [front, front, if_pos (h.mem_eventBatch hpath hraw), if_pos (mem_cons_of_mem _ hin),
      erase_cons_tail (by simpa using Ne.symm hne)]
  obtain ⟨s, s₁, hpre, hgood₁⟩ := @Noticed.goodStep _ _ _ _ _ _ h _ other hall hperm [] _ horder
  obtain ⟨s', s₂, hpre', hgood₂⟩ := @Noticed.goodStep _ _ _ _ _ _ h _ path hall hperm [other] _ horder
  cases hpre
  rw [foldlM_cons, hgood₁.1] at hpre'
  cases hpre'
  exact ⟨s₁, s₂, hgood₁, hgood₂⟩

omit h in
/-- A disabled policy that is not in the index after the step was refused. -/
theorem refused_of_disabled (hraw : cur.lookup path = some raw)
    (hschema : relativeSchemaPath path = none) (hp : raw.content = .disabled p) {idx' : StorageIndex}
    {s : StorageIndex × List StoreEvent} (htracks : Tracks held idx')
    (hstep : updatePath cur (idx', sent) path = .ok s)
    (hlook : s.1.fileToModID.lookup path = none) :
    ∃ other q, held other = some q ∧ q.fqn = p.fqn ∧ other ≠ path ∧ s = (idx', sent) := by
  refine (updatePath_cases htracks hraw hschema (RawFile.of_disabled hp).1 hstep).resolve_left ?_
  intro hin
  rw [hin.fileToModID_eq, Function.update_self] at hlook
  cases hlook

/-- **A file with a disabled policy is settled if the index follows in every order.**  It must be
refused, and still be refused after the file that has its policy has been updated. -/
theorem Noticed.settled_of_disabled (hall : FollowsAlways cur idx batch)
    (hpath : path ∈ batch) (hpolicy : isPolicy path = true)
    (hraw : cur.lookup path = some raw) (hp : raw.content = .disabled p) :
    prev.policyAt isPolicy path = none ∧
      ∃ other q q', other ≠ path ∧ prev.policyAt isPolicy other = some q ∧ q.fqn = p.fqn ∧
        cur.policyAt isPolicy other = some q' ∧ q'.fqn = p.fqn := by
  have htracks := h.tracks_between (.refl batch)
  have hschema := h.schema_eq_none hpath hpolicy
  have hafter : cur.policyAt isPolicy path = none :=
    (policyAt_of_lookup hpolicy hraw).trans (RawFile.of_disabled hp).2
  obtain ⟨s, hstep, hlook⟩ := h.first_of_front hall hpath hraw
  rw [hafter] at hlook
  obtain ⟨other, q, hq, hid, hne, rfl⟩ :=
    refused_of_disabled hraw hschema hp htracks hstep hlook
  refine ⟨?_, ?_⟩
  · rw [htracks.fileToModID_eq, Option.map_none, Option.map_eq_none_iff, remaining, hraw] at hlook
    exact hlook
  by_contra hnot
  -- the other file gives the policy up, so it is in the batch
  have hother : prev.policyAt isPolicy other = some q := remaining_eq_some hq
  have hpolOther := (lookup_of_policyAt hother).1
  have hlost : (cur.policyAt isPolicy other).map (fun p => p.fqn) ≠ some p.fqn := by
    intro heq
    obtain ⟨q', hq', hid'⟩ := Option.map_eq_some_iff.mp heq
    exact hnot ⟨other, q, q', hne, hother, hid, hq', hid'⟩
  obtain ⟨rawOther, hrawOther⟩ : ∃ raw, cur.lookup other = some raw := by
    refine Option.ne_none_iff_exists'.mp (fun hgone => ?_)
    rw [remaining, if_pos hgone] at hq
    cases hq
  have hchanged : other ∈ batch := by
    by_contra hnotin
    have hsame := h.changed other hpolOther hnotin
    apply hlost
    unfold WorkTree.policyAt at hother ⊢
    rw [hsame, hother, Option.map_some, hid]
  -- when it is updated first, nothing refuses this file
  obtain ⟨s₁, s₂, ⟨hstep₁, hlook₁⟩, hstep₂, hlook₂⟩ :=
    h.two_steps hall hne hchanged hrawOther hpath hraw
  rw [hafter] at hlook₂
  have hschemaOther := h.schema_eq_none hchanged hpolOther
  rcases RawFile.cases_of_loads (h.valid.loads other rawOther hpolOther hrawOther) with
    ⟨hread, -⟩ | ⟨p₂, hread, -⟩
  · cases (updatePath_empty hrawOther hschemaOther hread).symm.trans hstep₁
  rcases updatePath_cases htracks hrawOther hschemaOther hread hstep₁ with
    htracks₂ | ⟨file, r, hr, hrid, hfile, rfl⟩
  · obtain ⟨holder, r, hr, hrid, -, -⟩ :=
      refused_of_disabled hraw hschema hp htracks₂ hstep₂ hlook₂
    by_cases hholder : holder = other
    · subst hholder
      rw [Function.update_self] at hr
      obtain rfl := Option.some.inj hr
      rw [htracks₂.fileToModID_eq, Function.update_self, Option.map_some, hrid] at hlook₁
      exact hlost hlook₁.symm
    · rw [Function.update_of_ne hholder] at hr
      exact hholder (htracks.distinct hr hq (hrid.trans hid.symm))
  · rw [htracks.fileToModID_eq, hq, Option.map_some, hid] at hlook₁
    exact hlost hlook₁.symm

/-- **Which changes the index of a watched directory follows.**  The index maps exactly the files
of the directory to their policies after `triggerUpdate`, in every order of its loops, if and only
if every file of the batch that is there holds a policy that no other file which is still there
held before, or a disabled policy which another file holds throughout. -/
theorem triggerUpdate_follows_iff : FollowsAlways cur idx batch ↔
      ∀ path ∈ batch, isPolicy path = true → ∀ raw, cur.lookup path = some raw →
        Settled prev cur path raw := by
  constructor
  · intro hall path hpath hpolicy raw hraw
    rcases RawFile.cases_of_loads (h.valid.loads path raw hpolicy hraw) with
      ⟨hread, -⟩ | ⟨p, -, hp | ⟨hp, -⟩⟩
    · -- a file without a document ends the process
      obtain ⟨s, hstep, -⟩ := h.first_of_front hall hpath hraw
      cases (updatePath_empty hraw (h.schema_eq_none hpath hpolicy) hread).symm.trans hstep
    · exact .inl ⟨p, hp, h.settled_of_enabled hall hpath hpolicy hraw hp⟩
    · exact .inr ⟨p, hp, h.settled_of_disabled hall hpath hpolicy hraw hp⟩
  · intro hset first hperm reorder hreorder
    exact h.follows hset hperm hreorder

end Update

/-! ## §6. Two directories. -/

theorem noticed_of_built {batch : List String}
    (hbuilt : build Externals.sample (prev.directory isPolicy) = .ok idx)
    (hvalid : cur.Valid isPolicy) (hnodup : batch.Nodup)
    (hindexed : ∀ path ∈ batch, fileType path ≠ .notIndexed)
    (hkeys : ∀ path, path ∉ batch → cur.lookup path = prev.lookup path) :
    Noticed Externals.sample (policiesIn (prev.directory isPolicy)) idx prev cur batch where
  reached := .built hbuilt
  before := prev.lookup_policiesIn_directory isPolicy
  valid := hvalid
  nodup := hnodup
  indexed := hindexed
  changed := fun path _ hnot => hkeys path hnot

theorem renamed_file_followed :
    ∃ idx, build Externals.sample (firstTree.directory isPolicy) = .ok idx ∧
      FollowsAlways renamedTree idx ["a.yaml", "c.yaml"] := by
  have hok : (build Externals.sample (firstTree.directory isPolicy)).isOk = true := by
    decide +kernel
  obtain ⟨idx, hbuilt⟩ := Lib.isOk_iff.mp hok
  have hvalid : renamedTree.Valid isPolicy :=
    WorkTree.valid_of_entries _ _ (by decide +kernel) (by decide +kernel)
  have hkeys : ∀ path, path ∉ ["a.yaml", "c.yaml"] →
      renamedTree.lookup path = firstTree.lookup path := by
    simp only [renamedTree, firstTree]
    grind
  refine ⟨idx, hbuilt, (triggerUpdate_follows_iff (noticed_of_built hbuilt hvalid (by decide)
    (by decide +kernel) hkeys)).mpr ?_⟩
  intro path hpath hpolicy raw hraw
  obtain ⟨rfl, rfl⟩ : path = "c.yaml" ∧ raw = .ofPolicy (scopedDoc "") := by
    simp only [renamedTree, Lib.lookup_insert_ite, AList.lookup_empty] at hraw
    grind
  refine .inl ⟨scopedDoc "", rfl, ?_⟩
  intro other q hq hid
  obtain ⟨-, raw, hraw, henabled⟩ := lookup_of_policyAt (remaining_eq_some hq)
  have hentry := AList.mem_lookup_iff.mp hraw
  rcases mem_pair.mp hentry with heq | heq
  · cases heq
    obtain rfl := Option.some.inj henabled
    exact absurd hid (by decide +kernel)
  · cases heq
    -- this file is gone
    cases hq

/-- Two files change places: both updates are refused, and the index stays as it was. -/
theorem exchanged_files_not_followed :
    ∃ idx idx' sent, build Externals.sample (firstTree.directory isPolicy) = .ok idx ∧
      Noticed Externals.sample (policiesIn (firstTree.directory isPolicy)) idx firstTree
        exchangedTree ["a.yaml", "b.yaml"] ∧
      triggerUpdate exchangedTree idx ["a.yaml", "b.yaml"] (fun paths => paths) = .ok (idx', sent) ∧
      idx'.fileToModID.lookup "a.yaml" = some (scopedDoc "").fqn ∧
      ¬ Follows (exchangedTree.policyAt isPolicy) idx' := by
  have hvalid : exchangedTree.Valid isPolicy :=
    WorkTree.valid_of_entries _ _ (by decide +kernel) (by decide +kernel)
  have hrun : (build Externals.sample (firstTree.directory isPolicy)).toOption.bind (fun idx =>
      (triggerUpdate exchangedTree idx ["a.yaml", "b.yaml"] (fun paths => paths)).toOption.bind
        (fun s => s.1.fileToModID.lookup "a.yaml")) = some (scopedDoc "").fqn := by decide +kernel
  obtain ⟨idx, hbuilt, hrun⟩ := Option.bind_eq_some_iff.mp hrun
  obtain ⟨s, hupd, hrun⟩ := Option.bind_eq_some_iff.mp hrun
  rw [Lib.toOption_eq_some_iff] at hbuilt hupd
  have hkeys : ∀ path, path ∉ ["a.yaml", "b.yaml"] →
      exchangedTree.lookup path = firstTree.lookup path := by
    simp only [exchangedTree, firstTree]
    grind
  refine ⟨idx, s.1, s.2, hbuilt, noticed_of_built hbuilt hvalid (by decide) (by decide +kernel)
    hkeys, hupd, hrun, fun hfollows => ?_⟩
  have hnow := hfollows.1 "a.yaml"
  rw [hrun] at hnow
  exact absurd hnow (by decide +kernel)

end DirWatch

end AccessManagement.Storage
