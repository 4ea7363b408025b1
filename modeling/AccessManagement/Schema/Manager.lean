/-
  AccessManagement.Schema.Manager — COMPILED SCHEMAS AND THEIR CACHE (`internal/schema`).

  The manager keeps compiled schemas under the reference that a policy gives.  A storage event names
  one file, and drops what is kept under `cerbos:///` and the name of that file.

  No lock is held from the look into the cache to the entry that is put there: other requests,
  changes of the store and events come in between.  A request in flight has the contents of the
  store that it may have read, and each file is read at a moment of its own.

  Main result: `validations_use_current` — along which runs a validation uses the compilation of what
  the store holds.
-/
import AccessManagement.Lib.Runs

namespace AccessManagement.Schema

open Lib

/-! ## §1. Loading a schema. -/

structure Url where
  scheme : String
  path : String
  text : String

/-- An error of the store: the file does not exist, or something else. -/
inductive StoreError where
  | notExist (path : String)
  | other (cause : String)

inductive LoadError where
  | notFound (url scheme fullPath : String)
  | other (cause : String)

/-- What lies outside: URLs and paths, schemas that are not in the store, globs, and the schema
compiler.  The compiler gets what it reads from a function, so that its result depends only on what
that function returns for the URLs that it loads. -/
structure Externals (γ σ : Type) where
  parse : String → Except String Url
  abs : String → Except String String
  join : String → String → String
  loadHTTPURL : Url → Except LoadError γ
  loadFileURL : Url → Except LoadError γ
  globMatches : String → String → Bool
  compile : (String → Except LoadError γ) → String → Except LoadError σ
  loads : (String → Except LoadError γ) → String → List String
  compile_congr : ∀ {load load' : String → Except LoadError γ} {url : String},
    (∀ u ∈ loads load url, load' u = load u) → compile load' url = compile load url

variable {γ σ : Type}

/-- The contents of the schema files. -/
abbrev Files (γ : Type) : Type := String → Except StoreError γ

def urlScheme : String := "cerbos"

def schemasDirectory : String := "_schemas"

/-- The file that a URL of the store names. -/
def relativePath (u : Url) : String :=
  match u.path.toList with
  | '/' :: rest => String.ofList rest
  | _ => u.path

variable (x : Externals γ σ) (files : Files γ)

def loadCerbosURL (u : Url) : Except LoadError γ :=
  match files (relativePath u) with
  | .ok content => .ok content
  | .error (.notExist path) => .error (.notFound u.text u.scheme
      (if path.startsWith schemasDirectory then path else x.join schemasDirectory path))
  | .error (.other cause) => .error (.other cause)

/-- `DefaultResolver`. -/
def resolve (path : String) : Except LoadError γ :=
  match x.parse path with
  | .error cause => .error (.other cause)
  | .ok u =>
    if u.scheme = "" ∨ u.scheme = urlScheme then loadCerbosURL x files u
    else if u.scheme = "http" ∨ u.scheme = "https" then x.loadHTTPURL u
    else if u.scheme = "file" then x.loadFileURL u
    else .error (.other s!"no Loader found for {path}")

variable (schemaURL : String)

/-- The text of an error of `LoadSchema`.  Where the absolute path cannot be found, the text that
says so is overwritten. -/
def describe : LoadError → String
  | .other cause => cause
  | .notFound url scheme fullPath =>
    let absolutePath := if scheme = "file" then (x.abs schemaURL).toOption.getD "" else ""
    if scheme = "file" ∧ fullPath = absolutePath then s!"schema {schemaURL} doesn't exist"
    else if url ≠ schemaURL then s!"schema {fullPath} referenced by {schemaURL} doesn't exist"
    else s!"schema {fullPath} doesn't exist"

/-- What `LoadSchema` keeps for a reference, when its reads return these. -/
def entryOf (load : String → Except LoadError γ) : Except String σ :=
  match x.compile load schemaURL with
  | .ok schema => .ok schema
  | .error e => .error (describe x schemaURL e)

/-- The same for contents of the store that do not change meanwhile. -/
abbrev cacheEntry : Except String σ := entryOf x schemaURL (resolve x files)

/-! ## §2. The manager and the store. -/

inductive Event where
  | addOrUpdateSchema (file : String)
  | deleteSchema (file : String)
  | reload

/-- A call of `LoadSchema` that has not found its schema in the cache. -/
structure Request (γ : Type) where
  ref : String
  /-- The contents of the store since then. -/
  seen : List (Files γ)

structure State (γ σ : Type) where
  files : Files γ
  cache : String → Option (Except String σ)
  /-- The events that the manager has not handled. -/
  pending : List Event
  inFlight : List (Request γ)

variable (s : State γ σ)

/-- What a request reads, where `pick` says when it reads each path. -/
def Request.load (q : Request γ) (pick : String → Nat) (path : String) : Except LoadError γ :=
  resolve x ((q.seen[pick path]?).getD files) path

/-- `LoadSchema`, if the store does not change meanwhile. -/
def loadSchema : Except String σ := (s.cache schemaURL).getD (cacheEntry x s.files schemaURL)

def cacheKey (file : String) : String := urlScheme ++ ":///" ++ file

/-- `OnStorageEvent`. -/
def onStorageEvent (cache : String → Option (Except String σ)) : Event → String → Option (Except String σ)
  | .addOrUpdateSchema file, r | .deleteSchema file, r => if r = cacheKey file then none else cache r
  | .reload, _ => none

structure SchemaRef where
  ref : String
  ignoreActions : List String := []

def filterActionsToValidate (ignore actions : List String) : List String :=
  ignore.foldl (fun filtered glob =>
    filtered.filter (fun a => !x.globMatches (if glob = "*" then "**" else glob) a)) actions

/-- The schema that `validateAttr` loads, if it loads one. -/
def schemaToLoad (schemaRef : Option SchemaRef) (actions : List String) : Option String :=
  match schemaRef with
  | none => none
  | some r =>
    if r.ref = "" then none
    else if r.ignoreActions ≠ [] ∧ filterActionsToValidate x r.ignoreActions actions = [] then none
    else some r.ref

/-- `validateAttr`, up to the schema that the attributes are validated against. -/
def validateAttr (schemaRef : Option SchemaRef) (actions : List String) : Option (Except String σ) :=
  (schemaToLoad x schemaRef actions).map (loadSchema x · s)

inductive Action (γ : Type) where
  /-- A file is added, updated or deleted. -/
  | change (file : String) (content : Except StoreError γ)
  | reload (files : Files γ)
  | handle
  /-- A validation looks into the cache. -/
  | get (schemaRef : Option SchemaRef) (actions : List String)
  /-- A request in flight puts what it has compiled into the cache. -/
  | set (call : Nat) (pick : String → Nat)
  /-- The cache is full. -/
  | evict (schemaURL : String)

def changeEvent (file : String) : Except StoreError γ → Event
  | .ok _ => .addOrUpdateSchema file
  | .error _ => .deleteSchema file

/-- Other contents of the store, which requests in flight may read. -/
def State.store (files : Files γ) (e : Event) : State γ σ :=
  { s with files, pending := s.pending ++ [e],
           inFlight := s.inFlight.map (fun q => { q with seen := q.seen ++ [files] }) }

def step : Action γ → Option (State γ σ)
  | .change file content =>
    some (s.store (fun f => if f = file then content else s.files f) (changeEvent file content))
  | .reload files => some (s.store files .reload)
  | .handle =>
    match s.pending with
    | [] => none
    | e :: rest => some { s with cache := onStorageEvent s.cache e, pending := rest }
  | .get schemaRef actions =>
    match schemaToLoad x schemaRef actions with
    | none => some s
    | some ref =>
      if (s.cache ref).isSome then some s
      else some { s with inFlight := s.inFlight ++ [⟨ref, [s.files]⟩] }
  | .set call pick =>
    match s.inFlight[call]? with
    | none => none
    | some q =>
      some { s with
        inFlight := s.inFlight.eraseIdx call
        cache := fun r => if r = q.ref then some (entryOf x r (q.load x s.files pick)) else s.cache r }
  | .evict schemaURL =>
    some { s with cache := fun r => if r = schemaURL then none else s.cache r }

/-! ## §3. What is kept. -/

variable {x}

/-- The compilation of a schema reads a file of the store. -/
def Reads (x : Externals γ σ) (files : Files γ) (schemaURL file : String) : Prop :=
  ∃ path ∈ x.loads (resolve x files) schemaURL, ∃ u, x.parse path = .ok u ∧
    (u.scheme = "" ∨ u.scheme = urlScheme) ∧ relativePath u = file

/-- A file that the compilation does not read does not matter to it. -/
theorem cacheEntry_change {files : Files γ} {schemaURL file : String}
    (h : ¬ Reads x files schemaURL file) (content : Except StoreError γ) :
    cacheEntry x (fun f => if f = file then content else files f) schemaURL =
      cacheEntry x files schemaURL := by
  unfold cacheEntry entryOf
  rw [@Externals.compile_congr γ σ x _]
  intro path hpath
  unfold resolve
  cases hu : x.parse path with
  | error => rfl
  | ok u =>
    dsimp only
    split
    · next hschema =>
      have hne : relativePath u ≠ file := fun hfile => h ⟨path, hpath, u, hu, hschema, hfile⟩
      simp [loadCerbosURL, hne]
    · rfl

/-- The event drops what is kept under a reference. -/
def Event.Drops : Event → Prop
  | .addOrUpdateSchema file | .deleteSchema file => schemaURL = cacheKey file
  | .reload => True

theorem onStorageEvent_eq_some {cache : String → Option (Except String σ)} {e : Event} {r : String}
    {v : Except String σ} : onStorageEvent cache e r = some v ↔ ¬ e.Drops r ∧ cache r = some v := by
  cases e <;> simp [onStorageEvent, Event.Drops]

/-- **What is kept is current**, or an event that drops it waits. -/
def Current (x : Externals γ σ) (s : State γ σ) : Prop :=
  ∀ r v, s.cache r = some v → v = cacheEntry x s.files r ∨ ∃ e ∈ s.pending, e.Drops r

/-- What the compilation of the schema reads is the same in these contents of the store. -/
def SameReads (x : Externals γ σ) (files files' : Files γ) (schemaURL : String) : Prop :=
  ∀ path ∈ x.loads (resolve x files) schemaURL, resolve x files' path = resolve x files path

/-- **What has to hold before a step.**  When a file changes, schemas that were compiled from it are
kept under the reference `cerbos:///` of that file only, but for those that an event that waits will
drop.  When a request puts its schema into the cache, what it read had not changed since it looked
there, or an event waits that will drop it. -/
def Allowed (x : Externals γ σ) (s : State γ σ) : Action γ → Prop
  | .change file _ => ∀ r v, s.cache r = some v → Reads x s.files r file →
      r = cacheKey file ∨ ∃ e ∈ s.pending, e.Drops r
  | .set call _ => ∀ q ∈ s.inFlight[call]?,
      (∀ files ∈ q.seen, SameReads x s.files files q.ref) ∨ ∃ e ∈ s.pending, e.Drops q.ref
  | _ => True

/-- A request whose reads have not changed keeps the compilation of the store. -/
theorem entryOf_load {files : Files γ} {q : Request γ} (pick : String → Nat)
    (h : ∀ files' ∈ q.seen, SameReads x files files' q.ref) :
    entryOf x q.ref (q.load x files pick) = cacheEntry x files q.ref := by
  unfold cacheEntry entryOf
  rw [@Externals.compile_congr γ σ x _]
  intro path hpath
  unfold Request.load
  cases hseen : q.seen[pick path]? with
  | none => rfl
  | some files' => exact h files' (List.mem_of_getElem? hseen) path hpath

theorem Current.step {s s' : State γ σ} {a : Action γ} (h : Current x s) (ha : Allowed x s a)
    (hstep : step x s a = some s') : Current x s' := by
  cases a with
  | change file content =>
    cases hstep
    intro r v hv
    have hevent : Event.Drops (cacheKey file) (changeEvent file content) := by
      cases content <;> rfl
    simp only [State.store, List.mem_append, List.mem_singleton]
    by_cases hreads : Reads x s.files r file
    · rcases ha r v hv hreads with rfl | ⟨e, he, hdrops⟩
      · exact .inr ⟨_, .inr rfl, hevent⟩
      · exact .inr ⟨e, .inl he, hdrops⟩
    · rw [cacheEntry_change hreads]
      exact (h r v hv).imp_right fun ⟨e, he, hdrops⟩ => ⟨e, .inl he, hdrops⟩
  | reload =>
    cases hstep
    intro r v hv
    exact .inr ⟨.reload, by simp [State.store], trivial⟩
  | handle =>
    cases hpending : s.pending with
    | nil => simp [Schema.step, hpending] at hstep
    | cons =>
      simp only [Schema.step, hpending, Option.some.injEq] at hstep
      subst hstep
      intro r v hv
      obtain ⟨hkept, hv⟩ := onStorageEvent_eq_some.mp hv
      have hcurrent := h r v hv
      simp only [hpending, List.mem_cons, exists_eq_or_imp] at hcurrent
      exact hcurrent.imp_right fun h => h.resolve_left hkept
  | get schemaRef actions =>
    simp only [Schema.step] at hstep
    split at hstep
    · cases hstep
      exact h
    · split at hstep
      · cases hstep
        exact h
      · cases hstep
        exact h
  | set call pick =>
    simp only [Schema.step] at hstep
    split at hstep
    · cases hstep
    · next q hq =>
      cases hstep
      intro r v hv
      dsimp only at hv ⊢
      split at hv
      · next heq =>
        subst heq
        obtain rfl := Option.some.inj hv
        exact (ha q hq).imp_left (entryOf_load pick)
      · exact h r v hv
  | evict =>
    cases hstep
    intro r v hv
    dsimp only at hv
    split at hv
    · cases hv
    · exact h r v hv

/-- **Validations use current schemas** after runs whose steps are all allowed, once the events have
been handled. -/
theorem validations_use_current (x : Externals γ σ) {s s' : State γ σ} {as : List (Action γ)}
    (hs : ∀ r, s.cache r = none) (hallowed : EachStep (step x) (Allowed x) s as)
    (hrun : run (step x) s as = some s') (hdone : s'.pending = []) (schemaRef : Option SchemaRef)
    (actions : List String) : ∀ e ∈ validateAttr x s' schemaRef actions,
      ∃ r ∈ schemaRef, e = cacheEntry x s'.files r.ref := by
  have hcurrent : Current x s' :=
    (hallowed.throughout id Current.step fun r v hv => by simp [hs r] at hv).last hrun
  intro e he
  obtain ⟨ref, href, rfl⟩ := Option.map_eq_some_iff.mp he
  obtain ⟨r, hr, rfl⟩ : ∃ r ∈ schemaRef, ref = r.ref := by
    unfold schemaToLoad at href
    cases schemaRef with
    | none => cases href
    | some r =>
      dsimp only at href
      split at href
      · cases href
      · split at href
        · cases href
        · exact ⟨r, rfl, (Option.some.inj href).symm⟩
  refine ⟨r, hr, ?_⟩
  unfold loadSchema
  cases hv : s'.cache r.ref with
  | none => rfl
  | some v => simpa [hdone] using hcurrent r.ref v hv

/-! ## §4. A schema that refers to another. -/

/-- A schema with a text, which may refer to one other schema. -/
structure Chained where
  text : String
  ref : Option String := none

def compileChain (load : String → Except LoadError Chained) : Nat → String →
    Except LoadError (List String)
  | 0, _ => .ok []
  | n + 1, url =>
    match load url with
    | .error e => .error e
    | .ok ⟨text, none⟩ => .ok [text]
    | .ok ⟨text, some ref⟩ => (compileChain load n ref).map (text :: ·)

def chainLoads (load : String → Except LoadError Chained) : Nat → String → List String
  | 0, _ => []
  | n + 1, url =>
    match load url with
    | .ok ⟨_, some ref⟩ => url :: chainLoads load n ref
    | _ => [url]

theorem compileChain_congr {load load' : String → Except LoadError Chained} {n : Nat} {url : String}
    (h : ∀ u ∈ chainLoads load n url, load' u = load u) :
    compileChain load' n url = compileChain load n url := by
  induction n generalizing url with
  | zero => rfl
  | succ n ih =>
    have hurl : load' url = load url := by
      apply h
      unfold chainLoads
      split <;> simp
    unfold compileChain
    rw [hurl]
    cases hload : load url with
    | error => rfl
    | ok c =>
      obtain ⟨text, ref⟩ := c
      cases ref with
      | none => rfl
      | some ref =>
        have hrest : compileChain load' n ref = compileChain load n ref :=
          ih fun u hu => h u (by simp [chainLoads, hload, hu])
        simp only [hrest]

/-- The store has `a.json` and `b.json`, and every URL is one of the store. -/
def Externals.sample : Externals Chained (List String) where
  parse path := .ok ⟨urlScheme, path.drop 9 |>.copy, path⟩
  abs path := .ok path
  join dir path := dir ++ "/" ++ path
  loadHTTPURL u := .error (.other u.text)
  loadFileURL u := .error (.other u.text)
  globMatches glob a := glob == "**" || glob == a
  compile load := compileChain load 8
  loads load := chainLoads load 8
  compile_congr := compileChain_congr

/-- Nothing is kept yet. -/
def referring : State Chained (List String) where
  files file := if file = "a.json" then .ok ⟨"object", some "cerbos:///b.json"⟩
    else if file = "b.json" then .ok ⟨"string", none⟩ else .error (.notExist file)
  cache _ := none
  pending := []
  inFlight := []

def aRef : SchemaRef where
  ref := "cerbos:///a.json"

theorem not_reads_c {files : Files Chained}
    (h : Externals.sample.loads (resolve Externals.sample files) aRef.ref =
      ["cerbos:///a.json", "cerbos:///b.json"]) :
    ¬ Reads Externals.sample files aRef.ref "c.json" := by
  rintro ⟨path, hpath, u, hu, _, hfile⟩
  cases hu
  rw [h] at hpath
  simp only [List.mem_cons, List.not_mem_nil, or_false] at hpath
  obtain rfl | rfl := hpath
  · exact absurd hfile (by decide)
  · exact absurd hfile (by decide)

/-- Two requests are in flight.  One puts its schema into the cache, then a file is updated that the
schema was not compiled from, and then the other one does, with what it read before the update. -/
theorem unrelated_update_current : ∃ s', run (step Externals.sample) referring
      [.get (some aRef) ["view"], .get (some aRef) ["edit"], .set 1 (fun _ => 0),
        .change "c.json" (.ok ⟨"null", none⟩), .handle, .set 0 (fun _ => 0)] = some s' ∧
    ∃ e ∈ validateAttr Externals.sample s' (some aRef) ["view"],
      e = cacheEntry Externals.sample s'.files aRef.ref := by
  have hallowed : EachStep (step Externals.sample) (Allowed Externals.sample) referring
      [.get (some aRef) ["view"], .get (some aRef) ["edit"], .set 1 (fun _ => 0),
        .change "c.json" (.ok ⟨"null", none⟩), .handle, .set 0 (fun _ => 0)] := by
    refine ⟨trivial, fun s hs => ?_⟩
    cases hs
    refine ⟨trivial, fun s hs => ?_⟩
    cases hs
    refine ⟨?_, fun s hs => ?_⟩
    · intro q hq
      cases hq
      refine .inl (fun files hfiles path _ => ?_)
      rw [List.mem_singleton.mp hfiles]
    cases hs
    refine ⟨?_, fun s hs => ?_⟩
    · intro r v hv hreads
      have hr : r = aRef.ref := by
        by_contra hne
        simp [referring, hne] at hv
      subst hr
      exact (not_reads_c rfl hreads).elim
    cases hs
    refine ⟨trivial, fun s hs => ?_⟩
    cases hs
    refine ⟨?_, fun _ _ => trivial⟩
    intro q hq
    cases hq
    refine .inl (fun files hfiles path hpath => ?_)
    have hpaths : path ∈ ["cerbos:///a.json", "cerbos:///b.json"] := hpath
    have hseen : files ∈ [_, _] := hfiles
    simp only [List.mem_cons, List.not_mem_nil, or_false] at hpaths hseen
    obtain rfl | rfl := hpaths <;> obtain rfl | rfl := hseen <;> rfl
  refine ⟨_, rfl, _, rfl, ?_⟩
  obtain ⟨r, hr, he⟩ := validations_use_current Externals.sample (fun _ => rfl) hallowed rfl rfl
    (some aRef) ["view"] _ rfl
  cases hr
  exact he

/-- The schema that `a.json` refers to is updated after `a.json` was compiled, and what is kept for
`a.json` stays in use. -/
theorem referred_schema_stays : ∃ s', run (step Externals.sample) referring
      [.get (some aRef) ["view"], .set 0 (fun _ => 0), .change "b.json" (.ok ⟨"integer", none⟩),
        .handle] = some s' ∧ s'.pending = [] ∧
    validateAttr Externals.sample s' (some aRef) ["view"] = some (.ok ["object", "string"]) ∧
    cacheEntry Externals.sample s'.files aRef.ref = .ok ["object", "integer"] := by
  refine ⟨_, rfl, rfl, rfl, rfl⟩

end AccessManagement.Schema
