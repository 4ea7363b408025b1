/-
  AccessManagement.Index.ParamsCache — WHAT THE TWO CACHES OF PARAMETERS HOLD.

  Rows with the same parameters share one `RowParams`, found by the content hash of the message.
  `IndexRule` looks the parameters up FIRST, and only then the core that counts as their user:

    * `getOrGenerateParams` returns the parameters of the first message with the same bytes, so
      it is faithful for messages that their bytes tell apart (`params_faithful`);
    * an entry is counted when a new core is made and released with the core's last origin.  A
      row that finds its core but not its parameters leaves an entry that nothing refers to
      (`caches_exact_iff`).
-/
import AccessManagement.Index.History

namespace AccessManagement

open Lib List AList Index

/-! ## §1. A sequence of lookups. -/

namespace Index

variable (x : Externals) (ps : List (Option Params))

/-- The variables of the message compile. -/
def compiles (p : Option Params) : Bool :=
  (paramContent p).1.all (fun v => x.celCompiles v.expr.original)

/-- `AsMap`, of `structpb`: it keeps constants that JSON can write, and it writes others as
texts. -/
def KeepsFinite (asMap : List (String × Value) → List (String × Value)) : Prop :=
  ∀ fs, Value.fieldsFinite fs = true → asMap fs = fs

variable (asMap : List (String × Value) → List (String × Value))

/-- The parameters, as the evaluation reads them, are those of the message. -/
def Faithful (rp : RowParams) (p : Option Params) : Prop :=
  (rp.orderedVariables, asMap rp.constants) = paramContent p

/-- The cache after a call of `getOrGenerateParams`; a failed call leaves it. -/
def afterLookup (cache : ParamsCache) (p : Option Params) : ParamsCache :=
  ((getOrGenerateParams x cache p).map (·.2)).getD cache

/-- The cache after a sequence of calls. -/
def cacheAfter : ParamsCache :=
  ps.foldl (afterLookup x) ∅

/-- Every call of the sequence that succeeds returns the parameters of its message. -/
def AllFaithful : Prop :=
  ∀ earlier p later, ps = earlier ++ p :: later → ∀ rp cache,
    getOrGenerateParams x (cacheAfter x earlier) p = some (rp, cache) → Faithful asMap rp p

variable {x} {cache : ParamsCache} {p : Option Params}

theorem getOrGenerateParams_hit {e : ParamsEntry} (he : cache.lookup (paramsOf x p).key = some e) :
    getOrGenerateParams x cache p = some (e.params, cache) := by
  unfold paramsOf at he
  simp only [getOrGenerateParams, he]

theorem getOrGenerateParams_miss (he : cache.lookup (paramsOf x p).key = none) :
    getOrGenerateParams x cache p = if compiles x p then some (paramsOf x p,
      cache.insert (paramsOf x p).key { params := paramsOf x p, refcount := 0 }) else none := by
  unfold paramsOf at he
  simp only [getOrGenerateParams, he]
  rfl

variable (x)

/-- Parameters with this hash that one of the messages brought along. -/
def FromMessage (ps : List (Option Params)) (k : UInt64) (rp : RowParams) : Prop :=
  ∃ q ∈ ps, (paramsOf x q).key = k ∧ rp = paramsOf x q

/-- A sequence of calls caches only what its messages brought along. -/
theorem cached_cacheAfter (calls : List (Option Params)) (hcalls : calls ⊆ ps) :
    Cached (FromMessage x ps) (cacheAfter x calls) := by
  refine List.foldlRecOn calls (afterLookup x) (fun k e he => by cases he) ?_
  intro cache hcache p hp
  unfold afterLookup
  cases hget : getOrGenerateParams x cache p with
  | none => exact hcache
  | some found =>
    exact (hcache.getOrGenerateParams ⟨p, hcalls hp, rfl, rfl⟩ hget).2

/-- The hash is injective on the byte streams of the messages. -/
def HashSeparates : Prop :=
  ∀ p ∈ ps, ∀ q ∈ ps, (paramsOf x p).key = (paramsOf x q).key →
    Token.encode x.hasher.wire (optTokens Params.tokens p) =
      Token.encode x.hasher.wire (optTokens Params.tokens q)

/-- **Shared parameters are faithful** for messages that the content hash tells apart, if their
constants are finite: every call of a sequence returns what its message holds. -/
theorem params_faithful (x : Externals) (asMap : List (String × Value) → List (String × Value))
    (hasMap : KeepsFinite asMap) (ps : List (Option Params)) (hinj : HashSeparates x ps)
    (hl : LegibleParams ps) (hfinite : ∀ p ∈ ps, Value.fieldsFinite (paramContent p).2 = true) :
    AllFaithful x ps asMap := by
  intro earlier p later hps rp cache hget
  have hp : p ∈ ps := by simp [hps]
  have hearlier : earlier ⊆ ps := by simp [hps]
  have hcached := cached_cacheAfter x ps earlier hearlier
  -- whatever is returned, a message with the same bytes brought it along
  obtain ⟨⟨q, hq, hkey, rfl⟩, -⟩ := hcached.getOrGenerateParams ⟨p, hp, rfl, rfl⟩ hget
  have hcontent := hl.content hq hp (hinj q hq p hp hkey)
  rw [Faithful, ← hcontent]
  exact Prod.ext rfl (hasMap _ (hfinite q hq))

/-- The parameters with one constant. -/
def constantParams (v : Value) : Option Params :=
  some { orderedVariables := [], constants := [("limit", v)] }

/-- A text, the same text again, and a list of another text. -/
def limits : List (Option Params) :=
  [constantParams (.string "high"), constantParams (.string "high"),
    constantParams (.list [.string "low"])]

theorem legible_limits : LegibleParams limits := by
  have hmem : ∀ p ∈ limits, p = constantParams (.string "high") ∨
      p = constantParams (.list [.string "low"]) := by
    simp [limits]
  refine ⟨fun p hp => ?_, by decide +kernel, fun p hp q hq => ?_⟩
  · rcases hmem p hp with rfl | rfl
    · exact ⟨pairwise_singleton _ _, trivial, trivial⟩
    · exact ⟨pairwise_singleton _ _, ⟨trivial, trivial⟩, trivial⟩
  · rcases hmem p hp with rfl | rfl <;> rcases hmem q hq with rfl | rfl <;>
      first
      | exact fun _ => rfl
      | exact fun htokens => absurd htokens (by decide +kernel)

/-- Two rows with the same constant share its entry, a third has its own. -/
theorem limits_faithful : HashSeparates Externals.sample limits ∧
    AllFaithful Externals.sample limits id := by
  have hinj : HashSeparates Externals.sample limits := by
    unfold HashSeparates
    decide +kernel
  exact ⟨hinj, params_faithful Externals.sample id (fun _ _ => rfl) limits hinj legible_limits
    (by decide)⟩

/-- `null` and `false` write the same byte, so the second row reads `null`. -/
theorem false_read_as_null :
    HashSeparates Externals.sample [constantParams .null, constantParams (.bool false)] ∧
    ∃ rp cache, getOrGenerateParams Externals.sample
        (cacheAfter Externals.sample [constantParams .null]) (constantParams (.bool false)) =
      some (rp, cache) ∧ rp.constants = [("limit", .null)] ∧
      ∀ asMap, KeepsFinite asMap → ¬ Faithful asMap rp (constantParams (.bool false)) := by
  refine ⟨by unfold HashSeparates; decide +kernel, _, _, rfl, rfl, fun asMap hasMap h => ?_⟩
  have hconstants := congrArg Prod.snd h
  rw [show asMap _ = _ from hasMap _ rfl] at hconstants
  cases hconstants

/-! ## §2. References. -/

variable {x}

section References

variable {sel : FunctionalCore → Option RowParams} {cores : AList (fun _ : UInt64 => CoreEntry)}
  {cache cache' : ParamsCache} {c : CoreEntry} {s k : UInt64} {p : Option RowParams}
  {rp : RowParams}

/-- The core refers to the parameters with this hash. -/
@[simp] def refers (sel : FunctionalCore → Option RowParams) (k : UInt64) (c : CoreEntry) : Bool :=
  (sel c.core).map (·.key) == some k

/-- The number of stored cores that refer to the parameters with a hash. -/
def references (sel : FunctionalCore → Option RowParams)
    (cores : AList (fun _ : UInt64 => CoreEntry)) (k : UInt64) : Nat :=
  cores.entries.countP (fun e => refers sel k e.2)

/-- The cache holds the parameters that stored cores refer to, counts them, and holds no other. -/
structure CacheExact (sel : FunctionalCore → Option RowParams)
    (cores : AList (fun _ : UInt64 => CoreEntry)) (cache : ParamsCache) : Prop where
  refcount : ∀ k, (cache.lookup k).map (·.refcount) =
    if references sel cores k = 0 then none else some (references sel cores k)
  params : ∀ s c rp, cores.lookup s = some c → sel c.core = some rp →
    (cache.lookup rp.key).map (·.params) = some rp

theorem references_insert (sel : FunctionalCore → Option RowParams)
    (cores : AList (fun _ : UInt64 => CoreEntry)) (s : UInt64) (c : CoreEntry) (k : UInt64) :
    references sel (cores.insert s c) k =
      references sel (cores.erase s) k + if refers sel k c then 1 else 0 := by
  simp only [references, AList.insert, kinsert_def, countP_cons]
  rfl

theorem references_erase (hl : cores.lookup s = some c) (k : UInt64) : references sel cores k =
      references sel (cores.erase s) k + if refers sel k c then 1 else 0 := by
  have hmem : s ∈ cores.entries.keys := mem_keys.mpr (lookup_isSome.mp (by simp [hl]))
  obtain ⟨b, l₁, l₂, hnot, hentries, hrest⟩ := exists_of_kerase hmem
  have hb : b ∈ cores.lookup s := mem_dlookup cores.nodupKeys (by simp [hentries])
  obtain rfl : b = c := Option.mem_unique hb hl
  have herase : (cores.erase s).entries = l₁ ++ l₂ := hrest
  simp only [references, hentries, herase, countP_append, countP_cons]
  omega

theorem references_pos (hl : cores.lookup s = some c) (hrp : sel c.core = some rp) :
    0 < references sel cores rp.key := by
  rw [references_erase hl, if_pos (by simp [hrp])]
  omega

/-- Every entry of an exact cache is stored under its own hash. -/
theorem CacheExact.key_eq (h : CacheExact sel cores cache) {e : ParamsEntry}
    (he : cache.lookup k = some e) : e.params.key = k := by
  have hcount := h.refcount k
  rw [he] at hcount
  have hpos : 0 < references sel cores k := by
    by_contra hzero
    rw [if_pos (by omega)] at hcount
    cases hcount
  obtain ⟨⟨s, c⟩, hmem, href⟩ := countP_pos_iff.mp hpos
  simp only [refers, beq_iff_eq, Option.map_eq_some_iff] at href
  obtain ⟨rp, hrp, rfl⟩ := href
  have hparams := h.params s c rp (mem_dlookup cores.nodupKeys hmem) hrp
  rw [he, Option.map_some, Option.some.injEq] at hparams
  rw [hparams]

/-- Another origin of a stored core changes no reference. -/
theorem cacheExact_insert_same (hl : cores.lookup s = some c) (origins : List String) :
    CacheExact sel (cores.insert s { c with origins := origins }) cache ↔
      CacheExact sel cores cache := by
  have hrefs : references sel (cores.insert s { c with origins := origins }) =
      references sel cores := by
    funext k
    rw [references_insert, references_erase hl]
    rfl
  constructor
  · intro h
    refine ⟨hrefs ▸ h.refcount, fun s' c' rp hl' hrp => ?_⟩
    by_cases hs : s' = s
    · exact h.params s _ rp (lookup_insert _) (by grind)
    · exact h.params s' c' rp (by grind) hrp
  · intro h
    refine ⟨by rw [hrefs]; exact h.refcount, fun s' c' rp hl' hrp => ?_⟩
    by_cases hs : s' = s
    · exact h.params s c rp hl (by grind)
    · exact h.params s' c' rp (by grind) hrp

/-- The last origin of a core is gone: its reference is released. -/
theorem CacheExact.removeRef (h : CacheExact sel cores cache) (hl : cores.lookup s = some c) :
    CacheExact sel (cores.erase s) (removeRef cache (sel c.core)) := by
  have hrefs := fun k => @references_erase sel cores c s hl k
  have hothers : ∀ s' c', (cores.erase s).lookup s' = some c' → cores.lookup s' = some c' := by grind
  cases hsel : sel c.core with
  | none =>
    have hsame : references sel (cores.erase s) = references sel cores := by
      funext k
      simp [hrefs k, hsel]
    exact ⟨hsame ▸ h.refcount, fun s' c' rp hl' => h.params s' c' rp (hothers s' c' hl')⟩
  | some rp =>
    obtain ⟨e, he, hparams⟩ := Option.map_eq_some_iff.mp (h.params s c rp hl hsel)
    have hcount := h.refcount rp.key
    have hkey : ∀ k, refers sel k c = true ↔ rp.key = k := by simp [hsel]
    simp only [Index.removeRef]
    refine ⟨fun k => ?_, fun s' c' rp' hl' hrp' => ?_⟩
    · have := h.refcount k
      grind
    · have hpos := references_pos hl' hrp'
      have := h.params s' c' rp' (hothers s' c' hl') hrp'
      grind

/-! ## §3. Lookups of a row. -/

/-- What a lookup of the wanted parameters returns, and the cache after it. -/
inductive Fetched (x : Externals) (cache : ParamsCache) :
    Option (Option Params) → Option RowParams → ParamsCache → Prop
  | unwanted : Fetched x cache none none cache
  | hit {p : Option Params} {e : ParamsEntry} : cache.lookup (paramsOf x p).key = some e →
      Fetched x cache (some p) (some e.params) cache
  | miss {p : Option Params} : cache.lookup (paramsOf x p).key = none →
      Fetched x cache (some p) (some (paramsOf x p))
        (cache.insert (paramsOf x p).key { params := paramsOf x p, refcount := 0 })

/-- The wanted parameters, if any, are in the cache. -/
def Shared (x : Externals) (cache : ParamsCache) (want : Option (Option Params)) : Prop :=
  ∀ p, want = some p → (cache.lookup (paramsOf x p).key).isSome = true

variable {want : Option (Option Params)}

theorem fetched_of_getOrGenerateParams {p : Option Params}
    (h : getOrGenerateParams x cache p = some (rp, cache')) :
    Fetched x cache (some p) (some rp) cache' := by
  cases he : cache.lookup (paramsOf x p).key with
  | some =>
    obtain ⟨rfl, rfl⟩ := Prod.mk.inj (Option.some.inj ((getOrGenerateParams_hit he).symm.trans h))
    exact .hit he
  | none =>
    rw [getOrGenerateParams_miss he, Option.ite_none_right_eq_some] at h
    obtain ⟨rfl, rfl⟩ := Prod.mk.inj (Option.some.inj h.2)
    exact .miss he

variable (h : CacheExact sel cores cache) (hf : Fetched x cache want p cache')

include h hf

/-- A lookup keeps the cache exact if it finds what it looks for, and only then. -/
theorem CacheExact.fetched_iff : CacheExact sel cores cache' ↔ Shared x cache want := by
  cases hf with
  | unwanted => exact ⟨fun _ p hp => (by cases hp), fun _ => h⟩
  | hit he =>
    refine ⟨fun _ p hp => ?_, fun _ => h⟩
    obtain rfl := Option.some.inj hp
    simp [he]
  | @miss p he =>
    constructor
    · intro h'
      have hcount := h'.refcount (paramsOf x p).key
      grind
    · intro hshared
      have := hshared p rfl
      simp [he] at this

/-- A new core refers to what the lookup returned. -/
theorem CacheExact.addRef (hl : cores.lookup s = none) (hc : sel c.core = p) :
    CacheExact sel (cores.insert s c) (addRef cache' p) := by
  have herase : cores.erase s = cores :=
    AList.ext (kerase_of_notMem_keys (lookup_eq_none.mp hl))
  have hrefs := references_insert sel cores s c
  have hkey : ∀ k, refers sel k c = true ↔ p.map (·.key) = some k := by simp [hc]
  refine ⟨fun k => ?_, fun s' c' rp hl' hrp => ?_⟩
  · have hcount := h.refcount k
    cases hf with
    | unwanted | miss => grind [addRef]
    | hit he => grind [addRef, h.key_eq he]
  · have hparams := h.params s' c' rp
    cases hf with
    | unwanted | miss => grind [addRef]
    | hit he => grind [addRef, h.key_eq he]

end References

/-- The parameters a row is indexed with, by its kind. -/
def wantedParams (row : RuleRow) : Option (Option Params) :=
  if row.policyKind = .resource ∨ row.policyKind = .principal then some row.params else none

def wantedDrParams (row : RuleRow) : Option (Option Params) :=
  if row.policyKind = .resource ∧ row.originDerivedRole ≠ "" then some row.derivedRoleParams
  else none

theorem fetched_of_rowParams {pc drc pc' drc' : ParamsCache} {row : RuleRow}
    {p drp : Option RowParams} (h : rowParams x pc drc row = .ok (p, drp, pc', drc')) :
    Fetched x pc (wantedParams row) p pc' ∧ Fetched x drc (wantedDrParams row) drp drc' := by
  have hunwanted := fun cache => @Fetched.unwanted x cache
  have hget := @fetched_of_getOrGenerateParams x
  revert h
  unfold wantedParams wantedDrParams
  fun_cases rowParams <;> grind

/-! ## §4. The caches of an index. -/

/-- Both caches are exact. -/
structure CachesExact (ix : Index) : Prop where
  params : CacheExact (·.params) ix.coresBySum ix.paramsCache
  drParams : CacheExact (·.derivedRoleParams) ix.coresBySum ix.drParamsCache

/-- If the row has the core of another row, its parameters are in the caches already. -/
def ParamsShared (x : Externals) (ix : Index) (row : RuleRow) : Prop :=
  (ix.coresBySum.lookup (row.funcSum x.hasher)).isSome = true →
    Shared x ix.paramsCache (wantedParams row) ∧ Shared x ix.drParamsCache (wantedDrParams row)

section Step

variable {ix ix' : Index} {row : RuleRow}

/-- **One `IndexRule`** keeps the caches exact if a row that finds its core finds its parameters,
and only then. -/
theorem CachesExact.indexRule_iff (h : CachesExact ix) (hok : ix.indexRule x row = .ok ix') :
    CachesExact ix' ↔ ParamsShared x ix row := by
  unfold indexRule at hok
  split at hok
  · cases hok
  · next p drp pc drc hrow =>
    obtain rfl := Except.ok.inj hok
    obtain ⟨hp, hdrp⟩ := fetched_of_rowParams hrow
    unfold shareCore ParamsShared
    dsimp only
    split
    · next e hl =>
      rw [← h.params.fetched_iff hp, ← h.drParams.fetched_iff hdrp, hl]
      have hsame := fun sel cache => @cacheExact_insert_same sel _ cache e _ hl
      exact ⟨fun h _ => ⟨(hsame _ _ _).mp h.params, (hsame _ _ _).mp h.drParams⟩,
        fun h => ⟨(hsame _ _ _).mpr (h rfl).1, (hsame _ _ _).mpr (h rfl).2⟩⟩
    · next hl =>
      rw [hl]
      refine ⟨fun _ hsome => (by cases hsome), fun _ => ⟨?_, ?_⟩⟩
      · exact h.params.addRef hp hl rfl
      · exact h.drParams.addRef hdrp hl rfl

/-- A live binding has the core that is stored under its hash, if one is. -/
def CoresAgree (ix : Index) : Prop :=
  ∀ i b e, ix.getBinding i = some b → ix.coresBySum.lookup b.core.sum = some e → e.core = b.core

theorem CoresExact.coresAgree (h : CoresExact ix) : CoresAgree ix := by
  intro i b e hb he
  obtain ⟨e', he', hcore⟩ := h.held i b hb
  grind

variable (hx : Exact x ix) (hagree : CoresAgree ix) (h : CachesExact ix) (fqn : String)

include hx hagree h

/-- One round of the deletion loop. -/
theorem CachesExact.deleteBinding (id : Nat) :
    CoresAgree (deleteBinding fqn ix id) ∧ CachesExact (deleteBinding fqn ix id) := by
  have hget := getBinding_deleteBinding hx fqn id
  cases hb : ix.getBinding id with
  | none =>
    rw [Index.deleteBinding, hb]
    exact ⟨hagree, h⟩
  | some b =>
    have hlook := lookup_deleteBinding hb fqn
    refine ⟨fun i b' e hb' he => ?_, ?_⟩
    · have hbefore := hagree i b'
      cases hl : ix.coresBySum.lookup b'.core.sum <;> grind
    · simp only [Index.deleteBinding, hb, dropOrigin]
      split
      · exact ⟨h.params, h.drParams⟩
      · next e he =>
        have hcore := hagree id b e hb he
        rw [← hcore] at he ⊢
        split
        · exact ⟨h.params.removeRef he, h.drParams.removeRef he⟩
        · exact ⟨(cacheExact_insert_same he _).mpr h.params,
            (cacheExact_insert_same he _).mpr h.drParams⟩

theorem CachesExact.deletePolicy : CachesExact (ix.deletePolicy fqn) := by
  refine (@deletePolicy_induction ix (fun ix => Exact x ix ∧ CoresAgree ix ∧ CachesExact ix) fqn
    ⟨hx, hagree, h⟩ (fun ix id h => ?_) (fun ix m h => ?_)).2.2
  · exact ⟨h.1.deleteBinding fqn id, h.2.2.deleteBinding h.1 h.2.1 fqn id⟩
  · exact ⟨SameRouting.exact (by constructor <;> rfl) h.1, h.2.1, h.2.2.params, h.2.2.drParams⟩

end Step

/-- The indexes that `IndexRule` and `DeletePolicy` build from an empty one, where no call fails
and every row that finds its core finds its parameters. -/
inductive Built (x : Externals) : Index → Prop
  | new : Built x Index.new
  | indexRule {ix ix' : Index} (row : RuleRow) :
      Built x ix → ParamsShared x ix row → ix.indexRule x row = .ok ix' → Built x ix'
  | deletePolicy {ix : Index} (fqn : String) : Built x ix → Built x (ix.deletePolicy fqn)

theorem Built.history {ix : Index} (h : Built x ix) : ∃ rows, History x rows ix := by
  induction h with
  | new => exact ⟨[], .new⟩
  | indexRule row _ _ hok ih => exact ⟨_, ih.choose_spec.indexRule row hok⟩
  | deletePolicy fqn _ ih => exact ⟨_, ih.choose_spec.deletePolicy fqn⟩

/-- **The caches hold no garbage** after any such sequence of calls, and a further call keeps it
that way exactly if it is of that kind. -/
theorem caches_exact_iff {x : Externals} {ix : Index} (h : Built x ix) :
    CachesExact ix ∧ ∀ row ix', ix.indexRule x row = .ok ix' →
      (CachesExact ix' ↔ ParamsShared x ix row) := by
  have hexact : CachesExact ix := by
    induction h with
    | new =>
      have hempty : ∀ sel, CacheExact sel ∅ ∅ :=
        fun sel => ⟨fun k => rfl, fun s c rp hl => (by cases hl)⟩
      exact ⟨hempty _, hempty _⟩
    | indexRule _ _ hshared hok ih => exact (ih.indexRule_iff hok).mpr hshared
    | deletePolicy fqn hbuilt ih =>
      obtain ⟨rows, hist⟩ := hbuilt.history
      have haccounted := hist.accounted
      obtain ⟨offered, hr⟩ := hist.reachable
      exact ih.deletePolicy hr.inv.exact haccounted.cores.coresAgree fqn
  exact ⟨hexact, fun row ix' hok => hexact.indexRule_iff hok⟩

/-- Two policies that share a core, of which one is deleted: one reference is left. -/
theorem halfDeleted_caches_exact : Built Externals.sample halfDeleted ∧ CachesExact halfDeleted := by
  have hshared : ParamsShared Externals.sample (Index.new.afterCall Externals.sample
      (sampleRow "user" (textExpr "a"))) sharingRow := by
    refine fun _ => ⟨fun p hp => ?_, fun p hp => (by cases hp)⟩
    obtain rfl := Option.some.inj hp
    decide +kernel
  have hbuilt : Built Externals.sample halfDeleted :=
    .deletePolicy "cerbos.resource.doc.vdefault" (.indexRule sharingRow
      (.indexRule (sampleRow "user" (textExpr "a")) .new (fun h => (by cases h)) rfl) hshared rfl)
  exact ⟨hbuilt, (caches_exact_iff hbuilt).1⟩

/-- The row of a derived role that adds no condition and no parameters. -/
def derivedRoleRow : RuleRow :=
  { sampleRow "user" (textExpr "a") with
    originDerivedRole := "owner"
    derivedRoleParams := some { orderedVariables := [], constants := [] } }

/-- The row of a derived role finds the core of a row for a plain role, which has no derived-role
parameters: its own are cached, and nothing refers to them. -/
theorem derivedRole_params_unreferenced :
    ∃ ix ix', Index.new.indexRule Externals.sample (sampleRow "user" (textExpr "a")) = .ok ix ∧
      ix.indexRule Externals.sample derivedRoleRow = .ok ix' ∧
      ix'.drParamsCache.entries.map (fun e => e.2.refcount) = [0] ∧
      ix'.coresBySum.entries.map (fun e => e.2.core.derivedRoleParams) = [none] ∧
      ¬ CachesExact ix' := by
  refine ⟨_, _, rfl, rfl, rfl, rfl, fun h => ?_⟩
  cases h.drParams.refcount (paramsOf Externals.sample derivedRoleRow.derivedRoleParams).key

end Index

end AccessManagement
