/-
  AccessManagement.Storage.HubSource — THE REMOTE BUNDLE SOURCE AND THE TABLE THAT FOLLOWS IT.
  (`internal/storage/hub/remote_source.go`; `internal/ruletable/manager.go`, the reload)

  The watch loop sets and clears the bundle of the source while requests read it.  A method
  called on a missing bundle is a panic, `none` here.

  Main results:
    * `survives_iff` — which runs of the loop and of the calls never use a missing bundle.
    * `follows_iff` — along which runs the manager uses the table of the current bundle and not
      that of a removed one.
-/
import AccessManagement.Lib.Runs
import Mathlib.Tactic.Cases

namespace AccessManagement.Storage.Hub

open AccessManagement.Lib

variable {τ σ : Type}

/-! ## §1. Bundles. -/

inductive Failure where
  | bundleNotLoaded
  | unsupportedOperation
  | other (text : String)
  deriving DecidableEq

/-- What a bundle holds: a rule table, or the policy sets of a legacy bundle by module ID. -/
inductive Contents (τ σ : Type) where
  | ruleTable (table : τ)
  | legacy (policyIndex : List UInt64) (getMatch : UInt64 → Except Failure (Option σ))

/-- An opened bundle.  The same file opened twice is two bundles: `serial` tells them apart. -/
structure Bundle (τ σ : Type) where
  serial : Nat
  id : String
  contents : Contents τ σ

def Contents.getFirstMatch (candidates : List UInt64) : Contents τ σ → Except Failure (Option σ)
  | .ruleTable _ => .error .unsupportedOperation
  | .legacy _ getMatch => candidates.findSomeM? getMatch

def Contents.getAll : Contents τ σ → Except Failure (List σ)
  | .ruleTable _ => .error .unsupportedOperation
  | .legacy policyIndex getMatch => policyIndex.filterMapM getMatch

/-- The table `buildRuleTable` makes while a bundle with these contents is the current one: the
rule table of the bundle, or one loaded from its policy sets. -/
def Contents.table (load : List σ → Option τ) : Contents τ σ → Option τ
  | .ruleTable table => some table
  | .legacy policyIndex getMatch => ((policyIndex.filterMapM getMatch).toOption).bind load

/-! ## §2. The source, its watch loop and the subscribed manager. -/

structure Conf where
  deploymentID : String
  playgroundID : String

inductive Phase where
  | connecting  -- retrying the watch call
  | watching
  | waiting  -- for the next `startWatch`
  | stopped
  deriving DecidableEq

structure Machine (τ σ : Type) where
  bundle : Option (Bundle τ σ)
  healthy : Bool
  phase : Phase
  /-- The count of `noBundleBackoff`. -/
  noBundle : Nat
  /-- How many bundles have been opened. -/
  opened : Nat
  /-- The serials of the bundles that were removed. -/
  removed : List Nat
  /-- The table of the manager and the bundle it was built from. -/
  ruleTable : τ
  builtFrom : Nat

inductive Call where
  | source
  | repoStats
  | getAll
  | getFirstMatch (candidates : List UInt64)
  | getRuleTable

inductive PolicySource where
  | remoteBundle (deploymentID bundleID : String)
  | playgroundID (id : String)
  | unset

inductive Answer (τ σ : Type) where
  | policySource (source : PolicySource)
  | repoStats (of : Bundle τ σ)
  | policySets (result : Except Failure (List σ))
  | policySet (result : Except Failure (Option σ))
  | ruleTable (result : Except Failure τ)

namespace Machine

variable (conf : Conf) (load : List σ → Option τ) (m : Machine τ σ)

def activeBundleID : Option String := m.bundle.map Bundle.id

def source : Option PolicySource :=
  if conf.deploymentID ≠ "" then m.activeBundleID.map (.remoteBundle conf.deploymentID)
  else if conf.playgroundID ≠ "" then some (.playgroundID conf.playgroundID)
  else some .unset

def getAll : Except Failure (List σ) :=
  match m.bundle with
  | none => .error .bundleNotLoaded
  | some b => b.contents.getAll

def getFirstMatch (candidates : List UInt64) : Except Failure (Option σ) :=
  match m.bundle with
  | none => .error .bundleNotLoaded
  | some b => b.contents.getFirstMatch candidates

-- the type assertion fails on a missing bundle as it does on a legacy one
def getRuleTable : Except Failure τ :=
  match m.bundle with
  | some ⟨_, _, .ruleTable table⟩ => .ok table
  | _ => .error .unsupportedOperation

def call : Call → Option (Answer τ σ)
  | .source => (m.source conf).map .policySource
  | .repoStats => m.bundle.map .repoStats
  | .getAll => some (.policySets m.getAll)
  | .getFirstMatch candidates => some (.policySet (m.getFirstMatch candidates))
  | .getRuleTable => some (.ruleTable m.getRuleTable)

def buildRuleTable : Option τ :=
  match m.getRuleTable with
  | .ok table => some table
  | .error .unsupportedOperation => m.getAll.toOption.bind load
  | .error _ => none

/-- `Manager.reload`: a table that cannot be built leaves the last one in place. -/
def reload : Machine τ σ :=
  match m.buildRuleTable load with
  | some table => { m with ruleTable := table, builtFrom := m.bundle.elim m.builtFrom Bundle.serial }
  | none => m

@[simp] def removeBundle (healthy : Bool) : Option (Machine τ σ) :=
  m.bundle.map (fun b => { m with bundle := none, healthy, removed := b.serial :: m.removed })

/-- `opened` is what opening the bundle gives, `delivered` whether the reload event is handled
before the context is cancelled. -/
def swapBundle (opened : Option (String × Contents τ σ)) (delivered : Bool) : Machine τ σ :=
  match opened with
  | none => m
  | some (id, contents) =>
    let swapped := { m with
      bundle := some ⟨m.opened, id, contents⟩, healthy := true, opened := m.opened + 1 }
    if delivered then swapped.reload load else swapped

end Machine

inductive WatchError where
  | authenticationFailed
  | permissionDenied
  | other

inductive EventError where
  | bundleNotFound
  | permissionDenied
  | other

inductive ServerEvent (τ σ : Type) where
  | error (e : EventError)
  | reconnect
  | bundleRemoved
  | newBundle (opened : Option (String × Contents τ σ)) (delivered : Bool)
  | unknown

inductive Input (τ σ : Type) where
  | watchResult (error : Option WatchError)
  | event (e : ServerEvent τ σ)
  | streamEnded
  | cancelled
  | timer
  | reload (opened : Option (String × Contents τ σ)) (delivered : Bool)
  | call (c : Call)

/-- The inputs on which the loop removes the bundle in a phase. -/
@[simp] def Phase.Removes (phase : Phase) : Input τ σ → Prop
  | .watchResult (some .authenticationFailed) => phase = .connecting
  | .watchResult (some .permissionDenied) => phase = .connecting
  | .event (.error .bundleNotFound) => phase = .watching
  | .event (.error .permissionDenied) => phase = .watching
  | .event .bundleRemoved => phase = .watching
  | _ => False

def noBundleMaxCount : Nat := 10

namespace Machine

variable (conf : Conf) (load : List σ → Option τ) (m : Machine τ σ)

/-- `startWatchLoop` after `startWatch` returned `ErrBundleNotFound`. -/
def backOff : Machine τ σ :=
  { m with
    noBundle := m.noBundle + 1
    phase := if m.noBundle + 1 ≥ noBundleMaxCount then .stopped else .waiting }

/-- `startWatchLoop` after `startWatch` returned no error. -/
@[simp] def restart : Machine τ σ := { m with noBundle := 0, phase := .waiting }

@[simp] def stop : Machine τ σ := { m with phase := .stopped }

@[simp] def onWatchResult : Option WatchError → Option (Machine τ σ)
  | none => some { m with phase := .watching }
  | some .other => some { m with healthy := false }
  | some _ => (m.removeBundle false).map stop

@[simp] def onServerEvent : ServerEvent τ σ → Option (Machine τ σ)
  | .error .bundleNotFound => (m.removeBundle true).map backOff
  | .error .permissionDenied => (m.removeBundle true).map stop
  | .error .other => some m.restart
  | .reconnect => some m.restart
  | .bundleRemoved => m.removeBundle true
  | .newBundle opened delivered =>
    let swapped := m.swapBundle load opened delivered
    if opened.isSome && delivered then swapped.activeBundleID.map (fun _ => swapped)
    else some swapped
  | .unknown => some m

/-- One step of the loop, a reload by the operator or a call.  An input the loop does not wait
for in its phase changes nothing. -/
def step : Input τ σ → Option (Machine τ σ)
  | .watchResult error => if m.phase = .connecting then m.onWatchResult error else some m
  | .event e => if m.phase = .watching then m.onServerEvent load e else some m
  | .streamEnded => some (if m.phase = .watching then m.restart else m)
  | .cancelled => some m.stop
  | .timer => some { m with phase := if m.phase = .waiting then .connecting else m.phase }
  | .reload opened delivered => some (m.swapBundle load opened delivered)
  | .call c => (m.call conf c).map (fun _ => m)

/-- What a caller gets. -/
def answer : Input τ σ → Option (Answer τ σ)
  | .call c => m.call conf c
  | _ => none

/-- The inputs on which the loop removes the bundle. -/
@[simp] def Removes (i : Input τ σ) : Prop := m.phase.Removes i

/-- The calls that do not look whether there is a bundle. -/
@[simp] def Unguarded : Input τ σ → Prop
  | .call .source => conf.deploymentID ≠ ""
  | .call .repoStats => True
  | .call .getRuleTable => True
  | _ => False

end Machine

/-! ## §3. Missing bundles. -/

@[simp] def Answer.failure : Answer τ σ → Option Failure
  | .policySets (.error e) => some e
  | .policySet (.error e) => some e
  | .ruleTable (.error e) => some e
  | _ => none

/-- What the inputs alone tell of the source. -/
structure Outline where
  phase : Phase
  noBundle : Nat
  present : Bool

def Machine.outline (m : Machine τ σ) : Outline := ⟨m.phase, m.noBundle, m.bundle.isSome⟩

namespace Outline

def onServerEvent (o : Outline) : ServerEvent τ σ → Outline
  | .error .bundleNotFound =>
    ⟨if o.noBundle + 1 ≥ noBundleMaxCount then .stopped else .waiting, o.noBundle + 1, false⟩
  | .error .permissionDenied => ⟨.stopped, o.noBundle, false⟩
  | .error .other => ⟨.waiting, 0, o.present⟩
  | .reconnect => ⟨.waiting, 0, o.present⟩
  | .bundleRemoved => { o with present := false }
  | .newBundle opened _ => { o with present := opened.isSome || o.present }
  | .unknown => o

/-- Each input opens or removes a bundle, or moves the loop on. -/
def next (o : Outline) : Input τ σ → Outline
  | .watchResult none => { o with phase := if o.phase = .connecting then .watching else o.phase }
  | .watchResult (some .other) => o
  | .watchResult (some _) => if o.phase = .connecting then ⟨.stopped, o.noBundle, false⟩ else o
  | .event e => if o.phase = .watching then o.onServerEvent e else o
  | .streamEnded => if o.phase = .watching then ⟨.waiting, 0, o.present⟩ else o
  | .cancelled => { o with phase := .stopped }
  | .timer => { o with phase := if o.phase = .waiting then .connecting else o.phase }
  | .reload opened _ => { o with present := opened.isSome || o.present }
  | .call _ => o

/-- **Between two removals, and between a removal and a call that does not look, a bundle is
opened.** -/
def Supplied (conf : Conf) : Outline → List (Input τ σ) → Prop
  | _, [] => True
  | o, i :: is =>
    (o.phase.Removes i ∨ Machine.Unguarded conf i → o.present = true) ∧ Supplied conf (o.next i) is

end Outline

namespace Machine

variable {conf : Conf} {load : List σ → Option τ} {m : Machine τ σ}

/-- The step does not panic, and a call made without a bundle gives a result or
`ErrBundleNotLoaded`. -/
def Fine (conf : Conf) (load : List σ → Option τ) (m : Machine τ σ) (i : Input τ σ) : Prop :=
  (m.step conf load i).isSome ∧ (m.bundle = none →
    ∀ a ∈ m.answer conf i, ∀ e ∈ a.failure, e = .bundleNotLoaded)

@[simp] theorem bundle_reload : (m.reload load).bundle = m.bundle := by
  unfold reload
  split <;> rfl

theorem isSome_activeBundleID_swapBundle {opened : Option (String × Contents τ σ)}
    {delivered : Bool} (h : opened.isSome) :
    ((m.swapBundle load opened delivered).activeBundleID).isSome := by
  obtain ⟨⟨id, contents⟩, rfl⟩ := Option.isSome_iff_exists.mp h
  cases delivered <;> simp [swapBundle, activeBundleID]

variable {i : Input τ σ} {b : Bundle τ σ}

/-- What can panic in the loop is the removal of a missing bundle. -/
theorem isSome_step_iff (hi : ∀ c, i ≠ .call c) :
    (m.step conf load i).isSome ↔ (m.Removes i → m.bundle.isSome) := by
  cases i with
  | watchResult error =>
    cases error with
    | none => by_cases hp : m.phase = .connecting <;> simp [step, hp]
    | some e =>
      by_cases hp : m.phase = .connecting <;> cases e <;>
        simp [step, hp]
  | event e =>
    by_cases hp : m.phase = .watching
    · cases e with
      | error e => cases e <;> simp [step, hp]
      | newBundle opened delivered =>
        cases hopened : opened.isSome with
        | false => simp [step, hp, hopened]
        | true =>
          have hid := @isSome_activeBundleID_swapBundle τ σ load m opened delivered hopened
          cases delivered <;> simp [step, hp, hopened, hid]
      | _ => simp [step, hp]
    · cases e with
      | error e => cases e <;> simp [step, hp]
      | _ => simp [step, hp]
  | call c => exact (hi c rfl).elim
  | _ => simp [step]

theorem isSome_source_iff :
    (m.source conf).isSome ↔ (conf.deploymentID ≠ "" → m.bundle.isSome) := by
  unfold source activeBundleID
  split
  · simp [*]
  · split <;> simp_all

/-- **One step uses no missing bundle iff there is one where it removes it or does not look.** -/
theorem fine_iff (i : Input τ σ) :
    m.Fine conf load i ↔ (m.Removes i ∨ Unguarded conf i → m.bundle.isSome) := by
  unfold Fine
  cases i with
  | call c =>
    cases c with
    | source =>
      by_cases hd : conf.deploymentID = "" <;>
        simp [step, answer, call, isSome_source_iff]
    | _ =>
      cases hb : m.bundle <;> simp [step, answer, call, getAll, getFirstMatch, getRuleTable, hb]
  | _ => simp [isSome_step_iff, answer]

theorem outline_swapBundle (opened : Option (String × Contents τ σ)) (delivered : Bool) :
    (m.swapBundle load opened delivered).outline =
      { m.outline with present := opened.isSome || m.outline.present } := by
  rcases opened with _ | ⟨id, contents⟩
  · rfl
  · cases delivered
    · rfl
    · simp only [swapBundle, reload, if_true]
      split <;> rfl

/-- A step does to the source what its input tells. -/
theorem outline_step {m' : Machine τ σ} (h : m.step conf load i = some m') :
    m'.outline = m.outline.next i := by
  cases i with
  | watchResult error =>
    by_cases hp : m.phase = .connecting <;> rcases error with _ | (_ | _ | _) <;>
      simp [step, hp] at h <;> grind [outline, Outline.next]
  | event e =>
    by_cases hp : m.phase = .watching
    · cases e with
      | newBundle opened delivered =>
        have hswap : m.swapBundle load opened delivered = m' := by
          simp only [step, hp, if_true, onServerEvent] at h
          split at h
          · obtain ⟨_, -, heq⟩ := Option.map_eq_some_iff.mp h
            exact heq
          · exact Option.some.inj h
        rw [← hswap, outline_swapBundle]
        simp [Outline.next, Outline.onServerEvent, outline, hp]
      | error e =>
        cases e <;> simp [step, hp, backOff] at h <;>
          grind [outline, Outline.next, Outline.onServerEvent]
      | _ => simp [step, hp] at h; grind [outline, Outline.next, Outline.onServerEvent]
    · simp [step, hp] at h
      grind [outline, Outline.next]
  | reload opened delivered =>
    cases h
    exact outline_swapBundle opened delivered
  | call c =>
    obtain ⟨_, -, rfl⟩ := Option.map_eq_some_iff.mp h
    rfl
  | streamEnded => simp only [step] at h; grind [outline, Outline.next, restart]
  | _ => simp [step] at h; grind [outline, Outline.next]

theorem eachStep_iff_supplied (inputs : List (Input τ σ)) (m : Machine τ σ) :
    EachStep (step conf load) (Fine conf load) m inputs ↔ m.outline.Supplied conf inputs := by
  induction inputs generalizing m with
  | nil => exact Iff.rfl
  | cons i inputs ih =>
    show (m.Fine conf load i ∧ _) ↔ ((m.Removes i ∨ Unguarded conf i → _) ∧ _)
    refine (and_congr_right fun hfine => ?_).trans (and_congr_left' (fine_iff i))
    obtain ⟨m', hstep⟩ := Option.isSome_iff_exists.mp hfine.1
    rw [hstep, ← outline_step hstep, ← ih m']
    simp

/-- **A run never uses a missing bundle iff there is one whenever a step removes it or a call does
not look**; and this can be told from the inputs. -/
theorem survives_iff (conf : Conf) (load : List σ → Option τ) (m : Machine τ σ)
    (inputs : List (Input τ σ)) : (EachStep (step conf load) (Fine conf load) m inputs ↔
      EachStep (step conf load)
        (fun m i => m.Removes i ∨ Unguarded conf i → m.bundle.isSome) m inputs) ∧
    (EachStep (step conf load) (Fine conf load) m inputs ↔ m.outline.Supplied conf inputs) :=
  ⟨EachStep.congr (fun _ i => fine_iff i), eachStep_iff_supplied inputs m⟩

/-- A source right after `Init`, and the manager built from its bundle. -/
def start (id : String) (contents : Contents τ σ) (table : τ) : Machine τ σ where
  bundle := some ⟨0, id, contents⟩
  healthy := true
  phase := .connecting
  noBundle := 0
  opened := 1
  removed := []
  ruleTable := table
  builtFrom := 0

/-- The label of the bundle is removed twice: the second removal releases a missing bundle.  In
between, `RepoStats` and `Source` use it and `GetRuleTable` says that it is unsupported. -/
theorem removed_twice_panics :
    let twice : List (Input Nat Nat) := [.watchResult none, .event .bundleRemoved]
    let ran := run (step ⟨"D1", ""⟩ List.head?) (start "B1" (.ruleTable 7) 7)
    (ran twice).isSome ∧ ran (twice ++ [.event .bundleRemoved]) = none ∧
      ran (twice ++ [.call .repoStats]) = none ∧ ran (twice ++ [.call .source]) = none ∧
      ((ran twice).bind (fun m => m.answer ⟨"D1", ""⟩ (.call .getRuleTable))) =
        some (.ruleTable (.error .unsupportedOperation)) :=
  ⟨rfl, rfl, rfl, rfl, rfl⟩

/-! ## §4. The table of the manager. -/

/-- The manager uses the table of the current bundle, and not that of a removed one. -/
def Follows (load : List σ → Option τ) (m : Machine τ σ) : Prop :=
  (∀ b ∈ m.bundle, m.builtFrom = b.serial ∧ b.contents.table load = some m.ruleTable) ∧
    m.builtFrom ∉ m.removed

/-- The contents of the bundle an input opens, and whether the manager is told. -/
def opens (m : Machine τ σ) : Input τ σ → Option (Contents τ σ × Bool)
  | .event (.newBundle (some (_, contents)) delivered) =>
    if m.phase = .watching then some (contents, delivered) else none
  | .reload (some (_, contents)) delivered => some (contents, delivered)
  | _ => none

/-- Nothing is removed, and a bundle that is opened has a table the manager is told to load. -/
def Keeps (load : List σ → Option τ) (m : Machine τ σ) (i : Input τ σ) : Prop :=
  ¬ m.Removes i ∧ ∀ c ∈ m.opens i, c.2 = true ∧ (c.1.table load).isSome

/-- No bundle was removed, and the table is that of the current one. -/
structure InSync (load : List σ → Option τ) (m : Machine τ σ) (b : Bundle τ σ) : Prop where
  bundle : m.bundle = some b
  builtFrom : m.builtFrom = b.serial
  table : b.contents.table load = some m.ruleTable
  opened : b.serial < m.opened
  removed : m.removed = []

theorem InSync.follows (h : m.InSync load b) : m.Follows load := by
  simp [Follows, h.bundle, h.builtFrom, h.table, h.removed]

theorem buildRuleTable_eq (h : m.bundle = some b) :
    m.buildRuleTable load = b.contents.table load := by
  obtain ⟨serial, id, contents⟩ := b
  cases contents <;>
    simp [buildRuleTable, getRuleTable, getAll, h, Contents.table, Contents.getAll]

/-- What the fields `InSync` is about become in a step from a state with a bundle. -/
theorem step_cases (hb : m.bundle = some b) (i : Input τ σ) : ∃ m', m.step conf load i = some m' ∧
      ((m.Removes i ∧ m'.bundle = none ∧ m'.removed = b.serial :: m.removed ∧
          m'.builtFrom = m.builtFrom) ∨ (¬ m.Removes i ∧ ∃ id c d, m.opens i = some (c, d) ∧
          m' = m.swapBundle load (some (id, c)) d) ∨
        (¬ m.Removes i ∧ m.opens i = none ∧ m'.bundle = m.bundle ∧ m'.removed = m.removed ∧
          m'.builtFrom = m.builtFrom ∧ m'.ruleTable = m.ruleTable ∧ m'.opened = m.opened)) := by
  cases i with
  | watchResult error =>
    by_cases hp : m.phase = .connecting
    · rcases error with _ | (_ | _ | _) <;>
        simp [step, opens, hp, hb]
    · rcases error with _ | (_ | _ | _) <;> simp [step, opens, hp]
  | event e =>
    by_cases hp : m.phase = .watching
    · cases e with
      | error e =>
        cases e <;> simp [step, opens, backOff, hp, hb]
      | newBundle opened delivered =>
        rcases opened with _ | ⟨id, c⟩
        · simp [step, swapBundle, opens]
        · obtain ⟨x, hx⟩ := Option.isSome_iff_exists.mp
            (@isSome_activeBundleID_swapBundle τ σ load m (some (id, c)) delivered rfl)
          refine ⟨m.swapBundle load _ delivered, ?_, .inr (.inl ⟨fun h => h, id, c,
            delivered, by simp [opens, hp], rfl⟩)⟩
          cases delivered <;> simp [step, hp, hx]
      | _ => simp [step, opens, hp, hb]
    · rcases e with (_ | _ | _) | _ | _ | ⟨_ | ⟨_, _⟩, _⟩ | _ <;> simp [step, opens, hp]
  | reload opened delivered =>
    rcases opened with _ | ⟨id, c⟩
    · simp [step, swapBundle, opens]
    · exact ⟨_, rfl, .inr (.inl ⟨fun h => h, id, c, delivered, rfl, rfl⟩)⟩
  | call c =>
    have hcall : (m.call conf c).isSome := by
      have hfine : m.Fine conf load (.call c) := (fine_iff _).mpr (by simp [hb])
      simpa [step] using hfine.1
    simp [step, opens, Option.isSome_iff_exists.mp hcall]
  | streamEnded => by_cases hp : m.phase = .watching <;> simp [step, opens, hp]
  | _ => simp [step, opens]

theorem InSync.keeps (h : m.InSync load b)
    (hi : m.Keeps load i) : ∃ m', m.step conf load i = some m' ∧ ∃ b', m'.InSync load b' := by
  obtain ⟨m', hstep, ⟨hremoves, _⟩ | ⟨_, id, c, d, hopens, rfl⟩ | ⟨_, _, hb, hr, hf, ht, ho⟩⟩ :=
    @step_cases τ σ conf load m b h.bundle i
  · exact (hi.1 hremoves).elim
  · obtain ⟨rfl, htable⟩ := hi.2 _ hopens
    obtain ⟨table, htable⟩ := Option.isSome_iff_exists.mp htable
    refine ⟨_, hstep, ⟨m.opened, id, c⟩, ?_⟩
    simp only [swapBundle, reload]
    rw [buildRuleTable_eq rfl, htable]
    exact ⟨rfl, rfl, htable, Nat.lt_succ_self _, h.removed⟩
  · exact ⟨m', hstep, b, hb.trans h.bundle, hf.trans h.builtFrom, h.table.trans (ht ▸ rfl),
      ho ▸ h.opened, hr.trans h.removed⟩

theorem InSync.not_follows (h : m.InSync load b)
    (hi : ¬ m.Keeps load i) : ∃ m', m.step conf load i = some m' ∧ ¬ m'.Follows load := by
  obtain ⟨m', hstep, ⟨_, hb, hr, hf⟩ | ⟨hkeeps, id, c, d, hopens, rfl⟩ | ⟨hkeeps, hopens, _⟩⟩ :=
    @step_cases τ σ conf load m b h.bundle i
  · exact ⟨m', hstep, fun hfollows => hfollows.2 (by simp [hr, hf, h.builtFrom])⟩
  · -- the manager keeps a table built from a bundle opened before this one
    refine ⟨_, hstep, fun hfollows => ?_⟩
    have hold : (m.swapBundle load (some (id, c)) d).builtFrom = m.builtFrom := by
      cases d with
      | false => rfl
      | true =>
        cases htable : c.table load with
        | none =>
          simp only [swapBundle, reload, if_true]
          rw [buildRuleTable_eq rfl, htable]
        | some => exact (hi ⟨hkeeps, by simp [hopens, htable]⟩).elim
    have hnew : (m.swapBundle load (some (id, c)) d).bundle = some ⟨m.opened, id, c⟩ := by
      cases d <;> simp [swapBundle]
    have heq : m.builtFrom = m.opened := hold.symm.trans (hfollows.1 _ hnew).1
    have hlt := h.opened
    have hbuilt := h.builtFrom
    omega
  · exact (hi ⟨hkeeps, by simp [hopens]⟩).elim

/-- **The manager follows the source throughout a run iff no bundle is removed in it and every
bundle that is opened has a table and is announced.** -/
theorem follows_iff (conf : Conf) (load : List σ → Option τ) (id : String)
    (contents : Contents τ σ) (table : τ) (htable : contents.table load = some table)
    (inputs : List (Input τ σ)) :
    Throughout (step conf load) (Follows load) (start id contents table) inputs ↔
      EachStep (step conf load) (Keeps load) (start id contents table) inputs := by
  have hstart : (start id contents table).InSync load ⟨0, id, contents⟩ :=
    ⟨rfl, rfl, htable, Nat.one_pos, rfl⟩
  exact throughout_iff (I := fun m => ∃ b, m.InSync load b) (fun ⟨_, h⟩ => h.follows)
    (fun ⟨_, h⟩ hq => h.keeps hq) (fun ⟨_, h⟩ hq => h.not_follows hq) ⟨_, hstart⟩

/-- The bundle is removed, and the manager goes on with its table. -/
theorem removed_table_stays_in_use :
    let ran := run (step ⟨"D1", ""⟩ List.head?) (start (σ := Nat) "B1" (.ruleTable 7) 7)
      [.watchResult none, .event .bundleRemoved]
    ran.map (fun m => (m.ruleTable, m.builtFrom, m.removed)) = some (7, 0, [0]) :=
  rfl

theorem follows_second_bundle : Throughout (step ⟨"D1", ""⟩ List.head?) (Follows List.head?)
      (start (σ := Nat) "B1" (.ruleTable 7) 7)
      [.watchResult none, .event (.newBundle (some ("B2", .ruleTable 8)) true)] :=
  (follows_iff _ _ _ _ _ rfl _).mpr (by simp [Keeps, step, opens, start, Contents.table])

end Machine

end AccessManagement.Storage.Hub
