/-
  AccessManagement.Audit.LocalLog — THE LOCAL AUDIT LOG (package `audit/local`).

  Writers send entries to a buffered channel.  The batch writer selects between the stop signal,
  the channel and a ticker; it collects entries in a batch and writes the batch to the database
  when it is full, at each tick, before it starts afresh and when it stops.  `Close` gives the stop
  signal and waits.  What is still in the channel when the batch writer sees the signal stays
  there.  The database is a MAP: an entry replaces an earlier one of the same kind and call.

  Modelling notes:
    * a state has what the goroutines share and where each of them is; an action is what one of
      them does next, and a select takes any case that is ready;
    * `Write` sends and then returns, and other goroutines may act in between;
    * only the batch writer touches its batch and the database, so `flush` is one action;
    * writes to the database succeed, and its garbage collection removes no entry;
    * `ForceWrite`, which closes the channel, is only for tests.

  Main results:
    * `held_run` — the database is what the received entries make of it, up to the batch.
    * `close_keeps_entries_iff` — when `Close` loses nothing.
    * `entries_run` — nothing is lost or overtaken on the way.
-/
import Mathlib.Tactic.IntervalCases
import Mathlib.Data.List.Induction
import AccessManagement.Lib.Runs

namespace AccessManagement.Audit.Local

open Lib List

/-! ## §1. The database. -/

inductive Kind where
  | accessLogEntry | decisionLogEntry
  deriving DecidableEq, Repr

/-- What tells the keys of one log apart. -/
structure Key where
  kind : Kind
  callID : String
  deriving DecidableEq, Repr

structure Entry where
  key : Key
  value : String
  deriving DecidableEq, Repr

abbrev Database := Key → Option String

/-- `SetEntry`. -/
def Database.setEntry (db : Database) (entry : Entry) : Database :=
  fun key => if key = entry.key then some entry.value else db key

def Database.setAll (db : Database) (entries : List Entry) : Database :=
  entries.foldl Database.setEntry db

def Database.empty : Database := fun _ => none

/-- The last entry of a list with the key of this one is this one. -/
def LastOfKey (entries : List Entry) (entry : Entry) : Prop :=
  (entries.filter (fun e => e.key = entry.key)).getLast? = some entry

/-- Of the entries with one key the last one is found. -/
theorem setAll_empty (entries : List Entry) (key : Key) : Database.empty.setAll entries key =
    (entries.filter (fun e => e.key = key)).getLast?.map Entry.value := by
  induction entries using List.reverseRecOn with
  | nil => rfl
  | append_singleton entries entry ih =>
    show (entries ++ [entry]).foldl Database.setEntry _ key = _
    rw [foldl_append, filter_append]
    show (if key = entry.key then some entry.value else Database.empty.setAll entries key) = _
    by_cases hkey : entry.key = key
    · simp [hkey]
    · simpa [hkey, Ne.symm hkey] using ih

theorem setAll_eq_some_iff {entries : List Entry} {entry : Entry} :
    Database.empty.setAll entries entry.key = some entry.value ↔ LastOfKey entries entry := by
  rw [setAll_empty, LastOfKey, Option.map_eq_some_iff]
  constructor
  · rintro ⟨last, hlast, hvalue⟩
    have hkey : last.key = entry.key := by
      simpa using (mem_filter.mp (mem_of_getLast? hlast)).2
    rw [hlast, show last = entry from by cases last; cases entry; simp_all]
  · intro hlast
    exact ⟨entry, hlast, rfl⟩

/-! ## §2. The machine. -/

def goroutineResetThreshold : Nat := 1 <<< 16

/-- What `Validate` lets through. -/
structure Conf where
  bufferSize : Nat
  maxBatchSize : Nat
  /-- `gcInterval` is positive. -/
  gc : Bool
  bufferSize_pos : 1 ≤ bufferSize
  maxBatchSize_pos : 1 ≤ maxBatchSize

/-- The batch writer, with the rounds left before it starts afresh. -/
inductive Writer where
  | running (left : Nat)
  | stopped
  deriving DecidableEq, Repr

inductive Closing where
  | notCalled | called | returned
  deriving DecidableEq, Repr

structure State where
  buffer : List Entry
  batch : List Entry
  db : Database
  writer : Writer
  gcRunning : Bool
  closing : Closing
  /-- Entries that the batch writer has taken from the channel. -/
  received : List Entry
  /-- Entries of calls of `Write` that have sent and not returned. -/
  sent : List Entry
  /-- Entries of calls of `Write` that have returned nil. -/
  written : List Entry
  /-- Those that had returned when `Close` was called. -/
  writtenBeforeClose : List Entry

variable {conf : Conf} {s s' : State}

/-- `flush`. -/
def State.flush (s : State) : State := { s with db := s.db.setAll s.batch, batch := [] }

/-- `add`: a full batch is written. -/
def State.add (conf : Conf) (s : State) (entry : Entry) : State :=
  let s' := { s with batch := s.batch ++ [entry] }
  if conf.maxBatchSize ≤ s'.batch.length then s'.flush else s'

inductive Action where
  /-- A call of `Write` sends its entry. -/
  | send (entry : Entry)
  /-- One of the calls that have sent returns. -/
  | writeReturns (call : Nat)
  | receive
  | tick
  | restart
  | stop
  | stopGc
  | close
  | closeReturns
  deriving Repr

/-- What an action does, or nothing where it has to wait. -/
def step (conf : Conf) (s : State) : Action → Option State
  | .send entry =>
    if s.buffer.length < conf.bufferSize then
      some { s with buffer := s.buffer ++ [entry], sent := s.sent ++ [entry] }
    else none
  | .writeReturns call =>
    match s.sent[call]? with
    | none => none
    | some entry =>
      some { s with sent := s.sent.eraseIdx call, written := s.written ++ [entry] }
  | .receive =>
    match s.writer, s.buffer with
    | .running (left + 1), entry :: rest =>
      some ({ s with buffer := rest, writer := .running left,
                     received := s.received ++ [entry] }.add conf entry)
    | _, _ => none
  | .tick =>
    match s.writer with
    | .running (left + 1) => some { s.flush with writer := .running left }
    | _ => none
  | .restart =>
    -- the new goroutine has a batch of its own
    match s.writer with
    | .running 0 => some { s.flush with writer := .running goroutineResetThreshold }
    | _ => none
  | .stop =>
    match s.writer with
    | .running (_ + 1) =>
      if s.closing = .notCalled then none else some { s.flush with writer := .stopped }
    | _ => none
  | .stopGc =>
    if s.gcRunning = true ∧ s.closing ≠ .notCalled then some { s with gcRunning := false }
    else none
  | .close =>
    if s.closing = .notCalled then
      some { s with closing := .called, writtenBeforeClose := s.written }
    else none
  | .closeReturns =>
    if s.closing = .called ∧ s.writer = .stopped ∧ s.gcRunning = false then
      some { s with closing := .returned }
    else none

/-- `NewLog`. -/
def newLog (conf : Conf) : State where
  buffer := []
  batch := []
  db := .empty
  writer := .running goroutineResetThreshold
  gcRunning := conf.gc
  closing := .notCalled
  received := []
  sent := []
  written := []
  writtenBeforeClose := []

/-- What the actions can do, with what each of them waits for. -/
inductive Steps (conf : Conf) (s : State) : Action → State → Prop
  | send (entry : Entry) (hroom : s.buffer.length < conf.bufferSize) :
      Steps conf s (.send entry) { s with buffer := s.buffer ++ [entry], sent := s.sent ++ [entry] }
  | writeReturns (call : Nat) (entry : Entry) (hentry : s.sent[call]? = some entry) :
      Steps conf s (.writeReturns call)
        { s with sent := s.sent.eraseIdx call, written := s.written ++ [entry] }
  | receive (left : Nat) (entry : Entry) (rest : List Entry)
      (hwriter : s.writer = .running (left + 1)) (hbuffer : s.buffer = entry :: rest) :
      Steps conf s .receive ({ s with buffer := rest, writer := .running left,
                                      received := s.received ++ [entry] }.add conf entry)
  | tick (left : Nat) (hwriter : s.writer = .running (left + 1)) :
      Steps conf s .tick { s.flush with writer := .running left }
  | restart (hwriter : s.writer = .running 0) :
      Steps conf s .restart { s.flush with writer := .running goroutineResetThreshold }
  | stop (left : Nat) (hwriter : s.writer = .running (left + 1)) (hcalled : s.closing ≠ .notCalled) :
      Steps conf s .stop { s.flush with writer := .stopped }
  | stopGc (hrunning : s.gcRunning = true) (hcalled : s.closing ≠ .notCalled) :
      Steps conf s .stopGc { s with gcRunning := false }
  | close (hopen : s.closing = .notCalled) :
      Steps conf s .close { s with closing := .called, writtenBeforeClose := s.written }
  | closeReturns (hcalled : s.closing = .called) (hstopped : s.writer = .stopped)
      (hgc : s.gcRunning = false) : Steps conf s .closeReturns { s with closing := .returned }

/-- The case analysis of `step`, done once. -/
theorem steps_of_step {a : Action} (h : step conf s a = some s') : Steps conf s a s' := by
  revert h
  fun_cases step <;> intro h <;> cases h
  · exact .send _ (by assumption)
  · exact .writeReturns _ _ (by assumption)
  · exact .receive _ _ _ (by assumption) (by assumption)
  · exact .tick _ (by assumption)
  · exact .restart (by assumption)
  · exact .stop _ (by assumption) (by assumption)
  next hready => exact .stopGc hready.1 hready.2
  · exact .close (by assumption)
  next hready => exact .closeReturns hready.1 hready.2.1 hready.2.2

/-! ## §3. Where the entries are. -/

/-- What was received is in the database, where the last entry of a key counts, or in the batch. -/
structure Held (conf : Conf) (s : State) : Prop where
  stored : ∃ flushed, s.received = flushed ++ s.batch ∧ s.db = Database.empty.setAll flushed
  /-- The next entry has a place in the batch. -/
  room : s.batch.length < conf.maxBatchSize

namespace Held

theorem newLog : Held conf (newLog conf) where
  stored := ⟨[], rfl, rfl⟩
  room := conf.maxBatchSize_pos

/-- The batch goes to the database, whatever the batch writer does next. -/
theorem flush (h : ∃ flushed, s.received = flushed ++ s.batch ∧ s.db = Database.empty.setAll flushed)
    (writer : Writer) : Held conf { s.flush with writer := writer } := by
  obtain ⟨flushed, hreceived, hdb⟩ := h
  refine ⟨⟨flushed ++ s.batch, ?_, ?_⟩, conf.maxBatchSize_pos⟩
  · show s.received = flushed ++ s.batch ++ []
    rw [append_nil, hreceived]
  · show s.db.setAll s.batch = Database.empty.setAll (flushed ++ s.batch)
    rw [hdb, Database.setAll, Database.setAll, Database.setAll, foldl_append]

/-- The batch writer takes the first entry of the channel. -/
theorem receive (h : Held conf s) (entry : Entry) (rest : List Entry) (writer : Writer) :
    Held conf ({ s with buffer := rest, writer := writer,
                        received := s.received ++ [entry] }.add conf entry) := by
  obtain ⟨flushed, hreceived, hdb⟩ := h.stored
  have hstored : ∃ flushed, s.received ++ [entry] = flushed ++ (s.batch ++ [entry]) ∧
      s.db = Database.empty.setAll flushed := ⟨flushed, by rw [hreceived, append_assoc], hdb⟩
  unfold State.add
  dsimp only
  split
  · exact flush (s := { s with buffer := rest, writer := writer, batch := s.batch ++ [entry],
                               received := s.received ++ [entry] }) hstored writer
  · next hroom => exact ⟨hstored, Nat.lt_of_not_le hroom⟩

/-- **One action** keeps what was received. -/
theorem step {a : Action} (h : Held conf s) (hstep : step conf s a = some s') : Held conf s' := by
  cases steps_of_step hstep with
  | receive _ entry rest => exact h.receive entry rest _
  | tick | restart | stop => exact flush h.stored _
  | send | writeReturns | stopGc | close | closeReturns => exact ⟨h.stored, h.room⟩

end Held

/-- **The run** keeps what was received. -/
theorem held_run {as : List Action} {s : State}
    (h : run (step conf) (newLog conf) as = some s) : Held conf s :=
  run_invariant Held.step Held.newLog h

/-! ## §4. Closing. -/

section Closing

variable {conf : Conf} {s s₁ s' : State} {a : Action}

@[simp] theorem writer_add (entry : Entry) : (s.add conf entry).writer = s.writer := by
  unfold State.add
  dsimp only
  split <;> rfl

@[simp] theorem closing_add (entry : Entry) : (s.add conf entry).closing = s.closing := by
  unfold State.add
  dsimp only
  split <;> rfl

/-- Only the stop signal stops the batch writer. -/
theorem eq_stop_of_step (hrunning : s.writer ≠ .stopped)
    (hstep : step conf s a = some s') (hstopped : s'.writer = .stopped) : a = .stop := by
  cases steps_of_step hstep with
  | stop => rfl
  | send | writeReturns | stopGc | close => exact (hrunning hstopped).elim
  | receive => rw [writer_add] at hstopped; cases hstopped
  | tick | restart => cases hstopped
  | closeReturns _ hready => exact (hrunning hready).elim

/-- `Close` returns only after the batch writer has stopped. -/
theorem stopped_step (h : s.closing = .returned → s.writer = .stopped)
    (hstep : step conf s a = some s') : s'.closing = .returned → s'.writer = .stopped := by
  intro hreturned
  cases steps_of_step hstep with
  | stop => rfl
  | send | writeReturns | stopGc => exact h hreturned
  | receive _ _ _ hwriter =>
    rw [closing_add] at hreturned
    rw [h hreturned] at hwriter
    cases hwriter
  | tick _ hwriter | restart hwriter => rw [h hreturned] at hwriter; cases hwriter
  | close => cases hreturned
  | closeReturns _ hready => exact hready

/-- After the batch writer has stopped. -/
structure Settled (s₁ s : State) : Prop where
  stopped : s.writer = .stopped
  closed : s.closing ≠ .notCalled
  db : s.db = s₁.db
  before : s.writtenBeforeClose = s₁.writtenBeforeClose

/-- Nothing reaches the database any more. -/
theorem Settled.step (h : Settled s₁ s) (hstep : step conf s a = some s') : Settled s₁ s' := by
  obtain ⟨hstopped, hclosed, hdb, hbefore⟩ := h
  cases steps_of_step hstep with
  | send | writeReturns | stopGc => exact ⟨hstopped, hclosed, hdb, hbefore⟩
  | receive _ _ _ hwriter | tick _ hwriter | restart hwriter | stop _ hwriter =>
    rw [hstopped] at hwriter
    cases hwriter
  | close hopen => exact (hclosed hopen).elim
  | closeReturns => exact ⟨hstopped, Closing.noConfusion, hdb, hbefore⟩

/-- What is in the database when `Close` returns: what the entries make of it that were received
when the batch writer stopped. -/
theorem settled_of_stop {after : List Action} (hheld : Held conf s₁)
    (h : run (step conf) s₁ (.stop :: after) = some s) :
    s.db = Database.empty.setAll s₁.received ∧ s.writtenBeforeClose = s₁.writtenBeforeClose := by
  obtain ⟨s₂, hstep, hafter⟩ := run_cons.mp h
  cases steps_of_step hstep with
  | stop _ _ hcalled =>
    have hstart : Settled { s₁.flush with writer := .stopped } { s₁.flush with writer := .stopped } :=
      ⟨rfl, hcalled, rfl, rfl⟩
    have hsettled := run_invariant Settled.step hstart hafter
    obtain ⟨flushed, hreceived, hdb⟩ := (@Held.flush conf s₁ hheld.stored .stopped).stored
    have hall : s₁.received = flushed := hreceived.trans (append_nil flushed)
    exact ⟨hsettled.db.trans (hall ▸ hdb), hsettled.before⟩

/-- **When closing loses nothing.**  An entry that was written before `Close` was called is in the
database when `Close` returns, exactly if it is the last one of its key that the batch writer
had received when it took the stop signal. -/
theorem close_keeps_entries_iff {as : List Action}
    (h : run (step conf) (newLog conf) as = some s) (hreturned : s.closing = .returned) :
    (∀ e ∈ s.writtenBeforeClose, s.db e.key = some e.value) ↔
      ∀ before after s₁, as = before ++ .stop :: after →
        run (step conf) (newLog conf) before = some s₁ →
          ∀ e ∈ s₁.writtenBeforeClose, LastOfKey s₁.received e := by
  constructor
  · rintro hkept before after s₁ rfl hbefore e he
    obtain ⟨s₁', hbefore', hafter⟩ := run_append.mp h
    rw [hbefore] at hbefore'
    cases hbefore'
    obtain ⟨hdb, hwritten⟩ := settled_of_stop (held_run hbefore) hafter
    have hin := hkept e (hwritten ▸ he)
    rwa [hdb, setAll_eq_some_iff] at hin
  · intro hready e he
    have hstopped : s.writer = .stopped :=
      run_invariant stopped_step (fun hnot => by cases hnot) h hreturned
    obtain ⟨before, a, after, s₁, s₂, rfl, hbefore, hrunning, hstep, hnow, hafter⟩ :=
      @run_crosses _ _ (step conf) (fun s => s.writer = .stopped) as (newLog conf) s
        (fun hnot => by cases hnot) hstopped h
    cases eq_stop_of_step hrunning hstep hnow
    obtain ⟨hdb, hwritten⟩ :=
      settled_of_stop (held_run hbefore) (run_cons.mpr ⟨s₂, hstep, hafter⟩)
    rw [hdb, setAll_eq_some_iff]
    exact hready before after s₁ rfl hbefore e (hwritten ▸ he)

end Closing

/-! ## §5. The order of the entries. -/

/-- What an action sends. -/
def Action.sends : Action → Option Entry
  | .send entry => some entry
  | _ => none

/-- **One action** appends what it sends; the others only move an entry along. -/
theorem received_buffer_step {a : Action} (h : step conf s a = some s') :
    s'.received ++ s'.buffer = s.received ++ s.buffer ++ a.sends.toList := by
  cases steps_of_step h with
  | receive _ entry rest _ hbuffer =>
    unfold State.add
    dsimp only
    split <;> simp [State.flush, Action.sends, hbuffer]
  | _ => simp [State.flush, Action.sends]

/-- **Nothing is lost or overtaken on the way**: however writers, ticks, restarts and closing
interleave, the entries that were sent are, in the order of sending, those that were set in the
database, then the batch, then the channel. -/
theorem entries_run {conf : Conf} {as : List Action} {s : State}
    (h : run (step conf) (newLog conf) as = some s) : ∃ flushed,
      s.db = Database.empty.setAll flushed ∧
        flushed ++ s.batch ++ s.buffer = as.filterMap Action.sends := by
  have hrun : ∀ (as : List Action) (s₀ : State), run (step conf) s₀ as = some s →
      s.received ++ s.buffer = s₀.received ++ s₀.buffer ++ as.filterMap Action.sends := by
    intro as
    induction as with
    | nil =>
      intro s₀ h
      cases h
      exact (append_nil _).symm
    | cons a as ih =>
      intro s₀ h
      obtain ⟨s₁, hstep, hrest⟩ := run_cons.mp h
      rw [ih s₁ hrest, received_buffer_step hstep]
      cases hsends : a.sends <;> simp [hsends]
  obtain ⟨flushed, hreceived, hdb⟩ := (held_run h).stored
  exact ⟨flushed, hdb, hreceived ▸ hrun as (newLog conf) h⟩

/-- A batch of two entries. -/
def smallConf : Conf where
  bufferSize := 4
  maxBatchSize := 2
  gc := true
  bufferSize_pos := Nat.succ_le_succ (Nat.zero_le 3)
  maxBatchSize_pos := Nat.succ_le_succ (Nat.zero_le 1)

def access (callID value : String) : Entry := ⟨⟨.accessLogEntry, callID⟩, value⟩
def decision (callID value : String) : Entry := ⟨⟨.decisionLogEntry, callID⟩, value⟩

/-- Two entries of one call fill a batch, a third is in the batch and a fourth in the channel. -/
theorem entries_run_four : ∃ s, run (step smallConf) (newLog smallConf)
      [.send (access "1" "a"), .receive, .send (decision "1" "b"), .send (decision "2" "c"),
        .receive, .receive, .send (access "2" "d")] = some s ∧ s.batch = [decision "2" "c"] ∧
      ∃ flushed, s.db = Database.empty.setAll flushed ∧ flushed ++ s.batch ++ s.buffer =
        [access "1" "a", decision "1" "b", decision "2" "c", access "2" "d"] := by
  have hrun : ∃ s, run (step smallConf) (newLog smallConf)
      [.send (access "1" "a"), .receive, .send (decision "1" "b"), .send (decision "2" "c"),
        .receive, .receive, .send (access "2" "d")] = some s ∧ s.batch = [decision "2" "c"] :=
    ⟨_, rfl, rfl⟩
  exact hrun.imp (fun s hs => ⟨hs.1, hs.2, entries_run hs.1⟩)

/-- The batch writer has received both entries of the call when it stops. -/
theorem received_entries_kept : ∃ s, run (step smallConf) (newLog smallConf)
        [.send (access "1" "a"), .send (decision "1" "b"), .writeReturns 0, .writeReturns 0,
          .receive, .close, .receive, .stop, .stopGc, .closeReturns] = some s ∧
      s.closing = .returned ∧ s.writtenBeforeClose = [access "1" "a", decision "1" "b"] ∧
      ∀ e ∈ s.writtenBeforeClose, s.db e.key = some e.value := by
  have heval : (run (step smallConf) (newLog smallConf)
      [.send (access "1" "a"), .send (decision "1" "b"), .writeReturns 0, .writeReturns 0,
        .receive, .close, .receive, .stop, .stopGc, .closeReturns]).map
          (fun s => (s.closing, s.writtenBeforeClose)) =
        some (.returned, [access "1" "a", decision "1" "b"]) := by
    decide +kernel
  obtain ⟨s, hrun, hs⟩ := Option.map_eq_some_iff.mp heval
  obtain ⟨hreturned, hwritten⟩ := Prod.mk.inj hs
  refine ⟨s, hrun, hreturned, hwritten, (close_keeps_entries_iff hrun hreturned).mpr ?_⟩
  intro before after s₁ hsplit hbefore e he
  -- the stop signal is taken once, after both entries were received
  have hget := congrArg (fun l => l[before.length]?) hsplit
  have htake := congrArg (List.take before.length) hsplit
  have hlen := congrArg List.length hsplit
  rw [take_left] at htake
  rw [length_append] at hlen
  rw [List.getElem?_append_right (Nat.le_refl _)] at hget
  have hplace : before.length = 7 := by
    generalize before.length = k at hget hlen
    have hk : k ≤ 9 := by simp at hlen; omega
    interval_cases k <;> first | rfl | cases hget
  rw [hplace] at htake
  subst htake
  cases hbefore
  have hall : ∀ e ∈ [access "1" "a", decision "1" "b"], [access "1" "a", decision "1" "b"].filter
      (fun e' => e'.key = e.key) = [e] := by decide
  rw [LastOfKey]
  exact congrArg List.getLast? (hall e he)

/-- The channel still has the entry when the batch writer stops: both cases of the select are
ready, and the stop signal is taken. -/
theorem buffered_entry_lost : ∃ s, run (step smallConf) (newLog smallConf)
        [.send (access "1" "a"), .writeReturns 0, .close, .stop, .stopGc, .closeReturns] = some s ∧
      s.closing = .returned ∧ access "1" "a" ∈ s.writtenBeforeClose ∧
      s.db (access "1" "a").key = none := by
  have heval : (run (step smallConf) (newLog smallConf)
      [.send (access "1" "a"), .writeReturns 0, .close, .stop, .stopGc, .closeReturns]).map
        (fun s => (s.closing, s.writtenBeforeClose, s.db (access "1" "a").key)) =
      some (.returned, [access "1" "a"], none) := by
    decide +kernel
  obtain ⟨s, hrun, hs⟩ := Option.map_eq_some_iff.mp heval
  simp only [Prod.mk.injEq] at hs
  obtain ⟨hreturned, hwritten, hdb⟩ := hs
  exact ⟨s, hrun, hreturned, by rw [hwritten]; exact mem_singleton_self _, hdb⟩

end AccessManagement.Audit.Local
