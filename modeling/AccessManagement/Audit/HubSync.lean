/-
  AccessManagement.Audit.HubSync — SHIPPING THE AUDIT LOG (package `audit/hub`).

  The store has entries and, for each entry that is still to be shipped, a sync marker whose value
  is the key of the entry.  `streamKind` walks the markers in rounds.  In each round it frames
  entries into one batch, in a read transaction of its own, until the batch is full; then it ships
  the batch and deletes the markers of the round.  An entry that makes the batch too large is taken
  out again, and the next round starts after the last marker that was dealt with.  Entries of old
  versions that are too large on their own are written again through the write path; their markers
  are deleted at the end.

  Modelling notes:
    * a transaction reads a snapshot, and a write batch is deleted as a whole or not at all;
    * between transactions others (writers, the stream of the other kind, expiry) may change the
      store in any way, and every call outside this package may fail: both are part of a `Turn`;
    * field numbers come from descriptors, and the bytes of fields from `protowire`.

  Main results:
    * `readEntry_eq` — the two iterators and the point read together find what is in the snapshot.
    * `sound_scan` — what a round has read, framed and rewritten.
    * `markers_deleted_only_if` — why a marker was deleted, and how large batches are.
-/
import AccessManagement.Lib.Wire

namespace AccessManagement.Audit.Hub

open Lib List

variable {raws earlier : List Bytes} {kind : EntryKind} {batchID : String} {sc : Scan}
  {items : List (Bytes × Bytes)}

abbrev Bytes := List UInt8

/-! ## §1. The framer. -/

/-- `IngestBatch_EntryKind`. -/
inductive EntryKind where
  | accessLog | decisionLog
  deriving DecidableEq, Repr

/-- What the framer takes from the descriptors and from `protowire`. -/
structure Protocol where
  batchID : Nat
  batchEntries : Nat
  entryKind : Nat
  entryTimestamp : Nat
  accessLogEntry : Nat
  decisionLogEntry : Nat
  accessTimestampField : Nat
  decisionTimestampField : Nat
  kindNumber : EntryKind → Nat
  appendTag : (num typ : Nat) → Bytes
  appendVarint : Nat → Bytes
  appendBytes : Bytes → Bytes
  sizeTag : Nat → Nat
  sizeVarint : Nat → Nat
  sizeBytes : Nat → Nat
  /-- `ConsumeTag`: number, wire type and length. -/
  consumeTag : Bytes → Option (Nat × Nat × Nat)
  /-- `ConsumeBytes`. -/
  consumeBytes : Bytes → Option Bytes
  /-- `ConsumeFieldValue`. -/
  consumeFieldValue : Nat → Nat → Bytes → Option Nat

namespace Protocol

def varintType : Nat := 0

def bytesType : Nat := 2

variable (p : Protocol)

/-- `fetchFieldBytes`; every field has a byte at least. -/
def fetchFieldBytes (target : Nat) : (fuel : Nat) → Bytes → Option Bytes
  | 0, _ => none
  | fuel + 1, buf =>
    if buf = [] then none
    else
      match p.consumeTag buf with
      | none => none
      | some (num, typ, n) =>
        let rest := buf.drop n
        if num = target ∧ typ = bytesType then p.consumeBytes rest
        else
          match p.consumeFieldValue num typ rest with
          | none => none
          | some m => fetchFieldBytes target fuel (rest.drop m)

/-- `entryFields`. -/
def entryFields : EntryKind → Nat × Nat
  | .decisionLog => (p.decisionTimestampField, p.decisionLogEntry)
  | .accessLog => (p.accessTimestampField, p.accessLogEntry)

def timestampOf (kind : EntryKind) (raw : Bytes) : Option Bytes :=
  p.fetchFieldBytes (p.entryFields kind).1 raw.length raw

/-- `entryWireSize`. -/
def entryWireSize (kind : EntryKind) (ts : Option Bytes) (rawLen : Nat) : Nat :=
  p.sizeTag p.entryKind + p.sizeVarint (p.kindNumber kind) + (match ts with
      | some ts => p.sizeTag p.entryTimestamp + p.sizeBytes ts.length
      | none => 0) +
    (p.sizeTag (p.entryFields kind).2 + p.sizeBytes rawLen)

/-- `getEntrySize`. -/
def getEntrySize (kind : EntryKind) (raw : Bytes) : Nat :=
  p.entryWireSize kind (p.timestampOf kind raw) raw.length

/-- The fields of an `IngestBatch_Entry`. -/
def entryBody (kind : EntryKind) (raw : Bytes) : Bytes :=
  p.appendTag p.entryKind varintType ++ p.appendVarint (p.kindNumber kind) ++
    (match p.timestampOf kind raw with
      | some ts => p.appendTag p.entryTimestamp bytesType ++ p.appendBytes ts
      | none => []) ++
    (p.appendTag (p.entryFields kind).2 bytesType ++ p.appendBytes raw)

/-- What `add` appends to the batch. -/
def frame (kind : EntryKind) (raw : Bytes) : Bytes :=
  p.appendTag p.batchEntries bytesType ++ p.appendVarint (p.getEntrySize kind raw) ++
    p.entryBody kind raw

def header (batchID : String) : Bytes :=
  p.appendTag p.batchID bytesType ++ p.appendBytes (utf8 batchID)

end Protocol

/-- `batchFramer`. -/
structure Framer where
  buf : Bytes
  count : Nat
  lastStart : Nat
  deriving DecidableEq, Repr

namespace Framer

variable (p : Protocol)

/-- `beginBatchWithID`. -/
def beginBatchWithID (f : Framer) (batchID : String) : Framer :=
  { f with buf := p.header batchID, count := 0 }

/-- `add`. -/
def add (f : Framer) (kind : EntryKind) (raw : Bytes) : Framer where
  buf := f.buf ++ p.frame kind raw
  count := f.count + 1
  lastStart := f.buf.length

/-- `size`. -/
def size (f : Framer) : Nat := f.buf.length

/-- `dropLast`. -/
def dropLast (f : Framer) : Framer :=
  { f with buf := f.buf.take f.lastStart, count := f.count - 1 }

/-- The last entry can be taken out again. -/
theorem dropLast_add (f : Framer) (kind : EntryKind) (raw : Bytes) :
    (f.add p kind raw).dropLast = { f with lastStart := f.buf.length } := by
  unfold dropLast add
  simp

/-- The batch has these entries and no others. -/
structure Holds (f : Framer) (kind : EntryKind) (batchID : String) (raws : List Bytes) : Prop where
  buf : f.buf = p.header batchID ++ raws.flatMap (p.frame kind)
  count : f.count = raws.length

variable {p} {f : Framer}

theorem holds_beginBatch : (f.beginBatchWithID p batchID).Holds p kind batchID [] where
  buf := by simp [beginBatchWithID]
  count := rfl

theorem Holds.add (h : f.Holds p kind batchID raws) (raw : Bytes) :
    (f.add p kind raw).Holds p kind batchID (raws ++ [raw]) where
  buf := by
    unfold Framer.add
    rw [h.buf]
    simp
  count := by
    unfold Framer.add
    rw [h.count, length_append]
    rfl

theorem Holds.dropLast_add (h : f.Holds p kind batchID raws) (raw : Bytes) :
    (f.add p kind raw).dropLast.Holds p kind batchID raws := by
  rw [Framer.dropLast_add]
  exact ⟨h.buf, h.count⟩

end Framer

/-! ## §2. The store. -/

/-- The keys of a store in their order, with the values. -/
structure Store where
  items : List (Bytes × Bytes)
  sorted : items.Pairwise (fun a b => a.1 < b.1)

namespace Store

/-- A point read. -/
def get (s : Store) (key : Bytes) : Option Bytes := s.items.lookup key

/-- The items that an iterator with a prefix shows. -/
def withPrefix (s : Store) (start : Bytes) : List (Bytes × Bytes) :=
  s.items.filter (fun e => start.isPrefixOf e.1)

/-- A write batch of deletions. -/
def delete (s : Store) (keys : List Bytes) : Store where
  items := s.items.filter (fun e => !keys.contains e.1)
  sorted := List.Pairwise.filter (fun e => !keys.contains e.1) s.sorted

variable {key value : Bytes}

theorem lookup_of_pairwise {items : List (Bytes × Bytes)}
    (hsorted : items.Pairwise (fun a b => a.1 < b.1)) (h : (key, value) ∈ items) :
    items.lookup key = some value := by
  obtain ⟨before, after, rfl⟩ := append_of_mem h
  refine lookup_eq_some_iff.mpr ⟨before, after, rfl, fun e he => bne_iff_ne.mpr ?_⟩
  have hlt : e.1 < key := (pairwise_append.mp hsorted).2.2 e he _ mem_cons_self
  intro heq
  rw [heq] at hlt
  exact List.lt_irrefl _ hlt

theorem get_of_mem {s : Store} (h : (key, value) ∈ s.items) : s.get key = some value :=
  lookup_of_pairwise s.sorted h

end Store

/-- `Seek`: the first item that is not before the key. -/
def seekTo (items : List (Bytes × Bytes)) (key : Bytes) : List (Bytes × Bytes) :=
  items.dropWhile (fun e => e.1 < key)

/-! ## §3. Reading an entry. -/

def maxEntrySeekLinearSteps : Nat := 8

/-- `entryJoiner`, with what is ahead of its iterator. -/
structure Joiner where
  ahead : List (Bytes × Bytes)
  steps : Nat
  positioned : Bool
  deriving DecidableEq, Repr

/-- The loop of `join`. -/
def joinLoop (items : List (Bytes × Bytes)) (logKey : Bytes) :
    List (Bytes × Bytes) → Nat → Option Bytes × List (Bytes × Bytes) × Nat
  | [], steps => (none, [], steps)
  | e :: ahead, steps =>
    if e.1 = logKey then (some e.2, ahead, steps)
    else if logKey < e.1 then (none, e :: ahead, steps)
    else if maxEntrySeekLinearSteps < steps + 1 then
      -- after the seek the iterator is not before the key, so the next round is the last
      match seekTo items logKey with
      | [] => (none, [], 0)
      | e' :: ahead' =>
        if e'.1 = logKey then (some e'.2, ahead', 0) else (none, e' :: ahead', 0)
    else joinLoop items logKey ahead (steps + 1)

/-- `join`. -/
def Joiner.join (j : Joiner) (items : List (Bytes × Bytes)) (logKey : Bytes) :
    Option Bytes × Joiner :=
  let start := if j.positioned then j.ahead else seekTo items logKey
  let result := joinLoop items logKey start j.steps
  (result.1, { ahead := result.2.1, steps := result.2.2, positioned := true })

/-- `readEntry`: the iterator, or else a point read, which an empty key makes fail. -/
def readEntry (snapshot : Store) (entryPrefix logKey : Bytes) (j : Joiner) :
    Option (Option Bytes × Joiner) :=
  let joined := j.join (snapshot.withPrefix entryPrefix) logKey
  match joined.1 with
  | some raw => some (some raw, joined.2)
  | none => if logKey = [] then none else some (snapshot.get logKey, joined.2)

theorem mem_of_mem_seekTo {key : Bytes} {e : Bytes × Bytes}
    (h : e ∈ seekTo items key) : e ∈ items := (List.dropWhile_sublist _).subset h

/-- What the loop finds is there. -/
theorem joinLoop_spec {logKey : Bytes}
    {ahead : List (Bytes × Bytes)} {steps : Nat} (hahead : ∀ e ∈ ahead, e ∈ items) :
    (∀ raw, (joinLoop items logKey ahead steps).1 = some raw → (logKey, raw) ∈ items) ∧
      ∀ e ∈ (joinLoop items logKey ahead steps).2.1, e ∈ items := by
  have hseek := fun e => @mem_of_mem_seekTo items logKey e
  fun_induction joinLoop <;> grind

/-- The iterator is somewhere in the entries of the snapshot. -/
def Joiner.Within (j : Joiner) (items : List (Bytes × Bytes)) : Prop := ∀ e ∈ j.ahead, e ∈ items

/-- The iterator stays there, and what it finds is there. -/
theorem Joiner.join_spec {j : Joiner} {logKey : Bytes} (hj : j.Within items) :
    (∀ raw, (j.join items logKey).1 = some raw → (logKey, raw) ∈ items) ∧
      (j.join items logKey).2.Within items := by
  have hstart : ∀ e ∈ (if j.positioned then j.ahead else seekTo items logKey), e ∈ items := by
    intro e he
    split at he
    · exact hj e he
    · exact mem_of_mem_seekTo he
  exact joinLoop_spec hstart

/-- **An entry is found** exactly if it is in the snapshot. -/
theorem readEntry_eq {snapshot : Store} {entryPrefix logKey : Bytes} {j j' : Joiner}
    {found : Option Bytes} (hj : j.Within (snapshot.withPrefix entryPrefix))
    (h : readEntry snapshot entryPrefix logKey j = some (found, j')) :
    found = snapshot.get logKey ∧ j'.Within (snapshot.withPrefix entryPrefix) := by
  obtain ⟨hsound, hahead⟩ := @Joiner.join_spec _ _ logKey hj
  unfold readEntry at h
  dsimp only at h
  split at h
  next raw hjoin =>
    cases h
    exact ⟨(Store.get_of_mem (mem_of_mem_filter (hsound raw hjoin))).symm, hahead⟩
  · split at h
    · cases h
    · cases h
      exact ⟨rfl, hahead⟩

/-! ## §4. One round. -/

structure Conf where
  /-- `KeyPrefix`. -/
  keyPrefix : Bytes
  maxBatchSize : Nat
  maxBatchSizeBytes : Nat

namespace Conf

def kindAccessLogEntry : Bytes := utf8 "aacc"

def kindDecisionLogEntry : Bytes := utf8 "adec"

def kindAccessLogSync : Bytes := utf8 "bsac"

def kindDecisionLogSync : Bytes := utf8 "bsde"

/-- `kindPrefixes`. -/
def markerPrefix (conf : Conf) : EntryKind → Bytes
  | .accessLog => conf.keyPrefix ++ kindAccessLogSync
  | .decisionLog => conf.keyPrefix ++ kindDecisionLogSync

def entryPrefix (conf : Conf) : EntryKind → Bytes
  | .accessLog => conf.keyPrefix ++ kindAccessLogEntry
  | .decisionLog => conf.keyPrefix ++ kindDecisionLogEntry

end Conf

def legacyKeyLen : Nat := 20

/-- `isLegacy`. -/
def isLegacy (key : Bytes) : Bool := key.length == legacyKeyLen

/-- What `Delete` of a write batch returns.  A batch whose transaction was discarded is replaced by a
new one, which may take the key or not. -/
inductive WriteResult where
  | done
  | discarded (again : Bool)
  | failed

/-- The write batch after a deletion was put in it. -/
def WriteResult.queue (r : WriteResult) (batch : List Bytes) (k : Bytes) : Option (List Bytes) :=
  match r with
  | done => some (batch ++ [k])
  | discarded again => some (if again then [k] else [])
  | failed => none

/-- The loop of `deleteMarkerKeys`. -/
def queueAll (result : Bytes → WriteResult) : (batch keys : List Bytes) → Option (List Bytes)
  | batch, [] => some batch
  | batch, k :: keys =>
    match (result k).queue batch k with
    | none => none
    | some batch' => queueAll result batch' keys

theorem WriteResult.mem_queue {r : WriteResult} {batch batch' : List Bytes} {k key : Bytes}
    (h : r.queue batch k = some batch') (hkey : key ∈ batch') : key ∈ batch ∨ key = k := by
  unfold queue at h
  grind

theorem mem_queueAll {result : Bytes → WriteResult} {batch keys batch' : List Bytes} {key : Bytes}
    (h : queueAll result batch keys = some batch') (hkey : key ∈ batch') :
    key ∈ batch ∨ key ∈ keys := by
  fun_induction queueAll with
  | case1 =>
    cases h
    exact .inl hkey
  | case2 => cases h
  | case3 batch k keys batch₁ hqueue ih =>
    rcases ih h with hold | hlater
    · rcases WriteResult.mem_queue hqueue hold with hin | rfl
      · exact .inl hin
      · exact .inr mem_cons_self
    · exact .inr (mem_cons_of_mem _ hlater)

/-- What happens around one round of `streamKind`. -/
structure Turn where
  cancelled : Bool
  /-- The new batch ID, if one can be made. -/
  batchID : Option String
  /-- What others have done to the store before the transaction. -/
  others : Store → Store
  /-- Values that cannot be read. -/
  valueFails : Bytes → Bool
  /-- An entry can be decoded, and the write path takes it. -/
  rewrites : Bytes → Bool
  /-- What comes of a deletion that is put in the write batch of the legacy keys. -/
  queues : Bytes → WriteResult
  syncs : Bool
  /-- What others do to the store between the transaction and the deletion. -/
  meanwhile : Store → Store
  /-- What comes of a deletion that is put in the write batch of the markers. -/
  deletion : Bytes → WriteResult
  deletes : Bool
  /-- What others do to the store before the legacy keys are deleted. -/
  afterwards : Store → Store
  flushes : Bool

/-- Where a round is. -/
structure Scan where
  framer : Framer
  /-- The markers of the batch, `keys[:i]`. -/
  keys : List Bytes
  last : Bytes
  joiner : Joiner
  /-- Legacy markers whose entries were written again, with the entries. -/
  rewritten : List (Bytes × Bytes) := []
  /-- The write batch of the legacy keys. -/
  queued : List Bytes

section Round

variable (p : Protocol) (conf : Conf) (kind : EntryKind) (turn : Turn) (snapshot : Store)

/-- The loop over the markers: nothing after an error, else where the round ends and whether there
are more markers. -/
def scan : List (Bytes × Bytes) → Scan → Option (Scan × Bool)
  | [], sc => some (sc, false)
  | (k, logKey) :: markers, sc =>
    -- the buffer for marker keys is full
    if sc.keys.length = conf.maxBatchSize then some (sc, true)
    else if turn.valueFails k || turn.valueFails logKey then none
    else
      match readEntry snapshot (conf.entryPrefix kind) logKey sc.joiner with
      | none => none
      | some (none, joiner) =>
        scan markers { sc with keys := sc.keys ++ [k], last := k, joiner := joiner }
      | some (some raw, joiner) =>
        if isLegacy k && decide (conf.maxBatchSizeBytes < p.getEntrySize kind raw) then
          -- `rewriteOversizedRaw`
          if turn.rewrites raw then
            match (turn.queues k).queue sc.queued k with
            | none => none
            | some queued =>
              scan markers { sc with last := k, joiner := joiner, queued := queued,
                                     rewritten := sc.rewritten ++ [(k, raw)] }
          else none
        else
          let framer := sc.framer.add p kind raw
          -- the entry is taken out again, and its marker is left for the next round
          if 1 < framer.count ∧ conf.maxBatchSizeBytes < framer.size then
            some ({ sc with framer := framer.dropLast, joiner := joiner }, true)
          else scan markers { sc with framer := framer, keys := sc.keys ++ [k], last := k,
                                      joiner := joiner }

/-- What a round knows about its markers. -/
structure Sound (batchID : String) (earlier raws : List Bytes) (sc : Scan) : Prop where
  framed : sc.framer.Holds p kind batchID raws
  within : sc.joiner.Within (snapshot.withPrefix (conf.entryPrefix kind))
  /-- Entries of the markers are in the batch, or they were not there. -/
  keys : ∀ k ∈ sc.keys, ∃ logKey, (k, logKey) ∈ snapshot.items ∧
    ∀ raw, snapshot.get logKey = some raw → raw ∈ raws
  rewritten : ∀ k raw, (k, raw) ∈ sc.rewritten →
    ∃ logKey, (k, logKey) ∈ snapshot.items ∧ snapshot.get logKey = some raw
  /-- Legacy keys wait from earlier rounds, or their entries were written again. -/
  queued : ∀ k ∈ sc.queued, k ∈ earlier ∨ k ∈ sc.rewritten.map Prod.fst
  /-- The batch is not too large, or it has one entry. -/
  fits : sc.framer.size ≤ conf.maxBatchSizeBytes ∨ sc.framer.count ≤ 1

variable {p conf kind turn snapshot}

namespace Sound

variable {k logKey raw : Bytes} {joiner : Joiner}
  (h : Sound p conf kind snapshot batchID earlier raws sc)
  (hmarker : (k, logKey) ∈ snapshot.items)
  (hwithin : joiner.Within (snapshot.withPrefix (conf.entryPrefix kind)))

include h hmarker hwithin

/-- The marker of an entry that is not there. -/
theorem skip (hget : snapshot.get logKey = none) : Sound p conf kind snapshot batchID earlier raws
    { sc with keys := sc.keys ++ [k], last := k, joiner := joiner } := by
  refine { h with within := hwithin, keys := ?_ }
  intro k' hk'
  rcases mem_append.mp hk' with hold | hnew
  · exact h.keys k' hold
  · rw [mem_singleton.mp hnew]
    refine ⟨logKey, hmarker, fun raw hraw => ?_⟩
    rw [hget] at hraw
    cases hraw

/-- The marker of an entry that is written again. -/
theorem rewrite (hget : snapshot.get logKey = some raw) {r : WriteResult} {queued : List Bytes}
    (hqueue : r.queue sc.queued k = some queued) :
    Sound p conf kind snapshot batchID earlier raws
      { sc with last := k, joiner := joiner, queued := queued,
                rewritten := sc.rewritten ++ [(k, raw)] } := by
  refine { h with within := hwithin, rewritten := ?_, queued := ?_ }
  · intro k' raw' hin
    rcases mem_append.mp hin with hold | hnew
    · exact h.rewritten k' raw' hold
    · cases mem_singleton.mp hnew
      exact ⟨logKey, hmarker, hget⟩
  · intro k' hk'
    rw [map_append, mem_append, ← or_assoc]
    rcases WriteResult.mem_queue hqueue hk' with hold | rfl
    · exact .inl (h.queued k' hold)
    · exact .inr (mem_singleton_self _)

/-- The marker of an entry that stays in the batch. -/
theorem take (hget : snapshot.get logKey = some raw)
    (hcut : ¬ (1 < (sc.framer.add p kind raw).count ∧
      conf.maxBatchSizeBytes < (sc.framer.add p kind raw).size)) :
    Sound p conf kind snapshot batchID earlier (raws ++ [raw])
      { sc with framer := sc.framer.add p kind raw, keys := sc.keys ++ [k], last := k,
                joiner := joiner } where
  framed := h.framed.add raw
  within := hwithin
  keys := by
    intro k' hk'
    rcases mem_append.mp hk' with hold | hnew
    · obtain ⟨logKey', hin, hraws⟩ := h.keys k' hold
      exact ⟨logKey', hin, fun raw' hraw' => mem_append_left _ (hraws raw' hraw')⟩
    · rw [mem_singleton.mp hnew]
      refine ⟨logKey, hmarker, fun raw' hraw' => ?_⟩
      rw [hget] at hraw'
      cases hraw'
      exact mem_append_right _ (mem_singleton_self _)
  rewritten := h.rewritten
  queued := h.queued
  fits := by
    rw [not_and_or, Nat.not_lt, Nat.not_lt] at hcut
    exact hcut.symm

omit hmarker

/-- An entry that is taken out again. -/
theorem cut : Sound p conf kind snapshot batchID earlier raws
    { sc with framer := (sc.framer.add p kind raw).dropLast, joiner := joiner } where
  framed := h.framed.dropLast_add raw
  within := hwithin
  keys := h.keys
  rewritten := h.rewritten
  queued := h.queued
  fits := by
    rw [Framer.dropLast_add]
    exact h.fits

end Sound

/-- **One round**, by induction on the markers. -/
theorem sound_scan {markers : List (Bytes × Bytes)} {sc sc' : Scan}
    {more : Bool} (hmark : ∀ e ∈ markers, e ∈ snapshot.items)
    (h : Sound p conf kind snapshot batchID earlier raws sc)
    (hscan : scan p conf kind turn snapshot markers sc = some (sc', more)) :
    ∃ raws', Sound p conf kind snapshot batchID earlier raws' sc' := by
  fun_induction scan generalizing raws with
  | case1 | case2 => cases hscan; exact ⟨raws, h⟩
  | case3 | case4 | case6 | case8 => cases hscan
  | case5 _ _ _ _ _ _ _ hread ih =>
    rw [forall_mem_cons] at hmark
    obtain ⟨hfound, hwithin⟩ := readEntry_eq h.within hread
    exact ih hmark.2 (h.skip hmark.1 hwithin hfound.symm) hscan
  | case7 _ _ _ _ _ _ _ _ hread _ _ _ hqueue ih =>
    rw [forall_mem_cons] at hmark
    obtain ⟨hfound, hwithin⟩ := readEntry_eq h.within hread
    exact ih hmark.2 (h.rewrite hmark.1 hwithin hfound.symm hqueue) hscan
  | case9 _ _ _ _ _ _ _ _ hread =>
    cases hscan
    exact ⟨raws, h.cut (readEntry_eq h.within hread).2⟩
  | case10 _ _ _ _ _ _ _ _ hread _ _ hcut =>
    rename_i ih
    rw [forall_mem_cons] at hmark
    obtain ⟨hfound, hwithin⟩ := readEntry_eq h.within hread
    exact ih hmark.2 (h.take hmark.1 hwithin hfound.symm hcut) hscan

end Round

/-! ## §5. Runs. -/

/-- What one round has read and shipped. -/
structure Read where
  kind : EntryKind
  snapshot : Store
  batchID : String
  wire : Bytes
  count : Nat
  /-- The batch was shipped, with success. -/
  synced : Bool
  rewritten : List (Bytes × Bytes)

/-- What is noted of a round. -/
def readOf (kind : EntryKind) (turn : Turn) (snapshot : Store) (batchID : String) (sc : Scan) : Read
    where
  kind := kind
  snapshot := snapshot
  batchID := batchID
  wire := sc.framer.buf
  count := sc.framer.count
  synced := decide (sc.framer.count ≠ 0) && turn.syncs
  rewritten := sc.rewritten

/-- What a run has done. -/
structure Report where
  store : Store
  reads : List Read := []
  deleted : List Bytes := []

section Runs

variable (p : Protocol) (conf : Conf) (kind : EntryKind)

/-- The rounds of `streamKind`, from a seek key, with the legacy markers to be deleted at the end.
A run that has no turns left is still going on. -/
def streamFrom : List Turn → Store → (seek last : Bytes) → Framer → (queued : List Bytes) → Report
  | [], store, _, _, _, _ => { store := store }
  | turn :: turns, store, seek, last, framer, queued =>
    if turn.cancelled then { store := store }
    else
      match turn.batchID with
      | none => { store := store }
      | some batchID =>
        let snapshot := turn.others store
        let markers := seekTo (snapshot.withPrefix (conf.markerPrefix kind)) seek
        match scan p conf kind turn snapshot markers
            { framer := framer.beginBatchWithID p batchID, keys := [], last := last,
              joiner := ⟨[], 0, false⟩, queued := queued } with
        | none => { store := snapshot }
        | some (sc, more) =>
          let read := readOf kind turn snapshot batchID sc
          -- `shipBatch`: an empty batch is not sent, and its markers are deleted all the same
          if sc.framer.count ≠ 0 ∧ turn.syncs = false then
            { store := snapshot, reads := [read] }
          else
            match queueAll turn.deletion [] sc.keys with
            | none => { store := turn.meanwhile snapshot, reads := [read] }
            | some batch =>
              if sc.keys ≠ [] ∧ turn.deletes = false then
                { store := turn.meanwhile snapshot, reads := [read] }
              else
                let store' := (turn.meanwhile snapshot).delete batch
                if more then
                  -- right after the last marker that was dealt with
                  let rest := streamFrom turns store' (sc.last ++ [0]) sc.last sc.framer sc.queued
                  { rest with reads := read :: rest.reads, deleted := batch ++ rest.deleted }
                else if turn.flushes then
                  { store := (turn.afterwards store').delete sc.queued, reads := [read],
                    deleted := batch ++ sc.queued }
                else { store := turn.afterwards store', reads := [read], deleted := batch }

/-- `streamKind`. -/
def streamKind (framer : Framer) (turns : List Turn) (store : Store) : Report :=
  streamFrom p conf kind turns store (conf.markerPrefix kind) [] framer []

end Runs

/-- One run of `streamKind`, with the framer that the pool has for it. -/
structure Run where
  kind : EntryKind
  framer : Framer
  turns : List Turn

/-- Runs one after the other. -/
def streamRuns (p : Protocol) (conf : Conf) : List Run → Store → Report
  | [], store => { store := store }
  | r :: runs, store =>
    let first := streamKind p conf r.kind r.framer r.turns store
    let rest := streamRuns p conf runs first.store
    { rest with reads := first.reads ++ rest.reads, deleted := first.deleted ++ rest.deleted }

section Deleted

variable {p : Protocol} {conf : Conf} {reads reads' : List Read} {deleted deleted' : List Bytes}

/-- A batch that was sent contains an entry. -/
def Read.Shipped (p : Protocol) (read : Read) (raw : Bytes) : Prop :=
  read.synced = true ∧ ∃ raws : List Bytes, raw ∈ raws ∧
    read.wire = p.header read.batchID ++ raws.flatMap (p.frame read.kind)

/-- A reason to delete a marker: its entry was shipped or written again, or was not there. -/
def Settles (p : Protocol) (read : Read) (k : Bytes) : Prop :=
  ∃ logKey, (k, logKey) ∈ read.snapshot.items ∧
    ∀ raw, read.snapshot.get logKey = some raw → read.Shipped p raw ∨ (k, raw) ∈ read.rewritten

/-- What holds of a run: markers are deleted for a reason, and the batches are not too large. -/
structure Careful (p : Protocol) (conf : Conf) (reads : List Read) (deleted : List Bytes) : Prop where
  settled : ∀ k ∈ deleted, ∃ read ∈ reads, Settles p read k
  sized : ∀ read ∈ reads, read.count ≠ 0 → read.wire.length ≤ conf.maxBatchSizeBytes ∨ read.count = 1

theorem Careful.nil (hsized : ∀ read ∈ reads, read.count ≠ 0 →
      read.wire.length ≤ conf.maxBatchSizeBytes ∨ read.count = 1) : Careful p conf reads [] where
  settled k hk := by cases hk
  sized := hsized

theorem Careful.append (h : Careful p conf reads deleted) (h' : Careful p conf reads' deleted') :
    Careful p conf (reads ++ reads') (deleted ++ deleted') where
  settled k hk := by
    rcases mem_append.mp hk with hin | hin
    · obtain ⟨read, hread, hreason⟩ := h.settled k hin
      exact ⟨read, mem_append_left _ hread, hreason⟩
    · obtain ⟨read, hread, hreason⟩ := h'.settled k hin
      exact ⟨read, mem_append_right _ hread, hreason⟩
  sized read hread := by
    rcases mem_append.mp hread with hin | hin
    · exact h.sized read hin
    · exact h'.sized read hin

theorem Careful.mono (h : Careful p conf reads deleted) (hsub : deleted' ⊆ deleted) :
    Careful p conf reads deleted' where
  settled k hk := h.settled k (hsub hk)
  sized := h.sized

/-- More markers are deleted, for reasons that some of the rounds give. -/
theorem Careful.insert {deleted keys : List Bytes}
    (h : Careful p conf reads deleted) (hkeys : Careful p conf reads' keys) (hsub : reads' ⊆ reads) :
    Careful p conf reads (keys ++ deleted) where
  settled k hk := (mem_append.mp hk).elim
    (fun hin => (hkeys.settled k hin).imp (fun _ hread => ⟨hsub hread.1, hread.2⟩)) (h.settled k)
  sized := h.sized

section Round

variable {turn : Turn} {snapshot : Store}

variable (h : Sound p conf kind snapshot batchID earlier raws sc)

include h

theorem Sound.sized (hcount : sc.framer.count ≠ 0) :
    sc.framer.size ≤ conf.maxBatchSizeBytes ∨ sc.framer.count = 1 := by
  have hfits := h.fits
  omega

/-- The markers of a batch that was sent, or that had no entries. -/
theorem Sound.settles_keys (hsent : ¬ (sc.framer.count ≠ 0 ∧ turn.syncs = false)) {k : Bytes}
    (hk : k ∈ sc.keys) : Settles p (readOf kind turn snapshot batchID sc) k := by
  obtain ⟨logKey, hmarker, hraws⟩ := h.keys k hk
  refine ⟨logKey, hmarker, fun raw hget => .inl ⟨?_, raws, hraws raw hget, h.framed.buf⟩⟩
  have hcount : sc.framer.count ≠ 0 := by
    rw [h.framed.count]
    exact Nat.ne_of_gt (length_pos_of_mem (hraws raw hget))
  have hsyncs : turn.syncs = true := by
    cases hsync : turn.syncs with
    | true => rfl
    | false => exact (hsent ⟨hcount, hsync⟩).elim
  unfold readOf
  rw [hsyncs, decide_eq_true hcount]
  rfl

/-- The legacy markers whose entries were written again. -/
theorem Sound.settles_rewritten {k : Bytes}
    (hk : k ∈ sc.rewritten.map Prod.fst) : Settles p (readOf kind turn snapshot batchID sc) k := by
  obtain ⟨⟨k', raw⟩, hin, rfl⟩ := mem_map.mp hk
  obtain ⟨logKey, hmarker, hget⟩ := h.rewritten k' raw hin
  refine ⟨logKey, hmarker, fun raw' hget' => .inr ?_⟩
  rw [show (readOf kind turn snapshot batchID sc).snapshot.get logKey = some raw from hget] at hget'
  cases hget'
  exact hin

omit h

variable {framer : Framer}

/-- A round begins with nothing. -/
theorem sound_start {last : Bytes} : Sound p conf kind snapshot batchID earlier []
    { framer := framer.beginBatchWithID p batchID, keys := [], last := last,
      joiner := ⟨[], 0, false⟩, queued := earlier } where
  framed := Framer.holds_beginBatch
  within e he := by cases he
  keys k hk := by cases hk
  rewritten k raw hin := by cases hin
  queued k hk := .inl hk
  fits := .inr (Nat.zero_le 1)

/-- What a round adds: it is noted, and its legacy markers wait with those of earlier rounds.  If its
batch was sent, or was empty, the markers of the batch can go. -/
theorem Careful.round {earlier : List Read} {queued : List Bytes} {seek last : Bytes}
    {more : Bool} (h : Careful p conf earlier queued) (hscan : scan p conf kind turn snapshot
      (seekTo (snapshot.withPrefix (conf.markerPrefix kind)) seek)
      { framer := framer.beginBatchWithID p batchID, keys := [], last := last,
        joiner := ⟨[], 0, false⟩, queued := queued } = some (sc, more)) :
    Careful p conf (earlier ++ [readOf kind turn snapshot batchID sc]) sc.queued ∧
      (¬ (sc.framer.count ≠ 0 ∧ turn.syncs = false) → ∀ batch,
        queueAll turn.deletion [] sc.keys = some batch →
          Careful p conf (earlier ++ [readOf kind turn snapshot batchID sc]) batch) := by
  obtain ⟨raws, hsound⟩ := sound_scan
    (fun e he => mem_of_mem_filter (mem_of_mem_seekTo he)) sound_start hscan
  have hround : Careful p conf [readOf kind turn snapshot batchID sc] (sc.rewritten.map Prod.fst) :=
    ⟨fun k hk => ⟨_, mem_singleton_self _, hsound.settles_rewritten hk⟩, fun read hread => by
      rw [mem_singleton.mp hread]
      exact hsound.sized⟩
  have hboth := h.append hround
  refine ⟨hboth.mono (fun k hk => mem_append.mpr (hsound.queued k hk)),
    fun hsent batch hbatch => ⟨fun k hk => ?_, hboth.sized⟩⟩
  have hkey := (mem_queueAll hbatch hk).resolve_left not_mem_nil
  exact ⟨_, mem_append_right _ (mem_singleton_self _), hsound.settles_keys hsent hkey⟩

end Round

/-- **The rounds of a run**, by induction on the turns; the legacy markers that wait for the end
have their reasons in earlier rounds. -/
theorem careful_streamFrom {kind : EntryKind} {turns : List Turn} {store : Store}
    {seek last : Bytes} {framer : Framer} {queued : List Bytes} {earlier : List Read}
    (h : Careful p conf earlier queued) :
    Careful p conf (earlier ++ (streamFrom p conf kind turns store seek last framer queued).reads)
      (streamFrom p conf kind turns store seek last framer queued).deleted := by
  fun_induction streamFrom generalizing earlier with
  | case1 | case2 | case3 | case4 =>
    rw [append_nil]
    exact h.mono (nil_subset _)
  | case5 | case6 | case7 => exact (h.round (by assumption)).1.mono (nil_subset _)
  | case8 turn turns store seek last framer queued _ batchID _ snapshot markers sc read hsent batch
      hbatch _ store' rest hscan =>
    rename_i ih
    obtain ⟨hqueued, hkeys⟩ := h.round hscan
    have hrest := ih hqueued
    rw [append_assoc] at hrest
    refine hrest.insert (hkeys hsent batch hbatch) ?_
    rw [← append_assoc]
    exact subset_append_left _ _
  | case9 _ _ _ _ _ _ _ _ _ _ _ _ _ _ hscan _ hsent batch hbatch =>
    obtain ⟨hqueued, hkeys⟩ := h.round hscan
    exact hqueued.insert (hkeys hsent batch hbatch) (List.Subset.refl _)
  | case10 _ _ _ _ _ _ _ _ _ _ _ _ _ _ hscan _ hsent batch hbatch =>
    exact (h.round hscan).2 hsent batch hbatch

/-- **A marker is deleted only if** its entry was in a batch that was sent, was written again, or
was not there when it was read; and a batch that is sent is not too large, or has one entry. -/
theorem markers_deleted_only_if (p : Protocol) (conf : Conf) (runs : List Run) (store : Store) :
    (∀ k ∈ (streamRuns p conf runs store).deleted,
      ∃ read ∈ (streamRuns p conf runs store).reads, ∃ logKey, (k, logKey) ∈ read.snapshot.items ∧
        (read.snapshot.get logKey = none ∨ ∃ raw, read.snapshot.get logKey = some raw ∧
          (read.Shipped p raw ∨ (k, raw) ∈ read.rewritten))) ∧
    ∀ read ∈ (streamRuns p conf runs store).reads, read.count ≠ 0 →
      read.wire.length ≤ conf.maxBatchSizeBytes ∨ read.count = 1 := by
  have hcareful : ∀ (runs : List Run) (store : Store), Careful p conf
      (streamRuns p conf runs store).reads (streamRuns p conf runs store).deleted := by
    intro runs
    induction runs with
    | nil => intro store; exact .nil (fun read hread => by cases hread)
    | cons r _ ih =>
      intro store
      have hfirst := @careful_streamFrom p conf r.kind r.turns store (conf.markerPrefix r.kind) []
        r.framer [] [] (.nil (fun read hread => by cases hread))
      exact hfirst.append (ih _)
  obtain ⟨hsettled, hsized⟩ := hcareful runs store
  refine ⟨fun k hk => ?_, hsized⟩
  obtain ⟨read, hread, logKey, hmarker, hreason⟩ := hsettled k hk
  refine ⟨read, hread, logKey, hmarker, ?_⟩
  cases hget : read.snapshot.get logKey with
  | none => exact .inl rfl
  | some raw => exact .inr ⟨raw, rfl, hreason raw hget⟩

end Deleted

end AccessManagement.Audit.Hub
