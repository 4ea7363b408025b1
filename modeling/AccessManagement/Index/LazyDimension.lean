/-
  AccessManagement.Index.LazyDimension — ONE MAP IN TWO REPRESENTATIONS.

  A `lazyDimension` keeps the IDs of a key in a sorted slice or in a bitmap, and goes from the first
  to the second where that is smaller or a query asks for it.  Either way it denotes a map from keys
  to sets of IDs, and a key goes with its last ID.  `setFromBitmap` does not look at what it is
  given: a bitmap without IDs leaves a key without IDs.

  Main results:
    * `reads_agree` — all reads agree with the map, if no call sets a bitmap without IDs.
    * `empty_bitmap_kept` — such a bitmap leaves its key.
-/
import Mathlib.Data.Set.Card
import AccessManagement.Lib.Maps
import AccessManagement.Lib.Postings

namespace AccessManagement.Index

open Lib List AList

/-! ## §1. Entries. -/

/-- `Bitmap`: the bits of its words, and how many words there are.  Each has a bit in `meta`. -/
structure Bitmap where
  set : IdSet
  words : Nat

/-- `Bitmap.Add`. -/
def Bitmap.add (bm : Bitmap) (id : Nat) : Bitmap := ⟨bm.set.add id, max bm.words (id / 64 + 1)⟩

/-- `newBitmapFromIDs`. -/
def newBitmapFromIDs (ids : List Nat) : Bitmap := ids.foldl Bitmap.add ⟨.empty, 0⟩

/-- `lazyState`: a bitmap, or IDs in ascending order. -/
inductive LazyState where
  | dense (bm : Bitmap)
  | cold (ids : List Nat)

/-- `insertSortedUnique`.  The binary search finds the IDs of a sorted slice, and for others their
place in the order. -/
def insertSortedUnique (ids : List Nat) (id : Nat) : List Nat :=
  if ids.getLast?.all (· < id) then ids ++ [id]
  else if id ∈ ids then ids
  else ids.orderedInsert (· ≤ ·) id

/-- `preferBitmap`: words of eight bytes, and IDs of four. -/
def preferBitmap (words cardinality : Nat) : Bool :=
  (words + (words + 63) / 64) * 8 ≤ cardinality * 4

namespace LazyState

/-- `Add`, at its key. -/
def add (id : Nat) : Option LazyState → Option LazyState
  | none => some (cold [id])
  | some (dense bm) => some (dense (bm.add id))
  | some (cold ids) => some (cold (insertSortedUnique ids id))

/-- `Remove`, at its key. -/
def remove (id : Nat) : Option LazyState → Option LazyState
  | none => none
  | some (dense bm) =>
    if (bm.set.remove id).isEmpty then none else some (dense ⟨bm.set.remove id, bm.words⟩)
  | some (cold ids) =>
    if id ∈ ids ∧ ids.erase id = [] then none else some (cold (ids.erase id))

/-- The bitmap that `Bitmap` keeps in place of the slice, and `forEachBitmap` does not. -/
@[simp] def bitmap : LazyState → Bitmap
  | dense bm => bm
  | cold ids => newBitmapFromIDs ids

/-- `compact`, for one entry. -/
def compact : LazyState → LazyState
  | dense bm => dense bm
  | cold ids =>
    match ids.getLast? with
    | none => cold ids
    | some last =>
      if preferBitmap (last / 64 + 1) ids.length then dense (newBitmapFromIDs ids) else cold ids

/-- The entry that `setFromBitmap` makes. -/
def ofBitmap (bm : Bitmap) : LazyState :=
  if preferBitmap bm.words bm.set.ids.length then dense bm else cold bm.set.ids

/-- `intersectingKeys`, for one entry. -/
def intersects (filter : Bitmap) : LazyState → Bool
  | dense bm => !(bm.set.inter filter.set).isEmpty
  | cold ids => ids.any filter.set.has

end LazyState

/-! ## §2. The dimension. -/

/-- `lazyDimension`. -/
abbrev LazyDimension := AList (fun _ : String => LazyState)

/-- A call that may write. -/
inductive LazyCall where
  | add (key : String) (id : Nat)
  | remove (key : String) (id : Nat)
  | bitmap (key : String)
  | compact
  | setFromBitmap (key : String) (bm : Bitmap)

namespace LazyDimension

/-- A write to one key. -/
def alter (d : LazyDimension) (key : String) (f : Option LazyState → Option LazyState) :
    LazyDimension :=
  match f (d.lookup key) with
  | none => d.erase key
  | some st => d.insert key st

variable (d : LazyDimension)

/-- What a call does to the dimension. -/
def run : LazyCall → LazyDimension
  | .add key id => d.alter key (LazyState.add id)
  | .remove key id => d.alter key (LazyState.remove id)
  | .bitmap key => d.alter key (Option.map (fun st => .dense st.bitmap))
  | .compact => d.entries.foldl (fun d e => d.insert e.1 e.2.compact) ∅
  | .setFromBitmap key bm => d.alter key (fun _ => some (.ofBitmap bm))

/-- `Bitmap`. -/
def bitmap (key : String) : Option Bitmap := (d.lookup key).map LazyState.bitmap

/-- `len`. -/
def len : Nat := d.entries.length

/-- `has`. -/
def has (key : String) : Bool := (d.lookup key).isSome

/-- `forEachBitmap`: what it calls its argument on, unless a call fails. -/
def forEachBitmap : List (String × Bitmap) := d.entries.map (fun e => (e.1, e.2.bitmap))

/-- `intersectingKeys`. -/
def intersectingKeys (filter : Bitmap) : List String :=
  (d.entries.filter (fun e => e.2.intersects filter)).map (fun e => e.1)

/-- The reads of a dimension are those of a map. -/
structure Agrees (m : String → Set Nat) : Prop where
  keys : ∀ key, key ∈ d.keys ↔ (m key).Nonempty
  len : d.len = {key | (m key).Nonempty}.ncard
  has : ∀ key, d.has key = true ↔ (m key).Nonempty
  bitmap : ∀ key i, i ∈ m key ↔ ∃ bm, d.bitmap key = some bm ∧ bm.set.has i = true
  forEachBitmap : d.forEachBitmap.map Prod.fst = d.keys ∧
    ∀ e ∈ d.forEachBitmap, ∀ i, i ∈ m e.1 ↔ e.2.set.has i = true
  intersectingKeys : ∀ filter, (d.intersectingKeys filter).Nodup ∧
    ∀ key, key ∈ d.intersectingKeys filter ↔ ∃ i ∈ m key, filter.set.has i = true

end LazyDimension

/-- What a call does to a map, by the pairs that it adds and removes. -/
def LazyCall.pairs (m : String → Set Nat) : LazyCall → String → Set Nat
  | add key id => Function.update m key (insert id (m key))
  | remove key id => Function.update m key (m key \ {id})
  | setFromBitmap key bm => Function.update m key {i | bm.set.has i = true}
  | _ => m

/-! ## §3. What a dimension denotes. -/

/-- A slice is in ascending order. -/
def LazyState.Sorted : LazyState → Prop
  | dense _ => True
  | cold ids => ids.Pairwise (· ≤ ·) ∧ ids.Nodup

/-- The IDs of an entry.  A key without IDs has none. -/
def Denotes (s : Set Nat) : Option LazyState → Prop
  | none => s = ∅
  | some st => s.Nonempty ∧ (∀ i, i ∈ s ↔ st.bitmap.set.has i = true) ∧ st.Sorted

variable {d : LazyDimension} {m : String → Set Nat} {key : String} {s : Set Nat} {ids : List Nat}
  {id i : Nat} {st : Option LazyState}

@[simp] theorem has_newBitmapFromIDs : (newBitmapFromIDs ids).set.has i = true ↔ i ∈ ids := by
  induction ids using List.reverseRecOn with
  | nil => simp [newBitmapFromIDs]
  | append_singleton ids id ih =>
    have hadd : newBitmapFromIDs (ids ++ [id]) = (newBitmapFromIDs ids).add id := foldl_append
    rw [hadd]
    simp [Bitmap.add, ih, @eq_comm _ id]

theorem insertSortedUnique_spec (h : ids.Pairwise (· ≤ ·) ∧ ids.Nodup) :
    (∀ i, i ∈ insertSortedUnique ids id ↔ i = id ∨ i ∈ ids) ∧
      (insertSortedUnique ids id).Pairwise (· ≤ ·) ∧ (insertSortedUnique ids id).Nodup := by
  unfold insertSortedUnique
  split
  next hlast =>
    -- the last ID is the largest
    have hbelow : ∀ a ∈ ids, a < id := by
      intro a ha
      obtain ⟨last, hl⟩ := Option.isSome_iff_exists.mp (getLast?_isSome.mpr (ne_nil_of_mem ha))
      obtain ⟨init, rfl⟩ := getLast?_eq_some_iff.mp hl
      grind
    grind
  · split
    · grind
    next hnot =>
      refine ⟨fun i => mem_orderedInsert _, h.1.orderedInsert id ids, ?_⟩
      rw [(perm_orderedInsert _ id ids).nodup_iff]
      exact nodup_cons.mpr ⟨hnot, h.2⟩

theorem Denotes.add (h : Denotes s st) (id : Nat) : Denotes (insert id s) (LazyState.add id st) := by
  have hne : (insert id s).Nonempty := Set.insert_nonempty id s
  cases st with
  | none =>
    obtain rfl : s = ∅ := h
    exact ⟨hne, by simp, by simp [LazyState.Sorted]⟩
  | some st =>
    obtain ⟨-, hmem, hsorted⟩ := h
    cases st with
    | dense bm =>
      refine ⟨hne, fun i => ?_, trivial⟩
      simp [hmem, Bitmap.add, or_comm, @eq_comm _ id]
    | cold ids =>
      obtain ⟨hids, hsorted'⟩ := @insertSortedUnique_spec ids id hsorted
      exact ⟨hne, by simp [hmem, hids], hsorted'⟩

/-- An entry that goes when it has no IDs left. -/
theorem denotes_ite {c : Prop} [Decidable c] {st : LazyState}
    (hmem : ∀ i, i ∈ s ↔ st.bitmap.set.has i = true) (hsorted : st.Sorted) (hc : c ↔ s = ∅) :
    Denotes s (if c then none else some st) := by
  split
  next hempty => exact hc.mp hempty
  next hne => exact ⟨Set.nonempty_iff_ne_empty.mpr (fun hs => hne (hc.mpr hs)), hmem, hsorted⟩

theorem Denotes.remove (h : Denotes s st) (id : Nat) :
    Denotes (s \ {id}) (LazyState.remove id st) := by
  cases st with
  | none =>
    obtain rfl : s = ∅ := h
    simp [LazyState.remove, Denotes]
  | some st =>
    obtain ⟨hne, hmem, hsorted⟩ := h
    cases st with
    | dense bm =>
      have hleft : ∀ i, i ∈ s \ {id} ↔ (bm.set.remove id).has i = true := by
        simp [hmem, @eq_comm _ id]
      refine denotes_ite hleft trivial ?_
      rw [IdSet.isEmpty_iff, Set.eq_empty_iff_forall_notMem]
      simp [hleft]
    | cold ids =>
      have hleft : ∀ i, i ∈ s \ {id} ↔ i ∈ ids.erase id := by
        simp [hmem, hsorted.2.mem_erase_iff, and_comm]
      refine denotes_ite (fun i => (hleft i).trans has_newBitmapFromIDs.symm)
        ⟨hsorted.1.sublist erase_sublist, hsorted.2.erase id⟩ ?_
      rw [Set.eq_empty_iff_forall_notMem]
      simp only [hleft]
      rw [← eq_nil_iff_forall_not_mem]
      refine and_iff_right_of_imp (fun hnil => ?_)
      -- nothing is left of a slice with IDs
      obtain ⟨i, hi⟩ := hne
      have hi' : i ∈ ids := has_newBitmapFromIDs.mp ((hmem i).mp hi)
      by_contra hid
      rw [erase_of_not_mem hid] at hnil
      exact not_mem_nil (hnil ▸ hi')

/-- The bitmap of an entry denotes the same. -/
theorem Denotes.dense (h : Denotes s st) : Denotes s (st.map (fun st => .dense st.bitmap)) := by
  cases st with
  | none => exact h
  | some st => exact ⟨h.1, h.2.1, trivial⟩

theorem Denotes.compact (h : Denotes s st) : Denotes s (st.map LazyState.compact) := by
  cases st with
  | none => exact h
  | some st =>
    cases st with
    | dense bm => exact h
    | cold ids =>
      simp only [Option.map_some, LazyState.compact]
      split
      · exact h
      · split
        · exact ⟨h.1, h.2.1, trivial⟩
        · exact h

theorem denotes_ofBitmap {bm : Bitmap} (h : bm.set.isEmpty = false) :
    Denotes {i | bm.set.has i = true} (some (.ofBitmap bm)) := by
  refine ⟨(IdSet.isEmpty_eq_false_iff _).mp h, ?_⟩
  unfold LazyState.ofBitmap
  split
  · exact ⟨fun i => .rfl, trivial⟩
  · refine ⟨fun i => ?_, ?_, ?_⟩
    · simp
    · exact pairwise_le_range.filter _
    · exact nodup_range.filter _

/-- The dimension denotes the map. -/
def LazyDimension.Means (d : LazyDimension) (m : String → Set Nat) : Prop :=
  ∀ key, Denotes (m key) (d.lookup key)

theorem LazyDimension.Means.alter (h : d.Means m) {f : Option LazyState → Option LazyState}
    (hf : Denotes s (f (d.lookup key))) : (d.alter key f).Means (Function.update m key s) := by
  intro k
  have hlook : (d.alter key f).lookup k = if k = key then f (d.lookup key) else d.lookup k := by
    unfold LazyDimension.alter
    split <;> grind
  rw [hlook]
  by_cases hk : k = key
  · subst hk
    rwa [if_pos rfl, Function.update_self]
  · rw [if_neg hk, Function.update_of_ne hk]
    exact h k

/-- **A call keeps to the map.** -/
theorem LazyDimension.Means.run (h : d.Means m) {c : LazyCall}
    (hc : ∀ key bm, c = .setFromBitmap key bm → bm.set.isEmpty = false) :
    (d.run c).Means (c.pairs m) := by
  cases c with
  | add key id => exact h.alter ((h key).add id)
  | remove key id => exact h.alter ((h key).remove id)
  | bitmap key =>
    have hkeep := h.alter (h key).dense
    rwa [Function.update_eq_self] at hkeep
  | compact =>
    intro key
    have hlook := lookup_foldl_entries (fun _ : String => LazyState.compact) d key
    exact hlook ▸ (h key).compact
  | setFromBitmap key bm => exact h.alter (denotes_ofBitmap (hc key bm rfl))

theorem Denotes.isSome_iff (h : Denotes s st) : st.isSome = true ↔ s.Nonempty := by
  cases st with
  | none =>
    obtain rfl : s = ∅ := h
    simp
  | some st => exact iff_of_true rfl h.1

theorem Denotes.mem_iff (h : Denotes s st) : i ∈ s ↔ ∃ st' ∈ st, st'.bitmap.set.has i = true := by
  cases st with
  | none =>
    obtain rfl : s = ∅ := h
    simp
  | some st => simp [h.2.1]

theorem LazyState.intersects_iff {st : LazyState} {filter : Bitmap} :
    st.intersects filter = true ↔ ∃ i, st.bitmap.set.has i = true ∧ filter.set.has i = true := by
  cases st with
  | dense bm => simp [intersects, IdSet.isEmpty_eq_false_iff]
  | cold ids => simp [intersects]

theorem LazyDimension.Means.agrees (h : d.Means m) : d.Agrees m := by
  have hkeys : ∀ key, key ∈ d.keys ↔ (m key).Nonempty := fun key =>
    lookup_isSome.symm.trans (h key).isSome_iff
  refine ⟨hkeys, ?_, fun key => (h key).isSome_iff, fun key i => ?_, ⟨map_map, ?_⟩,
    fun filter => ⟨d.nodupKeys.sublist filter_sublist, fun key => ?_⟩⟩
  · have hset : {key | (m key).Nonempty} = d.keys.toFinset := Set.ext (fun k => by simp [hkeys])
    rw [hset, Set.ncard_coe_finset, toFinset_card_of_nodup d.keys_nodup]
    exact (length_map _).symm
  · rw [(h key).mem_iff]
    simp [LazyDimension.bitmap]
  · intro e he i
    obtain ⟨e', he', rfl⟩ := mem_map.mp he
    rw [(h e'.1).mem_iff, mem_lookup_iff.mpr he']
    simp
  · simp only [(h key).mem_iff, LazyDimension.intersectingKeys, mem_map, mem_filter,
      LazyState.intersects_iff]
    constructor
    · rintro ⟨⟨k, st⟩, ⟨he, i, hi, hfilter⟩, rfl⟩
      exact ⟨i, ⟨st, mem_lookup_iff.mpr he, hi⟩, hfilter⟩
    · rintro ⟨i, ⟨st, hst, hi⟩, hfilter⟩
      exact ⟨⟨key, st⟩, ⟨mem_lookup_iff.mp hst, i, hi, hfilter⟩, rfl⟩

/-- **A dimension denotes one map**: after any calls, its reads are those of the map with the same
pairs added and removed, and a lookup keeps them.  No call sets a bitmap without IDs. -/
theorem reads_agree (calls : List LazyCall) (key : String)
    (h : ∀ k bm, LazyCall.setFromBitmap k bm ∈ calls → bm.set.isEmpty = false) :
    (calls.foldl LazyDimension.run ∅).Agrees (calls.foldl LazyCall.pairs (fun _ => ∅)) ∧
    ((calls.foldl LazyDimension.run ∅).run (.bitmap key)).Agrees
      (calls.foldl LazyCall.pairs (fun _ => ∅)) := by
  have hrun : (calls.foldl LazyDimension.run ∅).Means (calls.foldl LazyCall.pairs (fun _ => ∅)) := by
    induction calls using List.reverseRecOn with
    | nil => exact fun _ => rfl
    | append_singleton calls c ih =>
      simp only [foldl_append, foldl_cons, foldl_nil]
      refine (ih (fun k bm hm => h k bm (mem_append_left _ hm))).run (fun k bm hc => h k bm ?_)
      simp [hc]
  exact ⟨hrun.agrees, (hrun.run (c := .bitmap key) (fun _ _ hc => by cases hc)).agrees⟩

/-- Calls under which `a` goes from a slice to a bitmap by a lookup, `b` by a compaction, `c` goes
with its last ID and `d` is set from a bitmap. -/
def sampleCalls : List LazyCall :=
  [.add "a" 3, .add "a" 70, .bitmap "a", .remove "a" 3] ++
    (List.range 4).map (.add "b") ++ [.add "c" 1, .compact, .remove "c" 1,
      .setFromBitmap "d" (newBitmapFromIDs [200])]

/-- `reads_agree`, of calls that change the representation. -/
theorem bitmap_reads_agree :
    (sampleCalls.foldl LazyDimension.run ∅).keys = ["d", "a", "b"] ∧
    (sampleCalls.foldl LazyDimension.run ∅).Agrees
      (sampleCalls.foldl LazyCall.pairs (fun _ => ∅)) := by
  refine ⟨by decide +kernel, (reads_agree sampleCalls "a" (fun k bm hmem => ?_)).1⟩
  have hlast : LazyCall.setFromBitmap k bm = .setFromBitmap "d" (newBitmapFromIDs [200]) := by
    simpa [sampleCalls, List.range, List.range.loop] using hmem
  cases hlast
  rfl

/-- **A bitmap without IDs leaves its key**, with no IDs. -/
theorem empty_bitmap_kept :
    ¬(LazyDimension.run ∅ (.setFromBitmap "a" ⟨.empty, 0⟩)).Agrees
      (LazyCall.pairs (fun _ => ∅) (.setFromBitmap "a" ⟨.empty, 0⟩)) := by
  intro h
  have ha := (h.has "a").mp rfl
  simp [LazyCall.pairs] at ha

end AccessManagement.Index
