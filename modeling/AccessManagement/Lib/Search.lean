/-
  AccessManagement.Lib.Search — DEPTH-FIRST SEARCH WITH A SET OF SEEN NODES.

  The search from a node goes to each successor, and where that has not been seen, marks it and
  searches from there.  `Search` is the search without a bound on its depth, so that there is a run
  says that the search ends; `Found` is what a run has found.  A loop with fuel that does in each
  round what the search does makes a whole run when there is fuel for every node to mark:
  `search_foldl`.  `collect` is such a loop, and from the empty set it finds the nodes that can be
  reached: `mem_collect_iff`.
-/
import AccessManagement.Lib.Digraph

namespace AccessManagement.Lib

open Relation List

variable {α : Type} [DecidableEq α] {nodes : Finset α}

/-- What is seen after a search from a node; the first argument is the fuel. -/
def collect (next : α → List α) : Nat → List α → α → List α
  | 0, seen, _ => seen
  | fuel + 1, seen, a =>
    (next a).foldl (fun seen b => if b ∈ seen then seen else collect next fuel (b :: seen) b) seen

/-- What is left to mark. -/
def unseen (nodes : Finset α) (seen : List α) : Nat := (nodes \ seen.toFinset).card

theorem unseen_mono {seen seen' : List α} (h : ∀ b ∈ seen, b ∈ seen') :
    unseen nodes seen' ≤ unseen nodes seen := by
  refine Finset.card_le_card (Finset.sdiff_subset_sdiff (Finset.Subset.refl _) ?_)
  intro b hb
  exact mem_toFinset.mpr (h b (mem_toFinset.mp hb))

theorem unseen_cons_lt {seen : List α} {b : α} (hb : b ∈ nodes)
    (hnot : b ∉ seen) : unseen nodes (b :: seen) < unseen nodes seen := by
  refine Finset.card_lt_card (Finset.ssubset_iff_of_subset ?_ |>.mpr ⟨b, ?_, ?_⟩)
  · refine Finset.sdiff_subset_sdiff (Finset.Subset.refl _) ?_
    intro c hc
    exact mem_toFinset.mpr (mem_cons_of_mem b (mem_toFinset.mp hc))
  · simp [hb, hnot]
  · simp

variable {next : α → List α} {nodes : Finset α} {bs bs' : List α} {acc mid acc' : List α × List α}

/-! ## §1. Runs. -/

/-- A run over some nodes, from those found and seen before to those after it. -/
inductive Search (next : α → List α) : List α → List α × List α → List α × List α → Prop where
  | done {acc : List α × List α} : Search next [] acc acc
  | seen {b : α} {bs found seen : List α} {acc : List α × List α} :
      b ∈ seen → Search next bs (found.insert b, seen) acc → Search next (b :: bs) (found, seen) acc
  | visit {b : α} {bs found seen : List α} {mid acc : List α × List α} :
      b ∉ seen → Search next (next b) (found.insert b, b :: seen) mid → Search next bs mid acc →
      Search next (b :: bs) (found, seen) acc

/-- What a run has found: what was found before, the nodes it was given and the successors of what
it has marked, and nothing that these do not lead to. -/
structure Found (next : α → List α) (bs : List α) (acc acc' : List α × List α) : Prop where
  keeps : acc.1 ⊆ acc'.1
  sees : acc.2 ⊆ acc'.2
  given : bs ⊆ acc'.1
  marked : ∀ b ∈ acc'.1, b ∈ acc.1 ∨ b ∈ acc'.2
  closed : ∀ b ∈ acc'.2, b ∈ acc.2 ∨ b ∈ acc'.1 ∧ next b ⊆ acc'.1
  reached : ∀ c ∈ acc'.1, c ∈ acc.1 ∨ ∃ b ∈ bs, ReflTransGen (Edge next) b c
  nodup : acc.1.Nodup → acc'.1.Nodup

omit [DecidableEq α] in
/-- One run after another. -/
theorem Found.trans (h : Found next bs acc mid) (h' : Found next bs' mid acc') :
    Found next (bs ++ bs') acc acc' where
  keeps := List.Subset.trans h.keeps h'.keeps
  sees := List.Subset.trans h.sees h'.sees
  given := append_subset.mpr ⟨List.Subset.trans h.given h'.keeps, h'.given⟩
  marked b hb := by
    rcases h'.marked b hb with hmid | hsees
    · exact (h.marked b hmid).imp_right (fun hsees => h'.sees hsees)
    · exact .inr hsees
  closed b hb := by
    rcases h'.closed b hb with hmid | hall
    · exact (h.closed b hmid).imp_right
        (fun hall => ⟨h'.keeps hall.1, List.Subset.trans hall.2 h'.keeps⟩)
    · exact .inr hall
  reached c hc := by
    rcases h'.reached c hc with hmid | ⟨b, hb, hpath⟩
    · exact (h.reached c hmid).imp_right (fun ⟨b, hb, hpath⟩ => ⟨b, mem_append_left _ hb, hpath⟩)
    · exact .inr ⟨b, mem_append_right _ hb, hpath⟩
  nodup hnodup := h'.nodup (h.nodup hnodup)

/-- **What a run finds**, one node at a time. -/
theorem Search.found (h : Search next bs acc acc') : Found next bs acc acc' := by
  induction h with
  | done =>
    exact ⟨fun _ => id, fun _ => id, nil_subset _, fun _ => .inl, fun _ => .inl, fun _ => .inl, id⟩
  | @seen b bs found seen acc hb _ ih =>
    have hone : Found next [b] (found, seen) (found.insert b, seen) := by
      refine ⟨fun c => mem_insert_of_mem, fun _ => id, by simp, ?_, fun _ => .inl, ?_, Nodup.insert⟩
      · grind
      · intro c hc
        rcases mem_insert_iff.mp hc with rfl | hold
        · exact .inr ⟨c, mem_cons_self, .refl⟩
        · exact .inl hold
    exact hone.trans ih
  | @visit b bs found seen mid acc _ _ _ ihdown ihrest =>
    have hone : Found next [b] (found, seen) mid := by
      have hb : b ∈ mid.1 := ihdown.keeps mem_insert_self
      refine ⟨fun c hc => ihdown.keeps (mem_insert_of_mem hc),
        fun c hc => ihdown.sees (mem_cons_of_mem b hc), by simpa using hb,
        fun c hc => ?_, fun c hc => ?_, fun c hc => ?_, fun hnodup => ihdown.nodup hnodup.insert⟩
      · have hsees := ihdown.sees mem_cons_self
        grind [ihdown.marked c hc]
      · have hgiven := ihdown.given
        grind [ihdown.closed c hc]
      · rcases ihdown.reached c hc with hold | ⟨d, hd, hpath⟩
        · rcases mem_insert_iff.mp hold with rfl | hold
          · exact .inr ⟨c, mem_cons_self, .refl⟩
          · exact .inl hold
        · exact .inr ⟨b, mem_cons_self, .head hd hpath⟩
    exact hone.trans ihrest

/-- **A run from a node finds what can be reached from it**, whether the node itself was marked at
the start or not. -/
theorem Search.mem_iff {a b : α} {seen : List α} (h : Search next (next a) ([], seen) acc)
    (hseen : seen ⊆ [a]) : b ∈ acc.1 ↔ TransGen (Edge next) a b := by
  have hfound := h.found
  constructor
  · intro hb
    obtain ⟨c, hc, hpath⟩ := (hfound.reached b hb).resolve_left not_mem_nil
    exact .head' hc hpath
  · intro hpath
    induction hpath with
    | single hb => exact hfound.given hb
    | tail _ hstep ih =>
      have hmarked := (hfound.marked _ ih).resolve_left not_mem_nil
      rcases hfound.closed _ hmarked with ha | hall
      · rw [mem_singleton.mp (hseen ha)] at hstep
        exact hfound.given hstep
      · exact hall.2 hstep

/-! ## §2. Loops with fuel. -/

/-- **The search ends.**  A loop whose state follows what is found and seen makes a whole run when
it has fuel for every node that is left to mark, and where other nodes can be met, that have no
successors, for one of them. -/
theorem search_foldl {σ : Type} {rel : List α × List α → σ → Prop} {one : Nat → σ → α → σ}
    {slack : Nat} (hseen : ∀ fuel s found seen, ∀ b ∈ seen, rel (found, seen) s →
      rel (found.insert b, seen) (one fuel s b))
    (hvisit : ∀ fuel s found seen, ∀ b ∉ seen, rel (found, seen) s →
      ∃ s', rel (found.insert b, b :: seen) s' ∧ one (fuel + 1) s b = (next b).foldl (one fuel) s')
    (hnodes : ∀ a, ∀ b ∈ next a, b ∈ nodes ∨ next b = [] ∧ 0 < slack) (fuel : Nat) (a : α)
    (bs : List α) (acc : List α × List α) (s : σ) (hrel : rel acc s) (hbs : bs ⊆ next a)
    (hfuel : unseen nodes acc.2 + slack ≤ fuel) :
    ∃ acc', Search next bs acc acc' ∧ rel acc' (bs.foldl (one fuel) s) := by
  -- the fuel bounds the depth, and in each call the loop runs along the successors
  induction fuel using Nat.strongRecOn generalizing a bs acc s with
  | _ fuel ih =>
    induction bs generalizing acc s with
    | nil => exact ⟨acc, .done, hrel⟩
    | cons b _ ihbs =>
      obtain ⟨hb, hbs⟩ := cons_subset.mp hbs
      obtain ⟨found, seen⟩ := acc
      by_cases hmem : b ∈ seen
      · obtain ⟨acc', hrun, hrel'⟩ := ihbs _ _ (hseen fuel s found seen b hmem hrel) hbs hfuel
        exact ⟨acc', .seen hmem hrun, hrel'⟩
      · have hdown : ∃ mid, Search next (next b) (found.insert b, b :: seen) mid ∧
            rel mid (one fuel s b) := by
          dsimp only at hfuel
          rcases hnodes a b hb with hin | ⟨hleaf, hslack⟩
          · have hless := unseen_cons_lt hin hmem
            obtain ⟨fuel, rfl⟩ := Nat.exists_eq_add_one.mpr (show 0 < fuel by omega)
            obtain ⟨s', hrel', hone⟩ := hvisit fuel s found seen b hmem hrel
            rw [hone]
            exact ih fuel fuel.lt_add_one b _ _ s' hrel' (fun _ => id) (by dsimp only; omega)
          · obtain ⟨fuel, rfl⟩ := Nat.exists_eq_add_one.mpr (show 0 < fuel by omega)
            obtain ⟨s', hrel', hone⟩ := hvisit fuel s found seen b hmem hrel
            rw [hone, hleaf]
            exact ⟨_, .done, hrel'⟩
        obtain ⟨mid, hrun, hmid⟩ := hdown
        have hless : unseen nodes mid.2 ≤ unseen nodes seen :=
          unseen_mono (fun c hc => hrun.found.sees (mem_cons_of_mem b hc))
        obtain ⟨acc', hrest, hrel'⟩ := ihbs mid _ hmid hbs (by dsimp only at hfuel; omega)
        exact ⟨acc', .visit hmem hrun hrest, hrel'⟩

/-- **From nothing the search finds what can be reached.** -/
theorem mem_collect_iff (hnodes : ∀ a, ∀ b ∈ next a, b ∈ nodes) {fuel : Nat}
    (hfuel : nodes.card < fuel) {a b : α} :
    b ∈ collect next fuel [] a ↔ TransGen (Edge next) a b := by
  obtain ⟨fuel, rfl⟩ := Nat.exists_eq_add_one.mpr (Nat.zero_lt_of_lt hfuel)
  obtain ⟨acc, hrun, hacc⟩ := @search_foldl _ _ next nodes _ (fun acc seen => acc.2 = seen)
    (fun fuel seen b => if b ∈ seen then seen else collect next fuel (b :: seen) b) 0
    (fun _ s _ _ b hb hrel => by rw [← hrel]; exact (if_pos hb).symm)
    (fun _ s _ _ b hb hrel => ⟨b :: s, by rw [← hrel], if_neg (by rwa [← hrel])⟩)
    (fun a b hb => .inl (hnodes a b hb)) fuel a (next a) ([], []) [] rfl (fun _ => id)
    (by simpa [unseen] using Nat.le_of_lt_succ hfuel)
  rw [← hrun.mem_iff (nil_subset _), collect, ← hacc]
  constructor
  · intro hb
    exact ((hrun.found.closed b hb).resolve_left not_mem_nil).1
  · intro hb
    exact (hrun.found.marked b hb).resolve_left not_mem_nil

end AccessManagement.Lib
