/-
  AccessManagement.Conditions.Hierarchy — HIERARCHIES IN CONDITIONS.

  A hierarchy is a list of names (`internal/conditions/types/hierarchy.go`); `ancestorOf`,
  `overlaps` and `commonAncestors` compare two of them name by name.  Reading past the end of a
  slice and cutting it before its start are panics, here `none`.

  Main result: `hierarchy_order_and_ancestors` — `ancestorOf` is the strict prefix order with
  `descendentOf` its converse, `overlaps` is comparability, and `commonAncestors` is the longest
  common strict prefix EXACTLY WHEN the hierarchies are not both empty and neither is an ancestor
  of the other: two empty ones make it panic, and an ancestor is returned itself.
-/
import Mathlib.Data.List.Infix

namespace AccessManagement.Hierarchy

open List

variable {a b c d short long : List String}

/-- `for i, s := range shortList { if longList[i] != s { return false } }; return true`. -/
def matchAll : List String → List String → Option Bool
  | [], _ => some true
  | _ :: _, [] => none
  | s :: short, l :: long => if l ≠ s then some false else matchAll short long

/-- The loop of `hierarchyCommonAncestors`: names are collected up to the first difference. -/
def collect : List String → List String → Option (List String)
  | [], _ => some []
  | _ :: _, [] => none
  | s :: short, l :: long => if l ≠ s then some [] else (collect short long).map (s :: ·)

/-- `list[:n]`, which panics for a negative end. -/
def upTo (list : List String) (n : Int) : Option (List String) :=
  if n < 0 then none else some (list.take n.toNat)

/-- `shortList` and `longList`. -/
def byLength (h other : List String) : List String × List String :=
  if other.length < h.length then (other, h) else (h, other)

def ancestorOf (h child : List String) : Option Bool :=
  if child.length ≤ h.length then some false else matchAll h child

def descendentOf (h parent : List String) : Option Bool := ancestorOf parent h

def overlaps (h other : List String) : Option Bool :=
  matchAll (byLength h other).1 (byLength h other).2

def commonAncestors (h other : List String) : Option (List String) := do
  let (short, long) := byLength h other
  if long.length = short.length then
    collect (← upTo short (long.length - 1)) (← upTo long (long.length - 1))
  else collect short long

/-! ## What the loops compute. -/

theorem matchAll_eq (h : short.length ≤ long.length) :
    matchAll short long = some (decide (short <+: long)) := by
  fun_induction matchAll with
  | case1 => simp
  | case2 => simp at h
  | case3 _ _ _ _ hne => simp [Ne.symm hne]
  | case4 _ _ _ _ hsame ih =>
    rw [not_not] at hsame
    rw [ih (by simpa using h), hsame]
    simp

/-- `c` is the longest list that starts both. -/
def LongestCommon (short long c : List String) : Prop :=
  (c <+: short ∧ c <+: long) ∧ ∀ d, d <+: short → d <+: long → d <+: c

theorem collect_spec (h : short.length ≤ long.length) :
    ∃ c, collect short long = some c ∧ LongestCommon short long c := by
  fun_induction collect with
  | case1 => exact ⟨[], rfl, by simp [LongestCommon]⟩
  | case2 => simp at h
  | case3 _ _ _ _ hne =>
    refine ⟨[], rfl, by simp, ?_⟩
    intro d hd hd'
    cases d with
    | nil => simp
    | cons =>
      rw [cons_prefix_cons] at hd hd'
      exact (hne (hd'.1.symm.trans hd.1)).elim
  | case4 s _ _ _ hsame ih =>
    rw [not_not] at hsame
    obtain ⟨c, hc, hcommon, hlongest⟩ := ih (by simpa using h)
    refine ⟨s :: c, by rw [hc]; rfl, by simpa [hsame] using hcommon, ?_⟩
    intro d hd hd'
    cases d with
    | nil => simp
    | cons x d =>
      rw [cons_prefix_cons] at hd hd' ⊢
      exact ⟨hd.1, hlongest d hd.2 hd'.2⟩

theorem ancestorOf_eq (a b : List String) : ancestorOf a b = some (decide (a <+: b ∧ a ≠ b)) := by
  unfold ancestorOf
  split
  · next hle =>
    congr 1
    symm
    rw [decide_eq_false_iff_not]
    rintro ⟨h, hne⟩
    exact hne (h.eq_of_length_le hle)
  · next hlt =>
    rw [matchAll_eq (by omega)]
    congr 2
    rw [eq_iff_iff, iff_self_and]
    rintro h rfl
    omega

theorem overlaps_eq (a b : List String) : overlaps a b = some (decide (a <+: b ∨ b <+: a)) := by
  unfold overlaps byLength
  split
  · next hlt =>
    rw [matchAll_eq (by simpa using hlt.le)]
    congr 2
    rw [eq_iff_iff, iff_or_self]
    intro h
    have hle := h.length_le
    omega
  · next hle =>
    rw [matchAll_eq (by simpa using hle)]
    congr 2
    rw [eq_iff_iff, iff_self_or]
    intro h
    rw [h.eq_of_length_le (by omega)]

theorem LongestCommon.symm (h : LongestCommon a b c) : LongestCommon b a c :=
  ⟨h.1.symm, fun d hd hd' => h.2 d hd' hd⟩

theorem LongestCommon.unique {c' : List String} (h : LongestCommon a b c)
    (h' : LongestCommon a b c') : c = c' :=
  (h'.2 c h.1.1 h.1.2).eq_of_length_le (h.2 c' h'.1.1 h'.1.2).length_le

/-- **What `commonAncestors` returns**: of hierarchies of one length the last names do not count. -/
theorem commonAncestors_spec (h : ¬(a = [] ∧ b = [])) : ∃ c, commonAncestors a b = some c ∧
      if a.length = b.length then LongestCommon a.dropLast b.dropLast c
      else LongestCommon a b c := by
  unfold commonAncestors byLength
  split_ifs with hshort hsame hsame
  · omega
  · obtain ⟨c, hc, hcommon⟩ := collect_spec hshort.le
    exact ⟨c, by simpa [hshort.ne'] using hc, hcommon.symm⟩
  · have hpos : 0 < b.length := by
      rw [length_pos_iff]
      rintro rfl
      exact h ⟨length_eq_zero_iff.mp hsame, rfl⟩
    have hlast (l : List String) (hl : l.length = b.length) :
        upTo l (b.length - 1) = some l.dropLast := by
      unfold upTo
      rw [if_neg (by omega), dropLast_eq_take]
      congr
      omega
    obtain ⟨c, hc, hcommon⟩ := @collect_spec a.dropLast b.dropLast (by simp [hsame])
    exact ⟨c, by simpa [hsame, hlast a hsame, hlast b rfl] using hc, hcommon⟩
  · obtain ⟨c, hc, hcommon⟩ := @collect_spec a b (by omega)
    exact ⟨c, by simpa [Ne.symm hsame] using hc, hcommon⟩

theorem commonAncestors_comm (a b : List String) : commonAncestors a b = commonAncestors b a := by
  by_cases h : a = [] ∧ b = []
  · rw [h.1, h.2]
  obtain ⟨c, hc, hcommon⟩ := commonAncestors_spec h
  obtain ⟨c', hc', hcommon'⟩ := commonAncestors_spec (fun h' => h h'.symm)
  rw [hc, hc']
  congr 1
  split_ifs at hcommon hcommon' with hlen hlen' hlen'
  · exact hcommon.unique hcommon'.symm
  · exact (hlen' hlen.symm).elim
  · exact (hlen hlen'.symm).elim
  · exact hcommon.unique hcommon'.symm

/-- The longest hierarchy that is a strict prefix of both. -/
def IsCommonAncestors (a b c : List String) : Prop :=
  ((c <+: a ∧ c ≠ a) ∧ (c <+: b ∧ c ≠ b)) ∧
    ∀ d, (d <+: a ∧ d ≠ a) → (d <+: b ∧ d ≠ b) → d.length ≤ c.length

theorem prefix_dropLast_iff (h : a ≠ []) : d <+: a.dropLast ↔ d <+: a ∧ d ≠ a := by
  have hpos := length_pos_iff.mpr h
  constructor
  · intro hd
    refine ⟨hd.trans ( List.dropLast_prefix a), ?_⟩
    rintro rfl
    have hle := hd.length_le
    rw [length_dropLast] at hle
    omega
  · rintro ⟨hd, hne⟩
    refine prefix_of_prefix_length_le hd ( List.dropLast_prefix a) ?_
    have hlt := lt_of_le_of_ne hd.length_le (fun hlen => hne (hd.eq_of_length hlen))
    rw [length_dropLast]
    omega

theorem isCommonAncestors_iff (h : ¬(a = [] ∧ b = [])) :
    (∃ c, commonAncestors a b = some c ∧ IsCommonAncestors a b c) ↔
      ancestorOf a b = some false ∧ ancestorOf b a = some false := by
  obtain ⟨c, hc, hcommon⟩ := commonAncestors_spec h
  simp only [hc, Option.some.injEq, exists_eq_left', ancestorOf_eq, decide_eq_false_iff_not]
  split_ifs at hcommon with hlen
  · -- of one length, neither is an ancestor, and both have a last name
    have ha : a ≠ [] := by
      rintro rfl
      exact h ⟨rfl, length_eq_zero_iff.mp hlen.symm⟩
    have hb : b ≠ [] := by
      rintro rfl
      exact h ⟨length_eq_zero_iff.mp hlen, rfl⟩
    refine iff_of_true ⟨⟨(prefix_dropLast_iff ha).mp hcommon.1.1,
      (prefix_dropLast_iff hb).mp hcommon.1.2⟩, fun d hda hdb => ?_⟩ ⟨?_, ?_⟩
    · exact (hcommon.2 d ((prefix_dropLast_iff ha).mpr hda)
        ((prefix_dropLast_iff hb).mpr hdb)).length_le
    · exact fun hab => hab.2 (hab.1.eq_of_length hlen)
    · exact fun hba => hba.2 (hba.1.eq_of_length hlen.symm)
  · constructor
    · rintro ⟨⟨hca, hcb⟩, -⟩
      refine ⟨fun hab => hca.2 ?_, fun hba => hcb.2 ?_⟩
      · exact hca.1.eq_of_length_le (hcommon.2 a prefix_rfl hab.1).length_le
      · exact hcb.1.eq_of_length_le (hcommon.2 b hba.1 prefix_rfl).length_le
    · rintro ⟨hab, hba⟩
      refine ⟨⟨⟨hcommon.1.1, ?_⟩, ⟨hcommon.1.2, ?_⟩⟩, fun d hda hdb =>
        (hcommon.2 d hda.1 hdb.1).length_le⟩
      · rintro rfl
        exact hab ⟨hcommon.1.2, fun h => hlen (congrArg _ h)⟩
      · rintro rfl
        exact hba ⟨hcommon.1.1, fun h => hlen (congrArg _ h).symm⟩

/-! ## The order of hierarchies. -/

/-- **HIERARCHIES ARE ORDERED BY STRICT PREFIX, AND THEIR COMMON ANCESTORS ARE FOUND EXACTLY WHEN
THEY ARE NOT BOTH EMPTY AND NEITHER IS AN ANCESTOR OF THE OTHER.** -/
theorem hierarchy_order_and_ancestors (a b c : List String) :
    ((∃ r, commonAncestors a b = some r ∧ commonAncestors b a = some r ∧ IsCommonAncestors a b r) ↔
      ¬(a = [] ∧ b = []) ∧ ancestorOf a b = some false ∧ ancestorOf b a = some false) ∧
    (∃ r, ancestorOf a b = some r) ∧ ancestorOf a a = some false ∧
    (ancestorOf a b = some true → ancestorOf b c = some true → ancestorOf a c = some true) ∧
    (descendentOf a b = some true ↔ ancestorOf b a = some true) ∧ (∃ r, overlaps a b = some r) ∧
    (overlaps a b = some true ↔ a = b ∨ ancestorOf a b = some true ∨ ancestorOf b a = some true) := by
  refine ⟨?_, ⟨_, ancestorOf_eq a b⟩, by simp [ancestorOf_eq], ?_, Iff.rfl, ⟨_, overlaps_eq a b⟩, ?_⟩
  · rw [← commonAncestors_comm a b]
    by_cases h : a = [] ∧ b = []
    · -- the slices are cut before their start
      obtain ⟨rfl, rfl⟩ := h
      simp [commonAncestors, byLength, upTo]
    · rw [iff_true_intro h, ← isCommonAncestors_iff h]
      simp
  · simp only [ancestorOf_eq, Option.some.injEq, decide_eq_true_eq]
    rintro ⟨hab, hne⟩ ⟨hbc, -⟩
    refine ⟨hab.trans hbc, ?_⟩
    rintro rfl
    exact hne (hab.eq_of_length_le hbc.length_le)
  · simp only [ancestorOf_eq, overlaps_eq]
    by_cases h : a = b
    · simp [h]
    · simp [h, Ne.symm h]

/-- Two empty hierarchies make `commonAncestors` panic: the code does not ask whether there is an
element to cut off.  That an ancestor is returned as the common ancestors of itself and a
descendant, and so is no strict prefix of both, is the design: a test of the library expects it. -/
theorem commonAncestors_panics_or_not_strict :
    commonAncestors [] [] = none ∧ commonAncestors ["a"] ["a", "b"] = some ["a"] := by
  decide

end AccessManagement.Hierarchy
