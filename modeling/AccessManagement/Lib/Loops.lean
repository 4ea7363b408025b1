/-
  AccessManagement.Lib.Loops — STEPS AND LOOPS THAT MAY FAIL.

  A Go function that returns an error is an `Except` in the models, and a loop in it that
  computes one result for each item is a `mapM`.  What such a loop has done when it comes to
  its end is said here once (`mapM_eq_ok`).  A loop that stops at the first item of some kind gets to
the items up to that one (`upTo`).
-/
import Mathlib.Data.List.Forall2

namespace AccessManagement.Lib

variable {ε α β σ : Type}

variable {x : Except ε α} {f : α → Except ε β} {a : α} {as : List α} {bs : List β} {e : ε}
  {c : Prop}

/-- What a loop gets to that stops at the first item for which `p` holds. -/
def upTo (p : α → Bool) : List α → List α
  | [] => []
  | a :: as => a :: if p a then [] else upTo p as

theorem upTo_cons_of_not {p : α → Bool} (h : p a = false) : upTo p (a :: as) = a :: upTo p as := by
  rw [upTo, h]
  rfl

theorem upTo_subset (p : α → Bool) (as : List α) : upTo p as ⊆ as := by
  induction as with
  | nil => exact List.Subset.refl _
  | cons a as ih =>
    rw [upTo]
    split
    · exact List.cons_subset_cons a (List.nil_subset as)
    · exact List.cons_subset_cons a ih

/-- The first of the items that are left is the next one, and the others come after it. -/
theorem next_of_append_cons {done rest total : List α} {a : α} (h : done ++ a :: rest <+: total) :
    done ++ [a] <+: total ∧ (done ++ [a]) ++ rest <+: total := by
  have hassoc : done ++ a :: rest = (done ++ [a]) ++ rest := by rw [List.append_assoc]; rfl
  rw [hassoc] at h
  exact ⟨(List.prefix_append _ rest).trans h, h⟩

/-- A sequence of two steps returns what the second one returns on the result of the first. -/
theorem bind_eq_ok {b : β} : (x >>= f) = .ok b ↔ ∃ a, x = .ok a ∧ f a = .ok b := by
  cases x with
  | error | ok => simp [bind, Except.bind]

theorem toOption_eq_some_iff : x.toOption = some a ↔ x = .ok a := by
  cases x <;> simp [Except.toOption]

theorem toOption_map_eq_some_iff {g : α → β} {b : β} :
    x.toOption.map g = some b ↔ ∃ a, x = .ok a ∧ g a = b := by
  cases x <;> simp [Except.toOption]

theorem isOk_iff : x.isOk = true ↔ ∃ a, x = .ok a := by
  cases x <;> simp [Except.toBool]

theorem ite_error_eq_ok [Decidable c] : (if c then .error e else x) = .ok a ↔ ¬ c ∧ x = .ok a := by
  split <;> simp [*]

theorem ite_else_error_eq_ok [Decidable c] :
    (if c then x else .error e) = .ok a ↔ c ∧ x = .ok a := by
  split <;> simp [*]

theorem mapM_eq_ok : as.mapM f = .ok bs ↔ List.Forall₂ (fun a b => f a = .ok b) as bs := by
  induction as generalizing bs with
  | nil => simp [pure, Except.pure]
  | cons _ _ ih =>
    simp only [List.mapM_cons, bind_eq_ok, ih, pure, Except.pure, Except.ok.injEq,
      List.forall₂_cons_left_iff]
    grind

/-- A loop over a state fails with the error of one of its steps. -/
theorem exists_step_error {step : σ → α → Except ε σ} {s : σ}
    (h : as.foldlM step s = .error e) : ∃ a ∈ as, ∃ s', step s' a = .error e := by
  induction as generalizing s with
  | nil => cases h
  | cons a _ ih =>
    rw [List.foldlM_cons] at h
    cases hstep : step s a with
    | error =>
      rw [hstep] at h
      cases h
      exact ⟨a, List.mem_cons_self, s, hstep⟩
    | ok =>
      rw [hstep] at h
      obtain ⟨b, hb, herror⟩ := ih h
      exact ⟨b, List.mem_cons_of_mem a hb, herror⟩

/-- A loop in which no item fails. -/
theorem exists_mapM (h : ∀ a ∈ as, ∃ b, f a = .ok b) : ∃ bs, as.mapM f = .ok bs := by
  simp only [mapM_eq_ok]
  induction as with
  | nil => exact ⟨[], .nil⟩
  | cons _ _ ih =>
    obtain ⟨⟨b, hb⟩, has⟩ := List.forall_mem_cons.mp h
    obtain ⟨bs, hbs⟩ := ih has
    exact ⟨b :: bs, .cons hb hbs⟩

theorem mem_of_mapM (h : as.mapM f = .ok bs) (ha : a ∈ as) : ∃ b ∈ bs, f a = .ok b := by
  induction mapM_eq_ok.mp h with
  | nil => cases ha
  | cons => grind [mapM_eq_ok]

end AccessManagement.Lib
