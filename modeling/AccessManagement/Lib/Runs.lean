/-
  AccessManagement.Lib.Runs — RUNS OF A MACHINE WITH GUARDED STEPS.

  `step s a` is the state after an action, or `none` where the action cannot happen.

  Main results:
    * `run_append` — a run is cut anywhere.
    * `run_invariant` — what every step keeps, every run keeps.
    * `run_crosses` — where something holds at the end and did not at the start, one step made it
      hold.
    * `EachStep.throughout` — the same for steps that keep something under a condition.
    * `throughout_iff` — a run keeps something throughout iff each of its steps does.
-/
import Mathlib.Data.Option.Basic

namespace AccessManagement.Lib

variable {σ α : Type} (step : σ → α → Option σ)

/-- The state after some actions, if all of them can happen. -/
def run : σ → List α → Option σ
  | s, [] => some s
  | s, a :: as => (step s a).bind (fun s' => run s' as)

variable {step}

theorem run_cons {s s' : σ} {a : α} {as : List α} :
    run step s (a :: as) = some s' ↔ ∃ s₁, step s a = some s₁ ∧ run step s₁ as = some s' := by
  show (step s a).bind _ = some s' ↔ _
  rw [Option.bind_eq_some_iff]

theorem run_append {before after : List α} {s s' : σ} : run step s (before ++ after) = some s' ↔
      ∃ s₁, run step s before = some s₁ ∧ run step s₁ after = some s' := by
  induction before generalizing s s' with
  | nil => simp [run]
  | cons _ _ ih =>
    rw [List.cons_append, run_cons]
    constructor
    · rintro ⟨s₁, hstep, hrest⟩
      obtain ⟨s₂, hbefore, hafter⟩ := ih.mp hrest
      exact ⟨s₂, run_cons.mpr ⟨s₁, hstep, hbefore⟩, hafter⟩
    · rintro ⟨s₂, hbefore, hafter⟩
      obtain ⟨s₁, hstep, hrest⟩ := run_cons.mp hbefore
      exact ⟨s₁, hstep, ih.mpr ⟨s₂, hrest, hafter⟩⟩

/-- **The rule for invariants.** -/
theorem run_invariant {P : σ → Prop} (hstep : ∀ {s a s'}, P s → step s a = some s' → P s')
    {as : List α} {s s' : σ} (hs : P s) (h : run step s as = some s') : P s' := by
  induction as generalizing s s' with
  | nil =>
    cases h
    exact hs
  | cons _ _ ih =>
    obtain ⟨s₁, hfirst, hrest⟩ := run_cons.mp h
    exact ih (hstep hs hfirst) hrest

/-- **The step at which something begins to hold.** -/
theorem run_crosses {P : σ → Prop} {as : List α} {s s' : σ} (hs : ¬ P s) (hs' : P s')
    (h : run step s as = some s') : ∃ before a after s₁ s₂, as = before ++ a :: after ∧
      run step s before = some s₁ ∧ ¬ P s₁ ∧ step s₁ a = some s₂ ∧ P s₂ ∧
        run step s₂ after = some s' := by
  induction as generalizing s s' with
  | nil =>
    cases h
    exact (hs hs').elim
  | cons a as ih =>
    obtain ⟨s₁, hfirst, hrest⟩ := run_cons.mp h
    by_cases hcross : P s₁
    · exact ⟨[], a, as, s, s₁, rfl, rfl, hs, hfirst, hcross, hrest⟩
    · obtain ⟨before, b, after, s₂, s₃, rfl, hbefore, hnot, hb, hP, hafter⟩ := ih hcross hs' hrest
      exact ⟨a :: before, b, after, s₂, s₃, rfl, run_cons.mpr ⟨s₁, hfirst, hbefore⟩, hnot, hb, hP,
        hafter⟩

variable (step)

/-- `P` holds of every state a run goes through. -/
@[simp] def Throughout (P : σ → Prop) : σ → List α → Prop
  | s, [] => P s
  | s, a :: as => P s ∧ ∀ s' ∈ step s a, Throughout P s' as

/-- `Q` holds of every step a run takes. -/
@[simp] def EachStep (Q : σ → α → Prop) : σ → List α → Prop
  | _, [] => True
  | s, a :: as => Q s a ∧ ∀ s' ∈ step s a, EachStep Q s' as

variable {step}

theorem EachStep.congr {Q Q' : σ → α → Prop} (h : ∀ s a, Q s a ↔ Q' s a) :
    ∀ {as : List α} {s : σ}, EachStep step Q s as ↔ EachStep step Q' s as := by
  intro as
  induction as with
  | nil => exact Iff.rfl
  | cons a _ ih =>
    intro s
    simp only [EachStep, h s a, ih]

/-- **The rule for invariants** that steps keep under a condition. -/
theorem EachStep.throughout {I P : σ → Prop} {Q : σ → α → Prop} (hI : ∀ {s}, I s → P s)
    (hstep : ∀ {s a s'}, I s → Q s a → step s a = some s' → I s') :
    ∀ {as : List α} {s : σ}, I s → EachStep step Q s as → Throughout step P s as := by
  intro as
  induction as with
  | nil => exact fun hs _ => hI hs
  | cons _ _ ih => exact fun hs hq => ⟨hI hs, fun s' hs' => ih (hstep hs hq.1 hs') (hq.2 s' hs')⟩

/-- What holds throughout a run holds at its end. -/
theorem Throughout.last {P : σ → Prop} {as : List α} {s s' : σ} (h : Throughout step P s as)
    (hrun : run step s as = some s') : P s' := by
  induction as generalizing s s' with
  | nil =>
    cases hrun
    exact h
  | cons _ _ ih =>
    obtain ⟨s₁, hfirst, hrest⟩ := run_cons.mp hrun
    exact ih (h.2 s₁ hfirst) hrest

/-- **What holds throughout a run, from what each step does to it.** -/
theorem throughout_iff {P I : σ → Prop} {Q : σ → α → Prop} (hI : ∀ {s}, I s → P s)
    (hgood : ∀ {s a}, I s → Q s a → ∃ s', step s a = some s' ∧ I s')
    (hbad : ∀ {s a}, I s → ¬ Q s a → ∃ s', step s a = some s' ∧ ¬ P s') {as : List α} {s : σ}
    (hs : I s) : (Throughout step P s as ↔ EachStep step Q s as) := by
  induction as generalizing s with
  | nil =>
    simpa using hI hs
  | cons a as ih =>
    by_cases hq : Q s a
    · obtain ⟨s', hstep, hs'⟩ := hgood hs hq
      simpa [hstep, hq, hI hs] using ih hs'
    · obtain ⟨s', hstep, hnot⟩ := hbad hs hq
      have hfirst : ¬ Throughout step P s' as := by
        cases as with
        | nil => exact hnot
        | cons => exact fun h => hnot h.1
      simp [hstep, hq, hfirst]

end AccessManagement.Lib
