/-
  AccessManagement.Lib.Inquiry — COMPUTATIONS THAT ASK QUESTIONS, AND ANSWERS THAT ARE REMEMBERED.

  An `Inquiry` asks yes-or-no questions, one at a time; which question comes next depends on the
  answers so far.  A `Memory` answers them: it remembers an answer under the KEY of the question, and
  a later question with the key gets the same answer.  How a first answer comes about is left open:
  it may depend on all that was asked before.

  What an inquiry asks depends on the answers, and the answers depend on what was asked.  Answers that
  fit are `Consistent`.

  Main result: `exists_consistent` — every memory has consistent answers for every inquiry.
-/
import Mathlib.Data.List.Infix

namespace AccessManagement.Lib

/-- A computation that asks questions. -/
inductive Inquiry (Q R : Type) where
  | done (r : R)
  | ask (q : Q) (next : Bool → Inquiry Q R)

namespace Inquiry

variable {Q R S : Type}

def result (answer : Q → Bool) : Inquiry Q R → R
  | done r => r
  | ask q next => (next (answer q)).result answer

/-- The questions that are asked, in their order. -/
def asked (answer : Q → Bool) : Inquiry Q R → List Q
  | done _ => []
  | ask q next => q :: (next (answer q)).asked answer

def bind (f : R → Inquiry Q S) : Inquiry Q R → Inquiry Q S
  | done r => f r
  | ask q next => ask q (fun v => (next v).bind f)

theorem result_bind (answer : Q → Bool) (f : R → Inquiry Q S) (t : Inquiry Q R) :
    (t.bind f).result answer = (f (t.result answer)).result answer := by
  induction t with
  | done => rfl
  | ask q _ ih => exact ih (answer q)

theorem asked_bind (answer : Q → Bool) (f : R → Inquiry Q S) (t : Inquiry Q R) :
    (t.bind f).asked answer = t.asked answer ++ (f (t.result answer)).asked answer := by
  induction t with
  | done => rfl
  | ask q _ ih => exact congrArg (q :: ·) (ih (answer q))

end Inquiry

/-- Something that answers questions and remembers the answers.  A question without a key is only a
remark, which is answered by no. -/
structure Memory (Q K S : Type) where
  key : Q → Option K
  next : S → Q → S
  memo : S → K → Option Bool
  kept : ∀ {s q k v}, memo s k = some v → memo (next s q) k = some v
  answered : ∀ {s q k}, key q = some k → (memo (next s q) k).isSome = true

namespace Memory

variable {Q K S R : Type} (m : Memory Q K S) {s : S} {k : K} {q : Q} {v : Bool} {asked : List Q}

/-- What is remembered after some questions. -/
def after (s : S) (qs : List Q) : S := qs.foldl m.next s

/-- Answers are those that are remembered in the end. -/
def Consistent (s : S) (answer : Q → Bool) (asked : List Q) : Prop :=
  ∀ q ∈ asked, ∀ k, m.key q = some k → m.memo (m.after s asked) k = some (answer q)

variable {m}

theorem memo_after (h : m.memo s k = some v) (qs : List Q) : m.memo (m.after s qs) k = some v := by
  induction qs generalizing s with
  | nil => exact h
  | cons _ _ ih => exact ih (m.kept h)

/-- A consistent answer is remembered from the time of the question on. -/
theorem Consistent.memo_eq {answer : Q → Bool} (h : m.Consistent s answer asked) {before : List Q}
    (hpre : before ++ [q] <+: asked) (hkey : m.key q = some k) :
    m.memo (m.after s (before ++ [q])) k = some (answer q) := by
  obtain ⟨rest, hrest⟩ := hpre
  have hnext : m.after s (before ++ [q]) = m.next (m.after s before) q := by
    rw [after, List.foldl_append]
    rfl
  obtain ⟨v, hv⟩ := Option.isSome_iff_exists.mp (m.answered (s := m.after s before) hkey)
  rw [← hnext] at hv
  have hend := memo_after hv rest
  rw [after, after, ← List.foldl_append, hrest] at hend
  have hanswer := h q (by rw [← hrest]; simp) k hkey
  rw [hv, ← hanswer]
  exact hend.symm

/-- The answer that a state has to a question. -/
def remembered (m : Memory Q K S) (s : S) (q : Q) : Bool := ((m.key q).bind (m.memo s)).getD false

theorem remembered_of_memo (hkey : m.key q = some k) (h : m.memo s k = some v) : m.remembered s q = v := by
  rw [remembered, hkey, Option.bind_some, h]
  rfl

/-- A state that an inquiry ends in if it gets its answers from there. -/
theorem exists_final (m : Memory Q K S) (s : S) (t : Inquiry Q R) :
    ∃ final, m.after s (t.asked (m.remembered final)) = final ∧
      ∀ q ∈ t.asked (m.remembered final), ∀ k, m.key q = some k → (m.memo final k).isSome = true := by
  induction t generalizing s with
  | done => exact ⟨s, rfl, fun _ hq => (List.not_mem_nil hq).elim⟩
  | ask q next ih =>
    obtain ⟨final, hfinal, hsome⟩ := ih (m.remembered (m.next s q) q) (m.next s q)
    -- the answer to the first question is kept
    have hkeep : ∀ k, m.key q = some k → m.memo final k = m.memo (m.next s q) k := by
      intro k hkey
      obtain ⟨v, hv⟩ := Option.isSome_iff_exists.mp (m.answered (s := s) hkey)
      rw [hv, ← hfinal]
      exact memo_after hv _
    have hanswer : m.remembered final q = m.remembered (m.next s q) q := by
      unfold remembered
      cases hkey : m.key q with
      | none => rfl
      | some k => rw [Option.bind_some, Option.bind_some, hkeep k hkey]
    refine ⟨final, ?_, ?_⟩
    · rw [Inquiry.asked, hanswer]
      exact hfinal
    · rw [Inquiry.asked, hanswer, List.forall_mem_cons]
      refine ⟨fun k hkey => ?_, hsome⟩
      rw [hkeep k hkey]
      exact m.answered hkey

/-- **Consistent answers exist.** -/
theorem exists_consistent (m : Memory Q K S) (s : S) (t : Inquiry Q R) :
    ∃ answer, m.Consistent s answer (t.asked answer) := by
  obtain ⟨final, hfinal, hsome⟩ := m.exists_final s t
  refine ⟨m.remembered final, fun q hq k hkey => ?_⟩
  obtain ⟨v, hv⟩ := Option.isSome_iff_exists.mp (hsome q hq k hkey)
  rw [hfinal, hv, remembered_of_memo hkey hv]

end Memory

end AccessManagement.Lib
