/-
  AccessManagement.Policy.Conjunction — CONDITIONS THAT THEIR CONTENT HASH DOES DETERMINE.

  A condition writes only its leaves to a content hash, so in general rows with the same hash
  can mean different things.  Not so for CONJUNCTIONS: what they mean is the conjunction of
  their leaves, and the leaves can be read back from the bytes as long as every leaf is longer
  than the small numbers that follow the conditions (`leaves_eq_of_encode_eq`).
-/
import AccessManagement.Policy.ContentHash

namespace AccessManagement

open Lib List Condition Token

/-! ## §1. Leaves. -/

mutual

/-- The expressions of a condition, from left to right. -/
def Condition.leaves : Condition → List Expr
  | .expr e => [e]
  | .all cs => listLeaves cs
  | .any cs => listLeaves cs
  | .none cs => listLeaves cs

def Condition.listLeaves : List Condition → List Expr
  | [] => []
  | c :: cs => c.leaves ++ listLeaves cs

end

mutual

/-- Is the condition made of expressions and `all` only? -/
def Condition.isConjunction : Condition → Bool
  | .expr _ => true
  | .all cs => areConjunctions cs
  | .any _ => false
  | .none _ => false

def Condition.areConjunctions : List Condition → Bool
  | [] => true
  | c :: cs => c.isConjunction && areConjunctions cs

end

mutual

/-- A condition writes its leaves. -/
theorem Condition.tokens_eq_leaves : ∀ c : Condition, c.tokens = c.leaves.flatMap Expr.tokens
  | .expr e => by rw [tokens, leaves, List.flatMap_singleton]
  | .all cs => by rw [tokens, leaves, listTokens_eq_leaves]
  | .any cs => by rw [tokens, leaves, listTokens_eq_leaves]
  | .none cs => by rw [tokens, leaves, listTokens_eq_leaves]

theorem Condition.listTokens_eq_leaves : ∀ cs : List Condition,
    listTokens cs = (listLeaves cs).flatMap Expr.tokens
  | [] => by rw [listTokens, listLeaves, List.flatMap_nil]
  | c :: cs => by
    rw [listTokens, listLeaves, List.flatMap_append,
      tokens_eq_leaves, listTokens_eq_leaves]

end

mutual

/-- The truth of a condition tree, given the truth of its expressions. -/
def Condition.holds (truth : Expr → Bool) : Condition → Bool
  | .expr e => truth e
  | .any cs => !holdNot truth cs
  | .all cs => holdAll truth cs
  | .none cs => holdNot truth cs

def Condition.holdAll (truth : Expr → Bool) : List Condition → Bool
  | [] => true
  | c :: cs => c.holds truth && holdAll truth cs

/-- None of the conditions holds. -/
def Condition.holdNot (truth : Expr → Bool) : List Condition → Bool
  | [] => true
  | c :: cs => !c.holds truth && holdNot truth cs

end

variable {truth : Expr → Bool}

mutual

/-- A conjunction holds iff all its leaves do. -/
theorem Condition.holds_conjunction : ∀ c : Condition, c.isConjunction = true →
    c.holds truth = c.leaves.all truth
  | .expr e, _ => by simp [holds, leaves]
  | .all cs, h => by
    rw [holds, leaves, holdAll_conjunctions cs h]
  | .any _, h | .none _, h => by simp [isConjunction] at h

theorem Condition.holdAll_conjunctions : ∀ cs : List Condition, areConjunctions cs = true →
    holdAll truth cs = (listLeaves cs).all truth
  | [], _ => by simp [holdAll, listLeaves]
  | c :: cs, h => by
    rw [areConjunctions, Bool.and_eq_true] at h
    rw [holdAll, listLeaves, List.all_append, c.holds_conjunction h.1,
      holdAll_conjunctions cs h.2]

end

/-- The leaves of a condition that may be absent. -/
def optLeaves (cond : Option Condition) : List Expr := (cond.map leaves).getD []

theorem optTokens_eq_leaves (cond : Option Condition) :
    optTokens tokens cond = (optLeaves cond).flatMap Expr.tokens := by
  cases cond with
  | none => rfl
  | some c => exact c.tokens_eq_leaves

/-! ## §2. Reading the leaves back. -/

/-- An expression as the compiler leaves it, whose text is no shorter than four bytes. -/
structure Expr.Readable (checked : String → List UInt8) (e : Expr) : Prop where
  checked_eq : e.checked = some (checked e.original)
  four_le : 4 ≤ e.original.utf8ByteSize
  lt_size : e.original.utf8ByteSize < 2 ^ 64

variable {w : Protowire} {checked : String → List UInt8}

theorem Expr.Readable.encode_cons {e : Expr} (h : e.Readable checked) (ts : Tokens) :
    encode w (e.tokens ++ ts) = w.appendVarint e.original.utf8ByteSize ++
      (utf8 e.original ++ (checked e.original ++ encode w ts)) := by
  unfold Expr.tokens
  rw [h.checked_eq]
  simp only [cons_append, nil_append, Token.encode_cons, bytes, append_assoc]

/-- **The bytes of a list of leaves, followed by a small number, determine both.** -/
theorem leaves_eq_of_encode_eq : ∀ (ls ls' : List Expr) (m m' : Nat) (ts ts' : Tokens),
    (∀ e ∈ ls, e.Readable checked) → (∀ e ∈ ls', e.Readable checked) → m < 4 → m' < 4 →
    encode w (ls.flatMap Expr.tokens ++ .varint m :: ts) =
      encode w (ls'.flatMap Expr.tokens ++ .varint m' :: ts') → ls = ls' ∧ m = m' := by
  -- a number in one stream against a text in the other: the text is too long for it
  have hclash : ∀ (e : Expr) (m : Nat) (ts ts' : Tokens), e.Readable checked → m < 4 →
      encode w (.varint m :: ts) ≠ encode w (e.tokens ++ ts') := by
    intro e m ts ts' he hm h
    rw [he.encode_cons] at h
    have hlt := he.lt_size
    have hlen := (w.appendVarint_append_inj m _ _ _ (by omega) hlt h).1
    have hfour := he.four_le
    omega
  intro ls
  induction ls with
  | nil =>
    intro ls' m m' ts ts' _ hok' hm hm' h
    cases ls' with
    | nil =>
      have hbytes : w.appendVarint m ++ encode w ts = w.appendVarint m' ++ encode w ts' := h
      exact ⟨rfl, (w.appendVarint_append_inj m m' _ _ (by omega) (by omega) hbytes).1⟩
    | cons e' =>
      rw [flatMap_cons, append_assoc] at h
      exact absurd h (hclash e' m ts _ (hok' e' mem_cons_self) hm)
  | cons e _ ih =>
    intro ls' m m' ts ts' hok hok' hm hm' h
    have he := hok e mem_cons_self
    rw [flatMap_cons, append_assoc] at h
    cases ls' with
    | nil => exact absurd h.symm (hclash e m' ts' _ he hm')
    | cons e' ls' =>
      have he' := hok' e' mem_cons_self
      rw [flatMap_cons, append_assoc, he.encode_cons, he'.encode_cons] at h
      obtain ⟨hlen, hrest⟩ := w.appendVarint_append_inj _ _ _ _ he.lt_size he'.lt_size h
      obtain ⟨htext, hrest⟩ := append_inj hrest (by rw [utf8_length, utf8_length, hlen])
      have horiginal : e.original = e'.original := utf8_inj _ _ htext
      have hexpr : e = e' := by
        cases e; cases e'
        obtain rfl : _ = _ := horiginal
        rw [Expr.mk.injEq]
        exact ⟨rfl, he.checked_eq.trans he'.checked_eq.symm⟩
      rw [horiginal] at hrest
      obtain ⟨hls, hmm⟩ := ih ls' m m' ts ts' (fun x hx => hok x (mem_cons_of_mem e hx))
        (fun x hx => hok' x (mem_cons_of_mem e' hx)) hm hm'
        (append_cancel_left hrest)
      exact ⟨by rw [hexpr, hls], hmm⟩

/-- A condition, if there is one, is a conjunction of readable expressions. -/
def ReadableConjunction (checked : String → List UInt8) (cond : Option Condition) : Prop :=
  ∀ c ∈ cond, c.isConjunction = true ∧ ∀ e ∈ c.leaves, e.Readable checked

theorem ReadableConjunction.readable {cond : Option Condition}
    (h : ReadableConjunction checked cond) : ∀ e ∈ optLeaves cond, e.Readable checked := by
  cases cond with
  | none => intro e he; exact (not_mem_nil he).elim
  | some c => exact (h c rfl).2

end AccessManagement
