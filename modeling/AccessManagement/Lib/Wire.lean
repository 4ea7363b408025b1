/-
  AccessManagement.Lib.Wire — TOKEN STREAMS AND THEIR BYTES.

  A content hash is fed a flat sequence of base-128 varints, length-prefixed texts,
  fixed-width words and foreign byte blocks.  Nothing marks where one item stops and the
  next begins, so two different sequences CAN have the same bytes.  This file says when
  they cannot: walk the two sequences in step; if they first part at two numbers, two
  texts, two words, or a number and a text of another length, the bytes part there as well
  (`eq_of_encode_eq`), whatever follows.

  And it says when a message can be read back from its tokens: `Peels` relates the tokens of
  a message to its shape, which is what is left of it when the contents are blanked.

  How numbers become bytes is left to a `Protowire`, which carries the laws that are used.
-/
import Mathlib.Algebra.Group.Nat.Defs
import Mathlib.Data.List.Basic

namespace AccessManagement.Lib

open List

/-! ## §1. Numbers. -/

/-- The functions of `protowire` that write numbers: a varint below 128 is one byte, the varints
of 64-bit numbers are a prefix code, and a fixed word has eight bytes. -/
structure Protowire where
  appendVarint : Nat → List UInt8
  appendFixed64 : UInt64 → List UInt8
  appendVarint_of_lt : ∀ n, n < 128 → appendVarint n = [UInt8.ofNat n]
  appendVarint_append_inj : ∀ m n s t, m < 2 ^ 64 → n < 2 ^ 64 →
    appendVarint m ++ s = appendVarint n ++ t → m = n ∧ s = t
  length_appendFixed64 : ∀ w, (appendFixed64 w).length = 8
  appendFixed64_inj : ∀ w w', appendFixed64 w = appendFixed64 w' → w = w'

theorem Protowire.appendVarint_ne_nil (w : Protowire) {n : Nat} (h : n < 2 ^ 64) :
    w.appendVarint n ≠ [] := by
  intro hnil
  -- an empty number could be put in front of any other one
  have hother : ∀ m, m < 2 ^ 64 → n = m := by
    intro m hm
    refine (w.appendVarint_append_inj n m (w.appendVarint m) [] h hm ?_).1
    rw [hnil, nil_append, append_nil]
  have hzero := hother 0 (by omega)
  have hone := hother 1 (by omega)
  omega

/-- Base-128 groups of `n`, least significant first, with at most `fuel + 1` groups. -/
def varintGroups : (fuel : Nat) → Nat → List UInt8
  | 0, n => [UInt8.ofNat (n % 128)]
  | fuel + 1, n =>
    if n < 128 then [UInt8.ofNat n]
    else UInt8.ofNat (n % 128 + 128) :: varintGroups fuel (n / 128)

theorem ofNat_cons_inj {m n : Nat} {s t : List UInt8}
    (h : UInt8.ofNat m :: s = UInt8.ofNat n :: t) : m % 2 ^ 8 = n % 2 ^ 8 ∧ s = t := by
  have hnat := congrArg UInt8.toNat (List.cons.inj h).1
  exact ⟨hnat, (List.cons.inj h).2⟩

/-- The groups and what follows determine the number. -/
theorem varintGroups_append_inj (fuel m n : Nat) (s t : List UInt8) (hm : m < 2 ^ (7 * (fuel + 1)))
    (hn : n < 2 ^ (7 * (fuel + 1))) (h : varintGroups fuel m ++ s = varintGroups fuel n ++ t) :
    m = n ∧ s = t := by
  induction fuel generalizing m n s t with
  | zero =>
    obtain ⟨hnat, hrest⟩ := ofNat_cons_inj h
    exact ⟨by omega, hrest⟩
  | succ fuel ih =>
    have hpow : 2 ^ (7 * (fuel + 1 + 1)) = 128 * 2 ^ (7 * (fuel + 1)) := by
      rw [show 7 * _ = 7 + 7 * (fuel + 1) by omega, Nat.pow_add]
    unfold varintGroups at h
    -- a first byte has its continuation bit set unless the number ends there
    split_ifs at h <;> obtain ⟨hnat, hrest⟩ := ofNat_cons_inj h
    · exact ⟨by omega, hrest⟩
    · omega
    · omega
    · have hrec := ih (m / 128) (n / 128) s t (by omega) (by omega) hrest
      exact ⟨by omega, hrec.2⟩

/-- The eight bytes of a word, least significant first. -/
def fixed64Bytes (w : UInt64) : List UInt8 :=
  (List.range 8).map (fun i => UInt8.ofNat (w.toNat / 256 ^ i % 256))

theorem fixed64Bytes_inj (w w' : UInt64) (h : fixed64Bytes w = fixed64Bytes w') : w = w' := by
  have hdigit : ∀ i ∈ List.range 8, w.toNat / 256 ^ i % 256 = w'.toNat / 256 ^ i % 256 := by
    intro i hi
    have hbyte := congrArg UInt8.toNat (map_inj_left.mp h i hi)
    simpa using hbyte
  have hlt := w.toNat_lt
  have hlt' := w'.toNat_lt
  simp only [List.range, List.range.loop, forall_mem_cons, pow_zero, pow_one] at hdigit
  refine UInt64.toNat_inj.mp ?_
  omega

/-- A `Protowire` as the real one, for evaluating the model on examples. -/
def Protowire.sample : Protowire where
  appendVarint := varintGroups 9
  appendFixed64 := fixed64Bytes
  appendVarint_of_lt := fun _ h => if_pos h
  appendVarint_append_inj := fun m n s t hm hn h =>
    varintGroups_append_inj 9 m n s t (Nat.lt_trans hm (by decide)) (Nat.lt_trans hn (by decide)) h
  length_appendFixed64 := fun _ => rfl
  appendFixed64_inj := fixed64Bytes_inj

/-! ## §2. Tokens. -/

/-- One item written to the hash. -/
inductive Token where
  | varint (n : Nat)
  | text (s : String)
  | fixed64 (w : UInt64)
  | block (bs : List UInt8)
  deriving DecidableEq, Repr

/-- The UTF-8 bytes of a text. -/
def utf8 (s : String) : List UInt8 := s.toUTF8.data.toList

theorem utf8_inj (s t : String) (h : utf8 s = utf8 t) : s = t := by
  have hdata : s.toByteArray.data = t.toByteArray.data := Array.toList_inj.mp h
  exact String.toByteArray_inj.mp (ByteArray.ext hdata)

theorem utf8_length (s : String) : (utf8 s).length = s.utf8ByteSize := rfl

namespace Token

variable (w : Protowire)

/-- The bytes of one token. -/
def bytes : Token → List UInt8
  | varint n => w.appendVarint n
  | text s => w.appendVarint s.utf8ByteSize ++ utf8 s
  | fixed64 v => w.appendFixed64 v
  | block bs => bs

/-- The bytes of a token sequence. -/
def encode (ts : List Token) : List UInt8 := ts.flatMap (bytes w)

@[simp] theorem encode_nil : encode w [] = [] := rfl

@[simp] theorem encode_cons (t : Token) (ts : List Token) :
    encode w (t :: ts) = t.bytes w ++ encode w ts := flatMap_cons

@[simp] theorem encode_append (ts ts' : List Token) :
    encode w (ts ++ ts') = encode w ts ++ encode w ts' := flatMap_append

/-! ## §3. Streams that part. -/

/-- The number, or the length of the text, has at most 64 bits. -/
def sized : Token → Bool
  | varint n => decide (n < 2 ^ 64)
  | text s => decide (s.utf8ByteSize < 2 ^ 64)
  | fixed64 _ => true
  | block _ => false

/-- Two tokens whose bytes part, whatever follows. -/
def clash : Token → Token → Bool
  | varint m, varint n => m != n
  | text s, text t => s != t
  | fixed64 v, fixed64 v' => v != v'
  | varint n, text s => s.utf8ByteSize != n
  | text s, varint n => s.utf8ByteSize != n
  | _, _ => false

theorem bytes_append_ne_of_clash {t t' : Token} (h : t.clash t' = true) (ht : t.sized = true)
    (ht' : t'.sized = true) (s s' : List UInt8) : t.bytes w ++ s ≠ t'.bytes w ++ s' := by
  intro heq
  cases t with
  | varint m =>
    cases t' with
    | varint n =>
      exact bne_iff_ne.mp h (w.appendVarint_append_inj m n s s' (of_decide_eq_true ht)
        (of_decide_eq_true ht') heq).1
    | text u =>
      unfold bytes at heq
      rw [append_assoc] at heq
      exact bne_iff_ne.mp h (w.appendVarint_append_inj m _ s _ (of_decide_eq_true ht)
        (of_decide_eq_true ht') heq).1.symm
    | fixed64 | block => cases h
  | text u =>
    unfold bytes at heq
    rw [append_assoc] at heq
    cases t' with
    | varint n =>
      exact bne_iff_ne.mp h (w.appendVarint_append_inj _ n _ s' (of_decide_eq_true ht)
        (of_decide_eq_true ht') heq).1
    | text u' =>
      simp only [append_assoc] at heq
      obtain ⟨hlen, hrest⟩ := w.appendVarint_append_inj _ _ _ _ (of_decide_eq_true ht)
        (of_decide_eq_true ht') heq
      have htext := (append_inj hrest (by rw [utf8_length, utf8_length, hlen])).1
      exact bne_iff_ne.mp h (utf8_inj u u' htext)
    | fixed64 | block => cases h
  | fixed64 v =>
    cases t' with
    | fixed64 v' =>
      have hlen : (w.appendFixed64 v).length = (w.appendFixed64 v').length := by
        rw [w.length_appendFixed64, w.length_appendFixed64]
      exact bne_iff_ne.mp h (w.appendFixed64_inj v v' (append_inj heq hlen).1)
    | varint | text | block => cases h
  | block => cases h

/-- A token that is no block writes at least one byte. -/
theorem bytes_ne_nil {t : Token} (ht : t.sized = true) : t.bytes w ≠ [] := by
  cases t with
  | varint n => exact w.appendVarint_ne_nil (of_decide_eq_true ht)
  | text s =>
    exact append_ne_nil_of_left_ne_nil (w.appendVarint_ne_nil (of_decide_eq_true ht)) _
  | fixed64 v =>
    intro hnil
    have hlen := w.length_appendFixed64 v
    rw [show w.appendFixed64 v = [] from hnil] at hlen
    cases hlen
  | block => cases ht

/-- Where two streams first differ, their tokens clash, or one of the streams is at its end and the
other writes something. -/
def parted : List Token → List Token → Bool
  | [], [] => true
  | [], t :: _ => t.sized
  | t :: _, [] => t.sized
  | t :: ts, t' :: ts' =>
    if t = t' then parted ts ts' else t.sized && t'.sized && t.clash t'

/-- **The bytes of two streams that part are different.** -/
theorem eq_of_encode_eq {ts ts' : List Token} (hp : parted ts ts' = true)
    (h : encode w ts = encode w ts') : ts = ts' := by
  induction ts generalizing ts' with
  | nil =>
    cases ts' with
    | nil => rfl
    | cons t' ts' =>
      rw [encode_nil, encode_cons, eq_comm, append_eq_nil_iff] at h
      exact (bytes_ne_nil w hp h.1).elim
  | cons t ts ih =>
    cases ts' with
    | nil =>
      rw [encode_nil, encode_cons, append_eq_nil_iff] at h
      exact (bytes_ne_nil w hp h.1).elim
    | cons t' ts' =>
      rw [encode_cons, encode_cons] at h
      unfold parted at hp
      split at hp
      next heq =>
        subst heq
        rw [ih hp (append_cancel_left h)]
      next =>
        rw [Bool.and_eq_true, Bool.and_eq_true] at hp
        exact (bytes_append_ne_of_clash w hp.2 hp.1.1 hp.1.2 _ _ h).elim

end Token

/-! ## §4. Messages that can be read back. -/

/-- The tokens of a message of known shape, and what follows them, determine both. -/
def Peels {α σ : Type} (tokens : α → List Token) (shape : α → σ) : Prop :=
  ∀ a b r r', shape a = shape b → tokens a ++ r = tokens b ++ r' → a = b ∧ r = r'

namespace Peels

variable {α β σ τ : Type} {tokens : α → List Token} {shape : α → σ} {tokens' : β → List Token}
  {shape' : β → τ}

theorem list (h : Peels tokens shape) : Peels (List.flatMap tokens) (map shape) := by
  intro as
  induction as with
  | nil =>
    intro bs r r' hs ht
    obtain rfl := map_eq_nil_iff.mp hs.symm
    exact ⟨rfl, ht⟩
  | cons a as ih =>
    intro bs r r' hs ht
    cases bs with
    | nil => cases hs
    | cons b bs =>
      rw [flatMap_cons, flatMap_cons, append_assoc, append_assoc] at ht
      obtain ⟨rfl, hrest⟩ := h a b _ _ (cons.inj hs).1 ht
      obtain ⟨rfl, hend⟩ := ih bs r r' (cons.inj hs).2 hrest
      exact ⟨rfl, hend⟩

theorem option (h : Peels tokens shape) :
    Peels (fun o : Option α => (o.map tokens).getD []) (Option.map shape) := by
  intro o o' r r' hs ht
  cases o with
  | none =>
    obtain rfl := Option.map_eq_none_iff.mp hs.symm
    exact ⟨rfl, ht⟩
  | some a =>
    obtain ⟨b, rfl, hb⟩ := Option.map_eq_some_iff.mp hs.symm
    obtain ⟨rfl, hrest⟩ := h a b r r' hb.symm ht
    exact ⟨rfl, hrest⟩

theorem prod (h : Peels tokens shape) (h' : Peels tokens' shape') :
    Peels (fun p : α × β => tokens p.1 ++ tokens' p.2) (Prod.map shape shape') := by
  intro p q r r' hs ht
  rw [append_assoc, append_assoc] at ht
  obtain ⟨hs₁, hs₂⟩ := Prod.mk.inj hs
  obtain ⟨h₁, hrest⟩ := h p.1 q.1 _ _ hs₁ ht
  obtain ⟨h₂, hrest⟩ := h' p.2 q.2 _ _ hs₂ hrest
  exact ⟨Prod.ext h₁ h₂, hrest⟩

/-- A message that is read through another one. -/
theorem comap (h : Peels tokens shape) {f : β → α} (hf : Function.Injective f)
    (ht : ∀ b, tokens' b = tokens (f b)) (hs : ∀ b b', shape' b = shape' b' →
      shape (f b) = shape (f b')) : Peels tokens' shape' := by
  intro b b' r r' hshape htokens
  rw [ht, ht] at htokens
  obtain ⟨heq, hrest⟩ := h (f b) (f b') r r' (hs b b' hshape) htokens
  exact ⟨hf heq, hrest⟩

end Peels

end AccessManagement.Lib
