/-
  AccessManagement.Lib.Binary64 — WHAT A 64-BIT FLOATING-POINT WORD STANDS FOR.

  A word is sign, 11 bits of exponent, 52 bits of fraction.  It stands for an exact rational,
  for one of the infinities, or for nothing (NaN).  The infinities are the ends of the
  rationals, so every comparison of two words is one in a LINEAR ORDER, and what is not
  comparable is only NaN.
-/
import Mathlib.Order.Compare
import Mathlib.Order.WithBot
import Mathlib.Algebra.Order.Ring.Rat

namespace AccessManagement.Lib

/-- The rationals with a least and a greatest element. -/
abbrev ExtRat := WithBot (WithTop ℚ)

/-- A rational among the extended ones. -/
def ExtRat.of (q : ℚ) : ExtRat := ((q : WithTop ℚ) : WithBot (WithTop ℚ))

theorem ExtRat.of_le_of {p q : ℚ} : ExtRat.of p ≤ ExtRat.of q ↔ p ≤ q := by
  unfold ExtRat.of
  rw [WithBot.coe_le_coe, WithTop.coe_le_coe]

theorem ExtRat.of_lt_of {p q : ℚ} : ExtRat.of p < ExtRat.of q ↔ p < q := by
  unfold ExtRat.of
  rw [WithBot.coe_lt_coe, WithTop.coe_lt_coe]

namespace Binary64

variable (w : UInt64)

def negative : Bool := decide (2 ^ 63 ≤ w.toNat)
def exponent : Nat := w.toNat / 2 ^ 52 % 2 ^ 11
def fraction : Nat := w.toNat % 2 ^ 52

/-- The absolute value of a finite word.  A zero exponent has no implicit leading bit. -/
def magnitude : ℚ :=
  if exponent w = 0 then mkRat (fraction w) (2 ^ 1074)
  else mkRat ((2 ^ 52 + fraction w) * 2 ^ (exponent w - 1075)) (2 ^ (1075 - exponent w))

/-- The number a word stands for; `none` for NaN. -/
def value : Option ExtRat :=
  if exponent w = 2047 then
    if fraction w ≠ 0 then none else some (if negative w then ⊥ else ⊤)
  else some (ExtRat.of (if negative w then -magnitude w else magnitude w))

example : value 0x40D3880000000000 = some (ExtRat.of 20000) := by decide +kernel
example : value 0xC049000000000000 = some (ExtRat.of (-50)) := by decide +kernel
example : value 0x7FF8000000000001 = none := by decide +kernel

end Binary64

end AccessManagement.Lib
