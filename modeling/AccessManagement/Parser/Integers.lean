/-
  AccessManagement.Parser.Integers — INTEGERS IN POLICY FILES (`internal/parser/parser.go`).

  An integer in a YAML file is a literal, which the YAML library delivers as an unsigned or a signed
  64-bit number, or a quoted decimal text.  Texts go through `strconv`, which knows the width of the
  field.  Literals are CONVERTED to it: a literal out of range is stored as another number.

  Main result: `unmarshalScalar_exact_iff` — which integers are stored exactly or rejected.
-/
import Mathlib.Algebra.Group.Nat.Defs
import Mathlib.Algebra.Ring.Int.Defs

namespace AccessManagement.Parser

/-! ## §1. Numbers in texts (`strconv`). -/

/-- `unicode.IsSpace`. -/
def isSpace (c : Char) : Bool :=
  c.toNat ∈ [0x09, 0x0A, 0x0B, 0x0C, 0x0D, 0x20, 0x85, 0xA0, 0x1680, 0x2028, 0x2029, 0x202F, 0x205F,
    0x3000] || (0x2000 ≤ c.toNat && c.toNat ≤ 0x200A)

/-- `strings.TrimSpace`. -/
def trimSpace (s : String) : List Char :=
  ((s.toList.dropWhile isSpace).reverse.dropWhile isSpace).reverse

variable (s : List Char)

/-- What a text of digits denotes. -/
def digits? : Option Nat :=
  if s ≠ [] ∧ s.all Char.isDigit then some (Nat.ofDigitChars 10 s 0) else none

/-- What a decimal text denotes. -/
def decimal? : List Char → Option Int
  | '-' :: s => (digits? s).map (fun n : Nat => -(n : Int))
  | '+' :: s => (digits? s).map (fun n : Nat => (n : Int))
  | s => (digits? s).map (fun n : Nat => (n : Int))

variable (bitSize : Nat)

/-- `strconv.ParseInt` in base 10. -/
def parseInt : Option Int :=
  (decimal? s).filter (fun v => -2 ^ (bitSize - 1) ≤ v ∧ v < 2 ^ (bitSize - 1))

/-- `strconv.ParseUint` in base 10, which takes no sign. -/
def parseUint : Option Int :=
  ((digits? s).filter (· < 2 ^ bitSize)).map (fun n : Nat => (n : Int))

/-! ## §2. Integer fields. -/

/-- The kinds of fields that hold integers. -/
inductive Kind where
  | int32 | sint32 | sfixed32 | int64 | sint64 | sfixed64
  | uint32 | fixed32 | uint64 | fixed64 | enum
  deriving DecidableEq, Repr

inductive Node where
  | unsigned (v : UInt64)
  | signed (v : Int64)
  | string (s : String)
  | null
  | other (type : String)

/-- The integer that a node delivers. -/
def Node.integer? : Node → Option Int
  | .unsigned v => some v.toNat
  | .signed v => some v.toInt
  | .string s => decimal? (trimSpace s)
  | _ => none

/-- The errors, without the texts of `strconv`. -/
inductive Error where
  | invalidInteger (s : List Char)
  | expectedInteger (got : Node)
  | invalidEnumValue (name : Option String)

/-- The values of an enumeration.  Their names are identifiers, and no number. -/
structure EnumDescriptor where
  values : List (String × Int)
  identifiers : ∀ v ∈ values, decimal? (trimSpace v.1) = none

/-- `unmarshalInt`; the conversions to `int32` and `int64` wrap around. -/
def unmarshalInt : Node → Except Error Int
  | .unsigned v => .ok (Int.bmod v.toNat (2 ^ bitSize))
  | .signed v => .ok (Int.bmod v.toInt (2 ^ bitSize))
  | .string s => (parseInt (trimSpace s) bitSize).elim (.error (.invalidInteger (trimSpace s))) .ok
  | n => .error (.expectedInteger n)

/-- `unmarshalUint`. -/
def unmarshalUint : Node → Except Error Int
  | .unsigned v => .ok (v.toNat % 2 ^ bitSize)
  | .signed v => .ok (v.toInt % 2 ^ bitSize)
  | .string s => (parseUint (trimSpace s) bitSize).elim (.error (.invalidInteger (trimSpace s))) .ok
  | n => .error (.expectedInteger n)

variable (enum : EnumDescriptor)

/-- `unmarshalEnum`. -/
def unmarshalEnum : Node → Except Error Int
  | .string s => (enum.values.lookup s).elim (.error (.invalidEnumValue s)) .ok
  | .unsigned v => .ok (Int.bmod v.toNat (2 ^ 32))
  | .signed v => .ok (Int.bmod v.toInt (2 ^ 32))
  | .null => .ok 0
  | .other _ => .error (.invalidEnumValue none)

/-- `unmarshalScalar`, for these kinds. -/
def unmarshalScalar (n : Node) : Kind → Except Error Int
  | .int32 | .sint32 | .sfixed32 => unmarshalInt 32 n
  | .int64 | .sint64 | .sfixed64 => unmarshalInt 64 n
  | .uint32 | .fixed32 => unmarshalUint 32 n
  | .uint64 | .fixed64 => unmarshalUint 64 n
  | .enum => unmarshalEnum enum n

/-! ## §3. What is stored. -/

/-- The integer fits into the field. -/
def Kind.Fits : Kind → Int → Prop
  | .int32, v | .sint32, v | .sfixed32, v | .enum, v => -2 ^ 31 ≤ v ∧ v < 2 ^ 31
  | .int64, v | .sint64, v | .sfixed64, v => -2 ^ 63 ≤ v ∧ v < 2 ^ 63
  | .uint32, v | .fixed32, v => 0 ≤ v ∧ v < 2 ^ 32
  | .uint64, v | .fixed64, v => 0 ≤ v ∧ v < 2 ^ 64

/-- The node is stored as the integer, or rejected. -/
def Exact (result : Except Error Int) (v : Int) : Prop := ∀ w, result = .ok w → w = v

theorem elim_eq_ok {o : Option Int} {e : Error} {w : Int} :
    o.elim (.error e) .ok = (.ok w : Except Error Int) ↔ o = some w := by
  cases o <;> simp

/-- Digits are a decimal text. -/
theorem decimal?_of_digits? {s : List Char} {n : Nat} (h : digits? s = some n) :
    decimal? s = some (n : Int) := by
  have hdigits : s.all Char.isDigit = true := by
    unfold digits? at h
    split at h
    · next hs => exact hs.2
    · cases h
  unfold decimal?
  split
  · cases hdigits
  · cases hdigits
  · rw [h, Option.map_some]

/-- A quoted number is stored as what it denotes. -/
theorem exact_string (kind : Kind) {s : String} {v : Int}
    (hv : decimal? (trimSpace s) = some v) : Exact (unmarshalScalar enum (.string s) kind) v := by
  have hint : ∀ bitSize, Exact (unmarshalInt bitSize (.string s)) v := by
    intro bitSize w hw
    obtain ⟨hw, -⟩ := Option.filter_eq_some_iff.mp (elim_eq_ok.mp hw)
    exact Option.some.inj (hw.symm.trans hv)
  have huint : ∀ bitSize, Exact (unmarshalUint bitSize (.string s)) v := by
    intro bitSize w hw
    obtain ⟨n, hn, rfl⟩ := Option.map_eq_some_iff.mp (elim_eq_ok.mp hw)
    obtain ⟨hn, -⟩ := Option.filter_eq_some_iff.mp hn
    exact Option.some.inj ((decimal?_of_digits? hn).symm.trans hv)
  cases kind with
  | enum =>
    -- a number is not the name of a value
    intro w hw
    obtain ⟨before, after, hval, -⟩ := List.lookup_eq_some_iff.mp (elim_eq_ok.mp hw)
    cases hv.symm.trans (enum.identifiers (s, w) (by simp [hval]))
  | uint32 | fixed32 | uint64 | fixed64 => exact huint _
  | _ => exact hint _

/-- **An integer is stored exactly or rejected, unless it is a literal out of range.** -/
theorem unmarshalScalar_exact_iff (enum : EnumDescriptor) (kind : Kind) (n : Node) (v : Int)
    (hv : n.integer? = some v) :
    Exact (unmarshalScalar enum n kind) v ↔ (∃ s, n = .string s) ∨ kind.Fits v := by
  cases n with
  | string s => exact iff_of_true (exact_string enum kind hv) (.inl ⟨s, rfl⟩)
  | null | other => cases hv
  -- a literal is stored as what it is modulo the width of the field
  | unsigned | signed =>
    obtain rfl := Option.some.inj hv
    cases kind <;> simp only [Exact, unmarshalScalar, unmarshalInt, unmarshalUint, unmarshalEnum,
      Except.ok.injEq, forall_eq', Kind.Fits, Int.bmod, reduceCtorEq, exists_false, false_or] <;>
      omega

theorem unmarshalScalar_exact_iff_negative :
    Exact (unmarshalScalar ⟨[], by simp⟩ (.signed (-5)) .int32) (-5) :=
  (unmarshalScalar_exact_iff _ .int32 (.signed (-5)) (-5) rfl).mpr (.inr (by simp [Kind.Fits]))

/-- One more than the greatest 32-bit number is stored as 0, and -1 as the greatest one. -/
theorem literals_wrap_around : unmarshalScalar ⟨[], by simp⟩ (.unsigned 4294967296) .int32 = .ok 0 ∧
      unmarshalScalar ⟨[], by simp⟩ (.signed (-1)) .uint32 = .ok 4294967295 := by
  exact ⟨congrArg Except.ok (by decide), congrArg Except.ok (by decide)⟩

end AccessManagement.Parser
