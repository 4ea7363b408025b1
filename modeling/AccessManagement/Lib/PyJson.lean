/-
  AccessManagement.Lib.PyJson — JSON VALUES AS PYTHON CODE HANDLES THEM.

  Code that takes parsed JSON apart without looking at its types depends on what Python does
  with each type: which values count as true, which can be keys, which have `get` and which
  can be indexed.  Whatever does not apply raises an exception, and an exception that nobody
  catches is just that (`uncaught`).

  An object lists its entries; a parsed object has one entry for each key.
-/
import AccessManagement.Lib.Binary64
import AccessManagement.Lib.Loops

namespace AccessManagement.Lib

open List

inductive Json where
  | null
  | bool (b : Bool)
  | int (n : Int)
  | float (bits : UInt64)
  | str (s : String)
  | arr (items : List Json)
  | obj (entries : List (String × Json))

/-- Exceptions: one that the code raises itself, with a message, or any other. -/
inductive Raised where
  | error (message : String)
  | uncaught
  deriving DecidableEq, Repr

namespace Json

/-! ## §1. Truth and equality. -/

/-- `bool(x)`.  Both zeros are false; NaN is true. -/
def truthy : Json → Bool
  | null => false
  | bool b => b
  | int n => n != 0
  | float bits => bits.toNat % 2 ^ 63 != 0
  | str s => s != ""
  | arr items => !items.isEmpty
  | obj entries => !entries.isEmpty

/-- The number a value stands for; Booleans are numbers. -/
def number : Json → Option ExtRat
  | bool b => some (ExtRat.of (if b then 1 else 0))
  | int n => some (ExtRat.of n)
  | float bits => Binary64.value bits
  | _ => none

mutual

/-- `x == y`. -/
def equal : Json → Json → Bool
  | null, null => true
  | str s, str t => s == t
  | arr xs, arr ys => listEqual xs ys
  | obj xs, obj ys => xs.length == ys.length && entriesIn xs ys
  | x, y =>
    match x.number, y.number with
    | some p, some q => decide (p = q)
    | _, _ => false

def listEqual : List Json → List Json → Bool
  | [], [] => true
  | x :: xs, y :: ys => x.equal y && listEqual xs ys
  | _, _ => false

/-- Every entry of the first object is in the second one, with an equal value. -/
def entriesIn : List (String × Json) → List (String × Json) → Bool
  | [], _ => true
  | (k, x) :: xs, ys =>
    (match ys.lookup k with
      | some y => x.equal y
      | none => false) && entriesIn xs ys

end

/-- `x is True` and `x is False`. -/
def isBool (x : Json) (b : Bool) : Bool :=
  match x with
  | bool c => c == b
  | _ => false

/-- `isinstance(x, dict)`. -/
def isObj : Json → Bool
  | obj _ => true
  | _ => false

/-- Can the value be a key of a dictionary? -/
def hashable : Json → Bool
  | arr _ => false
  | obj _ => false
  | _ => true

/-- A text equals nothing but itself. -/
theorem equal_str_left (s : String) (y : Json) : (str s).equal y = true ↔ y = str s := by
  cases y with
  | str =>
    unfold equal
    rw [beq_iff_eq, Json.str.injEq]
    exact eq_comm
  | _ =>
    refine iff_of_false (fun h => ?_) (fun h => by cases h)
    cases h

theorem equal_str_right (x : Json) (t : String) : x.equal (str t) = true ↔ x = str t := by
  cases x with
  | str =>
    unfold equal
    rw [beq_iff_eq, Json.str.injEq]
  | bool => unfold equal number; exact iff_of_false (fun h => by cases h) (fun h => by cases h)
  | int => unfold equal number; exact iff_of_false (fun h => by cases h) (fun h => by cases h)
  | float =>
    unfold equal
    refine iff_of_false (fun h => ?_) (fun h => by cases h)
    cases hn : number _ with
    | none | some => rw [hn] at h; cases h
  | _ => unfold equal; exact iff_of_false (fun h => by cases h) (fun h => by cases h)

/-! ## §2. Taking values apart. -/

/-- `x or y`. -/
def orElse (x y : Json) : Json := if x.truthy then x else y

/-- `x.get(key, default)`: only objects have it. -/
def getD (x : Json) (key : String) (default : Json) : Except Raised Json :=
  match x with
  | obj entries => .ok ((entries.lookup key).getD default)
  | _ => .error .uncaught

/-- `x.get(key)`. -/
def get (x : Json) (key : String) : Except Raised Json := x.getD key null

variable {x y : Json} {key : String}

theorem get_eq_ok :
    x.get key = .ok y ↔ ∃ entries, x = obj entries ∧ (entries.lookup key).getD null = y := by
  cases x with
  | obj entries =>
    unfold get getD
    rw [Except.ok.injEq]
    refine ⟨fun h => ⟨entries, rfl, h⟩, ?_⟩
    rintro ⟨entries', h, hy⟩
    cases h
    exact hy
  | _ =>
    refine iff_of_false (fun h => by cases h) ?_
    rintro ⟨entries, h, _⟩
    cases h

theorem isObj_of_get (h : x.get key = .ok y) : x.isObj = true := by
  obtain ⟨entries, rfl, _⟩ := get_eq_ok.mp h
  rfl

/-- A value with an entry that counts as true counts as true. -/
theorem truthy_of_get (h : x.get key = .ok y) (hy : y.truthy = true) : x.truthy = true := by
  obtain ⟨entries, rfl, hlook⟩ := get_eq_ok.mp h
  cases entries with
  | nil =>
    rw [← hlook] at hy
    cases hy
  | cons => rfl

theorem orElse_of_truthy (h : x.truthy = true) : x.orElse y = x := if_pos h

/-- `x or {}` has a true entry only if `x` itself has it. -/
theorem get_orElse_obj (hy : y.truthy = true) :
    (x.orElse (obj [])).get key = .ok y ↔ x.get key = .ok y := by
  cases hx : x.truthy with
  | true => rw [orElse_of_truthy hx]
  | false =>
    have hempty : x.orElse (obj []) = obj [] := by
      unfold orElse
      rw [hx]
      rfl
    refine iff_of_false (fun h => ?_) (fun h => ?_)
    · rw [hempty] at h
      have h' := truthy_of_get h hy
      cases h'
    · have h' := truthy_of_get h hy
      rw [hx] at h'
      cases h'

/-- `x[0]`: the first item of a list or character of a text; there is no key 0 in an object. -/
def first : Json → Except Raised Json
  | arr (x :: _) => .ok x
  | str s =>
    match s.toList with
    | [] => .error .uncaught
    | ch :: _ => .ok (str (String.singleton ch))
  | _ => .error .uncaught

/-- `d.get(key)` for any key: texts are the only keys of a parsed object. -/
def getKey (x key : Json) : Except Raised Json :=
  match x with
  | obj entries =>
    if key.hashable then
      match key with
      | str s => .ok ((entries.lookup s).getD null)
      | _ => .ok null
    else .error .uncaught
  | _ => .error .uncaught

end Json

/-! ## §3. Dictionaries. -/

/-- `d[key] = value`: a key that is there keeps its place and its form. -/
def dictInsert {β : Type} (key : Json) (value : β) : List (Json × β) → List (Json × β)
  | [] => [(key, value)]
  | (k, v) :: d => if k.equal key then (k, value) :: d else (k, v) :: dictInsert key value d

variable {β : Type} {key : Json} {value : β}

/-- What a dictionary has after an insertion: the entry, or one that was there. -/
theorem mem_dictInsert {d : List (Json × β)} {e : Json × β} (he : e ∈ dictInsert key value d) :
    e ∈ d ∨ (e.2 = value ∧ (e.1 = key ∨ (∃ v, (e.1, v) ∈ d) ∧ e.1.equal key = true)) := by
  induction d generalizing e with
  | nil =>
    rw [mem_singleton.mp he]
    exact Or.inr ⟨rfl, Or.inl rfl⟩
  | cons kv d ih =>
    unfold dictInsert at he
    split at he
    next heq =>
        rcases mem_cons.mp he with rfl | he
        · exact Or.inr ⟨rfl, Or.inr ⟨⟨kv.2, mem_cons_self⟩, heq⟩⟩
        · exact Or.inl (mem_cons_of_mem _ he)
    · rcases mem_cons.mp he with rfl | he
      · exact Or.inl mem_cons_self
      · rcases ih he with he | ⟨hv, hk⟩
        · exact Or.inl (mem_cons_of_mem _ he)
        · refine Or.inr ⟨hv, hk.imp_right ?_⟩
          rintro ⟨⟨v, hmem⟩, heq⟩
          exact ⟨⟨v, mem_cons_of_mem _ hmem⟩, heq⟩

/-- A text that was inserted is there, under the value given to it. -/
theorem mem_dictInsert_self (s : String) (value : β) :
    ∀ d : List (Json × β), (Json.str s, value) ∈ dictInsert (.str s) value d := by
  intro d
  induction d with
  | nil => exact mem_singleton_self _
  | cons _ _ ih =>
    unfold dictInsert
    split
    next heq =>
        rw [(Json.equal_str_right _ _).mp heq]
        exact mem_cons_self
    · exact mem_cons_of_mem _ ih

/-- Inserting another key keeps a text's entry. -/
theorem mem_dictInsert_of_ne {s : String} {v : β}
    (hne : key ≠ .str s) {d : List (Json × β)} (h : (Json.str s, v) ∈ d) :
    (Json.str s, v) ∈ dictInsert key value d := by
  induction d with
  | nil => exact (not_mem_nil h).elim
  | cons _ _ ih =>
    unfold dictInsert
    split
    next heq =>
        rcases mem_cons.mp h with rfl | h
        · exact absurd ((Json.equal_str_left s key).mp heq) hne
        · exact mem_cons_of_mem _ h
    · rcases mem_cons.mp h with rfl | h
      · exact mem_cons_self
      · exact mem_cons_of_mem _ (ih h)

end AccessManagement.Lib
