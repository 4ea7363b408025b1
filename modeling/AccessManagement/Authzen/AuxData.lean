/-
  AccessManagement.Authzen.AuxData — AUXILIARY DATA AS A VALUE AND BACK.

  The AuthZEN context carries `request.v1.AuxData` as a `structpb.Value`.  `messageToValue`
  writes a message field by field under its JSON name; `valueToMessage` looks a field up by
  its proto name and creates what it fills in by `NewField` of the message at hand.  For
  `key_set_id` the two names differ, and for an entry of the map `jwts` the descriptor given
  to `NewField` is one of the map entry, not of the message.
-/
import AccessManagement.Authzen.Service

namespace AccessManagement.Authzen.Conversion

/-! ## §1. The messages and their descriptors. -/

/-- `AuxData.JWT`. -/
structure JWT where
  token : String := ""
  keySetId : String := ""
  deriving DecidableEq

/-- `request.v1.AuxData`; the map `jwts` as its entries. -/
structure AuxData where
  jwt : Option JWT := none
  jwts : List (String × JWT) := []
  deriving DecidableEq

/-- `protoreflect.FieldDescriptor`: the message it is declared in and its two names. -/
structure FieldDescriptor where
  parent : String
  name : String
  jsonName : String
  deriving DecidableEq

def tokenField : FieldDescriptor := ⟨"AuxData.JWT", "token", "token"⟩
def keySetIdField : FieldDescriptor := ⟨"AuxData.JWT", "key_set_id", "keySetId"⟩
def jwtField : FieldDescriptor := ⟨"AuxData", "jwt", "jwt"⟩
def jwtsField : FieldDescriptor := ⟨"AuxData", "jwts", "jwts"⟩
/-- `jwtsField.MapValue()`, a field of the generated entry message. -/
def jwtsValueField : FieldDescriptor := ⟨"AuxData.JwtsEntry", "value", "value"⟩

inductive Failure where
  | panic (field : String)
  | expectedStruct
  deriving DecidableEq

/-- `NewField` of an `AuxData` message for a field that holds a JWT.  `protoreflect` demands
that the descriptor is one the message itself declares, and panics otherwise. -/
structure Reflection where
  newField : FieldDescriptor → Except Failure JWT
  own : newField jwtField = .ok {}
  foreign : ∀ fd, fd.parent ≠ "AuxData" → ∃ text, newField fd = .error (.panic text)

/-! ## §2. Writing: `messageToValue` ranges over the populated fields. -/

def jwtFields (m : JWT) : List (String × Value) :=
  ([(tokenField, m.token), (keySetIdField, m.keySetId)].filter (·.2 ≠ "")).map
    (fun f => (f.1.jsonName, .string f.2))

def jwtToValue (m : JWT) : Value := .struct (jwtFields m)

def jwtsFields (m : AuxData) : List (String × Value) :=
  m.jwts.map (fun e => (e.1, jwtToValue e.2))

def messageToValue (m : AuxData) : Value :=
  .struct ((m.jwt.toList.map (fun jwt => (jwtField.jsonName, jwtToValue jwt))) ++
    if m.jwts = [] then [] else [(jwtsField.jsonName, .struct (jwtsFields m))])

/-! ## §3. Reading: `valueToMessage` and `structToMessage`. -/

-- a Go map is visited in an order of the runtime's choosing
variable (order : List (String × Value) → List (String × Value))

/-- One turn of `structToMessage` for a JWT; a name no field has is skipped. -/
def setJWT (m : JWT) (field : String × Value) : JWT :=
  if field.1 = tokenField.name then { m with token := stringValue field.2 }
  else if field.1 = keySetIdField.name then { m with keySetId := stringValue field.2 }
  else m

def valueToJWT (value : Value) (m : JWT) : Except Failure JWT :=
  match value with
  | .struct fields => .ok ((order fields).foldl setJWT m)
  | .null => .ok m
  | _ => .error .expectedStruct

variable (reflection : Reflection)

/-- `structValueToProtoValue` for a message field, or for the values of a map. -/
def readJWT (fd : FieldDescriptor) (value : Value) : Except Failure JWT := do
  valueToJWT order value (← reflection.newField fd)

/-- One turn of `structToMessage` for an `AuxData`. -/
def setAuxData (m : AuxData) (field : String × Value) : Except Failure AuxData :=
  if field.1 = jwtField.name then do
    return { m with jwt := some (← readJWT order reflection jwtField field.2) }
  else if field.1 = jwtsField.name then
    match field.2 with
    | .struct entries => do
      let jwts ← (order entries).mapM (fun e => do
        return (e.1, ← readJWT order reflection jwtsValueField e.2))
      return { m with jwts }
    | _ => return { m with jwts := [] }
  else return m

def valueToMessage (value : Value) (m : AuxData) : Except Failure AuxData :=
  match value with
  | .struct fields => (order fields).foldlM (setAuxData order reflection) m
  | .null => .ok m
  | _ => .error .expectedStruct

/-! ## §4. What survives. -/

variable {order} {reflection}

/-- The key set is written under a name that is not read, whatever the order. -/
theorem valueToJWT_jwtToValue (horder : ∀ fields, (order fields).Perm fields) (m : JWT) :
    valueToJWT order (jwtToValue m) {} = .ok { token := m.token } := by
  have hskip : ∀ fields : List (String × Value), fields.foldl setJWT {} =
      (fields.filter (·.1 ≠ keySetIdField.jsonName)).foldl setJWT {} := by
    intro fields
    rw [List.foldl_filter]
    congr 1
    funext m field
    by_cases h : field.1 = keySetIdField.jsonName
    · simp [setJWT, h, tokenField, keySetIdField]
    · simp [h]
  show Except.ok ((order (jwtFields m)).foldl setJWT {}) = _
  rw [hskip]
  -- at most the token is left, so the order does not matter
  have hleft : (jwtFields m).filter (·.1 ≠ keySetIdField.jsonName) =
      if m.token = "" then [] else [(tokenField.jsonName, .string m.token)] := by
    by_cases htoken : m.token = "" <;> by_cases hkey : m.keySetId = "" <;>
      simp [jwtFields, tokenField, keySetIdField, htoken]
  have hperm := (horder (jwtFields m)).filter (·.1 ≠ keySetIdField.jsonName)
  rw [hleft] at hperm
  by_cases htoken : m.token = ""
  · rw [if_pos htoken] at hperm
    rw [hperm.eq_nil, htoken]
    rfl
  · rw [if_neg htoken] at hperm
    rw [List.perm_singleton.mp hperm]
    rfl

/-- A loop whose body fails at one of its elements fails. -/
theorem foldlM_error_of_mem {α σ ε : Type} {f : σ → α → Except ε σ} {a : α}
    (hfail : ∀ s, ∃ e, f s a = .error e) {as : List α} (hmem : a ∈ as) (s : σ) :
    ∃ e, as.foldlM f s = .error e := by
  obtain ⟨before, after, rfl⟩ := List.append_of_mem hmem
  rw [List.foldlM_append]
  cases before.foldlM f s with
  | error e => exact ⟨e, rfl⟩
  | ok s' =>
    obtain ⟨e, he⟩ := hfail s'
    refine ⟨e, ?_⟩
    show (a :: after).foldlM f s' = .error e
    rw [List.foldlM_cons, he]
    rfl

theorem setAuxData_jwt (horder : ∀ fields, (order fields).Perm fields) (read : AuxData)
    (jwt : JWT) : setAuxData order reflection read (jwtField.jsonName, jwtToValue jwt) =
      .ok { read with jwt := some { token := jwt.token } } := by
  have hread : readJWT order reflection jwtField (jwtToValue jwt) = .ok { token := jwt.token } := by
    rw [readJWT, reflection.own]
    exact valueToJWT_jwtToValue horder jwt
  show (do return { read with jwt := some (← readJWT order reflection jwtField _) }) = _
  rw [hread]
  rfl

/-- An entry of `jwts` cannot be read back: its message comes from a descriptor that the
message at hand does not declare. -/
theorem setAuxData_jwts (horder : ∀ fields, (order fields).Perm fields) {m : AuxData}
    (hjwts : m.jwts ≠ []) (read : AuxData) : ∃ e, setAuxData order reflection read
      (jwtsField.jsonName, .struct (jwtsFields m)) = .error e := by
  obtain ⟨text, hforeign⟩ := reflection.foreign jwtsValueField (by decide)
  have hread : ∀ value, readJWT order reflection jwtsValueField value = .error (.panic text) :=
    fun value => by rw [readJWT, hforeign]; rfl
  cases hentries : order _ with
  | nil =>
    have hperm := horder (jwtsFields m)
    rw [hentries] at hperm
    exact absurd (List.map_eq_nil_iff.mp hperm.symm.eq_nil) hjwts
  | cons =>
    refine ⟨.panic text, ?_⟩
    show ((order (jwtsFields m)).mapM _ >>= _ : Except Failure AuxData) = _
    rw [hentries, List.mapM_cons, hread]
    rfl

/-- Auxiliary data comes back unchanged exactly when it holds no named tokens and names no key
set. -/
theorem valueToMessage_messageToValue_iff (order : List (String × Value) → List (String × Value))
    (horder : ∀ fields, (order fields).Perm fields) (reflection : Reflection) (m : AuxData) :
    (∃ read, valueToMessage order reflection (messageToValue m) {} = .ok read ∧
      read.jwt = m.jwt ∧ ∀ name, read.jwts.lookup name = m.jwts.lookup name) ↔
    m.jwts = [] ∧ ∀ jwt ∈ m.jwt, jwt.keySetId = "" := by
  by_cases hjwts : m.jwts = []
  · have hvalue : messageToValue m =
        .struct (m.jwt.toList.map (fun jwt => (jwtField.jsonName, jwtToValue jwt))) := by
      rw [messageToValue, if_pos hjwts, List.append_nil]
    have hread : valueToMessage order reflection (messageToValue m) {} =
        .ok { jwt := m.jwt.map (fun jwt => { token := jwt.token }) } := by
      rw [hvalue]
      cases m.jwt with
      | none =>
        show (order []).foldlM _ _ = _
        rw [(horder []).eq_nil]
        rfl
      | some =>
        show (order [_]).foldlM _ _ = _
        rw [List.perm_singleton.mp (horder [_]), List.foldlM_cons, setAuxData_jwt horder]
        rfl
    rw [hread]
    cases hjwt : m.jwt with
    | none => simp [hjwts]
    | some jwt =>
      cases jwt
      simp [hjwts]
  · -- the entry for `jwts` is among those visited, wherever it stands
    have hread : ∃ e, valueToMessage order reflection (messageToValue m) {} = .error e := by
      rw [messageToValue, if_neg hjwts]
      exact foldlM_error_of_mem (setAuxData_jwts horder hjwts)
        ((horder _).mem_iff.mpr (List.mem_append_right _ (List.mem_singleton_self _))) {}
    obtain ⟨e, hread⟩ := hread
    rw [hread]
    simp [hjwts]

/-- Lists keep their order, and `NewField` knows the fields of `AuxData` only. -/
def plainReflection : Reflection where
  newField fd := if fd.parent = "AuxData" then .ok {} else .error (.panic fd.name)
  own := rfl
  foreign fd h := ⟨fd.name, if_neg h⟩

theorem valueToMessage_messageToValue_iff_token :
    (∃ read, valueToMessage id plainReflection (messageToValue { jwt := some { token := "t" } }) {}
      = .ok read ∧ read.jwt = some { token := "t" } ∧ ∀ name, read.jwts.lookup name = none) :=
  (valueToMessage_messageToValue_iff id (fun _ => .refl _) plainReflection _).mpr
    ⟨rfl, fun _ h => Option.some.inj h ▸ rfl⟩

/-- The key set to verify the token with is gone, and one named token ends the request. -/
theorem valueToMessage_loses_key_set :
    valueToMessage id plainReflection
      (messageToValue { jwt := some { token := "t", keySetId := "ks" } }) {} =
        .ok { jwt := some { token := "t" } } ∧
    valueToMessage id plainReflection (messageToValue { jwts := [("app", { token := "t" })] }) {} =
      .error (.panic "value") := by
  decide

end AccessManagement.Authzen.Conversion
