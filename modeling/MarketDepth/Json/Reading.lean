import MarketDepth.Json.Document
import MarketDepth.Json.Fault

/-! Reading JSON values as something. Faults are found from left to right. -/

namespace MarketDepth.Json

def toText : Json → Except Fault String
  | .string s => .ok s
  | json => .error (json.mismatch "a string")

def toBool : Json → Except Fault Bool
  | .bool b => .ok b
  | json => .error (json.mismatch "a boolean")

def toUnit : Json → Except Fault Unit
  | .null => .ok ()
  | json => .error (json.mismatch "unit")

def toFloat (json : Json) : Except Fault Float :=
  match json with
  | .number n =>
    match n.value with
    | some found => .ok found.toFloat
    | none => .error .outOfRange
  | json => .error (json.mismatch "f64")

def toInteger (low high : Int) (expected : String) (json : Json) : Except Fault Int :=
  match json with
  | .number n =>
    match n.value with
    | some (.integer i) => if low ≤ i ∧ i ≤ high then .ok i else .error (.wrongValue i expected)
    | _ => .error (json.mismatch expected)
  | json => .error (json.mismatch expected)

def toInt64 (json : Json) : Except Fault Int64 :=
  (json.toInteger Int64.minValue.toInt Int64.maxValue.toInt "i64").map Int64.ofInt

def toUInt32 (json : Json) : Except Fault UInt32 :=
  (json.toInteger 0 0xFFFFFFFF "u32").map fun i => i.toNat.toUInt32

def toUInt64 (json : Json) : Except Fault UInt64 :=
  (json.toInteger 0 0xFFFFFFFFFFFFFFFF "u64").map fun i => i.toNat.toUInt64

def toCount (json : Json) : Except Fault UInt64 :=
  (json.toInteger 0 0xFFFFFFFFFFFFFFFF "usize").map fun i => i.toNat.toUInt64

def toList {α : Type} (read : Json → Except Fault α) (json : Json) : Except Fault (List α) :=
  match json with
  | .array items => items.mapM read
  | json => .error (json.mismatch "a sequence")

def toOption {α : Type} (read : Json → Except Fault α) (json : Json) : Except Fault (Option α) :=
  match json with
  | .null => .ok none
  | json => (read json).map some

def variant (names : List String) (name : String) : Except Fault String :=
  if names.contains name then .ok name else .error (.unknownVariant name names)

/-- A variant without a value: its name, or an object that gives null for it. -/
def toBareVariant (names : List String) (json : Json) : Except Fault String :=
  match json with
  | .string name => variant names name
  | .object ((.string key, value) :: rest) => do
    let name ← variant names key
    value.toUnit
    if rest.isEmpty then return name else throw .grammar
  | _ => .error .grammar

/-- A field of a record. The draft holds the fields read so far. -/
structure Field (σ : Type) where
  name : String
  given : σ → Bool
  read : σ → Json → Except Fault σ

def Field.ofOption {σ β : Type} (name : String) (get : σ → Option β) (set : σ → Option β → σ)
    (read : Json → Except Fault β) : Field σ where
  name
  given := fun draft => (get draft).isSome
  read := fun draft json => (read json).map fun value => set draft (some value)

structure Absence where
  fault : Nat → String → Fault
  /-- Whether a field that may be null may be absent too. -/
  lenient : Bool

namespace Absence

def require {β : Type} (absence : Absence) (position : Nat) (name : String) :
    Option β → Except Fault β
  | some value => .ok value
  | none => .error (absence.fault position name)

def allow {β : Type} (absence : Absence) (position : Nat) (name : String) :
    Option (Option β) → Except Fault (Option β)
  | some value => .ok value
  | none => if absence.lenient then .ok none else .error (absence.fault position name)

end Absence

/-- A record: an object with its fields by name, or an array with its fields in order. -/
structure Form (σ α : Type) where
  name : String
  fields : List (Field σ)
  draft : σ
  build : Absence → σ → Except Fault α

namespace Form

variable {σ α : Type}

/-- Reads members in the order of the text. A member with an unknown name has to be JSON only. -/
def readMembers (fields : List (Field σ)) : σ → List (Json × Json) → Except Fault σ
  | draft, [] => .ok draft
  | draft, (.string key, value) :: rest =>
    match fields.find? fun field => field.name == key with
    | some field =>
      if field.given draft then .error (.duplicateField key)
      else
        match field.read draft value with
        | .ok draft => readMembers fields draft rest
        | .error fault => .error fault
    | none => if value.isSound then readMembers fields draft rest else .error .grammar
  | _, _ :: _ => .error .grammar

/-- Reads items as fields in order. There may be fewer items than fields. -/
def readItems : List (Field σ) → σ → List Json → Except Fault σ
  | _, draft, [] => .ok draft
  | field :: fields, draft, item :: rest =>
    match field.read draft item with
    | .ok draft => readItems fields draft rest
    | .error fault => .error fault
  | [], _, _ :: _ => .error .grammar

def read (form : Form σ α) (json : Json) : Except Fault α :=
  match json with
  | .object members => do
    let draft ← readMembers form.fields form.draft members
    form.build ⟨fun _ name => .missingField name, true⟩ draft
  | .array items => do
    let draft ← readItems form.fields form.draft items
    form.build ⟨fun position _ => .wrongLength position form.name form.fields.length, false⟩ draft
  | json => .error (json.mismatch ("struct " ++ form.name))

end Form

/-- Reads a whole text. Nothing but spaces may follow the value. -/
def parse {α : Type} (read : Json → Except Fault α) (text : String) : Except Fault α := do
  let (json, rest) := ofText text
  let a ← read json
  if rest.isEmpty then return a else throw .grammar

end MarketDepth.Json
