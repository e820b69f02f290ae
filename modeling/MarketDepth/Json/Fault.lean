import MarketDepth.Json.Number
import MarketDepth.Text.Quoted

/-! What can be wrong with a JSON text that is to be read as something: it is no JSON, or it is not
of the right form. -/

namespace MarketDepth.Json

inductive Found where
  | null
  | bool (b : Bool)
  | integer (i : Int)
  | float (x : Float)
  | string (s : String)
  | sequence
  | map

inductive Fault where
  | grammar
  | outOfRange
  | wrongType (found : Found) (expected : String)
  | wrongValue (found : Int) (expected : String)
  | missingField (name : String)
  | duplicateField (name : String)
  | wrongLength (found : Nat) (name : String) (expected : Nat)
  | unknownVariant (found : String) (expected : List String)
  | bareVariant

def Found.text : Found → String
  | .null => "null"
  | .bool b => s!"boolean `{b}`"
  | .integer i => "integer `" ++ (Numeral.ofInt i).text ++ "`"
  | .float x => "floating point `" ++ (layout.numeral x).text ++ "`"
  | .string s => "string " ++ quoted s
  | .sequence => "sequence"
  | .map => "map"

def tick (name : String) : String := "`" ++ name ++ "`"

def choice : List String → String
  | [a] => tick a
  | [a, b] => tick a ++ " or " ++ tick b
  | names => "one of " ++ ", ".intercalate (names.map tick)

namespace Fault

def message : Fault → String
  | .grammar => "invalid JSON"
  | .outOfRange => "number out of range"
  | .wrongType found expected => "invalid type: " ++ found.text ++ ", expected " ++ expected
  | .wrongValue found expected =>
    "invalid value: " ++ (Found.integer found).text ++ ", expected " ++ expected
  | .missingField name => "missing field " ++ tick name
  | .duplicateField name => "duplicate field " ++ tick name
  | .wrongLength found name expected =>
    "invalid length " ++ toString found ++ ", expected struct " ++ name ++ " with "
      ++ toString expected ++ " elements"
  | .unknownVariant found expected =>
    "unknown variant " ++ tick found ++ ", expected " ++ choice expected
  | .bareVariant => "invalid type: unit variant, expected newtype variant"

end Fault

/-- The fault of a value that is not what was expected. Where the text breaks off inside it, that
comes first. -/
def mismatch (json : Json) (expected : String) : Fault :=
  match json with
  | .null => .wrongType .null expected
  | .bool b => .wrongType (.bool b) expected
  | .number n =>
    match n.value with
    | some (.integer i) => .wrongType (.integer i) expected
    | some (.float x) => .wrongType (.float x) expected
    | none => .outOfRange
  | .string s => .wrongType (.string s) expected
  | .array _ => .wrongType .sequence expected
  | .object _ => .wrongType .map expected
  | .unpaired | .broken => .grammar

end MarketDepth.Json
