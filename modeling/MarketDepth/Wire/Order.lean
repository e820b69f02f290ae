import MarketDepth.Json.Reading
import MarketDepth.Order

/-! What an order is reported with, in JSON. -/

namespace MarketDepth

def indexToJson (index : Int64) : Json := .ofInt index.toInt

def Symbol.toJson (symbol : Symbol) : Json := .string symbol.text

/-- Blank text is taken too; it is for a configuration to refuse it. -/
def Symbol.ofJson (json : Json) : Except Json.Fault Symbol := json.toText.map Symbol.mk

def Source.toJson (source : Source) : Json := .string source.text

def Source.ofJson (json : Json) : Except Json.Fault Source := json.toText.map Source.mk

def Flags.toJson (flags : Flags) : Json := .ofInt flags.bits.toNat

def Flags.ofJson (json : Json) : Except Json.Fault Flags := json.toUInt32.map Flags.mk

namespace Side

def names : List String := ["bid", "ask"]

def toJson (side : Side) : Json := .string side.name

def ofJson (json : Json) : Except Json.Fault Side :=
  (json.toBareVariant names).map fun name => if name = "bid" then .bid else .ask

end Side

namespace Interest

def name : Interest → String
  | .buy => "BUY"
  | .sell => "SELL"
  | .unstated => "UNDEFINED"

def names : List String := ["BUY", "SELL", "UNDEFINED"]

def ofName? : String → Option Interest
  | "BUY" => some .buy
  | "SELL" => some .sell
  | "UNDEFINED" => some .unstated
  | _ => none

def toJson (interest : Interest) : Json := .string interest.name

def ofJson (json : Json) : Except Json.Fault Interest :=
  (json.toBareVariant names).map fun name => (ofName? name).getD .unstated

end Interest

namespace RecordKind

def names : List String := ["order", "spread_order", "other"]

def toJson : RecordKind → Json
  | .order => .string "order"
  | .spreadOrder => .string "spread_order"
  | .other name => .record [("other", .string name)]

def ofJson (json : Json) : Except Json.Fault RecordKind :=
  match json with
  | .string name => do
    match ← Json.variant names name with
    | "order" => return .order
    | "spread_order" => return .spreadOrder
    | _ => throw .bareVariant
  | .object ((.string key, value) :: rest) => do
    let kind ← match ← Json.variant names key with
      | "order" => value.toUnit.map fun _ => order
      | "spread_order" => value.toUnit.map fun _ => spreadOrder
      | _ => value.toText.map other
    if rest.isEmpty then return kind else throw .grammar
  | _ => .error .grammar

end RecordKind

end MarketDepth
