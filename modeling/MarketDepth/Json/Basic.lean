import MarketDepth.Decimal.Numeral

/-! JSON values. Numbers are kept as they are written. A text that is not JSON still has a value: it
is marked at the place where the text breaks off, so what stands before that place can be read. -/

namespace MarketDepth

inductive Json where
  | null
  | bool (b : Bool)
  | number (n : Numeral)
  | string (s : String)
  /-- A string with half of a surrogate pair in it, which is not Unicode text. -/
  | unpaired
  | array (items : List Json)
  /-- Members in the order of the text. A key that is no string is kept as the value it is. -/
  | object (members : List (Json × Json))
  /-- Here the text stops being JSON. -/
  | broken

namespace Json

def ofInt (i : Int) : Json := .number (.ofInt i)

def record (members : List (String × Json)) : Json :=
  .object (members.map fun member => (.string member.1, member.2))

/-- Numbers in JSON: the point is kept, exponents from minus five to fifteen are written out, and a
tie goes to the even digit. -/
def layout : Layout where
  tie := .even
  positional := fun e => -5 ≤ e && e ≤ 15
  pointed := true

/-- There are no infinities in JSON, nor anything that is not a number. -/
def ofFloat (x : Float) : Json := if x.isFinite then .number (layout.numeral x) else .null

mutual

def isSound : Json → Bool
  | .broken => false
  | .array items => isSoundList items
  | .object members => isSoundMembers members
  | _ => true

def isSoundList : List Json → Bool
  | [] => true
  | item :: rest => isSound item && isSoundList rest

def isSoundMembers : List (Json × Json) → Bool
  | [] => true
  | (.string _, value) :: rest => isSound value && isSoundMembers rest
  | (.unpaired, value) :: rest => isSound value && isSoundMembers rest
  | _ :: _ => false

end

end Json

end MarketDepth
