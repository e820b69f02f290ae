import MarketDepth.Json.Basic

/-! The compact text of a JSON value. -/

namespace MarketDepth.Json

/-- Quotes, backslashes and the controls below the space are escaped, and nothing else. -/
def escapeChar (c : Char) : List Char :=
  match c with
  | '"' => ['\\', '"']
  | '\\' => ['\\', '\\']
  | '\x08' => ['\\', 'b']
  | '\x0C' => ['\\', 'f']
  | '\n' => ['\\', 'n']
  | '\r' => ['\\', 'r']
  | '\t' => ['\\', 't']
  | c =>
    if c.toNat < 0x20 then
      ['\\', 'u', '0', '0', Nat.digitChar (c.toNat / 16), Nat.digitChar (c.toNat % 16)]
    else [c]

def stringChars (s : String) : List Char := '"' :: s.toList.flatMap escapeChar ++ ['"']

mutual

def chars : Json → List Char
  | .null => ['n', 'u', 'l', 'l']
  | .bool true => ['t', 'r', 'u', 'e']
  | .bool false => ['f', 'a', 'l', 's', 'e']
  | .number n => n.chars
  | .string s => stringChars s
  | .array items => '[' :: listChars items ++ [']']
  | .object members => '{' :: memberChars members ++ ['}']
  | .unpaired | .broken => []

def listChars : List Json → List Char
  | [] => []
  | [item] => chars item
  | item :: rest => chars item ++ ',' :: listChars rest

def memberChars : List (Json × Json) → List Char
  | [] => []
  | [(key, value)] => chars key ++ ':' :: chars value
  | (key, value) :: rest => chars key ++ ':' :: chars value ++ ',' :: memberChars rest

end

def text (json : Json) : String := String.ofList json.chars

end MarketDepth.Json
