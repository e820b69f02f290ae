import MarketDepth.Json.Token

/-! The JSON value that a text starts with. Where the text breaks off, the value is marked as
broken, and nothing is left after it. -/

namespace MarketDepth.Json

mutual

/-- The value that the tokens start with, and the tokens after it. Each call takes up a token, so
the number of tokens is fuel enough. -/
def value (fuel : Nat) (tokens : List Token) : Json × List Token :=
  match fuel with
  | 0 => (.broken, [])
  | fuel + 1 =>
    match tokens with
    | .null :: rest => (.null, rest)
    | .bool b :: rest => (.bool b, rest)
    | .number n :: rest => (.number n, rest)
    | .string s :: rest => (.string s, rest)
    | .unpaired :: rest => (.unpaired, rest)
    | .openArray :: .closeArray :: rest => (.array [], rest)
    | .openArray :: rest =>
      let (found, rest) := items fuel rest
      (.array found, rest)
    | .openObject :: .closeObject :: rest => (.object [], rest)
    | .openObject :: rest =>
      let (found, rest) := members fuel rest
      (.object found, rest)
    | _ => (.broken, [])

def items (fuel : Nat) (tokens : List Token) : List Json × List Token :=
  match fuel with
  | 0 => ([.broken], [])
  | fuel + 1 =>
    match value fuel tokens with
    | (item, .closeArray :: rest) => ([item], rest)
    | (item, .comma :: rest) =>
      let (found, rest) := items fuel rest
      (item :: found, rest)
    | (item, _) => ([item, .broken], [])

def members (fuel : Nat) (tokens : List Token) : List (Json × Json) × List Token :=
  match fuel with
  | 0 => ([(.broken, .broken)], [])
  | fuel + 1 =>
    match value fuel tokens with
    | (key, .colon :: rest) =>
      match value fuel rest with
      | (item, .closeObject :: rest) => ([(key, item)], rest)
      | (item, .comma :: rest) =>
        let (found, rest) := members fuel rest
        ((key, item) :: found, rest)
      | (item, _) => ([(key, item), (.broken, .broken)], [])
    | (key, _) => ([(key, .broken)], [])

end

def ofText (text : String) : Json × List Token :=
  let tokens := Token.ofChars text.toList
  value (2 * tokens.length + 1) tokens

end MarketDepth.Json
