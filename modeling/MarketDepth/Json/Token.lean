import MarketDepth.Json.Basic

/-! The tokens of a JSON text. They end with a bad one where no token can be read. -/

namespace MarketDepth.Json

inductive Token where
  | openArray
  | closeArray
  | openObject
  | closeObject
  | comma
  | colon
  | null
  | bool (b : Bool)
  | number (n : Numeral)
  | string (s : String)
  | unpaired
  | bad

inductive Piece where
  | char (c : Char)
  | unit (n : Nat)

namespace Piece

def isHigh (n : Nat) : Bool := 0xD800 ≤ n && n < 0xDC00

def isLow (n : Nat) : Bool := 0xDC00 ≤ n && n < 0xE000

/-- The characters of the pieces. Units of a surrogate pair make one character; half a pair makes
none. -/
def join : List Piece → Option (List Char)
  | [] => some []
  | .char c :: rest => (join rest).map (c :: ·)
  | .unit high :: .unit low :: rest =>
    if isHigh high && isLow low then
      (join rest).map (Char.ofNat (0x10000 + (high - 0xD800) * 0x400 + (low - 0xDC00)) :: ·)
    else if isHigh high || isLow high then none
    else (join (.unit low :: rest)).map (Char.ofNat high :: ·)
  | .unit n :: rest =>
    if isHigh n || isLow n then none else (join rest).map (Char.ofNat n :: ·)

end Piece

def hexValue (c : Char) : Option Nat :=
  if '0' ≤ c ∧ c ≤ '9' then some (c.toNat - 48)
  else if 'a' ≤ c ∧ c ≤ 'f' then some (c.toNat - 87)
  else if 'A' ≤ c ∧ c ≤ 'F' then some (c.toNat - 55)
  else none

/-- The character that a backslash makes of the one after it. -/
def unescape : Char → Option Char
  | '"' => some '"'
  | '\\' => some '\\'
  | '/' => some '/'
  | 'b' => some '\x08'
  | 'f' => some '\x0C'
  | 'n' => some '\n'
  | 'r' => some '\r'
  | 't' => some '\t'
  | _ => none

/-- The pieces of a string up to its closing quote, and what follows it. Controls below the space
have to be escaped. -/
def pieces : List Char → Option (List Piece × List Char)
  | [] => none
  | '"' :: rest => some ([], rest)
  | '\\' :: 'u' :: a :: b :: c :: d :: rest => do
    let unit := ((← hexValue a) * 16 + (← hexValue b)) * 256 + (← hexValue c) * 16 + (← hexValue d)
    let (more, rest) ← pieces rest
    return (.unit unit :: more, rest)
  | '\\' :: c :: rest => do
    let c ← unescape c
    let (more, rest) ← pieces rest
    return (.char c :: more, rest)
  | c :: rest =>
    if c.toNat < 0x20 then none
    else do
      let (more, rest) ← pieces rest
      return (.char c :: more, rest)

def digits (cs : List Char) : List Char × List Char := cs.span Char.isDigit

/-- A point needs a digit after it. -/
def fraction : List Char → Option (List Char × List Char)
  | '.' :: rest =>
    let (ds, rest) := digits rest
    if ds.isEmpty then none else some (ds, rest)
  | cs => some ([], cs)

def exponentDigits (negative : Bool) (cs : List Char) : Option (Option Exponent × List Char) :=
  let (ds, rest) := digits cs
  if ds.isEmpty then none else some (some ⟨negative, ds⟩, rest)

/-- An exponent may have a sign, and needs a digit. -/
def exponent : List Char → Option (Option Exponent × List Char)
  | c :: rest =>
    if c = 'e' ∨ c = 'E' then
      match rest with
      | '+' :: rest => exponentDigits false rest
      | '-' :: rest => exponentDigits true rest
      | rest => exponentDigits false rest
    else some (none, c :: rest)
  | [] => some (none, [])

/-- A numeral without its sign. No zero leads the whole part but a lone one. -/
def magnitude (negative : Bool) (cs : List Char) : Option (Numeral × List Char) := do
  let (whole, rest) := digits cs
  if whole.isEmpty || (whole.head? = some '0' && whole.length != 1) then none
  let (fraction, rest) ← fraction rest
  let (exponent, rest) ← exponent rest
  return ({ negative, whole, fraction, exponent }, rest)

def numeral : List Char → Option (Numeral × List Char)
  | '-' :: rest => magnitude true rest
  | cs => magnitude false cs

def isSpace (c : Char) : Bool := c == ' ' || c == '\t' || c == '\n' || c == '\r'

namespace Token

/-- The token at the head of a text that does not start with a space, and what follows it. -/
def next : List Char → Token × List Char
  | '[' :: rest => (.openArray, rest)
  | ']' :: rest => (.closeArray, rest)
  | '{' :: rest => (.openObject, rest)
  | '}' :: rest => (.closeObject, rest)
  | ',' :: rest => (.comma, rest)
  | ':' :: rest => (.colon, rest)
  | 'n' :: 'u' :: 'l' :: 'l' :: rest => (.null, rest)
  | 't' :: 'r' :: 'u' :: 'e' :: rest => (.bool true, rest)
  | 'f' :: 'a' :: 'l' :: 's' :: 'e' :: rest => (.bool false, rest)
  | '"' :: rest =>
    match pieces rest with
    | some (ps, rest) =>
      match Piece.join ps with
      | some cs => (.string (String.ofList cs), rest)
      | none => (.unpaired, rest)
    | none => (.bad, [])
  | cs =>
    match numeral cs with
    | some (n, rest) => (.number n, rest)
    | none => (.bad, [])

/-- At most `fuel` tokens. Each takes up a character at least, so the length of the text is fuel
enough. -/
def read (fuel : Nat) (cs : List Char) : List Token :=
  match fuel with
  | 0 => []
  | fuel + 1 =>
    match cs.dropWhile isSpace with
    | [] => []
    | cs =>
      let (token, rest) := next cs
      token :: read fuel rest

def ofChars (cs : List Char) : List Token := read cs.length cs

end Token

end MarketDepth.Json
