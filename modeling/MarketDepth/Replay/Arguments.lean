/-! The arguments of the command that replays a recording. -/

namespace MarketDepth.Replay

structure Arguments where
  /-- A path, or a hyphen for standard input. -/
  input : String
  symbol : String
  source : String := "DEFAULT"
  depth : UInt64 := 0
  verify : Bool := false
  deriving DecidableEq

namespace Arguments

def usage : String :=
  "Usage: replay [--source <SOURCE>] [--depth <DEPTH>] [--verify] --symbol <SYMBOL> <INPUT>"

structure Draft where
  input : Option String := none
  symbol : Option String := none
  source : Option String := none
  depth : Option UInt64 := none
  verify : Bool := false

inductive OptionName where
  | symbol
  | source
  | depth
  deriving DecidableEq

def optionName? : List Char → Option OptionName
  | ['s', 'y', 'm', 'b', 'o', 'l'] => some .symbol
  | ['s', 'o', 'u', 'r', 'c', 'e'] => some .source
  | ['d', 'e', 'p', 't', 'h'] => some .depth
  | _ => none

/-- A count: digits, with a plus in front of them or not, that fit in sixty-four bits. -/
def count? (text : String) : Option UInt64 :=
  let digits := match text.toList with
    | '+' :: rest => rest
    | cs => cs
  if digits.isEmpty || !digits.all Char.isDigit then none
  else
    let n := Nat.ofDigitChars 10 digits 0
    if n < UInt64.size then some n.toUInt64 else none

namespace Draft

def setInput (draft : Draft) (text : String) : Option Draft :=
  if draft.input.isSome || text.isEmpty then none else some { draft with input := some text }

def setOption (draft : Draft) (name : OptionName) (text : String) : Option Draft :=
  match name with
  | .symbol => if draft.symbol.isSome then none else some { draft with symbol := some text }
  | .source => if draft.source.isSome then none else some { draft with source := some text }
  | .depth =>
    if draft.depth.isSome then none
    else (count? text).map fun depth => { draft with depth := some depth }

def setVerify (draft : Draft) : Option Draft :=
  if draft.verify then none else some { draft with verify := true }

def finish (draft : Draft) : Option Arguments := do
  let input ← draft.input
  let symbol ← draft.symbol
  return {
    input, symbol
    source := draft.source.getD "DEFAULT"
    depth := draft.depth.getD 0
    verify := draft.verify }

end Draft

/-- A value of its own starts with no hyphen, unless it is one. -/
def isValue (text : String) : Bool := text == "-" || text.toList.head? != some '-'

inductive Word where
  /-- Two hyphens: only inputs come after them. -/
  | divider
  | verify
  | joined (name : OptionName) (value : String)
  | alone (name : OptionName)
  | input (text : String)
  | unknown

def Word.ofText (text : String) : Word :=
  match text.toList with
  | ['-', '-'] => .divider
  | '-' :: '-' :: rest =>
    let name := rest.takeWhile (· != '=')
    match rest.drop name.length, optionName? name with
    | [], some option => .alone option
    | [], none => if name = ['v', 'e', 'r', 'i', 'f', 'y'] then .verify else .unknown
    | _ :: value, some option => .joined option (String.ofList value)
    | _ :: _, none => .unknown
  | _ => if isValue text then .input text else .unknown

def read (draft : Draft) : List String → Option Draft
  | [] => some draft
  | arg :: rest =>
    match Word.ofText arg with
    | .divider => rest.foldlM Draft.setInput draft
    | .verify => draft.setVerify.bind fun draft => read draft rest
    | .joined name value => (draft.setOption name value).bind fun draft => read draft rest
    | .alone name =>
      match rest with
      | [] => none
      | value :: rest =>
        if isValue value then (draft.setOption name value).bind fun draft => read draft rest
        else none
    | .input text => (draft.setInput text).bind fun draft => read draft rest
    | .unknown => none

def ofList (args : List String) : Option Arguments := (read {} args).bind Draft.finish

end Arguments

end MarketDepth.Replay
