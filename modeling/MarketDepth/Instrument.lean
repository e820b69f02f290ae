import MarketDepth.Contract
import MarketDepth.Text.Blank

/-! Symbols name instruments and sources name the venues that quote them. Both are opaque text; the
checked constructors refuse blank text. -/

namespace MarketDepth

structure Symbol where
  text : String
  deriving DecidableEq

structure Source where
  text : String
  deriving DecidableEq

def Symbol.ofText? (text : String) : Option Symbol := if isBlank text then none else some ⟨text⟩

def Source.ofText? (text : String) : Option Source := if isBlank text then none else some ⟨text⟩

def Symbol.ofText (text : String) : Except Breach Symbol :=
  match ofText? text with
  | some symbol => .ok symbol
  | none => .error .blankSymbol

def Source.ofText (text : String) : Except Breach Source :=
  match ofText? text with
  | some source => .ok source
  | none => .error .blankSource

end MarketDepth
