import MarketDepth.Instrument

/-! What a book is set up with. -/

namespace MarketDepth

structure Config where
  symbol : String
  source : String
  /-- Levels shown on each side; zero shows them all. -/
  depth : UInt64 := 0
  deriving DecidableEq

inductive ConfigError where
  | emptySymbol
  | emptySource
  | malformed (reason : String)
  deriving DecidableEq

def ConfigError.message : ConfigError → String
  | .emptySymbol => "Symbol must not be empty"
  | .emptySource => "Source must not be empty"
  | .malformed reason => "Malformed config: " ++ reason

namespace Config

def symbolId (config : Config) : Except ConfigError Symbol :=
  match Symbol.ofText? config.symbol with
  | some symbol => .ok symbol
  | none => .error .emptySymbol

def sourceId (config : Config) : Except ConfigError Source :=
  match Source.ofText? config.source with
  | some source => .ok source
  | none => .error .emptySource

/-- The symbol is checked before the source. -/
def validate (config : Config) : Except ConfigError Unit := do
  discard config.symbolId
  discard config.sourceId

end Config

end MarketDepth
