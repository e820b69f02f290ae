import MarketDepth.Config
import MarketDepth.Json.Reading
import MarketDepth.Json.Writer

/-! Configurations in JSON. -/

namespace MarketDepth.Config

def toJson (config : Config) : Json :=
  .record [("symbol", .string config.symbol), ("source", .string config.source),
    ("depth", .ofInt config.depth.toNat)]

structure Draft where
  symbol : Option String := none
  source : Option String := none
  depth : Option UInt64 := none

/-- The depth is zero where it is not given. -/
def form : Json.Form Draft Config where
  name := "BookConfig"
  fields :=
    [.ofOption "symbol" (·.symbol) (fun draft symbol => { draft with symbol }) Json.toText,
      .ofOption "source" (·.source) (fun draft source => { draft with source }) Json.toText,
      .ofOption "depth" (·.depth) (fun draft depth => { draft with depth }) Json.toCount]
  draft := {}
  build := fun absence draft => do
    let symbol ← absence.require 0 "symbol" draft.symbol
    let source ← absence.require 1 "source" draft.source
    return { symbol, source, depth := draft.depth.getD 0 }

def ofJson (json : Json) : Except Json.Fault Config := form.read json

def ofText (text : String) : Except ConfigError Config := do
  match Json.parse ofJson text with
  | .error fault => throw (.malformed fault.message)
  | .ok config =>
    config.validate
    return config

end MarketDepth.Config
