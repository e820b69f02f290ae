import MarketDepth.Snapshot
import MarketDepth.Wire.Levels
import MarketDepth.Wire.Order

/-! Snapshots in JSON. -/

namespace MarketDepth.Snapshot

def toJson (snapshot : Snapshot) : Json :=
  .record [("symbol", snapshot.symbol.toJson), ("source", snapshot.source.toJson),
    ("version", .ofInt snapshot.version.toNat),
    ("asks", .array (snapshot.levels.asks.map Level.toJson)),
    ("bids", .array (snapshot.levels.bids.map Level.toJson)),
    ("checksum", .string snapshot.checksum)]

structure Draft where
  symbol : Option Symbol := none
  source : Option Source := none
  version : Option UInt64 := none
  asks : Option (List Level) := none
  bids : Option (List Level) := none
  checksum : Option String := none

def form : Json.Form Draft Snapshot where
  name := "BookSnapshot"
  fields :=
    [.ofOption "symbol" (·.symbol) (fun draft symbol => { draft with symbol }) Symbol.ofJson,
      .ofOption "source" (·.source) (fun draft source => { draft with source }) Source.ofJson,
      .ofOption "version" (·.version) (fun draft version => { draft with version }) Json.toUInt64,
      .ofOption "asks" (·.asks) (fun draft asks => { draft with asks }) (Json.toList Level.ofJson),
      .ofOption "bids" (·.bids) (fun draft bids => { draft with bids }) (Json.toList Level.ofJson),
      .ofOption "checksum" (·.checksum) (fun draft checksum => { draft with checksum })
        Json.toText]
  draft := {}
  build := fun absence draft => do
    let symbol ← absence.require 0 "symbol" draft.symbol
    let source ← absence.require 1 "source" draft.source
    let version ← absence.require 2 "version" draft.version
    let asks ← absence.require 3 "asks" draft.asks
    let bids ← absence.require 4 "bids" draft.bids
    let checksum ← absence.require 5 "checksum" draft.checksum
    return { symbol, source, version, levels := { asks, bids }, checksum }

/-- The checksum is read as it is and not compared. -/
def ofJson (json : Json) : Except Json.Fault Snapshot := form.read json

end MarketDepth.Snapshot
