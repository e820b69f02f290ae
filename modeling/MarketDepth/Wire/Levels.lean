import MarketDepth.Changes
import MarketDepth.Json.Reading
import MarketDepth.Json.Writer

/-! Prices, levels and change-sets in JSON. -/

namespace MarketDepth

namespace Price

def toJson (price : Price) : Json := .ofFloat price.value

/-- No JSON number is anything but a number, so every one is a price. -/
def ofJson (json : Json) : Except Json.Fault Price := do
  match ofFloat? (← json.toFloat) with
  | some price => return price
  | none => throw .outOfRange

end Price

namespace Level

def toJson (level : Level) : Json :=
  .record [("price", level.price.toJson), ("size", .ofFloat level.size),
    ("time", .ofInt level.time.toInt)]

structure Draft where
  price : Option Price := none
  size : Option Float := none
  time : Option Int64 := none

def form : Json.Form Draft Level where
  name := "PriceLevel"
  fields :=
    [.ofOption "price" (·.price) (fun draft price => { draft with price }) Price.ofJson,
      .ofOption "size" (·.size) (fun draft size => { draft with size }) Json.toFloat,
      .ofOption "time" (·.time) (fun draft time => { draft with time }) Json.toInt64]
  draft := {}
  build := fun absence draft => do
    let price ← absence.require 0 "price" draft.price
    let size ← absence.require 1 "size" draft.size
    let time ← absence.require 2 "time" draft.time
    return { price, size, time }

def ofJson (json : Json) : Except Json.Fault Level := form.read json

end Level

namespace Levels

def toJson (levels : Levels) : Json :=
  .record [("asks", .array (levels.asks.map Level.toJson)),
    ("bids", .array (levels.bids.map Level.toJson))]

structure Draft where
  asks : Option (List Level) := none
  bids : Option (List Level) := none

def form : Json.Form Draft Levels where
  name := "LevelChanges"
  fields :=
    [.ofOption "asks" (·.asks) (fun draft asks => { draft with asks }) (Json.toList Level.ofJson),
      .ofOption "bids" (·.bids) (fun draft bids => { draft with bids }) (Json.toList Level.ofJson)]
  draft := {}
  build := fun absence draft => do
    let asks ← absence.require 0 "asks" draft.asks
    let bids ← absence.require 1 "bids" draft.bids
    return { asks, bids }

def ofJson (json : Json) : Except Json.Fault Levels := form.read json

end Levels

namespace ChangeSet

def toJson (changes : ChangeSet) : Json :=
  .record [("additions", changes.additions.toJson), ("updates", changes.updates.toJson),
    ("removals", changes.removals.toJson)]

def toSortedJson (changes : ChangeSet) : Json :=
  .record [("additions", changes.additions.toJson), ("removals", changes.removals.toJson),
    ("updates", changes.updates.toJson)]

structure Draft where
  additions : Option Levels := none
  updates : Option Levels := none
  removals : Option Levels := none

def form : Json.Form Draft ChangeSet where
  name := "ChangeSet"
  fields :=
    [.ofOption "additions" (·.additions) (fun draft additions => { draft with additions })
        Levels.ofJson,
      .ofOption "updates" (·.updates) (fun draft updates => { draft with updates }) Levels.ofJson,
      .ofOption "removals" (·.removals) (fun draft removals => { draft with removals })
        Levels.ofJson]
  draft := {}
  build := fun absence draft => do
    let additions ← absence.require 0 "additions" draft.additions
    let updates ← absence.require 1 "updates" draft.updates
    let removals ← absence.require 2 "removals" draft.removals
    return { additions, updates, removals }

def ofJson (json : Json) : Except Json.Fault ChangeSet := form.read json

end ChangeSet

end MarketDepth
