import MarketDepth.Changes
import MarketDepth.Decimal.Numeral
import MarketDepth.Snapshot

/-! A replica is a consumer's copy of what can be seen of a book, kept from its announcements alone.
It is strict: a change that does not fit stops it, which makes it a check on change-sets. -/

namespace MarketDepth

inductive Misfit where
  | unknown (side : Side) (price : Price)
  | duplicate (side : Side) (price : Price)

def Misfit.message : Misfit → String
  | .unknown side price => side.name ++ " level " ++ price.text ++ " is not in the view"
  | .duplicate side price => side.name ++ " level " ++ price.text ++ " added twice"

structure Replica where
  asks : Ladder .ask Level := .empty
  bids : Ladder .bid Level := .empty

namespace Replica

def empty : Replica := {}

def ofLevels (levels : Levels) : Replica := ⟨.ofLevels .ask levels.asks, .ofLevels .bid levels.bids⟩

def levels (replica : Replica) : Levels := ⟨replica.asks.values, replica.bids.values⟩

def checksum (replica : Replica) : String := replica.levels.checksum

def agrees (replica : Replica) (snapshot : Snapshot) : Bool :=
  replica.checksum == snapshot.checksum

variable {side : Side}

/-- Takes levels out, up to the first that is not in view. -/
def removeAll (view : Ladder side Level) : List Level → Ladder side Level × Option Misfit
  | [] => (view, none)
  | level :: rest =>
    if view.contains level.price then removeAll (view.erase level.price) rest
    else (view, some (.unknown side level.price))

/-- Puts levels in, up to the first that is in view already, which is replaced. -/
def addAll (view : Ladder side Level) : List Level → Ladder side Level × Option Misfit
  | [] => (view, none)
  | level :: rest =>
    let next := view.insert level.price level
    if view.contains level.price then (next, some (.duplicate side level.price))
    else addAll next rest

def updateAll (view : Ladder side Level) : List Level → Ladder side Level × Option Misfit
  | [] => (view, none)
  | level :: rest =>
    if view.contains level.price then updateAll (view.insert level.price level) rest
    else (view, some (.unknown side level.price))

def onAsks (f : Ladder .ask Level → Ladder .ask Level × Option Misfit) (replica : Replica) :
    Replica × Option Misfit :=
  let (asks, misfit) := f replica.asks
  ({ replica with asks }, misfit)

def onBids (f : Ladder .bid Level → Ladder .bid Level × Option Misfit) (replica : Replica) :
    Replica × Option Misfit :=
  let (bids, misfit) := f replica.bids
  ({ replica with bids }, misfit)

/-- Runs steps in order up to the first misfit. What was done before it stays done. -/
def run (replica : Replica) : List (Replica → Replica × Option Misfit) → Replica × Option Misfit
  | [] => (replica, none)
  | step :: rest =>
    match step replica with
    | (replica, none) => run replica rest
    | (replica, some misfit) => (replica, some misfit)

/-- Applies removals, then additions, then updates, the asks before the bids each time. -/
def apply (replica : Replica) (changes : ChangeSet) : Replica × Option Misfit :=
  replica.run
    [onAsks (removeAll · changes.removals.asks), onBids (removeAll · changes.removals.bids),
      onAsks (addAll · changes.additions.asks), onBids (addAll · changes.additions.bids),
      onAsks (updateAll · changes.updates.asks), onBids (updateAll · changes.updates.bids)]

end Replica

end MarketDepth
