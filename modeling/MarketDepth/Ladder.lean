import MarketDepth.Level
import MarketDepth.Side

/-! Ladders: the prices of one side, best first, each with something attached. A price that is
already on the ladder keeps its own rung, so the price that first made a rung stays its key. -/

namespace MarketDepth

structure Ladder (side : Side) (α : Type) where
  rungs : List (Price × α) := []

namespace Ladder

variable {side : Side} {α : Type}

def empty : Ladder side α := {}

def size (ladder : Ladder side α) : Nat := ladder.rungs.length

def isEmpty (ladder : Ladder side α) : Bool := ladder.rungs.isEmpty

def prices (ladder : Ladder side α) : List Price := ladder.rungs.map (·.1)

def values (ladder : Ladder side α) : List α := ladder.rungs.map (·.2)

def get? (ladder : Ladder side α) (price : Price) : Option α :=
  (ladder.rungs.find? fun rung => side.same price rung.1).map (·.2)

def contains (ladder : Ladder side α) (price : Price) : Bool := (ladder.get? price).isSome

/-- Puts the price in its place and works out its value from the one it had. -/
def upsertRungs (side : Side) (price : Price) (f : Option α → α) :
    List (Price × α) → List (Price × α)
  | [] => [(price, f none)]
  | (key, a) :: rest =>
    match side.rank price key with
    | .lt => (price, f none) :: (key, a) :: rest
    | .eq => (key, f (some a)) :: rest
    | .gt => (key, a) :: upsertRungs side price f rest

def upsert (ladder : Ladder side α) (price : Price) (f : Option α → α) : Ladder side α :=
  ⟨upsertRungs side price f ladder.rungs⟩

def insert (ladder : Ladder side α) (price : Price) (a : α) : Ladder side α :=
  ladder.upsert price fun _ => a

def erase (ladder : Ladder side α) (price : Price) : Ladder side α :=
  ⟨ladder.rungs.filter fun rung => !side.same price rung.1⟩

def upTo (ladder : Ladder side α) (price : Price) : List α :=
  (ladder.rungs.filter fun rung => side.rank rung.1 price != .gt).map (·.2)

def firstBeyond? (ladder : Ladder side α) (price : Price) : Option (Price × α) :=
  ladder.rungs.find? fun rung => side.rank rung.1 price == .gt

def lastBefore? (ladder : Ladder side α) (price : Price) : Option Price :=
  ((ladder.rungs.filter fun rung => side.rank rung.1 price == .lt).getLast?).map (·.1)

/-- The prices alone, best first; of equal prices the first one stays. -/
def ofPrices (side : Side) (prices : List Price) : Ladder side Unit :=
  prices.foldl (fun ladder price => ladder.insert price ()) .empty

/-- One rung for each price; of levels at equal prices the last one wins. -/
def ofLevels (side : Side) (levels : List Level) : Ladder side Level :=
  levels.foldl (fun ladder level => ladder.insert level.price level) .empty

end Ladder

end MarketDepth
