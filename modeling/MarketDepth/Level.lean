import MarketDepth.Price

/-! A level is the size resting at one price on one side. `Levels` holds levels of both sides: a
whole visible book, or one kind of change to it. -/

namespace MarketDepth

structure Level where
  price : Price
  size : Float
  /-- Time of the last report that touched the level. -/
  time : Int64

structure Levels where
  asks : List Level := []
  bids : List Level := []

namespace Levels

def empty : Levels := {}

def size (levels : Levels) : Nat := levels.asks.length + levels.bids.length

def isEmpty (levels : Levels) : Bool := levels.asks.isEmpty && levels.bids.isEmpty

end Levels

end MarketDepth
