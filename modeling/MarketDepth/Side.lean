import MarketDepth.Price

/-! The two sides of a book and how each ranks prices: asks lowest first, bids highest first. -/

namespace MarketDepth

inductive Side where
  | ask
  | bid
  deriving DecidableEq

namespace Side

def name : Side → String
  | .ask => "ask"
  | .bid => "bid"

/-- `lt` when the first price is the better one on this side. -/
def rank : Side → Price → Price → Ordering
  | .ask, a, b => a.compare b
  | .bid, a, b => b.compare a

/-- Two prices that stand for one level. The side does not matter. -/
def same (side : Side) (a b : Price) : Bool := side.rank a b == .eq

end Side

end MarketDepth
