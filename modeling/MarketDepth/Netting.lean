import MarketDepth.Ladder
import MarketDepth.Ledger

/-! Netting turns the reports of a batch into one size change for each side and price. A report
takes back what its order contributed before and adds what it contributes now. -/

namespace MarketDepth

structure Delta where
  price : Price
  size : Float
  /-- Time of the last report that touched the price. -/
  time : Int64

structure NetDeltas where
  asks : List Delta
  bids : List Delta
  /-- Removals of orders that were not live. -/
  ignored : Nat

def NetDeltas.isEmpty (deltas : NetDeltas) : Bool := deltas.asks.isEmpty && deltas.bids.isEmpty

structure Netting where
  ledger : Ledger
  asks : Ladder .ask Delta := .empty
  bids : Ladder .bid Delta := .empty
  ignored : Nat := 0

namespace Netting

/-- The first contribution at a price keeps its price; later ones add to its size and move its
time. -/
def gather (price : Price) (size : Float) (time : Int64) : Option Delta → Delta
  | none => ⟨price, size, time⟩
  | some delta => { delta with size := delta.size + size, time := time }

/-- An order without a price is remembered but forms no level. -/
def contribute (net : Netting) (interest : Interest) (price : Option Price) (size : Float)
    (time : Int64) : Netting :=
  match price with
  | none => net
  | some price =>
    match interest.side with
    | .ask => { net with asks := net.asks.upsert price (gather price size time) }
    | .bid => { net with bids := net.bids.upsert price (gather price size time) }

def withdraw (net : Netting) (order : Resting) (time : Int64) : Netting :=
  net.contribute order.interest order.price (-order.size) time

def book (net : Netting) (report : Report) : Netting :=
  let net := net.contribute report.interest report.price? report.size report.time
  { net with ledger := net.ledger.insert report.resting }

def add (net : Netting) (report : Report) : Netting :=
  match net.ledger.get? report.index, report.isRemoval with
  | none, true => { net with ignored := net.ignored + 1 }
  | none, false => net.book report
  | some order, true =>
    let net := net.withdraw order report.time
    { net with ledger := net.ledger.erase report.index }
  | some order, false => (net.withdraw order report.time).book report

/-- Changes that cancelled out are dropped. -/
def deltas (net : Netting) : NetDeltas where
  asks := net.asks.values.filter fun delta => !negligible delta.size
  bids := net.bids.values.filter fun delta => !negligible delta.size
  ignored := net.ignored

end Netting

namespace Ledger

def net (ledger : Ledger) (reports : List Report) : Ledger × NetDeltas :=
  let net := reports.foldl Netting.add { ledger }
  (net.ledger, net.deltas)

def netBatch (ledger : Ledger) (reports : List Report) : Except Breach (Ledger × NetDeltas) :=
  if reports.isEmpty then .error .emptyBatch else .ok (ledger.net reports)

end Ledger

end MarketDepth
