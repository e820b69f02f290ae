import MarketDepth.Order
import Std.Data.TreeMap

/-! The ledger remembers the last state of every live order, so that a later amendment or removal
can be set against it. -/

namespace MarketDepth

/-- A live order as last reported. -/
structure Resting where
  index : Int64
  /-- Absent while the feed has sent no price for the order. -/
  price : Option Price
  size : Float
  interest : Interest
  time : Int64

def Report.resting (report : Report) : Resting :=
  ⟨report.index, report.price?, report.size, report.interest, report.time⟩

structure Ledger where
  orders : Std.TreeMap Int64 Resting := {}

namespace Ledger

def empty : Ledger := {}

def get? (ledger : Ledger) (index : Int64) : Option Resting := ledger.orders[index]?

def insert (ledger : Ledger) (order : Resting) : Ledger :=
  ⟨ledger.orders.insert order.index order⟩

def erase (ledger : Ledger) (index : Int64) : Ledger := ⟨ledger.orders.erase index⟩

def size (ledger : Ledger) : Nat := ledger.orders.size

def isEmpty (ledger : Ledger) : Bool := ledger.orders.isEmpty

end Ledger

end MarketDepth
