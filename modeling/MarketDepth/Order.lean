import MarketDepth.Instrument
import MarketDepth.Side

/-! What a feed says about orders. A report is the latest word on one order: a new order, an
amendment of any of its fields, or its removal. Reports of one symbol and source come in batches. -/

namespace MarketDepth

inductive Interest where
  | buy
  | sell
  | unstated
  deriving DecidableEq

/-- Only buyers rest on the bid side. -/
def Interest.side : Interest → Side
  | .buy => .bid
  | .sell | .unstated => .ask

structure Flags where
  bits : UInt32 := 0
  deriving DecidableEq

namespace Flags

def pending : UInt32 := 0x01

def removal : UInt32 := 0x02

def snapshotBegin : UInt32 := 0x04

def snapshotEnd : UInt32 := 0x08

def snapshotSnip : UInt32 := 0x10

def has (flags : Flags) (flag : UInt32) : Bool := flags.bits &&& flag != 0

def isRemoval (flags : Flags) : Bool := flags.has removal

end Flags

structure Report where
  index : Int64
  interest : Interest
  /-- Not a number when the order has no price. -/
  price : Float
  /-- Not a number, or nothing to speak of, when the order is gone. -/
  size : Float
  time : Int64
  flags : Flags := {}

namespace Report

def gone (index time : Int64) : Report :=
  ⟨index, .unstated, notANumber, notANumber, time, ⟨Flags.removal⟩⟩

def isRemoval (report : Report) : Bool :=
  report.flags.isRemoval || report.size.isNaN || negligible report.size

def price? (report : Report) : Option Price := Price.ofFloat? report.price

end Report

/-- What the records of a batch are. Books understand orders alone. -/
inductive RecordKind where
  | order
  | spreadOrder
  | other (name : String)
  deriving DecidableEq

structure Batch where
  symbol : Symbol
  source : Source
  kind : RecordKind := .order
  reports : List Report

namespace Batch

def size (batch : Batch) : Nat := batch.reports.length

def isEmpty (batch : Batch) : Bool := batch.reports.isEmpty

end Batch

end MarketDepth
