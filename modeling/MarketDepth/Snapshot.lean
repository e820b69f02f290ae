import MarketDepth.Instrument
import MarketDepth.Level
import MarketDepth.Sha256

/-! Snapshots of what can be seen of a book, with a checksum of its prices and sizes. Times are left
out, so two books with the same prices and sizes have one checksum. -/

namespace MarketDepth

def littleEndian (x : Float) : List UInt8 :=
  (List.range 8).map fun i => (x.toBits.toNat >>> (8 * i)).toUInt8

def Level.bytes (level : Level) : List UInt8 :=
  littleEndian level.price.value ++ littleEndian level.size

namespace Levels

/-- What the checksum covers: the letter A and the asks, the letter B and the bids. -/
def content (levels : Levels) : List UInt8 :=
  0x41 :: levels.asks.flatMap Level.bytes ++ 0x42 :: levels.bids.flatMap Level.bytes

def checksum (levels : Levels) : String := Sha256.hex (Sha256.digest levels.content)

end Levels

structure Snapshot where
  symbol : Symbol
  source : Source
  version : UInt64
  levels : Levels
  checksum : String

namespace Snapshot

def ofLevels (symbol : Symbol) (source : Source) (version : UInt64) (levels : Levels) : Snapshot :=
  { symbol, source, version, levels, checksum := levels.checksum }

def verify (snapshot : Snapshot) : Bool := snapshot.levels.checksum == snapshot.checksum

end Snapshot

end MarketDepth
