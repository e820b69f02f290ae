import MarketDepth.Contract

/-! Latency samples: a sliding window of the most recent ones, with nearest-rank percentiles. -/

namespace MarketDepth

structure LatencyWindow where
  capacity : Nat
  samples : List UInt64 := []

namespace LatencyWindow

def ofCapacity (capacity : Nat) : LatencyWindow := { capacity := max capacity 1 }

def size (window : LatencyWindow) : Nat := window.samples.length

def isEmpty (window : LatencyWindow) : Bool := window.samples.isEmpty

/-- A full window drops its oldest sample. -/
def record (window : LatencyWindow) (sample : UInt64) : LatencyWindow :=
  let kept := if window.size = window.capacity then window.samples.drop 1 else window.samples
  { window with samples := kept ++ [sample] }

/-- The position, counted from one, of the percentile among `n` samples in ascending order. -/
def nearestRank (p : UInt8) (n : Nat) : Nat :=
  max 1 (min n ((min p.toNat 100 * n + 99) / 100))

/-- The nearest-rank percentile; percentages above a hundred count as a hundred. -/
def percentile (window : LatencyWindow) (p : UInt8) : Option UInt64 :=
  let sorted := window.samples.mergeSort (· ≤ ·)
  if sorted.isEmpty then none else sorted[nearestRank p sorted.length - 1]?

def total (window : LatencyWindow) : Except Breach UInt64 :=
  window.samples.foldlM
    (fun sum sample => if sum.toNat + sample.toNat < UInt64.size then .ok (sum + sample) else
      .error .sumOverflow) 0

def mean (window : LatencyWindow) : Except Breach (Option UInt64) :=
  if window.isEmpty then .ok none
  else window.total.map fun sum => some (sum / window.size.toUInt64)

end LatencyWindow

end MarketDepth
