import MarketDepth.Changes
import MarketDepth.Latency

/-! Metrics of one book: counters, which wrap at sixty-four bits, and the latencies of its most
recent thousand batches. -/

namespace MarketDepth

structure Metrics where
  cycles : UInt64 := 0
  snapshots : UInt64 := 0
  records : UInt64 := 0
  ignored : UInt64 := 0
  levelsAdded : UInt64 := 0
  levelsUpdated : UInt64 := 0
  levelsRemoved : UInt64 := 0
  latencies : LatencyWindow := .ofCapacity 1000

namespace Metrics

def empty : Metrics := {}

def recordCycle (metrics : Metrics) (records ignored latency : UInt64) : Metrics :=
  { metrics with
    cycles := metrics.cycles + 1
    records := metrics.records + records
    ignored := metrics.ignored + ignored
    latencies := metrics.latencies.record latency }

def recordSnapshot (metrics : Metrics) : Metrics :=
  { metrics with snapshots := metrics.snapshots + 1 }

def recordChanges (metrics : Metrics) (changes : ChangeSet) : Metrics :=
  { metrics with
    levelsAdded := metrics.levelsAdded + changes.additions.size.toUInt64
    levelsUpdated := metrics.levelsUpdated + changes.updates.size.toUInt64
    levelsRemoved := metrics.levelsRemoved + changes.removals.size.toUInt64 }

def latencyP99 (metrics : Metrics) : Option UInt64 := metrics.latencies.percentile 99

/-- Everything but what the clock decides, by name. -/
def counters (metrics : Metrics) : List (String × UInt64) :=
  [("cycles_processed", metrics.cycles), ("snapshots_applied", metrics.snapshots),
    ("records_processed", metrics.records), ("records_ignored", metrics.ignored),
    ("levels_added", metrics.levelsAdded), ("levels_updated", metrics.levelsUpdated),
    ("levels_removed", metrics.levelsRemoved),
    ("cycle_latency_samples", metrics.latencies.size.toUInt64)]

def latencyFigures (metrics : Metrics) : Except Breach (List (String × UInt64)) := do
  match metrics.latencies.percentile 50, metrics.latencies.percentile 99,
      ← metrics.latencies.mean with
  | some p50, some p99, some mean =>
    return [("cycle_latency_p50_ns", p50), ("cycle_latency_p99_ns", p99),
      ("cycle_latency_mean_ns", mean)]
  | _, _, _ => return []

def report (metrics : Metrics) : Except Breach (List (String × UInt64)) :=
  metrics.latencyFigures.map (metrics.counters ++ ·)

end Metrics

end MarketDepth
