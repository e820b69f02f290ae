import Mathlib.Algebra.Order.BigOperators.Group.List
import MarketDepth.Metrics
import MarketDepth.Proofs.Percentiles

/-! Means of a latency window. The samples are added up in one word before the sum is divided. If the
sum fits, the mean is exact and lies between the extremes; if it does not, there is no mean. -/

namespace MarketDepth

namespace LatencyWindow

/-- The sum of the samples of a window, however large. -/
def exactTotal (window : LatencyWindow) : Nat := (window.samples.map UInt64.toNat).sum

variable {window : LatencyWindow}

/-- Samples are never negative, so the sum overflows on the way just when all of it does not fit. -/
theorem foldlM_total (samples : List UInt64) (sum : UInt64) :
    samples.foldlM (fun sum sample => if sum.toNat + sample.toNat < UInt64.size then
        Except.ok (sum + sample) else .error Breach.sumOverflow) sum =
      if sum.toNat + (samples.map UInt64.toNat).sum < 2 ^ 64 then
        .ok (sum.toNat + (samples.map UInt64.toNat).sum).toUInt64
      else .error .sumOverflow := by
  have hword : UInt64.size = 2 ^ 64 := rfl
  induction samples generalizing sum with
  | nil => simp [sum.toNat_lt, pure, Except.pure]
  | cons sample rest ih =>
    rw [List.foldlM_cons, List.map_cons, List.sum_cons]
    by_cases hfits : sum.toNat + sample.toNat < UInt64.size
    · have hsum : (sum + sample).toNat = sum.toNat + sample.toNat := by
        rw [UInt64.toNat_add, Nat.mod_eq_of_lt (by omega)]
      rw [if_pos hfits, ← Nat.add_assoc, ← hsum]
      exact ih (sum + sample)
    · rw [if_neg hfits, if_neg (by omega)]
      rfl

theorem total_eq (window : LatencyWindow) :
    window.total = if window.exactTotal < 2 ^ 64 then .ok window.exactTotal.toUInt64
      else .error .sumOverflow := by
  have h := foldlM_total window.samples 0
  rwa [UInt64.toNat_zero, Nat.zero_add] at h

theorem mean_eq (window : LatencyWindow) :
    window.mean = if window.exactTotal < 2 ^ 64 then
        .ok (if window.isEmpty then none
          else some (window.exactTotal.toUInt64 / window.size.toUInt64))
      else .error .sumOverflow := by
  rw [mean, total_eq]
  by_cases hempty : window.isEmpty = true
  · have hzero : window.exactTotal = 0 := by simp [exactTotal, List.isEmpty_iff.mp hempty]
    simp [hempty, hzero]
  · by_cases hfits : window.exactTotal < 2 ^ 64
    · simp only [if_neg hempty, if_pos hfits]
      rfl
    · simp only [if_neg hempty, if_neg hfits]
      rfl

theorem toNat_mean (window : LatencyWindow) (hsize : window.size < 2 ^ 64)
    (hfits : window.exactTotal < 2 ^ 64) :
    (window.exactTotal.toUInt64 / window.size.toUInt64).toNat =
      window.exactTotal / window.size := by
  rw [UInt64.toNat_div]
  congr 1
  · exact UInt64.toNat_ofNat_of_lt' hfits
  · exact UInt64.toNat_ofNat_of_lt' hsize

/-- Bounds of all samples are bounds of their mean. -/
theorem mean_mem_of_bounds {low high : UInt64} (hne : window.samples ≠ [])
    (hlow : ∀ sample ∈ window.samples, low ≤ sample)
    (hhigh : ∀ sample ∈ window.samples, sample ≤ high) :
    low.toNat ≤ window.exactTotal / window.size ∧ window.exactTotal / window.size ≤ high.toNat := by
  have hpos : 0 < window.size := List.length_pos_iff.mpr hne
  have hlength : (window.samples.map UInt64.toNat).length = window.size := List.length_map _
  constructor
  · rw [Nat.le_div_iff_mul_le hpos, Nat.mul_comm, ← hlength, ← smul_eq_mul]
    refine List.card_nsmul_le_sum _ _ fun n hn => ?_
    obtain ⟨sample, hin, rfl⟩ := List.mem_map.mp hn
    exact hlow sample hin
  · refine Nat.div_le_of_le_mul ?_
    rw [← hlength, ← smul_eq_mul]
    refine List.sum_le_card_nsmul _ _ fun n hn => ?_
    obtain ⟨sample, hin, rfl⟩ := List.mem_map.mp hn
    exact hhigh sample hin

theorem percentile_zero_le {low : UInt64} (h : window.percentile 0 = some low) :
    ∀ sample ∈ window.samples, low ≤ sample := by
  intro sample hin
  have hcount : 0 < window.samples.countP (· ≤ sample) :=
    List.countP_pos_iff.mpr ⟨sample, hin, decide_eq_true (UInt64.le_refl sample)⟩
  refine ((percentile_le_iff h).2 sample).mpr ?_
  simpa using hcount

theorem le_percentile_hundred {high : UInt64} (h : window.percentile 100 = some high) :
    ∀ sample ∈ window.samples, sample ≤ high := by
  have hcount := ((percentile_le_iff h).2 high).mp (UInt64.le_refl high)
  have hall : min (100 : UInt8).toNat 100 * window.size ⌈/⌉ 100 = window.size := by
    rw [Nat.ceilDiv_eq_add_pred_div]
    change (100 * window.size + 99) / 100 = window.size
    omega
  rw [hall] at hcount
  have hlength : window.samples.countP (· ≤ high) = window.samples.length :=
    List.countP_le_length.antisymm ((le_max_right 1 _).trans hcount)
  exact fun sample hin => of_decide_eq_true (List.countP_eq_length.mp hlength sample hin)

theorem exists_percentile (hne : window.samples ≠ []) (p : UInt8) :
    ∃ v, window.percentile p = some v :=
  Option.ne_none_iff_exists'.mp fun hnone => hne ((percentile_eq_none_iff p).mp hnone)

end LatencyWindow

namespace Metrics

/-- What is recorded of one batch. -/
structure Entry where
  records : UInt64
  ignored : UInt64
  latency : UInt64

def recordAll (metrics : Metrics) (entries : List Entry) : Metrics :=
  entries.foldl (fun metrics entry =>
    metrics.recordCycle entry.records entry.ignored entry.latency) metrics

theorem latencies_recordAll (metrics : Metrics) (entries : List Entry) :
    (metrics.recordAll entries).latencies =
      (entries.map Entry.latency).foldl LatencyWindow.record metrics.latencies := by
  induction entries generalizing metrics with
  | nil => rfl
  | cons entry rest ih => exact ih _

theorem report_of_mean {metrics : Metrics} {mean : Option UInt64}
    (h : metrics.latencies.mean = .ok mean) : ∃ figures, metrics.report = .ok figures := by
  unfold report latencyFigures
  rw [h]
  cases metrics.latencies.percentile 50 with
  | none => exact ⟨_, rfl⟩
  | some p50 =>
    cases metrics.latencies.percentile 99 with
    | none => exact ⟨_, rfl⟩
    | some p99 => cases mean <;> exact ⟨_, rfl⟩

theorem report_of_breach {metrics : Metrics} {breach : Breach}
    (h : metrics.latencies.mean = .error breach) : metrics.report = .error breach := by
  unfold report latencyFigures
  rw [h]
  cases metrics.latencies.percentile 50 <;> cases metrics.latencies.percentile 99 <;> rfl

end Metrics

namespace LatencyWindow

/-- Once something is recorded there is a mean just as long as the sum of the samples in the window fits
into a word. It is exact, rounded down, and lies between the lowest and the highest percentile. A report
of metrics succeeds just as long as there is such a mean, or nothing to take one of. -/
theorem mean_exact (capacity : UInt64) (recorded : List UInt64) (entries : List Metrics.Entry) :
    let window := recorded.foldl record (ofCapacity capacity.toNat)
    let metrics := Metrics.empty.recordAll entries
    (recorded = [] → window.mean = .ok none) ∧
    (recorded ≠ [] → window.exactTotal < 2 ^ 64 → ∃ low mean high,
      window.percentile 0 = some low ∧ window.mean = .ok (some mean) ∧
      window.percentile 100 = some high ∧
      mean.toNat = window.exactTotal / window.size ∧ low ≤ mean ∧ mean ≤ high) ∧
    (2 ^ 64 ≤ window.exactTotal → window.mean = .error .sumOverflow) ∧
    metrics.latencies = (entries.map Metrics.Entry.latency).foldl record (ofCapacity 1000) ∧
    (metrics.latencies.exactTotal < 2 ^ 64 → ∃ figures, metrics.report = .ok figures) ∧
    (2 ^ 64 ≤ metrics.latencies.exactTotal → metrics.report = .error .sumOverflow) := by
  intro window metrics
  have hpos : 0 < (ofCapacity capacity.toNat).capacity := lt_max_of_lt_right Nat.one_pos
  obtain ⟨hcapacity, hretains⟩ := (retains_ofCapacity capacity.toNat).foldl hpos recorded
  rw [List.nil_append] at hretains
  have hsize : window.size = min (max capacity.toNat 1) recorded.length :=
    hretains.size.trans (congrArg (min · recorded.length) hcapacity)
  have hlatencies : metrics.latencies =
      (entries.map Metrics.Entry.latency).foldl record (ofCapacity 1000) :=
    Metrics.latencies_recordAll .empty entries
  refine ⟨fun hnone => ?_, fun hsome hfits => ?_, fun hover => ?_, hlatencies, fun hfits => ?_,
    fun hover => ?_⟩
  · subst hnone
    rfl
  · have hword := capacity.toNat_lt
    have hlength := List.length_pos_iff.mpr hsome
    have hne : window.samples ≠ [] := by
      rw [← List.length_pos_iff]
      change 0 < window.size
      omega
    have hmean := window.mean_eq
    rw [if_pos hfits, isEmpty, List.isEmpty_eq_false_iff.mpr hne, if_neg Bool.false_ne_true] at hmean
    obtain ⟨low, hlow⟩ := exists_percentile hne 0
    obtain ⟨high, hhigh⟩ := exists_percentile hne 100
    have hexact := window.toNat_mean (by omega) hfits
    obtain ⟨hge, hle⟩ := mean_mem_of_bounds hne (percentile_zero_le hlow)
      (le_percentile_hundred hhigh)
    rw [← hexact] at hge hle
    exact ⟨low, _, high, hlow, hmean, hhigh, hexact, hge, hle⟩
  · rw [mean_eq, if_neg (Nat.not_lt.mpr hover)]
  · have hmean := metrics.latencies.mean_eq
    rw [if_pos hfits] at hmean
    exact Metrics.report_of_mean hmean
  · have hmean := metrics.latencies.mean_eq
    rw [if_neg (Nat.not_lt.mpr hover)] at hmean
    exact Metrics.report_of_breach hmean

/-- The fourth sample pushes the first out of a window of three. -/
theorem mean_exact_wrapped :
    let window := [40, 10, 30, 21].foldl record (ofCapacity 3)
    let metrics := Metrics.empty.recordAll [⟨2, 0, 40⟩, ⟨1, 1, 10⟩]
    window.exactTotal < 2 ^ 64 ∧ metrics.latencies.exactTotal < 2 ^ 64 ∧
      (∃ low mean high, window.percentile 0 = some low ∧ window.mean = .ok (some mean) ∧
        window.percentile 100 = some high ∧ mean.toNat = 61 / 3 ∧ low ≤ mean ∧ mean ≤ high) ∧
      ∃ figures, metrics.report = .ok figures := by
  intro window metrics
  have hfits : window.exactTotal < 2 ^ 64 := by decide
  have hlatencies : metrics.latencies.exactTotal < 2 ^ 64 := by decide
  obtain ⟨-, hmean, -, -, hreport, -⟩ :=
    mean_exact 3 [40, 10, 30, 21] [⟨2, 0, 40⟩, ⟨1, 1, 10⟩]
  exact ⟨hfits, hlatencies, hmean (by decide) hfits, hreport hlatencies⟩

/-- The mean of the greatest word and of one is two to the power of 63, but their sum does not fit. -/
theorem mean_breaks_off :
    let window := [18446744073709551615, 1].foldl record (ofCapacity 2)
    let metrics := Metrics.empty.recordAll [⟨1, 0, 18446744073709551615⟩, ⟨1, 0, 1⟩]
    window.exactTotal / window.size = 2 ^ 63 ∧ (∀ mean, window.mean ≠ .ok mean) ∧
      ∀ figures, metrics.report ≠ .ok figures := by
  refine ⟨by decide, fun mean h => ?_, fun figures h => ?_⟩
  · cases h
  · cases h

end LatencyWindow

end MarketDepth
