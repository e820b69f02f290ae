import Mathlib.Algebra.Order.Floor.Div
import Mathlib.Data.List.Basic
import Mathlib.GroupTheory.GroupAction.Ring
import Mathlib.Order.Bounds.Defs
import MarketDepth.Latency

/-! Percentiles of a latency window. It holds the last samples, as many as there is room for, and a
percentile is the least of them that enough samples do not exceed. -/

namespace MarketDepth

/-- In ascending order, a value is at least what stands in a position just when more samples than stand
before it do not exceed the value. -/
theorem getElem_le_iff {sorted : List UInt64} (h : sorted.Pairwise (· ≤ ·)) {i : Nat}
    (hi : i < sorted.length) (v : UInt64) : sorted[i] ≤ v ↔ i < sorted.countP (· ≤ v) := by
  induction sorted generalizing i with
  | nil => exact absurd hi (Nat.not_lt_zero i)
  | cons first rest ih =>
    obtain ⟨hfirst, hrest⟩ := List.pairwise_cons.mp h
    rw [List.countP_cons]
    by_cases hle : first ≤ v
    · cases i with
      | zero => simp [hle]
      | succ i => simp [hle, ih hrest (Nat.lt_of_succ_lt_succ hi)]
    · have hnone : rest.countP (· ≤ v) = 0 := List.countP_eq_zero.mpr fun w hw hwv =>
        hle (UInt64.le_trans (hfirst w hw) (of_decide_eq_true hwv))
      have hall : ∀ w ∈ first :: rest, ¬ w ≤ v := fun w hw hwv => by
        rcases List.mem_cons.mp hw with rfl | hw
        · exact hle hwv
        · exact hle (UInt64.le_trans (hfirst w hw) hwv)
      simp [hle, hnone, hall _ (List.getElem_mem hi)]

namespace LatencyWindow

theorem size_record {window : LatencyWindow} (hpos : 0 < window.capacity)
    (h : window.size ≤ window.capacity) (sample : UInt64) :
    (window.record sample).size = min window.capacity (window.size + 1) := by
  unfold size at h
  unfold record size
  split_ifs with hfull <;> simp <;> omega

/-- The window holds the last of the samples recorded, as many as it has room for. -/
structure Retains (window : LatencyWindow) (recorded : List UInt64) : Prop where
  last : window.samples <:+ recorded
  size : window.size = min window.capacity recorded.length

variable {window : LatencyWindow} {recorded : List UInt64}

theorem retains_ofCapacity (capacity : Nat) : (ofCapacity capacity).Retains [] :=
  ⟨List.suffix_rfl, (Nat.min_zero _).symm⟩

theorem Retains.record (h : window.Retains recorded) (hpos : 0 < window.capacity) (sample : UInt64) :
    (window.record sample).Retains (recorded ++ [sample]) := by
  obtain ⟨earlier, hearlier⟩ := h.last
  constructor
  · unfold LatencyWindow.record
    split_ifs
    · obtain ⟨dropped, hdropped⟩ := (List.drop_suffix 1 window.samples).trans h.last
      exact ⟨dropped, by rw [← List.append_assoc, hdropped]⟩
    · exact ⟨earlier, by rw [← List.append_assoc, hearlier]⟩
  · have hsize := h.size
    rw [size_record hpos (by omega), hsize, List.length_append, List.length_singleton]
    change _ = min window.capacity _
    omega

theorem Retains.foldl (h : window.Retains recorded) (hpos : 0 < window.capacity)
    (samples : List UInt64) :
    (samples.foldl LatencyWindow.record window).capacity = window.capacity ∧
      (samples.foldl LatencyWindow.record window).Retains (recorded ++ samples) := by
  induction samples generalizing window recorded with
  | nil => exact ⟨rfl, by rwa [List.append_nil]⟩
  | cons sample rest ih =>
    rw [List.append_cons]
    exact ih (h.record hpos sample) hpos

theorem nearestRank_eq (p : UInt8) (n : Nat) :
    nearestRank p n = max 1 (min p.toNat 100 * n ⌈/⌉ 100) := by
  have hle : min p.toNat 100 * n ≤ 100 * n := Nat.mul_le_mul_right n (Nat.min_le_right _ _)
  rw [nearestRank, Nat.ceilDiv_eq_add_pred_div]
  omega

theorem percentile_eq_none_iff (p : UInt8) : window.percentile p = none ↔ window.samples = [] := by
  have hlength : (window.samples.mergeSort (· ≤ ·)).length = window.samples.length :=
    List.length_mergeSort _
  simp only [percentile]
  split_ifs with hempty
  · rw [List.isEmpty_iff_length_eq_zero, hlength] at hempty
    simpa using hempty
  · rw [List.isEmpty_iff_length_eq_zero, hlength] at hempty
    have hrank : nearestRank p window.samples.length ≤ window.samples.length := by
      unfold nearestRank
      omega
    simp only [List.getElem?_eq_none_iff, hlength]
    rw [← List.length_eq_zero_iff]
    omega

/-- A percentile does not exceed a value just when enough samples do not. -/
theorem percentile_le_iff {p : UInt8} {v : UInt64} (h : window.percentile p = some v) :
    v ∈ window.samples ∧
      ∀ w, v ≤ w ↔ max 1 (min p.toNat 100 * window.size ⌈/⌉ 100) ≤ window.samples.countP (· ≤ w) := by
  have hsorted : (window.samples.mergeSort (· ≤ ·)).Pairwise (· ≤ ·) := by
    refine (List.pairwise_mergeSort (fun a b c hab hbc => ?_) (fun a b => ?_) _).imp of_decide_eq_true
    · exact decide_eq_true (UInt64.le_trans (of_decide_eq_true hab) (of_decide_eq_true hbc))
    · simpa using UInt64.le_total a b
  have hperm : (window.samples.mergeSort (· ≤ ·)).Perm window.samples := List.mergeSort_perm _ _
  simp only [percentile] at h
  split_ifs at h
  obtain ⟨hlt, hv⟩ := List.getElem?_eq_some_iff.mp h
  refine ⟨hperm.mem_iff.mp (hv ▸ List.getElem_mem hlt), fun w => ?_⟩
  have hle := getElem_le_iff hsorted hlt w
  rw [hv, hperm.countP_eq, hperm.length_eq, nearestRank_eq] at hle
  rw [hle, size]
  omega

/-- A window holds the last samples recorded. Its percentiles are nearest ranks: each is the least sample
that at least the percentage of the samples, and one of them at least, do not exceed. -/
theorem percentile_nearest_rank (capacity : Nat) (recorded : List UInt64) :
    let window := recorded.foldl record (ofCapacity capacity)
    window.samples <:+ recorded ∧ window.size = min (max capacity 1) recorded.length ∧
    (∀ p, window.percentile p = none ↔ recorded = []) ∧
    (∀ p v, window.percentile p = some v → IsLeast {v | v ∈ window.samples ∧
      max 1 (min p.toNat 100 * window.size ⌈/⌉ 100) ≤ window.samples.countP (· ≤ v)} v) ∧
    (∀ p q, p ≤ q → ∀ v w, window.percentile p = some v → window.percentile q = some w → v ≤ w) ∧
    (∀ v, window.percentile 0 = some v → IsLeast {v | v ∈ window.samples} v) ∧
    ∀ v, window.percentile 100 = some v → IsGreatest {v | v ∈ window.samples} v := by
  intro window
  have hpos : 0 < (ofCapacity capacity).capacity := lt_max_of_lt_right Nat.one_pos
  obtain ⟨hcapacity, hretains⟩ := (retains_ofCapacity capacity).foldl hpos recorded
  rw [List.nil_append] at hretains
  have hsize : window.size = min (max capacity 1) recorded.length :=
    hretains.size.trans (congrArg (min · recorded.length) hcapacity)
  refine ⟨hretains.last, hsize, fun p => ?_, fun p v hv => ?_, fun p q hpq v w hv hw => ?_,
    fun v hv => ?_, fun v hv => ?_⟩
  · rw [percentile_eq_none_iff, ← List.length_eq_zero_iff, ← List.length_eq_zero_iff]
    unfold size at hsize
    omega
  · obtain ⟨hin, hle⟩ := percentile_le_iff hv
    exact ⟨⟨hin, (hle v).mp (UInt64.le_refl v)⟩, fun w hw => (hle w).mpr hw.2⟩
  · have hrank : min p.toNat 100 * window.size ⌈/⌉ 100 ≤ min q.toNat 100 * window.size ⌈/⌉ 100 := by
      have hnat : p.toNat ≤ q.toNat := hpq
      have hmul : min p.toNat 100 * window.size ≤ min q.toNat 100 * window.size :=
        Nat.mul_le_mul_right _ (by omega)
      rw [Nat.ceilDiv_eq_add_pred_div, Nat.ceilDiv_eq_add_pred_div]
      omega
    obtain ⟨-, hle⟩ := percentile_le_iff hv
    obtain ⟨-, hle'⟩ := percentile_le_iff hw
    exact (hle w).mpr ((max_le_max_left 1 hrank).trans ((hle' w).mp (UInt64.le_refl w)))
  · obtain ⟨hin, hle⟩ := percentile_le_iff hv
    refine ⟨hin, fun w hw => (hle w).mpr ?_⟩
    have hsome : 0 < window.samples.countP (· ≤ w) :=
      List.countP_pos_iff.mpr ⟨w, hw, decide_eq_true (UInt64.le_refl w)⟩
    simpa using hsome
  · obtain ⟨hin, hle⟩ := percentile_le_iff hv
    refine ⟨hin, fun w hw => ?_⟩
    have hcount := (hle v).mp (UInt64.le_refl v)
    rw [Nat.ceilDiv_eq_add_pred_div] at hcount
    have hhundred : min (100 : UInt8).toNat 100 = 100 := rfl
    have hall : window.samples.countP (· ≤ v) = window.samples.length := by
      have hmost : window.samples.countP (· ≤ v) ≤ window.samples.length := List.countP_le_length
      rw [hhundred, size] at hcount
      omega
    exact of_decide_eq_true (List.countP_eq_length.mp hall w hw)

theorem percentile_nearest_rank_wrapped :
    let window := [40, 10, 30, 20].foldl record (ofCapacity 3)
    window.samples = [10, 30, 20] ∧ window.percentile 34 = some 20 ∧
      IsLeast {v | v ∈ window.samples ∧ 2 ≤ window.samples.countP (· ≤ v)} 20 ∧
      window.percentile 0 = some 10 ∧ IsLeast {v | v ∈ window.samples} 10 := by
  intro window
  obtain ⟨-, -, -, hleast, -, hlow, -⟩ := percentile_nearest_rank 3 [40, 10, 30, 20]
  have hsorted : window.samples.mergeSort (· ≤ ·) = [10, 20, 30] := by
    simp [window, record, ofCapacity, size, List.mergeSort, List.MergeSort.Internal.splitInTwo]
  have hmiddle : window.percentile 34 = some 20 := by simp [percentile, hsorted, nearestRank]
  have hlowest : window.percentile 0 = some 10 := by simp [percentile, hsorted, nearestRank]
  exact ⟨rfl, hmiddle, hleast 34 20 hmiddle, hlowest, hlow 10 hlowest⟩

end LatencyWindow

end MarketDepth
