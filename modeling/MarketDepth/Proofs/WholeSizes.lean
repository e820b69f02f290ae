import MarketDepth.Proofs.SharpSums

/-! Sizes that are whole numbers. A whole number is a multiple of the grain one, so its sums are sharp as
long as they stay below two to the power of 53. -/

namespace MarketDepth

/-- The steps in the number one. -/
def unit : Nat := 2 ^ 1074

structure Whole (n : Int) (size : Float) : Prop where
  finite : size.isFinite = true
  steps : steps size = n * unit

def units (size : Float) : Int := steps size / unit

theorem unit_eq : (unit : Int) = 2 ^ 1074 := by
  have h : ∀ k, ((2 ^ k : Nat) : Int) = 2 ^ k := Int.natCast_pow 2
  exact h 1074

theorem unit_pos : (0 : Int) < unit := by
  have h : ∀ k, 0 < 2 ^ k := Nat.two_pow_pos
  exact Int.natCast_pos.mpr (h 1074)

namespace Whole

variable {n : Int} {x : Float}

theorem units (h : Whole n x) : MarketDepth.units x = n := by
  rw [MarketDepth.units, h.steps, Int.mul_ediv_cancel n unit_pos.ne']

theorem counts_iff : Whole n x ↔ Counts (n * 2 ^ 1074) x := by
  rw [← unit_eq]
  exact ⟨fun h => ⟨h.finite, h.steps⟩, fun h => ⟨h.finite, h.steps⟩⟩

theorem sharp (h : Whole n x) : Sharp (n * 2 ^ 1074) := by
  have hsteps := (counts_iff.mp h).steps
  refine ⟨?_, ?_, tolerance_le_mul_pow (by decide)⟩
  · rw [← hsteps, roundSteps_steps]
  · rw [← hsteps]
    exact fits_steps x

theorem one : Whole 1 (.ofBits 0x3FF0000000000000) :=
  ⟨by decide, by decide +kernel⟩

theorem two : Whole 2 (.ofBits 0x4000000000000000) :=
  ⟨by decide, by decide +kernel⟩

theorem neg (h : Whole n x) : Whole (-n) (-x) := by
  rw [counts_iff, Int.neg_mul]
  exact (counts_iff.mp h).neg

theorem zero : Whole 0 0 := by
  rw [counts_iff, Int.zero_mul]
  exact Counts.zero

theorem add {m : Int} {y : Float} (hx : Whole n x) (hy : Whole m y)
    (h : Sharp ((n + m) * 2 ^ 1074)) : Whole (n + m) (x + y) := by
  rw [Int.add_mul] at h
  rw [counts_iff, Int.add_mul]
  exact (counts_iff.mp hx).add (counts_iff.mp hy) h

theorem exists_of_natAbs_lt (h : n.natAbs < 2 ^ 53) : ∃ size, Whole n size := by
  have hnat : ∀ k : Nat, k < 2 ^ 53 → ∃ size, Whole k size := by
    intro k
    induction k with
    | zero => exact fun _ => ⟨0, zero⟩
    | succ k ih =>
      intro hk
      obtain ⟨size, hsize⟩ := ih (Nat.lt_of_succ_lt hk)
      exact ⟨_, hsize.add one (sharp_mul_pow (by omega) (by decide) (by decide))⟩
  rcases Int.natAbs_eq n with hn | hn
  · rw [hn]
    exact hnat _ h
  · obtain ⟨size, hsize⟩ := hnat _ h
    rw [hn]
    exact ⟨-size, hsize.neg⟩

end Whole

end MarketDepth
