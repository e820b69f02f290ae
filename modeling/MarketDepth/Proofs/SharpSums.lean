import MarketDepth.Proofs.Sums

/-! Sums of sizes that come out right. A count of steps is sharp when a size can hold it and when it is
negligible only as zero; as long as sums stay sharp, sizes add up as the counts they stand for. -/

namespace MarketDepth

open Float.Model Float.Model.UnpackedFloat

structure Sharp (n : Int) : Prop where
  held : roundSteps n = n
  fits : Fits n.natAbs
  clear : n ≠ 0 → steps tolerance ≤ n.natAbs

theorem tolerance_pos : 0 < steps tolerance := by
  decide +kernel

/-- The tolerance is two to the power of 1022 of the steps. -/
theorem tolerance_le_two_pow {i : Nat} (h : 1022 ≤ i) : steps tolerance ≤ (2 ^ i : Nat) := by
  have heq : steps tolerance = (2 ^ 1022 : Nat) := by decide +kernel
  have hle : ∀ {k}, k ≤ i → 2 ^ k ≤ 2 ^ i := Nat.pow_le_pow_right (by decide)
  exact heq.le.trans (Int.ofNat_le.mpr (hle h))

theorem exists_sign (n : Int) : ∃ s : Sign, n = s.apply n.natAbs := by
  rcases Int.natAbs_eq n with h | h
  · exact ⟨.positive, h⟩
  · exact ⟨.negative, h⟩

theorem roundSteps_mul_pow {n : Int} (h : n.natAbs < 2 ^ 53) (i : Nat) :
    roundSteps (n * 2 ^ i) = n * 2 ^ i := by
  obtain ⟨s, hs⟩ := exists_sign n
  rw [hs, apply_mul_pow, roundSteps_apply, roundBits_mul h]

theorem fits_mul_pow {n : Int} (h : n.natAbs < 2 ^ 53) {i : Nat} (hi : i ≤ 2045) :
    Fits (n * 2 ^ i).natAbs := by
  obtain ⟨s, hs⟩ := exists_sign n
  rw [hs, apply_mul_pow, natAbs_apply]
  rcases Nat.eq_zero_or_pos n.natAbs with hz | hpos
  · rw [hz, Nat.zero_mul]
    exact show Nat.log2 0 < 2098 by simp
  · have hlog := (Nat.log2_lt hpos.ne').mpr h
    rw [Fits, log2_mul_two_pow hpos.ne']
    omega

/-- A multiple of a grain that is not below the tolerance. -/
theorem tolerance_le_mul_pow {n : Int} {i : Nat} (hlo : 1022 ≤ i) (hne : n * 2 ^ i ≠ 0) :
    steps tolerance ≤ (n * 2 ^ i).natAbs := by
  have hn : n ≠ 0 := by
    rintro rfl
    exact hne (Int.zero_mul _)
  obtain ⟨s, hs⟩ := exists_sign n
  rw [hs, apply_mul_pow, natAbs_apply]
  have hle : 2 ^ i ≤ n.natAbs * 2 ^ i := Nat.le_mul_of_pos_left _ (by omega)
  exact (tolerance_le_two_pow hlo).trans (Int.ofNat_le.mpr hle)

/-- Fewer than two to the power of 53 of any grain that is not below the tolerance. -/
theorem sharp_mul_pow {n : Int} (h : n.natAbs < 2 ^ 53) {i : Nat} (hlo : 1022 ≤ i) (hhi : i ≤ 2045) :
    Sharp (n * 2 ^ i) :=
  ⟨roundSteps_mul_pow h i, fits_mul_pow h hhi, tolerance_le_mul_pow hlo⟩

/-- A finite size and the count of steps it stands for. -/
structure Counts (n : Int) (size : Float) : Prop where
  finite : size.isFinite = true
  steps : steps size = n

namespace Counts

variable {n m : Int} {x y : Float}

theorem zero : Counts 0 0 :=
  ⟨by decide, by decide⟩

theorem of_finite (h : x.isFinite = true) : Counts (MarketDepth.steps x) x :=
  ⟨h, rfl⟩

theorem neg (h : Counts n x) : Counts (-n) (-x) :=
  ⟨by rw [isFinite_float_neg, h.finite], by rw [steps_neg, h.steps]⟩

theorem add (hx : Counts n x) (hy : Counts m y) (h : Sharp (n + m)) : Counts (n + m) (x + y) := by
  have hn := float_nearest_add hx.finite hy.finite
  rw [hx.steps, hy.steps] at hn
  obtain ⟨hf, hs⟩ := hn.finite (h.held.symm ▸ h.fits)
  exact ⟨hf, hs.trans h.held⟩

theorem lt_iff (hx : Counts n x) (hy : Counts m y) : x < y ↔ n < m := by
  rw [lt_iff_steps hx.finite hy.finite, hx.steps, hy.steps]

theorem negligible_iff (hx : Counts n x) (h : Sharp n) : negligible x = true ↔ n = 0 := by
  rw [MarketDepth.negligible_iff, hx.steps]
  constructor
  · rintro ⟨-, hlt⟩
    by_contra hne
    exact (h.clear hne).not_gt hlt
  · rintro rfl
    exact ⟨hx.finite, tolerance_pos⟩

theorem position_lt (hx : Counts n x) (hy : Counts m y) (h : n < m) :
    position x.toModel.unpack < position y.toModel.unpack :=
  (position_lt_iff_steps (canonical_unpack x) (canonical_unpack y) hx.finite hy.finite).mpr
    (show MarketDepth.steps x < MarketDepth.steps y by rwa [hx.steps, hy.steps])

theorem position_le (hx : Counts n x) (hy : Counts n y) :
    position x.toModel.unpack ≤ position y.toModel.unpack := by
  by_contra hlt
  have h := (position_lt_iff_steps (canonical_unpack y) (canonical_unpack x) hy.finite
    hx.finite).mp (Int.not_le.mp hlt)
  exact h.ne (hy.steps.trans hx.steps.symm)

theorem position_ne_zero (hx : Counts n x) (hn : n ≠ 0) : position x.toModel.unpack ≠ 0 := by
  rcases Int.lt_or_gt_of_ne hn with hneg | hpos
  · exact (hx.position_lt zero hneg).ne
  · exact (zero.position_lt hx hpos).ne'

/-- Zero has two forms; any other count is that of one size. -/
theorem eq (hx : Counts n x) (hy : Counts n y) (hn : n ≠ 0) : x = y := by
  have hxne := hx.position_ne_zero hn
  have hyne := hy.position_ne_zero hn
  have hxkey := totalKey_position hx.finite
  have hykey := totalKey_position hy.finite
  have hxy := hx.position_le hy
  have hyx := hy.position_le hx
  exact totalKey_injective (by omega)

end Counts

end MarketDepth
