import MarketDepth.Json.Number
import MarketDepth.Proofs.WholeSizes

/-! Whole numbers multiplied and divided. A product of two is rounded once, and so is a quotient; the
powers of ten up to the twenty-second are held exactly. -/

namespace MarketDepth

open Float.Model Float.Model.UnpackedFloat

theorem fits_mul_unit {n : Nat} : Fits (n * unit) ↔ n < 2 ^ 1024 := by
  have hpos : ∀ k, 0 < 2 ^ k := Nat.two_pow_pos
  rcases Nat.eq_zero_or_pos n with rfl | hn
  · rw [Nat.zero_mul]
    exact iff_of_true (show Nat.log2 0 < 2098 by simp) (hpos 1024)
  · rw [← Nat.log2_lt hn.ne', Fits, unit, log2_mul_two_pow hn.ne']
    omega

theorem roundBits_mul_unit (n : Nat) : roundBits (n * unit) = roundBits n * unit :=
  roundBits_mul_two_pow n 1074

theorem div_finite (s s' : Sign) {m m' : Nat} (e e' : Int) (hm : 0 < m) (hm' : 0 < m') :
    UnpackedFloat.div binary64 (.finite s m e hm) (.finite s' m' e' hm') =
      roundWithAccuracy binary64 (s / s') (divCore binary64 m e m' e').1
        (divCore binary64 m e m' e').2.1 (divCore binary64 m e m' e').2.2 := rfl

namespace Whole

variable {a b : Nat} {x y : Float}

theorem unpack (h : Whole a x) (ha : 0 < a) :
    ∃ (m : Nat) (e : Int) (hm : 0 < m), x.toModel.unpack = .finite .positive m e hm ∧
      2 ^ 52 ≤ m ∧ m < 2 ^ 53 ∧ -53 < e ∧ m * 2 ^ (e + 1074).toNat = a * unit := by
  have hc := canonical_unpack x
  have hs := h.steps
  have hpos : unit ≤ a * unit := Nat.le_mul_of_pos_left _ ha
  have hunit := unit_pos
  rw [MarketDepth.steps] at hs
  obtain ⟨s, hx⟩ | ⟨s, m, e, hm, hx⟩ := finite_of_isFinite (u := x.toModel.unpack) h.finite
  · rw [hx] at hs
    change 0 = (a : Int) * unit at hs
    omega
  · rw [hx] at hs hc
    obtain ⟨hlt, hlo, hmin, -⟩ := hc
    rw [unpackedSteps_finite] at hs
    cases s with
    | negative =>
      change -((m * 2 ^ (e + 1074).toNat : Nat) : Int) = a * unit at hs
      omega
    | positive =>
      have hcount : m * 2 ^ (e + 1074).toNat = a * unit := Int.ofNat_inj.mp hs
      have hlarge : 1074 < 53 + (e + 1074).toNat := by
        refine (Nat.pow_lt_pow_iff_right (by decide : 1 < 2)).mp ?_
        calc 2 ^ 1074 ≤ m * 2 ^ (e + 1074).toNat := hpos.trans_eq hcount.symm
          _ < 2 ^ 53 * 2 ^ (e + 1074).toNat := Nat.mul_lt_mul_of_pos_right hlt (Nat.two_pow_pos _)
          _ = 2 ^ (53 + (e + 1074).toNat) := (Nat.pow_add 2 53 _).symm
      exact ⟨m, e, hm, hx, by omega, hlt, by omega, hcount⟩

/-- The exact product has over a hundred bits, and is rounded once. -/
theorem mul (hx : Whole a x) (hy : Whole b y) (ha : 0 < a) (hb : 0 < b) :
    Nearest ((a * b : Nat) * unit) (x * y).toModel.unpack := by
  obtain ⟨m, e, hm, hxu, hmin, hlt, he, hxs⟩ := hx.unpack ha
  obtain ⟨m', e', hm', hyu, hmin', hlt', he', hys⟩ := hy.unpack hb
  have hmm : 0 < m * m' := Nat.mul_pos hm hm'
  have hlog : 52 ≤ (m * m').log2 :=
    (Nat.le_log2 hmm.ne').mpr (hmin.trans (Nat.le_mul_of_pos_right m hm'))
  have hround := roundWithAccuracy_steps .positive hmm (show -1074 ≤ e + e' by omega)
    (by rw [targetExponent_eq]; omega)
  have hcount : m * m' * 2 ^ (e + e' + 1074).toNat = a * b * unit := by
    refine Nat.eq_of_mul_eq_mul_right (Int.natCast_pos.mp unit_pos) ?_
    have hexp : 2 ^ (e + e' + 1074).toNat * unit =
        2 ^ (e + 1074).toNat * 2 ^ (e' + 1074).toNat := by
      rw [unit, ← Nat.pow_add, ← Nat.pow_add]
      congr 1
      omega
    calc m * m' * 2 ^ (e + e' + 1074).toNat * unit
        = m * m' * (2 ^ (e + e' + 1074).toNat * unit) := Nat.mul_assoc _ _ _
      _ = m * 2 ^ (e + 1074).toNat * (m' * 2 ^ (e' + 1074).toNat) := by rw [hexp]; ring
      _ = a * b * unit * unit := by rw [hxs, hys]; ring
  rw [hcount] at hround
  have hmul : (x * y).toModel = Float.Model.pack (UnpackedFloat.mul binary64 x.toModel.unpack
      y.toModel.unpack) := rfl
  rw [hmul, hxu, hyu]
  exact hround.nearest

theorem div (hx : Whole a x) (hy : Whole b y) (ha : 0 < a) (hb : 0 < b) (hlt : b < 2 ^ 100)
    (hfits : Fits (roundQuotient (a * unit) b)) : Counts (roundQuotient (a * unit) b) (x / y) := by
  obtain ⟨m, e, hm, hxu, hmin, hxlt, he, hxs⟩ := hx.unpack ha
  obtain ⟨m', e', hm', hyu, hmin', hylt, he', hys⟩ := hy.unpack hb
  have hlog : m.log2 = 52 := (Nat.log2_eq_iff hm.ne').mpr ⟨hmin, hxlt⟩
  have hlog' : m'.log2 = 52 := (Nat.log2_eq_iff hm'.ne').mpr ⟨hmin', hylt⟩
  have hsmall : e' < 48 := by
    have hpow : 52 + (e' + 1074).toNat < 100 + 1074 := by
      refine (Nat.pow_lt_pow_iff_right (by decide : 1 < 2)).mp ?_
      calc 2 ^ (52 + (e' + 1074).toNat) = 2 ^ 52 * 2 ^ (e' + 1074).toNat := Nat.pow_add 2 52 _
        _ ≤ b * unit := (Nat.mul_le_mul_right _ hmin').trans_eq hys
        _ < 2 ^ 100 * unit := Nat.mul_lt_mul_of_pos_right hlt (Int.natCast_pos.mp unit_pos)
        _ = 2 ^ (100 + 1074) := by rw [unit, Nat.pow_add]
    omega
  have hcore : divCore binary64 m e m' e' =
      (m * 2 ^ 53 / m', e - e' - 53, accuracyOfFraction (m * 2 ^ 53 % m') m') := by
    have htarget : min (e - e') (binary64.targetExponent (totalExponent m e - totalExponent m' e')) =
        e - e' - 53 := by
      change min (e - e') (max ((m.log2 : Int) + 1 + e - (m'.log2 + 1 + e') - 53) (-1074)) = _
      omega
    have hshift : (e - e' - (e - e' - 53)).toNat = 53 := by omega
    simp only [divCore, htarget, hshift, Nat.shiftLeft_eq]
  have hq : 2 ^ 52 ≤ m * 2 ^ 53 / m' := by
    rw [Nat.le_div_iff_mul_le hm']
    omega
  have hlogq := (Nat.le_log2 (by omega)).mpr hq
  have hround := roundWithAccuracy_quotient .positive (show 0 < m * 2 ^ 53 / m' by omega)
    (show -1074 ≤ e - e' - 53 by omega) (by rw [targetExponent_eq]; omega)
  have hcount : roundQuotient (m * 2 ^ 53 * 2 ^ (e - e' - 53 + 1074).toNat) m' =
      roundQuotient (a * unit) b := by
    refine roundQuotient_congr hm' hb (Nat.eq_of_mul_eq_mul_right (Int.natCast_pos.mp unit_pos) ?_)
    have hexp : 2 ^ 53 * 2 ^ (e - e' - 53 + 1074).toNat * 2 ^ (e' + 1074).toNat =
        2 ^ (e + 1074).toNat * unit := by
      rw [unit, ← Nat.pow_add, ← Nat.pow_add, ← Nat.pow_add]
      congr 1
      omega
    calc m * 2 ^ 53 * 2 ^ (e - e' - 53 + 1074).toNat * b * unit
        = m * (2 ^ 53 * 2 ^ (e - e' - 53 + 1074).toNat) * (b * unit) := by ring
      _ = m * m' * (2 ^ 53 * 2 ^ (e - e' - 53 + 1074).toNat * 2 ^ (e' + 1074).toNat) := by
        rw [← hys]; ring
      _ = m * 2 ^ (e + 1074).toNat * m' * unit := by rw [hexp]; ring
      _ = a * unit * m' * unit := by rw [hxs]
  rw [hcount] at hround
  have hdiv : (x / y).toModel = Float.Model.pack (UnpackedFloat.div binary64 x.toModel.unpack
      y.toModel.unpack) := rfl
  have hdivu : UnpackedFloat.div binary64 x.toModel.unpack y.toModel.unpack =
      roundWithAccuracy binary64 .positive (m * 2 ^ 53 / m') (e - e' - 53)
        (accuracyOfFraction (m * 2 ^ 53 % m') m') := by
    rw [hxu, hyu, div_finite, hcore]
    rfl
  obtain ⟨hf, hs⟩ := hround.finite hfits
  rw [← hdivu, ← hdiv] at hf hs
  exact ⟨hf, hs⟩

theorem of_nearest {n : Nat} (h : Nearest ((n : Int) * unit) x.toModel.unpack)
    (hn : roundBits n < 2 ^ 1024) : Whole (roundBits n) x := by
  have hround : roundSteps ((n : Int) * unit) = (roundBits n * unit : Nat) := by
    have := roundSteps_apply .positive (n * unit)
    rwa [roundBits_mul_unit] at this
  obtain ⟨hf, hs⟩ := h.finite (by rw [hround]; exact fits_mul_unit.mpr hn)
  exact ⟨hf, hs.trans hround⟩

/-- A whole number of sixty-four bits, rounded to those that a number has. -/
theorem ofNat {n : Nat} (h : n < 2 ^ 64) : Whole (roundBits n) n.toUInt64.toFloat := by
  have hn : n.toUInt64.toNat = n := Nat.mod_eq_of_lt h
  have hnear := nearest_normalize n.toUInt64.toNat (show (-1074 : Int) ≤ 0 by decide) .positive
  have hexp : ((0 : Int) + 1074).toNat = 1074 := rfl
  rw [hexp, ← unit_eq] at hnear
  have hlt : roundBits n < 2 ^ 1024 := by
    calc roundBits n ≤ roundBits (2 ^ 64) := roundBits_mono h.le
      _ < 2 ^ 1024 := by decide +kernel
  have hfloat := of_nearest (x := n.toUInt64.toFloat) hnear (by rwa [hn])
  rwa [hn] at hfloat

end Whole

/-- The powers of ten by which numerals are scaled. -/
theorem whole_powerOfTen {n : Nat} (h : n ≤ 308) :
    Whole (roundBits (10 ^ n)) (Numeral.powerOfTen n) := by
  by_cases hn : n < 23
  · have hall : ∀ n < 23, (Numeral.powerOfTen n).isFinite = true ∧
        steps (Numeral.powerOfTen n) = (roundBits (10 ^ n) : Nat) * unit := by decide +kernel
    exact ⟨(hall n hn).1, (hall n hn).2⟩
  · have hpos : 0 < 2 ^ 53 * 10 ^ n := Nat.mul_pos (Nat.two_pow_pos 53) (Nat.pow_pos (by decide))
    have hlog : 53 ≤ (2 ^ 53 * 10 ^ n).log2 :=
      (Nat.le_log2 hpos.ne').mpr (Nat.le_mul_of_pos_right _ (Nat.pow_pos (by decide)))
    have hround := roundWithAccuracy_steps .positive hpos (show (-1074 : Int) ≤ -53 by decide)
      (by rw [targetExponent_eq]; omega)
    have hcount : 2 ^ 53 * 10 ^ n * 2 ^ ((-53 : Int) + 1074).toNat = 10 ^ n * unit := by
      have hexp : ((-53 : Int) + 1074).toNat = 1021 := rfl
      have hpow : ∀ {i j k : Nat}, i + j = k → 2 ^ i * 2 ^ j = 2 ^ k := by
        rintro i j _ rfl
        exact (Nat.pow_add 2 i j).symm
      have hunit : 2 ^ 53 * 2 ^ 1021 = unit := hpow rfl
      rw [hexp, ← hunit, Nat.mul_comm (2 ^ 53), Nat.mul_assoc]
    have hmodel : (Numeral.powerOfTen n).toModel = Float.Model.pack
        (roundWithAccuracy binary64 .positive (2 ^ 53 * 10 ^ n) (-53) .exact) := by
      rw [Numeral.powerOfTen, Float.ofScientific, dif_neg (by omega)]
      change Float.Model.pack (UnpackedFloat.ofScientific binary64 1 (n : Int)) = _
      refine congrArg Float.Model.pack ?_
      unfold UnpackedFloat.ofScientific
      rw [dif_neg (by decide), if_neg, if_neg, if_pos]
      · change roundWithAccuracy binary64 .positive (1 <<< 53 * 10 ^ n) (-53) .exact = _
        rw [Nat.one_shiftLeft]
      · omega
      · change ¬ (n : Int) < -(2 ^ 11 + (Nat.log2 1 : Nat))
        omega
      · change ¬ (n : Int) > 2 ^ 11
        omega
    have hnear : Nearest ((10 ^ n : Nat) * unit) (Numeral.powerOfTen n).toModel.unpack := by
      rw [hcount] at hround
      rw [hmodel, ← Int.natCast_mul]
      exact hround.nearest
    refine .of_nearest hnear ?_
    calc roundBits (10 ^ n) ≤ roundBits (10 ^ 308) :=
          roundBits_mono (Nat.pow_le_pow_right (by decide) h)
      _ < 2 ^ 1024 := by decide +kernel

/-- Packing drops what does not fit, but never makes up something that is not a number. -/
theorem isNaN_unpack_pack {u : UnpackedFloat} (h : u.isNaN = false) :
    (Float.Model.pack u).unpack.isNaN = false := by
  cases u with
  | notANumber => cases h
  | infinity s => cases s <;> rfl
  | zero s => cases s <;> rfl
  | finite s m e hm =>
    have hcomponents : ∀ {q : BitVec 11} {r : BitVec 52}, q.toNat ≠ 2047 →
        UnpackedFloat.pack binary64 (.finite s m e hm) = packComponents binary64 s q r →
        (Float.Model.pack (.finite s m e hm)).unpack.isNaN = false := by
      intro q r hq hp
      change (UnpackedFloat.unpack binary64 (UnpackedFloat.pack binary64 _)).isNaN = false
      rw [hp, unpack_eq_decode, toNat_packComponents]
      refine isNaN_unpacked_of_isFinite ((decode_isFinite _ _).mpr ?_)
      have hqlt := q.isLt
      have hrlt := r.isLt
      cases s <;> simp only [Sign.toBitVec] <;> simp <;> omega
    by_cases hlarge :
        2 ^ 11 ≤ (e + binary64.exponentBias + binary64.mantissaBitsWithoutImplicit).toNat + 1
    · have hp : UnpackedFloat.pack binary64 (.finite s m e hm) =
          UnpackedFloat.pack binary64 (.infinity s) := by
        unfold UnpackedFloat.pack
        exact if_pos hlarge
      rw [pack_congr hp]
      cases s <;> rfl
    · by_cases hfull : m.log2 + 1 = binary64.mantissaBits
      · refine hcomponents ?_ ((if_neg hlarge).trans (if_pos hfull))
        rw [BitVec.toNat_ofNat]
        exact ((Nat.mod_le _ _).trans_lt (by omega)).ne
      · exact hcomponents (by decide) ((if_neg hlarge).trans (if_neg hfull))

theorem isNaN_roundWithAccuracy (s : Sign) (m : Nat) (e : Int) (a : Accuracy) :
    (roundWithAccuracy binary64 s m e a).isNaN = false := by
  rcases hshift : shiftToTargetExponent binary64 m e a with ⟨em, t⟩
  rcases hagain : shiftToTargetExponent binary64 em.roundedMantissa t .exact with ⟨em', t'⟩
  rcases Nat.eq_zero_or_pos em'.mantissa with hz | hpos
  · have hzero : roundWithAccuracy binary64 s m e a = .zero s := by
      unfold roundWithAccuracy
      rw [hshift]
      dsimp only
      rw [hagain]
      exact dif_pos hz
    rw [hzero]
    rfl
  · rw [roundWithAccuracy_of_shifts hshift hagain s hpos]
    rfl

theorem isNaN_div {u : UnpackedFloat} (hu : u.isNaN = false) (s : Sign) (m : Nat) (e : Int)
    (hm : 0 < m) : (UnpackedFloat.div binary64 u (.finite s m e hm)).isNaN = false := by
  cases u with
  | notANumber => cases hu
  | infinity s' => rfl
  | zero s' => rfl
  | finite s' m' e' hm' =>
    rw [div_finite]
    exact isNaN_roundWithAccuracy ..

end MarketDepth
