import MarketDepth.Proofs.Binary64

/-! Sums and differences of numbers: the exact count of steps, rounded. Rounding keeps the order of
the counts, so a number between two near ones is near both. -/

namespace MarketDepth

open Float.Model Float.Model.UnpackedFloat

/-- What is known of a quotient of which only some leading bits were kept: the whole part of it over
the steps that are left, whether the rest reaches a half, and whether it is neither nothing nor just a
half. -/
structure Dropped (n d : Nat) (em : ExtendedMantissa) : Prop where
  mantissa : em.mantissa = n / d
  roundBit : em.roundBit = true ↔ d ≤ 2 * (n % d)
  stickyBit : em.stickyBit = true ↔ 2 * (n % d) ≠ 0 ∧ 2 * (n % d) ≠ d

theorem dropped_start {n d : Nat} (hd : 0 < d) :
    Dropped n d (ExtendedMantissa.ofMantissaAndAccuracy (n / d) (accuracyOfFraction (n % d) d)) := by
  unfold accuracyOfFraction
  by_cases hz : n % d = 0
  · rw [if_pos hz]
    constructor <;> simp [ExtendedMantissa.ofMantissaAndAccuracy, hz, hd.ne']
  · rw [if_neg hz]
    rcases lt_trichotomy (2 * (n % d)) d with h | h | h
    · rw [Nat.compare_eq_lt.mpr h]
      refine ⟨rfl, ?_, ?_⟩ <;> simp [ExtendedMantissa.ofMantissaAndAccuracy] <;> omega
    · rw [Nat.compare_eq_eq.mpr h]
      refine ⟨rfl, ?_, ?_⟩ <;> simp [ExtendedMantissa.ofMantissaAndAccuracy] <;> omega
    · rw [Nat.compare_eq_gt.mpr h]
      refine ⟨rfl, ?_, ?_⟩ <;> simp [ExtendedMantissa.ofMantissaAndAccuracy] <;> omega

theorem Dropped.shiftRightOne {n d : Nat} {em : ExtendedMantissa} (h : Dropped n d em) (hd : 0 < d) :
    Dropped n (d * 2) em.shiftRightOne := by
  obtain ⟨hm, hr, hs⟩ := h
  have hlt := Nat.mod_lt n hd
  have hmod : n % (d * 2) = n % d + d * (n / d % 2) := Nat.mod_mul
  have hbit : n / d % 2 = 0 ∨ n / d % 2 = 1 := Nat.mod_two_eq_zero_or_one _
  refine ⟨?_, ?_, ?_⟩
  · simp only [ExtendedMantissa.shiftRightOne, hm, Nat.div_div_eq_div_mul]
  · simp only [ExtendedMantissa.shiftRightOne, hm, bne_iff_ne]
    rcases hbit with h | h <;> rw [h] at hmod ⊢ <;> omega
  · simp only [ExtendedMantissa.shiftRightOne, Bool.or_eq_true, hr, hs]
    rcases hbit with h | h <;> rw [h] at hmod <;> omega

theorem dropped_shift (n : Nat) {d : Nat} (hd : 0 < d) (j : Nat) :
    Dropped n (d * 2 ^ j)
      (ExtendedMantissa.ofMantissaAndAccuracy (n / d) (accuracyOfFraction (n % d) d) >>> j) := by
  change Dropped n (d * 2 ^ j) (j.repeat ExtendedMantissa.shiftRightOne _)
  induction j with
  | zero =>
    rw [Nat.pow_zero, Nat.mul_one]
    exact dropped_start hd
  | succ j ih =>
    rw [Nat.pow_succ, ← Nat.mul_assoc]
    exact ih.shiftRightOne (Nat.mul_pos hd (Nat.two_pow_pos j))

theorem Dropped.rounded {n d : Nat} {em : ExtendedMantissa} (h : Dropped n d em) (hd : 0 < d) :
    em.roundedMantissa = nearestQuotient n d := by
  obtain ⟨hm, hr, hs⟩ := h
  obtain ⟨q, r, s⟩ := em
  have hlt := Nat.mod_lt n hd
  simp only at hm hr hs
  subst hm
  unfold nearestQuotient
  cases r <;> cases s <;>
    simp only [ExtendedMantissa.roundedMantissa, ExtendedMantissa.accuracy,
      Accuracy.roundToNearestEven, Bool.false_eq_true, false_iff, true_iff] at hr hs ⊢ <;>
    split_ifs <;> omega

theorem targetExponent_eq (m : Nat) (e : Int) :
    binary64.targetExponent (totalExponent m e) = max (m.log2 + e - 52) (-1074) := by
  change max ((m.log2 : Int) + 1 + e - 53) (-1074) = _
  congr 1
  omega

theorem shiftToTarget_of_lt {m : Nat} {e : Int} (hm : m < 2 ^ 53) (he : -1074 ≤ e) :
    shiftToTargetExponent binary64 m e .exact = (⟨m, false, false⟩, e) := by
  have hlog : m.log2 ≤ 52 := by
    rcases Nat.eq_zero_or_pos m with rfl | h
    · simp
    · have := (Nat.log2_lt h.ne').mpr hm
      omega
  have hz : (binary64.targetExponent (totalExponent m e) - e).toNat = 0 := by
    rw [targetExponent_eq]
    omega
  simp only [shiftToTargetExponent, shiftToExponent, hz]
  simp [HShiftRight.hShiftRight, Nat.repeat, ExtendedMantissa.ofMantissaAndAccuracy]

/-- A significand that was rounded up to a power of two loses a bit that is zero. -/
theorem shiftToTarget_two_pow {e : Int} (he : -1074 ≤ e) :
    shiftToTargetExponent binary64 (2 ^ 53) e .exact = (⟨2 ^ 52, false, false⟩, e + 1) := by
  have hone : (binary64.targetExponent (totalExponent (2 ^ 53) e) - e).toNat = 1 := by
    rw [targetExponent_eq, Nat.log2_two_pow]
    omega
  simp only [shiftToTargetExponent, shiftToExponent, hone]
  rfl

theorem roundWithAccuracy_of_shifts {m : Nat} {e t t' : Int} {a : Accuracy}
    {em em' : ExtendedMantissa} (h : shiftToTargetExponent binary64 m e a = (em, t))
    (h' : shiftToTargetExponent binary64 em.roundedMantissa t .exact = (em', t'))
    (s : Sign) (hpos : 0 < em'.mantissa) :
    roundWithAccuracy binary64 s m e a = .finite s em'.mantissa t' hpos := by
  unfold roundWithAccuracy
  rw [h]
  dsimp only
  rw [h']
  exact dif_neg hpos.ne'

/-- A finite number with the given sign, as the format writes it but for the largest exponent, that
stands for a count of steps. -/
def Rounded (s : Sign) (n : Nat) (u : UnpackedFloat) : Prop :=
  ∃ (m : Nat) (e : Int) (hm : 0 < m), u = .finite s m e hm ∧
    m < 2 ^ 53 ∧ -1074 ≤ e ∧ (2 ^ 52 ≤ m ∨ e = -1074) ∧ m * 2 ^ (e + 1074).toNat = n

theorem log2_mul_two_pow_div {n d : Nat} (h : 0 < n / d) (i : Nat) :
    (n * 2 ^ i / d).log2 = (n / d).log2 + i := by
  have hd : 0 < d := Nat.pos_of_ne_zero (by rintro rfl; simp at h)
  have hlo := (Nat.le_div_iff_mul_le hd).mp (Nat.log2_self_le h.ne')
  have hhi : n < 2 ^ ((n / d).log2 + 1) * d := (Nat.div_lt_iff_lt_mul hd).mp Nat.lt_log2_self
  have hpos : 0 < 2 ^ i := Nat.two_pow_pos i
  have hge : 2 ^ ((n / d).log2 + i) ≤ n * 2 ^ i / d := by
    rw [Nat.le_div_iff_mul_le hd, Nat.pow_add, Nat.mul_right_comm]
    exact Nat.mul_le_mul_right _ hlo
  refine (Nat.log2_eq_iff (by have := Nat.two_pow_pos ((n / d).log2 + i); omega)).mpr ⟨hge, ?_⟩
  rw [Nat.div_lt_iff_lt_mul hd, Nat.add_right_comm, Nat.pow_add, Nat.mul_right_comm]
  exact Nat.mul_lt_mul_of_pos_right hhi hpos

/-- The whole part of a quotient, rounded in view of what is left over. -/
theorem roundWithAccuracy_quotient (s : Sign) {n d : Nat} (hq : 0 < n / d) {e : Int}
    (he : -1074 ≤ e) (ht : e ≤ binary64.targetExponent (totalExponent (n / d) e)) :
    Rounded s (roundQuotient (n * 2 ^ (e + 1074).toNat) d)
      (roundWithAccuracy binary64 s (n / d) e (accuracyOfFraction (n % d) d)) := by
  have hd : 0 < d := Nat.pos_of_ne_zero (by rintro rfl; simp at hq)
  have hlog := log2_mul_two_pow_div hq (e + 1074).toNat
  have htarget : binary64.targetExponent (totalExponent (n / d) e) =
      (surplus (n * 2 ^ (e + 1074).toNat / d) : Nat) - 1074 := by
    rw [targetExponent_eq, surplus, hlog]
    omega
  have hpos : 0 < n * 2 ^ (e + 1074).toNat / d :=
    hq.trans_le (Nat.div_le_div_right (Nat.le_mul_of_pos_right n (Nat.two_pow_pos _)))
  obtain ⟨j, hj⟩ : ∃ j, surplus (n * 2 ^ (e + 1074).toNat / d) = (e + 1074).toNat + j :=
    Nat.exists_eq_add_of_le (by omega)
  have hr : nearestQuotient (n * 2 ^ (e + 1074).toNat)
      (d * 2 ^ surplus (n * 2 ^ (e + 1074).toNat / d)) = nearestQuotient n (d * 2 ^ j) := by
    rw [hj, Nat.pow_add, Nat.mul_comm (2 ^ (e + 1074).toNat) (2 ^ j), ← Nat.mul_assoc,
      nearestQuotient_mul_mul _ _ (Nat.two_pow_pos _)]
  have hrpos := nearestQuotient_surplus_pos hpos
  have hrle := nearestQuotient_surplus_le (n * 2 ^ (e + 1074).toNat) d
  have hrmin : surplus (n * 2 ^ (e + 1074).toNat / d) ≠ 0 → _ := le_nearestQuotient_surplus
  unfold roundQuotient
  rw [hr] at hrpos hrle hrmin ⊢
  generalize surplus (n * 2 ^ (e + 1074).toNat / d) = k at *
  have hfirst : shiftToTargetExponent binary64 (n / d) e (accuracyOfFraction (n % d) d) =
      (ExtendedMantissa.ofMantissaAndAccuracy (n / d) (accuracyOfFraction (n % d) d) >>> j,
        (k : Int) - 1074) := by
    have hshift : ((k : Int) - 1074 - e).toNat = j := by omega
    simp only [shiftToTargetExponent, shiftToExponent, htarget, hshift]
    congr 1
    omega
  have hrounded := (dropped_shift n hd j).rounded (Nat.mul_pos hd (Nat.two_pow_pos j))
  rcases hrle.lt_or_eq with hlt | hcarry
  · have hsecond := shiftToTarget_of_lt hlt (show -1074 ≤ (k : Int) - 1074 by omega)
    rw [← hrounded] at hsecond
    refine ⟨nearestQuotient n (d * 2 ^ j), k - 1074, hrpos, ?_, hlt, by omega, ?_, ?_⟩
    · rw [roundWithAccuracy_of_shifts hfirst hsecond s (hrounded ▸ hrpos)]
      exact finite_congr rfl hrounded rfl
    · by_cases hk : k = 0
      · exact .inr (by omega)
      · exact .inl (hrmin hk)
    · congr 2
      omega
  · have hsecond := shiftToTarget_two_pow (show -1074 ≤ (k : Int) - 1074 by omega)
    rw [← hcarry, ← hrounded] at hsecond
    refine ⟨2 ^ 52, k - 1074 + 1, Nat.two_pow_pos 52, ?_, by decide, by omega, .inl le_rfl, ?_⟩
    · exact roundWithAccuracy_of_shifts hfirst hsecond s (Nat.two_pow_pos 52)
    · rw [hcarry, ← Nat.pow_add, ← Nat.pow_add]
      congr 1
      omega

theorem roundWithAccuracy_steps (s : Sign) {m : Nat} (hm : 0 < m) {e : Int} (he : -1074 ≤ e)
    (ht : e ≤ binary64.targetExponent (totalExponent m e)) :
    Rounded s (roundBits (m * 2 ^ (e + 1074).toNat)) (roundWithAccuracy binary64 s m e .exact) := by
  have hone : m / 1 = m := Nat.div_one m
  have h := roundWithAccuracy_quotient s (hm.trans_eq hone.symm) he (by rwa [hone])
  rwa [roundQuotient_one, hone, Nat.mod_one] at h

/-- Rounding a number that is a whole count of steps rounds that count. -/
theorem round_steps (s : Sign) {m : Nat} (hm : 0 < m) {e : Int} (he : -1074 ≤ e) :
    Rounded s (roundBits (m * 2 ^ (e + 1074).toNat)) (UnpackedFloat.round binary64 s m e) := by
  obtain ⟨i, hi⟩ : ∃ i, i = (e - binary64.targetExponent (totalExponent m e)).toNat := ⟨_, rfl⟩
  have htarget := targetExponent_eq m e
  have hlow : -1074 ≤ e - i := by omega
  have hpos : 0 < m * 2 ^ i := Nat.mul_pos hm (Nat.two_pow_pos i)
  have hstart : UnpackedFloat.round binary64 s m e =
      roundWithAccuracy binary64 s (m * 2 ^ i) (e - i) .exact := by
    unfold UnpackedFloat.round decreaseExponent
    simp only [← hi, Nat.shiftLeft_eq]
  have hcount : m * 2 ^ (e + 1074).toNat = m * 2 ^ i * 2 ^ (e - i + 1074).toNat := by
    rw [Nat.mul_assoc, ← Nat.pow_add]
    congr 2
    omega
  rw [hstart, hcount]
  refine roundWithAccuracy_steps s hpos hlow ?_
  rw [targetExponent_eq, log2_mul_two_pow hm.ne']
  omega

def Fits (n : Nat) : Prop := n.log2 < 2098

theorem fits_iff {m : Nat} {e : Int} (hm : 0 < m) (h : m < 2 ^ 53) (hlo : -1074 ≤ e)
    (hmin : 2 ^ 52 ≤ m ∨ e = -1074) : Fits (m * 2 ^ (e + 1074).toNat) ↔ e ≤ 971 := by
  have hlog : m.log2 < 53 := (Nat.log2_lt hm.ne').mpr h
  rw [Fits, log2_mul_two_pow hm.ne']
  rcases hmin with hmin | rfl
  · have hge := (Nat.le_log2 hm.ne').mpr hmin
    omega
  · omega

theorem Fits.mono {n m : Nat} (h : Fits m) (hle : n ≤ m) : Fits n := by
  unfold Fits at *
  rcases Nat.eq_zero_or_pos n with rfl | hn
  · simp
  · have hlog : n.log2 ≤ m.log2 :=
      (Nat.le_log2 (by omega)).mpr ((Nat.log2_self_le hn.ne').trans hle)
    omega

theorem fits_steps (x : Float) : Fits (steps x).natAbs := by
  have hc := canonical_unpack x
  unfold steps
  cases hu : x.toModel.unpack with
  | finite s m e hm =>
    rw [hu] at hc
    rw [unpackedSteps_finite, natAbs_apply]
    exact (fits_iff hm hc.1 hc.2.1 hc.2.2.1).mpr hc.2.2.2
  | _ => exact show Nat.log2 0 < 2098 by simp

/-- What a count of steps is rounded to, on both sides of zero. -/
def roundSteps (n : Int) : Int := n.sign * roundBits n.natAbs

theorem roundSteps_apply (s : Sign) (n : Nat) : roundSteps (s.apply n) = s.apply (roundBits n) := by
  rcases Nat.eq_zero_or_pos n with rfl | hn
  · rw [roundBits_eq_self (by decide)]
    cases s <;> rfl
  · have hpos : (n : Int).sign = 1 := Int.sign_eq_one_of_pos (by omega)
    rw [roundSteps, natAbs_apply]
    cases s <;> simp [Sign.apply, hpos]

theorem roundSteps_zero : roundSteps 0 = 0 := by
  rw [roundSteps, Int.sign_zero, Int.zero_mul]

theorem roundSteps_steps (x : Float) : roundSteps (steps x) = steps x := by
  have hc := canonical_unpack x
  unfold steps
  cases hu : x.toModel.unpack with
  | finite s m e hm =>
    rw [hu] at hc
    rw [unpackedSteps_finite, roundSteps_apply, roundBits_mul hc.1]
  | _ => exact roundSteps_zero

theorem natAbs_roundSteps (n : Int) : (roundSteps n).natAbs = roundBits n.natAbs := by
  rcases Int.natAbs_eq n with h | h
  · have := roundSteps_apply .positive n.natAbs
    rw [show Sign.apply .positive (n.natAbs : Int) = n from h.symm] at this
    rw [this, natAbs_apply]
  · have := roundSteps_apply .negative n.natAbs
    rw [show Sign.apply .negative (n.natAbs : Int) = n from h.symm] at this
    rw [this, natAbs_apply]

theorem apply_mul_pow (s : Sign) (m k : Nat) : s.apply m * 2 ^ k = s.apply (m * 2 ^ k : Nat) := by
  cases s <;> simp [Sign.apply]

theorem normalize_of_ne_zero {m : Int} (hm : m ≠ 0) (e : Int) (z : Sign) :
    ∃ s : Sign, m = s.apply m.natAbs ∧
      UnpackedFloat.normalize binary64 m e z = UnpackedFloat.round binary64 s m.natAbs e := by
  rcases lt_or_gt_of_ne hm with h | h
  · refine ⟨.negative, by simp only [Sign.apply]; omega, ?_⟩
    simp only [UnpackedFloat.normalize, Int.compare_eq_lt.mpr h]
    congr 1
    omega
  · refine ⟨.positive, by simp only [Sign.apply]; omega, ?_⟩
    simp only [UnpackedFloat.normalize, Int.compare_eq_gt.mpr h]
    congr 1
    omega

/-- A number that stands for a count of steps: the rounded count, or an infinity in place of one that
is too large. -/
structure Nearest (n : Int) (u : UnpackedFloat) : Prop where
  finite : Fits (roundSteps n).natAbs → u.isFinite = true ∧ unpackedSteps u = roundSteps n
  infinite : ¬ Fits (roundSteps n).natAbs → ∃ s, u = .infinity s

theorem Rounded.finite {s : Sign} {n : Nat} {u : UnpackedFloat} (h : Rounded s n u) (hn : Fits n) :
    (Float.Model.pack u).unpack.isFinite = true ∧
      unpackedSteps (Float.Model.pack u).unpack = s.apply n := by
  obtain ⟨m, e, hm, rfl, hlt, hlo, hmin, rfl⟩ := h
  have hc : Canonical (.finite s m e hm) := ⟨hlt, hlo, hmin, (fits_iff hm hlt hlo hmin).mp hn⟩
  rw [unpack_pack hc]
  exact ⟨rfl, rfl⟩

theorem Rounded.infinite {s : Sign} {n : Nat} {u : UnpackedFloat} (h : Rounded s n u)
    (hn : ¬ Fits n) : (Float.Model.pack u).unpack = .infinity s := by
  obtain ⟨m, e, hm, rfl, hlt, hlo, hmin, rfl⟩ := h
  rw [fits_iff hm hlt hlo hmin] at hn
  rw [pack_infinite (by omega), unpack_pack (u := .infinity s) trivial]

theorem Rounded.nearest {s : Sign} {n : Nat} {u : UnpackedFloat} (h : Rounded s (roundBits n) u) :
    Nearest (s.apply n) (Float.Model.pack u).unpack := by
  constructor <;> rw [roundSteps_apply, natAbs_apply]
  · exact h.finite
  · exact fun hn => ⟨s, h.infinite hn⟩

theorem nearest_round (s : Sign) {m : Nat} (hm : 0 < m) {e : Int} (he : -1074 ≤ e) :
    Nearest (s.apply m * 2 ^ (e + 1074).toNat)
      (Float.Model.pack (UnpackedFloat.round binary64 s m e)).unpack := by
  rw [apply_mul_pow]
  exact (round_steps s hm he).nearest

theorem nearest_zero (z : Sign) : Nearest 0 (.zero z) :=
  ⟨fun _ => ⟨rfl, rfl⟩, fun h => absurd (show Nat.log2 0 < 2098 by simp) h⟩

theorem nearest_normalize (m : Int) {e : Int} (he : -1074 ≤ e) (z : Sign) :
    Nearest (m * 2 ^ (e + 1074).toNat)
      (Float.Model.pack (UnpackedFloat.normalize binary64 m e z)).unpack := by
  rcases eq_or_ne m 0 with rfl | hm
  · rw [Int.zero_mul]
    have hz : (Float.Model.pack (.zero z)).unpack = .zero z := unpack_pack trivial
    exact hz ▸ nearest_zero z
  · obtain ⟨s, hs, hr⟩ := normalize_of_ne_zero hm e z
    rw [hr, hs, natAbs_apply]
    exact nearest_round s (by omega) he

theorem Canonical.nearest {u : UnpackedFloat} (h : Canonical u) (hf : u.isFinite = true) :
    Nearest (unpackedSteps u) u := by
  obtain ⟨s, rfl⟩ | ⟨s, m, e, hm, rfl⟩ := finite_of_isFinite hf
  · exact nearest_zero s
  · obtain ⟨hlt, hlo, hmin, hhi⟩ := h
    have hn : roundSteps (s.apply (m * 2 ^ (e + 1074).toNat : Nat)) =
        s.apply (m * 2 ^ (e + 1074).toNat : Nat) := by rw [roundSteps_apply, roundBits_mul hlt]
    refine ⟨fun _ => ⟨rfl, hn.symm⟩, fun hfits => absurd ?_ hfits⟩
    rw [unpackedSteps_finite, hn, natAbs_apply]
    exact (fits_iff hm hlt hlo hmin).mpr hhi

theorem decreaseExponent_steps {s : Sign} {m : Nat} {e t : Int} (h : t ≤ e) (ht : -1074 ≤ t) :
    s.apply ((decreaseExponent m e t).1 : Int) * 2 ^ (t + 1074).toNat =
      s.apply (m * 2 ^ (e + 1074).toNat : Nat) := by
  have hk : (e + 1074).toNat = (e - t).toNat + (t + 1074).toNat := by omega
  rw [apply_mul_pow, decreaseExponent, Nat.shiftLeft_eq, Nat.mul_assoc, ← Nat.pow_add, hk]

theorem nearest_add {x y : UnpackedFloat} (hx : Canonical x) (hy : Canonical y)
    (hxf : x.isFinite = true) (hyf : y.isFinite = true) :
    Nearest (unpackedSteps x + unpackedSteps y)
      (Float.Model.pack (UnpackedFloat.add binary64 x y)).unpack := by
  obtain ⟨s, rfl⟩ | ⟨s, m, e, hm, rfl⟩ := finite_of_isFinite hxf <;>
    obtain ⟨s', rfl⟩ | ⟨s', m', e', hm', rfl⟩ := finite_of_isFinite hyf
  · have hz : ∃ z, UnpackedFloat.add binary64 (.zero s) (.zero s') = .zero z := by
      cases s <;> cases s' <;> exact ⟨_, rfl⟩
    obtain ⟨z, hz⟩ := hz
    rw [hz, unpack_pack (u := .zero z) trivial]
    exact nearest_zero z
  · change Nearest (0 + _) (Float.Model.pack (.finite s' m' e' hm')).unpack
    rw [unpack_pack hy, Int.zero_add]
    exact hy.nearest rfl
  · change Nearest (_ + 0) (Float.Model.pack (.finite s m e hm)).unpack
    rw [unpack_pack hx, Int.add_zero]
    exact hx.nearest rfl
  · have hlo : -1074 ≤ min e e' := le_min hx.2.1 hy.2.1
    rw [unpackedSteps_finite, unpackedSteps_finite,
      ← decreaseExponent_steps (min_le_left e e') hlo,
      ← decreaseExponent_steps (min_le_right e e') hlo, ← Int.add_mul]
    exact nearest_normalize _ hlo .positive

theorem sub_eq_add_neg (x y : UnpackedFloat) :
    UnpackedFloat.sub binary64 x y = UnpackedFloat.add binary64 x y.neg := by
  cases x <;> cases y <;> try rfl
  next s m e hm s' m' e' hm' =>
    have hneg : ∀ a b : Int, s.apply a - s'.apply b = s.apply a + (-s').apply b := by
      intro a b
      rw [apply_neg, Int.sub_eq_add_neg]
    exact congrArg (UnpackedFloat.normalize binary64 · (min e e') .positive) (hneg _ _)

theorem float_nearest_add {x y : Float} (hx : x.isFinite = true) (hy : y.isFinite = true) :
    Nearest (steps x + steps y) (x + y).toModel.unpack :=
  nearest_add (canonical_unpack x) (canonical_unpack y) hx hy

theorem float_nearest_sub {x y : Float} (hx : x.isFinite = true) (hy : y.isFinite = true) :
    Nearest (steps x - steps y) (x - y).toModel.unpack := by
  have h := nearest_add (canonical_unpack x) (canonical_neg (canonical_unpack y)) hx
    (by rw [isFinite_neg]; exact hy)
  rw [unpackedSteps_neg, ← sub_eq_add_neg] at h
  exact h

theorem isFinite_of_add {u v : UnpackedFloat} (h : (UnpackedFloat.add binary64 u v).isFinite = true) :
    u.isFinite = true ∧ v.isFinite = true := by
  cases u with
  | notANumber => cases v <;> cases h
  | infinity s =>
    cases v with
    | infinity s' =>
      cases s <;> cases s' <;> cases h
    | _ => cases h
  | zero s => cases v <;> first | exact ⟨rfl, rfl⟩ | cases h
  | finite s m e hm => cases v <;> first | exact ⟨rfl, rfl⟩ | cases h

theorem isFinite_of_sub {x y : Float} (h : (x - y).isFinite = true) :
    x.isFinite = true ∧ y.isFinite = true := by
  have hf : (UnpackedFloat.sub binary64 x.toModel.unpack y.toModel.unpack).isFinite = true :=
    isFinite_of_pack h
  rw [sub_eq_add_neg] at hf
  have hxy := isFinite_of_add hf
  rwa [isFinite_neg] at hxy

theorem isFinite_tolerance : tolerance.isFinite = true := by
  decide

theorem negligible_iff (x : Float) :
    negligible x = true ↔ x.isFinite = true ∧ ((steps x).natAbs : Int) < steps tolerance := by
  rw [negligible, decide_eq_true_iff]
  constructor
  · intro h
    have hx := isFinite_of_abs_lt isFinite_tolerance h
    rw [lt_iff_steps (by rwa [isFinite_float_abs]) isFinite_tolerance, steps_abs] at h
    exact ⟨hx, h⟩
  · rintro ⟨hx, h⟩
    rwa [lt_iff_steps (by rwa [isFinite_float_abs]) isFinite_tolerance, steps_abs]

theorem near_iff (a b : Float) :
    near a b = true ↔ a.isFinite = true ∧ b.isFinite = true ∧
      (roundBits (steps a - steps b).natAbs : Int) < steps tolerance := by
  change negligible (a - b) = true ↔ _
  rw [negligible_iff, ← natAbs_roundSteps]
  constructor
  · rintro ⟨hf, hlt⟩
    obtain ⟨ha, hb⟩ := isFinite_of_sub hf
    have hn := float_nearest_sub ha hb
    by_cases hfits : Fits (roundSteps (steps a - steps b)).natAbs
    · rw [steps, (hn.finite hfits).2] at hlt
      exact ⟨ha, hb, hlt⟩
    · obtain ⟨s, hs⟩ := hn.infinite hfits
      change (a - b).toModel.unpack.isFinite = true at hf
      rw [hs] at hf
      cases hf
  · rintro ⟨ha, hb, hlt⟩
    have hfits := (fits_steps tolerance).mono
      (show (roundSteps (steps a - steps b)).natAbs ≤ (steps tolerance).natAbs by omega)
    obtain ⟨hf, hs⟩ := (float_nearest_sub ha hb).finite hfits
    refine ⟨hf, ?_⟩
    rwa [steps, hs]

end MarketDepth
