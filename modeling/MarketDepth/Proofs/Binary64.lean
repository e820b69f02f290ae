import MarketDepth.Price
import MarketDepth.Proofs.Rounding

/-! The binary format of numbers. A finite number is a whole count of steps of two to the power of
minus 1074, and the order of these counts is the order of the bit patterns. -/

namespace MarketDepth

open Float.Model Float.Model.UnpackedFloat

abbrev binary64 : Format := .binary64

/-- The number with the given sign whose other bits read as the given natural number: eleven bits of
exponent above fifty-two of significand. -/
def decode (s : Sign) (g : Nat) : UnpackedFloat :=
  if g / 2 ^ 52 = 2047 then
    if g % 2 ^ 52 = 0 then .infinity s else .notANumber
  else if g / 2 ^ 52 = 0 then
    if h : g % 2 ^ 52 = 0 then .zero s else .finite s (g % 2 ^ 52) (-1074) (Nat.pos_of_ne_zero h)
  else .finite s (2 ^ 52 + g % 2 ^ 52) ((g / 2 ^ 52 : Nat) - 1075) (by omega)

def magnitude (m : Nat) (e : Int) : Nat := (e + 1074).toNat * 2 ^ 52 + m

def Canonical : UnpackedFloat → Prop
  | .finite _ m e _ => m < 2 ^ 53 ∧ -1074 ≤ e ∧ (2 ^ 52 ≤ m ∨ e = -1074) ∧ e ≤ 971
  | _ => True

theorem finite_congr {s s' : Sign} {m m' : Nat} {e e' : Int} {hm : 0 < m} {hm' : 0 < m'}
    (hs : s = s') (hmm : m = m') (he : e = e') :
    UnpackedFloat.finite s m e hm = .finite s' m' e' hm' := by
  subst hs hmm he
  rfl

theorem finite_of_isFinite {u : UnpackedFloat} (h : u.isFinite = true) :
    (∃ s, u = .zero s) ∨ ∃ s m e hm, u = .finite s m e hm := by
  cases u with
  | notANumber => cases h
  | infinity s => cases h
  | zero s => exact .inl ⟨s, rfl⟩
  | finite s m e hm => exact .inr ⟨s, m, e, hm, rfl⟩

inductive Decoded (s : Sign) (g : Nat) : UnpackedFloat → Prop
  | special {u : UnpackedFloat} (h : g / 2 ^ 52 = 2047) (hu : u = .infinity s ∨ u = .notANumber) :
    Decoded s g u
  | zero (h : g = 0) : Decoded s g (.zero s)
  | finite {m : Nat} {e : Int} (hm : 0 < m) (hlt : m < 2 ^ 53) (hlo : -1074 ≤ e)
    (hmin : 2 ^ 52 ≤ m ∨ e = -1074) (hg : g = magnitude m e) (h : g / 2 ^ 52 ≠ 2047) :
    Decoded s g (.finite s m e hm)

theorem decoded (s : Sign) (g : Nat) : Decoded s g (decode s g) := by
  unfold decode
  by_cases hones : g / 2 ^ 52 = 2047
  · rw [if_pos hones]
    by_cases hmant : g % 2 ^ 52 = 0
    · rw [if_pos hmant]
      exact .special hones (.inl rfl)
    · rw [if_neg hmant]
      exact .special hones (.inr rfl)
  · rw [if_neg hones]
    by_cases hexp : g / 2 ^ 52 = 0
    · rw [if_pos hexp]
      by_cases hmant : g % 2 ^ 52 = 0
      · rw [dif_pos hmant]
        exact .zero (by omega)
      · rw [dif_neg hmant]
        exact .finite _ (by omega) le_rfl (.inr rfl) (by unfold magnitude; omega) hones
    · rw [if_neg hexp]
      exact .finite _ (by omega) (by omega) (.inl (by omega)) (by unfold magnitude; omega) hones

theorem canonical_decode (s : Sign) {g : Nat} (hg : g < 2 ^ 63) : Canonical (decode s g) := by
  have h := decoded s g
  generalize decode s g = u at h
  cases h with
  | special h hu => rcases hu with rfl | rfl <;> trivial
  | zero h => trivial
  | finite hm hlt hlo hmin hmag h =>
    refine ⟨hlt, hlo, hmin, ?_⟩
    unfold magnitude at hmag
    omega

theorem decode_magnitude {s : Sign} {m : Nat} {e : Int} {hm : 0 < m}
    (h : Canonical (.finite s m e hm)) : decode s (magnitude m e) = .finite s m e hm := by
  obtain ⟨hlt, hlo, hmin, hhi⟩ := h
  unfold decode magnitude
  by_cases hn : 2 ^ 52 ≤ m
  · have hq : ((e + 1074).toNat * 2 ^ 52 + m) / 2 ^ 52 = (e + 1075).toNat := by omega
    have hr : 2 ^ 52 + ((e + 1074).toNat * 2 ^ 52 + m) % 2 ^ 52 = m := by omega
    rw [if_neg (by omega), if_neg (by omega)]
    exact finite_congr rfl hr (by omega)
  · obtain rfl : e = -1074 := by omega
    have hg : ((-1074 : Int) + 1074).toNat * 2 ^ 52 + m = m := by simp
    have hr : m % 2 ^ 52 = m := Nat.mod_eq_of_lt (by omega)
    have hq : m / 2 ^ 52 = 0 := Nat.div_eq_of_lt (by omega)
    rw [hg, hq, if_neg (by decide), if_pos rfl, dif_neg (by omega)]
    exact finite_congr rfl hr rfl

theorem decode_isFinite (s : Sign) (g : Nat) :
    (decode s g).isFinite = true ↔ g / 2 ^ 52 ≠ 2047 := by
  have h := decoded s g
  generalize decode s g = u at h
  cases h with
  | special h hu => rcases hu with rfl | rfl <;> exact iff_of_false nofun (not_not_intro h)
  | zero h => exact iff_of_true rfl (by omega)
  | finite hm hlt hlo hmin hmag h => exact iff_of_true rfl h

def signAt (n : Nat) : Sign := if n < 2 ^ 63 then .positive else .negative

theorem signAt_add (s : Sign) {g : Nat} (hg : g < 2 ^ 63) :
    signAt (s.toBitVec.toNat * 2 ^ 63 + g) = s := by
  cases s with
  | negative =>
    have h : Sign.negative.toBitVec.toNat = 1 := rfl
    exact if_neg (by omega)
  | positive =>
    have h : Sign.positive.toBitVec.toNat = 0 := rfl
    exact if_pos (by omega)

theorem unpack_eq_decode (b : BitVec binary64.numBits) :
    UnpackedFloat.unpack binary64 b = decode (signAt b.toNat) (b.toNat % 2 ^ 63) := by
  have hb : b.toNat < 2 ^ 64 := b.isLt
  have hmant : (unpackMantissa b).toNat = b.toNat % 2 ^ 63 % 2 ^ 52 := by
    rw [Nat.mod_mod_of_dvd _ (by decide : 2 ^ 52 ∣ 2 ^ 63)]
    simp [unpackMantissa, BitVec.extractLsb, BitVec.extractLsb', BitVec.toNat_setWidth]
  have hexp : (unpackExponent b).toNat = b.toNat % 2 ^ 63 / 2 ^ 52 := by
    have h : (unpackExponent b).toNat = b.toNat / 2 ^ 52 % 2 ^ 11 := by
      simp [unpackExponent, BitVec.extractLsb, BitVec.extractLsb', Nat.shiftRight_eq_div_pow]
    omega
  have hsign : Sign.ofBitVec (unpackSign b) = signAt b.toNat := by
    have h : (unpackSign b).toNat = b.toNat / 2 ^ 63 % 2 := by
      change (b.extractLsb 63 63).toNat = _
      simp [BitVec.extractLsb, BitVec.extractLsb', Nat.shiftRight_eq_div_pow]
    have hz : unpackSign b = 0#1 ↔ b.toNat < 2 ^ 63 := by
      rw [← BitVec.toNat_inj, h]
      change _ = 0 ↔ _
      omega
    simp only [Sign.ofBitVec, signAt, hz]
  have hones : unpackExponent b = (-1#_) ↔ b.toNat % 2 ^ 63 / 2 ^ 52 = 2047 := by
    rw [← BitVec.toNat_inj, hexp]
    rfl
  have hzero : unpackExponent b = 0#_ ↔ b.toNat % 2 ^ 63 / 2 ^ 52 = 0 := by
    rw [← BitVec.toNat_inj, hexp]
    rfl
  have hempty : unpackMantissa b = 0#_ ↔ b.toNat % 2 ^ 63 % 2 ^ 52 = 0 := by
    rw [← BitVec.toNat_inj, hmant]
    rfl
  have hfull : (1#1 ++ unpackMantissa b).toNat = 2 ^ 52 + b.toNat % 2 ^ 63 % 2 ^ 52 := by
    rw [BitVec.toNat_append, ← Nat.shiftLeft_add_eq_or_of_lt (unpackMantissa b).isLt, hmant]
    rfl
  unfold UnpackedFloat.unpack decode
  refine ite_congr (propext hones) (fun _ => ?_) fun _ => ?_
  · rw [hsign]
    exact ite_congr (propext hempty) (fun _ => rfl) fun _ => rfl
  · refine ite_congr (propext hzero) (fun h => ?_) fun _ => ?_
    · refine dite_congr (propext hempty) (fun _ => congrArg _ hsign) fun _ => ?_
      refine finite_congr hsign hmant ?_
      rw [hexp, h]
      rfl
    · refine finite_congr hsign hfull ?_
      rw [hexp]
      rfl

theorem unpack_float (x : Float) :
    x.toModel.unpack = decode (signAt x.toBits.toNat) (x.toBits.toNat % 2 ^ 63) :=
  unpack_eq_decode _

theorem canonical_unpack (x : Float) : Canonical x.toModel.unpack := by
  rw [unpack_float]
  exact canonical_decode _ (Nat.mod_lt _ (Nat.two_pow_pos 63))

theorem toNat_packComponents (s : Sign) (q : BitVec 11) (r : BitVec 52) :
    (packComponents binary64 s q r).toNat =
      s.toBitVec.toNat * 2 ^ 63 + (q.toNat * 2 ^ 52 + r.toNat) := by
  unfold packComponents
  rw [BitVec.toNat_append, ← Nat.shiftLeft_add_eq_or_of_lt r.isLt, BitVec.toNat_append,
    ← Nat.shiftLeft_add_eq_or_of_lt q.isLt, Nat.shiftLeft_eq, Nat.shiftLeft_eq]
  ring

theorem toNat_pack_finite {s : Sign} {m : Nat} {e : Int} {hm : 0 < m}
    (h : Canonical (.finite s m e hm)) :
    (UnpackedFloat.pack binary64 (.finite s m e hm)).toNat =
      s.toBitVec.toNat * 2 ^ 63 + magnitude m e := by
  obtain ⟨hlt, hlo, hmin, hhi⟩ := h
  have hbias : (e + binary64.exponentBias + binary64.mantissaBitsWithoutImplicit).toNat =
      (e + 1075).toNat := by
    rw [add_assoc]
    rfl
  unfold UnpackedFloat.pack
  simp only [hbias]
  rw [if_neg (show ¬ 2 ^ 11 ≤ (e + 1075).toNat + 1 by omega)]
  by_cases hn : 2 ^ 52 ≤ m
  · have hlog : m.log2 = 52 := (Nat.log2_eq_iff hm.ne').mpr ⟨hn, hlt⟩
    rw [if_pos (by rw [hlog]; rfl), toNat_packComponents, BitVec.toNat_ofNat, BitVec.toNat_ofNat,
      magnitude]
    omega
  · have hlog : m.log2 < 52 := (Nat.log2_lt hm.ne').mpr (by omega)
    have hbits : binary64.mantissaBits = 53 := rfl
    rw [if_neg (by omega), toNat_packComponents, BitVec.toNat_ofNat, BitVec.toNat_ofNat, magnitude]
    change _ + (0 * 2 ^ 52 + m % 2 ^ 52) = _
    omega

theorem unpack_pack {u : UnpackedFloat} (h : Canonical u) : (Float.Model.pack u).unpack = u := by
  cases u with
  | notANumber => rfl
  | infinity s => cases s <;> rfl
  | zero s => cases s <;> rfl
  | finite s m e hm =>
    have hlt : magnitude m e < 2 ^ 63 := by
      obtain ⟨hlt, hlo, hmin, hhi⟩ := h
      unfold magnitude
      omega
    change UnpackedFloat.unpack binary64 (UnpackedFloat.pack binary64 (.finite s m e hm)) = _
    rw [unpack_eq_decode, toNat_pack_finite h, signAt_add s hlt, Nat.add_comm,
      Nat.add_mul_mod_self_right, Nat.mod_eq_of_lt hlt, decode_magnitude h]

theorem pack_congr {u v : UnpackedFloat}
    (h : UnpackedFloat.pack binary64 u = UnpackedFloat.pack binary64 v) :
    Float.Model.pack u = Float.Model.pack v := by
  have hmk : ∀ {b b' : UInt64} (hb hb'), b = b' → Float.Model.mk b hb = .mk b' hb' := by
    rintro b _ hb hb' rfl
    rfl
  exact hmk _ _ (congrArg UInt64.ofBitVec h)

theorem pack_infinite {s : Sign} {m : Nat} {e : Int} {hm : 0 < m} (he : 971 < e) :
    Float.Model.pack (.finite s m e hm) = Float.Model.pack (.infinity s) := by
  have hp : UnpackedFloat.pack binary64 (.finite s m e hm) = packedInfinity binary64 s := by
    have hbias : (e + binary64.exponentBias + binary64.mantissaBitsWithoutImplicit).toNat =
        (e + 1075).toNat := by
      rw [add_assoc]
      rfl
    unfold UnpackedFloat.pack
    simp only [hbias]
    exact if_pos (show 2 ^ 11 ≤ (e + 1075).toNat + 1 by omega)
  exact pack_congr hp

theorem isFinite_of_pack {u : UnpackedFloat} (h : (Float.Model.pack u).unpack.isFinite = true) :
    u.isFinite = true := by
  cases u with
  | notANumber => exact absurd h (by decide)
  | infinity s => cases s <;> exact absurd h (by decide)
  | zero s => rfl
  | finite s m e hm => rfl

def unpackedSteps : UnpackedFloat → Int
  | .finite s m e _ => s.apply (m * 2 ^ (e + 1074).toNat : Nat)
  | _ => 0

/-- The exact value of a finite number, counted in steps of two to the power of minus 1074. -/
def steps (x : Float) : Int := unpackedSteps x.toModel.unpack

theorem unpackedSteps_finite (s : Sign) (m : Nat) (e : Int) (hm : 0 < m) :
    unpackedSteps (.finite s m e hm) = s.apply (m * 2 ^ (e + 1074).toNat : Nat) := rfl

theorem natAbs_apply (s : Sign) (n : Nat) : (s.apply n).natAbs = n := by
  cases s <;> simp [Sign.apply]

theorem apply_neg (s : Sign) (n : Int) : (-s).apply n = -s.apply n := by
  cases s
  · exact (Int.neg_neg n).symm
  · rfl

theorem canonical_neg {u : UnpackedFloat} (h : Canonical u) : Canonical u.neg := by
  cases u <;> exact h

theorem canonical_abs {u : UnpackedFloat} (h : Canonical u) : Canonical u.abs := by
  cases u <;> exact h

theorem unpack_neg (x : Float) : (-x).toModel.unpack = x.toModel.unpack.neg :=
  unpack_pack (canonical_neg (canonical_unpack x))

theorem unpack_abs (x : Float) : x.abs.toModel.unpack = x.toModel.unpack.abs :=
  unpack_pack (canonical_abs (canonical_unpack x))

theorem unpackedSteps_neg (u : UnpackedFloat) : unpackedSteps u.neg = -unpackedSteps u := by
  cases u with
  | finite s m e hm => exact apply_neg s _
  | _ => rfl

theorem isFinite_neg (u : UnpackedFloat) : u.neg.isFinite = u.isFinite := by
  cases u <;> rfl

theorem steps_neg (x : Float) : steps (-x) = -steps x := by
  rw [steps, unpack_neg, unpackedSteps_neg, steps]

theorem isFinite_float_neg (x : Float) : (-x).isFinite = x.isFinite := by
  change (-x).toModel.unpack.isFinite = _
  rw [unpack_neg, isFinite_neg]
  rfl

theorem isNaN_float_neg (x : Float) : (-x).isNaN = x.isNaN := by
  change (-x).toModel.unpack.isNaN = x.toModel.unpack.isNaN
  rw [unpack_neg]
  cases x.toModel.unpack <;> rfl

theorem steps_abs (x : Float) : steps x.abs = (steps x).natAbs := by
  rw [steps, unpack_abs, steps]
  cases x.toModel.unpack with
  | finite s m e hm => exact congrArg Nat.cast (natAbs_apply s _).symm
  | _ => rfl

theorem isFinite_float_abs (x : Float) : x.abs.isFinite = x.isFinite := by
  change x.abs.toModel.unpack.isFinite = x.toModel.unpack.isFinite
  rw [unpack_abs]
  cases x.toModel.unpack <;> rfl

/-- The place of a finite number among all of them: its bits below the sign, counted on both sides
of zero. -/
def position : UnpackedFloat → Int
  | .finite s m e _ => s.apply (magnitude m e)
  | _ => 0

theorem lt_of_exponent_lt {s s' : Sign} {m m' : Nat} {e e' : Int} {hm : 0 < m} {hm' : 0 < m'}
    (h : Canonical (.finite s m e hm)) (h' : Canonical (.finite s' m' e' hm')) (he : e < e') :
    magnitude m e < magnitude m' e' ∧
      m * 2 ^ (e + 1074).toNat < m' * 2 ^ (e' + 1074).toNat := by
  obtain ⟨hlt, hlo, -, -⟩ := h
  obtain ⟨-, -, hmin, -⟩ := h'
  have hfull : 2 ^ 52 ≤ m' := by omega
  constructor
  · unfold magnitude
    omega
  · have hk : (e + 1074).toNat + 1 ≤ (e' + 1074).toNat := by omega
    calc m * 2 ^ (e + 1074).toNat < 2 ^ 53 * 2 ^ (e + 1074).toNat :=
          Nat.mul_lt_mul_of_pos_right hlt (Nat.two_pow_pos _)
      _ = 2 ^ 52 * 2 ^ ((e + 1074).toNat + 1) := by rw [pow_succ 2 (e + 1074).toNat]; ring
      _ ≤ m' * 2 ^ (e' + 1074).toNat := Nat.mul_le_mul hfull (Nat.pow_le_pow_right (by decide) hk)

theorem compare_congr {a b c d : Nat} (h : a < b ↔ c < d) (h' : b < a ↔ d < c) :
    compare a b = compare c d := by
  simp only [Nat.compare_eq_ite_lt, h, h']

/-- Exponent first, then significand: the order of the bits is the order of the values. -/
theorem compare_magnitude {s s' : Sign} {m m' : Nat} {e e' : Int} {hm : 0 < m} {hm' : 0 < m'}
    (h : Canonical (.finite s m e hm)) (h' : Canonical (.finite s' m' e' hm')) :
    (compare e e').then (compare m m') = compare (magnitude m e) (magnitude m' e') ∧
      compare (magnitude m e) (magnitude m' e') =
        compare (m * 2 ^ (e + 1074).toNat) (m' * 2 ^ (e' + 1074).toNat) := by
  rcases lt_trichotomy e e' with he | rfl | he
  · obtain ⟨h₁, h₂⟩ := lt_of_exponent_lt h h' he
    rw [Int.compare_eq_lt.mpr he, Nat.compare_eq_lt.mpr h₁, Nat.compare_eq_lt.mpr h₂]
    exact ⟨rfl, rfl⟩
  · have hpos : 0 < 2 ^ (e + 1074).toNat := Nat.two_pow_pos _
    rw [Int.compare_eq_eq.mpr rfl]
    refine ⟨compare_congr ?_ ?_, compare_congr ?_ ?_⟩
    · unfold magnitude; omega
    · unfold magnitude; omega
    · rw [Nat.mul_lt_mul_right hpos]; unfold magnitude; omega
    · rw [Nat.mul_lt_mul_right hpos]; unfold magnitude; omega
  · obtain ⟨h₁, h₂⟩ := lt_of_exponent_lt h' h he
    rw [Int.compare_eq_gt.mpr he, Nat.compare_eq_gt.mpr h₁, Nat.compare_eq_gt.mpr h₂]
    exact ⟨rfl, rfl⟩

theorem steps_pos {m : Nat} (hm : 0 < m) (e : Int) : 0 < m * 2 ^ (e + 1074).toNat :=
  Nat.mul_pos hm (Nat.two_pow_pos _)

theorem compare_natCast (a b : Nat) : compare (a : Int) (b : Int) = compare a b := by
  rcases lt_trichotomy a b with h | rfl | h
  · rw [Nat.compare_eq_lt.mpr h, Int.compare_eq_lt.mpr (by omega)]
  · rw [Nat.compare_eq_eq.mpr rfl, Int.compare_eq_eq.mpr rfl]
  · rw [Nat.compare_eq_gt.mpr h, Int.compare_eq_gt.mpr (by omega)]

theorem compare_neg_natCast (a b : Nat) : compare (-(a : Int)) (-(b : Int)) =
    (compare a b).swap := by
  rcases lt_trichotomy a b with h | rfl | h
  · rw [Nat.compare_eq_lt.mpr h, Int.compare_eq_gt.mpr (by omega)]
    rfl
  · rw [Nat.compare_eq_eq.mpr rfl, Int.compare_eq_eq.mpr rfl]
    rfl
  · rw [Nat.compare_eq_gt.mpr h, Int.compare_eq_lt.mpr (by omega)]
    rfl

theorem compare_eq_steps {x y : UnpackedFloat} (hx : Canonical x) (hy : Canonical y)
    (hxf : x.isFinite = true) (hyf : y.isFinite = true) :
    x.compare y = some (compare (unpackedSteps x) (unpackedSteps y)) := by
  have hzero : ∀ {n : Nat}, 0 < n → compare (0 : Int) n = .lt ∧ compare (0 : Int) (-n) = .gt ∧
      compare (n : Int) 0 = .gt ∧ compare (-n : Int) 0 = .lt := fun hn =>
    ⟨Int.compare_eq_lt.mpr (by omega), Int.compare_eq_gt.mpr (by omega),
      Int.compare_eq_gt.mpr (by omega), Int.compare_eq_lt.mpr (by omega)⟩
  obtain ⟨s, rfl⟩ | ⟨s, m, e, hm, rfl⟩ := finite_of_isFinite hxf <;>
    obtain ⟨s', rfl⟩ | ⟨s', m', e', hm', rfl⟩ := finite_of_isFinite hyf
  · rfl
  · have h := hzero (steps_pos hm' e')
    cases s' with
    | positive => exact congrArg some h.1.symm
    | negative => exact congrArg some h.2.1.symm
  · have h := hzero (steps_pos hm e)
    cases s with
    | positive => exact congrArg some h.2.2.1.symm
    | negative => exact congrArg some h.2.2.2.symm
  · have h := steps_pos hm e
    have h' := steps_pos hm' e'
    have hc := (compare_magnitude hx hy).1.trans (compare_magnitude hx hy).2
    have hsigns : ∀ {a b : Nat}, 0 < a → 0 < b →
        compare (a : Int) (-b) = .gt ∧ compare (-a : Int) b = .lt := fun ha hb =>
      ⟨Int.compare_eq_gt.mpr (by omega), Int.compare_eq_lt.mpr (by omega)⟩
    cases s with
    | positive =>
      cases s' with
      | positive => exact congrArg some (hc.trans (compare_natCast _ _).symm)
      | negative => exact congrArg some (hsigns h h').1.symm
    | negative =>
      cases s' with
      | positive => exact congrArg some (hsigns h h').2.symm
      | negative =>
        have hswap := (congrArg Ordering.swap hc).trans (compare_neg_natCast _ _).symm
        exact congrArg some hswap

theorem position_lt_iff_steps {x y : UnpackedFloat} (hx : Canonical x) (hy : Canonical y)
    (hxf : x.isFinite = true) (hyf : y.isFinite = true) :
    position x < position y ↔ unpackedSteps x < unpackedSteps y := by
  have hpos : ∀ {m : Nat}, 0 < m → ∀ e, 0 < magnitude m e :=
    fun hm e => by unfold magnitude; omega
  obtain ⟨s, rfl⟩ | ⟨s, m, e, hm, rfl⟩ := finite_of_isFinite hxf <;>
    obtain ⟨s', rfl⟩ | ⟨s', m', e', hm', rfl⟩ := finite_of_isFinite hyf
  · rfl
  · have := hpos hm' e'
    have := steps_pos hm' e'
    change 0 < s'.apply (magnitude m' e') ↔ 0 < s'.apply (m' * 2 ^ (e' + 1074).toNat : Nat)
    cases s' <;> simp only [Sign.apply] <;> omega
  · have := hpos hm e
    have := steps_pos hm e
    change s.apply (magnitude m e) < 0 ↔ s.apply (m * 2 ^ (e + 1074).toNat : Nat) < 0
    cases s <;> simp only [Sign.apply] <;> omega
  · have := hpos hm e
    have := hpos hm' e'
    have := steps_pos hm e
    have := steps_pos hm' e'
    have hc := (compare_magnitude hx hy).2
    have hlt : magnitude m e < magnitude m' e' ↔
        m * 2 ^ (e + 1074).toNat < m' * 2 ^ (e' + 1074).toNat := by
      rw [← Nat.compare_eq_lt, hc, Nat.compare_eq_lt]
    have hgt : magnitude m' e' < magnitude m e ↔
        m' * 2 ^ (e' + 1074).toNat < m * 2 ^ (e + 1074).toNat := by
      rw [← Nat.compare_eq_gt, hc, Nat.compare_eq_gt]
    change s.apply (magnitude m e) < s'.apply (magnitude m' e') ↔
      s.apply (m * 2 ^ (e + 1074).toNat : Nat) < s'.apply (m' * 2 ^ (e' + 1074).toNat : Nat)
    cases s <;> cases s' <;> simp only [Sign.apply] <;> omega

theorem lt_iff_compare (x y : Float) :
    x < y ↔ x.toModel.unpack.compare y.toModel.unpack = some .lt := by
  change decide (x.toModel < y.toModel) = true ↔ _
  rw [decide_eq_true_iff]
  change (x.toModel.unpack.compare y.toModel.unpack == some .lt) = true ↔ _
  rw [beq_iff_eq]

theorem lt_iff_steps {x y : Float} (hx : x.isFinite = true) (hy : y.isFinite = true) :
    x < y ↔ steps x < steps y := by
  rw [lt_iff_compare, compare_eq_steps (canonical_unpack x) (canonical_unpack y) hx hy,
    Option.some_inj, Int.compare_eq_lt, steps, steps]

theorem le_of_compare {x y : Float} {o : Ordering}
    (h : x.toModel.unpack.compare y.toModel.unpack = some o) (ho : o.isLE = true) : x ≤ y := by
  change decide (x.toModel ≤ y.toModel) = true
  rw [decide_eq_true_iff]
  change (x.toModel.unpack.compare y.toModel.unpack).any (·.isLE) = true
  rw [h]
  exact ho

theorem isNaN_unpacked_of_isFinite {u : UnpackedFloat} (h : u.isFinite = true) :
    u.isNaN = false := by
  cases u <;> first | rfl | cases h

theorem isNaN_of_isFinite {x : Float} (h : x.isFinite = true) : x.isNaN = false :=
  isNaN_unpacked_of_isFinite (u := x.toModel.unpack) h

theorem isInf_of_isFinite {x : Float} (h : x.isFinite = true) : x.isInf = false := by
  change x.toModel.unpack.isInf = false
  obtain ⟨s, hu⟩ | ⟨s, m, e, hm, hu⟩ := finite_of_isFinite (u := x.toModel.unpack) h <;>
    rw [hu] <;> rfl

/-- A number that is not below a finite one is at least that, unless it is not a number. -/
theorem isNaN_or_le_of_not_lt {x y : Float} (hy : y.isFinite = true) (h : ¬ x < y) :
    x.isNaN = true ∨ y ≤ x := by
  cases hx : x.toModel.unpack with
  | notANumber =>
    left
    change x.toModel.unpack.isNaN = true
    rw [hx]
    rfl
  | infinity s =>
    rw [lt_iff_compare, hx] at h
    cases s with
    | positive =>
      refine .inr (le_of_compare (o := .lt) ?_ rfl)
      obtain ⟨s', hu⟩ | ⟨s', m, e, hm, hu⟩ := finite_of_isFinite (u := y.toModel.unpack) hy <;>
        rw [hx, hu] <;> rfl
    | negative =>
      refine absurd ?_ h
      obtain ⟨s', hu⟩ | ⟨s', m, e, hm, hu⟩ := finite_of_isFinite (u := y.toModel.unpack) hy <;>
        rw [hu] <;> rfl
  | _ =>
    have hf : x.isFinite = true := by
      change x.toModel.unpack.isFinite = true
      rw [hx]
      rfl
    have hle : steps y ≤ steps x := Int.not_lt.mp fun hlt => h ((lt_iff_steps hf hy).mpr hlt)
    exact .inr (le_of_compare (compare_eq_steps (canonical_unpack y) (canonical_unpack x) hy hf)
      (Int.isLE_compare.mpr hle))

theorem not_lt_zero_of_pos {x : Float} (h : 0 < x) : ¬ x < 0 := by
  have hzero : (0 : Float).toModel.unpack = .zero .positive := rfl
  intro hneg
  rw [lt_iff_compare, hzero] at h hneg
  cases hx : x.toModel.unpack with
  | infinity s =>
    rw [hx] at h hneg
    cases s with
    | positive => cases hneg
    | negative => cases h
  | finite s m e hm =>
    rw [hx] at h hneg
    cases s with
    | positive => cases hneg
    | negative => cases h
  | _ => rw [hx] at h; cases h

theorem isFinite_of_lt_of_not_lt {x y z : Float} (hy : y.isFinite = true) (hz : z.isFinite = true)
    (hlt : x < y) (hge : ¬ x < z) : x.isFinite = true := by
  rw [lt_iff_compare] at hlt hge
  change x.toModel.unpack.isFinite = true
  cases hx : x.toModel.unpack with
  | notANumber => rw [hx] at hlt; cases hlt
  | infinity s =>
    rw [hx] at hlt hge
    cases s with
    | positive =>
      obtain ⟨s', hu⟩ | ⟨s', m, e, hm, hu⟩ := finite_of_isFinite hy <;> rw [hu] at hlt <;> cases hlt
    | negative =>
      obtain ⟨s', hu⟩ | ⟨s', m, e, hm, hu⟩ := finite_of_isFinite hz <;> rw [hu] at hge <;>
        exact absurd rfl hge
  | zero s => rfl
  | finite s m e hm => rfl

theorem isFinite_of_abs_lt {x y : Float} (hy : y.isFinite = true) (h : x.abs < y) :
    x.isFinite = true := by
  rw [lt_iff_compare, unpack_abs] at h
  change x.toModel.unpack.isFinite = true
  cases hx : x.toModel.unpack with
  | notANumber => rw [hx] at h; cases h
  | infinity s =>
    rw [hx] at h
    obtain ⟨s', hu⟩ | ⟨s', m, e, hm, hu⟩ := finite_of_isFinite hy <;> rw [hu] at h <;> cases h
  | zero s => rfl
  | finite s m e hm => rfl

theorem position_decode (s : Sign) {g : Nat} (hones : g / 2 ^ 52 ≠ 2047) :
    position (decode s g) = s.apply g := by
  have h := decoded s g
  generalize decode s g = u at h
  cases h with
  | special h hu => exact absurd h hones
  | zero h =>
    subst h
    cases s <;> rfl
  | finite hm hlt hlo hmin hmag h =>
    subst hmag
    rfl

theorem totalKey_eq (x : Float) :
    totalKey x = if x.toBits.toNat < 2 ^ 63 then ((x.toBits.toNat % 2 ^ 63 : Nat) : Int)
      else -1 - ((x.toBits.toNat % 2 ^ 63 : Nat) : Int) := by
  have hlt : x.toBits.toNat < 2 ^ 64 := x.toBits.toNat_lt
  simp only [totalKey]
  split_ifs <;> omega

theorem isFinite_iff_bits (x : Float) :
    x.isFinite = true ↔ x.toBits.toNat % 2 ^ 63 / 2 ^ 52 ≠ 2047 := by
  change x.toModel.unpack.isFinite = true ↔ _
  rw [unpack_float, decode_isFinite]

theorem isFinite_iff_totalKey (x : Float) :
    x.isFinite = true ↔ -1 - 2047 * 2 ^ 52 < totalKey x ∧ totalKey x < 2047 * 2 ^ 52 := by
  rw [isFinite_iff_bits, totalKey_eq]
  split_ifs <;> omega

theorem totalKey_position {x : Float} (hx : x.isFinite = true) :
    totalKey x = position x.toModel.unpack ∧ 0 ≤ position x.toModel.unpack ∨
      totalKey x = position x.toModel.unpack - 1 ∧ position x.toModel.unpack ≤ 0 := by
  rw [totalKey_eq, unpack_float, position_decode _ ((isFinite_iff_bits x).mp hx), signAt]
  split_ifs <;> simp only [Sign.apply, true_and] <;> omega

/-- The order of bit patterns does not contradict the order of values. It tells the two zeros apart,
which have one value. -/
theorem steps_le_of_totalKey_le {x y : Float} (hx : x.isFinite = true) (hy : y.isFinite = true)
    (h : totalKey x ≤ totalKey y) : steps x ≤ steps y := by
  by_contra hlt
  have hp := (position_lt_iff_steps (canonical_unpack y) (canonical_unpack x) hy hx).mpr
    (Int.not_le.mp hlt)
  have := totalKey_position hx
  have := totalKey_position hy
  omega

theorem totalKey_injective : Function.Injective totalKey := by
  intro x y h
  have hx : x.toBits.toNat < 2 ^ 64 := x.toBits.toNat_lt
  have hy : y.toBits.toNat < 2 ^ 64 := y.toBits.toNat_lt
  have hbits : x.toBits.toNat = y.toBits.toNat := by
    simp only [totalKey] at h
    split_ifs at h <;> omega
  obtain ⟨⟨a, ha⟩⟩ := x
  obtain ⟨⟨b, hb⟩⟩ := y
  obtain rfl : a = b := UInt64.toNat_inj.mp hbits
  rfl

end MarketDepth
