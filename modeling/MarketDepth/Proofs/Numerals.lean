import MarketDepth.Proofs.ShortestDecimals

/-! Numerals as they are read back. A numeral is read as its digits, taken for one integer, scaled by a
power of ten: two roundings at most, and none before the last where both are numbers of the format. -/

namespace MarketDepth

open Float.Model Float.Model.UnpackedFloat

namespace Numeral

/-- The digits on both sides of the point, taken for one integer. -/
def significand (n : Numeral) : Nat := Nat.ofDigitChars 10 (n.whole ++ n.fraction) 0

/-- The power of ten by which the significand is scaled. -/
def power (n : Numeral) : Int := n.writtenExponent.getD 0 - n.fraction.length

def decimal (n : Numeral) : Decimal := ⟨n.significand, n.power⟩

theorem le_ofDigitChars (n : Nat) (ds : List Char) : n ≤ Nat.ofDigitChars 10 ds n := by
  rw [Nat.ofDigitChars_eq_ofDigitChars_zero]
  have := Nat.le_mul_of_pos_left n (Nat.pow_pos (n := ds.length) (show 0 < 10 by decide))
  omega

theorem takeDigits_eq {n : Nat} {ds : List Char} (h : Nat.ofDigitChars 10 ds n < UInt64.size) :
    takeDigits n ds = (Nat.ofDigitChars 10 ds n, []) := by
  induction ds generalizing n with
  | nil => rfl
  | cons c cs ih =>
    rw [Nat.ofDigitChars_cons] at h ⊢
    rw [takeDigits, if_pos ((le_ofDigitChars _ cs).trans_lt h), ih h]

/-- A numeral with all its digits in sixty-four bits and an exponent within reach. -/
structure Readable (n : Numeral) : Prop where
  significand_lt : n.significand < UInt64.size
  exponent : n.writtenExponent.isSome = true
  fractional : n.fraction ≠ [] ∨ n.exponent.isSome = true

theorem Readable.magnitude_eq {n : Numeral} (h : n.Readable) :
    n.magnitude = scale n.significand.toUInt64.toFloat n.power := by
  obtain ⟨e, he⟩ := Option.isSome_iff_exists.mp h.exponent
  have hsplit : n.significand = Nat.ofDigitChars 10 n.fraction (Nat.ofDigitChars 10 n.whole 0) :=
    Nat.ofDigitChars_append 0
  have hlt := h.significand_lt
  rw [hsplit] at hlt
  rw [magnitude, takeDigits_eq ((le_ofDigitChars _ _).trans_lt hlt)]
  simp only [takeDigits_eq hlt, he]
  rw [← hsplit, power, he]
  congr 1
  simp
  omega

theorem Readable.value_eq {n : Numeral} (h : n.Readable) :
    n.value = (scale n.significand.toUInt64.toFloat n.power).map fun x =>
      .float (if n.negative then -x else x) := by
  have hnone : n.integer? = none := by
    unfold integer?
    refine if_neg ?_
    rcases h.fractional with hf | he
    · simp [hf]
    · simp [Option.isSome_iff_ne_none.mp he]
  rw [value, hnone, h.magnitude_eq]

end Numeral

/-- A numeral that writes a decimal down: as it is, or in full and with a zero after the point. -/
inductive Writes (n : Numeral) (d : Decimal) : Prop
  | plain (h : n.decimal = d)
  | full (hp : 0 ≤ d.exponent) (h : n.decimal = ⟨d.digits * 10 ^ (d.exponent.toNat + 1), -1⟩)

theorem Decimal.nearest_full {d : Decimal} (hp : 0 ≤ d.exponent) :
    (Decimal.mk (d.digits * 10 ^ (d.exponent.toNat + 1)) (-1)).nearest = d.nearest := by
  have hzero : (-d.exponent).toNat = 0 := by omega
  refine roundQuotient_congr (Nat.pow_pos (by decide)) (Nat.pow_pos (by decide)) ?_
  change d.digits * 10 ^ (d.exponent.toNat + 1) * 10 ^ 0 * unit * 10 ^ (-d.exponent).toNat =
    d.digits * 10 ^ d.exponent.toNat * unit * 10 ^ 1
  rw [hzero]
  ring

theorem Writes.nearest {n : Numeral} {d : Decimal} (h : Writes n d) :
    n.decimal.nearest = d.nearest := by
  cases h with
  | plain h => rw [h]
  | full hp h => rw [h, Decimal.nearest_full hp]

namespace Layout

variable {layout : Layout} {c : Nat} {p : Int}

theorem writtenExponent_scale (negative : Bool) (ds : List Char) {e : Int} (he : e.natAbs < 0x80000000) :
    (scale negative ds e).writtenExponent = some e := by
  simp only [Numeral.writtenExponent, scale, Nat.ofDigitChars_ten_toDigits, if_pos he,
    decide_eq_true_eq]
  split_ifs <;> congr 1 <;> omega

theorem decimal_scale (negative : Bool)
    (he : (((Nat.toDigits 10 c).length + p - 1 : Int)).natAbs < 0x80000000) :
    (scale negative (Nat.toDigits 10 c) ((Nat.toDigits 10 c).length + p - 1)).decimal = ⟨c, p⟩ := by
  have hpos : 0 < (Nat.toDigits 10 c).length := Nat.length_toDigits_pos
  rw [Numeral.decimal, Numeral.power, writtenExponent_scale _ _ he, Numeral.significand]
  simp only [scale, List.take_append_drop, Nat.ofDigitChars_ten_toDigits, List.length_drop,
    Option.getD_some]
  congr 1
  omega

theorem writes_place (negative : Bool) (hpointed : layout.pointed = true) :
    Writes (layout.place negative (Nat.toDigits 10 c) ((Nat.toDigits 10 c).length + p)) ⟨c, p⟩ := by
  have hpos : 0 < (Nat.toDigits 10 c).length := Nat.length_toDigits_pos
  unfold place
  split_ifs with hsmall hinner
  · refine .plain ?_
    have hzero : Nat.ofDigitChars 10 (['0'] ++ (List.replicate
        (-((Nat.toDigits 10 c).length + p)).toNat '0' ++ Nat.toDigits 10 c)) 0 = c := by
      rw [← List.append_assoc, Nat.ofDigitChars_append, Nat.ofDigitChars_append]
      simp [Nat.ofDigitChars_replicate_zero, Nat.ofDigitChars_cons]
    rw [Numeral.decimal, Numeral.power, Numeral.significand, hzero, Numeral.writtenExponent]
    simp
    omega
  · refine .plain ?_
    simp only [Numeral.decimal, Numeral.significand, Numeral.power, Numeral.writtenExponent,
      List.take_append_drop, Nat.ofDigitChars_ten_toDigits, List.length_drop, Option.getD_some]
    congr 1
    omega
  · refine .full (show 0 ≤ p by omega) ?_
    have hrest : ((Nat.toDigits 10 c).length + p).toNat - (Nat.toDigits 10 c).length = p.toNat := by
      omega
    have hfull : Nat.ofDigitChars 10 (Nat.toDigits 10 c ++ List.replicate p.toNat '0' ++ ['0']) 0 =
        c * 10 ^ (p.toNat + 1) := by
      rw [List.append_assoc, ← List.replicate_succ', Nat.ofDigitChars_append,
        Nat.ofDigitChars_ten_toDigits, Nat.ofDigitChars_replicate_zero, Nat.mul_comm]
    rw [Numeral.decimal, Numeral.power, Numeral.significand, Numeral.writtenExponent]
    simp only [hrest, hfull]
    rfl

theorem writtenExponent_place (negative : Bool) (ds : List Char) (k : Int) :
    (layout.place negative ds k).writtenExponent = some 0 := by
  unfold place
  split_ifs <;> rfl

theorem place_fraction_ne_nil (hpointed : layout.pointed = true) (negative : Bool) (ds : List Char) (hds : ds ≠ [])
    (k : Int) : (layout.place negative ds k).fraction ≠ [] := by
  unfold place
  split_ifs with hsmall hinner
  · simp [hds]
  · have hlength : (ds.drop k.toNat).length ≠ 0 := by
      rw [List.length_drop]
      omega
    exact fun h => hlength (congrArg List.length h)
  · exact List.cons_ne_nil _ _

/-- Digits that reach no further than sixteen places above the point are below ten to the sixteenth in
full. -/
theorem mul_pow_lt (hp : 0 ≤ p) (hk : (Nat.toDigits 10 c).length + p ≤ 16) :
    c * 10 ^ (p.toNat + 1) < UInt64.size := by
  have hc : c < 10 ^ (Nat.toDigits 10 c).length :=
    (Nat.length_toDigits_le_iff (by decide) Nat.length_toDigits_pos).mp le_rfl
  calc c * 10 ^ (p.toNat + 1) < 10 ^ (Nat.toDigits 10 c).length * 10 ^ (p.toNat + 1) :=
        Nat.mul_lt_mul_of_pos_right hc (Nat.pow_pos (by decide))
    _ = 10 ^ ((Nat.toDigits 10 c).length + (p.toNat + 1)) := (Nat.pow_add _ _ _).symm
    _ ≤ 10 ^ 17 := Nat.pow_le_pow_right (by decide) (by omega)
    _ < UInt64.size := by decide

end Layout

namespace Json

variable {x : Float}

theorem layout_numeral (h : (Binary.ofFloat x).significand ≠ 0) {d : Decimal}
    (hd : (Binary.ofFloat x).shortest .even = d) {k : Int}
    (hk : (Nat.toDigits 10 d.digits).length + d.exponent = k) :
    layout.numeral x =
      if -5 ≤ k - 1 ∧ k - 1 ≤ 15 then
        layout.place (0x8000000000000000 ≤ x.toBits.toNat) (Nat.toDigits 10 d.digits) k
      else Layout.scale (0x8000000000000000 ≤ x.toBits.toNat) (Nat.toDigits 10 d.digits) (k - 1) := by
  subst hd hk
  simp [Layout.numeral, h, layout]

/-- Numbers are written as their shortest decimals. -/
theorem writes_numeral (hx : x.isFinite = true) (h : (Binary.ofFloat x).significand ≠ 0) :
    Writes (layout.numeral x) ((Binary.ofFloat x).shortest .even) ∧
      (layout.numeral x).Readable := by
  have hb := Binary.regular_ofFloat hx h
  have hs := Binary.shortened_shortest hb .even
  have hdigits := hs.digits_lt hb
  have hleast := hs.le_exponent hb
  have hmost := hs.exponent_le hb
  rw [layout_numeral h rfl rfl]
  generalize (Binary.ofFloat x).shortest .even = d at *
  have hlength : (Nat.toDigits 10 d.digits).length ≤ 18 :=
    (Nat.length_toDigits_le_iff (by decide) (by decide)).mpr (by omega)
  have hpos : 0 < (Nat.toDigits 10 d.digits).length := Nat.length_toDigits_pos
  split_ifs with hplace
  · have hwrites : Writes (layout.place (0x8000000000000000 ≤ x.toBits.toNat)
        (Nat.toDigits 10 d.digits) ((Nat.toDigits 10 d.digits).length + d.exponent)) d :=
      Layout.writes_place _ rfl
    refine ⟨hwrites, ?_, ?_, .inl (Layout.place_fraction_ne_nil rfl _ _ Nat.toDigits_ne_nil _)⟩
    · cases hwrites with
      | plain hd =>
        rw [show Numeral.significand _ = d.digits from congrArg Decimal.digits hd]
        exact hdigits.trans (by decide)
      | full hp hd =>
        rw [show Numeral.significand _ = _ from congrArg Decimal.digits hd]
        exact Layout.mul_pow_lt hp (by omega)
    · rw [Layout.writtenExponent_place]
      rfl
  · have hscale := Layout.decimal_scale (c := d.digits) (p := d.exponent)
      (0x8000000000000000 ≤ x.toBits.toNat) (by omega)
    refine ⟨.plain hscale, ?_, ?_, .inr rfl⟩
    · rw [show Numeral.significand _ = d.digits from congrArg Decimal.digits hscale]
      exact hdigits.trans (by decide)
    · rw [Layout.writtenExponent_scale _ _ (by omega)]
      rfl

end Json
namespace Numeral

/-- A numeral that is rounded only once when it is read: its significand is a number of the format, and
so is the power of ten that scales it. -/
structure Exact (n : Numeral) : Prop where
  significand : roundBits n.significand = n.significand
  power : n.power.natAbs ≤ 22

theorem Exact.of_lt {n : Numeral} (hs : n.significand < 2 ^ 53) (hp : n.power.natAbs ≤ 22) :
    n.Exact :=
  ⟨roundBits_eq_self hs, hp⟩

theorem roundBits_ten_pow {n : Nat} (h : n ≤ 22) : roundBits (10 ^ n) = 10 ^ n := by
  have hpow : 10 ^ n = 5 ^ n * 2 ^ n := Nat.mul_pow 5 2 n
  rw [hpow]
  refine roundBits_mul ?_ n
  calc 5 ^ n ≤ 5 ^ 22 := Nat.pow_le_pow_right (by decide) h
    _ < 2 ^ 53 := by decide

theorem reduce_eq {n : Nat} (h : n ≤ 308) (x : Float) : reduce x n = x / powerOfTen n := by
  rw [reduce, if_pos h]

theorem enlarge_eq {n : Nat} (h : n ≤ 308) {x : Float}
    (hf : (x * powerOfTen n).isFinite = true) : enlarge x n = some (x * powerOfTen n) := by
  simp [enlarge, h, isInf_of_isFinite hf]

/-- A numeral that is exact comes out as the number nearest to it. -/
theorem Exact.scale_eq {n : Numeral} (h : n.Exact) (hpos : 0 < n.significand)
    (hlt : n.significand < UInt64.size) (hfits : Fits n.decimal.nearest) :
    ∃ y, scale n.significand.toUInt64.toFloat n.power = some y ∧ Counts n.decimal.nearest y := by
  have hx : Whole n.significand n.significand.toUInt64.toFloat := by
    have := Whole.ofNat hlt
    rwa [h.significand] at this
  have hpower := h.power
  have hten : ∀ {j : Nat}, j ≤ 22 → Whole (10 ^ j : Nat) (powerOfTen j) ∧ 0 < 10 ^ j := by
    intro j hj
    have := whole_powerOfTen (show j ≤ 308 by omega)
    rw [roundBits_ten_pow hj] at this
    exact ⟨this, Nat.pow_pos (by decide)⟩
  cases hp : n.power with
  | ofNat j =>
    rw [hp] at hpower
    have hj : j ≤ 22 := hpower
    obtain ⟨hy, hypos⟩ := hten hj
    have hnearest : n.decimal.nearest = roundBits (n.significand * 10 ^ j) * unit := by
      have hzero : (-(Int.ofNat j)).toNat = 0 := Int.toNat_neg_natCast j
      rw [decimal, Decimal.nearest, hp, hzero, Nat.pow_zero, roundQuotient_one, roundBits_mul_unit]
      rfl
    rw [hnearest, fits_mul_unit] at hfits
    have hw := Whole.of_nearest (hx.mul hy hpos hypos) hfits
    refine ⟨_, enlarge_eq (by omega) hw.finite, hw.finite, ?_⟩
    rw [hnearest, hw.steps, Int.natCast_mul]
  | negSucc j =>
    rw [hp] at hpower
    have hj : j + 1 ≤ 22 := hpower
    obtain ⟨hy, hypos⟩ := hten hj
    have hnearest : n.decimal.nearest = roundQuotient (n.significand * unit) (10 ^ (j + 1)) := by
      rw [decimal, Decimal.nearest, hp]
      change roundQuotient (n.significand * 10 ^ 0 * unit) (10 ^ (j + 1)) = _
      rw [Nat.pow_zero, Nat.mul_one]
    have hlt : 10 ^ (j + 1) < 2 ^ 100 :=
      (Nat.pow_le_pow_right (by decide) hj).trans_lt (by decide : 10 ^ 22 < 2 ^ 100)
    refine ⟨_, congrArg some (reduce_eq (by omega) _), ?_⟩
    rw [hnearest] at hfits ⊢
    exact hx.div hy hpos hypos hlt hfits

theorem isNaN_div_powerOfTen {x : Float} (hx : x.isNaN = false) {n : Nat} (h : n ≤ 308) :
    (x / powerOfTen n).isNaN = false := by
  have hten : 0 < 10 ^ n := Nat.pow_pos (by decide)
  have hpos : 0 < roundBits (10 ^ n) :=
    (Nat.two_pow_pos _).trans_le (two_pow_log2_le_roundBits hten.ne')
  obtain ⟨m, e, hm, hu, -⟩ := (whole_powerOfTen h).unpack hpos
  change (Float.Model.pack (UnpackedFloat.div binary64 x.toModel.unpack
    (powerOfTen n).toModel.unpack)).unpack.isNaN = false
  rw [hu]
  exact isNaN_unpack_pack (isNaN_div hx _ _ _ hm)

theorem isNaN_reduce {x : Float} (hx : x.isNaN = false) (n : Nat) : (reduce x n).isNaN = false := by
  induction n using Nat.strongRecOn generalizing x with
  | ind n ih =>
    rw [reduce]
    split_ifs with hn hz
    · exact isNaN_div_powerOfTen hx hn
    · exact hx
    · exact ih _ (by omega) (isNaN_div_powerOfTen hx le_rfl)

/-- Only a product can be too large to be read. -/
theorem exists_scale {n : Numeral} (hpos : 0 < n.significand) (hlt : n.significand < UInt64.size)
    (hfits : 0 ≤ n.power → n.power ≤ 308 ∧
      roundBits (roundBits n.significand * roundBits (10 ^ n.power.toNat)) < 2 ^ 1024) :
    ∃ y, scale n.significand.toUInt64.toFloat n.power = some y ∧ y.isNaN = false := by
  have hx := Whole.ofNat hlt
  have hround : ∀ {k : Nat}, 0 < k → 0 < roundBits k := fun hk =>
    (Nat.two_pow_pos _).trans_le (two_pow_log2_le_roundBits hk.ne')
  cases hp : n.power with
  | ofNat j =>
    rw [hp] at hfits
    obtain ⟨hle, hlt⟩ := hfits (Int.natCast_nonneg j)
    have hj : j ≤ 308 := Int.ofNat_le.mp hle
    have hw := Whole.of_nearest
      (hx.mul (whole_powerOfTen hj) (hround hpos) (hround (Nat.pow_pos (by decide)))) hlt
    exact ⟨_, enlarge_eq hj hw.finite, isNaN_of_isFinite hw.finite⟩
  | negSucc j => exact ⟨_, rfl, isNaN_reduce (isNaN_of_isFinite hx.finite) (j + 1)⟩

end Numeral

namespace Json

theorem negative_numeral (layout : Layout) (x : Float) :
    (layout.numeral x).negative = decide (0x8000000000000000 ≤ x.toBits.toNat) := by
  have hplace : ∀ negative ds k, (layout.place negative ds k).negative = negative := by
    intro negative ds k
    unfold Layout.place
    split_ifs <;> rfl
  simp only [Layout.numeral]
  split_ifs
  · rw [hplace]
  · rw [hplace]
  · rfl

/-- The two zeros have no shortest decimal. -/
theorem numeral_zero (h : (Binary.ofFloat x).significand = 0) : layout.numeral x =
    ⟨decide (0x8000000000000000 ≤ x.toBits.toNat), ['0'], ['0'], none⟩ := by
  simp only [Layout.numeral, h, if_true]
  rfl

theorem value_numeral_zero (h : (Binary.ofFloat x).significand = 0) :
    (layout.numeral x).value = some (.float x) := by
  have hbits : x.toBits.toNat = 0 ∨ x.toBits.toNat = 0x8000000000000000 := by
    have hlt : x.toBits.toNat < 2 ^ 64 := x.toBits.toNat_lt
    simp only [Binary.ofFloat] at h
    split_ifs at h with hfield
    · unfold Binary.leadingBit at hfield
      change x.toBits.toNat % 0x10000000000000 = 0 at h
      omega
    · exact absurd h (Nat.succ_ne_zero _)
  have hread : (layout.numeral x).Readable := by
    rw [numeral_zero h]
    exact ⟨show Nat.ofDigitChars 10 ['0', '0'] 0 < _ by decide, rfl, .inl (List.cons_ne_nil _ _)⟩
  rw [hread.value_eq, negative_numeral, numeral_zero h]
  refine congrArg (some ∘ Number.float) (totalKey_injective ?_)
  change totalKey (if decide (0x8000000000000000 ≤ x.toBits.toNat) = true then
    -(Numeral.reduce (0 : Nat).toUInt64.toFloat 1) else Numeral.reduce (0 : Nat).toUInt64.toFloat 1) = _
  rw [Numeral.reduce_eq (by decide), totalKey.eq_def x]
  rcases hbits with hbits | hbits <;> rw [hbits] <;> decide +kernel

theorem significand_pos (hx : x.isFinite = true) (h : (Binary.ofFloat x).significand ≠ 0) :
    0 < (layout.numeral x).significand := by
  have hb := Binary.regular_ofFloat hx h
  have hdigits := (Binary.shortened_shortest hb .even).digits_pos hb
  cases (writes_numeral hx h).1 with
  | plain hd => rwa [show Numeral.significand _ = _ from congrArg Decimal.digits hd]
  | full hp hd =>
    rw [show Numeral.significand _ = _ from congrArg Decimal.digits hd]
    exact Nat.mul_pos hdigits (Nat.pow_pos (by decide))

/-- An exact numeral is read as the number it was written for, which is the one nearest to it. -/
theorem value_numeral_exact (hx : x.isFinite = true) (h : (layout.numeral x).Exact) :
    (layout.numeral x).value = some (.float x) := by
  by_cases hz : (Binary.ofFloat x).significand = 0
  · exact value_numeral_zero hz
  · obtain ⟨hwrites, hread⟩ := writes_numeral hx hz
    have hb := Binary.regular_ofFloat hx hz
    have hnearest := hwrites.nearest.trans ((Binary.shortened_shortest hb .even).nearest hb)
    have hfits : Fits (Binary.ofFloat x).steps :=
      (fits_iff hb.pos hb.lt hb.least hb.full).mpr hb.most
    obtain ⟨y, hy, hcounts⟩ :=
      h.scale_eq (significand_pos hx hz) hread.significand_lt (hnearest ▸ hfits)
    have hne : ((Binary.ofFloat x).steps : Int) ≠ 0 :=
      (Int.natCast_pos.mpr (Nat.mul_pos hb.pos (Nat.two_pow_pos _))).ne'
    have hsteps := Binary.steps_ofFloat hx
    rw [hread.value_eq, hy, negative_numeral]
    rw [hnearest] at hcounts
    refine congrArg (some ∘ Number.float) ?_
    unfold signAt at hsteps
    split_ifs at hsteps with hlt
    · rw [if_neg (by simpa using hlt)]
      exact hcounts.eq ⟨hx, hsteps⟩ hne
    · rw [if_pos (by simpa using hlt)]
      exact hcounts.neg.eq ⟨hx, hsteps⟩ (by omega)

/-- What is written for a finite number is read as a number. -/
theorem exists_value_numeral (hx : x.isFinite = true) :
    ∃ y, (layout.numeral x).value = some (.float y) ∧ y.isNaN = false := by
  by_cases hz : (Binary.ofFloat x).significand = 0
  · exact ⟨x, value_numeral_zero hz, isNaN_of_isFinite hx⟩
  · obtain ⟨hwrites, hread⟩ := writes_numeral hx hz
    have hb := Binary.regular_ofFloat hx hz
    have hmost := (Binary.shortened_shortest hb .even).exponent_le hb
    have hfits := Binary.shortest_fits hb .even
    have hscale : 0 ≤ (layout.numeral x).power → (layout.numeral x).power ≤ 308 ∧
        roundBits (roundBits (layout.numeral x).significand *
          roundBits (10 ^ (layout.numeral x).power.toNat)) < 2 ^ 1024 := by
      cases hwrites with
      | plain hd =>
        rw [show Numeral.significand _ = _ from congrArg Decimal.digits hd,
          show Numeral.power _ = _ from congrArg Decimal.exponent hd]
        exact fun hp => ⟨hmost, hfits hp⟩
      | full hp hd =>
        rw [show Numeral.power _ = _ from congrArg Decimal.exponent hd]
        exact fun h => absurd h (show ¬ (0 : Int) ≤ -1 by decide)
    obtain ⟨y, hy, hnan⟩ :=
      Numeral.exists_scale (significand_pos hx hz) hread.significand_lt hscale
    rw [hread.value_eq, hy]
    refine ⟨_, rfl, ?_⟩
    split_ifs
    · rwa [isNaN_float_neg]
    · exact hnan

end Json
end MarketDepth
