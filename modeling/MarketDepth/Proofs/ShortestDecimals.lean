import MarketDepth.Decimal.Shortest
import MarketDepth.Proofs.Quotients

/-! The shortest decimal of a number. There always is one, it lies where decimals round to the number,
and its digits fit in sixty-four bits. -/

namespace MarketDepth

open Float.Model Float.Model.UnpackedFloat

/-- The count of steps nearest to a decimal. -/
def Decimal.nearest (d : Decimal) : Nat :=
  roundQuotient (d.digits * 10 ^ d.exponent.toNat * unit) (10 ^ (-d.exponent).toNat)

namespace Binary

/-- The magnitude of a finite number other than zero, as its bits write it. -/
structure Regular (b : Binary) : Prop where
  pos : 0 < b.significand
  lt : b.significand < 2 ^ 53
  least : -1074 ≤ b.exponent
  most : b.exponent ≤ 971
  full : 2 ^ 52 ≤ b.significand ∨ b.exponent = -1074

def steps (b : Binary) : Nat := b.significand * 2 ^ (b.exponent + 1074).toNat

theorem unpack_ofFloat {x : Float} (hx : x.isFinite = true) :
    ((ofFloat x).significand = 0 ∧ x.toModel.unpack = .zero (signAt x.toBits.toNat)) ∨
      ∃ hm, x.toModel.unpack =
        .finite (signAt x.toBits.toNat) (ofFloat x).significand (ofFloat x).exponent hm := by
  have hfield := (isFinite_iff_bits x).mp hx
  have hlow : x.toBits.toNat % 2 ^ 63 % 2 ^ 52 = x.toBits.toNat % leadingBit :=
    Nat.mod_mod_of_dvd _ (by decide : 2 ^ 52 ∣ 2 ^ 63)
  have hhigh : x.toBits.toNat % 2 ^ 63 / 2 ^ 52 = x.toBits.toNat / leadingBit % 2048 := by
    unfold leadingBit
    omega
  have hof : ofFloat x = if x.toBits.toNat / leadingBit % 2048 = 0
      then ⟨x.toBits.toNat % leadingBit, -1074⟩
      else ⟨x.toBits.toNat % leadingBit + leadingBit,
        (x.toBits.toNat / leadingBit % 2048 : Nat) - 1075⟩ := rfl
  rw [← hlow, ← hhigh] at hof
  rw [unpack_float, decode, if_neg hfield]
  by_cases hzero : x.toBits.toNat % 2 ^ 63 / 2 ^ 52 = 0
  · rw [if_pos hzero] at hof ⊢
    rw [hof]
    by_cases hempty : x.toBits.toNat % 2 ^ 63 % 2 ^ 52 = 0
    · exact .inl ⟨hempty, dif_pos hempty⟩
    · exact .inr ⟨Nat.pos_of_ne_zero hempty, dif_neg hempty⟩
  · rw [if_neg hzero] at hof ⊢
    rw [hof]
    exact .inr ⟨Nat.add_pos_right _ (by decide), finite_congr rfl (Nat.add_comm _ _) rfl⟩

theorem regular_ofFloat {x : Float} (hx : x.isFinite = true) (h : (ofFloat x).significand ≠ 0) :
    Regular (ofFloat x) := by
  obtain ⟨hz, -⟩ | ⟨hm, hu⟩ := unpack_ofFloat hx
  · exact absurd hz h
  · have hc := canonical_unpack x
    rw [hu] at hc
    obtain ⟨hlt, hlo, hmin, hhi⟩ := hc
    exact ⟨hm, hlt, hlo, hhi, hmin⟩

theorem steps_ofFloat {x : Float} (hx : x.isFinite = true) :
    MarketDepth.steps x = (signAt x.toBits.toNat).apply (ofFloat x).steps := by
  obtain ⟨hz, hu⟩ | ⟨hm, hu⟩ := unpack_ofFloat hx
  · rw [MarketDepth.steps, hu, steps, hz, Nat.zero_mul]
    cases signAt x.toBits.toNat <;> rfl
  · rw [MarketDepth.steps, hu]
    rfl

section Grid

variable {b : Binary} {p : Int} {c : Nat} {tie : Tie}

theorem quarterScale_pos (b : Binary) (p : Int) : 0 < b.quarterScale p :=
  Nat.mul_pos (Nat.pow_pos (by decide)) (Nat.pow_pos (by decide))

theorem stepScale_pos (b : Binary) (p : Int) : 0 < b.stepScale p :=
  Nat.mul_pos (Nat.pow_pos (by decide)) (Nat.pow_pos (by decide))

theorem gapBelow_eq (h : b.Regular) :
    b.gapBelow = reachBelow b.significand (b.exponent + 1074).toNat := by
  have hl := h.least
  unfold gapBelow reachBelow
  refine if_congr ?_ rfl rfl
  rw [Bool.and_eq_true, decide_eq_true_eq, bne_iff_ne]
  refine and_congr Iff.rfl ?_
  omega

theorem gapBelow_le (b : Binary) : b.gapBelow ≤ 2 := by
  unfold gapBelow
  split_ifs <;> decide

theorem gapBelow_pos (b : Binary) : 0 < b.gapBelow := by
  unfold gapBelow
  split_ifs <;> decide

/-- The decimals that read back, with everything in quarters of the last place. -/
theorem covers_iff : b.covers p c = true ↔
    4 * b.significand * b.quarterScale p ≤ c * b.stepScale p + b.gapBelow * b.quarterScale p ∧
      c * b.stepScale p ≤ (4 * b.significand + 2) * b.quarterScale p ∧
      (b.significand % 2 = 1 →
        4 * b.significand * b.quarterScale p < c * b.stepScale p + b.gapBelow * b.quarterScale p ∧
          c * b.stepScale p < (4 * b.significand + 2) * b.quarterScale p) := by
  have hodd : b.significand % 2 = 1 →
      b.gapBelow * b.quarterScale p ≤ 4 * b.significand * b.quarterScale p := fun h =>
    Nat.mul_le_mul_right _ (b.gapBelow_le.trans (by omega))
  unfold covers
  rw [Nat.sub_mul]
  split_ifs with h
  · simp only [Bool.and_eq_true, decide_eq_true_eq]
    omega
  · simp only [Bool.and_eq_true, decide_eq_true_eq]
    omega

theorem scales_eq (h : b.Regular) (p : Int) :
    4 * unit * (b.quarterScale p * 10 ^ p.toNat) =
      b.stepScale p * (10 ^ (-p).toNat * 2 ^ (b.exponent + 1074).toNat) := by
  have hl := h.least
  have hpow : 2 ^ 2 * unit * 2 ^ (b.exponent - 2).toNat =
      2 ^ (2 - b.exponent).toNat * 2 ^ (b.exponent + 1074).toNat := by
    rw [unit]
    generalize hi : (1074 : Nat) = i
    rw [← Nat.pow_add, ← Nat.pow_add, ← Nat.pow_add]
    congr 1
    omega
  change 4 * unit * (2 ^ (b.exponent - 2).toNat * 10 ^ (-p).toNat * 10 ^ p.toNat) =
    2 ^ (2 - b.exponent).toNat * 10 ^ p.toNat * (10 ^ (-p).toNat * 2 ^ (b.exponent + 1074).toNat)
  calc 4 * unit * (2 ^ (b.exponent - 2).toNat * 10 ^ (-p).toNat * 10 ^ p.toNat)
      = 2 ^ 2 * unit * 2 ^ (b.exponent - 2).toNat * (10 ^ (-p).toNat * 10 ^ p.toNat) := by ring
    _ = _ := by rw [hpow]; ring

/-- A decimal that is said to read back is nearest to the number it is written for. -/
theorem nearest_of_covers (hb : b.Regular) (h : b.covers p c = true) :
    (Decimal.mk c p).nearest = b.steps := by
  obtain ⟨hlo, hhi, hodd⟩ := covers_iff.mp h
  rw [gapBelow_eq hb] at hlo hodd
  have hcount : 4 * (c * 10 ^ p.toNat * unit) * b.quarterScale p =
      c * b.stepScale p * (10 ^ (-p).toNat * 2 ^ (b.exponent + 1074).toNat) := by
    rw [Nat.mul_assoc c (b.stepScale p), ← scales_eq hb p]
    ring
  exact roundQuotient_of_scaled (Nat.pow_pos (by decide)) hb.lt
    (hb.full.imp_right fun h => by omega) (b.quarterScale_pos p) hcount hlo hhi hodd

theorem covers_of_onGrid (h : b.onGrid tie p = some c) : b.covers p c = true := by
  simp only [onGrid] at h
  split at h
  case h_1 => cases tie <;> split_ifs at h <;> cases h <;> assumption
  case h_2 hlow _ => rwa [← Option.some_inj.mp h]
  case h_3 _ hhigh => rwa [← Option.some_inj.mp h]
  case h_4 => cases h

/-- A grid with steps of less than three quarters of the last place. -/
def Fine (b : Binary) (p : Int) : Prop := b.stepScale p < 3 * b.quarterScale p

instance : Decidable (b.Fine p) := inferInstanceAs (Decidable (_ < _))

theorem Fine.isSome (h : b.Fine p) (tie : Tie) : (b.onGrid tie p).isSome = true := by
  have hgap := Nat.mul_le_mul_right (b.quarterScale p) b.gapBelow_pos
  have hcovers : b.covers p (4 * b.significand * b.quarterScale p / b.stepScale p) = true ∨
      b.covers p (4 * b.significand * b.quarterScale p / b.stepScale p + 1) = true := by
    have hlow := Nat.div_mul_le_self (4 * b.significand * b.quarterScale p) (b.stepScale p)
    have hhigh := Nat.lt_div_mul_add (b.stepScale_pos p) (a := 4 * b.significand * b.quarterScale p)
    by_contra hnone
    rw [not_or, covers_iff, covers_iff] at hnone
    simp only [Nat.add_mul, Nat.one_mul] at hnone
    generalize 4 * b.significand * b.quarterScale p / b.stepScale p * b.stepScale p = low at *
    unfold Fine at h
    omega
  simp only [onGrid]
  split
  case h_1 => cases tie <;> split_ifs <;> rfl
  case h_2 => rfl
  case h_3 => rfl
  case h_4 hlow hhigh => simp [hlow, hhigh] at hcovers

/-- Coarser grids are fine for larger exponents. -/
theorem Fine.mono {b' : Binary} {p' : Int} (h : b.Fine p) (hb : b.exponent ≤ b'.exponent)
    (hp : p' ≤ p) : b'.Fine p' := by
  have hle : ∀ {n i j : Nat}, i ≤ j → (n + 1) ^ i ≤ (n + 1) ^ j :=
    Nat.pow_le_pow_right (Nat.succ_pos _)
  calc b'.stepScale p' ≤ b.stepScale p := Nat.mul_le_mul (hle (by omega)) (hle (by omega))
    _ < 3 * b.quarterScale p := h
    _ ≤ 3 * b'.quarterScale p' :=
      Nat.mul_le_mul_left 3 (Nat.mul_le_mul (hle (by omega)) (hle (by omega)))

/-- The logarithm of two that `topExponent` counts with is good enough for every exponent there is:
grids are fine nineteen places below the magnitude, and are not just above it. There is room for
checking one exponent in eight only. -/
theorem fine_bounds {e : Int} (hlo : -1074 ≤ e) (hhi : e ≤ 971) :
    Fine ⟨1, e⟩ ((53 + e) * 30103 / 100000 - 19) ∧ ¬ Fine ⟨1, e⟩ ((1 + e) * 30103 / 100000 + 3) := by
  have hall : ∀ k : Nat, k < 256 →
      Fine ⟨1, 8 * k - 1074⟩ ((8 * k - 1014) * 30103 / 100000 - 19) ∧
        ¬ Fine ⟨1, 8 * k - 1067⟩ ((8 * k - 1073) * 30103 / 100000 + 3) := by decide +kernel
  obtain ⟨k, hle, hlt⟩ : ∃ k : Nat, 8 * (k : Int) - 1074 ≤ e ∧ e ≤ 8 * k - 1067 :=
    ⟨((e + 1074) / 8).toNat, by omega, by omega⟩
  obtain ⟨hfine, hcoarse⟩ := hall k (by omega)
  exact ⟨hfine.mono hle (by omega), fun h => hcoarse (h.mono hlt (by omega))⟩

theorem scale_succ (b : Binary) (p : Int) : b.stepScale (p + 1) * b.quarterScale p =
    10 * (b.stepScale p * b.quarterScale (p + 1)) := by
  have hexp : 10 ^ (p + 1).toNat * 10 ^ (-p).toNat =
      10 * (10 ^ p.toNat * 10 ^ (-(p + 1)).toNat) := by
    rw [← Nat.pow_add, ← Nat.pow_add, ← Nat.pow_succ']
    congr 1
    omega
  unfold stepScale quarterScale
  simp only [Nat.pow_eq]
  calc 2 ^ (2 - b.exponent).toNat * 10 ^ (p + 1).toNat *
        (2 ^ (b.exponent - 2).toNat * 10 ^ (-p).toNat)
      = 2 ^ (2 - b.exponent).toNat * 2 ^ (b.exponent - 2).toNat *
          (10 ^ (p + 1).toNat * 10 ^ (-p).toNat) := by ring
    _ = _ := by rw [hexp]; ring

theorem findSome?_range {α : Type} {f : Nat → Option α} {n : Nat} {a : α}
    (h : (List.range n).findSome? f = some a) :
    ∃ i < n, f i = some a ∧ ∀ j < i, f j = none := by
  obtain ⟨l₁, i, l₂, hl, hi, hnone⟩ := List.findSome?_eq_some_iff.mp h
  rw [List.range_eq_range', List.range'_eq_append_iff] at hl
  obtain ⟨k, -, rfl, hk⟩ := hl
  obtain ⟨rfl, hpos, -⟩ := List.range'_eq_cons_iff.mp hk.symm
  exact ⟨_, by omega, hi, fun j hj => hnone j (List.mem_range'_1.mpr (by omega))⟩

/-- A decimal that reads back, from a grid that is at most one step below those that are not fine. -/
structure Shortened (b : Binary) (d : Decimal) : Prop where
  covers : b.covers d.exponent d.digits = true
  coarse : ¬ b.Fine (d.exponent + 1)
  least : b.topExponent - 21 ≤ d.exponent

theorem shortened_shortest (hb : b.Regular) (tie : Tie) : b.Shortened (b.shortest tie) := by
  obtain ⟨hfine, hcoarse⟩ := fine_bounds hb.least hb.most
  have hlog : b.significand.log2 < 53 := (Nat.log2_lt hb.pos.ne').mpr hb.lt
  have hlast : b.Fine (b.topExponent - 21) :=
    hfine.mono le_rfl (by unfold topExponent; omega)
  have hfirst : ¬ b.Fine (b.topExponent + 1) := fun h =>
    hcoarse (h.mono le_rfl (by unfold topExponent; omega))
  unfold shortest
  cases hfind : (List.range 22).findSome? fun (i : Nat) =>
      (b.onGrid tie (b.topExponent - i)).map fun digits =>
        (⟨digits, b.topExponent - i⟩ : Decimal) with
  | none =>
    have hnone := List.findSome?_eq_none_iff.mp hfind 21 (by decide)
    exact absurd (hlast.isSome tie) (by simpa using hnone)
  | some d =>
    obtain ⟨i, hi, hsome, hnone⟩ := findSome?_range hfind
    obtain ⟨c, hc, rfl⟩ := Option.map_eq_some_iff.mp hsome
    refine ⟨covers_of_onGrid hc, fun hf => ?_, ?_⟩
    · cases i with
      | zero => exact hfirst (by simpa using hf)
      | succ i =>
        have hprev := hnone i i.lt_succ_self
        have hle : b.topExponent - i ≤ b.topExponent - ((i + 1 : Nat) : Int) + 1 := by omega
        have hsome := (hf.mono le_rfl hle).isSome tie
        rw [Option.map_eq_none_iff.mp hprev] at hsome
        cases hsome
    · change b.topExponent - 21 ≤ b.topExponent - i
      omega

namespace Shortened

variable {d : Decimal}

theorem nearest (h : b.Shortened d) (hb : b.Regular) : d.nearest = b.steps :=
  nearest_of_covers hb h.covers

theorem digits_pos (h : b.Shortened d) (hb : b.Regular) : 0 < d.digits := by
  obtain ⟨hlo, -⟩ := covers_iff.mp h.covers
  refine Nat.pos_of_ne_zero fun hz => ?_
  rw [hz, Nat.zero_mul, Nat.zero_add] at hlo
  have := Nat.le_of_mul_le_mul_right hlo (b.quarterScale_pos _)
  have := b.gapBelow_le
  have := hb.pos
  omega

/-- Ten times coarser, a step would be at least three quarters of the last place. -/
theorem digits_lt (h : b.Shortened d) (hb : b.Regular) : d.digits < 2 ^ 57 := by
  obtain ⟨-, hhi, -⟩ := covers_iff.mp h.covers
  have hcoarse : 3 * b.quarterScale (d.exponent + 1) ≤ b.stepScale (d.exponent + 1) :=
    Nat.not_lt.mp h.coarse
  have hpos := Nat.mul_pos (b.quarterScale_pos (d.exponent + 1)) (b.quarterScale_pos d.exponent)
  have hlt := hb.lt
  have hthree : 3 * d.digits ≤ 10 * (4 * b.significand + 2) := by
    refine Nat.le_of_mul_le_mul_right ?_ hpos
    calc 3 * d.digits * (b.quarterScale (d.exponent + 1) * b.quarterScale d.exponent)
        = d.digits * (3 * b.quarterScale (d.exponent + 1) * b.quarterScale d.exponent) := by ring
      _ ≤ d.digits * (b.stepScale (d.exponent + 1) * b.quarterScale d.exponent) :=
        Nat.mul_le_mul_left _ (Nat.mul_le_mul_right _ hcoarse)
      _ = 10 * (d.digits * b.stepScale d.exponent) * b.quarterScale (d.exponent + 1) := by
        rw [scale_succ]; ring
      _ ≤ 10 * ((4 * b.significand + 2) * b.quarterScale d.exponent) *
          b.quarterScale (d.exponent + 1) :=
        Nat.mul_le_mul_right _ (Nat.mul_le_mul_left _ hhi)
      _ = 10 * (4 * b.significand + 2) *
          (b.quarterScale (d.exponent + 1) * b.quarterScale d.exponent) := by ring
  omega

theorem mul_pow_le (h : b.Shortened d) (hp : 0 ≤ d.exponent) {v : Nat}
    (hv : (4 * b.significand + 2) * 2 ^ (b.exponent - 2).toNat ≤ v * 2 ^ (2 - b.exponent).toNat) :
    d.digits * 10 ^ d.exponent.toNat ≤ v := by
  obtain ⟨-, hhi, -⟩ := covers_iff.mp h.covers
  have hzero : (-d.exponent).toNat = 0 := by omega
  unfold stepScale quarterScale at hhi
  rw [hzero, Nat.pow_eq, Nat.pow_eq, Nat.pow_eq, Nat.pow_eq, Nat.pow_zero, Nat.mul_one] at hhi
  refine Nat.le_of_mul_le_mul_right ?_ (Nat.two_pow_pos (2 - b.exponent).toNat)
  calc d.digits * 10 ^ d.exponent.toNat * 2 ^ (2 - b.exponent).toNat
      = d.digits * (2 ^ (2 - b.exponent).toNat * 10 ^ d.exponent.toNat) := by ring
    _ ≤ _ := hhi.trans hv

end Shortened

/-- The largest number of all. -/
def largest : Binary := ⟨2 ^ 53 - 1, 971⟩

theorem two_pow_exponent_le {e : Int} (h : e ≤ 971) :
    2 ^ (e - 2).toNat ≤ 2 ^ 969 * 2 ^ (2 - e).toNat := by
  rw [← Nat.pow_add]
  exact Nat.pow_le_pow_right (by decide) (by omega)

theorem Regular.quarters_le (hb : b.Regular) :
    (4 * b.significand + 2) * 2 ^ (b.exponent - 2).toNat ≤
      (2 ^ 55 - 2) * 2 ^ 969 * 2 ^ (2 - b.exponent).toNat := by
  rw [Nat.mul_assoc]
  exact Nat.mul_le_mul (by have := hb.lt; omega) (two_pow_exponent_le hb.most)

/-- The second largest number has a significand less by one. -/
theorem Regular.quarters_le_of_ne (hb : b.Regular) (hne : b ≠ largest) :
    (4 * b.significand + 2) * 2 ^ (b.exponent - 2).toNat ≤
      (2 ^ 55 - 6) * 2 ^ 969 * 2 ^ (2 - b.exponent).toNat := by
  have hlt := hb.lt
  rcases Int.lt_or_eq_of_le hb.most with hless | heq
  · have hpow : 2 * 2 ^ (b.exponent - 2).toNat ≤ 2 ^ 969 * 2 ^ (2 - b.exponent).toNat := by
      rw [← Nat.pow_succ', ← Nat.pow_add]
      exact Nat.pow_le_pow_right (by decide) (by omega)
    rw [Nat.mul_assoc]
    refine (Nat.mul_le_mul_left _ hpow).trans' ?_
    rw [← Nat.mul_assoc]
    exact Nat.mul_le_mul_right _ (by omega)
  · have hsig : b.significand ≠ 2 ^ 53 - 1 := fun h => hne (by
      obtain ⟨m, e⟩ := b
      simp only at h heq
      rw [h, heq, largest])
    rw [Nat.mul_assoc]
    exact Nat.mul_le_mul (by omega) (two_pow_exponent_le hb.most)

theorem Shortened.exponent_le {d : Decimal} (h : b.Shortened d) (hb : b.Regular) :
    d.exponent ≤ 308 := by
  by_contra hlt
  have hle := h.mul_pow_le (by omega) hb.quarters_le
  have hpow : ∀ {k}, k ≤ d.exponent.toNat → 10 ^ k ≤ 10 ^ d.exponent.toNat :=
    Nat.pow_le_pow_right (by decide)
  have hlarge := (hpow (show 309 ≤ d.exponent.toNat by omega)).trans
    (Nat.le_mul_of_pos_left _ (h.digits_pos hb))
  exact absurd (hlarge.trans hle) (by decide +kernel)

theorem Shortened.le_exponent {d : Decimal} (h : b.Shortened d) (hb : b.Regular) :
    -343 ≤ d.exponent := by
  have hleast := h.least
  have hexp := hb.least
  unfold topExponent at hleast
  omega

/-- The digits and the power of ten of a shortest decimal, each rounded to a number, multiply to a
number. The largest one is the only one close enough to the limit to be looked at by itself. -/
theorem shortest_fits (hb : b.Regular) (tie : Tie) (hp : 0 ≤ (b.shortest tie).exponent) :
    roundBits (roundBits (b.shortest tie).digits *
      roundBits (10 ^ (b.shortest tie).exponent.toNat)) < 2 ^ 1024 := by
  by_cases hmax : b = largest
  · subst hmax
    cases tie <;> decide +kernel
  · have h := shortened_shortest hb tie
    have hdigits := h.digits_lt hb
    have hle := h.mul_pow_le hp (hb.quarters_le_of_ne hmax)
    have hexp := h.exponent_le hb
    generalize b.shortest tie = d at *
    have hmono : ∀ {m n k l}, m ≤ k → n ≤ l →
        roundBits (roundBits m * roundBits n) ≤ roundBits (roundBits k * roundBits l) :=
      fun hm hn => roundBits_mono (Nat.mul_le_mul (roundBits_mono hm) (roundBits_mono hn))
    by_cases hfew : d.exponent ≤ 291
    · calc roundBits (roundBits d.digits * roundBits (10 ^ d.exponent.toNat))
          ≤ roundBits (roundBits (2 ^ 57) * roundBits (10 ^ 291)) :=
            hmono hdigits.le (Nat.pow_le_pow_right (by decide) (by omega))
        _ < 2 ^ 1024 := by decide +kernel
    · have hall : ∀ k < 17, roundBits (roundBits ((2 ^ 55 - 6) * 2 ^ 969 / 10 ^ (292 + k)) *
          roundBits (10 ^ (292 + k))) < 2 ^ 1024 := by decide +kernel
      obtain ⟨k, hk⟩ : ∃ k, d.exponent.toNat = 292 + k := ⟨d.exponent.toNat - 292, by omega⟩
      rw [hk] at hle ⊢
      refine (hmono ?_ le_rfl).trans_lt (hall k (by omega))
      exact (Nat.le_div_iff_mul_le (Nat.pow_pos (by decide))).mpr hle

end Grid
end Binary
end MarketDepth
