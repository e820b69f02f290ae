import Mathlib.Tactic.Ring
import Mathlib.Tactic.Linarith

/-! Rounding natural numbers and their quotients to 53 leading bits, to the nearest and to the even
one of two. Rounding keeps the order of numbers and leaves alone those that fit. -/

namespace MarketDepth

/-- The natural number nearest to a quotient, the even one of two. -/
def nearestQuotient (n d : Nat) : Nat :=
  if 2 * (n % d) < d then n / d
  else if 2 * (n % d) = d then n / d + n / d % 2
  else n / d + 1

/-- The multiple of `2 ^ k` nearest to a number, as a count of `2 ^ k`. -/
def nearestEven (n k : Nat) : Nat :=
  if 2 * (n % 2 ^ k) < 2 ^ k then n / 2 ^ k
  else if 2 * (n % 2 ^ k) = 2 ^ k then n / 2 ^ k + n / 2 ^ k % 2
  else n / 2 ^ k + 1

def surplus (n : Nat) : Nat := n.log2 - 52

def roundBits (n : Nat) : Nat := nearestEven n (surplus n) * 2 ^ surplus n

/-- A quotient rounded to its 53 leading bits. -/
def roundQuotient (n d : Nat) : Nat :=
  nearestQuotient n (d * 2 ^ surplus (n / d)) * 2 ^ surplus (n / d)

theorem nearestEven_eq (n k : Nat) : nearestEven n k = nearestQuotient n (2 ^ k) := rfl

theorem le_nearestQuotient (n d : Nat) : n / d ≤ nearestQuotient n d := by
  unfold nearestQuotient
  split_ifs <;> omega

theorem nearestQuotient_le (n d : Nat) : nearestQuotient n d ≤ n / d + 1 := by
  unfold nearestQuotient
  split_ifs <;> omega

theorem nearestQuotient_one (n : Nat) : nearestQuotient n 1 = n := by
  simp [nearestQuotient, Nat.mod_one]

theorem nearestQuotient_mul_mul (n d : Nat) {c : Nat} (hc : 0 < c) :
    nearestQuotient (n * c) (d * c) = nearestQuotient n d := by
  have hlt : 2 * (n % d * c) < d * c ↔ 2 * (n % d) < d := by
    rw [← Nat.mul_assoc]
    exact Nat.mul_lt_mul_right hc
  have heq : 2 * (n % d * c) = d * c ↔ 2 * (n % d) = d := by
    rw [← Nat.mul_assoc]
    exact Nat.mul_left_inj hc.ne'
  unfold nearestQuotient
  rw [Nat.mul_div_mul_right _ _ hc, Nat.mul_mod_mul_right]
  simp only [hlt, heq]

theorem le_nearestEven (n k : Nat) : n / 2 ^ k ≤ nearestEven n k :=
  le_nearestQuotient n (2 ^ k)

theorem nearestEven_le (n k : Nat) : nearestEven n k ≤ n / 2 ^ k + 1 :=
  nearestQuotient_le n (2 ^ k)

theorem nearestEven_zero (n : Nat) : nearestEven n 0 = n :=
  nearestQuotient_one n

theorem nearestEven_mul (m i j : Nat) : nearestEven (m * 2 ^ i) (i + j) = nearestEven m j := by
  rw [nearestEven_eq, Nat.pow_add, Nat.mul_comm (2 ^ i),
    nearestQuotient_mul_mul _ _ (Nat.two_pow_pos i), nearestEven_eq]

theorem nearestEven_mono {n m : Nat} (h : n ≤ m) (k : Nat) : nearestEven n k ≤ nearestEven m k := by
  have hq : n / 2 ^ k ≤ m / 2 ^ k := Nat.div_le_div_right h
  rcases hq.lt_or_eq with hlt | heq
  · calc nearestEven n k ≤ n / 2 ^ k + 1 := nearestEven_le n k
      _ ≤ m / 2 ^ k := hlt
      _ ≤ nearestEven m k := le_nearestEven m k
  · have hn := Nat.div_add_mod n (2 ^ k)
    have hm := Nat.div_add_mod m (2 ^ k)
    have hr : n % 2 ^ k ≤ m % 2 ^ k := by rw [heq] at hn; omega
    unfold nearestEven
    rw [heq]
    split_ifs <;> omega

theorem two_pow_log2_eq {n : Nat} (h : surplus n ≠ 0) : 2 ^ n.log2 = 2 ^ 52 * 2 ^ surplus n := by
  rw [← Nat.pow_add]
  congr 1
  unfold surplus at h ⊢
  omega

theorem div_surplus_lt (n : Nat) : n / 2 ^ surplus n < 2 ^ 53 := by
  rw [Nat.div_lt_iff_lt_mul (Nat.two_pow_pos _), ← Nat.pow_add]
  exact Nat.lt_log2_self.trans_le
    (Nat.pow_le_pow_right (by decide) (by unfold surplus; omega))

theorem le_div_surplus {n : Nat} (h : surplus n ≠ 0) : 2 ^ 52 ≤ n / 2 ^ surplus n := by
  rw [Nat.le_div_iff_mul_le (Nat.two_pow_pos _), ← two_pow_log2_eq h]
  exact Nat.log2_self_le (by rintro rfl; simp [surplus] at h)

theorem nearestQuotient_surplus_le (n d : Nat) :
    nearestQuotient n (d * 2 ^ surplus (n / d)) ≤ 2 ^ 53 := by
  have hlt := div_surplus_lt (n / d)
  have hle := nearestQuotient_le n (d * 2 ^ surplus (n / d))
  rw [← Nat.div_div_eq_div_mul] at hle
  omega

theorem le_nearestQuotient_surplus {n d : Nat} (h : surplus (n / d) ≠ 0) :
    2 ^ 52 ≤ nearestQuotient n (d * 2 ^ surplus (n / d)) := by
  have hle := le_nearestQuotient n (d * 2 ^ surplus (n / d))
  rw [← Nat.div_div_eq_div_mul] at hle
  exact (le_div_surplus h).trans hle

theorem nearestQuotient_surplus_pos {n d : Nat} (h : 0 < n / d) :
    0 < nearestQuotient n (d * 2 ^ surplus (n / d)) := by
  by_cases hs : surplus (n / d) = 0
  · rw [hs, Nat.pow_zero, Nat.mul_one]
    exact h.trans_le (le_nearestQuotient n d)
  · exact (Nat.two_pow_pos 52).trans_le (le_nearestQuotient_surplus hs)

theorem roundQuotient_one (n : Nat) : roundQuotient n 1 = roundBits n := by
  rw [roundQuotient, Nat.div_one, Nat.one_mul, roundBits, nearestEven_eq]

theorem roundQuotient_mul_mul (n d : Nat) {c : Nat} (hc : 0 < c) :
    roundQuotient (n * c) (d * c) = roundQuotient n d := by
  rw [roundQuotient, Nat.mul_div_mul_right _ _ hc, Nat.mul_right_comm, nearestQuotient_mul_mul _ _ hc,
    roundQuotient]

/-- What a quotient is rounded to depends on the ratio only. -/
theorem roundQuotient_congr {n d n' d' : Nat} (hd : 0 < d) (hd' : 0 < d') (h : n * d' = n' * d) :
    roundQuotient n d = roundQuotient n' d' := by
  rw [← roundQuotient_mul_mul n d hd', h, Nat.mul_comm d, roundQuotient_mul_mul n' d' hd]

theorem nearestEven_surplus_le (n : Nat) : nearestEven n (surplus n) ≤ 2 ^ 53 := by
  have h := nearestQuotient_surplus_le n 1
  rwa [Nat.div_one, Nat.one_mul] at h

theorem le_nearestEven_surplus {n : Nat} (h : surplus n ≠ 0) :
    2 ^ 52 ≤ nearestEven n (surplus n) :=
  (le_div_surplus h).trans (le_nearestEven n _)

theorem roundBits_eq_self {n : Nat} (h : n < 2 ^ 53) : roundBits n = n := by
  have hs : surplus n = 0 := by
    unfold surplus
    rcases Nat.eq_zero_or_pos n with rfl | hn
    · simp
    · have := (Nat.log2_lt hn.ne').mpr h
      omega
  simp [roundBits, hs, nearestEven_zero]

theorem log2_mul_two_pow {m : Nat} (hm : m ≠ 0) (i : Nat) : (m * 2 ^ i).log2 = m.log2 + i := by
  have hpos : 0 < 2 ^ i := Nat.two_pow_pos i
  rw [Nat.log2_eq_iff (Nat.mul_ne_zero hm hpos.ne'), Nat.add_right_comm, Nat.pow_add, Nat.pow_add]
  exact ⟨Nat.mul_le_mul_right _ (Nat.log2_self_le hm),
    Nat.mul_lt_mul_of_pos_right Nat.lt_log2_self hpos⟩

theorem roundBits_mul {m : Nat} (h : m < 2 ^ 53) (i : Nat) : roundBits (m * 2 ^ i) = m * 2 ^ i := by
  rcases Nat.eq_zero_or_pos m with rfl | hm
  · simpa using roundBits_eq_self (n := 0) (by decide)
  · have hlog := (Nat.log2_lt hm.ne').mpr h
    have hle : surplus (m * 2 ^ i) ≤ i := by
      rw [surplus, log2_mul_two_pow hm.ne']
      omega
    obtain ⟨j, hj⟩ := Nat.exists_eq_add_of_le hle
    rw [roundBits]
    generalize surplus (m * 2 ^ i) = k at hj
    have hsplit : m * 2 ^ i = m * 2 ^ j * 2 ^ k := by rw [hj, Nat.pow_add]; ring
    have := nearestEven_mul (m * 2 ^ j) k 0
    rw [nearestEven_zero, Nat.add_zero, ← hsplit] at this
    rw [this, hsplit]

theorem roundBits_mul_two_pow (n i : Nat) : roundBits (n * 2 ^ i) = roundBits n * 2 ^ i := by
  by_cases h : n < 2 ^ 53
  · rw [roundBits_mul h, roundBits_eq_self h]
  · have hn : n ≠ 0 := by omega
    have hlog := (Nat.le_log2 hn).mpr (Nat.le_of_not_lt h)
    have hs : surplus (n * 2 ^ i) = i + surplus n := by
      rw [surplus, log2_mul_two_pow hn, surplus]
      omega
    rw [roundBits, hs, nearestEven_mul, Nat.pow_add, Nat.mul_comm (2 ^ i), ← Nat.mul_assoc, roundBits]

theorem two_pow_log2_le_roundBits {n : Nat} (hn : n ≠ 0) : 2 ^ n.log2 ≤ roundBits n := by
  by_cases h : surplus n = 0
  · simpa [roundBits, h, nearestEven_zero] using Nat.log2_self_le hn
  · rw [two_pow_log2_eq h]
    exact Nat.mul_le_mul_right _ (le_nearestEven_surplus h)

theorem roundBits_le_two_pow (n : Nat) : roundBits n ≤ 2 ^ (n.log2 + 1) := by
  by_cases h : surplus n = 0
  · simpa [roundBits, h, nearestEven_zero] using Nat.lt_log2_self.le
  · rw [Nat.pow_succ, two_pow_log2_eq h, Nat.mul_right_comm]
    exact Nat.mul_le_mul_right _ (nearestEven_surplus_le n)

/-- Numbers of one length are rounded at the same place; a shorter one stays below the power of two
that a longer one does not fall below. -/
theorem roundBits_mono {n m : Nat} (h : n ≤ m) : roundBits n ≤ roundBits m := by
  rcases Nat.eq_zero_or_pos n with rfl | hn
  · simp [roundBits_eq_self (n := 0) (by decide)]
  have hm : m ≠ 0 := by omega
  have hlog : n.log2 ≤ m.log2 := (Nat.le_log2 hm).mpr ((Nat.log2_self_le hn.ne').trans h)
  rcases hlog.lt_or_eq with hlt | heq
  · calc roundBits n ≤ 2 ^ (n.log2 + 1) := roundBits_le_two_pow n
      _ ≤ 2 ^ m.log2 := Nat.pow_le_pow_right (by decide) hlt
      _ ≤ roundBits m := two_pow_log2_le_roundBits hm
  · have hs : surplus n = surplus m := by simp only [surplus, heq]
    rw [roundBits, roundBits, hs]
    exact Nat.mul_le_mul_right _ (nearestEven_mono h _)

/-- A quotient rounds to the number whose interval it lies in. The ends of the interval round to the
even number. -/
theorem nearestQuotient_eq {n d m : Nat} (hlo : 2 * (m * d) ≤ 2 * n + d)
    (hhi : 2 * n ≤ 2 * (m * d) + d)
    (hodd : m % 2 = 1 → 2 * (m * d) < 2 * n + d ∧ 2 * n < 2 * (m * d) + d) (hd : 0 < d) :
    nearestQuotient n d = m := by
  have hn := Nat.div_add_mod n d
  have hr := Nat.mod_lt n hd
  have hle : n / d ≤ m := by
    by_contra hlt
    have := Nat.mul_le_mul_left d (show m + 1 ≤ n / d by omega)
    rw [Nat.mul_add, Nat.mul_comm d m] at this
    omega
  have hge : m ≤ n / d + 1 := by
    by_contra hlt
    have := Nat.mul_le_mul_left d (show n / d + 2 ≤ m by omega)
    rw [Nat.mul_add, Nat.mul_comm d m] at this
    omega
  unfold nearestQuotient
  obtain heq | heq : n / d = m ∨ n / d + 1 = m := by omega
  · rw [heq, Nat.mul_comm d m] at hn
    rw [heq]
    split_ifs <;> omega
  · have hm : m * d = d * (n / d) + d := by rw [← heq]; ring
    split_ifs <;> omega

theorem surplus_eq {n k : Nat} (hlo : 2 ^ 52 * 2 ^ k ≤ n ∨ k = 0) (hhi : n < 2 ^ 53 * 2 ^ k) :
    surplus n = k := by
  rw [← Nat.pow_add] at hlo hhi
  unfold surplus
  rcases Nat.eq_zero_or_pos n with rfl | hn
  · have := Nat.two_pow_pos (52 + k)
    simp
    omega
  · have hlt := (Nat.log2_lt hn.ne').mpr hhi
    rcases hlo with hlo | rfl
    · have hge := (Nat.le_log2 hn.ne').mpr hlo
      omega
    · omega

/-- How far down from a number of the format the quotients reach that round to it, in quarters of its
last place: the numbers below a power of two are twice as dense. -/
def reachBelow (m k : Nat) : Nat := if m = 2 ^ 52 ∧ k ≠ 0 then 1 else 2

theorem roundQuotient_eq {n d m k : Nat} (hd : 0 < d) (hm : m < 2 ^ 53) (hk : 2 ^ 52 ≤ m ∨ k = 0)
    (hlo : 4 * (m * (d * 2 ^ k)) ≤ 4 * n + reachBelow m k * (d * 2 ^ k))
    (hhi : 4 * n ≤ 4 * (m * (d * 2 ^ k)) + 2 * (d * 2 ^ k))
    (hodd : m % 2 = 1 → 4 * (m * (d * 2 ^ k)) < 4 * n + reachBelow m k * (d * 2 ^ k) ∧
      4 * n < 4 * (m * (d * 2 ^ k)) + 2 * (d * 2 ^ k)) :
    roundQuotient n d = m * 2 ^ k := by
  have hpos : 0 < d * 2 ^ k := Nat.mul_pos hd (Nat.two_pow_pos k)
  have hbelow : n < m * (d * 2 ^ k) + d * 2 ^ k := by omega
  have hreach : reachBelow m k * (d * 2 ^ k) ≤ 2 * (d * 2 ^ k) :=
    Nat.mul_le_mul_right _ (by unfold reachBelow; split_ifs <;> omega)
  by_cases hleast : 2 ^ 52 * 2 ^ k * d ≤ n ∨ k = 0
  · have hs : surplus (n / d) = k := by
      refine surplus_eq (hleast.imp_left (Nat.le_div_iff_mul_le hd).mpr) ?_
      rw [Nat.div_lt_iff_lt_mul hd, Nat.mul_assoc, Nat.mul_comm (2 ^ k)]
      have hmul := Nat.mul_le_mul_right (d * 2 ^ k) (show m + 1 ≤ 2 ^ 53 from hm)
      rw [Nat.add_mul, Nat.one_mul] at hmul
      exact hbelow.trans_le hmul
    have hq : nearestQuotient n (d * 2 ^ k) = m :=
      nearestQuotient_eq (by omega) (by omega) (fun h => by have := hodd h; omega) hpos
    rw [roundQuotient, hs, hq]
  · -- The quotient is below the power of two that it rounds to, and is rounded one place further down.
    push Not at hleast
    obtain ⟨hless, hkne⟩ := hleast
    obtain ⟨j, rfl⟩ : ∃ j, k = j + 1 := Nat.exists_eq_succ_of_ne_zero hkne
    have hc : d * 2 ^ (j + 1) = 2 * (d * 2 ^ j) := by rw [Nat.pow_succ]; ring
    have hlt : n < 2 ^ 53 * (d * 2 ^ j) := by
      calc n < 2 ^ 52 * 2 ^ (j + 1) * d := hless
        _ = 2 ^ 53 * (d * 2 ^ j) := by rw [Nat.pow_succ]; ring
    have hmeq : m = 2 ^ 52 := by
      refine ((hk.resolve_right hkne).eq_or_lt.resolve_right fun hgt => ?_).symm
      have hmul := Nat.mul_le_mul_right (d * 2 ^ (j + 1)) (show 2 ^ 52 + 1 ≤ m from hgt)
      omega
    subst hmeq
    have hr : reachBelow (2 ^ 52) (j + 1) = 1 := if_pos ⟨rfl, hkne⟩
    rw [hr, hc] at hlo
    have hs : surplus (n / d) = j := by
      refine surplus_eq (.inl ((Nat.le_div_iff_mul_le hd).mpr ?_)) ?_
      · rw [Nat.mul_assoc, Nat.mul_comm (2 ^ j)]
        omega
      · rw [Nat.div_lt_iff_lt_mul hd, Nat.mul_assoc, Nat.mul_comm (2 ^ j)]
        exact hlt
    have hq : nearestQuotient n (d * 2 ^ j) = 2 ^ 53 :=
      nearestQuotient_eq (by omega) (by omega) (by omega) (Nat.mul_pos hd (Nat.two_pow_pos j))
    rw [roundQuotient, hs, hq, Nat.pow_succ 2 j]
    ring

/-- The interval may be measured on any scale. -/
theorem roundQuotient_of_scaled {n d m k q v : Nat} (hd : 0 < d) (hm : m < 2 ^ 53)
    (hk : 2 ^ 52 ≤ m ∨ k = 0) (hq : 0 < q) (hv : 4 * n * q = v * (d * 2 ^ k))
    (hlo : 4 * m * q ≤ v + reachBelow m k * q) (hhi : v ≤ (4 * m + 2) * q)
    (hodd : m % 2 = 1 → 4 * m * q < v + reachBelow m k * q ∧ v < (4 * m + 2) * q) :
    roundQuotient n d = m * 2 ^ k := by
  have hw : 0 < d * 2 ^ k := Nat.mul_pos hd (Nat.two_pow_pos k)
  have hmid : 4 * (m * (d * 2 ^ k)) * q = 4 * m * q * (d * 2 ^ k) := by ring
  have hbelow : (4 * n + reachBelow m k * (d * 2 ^ k)) * q =
      (v + reachBelow m k * q) * (d * 2 ^ k) := by
    rw [Nat.add_mul, hv]
    ring
  have habove : (4 * (m * (d * 2 ^ k)) + 2 * (d * 2 ^ k)) * q = (4 * m + 2) * q * (d * 2 ^ k) := by
    ring
  refine roundQuotient_eq hd hm hk ?_ ?_ fun h => ⟨?_, ?_⟩
  · rw [← Nat.mul_le_mul_right_iff hq, hmid, hbelow]
    exact Nat.mul_le_mul_right _ hlo
  · rw [← Nat.mul_le_mul_right_iff hq, hv, habove]
    exact Nat.mul_le_mul_right _ hhi
  · rw [← Nat.mul_lt_mul_right hq, hmid, hbelow]
    exact Nat.mul_lt_mul_of_pos_right (hodd h).1 hw
  · rw [← Nat.mul_lt_mul_right hq, hv, habove]
    exact Nat.mul_lt_mul_of_pos_right (hodd h).2 hw

end MarketDepth
