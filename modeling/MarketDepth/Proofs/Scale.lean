import Mathlib.Data.Set.Basic
import Mathlib.Data.Int.ConditionallyCompleteOrder
import MarketDepth.Side
import MarketDepth.Proofs.Sums

/-! Prices whose equality is transitive have a scale: each price has an integer place, and a side
ranks two prices as their places stand. Everything about ladders is shown on such a scale. -/

namespace MarketDepth

theorem near_comm (a b : Float) : near a b = near b a := by
  rw [Bool.eq_iff_iff, near_iff, near_iff, ← Int.natAbs_neg, Int.neg_sub]
  exact and_left_comm

theorem near_of_between {a b c : Float} (h : near a c = true) (hab : totalKey a ≤ totalKey b)
    (hbc : totalKey b ≤ totalKey c) : near b c = true := by
  obtain ⟨ha, hc, hlt⟩ := (near_iff a c).mp h
  have hb : b.isFinite = true := by
    have hla := (isFinite_iff_totalKey a).mp ha
    have hlc := (isFinite_iff_totalKey c).mp hc
    rw [isFinite_iff_totalKey]
    omega
  have hsab := steps_le_of_totalKey_le ha hb hab
  have hsbc := steps_le_of_totalKey_le hb hc hbc
  have hmono := roundBits_mono
    (show (steps b - steps c).natAbs ≤ (steps a - steps c).natAbs by omega)
  exact (near_iff b c).mpr ⟨hb, hc, by omega⟩

namespace Price

theorem compare_eq_iff (a b : Price) :
    a.compare b = .eq ↔ near a.value b.value = true ∨ totalKey a.value = totalKey b.value := by
  unfold compare
  split_ifs with h
  · simp [h]
  · simp [h]

theorem compare_lt_iff (a b : Price) :
    a.compare b = .lt ↔ near a.value b.value = false ∧ totalKey a.value < totalKey b.value := by
  unfold compare
  split_ifs with h
  · simp [h]
  · simp [h, Int.compare_eq_lt]

theorem compare_refl (a : Price) : a.compare a = .eq :=
  (compare_eq_iff a a).mpr (.inr rfl)

theorem compare_swap (a b : Price) : (a.compare b).swap = b.compare a := by
  unfold compare
  rw [near_comm b.value a.value]
  split_ifs
  · rfl
  · exact Std.OrientedCmp.eq_swap.symm

theorem compare_eq_comm {a b : Price} : a.compare b = .eq ↔ b.compare a = .eq := by
  rw [← compare_swap a b, Ordering.swap_eq_eq]

end Price

/-- Prices on which equality with a tolerance is transitive. -/
def Unchained (S : Set Price) : Prop :=
  ∀ a ∈ S, ∀ b ∈ S, ∀ c ∈ S, a.compare b = .eq → b.compare c = .eq → a.compare c = .eq

theorem Unchained.mono {S T : Set Price} (hS : Unchained S) (h : T ⊆ S) : Unchained T :=
  fun a ha b hb c hc => hS a (h ha) b (h hb) c (h hc)

/-- Prices that are equal only where they are identical. -/
def Apart (S : Set Price) : Prop := ∀ a ∈ S, ∀ b ∈ S, a.compare b = .eq → a = b

theorem Apart.mono {S T : Set Price} (hS : Apart S) (h : T ⊆ S) : Apart T :=
  fun a ha b hb => hS a (h ha) b (h hb)

theorem Apart.unchained {S : Set Price} (h : Apart S) : Unchained S := by
  intro a ha b hb c _ hab hbc
  rwa [h a ha b hb hab]

def Price.one : Price := ⟨.ofBits 0x3FF0000000000000, by decide⟩

def Price.two : Price := ⟨.ofBits 0x4000000000000000, by decide⟩

theorem apart_one_two : Apart {price | price ∈ [Price.one, Price.two]} := by
  have hfar : Price.one.compare .two ≠ .eq := by decide
  intro a (ha : a ∈ [Price.one, Price.two]) b (hb : b ∈ [Price.one, Price.two]) hab
  simp only [List.mem_cons, List.not_mem_nil, or_false] at ha hb
  rcases ha with rfl | rfl <;> rcases hb with rfl | rfl
  · rfl
  · exact absurd hab hfar
  · exact absurd (Price.compare_eq_comm.mp hab) hfar
  · rfl

theorem unchained_one_two : Unchained {price | price ∈ [Price.one, Price.two]} :=
  apart_one_two.unchained

structure Scale (side : Side) (S : Set Price) where
  place : Price → Int
  rank_eq : ∀ {a b : Price}, a ∈ S → b ∈ S → side.rank a b = compare (place a) (place b)

def keysAt (S : Set Price) (price : Price) : Set Int :=
  {k | ∃ other ∈ S, price.compare other = .eq ∧ totalKey other.value = k}

theorem bddBelow_keysAt (S : Set Price) (price : Price) : BddBelow (keysAt S price) := by
  refine ⟨-2 ^ 63 - 1, ?_⟩
  rintro k ⟨other, -, -, rfl⟩
  have hlt : other.value.toBits.toNat < 2 ^ 64 := other.value.toBits.toNat_lt
  simp only [totalKey]
  split_ifs <;> omega

theorem totalKey_mem_keysAt {S : Set Price} {price : Price} (h : price ∈ S) :
    totalKey price.value ∈ keysAt S price :=
  ⟨price, h, price.compare_refl, rfl⟩

theorem keysAt_congr {S : Set Price} (hS : Unchained S) {a b : Price} (ha : a ∈ S) (hb : b ∈ S)
    (h : a.compare b = .eq) : keysAt S a = keysAt S b := by
  ext k
  constructor
  · rintro ⟨c, hc, hac, rfl⟩
    exact ⟨c, hc, hS b hb a ha c hc (Price.compare_eq_comm.mp h) hac, rfl⟩
  · rintro ⟨c, hc, hbc, rfl⟩
    exact ⟨c, hc, hS a ha b hb c hc h hbc, rfl⟩

/-- The place of a price among asks: the lowest key of the prices that equal it. -/
noncomputable def askPlace (S : Set Price) (price : Price) : Int := sInf (keysAt S price)

theorem askPlace_lt {S : Set Price} {a b : Price} (ha : a ∈ S) (hb : b ∈ S)
    (h : a.compare b = .lt) : askPlace S a < askPlace S b := by
  obtain ⟨hfar, hlt⟩ := (Price.compare_lt_iff a b).mp h
  have hle : askPlace S a ≤ totalKey a.value :=
    csInf_le (bddBelow_keysAt S a) (totalKey_mem_keysAt ha)
  obtain ⟨q, -, hbq, hq⟩ : askPlace S b ∈ keysAt S b :=
    Int.csInf_mem ⟨_, totalKey_mem_keysAt hb⟩ (bddBelow_keysAt S b)
  by_contra hge
  rcases (Price.compare_eq_iff b q).mp hbq with hnear | hkey
  · have hab := near_of_between ((near_comm _ _).trans hnear)
      (show totalKey q.value ≤ totalKey a.value by omega) hlt.le
    exact absurd hab (by rw [hfar]; decide)
  · omega

theorem compare_eq_askPlace {S : Set Price} (hS : Unchained S) {a b : Price} (ha : a ∈ S)
    (hb : b ∈ S) : a.compare b = compare (askPlace S a) (askPlace S b) := by
  cases h : a.compare b with
  | lt => exact (Int.compare_eq_lt.mpr (askPlace_lt ha hb h)).symm
  | eq => exact (Int.compare_eq_eq.mpr (congrArg sInf (keysAt_congr hS ha hb h))).symm
  | gt =>
    have hba : b.compare a = .lt := by rw [← Price.compare_swap, h]; rfl
    exact (Int.compare_eq_gt.mpr (askPlace_lt hb ha hba)).symm

/-- Bids count their places downwards. -/
theorem Unchained.scale {S : Set Price} (hS : Unchained S) (side : Side) :
    Nonempty (Scale side S) := by
  cases side with
  | ask => exact ⟨askPlace S, compare_eq_askPlace hS⟩
  | bid =>
    refine ⟨fun price => -askPlace S price, fun {a b} ha hb => ?_⟩
    have h : Side.bid.rank a b = compare (askPlace S b) (askPlace S a) :=
      compare_eq_askPlace hS hb ha
    rw [h]
    simp only [Int.compare_eq_ite_lt]
    split_ifs <;> first | rfl | omega

namespace Scale

variable {side : Side} {S : Set Price} (scale : Scale side S) {a b : Price}

theorem rank_lt (ha : a ∈ S) (hb : b ∈ S) : side.rank a b = .lt ↔ scale.place a < scale.place b := by
  rw [scale.rank_eq ha hb, Int.compare_eq_lt]

theorem rank_gt (ha : a ∈ S) (hb : b ∈ S) : side.rank a b = .gt ↔ scale.place b < scale.place a := by
  rw [scale.rank_eq ha hb, Int.compare_eq_gt]

theorem rank_same (ha : a ∈ S) (hb : b ∈ S) :
    side.rank a b = .eq ↔ scale.place a = scale.place b := by
  rw [scale.rank_eq ha hb, Int.compare_eq_eq]

theorem same_iff (ha : a ∈ S) (hb : b ∈ S) :
    side.same a b = true ↔ scale.place a = scale.place b := by
  rw [Side.same, beq_iff_eq, scale.rank_same ha hb]

end Scale

end MarketDepth
