import MarketDepth.Proofs.Sums

/-! The order of bit patterns against the order of values. A change of sign turns it round, and it puts
any two numbers that are not near each other in the order of their values, infinite ones included. -/

namespace MarketDepth

open Float.Model Float.Model.UnpackedFloat

/-- Where the bits of a number stand, by its sign and what the other bits read as. -/
def signedKey (s : Sign) (g : Nat) : Int :=
  match s with
  | .positive => g
  | .negative => -1 - g

def unpackedKey : UnpackedFloat → Int
  | .notANumber => 0
  | .infinity s => signedKey s (2047 * 2 ^ 52)
  | .zero s => signedKey s 0
  | .finite s m e _ => signedKey s (magnitude m e)

theorem unpackedKey_decode {s : Sign} {g : Nat} (h : (decode s g).isNaN = false) :
    unpackedKey (decode s g) = signedKey s g := by
  by_cases hones : g / 2 ^ 52 = 2047
  · by_cases hmant : g % 2 ^ 52 = 0
    · rw [decode, if_pos hones, if_pos hmant]
      exact congrArg (signedKey s) (by omega)
    · rw [decode, if_pos hones, if_neg hmant] at h
      cases h
  · have hdecoded := decoded s g
    generalize decode s g = u at hdecoded
    cases hdecoded with
    | special h hu => exact absurd h hones
    | zero h => exact congrArg (signedKey s) h.symm
    | finite hm hlt hlo hmin hmag h => exact congrArg (signedKey s) hmag.symm

theorem totalKey_unpack {x : Float} (hx : x.isNaN = false) :
    totalKey x = unpackedKey x.toModel.unpack := by
  change x.toModel.unpack.isNaN = false at hx
  rw [unpack_float] at hx ⊢
  rw [unpackedKey_decode hx, totalKey_eq]
  by_cases hlow : x.toBits.toNat < 2 ^ 63
  · rw [if_pos hlow, show signAt x.toBits.toNat = .positive from if_pos hlow]
    rfl
  · rw [if_neg hlow, show signAt x.toBits.toNat = .negative from if_neg hlow]
    rfl

theorem signedKey_neg (s : Sign) (g : Nat) : signedKey (-s) g = -1 - signedKey s g := by
  cases s with
  | negative =>
    change (g : Int) = -1 - (-1 - g)
    omega
  | positive => rfl

theorem totalKey_neg {x : Float} (hx : x.isNaN = false) : totalKey (-x) = -1 - totalKey x := by
  rw [totalKey_unpack hx, totalKey_unpack ((isNaN_float_neg x).trans hx), unpack_neg]
  change x.toModel.unpack.isNaN = false at hx
  cases hu : x.toModel.unpack with
  | notANumber =>
    rw [hu] at hx
    cases hx
  | _ => exact signedKey_neg _ _

theorem isFinite_or_infinite {x : Float} (hx : x.isNaN = false) :
    x.isFinite = true ∨ ∃ s, x.toModel.unpack = .infinity s := by
  change x.toModel.unpack.isNaN = false at hx
  change x.toModel.unpack.isFinite = true ∨ _
  cases hu : x.toModel.unpack with
  | notANumber =>
    rw [hu] at hx
    cases hx
  | infinity s => exact .inr ⟨s, rfl⟩
  | _ => exact .inl rfl

theorem totalKey_infinity {x : Float} {s : Sign} (h : x.toModel.unpack = .infinity s) :
    totalKey x = signedKey s (2047 * 2 ^ 52) := by
  have hx : x.isNaN = false := by
    change x.toModel.unpack.isNaN = false
    rw [h]
    rfl
  rw [totalKey_unpack hx, h]
  rfl

section

variable {x y : Float} {s : Sign} (hx : x.isFinite = true) (hy : y.toModel.unpack = .infinity s)
include hx hy

theorem lt_infinity_iff : (x < y ↔ s = .positive) ∧ (y < x ↔ s = .negative) := by
  rw [lt_iff_compare, lt_iff_compare, hy]
  obtain ⟨z, hu⟩ | ⟨z, m, e, hm, hu⟩ := finite_of_isFinite (u := x.toModel.unpack) hx <;>
    rw [hu] <;> cases s
  · exact ⟨iff_of_false nofun nofun, iff_of_true rfl rfl⟩
  · exact ⟨iff_of_true rfl rfl, iff_of_false nofun nofun⟩
  · exact ⟨iff_of_false nofun nofun, iff_of_true rfl rfl⟩
  · exact ⟨iff_of_true rfl rfl, iff_of_false nofun nofun⟩

theorem totalKey_lt_infinity_iff :
    (totalKey x < totalKey y ↔ s = .positive) ∧ (totalKey y < totalKey x ↔ s = .negative) := by
  have hbounds := (isFinite_iff_totalKey x).mp hx
  rw [totalKey_infinity hy]
  cases s <;> simp [signedKey] <;> omega

end

theorem steps_ne_of_far {x y : Float} (hx : x.isFinite = true) (hy : y.isFinite = true)
    (h : near x y = false) : steps x ≠ steps y := by
  intro heq
  rw [← Bool.not_eq_true, near_iff] at h
  refine h ⟨hx, hy, ?_⟩
  rw [heq, Int.sub_self]
  decide +kernel

/-- Of two numbers that are not near each other, the one whose bits come first is the lower one. -/
theorem lt_iff_totalKey {x y : Float} (hx : x.isNaN = false) (hy : y.isNaN = false)
    (h : near x y = false) : x < y ↔ totalKey x < totalKey y := by
  rcases isFinite_or_infinite hx with hfx | ⟨s, hs⟩
  · rcases isFinite_or_infinite hy with hfy | ⟨t, ht⟩
    · have hne := steps_ne_of_far hfx hfy h
      rw [lt_iff_steps hfx hfy]
      constructor
      · intro hlt
        by_contra hge
        exact hlt.not_ge (steps_le_of_totalKey_le hfy hfx (Int.not_lt.mp hge))
      · exact fun hlt => lt_of_le_of_ne (steps_le_of_totalKey_le hfx hfy hlt.le) hne
    · rw [(lt_infinity_iff hfx ht).1, (totalKey_lt_infinity_iff hfx ht).1]
  · rcases isFinite_or_infinite hy with hfy | ⟨t, ht⟩
    · rw [(lt_infinity_iff hfy hs).2, (totalKey_lt_infinity_iff hfy hs).2]
    · rw [lt_iff_compare, hs, ht, totalKey_infinity hs, totalKey_infinity ht]
      cases s <;> cases t <;> decide

end MarketDepth
