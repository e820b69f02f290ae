/-! Prices and sizes. Two numbers closer than a tolerance count as one price; any other two prices
stand in the total order of their bit patterns. -/

namespace MarketDepth

/-- Two to the power of minus fifty-two, the spacing of the floating-point numbers at one. -/
def tolerance : Float := Float.ofBits 0x3CB0000000000000

/-- A size that cannot be told from zero. Nothing that is not a number is negligible. -/
def negligible (size : Float) : Bool := size.abs < tolerance

/-- Two numbers that cannot be told apart. Infinities are not near themselves. -/
def near (a b : Float) : Bool := (a - b).abs < tolerance

/-- The place of a number in the total order of bit patterns: sign and magnitude are read as one
integer, so negative zero comes just below zero. -/
def totalKey (x : Float) : Int :=
  let bits := x.toBits.toNat
  if bits < 0x8000000000000000 then bits else 0x7FFFFFFFFFFFFFFF - (bits : Int)

def notANumber : Float := Float.ofBits 0x7FF8000000000000

structure Price where
  value : Float
  isNumber : value.isNaN = false

inductive PriceError where
  | notANumber
  deriving DecidableEq

def PriceError.message : PriceError → String
  | .notANumber => "price is not a number"

namespace Price

def ofFloat? (x : Float) : Option Price :=
  if h : x.isNaN = false then some ⟨x, h⟩ else none

def ofFloat (x : Float) : Except PriceError Price :=
  match ofFloat? x with
  | some price => .ok price
  | none => .error .notANumber

/-- Near prices are equal. The tolerance is not transitive, so the order is consistent only on
prices that do not chain closer than the tolerance. -/
def compare (a b : Price) : Ordering :=
  if near a.value b.value then .eq else Ord.compare (totalKey a.value) (totalKey b.value)

instance : Ord Price := ⟨compare⟩

instance : BEq Price := ⟨fun a b => compare a b == .eq⟩

end Price

end MarketDepth
