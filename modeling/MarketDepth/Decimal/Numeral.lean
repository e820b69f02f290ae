import MarketDepth.Decimal.Shortest
import MarketDepth.Price

/-! Numerals: decimals as they are written, and the layouts that say how a number is written. -/

namespace MarketDepth

structure Exponent where
  negative : Bool
  digits : List Char
  deriving DecidableEq

structure Numeral where
  negative : Bool
  whole : List Char
  /-- Empty when there is no point. -/
  fraction : List Char := []
  exponent : Option Exponent := none
  deriving DecidableEq

namespace Exponent

def chars (e : Exponent) : List Char := 'e' :: (if e.negative then '-' else '+') :: e.digits

end Exponent

namespace Numeral

def chars (n : Numeral) : List Char :=
  (if n.negative then ['-'] else []) ++ n.whole
    ++ (if n.fraction.isEmpty then [] else '.' :: n.fraction)
    ++ (n.exponent.map Exponent.chars).getD []

def text (n : Numeral) : String := String.ofList n.chars

def ofInt (i : Int) : Numeral := { negative := i < 0, whole := Nat.toDigits 10 i.natAbs }

end Numeral

structure Layout where
  tie : Tie
  /-- The decimal exponents that are written out in zeros. -/
  positional : Int → Bool
  /-- Whether a whole number keeps a zero after the point. -/
  pointed : Bool

namespace Layout

/-- The digits `ds` with the point after `k` of them. -/
def place (layout : Layout) (negative : Bool) (ds : List Char) (k : Int) : Numeral :=
  if k ≤ 0 then
    { negative, whole := ['0'], fraction := List.replicate (-k).toNat '0' ++ ds }
  else if k < ds.length then
    { negative, whole := ds.take k.toNat, fraction := ds.drop k.toNat }
  else
    { negative
      whole := ds ++ List.replicate (k.toNat - ds.length) '0'
      fraction := if layout.pointed then ['0'] else [] }

/-- The digits `ds` with the point after the first and the decimal exponent `e`. -/
def scale (negative : Bool) (ds : List Char) (e : Int) : Numeral :=
  { negative
    whole := ds.take 1
    fraction := ds.drop 1
    exponent := some ⟨e < 0, Nat.toDigits 10 e.natAbs⟩ }

def numeral (layout : Layout) (x : Float) : Numeral :=
  let negative := 0x8000000000000000 ≤ x.toBits.toNat
  let magnitude := Binary.ofFloat x
  if magnitude.significand = 0 then layout.place negative ['0'] 1
  else
    let decimal := magnitude.shortest layout.tie
    let ds := Nat.toDigits 10 decimal.digits
    let k := ds.length + decimal.exponent
    if layout.positional (k - 1) then layout.place negative ds k else scale negative ds (k - 1)

end Layout

/-- Numbers in messages: never an exponent, no point in a whole number, a tie goes up. -/
def plainLayout : Layout := { tie := .up, positional := fun _ => true, pointed := false }

def plainText (x : Float) : String :=
  if x.isNaN then "NaN"
  else if x.isFinite then (plainLayout.numeral x).text
  else if x < 0 then "-inf" else "inf"

def Price.text (price : Price) : String := plainText price.value

end MarketDepth
