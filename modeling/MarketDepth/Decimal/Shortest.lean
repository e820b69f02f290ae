/-! The shortest decimal of a floating-point number: of the decimals that read back as the number,
those with the fewest digits, and of those the nearest. All arithmetic is on natural numbers. -/

namespace MarketDepth

/-- `digits * 10 ^ exponent`. -/
structure Decimal where
  digits : Nat
  exponent : Int
  deriving DecidableEq

inductive Tie where
  | even
  | up
  deriving DecidableEq

/-- A finite magnitude, `significand * 2 ^ exponent`. -/
structure Binary where
  significand : Nat
  exponent : Int
  deriving DecidableEq

namespace Binary

/-- The leading bit of a significand of full length, which the bits of a number leave out. -/
def leadingBit : Nat := 0x10000000000000

/-- The magnitude that the bits of a finite number stand for. -/
def ofFloat (x : Float) : Binary :=
  let bits : Nat := x.toBits.toNat
  let fraction : Nat := bits % leadingBit
  let field : Nat := bits / leadingBit % 2048
  if field = 0 then ⟨fraction, -1074⟩ else ⟨fraction + leadingBit, (field : Int) - 1075⟩

/-- The distance down to the middle between the magnitude and the one below it, in quarters of the
last place: the spacing halves below a power of two. -/
def gapBelow (b : Binary) : Nat :=
  if b.significand = leadingBit && b.exponent != -1074 then 1 else 2

/-- Scales that bring quarters of the last place and steps of `10 ^ p` to one measure. -/
def quarterScale (b : Binary) (p : Int) : Nat :=
  Nat.pow 2 (b.exponent - 2).toNat * Nat.pow 10 (-p).toNat

def stepScale (b : Binary) (p : Int) : Nat :=
  Nat.pow 2 (2 - b.exponent).toNat * Nat.pow 10 p.toNat

/-- Whether `c * 10 ^ p` reads back as the magnitude. The ends of the interval round to the even
significand. -/
def covers (b : Binary) (p : Int) (c : Nat) : Bool :=
  let low := (4 * b.significand - b.gapBelow) * b.quarterScale p
  let high := (4 * b.significand + 2) * b.quarterScale p
  let point := c * b.stepScale p
  if b.significand % 2 = 0 then low ≤ point && point ≤ high else low < point && point < high

/-- The multiple of `10 ^ p` nearest to the magnitude, if one reads back. -/
def onGrid (b : Binary) (tie : Tie) (p : Int) : Option Nat :=
  let value := 4 * b.significand * b.quarterScale p
  let low := value / b.stepScale p
  let high := low + 1
  match b.covers p low, b.covers p high with
  | true, true =>
    let below := value - low * b.stepScale p
    let above := high * b.stepScale p - value
    if below < above then some low
    else if above < below then some high
    else match tie with
      | .even => some (if low % 2 = 0 then low else high)
      | .up => some high
  | true, false => some low
  | false, true => some high
  | false, false => none

/-- A power of ten above the magnitude, a little generous: the logarithm of two is just under
`30103 / 100000`. -/
def topExponent (b : Binary) : Int :=
  ((b.significand.log2 + 1 : Int) + b.exponent) * 30103 / 100000 + 2

/-- The coarsest grid with a decimal that reads back gives the fewest digits. Seventeen digits
always do. -/
def shortest (b : Binary) (tie : Tie) : Decimal :=
  ((List.range 22).findSome? fun (i : Nat) =>
    let p := b.topExponent - (i : Int)
    (b.onGrid tie p).map fun digits => ⟨digits, p⟩).getD ⟨0, 0⟩

end Binary

end MarketDepth
