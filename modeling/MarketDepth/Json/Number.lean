import MarketDepth.Json.Basic

/-! What the numerals of JSON stand for. A numeral written as an integer is one if it fits in
sixty-four bits. Any other is read quickly rather than exactly: the leading digits that fit in
sixty-four bits, scaled by a power of ten in floating point. -/

namespace MarketDepth

inductive Number where
  | integer (i : Int)
  | float (x : Float)

namespace Numeral

/-- Takes up digits while the number they make fits in sixty-four bits. Answers that number and the
digits left. -/
def takeDigits : Nat → List Char → Nat × List Char
  | n, [] => (n, [])
  | n, c :: cs =>
    let more := 10 * n + (c.toNat - '0'.toNat)
    if more < UInt64.size then takeDigits more cs else (n, c :: cs)

def powerOfTen (n : Nat) : Float := Float.ofScientific 1 false n

/-- Divides by a power of ten, at most three hundred and eight powers at a time. -/
def reduce (x : Float) (n : Nat) : Float :=
  if n ≤ 308 then x / powerOfTen n
  else if x == 0 then x
  else reduce (x / powerOfTen 308) (n - 308)
termination_by n

def enlarge (x : Float) (n : Nat) : Option Float :=
  if n ≤ 308 then
    let y := x * powerOfTen n
    if y.isInf then none else some y
  else if x == 0 then some x
  else none

def scale (x : Float) : Int → Option Float
  | .ofNat n => enlarge x n
  | .negSucc n => some (reduce x (n + 1))

/-- The exponent as written, or none if it is beyond thirty-one bits. -/
def writtenExponent (n : Numeral) : Option Int :=
  match n.exponent with
  | none => some 0
  | some e =>
    let size := Nat.ofDigitChars 10 e.digits 0
    if size < 0x80000000 then some (if e.negative then -(size : Int) else size) else none

def risesBeyond (n : Numeral) : Bool :=
  match n.exponent with
  | some e => !e.negative
  | none => false

/-- The magnitude as a floating-point number: the digits that fit, scaled for the digits left in
the whole part, the digits taken from the fraction, and the exponent as written. -/
def magnitude (n : Numeral) : Option Float :=
  let (whole, left) := takeDigits 0 n.whole
  let (significand, unused) := takeDigits whole n.fraction
  let shift : Int := (left.length : Int) - ((n.fraction.length : Int) - unused.length)
  match n.writtenExponent with
  | some e => scale significand.toUInt64.toFloat (shift + e)
  | none => if significand ≠ 0 && n.risesBeyond then none else some 0

/-- The integer that a numeral without fraction and exponent is, if it fits in sixty-four bits. The
negative of zero is no integer. -/
def integer? (n : Numeral) : Option Int :=
  if n.fraction.isEmpty && n.exponent.isNone then
    let i := Nat.ofDigitChars 10 n.whole 0
    if n.negative then if 0 < i ∧ i ≤ 0x8000000000000000 then some (-i) else none
    else if i < UInt64.size then some i else none
  else none

def value (n : Numeral) : Option Number :=
  match n.integer? with
  | some i => some (.integer i)
  | none => n.magnitude.map fun x => .float (if n.negative then -x else x)

end Numeral

def Number.toFloat : Number → Float
  | .integer (.ofNat n) => n.toUInt64.toFloat
  | .integer (.negSucc n) => -((n + 1).toUInt64.toFloat)
  | .float x => x

end MarketDepth
