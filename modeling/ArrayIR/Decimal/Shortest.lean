/-
  ArrayIR.Decimal.Shortest — the fewest decimal digits that read back as a float.

  A finite binary64 number is `m · 2^q`. The reals that round to it form an
  interval around it, whose ends belong to it when `m` is even. On each decimal
  grid, coarse to fine, only the two neighbours of the number can lie in that
  interval, unless no point of the grid does; the first grid with a hit gives the
  digits, and of two hits the nearer one, the upper one if they are equally near.
-/

namespace ArrayIR.Decimal

/-- A positive decimal number: `digits · 10^exponent`. -/
structure Digits where
  digits : Nat
  exponent : Int
  deriving DecidableEq, Repr

/-- A positive binary number `mantissa · 2^exponent`; `narrow` when the gap below it is half the gap
above it. -/
structure Binary where
  mantissa : Nat
  exponent : Int
  narrow : Bool
  deriving DecidableEq, Repr

/-- The binary form of the magnitude of a finite float, from its bits. -/
def Binary.ofBits (bits : UInt64) : Binary :=
  let fraction : Nat := bits.toNat % Nat.pow 2 52
  let biased : Nat := bits.toNat / Nat.pow 2 52 % Nat.pow 2 11
  if biased = 0 then ⟨fraction, -1074, false⟩
  else ⟨fraction + Nat.pow 2 52, (biased : Int) - 1075, fraction = 0 && biased ≠ 1⟩

/-- The interval that rounds to a number, in units of `1 / scale`. -/
structure Interval where
  low : Nat
  value : Nat
  high : Nat
  scale : Nat
  closed : Bool

def Binary.interval (b : Binary) : Interval :=
  let unit := Nat.pow 2 (b.exponent - 2).toNat
  { low := (4 * b.mantissa - if b.narrow then 1 else 2) * unit
    value := 4 * b.mantissa * unit
    high := (4 * b.mantissa + 2) * unit
    scale := Nat.pow 2 (2 - b.exponent).toNat
    closed := b.mantissa % 2 = 0 }

/-- The interval in units of `10^k`, as fractions over one scale. -/
def Interval.inTens (i : Interval) (k : Int) : Interval :=
  let up := Nat.pow 10 (-k).toNat
  { low := i.low * up
    value := i.value * up
    high := i.high * up
    scale := i.scale * Nat.pow 10 k.toNat
    closed := i.closed }

def Interval.holds (i : Interval) (n : Nat) : Bool :=
  let x := n * i.scale
  if i.closed then i.low ≤ x && x ≤ i.high else i.low < x && x < i.high

/-- The point of the unit grid in the interval that is nearest to its value. -/
def Interval.nearest? (i : Interval) : Option Nat :=
  let below := i.value / i.scale
  let rest := i.value % i.scale
  if rest = 0 then some below
  else if i.holds below then
    if i.holds (below + 1) && i.scale ≤ 2 * rest then some (below + 1) else some below
  else if i.holds (below + 1) then some (below + 1)
  else none

/-- The position of the first digit of `value / scale < 1`: how often it must be multiplied by ten to
reach one, at most `fuel` times. -/
def leadingZeros (value scale : Nat) : Nat → Nat
  | 0 => 0
  | fuel + 1 => if scale ≤ value then 0 else leadingZeros (value * 10) scale fuel + 1

/-- The exponent of the first decimal digit. -/
def Interval.magnitude (i : Interval) : Int :=
  let whole := i.value / i.scale
  if whole = 0 then -(leadingZeros i.value i.scale 400 : Int)
  else ((Nat.toDigits 10 whole).length : Int) - 1

/-- Drop trailing zeros, at most `fuel` of them. -/
def Digits.trim (d : Digits) : Nat → Digits
  | 0 => d
  | fuel + 1 =>
    if d.digits % 10 = 0 && d.digits ≠ 0 then Digits.trim ⟨d.digits / 10, d.exponent + 1⟩ fuel else d

/-- Try the grids with `count`, `count + 1`, … digits, `fuel` of them. -/
def Interval.search (i : Interval) (count : Nat) : Nat → Digits
  | 0 => ⟨0, 0⟩
  | fuel + 1 =>
    let k := i.magnitude - count + 1
    match (i.inTens k).nearest? with
    | some n => Digits.trim ⟨n, k⟩ 20
    | none => i.search (count + 1) fuel

/-- The shortest digits of the magnitude of a finite, nonzero float: seventeen always suffice. -/
def shortest (x : Float) : Digits := (Binary.ofBits x.toBits).interval.search 1 17

end ArrayIR.Decimal
