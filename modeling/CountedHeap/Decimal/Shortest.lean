/-!
# Shortest decimal digits

A positive binary number `m · 2 ^ q` is the rounding of every real in an interval around it. Among
the decimals `c · 10 ^ k` in that interval the shortest ones have the largest `k`, and the one
written is the nearest of those; of two equally near ones it is the larger.

* `Binary`: a positive finite number as `m · 2 ^ q`.
* `Binary.interval`: the reals that round to it, over a common denominator.
* `Binary.shortest`: the digits and the exponent of the shortest decimal.
-/

namespace CountedHeap.Decimal

/-- The positive number `mantissa · 2 ^ exponent`. The lower neighbour is half as far away as the
upper one when `narrow` holds, which is so at a power of two. -/
structure Binary where
  mantissa : Nat
  exponent : Int
  narrow : Bool
deriving DecidableEq

/-- The decimal `digits · 10 ^ exponent`. -/
structure Digits where
  digits : Nat
  exponent : Int
deriving DecidableEq

/-- The parts of a finite positive double, given its bits without the sign. -/
def Binary.ofBits (bits : Nat) : Binary :=
  let fraction := bits % Nat.pow 2 52
  let biased := bits / Nat.pow 2 52
  if biased = 0 then ⟨fraction, -1074, false⟩
  else ⟨fraction + Nat.pow 2 52, Int.ofNat biased - 1075, fraction == 0 && biased != 1⟩

/-- A value and the ends of its interval, as numerators over one denominator. The ends belong to
the interval when `closed` holds. -/
structure Interval where
  low : Nat
  value : Nat
  high : Nat
  denominator : Nat
  closed : Bool

/-- The reals that round to the number: half way to each neighbour, ends included when the mantissa
is even. -/
def Binary.interval (b : Binary) : Interval :=
  let scale := Nat.pow 2 (b.exponent - 2).toNat
  { low := (4 * b.mantissa - (if b.narrow then 1 else 2)) * scale
    value := 4 * b.mantissa * scale
    high := (4 * b.mantissa + 2) * scale
    denominator := Nat.pow 2 (2 - b.exponent).toNat
    closed := b.mantissa % 2 = 0 }

namespace Interval

/-- The interval with every number divided by `10 ^ k`. -/
def scaled (i : Interval) (k : Int) : Interval :=
  let up := Nat.pow 10 (-k).toNat
  { i with
    low := i.low * up
    value := i.value * up
    high := i.high * up
    denominator := i.denominator * Nat.pow 10 k.toNat }

/-- Whether the whole number `c` lies in the interval. -/
def contains (i : Interval) (c : Nat) : Bool :=
  let n := c * i.denominator
  if i.closed then i.low ≤ n && n ≤ i.high else i.low < n && n < i.high

/-- The whole number of the interval nearest to its value, of two equally near the larger one. Only
the two neighbours of the value have to be looked at. -/
def nearest? (i : Interval) : Option Nat :=
  let below := i.value / i.denominator
  let above := below + 1
  match i.contains below, i.contains above with
  | true, true =>
    if 2 * (i.value % i.denominator) < i.denominator then some below else some above
  | true, false => some below
  | false, true => some above
  | false, false => none

end Interval

/-- An exponent of ten that is at least that of the number. -/
def Binary.coarsest (b : Binary) : Int :=
  ((b.mantissa.log2 : Int) + b.exponent + 1) * 30103 / 100000 + 2

/-- The first grid `10 ^ k`, `10 ^ (k - 1)`, … that has a point in the interval. -/
def Binary.search (b : Binary) : Nat → Int → Option Digits
  | 0, _ => none
  | fuel + 1, k =>
    match (b.interval.scaled k).nearest? with
    | some c => some ⟨c, k⟩
    | none => b.search fuel (k - 1)

/-- All digits of the number, which end because two divides ten. -/
def Binary.exact (b : Binary) : Digits :=
  if 0 ≤ b.exponent then ⟨b.mantissa * Nat.pow 2 b.exponent.toNat, 0⟩
  else ⟨b.mantissa * Nat.pow 5 (-b.exponent).toNat, b.exponent⟩

/-- The shortest decimal that rounds to the number. Twenty-four grids are more than the seventeen
digits that always suffice. -/
def Binary.shortest (b : Binary) : Digits :=
  (b.search 24 b.coarsest).getD b.exact

end CountedHeap.Decimal
