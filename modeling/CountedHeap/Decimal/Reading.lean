/-!
# Reading numbers

The grammar: an optional sign, then `inf`, `infinity` or `nan` in any case, or digits with an
optional point (at least one digit on one of its sides) and an optional exponent.

* `ofDigits`: the number that a run of digits spells.
* `Numeral`: the digits and the power of ten of an unsigned number.
* `Numeral.read?`: the numeral that a text spells.
* `read?`: the double nearest to the number that a text spells.
* `ofDigits_append_singleton`: one more digit.
-/

namespace CountedHeap.Decimal

/-- The number `digits · 10 ^ exponent`. -/
structure Numeral where
  digits : Nat
  exponent : Int
deriving DecidableEq

/-- The number an ASCII digit stands for. -/
def ofDigit (c : Char) : Nat :=
  c.toNat - '0'.toNat

/-- A run of digits that is being read. The last digits are kept apart until there are a thousand of
them, so that large numbers are seldom multiplied. -/
structure DigitRun where
  /-- What the earlier digits spell. -/
  leading : Nat
  /-- What the last digits spell. -/
  recent : Nat
  /-- The number of the last digits. -/
  count : Nat

namespace DigitRun

/-- No digits. -/
def empty : DigitRun :=
  ⟨0, 0, 0⟩

/-- What the digits spell. -/
def value (d : DigitRun) : Nat :=
  d.leading * Nat.pow 10 d.count + d.recent

/-- One more digit. -/
def push (d : DigitRun) (c : Char) : DigitRun :=
  let more : DigitRun := ⟨d.leading, 10 * d.recent + ofDigit c, d.count + 1⟩
  if more.count < 1000 then more else ⟨more.value, 0, 0⟩

theorem value_push (d : DigitRun) (c : Char) : (d.push c).value = 10 * d.value + ofDigit c := by
  have h : d.leading * Nat.pow 10 (d.count + 1) = 10 * (d.leading * Nat.pow 10 d.count) := by
    show d.leading * (Nat.pow 10 d.count * 10) = _
    rw [← Nat.mul_assoc, Nat.mul_comm]
  unfold push
  dsimp only
  split
  · simp only [value, h]
    omega
  · have hone : Nat.pow 10 0 = 1 := rfl
    simp only [value, h, hone]
    omega

end DigitRun

/-- The number a run of ASCII digits spells. -/
def ofDigits (cs : List Char) : Nat :=
  (cs.foldl DigitRun.push .empty).value

theorem ofDigits_append_singleton (cs : List Char) (c : Char) :
    ofDigits (cs ++ [c]) = 10 * ofDigits cs + ofDigit c := by
  simp only [ofDigits, List.foldl_append, List.foldl_cons, List.foldl_nil, DigitRun.value_push]

/-- The size of an exponent. Once its digits spell 65536 or more, further ones do not count. -/
def exponentSize (cs : List Char) : Nat :=
  cs.foldl (fun n c => if n < 65536 then 10 * n + ofDigit c else n) 0

/-- The exponent after its mark: an optional sign and at least one digit, up to the end. -/
def exponent? (cs : List Char) : Option Int :=
  let unsigned (cs : List Char) : Option Int :=
    if cs.isEmpty || !cs.all Char.isDigit then none else some (exponentSize cs)
  match cs with
  | '-' :: rest => (unsigned rest).map (- ·)
  | '+' :: rest => unsigned rest
  | rest => unsigned rest

/-- Digits with an optional point and an optional exponent. -/
def Numeral.read? (cs : List Char) : Option Numeral :=
  let whole := cs.takeWhile Char.isDigit
  let afterWhole := cs.dropWhile Char.isDigit
  let (fraction, rest) :=
    match afterWhole with
    | '.' :: more => (more.takeWhile Char.isDigit, more.dropWhile Char.isDigit)
    | more => ([], more)
  if whole.isEmpty && fraction.isEmpty then none
  else
    let mantissa := ofDigits (whole ++ fraction)
    let places : Int := fraction.length
    match rest with
    | [] => some ⟨mantissa, -places⟩
    | c :: more =>
      if c = 'e' || c = 'E' then (exponent? more).map fun e => ⟨mantissa, e - places⟩
      else none

/-- The double nearest to the numeral. A numeral whose magnitude lies far outside the range of
doubles is decided without its power of ten being built. -/
def Numeral.toFloat (n : Numeral) : Float :=
  let magnitude : Int := (n.digits.log2 : Int) * 30103 / 100000 + n.exponent
  if n.digits = 0 || magnitude < -400 then 0.0
  else if magnitude > 400 then Float.ofBits 0x7ff0000000000000
  else if n.exponent < 0 then Float.ofScientific n.digits true (-n.exponent).toNat
  else Float.ofScientific n.digits false n.exponent.toNat

/-- The double an unsigned text spells. -/
def unsigned? (cs : List Char) : Option Float :=
  match String.ofList (cs.map Char.toLower) with
  | "inf" => some (Float.ofBits 0x7ff0000000000000)
  | "infinity" => some (Float.ofBits 0x7ff0000000000000)
  | "nan" => some (Float.ofBits 0x7ff8000000000000)
  | _ => (Numeral.read? cs).map Numeral.toFloat

/-- The double nearest to the number that a text spells, if it spells one. -/
def read? (text : String) : Option Float :=
  match text.toList with
  | '-' :: rest => (unsigned? rest).map (- ·)
  | '+' :: rest => unsigned? rest
  | rest => unsigned? rest

end CountedHeap.Decimal
