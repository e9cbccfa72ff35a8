import CountedHeap.Decimal.Shortest

/-!
# Positional number text

Numbers are written with the fewest digits that read back, never with an exponent. A whole number
has no point, a fraction below one starts with `0.`, and the sign of zero is kept.

* `Digits.positional`: a decimal with its point in place.
* `Decimal.text`: the text of any double.
-/

namespace CountedHeap.Decimal

/-- A run of zeros. -/
def zeros (n : Nat) : String :=
  String.ofList (List.replicate n '0')

/-- The digits with zeros or a point put where the exponent says. -/
def Digits.positional (d : Digits) : String :=
  let text := toString d.digits
  match d.exponent with
  | .ofNat k => text ++ zeros k
  | .negSucc n =>
    let places := n + 1
    let cs := text.toList
    if cs.length ≤ places then "0." ++ zeros (places - cs.length) ++ text
    else
      String.ofList (cs.take (cs.length - places)) ++ "." ++
        String.ofList (cs.drop (cs.length - places))

/-- The text of a double, given the words for what is not a number. -/
def text (x : Float) : String :=
  let bits := x.toBits.toNat
  let magnitude := bits % Nat.pow 2 63
  let sign := if bits / Nat.pow 2 63 = 0 then "" else "-"
  if magnitude > 0x7ff0000000000000 then "NaN"
  else if magnitude = 0x7ff0000000000000 then sign ++ "inf"
  else if magnitude = 0 then sign ++ "0"
  else sign ++ (Binary.ofBits magnitude).shortest.positional

end CountedHeap.Decimal
