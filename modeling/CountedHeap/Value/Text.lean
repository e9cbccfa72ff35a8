import CountedHeap.Value
import CountedHeap.Decimal.Positional

/-!
# Texts of values

* `Value.display`: how a value reads in a report.
* `Value.debug`: the same with the name of its kind.
-/

namespace CountedHeap.Value

/-- The text of a value in a report. -/
def display : Value → String
  | undefined => "undefined"
  | null => "null"
  | bool b => if b then "true" else "false"
  | number x => Decimal.text x
  | native id => "[native function " ++ toString id.index ++ "]"
  | ref r => "[cell " ++ r.display ++ "]"

/-- The text of a value with the name of its kind. -/
def debug : Value → String
  | undefined => "Undefined"
  | null => "Null"
  | bool b => "Bool(" ++ (if b then "true" else "false") ++ ")"
  | number x => "Number(" ++ Decimal.text x ++ ")"
  | native id => "NativeFunc(" ++ toString id.index ++ ")"
  | ref r => "Ref(" ++ r.debug ++ ")"

end CountedHeap.Value
