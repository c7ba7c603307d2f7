import IntLang.Text.Decimal
/-!
Machine words: signed 32-bit integers. Sums, differences and products wrap around; division
and remainder are total.
-/
namespace IntLang

abbrev Word := Int32

namespace Word

/-- The quotient truncated toward zero; by zero it is -1, and the smallest word divided by -1
is itself. -/
def quotient (a b : Word) : Word := if b = 0 then -1 else a / b

/-- The remainder that goes with `quotient`: by zero it is the dividend. -/
def remainder (a b : Word) : Word := if b = 0 then a else a % b

/-- One for true, zero for false. -/
def ofBool (b : Bool) : Word := if b then 1 else 0

/-- The word of that value, if there is one. -/
def ofInt? (v : Int) : Option Word :=
  if -2147483648 ≤ v ∧ v ≤ 2147483647 then some (Int32.ofInt v) else none

/-- Signed decimal, without a sign for zero and above. -/
def text (w : Word) : String := toString w.toInt

/-- Reads a signed decimal numeral whose value is a word. -/
def ofText? (cs : List Char) : Option Word := (Text.Decimal.int? cs).bind ofInt?

end Word

end IntLang
