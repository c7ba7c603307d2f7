/-!
Decimal numerals: reading natural numbers and signed integers. A numeral is one or more ASCII
digits; a signed one may start with `+` or `-`.
-/
namespace IntLang.Text.Decimal

def nat? (cs : List Char) : Option Nat :=
  if cs ≠ [] ∧ cs.all Char.isDigit then some (Nat.ofDigitChars 10 cs 0) else none

def int? : List Char → Option Int
  | '+' :: cs => (nat? cs).map fun (n : Nat) => (n : Int)
  | '-' :: cs => (nat? cs).map fun (n : Nat) => -(n : Int)
  | cs => (nat? cs).map fun (n : Nat) => (n : Int)

/-- A written natural number reads back. -/
theorem nat?_toDigits (n : Nat) : nat? (Nat.toDigits 10 n) = some n := by
  have digits : (Nat.toDigits 10 n).all Char.isDigit = true := by
    rw [List.all_eq_true]
    intro c h
    exact Nat.isDigit_of_mem_toDigits (by decide) (by decide) h
  simp [nat?, digits, Nat.toDigits_ne_nil, Nat.ofDigitChars_ten_toDigits]

end IntLang.Text.Decimal
