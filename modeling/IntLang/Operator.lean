import IntLang.Word
import IntLang.Token.Basic
/-!
Operators: their symbols in a source text, their names in a listing, how tightly they bind, and
the word that each makes of its operands.
-/
namespace IntLang

/-- Operators between two operands. Both operands are always evaluated. -/
inductive BinaryOp
  | add | sub | mul | div | rem
  | lt | gt | le | ge | eq | ne
  | land | lor
deriving DecidableEq, Repr

/-- Arithmetic negation, bitwise complement and logical negation. -/
inductive UnaryOp
  | neg | not | lnot
deriving DecidableEq, Repr

namespace BinaryOp

def symbol : BinaryOp → Symbol
  | .add => .plus
  | .sub => .minus
  | .mul => .star
  | .div => .slash
  | .rem => .percent
  | .lt => .less
  | .gt => .greater
  | .le => .lessEqual
  | .ge => .greaterEqual
  | .eq => .equal
  | .ne => .notEqual
  | .land => .andAnd
  | .lor => .orOr

/-- The operator written with that symbol. -/
def ofSymbol? : Symbol → Option BinaryOp
  | .plus => some .add
  | .minus => some .sub
  | .star => some .mul
  | .slash => some .div
  | .percent => some .rem
  | .less => some .lt
  | .greater => some .gt
  | .lessEqual => some .le
  | .greaterEqual => some .ge
  | .equal => some .eq
  | .notEqual => some .ne
  | .andAnd => some .land
  | .orOr => some .lor
  | _ => none

def mnemonic : BinaryOp → String
  | .add => "add"
  | .sub => "sub"
  | .mul => "mul"
  | .div => "div"
  | .rem => "rem"
  | .lt => "lt"
  | .gt => "gt"
  | .le => "le"
  | .ge => "ge"
  | .eq => "eq"
  | .ne => "ne"
  | .land => "land"
  | .lor => "lor"

/-- How loosely the operator binds, from 1 for the tightest to `loosest`. Operators of the same
looseness associate to the left. -/
def looseness : BinaryOp → Nat
  | .mul | .div | .rem => 1
  | .add | .sub => 2
  | .lt | .gt | .le | .ge => 3
  | .eq | .ne => 4
  | .land => 5
  | .lor => 6

def loosest : Nat := 6

/-- The word that the operator makes of its left and its right operand. -/
def value : BinaryOp → Word → Word → Word
  | .add, a, b => a + b
  | .sub, a, b => a - b
  | .mul, a, b => a * b
  | .div, a, b => Word.quotient a b
  | .rem, a, b => Word.remainder a b
  | .lt, a, b => Word.ofBool (a < b)
  | .gt, a, b => Word.ofBool (a > b)
  | .le, a, b => Word.ofBool (a ≤ b)
  | .ge, a, b => Word.ofBool (a ≥ b)
  | .eq, a, b => Word.ofBool (a = b)
  | .ne, a, b => Word.ofBool (a ≠ b)
  | .land, a, b => Word.ofBool (a ≠ 0 ∧ b ≠ 0)
  | .lor, a, b => Word.ofBool (a ≠ 0 ∨ b ≠ 0)

theorem ofSymbol?_eq_some_iff {s : Symbol} {op : BinaryOp} :
    ofSymbol? s = some op ↔ op.symbol = s := by
  cases op <;> cases s <;> decide

end BinaryOp

namespace UnaryOp

def symbol : UnaryOp → Symbol
  | .neg => .minus
  | .not => .tilde
  | .lnot => .bang

/-- The operator written with that symbol. -/
def ofSymbol? : Symbol → Option UnaryOp
  | .minus => some .neg
  | .tilde => some .not
  | .bang => some .lnot
  | _ => none

def mnemonic : UnaryOp → String
  | .neg => "neg"
  | .not => "not"
  | .lnot => "lnot"

/-- The word that the operator makes of its operand. -/
def value : UnaryOp → Word → Word
  | .neg, a => -a
  | .not, a => ~~~a
  | .lnot, a => Word.ofBool (a = 0)

theorem ofSymbol?_eq_some_iff {s : Symbol} {op : UnaryOp} :
    ofSymbol? s = some op ↔ op.symbol = s := by
  cases op <;> cases s <;> decide

end UnaryOp

end IntLang
