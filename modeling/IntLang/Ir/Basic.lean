import IntLang.Operator
/-!
The intermediate code: operations of a stack machine with numbered slots for variables and
symbolic labels, and the listing of a routine, one operation a line.
-/
namespace IntLang.Ir

/-- Which of the two labels of a branching construct: in front of its second arm, or behind it. -/
inductive Label.Role
  | otherwise
  | done
deriving DecidableEq, Repr

structure Label where
  role : Label.Role
  id : UInt32
deriving DecidableEq, Repr

/-- Operations. `push` puts a constant on the stack; `unary` and `binary` replace operands by a
result, the right operand lying on top; `frameAddr` pushes the address of a slot; `load` replaces
an address by the word there; `store` takes an address and writes the word below it there, which
stays; `pop` discards; `ret` ends the routine with the word on top; `beqz` and `bnez` take the
word they test. -/
inductive Op
  | push (value : Word)
  | unary (op : UnaryOp)
  | binary (op : BinaryOp)
  | frameAddr (slot : UInt32)
  | load
  | store
  | pop
  | ret
  | br (target : Label)
  | beqz (target : Label)
  | bnez (target : Label)
  | label (mark : Label)
deriving DecidableEq, Repr

/-- A routine that keeps its variables in the slots below `localCount`. -/
structure Routine where
  name : String
  ops : List Op
  localCount : UInt32
deriving DecidableEq, Repr

def Label.text : Label → String
  | ⟨.otherwise, id⟩ => "else_" ++ toString id.toNat
  | ⟨.done, id⟩ => "end_" ++ toString id.toNat

def Op.text : Op → String
  | .push value => "push " ++ Word.text value
  | .unary op => op.mnemonic
  | .binary op => op.mnemonic
  | .frameAddr slot => "frameaddr " ++ toString slot.toNat
  | .load => "load"
  | .store => "store"
  | .pop => "pop"
  | .ret => "ret"
  | .br target => "br " ++ target.text
  | .beqz target => "beqz " ++ target.text
  | .bnez target => "bnez " ++ target.text
  | .label mark => "label " ++ mark.text

namespace Routine

/-- The first line of a listing. -/
def header (r : Routine) : String :=
  r.name ++ ": ; " ++ toString r.localCount.toNat ++ " locals\n"

/-- The header, then the operations, indented by two spaces. -/
def listing (r : Routine) : String :=
  r.header ++ String.join (r.ops.map fun op => "  " ++ op.text ++ "\n")

end Routine

end IntLang.Ir
