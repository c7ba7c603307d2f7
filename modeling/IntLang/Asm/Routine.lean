import IntLang.Asm.Frame
import IntLang.Ir.Basic
/-!
From intermediate code to assembly text. Every operation becomes a block of its own, with the
operand stack below `sp` and nothing kept in registers between blocks; `ret` branches to the exit
at the end of the routine, where the word on top of the stack is the result.
-/
namespace IntLang.Asm

/-- The name of a label in assembly text. -/
def labelSymbol : Ir.Label → String
  | ⟨.otherwise, id⟩ => ".Lelse_" ++ toString id.toNat
  | ⟨.done, id⟩ => ".Lend_" ++ toString id.toNat

/-- The label of the exit of a routine. -/
def exitSymbol (routine : String) : String := ".L" ++ routine ++ "_exit"

/-- Computes a unary operator in `t1`. -/
def unaryCode : UnaryOp → Instruction
  | .neg => .unary .neg .t1 .t1
  | .not => .unary .not .t1 .t1
  | .lnot => .unary .seqz .t1 .t1

/-- Computes a binary operator of `t1` and `t2` in `t1`. -/
def binaryCode : BinaryOp → List Instruction
  | .add => [.alu .add .t1 .t1 .t2]
  | .sub => [.alu .sub .t1 .t1 .t2]
  | .mul => [.alu .mul .t1 .t1 .t2]
  | .div => [.alu .div .t1 .t1 .t2]
  | .rem => [.alu .rem .t1 .t1 .t2]
  | .lt => [.alu .slt .t1 .t1 .t2]
  | .gt => [.alu .sgt .t1 .t1 .t2]
  | .le => [.alu .sgt .t1 .t1 .t2, .immediate .xori .t1 .t1 1]
  | .ge => [.alu .slt .t1 .t1 .t2, .immediate .xori .t1 .t1 1]
  | .eq => [.alu .sub .t1 .t1 .t2, .unary .seqz .t1 .t1]
  | .ne => [.alu .sub .t1 .t1 .t2, .unary .snez .t1 .t1]
  | .land => [.unary .snez .t1 .t1, .unary .snez .t2 .t2, .alu .and .t1 .t1 .t2]
  | .lor => [.alu .or .t1 .t1 .t2, .unary .snez .t1 .t1]

/-- The instructions of an operation; a label has none. -/
def opCode (exit : String) : Ir.Op → List Instruction
  | .push value => .li .t1 value :: push .t1
  | .unary op => pop .t1 ++ unaryCode op :: push .t1
  | .binary op => pop .t2 ++ pop .t1 ++ binaryCode op ++ push .t1
  | .frameAddr slot => Frame.slotPointer slot .t1 ++ push .t1
  | .load => [.lw .t1 0 .sp, .lw .t1 0 .t1, .sw .t1 0 .sp]
  | .store => pop .t1 ++ [.lw .t2 0 .sp, .sw .t2 0 .t1]
  | .pop => [drop]
  | .ret => [.j exit]
  | .br target => [.j (labelSymbol target)]
  | .beqz target => pop .t1 ++ [.branch .zero .t1 (labelSymbol target)]
  | .bnez target => pop .t1 ++ [.branch .nonzero .t1 (labelSymbol target)]
  | .label _ => []

/-- The block of an operation. -/
def block (exit : String) : Ir.Op → List Item
  | .label mark => [.label (labelSymbol mark)]
  | op => (opCode exit op).map .instruction

/-- The block of an operation, behind a comment that names it if blocks are annotated. -/
def annotatedBlock (annotate : Bool) (exit : String) (op : Ir.Op) : List Item :=
  (if annotate then [.comment op.text] else []) ++ block exit op

/-- The entries of a routine: its name, the prologue, the blocks, and the exit, which takes the
result into `a0`. -/
def routineItems (annotate : Bool) (r : Ir.Routine) : List Item :=
  let frame : Frame := ⟨r.localCount⟩
  let exit := exitSymbol r.name
  .label r.name :: frame.prologue.map .instruction ++
    r.ops.flatMap (annotatedBlock annotate exit) ++
    .label exit :: (pop .a0 ++ frame.epilogue).map .instruction

/-- The assembly file of a routine. -/
def ofRoutine (annotate : Bool) (r : Ir.Routine) : String := Item.file (routineItems annotate r)

end IntLang.Asm
