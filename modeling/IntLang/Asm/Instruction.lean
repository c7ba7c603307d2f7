import IntLang.Word
/-!
The registers and instructions of the target, a part of RV32 with its usual pseudo-instructions,
and their text.
-/
namespace IntLang.Asm

/-- The registers that generated code touches: the hardwired zero, return address, stack pointer,
frame pointer, three scratch registers and the return value. -/
inductive Register
  | zero | ra | sp | fp | t0 | t1 | t2 | a0
deriving DecidableEq, Repr

/-- Operations `rd := rs op rt`. -/
inductive Alu
  | add | sub | mul | div | rem | and | or | slt | sgt
deriving DecidableEq, Repr

/-- Operations `rd := op rs`. -/
inductive UnaryAlu
  | neg | not | seqz | snez
deriving DecidableEq, Repr

/-- Operations `rd := rs op immediate`. -/
inductive ImmediateAlu
  | addi | xori
deriving DecidableEq, Repr

/-- When a conditional branch is taken. -/
inductive Condition
  | zero | nonzero
deriving DecidableEq, Repr

/-- Instructions. `li` takes any word; the immediates of `immediate` and the offsets of `lw` and
`sw` have 12 signed bits in a text that assembles. Branches name a label. -/
inductive Instruction
  | alu (op : Alu) (rd rs rt : Register)
  | unary (op : UnaryAlu) (rd rs : Register)
  | immediate (op : ImmediateAlu) (rd rs : Register) (value : Word)
  | li (rd : Register) (value : Word)
  | lw (rd : Register) (offset : Word) (base : Register)
  | sw (rs : Register) (offset : Word) (base : Register)
  | branch (condition : Condition) (rs : Register) (target : String)
  | j (target : String)
  | ret
deriving DecidableEq, Repr

/-- The word fits the immediate field of an instruction: 12 signed bits. -/
def fitsImmediate (w : Word) : Bool := -2048 ≤ w && w ≤ 2047

namespace Register

def name : Register → String
  | .zero => "zero"
  | .ra => "ra"
  | .sp => "sp"
  | .fp => "fp"
  | .t0 => "t0"
  | .t1 => "t1"
  | .t2 => "t2"
  | .a0 => "a0"

/-- The register of that name. Each has a number as well, and the frame pointer is also `s0`. -/
def ofName? : String → Option Register
  | "zero" | "x0" => some .zero
  | "ra" | "x1" => some .ra
  | "sp" | "x2" => some .sp
  | "fp" | "s0" | "x8" => some .fp
  | "t0" | "x5" => some .t0
  | "t1" | "x6" => some .t1
  | "t2" | "x7" => some .t2
  | "a0" | "x10" => some .a0
  | _ => none

def all : List Register := [.zero, .ra, .sp, .fp, .t0, .t1, .t2, .a0]

theorem ofName?_name (r : Register) : ofName? r.name = some r := by cases r <;> rfl

end Register

def Alu.name : Alu → String
  | .add => "add"
  | .sub => "sub"
  | .mul => "mul"
  | .div => "div"
  | .rem => "rem"
  | .and => "and"
  | .or => "or"
  | .slt => "slt"
  | .sgt => "sgt"

def UnaryAlu.name : UnaryAlu → String
  | .neg => "neg"
  | .not => "not"
  | .seqz => "seqz"
  | .snez => "snez"

def ImmediateAlu.name : ImmediateAlu → String
  | .addi => "addi"
  | .xori => "xori"

def Condition.name : Condition → String
  | .zero => "beqz"
  | .nonzero => "bnez"

/-- `rd := rs + value`. -/
abbrev Instruction.addi (rd rs : Register) (value : Word) : Instruction :=
  .immediate .addi rd rs value

namespace Instruction

/-- The instruction's text: its name, then its operands. -/
def text : Instruction → String
  | .alu op rd rs rt => op.name ++ " " ++ rd.name ++ ", " ++ rs.name ++ ", " ++ rt.name
  | .unary op rd rs => op.name ++ " " ++ rd.name ++ ", " ++ rs.name
  | .immediate op rd rs value =>
      op.name ++ " " ++ rd.name ++ ", " ++ rs.name ++ ", " ++ Word.text value
  | .li rd value => "li " ++ rd.name ++ ", " ++ Word.text value
  | .lw rd offset base => "lw " ++ rd.name ++ ", " ++ Word.text offset ++ "(" ++ base.name ++ ")"
  | .sw rs offset base => "sw " ++ rs.name ++ ", " ++ Word.text offset ++ "(" ++ base.name ++ ")"
  | .branch condition rs target => condition.name ++ " " ++ rs.name ++ ", " ++ target
  | .j target => "j " ++ target
  | .ret => "ret"

/-- The label that the instruction may branch to. -/
def target? : Instruction → Option String
  | .branch _ _ target | .j target => some target
  | _ => none

end Instruction

/-- An entry of an assembly text: an instruction, or a label or comment, which takes no
address. -/
inductive Item
  | instruction (i : Instruction)
  | label (name : String)
  | comment (content : String)
deriving DecidableEq, Repr

namespace Item

def isInstruction : Item → Bool
  | .instruction _ => true
  | _ => false

def instruction? : Item → Option Instruction
  | .instruction i => some i
  | _ => none

def text : Item → String
  | .instruction i => i.text
  | .label name => name ++ ":"
  | .comment content => "# " ++ content

/-- The line of an entry: labels start it, all else is indented by a tab. -/
def line : Item → String
  | .label name => name ++ ":\n"
  | item => "\t" ++ item.text ++ "\n"

/-- The lines of the entries. -/
def lines (items : List Item) : String := String.join (items.map line)

/-- The directives that every assembly file starts with. -/
def directives : String := "\t.text\n\t.globl\tmain\n"

/-- A whole assembly file. -/
def file (items : List Item) : String := directives ++ lines items

end Item

end IntLang.Asm
