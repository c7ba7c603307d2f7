import IntLang.Asm.Image
import IntLang.Text.Blank
import IntLang.Text.Split
/-!
Reading assembly text. On a line, `#` starts a comment, text up to a `:` defines a label, text
that starts with `.` is a directive and skipped, and what is left is an instruction. Branch
targets are looked up once all lines are read, so a label may be defined behind its uses.
-/
namespace IntLang.Asm

/-- What can be wrong with a line. -/
inductive LineFault
  | unknownMnemonic (name : String)
  | unknownRegister (name : String)
  | malformedOperand (operand : String)
  | operandCount (mnemonic : String) (expected found : Nat)
  | immediateOutOfRange (value : Word)
  | duplicateLabel (name : String)
deriving DecidableEq, Repr

/-- Why a text does not assemble: a line counted from 1, or a branch without a target. -/
inductive AssemblyError
  | atLine (line : Nat) (fault : LineFault)
  | unknownLabel (name : String)
deriving DecidableEq, Repr

def LineFault.message : LineFault → String
  | .unknownMnemonic name => s!"unknown mnemonic '{name}'"
  | .unknownRegister name => s!"unknown register '{name}'"
  | .malformedOperand operand => s!"malformed operand '{operand}'"
  | .operandCount mnemonic expected found =>
      s!"'{mnemonic}' takes {expected} operands, found {found}"
  | .immediateOutOfRange value => s!"immediate {Word.text value} does not fit in 12 bits"
  | .duplicateLabel name => s!"label '{name}' defined twice"

def AssemblyError.message : AssemblyError → String
  | .atLine line fault => s!"line {line}: {fault.message}"
  | .unknownLabel name => s!"unknown label '{name}'"

/-- The word that an instruction starts with. -/
inductive Mnemonic
  | alu (op : Alu)
  | unary (op : UnaryAlu)
  | immediate (op : ImmediateAlu)
  | li | lw | sw
  | branch (condition : Condition)
  | j | ret
deriving DecidableEq, Repr

namespace Mnemonic

def name : Mnemonic → String
  | .alu op => op.name
  | .unary op => op.name
  | .immediate op => op.name
  | .li => "li"
  | .lw => "lw"
  | .sw => "sw"
  | .branch condition => condition.name
  | .j => "j"
  | .ret => "ret"

def all : List Mnemonic :=
  [.alu .add, .alu .sub, .alu .mul, .alu .div, .alu .rem, .alu .and, .alu .or, .alu .slt,
    .alu .sgt, .unary .neg, .unary .not, .unary .seqz, .unary .snez, .immediate .addi,
    .immediate .xori, .li, .lw, .sw, .branch .zero, .branch .nonzero, .j, .ret]

def ofName? (s : String) : Option Mnemonic := all.find? (·.name = s)

/-- The number of operands that an instruction takes. -/
def operandCount : Mnemonic → Nat
  | .alu _ => 3
  | .unary _ => 2
  | .immediate _ => 3
  | .li | .lw | .sw => 2
  | .branch _ => 2
  | .j => 1
  | .ret => 0

end Mnemonic

namespace Operand

def register (cs : List Char) : Except LineFault Register :=
  match Register.ofName? (String.ofList cs) with
  | some r => .ok r
  | none => .error (.unknownRegister (String.ofList cs))

def malformed {α : Type} (cs : List Char) : Except LineFault α :=
  .error (.malformedOperand (String.ofList cs))

def word (cs : List Char) : Except LineFault Word :=
  match Word.ofText? cs with
  | some w => .ok w
  | none => malformed cs

/-- A word that fits the immediate field. -/
def narrow (w : Word) : Except LineFault Word :=
  if fitsImmediate w then .ok w else .error (.immediateOutOfRange w)

/-- `offset(base)`; a missing offset is zero. -/
def address (cs : List Char) : Except LineFault (Word × Register) :=
  match Text.cut? (· = '(') cs with
  | none => malformed cs
  | some (offset, rest) =>
      if rest.getLast? = some ')' then do
        let offset := Text.trim offset
        let value ←
          if offset = [] then .ok 0
          else match Word.ofText? offset with
            | some w => .ok w
            | none => malformed cs
        let base ← register (Text.trim rest.dropLast)
        let value ← narrow value
        .ok (value, base)
      else malformed cs

/-- A label: any text without white space but the empty one. -/
def label (cs : List Char) : Except LineFault String :=
  if cs = [] ∨ cs.any Text.isBlank then malformed cs else .ok (String.ofList cs)

end Operand

namespace Instruction

/-- The instruction of that name with those operands. Their number is looked at first, then the
operands from left to right. -/
def ofOperands : Mnemonic → List (List Char) → Except LineFault Instruction
  | .alu op, [a, b, c] => do
      let rd ← Operand.register a
      let rs ← Operand.register b
      let rt ← Operand.register c
      .ok (.alu op rd rs rt)
  | .unary op, [a, b] => do
      let rd ← Operand.register a
      let rs ← Operand.register b
      .ok (.unary op rd rs)
  | .immediate op, [a, b, c] => do
      let rd ← Operand.register a
      let rs ← Operand.register b
      let value ← Operand.word c
      let value ← Operand.narrow value
      .ok (.immediate op rd rs value)
  | .li, [a, b] => do
      let rd ← Operand.register a
      let value ← Operand.word b
      .ok (.li rd value)
  | .lw, [a, b] => do
      let rd ← Operand.register a
      let (offset, base) ← Operand.address b
      .ok (.lw rd offset base)
  | .sw, [a, b] => do
      let rs ← Operand.register a
      let (offset, base) ← Operand.address b
      .ok (.sw rs offset base)
  | .branch condition, [a, b] => do
      let rs ← Operand.register a
      let target ← Operand.label b
      .ok (.branch condition rs target)
  | .j, [a] => do
      let target ← Operand.label a
      .ok (.j target)
  | .ret, [] => .ok .ret
  | m, operands => .error (.operandCount m.name m.operandCount operands.length)

/-- The operands of a line: what stands between commas, without white space around it. -/
def operands (cs : List Char) : List (List Char) :=
  if cs = [] then [] else (Text.pieces ',' cs).map Text.trim

/-- Reads a line that holds an instruction and nothing else. -/
def ofLine (cs : List Char) : Except LineFault Instruction :=
  let (name, rest) := (Text.cut? Text.isBlank cs).getD (cs, [])
  match Mnemonic.ofName? (String.ofList name) with
  | some m => ofOperands m (operands (Text.trim rest))
  | none => .error (.unknownMnemonic (String.ofList name))

end Instruction

namespace Image

/-- Adds what follows the label of a line, if it is an instruction. -/
def addCode (p : Image) (cs : List Char) : Except LineFault Image :=
  if cs = [] ∨ cs.head? = some '.' then .ok p else (Instruction.ofLine cs).map p.push

/-- Adds a line. -/
def addLine (p : Image) (line : List Char) : Except LineFault Image :=
  let cs := Text.trim (line.takeWhile (· ≠ '#'))
  match Text.cut? (· = ':') cs with
  | none => p.addCode cs
  | some (label, rest) =>
      match p.define? (String.ofList (Text.trim label)) with
      | none => .error (.duplicateLabel (String.ofList (Text.trim label)))
      | some p' => p'.addCode (Text.trim rest)

/-- Adds lines, of which the first has that number. -/
def addLines (p : Image) (number : Nat) : List (List Char) → Except AssemblyError Image
  | [] => .ok p
  | line :: rest =>
      match p.addLine line with
      | .ok p' => p'.addLines (number + 1) rest
      | .error fault => .error (.atLine number fault)

end Image

/-- Assembles a whole text. -/
def assemble (text : String) : Except AssemblyError Image :=
  match Image.empty.addLines 1 (Text.pieces '\n' text.toList) with
  | .ok p =>
      match p.missingTarget? with
      | none => .ok p
      | some name => .error (.unknownLabel name)
  | .error e => .error e

end IntLang.Asm
