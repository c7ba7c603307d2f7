import IntLang.Asm.Instruction
/-!
Assembled programs: instructions, addressed by their index, and the labels that name addresses.
-/
namespace IntLang.Asm

/-- Instructions and labels. Labels stand in order of definition, each name once. -/
structure Image where
  instructions : Array Instruction
  labels : List (String × Nat)
deriving DecidableEq, Repr

namespace Image

def empty : Image := ⟨#[], []⟩

/-- The number of instructions. -/
def size (p : Image) : Nat := p.instructions.size

def isEmpty (p : Image) : Bool := p.instructions.isEmpty

/-- The address that a label names. -/
def address? (p : Image) (label : String) : Option Nat := p.labels.lookup label

/-- Adds an instruction at the end. -/
def push (p : Image) (i : Instruction) : Image := { p with instructions := p.instructions.push i }

/-- Names the address at the end; a name can be given once. -/
def define? (p : Image) (label : String) : Option Image :=
  match p.address? label with
  | some _ => none
  | none => some { p with labels := p.labels ++ [(label, p.size)] }

/-- The first branch target that is no label. -/
def missingTarget? (p : Image) : Option String :=
  p.instructions.toList.findSome? fun i => i.target?.filter fun t => (p.address? t).isNone

end Image

end IntLang.Asm
