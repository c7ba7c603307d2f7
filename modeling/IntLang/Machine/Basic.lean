import IntLang.Machine.Memory
import IntLang.Asm.Image
/-!
The machine: registers, memory, and what one instruction does to them. An instruction either
takes its whole effect or meets a fault and takes none.
-/
namespace IntLang

open Asm (Register Alu UnaryAlu ImmediateAlu Condition Instruction Image)

/-- The contents of the registers other than `zero`. -/
structure Registers where
  ra : Word
  sp : Word
  fp : Word
  t0 : Word
  t1 : Word
  t2 : Word
  a0 : Word
deriving DecidableEq, Repr

namespace Registers

/-- All registers zero. -/
def clear : Registers := ⟨0, 0, 0, 0, 0, 0, 0⟩

def get (r : Registers) : Register → Word
  | .zero => 0
  | .ra => r.ra
  | .sp => r.sp
  | .fp => r.fp
  | .t0 => r.t0
  | .t1 => r.t1
  | .t2 => r.t2
  | .a0 => r.a0

/-- Writes a register. Writing `zero` has no effect. -/
def set (r : Registers) (rd : Register) (w : Word) : Registers :=
  match rd with
  | .zero => r
  | .ra => { r with ra := w }
  | .sp => { r with sp := w }
  | .fp => { r with fp := w }
  | .t0 => { r with t0 := w }
  | .t1 => { r with t1 := w }
  | .t2 => { r with t2 := w }
  | .a0 => { r with a0 := w }

theorem get_set (r : Registers) (rd rs : Register) (w : Word) :
    (r.set rd w).get rs = if rs = rd ∧ rd ≠ .zero then w else r.get rs := by
  cases rd <;> cases rs <;> rfl

end Registers

def Asm.Alu.value : Alu → Word → Word → Word
  | .add, a, b => a + b
  | .sub, a, b => a - b
  | .mul, a, b => a * b
  | .div, a, b => Word.quotient a b
  | .rem, a, b => Word.remainder a b
  | .and, a, b => a &&& b
  | .or, a, b => a ||| b
  | .slt, a, b => Word.ofBool (a < b)
  | .sgt, a, b => Word.ofBool (a > b)

def Asm.UnaryAlu.value : UnaryAlu → Word → Word
  | .neg, a => -a
  | .not, a => ~~~a
  | .seqz, a => Word.ofBool (a = 0)
  | .snez, a => Word.ofBool (a ≠ 0)

def Asm.ImmediateAlu.value : ImmediateAlu → Word → Word → Word
  | .addi, a, b => a + b
  | .xori, a, b => a ^^^ b

def Asm.Condition.holds : Condition → Word → Bool
  | .zero, a => a = 0
  | .nonzero, a => a ≠ 0

/-- What instructions read and write. -/
structure Store where
  registers : Registers
  memory : Memory

/-- Where control goes: to an address, or out of the program. -/
inductive Next
  | address (pc : Nat)
  | halt
deriving DecidableEq, Repr

namespace Store

def get (s : Store) (r : Register) : Word := s.registers.get r

def set (s : Store) (r : Register) (w : Word) : Store :=
  { s with registers := s.registers.set r w }

/-- The address `offset(base)`. -/
def effective (s : Store) (offset : Word) (base : Register) : UInt32 :=
  (s.get base + offset).toUInt32

end Store

namespace Machine

/-- The address of the caller of a run, which lies in no program. -/
def callerAddress : Word := -1

/-- Where a return to that word leads. -/
def returnTo (w : Word) : Except Fault Next :=
  if w = callerAddress then .ok .halt
  else if w < 0 then .error (.pcOutOfRange w.toInt)
  else .ok (.address w.toInt.toNat)

/-- Where a branch to a label leads. -/
def branchTo (p : Image) (target : String) : Except Fault Next :=
  match p.address? target with
  | some pc => .ok (.address pc)
  | none => .error (.unknownEntry target)

/-- Executes the instruction at the address `pc`. -/
def execute (p : Image) (pc : Nat) (s : Store) : Instruction → Except Fault (Next × Store)
  | .alu op rd rs rt => .ok (.address (pc + 1), s.set rd (op.value (s.get rs) (s.get rt)))
  | .unary op rd rs => .ok (.address (pc + 1), s.set rd (op.value (s.get rs)))
  | .immediate op rd rs value => .ok (.address (pc + 1), s.set rd (op.value (s.get rs) value))
  | .li rd value => .ok (.address (pc + 1), s.set rd value)
  | .lw rd offset base =>
      match s.memory.load (s.effective offset base) with
      | .ok w => .ok (.address (pc + 1), s.set rd w)
      | .error f => .error f
  | .sw rs offset base =>
      match s.memory.store (s.effective offset base) (s.get rs) with
      | .ok memory => .ok (.address (pc + 1), { s with memory := memory })
      | .error f => .error f
  | .branch condition rs target =>
      if condition.holds (s.get rs) then (branchTo p target).map (·, s)
      else .ok (.address (pc + 1), s)
  | .j target => (branchTo p target).map (·, s)
  | .ret => (returnTo (s.get .ra)).map (·, s)

end Machine

end IntLang
