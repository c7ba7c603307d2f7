import IntLang.Asm.Instruction
/-!
Frames. A routine's frame lies below the stack pointer of its caller, which its frame pointer
keeps:

    fp - 4           saved ra
    fp - 8           saved fp
    fp - 12 - 4k     slot k
    below the slots  operand stack, growing down

Offsets too wide for an immediate go through the scratch register `t0`.
-/
namespace IntLang.Asm

/-- `rd := rs + value` for any word. -/
def addConstant (rd rs : Register) (value : Word) : List Instruction :=
  if fitsImmediate value then [.addi rd rs value] else [.li .t0 value, .alu .add rd rs .t0]

/-- `lw rd, offset(base)` for any offset. -/
def loadAt (rd : Register) (offset : Word) (base : Register) : List Instruction :=
  if fitsImmediate offset then [.lw rd offset base]
  else addConstant .t0 base offset ++ [.lw rd 0 .t0]

/-- `sw rs, offset(base)` for any offset. -/
def storeAt (rs : Register) (offset : Word) (base : Register) : List Instruction :=
  if fitsImmediate offset then [.sw rs offset base]
  else addConstant .t0 base offset ++ [.sw rs 0 .t0]

/-- Puts a register on the operand stack. -/
def push (r : Register) : List Instruction := [.addi .sp .sp (-4), .sw r 0 .sp]

/-- Takes the top of the operand stack into a register. -/
def pop (r : Register) : List Instruction := [.lw r 0 .sp, .addi .sp .sp 4]

/-- Drops the top of the operand stack. -/
def drop : Instruction := .addi .sp .sp 4

/-- A frame with that many slots. -/
structure Frame where
  slots : UInt32
deriving DecidableEq, Repr

namespace Frame

/-- The size in bytes: two saved registers and the slots. -/
def size (f : Frame) : Word := 4 * (2 + f.slots.toInt32)

/-- The offset of the saved `ra` from the bottom of the frame. -/
def savedRa (f : Frame) : Word := f.size - 4

/-- The offset of the saved `fp` from the bottom of the frame. -/
def savedFp (f : Frame) : Word := f.size - 8

/-- The offset of a slot from `fp`. -/
def offsetOf (slot : UInt32) : Word := -(12 + 4 * slot.toInt32)

/-- Puts the address of a slot into a register. -/
def slotPointer (slot : UInt32) (rd : Register) : List Instruction :=
  addConstant rd .fp (offsetOf slot)

/-- Takes the frame, saves `ra` and `fp`, and points `fp` at the top of the frame. -/
def prologue (f : Frame) : List Instruction :=
  addConstant .sp .sp (-f.size) ++ storeAt .ra f.savedRa .sp ++
    storeAt .fp f.savedFp .sp ++ addConstant .fp .sp f.size

/-- Restores `fp` and `ra`, gives the frame back and returns, provided that `sp` is at the bottom
of the frame. -/
def epilogue (f : Frame) : List Instruction :=
  loadAt .fp f.savedFp .sp ++ loadAt .ra f.savedRa .sp ++
    addConstant .sp .sp f.size ++ [.ret]

end Frame

end IntLang.Asm
