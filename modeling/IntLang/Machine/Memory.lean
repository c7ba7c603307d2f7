import Std.Data.ExtTreeMap
import IntLang.Word
/-!
The data memory: words at addresses divisible by four. Only words that have been written exist.
-/
namespace IntLang

/-- What ends a run without a result: an access to memory, a fetch outside the program, the step
limit, or an entry that the program does not define. -/
inductive Fault
  | misaligned (address : UInt32)
  | uninitialized (address : UInt32)
  | pcOutOfRange (pc : Int)
  | stepLimit (limit : Nat)
  | unknownEntry (label : String)
deriving DecidableEq, Repr

namespace Fault

/-- Lower-case hexadecimal behind `0x`. -/
def hex (address : UInt32) : String := "0x" ++ String.ofList (Nat.toDigits 16 address.toNat)

def message : Fault → String
  | .misaligned address => s!"misaligned memory access at {hex address}"
  | .uninitialized address => s!"read of uninitialised memory at {hex address}"
  | .pcOutOfRange pc => s!"program counter {pc} outside the program"
  | .stepLimit limit => s!"step limit of {limit} instructions exceeded"
  | .unknownEntry label => s!"unknown label '{label}'"

end Fault

/-- Written words by address. Memories with the same words are equal. -/
structure Memory where
  words : Std.ExtTreeMap UInt32 Word

namespace Memory

def empty : Memory := ⟨∅⟩

/-- The number of words written so far. -/
def size (m : Memory) : Nat := m.words.size

def isEmpty (m : Memory) : Bool := m.words.isEmpty

/-- A whole word starts at the address. -/
def isAligned (address : UInt32) : Bool := address % 4 = 0

def load (m : Memory) (address : UInt32) : Except Fault Word :=
  if isAligned address then
    match m.words[address]? with
    | some w => .ok w
    | none => .error (.uninitialized address)
  else .error (.misaligned address)

def store (m : Memory) (address : UInt32) (w : Word) : Except Fault Memory :=
  if isAligned address then .ok ⟨m.words.insert address w⟩ else .error (.misaligned address)

end Memory

end IntLang
