import IntLang.Machine.Basic
import IntLang.Asm.Assemble
/-!
Running programs. A run calls an entry label with the caller's address in `ra`, and ends when that
is returned to, at a fault, or at the step limit. Registers and memory last from run to run.
-/
namespace IntLang

open Asm (Register Image)

/-- A machine between runs, with the number of instructions that the last run executed. -/
structure Machine where
  store : Store
  steps : Nat
  stepLimit : Nat

namespace Machine

def ordinaryStepLimit : Nat := 1000000

/-- The stack pointer at the start of a run. -/
def initialStack : Word := 0x7ffff000

/-- A machine that has not run. -/
def new (stepLimit : Nat) : Machine := ⟨⟨.clear, .empty⟩, 0, stepLimit⟩

def get (m : Machine) (r : Register) : Word := m.store.get r

def set (m : Machine) (r : Register) (w : Word) : Machine := { m with store := m.store.set r w }

def load (m : Machine) (address : UInt32) : Except Fault Word := m.store.memory.load address

/-- Writes a word of memory; at a fault the machine is as before. -/
def write (m : Machine) (address : UInt32) (w : Word) : Except Fault Unit × Machine :=
  match m.store.memory.store address w with
  | .ok memory => (.ok (), { m with store := { m.store with memory := memory } })
  | .error f => (.error f, m)

/-- Goes on at `pc` for at most `left` more steps, where `steps` have been taken. The result comes
with the steps taken in all and the store at the end, in which a faulting instruction has left no
trace. -/
def runFrom (p : Image) (steps : Nat) : (left pc : Nat) → Store →
    Except Fault Word × Nat × Store
  | 0, _, s => (.error (.stepLimit steps), steps, s)
  | left + 1, pc, s =>
      match p.instructions[pc]? with
      | none => (.error (.pcOutOfRange pc), steps, s)
      | some i =>
          match execute p pc s i with
          | .error f => (.error f, steps + 1, s)
          | .ok (.halt, s') => (.ok (s'.get .a0), steps + 1, s')
          | .ok (.address pc', s') => runFrom p (steps + 1) left pc' s'

/-- The store at the start of a run. -/
def entryStore (s : Store) : Store := (s.set .sp initialStack).set .ra callerAddress

/-- Calls `entry`; the result is `a0`. Where the program does not define it, nothing happens. -/
def run (m : Machine) (p : Image) (entry : String) : Except Fault Word × Machine :=
  match p.address? entry with
  | none => (.error (.unknownEntry entry), m)
  | some pc =>
      let (result, steps, store) := runFrom p 0 m.stepLimit pc (entryStore m.store)
      (result, { m with store := store, steps := steps })

end Machine

/-- Why a text could not be run to its end. -/
inductive ExecutionError
  | assembly (e : Asm.AssemblyError)
  | fault (f : Fault)
deriving DecidableEq, Repr

def ExecutionError.message : ExecutionError → String
  | .assembly e => e.message
  | .fault f => f.message

/-- Assembles a text and runs it from `main` on a new machine. -/
def runText (text : String) : Except ExecutionError Word :=
  match Asm.assemble text with
  | .error e => .error (.assembly e)
  | .ok p =>
      match ((Machine.new Machine.ordinaryStepLimit).run p "main").1 with
      | .ok w => .ok w
      | .error f => .error (.fault f)

end IntLang
