import IntLang.Proofs.Machine.Control
import IntLang.Proofs.Stateful
/-!
Faults leave no trace. Here an instruction is a sequence of accesses to registers and memory, each
of which changes the store in place, so that a fault in the middle would leave what was changed in
front of it. There is nothing in front of it to change: the store of a failed call is the one behind
the instructions that it completed.
-/
namespace IntLang

open Asm (Register Instruction Image assemble)

namespace Machine

/-- A part of the work of an instruction. It is done on the store in place, and a fault undoes
nothing of what was done before. -/
abbrev Access := EStateM Fault Store

namespace Access

def read (r : Register) : Access Word := fun s => .ok (s.get r) s

def write (r : Register) (w : Word) : Access Unit := fun s => .ok () (s.set r w)

def load (address : UInt32) : Access Word := fun s =>
  match s.memory.load address with
  | .ok w => .ok w s
  | .error f => .error f s

def store (address : UInt32) (w : Word) : Access Unit := fun s =>
  match s.memory.store address w with
  | .ok memory => .ok () { s with memory := memory }
  | .error f => .error f s

/-- Goes where a branch or a return leads. -/
def lead : Except Fault Next → Access Next
  | .ok next => pure next
  | .error f => fun s => .error f s

def perform (p : Image) (pc : Nat) : Instruction → Access Next
  | .alu op rd rs rt => do
      let a ← read rs
      let b ← read rt
      write rd (op.value a b)
      pure (.address (pc + 1))
  | .unary op rd rs => do
      let a ← read rs
      write rd (op.value a)
      pure (.address (pc + 1))
  | .immediate op rd rs value => do
      let a ← read rs
      write rd (op.value a value)
      pure (.address (pc + 1))
  | .li rd value => do
      write rd value
      pure (.address (pc + 1))
  | .lw rd offset base => do
      let a ← read base
      let w ← load (a + offset).toUInt32
      write rd w
      pure (.address (pc + 1))
  | .sw rs offset base => do
      let a ← read base
      let w ← read rs
      store (a + offset).toUInt32 w
      pure (.address (pc + 1))
  | .branch condition rs target => do
      let a ← read rs
      if condition.holds a then lead (branchTo p target) else pure (.address (pc + 1))
  | .j target => lead (branchTo p target)
  | .ret => do
      let a ← read .ra
      lead (returnTo a)

section Perform

variable {p : Image} {pc : Nat} {s : Store}

theorem lead_eq (next : Except Fault Next) : lead next s =
    match next.map (·, s) with
    | .ok (n, s') => .ok n s'
    | .error f => .error f s := by
  cases next <;> rfl

/-- An instruction that is carried out in place has the outcome of `execute`, and at a fault the
store is as it was before. -/
theorem perform_eq (i : Instruction) : perform p pc i s =
    match execute p pc s i with
    | .ok (next, s') => .ok next s'
    | .error f => .error f s := by
  cases i with
  | lw rd offset base =>
      have first : read base s = .ok (s.get base) s := rfl
      rw [perform, bind_of_ok first, execute, Store.effective]
      cases loaded : s.memory.load (s.get base + offset).toUInt32 with
      | error f =>
          have fault : load (s.get base + offset).toUInt32 s = .error f s := by
            rw [load, loaded]
          rw [bind_of_error fault]
      | ok w =>
          have word : load (s.get base + offset).toUInt32 s = .ok w s := by
            rw [load, loaded]
          rw [bind_of_ok word]
          rfl
  | sw rs offset base =>
      have first : read base s = .ok (s.get base) s := rfl
      have second : read rs s = .ok (s.get rs) s := rfl
      rw [perform, bind_of_ok first, bind_of_ok second, execute, Store.effective]
      cases stored : s.memory.store (s.get base + offset).toUInt32 (s.get rs) with
      | error f =>
          have fault : store (s.get base + offset).toUInt32 (s.get rs) s = .error f s := by
            rw [store, stored]
          rw [bind_of_error fault]
      | ok memory =>
          have done : store (s.get base + offset).toUInt32 (s.get rs) s =
              .ok () { s with memory := memory } := by
            rw [store, stored]
          rw [bind_of_ok done]
          rfl
  | branch condition rs target =>
      have first : read rs s = .ok (s.get rs) s := rfl
      rw [perform, bind_of_ok first, execute]
      split
      · exact lead_eq _
      · rfl
  | j target => exact lead_eq _
  | ret => exact lead_eq _
  | _ => rfl

theorem perform_of_fault {i : Instruction} {f : Fault} (h : execute p pc s i = .error f) :
    perform p pc i s = .error f s := by
  rw [perform_eq, h]

end Perform

end Access

/-- The store behind a failed call of a label of an assembled program is the one that the
instructions led to that the call completed. An instruction that met the fault, at a load, a store
or a return below all addresses, has changed nothing, in place as it worked, and counts as a step.
The limit and the end of the program stop a call between two instructions. -/
theorem failed_call_completes {text : String} {p : Image} (assembled : assemble text = .ok p)
    {m : Machine} {entry : String} (known : p.address? entry ≠ none) {f : Fault} {after : Machine}
    (run : m.run p entry = (.error f, after)) :
    after.stepLimit = m.stepLimit ∧ ∃ start completed pc, p.address? entry = some start ∧
      Advances p completed start (entryStore m.store) pc after.store ∧
      ((after.steps = completed + 1 ∧ ∃ i, p.instructions[pc]? = some i ∧
          Access.perform p pc i after.store = .error f after.store ∧
          ((∃ a, f = .misaligned a) ∨ (∃ a, f = .uninitialized a) ∨
            (i = .ret ∧ after.get .ra ≠ callerAddress ∧ after.get .ra < 0 ∧
              f = .pcOutOfRange (after.get .ra).toInt))) ∨
        (after.steps = completed ∧ (f = .stepLimit m.stepLimit ∨
          (p.instructions[pc]? = none ∧ f = .pcOutOfRange pc)))) := by
  have closed := Image.closed_of_assemble assembled
  obtain ⟨s, steps, limit⟩ := after
  obtain ⟨start, address, same, ⟨exhausted, -, pc, front⟩ | ⟨-, stops⟩⟩ := run_cases known run
  · cases exhausted
    exact ⟨same, start, steps, pc, address, front, .inr ⟨rfl, .inl rfl⟩⟩
  · refine ⟨same, start, ?_⟩
    cases stops with
    | @outside _ pc _ front out =>
        exact ⟨steps, pc, address, front, .inr ⟨rfl, .inr ⟨out, rfl⟩⟩⟩
    | @closed n pc _ _ front closes =>
        cases closes with
        | @fault i _ hi he =>
            refine ⟨n, pc, address, front, .inl ⟨rfl, i, hi, Access.perform_of_fault he, ?_⟩⟩
            exact (fails_of_execute he).cases_of_closed closed hi

/-- A program that stores a word and then loads from an odd address. -/
def oddAddressText : String :=
  "main:\n\tli t0, 5\n\tsw t0, -4(sp)\n\taddi sp, sp, -2\n\tlw a0, 1(sp)\n\tret\n"

def oddAddressImage : Image where
  instructions := #[.li .t0 5, .sw .t0 (-4) .sp, .addi .sp .sp (-2), .lw .a0 1 .sp, .ret]
  labels := [("main", 0)]

theorem oddAddressImage_call_completes : assemble oddAddressText = .ok oddAddressImage ∧
    oddAddressImage.address? "main" ≠ none ∧ ∃ after,
      (new 9).run oddAddressImage "main" = (.error (.misaligned 0x7fffefff), after) ∧
      after.steps = 4 ∧ ∃ pc i, oddAddressImage.instructions[pc]? = some i ∧
        Advances oddAddressImage 3 0 (entryStore (new 9).store) pc after.store ∧
        Access.perform oddAddressImage pc i after.store =
          .error (.misaligned 0x7fffefff) after.store := by
  have accepted : assemble oddAddressText = .ok oddAddressImage := by decide +kernel
  have known : oddAddressImage.address? "main" ≠ none := by decide
  obtain ⟨after, run, steps⟩ : ∃ after, (new 9).run oddAddressImage "main" =
    (.error (.misaligned 0x7fffefff), after) ∧ after.steps = 4 := ⟨_, rfl, rfl⟩
  refine ⟨accepted, known, after, run, steps, ?_⟩
  obtain ⟨-, start, completed, pc, address, front,
    ⟨count, i, hi, fault, -⟩ | ⟨-, exhausted | ⟨-, outside⟩⟩⟩ :=
      failed_call_completes accepted known run
  · cases address
    obtain rfl : completed = 3 := by omega
    exact ⟨pc, i, hi, front, fault⟩
  · cases exhausted
  · cases outside

end Machine

end IntLang
