import IntLang.Proofs.Asm.Ascent
import IntLang.Proofs.Asm.Rejection
import IntLang.Proofs.Compiler
import IntLang.Proofs.Ir.Numbering
/-!
Compiled code only goes forward. On every machine the addresses of the instructions that a run
executes ascend, so that no run takes more steps than the program has instructions.
-/
namespace IntLang

/-- What assembles from an accepted program is the program of its routine, and every machine is
prepared to call it. -/
theorem Ir.Routine.ofProgram_prepared {p : Program} {r : Ir.Routine} {annotate : Bool}
    {image : Asm.Image} (lowered : ofProgram p = .ok r)
    (room : 8 + 4 * p.declared.length + 4 * p.deepest < Machine.initialStack.toUInt32.toNat)
    (assembled : Asm.assemble (Asm.ofRoutine annotate r) = .ok image) :
    image = Asm.routineImage annotate r ∧ r.localCount.toNat = p.declared.length ∧
      ∃ depth, ∀ s,
        Asm.Prepared r depth Machine.initialStack 0x1ffffbff (Machine.entryStore s) := by
  have name : Asm.RoutineName r.name := ofProgram_name lowered ▸ Asm.routineName_main
  obtain ⟨once, targets⟩ := Asm.marks_of_assemble annotate name assembled
  have fits : p.FitsMachine := ⟨choices_le_of_once lowered once, room⟩
  have declared := fits.declared_lt
  obtain ⟨depth, d, deepest, -⟩ := ofProgram_disciplined lowered fits.choices_le declared
  cases (Asm.assemble_ofRoutine annotate name once targets).symm.trans assembled
  have count : r.localCount.toNat = p.declared.length := by
    rw [ofProgram_localCount lowered, UInt32.toNat_ofNat_of_lt' declared]
  refine ⟨rfl, count, depth, .called name d ?_⟩
  intro i _
  have depth_le := deepest i
  omega

/-- A run of the program that an accepted tree assembles to executes instructions at ascending
addresses, on every machine and under every limit: no more of them than the program has. It ends at
the only `ret`, which is the last instruction, or at a load from a slot that holds nothing; the
limit is its fault only where the limit is below the number of instructions. -/
theorem compiled_run_ascends {p : Program} {r : Ir.Routine} {annotate : Bool} {image : Asm.Image}
    (lowered : Ir.Routine.ofProgram p = .ok r)
    (room : 8 + 4 * p.declared.length + 4 * p.deepest < Machine.initialStack.toUInt32.toNat)
    (assembled : Asm.assemble (Asm.ofRoutine annotate r) = .ok image) (m : Machine) :
    (m.trace image "main").Pairwise (· < ·) ∧
      (m.run image "main").2.steps = (m.trace image "main").length ∧
      (m.run image "main").2.steps ≤ image.size ∧
      (∀ pc, image.instructions[pc]? = some .ret ↔ pc + 1 = image.size) ∧
      image.Ending p.declared.length m.stepLimit (m.trace image "main")
        (m.run image "main").1 := by
  have main := Ir.Routine.ofProgram_name lowered
  obtain ⟨rfl, count, depth, prepared⟩ := Ir.Routine.ofProgram_prepared lowered room assembled
  have address : (Asm.routineImage annotate r).address? "main" ≠ none := by
    rw [← main, Asm.address?_name]
    exact Option.some_ne_none 0
  obtain ⟨ascends, bound, ending⟩ :=
    (prepared m.store).call_ascends annotate main (Ir.Routine.ofProgram_forward lowered)
  rw [count] at ending
  exact ⟨ascends, Machine.steps_run m address, bound,
    fun _ => Asm.getElem?_eq_ret_iff annotate, ending⟩

open Ir.Routine (skippedDeclaration)

/-- A run that goes around a declaration ends at the load of its variable, after a part of the
program. -/
theorem skippedDeclaration_run_ascends : ∃ r image,
    Ir.Routine.ofProgram skippedDeclaration = .ok r ∧
    8 + 4 * skippedDeclaration.declared.length + 4 * skippedDeclaration.deepest <
      Machine.initialStack.toUInt32.toNat ∧
    Asm.assemble (Asm.ofRoutine true r) = .ok image ∧
    ((Machine.new 100).run image "main").1 = .error (.uninitialized 0x7fffeff0) ∧
    ((Machine.new 100).trace image "main").Pairwise (· < ·) ∧
    ((Machine.new 100).run image "main").2.steps ≤ image.size := by
  have room : 8 + 4 * skippedDeclaration.declared.length + 4 * skippedDeclaration.deepest <
      Machine.initialStack.toUInt32.toNat := by decide
  have choices : skippedDeclaration.choices ≤ UInt32.size := by decide
  have declared : skippedDeclaration.declared.length < UInt32.size := by decide
  obtain ⟨r, lowered⟩ : ∃ r, Ir.Routine.ofProgram skippedDeclaration = .ok r := ⟨_, rfl⟩
  obtain ⟨depth, d, -⟩ := Ir.Routine.ofProgram_disciplined lowered choices declared
  have name : Asm.RoutineName r.name := Ir.Routine.ofProgram_name lowered ▸ Asm.routineName_main
  have assembled := Asm.assemble_ofRoutine true name d.once d.targets
  have fault : ((Machine.new 100).run (Asm.routineImage true r) "main").1 =
      .error (.uninitialized 0x7fffeff0) := by
    cases lowered
    decide +kernel
  obtain ⟨ascends, -, bound, -⟩ := compiled_run_ascends lowered room assembled (Machine.new 100)
  exact ⟨r, _, lowered, room, assembled, fault, ascends, bound⟩

end IntLang
