import IntLang.Proofs.Asm.Footprint
import IntLang.Proofs.Asm.Rejection
import IntLang.Proofs.Compiler
import IntLang.Proofs.Ir.Numbering
/-!
The calling convention of compiled code. A run on any machine gives the caller its registers back,
and of the memory it changes at most the frame and the operand stack below the initial stack
pointer.
-/
namespace IntLang

theorem toNat_cell {top : Word} {n : Nat} (h : 4 * n ≤ top.toUInt32.toNat) :
    (cell top n).toUInt32.toNat = top.toUInt32.toNat - 4 * n := by
  have low := top.toUInt32.toNat_lt
  have offset : (4 * UInt32.ofNat n).toNat = 4 * n := by
    rw [UInt32.toNat_mul, UInt32.toNat_ofNat']
    change 4 * (n % 2 ^ 32) % 2 ^ 32 = _
    omega
  rw [cell, Int32.toUInt32_sub, Int32.toUInt32_mul, Int32.toUInt32_ofNat', Int32.toUInt32_ofNat,
    UInt32.toNat_sub_of_le, offset]
  rwa [UInt32.le_iff_toNat_le, offset]

theorem Asm.outside_of_range {a : UInt32} {limit : Nat}
    (room : 4 * limit < Machine.initialStack.toUInt32.toNat)
    (h : a.toNat + 4 * limit < Machine.initialStack.toUInt32.toNat ∨
      Machine.initialStack.toUInt32.toNat ≤ a.toNat) :
    Outside Machine.initialStack limit a.toInt32 := by
  intro n hn hle heq
  have place := congrArg (fun w => w.toUInt32.toNat) heq
  simp only [UInt32.toUInt32_toInt32] at place
  rw [toNat_cell (by omega)] at place
  omega

/-- A run of compiled code on any machine. If it returns, `sp`, `ra` and `fp` are as at the call;
and however it ends, the words that are written and what they hold are as before, but for the frame
and the deepest operand stack below the initial stack pointer. -/
theorem compiled_run_convention {p : Program} {r : Ir.Routine} {annotate : Bool} {image : Asm.Image}
    (lowered : Ir.Routine.ofProgram p = .ok r)
    (room : 8 + 4 * p.declared.length + 4 * p.deepest < Machine.initialStack.toUInt32.toNat)
    (assembled : Asm.assemble (Asm.ofRoutine annotate r) = .ok image) (m : Machine) :
    (∀ v after, m.run image "main" = (.ok v, after) → after.get .sp = Machine.initialStack ∧
      after.get .ra = Machine.callerAddress ∧ after.get .fp = m.get .fp) ∧
    ∀ a : UInt32,
      a.toNat + (8 + 4 * p.declared.length + 4 * p.deepest) < Machine.initialStack.toUInt32.toNat ∨
        Machine.initialStack.toUInt32.toNat ≤ a.toNat →
      (m.run image "main").2.store.memory.words[a]? = m.store.memory.words[a]? := by
  have main := Ir.Routine.ofProgram_name lowered
  have name : Asm.RoutineName r.name := main ▸ Asm.routineName_main
  obtain ⟨once, targets⟩ := Asm.marks_of_assemble annotate name assembled
  have fits : p.FitsMachine := ⟨Ir.Routine.choices_le_of_once lowered once, room⟩
  have declared := fits.declared_lt
  obtain ⟨depth, d, deepest, -⟩ :=
    Ir.Routine.ofProgram_disciplined lowered fits.choices_le declared
  cases (Asm.assemble_ofRoutine annotate name once targets).symm.trans assembled
  have top : Machine.initialStack.toUInt32.toNat = 0x7ffff000 := rfl
  have small : 2 + p.declared.length + p.deepest < 0x40000000 := by omega
  have prep := Asm.Prepared.of_room name d small (s := m.store) <| by
    intro i _
    have depth_le := deepest i
    rw [Ir.Routine.ofProgram_localCount lowered, UInt32.toNat_ofNat_of_lt' declared]
    omega
  obtain ⟨registers, kept⟩ := prep.call annotate main
  refine ⟨registers, ?_⟩
  intro a ha
  have outside :
      Asm.Outside Machine.initialStack (2 + p.declared.length + p.deepest) a.toInt32 :=
    Asm.outside_of_range (by omega) (by omega)
  have same := kept a.toInt32 outside
  simpa only [Memory.word?, UInt32.toUInt32_toInt32] using same

/-- A machine whose caller has a word just above the frame, and another one just below what
`Ir.earlyReturn` needs. -/
def callerMachine : Machine where
  store := ⟨⟨1, 2, 12, 4, -1, 6, 7⟩, (Memory.empty.put 0x7ffff000 70).put 0x7fffefe8 80⟩
  steps := 0
  stepLimit := 100

theorem earlyReturn_run_convention : ∃ r image, Ir.Routine.ofProgram Ir.earlyReturn = .ok r ∧
    8 + 4 * Ir.earlyReturn.declared.length + 4 * Ir.earlyReturn.deepest <
      Machine.initialStack.toUInt32.toNat ∧
    Asm.assemble (Asm.ofRoutine true r) = .ok image ∧
    ∃ after, callerMachine.run image "main" = (.ok 5, after) ∧
      after.get .sp = 0x7ffff000 ∧ after.get .ra = -1 ∧ after.get .fp = 12 ∧
      after.store.memory.words[(0x7ffff000 : UInt32)]? = some 70 ∧
      after.store.memory.words[(0x7fffefe8 : UInt32)]? = some 80 := by
  have room : 8 + 4 * Ir.earlyReturn.declared.length + 4 * Ir.earlyReturn.deepest <
      Machine.initialStack.toUInt32.toNat := by decide
  have choices : Ir.earlyReturn.choices ≤ UInt32.size := by decide
  have declared : Ir.earlyReturn.declared.length < UInt32.size := by decide
  obtain ⟨r, lowered⟩ : ∃ r, Ir.Routine.ofProgram Ir.earlyReturn = .ok r := ⟨_, rfl⟩
  obtain ⟨depth, d, -⟩ := Ir.Routine.ofProgram_disciplined lowered choices declared
  have name : Asm.RoutineName r.name := Ir.Routine.ofProgram_name lowered ▸ Asm.routineName_main
  have assembled := Asm.assemble_ofRoutine true name d.once d.targets
  have returned : (callerMachine.run (Asm.routineImage true r) "main").1 = .ok 5 := by
    cases lowered
    decide +kernel
  obtain ⟨registers, kept⟩ := compiled_run_convention lowered room assembled callerMachine
  refine ⟨r, _, lowered, room, assembled, ?_⟩
  generalize callerMachine.run (Asm.routineImage true r) "main" = outcome at returned registers kept
  obtain ⟨result, after⟩ := outcome
  obtain rfl : result = .ok 5 := returned
  obtain ⟨sp, ra, fp⟩ := registers 5 after rfl
  have above := kept 0x7ffff000 (by decide)
  have below := kept 0x7fffefe8 (by decide)
  exact ⟨after, rfl, sp, ra, fp, above.trans (by decide), below.trans (by decide)⟩

end IntLang
