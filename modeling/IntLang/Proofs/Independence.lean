import IntLang.Proofs.Compiler
import IntLang.Proofs.Ir.Numbering
/-!
Runs of compiled code do not depend on the machine that they start on. The slots of a routine begin
with whatever the memory holds. A run from empty slots that returns has written every slot before it
reads it, so it returns the same in as many steps from any slots.
-/
namespace IntLang

open Ir (State Slots Outcome)

namespace Ir

def Slots.Within (slots slots' : Slots) : Prop := ∀ k v, slots k = some v → slots' k = some v

theorem Slots.empty_within (slots : Slots) : Slots.empty.Within slots := by
  intro k v h
  cases h

theorem Slots.Within.update {slots slots' : Slots} (h : slots.Within slots') (k : UInt32)
    (v : Word) : Within (Function.update slots k (some v)) (Function.update slots' k (some v)) := by
  intro j w hw
  by_cases hj : j = k
  · subst hj
    rwa [Function.update_self] at hw ⊢
  · rw [Function.update_of_ne hj] at hw ⊢
    exact h j w hw

/-- Steps from slots and from wider ones go the same way, unless the first was a load that had
nothing to read. -/
inductive StepAlike : Except Outcome State → Except Outcome State → Prop
  | onward {pc stack slots slots'} : slots.Within slots' →
      StepAlike (.ok ⟨pc, stack, slots⟩) (.ok ⟨pc, stack, slots'⟩)
  | ended {o} : StepAlike (.error o) (.error o)
  | unassigned {k result} : StepAlike (.error (.unassigned k)) result

section Alike

variable {ops : List Op} {pc : Nat} {stack : List Word} {slots slots' : Slots}
  (within : slots.Within slots')

include within

theorem jump_alike (l : Label) (rest : List Word) :
    StepAlike (jump ops l rest ⟨pc, stack, slots⟩) (jump ops l rest ⟨pc, stack, slots'⟩) := by
  simp only [jump]
  cases position? ops l with
  | some j => exact .onward within
  | none => exact .ended

theorem perform_alike (op : Op) :
    StepAlike (perform ops ⟨pc, stack, slots⟩ op) (perform ops ⟨pc, stack, slots'⟩ op) := by
  cases op with
  | push v | frameAddr k | label l => exact .onward within
  | unary op | pop =>
      cases stack with
      | nil => exact .ended
      | cons a rest => exact .onward within
  | binary op =>
      match stack with
      | [] | [_] => exact .ended
      | b :: a :: rest => exact .onward within
  | load =>
      cases stack with
      | nil => exact .ended
      | cons a rest =>
          simp only [perform]
          cases held : slots a.toUInt32 with
          | none => exact .unassigned
          | some v =>
              rw [within _ _ held]
              exact .onward within
  | store =>
      match stack with
      | [] | [_] => exact .ended
      | a :: v :: rest => exact .onward (within.update _ _)
  | ret => cases stack <;> exact .ended
  | br l => exact jump_alike within l stack
  | beqz l | bnez l =>
      cases stack with
      | nil => exact .ended
      | cons a rest =>
          simp only [perform]
          split
          · exact jump_alike within l rest
          · exact .onward within

theorem step_alike : StepAlike (step ops ⟨pc, stack, slots⟩) (step ops ⟨pc, stack, slots'⟩) := by
  simp only [step]
  cases ops[pc]? with
  | some op => exact perform_alike within op
  | none => cases stack <;> exact .ended

end Alike

end Ir

namespace Asm

open Machine (Steps)

/-- A run that returns does so from wider slots as well, and as fast. -/
theorem run_alike {r : Ir.Routine} {slots slots' : Slots} (within : slots.Within slots')
    {n pc : Nat} {stack : List Word} {v : Word}
    (h : Ir.run r.ops n ⟨pc, stack, slots⟩ = some (.returned v)) :
    Ir.run r.ops n ⟨pc, stack, slots'⟩ = some (.returned v) ∧
      runSteps r n ⟨pc, stack, slots'⟩ = runSteps r n ⟨pc, stack, slots⟩ := by
  induction n generalizing pc stack slots slots' with
  | zero => cases h
  | succ n ih =>
      rw [Ir.run] at h ⊢
      rw [runSteps, runSteps]
      have alike : Ir.StepAlike (Ir.step r.ops ⟨pc, stack, slots⟩)
          (Ir.step r.ops ⟨pc, stack, slots'⟩) := Ir.step_alike within
      generalize Ir.step r.ops ⟨pc, stack, slots⟩ = first at alike h
      generalize Ir.step r.ops ⟨pc, stack, slots'⟩ = second at alike
      cases alike with
      | onward within' =>
          obtain ⟨returns, same⟩ := ih within' h
          exact ⟨returns, congrArg (blockSize r pc + ·) same⟩
      | ended =>
          cases h
          exact ⟨rfl, rfl⟩
      | unassigned => cases h

/-- The program of a routine that returns from empty slots has a number of steps after which it
returns on every machine, and below which every machine stops at its limit. -/
theorem returns_on_every_machine {r : Ir.Routine} {depth : Nat → Nat} (hname : r.name = "main")
    (d : Ir.Disciplined r depth) (memory : FitsMemory r depth) {v : Word}
    (returned : Ir.Ends r.ops (.start .empty) (.returned v)) (annotate : Bool) :
    ∃ n, ∀ m : Machine,
      (n < m.stepLimit → (m.run (routineImage annotate r) "main").1 = .ok v ∧
        (m.run (routineImage annotate r) "main").2.steps = n + 1) ∧
      (m.stepLimit ≤ n →
        (m.run (routineImage annotate r) "main").1 = .error (.stepLimit m.stepLimit) ∧
        (m.run (routineImage annotate r) "main").2.steps = m.stepLimit) := by
  have name : RoutineName r.name := hname ▸ routineName_main
  have address : (routineImage annotate r).address? "main" = some 0 :=
    hname ▸ address?_name annotate
  obtain ⟨k, hk⟩ := returned
  refine ⟨(routineFrame r).prologue.length + runSteps r k (.start .empty), ?_⟩
  intro m
  obtain ⟨run, same⟩ := run_alike (Slots.empty_within (heldSlots m.store)) hk
  have held (j : UInt32) (_ : j.toNat < r.localCount.toNat) :
      (Machine.entryStore m.store).memory.word? (cell Machine.initialStack (3 + j.toNat)) =
        heldSlots m.store j := rfl
  obtain ⟨s, result, ends, shows, -⟩ :=
    (Prepared.called name d memory m.store).run annotate rfl held run
  cases shows
  rw [State.start, same] at ends
  simp only [Machine.run, address]
  constructor
  · intro limit
    rw [ends.runFrom limit]
    exact ⟨rfl, rfl⟩
  · intro limit
    obtain ⟨pc, -, steps, -⟩ := ends
    obtain ⟨-, s₁, -, stopped⟩ := Machine.exists_runFrom_of_limit steps limit 0
    rw [Nat.zero_add] at stopped
    rw [stopped]
    exact ⟨rfl, rfl⟩

end Asm

theorem exists_of_compile {annotate : Bool} {source text : String}
    (compiled : compile annotate source = .ok text) :
    ∃ r, Ir.Routine.ofSource source = .ok r ∧ text = Asm.ofRoutine annotate r := by
  rw [compile] at compiled
  cases accepted : Ir.Routine.ofSource source with
  | error e =>
      rw [accepted] at compiled
      cases compiled
  | ok r =>
      rw [accepted] at compiled
      cases compiled
      exact ⟨r, rfl, rfl⟩

/-- The program that a compiled text assembles to runs alike on any two machines with one step
limit, whatever their registers and memory hold: with the same result, a word or the limit as its
fault, and in the same number of steps. -/
theorem compiled_run_independent {annotate : Bool} {source text : String} {p : Program}
    {image : Asm.Image} (parsed : Program.ofSource source = .ok p)
    (room : 8 + 4 * p.declared.length + 4 * p.deepest < Machine.initialStack.toUInt32.toNat)
    (compiled : compile annotate source = .ok text) (assembled : Asm.assemble text = .ok image)
    (m m' : Machine) (limits : m.stepLimit = m'.stepLimit) :
    (m.run image "main").1 = (m'.run image "main").1 ∧
      (m.run image "main").2.steps = (m'.run image "main").2.steps ∧
      ((∃ v, (m.run image "main").1 = .ok v) ∨
        (m.run image "main").1 = .error (.stepLimit m.stepLimit)) := by
  obtain ⟨r, accepted, rfl⟩ := exists_of_compile compiled
  have lowered := Ir.Routine.ofProgram_of_ofSource accepted parsed
  have main := Ir.Routine.ofProgram_name lowered
  have name : Asm.RoutineName r.name := main ▸ Asm.routineName_main
  have printable := Asm.printable_routineItems annotate r name
  have once : (Ir.marks r.ops).Nodup :=
    Asm.once_of_labels _ _ (Asm.once_of_assemble_file printable assembled)
  have fits : p.FitsMachine := ⟨Ir.Routine.choices_le_of_once lowered once, room⟩
  obtain ⟨depth, v, d, memory, -, returned⟩ :=
    Ir.Routine.ofProgram_returns lowered (Program.ofSource_canonical parsed) fits
  cases (Asm.assemble_ofRoutine annotate name d.once d.targets).symm.trans assembled
  obtain ⟨n, every⟩ := Asm.returns_on_every_machine main d memory returned annotate
  rcases Nat.lt_or_ge n m.stepLimit with long | short
  · obtain ⟨result, steps⟩ := (every m).1 long
    obtain ⟨result', steps'⟩ := (every m').1 (limits ▸ long)
    exact ⟨result.trans result'.symm, steps.trans steps'.symm, .inl ⟨v, result⟩⟩
  · obtain ⟨result, steps⟩ := (every m).2 short
    obtain ⟨result', steps'⟩ := (every m').2 (limits ▸ short)
    rw [← limits] at result' steps'
    exact ⟨result.trans result'.symm, steps.trans steps'.symm, .inr result⟩

/-- The tree of `int main() { int a; return a ? a : (a = 5); }`. -/
def zeroFilled : Program :=
  let place (column : UInt32) : Position := ⟨1, column⟩
  ⟨"main",
    [.declare (place 14) "a" (place 18) none,
      .ret (place 21) (.conditional (place 28) (.var (place 28) "a") (.var (place 32) "a")
        (.paren (place 36) (.assign (place 37) "a" (.literal (place 41) 5))))], .start⟩

/-- A machine that other programs have left words on, one of them where `a` is going to be. -/
def usedMachine : Machine where
  store := ⟨⟨1, 2, 12, 4, -1, 6, 7⟩, Memory.empty.put 0x7fffeff4 77⟩
  steps := 9
  stepLimit := 30

theorem zeroFilled_run_independent :
    let source := "int main() \x7b int a; return a ? a : (a = 5); \x7d"
    Program.ofSource source = .ok zeroFilled ∧
      ∃ text image, compile false source = .ok text ∧ Asm.assemble text = .ok image ∧
        (usedMachine.run image "main").1 = ((Machine.new 30).run image "main").1 ∧
        (usedMachine.run image "main").2.steps = ((Machine.new 30).run image "main").2.steps := by
  intro source
  have parsed : Program.ofSource source = .ok zeroFilled := by decide +kernel
  have accepted : ∃ r, Ir.Routine.ofSource source = .ok r := by
    rw [Ir.Routine.ofSource, parsed]
    exact ⟨_, rfl⟩
  have fits : zeroFilled.FitsMachine := ⟨by decide, by decide⟩
  obtain ⟨r, accepted⟩ := accepted
  have lowered := Ir.Routine.ofProgram_of_ofSource accepted parsed
  have name : Asm.RoutineName r.name :=
    Ir.Routine.ofProgram_name lowered ▸ Asm.routineName_main
  obtain ⟨depth, v, d, -⟩ :=
    Ir.Routine.ofProgram_returns lowered (Program.ofSource_canonical parsed) fits
  have compiled := compile_eq_ok false accepted
  have assembled := Asm.assemble_ofRoutine false name d.once d.targets
  obtain ⟨result, steps, -⟩ :=
    compiled_run_independent parsed fits.room compiled assembled usedMachine (Machine.new 30) rfl
  exact ⟨parsed, _, _, compiled, assembled, result, steps⟩

end IntLang
