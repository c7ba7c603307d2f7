import IntLang.Compiler
import IntLang.Proofs.Asm.Refinement
import IntLang.Proofs.Ir.Depth
import IntLang.Proofs.Ir.Definite
import IntLang.Proofs.Parser.Soundness
/-!
The whole compiler: the assembled text of an accepted source runs to the result of its tree.
-/
namespace IntLang

open Ir (Disciplined)

section Stages

variable {source : String} {p : Program} {r : Ir.Routine}

theorem Program.ofSource_canonical (h : Program.ofSource source = .ok p) : p.Canonical := by
  unfold Program.ofSource at h
  cases ht : tokenize source with
  | error e =>
      rw [ht] at h
      cases h
  | ok tokens =>
      rw [ht] at h
      cases hp : Parser.onTokens Parser.program tokens with
      | error e =>
          simp only [hp] at h
          cases h
      | ok q =>
          simp only [hp] at h
          cases h
          obtain ⟨s, parsed⟩ := Parser.onTokens_eq_ok.mp hp
          exact (Parser.program_gives parsed).1

theorem Ir.Routine.ofProgram_of_ofSource (accepted : Ir.Routine.ofSource source = .ok r)
    (parsed : Program.ofSource source = .ok p) : Ir.Routine.ofProgram p = .ok r := by
  rwa [Ir.Routine.ofSource, parsed] at accepted

theorem compile_eq_ok (annotate : Bool) (accepted : Ir.Routine.ofSource source = .ok r) :
    compile annotate source = .ok (Asm.ofRoutine annotate r) := by
  rw [compile, accepted]
  rfl

end Stages

section Lowered

variable {p : Program} {r : Ir.Routine}

theorem Ir.Routine.ofProgram_name (h : Ir.Routine.ofProgram p = .ok r) : r.name = "main" := by
  obtain ⟨_, _, _, _, rfl⟩ := Ir.Routine.ofProgram_eq_ok h
  rfl

theorem Ir.Routine.ofProgram_forward (h : Ir.Routine.ofProgram p = .ok r) :
    Ir.Forward r.ops := by
  obtain ⟨_, _, lowered, _, rfl⟩ := Ir.Routine.ofProgram_eq_ok h
  exact lowered.forward.append (.cons_of_none rfl trivial)

theorem Ir.Routine.ofProgram_localCount (h : Ir.Routine.ofProgram p = .ok r) :
    r.localCount = .ofNat p.declared.length := by
  obtain ⟨_, w, lowered, _, rfl⟩ := Ir.Routine.ofProgram_eq_ok h
  change UInt32.ofNat w.scope.names.length = _
  rw [lowered.scope]
  rfl

end Lowered

/-- There are numbers for all labels, and the frame and the deepest operand stack together are
smaller than the stack. -/
structure Program.FitsMachine (p : Program) : Prop where
  choices_le : p.choices ≤ UInt32.size
  room : 8 + 4 * p.declared.length + 4 * p.deepest < Machine.initialStack.toUInt32.toNat

theorem Program.FitsMachine.declared_lt {p : Program} (fits : p.FitsMachine) :
    p.declared.length < UInt32.size := by
  have room := fits.room
  rw [show Machine.initialStack.toUInt32.toNat = 0x7ffff000 from rfl] at room
  rw [show UInt32.size = 4294967296 from rfl]
  omega

/-- The code of an accepted program is disciplined, fits the memory and returns the result of the
program. -/
theorem Ir.Routine.ofProgram_returns {p : Program} {r : Ir.Routine}
    (lowered : Ir.Routine.ofProgram p = .ok r) (canonical : p.Canonical) (fits : p.FitsMachine) :
    ∃ depth v, Disciplined r depth ∧ Asm.FitsMemory r depth ∧ p.eval = .ok v ∧
      Ir.Ends r.ops (.start .empty) (.returned v) := by
  have declared := fits.declared_lt
  obtain ⟨depth, d, deepest, -⟩ := ofProgram_disciplined lowered fits.choices_le declared
  obtain ⟨v, hv⟩ := ofProgram_evaluates lowered canonical
  refine ⟨depth, v, d, ?_, hv, ?_⟩
  · intro i _
    have room := fits.room
    have depth_le := deepest i
    rw [ofProgram_localCount lowered, UInt32.toNat_ofNat_of_lt' declared]
    omega
  · have follows := ofProgram_follows lowered ⟨fits.choices_le, Nat.le_of_lt declared⟩
    rwa [hv] at follows

/-- Without branches back the instructions are at least as many as the steps. -/
theorem Asm.forward_returns {r : Ir.Routine} {depth : Nat → Nat} (hname : r.name = "main")
    (d : Disciplined r depth) (memory : Asm.FitsMemory r depth) (forward : Ir.Forward r.ops)
    {v : Word} (returned : Ir.Ends r.ops (.start .empty) (.returned v)) (annotate : Bool) :
    (∀ limit, (routineImage annotate r).size ≤ limit →
      ((Machine.new limit).run (routineImage annotate r) "main").1 = .ok v) ∧
    ∀ limit, ((Machine.new limit).run (routineImage annotate r) "main").1 = .ok v ∨
      ((Machine.new limit).run (routineImage annotate r) "main").1 = .error (.stepLimit limit) := by
  have name : RoutineName r.name := hname ▸ routineName_main
  have prep := Prepared.fresh name d memory
  obtain ⟨n, s, result, ends, shows, -⟩ :=
    prep.ends annotate rfl (fun _ _ => word?_freshEntry _) returned
  cases shows
  have address : (routineImage annotate r).address? "main" = some 0 :=
    hname ▸ address?_name annotate
  have result (limit : Nat) (hl : n < limit) :
      ((Machine.new limit).run (routineImage annotate r) "main").1 = .ok v := by
    rw [run_new_eq address, ends.runFrom hl]
  have short : n < (routineImage annotate r).size :=
    ends.lt_size (ascending_routineImage annotate name d.once forward)
  constructor
  · intro limit hl
    exact result limit (Nat.lt_of_lt_of_le short hl)
  · intro limit
    rcases Nat.lt_or_ge n limit with hl | hl
    · exact .inl (result limit hl)
    · obtain ⟨pc, -, steps, -⟩ := ends
      right
      rw [run_new_eq address, Machine.runFrom_of_limit steps hl, Nat.zero_add]

/-- The text of an accepted source assembles, with comments or without. Its run from `main` on a
new machine has the result of the tree when the step limit is the number of instructions or more,
and under every limit either that result or the limit as its fault. -/
theorem compiled_source_returns {source : String} {p : Program} {r : Ir.Routine}
    (parsed : Program.ofSource source = .ok p) (accepted : Ir.Routine.ofSource source = .ok r)
    (fits : p.FitsMachine) :
    ∃ v, p.eval = .ok v ∧ ∀ annotate, ∃ text image, compile annotate source = .ok text ∧
      Asm.assemble text = .ok image ∧
      (∀ limit, image.size ≤ limit → ((Machine.new limit).run image "main").1 = .ok v) ∧
      ∀ limit, ((Machine.new limit).run image "main").1 = .ok v ∨
        ((Machine.new limit).run image "main").1 = .error (.stepLimit limit) := by
  have lowered := Ir.Routine.ofProgram_of_ofSource accepted parsed
  have name := Ir.Routine.ofProgram_name lowered
  obtain ⟨depth, v, d, memory, hv, returned⟩ :=
    Ir.Routine.ofProgram_returns lowered (Program.ofSource_canonical parsed) fits
  refine ⟨v, hv, ?_⟩
  intro annotate
  exact ⟨_, _, compile_eq_ok annotate accepted,
    Asm.assemble_ofRoutine annotate (name ▸ Asm.routineName_main) d.once d.targets,
    Asm.forward_returns name d memory (Ir.Routine.ofProgram_forward lowered) returned annotate⟩

/-- The tree of `int main() { int a = 7; if (a) a = a / 0; return -a; }`. -/
def divisionByZero : Program :=
  let place (column : UInt32) : Position := ⟨1, column⟩
  ⟨"main",
    [.declare (place 14) "a" (place 18) (some (.literal (place 22) 7)),
      .ifThen (place 25) (.var (place 29) "a")
        (.expr (place 32) (.assign (place 32) "a"
          (.binary (place 36) .div (.var (place 36) "a") (.literal (place 40) 0)))),
      .ret (place 43) (.unary (place 50) .neg (.var (place 51) "a"))], .start⟩

theorem divisionByZero_returns :
    let source := "int main() \x7b int a = 7; if (a) a = a / 0; return -a; \x7d"
    Program.ofSource source = .ok divisionByZero ∧ divisionByZero.FitsMachine ∧
      ∃ text image, compile true source = .ok text ∧ Asm.assemble text = .ok image ∧
        ∀ limit, image.size ≤ limit → ((Machine.new limit).run image "main").1 = .ok 1 := by
  intro source
  have parsed : Program.ofSource source = .ok divisionByZero := by decide +kernel
  have accepted : ∃ r, Ir.Routine.ofSource source = .ok r := by
    rw [Ir.Routine.ofSource, parsed]
    exact ⟨_, rfl⟩
  have fits : divisionByZero.FitsMachine := ⟨by decide, by decide⟩
  obtain ⟨r, accepted⟩ := accepted
  obtain ⟨v, hv, run⟩ := compiled_source_returns parsed accepted fits
  cases (show divisionByZero.eval = .ok 1 from rfl).symm.trans hv
  obtain ⟨text, image, compiled, assembled, returns, -⟩ := run true
  exact ⟨parsed, fits, text, image, compiled, assembled, returns⟩

end IntLang
