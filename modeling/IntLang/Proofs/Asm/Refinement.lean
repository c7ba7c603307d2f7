import IntLang.Proofs.Asm.Simulation
/-!
Whole runs of the program of a disciplined routine. A run has the outcome of the reference machine
from every limit on that leaves it time, and goes on for ever where the reference machine does.
-/
namespace IntLang.Asm

open Ir (State Slots Outcome Regular Disciplined)
open Machine (Steps)

section Runs

variable {r : Ir.Routine} {depth : Nat → Nat} {top : Word} {limit : Nat} {entry : Store}
  (annotate : Bool) {c : State} {s : Store}

theorem Prepared.start (prep : Prepared r depth top limit entry) (hsp : entry.get .sp = top)
    {slots : Slots} (held : ∀ k : UInt32, k.toNat < r.localCount.toNat →
      entry.memory.word? (cell top (3 + k.toNat)) = slots k) :
    ∃ s, Steps (routineImage annotate r) (routineFrame r).prologue.length 0 entry
        (blockAddress r 0) s ∧ Represents r depth top limit entry (.start slots) s := by
  have room := prep.room 0 (Nat.zero_le _)
  have hlimit := prep.limit_lt
  obtain ⟨s, code, sp, fp, memory⟩ := (routineFrame r).prologue_spec prep.aligned hsp
  have steps := Steps.of_afterAll (has_prologue annotate (r := r))
    (straight_prologue _) code
  have address : 0 + (routineFrame r).prologue.length = blockAddress r 0 := Nat.zero_add _
  rw [address] at steps
  have regular := Regular.start prep.disciplined slots
  have settled : ∀ user ∈ r.ops[0]?, user.isAccess = false := by
    intro user huser
    cases ha : user.isAccess with
    | false => rfl
    | true => exact absurd ((prep.disciplined.obeys 0 user huser).access ha).1 (Nat.lt_irrefl 0)
  refine ⟨s, steps, .of_settled regular settled fp ?_⟩
  rw [sp, memory]
  exact {
    sp_eq := rfl
    room := by
      rw [List.length_nil]
      omega
    savedRa := by
      rw [word?_put_cell (by decide) (by decide), if_neg (by decide),
        word?_put_cell (by decide) (by decide), if_pos rfl]
    savedFp := by rw [word?_put_cell (by decide) (by decide), if_pos rfl]
    slot := fun k hk => by
      rw [word?_put_cell (by decide) (by omega), if_neg (by omega),
        word?_put_cell (by decide) (by omega), if_neg (by omega), held k hk]
    operand := fun j hj => absurd hj (Nat.not_lt_zero j)
    outside := fun a ha => by
      rw [Framed.word?_put_outside (n := 2) (by decide) (by omega) ha,
        Framed.word?_put_outside (n := 1) (by decide) (by omega) ha] }

/-- The instructions before the last one of the run that carries out a run of the reference
machine. -/
def runSteps (r : Ir.Routine) : Nat → State → Nat
  | 0, _ => 0
  | n + 1, c =>
      match Ir.step r.ops c with
      | .ok c' => blockSize r c.pc + runSteps r n c'
      | .error o => lastSteps r c o

variable (prep : Prepared r depth top limit entry) (rep : Represents r depth top limit entry c s)

include prep rep

theorem Represents.run {n : Nat} {o : Outcome} (h : Ir.run r.ops n c = some o) :
    ∃ s' result, Machine.Ends (routineImage annotate r) (runSteps r n c) (blockAddress r c.pc) s
      result s' ∧ Shows top o result ∧ Restored top limit entry result s' := by
  induction n generalizing c s with
  | zero => cases h
  | succ n ih =>
      have carried := rep.step annotate prep
      rw [Ir.run] at h
      rw [runSteps]
      cases hstep : Ir.step r.ops c with
      | error o' =>
          rw [hstep] at h carried
          cases h
          exact carried
      | ok c' =>
          rw [hstep] at h carried
          obtain ⟨s₁, steps, rep₁, -⟩ := carried
          obtain ⟨s', result, ends, shows, restored⟩ := ih rep₁ h
          exact ⟨s', result, .of_steps steps ends, shows, restored⟩

/-- A reference machine that goes on for ever keeps the machine taking steps: labels alone, whose
blocks have no instructions, come to the end of the code. -/
theorem Represents.progress (h : Ir.Diverges r.ops c) : ∃ n c' s', 0 < n ∧
    Steps (routineImage annotate r) n (blockAddress r c.pc) s (blockAddress r c'.pc) s' ∧
      Represents r depth top limit entry c' s' ∧ Ir.Diverges r.ops c' := by
  induction hm : r.ops.length - c.pc using Nat.strongRecOn generalizing c s with
  | ind m ih =>
      have carried := rep.step annotate prep
      cases hstep : Ir.step r.ops c with
      | error o => exact absurd h (Ir.Ends.of_step hstep).not_diverges
      | ok c' =>
          rw [hstep] at carried
          have behind : Ir.Diverges r.ops c' := fun n => by
            have := h (n + 1)
            rwa [Ir.run, hstep] at this
          obtain ⟨s₁, steps, rep₁, next⟩ := carried
          rcases Nat.eq_zero_or_pos (blockSize r c.pc) with none | some
          · have hpc := next none
            have hle := rep₁.regular.pc_le
            obtain ⟨k, c'', s', hk, further, rep', diverges⟩ :=
              ih (r.ops.length - c'.pc) (by omega) rep₁ behind rfl
            refine ⟨k, c'', s', hk, ?_, rep', diverges⟩
            have all := steps.trans further
            rwa [none, Nat.zero_add] at all
          · exact ⟨_, c', s₁, some, steps, rep₁, behind⟩

theorem Represents.diverges (h : Ir.Diverges r.ops c) (least : Nat) : ∃ n pc s', least ≤ n ∧
    Steps (routineImage annotate r) n (blockAddress r c.pc) s pc s' := by
  induction least generalizing c s with
  | zero => exact ⟨0, _, s, Nat.le_refl 0, .refl⟩
  | succ least ih =>
      obtain ⟨n, c', s₁, hn, steps, rep₁, behind⟩ := rep.progress annotate prep h
      obtain ⟨m, pc, s', hm, further⟩ := ih rep₁ behind
      exact ⟨n + m, pc, s', by omega, steps.trans further⟩

end Runs

section Calls

variable {r : Ir.Routine} {depth : Nat → Nat} {top : Word} {limit : Nat} {entry : Store}
  (annotate : Bool) {slots : Slots}

/-- A call of the routine ends as the reference machine does on slots that hold what the memory
does, after the prologue and the blocks of its operations. -/
theorem Prepared.run (prep : Prepared r depth top limit entry) (hsp : entry.get .sp = top)
    (held : ∀ k : UInt32, k.toNat < r.localCount.toNat →
      entry.memory.word? (cell top (3 + k.toNat)) = slots k)
    {n : Nat} {o : Outcome} (h : Ir.run r.ops n (.start slots) = some o) :
    ∃ s result, Machine.Ends (routineImage annotate r)
        ((routineFrame r).prologue.length + runSteps r n (.start slots)) 0 entry result s ∧
      Shows top o result ∧ Restored top limit entry result s := by
  obtain ⟨s₁, steps, rep⟩ := prep.start annotate hsp held
  obtain ⟨s, result, ends, shows, restored⟩ := rep.run annotate prep h
  exact ⟨s, result, .of_steps steps ends, shows, restored⟩

theorem Prepared.ends (prep : Prepared r depth top limit entry) (hsp : entry.get .sp = top)
    (held : ∀ k : UInt32, k.toNat < r.localCount.toNat →
      entry.memory.word? (cell top (3 + k.toNat)) = slots k)
    {o : Outcome} (h : Ir.Ends r.ops (.start slots) o) :
    ∃ n s result, Machine.Ends (routineImage annotate r) n 0 entry result s ∧
      Shows top o result ∧ Restored top limit entry result s := by
  obtain ⟨n, hn⟩ := h
  obtain ⟨s, result, ends, shows, restored⟩ := prep.run annotate hsp held hn
  exact ⟨_, s, result, ends, shows, restored⟩

theorem Prepared.diverges (prep : Prepared r depth top limit entry) (hsp : entry.get .sp = top)
    (held : ∀ k : UInt32, k.toNat < r.localCount.toNat →
      entry.memory.word? (cell top (3 + k.toNat)) = slots k)
    (h : Ir.Diverges r.ops (.start slots)) (least : Nat) : ∃ n pc s, least ≤ n ∧
      Steps (routineImage annotate r) n 0 entry pc s := by
  obtain ⟨s₁, steps, rep⟩ := prep.start annotate hsp held
  obtain ⟨n, pc, s, hn, further⟩ := rep.diverges annotate prep h least
  exact ⟨_, pc, s, by omega, steps.trans further⟩

/-- The reference machine ends on disciplined code with a word or at a slot that holds nothing, or
goes on for ever. -/
theorem Prepared.not_stuck (prep : Prepared r depth top limit entry) (hsp : entry.get .sp = top)
    (held : ∀ k : UInt32, k.toNat < r.localCount.toNat →
      entry.memory.word? (cell top (3 + k.toNat)) = slots k) :
    ¬ Ir.Ends r.ops (.start slots) .stuck := by
  intro h
  obtain ⟨_, _, _, _, shows, _⟩ := prep.ends false hsp held h
  cases shows

end Calls

section Fresh

variable {r : Ir.Routine} {depth : Nat → Nat}

def freshEntry : Store := Machine.entryStore ⟨.clear, .empty⟩

theorem run_new_eq {p : Image} {entry : String} {pc : Nat} (h : p.address? entry = some pc)
    (limit : Nat) :
    ((Machine.new limit).run p entry).1 = (Machine.runFrom p 0 limit pc freshEntry).1 := by
  simp only [Machine.run, h]
  rfl

theorem word?_freshEntry (a : Word) : freshEntry.memory.word? a = none := by
  simp [freshEntry, Machine.entryStore, Memory.word?, Memory.empty]

/-- The frame and the deepest stack lie between the stack pointer and the lowest address. -/
def FitsMemory (r : Ir.Routine) (depth : Nat → Nat) : Prop :=
  ∀ i, i ≤ r.ops.length →
    8 + 4 * r.localCount.toNat + 4 * depth i < Machine.initialStack.toUInt32.toNat

/-- Every run starts from a frame below the initial stack pointer, whatever the store holds. -/
theorem Prepared.of_room (name : RoutineName r.name) (d : Disciplined r depth) {limit : Nat}
    (limit_lt : limit < 0x40000000)
    (room : ∀ i, i ≤ r.ops.length → 2 + r.localCount.toNat + depth i ≤ limit) (s : Store) :
    Prepared r depth Machine.initialStack limit (Machine.entryStore s) where
  name := name
  disciplined := d
  aligned := by
    unfold Word.Aligned
    decide
  limit_lt := limit_lt
  room := room
  caller := rfl

theorem Prepared.called (name : RoutineName r.name) (d : Disciplined r depth)
    (fits : FitsMemory r depth) (s : Store) :
    Prepared r depth Machine.initialStack 0x1ffffbff (Machine.entryStore s) := by
  apply Prepared.of_room name d (by decide)
  intro i hi
  have := fits i hi
  rw [show Machine.initialStack.toUInt32.toNat = 0x7ffff000 from rfl] at this
  omega

def heldSlots (s : Store) : Slots :=
  fun k => s.memory.word? (cell Machine.initialStack (3 + k.toNat))

theorem Prepared.fresh (name : RoutineName r.name) (d : Disciplined r depth)
    (fits : FitsMemory r depth) :
    Prepared r depth Machine.initialStack 0x1ffffbff freshEntry := .called name d fits _

theorem slot_address (k : UInt32) :
    (cell Machine.initialStack (3 + k.toNat)).toUInt32 =
      Machine.initialStack.toUInt32 - 12 - 4 * k := by
  have index : UInt32.ofNat (3 + k.toNat) = 3 + k := by
    rw [UInt32.ofNat_add, UInt32.ofNat_toNat]
    rfl
  rw [cell, Int32.toUInt32_sub, Int32.toUInt32_mul, Int32.toUInt32_ofNat', index,
    Int32.toUInt32_ofNat]
  grind

/-- The assembled program of a disciplined routine simulates the reference machine, whether it is
annotated or not. It returns what the reference machine returns; where that machine loads from a
slot that holds nothing, it meets the fault of reading the slot's word; and where that machine goes
on for ever, it exceeds every step limit. -/
theorem assembled_simulates_reference (hname : r.name = "main") (d : Disciplined r depth)
    (fits : FitsMemory r depth) (annotate : Bool) :
    ∃ p, assemble (ofRoutine annotate r) = .ok p ∧
      (∀ v, Ir.Ends r.ops (.start .empty) (.returned v) →
        ∃ least, ∀ limit, least ≤ limit → ((Machine.new limit).run p "main").1 = .ok v) ∧
      (∀ k, Ir.Ends r.ops (.start .empty) (.unassigned k) →
        ∃ least, ∀ limit, least ≤ limit → ((Machine.new limit).run p "main").1 =
          .error (.uninitialized (Machine.initialStack.toUInt32 - 12 - 4 * k))) ∧
      (Ir.Diverges r.ops (.start .empty) →
        ∀ limit, ((Machine.new limit).run p "main").1 = .error (.stepLimit limit)) ∧
      ¬ Ir.Ends r.ops (.start .empty) .stuck := by
  have name : RoutineName r.name := hname ▸ routineName_main
  have prep := Prepared.fresh name d fits
  have held (k : UInt32) (_ : k.toNat < r.localCount.toNat) :
      freshEntry.memory.word? (cell Machine.initialStack (3 + k.toNat)) = Slots.empty k :=
    word?_freshEntry _
  have address : (routineImage annotate r).address? "main" = some 0 :=
    hname ▸ address?_name annotate
  have ends {o : Outcome} (h : Ir.Ends r.ops (.start .empty) o) : ∃ result,
      Shows Machine.initialStack o result ∧ ∃ least, ∀ limit, least ≤ limit →
        ((Machine.new limit).run (routineImage annotate r) "main").1 = result := by
    obtain ⟨n, s, result, ends, shows, -⟩ := prep.ends annotate rfl held h
    refine ⟨result, shows, n + 1, ?_⟩
    intro limit hl
    rw [run_new_eq address, ends.runFrom hl]
  refine ⟨_, assemble_ofRoutine annotate name d.once d.targets, ?_, ?_, ?_,
    prep.not_stuck rfl held⟩
  · intro v h
    obtain ⟨_, shows, least⟩ := ends h
    cases shows
    exact least
  · intro k h
    obtain ⟨_, shows, least⟩ := ends h
    cases shows
    rwa [slot_address] at least
  · intro h limit
    obtain ⟨n, pc, s, hn, steps⟩ := prep.diverges annotate rfl held h limit
    rw [run_new_eq address, Machine.runFrom_of_limit steps hn, Nat.zero_add]

/-- A loop that counts a slot down to zero. -/
def countdown : Ir.Routine :=
  let again : Ir.Label := ⟨.otherwise, 7⟩
  ⟨"main",
    [.push 3, .frameAddr 0, .store, .pop, .label again, .frameAddr 0, .load, .push 1, .binary .sub,
      .frameAddr 0, .store, .bnez again, .push 42], 1⟩

def countdownDepth (i : Nat) : Nat := [0, 1, 2, 1, 0, 0, 1, 1, 2, 1, 2, 1, 0, 1].getD i 0

theorem countdown_returns : Disciplined countdown countdownDepth ∧
    FitsMemory countdown countdownDepth ∧ ∃ p, assemble (ofRoutine true countdown) = .ok p ∧
      ∃ least, ∀ limit, least ≤ limit → ((Machine.new limit).run p "main").1 = .ok 42 := by
  have d : Disciplined countdown countdownDepth := by decide
  have fits : FitsMemory countdown countdownDepth := by
    unfold FitsMemory
    decide
  obtain ⟨p, assembled, returns, -⟩ := assembled_simulates_reference rfl d fits true
  exact ⟨d, fits, p, assembled, returns 42 ⟨34, rfl⟩⟩

end Fresh

end IntLang.Asm
