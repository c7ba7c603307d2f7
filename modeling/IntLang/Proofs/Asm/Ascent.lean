import IntLang.Proofs.Asm.Refinement
import IntLang.Proofs.Machine.Trace
/-!
Calls of disciplined routines without branches back. They execute instructions at ascending
addresses and come to an end: they return by the one `ret`, which is the last instruction, or load
from a slot that holds nothing.
-/
namespace IntLang.Asm

open Ir (State Slots Outcome)
open Machine (Steps Closes)

section Returns

variable (annotate : Bool) {r : Ir.Routine}

theorem ne_ret_of_isStraight {code : List Instruction} (h : ∀ i ∈ code, i.isStraight = true) :
    .ret ∉ code := by
  intro hret
  cases h .ret hret

theorem ret_not_mem_opCode (exit : String) (op : Ir.Op) : .ret ∉ opCode exit op := by
  by_cases straight : op.target? = none ∧ op ≠ .ret
  · exact ne_ret_of_isStraight (straight_opCode exit straight.1 straight.2)
  · cases op with
    | ret | br l => simp [opCode]
    | beqz l | bnez l => simp [opCode, pop]
    | _ => exact (straight ⟨rfl, by simp⟩).elim

/-- The instructions of a routine in front of the last one. -/
def bodyCode (r : Ir.Routine) : List Instruction :=
  (routineFrame r).prologue ++ (r.ops.flatMap (opCode (exitSymbol r.name)) ++
    (pop .a0 ++ (routineFrame r).restore))

theorem instructions_eq_bodyCode :
    (routineImage annotate r).instructions.toList = bodyCode r ++ [.ret] := by
  simp only [instructions_routineImage, exitCode_eq, bodyCode, List.append_assoc]

theorem ret_not_mem_bodyCode (r : Ir.Routine) : .ret ∉ bodyCode r := by
  simp only [bodyCode, List.mem_append, List.mem_flatMap, not_or, not_exists, not_and]
  refine ⟨ne_ret_of_isStraight (straight_prologue _), fun op _ => ret_not_mem_opCode _ op, ?_⟩
  rw [← not_or, ← List.mem_append]
  exact ne_ret_of_isStraight straight_exit

/-- The last instruction of a routine is its only return. -/
theorem getElem?_eq_ret_iff {pc : Nat} :
    (routineImage annotate r).instructions[pc]? = some .ret ↔
      pc + 1 = (routineImage annotate r).size := by
  rw [Image.size, ← Array.length_toList, ← Array.getElem?_toList, instructions_eq_bodyCode,
    List.length_append, List.length_singleton, Nat.add_right_cancel_iff]
  constructor
  · intro h
    rcases Nat.lt_or_ge pc (bodyCode r).length with front | behind
    · rw [List.getElem?_append_left front] at h
      exact (ret_not_mem_bodyCode r (List.mem_of_getElem? h)).elim
    · have last := (List.getElem?_eq_some_iff.mp h).1
      rw [List.length_append, List.length_singleton] at last
      omega
  · rintro rfl
    exact List.getElem?_concat_length

end Returns

section Calls

variable {r : Ir.Routine} {depth : Nat → Nat} {top : Word} {limit : Nat} {entry : Store}
  (annotate : Bool) {c : State} {s : Store}

/-- A load that finds nothing is from one of the routine's slots. -/
theorem Represents.slot_lt (prep : Prepared r depth top limit entry)
    (rep : Represents r depth top limit entry c s) {n : Nat} {k : UInt32}
    (h : Ir.run r.ops n c = some (.unassigned k)) : k < r.localCount := by
  induction n generalizing c s with
  | zero => cases h
  | succ n ih =>
      have carried := rep.step false prep
      rw [Ir.run] at h
      cases hstep : Ir.step r.ops c with
      | ok c' =>
          rw [hstep] at h carried
          obtain ⟨s₁, -, rep₁, -⟩ := carried
          exact ih rep₁ h
      | error o =>
          rw [hstep] at h
          cases h
          rw [Ir.step] at hstep
          cases hop : r.ops[c.pc]? with
          | none =>
              simp only [hop] at hstep
              split at hstep <;> cases hstep
          | some op =>
              simp only [hop] at hstep
              rcases Ir.op_of_perform_error hstep (by simp) with ⟨-, v, hv⟩ | ⟨rfl, -⟩
              · cases hv
              · obtain ⟨k', rest, hs, hk, -⟩ := rep.access hop rfl
                simp only [Ir.perform, hs, UInt32.toUInt32_toInt32] at hstep
                split at hstep <;> cases hstep
                exact hk

/-- A call without branches back ends with a word or at the load from one of its slots. -/
theorem Prepared.ends_of_ascending (prep : Prepared r depth top limit entry)
    (hsp : entry.get .sp = top) (up : Machine.Ascending (routineImage annotate r)) :
    ∃ n s result, Machine.Ends (routineImage annotate r) n 0 entry result s ∧
      ((∃ v, result = .ok v) ∨ ∃ k, k < r.localCount ∧
        result = .error (.uninitialized (cell top (3 + k.toNat)).toUInt32)) := by
  -- The reference machine runs on slots that hold what the memory does.
  let slots : Slots := fun k => entry.memory.word? (cell top (3 + k.toNat))
  have held (k : UInt32) (_ : k.toNat < r.localCount.toNat) :
      entry.memory.word? (cell top (3 + k.toNat)) = slots k := rfl
  by_cases ends : ∃ o, Ir.Ends r.ops (.start slots) o
  · obtain ⟨o, m, run⟩ := ends
    obtain ⟨s, result, ends, shows, -⟩ := prep.run annotate hsp held run
    refine ⟨_, s, result, ends, ?_⟩
    cases shows with
    | returned => exact .inl ⟨_, rfl⟩
    | unassigned =>
        obtain ⟨s₁, -, rep⟩ := prep.start annotate hsp held
        exact .inr ⟨_, rep.slot_lt prep run, rfl⟩
  · exfalso
    have diverges : Ir.Diverges r.ops (.start slots) := fun n =>
      Option.eq_none_iff_forall_ne_some.mpr fun o ho => ends ⟨o, n, ho⟩
    obtain ⟨n, pc, s, hn, steps⟩ :=
      prep.diverges annotate hsp held diverges ((routineImage annotate r).size + 1)
    have := steps.le_size up (by omega)
    omega

/-- How a run that executes those addresses can end: at the last instruction, which returns; at a
load from one of the slots; or at a limit that is smaller than the program. -/
inductive Image.Ending (image : Image) (slots limit : Nat) (trace : List Nat) :
    Except Fault Word → Prop
  | returned {v pc} : trace.getLast? = some pc → pc + 1 = image.size →
      image.instructions[pc]? = some .ret → Ending image slots limit trace (.ok v)
  | unassigned {k : UInt32} {pc rd offset base} : k.toNat < slots → trace.getLast? = some pc →
      image.instructions[pc]? = some (.lw rd offset base) →
      Ending image slots limit trace
        (.error (.uninitialized (Machine.initialStack.toUInt32 - 12 - 4 * k)))
  | stopped : limit < image.size → Ending image slots limit trace (.error (.stepLimit limit))

/-- A call without branches back executes instructions at ascending addresses, on every machine and
under every limit. -/
theorem Prepared.call_ascends {m : Machine} (hname : r.name = "main")
    (prep : Prepared r depth Machine.initialStack limit (Machine.entryStore m.store))
    (forward : Ir.Forward r.ops) :
    (m.trace (routineImage annotate r) "main").Pairwise (· < ·) ∧
      (m.run (routineImage annotate r) "main").2.steps ≤ (routineImage annotate r).size ∧
      (routineImage annotate r).Ending r.localCount.toNat m.stepLimit
        (m.trace (routineImage annotate r) "main")
        (m.run (routineImage annotate r) "main").1 := by
  have up := ascending_routineImage annotate prep.name prep.disciplined.once forward
  have address : (routineImage annotate r).address? "main" = some 0 :=
    hname ▸ address?_name annotate
  obtain ⟨n, s, result, ends, shape⟩ := prep.ends_of_ascending annotate rfl up
  obtain ⟨ascends, last⟩ := ends.trace up m.stepLimit
  have bound := ends.lt_size up
  simp only [Machine.run, Machine.trace, address]
  refine ⟨ascends, ?_⟩
  rcases Nat.lt_or_ge n m.stepLimit with long | short
  · obtain ⟨pc, shown, closes⟩ := last long
    rw [ends.runFrom long]
    refine ⟨bound, ?_⟩
    rcases shape with ⟨v, rfl⟩ | ⟨k, hk, rfl⟩
    · cases closes with
      | returned hi _ => exact .returned shown ((getElem?_eq_ret_iff annotate).mp hi) hi
    · cases closes with
      | fault hi he =>
          obtain ⟨rd, offset, base, rfl, -⟩ := Machine.lw_of_uninitialized he
          rw [slot_address]
          exact .unassigned hk shown hi
  · obtain ⟨pc, -, steps, -⟩ := ends
    obtain ⟨pc₁, s₁, -, stopped⟩ := Machine.exists_runFrom_of_limit steps short 0
    rw [stopped, Nat.zero_add]
    have below := Nat.lt_of_le_of_lt short bound
    exact ⟨Nat.le_of_lt below, .stopped below⟩

end Calls

end IntLang.Asm
