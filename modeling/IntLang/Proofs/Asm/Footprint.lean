import IntLang.Proofs.Asm.Refinement
import IntLang.Proofs.Machine.Footprint
/-!
What the program of a disciplined routine leaves alone. Its blocks store once at most, into the
frame or the operand stack, so that at every moment of a run the memory outside is as at the start;
and a run that returns has given the frame back and restored the registers of its caller.
-/
namespace IntLang.Asm

open Ir (State Slots Outcome Disciplined)
open Machine (Steps Has Spares Through)

section Stores

theorem silent_addConstant (rd rs : Register) (value : Word) :
    ∀ i ∈ addConstant rd rs value, i.isStore = false := by
  unfold addConstant
  split <;> simp [Instruction.isStore]

theorem silent_loadAt (rd : Register) (offset : Word) (base : Register) :
    ∀ i ∈ loadAt rd offset base, i.isStore = false := by
  unfold loadAt
  split
  · simp [Instruction.isStore]
  · refine List.forall_mem_append.mpr ⟨silent_addConstant _ _ _, ?_⟩
    simp [Instruction.isStore]

theorem silent_pop (r : Register) : ∀ i ∈ pop r, i.isStore = false := by
  simp [pop, Instruction.isStore]

theorem silent_restore (f : Frame) : ∀ i ∈ f.restore, i.isStore = false := by
  simp only [Frame.restore, List.forall_mem_append]
  exact ⟨silent_loadAt _ _ _, silent_loadAt _ _ _, silent_addConstant _ _ _⟩

def stores (code : List Instruction) : Nat := code.countP Instruction.isStore

theorem stores_append (xs ys : List Instruction) : stores (xs ++ ys) = stores xs + stores ys :=
  List.countP_append

theorem stores_of_silent {code : List Instruction} (h : ∀ i ∈ code, i.isStore = false) :
    stores code = 0 :=
  List.countP_eq_zero.mpr fun i hi => by simp [h i hi]

theorem stores_storeAt (rs : Register) (offset : Word) (base : Register) :
    stores (storeAt rs offset base) = 1 := by
  unfold storeAt
  split
  · rfl
  · rw [stores_append, stores_of_silent (silent_addConstant _ _ _)]
    rfl

theorem stores_reserve (f : Frame) : stores f.reserve = 1 := by
  rw [Frame.reserve, stores_append, stores_of_silent (silent_addConstant _ _ _), stores_storeAt]

theorem stores_link (f : Frame) : stores f.link = 1 := by
  rw [Frame.link, stores_append, stores_of_silent (silent_addConstant _ _ _), stores_storeAt]

theorem stores_opCode (exit : String) (op : Ir.Op) : stores (opCode exit op) ≤ 1 := by
  cases op with
  | frameAddr k =>
      rw [opCode, Frame.slotPointer, stores_append, stores_of_silent (silent_addConstant _ _ _)]
      decide
  | unary op => cases op <;> exact Nat.le_refl 1
  | binary op => cases op <;> exact Nat.le_refl 1
  | push v | load | store => exact Nat.le_refl 1
  | pop | ret | br l | beqz l | bnez l | label l => exact Nat.zero_le 1

end Stores

section Blocks

variable {r : Ir.Routine} {depth : Nat → Nat} {top : Word} {limit : Nat} {entry : Store}
  (annotate : Bool) {c c' : State} {s : Store}

/-- The address is none of the first words below `top`, of which there are that many. -/
def Outside (top : Word) (limit : Nat) (a : Word) : Prop :=
  ∀ n, 0 < n → n ≤ limit → a ≠ cell top n

theorem through_block {i : Nat} {op : Ir.Op} (hop : r.ops[i]? = some op) :
    Through (routineImage annotate r) (blockAddress r i) (opCode (exitSymbol r.name) op) := by
  have block := has_block annotate hop
  by_cases straight : op.target? = none ∧ op ≠ .ret
  · exact .of_straight block (straight_opCode _ straight.1 straight.2)
  · intro _
    refine ⟨block, ?_⟩
    cases op with
    | ret | br l => exact List.forall_mem_nil _
    | beqz l | bnez l => exact straight_pop .t1
    | _ => exact (straight ⟨rfl, by simp⟩).elim

/-- The run of a block leaves the words outside alone. -/
theorem Moves.spares (rep : Represents r depth top limit entry c s)
    (moves : Moves annotate r depth top limit entry c s c') :
    Spares (routineImage annotate r) (Outside top limit) (blockSize r c.pc) (blockAddress r c.pc)
      s := by
  obtain ⟨s', steps, rep', -⟩ := moves
  cases hop : r.ops[c.pc]? with
  | none =>
      rw [blockSize_eq_zero (List.getElem?_eq_none_iff.mp hop)]
      exact .zero
  | some op =>
      rw [blockSize_eq hop] at steps ⊢
      apply Spares.of_steps (through_block annotate hop) (stores_opCode _ op) steps
      intro a ha
      rw [rep'.framed.outside a ha, rep.framed.outside a ha]

/-- The exit stores nothing. -/
theorem exit_spares : Spares (routineImage annotate r) (Outside top limit)
    (pop .a0 ++ (routineFrame r).restore).length (blockAddress r r.ops.length) s := by
  have exit := has_exit annotate (r := r)
  rw [exitCode_eq] at exit
  exact .of_silent (.of_straight exit.left straight_exit)
    (List.forall_mem_append.mpr ⟨silent_pop _, silent_restore _⟩)

variable (prep : Prepared r depth top limit entry) (rep : Represents r depth top limit entry c s)

include prep rep

theorem Represents.spares_of_error {o : Outcome} (h : Ir.step r.ops c = .error o) (n : Nat) :
    Spares (routineImage annotate r) (Outside top limit) n (blockAddress r c.pc) s := by
  have carried := rep.step annotate prep
  rw [h] at carried
  obtain ⟨s', result, ends, shows, -⟩ := carried
  refine Spares.of_ends ?_ ends n
  rw [Ir.step] at h
  cases hop : r.ops[c.pc]? with
  | none =>
      have last : c.pc = r.ops.length :=
        Nat.le_antisymm rep.regular.pc_le (List.getElem?_eq_none_iff.mp hop)
      simp only [hop] at h
      split at h <;> cases h
      · rw [lastSteps, last, blockSize_eq_zero (Nat.le_refl _), Nat.zero_add]
        exact exit_spares annotate
      · cases shows
  | some op =>
      simp only [hop] at h
      rcases Ir.op_of_perform_error h (by rintro rfl; cases shows) with
        ⟨rfl, v, rfl⟩ | ⟨rfl, k, rfl⟩
      · have front : Spares (routineImage annotate r) (Outside top limit) (blockSize r c.pc)
            (blockAddress r c.pc) s := by
          rw [blockSize_eq hop]
          exact .of_silent (through_block annotate hop) (by simp [opCode, Instruction.isStore])
        exact front.trans (steps_ret annotate hop s) (exit_spares annotate)
      · have block : Has (routineImage annotate r) (blockAddress r c.pc)
            ([.lw .t1 0 .sp] ++ [.lw .t1 0 .t1, .sw .t1 0 .sp]) := has_block annotate hop
        exact .of_silent (.of_straight block.left (by simp [Instruction.isStraight]))
          (by simp [Instruction.isStore])

/-- The words outside are left alone from any block on, for any number of steps. -/
theorem Represents.spares (n : Nat) :
    Spares (routineImage annotate r) (Outside top limit) n (blockAddress r c.pc) s := by
  -- Blocks without instructions take no step, but come nearer to the end of the code.
  induction n using Nat.strongRecOn generalizing c s with
  | ind n fewer =>
      induction hm : r.ops.length - c.pc using Nat.strongRecOn generalizing c s with
      | ind m nearer =>
          cases hstep : Ir.step r.ops c with
          | error o => exact rep.spares_of_error annotate prep hstep n
          | ok c' =>
              have carried := rep.step annotate prep
              rw [hstep] at carried
              have front := Moves.spares annotate rep carried
              obtain ⟨s₁, steps, rep₁, next⟩ := carried
              rcases Nat.eq_zero_or_pos (blockSize r c.pc) with none | some
              · have hpc := next none
                have hle := rep₁.regular.pc_le
                rw [none] at front steps
                have behind := nearer (r.ops.length - c'.pc) (by omega) rep₁ rfl
                have all := front.trans steps behind
                rwa [Nat.zero_add] at all
              · rcases Nat.le_total n (blockSize r c.pc) with short | long
                · exact front.mono short
                · obtain ⟨k, rfl⟩ := Nat.exists_eq_add_of_le long
                  exact front.trans steps (fewer k (by omega) rep₁)

end Blocks

section Runs

variable {r : Ir.Routine} {depth : Nat → Nat} {top : Word} {limit : Nat} {entry : Store}
  (annotate : Bool)

/-- The prologue stores twice, into the first two words of the frame. -/
theorem Prepared.spares_prologue (prep : Prepared r depth top limit entry)
    (hsp : entry.get .sp = top) : Spares (routineImage annotate r) (Outside top limit)
      (routineFrame r).prologue.length 0 entry := by
  have room := prep.room 0 (Nat.zero_le _)
  obtain ⟨s₁, reserved, sp₁, -, mem₁⟩ := (routineFrame r).reserve_spec prep.aligned hsp
  obtain ⟨s₂, linked, -, -, mem₂⟩ := (routineFrame r).link_spec prep.aligned sp₁
  have code := has_prologue annotate (r := r)
  have straight := straight_prologue (routineFrame r)
  rw [Frame.prologue_eq] at code straight
  obtain ⟨straight₁, straight₂⟩ := List.forall_mem_append.mp straight
  have steps₁ := Steps.of_afterAll code.left straight₁ reserved
  have steps₂ := Steps.of_afterAll code.right straight₂ linked
  have front : Spares (routineImage annotate r) (Outside top limit) (routineFrame r).reserve.length
      0 entry := by
    apply Spares.of_steps (.of_straight code.left straight₁)
      (Nat.le_of_eq (stores_reserve _)) steps₁
    intro a ha
    rw [mem₁, Framed.word?_put_outside (n := 1) (by decide) (by omega) ha]
  have behind : Spares (routineImage annotate r) (Outside top limit) (routineFrame r).link.length
      (0 + (routineFrame r).reserve.length) s₁ := by
    apply Spares.of_steps (.of_straight code.right straight₂)
      (Nat.le_of_eq (stores_link _)) steps₂
    intro a ha
    rw [mem₂, Framed.word?_put_outside (n := 2) (by decide) (by omega) ha]
  rw [Frame.prologue_eq, List.length_append]
  exact front.trans steps₁ behind

/-- A call leaves the words outside its frame and operand stack alone, for any number of steps. -/
theorem Prepared.spares (prep : Prepared r depth top limit entry) (hsp : entry.get .sp = top)
    (n : Nat) : Spares (routineImage annotate r) (Outside top limit) n 0 entry := by
  have prologue := prep.spares_prologue annotate hsp
  obtain ⟨s, steps, rep⟩ := prep.start annotate hsp fun _ _ => rfl
  exact (prologue.trans steps (rep.spares annotate prep n)).mono (Nat.le_add_left _ _)

/-- A call of a disciplined routine on any machine. If it returns, `sp`, `fp` and `ra` are as at its
start; and however it ends, the words outside its frame and operand stack are as before. -/
theorem Prepared.call {m : Machine} (hname : r.name = "main")
    (prep : Prepared r depth Machine.initialStack limit (Machine.entryStore m.store)) :
    (∀ v after, m.run (routineImage annotate r) "main" = (.ok v, after) →
      after.get .sp = Machine.initialStack ∧ after.get .ra = Machine.callerAddress ∧
        after.get .fp = m.get .fp) ∧
    ∀ a, Outside Machine.initialStack limit a →
      (m.run (routineImage annotate r) "main").2.store.memory.word? a =
        m.store.memory.word? a := by
  have address : (routineImage annotate r).address? "main" = some 0 :=
    hname ▸ address?_name annotate
  -- A run that comes to its limit leaves the words alone by then.
  have stopped {n pc : Nat} {s : Store} (hn : m.stepLimit ≤ n)
      (steps : Steps (routineImage annotate r) n 0 (Machine.entryStore m.store) pc s) :
      ∃ s₁, Machine.runFrom (routineImage annotate r) 0 m.stepLimit 0 (Machine.entryStore m.store) =
        (.error (.stepLimit (0 + m.stepLimit)), 0 + m.stepLimit, s₁) ∧
        ∀ a, Outside Machine.initialStack limit a → s₁.memory.word? a = m.store.memory.word? a := by
    obtain ⟨pc₁, s₁, front, run⟩ := Machine.exists_runFrom_of_limit steps hn 0
    exact ⟨s₁, run, prep.spares annotate rfl m.stepLimit _ _ _ (Nat.le_refl _) front⟩
  simp only [Machine.run, address]
  by_cases ends : ∃ o, Ir.Ends r.ops (.start (heldSlots m.store)) o
  · obtain ⟨o, ends⟩ := ends
    obtain ⟨n, s, result, ends, -, restored⟩ := prep.ends annotate rfl (fun _ _ => rfl) ends
    rcases Nat.lt_or_ge n m.stepLimit with long | short
    · rw [ends.runFrom long]
      refine ⟨?_, restored.outside⟩
      intro v after h
      cases h
      obtain ⟨sp, fp, ra⟩ := restored.registers v rfl
      exact ⟨sp, ra, fp⟩
    · obtain ⟨pc, -, steps, -⟩ := ends
      obtain ⟨s₁, run, kept⟩ := stopped short steps
      rw [run]
      refine ⟨?_, kept⟩
      intro v after h
      cases h
  · have diverges : Ir.Diverges r.ops (.start (heldSlots m.store)) := fun n =>
      Option.eq_none_iff_forall_ne_some.mpr fun o ho => ends ⟨o, n, ho⟩
    obtain ⟨n, pc, s, hn, steps⟩ := prep.diverges annotate rfl (fun _ _ => rfl) diverges m.stepLimit
    obtain ⟨s₁, run, kept⟩ := stopped hn steps
    rw [run]
    refine ⟨?_, kept⟩
    intro v after h
    cases h

end Runs

end IntLang.Asm
