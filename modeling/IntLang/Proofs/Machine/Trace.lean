import IntLang.Proofs.Machine.Steps
/-!
The addresses of the instructions that a run executes. Where every branch goes up, the addresses of
a run ascend up to the instruction that ends it, a return to the caller or a fault.
-/
namespace IntLang

open Asm (Instruction Image)

namespace Machine

/-- The addresses of the instructions that `runFrom` executes, in order. One that meets a fault is
executed as well and comes last. -/
def traceFrom (p : Image) : (left pc : Nat) → Store → List Nat
  | 0, _, _ => []
  | left + 1, pc, s =>
      match p.instructions[pc]? with
      | none => []
      | some i =>
          pc :: match execute p pc s i with
            | .ok (.address pc', s') => traceFrom p left pc' s'
            | _ => []

def trace (m : Machine) (p : Image) (entry : String) : List Nat :=
  match p.address? entry with
  | none => []
  | some pc => traceFrom p m.stepLimit pc (entryStore m.store)

/-- What ends a run at an address: the return to the caller, or an instruction that meets a
fault. -/
inductive Closes (p : Image) (pc : Nat) (s : Store) : Except Fault Word → Prop
  | returned : p.instructions[pc]? = some .ret → s.get .ra = callerAddress →
      Closes p pc s (.ok (s.get .a0))
  | fault {i f} : p.instructions[pc]? = some i → execute p pc s i = .error f →
      Closes p pc s (.error f)

section Trace

variable {p : Image} {n left pc pc' : Nat} {s s' : Store} {result : Except Fault Word}

/-- The steps of a run are the instructions that it executes. -/
theorem steps_runFrom (p : Image) (taken left pc : Nat) (s : Store) :
    (runFrom p taken left pc s).2.1 = taken + (traceFrom p left pc s).length := by
  induction left generalizing taken pc s with
  | zero => rfl
  | succ left ih =>
      rw [runFrom, traceFrom]
      cases hi : p.instructions[pc]? with
      | none => rfl
      | some i =>
          simp only [List.length_cons]
          cases he : execute p pc s i with
          | error f => rfl
          | ok next =>
              obtain ⟨_ | _, s'⟩ := next
              · simp only [ih]
                omega
              · rfl

theorem steps_run (m : Machine) {entry : String} (known : p.address? entry ≠ none) :
    (m.run p entry).2.steps = (m.trace p entry).length := by
  rw [run, trace]
  cases address : p.address? entry with
  | none => exact (known address).elim
  | some pc =>
      have executed := steps_runFrom p 0 m.stepLimit pc (entryStore m.store)
      rwa [Nat.zero_add] at executed

/-- Steps of a run where branches go up: as many addresses, which ascend to the one that the steps
lead to. -/
theorem Steps.trace (h : Steps p n pc s pc' s') (up : Ascending p) : ∃ front,
    front.length = n ∧ (front ++ [pc']).Pairwise (· < ·) ∧ (∀ a ∈ front ++ [pc'], pc ≤ a) ∧
      ∀ left, traceFrom p (n + left) pc s = front ++ traceFrom p left pc' s' := by
  induction h with
  | refl =>
      refine ⟨[], rfl, List.pairwise_singleton _ _, by simp, ?_⟩
      intro left
      rw [Nat.zero_add, List.nil_append]
  | @step n pc s i pc₁ s₁ pc' s' hi hr he _ ih =>
      obtain ⟨front, length, ascends, above, trace⟩ := ih
      have higher := lt_of_execute up hi hr he
      refine ⟨pc :: front, congrArg (· + 1) length, ?_, ?_, ?_⟩
      · exact List.pairwise_cons.mpr ⟨fun a ha => Nat.lt_of_lt_of_le higher (above a ha), ascends⟩
      · refine List.forall_mem_cons.mpr ⟨Nat.le_refl _, ?_⟩
        exact fun a ha => Nat.le_trans (Nat.le_of_lt higher) (above a ha)
      · intro left
        rw [Nat.add_right_comm, traceFrom]
        simp only [hi, he, trace left, List.cons_append]

/-- Where branches go up, there are no more steps than instructions. -/
theorem Steps.le_size (h : Steps p n pc s pc' s') (up : Ascending p) (some : 0 < n) :
    pc + n ≤ p.size := by
  induction h with
  | refl => cases some
  | @step n pc s i pc₁ s₁ pc' s' hi hr he _ ih =>
      have here := size_of_getElem? hi
      have higher := lt_of_execute up hi hr he
      rcases Nat.eq_zero_or_pos n with rfl | more
      · exact here
      · have := ih more
        omega

/-- A branch leads to an address, or its target is not defined. -/
theorem branchTo_cases (p : Image) (target : String) (s : Store) :
    (∃ pc', (branchTo p target).map (·, s) = .ok (.address pc', s)) ∨
      (branchTo p target).map (·, s) = .error (.unknownEntry target) := by
  rw [branchTo]
  cases p.address? target with
  | some pc' => exact .inl ⟨pc', rfl⟩
  | none => exact .inr rfl

/-- Only the return to the caller leaves the program. -/
theorem ret_of_halt {i : Instruction} (h : execute p pc s i = .ok (.halt, s')) :
    i = .ret ∧ s.get .ra = callerAddress ∧ s' = s := by
  have branch {target : String} : (branchTo p target).map (·, s) ≠ .ok (.halt, s') := by
    obtain ⟨_, taken⟩ | taken := branchTo_cases p target s <;> rw [taken] <;> exact nofun
  have straight (hs : i.isStraight = true) : False := by
    rw [execute_of_isStraight hs] at h
    cases ha : s.after i <;> rw [ha] at h <;> cases h
  cases i with
  | branch condition rs target =>
      rw [execute] at h
      split at h
      · exact (branch h).elim
      · cases h
  | j target => exact (branch h).elim
  | ret =>
      rw [execute, returnTo] at h
      split at h
      · rename_i caller
        cases h
        exact ⟨rfl, caller, rfl⟩
      · split at h <;> cases h
  | _ => exact (straight rfl).elim

theorem Ends.closes (h : Ends p n pc s result s') :
    ∃ pc', Steps p n pc s pc' s' ∧ Closes p pc' s' result := by
  obtain ⟨pc', low, steps, last⟩ := h
  refine ⟨pc', steps, ?_⟩
  have hi : p.instructions[pc']? = some p.instructions[pc'] := Array.getElem?_eq_getElem low
  generalize p.instructions[pc'] = i at hi
  have one (taken : Nat) := last taken 0
  cases he : execute p pc' s' i with
  | error f =>
      have run := (runFrom_fault hi he 0 0).symm.trans (one 0)
      cases run
      exact .fault hi he
  | ok next =>
      obtain ⟨address | _, s₁⟩ := next
      · -- The step limit would have to be the result, whatever number of steps had been taken.
        have stopped (taken : Nat) : result = .error (.stepLimit (taken + 1)) := by
          have run := one taken
          rw [Machine.runFrom] at run
          simp only [hi, he] at run
          exact (congrArg Prod.fst run).symm
        cases (stopped 0).symm.trans (stopped 1)
      · obtain ⟨rfl, caller, rfl⟩ := ret_of_halt he
        have run := (runFrom_ret hi caller 0 0).symm.trans (one 0)
        cases run
        exact .returned hi caller

/-- What an instruction fails at: the address of a load or store, a return below all addresses, or a
branch to a label that the program does not define. -/
inductive Fails (p : Image) (s : Store) : Instruction → Fault → Prop
  | load {rd offset base} : Memory.isAligned (s.effective offset base) = false →
      Fails p s (.lw rd offset base) (.misaligned (s.effective offset base))
  | unwritten {rd offset base} : Memory.isAligned (s.effective offset base) = true →
      s.memory.words[s.effective offset base]? = none →
      Fails p s (.lw rd offset base) (.uninitialized (s.effective offset base))
  | store {rs offset base} : Memory.isAligned (s.effective offset base) = false →
      Fails p s (.sw rs offset base) (.misaligned (s.effective offset base))
  | branch {i target} : i.target? = some target → p.address? target = none →
      Fails p s i (.unknownEntry target)
  | ret : s.get .ra ≠ callerAddress → s.get .ra < 0 →
      Fails p s .ret (.pcOutOfRange (s.get .ra).toInt)

theorem fails_of_branchTo {i : Instruction} {target : String} {f : Fault}
    (ht : i.target? = some target) (h : (branchTo p target).map (·, s) = .error f) :
    Fails p s i f := by
  rw [branchTo] at h
  cases unknown : p.address? target with
  | some pc' =>
      rw [unknown] at h
      cases h
  | none =>
      rw [unknown] at h
      cases h
      exact .branch ht unknown

theorem fails_of_execute {i : Instruction} {f : Fault} (h : execute p pc s i = .error f) :
    Fails p s i f := by
  cases i with
  | lw rd offset base =>
      rw [execute, Memory.load] at h
      cases aligned : Memory.isAligned (s.effective offset base) with
      | false =>
          rw [aligned] at h
          cases h
          exact .load aligned
      | true =>
          rw [aligned, if_pos rfl] at h
          cases word : s.memory.words[s.effective offset base]? with
          | none =>
              rw [word] at h
              cases h
              exact .unwritten aligned word
          | some w =>
              rw [word] at h
              cases h
  | sw rs offset base =>
      rw [execute, Memory.store] at h
      cases aligned : Memory.isAligned (s.effective offset base) with
      | false =>
          rw [aligned] at h
          cases h
          exact .store aligned
      | true =>
          rw [aligned] at h
          cases h
  | branch condition rs target =>
      rw [execute] at h
      split at h
      · exact fails_of_branchTo rfl h
      · cases h
  | j target => exact fails_of_branchTo rfl h
  | ret =>
      rw [execute, returnTo] at h
      split at h
      · cases h
      · rename_i caller
        split at h
        · rename_i below
          cases h
          exact .ret caller below
        · cases h
  | _ => cases h

/-- Only a load finds that a word has not been written. -/
theorem lw_of_uninitialized {i : Instruction} {a : UInt32}
    (h : execute p pc s i = .error (.uninitialized a)) :
    ∃ rd offset base, i = .lw rd offset base ∧ a = s.effective offset base := by
  cases fails_of_execute h with
  | @unwritten rd offset base => exact ⟨rd, offset, base, rfl, rfl⟩

theorem Closes.trace (h : Closes p pc s result) : traceFrom p (left + 1) pc s = [pc] := by
  rw [traceFrom]
  cases h with
  | returned hi caller => simp [hi, execute, returnTo, caller, Except.map]
  | fault hi he => simp [hi, he]

/-- Where branches go up, the addresses of a run ascend under every limit. A limit that lets the
run come to its end shows the instruction that ends it last. -/
theorem Ends.trace (h : Ends p n pc s result s') (up : Ascending p) (limit : Nat) :
    (traceFrom p limit pc s).Pairwise (· < ·) ∧ (n < limit → ∃ pc',
      (traceFrom p limit pc s).getLast? = some pc' ∧ Closes p pc' s' result) := by
  obtain ⟨pc', steps, closes⟩ := h.closes
  rcases Nat.lt_or_ge n limit with long | short
  · obtain ⟨k, rfl⟩ := Nat.exists_eq_add_of_lt long
    obtain ⟨front, -, ascends, -, trace⟩ := steps.trace up
    rw [Nat.add_assoc, trace, closes.trace]
    exact ⟨ascends, fun _ => ⟨pc', List.getLast?_concat, closes⟩⟩
  · obtain ⟨pc₁, s₁, steps⟩ := steps.take short
    obtain ⟨front, -, ascends, -, trace⟩ := steps.trace up
    have whole := trace 0
    rw [Nat.add_zero, traceFrom, List.append_nil] at whole
    rw [whole]
    exact ⟨ascends.sublist (List.sublist_append_left _ _), fun long => by omega⟩

end Trace

end Machine

end IntLang
