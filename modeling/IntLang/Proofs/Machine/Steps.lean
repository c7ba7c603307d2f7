import IntLang.Machine.Run
/-!
Runs in pieces. Straight code changes the store as its instructions do one behind the other; pieces
of code and the branches between them make up the steps of a run; and a run whose branches all go
forward is no longer than the program.
-/
namespace IntLang

open Asm (Register Instruction Image)

def Asm.Instruction.isStraight : Instruction → Bool
  | .branch _ _ _ | .j _ | .ret => false
  | _ => true

namespace Store

def after (s : Store) : Instruction → Except Fault Store
  | .alu op rd rs rt => .ok (s.set rd (op.value (s.get rs) (s.get rt)))
  | .unary op rd rs => .ok (s.set rd (op.value (s.get rs)))
  | .immediate op rd rs value => .ok (s.set rd (op.value (s.get rs) value))
  | .li rd value => .ok (s.set rd value)
  | .lw rd offset base => (s.memory.load (s.effective offset base)).map (s.set rd)
  | .sw rs offset base =>
      (s.memory.store (s.effective offset base) (s.get rs)).map ({ s with memory := · })
  | .branch _ _ _ | .j _ | .ret => .ok s

def afterAll (s : Store) : List Instruction → Except Fault Store
  | [] => .ok s
  | i :: rest =>
      match s.after i with
      | .ok s' => s'.afterAll rest
      | .error f => .error f

theorem afterAll_cons {s s' : Store} {i : Instruction} (h : s.after i = .ok s')
    (rest : List Instruction) : s.afterAll (i :: rest) = s'.afterAll rest := by
  rw [afterAll, h]

theorem afterAll_append {s s' : Store} {xs : List Instruction} (h : s.afterAll xs = .ok s')
    (ys : List Instruction) : s.afterAll (xs ++ ys) = s'.afterAll ys := by
  induction xs generalizing s with
  | nil =>
      cases h
      rfl
  | cons i xs ih =>
      rw [afterAll] at h
      cases hi : s.after i with
      | error f =>
          rw [hi] at h
          cases h
      | ok s₁ =>
          rw [hi] at h
          rw [List.cons_append, afterAll_cons hi, ih h]

end Store

namespace Machine

theorem execute_of_isStraight {i : Instruction} (h : i.isStraight = true) (p : Image) (pc : Nat)
    (s : Store) : execute p pc s i = (s.after i).map (Next.address (pc + 1), ·) := by
  cases i with
  | lw rd offset base =>
      simp only [execute, Store.after]
      cases s.memory.load (s.effective offset base) <;> rfl
  | sw rs offset base =>
      simp only [execute, Store.after]
      cases s.memory.store (s.effective offset base) (s.get rs) <;> rfl
  | branch condition rs target => cases h
  | j target => cases h
  | ret => cases h
  | _ => rfl

def Has (p : Image) (pc : Nat) (code : List Instruction) : Prop :=
  ∃ front behind, p.instructions.toList = front ++ (code ++ behind) ∧ front.length = pc

namespace Has

variable {p : Image} {pc : Nat} {xs ys : List Instruction}

theorem left (h : Has p pc (xs ++ ys)) : Has p pc xs := by
  obtain ⟨front, behind, hp, hlen⟩ := h
  exact ⟨front, ys ++ behind, by rw [hp, List.append_assoc], hlen⟩

theorem right (h : Has p pc (xs ++ ys)) : Has p (pc + xs.length) ys := by
  obtain ⟨front, behind, hp, rfl⟩ := h
  exact ⟨front ++ xs, behind, by simp [hp], List.length_append⟩

theorem head {i : Instruction} (h : Has p pc (i :: xs)) : p.instructions[pc]? = some i := by
  obtain ⟨front, behind, hp, rfl⟩ := h
  simp [← Array.getElem?_toList, hp]

theorem tail {i : Instruction} (h : Has p pc (i :: xs)) : Has p (pc + 1) xs := by
  have split : Has p pc ([i] ++ xs) := h
  exact split.right

end Has

/-- `Steps p n pc s pc' s'`: from the address `pc` and the store `s`, `n` instructions other than
`ret` lead to `pc'` and `s'`. -/
inductive Steps (p : Image) : Nat → Nat → Store → Nat → Store → Prop
  | refl {pc s} : Steps p 0 pc s pc s
  | step {n pc s i pc₁ s₁ pc' s'} : p.instructions[pc]? = some i → i ≠ .ret →
      execute p pc s i = .ok (.address pc₁, s₁) → Steps p n pc₁ s₁ pc' s' →
      Steps p (n + 1) pc s pc' s'

/-- `Advances p n pc s pc' s'`: from the address `pc` and the store `s`, `n` instructions, among
which may be returns to an address, lead to `pc'` and `s'`. -/
inductive Advances (p : Image) : Nat → Nat → Store → Nat → Store → Prop
  | refl {pc s} : Advances p 0 pc s pc s
  | step {n pc s i pc₁ s₁ pc' s'} : p.instructions[pc]? = some i →
      execute p pc s i = .ok (.address pc₁, s₁) → Advances p n pc₁ s₁ pc' s' →
      Advances p (n + 1) pc s pc' s'

section Steps

variable {p : Image} {n m pc pc₁ pc' : Nat} {s s₁ s' : Store}

theorem Steps.one {i : Instruction} (hi : p.instructions[pc]? = some i) (hr : i ≠ .ret)
    (h : execute p pc s i = .ok (.address pc', s')) : Steps p 1 pc s pc' s' :=
  .step hi hr h .refl

theorem Steps.trans (h : Steps p n pc s pc₁ s₁) (h' : Steps p m pc₁ s₁ pc' s') :
    Steps p (n + m) pc s pc' s' := by
  induction h with
  | refl => rwa [Nat.zero_add]
  | step hi hr he _ ih =>
      rw [Nat.add_right_comm]
      exact .step hi hr he (ih h')

/-- Straight code takes one step for each instruction. -/
theorem Steps.of_afterAll {code : List Instruction} (h : Has p pc code)
    (straight : ∀ i ∈ code, i.isStraight = true) (hs : s.afterAll code = .ok s') :
    Steps p code.length pc s (pc + code.length) s' := by
  induction code generalizing pc s with
  | nil =>
      cases hs
      exact .refl
  | cons i code ih =>
      obtain ⟨hi, hcode⟩ := List.forall_mem_cons.mp straight
      rw [Store.afterAll] at hs
      cases ha : s.after i with
      | error f =>
          rw [ha] at hs
          cases hs
      | ok s₁ =>
          rw [ha] at hs
          have ne : i ≠ .ret := by
            rintro rfl
            cases hi
          have taken : execute p pc s i = .ok (.address (pc + 1), s₁) := by
            rw [execute_of_isStraight hi, ha]
            rfl
          rw [List.length_cons, ← Nat.add_assoc, Nat.add_right_comm pc]
          exact .step h.head ne taken (ih h.tail hcode hs)

/-- Wherever the code stands in a program, a run takes a step for each of its instructions and comes
out behind it with the other store. -/
def Performs (code : List Instruction) (s s' : Store) : Prop :=
  ∀ p pc, Has p pc code → Steps p code.length pc s (pc + code.length) s'

theorem Performs.of_afterAll {code : List Instruction}
    (straight : ∀ i ∈ code, i.isStraight = true) (hs : s.afterAll code = .ok s') :
    Performs code s s' :=
  fun _ _ stands => .of_afterAll stands straight hs

theorem Steps.advances (h : Steps p n pc s pc' s') : Advances p n pc s pc' s' := by
  induction h with
  | refl => exact .refl
  | step hi _ he _ ih => exact .step hi he ih

theorem runFrom_of_advances (h : Advances p n pc s pc' s') (taken left : Nat) :
    runFrom p taken (n + left) pc s = runFrom p (taken + n) left pc' s' := by
  induction h generalizing taken with
  | refl => rw [Nat.zero_add, Nat.add_zero]
  | @step n pc s i pc₁ s₁ pc' s' hi he _ ih =>
      rw [Nat.add_right_comm, runFrom]
      simp only [hi, he]
      rw [ih, Nat.add_right_comm taken 1, Nat.add_assoc taken n 1]

theorem runFrom_of_steps (h : Steps p n pc s pc' s') (taken left : Nat) :
    runFrom p taken (n + left) pc s = runFrom p (taken + n) left pc' s' :=
  runFrom_of_advances h.advances taken left

/-- Steps are determined: more of them pass through where fewer lead. -/
theorem Steps.behind {pc₂ : Nat} {s₂ : Store} (h : Steps p n pc s pc₁ s₁)
    (further : Steps p (n + m) pc s pc₂ s₂) : Steps p m pc₁ s₁ pc₂ s₂ := by
  induction h with
  | refl => rwa [Nat.zero_add] at further
  | step hi _ he _ ih =>
      rw [Nat.add_right_comm] at further
      cases further with
      | step hi' _ he' rest =>
          cases hi.symm.trans hi'
          cases he.symm.trans he'
          exact ih rest

theorem Steps.take (h : Steps p n pc s pc' s') (hm : m ≤ n) : ∃ pc₁ s₁, Steps p m pc s pc₁ s₁ := by
  induction h generalizing m with
  | refl =>
      obtain rfl := Nat.le_zero.mp hm
      exact ⟨_, _, .refl⟩
  | step hi hr he _ ih =>
      cases m with
      | zero => exact ⟨_, _, .refl⟩
      | succ m =>
          obtain ⟨pc₁, s₁, taken⟩ := ih (Nat.le_of_succ_le_succ hm)
          exact ⟨pc₁, s₁, .step hi hr he taken⟩

/-- A run that has steps left to take at its limit ends there. -/
theorem exists_runFrom_of_limit (h : Steps p n pc s pc' s') {limit : Nat} (hl : limit ≤ n)
    (taken : Nat) : ∃ pc₁ s₁, Steps p limit pc s pc₁ s₁ ∧ runFrom p taken limit pc s =
      (.error (.stepLimit (taken + limit)), taken + limit, s₁) := by
  obtain ⟨pc₁, s₁, front⟩ := h.take hl
  have run := runFrom_of_steps front taken 0
  rw [Nat.add_zero] at run
  exact ⟨pc₁, s₁, front, run⟩

theorem runFrom_of_limit (h : Steps p n pc s pc' s') {limit : Nat} (hl : limit ≤ n) (taken : Nat) :
    (runFrom p taken limit pc s).1 = .error (.stepLimit (taken + limit)) := by
  obtain ⟨pc₁, s₁, -, run⟩ := exists_runFrom_of_limit h hl taken
  rw [run]

theorem runFrom_ret (hi : p.instructions[pc]? = some .ret) (hra : s.get .ra = callerAddress)
    (taken left : Nat) : runFrom p taken (left + 1) pc s = (.ok (s.get .a0), taken + 1, s) := by
  rw [runFrom]
  simp [hi, execute, returnTo, hra, Except.map]

theorem runFrom_fault {i : Instruction} {f : Fault} (hi : p.instructions[pc]? = some i)
    (hf : execute p pc s i = .error f) (taken left : Nat) :
    runFrom p taken (left + 1) pc s = (.error f, taken + 1, s) := by
  rw [runFrom]
  simp [hi, hf]

/-- After `n` instructions comes one that ends the run with the result; it leaves the store as it
is. -/
def Ends (p : Image) (n pc : Nat) (s : Store) (result : Except Fault Word) (s' : Store) : Prop :=
  ∃ pc', pc' < p.size ∧ Steps p n pc s pc' s' ∧
    ∀ taken left, runFrom p taken (left + 1) pc' s' = (result, taken + 1, s')

theorem size_of_getElem? {i : Instruction} (hi : p.instructions[pc]? = some i) : pc < p.size :=
  (Array.getElem?_eq_some_iff.mp hi).1

theorem Ends.of_ret (hi : p.instructions[pc]? = some .ret) (hra : s.get .ra = callerAddress) :
    Ends p 0 pc s (.ok (s.get .a0)) s :=
  ⟨pc, size_of_getElem? hi, .refl, runFrom_ret hi hra⟩

theorem Ends.of_fault {i : Instruction} {f : Fault} (hi : p.instructions[pc]? = some i)
    (hf : execute p pc s i = .error f) : Ends p 0 pc s (.error f) s :=
  ⟨pc, size_of_getElem? hi, .refl, runFrom_fault hi hf⟩

theorem Ends.of_steps {result : Except Fault Word} (h : Steps p n pc s pc₁ s₁)
    (he : Ends p m pc₁ s₁ result s') : Ends p (n + m) pc s result s' := by
  obtain ⟨pc', hlt, steps, last⟩ := he
  exact ⟨pc', hlt, h.trans steps, last⟩

theorem Ends.runFrom {result : Except Fault Word} (h : Ends p n pc s result s') {limit : Nat}
    (hl : n < limit) : Machine.runFrom p 0 limit pc s = (result, n + 1, s') := by
  obtain ⟨pc', -, steps, last⟩ := h
  obtain ⟨left, rfl⟩ := Nat.exists_eq_add_of_lt hl
  rw [Nat.add_assoc, runFrom_of_steps steps, last, Nat.zero_add]

/-- A run that ends takes no steps behind its end. -/
theorem Ends.steps_le {result : Except Fault Word} (h : Ends p n pc s result s')
    (steps : Steps p m pc s pc₁ s₁) : m ≤ n := by
  obtain ⟨pc', -, before, last⟩ := h
  refine Nat.le_of_not_lt fun longer => ?_
  obtain ⟨k, rfl⟩ := Nat.exists_eq_add_of_lt longer
  have behind : Steps p (k + 1) pc' s' pc₁ s₁ := before.behind steps
  -- The step limit would have to be the result, whatever number of steps had been taken.
  have stopped (taken : Nat) : result = .error (.stepLimit (taken + 1)) := by
    have limit := runFrom_of_limit behind (Nat.le_add_left 1 k) taken
    rw [last taken 0] at limit
    exact limit
  cases (stopped 0).symm.trans (stopped 1)

def Ascending (p : Image) : Prop :=
  ∀ pc i target address, p.instructions[pc]? = some i → i.target? = some target →
    p.address? target = some address → pc < address

theorem branchTo_eq_ok {target : String} {address : Nat}
    (h : branchTo p target = .ok (.address address)) : p.address? target = some address := by
  unfold branchTo at h
  cases ha : p.address? target with
  | none =>
      rw [ha] at h
      cases h
  | some a =>
      rw [ha] at h
      cases h
      rfl

/-- Whatever it leads to, an instruction changes the store as `after` says. -/
theorem after_of_execute {i : Instruction} {next : Next} (h : execute p pc s i = .ok (next, s')) :
    s.after i = .ok s' := by
  have same {x : Except Fault Next} (hx : x.map (·, s) = .ok (next, s')) :
      Except.ok s = (.ok s' : Except Fault Store) := by
    cases x <;> cases hx
    rfl
  have straight (hs : i.isStraight = true) : s.after i = .ok s' := by
    rw [execute_of_isStraight hs] at h
    cases ha : s.after i <;> rw [ha] at h <;> cases h
    rfl
  cases i with
  | branch condition rs target =>
      rw [execute] at h
      split at h
      · exact same h
      · cases h
        rfl
  | j target => exact same h
  | ret => exact same h
  | _ => exact straight rfl

/-- Where an instruction leads that does not end the run: behind itself, to its target or, if it
returns, to the address in `ra`. -/
inductive Goes (p : Image) (pc : Nat) (s : Store) (i : Instruction) : Nat → Prop
  | on : i ≠ .ret → Goes p pc s i (pc + 1)
  | branch {target address} : i.target? = some target → p.address? target = some address →
      Goes p pc s i address
  | back {address : Nat} : i = .ret → (s.get .ra).toInt = address → Goes p pc s i address

theorem goes_of_execute {i : Instruction} (h : execute p pc s i = .ok (.address pc', s')) :
    Goes p pc s i pc' := by
  have branch {target : String} (ht : i.target? = some target)
      (hb : (branchTo p target).map (·, s) = .ok (.address pc', s')) : Goes p pc s i pc' := by
    cases hn : branchTo p target with
    | error f =>
        rw [hn] at hb
        cases hb
    | ok next =>
        rw [hn] at hb
        cases hb
        exact .branch ht (branchTo_eq_ok hn)
  have straight (hs : i.isStraight = true) : Goes p pc s i pc' := by
    rw [execute_of_isStraight hs] at h
    cases ha : s.after i with
    | error f =>
        rw [ha] at h
        cases h
    | ok s₁ =>
        rw [ha] at h
        cases h
        refine .on ?_
        rintro rfl
        cases hs
  cases i with
  | branch condition rs target =>
      rw [execute] at h
      split at h
      · exact branch rfl h
      · cases h
        exact .on nofun
  | j target => exact branch rfl h
  | ret =>
      rw [execute, returnTo] at h
      split at h
      · cases h
      · split at h
        · cases h
        · rename_i above
          cases h
          rw [Int32.not_lt, Int32.le_iff_toInt_le] at above
          exact .back rfl (Int.toNat_of_nonneg above).symm
  | _ => exact straight rfl

theorem lt_of_execute (up : Ascending p) {i : Instruction} (hi : p.instructions[pc]? = some i)
    (hr : i ≠ .ret) (h : execute p pc s i = .ok (.address pc', s')) : pc < pc' := by
  cases goes_of_execute h with
  | on => exact Nat.lt_succ_self pc
  | branch ht ha => exact up pc i _ pc' hi ht ha
  | back returns => exact (hr returns).elim

theorem Steps.add_le (h : Steps p n pc s pc' s') (up : Ascending p) : pc + n ≤ pc' := by
  induction h with
  | refl => exact Nat.le_refl _
  | step hi hr he _ ih =>
      have := lt_of_execute up hi hr he
      omega

/-- Where branches go up, a run ends within as many steps as there are instructions. -/
theorem Ends.lt_size {result : Except Fault Word} (h : Ends p n 0 s result s')
    (up : Ascending p) : n < p.size := by
  obtain ⟨pc', hlt, steps, -⟩ := h
  have := steps.add_le up
  omega

end Steps

end Machine

end IntLang
