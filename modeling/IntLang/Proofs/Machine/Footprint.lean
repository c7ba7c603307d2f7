import IntLang.Proofs.Machine.Stack
import IntLang.Proofs.Machine.Steps
/-!
Words that a run leaves alone, at its end and wherever it may be stopped before. It is enough to
look at stretches of code that store once at most: within one of them the memory is as at its start
or as at its end.
-/
namespace IntLang

open Asm (Instruction Image)

def Asm.Instruction.isStore : Instruction → Bool
  | .sw _ _ _ => true
  | _ => false

def Memory.AgreeOn (kept : Word → Prop) (m m' : Memory) : Prop :=
  ∀ a, kept a → m'.word? a = m.word? a

namespace Memory.AgreeOn

variable {kept : Word → Prop} {m m' m'' : Memory}

theorem refl : AgreeOn kept m m := fun _ _ => rfl

theorem symm (h : AgreeOn kept m m') : AgreeOn kept m' m := fun a ha => (h a ha).symm

theorem trans (h : AgreeOn kept m m') (h' : AgreeOn kept m' m'') : AgreeOn kept m m'' :=
  fun a ha => (h' a ha).trans (h a ha)

end Memory.AgreeOn

namespace Machine

open Memory (AgreeOn)

section Spares

variable {p : Image} {kept : Word → Prop} {n m pc pc₁ pc' : Nat} {s s₁ s' : Store}
  {i : Instruction} {code : List Instruction}

theorem memory_of_execute (silent : i.isStore = false)
    (h : execute p pc s i = .ok (.address pc', s')) : s'.memory = s.memory := by
  have after := after_of_execute h
  cases i with
  | sw rs offset base => cases silent
  | lw rd offset base =>
      rw [Store.after] at after
      cases loaded : s.memory.load (s.effective offset base) <;> rw [loaded] at after <;>
        cases after
      rfl
  | _ =>
      cases after
      rfl

theorem next_of_isStraight (straight : i.isStraight = true)
    (h : execute p pc s i = .ok (.address pc', s')) : pc' = pc + 1 := by
  rw [execute_of_isStraight straight] at h
  cases after : s.after i with
  | error f =>
      rw [after] at h
      cases h
  | ok s₁ =>
      rw [after] at h
      cases h
      rfl

/-- Code that control can only leave behind its last instruction, which may be a branch. -/
def Through (p : Image) (pc : Nat) (code : List Instruction) : Prop :=
  code ≠ [] → Has p pc code ∧ ∀ i ∈ code.dropLast, i.isStraight = true

theorem Through.of_straight (h : Has p pc code) (straight : ∀ i ∈ code, i.isStraight = true) :
    Through p pc code :=
  fun _ => ⟨h, fun i hi => straight i (List.dropLast_subset code hi)⟩

theorem Through.head (h : Through p pc (i :: code)) : p.instructions[pc]? = some i :=
  (h (List.cons_ne_nil i code)).1.head

theorem Through.next (h : Through p pc (i :: code))
    (taken : execute p pc s i = .ok (.address pc₁, s₁)) : Through p pc₁ code := by
  intro more
  obtain ⟨has, straight⟩ := h (List.cons_ne_nil i code)
  rw [List.dropLast_cons_of_ne_nil more, List.forall_mem_cons] at straight
  cases next_of_isStraight straight.1 taken
  exact ⟨has.tail, straight.2⟩

/-- From that address and store on, the first `n` steps of the run leave the words alone. -/
def Spares (p : Image) (kept : Word → Prop) (n pc : Nat) (s : Store) : Prop :=
  ∀ m pc' s', m ≤ n → Steps p m pc s pc' s' → AgreeOn kept s.memory s'.memory

theorem Spares.zero : Spares p kept 0 pc s := by
  intro m pc' s' hm steps
  obtain rfl := Nat.le_zero.mp hm
  cases steps
  exact .refl

theorem Spares.mono (h : Spares p kept n pc s) (hm : m ≤ n) : Spares p kept m pc s :=
  fun k pc' s' hk => h k pc' s' (Nat.le_trans hk hm)

theorem Spares.trans (front : Spares p kept n pc s) (steps : Steps p n pc s pc₁ s₁)
    (behind : Spares p kept m pc₁ s₁) : Spares p kept (n + m) pc s := by
  intro k pc' s' hk further
  rcases Nat.le_total k n with short | long
  · exact front k pc' s' short further
  · obtain ⟨l, rfl⟩ := Nat.exists_eq_add_of_le long
    have agree := front n pc₁ s₁ (Nat.le_refl n) steps
    exact agree.trans (behind l pc' s' (Nat.le_of_add_le_add_left hk) (steps.behind further))

/-- One instruction, after which the run goes on at another store. -/
theorem Spares.succ (hi : p.instructions[pc]? = some i)
    (rest : ∀ pc₁ s₁, i ≠ .ret → execute p pc s i = .ok (.address pc₁, s₁) →
      AgreeOn kept s.memory s₁.memory ∧ Spares p kept n pc₁ s₁) : Spares p kept (n + 1) pc s := by
  intro m pc' s' hm steps
  cases steps with
  | refl => exact .refl
  | step hi' hr taken further =>
      cases hi.symm.trans hi'
      obtain ⟨agree, spares⟩ := rest _ _ hr taken
      exact agree.trans (spares _ _ _ (Nat.le_of_succ_le_succ hm) further)

/-- Code that stores nothing leaves every word alone. -/
theorem Spares.of_silent (h : Through p pc code) (silent : ∀ i ∈ code, i.isStore = false) :
    Spares p kept code.length pc s := by
  induction code generalizing pc s with
  | nil => exact .zero
  | cons i code ih =>
      obtain ⟨hi, hcode⟩ := List.forall_mem_cons.mp silent
      apply Spares.succ h.head
      intro pc₁ s₁ _ taken
      exact ⟨memory_of_execute hi taken ▸ .refl, ih (h.next taken) hcode⟩

/-- Code that stores once at most and leaves words alone from its start to its end leaves them
alone throughout. -/
theorem Spares.of_steps (h : Through p pc code) (once : code.countP Instruction.isStore ≤ 1)
    (steps : Steps p code.length pc s pc' s') (agree : AgreeOn kept s.memory s'.memory) :
    Spares p kept code.length pc s := by
  induction code generalizing pc s with
  | nil => exact .zero
  | cons i code ih =>
      apply Spares.succ h.head
      intro pc₁ s₁ hr taken
      rw [List.length_cons, Nat.add_comm] at steps
      have further := (Steps.one h.head hr taken).behind steps
      cases stores : i.isStore with
      | false =>
          rw [List.countP_cons_of_neg (by simp [stores])] at once
          have memory := memory_of_execute stores taken
          rw [← memory] at agree
          exact ⟨memory ▸ .refl, ih (h.next taken) once further agree⟩
      | true =>
          -- Nothing is stored behind, where the memory is the one at the end.
          rw [List.countP_cons_of_pos stores] at once
          have silent : ∀ j ∈ code, j.isStore = false := by
            have none := Nat.le_zero.mp (Nat.le_of_succ_le_succ once)
            simpa using List.countP_eq_zero.mp none
          have behind : AgreeOn kept s₁.memory s'.memory :=
            Spares.of_silent (h.next taken) silent _ _ _ (Nat.le_refl _) further
          exact ⟨agree.trans behind.symm, .of_silent (h.next taken) silent⟩

/-- The run to an end is all there is to look at. -/
theorem Spares.of_ends {result : Except Fault Word} (h : Spares p kept n pc s)
    (ends : Ends p n pc s result s') (m : Nat) : Spares p kept m pc s :=
  fun k pc' s' _ steps => h k pc' s' (ends.steps_le steps) steps

end Spares

end Machine

end IntLang
