import IntLang.Proofs.Asm.Emission
import IntLang.Proofs.Asm.Layout
/-!
Constants that are too wide for their instruction. A sum, a load and a store with such a constant go
through `t0`; apart from that register they do what the one instruction would do if its field held
any word, at a fault too.
-/
namespace IntLang

open Asm (Register Instruction fitsImmediate)

/-- The stores are the same but for registers that are spoilt. -/
structure Store.Agrees (spoilt : Register → Prop) (s s' : Store) : Prop where
  memory : s'.memory = s.memory
  kept : ∀ r, ¬ spoilt r → s'.get r = s.get r

namespace Asm

open Store (Agrees)
open Machine (Has Steps Ends execute)

/-- What a constant of any width is used for: a sum, a load from an offset, or a store to one. -/
inductive WideForm
  | add (rd rs : Register)
  | load (rd base : Register)
  | store (rs base : Register)
deriving DecidableEq, Repr

namespace WideForm

/-- The one instruction, which would need a field for any word. -/
def instruction : WideForm → Word → Instruction
  | .add rd rs, value => .addi rd rs value
  | .load rd base, offset => .lw rd offset base
  | .store rs base, offset => .sw rs offset base

def code : WideForm → Word → List Instruction
  | .add rd rs, value => addConstant rd rs value
  | .load rd base, offset => loadAt rd offset base
  | .store rs base, offset => storeAt rs offset base

def sources : WideForm → List Register
  | .add _ rs => [rs]
  | .load _ base => [base]
  | .store rs base => [rs, base]

def target? : WideForm → Option Register
  | .add rd _ | .load rd _ => some rd
  | .store _ _ => none

/-- The registers that the code changes on its way: `t0`, if the constant is wide. -/
def Spoils (value : Word) (r : Register) : Prop := r = .t0 ∧ fitsImmediate value = false

/-- How a store is changed, given the contents of the sources and the memory in `s`. -/
def change (form : WideForm) (value : Word) (s : Store) : Except Fault (Store → Store) :=
  match form with
  | .add rd rs => .ok (·.set rd (s.get rs + value))
  | .load rd base => (s.memory.load (s.effective value base)).map fun w t => t.set rd w
  | .store rs base =>
      (s.memory.store (s.effective value base) (s.get rs)).map fun m t => { t with memory := m }

variable {form : WideForm} {value : Word} {s t : Store} {spoilt : Register → Prop}
  {g : Store → Store}

theorem after_instruction (form : WideForm) (value : Word) (s : Store) :
    s.after (form.instruction value) = (form.change value s).map (· s) := by
  cases form with
  | add rd rs => rfl
  | load rd base =>
      change (s.memory.load (s.effective value base)).map _ = _
      rw [change]
      cases s.memory.load (s.effective value base) <;> rfl
  | store rs base =>
      change (s.memory.store (s.effective value base) (s.get rs)).map _ = _
      rw [change]
      cases s.memory.store (s.effective value base) (s.get rs) <;> rfl

/-- A change is a word in the target, or another memory. -/
theorem change_cases (h : form.change value s = .ok g) :
    (∃ rd w, form.target? = some rd ∧ g = (·.set rd w)) ∨
      form.target? = none ∧ ∃ m, g = fun t => { t with memory := m } := by
  cases form with
  | add rd rs =>
      cases h
      exact .inl ⟨rd, _, rfl, rfl⟩
  | load rd base =>
      rw [change] at h
      cases loaded : s.memory.load (s.effective value base) <;> rw [loaded] at h <;> cases h
      exact .inl ⟨rd, _, rfl, rfl⟩
  | store rs base =>
      rw [change] at h
      cases stored : s.memory.store (s.effective value base) (s.get rs) <;> rw [stored] at h <;>
        cases h
      exact .inr ⟨rfl, _, rfl⟩

/-- A change makes two stores the same in its target, and keeps them alike elsewhere. -/
theorem change_agrees (h : form.change value s = .ok g) (agrees : s.Agrees spoilt t) :
    (g s).Agrees (fun r => form.target? ≠ some r ∧ spoilt r) (g t) := by
  obtain ⟨rd, w, target, rfl⟩ | ⟨none, m, rfl⟩ := change_cases h
  · refine ⟨agrees.memory, fun r fine => ?_⟩
    rw [Store.get_set, Store.get_set]
    by_cases same : r = rd
    · subst same
      cases r <;> rfl
    · have other : form.target? ≠ some r := fun hr => same (Option.some.inj (hr.symm.trans target))
      rw [if_neg fun h => same h.1, if_neg fun h => same h.1]
      exact agrees.kept r fun bad => fine ⟨other, bad⟩
  · refine ⟨rfl, fun r fine => agrees.kept r fun bad => fine ⟨?_, bad⟩⟩
    rw [none]
    exact nofun

/-- A change keeps the registers other than its target. -/
theorem get_change (h : form.change value s = .ok g) {r : Register} (other : form.target? ≠ some r)
    (t : Store) : (g t).get r = t.get r := by
  obtain ⟨rd, w, target, rfl⟩ | ⟨-, m, rfl⟩ := change_cases h
  · have ne : r ≠ rd := fun same => other (same ▸ target)
    simp only [Store.get_set, ne, false_and, if_false]
  · rfl

theorem afterAll_address {base : Register} (ne : base ≠ .t0) (offset : Word) (s : Store) :
    s.afterAll (addConstant .t0 base offset) = .ok (s.set .t0 (s.get base + offset)) := by
  rw [afterAll_addConstant .t0 ne]
  split <;> rfl

/-- The address that is set up in `t0` needs no further offset. -/
theorem effective_address (base : Register) (offset : Word) (s : Store) :
    (s.set .t0 (s.get base + offset)).effective 0 .t0 = s.effective offset base := by
  rw [Store.effective, Store.get_set, if_pos (by decide), Int32.add_zero, Store.effective]

/-- The code sets up a store that differs in `t0` at most, and then changes that as the one
instruction would change the store before it. -/
theorem code_splits (apart : .t0 ∉ form.sources) (value : Word) (s : Store) : ∃ front last t,
    form.code value = front ++ [last] ∧ s.afterAll front = .ok t ∧
      t.after last = (form.change value s).map (· t) ∧ s.Agrees (Spoils value) t := by
  cases wide : fitsImmediate value with
  | true =>
      refine ⟨[], form.instruction value, s, ?_, rfl, after_instruction form value s, rfl, ?_⟩
      · cases form <;> exact if_pos wide
      · exact fun _ _ => rfl
  | false =>
      have spoils (w : Word) : s.Agrees (Spoils value) (s.set .t0 w) := by
        refine ⟨rfl, fun r fine => ?_⟩
        have ne : r ≠ .t0 := fun same => fine ⟨same, wide⟩
        simp [ne]
      have narrow : ¬ fitsImmediate value = true := by simp [wide]
      cases form with
      | add rd rs =>
          have ne : rs ≠ .t0 := fun same => apart (List.mem_singleton.mpr same.symm)
          refine ⟨[.li .t0 value], .alu .add rd rs .t0, s.set .t0 value, if_neg narrow, rfl, ?_,
            spoils value⟩
          simp [Store.after, change, Alu.value, ne, Except.map]
      | load rd base =>
          have ne : base ≠ .t0 := fun same => apart (List.mem_singleton.mpr same.symm)
          refine ⟨addConstant .t0 base value, .lw rd 0 .t0, _, if_neg narrow,
            afterAll_address ne value s, ?_, spoils _⟩
          rw [Store.after, effective_address, Store.memory_set, change]
          cases s.memory.load (s.effective value base) <;> rfl
      | store rs base =>
          obtain ⟨neSource, neBase⟩ : .t0 ≠ rs ∧ .t0 ≠ base := by
            simpa [sources] using apart
          refine ⟨addConstant .t0 base value, .sw rs 0 .t0, _, if_neg narrow,
            afterAll_address neBase.symm value s, ?_, spoils _⟩
          have source : (s.set .t0 (s.get base + value)).get rs = s.get rs := by
            simp [neSource.symm]
          rw [Store.after, effective_address, source, Store.memory_set, change]
          cases s.memory.store (s.effective value base) (s.get rs) <;> rfl

theorem straight_instruction (form : WideForm) (value : Word) :
    (form.instruction value).isStraight = true := by
  cases form <;> rfl

theorem straight_code (form : WideForm) (value : Word) :
    ∀ i ∈ form.code value, i.isStraight = true := by
  cases form with
  | add rd rs => exact straight_addConstant rd rs value
  | load rd base => exact straight_loadAt rd value base
  | store rs base => exact straight_storeAt rs value base

theorem printable_code (form : WideForm) (value : Word) : ∀ i ∈ form.code value, i.Printable := by
  cases form with
  | add rd rs => exact printable_addConstant rd rs value
  | load rd base => exact printable_loadAt rd value base
  | store rs base => exact printable_storeAt rs value base

/-- The one instruction is the code if the constant fits, and else the code is longer. -/
theorem code_eq_iff (form : WideForm) (value : Word) :
    (form.code value = [form.instruction value] ↔ fitsImmediate value = true) ∧
      ((form.code value).length = 1 ↔ fitsImmediate value = true) := by
  cases fits : fitsImmediate value with
  | true =>
      have one : form.code value = [form.instruction value] := by
        cases form <;> exact if_pos fits
      rw [one]
      exact ⟨iff_of_true rfl rfl, iff_of_true rfl rfl⟩
  | false =>
      have longer : (form.code value).length ≠ 1 := by
        cases form <;> simp [code, addConstant, loadAt, storeAt, fits]
      refine ⟨iff_of_false (fun one => longer ?_) nofun, iff_of_false longer nofun⟩
      rw [one]
      rfl

theorem execute_instruction (form : WideForm) (value : Word) (p : Image) (pc : Nat) (s : Store) :
    execute p pc s (form.instruction value) =
      ((form.change value s).map (· s)).map (Next.address (pc + 1), ·) := by
  rw [Machine.execute_of_isStraight (form.straight_instruction value), after_instruction]

theorem get_set_self (s : Store) (rd : Register) (w : Word) :
    (s.set rd w).get rd = if rd = .zero then 0 else w := by
  rw [Store.get_set]
  by_cases zero : rd = .zero
  · subst zero
    rfl
  · rw [if_pos ⟨rfl, zero⟩, if_neg zero]

section Run

variable {p : Image} {pc : Nat}

/-- Where the change can be made, the code comes out behind itself with it. -/
theorem steps_code (apart : .t0 ∉ form.sources) (stands : Has p pc (form.code value))
    (changed : form.change value s = .ok g) : ∃ t, s.Agrees (Spoils value) t ∧
      Steps p (form.code value).length pc s (pc + (form.code value).length) (g t) := by
  obtain ⟨front, last, t, split, prepared, final, agrees⟩ := code_splits apart value s
  rw [changed] at final
  have through : s.afterAll (form.code value) = .ok (g t) := by
    rw [split, Store.afterAll_append prepared, Store.afterAll_cons final]
    rfl
  exact ⟨t, agrees, .of_afterAll stands (form.straight_code value) through⟩

/-- Where it cannot, the last instruction of the code meets the fault. -/
theorem ends_code {f : Fault} (apart : .t0 ∉ form.sources) (stands : Has p pc (form.code value))
    (failed : form.change value s = .error f) : ∃ t, s.Agrees (Spoils value) t ∧
      Ends p ((form.code value).length - 1) pc s (.error f) t := by
  obtain ⟨front, last, t, split, prepared, final, agrees⟩ := code_splits apart value s
  have straight := form.straight_code value
  rw [split] at stands straight ⊢
  obtain ⟨before, ends⟩ := List.forall_mem_append.mp straight
  have fault : execute p (pc + front.length) t last = .error f := by
    rw [Machine.execute_of_isStraight (ends last List.mem_cons_self), final, failed]
    rfl
  rw [List.length_append]
  exact ⟨t, agrees, .of_steps (.of_afterAll stands.left before prepared)
    (.of_fault stands.right.head fault)⟩

/-- Whatever the constant, the code does what the one instruction would do, in any state and for all
registers, if no source is `t0`. It comes out behind itself with the same memory and registers, or
meets the same fault at its last instruction, with the store of before. Only `t0` may differ, and
only if the constant is wide. A sum is in the target then, unless that is `zero`. Each field holds
its constant, and the code is the one instruction exactly when that can hold the constant. -/
theorem wide_operand_performs (apart : .t0 ∉ form.sources) (stands : Has p pc (form.code value))
    (s : Store) :
    (∀ next s₁, execute p pc s (form.instruction value) = .ok (next, s₁) →
      next = .address (pc + 1) ∧ ∃ s',
        Steps p (form.code value).length pc s (pc + (form.code value).length) s' ∧
        s₁.Agrees (fun r => form.target? ≠ some r ∧ Spoils value r) s' ∧
        ∀ r, form.target? ≠ some r → ¬ Spoils value r → s'.get r = s.get r) ∧
    (∀ f, execute p pc s (form.instruction value) = .error f → ∃ s',
      Ends p ((form.code value).length - 1) pc s (.error f) s' ∧ s.Agrees (Spoils value) s') ∧
    (∀ rd rs, form = .add rd rs → ∃ s',
      Steps p (form.code value).length pc s (pc + (form.code value).length) s' ∧
        s'.memory = s.memory ∧ (s'.get rd = if rd = .zero then 0 else s.get rs + value) ∧
        ∀ r, r ≠ rd → ¬ Spoils value r → s'.get r = s.get r) ∧
    (∀ i ∈ form.code value, ∀ w ∈ i.field?, fitsImmediate w = true) ∧
    (form.code value = [form.instruction value] ↔ fitsImmediate value = true) ∧
    ((form.code value).length = 1 ↔ fitsImmediate value = true) := by
  refine ⟨?_, ?_, ?_, fun i hi => i.fits_of_printable (form.printable_code value i hi),
    form.code_eq_iff value⟩
  · intro next s₁ h
    rw [execute_instruction] at h
    cases changed : form.change value s with
    | error f =>
        rw [changed] at h
        cases h
    | ok g =>
        rw [changed] at h
        cases h
        obtain ⟨t, agrees, steps⟩ := steps_code apart stands changed
        refine ⟨rfl, g t, steps, change_agrees changed agrees, fun r other fine => ?_⟩
        rw [get_change changed other, agrees.kept r fine]
  · intro f h
    rw [execute_instruction] at h
    cases failed : form.change value s with
    | ok g =>
        rw [failed] at h
        cases h
    | error f =>
        rw [failed] at h
        cases h
        obtain ⟨t, agrees, ends⟩ := ends_code apart stands failed
        exact ⟨t, ends, agrees⟩
  · rintro rd rs rfl
    have changed : (add rd rs).change value s = .ok (·.set rd (s.get rs + value)) := rfl
    obtain ⟨t, agrees, steps⟩ := steps_code apart stands changed
    refine ⟨_, steps, agrees.memory, get_set_self t rd _, fun r other fine => ?_⟩
    have elsewhere : (add rd rs).target? ≠ some r := fun same => other (Option.some.inj same).symm
    rw [get_change changed elsewhere, agrees.kept r fine]

/-- A stack pointer at the last word of the address space, and no memory. -/
def lastWord : Store := ⟨{ Registers.clear with sp := -4 }, .empty⟩

/-- A load from an offset that is too wide reads behind the end of the address space, which is near
its start. A sum with the least constant that is too wide goes to its own scratch register. -/
theorem lastWord_performs :
    (∃ s', Ends ⟨#[.li .t0 4100, .alu .add .t0 .sp .t0, .lw .a0 0 .t0], []⟩ 2 0 lastWord
      (.error (.uninitialized 4096)) s' ∧ s'.get .sp = -4) ∧
    ∃ s', Steps ⟨#[.li .t0 2048, .alu .add .t0 .sp .t0], []⟩ 2 0 lastWord 2 s' ∧
      s'.get .t0 = 2044 := by
  constructor
  · have stands : Has ⟨#[.li .t0 4100, .alu .add .t0 .sp .t0, .lw .a0 0 .t0], []⟩ 0
        ((load .a0 .sp).code 4100) := ⟨[], [], by decide, rfl⟩
    obtain ⟨-, fault, -⟩ := wide_operand_performs (by decide) stands lastWord
    obtain ⟨s', ends, agrees⟩ := fault (.uninitialized 4096) rfl
    exact ⟨s', ends, agrees.kept .sp (by rintro ⟨⟨⟩, -⟩)⟩
  · have stands : Has ⟨#[.li .t0 2048, .alu .add .t0 .sp .t0], []⟩ 0 ((add .t0 .sp).code 2048) :=
      ⟨[], [], by decide, rfl⟩
    obtain ⟨-, -, sum, -⟩ := wide_operand_performs (by decide) stands lastWord
    obtain ⟨s', steps, -, value, -⟩ := sum .t0 .sp rfl
    exact ⟨s', steps, value⟩

end Run

end WideForm

end Asm

end IntLang
