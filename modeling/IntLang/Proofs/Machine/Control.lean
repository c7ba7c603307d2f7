import IntLang.Proofs.Asm.NormalForm
import IntLang.Proofs.Machine.Limit
/-!
Control in an assembled program. Its branches have their targets, and its labels stand within it or
at its end, so that control stays there too; only a return leads further, to the word in `ra`. A
call of one of its labels fails at a load or a store, at its limit, at the end of the program or at
a return, and in no other way.
-/
namespace IntLang

open Asm (Instruction Image assemble)

namespace Asm.Image

/-- Every branch target is a label, and no label is beyond the end. -/
structure Closed (p : Image) : Prop where
  target : ∀ (pc : Nat) (i : Instruction) name, p.instructions[pc]? = some i →
    i.target? = some name → p.address? name ≠ none
  within : ∀ name address, p.address? name = some address → address ≤ p.size

theorem closed_of_assemble {text : String} {p : Image} (assembled : assemble text = .ok p) :
    p.Closed := by
  obtain ⟨readable, found⟩ := readable_of_assemble assembled
  constructor
  · intro pc i name hi ht unknown
    have listed : i ∈ p.instructions.toList := Array.mem_toList_iff.mpr (Array.mem_of_getElem? hi)
    exact address?_eq_none_iff.mp unknown (mem_labels_of_missingTarget? found listed ht)
  · intro name address known
    exact (readable.label _ ((address?_eq_some_iff readable.once).mp known)).2

end Asm.Image

namespace Machine

section Control

variable {p : Image} {n pc pc' start : Nat} {s s' : Store} {i : Instruction} {f : Fault}

theorem Advances.last (h : Advances p (n + 1) pc s pc' s') : ∃ pc₁ s₁ i, Advances p n pc s pc₁ s₁ ∧
    p.instructions[pc₁]? = some i ∧ execute p pc₁ s₁ i = .ok (.address pc', s') := by
  induction n generalizing pc s with
  | zero =>
      cases h with
      | step hi he rest =>
          cases rest
          exact ⟨_, _, _, .refl, hi, he⟩
  | succ n ih =>
      cases h with
      | step hi he rest =>
          obtain ⟨pc₁, s₁, j, front, hj, last⟩ := ih rest
          exact ⟨pc₁, s₁, j, .step hi he front, hj, last⟩

/-- Only a return leads beyond the end of the program. -/
theorem Goes.le_size (closed : p.Closed) (hi : p.instructions[pc]? = some i) (hr : i ≠ .ret)
    (goes : Goes p pc s i pc') : pc' ≤ p.size := by
  cases goes with
  | on => exact size_of_getElem? hi
  | branch _ known => exact closed.within _ _ known
  | back returns => exact (hr returns).elim

theorem Goes.of_ret (goes : Goes p pc s .ret pc') : (s.get .ra).toInt = pc' := by
  cases goes with
  | on other => exact (other rfl).elim
  | branch target => cases target
  | back _ word => exact word

/-- Where control is outside the program, it has come to the end, unless a return has led there. -/
theorem Advances.outside (closed : p.Closed) (h : Advances p n start s pc' s')
    (within : start ≤ p.size) (out : p.instructions[pc']? = none) :
    (pc' = p.size ∧ start = p.size) ∨ ∃ k pc₁ s₁ i, n = k + 1 ∧ Advances p k start s pc₁ s₁ ∧
      p.instructions[pc₁]? = some i ∧ Goes p pc₁ s₁ i pc' ∧ (i ≠ .ret → pc' = p.size) := by
  have beyond : p.size ≤ pc' := Array.getElem?_eq_none_iff.mp out
  cases n with
  | zero =>
      cases h
      have ended := Nat.le_antisymm within beyond
      exact .inl ⟨ended, ended⟩
  | succ k =>
      obtain ⟨pc₁, s₁, i, front, hi, last⟩ := h.last
      have goes := goes_of_execute last
      refine .inr ⟨k, pc₁, s₁, i, rfl, front, hi, goes, fun hr => ?_⟩
      exact Nat.le_antisymm (goes.le_size closed hi hr) beyond

/-- In an assembled program no branch fails. -/
theorem Fails.cases_of_closed (closed : p.Closed) (hi : p.instructions[pc]? = some i)
    (fails : Fails p s i f) : (∃ a, f = .misaligned a) ∨ (∃ a, f = .uninitialized a) ∨
      (i = .ret ∧ s.get .ra ≠ callerAddress ∧ s.get .ra < 0 ∧
        f = .pcOutOfRange (s.get .ra).toInt) := by
  cases fails with
  | load => exact .inl ⟨_, rfl⟩
  | unwritten => exact .inr (.inl ⟨_, rfl⟩)
  | store => exact .inl ⟨_, rfl⟩
  | branch ht unknown => exact (closed.target _ _ _ hi ht unknown).elim
  | ret foreign below => exact .inr (.inr ⟨rfl, foreign, below, rfl⟩)

end Control

/-- The last of the `n` instructions that a call executes is `i`, at the address `pc` and in the
store `s`. -/
def LastExecuted (m : Machine) (p : Image) (entry : String) (n pc : Nat) (s : Store)
    (i : Instruction) : Prop :=
  ∃ start before, p.address? entry = some start ∧ n = before + 1 ∧
    Advances p before start (entryStore m.store) pc s ∧ p.instructions[pc]? = some i

/-- A call of a label of an assembled program can fail at a misaligned address, at a word that has
not been written, at its limit, at the end of the program, where the label itself or the instruction
executed last has led, or at the word that a return executed last has found in `ra`. A call of any
other label does nothing. -/
theorem assembled_call_faults {text : String} {p : Image} (assembled : assemble text = .ok p)
    (m : Machine) (entry : String) :
    (p.address? entry ≠ none → ∀ f after, m.run p entry = (.error f, after) →
      (∃ a, f = .misaligned a) ∨ (∃ a, f = .uninitialized a) ∨ f = .stepLimit m.stepLimit ∨
      (f = .pcOutOfRange p.size ∧ (p.address? entry = some p.size ∨
        ∃ pc s i, m.LastExecuted p entry after.steps pc s i ∧ i ≠ .ret ∧ Goes p pc s i p.size)) ∨
      ∃ pc s, m.LastExecuted p entry after.steps pc s .ret ∧
        f = .pcOutOfRange (s.get .ra).toInt) ∧
    (p.address? entry = none → m.run p entry = (.error (.unknownEntry entry), m)) := by
  have closed := Image.closed_of_assemble assembled
  constructor
  · intro known f ⟨s', steps, limit⟩ run
    obtain ⟨start, address, -, ⟨exhausted, -, -⟩ | ⟨-, stops⟩⟩ := run_cases known run
    · cases exhausted
      exact .inr (.inr (.inl rfl))
    · cases stops with
      | outside front out =>
          refine .inr (.inr (.inr ?_))
          rcases front.outside closed (closed.within _ _ address) out with
            ⟨rfl, rfl⟩ | ⟨k, pc, s, i, count, before, hi, goes, plain⟩
          · exact .inl ⟨rfl, .inl address⟩
          · have last : m.LastExecuted p entry steps pc s i :=
              ⟨start, k, address, count, before, hi⟩
            by_cases returns : i = .ret
            · subst returns
              exact .inr ⟨pc, s, last, congrArg Fault.pcOutOfRange goes.of_ret.symm⟩
            · obtain rfl := plain returns
              exact .inl ⟨rfl, .inr ⟨pc, s, i, last, returns, goes⟩⟩
      | @closed n pc _ _ front closes =>
          cases closes with
          | @fault i _ hi he =>
              rcases (fails_of_execute he).cases_of_closed closed hi with
                misaligned | uninitialized | ⟨rfl, -, -, fault⟩
              · exact .inl misaligned
              · exact .inr (.inl uninitialized)
              · exact .inr (.inr (.inr (.inr ⟨pc, s', ⟨start, n, address, rfl, front, hi⟩, fault⟩)))
  · intro unknown
    simp only [Machine.run, unknown]

/-- A program that returns to an address behind its end. -/
def strayText : String := "main:\n\tli ra, 7\n\tret\n"

def strayImage : Image := ⟨#[.li .ra 7, .ret], [("main", 0)]⟩

theorem strayImage_call_faults : assemble strayText = .ok strayImage ∧
    strayImage.address? "main" ≠ none ∧
    ((new 9).run strayImage "main").1 = .error (.pcOutOfRange 7) ∧
    (∃ pc s, (new 9).LastExecuted strayImage "main" 2 pc s .ret ∧ (s.get .ra).toInt = 7) ∧
    strayImage.address? "start" = none ∧
    (new 9).run strayImage "start" = (.error (.unknownEntry "start"), new 9) := by
  have accepted : assemble strayText = .ok strayImage := by decide +kernel
  have known : strayImage.address? "main" ≠ none := by decide
  have run : (new 9).run strayImage "main" =
    (.error (.pcOutOfRange 7), ⟨(entryStore (new 9).store).set .ra 7, 2, 9⟩) := rfl
  have unknown : strayImage.address? "start" = none := by decide
  refine ⟨accepted, known, congrArg Prod.fst run, ?_, unknown,
    (assembled_call_faults accepted (new 9) "start").2 unknown⟩
  rcases (assembled_call_faults accepted (new 9) "main").1 known _ _ run with
    ⟨a, h⟩ | ⟨a, h⟩ | h | ⟨h, -⟩ | ⟨pc, s, last, h⟩
  · cases h
  · cases h
  · cases h
  · cases h
  · exact ⟨pc, s, last, (Fault.pcOutOfRange.inj h).symm⟩

end Machine

end IntLang
