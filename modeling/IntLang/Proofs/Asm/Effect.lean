import IntLang.Proofs.Asm.Blocks
import IntLang.Proofs.Ir.Discipline
/-!
The effect of a block on any store. The block of an operation takes its operands from the stack in
memory, wherever that lies and whatever the address points to, and leaves the result on top.
-/
namespace IntLang

open Asm (Register)

/-- The store holds the operands of the operation, none that moves control. What it makes of them is
the word that it leaves on top of the stack; `pop` leaves none. -/
inductive Store.Yields (s : Store) : Ir.Op → Option Word → Prop
  | push (v : Word) : Yields s (.push v) (some v)
  | unary {op a} : s.memory.word? (s.get .sp) = some a →
      Yields s (.unary op) (some (op.value a))
  | binary {op a b} : s.memory.word? (s.get .sp) = some b →
      s.memory.word? (s.get .sp + 4) = some a → Yields s (.binary op) (some (op.value a b))
  | frameAddr (k : UInt32) :
      Yields s (.frameAddr k) (some (s.get .fp - .ofNat (12 + 4 * k.toNat)))
  | load {a w} : s.memory.word? (s.get .sp) = some a → a.Aligned → s.memory.word? a = some w →
      Yields s .load (some w)
  | store {a w} : s.memory.word? (s.get .sp) = some a → a.Aligned →
      s.memory.word? (s.get .sp + 4) = some w → Yields s .store (some w)
  | pop : Yields s .pop none

/-- What the operation changes. Behind it `sp` has moved by the words taken and put, the result lies
on top, and `fp`, `ra` and `a0` are as before. Of the memory, only the word of the result has
changed, and for `store` the addressed word: it holds the word that lay below the address. -/
structure Store.Effect (s : Store) (op : Ir.Op) (result : Option Word) (s' : Store) : Prop where
  sp : s'.get .sp = s.get .sp + 4 * (.ofNat op.pops - .ofNat op.pushes)
  top : ∀ v ∈ result, s'.memory.word? (s'.get .sp) = some v
  registers : ∀ r ∈ [Register.fp, .ra, .a0], s'.get r = s.get r
  addressed : op = .store → ∀ a ∈ s.memory.word? (s.get .sp),
    s'.memory.word? a = s.memory.word? (s.get .sp + 4)
  memory : ∀ a, (result.isSome → a ≠ s'.get .sp) →
    (op = .store → s.memory.word? (s.get .sp) ≠ some a) → s'.memory.word? a = s.memory.word? a

namespace Asm

variable {s : Store} {op : Ir.Op} {exit : String} {sp v : Word}

/-- A block that writes nothing but its result. -/
theorem effect_of_leads (leads : s.Leads (opCode exit op) sp (s.memory.put sp v))
    (moved : sp = s.get .sp + 4 * (.ofNat op.pops - .ofNat op.pushes)) (other : op ≠ .store) :
    ∃ s', s.afterAll (opCode exit op) = .ok s' ∧ s.Effect op (some v) s' := by
  obtain ⟨s', code, hsp, hmem, kept⟩ := leads
  refine ⟨s', code, hsp.trans moved, ?_, kept, fun h => (other h).elim, ?_⟩
  · rintro w ⟨⟩
    rw [hmem, hsp, Memory.word?_put, if_pos rfl]
  · intro a away _
    rw [hmem, Memory.word?_put, if_neg]
    rintro rfl
    exact away rfl hsp.symm

/-- Wherever the block of an operation stands, it runs through from every store that has an aligned
stack and holds the operands, and does what the operation says. The address of a load or a store
may be one of the stack. -/
theorem block_performs_effect {result : Option Word} (aligned : (s.get .sp).Aligned)
    (h : s.Yields op result) (exit : String) :
    ∃ s', Machine.Performs (opCode exit op) s s' ∧ s.Effect op result s' := by
  have straight : ∀ i ∈ opCode exit op, i.isStraight = true := by
    apply straight_opCode <;> cases h <;> simp [Ir.Op.target?]
  suffices effect : ∃ s', s.afterAll (opCode exit op) = .ok s' ∧ s.Effect op result s' by
    obtain ⟨s', code, effect⟩ := effect
    exact ⟨s', .of_afterAll straight code, effect⟩
  have unmoved : s.get .sp = s.get .sp + 4 * (.ofNat 1 - .ofNat 1) := (Int32.add_zero _).symm
  have lowered : s.get .sp - 4 = s.get .sp + 4 * (.ofNat 0 - .ofNat 1) :=
    Int32.sub_eq_add_neg _ _
  have raised : s.get .sp + 4 = s.get .sp + 4 * (.ofNat 2 - .ofNat 1) := rfl
  cases h with
  | push v => exact effect_of_leads (push_leads exit aligned v) lowered nofun
  | unary ha => exact effect_of_leads (unary_leads exit aligned ha _) unmoved nofun
  | binary hb ha => exact effect_of_leads (binary_leads exit aligned hb ha _) raised nofun
  | frameAddr k =>
      have leads := frameAddr_leads exit aligned k
      rw [Frame.offsetOf_eq, cell_eq_sub, Nat.mul_add] at leads
      exact effect_of_leads leads lowered nofun
  | load ha haligned hw =>
      exact effect_of_leads (load_leads exit aligned ha haligned hw) unmoved nofun
  | @store a w ha haligned hw =>
      obtain ⟨s', code, hsp, hmem, kept⟩ := store_leads exit aligned ha haligned hw
      refine ⟨s', code, hsp, ?_, kept, ?_, ?_⟩
      · rintro v ⟨⟩
        rw [hmem, hsp, Memory.word?_put, hw, ite_self]
      · rintro - b hb
        cases ha.symm.trans hb
        rw [hmem, Memory.word?_put, if_pos rfl, hw]
      · intro b _ other
        rw [hmem, Memory.word?_put, if_neg]
        rintro rfl
        exact other rfl ha
  | pop =>
      obtain ⟨s', code, hsp, hmem, kept⟩ := pop_leads exit s
      exact ⟨s', code, hsp, nofun, kept, nofun, fun a _ _ => by rw [hmem]⟩

/-- An address that is its own word, with a word below it. -/
def selfAddressed : Store where
  registers := ⟨1, 0x1000, 3, 4, 5, 6, 7⟩
  memory := (Memory.empty.put 0x1000 0x1000).put 0x1004 8

theorem selfAddressed_stored : (selfAddressed.get .sp).Aligned ∧
    selfAddressed.Yields .store (some 8) ∧
    ∃ s', Machine.Performs (opCode ".Lmain_exit" .store) selfAddressed s' ∧
      s'.get .sp = 0x1004 ∧ s'.memory.word? 0x1004 = some 8 ∧ s'.memory.word? 0x1000 = some 8 ∧
      s'.get .fp = 3 := by
  have aligned : (selfAddressed.get .sp).Aligned := by decide
  have yields : selfAddressed.Yields .store (some 8) :=
    .store (a := 0x1000) (by decide) (by decide) (by decide)
  obtain ⟨s', performs, effect⟩ := block_performs_effect aligned yields ".Lmain_exit"
  have moved : s'.get .sp = 0x1004 := effect.sp
  refine ⟨aligned, yields, s', performs, moved, moved ▸ effect.top 8 rfl, ?_,
    effect.registers .fp (by simp)⟩
  rw [effect.addressed rfl 0x1000 (by decide)]
  decide

end Asm

end IntLang
