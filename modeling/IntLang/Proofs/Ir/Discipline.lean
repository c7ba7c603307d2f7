import IntLang.Proofs.Ir.Labels
/-!
Disciplined code: labels are defined once, every position has one depth of the operand stack, and
addresses of slots are made only to be loaded from or stored to. The reference machine never gets
stuck on such code.
-/
namespace IntLang.Ir

namespace Op

def pops : Op → Nat
  | .push _ | .frameAddr _ | .br _ | .label _ => 0
  | .unary _ | .load | .pop | .ret | .beqz _ | .bnez _ => 1
  | .binary _ | .store => 2

def pushes : Op → Nat
  | .push _ | .frameAddr _ | .unary _ | .binary _ | .load | .store => 1
  | .pop | .ret | .br _ | .beqz _ | .bnez _ | .label _ => 0

def fallsThrough : Op → Bool
  | .ret | .br _ => false
  | _ => true

/-- The operation takes an address off the stack. -/
def isAccess : Op → Bool
  | .load | .store => true
  | _ => false

def slot? : Op → Option UInt32
  | .frameAddr k => some k
  | _ => none

end Op

/-- The operation at the position `i` keeps to the depths: it finds its operands, and control comes
with the right depth to wherever it goes on. A slot's address is used by the next operation. -/
structure Obeys (r : Routine) (depth : Nat → Nat) (i : Nat) (op : Op) : Prop where
  enough : op.pops ≤ depth i
  next : op.fallsThrough = true → depth (i + 1) = depth i - op.pops + op.pushes
  branch : ∀ l ∈ op.target?, ∃ j ∈ position? r.ops l, depth j = depth i - op.pops
  ret : op = .ret → depth i = 1
  slot : ∀ k ∈ op.slot?, k < r.localCount ∧ ∃ user ∈ r.ops[i + 1]?, user.isAccess = true
  access : op.isAccess = true → 0 < i ∧ ∃ maker ∈ r.ops[i - 1]?, maker.slot?.isSome = true

structure Disciplined (r : Routine) (depth : Nat → Nat) : Prop where
  once : (marks r.ops).Nodup
  start : depth 0 = 0
  finish : depth r.ops.length = 1
  obeys : ∀ i, ∀ op ∈ r.ops[i]?, Obeys r depth i op

section Checks

variable (r : Routine) (depth : Nat → Nat)

-- The numbers of slots are finitely many: without the instance given here, all of them are tried.
instance (i : Nat) (op : Op) : Decidable (Obeys r depth i op) :=
  have : Decidable (∀ k ∈ op.slot?, k < r.localCount ∧
      ∃ user ∈ r.ops[i + 1]?, user.isAccess = true) := Option.decidableForallMem _
  decidable_of_iff
    (op.pops ≤ depth i ∧ (op.fallsThrough = true → depth (i + 1) = depth i - op.pops + op.pushes) ∧
      (∀ l ∈ op.target?, ∃ j ∈ position? r.ops l, depth j = depth i - op.pops) ∧
      (op = .ret → depth i = 1) ∧
      (∀ k ∈ op.slot?, k < r.localCount ∧ ∃ user ∈ r.ops[i + 1]?, user.isAccess = true) ∧
      (op.isAccess = true → 0 < i ∧ ∃ maker ∈ r.ops[i - 1]?, maker.slot?.isSome = true))
    ⟨fun ⟨a, b, c, d, e, f⟩ => ⟨a, b, c, d, e, f⟩,
      fun ⟨a, b, c, d, e, f⟩ => ⟨a, b, c, d, e, f⟩⟩

instance : Decidable (Disciplined r depth) :=
  decidable_of_iff
    ((marks r.ops).Nodup ∧ depth 0 = 0 ∧ depth r.ops.length = 1 ∧
      ∀ i, i < r.ops.length → ∀ op ∈ r.ops[i]?, Obeys r depth i op)
    ⟨fun ⟨once, start, finish, obeys⟩ => ⟨once, start, finish, fun i op hop =>
        obeys i (List.getElem?_eq_some_iff.mp hop).1 op hop⟩,
      fun ⟨once, start, finish, obeys⟩ => ⟨once, start, finish, fun i _ => obeys i⟩⟩

end Checks

structure Regular (r : Routine) (depth : Nat → Nat) (c : State) : Prop where
  pc_le : c.pc ≤ r.ops.length
  height : c.stack.length = depth c.pc
  address : ∀ op ∈ r.ops[c.pc]?, op.isAccess = true →
    ∃ k rest, c.stack = k.toInt32 :: rest ∧ k < r.localCount

section Runs

variable {r : Routine} {depth : Nat → Nat} {c c' : State}

theorem Disciplined.targets (d : Disciplined r depth) :
    ∀ op ∈ r.ops, ∀ l, op.target? = some l → l ∈ marks r.ops := by
  intro op hop l hl
  obtain ⟨i, hi⟩ := List.mem_iff_getElem?.mp hop
  obtain ⟨j, hj, -⟩ := (d.obeys i op hi).branch l hl
  exact mem_marks.mpr (List.mem_of_getElem? (getElem?_of_position? hj))

theorem Regular.start (d : Disciplined r depth) (slots : Slots) :
    Regular r depth (.start slots) where
  pc_le := Nat.zero_le _
  height := d.start.symm
  address op hop haccess := by
    have := ((d.obeys 0 op hop).access haccess).1
    omega

theorem Disciplined.settled (d : Disciplined r depth) {i : Nat} {op : Op}
    (hop : r.ops[i]? = some op) (hslot : op.slot? = none) :
    ∀ user ∈ r.ops[i + 1]?, user.isAccess = false := by
  intro user huser
  cases ha : user.isAccess with
  | false => rfl
  | true =>
      obtain ⟨-, maker, hmaker, hsome⟩ := (d.obeys (i + 1) user huser).access ha
      rw [Nat.add_sub_cancel, hop] at hmaker
      cases hmaker
      rw [hslot] at hsome
      cases hsome

theorem Regular.of_settled {pc : Nat} {stack : List Word} {slots : Slots}
    (hle : pc ≤ r.ops.length) (height : stack.length = depth pc)
    (settled : ∀ user ∈ r.ops[pc]?, user.isAccess = false) :
    Regular r depth ⟨pc, stack, slots⟩ where
  pc_le := hle
  height := height
  address op hop haccess := by
    rw [settled op hop] at haccess
    cases haccess

theorem Regular.next (d : Disciplined r depth) {i : Nat} {op : Op} (hop : r.ops[i]? = some op)
    (hslot : op.slot? = none) (hf : op.fallsThrough = true) {stack : List Word} {slots : Slots}
    (height : stack.length = depth i - op.pops + op.pushes) :
    Regular r depth ⟨i + 1, stack, slots⟩ := by
  have hlt : i < r.ops.length := (List.getElem?_eq_some_iff.mp hop).1
  exact .of_settled hlt (height.trans ((d.obeys i op hop).next hf).symm) (d.settled hop hslot)

theorem Regular.jump (d : Disciplined r depth) {i : Nat} {op : Op} (hop : r.ops[i]? = some op)
    {l : Label} (hl : op.target? = some l) {stack : List Word}
    (height : stack.length = depth i - op.pops) {s : State} {o : Except Outcome State}
    (h : Ir.jump r.ops l stack s = o) :
    ∃ j, position? r.ops l = some j ∧ o = .ok ⟨j, stack, s.slots⟩ ∧
      Regular r depth ⟨j, stack, s.slots⟩ := by
  obtain ⟨j, hj, hdepth⟩ := (d.obeys i op hop).branch l hl
  have hlabel := getElem?_of_position? hj
  refine ⟨j, hj, ?_, ?_⟩
  · rw [← h, Ir.jump, hj]
  · apply Regular.of_settled (Nat.le_of_lt (List.getElem?_eq_some_iff.mp hlabel).1)
      (height.trans hdepth.symm)
    intro user huser
    rw [hlabel] at huser
    cases huser
    rfl

end Runs

end IntLang.Ir
