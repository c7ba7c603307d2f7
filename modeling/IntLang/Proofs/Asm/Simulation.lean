import IntLang.Proofs.Asm.Layout
import IntLang.Proofs.Ir.Discipline
/-!
The program of a disciplined routine simulates the reference machine on its code. Between blocks
the operand stack and the slots lie in the frame of the routine; every step of the reference machine
is the run of one block.
-/
namespace IntLang.Asm

open Ir (State Slots Outcome Regular Disciplined)
open Machine (Steps Has)

/-- The operands as they lie in memory: where an address is about to be used, the address of a slot
takes the place of its number. -/
def operands (r : Ir.Routine) (top : Word) (c : State) : List Word :=
  if (r.ops[c.pc]?).any Ir.Op.isAccess then
    match c.stack with
    | a :: rest => cell top (3 + a.toUInt32.toNat) :: rest
    | [] => []
  else c.stack

/-- What a run of a routine starts from: disciplined code, a frame below `top` that has room for the
deepest stack, and a caller to return to. -/
structure Prepared (r : Ir.Routine) (depth : Nat → Nat) (top : Word) (limit : Nat)
    (entry : Store) : Prop where
  name : RoutineName r.name
  disciplined : Disciplined r depth
  aligned : top.Aligned
  limit_lt : limit < 0x40000000
  room : ∀ i, i ≤ r.ops.length → 2 + r.localCount.toNat + depth i ≤ limit
  caller : entry.get .ra = Machine.callerAddress

/-- The machine before the block of an operation represents the reference machine before the
operation. -/
structure Represents (r : Ir.Routine) (depth : Nat → Nat) (top : Word) (limit : Nat)
    (entry : Store) (c : State) (s : Store) : Prop where
  regular : Regular r depth c
  fp : s.get .fp = top
  framed : Framed top r.localCount.toNat limit entry (operands r top c) c.slots (s.get .sp) s.memory

/-- The result of the machine that stands for an outcome of the reference machine. -/
inductive Shows (top : Word) : Outcome → Except Fault Word → Prop
  | returned {v} : Shows top (.returned v) (.ok v)
  | unassigned {k : UInt32} : Shows top (.unassigned k)
      (.error (.uninitialized (cell top (3 + k.toNat)).toUInt32))

/-- What the end of a run leaves behind: nothing has changed outside the frame, and a run that has
returned has restored the registers of its caller. -/
structure Restored (top : Word) (limit : Nat) (entry : Store) (result : Except Fault Word)
    (s : Store) : Prop where
  outside : ∀ a, (∀ n, 0 < n → n ≤ limit → a ≠ cell top n) →
    s.memory.word? a = entry.memory.word? a
  registers : ∀ v, result = .ok v →
    s.get .sp = top ∧ s.get .fp = entry.get .fp ∧ s.get .ra = entry.get .ra

section Simulation

variable {r : Ir.Routine} {depth : Nat → Nat} {top : Word} {limit : Nat} {entry : Store}
  (annotate : Bool) {c c' : State} {s : Store}

theorem operands_of_settled (h : ∀ user ∈ r.ops[c.pc]?, user.isAccess = false) :
    operands r top c = c.stack := by
  rw [operands, if_neg]
  rw [Option.any_eq_true_iff_get, not_exists]
  intro hsome
  rw [h _ (Option.get_mem hsome)]
  exact Bool.false_ne_true

theorem operands_of_access {op : Ir.Op} (hop : r.ops[c.pc]? = some op) (ha : op.isAccess = true)
    {k : UInt32} {rest : List Word} (hs : c.stack = k.toInt32 :: rest) :
    operands r top c = cell top (3 + k.toNat) :: rest := by
  have access : (r.ops[c.pc]?).any Ir.Op.isAccess = true := by rw [hop]; exact ha
  rw [operands, if_pos access, hs]
  rfl

/-- The instructions that the end of a run executes before the last one. A return comes from the
exit, and the fault of a load at the second instruction of its block. -/
def lastSteps (r : Ir.Routine) (c : State) : Outcome → Nat
  | .returned _ => blockSize r c.pc + (pop .a0 ++ (routineFrame r).restore).length
  | .unassigned _ => 1
  | .stuck => 0

/-- The run of a block, each of its instructions once, that leads to the representation of another
state. Behind a block without instructions control goes on. -/
def Moves (annotate : Bool) (r : Ir.Routine) (depth : Nat → Nat) (top : Word) (limit : Nat)
    (entry : Store) (c : State) (s : Store) (c' : State) : Prop :=
  ∃ s', Steps (routineImage annotate r) (blockSize r c.pc) (blockAddress r c.pc) s
      (blockAddress r c'.pc) s' ∧
    Represents r depth top limit entry c' s' ∧ (blockSize r c.pc = 0 → c'.pc = c.pc + 1)

/-- A run to the end, with the result for that outcome. -/
def Finishes (annotate : Bool) (r : Ir.Routine) (top : Word) (limit : Nat) (entry : Store)
    (c : State) (s : Store) (o : Outcome) : Prop :=
  ∃ s' result, Machine.Ends (routineImage annotate r) (lastSteps r c o) (blockAddress r c.pc) s
      result s' ∧
    Shows top o result ∧ Restored top limit entry result s'

/-- The machine carries out a step of the reference machine. -/
def Carries (annotate : Bool) (r : Ir.Routine) (depth : Nat → Nat) (top : Word) (limit : Nat)
    (entry : Store) (c : State) (s : Store) : Except Outcome State → Prop
  | .ok c' => Moves annotate r depth top limit entry c s c'
  | .error o => Finishes annotate r top limit entry c s o

theorem Represents.plain (rep : Represents r depth top limit entry c s) {op : Ir.Op}
    (hop : r.ops[c.pc]? = some op) (ha : op.isAccess = false) :
    Framed top r.localCount.toNat limit entry c.stack c.slots (s.get .sp) s.memory := by
  have settled : ∀ user ∈ r.ops[c.pc]?, user.isAccess = false := by
    intro user huser
    rw [hop] at huser
    cases huser
    exact ha
  have framed := rep.framed
  rwa [operands_of_settled settled] at framed

theorem Represents.of_settled {stack : List Word} {slots : Slots} {pc : Nat}
    (regular : Regular r depth ⟨pc, stack, slots⟩)
    (settled : ∀ user ∈ r.ops[pc]?, user.isAccess = false) (fp : s.get .fp = top)
    (framed : Framed top r.localCount.toNat limit entry stack slots (s.get .sp) s.memory) :
    Represents r depth top limit entry ⟨pc, stack, slots⟩ s := by
  refine ⟨regular, fp, ?_⟩
  rwa [operands_of_settled (c := ⟨pc, stack, slots⟩) settled]

theorem Represents.access (rep : Represents r depth top limit entry c s) {op : Ir.Op}
    (hop : r.ops[c.pc]? = some op) (ha : op.isAccess = true) :
    ∃ k rest, c.stack = k.toInt32 :: rest ∧ k < r.localCount ∧
      Framed top r.localCount.toNat limit entry (cell top (3 + k.toNat) :: rest) c.slots
        (s.get .sp) s.memory := by
  obtain ⟨k, rest, hs, hk⟩ := rep.regular.address op hop ha
  have framed := rep.framed
  rw [operands_of_access hop ha hs] at framed
  exact ⟨k, rest, hs, hk, framed⟩

theorem Prepared.room_behind (prep : Prepared r depth top limit entry) {i : Nat} {op : Ir.Op}
    (hop : r.ops[i]? = some op) (hf : op.fallsThrough = true) {height : Nat}
    (h : height = depth i - op.pops + op.pushes) : 2 + r.localCount.toNat + height ≤ limit := by
  have hlt : i < r.ops.length := (List.getElem?_eq_some_iff.mp hop).1
  have next := (prep.disciplined.obeys i op hop).next hf
  have := prep.room (i + 1) hlt
  omega

section Step

variable (prep : Prepared r depth top limit entry) (rep : Represents r depth top limit entry c s)

include prep rep

theorem Represents.advance {op : Ir.Op} (hop : r.ops[c.pc]? = some op) (ht : op.target? = none)
    (hr : op ≠ .ret) (hslot : op.slot? = none)
    {stack : List Word} {slots : Slots} {sp : Word} {memory : Memory}
    (leads : s.Leads (opCode (exitSymbol r.name) op) sp memory)
    (framed : Framed top r.localCount.toNat limit entry stack slots sp memory)
    (height : stack.length = depth c.pc - op.pops + op.pushes) :
    Moves annotate r depth top limit entry c s ⟨c.pc + 1, stack, slots⟩ := by
  have through : op.fallsThrough = true := by
    cases op with
    | ret => exact (hr rfl).elim
    | br l => cases ht
    | _ => rfl
  obtain ⟨s', code, rfl, rfl, kept⟩ := leads
  have steps := Steps.of_afterAll (has_block annotate hop)
    (straight_opCode _ ht hr) code
  rw [← blockAddress_succ hop, ← blockSize_eq hop] at steps
  refine ⟨s', steps, ?_, fun _ => rfl⟩
  exact .of_settled (.next prep.disciplined hop hslot through height)
    (prep.disciplined.settled hop hslot) ((kept .fp (by simp)).trans rep.fp) framed

theorem Represents.enough {op : Ir.Op} (hop : r.ops[c.pc]? = some op) :
    op.pops ≤ c.stack.length ∧ c.stack.length = depth c.pc := by
  have height := rep.regular.height
  have := (prep.disciplined.obeys c.pc op hop).enough
  omega

theorem Represents.push {v : Word} (hop : r.ops[c.pc]? = some (.push v)) :
    Carries annotate r depth top limit entry c s (Ir.perform r.ops c (.push v)) := by
  obtain ⟨-, height⟩ := rep.enough prep hop
  have framed := rep.plain hop rfl
  have behind : (v :: c.stack).length =
      depth c.pc - (Ir.Op.push v).pops + (Ir.Op.push v).pushes := by
    simp [height, Ir.Op.pops, Ir.Op.pushes]
  have room := prep.room_behind hop rfl behind
  rw [List.length_cons, ← Nat.add_assoc] at room
  exact rep.advance annotate prep hop rfl (by simp) rfl
    (push_leads _ (framed.aligned prep.aligned) v) (framed.push prep.limit_lt room v) behind

theorem Represents.unary {op : UnaryOp} (hop : r.ops[c.pc]? = some (.unary op)) :
    Carries annotate r depth top limit entry c s (Ir.perform r.ops c (.unary op)) := by
  obtain ⟨enough, height⟩ := rep.enough prep hop
  obtain ⟨a, rest, hs⟩ := List.exists_cons_of_length_pos enough
  have framed := rep.plain hop rfl
  rw [hs] at framed height
  have behind : (op.value a :: rest).length =
      depth c.pc - (Ir.Op.unary op).pops + (Ir.Op.unary op).pushes := by
    simp [← height, Ir.Op.pops, Ir.Op.pushes]
  have room := prep.room_behind hop rfl behind
  rw [List.length_cons, ← Nat.add_assoc] at room
  have pushed := framed.drop.push prep.limit_lt room (op.value a)
  rw [Int32.add_sub_cancel] at pushed
  simp only [Ir.perform, hs]
  exact rep.advance annotate prep hop rfl (by simp) rfl
    (unary_leads _ (framed.aligned prep.aligned) framed.word?_sp op) pushed behind

theorem Represents.binary {op : BinaryOp} (hop : r.ops[c.pc]? = some (.binary op)) :
    Carries annotate r depth top limit entry c s (Ir.perform r.ops c (.binary op)) := by
  obtain ⟨enough, height⟩ := rep.enough prep hop
  obtain ⟨b, rest, hs⟩ := List.exists_cons_of_length_pos (Nat.lt_of_succ_lt enough)
  rw [hs] at enough height
  obtain ⟨a, rest, rfl⟩ := List.exists_cons_of_length_pos (Nat.lt_of_succ_lt_succ enough)
  have framed := rep.plain hop rfl
  rw [hs] at framed
  have behind : (op.value a b :: rest).length =
      depth c.pc - (Ir.Op.binary op).pops + (Ir.Op.binary op).pushes := by
    simp [← height, Ir.Op.pops, Ir.Op.pushes]
  have room := prep.room_behind hop rfl behind
  rw [List.length_cons, ← Nat.add_assoc] at room
  have pushed := framed.drop.drop.push prep.limit_lt room (op.value a b)
  rw [Int32.add_sub_cancel] at pushed
  simp only [Ir.perform, hs]
  exact rep.advance annotate prep hop rfl (by simp) rfl
    (binary_leads _ (framed.aligned prep.aligned) framed.word?_sp framed.drop.word?_sp op) pushed
    behind

theorem Represents.pop (hop : r.ops[c.pc]? = some .pop) :
    Carries annotate r depth top limit entry c s (Ir.perform r.ops c .pop) := by
  obtain ⟨enough, height⟩ := rep.enough prep hop
  obtain ⟨a, rest, hs⟩ := List.exists_cons_of_length_pos enough
  have framed := rep.plain hop rfl
  rw [hs] at framed height
  have behind : rest.length = depth c.pc - Ir.Op.pop.pops + Ir.Op.pop.pushes := by
    simp [← height, Ir.Op.pops, Ir.Op.pushes]
  simp only [Ir.perform, hs]
  exact rep.advance annotate prep hop rfl (by simp) rfl (pop_leads _ s) framed.drop behind

theorem Represents.label {l : Ir.Label} (hop : r.ops[c.pc]? = some (.label l)) :
    Carries annotate r depth top limit entry c s (Ir.perform r.ops c (.label l)) := by
  obtain ⟨-, height⟩ := rep.enough prep hop
  have none : s.Leads (opCode (exitSymbol r.name) (.label l)) (s.get .sp) s.memory :=
    ⟨s, rfl, rfl, rfl, fun _ _ => rfl⟩
  exact rep.advance annotate prep hop rfl (by simp) rfl none (rep.plain hop rfl) height

/-- The address of a slot is made for the operation behind, where it takes the place of the slot's
number. -/
theorem Represents.frameAddr {k : UInt32} (hop : r.ops[c.pc]? = some (.frameAddr k)) :
    Carries annotate r depth top limit entry c s (Ir.perform r.ops c (.frameAddr k)) := by
  obtain ⟨-, height⟩ := rep.enough prep hop
  have obeys := prep.disciplined.obeys c.pc _ hop
  obtain ⟨hk, user, huser, access⟩ := obeys.slot k rfl
  have hlt : c.pc < r.ops.length := (List.getElem?_eq_some_iff.mp hop).1
  have framed := rep.plain hop rfl
  have behind : (k.toInt32 :: c.stack).length =
      depth c.pc - (Ir.Op.frameAddr k).pops + (Ir.Op.frameAddr k).pushes := by
    simp [height, Ir.Op.pops, Ir.Op.pushes]
  have room := prep.room_behind hop rfl behind
  rw [List.length_cons, ← Nat.add_assoc] at room
  have pushed := framed.push prep.limit_lt room (cell top (3 + k.toNat))
  obtain ⟨s', code, hsp, hmem, kept⟩ := frameAddr_leads (exitSymbol r.name)
    (framed.aligned prep.aligned) k
  rw [rep.fp, Frame.offsetOf_eq] at hmem
  have steps := Steps.of_afterAll (has_block annotate hop)
    (straight_opCode _ rfl (by simp)) code
  rw [← blockAddress_succ hop, ← blockSize_eq hop] at steps
  have regular : Regular r depth ⟨c.pc + 1, k.toInt32 :: c.stack, c.slots⟩ :=
    ⟨hlt, behind.trans (obeys.next rfl).symm, fun _ _ _ => ⟨k, c.stack, rfl, hk⟩⟩
  refine ⟨s', steps, ⟨regular, (kept .fp (by simp)).trans rep.fp, ?_⟩, fun _ => rfl⟩
  rw [operands_of_access (c := c.next (k.toInt32 :: c.stack)) huser access rfl, hsp, hmem]
  exact pushed

theorem Represents.load (hop : r.ops[c.pc]? = some .load) :
    Carries annotate r depth top limit entry c s (Ir.perform r.ops c .load) := by
  obtain ⟨-, height⟩ := rep.enough prep hop
  obtain ⟨k, rest, hs, hk, framed⟩ := rep.access hop rfl
  have aligned := framed.aligned prep.aligned
  have held := framed.slot k hk
  simp only [Ir.perform, hs, UInt32.toUInt32_toInt32]
  rw [hs] at height
  cases hv : c.slots k with
  | some v =>
      rw [hv] at held
      have behind : (v :: rest).length = depth c.pc - Ir.Op.load.pops + Ir.Op.load.pushes := by
        simp [← height, Ir.Op.pops, Ir.Op.pushes]
      have room := prep.room_behind hop rfl behind
      rw [List.length_cons, ← Nat.add_assoc] at room
      have pushed := framed.drop.push prep.limit_lt room v
      rw [Int32.add_sub_cancel] at pushed
      exact rep.advance annotate prep hop rfl (by simp) rfl
        (load_leads _ aligned framed.word?_sp (prep.aligned.cell _) held) pushed behind
  | none =>
      rw [hv] at held
      obtain ⟨first, fault⟩ := load_fault framed.word?_sp aligned (prep.aligned.cell _) held
      have block : Has (routineImage annotate r) (blockAddress r c.pc)
          ([.lw .t1 0 .sp] ++ [.lw .t1 0 .t1, .sw .t1 0 .sp]) := has_block annotate hop
      have steps := Steps.of_afterAll block.left (by simp; rfl) first
      have faults := Machine.Ends.of_fault block.right.head
        (by rw [Machine.execute_of_isStraight rfl, fault]; rfl)
      exact ⟨_, _, .of_steps steps faults, .unassigned, framed.outside, by simp⟩

theorem Represents.store (hop : r.ops[c.pc]? = some .store) :
    Carries annotate r depth top limit entry c s (Ir.perform r.ops c .store) := by
  obtain ⟨enough, height⟩ := rep.enough prep hop
  obtain ⟨k, rest, hs, hk, framed⟩ := rep.access hop rfl
  rw [hs] at enough height
  obtain ⟨v, rest, rfl⟩ := List.exists_cons_of_length_pos (Nat.lt_of_succ_lt_succ enough)
  have behind : (v :: rest).length = depth c.pc - Ir.Op.store.pops + Ir.Op.store.pushes := by
    simp [← height, Ir.Op.pops, Ir.Op.pushes]
  simp only [Ir.perform, hs, UInt32.toUInt32_toInt32]
  exact rep.advance annotate prep hop rfl (by simp) rfl
    (store_leads _ (framed.aligned prep.aligned) framed.word?_sp (prep.aligned.cell _)
      framed.drop.word?_sp)
    (framed.drop.assign prep.limit_lt hk v) behind

end Step

/-- The block of a return goes to the exit. -/
theorem steps_ret {i : Nat} (hop : r.ops[i]? = some .ret) (s : Store) :
    Steps (routineImage annotate r) (blockSize r i) (blockAddress r i) s
      (blockAddress r r.ops.length) s := by
  have taken : Machine.execute (routineImage annotate r) (blockAddress r i) s
      (.j (exitSymbol r.name)) = .ok (.address (blockAddress r r.ops.length), s) := by
    rw [Machine.execute, Machine.branchTo, address?_exitSymbol]
    rfl
  rw [blockSize_eq hop]
  exact .one (has_block annotate hop).head (by simp) taken

section Branches

variable (prep : Prepared r depth top limit entry)

include prep

theorem Prepared.jump {op : Ir.Op} (hop : r.ops[c.pc]? = some op) {l : Ir.Label}
    (hl : op.target? = some l) {stack : List Word} (height : stack.length = depth c.pc - op.pops)
    {n pc : Nat} {s₁ : Store} {i : Instruction}
    (whole : n + 1 = (opCode (exitSymbol r.name) op).length) (fp : s₁.get .fp = top)
    (framed : Framed top r.localCount.toNat limit entry stack c.slots (s₁.get .sp) s₁.memory)
    (steps : Steps (routineImage annotate r) n (blockAddress r c.pc) s pc s₁)
    (hi : (routineImage annotate r).instructions[pc]? = some i) (hr : i ≠ .ret)
    (taken : Machine.execute (routineImage annotate r) pc s₁ i =
      (Machine.branchTo (routineImage annotate r) (labelSymbol l)).map (·, s₁)) :
    Carries annotate r depth top limit entry c s (Ir.jump r.ops l stack c) := by
  obtain ⟨j, hj, hjump, regular⟩ := Regular.jump prep.disciplined hop hl height (s := c) rfl
  have label := Ir.getElem?_of_position? hj
  have address := address?_labelSymbol annotate prep.name prep.disciplined.once label
  rw [Machine.branchTo, address] at taken
  rw [hjump]
  have moved := steps.trans (.one hi hr taken)
  rw [whole, ← blockSize_eq hop] at moved
  refine ⟨s₁, moved, ?_, ?_⟩
  · refine .of_settled regular ?_ fp framed
    intro user huser
    rw [label] at huser
    cases huser
    rfl
  · intro none
    rw [blockSize_eq hop, ← whole] at none
    cases none

theorem Prepared.exit {v : Word} {slots : Slots} (framed : Framed top r.localCount.toNat limit entry
      [v] slots (s.get .sp) s.memory) :
    ∃ s', Machine.Ends (routineImage annotate r) (pop .a0 ++ (routineFrame r).restore).length
        (blockAddress r r.ops.length) s (.ok v) s' ∧
      Restored top limit entry (.ok v) s' := by
  obtain ⟨s₁, popped, ha₁, hsp₁, hmem₁, -⟩ := pop_spec (r := .a0) (framed.aligned prep.aligned)
    framed.word?_sp (by decide) (by decide)
  have bottom := framed.drop.sp_eq
  rw [← hsp₁] at bottom
  obtain ⟨s₂, restored, hsp₂, hfp₂, hra₂, ha₂, hmem₂⟩ := (routineFrame r).restore_spec
    prep.aligned bottom (by rw [hmem₁, framed.savedRa]) (by rw [hmem₁, framed.savedFp])
  have code : s.afterAll (pop .a0 ++ (routineFrame r).restore) = .ok s₂ := by
    rw [Store.afterAll_append popped, restored]
  have exit := has_exit annotate (r := r)
  rw [exitCode_eq] at exit
  have steps := Steps.of_afterAll exit.left straight_exit code
  have returns := Machine.Ends.of_ret exit.right.head (hra₂.trans prep.caller)
  rw [ha₂, ha₁] at returns
  have ends := Machine.Ends.of_steps steps returns
  rw [Nat.add_zero] at ends
  refine ⟨s₂, ends, ?_, fun _ _ => ⟨hsp₂, hfp₂, hra₂⟩⟩
  intro a ha
  rw [hmem₂, hmem₁, framed.outside a ha]

variable (rep : Represents r depth top limit entry c s)

include rep

theorem Represents.br {l : Ir.Label} (hop : r.ops[c.pc]? = some (.br l)) :
    Carries annotate r depth top limit entry c s (Ir.perform r.ops c (.br l)) := by
  obtain ⟨-, height⟩ := rep.enough prep hop
  exact prep.jump annotate hop rfl height rfl rep.fp (rep.plain hop rfl) .refl
    (has_block annotate hop).head (by simp) rfl

theorem Represents.conditional {op : Ir.Op} {l : Ir.Label} (condition : Condition)
    (hop : r.ops[c.pc]? = some op) (hl : op.target? = some l)
    (code : opCode (exitSymbol r.name) op =
      Asm.pop .t1 ++ [.branch condition .t1 (labelSymbol l)])
    (counts : op.pops = 1 ∧ op.pushes = 0 ∧ op.isAccess = false ∧ op.slot? = none ∧
      op.fallsThrough = true)
    {a : Word} {rest : List Word} (hs : c.stack = a :: rest) :
    Carries annotate r depth top limit entry c s
      (if condition.holds a then Ir.jump r.ops l rest c else .ok (c.next rest)) := by
  obtain ⟨pops, pushes, access, slot, through⟩ := counts
  obtain ⟨-, height⟩ := rep.enough prep hop
  have framed := rep.plain hop access
  rw [hs] at framed height
  obtain ⟨s₁, popped, ht, hsp, hmem, kept⟩ := pop_spec (r := .t1) (framed.aligned prep.aligned)
    framed.word?_sp (by decide) (by decide)
  have fp : s₁.get .fp = top := (kept .fp (by decide) (by decide)).trans rep.fp
  have dropped := framed.drop
  rw [← hsp, ← hmem] at dropped
  have block := has_block annotate hop
  rw [code] at block
  have steps := Steps.of_afterAll block.left (straight_pop .t1) popped
  have behind : rest.length = depth c.pc - op.pops := by
    simp [← height, pops]
  have branch := block.right.head
  cases holds : condition.holds a with
  | true =>
      rw [if_pos rfl]
      apply prep.jump annotate hop hl behind (by rw [code]; rfl) fp dropped steps branch (by simp)
      rw [Machine.execute, ht, if_pos holds]
  | false =>
      rw [if_neg Bool.false_ne_true]
      have falls := Steps.one (s := s₁) branch (by simp)
        (by rw [Machine.execute, ht, holds, if_neg Bool.false_ne_true])
      have next : blockAddress r c.pc + (Asm.pop .t1).length + 1 = blockAddress r (c.pc + 1) := by
        rw [blockAddress_succ hop, code]
        rfl
      rw [next] at falls
      have moved := steps.trans falls
      have whole : (Asm.pop .t1).length + 1 = blockSize r c.pc := by
        rw [blockSize_eq hop, code]
        rfl
      rw [whole] at moved
      refine ⟨s₁, moved, ?_, fun _ => rfl⟩
      exact .of_settled (.next prep.disciplined hop slot through (by rw [behind, pushes]; rfl))
        (prep.disciplined.settled hop slot) fp dropped

theorem Represents.ret (hop : r.ops[c.pc]? = some .ret) :
    Carries annotate r depth top limit entry c s (Ir.perform r.ops c .ret) := by
  obtain ⟨enough, height⟩ := rep.enough prep hop
  rw [(prep.disciplined.obeys c.pc _ hop).ret rfl] at height
  obtain ⟨v, hs⟩ := List.length_eq_one_iff.mp height
  have framed := rep.plain hop rfl
  rw [hs] at framed
  obtain ⟨s', ends, restored⟩ := prep.exit annotate framed
  simp only [Ir.perform, hs]
  exact ⟨s', _, .of_steps (steps_ret annotate hop s) ends, .returned, restored⟩

theorem Represents.finish (hop : r.ops[c.pc]? = none) {v : Word} {rest : List Word}
    (hs : c.stack = v :: rest) : Finishes annotate r top limit entry c s (.returned v) := by
  have last : c.pc = r.ops.length :=
    Nat.le_antisymm rep.regular.pc_le (List.getElem?_eq_none_iff.mp hop)
  have height := rep.regular.height
  rw [last, prep.disciplined.finish, hs] at height
  obtain rfl : rest = [] := List.length_eq_zero_iff.mp (Nat.succ.inj height)
  have framed := rep.framed
  rw [operands_of_settled (by rw [hop]; simp), hs] at framed
  obtain ⟨s', ends, restored⟩ := prep.exit annotate framed
  rw [← last] at ends
  refine ⟨s', _, ?_, .returned, restored⟩
  rwa [lastSteps, blockSize_eq_zero (Nat.le_of_eq last.symm), Nat.zero_add]

/-- The machine carries out every step of the reference machine. -/
theorem Represents.step : Carries annotate r depth top limit entry c s (Ir.step r.ops c) := by
  rw [Ir.step]
  cases hop : r.ops[c.pc]? with
  | none =>
      have last : c.pc = r.ops.length :=
        Nat.le_antisymm rep.regular.pc_le (List.getElem?_eq_none_iff.mp hop)
      have height := rep.regular.height
      rw [last, prep.disciplined.finish] at height
      obtain ⟨v, hs⟩ := List.length_eq_one_iff.mp height
      simp only [hs]
      exact rep.finish annotate prep hop hs
  | some op =>
      cases op with
      | push v => exact rep.push annotate prep hop
      | unary op => exact rep.unary annotate prep hop
      | binary op => exact rep.binary annotate prep hop
      | frameAddr k => exact rep.frameAddr annotate prep hop
      | load => exact rep.load annotate prep hop
      | store => exact rep.store annotate prep hop
      | pop => exact rep.pop annotate prep hop
      | ret => exact rep.ret annotate prep hop
      | br l => exact rep.br annotate prep hop
      | label l => exact rep.label annotate prep hop
      | beqz l =>
          obtain ⟨a, rest, hs⟩ := List.exists_cons_of_length_pos (rep.enough prep hop).1
          have carried := rep.conditional annotate prep .zero hop rfl rfl
            ⟨rfl, rfl, rfl, rfl, rfl⟩ hs
          simpa [Ir.perform, hs, Condition.holds] using carried
      | bnez l =>
          obtain ⟨a, rest, hs⟩ := List.exists_cons_of_length_pos (rep.enough prep hop).1
          have carried := rep.conditional annotate prep .nonzero hop rfl rfl
            ⟨rfl, rfl, rfl, rfl, rfl⟩ hs
          simpa [Ir.perform, hs, Condition.holds] using carried

end Branches

end Simulation

end IntLang.Asm
