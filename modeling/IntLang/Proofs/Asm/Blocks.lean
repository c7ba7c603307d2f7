import IntLang.Asm.Routine
import IntLang.Proofs.Machine.Steps
import IntLang.Proofs.Machine.Stack
/-!
What blocks do to a store. Each block of an operation replaces the operands on the stack in memory
by the result of the operation; the prologue and the epilogue take and give back a frame.
-/
namespace IntLang

open Asm (Register Instruction)

namespace Store

def write (s : Store) (a w : Word) : Store := { s with memory := s.memory.put a w }

section Access

variable (s : Store) (r rd : Register) (a w : Word)

@[simp] theorem get_write : (s.write a w).get r = s.get r := rfl

@[simp] theorem memory_write : (s.write a w).memory = s.memory.put a w := rfl

@[simp] theorem memory_set : (s.set rd w).memory = s.memory := rfl

@[simp] theorem get_set : (s.set rd w).get r = if r = rd ∧ rd ≠ .zero then w else s.get r :=
  Registers.get_set s.registers rd r w

end Access

variable {s s' : Store} {r : Register} {w : Word}

theorem after_lw {offset : Word} {base : Register} (ha : (s.get base + offset).Aligned)
    (h : s.memory.word? (s.get base + offset) = some w) :
    s.after (.lw r offset base) = .ok (s.set r w) := by
  rw [after, effective, Memory.load_of_word? ha h]
  rfl

theorem after_sw (r : Register) (offset : Word) (base : Register)
    (ha : (s.get base + offset).Aligned) :
    s.after (.sw r offset base) = .ok (s.write (s.get base + offset) (s.get r)) := by
  rw [after, effective, Memory.store_of_aligned ha]
  rfl

theorem afterAll_push (ha : (s.get .sp).Aligned) (hr : r ≠ .sp) :
    s.afterAll (Asm.push r) =
      .ok ((s.set .sp (s.get .sp - 4)).write (s.get .sp - 4) (s.get r)) := by
  have step : s.get .sp + -4 = s.get .sp - 4 := (Int32.sub_eq_add_neg _ _).symm
  have moved : s.after (.addi .sp .sp (-4)) = .ok (s.set .sp (s.get .sp - 4)) := by
    rw [← step]
    rfl
  have place : (s.set .sp (s.get .sp - 4)).get .sp + 0 = s.get .sp - 4 := by simp
  rw [Asm.push, afterAll_cons moved, afterAll,
    after_sw _ _ _ (by rw [place]; exact ha.sub_four), place]
  simp [afterAll, hr]

theorem afterAll_pop (ha : (s.get .sp).Aligned) (hr : r ≠ .sp)
    (h : s.memory.word? (s.get .sp) = some w) :
    s.afterAll (Asm.pop r) = .ok ((s.set r w).set .sp (s.get .sp + 4)) := by
  have place : s.get .sp + 0 = s.get .sp := Int32.add_zero _
  rw [Asm.pop, afterAll_cons (after_lw (by rwa [place]) (by rwa [place]))]
  have kept : (s.set r w).get .sp = s.get .sp := by simp [Ne.symm hr]
  rw [← kept]
  rfl

/-- The code runs through from `s`. Behind it `sp` and the memory are as given, and `fp`, `ra` and
`a0` are as before. -/
def Leads (s : Store) (code : List Instruction) (sp : Word) (memory : Memory) : Prop :=
  ∃ s', s.afterAll code = .ok s' ∧ s'.get .sp = sp ∧ s'.memory = memory ∧
    ∀ r ∈ [Register.fp, .ra, .a0], s'.get r = s.get r

end Store

namespace Word

theorem ofBool_xor_one (b : Bool) : ofBool b ^^^ 1 = ofBool (!b) := by cases b <;> rfl

theorem ofBool_and (a b : Bool) : ofBool a &&& ofBool b = ofBool (a && b) := by
  cases a <;> cases b <;> rfl

theorem or_eq_zero {a b : Word} : a ||| b = 0 ↔ a = 0 ∧ b = 0 := by
  simp only [← Int32.toBitVec_inj, Int32.toBitVec_or, Int32.toBitVec_zero, BitVec.or_eq_zero_iff]

theorem sub_eq_zero {a b : Word} : a - b = 0 ↔ a = b := by
  constructor
  · intro h
    grind
  · rintro rfl
    exact Int32.sub_self a

end Word

namespace Asm

open Store

theorem unaryCode_after (op : UnaryOp) (s : Store) :
    s.after (unaryCode op) = .ok (s.set .t1 (op.value (s.get .t1))) := by
  cases op <;> rfl

theorem binaryCode_afterAll (op : BinaryOp) (s : Store) : ∃ s',
    s.afterAll (binaryCode op) = .ok s' ∧ s'.get .t1 = op.value (s.get .t1) (s.get .t2) ∧
      s'.memory = s.memory ∧ ∀ r, r ≠ .t1 → r ≠ .t2 → s'.get r = s.get r := by
  cases op <;> refine ⟨_, rfl, ?_, rfl, fun r h₁ h₂ => by simp [h₁, h₂]⟩
  case le =>
    change Word.ofBool (s.get .t2 < s.get .t1) ^^^ 1 = Word.ofBool (s.get .t1 ≤ s.get .t2)
    rw [Word.ofBool_xor_one, ← decide_not, decide_eq_decide.mpr Int32.not_lt]
  case ge =>
    change Word.ofBool (s.get .t1 < s.get .t2) ^^^ 1 = Word.ofBool (s.get .t2 ≤ s.get .t1)
    rw [Word.ofBool_xor_one, ← decide_not, decide_eq_decide.mpr Int32.not_lt]
  case eq =>
    change Word.ofBool (s.get .t1 - s.get .t2 = 0) = Word.ofBool (s.get .t1 = s.get .t2)
    rw [decide_eq_decide.mpr Word.sub_eq_zero]
  case ne =>
    change Word.ofBool (s.get .t1 - s.get .t2 ≠ 0) = Word.ofBool (s.get .t1 ≠ s.get .t2)
    rw [decide_eq_decide.mpr (not_congr Word.sub_eq_zero)]
  case land =>
    change Word.ofBool (s.get .t1 ≠ 0) &&& Word.ofBool (s.get .t2 ≠ 0) =
      Word.ofBool (s.get .t1 ≠ 0 ∧ s.get .t2 ≠ 0)
    rw [Word.ofBool_and, Bool.decide_and]
  case lor =>
    change Word.ofBool ((s.get .t1 ||| s.get .t2) ≠ 0) =
      Word.ofBool (s.get .t1 ≠ 0 ∨ s.get .t2 ≠ 0)
    rw [decide_eq_decide.mpr]
    rw [ne_eq, Word.or_eq_zero, not_and_or]
  all_goals rfl

section Straight

theorem straight_addConstant (rd rs : Register) (value : Word) :
    ∀ i ∈ addConstant rd rs value, i.isStraight = true := by
  unfold addConstant
  split <;> simp [Instruction.isStraight]

theorem straight_loadAt (rd : Register) (offset : Word) (base : Register) :
    ∀ i ∈ loadAt rd offset base, i.isStraight = true := by
  unfold loadAt
  split
  · simp [Instruction.isStraight]
  · refine List.forall_mem_append.mpr ⟨straight_addConstant _ _ _, ?_⟩
    simp [Instruction.isStraight]

theorem straight_storeAt (rs : Register) (offset : Word) (base : Register) :
    ∀ i ∈ storeAt rs offset base, i.isStraight = true := by
  unfold storeAt
  split
  · simp [Instruction.isStraight]
  · refine List.forall_mem_append.mpr ⟨straight_addConstant _ _ _, ?_⟩
    simp [Instruction.isStraight]

theorem straight_push (r : Register) : ∀ i ∈ push r, i.isStraight = true := by
  simp [push, Instruction.isStraight]

theorem straight_pop (r : Register) : ∀ i ∈ pop r, i.isStraight = true := by
  simp [pop, Instruction.isStraight]

theorem straight_opCode (exit : String) {op : Ir.Op} (ht : op.target? = none) (hr : op ≠ .ret) :
    ∀ i ∈ opCode exit op, i.isStraight = true := by
  have pushed := straight_push
  have popped := straight_pop
  cases op with
  | push value => exact List.forall_mem_cons.mpr ⟨rfl, pushed _⟩
  | unary op =>
      refine List.forall_mem_append.mpr ⟨popped _, List.forall_mem_cons.mpr ⟨?_, pushed _⟩⟩
      cases op <;> rfl
  | binary op =>
      simp only [opCode, List.forall_mem_append]
      refine ⟨⟨⟨popped _, popped _⟩, ?_⟩, pushed _⟩
      cases op <;> simp [binaryCode, Instruction.isStraight]
  | frameAddr k => exact List.forall_mem_append.mpr ⟨straight_addConstant _ _ _, pushed _⟩
  | load | pop | label mark => simp [opCode, drop, Instruction.isStraight]
  | store =>
      refine List.forall_mem_append.mpr ⟨popped _, ?_⟩
      simp [Instruction.isStraight]
  | ret => exact (hr rfl).elim
  | br target | beqz target | bnez target => cases ht

theorem straight_prologue (f : Frame) : ∀ i ∈ f.prologue, i.isStraight = true := by
  simp only [Frame.prologue, List.forall_mem_append]
  exact ⟨⟨⟨straight_addConstant _ _ _, straight_storeAt _ _ _⟩, straight_storeAt _ _ _⟩,
    straight_addConstant _ _ _⟩

end Straight

section Block

variable {s s₁ : Store} {a b v w : Word} {r : Register} {code : List Instruction} (exit : String)

theorem pop_spec (hs : (s.get .sp).Aligned) (ha : s.memory.word? (s.get .sp) = some a)
    (hsp : r ≠ .sp) (hzero : r ≠ .zero) : ∃ s₁, s.afterAll (pop r) = .ok s₁ ∧ s₁.get r = a ∧
      s₁.get .sp = s.get .sp + 4 ∧ s₁.memory = s.memory ∧
      ∀ q, q ≠ r → q ≠ .sp → s₁.get q = s.get q := by
  refine ⟨_, afterAll_pop hs hsp ha, ?_, ?_, ?_, ?_⟩
  · simp [hsp, hzero]
  · simp
  · simp
  · intro q hq hqsp
    simp [hq, hqsp]

theorem leads_push (h : s.afterAll code = .ok s₁) (hs : (s₁.get .sp).Aligned)
    (kept : ∀ r ∈ [Register.fp, .ra, .a0], s₁.get r = s.get r) :
    s.Leads (code ++ push .t1) (s₁.get .sp - 4)
      (s₁.memory.put (s₁.get .sp - 4) (s₁.get .t1)) := by
  refine ⟨_, (afterAll_append h _).trans (afterAll_push hs (by decide)), ?_, ?_, ?_⟩
  · simp
  · simp
  · simpa using kept

theorem push_leads (hs : (s.get .sp).Aligned) (v : Word) :
    s.Leads (opCode exit (.push v)) (s.get .sp - 4) (s.memory.put (s.get .sp - 4) v) := by
  have constant : s.afterAll [.li .t1 v] = .ok (s.set .t1 v) := rfl
  have pushed := leads_push constant (by simpa using hs) (by simp)
  simpa [opCode] using pushed

theorem unary_leads (hs : (s.get .sp).Aligned) (ha : s.memory.word? (s.get .sp) = some a)
    (op : UnaryOp) : s.Leads (opCode exit (.unary op)) (s.get .sp)
      (s.memory.put (s.get .sp) (op.value a)) := by
  obtain ⟨s₁, popped, ht, hsp, hmem, kept⟩ := pop_spec hs ha (r := .t1) (by decide) (by decide)
  have computed : s.afterAll (pop .t1 ++ [unaryCode op]) =
      .ok (s₁.set .t1 (op.value (s₁.get .t1))) := by
    rw [afterAll_append popped, afterAll_cons (unaryCode_after op s₁)]
    rfl
  have pushed := leads_push computed (by simpa [hsp] using hs.add_four)
    (by simp [kept])
  rw [List.append_assoc] at pushed
  simpa [opCode, hsp, hmem, ht] using pushed

theorem binary_leads (hs : (s.get .sp).Aligned) (hb : s.memory.word? (s.get .sp) = some b)
    (ha : s.memory.word? (s.get .sp + 4) = some a) (op : BinaryOp) :
    s.Leads (opCode exit (.binary op)) (s.get .sp + 4)
      (s.memory.put (s.get .sp + 4) (op.value a b)) := by
  obtain ⟨s₁, first, ht₂, hsp₁, hmem₁, kept₁⟩ :=
    pop_spec hs hb (r := .t2) (by decide) (by decide)
  obtain ⟨s₂, second, ht₁, hsp₂, hmem₂, kept₂⟩ := pop_spec (s := s₁) (a := a) (r := .t1)
    (by rw [hsp₁]; exact hs.add_four) (by rw [hsp₁, hmem₁, ha]) (by decide) (by decide)
  obtain ⟨s₃, computed, value, hmem₃, kept₃⟩ := binaryCode_afterAll op s₂
  have code : s.afterAll (pop .t2 ++ (pop .t1 ++ binaryCode op)) = .ok s₃ := by
    rw [afterAll_append first, afterAll_append second, computed]
  have hsp₃ : s₃.get .sp = s.get .sp + 4 + 4 := by
    rw [kept₃ .sp (by decide) (by decide), hsp₂, hsp₁]
  have kept (r : Register) (h₁ : r ≠ .t1) (h₂ : r ≠ .t2) (h : r ≠ .sp) :
      s₃.get r = s.get r := by
    rw [kept₃ r h₁ h₂, kept₂ r h₁ h, kept₁ r h₂ h]
  have pushed := leads_push code (by rw [hsp₃]; exact hs.add_four.add_four)
    (by simp [kept])
  rw [value, ht₁, kept₂ .t2 (by decide) (by decide), ht₂, hsp₃, hmem₃, hmem₂, hmem₁,
    Int32.add_sub_cancel] at pushed
  rw [opCode, List.append_assoc, List.append_assoc]
  rwa [List.append_assoc, List.append_assoc] at pushed

/-- A word that does not fit the immediate goes through `t0`. -/
theorem afterAll_addConstant (rd : Register) {rs : Register} (hrs : rs ≠ .t0) (value : Word)
    (s : Store) : s.afterAll (addConstant rd rs value) =
      .ok ((if fitsImmediate value then s else s.set .t0 value).set rd (s.get rs + value)) := by
  unfold addConstant
  split
  · rfl
  · have sum : (s.set .t0 value).after (.alu .add rd rs .t0) =
        .ok ((s.set .t0 value).set rd (s.get rs + value)) := by
      simp [Store.after, Alu.value, hrs]
    rw [afterAll_cons rfl, afterAll_cons sum]
    rfl

/-- `addConstant` adds any word. -/
theorem addConstant_spec (rd rs : Register) (hrs : rs ≠ .t0) (hrd : rd ≠ .zero) (value : Word)
    (s : Store) : ∃ s₁, s.afterAll (addConstant rd rs value) = .ok s₁ ∧
      s₁.get rd = s.get rs + value ∧ s₁.memory = s.memory ∧
      ∀ r, r ≠ rd → r ≠ .t0 → s₁.get r = s.get r := by
  refine ⟨_, afterAll_addConstant rd hrs value s, by simp [hrd], ?_, fun r hr ht => ?_⟩
  · split <;> rfl
  · split <;> simp [hr, ht]

theorem frameAddr_leads (hs : (s.get .sp).Aligned) (k : UInt32) :
    s.Leads (opCode exit (.frameAddr k)) (s.get .sp - 4)
      (s.memory.put (s.get .sp - 4) (s.get .fp + Frame.offsetOf k)) := by
  obtain ⟨s₁, computed, ht, hmem, kept⟩ :=
    addConstant_spec .t1 .fp (by decide) (by decide) (Frame.offsetOf k) s
  have pushed := leads_push computed (by simpa [kept] using hs) (by simp [kept])
  simpa [opCode, Frame.slotPointer, kept, hmem, ht] using pushed

theorem load_leads (hs : (s.get .sp).Aligned) (ha : s.memory.word? (s.get .sp) = some a)
    (haligned : a.Aligned) (hw : s.memory.word? a = some w) :
    s.Leads (opCode exit .load) (s.get .sp) (s.memory.put (s.get .sp) w) := by
  have zero (x : Word) : x + 0 = x := Int32.add_zero x
  have first : s.after (.lw .t1 0 .sp) = .ok (s.set .t1 a) :=
    after_lw (by rwa [zero]) (by rwa [zero])
  have second : (s.set .t1 a).after (.lw .t1 0 .t1) = .ok ((s.set .t1 a).set .t1 w) := by
    refine after_lw ?_ ?_ <;> simpa
  have third : ((s.set .t1 a).set .t1 w).after (.sw .t1 0 .sp) =
      .ok (((s.set .t1 a).set .t1 w).write (s.get .sp) w) := by
    have stored := after_sw (s := (s.set .t1 a).set .t1 w) .t1 0 .sp
      (by simpa using hs)
    simpa using stored
  refine ⟨_, (afterAll_cons first _).trans ((afterAll_cons second _).trans
    ((afterAll_cons third _).trans rfl)), ?_, ?_, ?_⟩ <;> simp

theorem load_fault (ha : s.memory.word? (s.get .sp) = some a) (hs : (s.get .sp).Aligned)
    (haligned : a.Aligned) (hw : s.memory.word? a = none) :
    s.afterAll [.lw .t1 0 .sp] = .ok (s.set .t1 a) ∧
      (s.set .t1 a).after (.lw .t1 0 .t1) = .error (.uninitialized a.toUInt32) := by
  have zero (x : Word) : x + 0 = x := Int32.add_zero x
  constructor
  · rw [afterAll_cons (after_lw (by rwa [zero]) (by rwa [zero]))]
    rfl
  · have place : (s.set .t1 a).get .t1 + 0 = a := by simp
    rw [Store.after, effective, place, memory_set, Memory.load_of_none haligned hw]
    rfl

theorem store_leads (hs : (s.get .sp).Aligned) (ha : s.memory.word? (s.get .sp) = some a)
    (haligned : a.Aligned) (hw : s.memory.word? (s.get .sp + 4) = some w) :
    s.Leads (opCode exit .store) (s.get .sp + 4) (s.memory.put a w) := by
  obtain ⟨s₁, popped, ht, hsp, hmem, kept⟩ := pop_spec hs ha (r := .t1) (by decide) (by decide)
  have zero (x : Word) : x + 0 = x := Int32.add_zero x
  have second : s₁.after (.lw .t2 0 .sp) = .ok (s₁.set .t2 w) :=
    after_lw (by rw [zero, hsp]; exact hs.add_four) (by rw [zero, hsp, hmem, hw])
  have third : (s₁.set .t2 w).after (.sw .t2 0 .t1) = .ok ((s₁.set .t2 w).write a w) := by
    have stored := after_sw (s := s₁.set .t2 w) .t2 0 .t1
      (by simpa [ht] using haligned)
    simpa [ht] using stored
  refine ⟨_, (afterAll_append popped _).trans ((afterAll_cons second _).trans
    ((afterAll_cons third _).trans rfl)), ?_, ?_, ?_⟩
  · simp [hsp]
  · simp [hmem]
  · simp [kept]

theorem pop_leads (s : Store) : s.Leads (opCode exit .pop) (s.get .sp + 4) s.memory := by
  refine ⟨_, rfl, ?_, rfl, ?_⟩
  · rfl
  · simp

end Block

section Frames

variable {s : Store} {top w saved : Word} {base : Register}

theorem loadAt_spec (rd : Register) (offset : Word) (base : Register) (hbase : base ≠ .t0)
    (hrd : rd ≠ .zero) (ha : (s.get base + offset).Aligned)
    (h : s.memory.word? (s.get base + offset) = some w) :
    ∃ s₁, s.afterAll (loadAt rd offset base) = .ok s₁ ∧ s₁.get rd = w ∧
      s₁.memory = s.memory ∧ ∀ r, r ≠ rd → r ≠ .t0 → s₁.get r = s.get r := by
  unfold loadAt
  split
  · have code : s.afterAll [.lw rd offset base] = .ok (s.set rd w) := by
      rw [afterAll_cons (after_lw ha h)]
      rfl
    exact ⟨_, code, by simp [hrd], rfl, fun r hr _ => by simp [hr]⟩
  · obtain ⟨s₁, computed, ht, hmem, kept⟩ := addConstant_spec .t0 base hbase (by decide) offset s
    have place : s₁.get .t0 + 0 = s.get base + offset := by rw [ht, Int32.add_zero]
    have code : s.afterAll (addConstant .t0 base offset ++ [.lw rd 0 .t0]) =
        .ok (s₁.set rd w) := by
      rw [afterAll_append computed,
        afterAll_cons (after_lw (by rwa [place]) (by rw [place, hmem, h]))]
      rfl
    exact ⟨_, code, by simp [hrd], hmem, fun r hr ht => by simp [hr, kept r ht ht]⟩

theorem storeAt_spec (rs : Register) (offset : Word) (base : Register) (hrs : rs ≠ .t0)
    (hbase : base ≠ .t0) (ha : (s.get base + offset).Aligned) :
    ∃ s₁, s.afterAll (storeAt rs offset base) = .ok s₁ ∧
      s₁.memory = s.memory.put (s.get base + offset) (s.get rs) ∧
      ∀ r, r ≠ .t0 → s₁.get r = s.get r := by
  unfold storeAt
  split
  · have code : s.afterAll [.sw rs offset base] =
        .ok (s.write (s.get base + offset) (s.get rs)) := by
      rw [afterAll_cons (after_sw _ _ _ ha)]
      rfl
    exact ⟨_, code, rfl, fun _ _ => rfl⟩
  · obtain ⟨s₁, computed, ht, hmem, kept⟩ := addConstant_spec .t0 base hbase (by decide) offset s
    have place : s₁.get .t0 + 0 = s.get base + offset := by rw [ht, Int32.add_zero]
    have code : s.afterAll (addConstant .t0 base offset ++ [.sw rs 0 .t0]) =
        .ok (s₁.write (s.get base + offset) (s.get rs)) := by
      rw [afterAll_append computed, afterAll_cons (after_sw _ _ _ (by rwa [place])), place,
        kept rs hrs hrs]
      rfl
    refine ⟨_, code, ?_, fun r hr => by rw [get_write, kept r hr hr]⟩
    rw [memory_write, hmem]

namespace Frame

variable (f : Frame)

/-- The part of the epilogue before the return. -/
def restore : List Instruction :=
  loadAt .fp f.savedFp .sp ++ (loadAt .ra f.savedRa .sp ++ addConstant .sp .sp f.size)

theorem size_eq : f.size = 4 * .ofNat (2 + f.slots.toNat) := by
  have slots : f.slots.toInt32 = .ofNat f.slots.toNat := by
    rw [← UInt32.toInt32_ofNat', UInt32.ofNat_toNat]
  rw [size, slots, Int32.ofNat_add]
  rfl

theorem offsetOf_eq (top : Word) (k : UInt32) : top + offsetOf k = cell top (3 + k.toNat) := by
  have slot : k.toInt32 = .ofNat k.toNat := by
    rw [← UInt32.toInt32_ofNat', UInt32.ofNat_toNat]
  rw [offsetOf, slot, cell, Int32.ofNat_add]
  grind

section Offsets

variable (top : Word)

theorem top_sub_size : top + -f.size = cell top (2 + f.slots.toNat) := by
  rw [f.size_eq, cell]
  grind

theorem bottom_add_savedRa : cell top (2 + f.slots.toNat) + f.savedRa = cell top 1 := by
  rw [savedRa, f.size_eq, cell, cell]
  grind

theorem bottom_add_savedFp : cell top (2 + f.slots.toNat) + f.savedFp = cell top 2 := by
  rw [savedFp, f.size_eq, cell, cell]
  grind

theorem bottom_add_size : cell top (2 + f.slots.toNat) + f.size = top := by
  rw [f.size_eq, cell]
  grind

end Offsets

theorem epilogue_eq : f.epilogue = f.restore ++ [.ret] := by
  simp [epilogue, restore]

theorem straight_restore : ∀ i ∈ f.restore, i.isStraight = true := by
  simp only [restore, List.forall_mem_append]
  exact ⟨straight_loadAt _ _ _, straight_loadAt _ _ _, straight_addConstant _ _ _⟩

/-- The part of the prologue that takes the frame and saves `ra`. -/
def reserve : List Instruction := addConstant .sp .sp (-f.size) ++ storeAt .ra f.savedRa .sp

/-- The part of the prologue that saves `fp` and points it at the frame. -/
def link : List Instruction := storeAt .fp f.savedFp .sp ++ addConstant .fp .sp f.size

theorem prologue_eq : f.prologue = f.reserve ++ f.link := by
  simp only [prologue, reserve, link, List.append_assoc]

theorem reserve_spec (hs : top.Aligned) (hsp : s.get .sp = top) : ∃ s₁,
    s.afterAll f.reserve = .ok s₁ ∧ s₁.get .sp = cell top (2 + f.slots.toNat) ∧
      s₁.get .fp = s.get .fp ∧ s₁.memory = s.memory.put (cell top 1) (s.get .ra) := by
  obtain ⟨s₁, first, sp₁, mem₁, kept₁⟩ :=
    addConstant_spec .sp .sp (by decide) (by decide) (-f.size) s
  rw [hsp, f.top_sub_size] at sp₁
  obtain ⟨s₂, second, mem₂, kept₂⟩ := storeAt_spec (s := s₁) .ra f.savedRa .sp
    (by decide) (by decide) (by rw [sp₁, f.bottom_add_savedRa]; exact hs.cell 1)
  rw [sp₁, f.bottom_add_savedRa, mem₁, kept₁ .ra (by decide) (by decide)] at mem₂
  refine ⟨s₂, ?_, ?_, ?_, mem₂⟩
  · rw [reserve, afterAll_append first, second]
  · rw [kept₂ .sp (by decide), sp₁]
  · rw [kept₂ .fp (by decide), kept₁ .fp (by decide) (by decide)]

theorem link_spec (hs : top.Aligned) (hsp : s.get .sp = cell top (2 + f.slots.toNat)) : ∃ s₁,
    s.afterAll f.link = .ok s₁ ∧ s₁.get .sp = s.get .sp ∧ s₁.get .fp = top ∧
      s₁.memory = s.memory.put (cell top 2) (s.get .fp) := by
  obtain ⟨s₁, first, mem₁, kept₁⟩ := storeAt_spec (s := s) .fp f.savedFp .sp
    (by decide) (by decide) (by rw [hsp, f.bottom_add_savedFp]; exact hs.cell 2)
  rw [hsp, f.bottom_add_savedFp] at mem₁
  have sp₁ : s₁.get .sp = s.get .sp := kept₁ .sp (by decide)
  obtain ⟨s₂, second, fp₂, mem₂, kept₂⟩ :=
    addConstant_spec .fp .sp (by decide) (by decide) f.size s₁
  refine ⟨s₂, ?_, ?_, ?_, ?_⟩
  · rw [link, afterAll_append first, second]
  · rw [kept₂ .sp (by decide) (by decide), sp₁]
  · rw [fp₂, sp₁, hsp, f.bottom_add_size]
  · rw [mem₂, mem₁]

theorem prologue_spec (hs : top.Aligned) (hsp : s.get .sp = top) : ∃ s₁,
    s.afterAll f.prologue = .ok s₁ ∧ s₁.get .sp = cell top (2 + f.slots.toNat) ∧
      s₁.get .fp = top ∧
      s₁.memory = (s.memory.put (cell top 1) (s.get .ra)).put (cell top 2) (s.get .fp) := by
  obtain ⟨s₁, reserved, sp₁, fp₁, mem₁⟩ := f.reserve_spec hs hsp
  obtain ⟨s₂, linked, sp₂, fp₂, mem₂⟩ := f.link_spec hs sp₁
  refine ⟨s₂, ?_, sp₂.trans sp₁, fp₂, ?_⟩
  · rw [prologue_eq, afterAll_append reserved, linked]
  · rw [mem₂, mem₁, fp₁]

theorem restore_spec (hs : top.Aligned) (hsp : s.get .sp = cell top (2 + f.slots.toNat))
    (hra : s.memory.word? (cell top 1) = some w) (hfp : s.memory.word? (cell top 2) = some saved) :
    ∃ s₁, s.afterAll f.restore = .ok s₁ ∧ s₁.get .sp = top ∧ s₁.get .fp = saved ∧
      s₁.get .ra = w ∧ s₁.get .a0 = s.get .a0 ∧ s₁.memory = s.memory := by
  have atRa := f.bottom_add_savedRa top
  have atFp := f.bottom_add_savedFp top
  rw [← hsp] at atRa atFp
  obtain ⟨s₁, first, fp₁, mem₁, kept₁⟩ := loadAt_spec (s := s) (w := saved) .fp f.savedFp
    .sp (by decide) (by decide)
    (by rw [atFp]; exact hs.cell 2) (by rw [atFp, hfp])
  have sp₁ : s₁.get .sp = s.get .sp := kept₁ .sp (by decide) (by decide)
  obtain ⟨s₂, second, ra₂, mem₂, kept₂⟩ := loadAt_spec (s := s₁) (w := w) .ra f.savedRa
    .sp (by decide) (by decide)
    (by rw [sp₁, atRa]; exact hs.cell 1) (by rw [sp₁, atRa, mem₁, hra])
  obtain ⟨s₃, third, sp₃, mem₃, kept₃⟩ :=
    addConstant_spec .sp .sp (by decide) (by decide) f.size s₂
  refine ⟨s₃, ?_, ?_, ?_, ?_, ?_, ?_⟩
  · rw [restore, afterAll_append first, afterAll_append second, third]
  · rw [sp₃, kept₂ .sp (by decide) (by decide), sp₁, hsp, f.bottom_add_size]
  · rw [kept₃ .fp (by decide) (by decide), kept₂ .fp (by decide) (by decide), fp₁]
  · rw [kept₃ .ra (by decide) (by decide), ra₂]
  · rw [kept₃ .a0 (by decide) (by decide), kept₂ .a0 (by decide) (by decide),
      kept₁ .a0 (by decide) (by decide)]
  · rw [mem₃, mem₂, mem₁]

end Frame

end Frames

end Asm

end IntLang
