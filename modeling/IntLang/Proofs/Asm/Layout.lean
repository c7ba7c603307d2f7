import IntLang.Proofs.Asm.Blocks
import IntLang.Proofs.Asm.RoundTrip
import IntLang.Proofs.Ir.Labels
import IntLang.Proofs.Ir.Listing
/-!
Where the parts of a routine come to lie in its assembled program: the prologue, the block of every
operation, and the exit. Labels of the code keep their positions, and the program assembles whenever
the code defines every target once.
-/
namespace IntLang.Asm

section Names

theorem toDigits_inj {n m : Nat} (h : Nat.toDigits 10 n = Nat.toDigits 10 m) : n = m := by
  have read := Text.Decimal.nat?_toDigits n
  rw [h, Text.Decimal.nat?_toDigits] at read
  exact (Option.some.inj read).symm

def rolePrefix : Ir.Label.Role → List Char
  | .otherwise => ['.', 'L', 'e', 'l', 's', 'e', '_']
  | .done => ['.', 'L', 'e', 'n', 'd', '_']

theorem labelSymbol_toList (l : Ir.Label) :
    (labelSymbol l).toList = rolePrefix l.role ++ Nat.toDigits 10 l.id.toNat := by
  obtain ⟨role, id⟩ := l
  have digits : (toString id.toNat).toList = Nat.toDigits 10 id.toNat := Nat.toList_repr
  cases role
  all_goals
    rw [labelSymbol, String.toList_append, digits]
    rfl

theorem labelSymbol_inj {l m : Ir.Label} (h : labelSymbol l = labelSymbol m) : l = m := by
  have chars := congrArg String.toList h
  rw [labelSymbol_toList, labelSymbol_toList] at chars
  have roles : l.role = m.role := by
    have third := congrArg (fun cs => cs[3]?) chars
    cases hl : l.role <;> cases hm : m.role <;> rw [hl, hm] at third <;> first | rfl | cases third
  rw [roles] at chars
  have ids := UInt32.toNat_inj.mp (toDigits_inj (List.append_cancel_left chars))
  cases l
  cases m
  cases roles
  cases ids
  rfl

theorem plainWord_labelSymbol (l : Ir.Label) : PlainWord (labelSymbol l).toList := by
  rw [labelSymbol_toList]
  have front : PlainWord (rolePrefix l.role) := by
    cases l.role <;> exact .of_all rfl rfl
  apply front.append
  intro c hc
  apply isPlain_of_isDigit
  exact Nat.isDigit_of_mem_toDigits (by decide) (by decide) hc

theorem exitSymbol_toList (name : String) :
    (exitSymbol name).toList = '.' :: 'L' :: (name.toList ++ "_exit".toList) := by
  simp [exitSymbol]

theorem plainWord_exitSymbol {name : String} (h : PlainWord name.toList) :
    PlainWord (exitSymbol name).toList := by
  rw [exitSymbol_toList]
  have front : PlainWord ('.' :: 'L' :: name.toList) := by
    refine ⟨by simp, ?_⟩
    rintro c (_ | ⟨_, _ | ⟨_, hc⟩⟩)
    · rfl
    · rfl
    · exact h.plain c hc
  exact front.append (List.all_eq_true.mp rfl)

/-- The exit is no label of the code: its name ends in no digit. -/
theorem exitSymbol_ne_labelSymbol (name : String) (l : Ir.Label) :
    exitSymbol name ≠ labelSymbol l := by
  intro h
  have chars := congrArg (fun s => s.toList.getLast?) h
  simp only [exitSymbol_toList, labelSymbol_toList] at chars
  rw [List.getLast?_append_of_ne_nil _ Nat.toDigits_ne_nil] at chars
  have last : ('.' :: 'L' :: (name.toList ++ "_exit".toList)).getLast? = some 't' := by
    rw [← List.cons_append, ← List.cons_append, List.getLast?_append_of_ne_nil _ (by simp)]
    rfl
  rw [last] at chars
  have digit : 't'.isDigit = true :=
    Nat.isDigit_of_mem_toDigits (by decide) (by decide) (List.mem_of_getLast? chars.symm)
  cases digit

theorem exitSymbol_ne (name : String) : exitSymbol name ≠ name := by
  intro h
  have chars := congrArg (fun s => s.toList.length) h
  simp only [exitSymbol_toList, List.length_cons, List.length_append] at chars
  omega

/-- A name that stays apart from the labels of a routine. -/
structure RoutineName (name : String) : Prop where
  plain : PlainWord name.toList
  unlike : ∀ l, labelSymbol l ≠ name

/-- The labels of the code all start with a dot. -/
theorem RoutineName.of_head {name : String} (plain : PlainWord name.toList)
    (head : name.toList.head? ≠ some '.') : RoutineName name := by
  refine ⟨plain, ?_⟩
  rintro l rfl
  rw [labelSymbol_toList] at head
  cases hr : l.role <;> rw [hr] at head <;> exact head rfl

theorem routineName_main : RoutineName "main" := .of_head (.of_all rfl rfl) (by decide)

end Names

section Printable

theorem printable_addConstant (rd rs : Register) (value : Word) :
    ∀ i ∈ addConstant rd rs value, i.Printable := by
  unfold addConstant
  split
  · rename_i fits
    simpa [Instruction.Printable] using fits
  · simp [Instruction.Printable]

theorem printable_loadAt (rd : Register) (offset : Word) (base : Register) :
    ∀ i ∈ loadAt rd offset base, i.Printable := by
  unfold loadAt
  split
  · rename_i fits
    simpa [Instruction.Printable] using fits
  · refine List.forall_mem_append.mpr ⟨printable_addConstant _ _ _, ?_⟩
    simp only [List.mem_singleton, forall_eq, Instruction.Printable]
    decide

theorem printable_storeAt (rs : Register) (offset : Word) (base : Register) :
    ∀ i ∈ storeAt rs offset base, i.Printable := by
  unfold storeAt
  split
  · rename_i fits
    simpa [Instruction.Printable] using fits
  · refine List.forall_mem_append.mpr ⟨printable_addConstant _ _ _, ?_⟩
    simp only [List.mem_singleton, forall_eq, Instruction.Printable]
    decide

theorem printable_push (r : Register) : ∀ i ∈ push r, i.Printable := by
  simp only [push, List.forall_mem_cons, Instruction.Printable]
  exact ⟨by decide, by decide, by simp⟩

theorem printable_pop (r : Register) : ∀ i ∈ pop r, i.Printable := by
  simp only [pop, List.forall_mem_cons, Instruction.Printable]
  exact ⟨by decide, by decide, by simp⟩

theorem printable_binaryCode (op : BinaryOp) : ∀ i ∈ binaryCode op, i.Printable := by
  cases op <;> simp only [binaryCode, List.forall_mem_cons, Instruction.Printable] <;> simp
  all_goals decide

theorem printable_unaryCode (op : UnaryOp) : (unaryCode op).Printable := by
  cases op <;> trivial

theorem printable_opCode {exit : String} (hexit : PlainWord exit.toList) (op : Ir.Op) :
    ∀ i ∈ opCode exit op, i.Printable := by
  have pushed := printable_push
  have popped := printable_pop
  have label := plainWord_labelSymbol
  cases op with
  | push value => exact List.forall_mem_cons.mpr ⟨trivial, pushed _⟩
  | unary op =>
      exact List.forall_mem_append.mpr ⟨popped _,
        List.forall_mem_cons.mpr ⟨printable_unaryCode op, pushed _⟩⟩
  | binary op =>
      simp only [opCode, List.forall_mem_append]
      exact ⟨⟨⟨popped _, popped _⟩, printable_binaryCode op⟩, pushed _⟩
  | frameAddr k => exact List.forall_mem_append.mpr ⟨printable_addConstant _ _ _, pushed _⟩
  | load =>
      simp only [opCode, List.forall_mem_cons, Instruction.Printable]
      exact ⟨by decide, by decide, by decide, by simp⟩
  | store =>
      refine List.forall_mem_append.mpr ⟨popped _, ?_⟩
      simp only [List.forall_mem_cons, Instruction.Printable]
      exact ⟨by decide, by decide, by simp⟩
  | pop => simpa [opCode, drop, Instruction.Printable] using (by decide : fitsImmediate 4 = true)
  | ret => simpa [opCode, Instruction.Printable] using hexit
  | br target => simpa [opCode, Instruction.Printable] using label target
  | beqz target | bnez target =>
      refine List.forall_mem_append.mpr ⟨popped _, ?_⟩
      simpa [Instruction.Printable] using label target
  | label mark => simp [opCode]

theorem printable_prologue (f : Frame) : ∀ i ∈ f.prologue, i.Printable := by
  simp only [Frame.prologue, List.forall_mem_append]
  exact ⟨⟨⟨printable_addConstant _ _ _, printable_storeAt _ _ _⟩, printable_storeAt _ _ _⟩,
    printable_addConstant _ _ _⟩

theorem printable_epilogue (f : Frame) : ∀ i ∈ f.epilogue, i.Printable := by
  simp only [Frame.epilogue, List.forall_mem_append]
  refine ⟨⟨⟨printable_loadAt _ _ _, printable_loadAt _ _ _⟩, printable_addConstant _ _ _⟩, ?_⟩
  simp [Instruction.Printable]

theorem PlainWord.printableLabel {name : String} (h : PlainWord name.toList) :
    Item.PrintableLabel name := by
  refine ⟨h.trim, ?_⟩
  intro c hc
  obtain ⟨hblank, -, hash, colon⟩ := isPlain_iff.mp (h.plain c hc)
  refine ⟨?_, hash, colon⟩
  rintro rfl
  cases hblank

theorem newline_not_mem_text (op : Ir.Op) : '\n' ∉ op.text.toList :=
  Ir.not_mem_of_all_isListed op.all_isListed_text rfl

end Printable

section Parts

variable (annotate : Bool) (r : Ir.Routine)

def routineFrame : Frame := ⟨r.localCount⟩

def exitCode : List Instruction := pop .a0 ++ (routineFrame r).epilogue

theorem routineItems_eq : routineItems annotate r =
    .label r.name :: ((routineFrame r).prologue.map .instruction ++
      (r.ops.flatMap (annotatedBlock annotate (exitSymbol r.name)) ++
        .label (exitSymbol r.name) :: (exitCode r).map .instruction)) := by
  simp [routineItems, routineFrame, exitCode]

theorem instructions_map (code : List Instruction) :
    (code.map Item.instruction).filterMap Item.instruction? = code := by
  rw [List.filterMap_map]
  exact List.filterMap_some

theorem labels_map (code : List Instruction) :
    (code.map Item.instruction).filterMap Item.label? = [] := by
  rw [List.filterMap_map]
  exact List.filterMap_eq_nil_iff.mpr fun _ _ => rfl

theorem instructions_annotatedBlock (exit : String) (op : Ir.Op) :
    (annotatedBlock annotate exit op).filterMap Item.instruction? = opCode exit op := by
  have comment : (if annotate then [Item.comment op.text] else []).filterMap Item.instruction? =
      [] := by cases annotate <;> rfl
  rw [annotatedBlock, List.filterMap_append, comment, List.nil_append]
  cases op with
  | label mark => rfl
  | _ => exact instructions_map _

theorem labels_annotatedBlock (exit : String) (op : Ir.Op) :
    (annotatedBlock annotate exit op).filterMap Item.label? =
      (op.mark?.map labelSymbol).toList := by
  have comment : (if annotate then [Item.comment op.text] else []).filterMap Item.label? =
      [] := by cases annotate <;> rfl
  rw [annotatedBlock, List.filterMap_append, comment, List.nil_append]
  cases op with
  | label mark => rfl
  | _ => exact labels_map _

theorem instructions_blocks (exit : String) (ops : List Ir.Op) :
    (ops.flatMap (annotatedBlock annotate exit)).filterMap Item.instruction? =
      ops.flatMap (opCode exit) := by
  rw [List.filterMap_flatMap]
  simp only [instructions_annotatedBlock]

theorem labels_blocks (exit : String) (ops : List Ir.Op) :
    (ops.flatMap (annotatedBlock annotate exit)).filterMap Item.label? =
      (Ir.marks ops).map labelSymbol := by
  rw [List.filterMap_flatMap, Ir.marks, List.map_filterMap, List.filterMap_eq_flatMap_toList]
  simp only [labels_annotatedBlock]

theorem instructions_routineItems : (routineItems annotate r).filterMap Item.instruction? =
    (routineFrame r).prologue ++ (r.ops.flatMap (opCode (exitSymbol r.name)) ++ exitCode r) := by
  rw [routineItems_eq, List.filterMap_cons_none rfl, List.filterMap_append, instructions_map,
    List.filterMap_append, instructions_blocks, List.filterMap_cons_none rfl, instructions_map]

theorem labels_routineItems : (routineItems annotate r).filterMap Item.label? =
    r.name :: ((Ir.marks r.ops).map labelSymbol ++ [exitSymbol r.name]) := by
  have label (name : String) : Item.label? (.label name) = some name := rfl
  rw [routineItems_eq, List.filterMap_cons_some (label _), List.filterMap_append, labels_map,
    List.filterMap_append, labels_blocks, List.filterMap_cons_some (label _), labels_map,
    List.nil_append]

/-- Where the entries of a routine define no label twice, its operations do not. -/
theorem once_of_labels (h : ((routineItems annotate r).filterMap Item.label?).Nodup) :
    (Ir.marks r.ops).Nodup := by
  rw [labels_routineItems, List.nodup_cons, List.nodup_append] at h
  exact List.Pairwise.of_map labelSymbol (fun _ _ ne same => ne (congrArg labelSymbol same)) h.2.1

theorem printable_routineItems (name : RoutineName r.name) :
    ∀ item ∈ routineItems annotate r, item.Printable := by
  have code {xs : List Instruction} (h : ∀ i ∈ xs, i.Printable) :
      ∀ item ∈ xs.map Item.instruction, item.Printable := by
    intro item hitem
    obtain ⟨i, hi, rfl⟩ := List.mem_map.mp hitem
    exact h i hi
  have exit := plainWord_exitSymbol name.plain
  have block (op : Ir.Op) : ∀ item ∈ annotatedBlock annotate (exitSymbol r.name) op,
      item.Printable := by
    refine List.forall_mem_append.mpr ⟨?_, ?_⟩
    · cases annotate with
      | false => simp
      | true => simpa [Item.Printable] using newline_not_mem_text op
    · cases op with
      | label mark =>
          simpa [block, Item.Printable] using (plainWord_labelSymbol mark).printableLabel
      | _ => exact code (printable_opCode exit _)
  rw [routineItems_eq]
  refine List.forall_mem_cons.mpr ⟨name.plain.printableLabel, ?_⟩
  refine List.forall_mem_append.mpr ⟨code (printable_prologue _), ?_⟩
  refine List.forall_mem_append.mpr ⟨?_, ?_⟩
  · intro item hitem
    obtain ⟨op, -, hop⟩ := List.mem_flatMap.mp hitem
    exact block op item hop
  · refine List.forall_mem_cons.mpr ⟨exit.printableLabel, code ?_⟩
    exact List.forall_mem_append.mpr ⟨printable_pop _, printable_epilogue _⟩

end Parts

open Machine (Has)

section Places

variable (annotate : Bool) {r : Ir.Routine}

def routineImage (annotate : Bool) (r : Ir.Routine) : Image := .ofItems (routineItems annotate r)

/-- The address of the block of an operation: behind the prologue and the blocks before it. -/
def blockAddress (r : Ir.Routine) (i : Nat) : Nat :=
  (routineFrame r).prologue.length + ((r.ops.take i).flatMap (opCode (exitSymbol r.name))).length

theorem blockAddress_succ {i : Nat} {op : Ir.Op} (h : r.ops[i]? = some op) :
    blockAddress r (i + 1) = blockAddress r i + (opCode (exitSymbol r.name) op).length := by
  have code : r.ops.take (i + 1) = r.ops.take i ++ [op] := by
    rw [List.take_add_one, h]
    rfl
  rw [blockAddress, code, List.flatMap_append, List.length_append, List.flatMap_singleton,
    ← Nat.add_assoc]
  rfl

/-- The number of instructions of the block of an operation, or none behind the last. -/
def blockSize (r : Ir.Routine) (i : Nat) : Nat := blockAddress r (i + 1) - blockAddress r i

theorem blockSize_eq {i : Nat} {op : Ir.Op} (h : r.ops[i]? = some op) :
    blockSize r i = (opCode (exitSymbol r.name) op).length := by
  rw [blockSize, blockAddress_succ h, Nat.add_sub_cancel_left]

theorem blockSize_eq_zero {i : Nat} (h : r.ops.length ≤ i) : blockSize r i = 0 := by
  rw [blockSize, blockAddress, blockAddress, List.take_of_length_le h,
    List.take_of_length_le (Nat.le_succ_of_le h), Nat.sub_self]

theorem blockAddress_mono {i j : Nat} (h : i ≤ j) : blockAddress r i ≤ blockAddress r j := by
  have front : r.ops.take i <+: r.ops.take j := List.take_prefix_take_left h
  obtain ⟨rest, hrest⟩ := front
  rw [blockAddress, blockAddress, ← hrest, List.flatMap_append, List.length_append]
  omega

theorem instructions_routineImage : (routineImage annotate r).instructions.toList =
    (routineFrame r).prologue ++ (r.ops.flatMap (opCode (exitSymbol r.name)) ++ exitCode r) := by
  rw [routineImage, Image.instructions_ofItems, instructions_routineItems]

theorem split_at {i : Nat} {op : Ir.Op} (h : r.ops[i]? = some op) :
    r.ops = r.ops.take i ++ op :: r.ops.drop (i + 1) := by
  obtain ⟨hlt, hop⟩ := List.getElem?_eq_some_iff.mp h
  rw [← hop, List.getElem_cons_drop, List.take_append_drop]

theorem has_prologue : Has (routineImage annotate r) 0 (routineFrame r).prologue :=
  ⟨[], _, instructions_routineImage annotate, rfl⟩

theorem has_block {i : Nat} {op : Ir.Op} (h : r.ops[i]? = some op) :
    Has (routineImage annotate r) (blockAddress r i) (opCode (exitSymbol r.name) op) := by
  refine ⟨(routineFrame r).prologue ++ (r.ops.take i).flatMap (opCode (exitSymbol r.name)),
    (r.ops.drop (i + 1)).flatMap (opCode (exitSymbol r.name)) ++ exitCode r, ?_,
    List.length_append⟩
  have blocks := congrArg (List.flatMap (opCode (exitSymbol r.name))) (split_at h)
  rw [List.flatMap_append, List.flatMap_cons] at blocks
  rw [instructions_routineImage, blocks]
  simp only [List.append_assoc]

theorem has_exit : Has (routineImage annotate r) (blockAddress r r.ops.length) (exitCode r) := by
  refine ⟨(routineFrame r).prologue ++ r.ops.flatMap (opCode (exitSymbol r.name)), [], ?_, ?_⟩
  · rw [instructions_routineImage, List.append_nil, List.append_assoc]
  · rw [blockAddress, List.take_length, List.length_append]

theorem exitCode_eq : exitCode r = (pop .a0 ++ (routineFrame r).restore) ++ [.ret] := by
  rw [exitCode, Frame.epilogue_eq, List.append_assoc]

theorem straight_exit : ∀ i ∈ pop .a0 ++ (routineFrame r).restore, i.isStraight = true :=
  List.forall_mem_append.mpr ⟨straight_pop _, (routineFrame r).straight_restore⟩

def itemsBefore (annotate : Bool) (r : Ir.Routine) (i : Nat) : List Item :=
  .label r.name :: ((routineFrame r).prologue.map .instruction ++
    (r.ops.take i).flatMap (annotatedBlock annotate (exitSymbol r.name)))

theorem instructions_itemsBefore (i : Nat) :
    ((itemsBefore annotate r i).filterMap Item.instruction?).length = blockAddress r i := by
  rw [itemsBefore, List.filterMap_cons_none rfl, List.filterMap_append, instructions_map,
    instructions_blocks, List.length_append]
  rfl

theorem labels_itemsBefore (i : Nat) : (itemsBefore annotate r i).filterMap Item.label? =
    r.name :: (Ir.marks (r.ops.take i)).map labelSymbol := by
  have label : Item.label? (.label r.name) = some r.name := rfl
  rw [itemsBefore, List.filterMap_cons_some label, List.filterMap_append, labels_map,
    labels_blocks, List.nil_append]

theorem address?_labelSymbol (name : RoutineName r.name) (once : (Ir.marks r.ops).Nodup) {j : Nat}
    {l : Ir.Label} (h : r.ops[j]? = some (.label l)) :
    (routineImage annotate r).address? (labelSymbol l) = some (blockAddress r j) := by
  have split := split_at h
  let comment : List Item := if annotate then [.comment (Ir.Op.label l).text] else []
  have items : routineItems annotate r = (itemsBefore annotate r j ++ comment) ++
      .label (labelSymbol l) :: ((r.ops.drop (j + 1)).flatMap
        (annotatedBlock annotate (exitSymbol r.name)) ++
        .label (exitSymbol r.name) :: (exitCode r).map .instruction) := by
    have blocks := congrArg (List.flatMap (annotatedBlock annotate (exitSymbol r.name))) split
    rw [List.flatMap_append, List.flatMap_cons] at blocks
    rw [routineItems_eq, blocks, itemsBefore]
    simp [annotatedBlock, block, comment]
  have silent : comment.filterMap Item.instruction? = [] ∧ comment.filterMap Item.label? = [] := by
    cases annotate <;> exact ⟨rfl, rfl⟩
  have fresh : labelSymbol l ∉ (itemsBefore annotate r j ++ comment).filterMap Item.label? := by
    rw [List.filterMap_append, silent.2, List.append_nil, labels_itemsBefore]
    rw [List.mem_cons, List.mem_map]
    rintro (hname | ⟨m, hm, heq⟩)
    · exact name.unlike l hname
    cases labelSymbol_inj heq
    rw [split, Ir.marks_append, Ir.marks_label] at once
    exact (List.nodup_append.mp once).2.2 l hm l List.mem_cons_self rfl
  rw [routineImage, items, Image.address?_ofItems fresh, List.filterMap_append, silent.1,
    List.append_nil, instructions_itemsBefore]

theorem address?_exitSymbol :
    (routineImage annotate r).address? (exitSymbol r.name) =
      some (blockAddress r r.ops.length) := by
  have items : routineItems annotate r = itemsBefore annotate r r.ops.length ++
      .label (exitSymbol r.name) :: (exitCode r).map .instruction := by
    rw [routineItems_eq, itemsBefore, List.take_length]
    simp
  have fresh : exitSymbol r.name ∉
      (itemsBefore annotate r r.ops.length).filterMap Item.label? := by
    rw [labels_itemsBefore, List.mem_cons, List.mem_map]
    rintro (hname | ⟨l, -, hl⟩)
    · exact exitSymbol_ne r.name hname
    · exact exitSymbol_ne_labelSymbol r.name l hl.symm
  rw [routineImage, items, Image.address?_ofItems fresh, instructions_itemsBefore]

theorem address?_name : (routineImage annotate r).address? r.name = some 0 := by
  have first : r.name ∉ ([] : List Item).filterMap Item.label? := List.not_mem_nil
  rw [routineImage, routineItems_eq]
  exact Image.address?_ofItems first _

theorem target_opCode {exit : String} {op : Ir.Op} {i : Instruction} (hi : i ∈ opCode exit op)
    {target : String} (ht : i.target? = some target) :
    (op = .ret ∧ target = exit) ∨ ∃ l, op.target? = some l ∧ target = labelSymbol l := by
  have popped {t : String} (hi : i ∈ pop .t1) (ht : i.target? = some t) : False := by
    have straight := straight_pop .t1 i hi
    cases i <;> cases ht <;> cases straight
  by_cases straight : op.target? = none ∧ op ≠ .ret
  · have := straight_opCode exit straight.1 straight.2 i hi
    cases i <;> cases ht <;> cases this
  cases op with
  | ret =>
      cases List.mem_singleton.mp hi
      cases ht
      exact .inl ⟨rfl, rfl⟩
  | br l =>
      cases List.mem_singleton.mp hi
      cases ht
      exact .inr ⟨l, rfl, rfl⟩
  | beqz l | bnez l =>
      rcases List.mem_append.mp hi with hi | hi
      · exact (popped hi ht).elim
      · cases List.mem_singleton.mp hi
        cases ht
        exact .inr ⟨l, rfl, rfl⟩
  | _ => exact (straight ⟨rfl, by simp⟩).elim

theorem target_prologue {i : Instruction} (hi : i ∈ (routineFrame r).prologue) :
    i.target? = none := by
  have straight := straight_prologue _ i hi
  cases i <;> first | rfl | cases straight

theorem target_exitCode {i : Instruction} (hi : i ∈ exitCode r) : i.target? = none := by
  rw [exitCode_eq] at hi
  rcases List.mem_append.mp hi with hi | hi
  · have straight := straight_exit i hi
    cases i <;> first | rfl | cases straight
  · cases List.mem_singleton.mp hi
    rfl

/-- The targets of a routine's instructions are the targets of its operations, and the exit. -/
theorem target_of_routineItems {i : Instruction}
    (hi : i ∈ (routineItems annotate r).filterMap Item.instruction?) {target : String}
    (ht : i.target? = some target) :
    target = exitSymbol r.name ∨
      ∃ op ∈ r.ops, ∃ l, op.target? = some l ∧ target = labelSymbol l := by
  rw [instructions_routineItems, List.mem_append, List.mem_append, List.mem_flatMap] at hi
  rcases hi with hi | ⟨op, hop, hi⟩ | hi
  · rw [target_prologue hi] at ht
    cases ht
  · rcases target_opCode hi ht with ⟨-, rfl⟩ | ⟨l, hl, rfl⟩
    · exact .inl rfl
    · exact .inr ⟨op, hop, l, hl, rfl⟩
  · rw [target_exitCode hi] at ht
    cases ht

/-- A routine whose targets are all defined, each label once, assembles to its program. -/
theorem assemble_ofRoutine (name : RoutineName r.name) (once : (Ir.marks r.ops).Nodup)
    (targets : ∀ op ∈ r.ops, ∀ l, op.target? = some l → l ∈ Ir.marks r.ops) :
    assemble (ofRoutine annotate r) = .ok (routineImage annotate r) := by
  apply assemble_file (printable_routineItems annotate r name)
  · rw [labels_routineItems, List.nodup_cons]
    refine ⟨?_, List.nodup_append.mpr ⟨?_, by simp, ?_⟩⟩
    · simp only [List.mem_append, List.mem_map, List.mem_singleton]
      rintro (⟨l, -, hl⟩ | hexit)
      · exact name.unlike l hl
      · exact exitSymbol_ne r.name hexit.symm
    · exact List.Pairwise.map _ (fun _ _ ne heq => ne (labelSymbol_inj heq)) once
    · intro a ha b hb heq
      obtain ⟨l, -, rfl⟩ := List.mem_map.mp ha
      cases List.mem_singleton.mp hb
      exact exitSymbol_ne_labelSymbol r.name l heq.symm
  · intro i hi target ht
    rw [labels_routineItems]
    rcases target_of_routineItems annotate hi ht with rfl | ⟨op, hop, l, hl, rfl⟩
    · simp
    · refine List.mem_cons_of_mem _ (List.mem_append_left _ ?_)
      exact List.mem_map_of_mem (targets op hop l hl)

theorem exists_of_getElem?_flatMap {f : Ir.Op → List Instruction} {ops : List Ir.Op} {n : Nat}
    {i : Instruction} (h : (ops.flatMap f)[n]? = some i) :
    ∃ j op, ops[j]? = some op ∧ i ∈ f op ∧ n < ((ops.take (j + 1)).flatMap f).length := by
  induction ops generalizing n with
  | nil => cases h
  | cons op ops ih =>
      rw [List.flatMap_cons] at h
      by_cases hn : n < (f op).length
      · rw [List.getElem?_append_left hn] at h
        refine ⟨0, op, rfl, List.mem_of_getElem? h, ?_⟩
        simpa using hn
      · rw [List.getElem?_append_right (Nat.le_of_not_lt hn)] at h
        obtain ⟨j, op', hop, hi, hlt⟩ := ih h
        refine ⟨j + 1, op', hop, hi, ?_⟩
        rw [List.take_succ_cons, List.flatMap_cons, List.length_append]
        omega

theorem exists_block {pc : Nat} {i : Instruction}
    (hi : (routineImage annotate r).instructions[pc]? = some i) {target : String}
    (ht : i.target? = some target) :
    ∃ j op, r.ops[j]? = some op ∧ i ∈ opCode (exitSymbol r.name) op ∧
      pc < blockAddress r (j + 1) := by
  rw [← Array.getElem?_toList, instructions_routineImage] at hi
  by_cases prologue : pc < (routineFrame r).prologue.length
  · rw [List.getElem?_append_left prologue] at hi
    rw [target_prologue (List.mem_of_getElem? hi)] at ht
    cases ht
  rw [List.getElem?_append_right (Nat.le_of_not_lt prologue)] at hi
  by_cases blocks : pc - (routineFrame r).prologue.length <
      (r.ops.flatMap (opCode (exitSymbol r.name))).length
  · rw [List.getElem?_append_left blocks] at hi
    obtain ⟨j, op, hop, hmem, hlt⟩ := exists_of_getElem?_flatMap hi
    refine ⟨j, op, hop, hmem, ?_⟩
    rw [blockAddress]
    omega
  · rw [List.getElem?_append_right (Nat.le_of_not_lt blocks)] at hi
    rw [target_exitCode (List.mem_of_getElem? hi)] at ht
    cases ht

/-- Where branches of the code go forward, branches of the program go up. -/
theorem ascending_routineImage (name : RoutineName r.name) (once : (Ir.marks r.ops).Nodup)
    (forward : Ir.Forward r.ops) : Machine.Ascending (routineImage annotate r) := by
  intro pc i target address hi ht ha
  obtain ⟨j, op, hop, hmem, hlt⟩ := exists_block annotate hi ht
  rcases target_opCode hmem ht with ⟨-, rfl⟩ | ⟨l, hl, rfl⟩
  · rw [address?_exitSymbol] at ha
    cases ha
    have hj : j < r.ops.length := (List.getElem?_eq_some_iff.mp hop).1
    exact Nat.lt_of_lt_of_le hlt (blockAddress_mono hj)
  · obtain ⟨k, hjk, hk⟩ := forward.exists_label hop hl
    rw [address?_labelSymbol annotate name once hk] at ha
    cases ha
    exact Nat.lt_of_lt_of_le hlt (blockAddress_mono hjk)

end Places

end IntLang.Asm
