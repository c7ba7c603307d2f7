import Mathlib.Data.List.Count
import IntLang.Proofs.Asm.Layout
import IntLang.Proofs.Asm.NormalForm
/-!
What is wrong with a file that does not assemble. A file of printable entries is refused for its
labels only: for one that is defined again, or else for a target that is not defined. So the file
of a routine assembles just when its operations define no label twice and every target.
-/
namespace IntLang.Asm

section Files

variable {items : List Item}

theorem Image.names_ofItems (items : List Item) :
    (ofItems items).labels.map Prod.fst = items.filterMap Item.label? := by
  rw [labels_ofItems, ← Item.filterMap_label?]

/-- Lines of printable entries that are not read define a label again. -/
theorem Image.duplicate_of_addLines (printable : ∀ item ∈ items, item.Printable) {p : Image}
    {number : Nat} {e : AssemblyError}
    (h : p.addLines number (items.map Item.lineText ++ [[]]) = .error e) :
    ∃ line name, e = .atLine line (.duplicateLabel name) ∧
      1 < (p.labels.map Prod.fst ++ items.filterMap Item.label?).count name := by
  induction items generalizing p number with
  | nil => cases h
  | cons item items ih =>
      obtain ⟨hitem, hitems⟩ := List.forall_mem_cons.mp printable
      rw [List.map_cons, List.cons_append, addLines] at h
      cases item with
      | instruction i =>
          rw [addLine_instruction p hitem] at h
          exact ih (p := p.push i) hitems h
      | comment content =>
          rw [addLine_comment] at h
          exact ih hitems h
      | label name =>
          have label : Item.label? (.label name) = some name := rfl
          rw [addLine_lineText_label p hitem, define?] at h
          rw [List.filterMap_cons_some label]
          cases known : p.address? name with
          | some address =>
              simp only [known] at h
              cases h
              have defined : name ∈ p.labels.map Prod.fst := by
                by_contra absent
                rw [address?_eq_none_iff.mpr absent] at known
                cases known
              have before := List.count_pos_iff.mpr defined
              refine ⟨number, name, rfl, ?_⟩
              rw [List.count_append, List.count_cons_self]
              omega
          | none =>
              simp only [known] at h
              obtain ⟨line, other, rfl, again⟩ := ih hitems h
              refine ⟨line, other, rfl, ?_⟩
              rwa [List.map_append, List.append_assoc] at again

/-- A file of printable entries is refused for a label that it defines twice or, if there is none,
for a target that it does not define. -/
theorem label_of_assemble_file_error (printable : ∀ item ∈ items, item.Printable)
    {e : AssemblyError} (h : assemble (Item.file items) = .error e) :
    (∃ line name, e = .atLine line (.duplicateLabel name) ∧
      1 < (items.filterMap Item.label?).count name) ∨
    ∃ name, e = .unknownLabel name ∧ name ∉ items.filterMap Item.label? ∧
      ∃ i ∈ items.filterMap Item.instruction?, i.target? = some name := by
  by_cases once : (items.filterMap Item.label?).Nodup
  · right
    rw [assemble_file_of_once printable once] at h
    split at h
    · cases h
    · rename_i name missing
      cases h
      obtain ⟨i, hi, absent⟩ := List.exists_of_findSome?_eq_some missing
      rw [Option.filter_eq_some_iff, Option.isNone_iff_eq_none, Image.address?_eq_none_iff,
        Image.names_ofItems] at absent
      rw [Image.instructions_ofItems] at hi
      exact ⟨name, rfl, absent.2, i, hi, absent.1⟩
  · left
    unfold assemble at h
    split at h
    · rename_i p added
      rw [pieces_file printable] at added
      exact (once (Image.once_of_addLines printable added).1).elim
    · rename_i reason rejected
      cases h
      rw [pieces_file printable] at rejected
      exact Image.duplicate_of_addLines printable rejected

theorem target_of_assemble_file (printable : ∀ item ∈ items, item.Printable) {p : Image}
    (h : assemble (Item.file items) = .ok p) {i : Instruction}
    (hi : i ∈ items.filterMap Item.instruction?) {name : String} (hname : i.target? = some name) :
    name ∈ items.filterMap Item.label? := by
  have found := (readable_of_assemble h).2
  have once := once_of_assemble_file printable h
  rw [assemble_file_of_once printable once] at h
  split at h
  · cases h
    rw [← Image.instructions_ofItems] at hi
    rw [← Image.names_ofItems]
    exact Image.mem_labels_of_missingTarget? found hi hname
  · cases h

end Files

section Routines

variable {r : Ir.Routine} (annotate : Bool)

theorem exists_target_of_opCode {op : Ir.Op} {l : Ir.Label} (h : op.target? = some l)
    (exit : String) : ∃ i ∈ opCode exit op, i.target? = some (labelSymbol l) := by
  cases op with
  | br target | beqz target | bnez target =>
      cases h
      exact ⟨_, List.mem_of_getLast? rfl, rfl⟩
  | _ => cases h

/-- A routine's file defines a label of the code as often as the code does. -/
theorem count_labels (name : RoutineName r.name) (l : Ir.Label) :
    ((routineItems annotate r).filterMap Item.label?).count (labelSymbol l) =
      (Ir.marks r.ops).count l := by
  rw [labels_routineItems, List.count_cons_of_ne (name.unlike l).symm, List.count_append,
    List.count_map_of_injective _ _ fun _ _ => labelSymbol_inj,
    List.count_cons_of_ne (exitSymbol_ne_labelSymbol r.name l), List.count_nil, Nat.add_zero]

theorem labelSymbol_mem_labels (name : RoutineName r.name) (l : Ir.Label) :
    labelSymbol l ∈ (routineItems annotate r).filterMap Item.label? ↔ l ∈ Ir.marks r.ops := by
  rw [← List.count_pos_iff, count_labels annotate name, List.count_pos_iff]

/-- Only labels of the code can be defined twice: the name and the exit are defined once. -/
theorem exists_label_of_again (name : RoutineName r.name) {other : String}
    (again : 1 < ((routineItems annotate r).filterMap Item.label?).count other) :
    ∃ l, other = labelSymbol l ∧ 1 < (Ir.marks r.ops).count l := by
  by_cases code : ∃ l, labelSymbol l = other
  · obtain ⟨l, rfl⟩ := code
    rw [count_labels annotate name] at again
    exact ⟨l, rfl, again⟩
  · have unmarked : ((Ir.marks r.ops).map labelSymbol).count other = 0 := by
      rw [List.count_eq_zero, List.mem_map]
      rintro ⟨l, -, hl⟩
      exact code ⟨l, hl⟩
    rw [labels_routineItems, List.count_cons, List.count_append, unmarked, Nat.zero_add,
      List.count_singleton] at again
    -- The name and the exit would have to be the same for a second definition.
    have apart := exitSymbol_ne r.name
    grind

/-- The operations of a routine that assembles define no label twice and every target. -/
theorem marks_of_assemble (name : RoutineName r.name) {p : Image}
    (h : assemble (ofRoutine annotate r) = .ok p) :
    (Ir.marks r.ops).Nodup ∧
      ∀ op ∈ r.ops, ∀ l, op.target? = some l → l ∈ Ir.marks r.ops := by
  have printable := printable_routineItems annotate r name
  refine ⟨once_of_labels annotate r (once_of_assemble_file printable h), ?_⟩
  intro op hop l hl
  obtain ⟨i, hi, ht⟩ := exists_target_of_opCode hl (exitSymbol r.name)
  rw [← labelSymbol_mem_labels annotate name]
  apply target_of_assemble_file printable h ?_ ht
  rw [instructions_routineItems]
  exact List.mem_append_right _
    (List.mem_append_left _ (List.mem_flatMap.mpr ⟨op, hop, hi⟩))

/-- A routine assembles just when its operations define no label twice and every target that they
have. Otherwise the error names a label that is defined twice or a target that is not defined. -/
theorem ofRoutine_assembles_iff (name : RoutineName r.name) :
    ((∃ p, assemble (ofRoutine annotate r) = .ok p) ↔
      (Ir.marks r.ops).Nodup ∧
        ∀ op ∈ r.ops, ∀ l, op.target? = some l → l ∈ Ir.marks r.ops) ∧
    (∀ e, assemble (ofRoutine annotate r) = .error e →
      (∃ line l, e = .atLine line (.duplicateLabel (labelSymbol l)) ∧
        1 < (Ir.marks r.ops).count l) ∨
      ∃ l, e = .unknownLabel (labelSymbol l) ∧ l ∉ Ir.marks r.ops ∧
        ∃ op ∈ r.ops, op.target? = some l) ∧
    ∀ p, assemble (ofRoutine annotate r) = .ok p →
      (∀ (j : Nat) (l : Ir.Label), r.ops[j]? = some (.label l) →
        p.address? (labelSymbol l) = some (blockAddress r j)) ∧
      p.address? (exitSymbol r.name) = some (blockAddress r r.ops.length) ∧
      p.address? r.name = some 0 := by
  have printable := printable_routineItems annotate r name
  refine ⟨⟨?_, ?_⟩, ?_, ?_⟩
  · rintro ⟨p, h⟩
    exact marks_of_assemble annotate name h
  · rintro ⟨once, targets⟩
    exact ⟨_, assemble_ofRoutine annotate name once targets⟩
  · intro e h
    rcases label_of_assemble_file_error printable h with
      ⟨line, other, rfl, again⟩ | ⟨other, rfl, absent, i, hi, ht⟩
    · obtain ⟨l, rfl, twice⟩ := exists_label_of_again annotate name again
      exact .inl ⟨line, l, rfl, twice⟩
    · right
      rcases target_of_routineItems annotate hi ht with rfl | ⟨op, hop, l, hl, rfl⟩
      · rw [labels_routineItems] at absent
        simp at absent
      · rw [labelSymbol_mem_labels annotate name] at absent
        exact ⟨l, rfl, absent, op, hop, hl⟩
  · intro p h
    obtain ⟨once, targets⟩ := marks_of_assemble annotate name h
    rw [assemble_ofRoutine annotate name once targets] at h
    cases h
    refine ⟨?_, address?_exitSymbol annotate, address?_name annotate⟩
    intro j l hl
    exact address?_labelSymbol annotate name once hl

end Routines

/-- A loop in a routine whose frame is too large for the offset of an immediate. -/
def spin : Ir.Routine :=
  ⟨"spin", [.push 1, .label ⟨.done, 3⟩, .push 1, .bnez ⟨.done, 3⟩, .ret], 600⟩

theorem spin_assembles : RoutineName spin.name ∧
    (∃ p, assemble (ofRoutine true spin) = .ok p ∧ p.address? (labelSymbol ⟨.done, 3⟩) = some 13 ∧
      p.address? ".Lspin_exit" = some 20 ∧ p.address? "spin" = some 0) ∧
    ¬ ∃ p, assemble (ofRoutine true ⟨spin.name, [.br ⟨.otherwise, 3⟩], 0⟩) = .ok p := by
  have name : RoutineName spin.name := .of_head (.of_all rfl rfl) (by decide)
  obtain ⟨assembles, -, places⟩ := ofRoutine_assembles_iff true name
  obtain ⟨p, h⟩ := assembles.mpr (by decide)
  obtain ⟨marks, exit, entry⟩ := places p h
  have lost : RoutineName (Ir.Routine.mk spin.name [.br ⟨.otherwise, 3⟩] 0).name := name
  refine ⟨name, ⟨p, h, marks 1 _ rfl, exit, entry⟩, ?_⟩
  rw [(ofRoutine_assembles_iff true lost).1]
  decide

end IntLang.Asm
