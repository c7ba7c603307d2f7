import Mathlib.Data.List.TakeWhile
import IntLang.Proofs.Asm.Line
/-!
Printed assembly reads back: a file of printable entries assembles to its instructions in order,
with each label at the number of instructions before it.
-/
namespace IntLang.Asm

namespace Item

def label? : Item → Option String
  | .label name => some name
  | _ => none

def lineText : Item → List Char
  | .instruction i => '\t' :: i.text.toList
  | .label name => name.toList ++ [':']
  | .comment content => '\t' :: '#' :: ' ' :: content.toList

/-- A label survives printing if it neither starts nor ends with white space and contains none of
the characters that end it. -/
structure PrintableLabel (name : String) : Prop where
  trimmed : Text.trim name.toList = name.toList
  chars : ∀ c ∈ name.toList, c ≠ '\n' ∧ c ≠ '#' ∧ c ≠ ':'

def Printable : Item → Prop
  | .instruction i => i.Printable
  | .label name => PrintableLabel name
  | .comment content => '\n' ∉ content.toList

theorem line_toList (item : Item) : item.line.toList = item.lineText ++ ['\n'] := by
  cases item <;> simp [line, lineText, text]

theorem lines_toList (items : List Item) :
    (lines items).toList = items.flatMap fun item => item.lineText ++ ['\n'] := by
  simp [lines, String.toList_join, List.flatMap_map, line_toList]

end Item

theorem Instruction.Printable.chars {i : Instruction} (h : i.Printable) {c : Char}
    (hc : c ∈ i.text.toList) : isPlain c = true ∨ c = ' ' ∨ c = ',' := by
  rw [text_toList, List.mem_append] at hc
  rcases hc with hc | hc
  · exact .inl ((plainWord_mnemonic _).plain c hc)
  have words := h.words
  cases hw : i.words with
  | nil =>
      rw [hw] at hc
      cases hc
  | cons word rest =>
      rw [hw] at hc words
      have place : c = ' ' ∨ c ∈ word ∨ ∃ w ∈ rest, c = ',' ∨ c = ' ' ∨ c ∈ w := by
        simpa [operandText] using hc
      rcases place with rfl | hc | ⟨w, hw, rfl | rfl | hc⟩
      · exact .inr (.inl rfl)
      · exact .inl ((words word List.mem_cons_self).plain c hc)
      · exact .inr (.inr rfl)
      · exact .inr (.inl rfl)
      · exact .inl ((words w (List.mem_cons_of_mem _ hw)).plain c hc)

theorem Instruction.Printable.not_special {i : Instruction} (h : i.Printable) {c : Char}
    (hc : c ∈ i.text.toList) : c ≠ '\n' ∧ c ≠ '#' ∧ c ≠ ':' := by
  rcases h.chars hc with hplain | rfl | rfl
  · obtain ⟨hb, -, hh, hcolon⟩ := isPlain_iff.mp hplain
    refine ⟨?_, hh, hcolon⟩
    rintro rfl
    cases hb
  · decide
  · decide

theorem Mnemonic.name_head (m : Mnemonic) : m.name.toList.head? ≠ some '.' := by
  cases m with
  | alu op => cases op <;> decide
  | unary op => cases op <;> decide
  | immediate op => cases op <;> decide
  | branch condition => cases condition <;> decide
  | _ => decide

theorem Instruction.text_head (i : Instruction) :
    ∃ c cs, i.text.toList = c :: cs ∧ Text.isBlank c = false ∧ c ≠ '.' := by
  have name := plainWord_mnemonic i.mnemonic
  have noDot := i.mnemonic.name_head
  rw [text_toList]
  cases hn : i.mnemonic.name.toList with
  | nil => exact (name.ne_nil hn).elim
  | cons c cs =>
      rw [hn] at noDot
      refine ⟨c, cs ++ operandText i.words, rfl, name.not_blank c (by simp [hn]), ?_⟩
      rintro rfl
      exact noDot rfl

theorem Instruction.Printable.text_last {i : Instruction} (h : i.Printable) {c : Char}
    (hc : i.text.toList.getLast? = some c) : Text.isBlank c = false := by
  have name := plainWord_mnemonic i.mnemonic
  have words := h.words
  rw [text_toList] at hc
  cases hw : i.words with
  | nil =>
      rw [hw, operandText, List.append_nil] at hc
      exact name.not_blank c (List.mem_of_getLast? hc)
  | cons word rest =>
      rw [hw] at words hc
      obtain ⟨hword, hrest⟩ := List.forall_mem_cons.mp words
      apply last_not_blank hword hrest
      have hne : word ++ rest.flatMap (fun w => ',' :: ' ' :: w) ≠ [] := by simp [hword.ne_nil]
      rw [operandText, ← List.singleton_append, ← List.append_assoc,
        List.getLast?_append_of_ne_nil _ hne] at hc
      exact hc

theorem Item.Printable.lineText {item : Item} (h : item.Printable) : '\n' ∉ item.lineText := by
  cases item with
  | instruction i =>
      rintro (_ | ⟨_, hc⟩)
      exact (Instruction.Printable.not_special h hc).1 rfl
  | label name =>
      intro hc
      rcases List.mem_append.mp hc with hc | hc
      · exact (PrintableLabel.chars h _ hc).1 rfl
      · cases List.mem_singleton.mp hc
  | comment content =>
      rintro (_ | ⟨_, _ | ⟨_, _ | ⟨_, hc⟩⟩⟩)
      exact h hc

theorem takeWhile_ne_of_not_mem {d : Char} {cs : List Char} (h : ∀ c ∈ cs, c ≠ d) :
    cs.takeWhile (fun c => decide (c ≠ d)) = cs := by
  exact List.takeWhile_eq_self_iff.mpr fun c hc => decide_eq_true (h c hc)

namespace Image

def add (p : Image) : Item → Image
  | .instruction i => p.push i
  | .label name => { p with labels := p.labels ++ [(name, p.size)] }
  | .comment _ => p

def ofItems (items : List Item) : Image := items.foldl add .empty

theorem addLine_instruction (p : Image) {i : Instruction} (h : i.Printable) :
    p.addLine (Item.lineText (.instruction i)) = .ok (p.push i) := by
  obtain ⟨c, cs, htext, hblank, hdot⟩ := i.text_head
  have noHash : ∀ d ∈ Item.lineText (.instruction i), d ≠ '#' := by
    intro d hd
    rcases List.mem_cons.mp hd with rfl | hd
    · decide
    · exact (h.not_special hd).2.1
  have trimmed : Text.trim (Item.lineText (.instruction i)) = i.text.toList := by
    rw [Item.lineText, Text.trim_cons_of_isBlank (by decide)]
    refine Text.trim_of_ends ?_ fun d hd => h.text_last hd
    intro d hd
    rw [htext] at hd
    cases hd
    exact hblank
  have noColon : Text.cut? (fun d => decide (d = ':')) i.text.toList = none :=
    Text.cut?_eq_none fun d hd => decide_eq_false (h.not_special hd).2.2
  have code : ¬ (i.text.toList = [] ∨ i.text.toList.head? = some '.') := by
    simp [htext, hdot]
  simp only [addLine, takeWhile_ne_of_not_mem noHash, trimmed, noColon, addCode, if_neg code,
    Instruction.ofLine_text h]
  rfl

theorem addLine_lineText_label (p : Image) {name : String} (h : Item.PrintableLabel name) :
    p.addLine (Item.lineText (.label name)) =
      match p.define? name with
      | none => .error (.duplicateLabel name)
      | some p' => .ok p' := by
  have noHash : ∀ d ∈ name.toList ++ [':'], d ≠ '#' := by
    intro d hd
    rcases List.mem_append.mp hd with hd | hd
    · exact (h.chars d hd).2.1
    · cases List.mem_singleton.mp hd
      decide
  have trimmed : Text.trim (name.toList ++ [':']) = name.toList ++ [':'] := by
    apply Text.trim_of_ends
    · intro c hc
      cases hn : name.toList with
      | nil =>
          rw [hn] at hc
          cases hc
          decide
      | cons d rest =>
          apply Text.not_blank_of_trim h.trimmed
          rw [hn] at hc ⊢
          exact hc
    · intro c hc
      rw [List.getLast?_append_of_ne_nil _ (by simp)] at hc
      cases hc
      decide
  have cut : Text.cut? (fun d => decide (d = ':')) (name.toList ++ [':']) =
      some (name.toList, []) :=
    Text.cut?_append_cons (fun d hd => decide_eq_false (h.chars d hd).2.2) (by decide) []
  simp only [addLine, Item.lineText, takeWhile_ne_of_not_mem noHash, trimmed, cut, h.trimmed,
    String.ofList_toList]
  rfl

theorem addLine_label (p : Image) {name : String} (h : Item.PrintableLabel name)
    (fresh : p.address? name = none) :
    p.addLine (Item.lineText (.label name)) =
      .ok { p with labels := p.labels ++ [(name, p.size)] } := by
  simp only [addLine_lineText_label p h, define?, fresh]

theorem fresh_of_addLine_label {p p' : Image} {name : String} (h : Item.PrintableLabel name)
    (added : p.addLine (Item.lineText (.label name)) = .ok p') :
    p.address? name = none ∧ p' = { p with labels := p.labels ++ [(name, p.size)] } := by
  rw [addLine_lineText_label p h, define?] at added
  cases known : p.address? name with
  | some address =>
      rw [known] at added
      cases added
  | none =>
      rw [known] at added
      cases added
      exact ⟨rfl, rfl⟩

theorem addLine_comment (p : Image) (content : String) :
    p.addLine (Item.lineText (.comment content)) = .ok p := rfl

theorem address?_append (p : Image) (added : List (String × Nat)) (name : String) :
    ({ p with labels := p.labels ++ added } : Image).address? name =
      (p.address? name).or (added.lookup name) := List.lookup_append

/-- The lines of printable entries add what the entries say. -/
theorem addLines_items {items : List Item} (printable : ∀ item ∈ items, item.Printable)
    (once : (items.filterMap Item.label?).Nodup) {p : Image}
    (fresh : ∀ name ∈ items.filterMap Item.label?, p.address? name = none) (number : Nat)
    (rest : List (List Char)) :
    p.addLines number (items.map Item.lineText ++ rest) =
      (items.foldl add p).addLines (number + items.length) rest := by
  induction items generalizing p number with
  | nil => rfl
  | cons item items ih =>
      obtain ⟨hitem, hitems⟩ := List.forall_mem_cons.mp printable
      have count : number + (item :: items).length = number + 1 + items.length := by
        simp only [List.length_cons]
        omega
      rw [List.map_cons, List.cons_append, addLines, List.foldl_cons, count]
      cases item with
      | instruction i =>
          rw [addLine_instruction p hitem]
          exact ih (p := p.push i) hitems once fresh (number + 1)
      | comment content =>
          rw [addLine_comment]
          exact ih hitems once fresh (number + 1)
      | label name =>
          simp only [List.filterMap_cons, Item.label?] at once fresh
          obtain ⟨hname, once⟩ := List.nodup_cons.mp once
          obtain ⟨hfresh, fresh⟩ := List.forall_mem_cons.mp fresh
          rw [addLine_label p hitem hfresh]
          refine ih hitems once ?_ (number + 1)
          intro other hother
          have ne : (other == name) = false := by
            apply beq_eq_false_iff_ne.mpr
            rintro rfl
            exact hname hother
          simp [address?_append, fresh other hother, List.lookup_cons, ne]

/-- Lines of printable entries that are read define no label twice. -/
theorem once_of_addLines {items : List Item} (printable : ∀ item ∈ items, item.Printable)
    {p q : Image} {number : Nat} {rest : List (List Char)}
    (h : p.addLines number (items.map Item.lineText ++ rest) = .ok q) :
    (items.filterMap Item.label?).Nodup ∧
      ∀ name ∈ items.filterMap Item.label?, p.address? name = none := by
  induction items generalizing p number with
  | nil => exact ⟨List.nodup_nil, nofun⟩
  | cons item items ih =>
      obtain ⟨hitem, hitems⟩ := List.forall_mem_cons.mp printable
      rw [List.map_cons, List.cons_append, addLines] at h
      cases item with
      | instruction i =>
          rw [addLine_instruction p hitem] at h
          exact ih (p := p.push i) hitems h
      | comment content =>
          rw [addLine_comment] at h
          exact ih hitems h
      | label name =>
          split at h
          · rename_i p' added
            obtain ⟨fresh, rfl⟩ := fresh_of_addLine_label hitem added
            obtain ⟨once, others⟩ := ih hitems h
            have apart (other : String) (hother : other ∈ items.filterMap Item.label?) :
                p.address? other = none ∧ other ≠ name := by
              have unknown := others other hother
              rw [address?_append, Option.or_eq_none_iff, List.lookup_cons] at unknown
              refine ⟨unknown.1, ?_⟩
              rintro rfl
              rw [beq_self_eq_true] at unknown
              cases unknown.2
            refine ⟨List.nodup_cons.mpr ⟨fun hmem => (apart name hmem).2 rfl, once⟩, ?_⟩
            exact List.forall_mem_cons.mpr ⟨fresh, fun other hother => (apart other hother).1⟩
          · cases h

theorem instructions_foldl (items : List Item) (p : Image) :
    (items.foldl add p).instructions.toList =
      p.instructions.toList ++ items.filterMap Item.instruction? := by
  induction items generalizing p with
  | nil => simp
  | cons item items ih =>
      rw [List.foldl_cons, ih]
      cases item <;> simp [add, push, Item.instruction?, List.filterMap_cons]

theorem instructions_ofItems (items : List Item) :
    (ofItems items).instructions.toList = items.filterMap Item.instruction? := by
  rw [ofItems, instructions_foldl]
  rfl

theorem size_ofItems (items : List Item) :
    (ofItems items).size = (items.filterMap Item.instruction?).length := by
  rw [size, ← Array.length_toList, instructions_ofItems]

theorem address?_foldl {items : List Item} {name : String}
    (h : name ∉ items.filterMap Item.label?) (p : Image) :
    (items.foldl add p).address? name = p.address? name := by
  induction items generalizing p with
  | nil => rfl
  | cons item items ih =>
      rw [List.foldl_cons]
      cases item with
      | instruction i => exact ih h (p.push i)
      | comment content => exact ih h p
      | label other =>
          simp only [List.filterMap_cons, Item.label?] at h
          obtain ⟨hne, hitems⟩ := List.ne_and_not_mem_of_not_mem_cons h
          have beq : (name == other) = false := beq_eq_false_iff_ne.mpr hne
          rw [ih hitems]
          simp [add, address?_append, List.lookup_cons, beq]

theorem address?_foldl_of_some {items : List Item} {name : String} {p : Image} {address : Nat}
    (h : p.address? name = some address) : (items.foldl add p).address? name = some address := by
  induction items generalizing p with
  | nil => exact h
  | cons item items ih =>
      apply ih
      cases item with
      | instruction i => exact h
      | comment content => exact h
      | label other => simp [add, address?_append, h]

/-- The first definition of a label names the number of instructions before it. -/
theorem address?_ofItems {front : List Item} {name : String}
    (h : name ∉ front.filterMap Item.label?) (behind : List Item) :
    (ofItems (front ++ .label name :: behind)).address? name =
      some (front.filterMap Item.instruction?).length := by
  rw [ofItems, List.foldl_append, List.foldl_cons]
  refine address?_foldl_of_some ?_
  have unnamed : (front.foldl add empty).address? name = none := address?_foldl h empty
  rw [add, address?_append, unnamed, ← size_ofItems]
  simp [ofItems]

theorem address?_ofItems_ne_none {items : List Item} {name : String}
    (once : (items.filterMap Item.label?).Nodup) (h : name ∈ items.filterMap Item.label?) :
    (ofItems items).address? name ≠ none := by
  obtain ⟨item, hmem, hname⟩ := List.mem_filterMap.mp h
  obtain ⟨front, behind, rfl⟩ := List.append_of_mem hmem
  rw [List.filterMap_append, List.filterMap_cons_some hname] at once
  have fresh : name ∉ front.filterMap Item.label? := fun hfront =>
    (List.nodup_append.mp once).2.2 name hfront name List.mem_cons_self rfl
  cases item with
  | label other =>
      cases hname
      rw [address?_ofItems fresh]
      exact Option.some_ne_none _
  | _ => cases hname

theorem missingTarget?_eq_none {p : Image}
    (h : ∀ i ∈ p.instructions.toList, ∀ l, i.target? = some l → p.address? l ≠ none) :
    p.missingTarget? = none := by
  apply List.findSome?_eq_none_iff.mpr
  intro i hi
  cases ht : i.target? with
  | none => rfl
  | some l =>
      have defined := h i hi l ht
      simp [Option.filter_some, defined]

end Image

theorem pieces_file {items : List Item} (printable : ∀ item ∈ items, item.Printable) :
    Text.pieces '\n' (Item.file items).toList =
      "\t.text".toList :: "\t.globl\tmain".toList :: (items.map Item.lineText ++ [[]]) := by
  have entries : Text.pieces '\n' (Item.lines items).toList =
      items.map Item.lineText ++ [[]] := by
    rw [Item.lines_toList, Text.pieces_lines fun item hitem => (printable item hitem).lineText]
  have split : (Item.file items).toList =
      "\t.text".toList ++ '\n' :: ("\t.globl\tmain".toList ++ '\n' ::
        (Item.lines items).toList) := by
    simp [Item.file, Item.directives]
  rw [split, Text.pieces_append_cons (by decide), Text.pieces_append_cons (by decide), entries]

/-- If a file of printable entries assembles, no label is defined twice. -/
theorem once_of_assemble_file {items : List Item} (printable : ∀ item ∈ items, item.Printable)
    {p : Image} (h : assemble (Item.file items) = .ok p) :
    (items.filterMap Item.label?).Nodup := by
  unfold assemble at h
  split at h
  · rename_i q added
    rw [pieces_file printable] at added
    change Image.empty.addLines 3 (items.map Item.lineText ++ [[]]) = .ok q at added
    exact (Image.once_of_addLines printable added).1
  · cases h

/-- Printable entries that define no label twice make up a program, of which only the targets are
left to be looked up. -/
theorem assemble_file_of_once {items : List Item} (printable : ∀ item ∈ items, item.Printable)
    (once : (items.filterMap Item.label?).Nodup) :
    assemble (Item.file items) =
      match (Image.ofItems items).missingTarget? with
      | none => .ok (.ofItems items)
      | some name => .error (.unknownLabel name) := by
  have lines : Image.empty.addLines 1 (Text.pieces '\n' (Item.file items).toList) =
      .ok (.ofItems items) := by
    rw [pieces_file printable]
    change Image.empty.addLines 3 (items.map Item.lineText ++ [[]]) = _
    rw [Image.addLines_items printable once fun _ _ => rfl]
    rfl
  cases missing : (Image.ofItems items).missingTarget? <;> simp only [assemble, lines, missing]

/-- A file of printable entries assembles to the program of its entries, if no label is defined
twice and every branch has a target. -/
theorem assemble_file {items : List Item} (printable : ∀ item ∈ items, item.Printable)
    (once : (items.filterMap Item.label?).Nodup)
    (targets : ∀ i ∈ items.filterMap Item.instruction?, ∀ l, i.target? = some l →
      l ∈ items.filterMap Item.label?) :
    assemble (Item.file items) = .ok (.ofItems items) := by
  have defined : (Image.ofItems items).missingTarget? = none := by
    apply Image.missingTarget?_eq_none
    intro i hi l hl
    rw [Image.instructions_ofItems] at hi
    exact Image.address?_ofItems_ne_none once (targets i hi l hl)
  rw [assemble_file_of_once printable once, defined]

end IntLang.Asm
