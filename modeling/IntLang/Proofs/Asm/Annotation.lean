import IntLang.Proofs.Asm.Layout
/-!
Comments in assembly files. A comment of one line adds nothing to the program, whatever the entries
around it are. So the annotated file of a routine assembles to the program of the plain one, or both
are refused for the same cause.
-/
namespace IntLang.Asm

/-- What is wrong with a text, wherever it stands: a line, or a branch whose target is not
defined. -/
def AssemblyError.cause : AssemblyError → LineFault ⊕ String
  | .atLine _ fault => .inl fault
  | .unknownLabel name => .inr name

/-- Both readings give the same program, or are refused for the same cause. -/
inductive Alike : Except AssemblyError Image → Except AssemblyError Image → Prop
  | ok {p} : Alike (.ok p) (.ok p)
  | error {e e'} : e.cause = e'.cause → Alike (.error e) (.error e')

/-- The second lines are the first ones with lines among them that add nothing. -/
inductive Padded : List (List Char) → List (List Char) → Prop
  | nil : Padded [] []
  | line {line lines lines'} : Padded lines lines' → Padded (line :: lines) (line :: lines')
  | silent {line lines lines'} : (∀ p : Image, p.addLine line = .ok p) → Padded lines lines' →
      Padded lines (line :: lines')

namespace Padded

variable {lines lines' more more' : List (List Char)}

theorem refl (lines : List (List Char)) : Padded lines lines := by
  induction lines with
  | nil => exact .nil
  | cons line lines ih => exact .line ih

theorem append (h : Padded lines lines') (h' : Padded more more') :
    Padded (lines ++ more) (lines' ++ more') := by
  induction h with
  | nil => exact h'
  | line _ ih => exact .line ih
  | silent adds _ ih => exact .silent adds ih

theorem addLines (h : Padded lines lines') (p : Image) (n n' : Nat) :
    Alike (p.addLines n lines) (p.addLines n' lines') := by
  induction h generalizing p n n' with
  | nil => exact .ok
  | @line line lines lines' _ ih =>
      rw [Image.addLines, Image.addLines]
      cases p.addLine line with
      | ok p' => exact ih p' _ _
      | error fault => exact .error rfl
  | @silent line lines lines' adds _ ih =>
      rw [Image.addLines, adds]
      exact ih p n _

/-- Lines that add nothing leave no trace in the program of a text. -/
theorem assemble {text text' : String} (h : Padded (Text.pieces '\n' text.toList)
    (Text.pieces '\n' text'.toList)) : Alike (assemble text) (assemble text') := by
  have read := h.addLines .empty 1 1
  rw [Asm.assemble, Asm.assemble]
  generalize Image.empty.addLines 1 (Text.pieces '\n' text.toList) = first at read
  generalize Image.empty.addLines 1 (Text.pieces '\n' text'.toList) = second at read
  cases read with
  | error same => exact .error same
  | @ok p =>
      dsimp only
      cases p.missingTarget? with
      | none => exact .ok
      | some name => exact .error rfl

end Padded

namespace Item

def isComment : Item → Bool
  | .comment _ => true
  | _ => false

def uncommented (items : List Item) : List Item := items.filter fun item => !item.isComment

theorem uncommented_append (items items' : List Item) :
    uncommented (items ++ items') = uncommented items ++ uncommented items' := List.filter_append ..

theorem uncommented_eq_self {items : List Item} (h : ∀ item ∈ items, item.isComment = false) :
    uncommented items = items :=
  List.filter_eq_self.mpr fun item hitem => by rw [h item hitem]; rfl

/-- An entry can take more than one line: a label is printed as it is. -/
theorem pieces_lines (items : List Item) : Text.pieces '\n' (lines items).toList =
    (items.flatMap fun item => Text.pieces '\n' item.lineText) ++ [[]] := by
  rw [lines_toList]
  induction items with
  | nil => rfl
  | cons item items ih =>
      rw [List.flatMap_cons, List.append_assoc, List.singleton_append, Text.pieces_append_separator,
        ih, List.flatMap_cons, List.append_assoc]

theorem file_toList (items : List Item) : (file items).toList =
    "\t.text".toList ++ '\n' :: ("\t.globl\tmain".toList ++ '\n' :: (lines items).toList) := by
  simp [file, directives]

theorem padded_uncommented {items : List Item}
    (single : ∀ content, .comment content ∈ items → '\n' ∉ content.toList) :
    Padded ((uncommented items).flatMap fun item => Text.pieces '\n' item.lineText)
      (items.flatMap fun item => Text.pieces '\n' item.lineText) := by
  induction items with
  | nil => exact .nil
  | cons item items ih =>
      have rest := ih fun content hc => single content (List.mem_cons_of_mem _ hc)
      cases item with
      | comment content =>
          have printable : Printable (.comment content) := single content List.mem_cons_self
          have line := Text.pieces_of_not_mem printable.lineText
          rw [List.flatMap_cons, line]
          exact .silent (fun p => Image.addLine_comment p content) rest
      | instruction i => exact (Padded.refl _).append rest
      | label name => exact (Padded.refl _).append rest

/-- A file assembles as it does without its comments, if each of them keeps to its line. -/
theorem assemble_uncommented {items : List Item}
    (single : ∀ content, .comment content ∈ items → '\n' ∉ content.toList) :
    Alike (assemble (file (uncommented items))) (assemble (file items)) := by
  apply Padded.assemble
  simp only [file_toList, Text.pieces_append_separator, pieces_lines]
  exact (Padded.refl _).append ((Padded.refl _).append
    ((padded_uncommented single).append (.refl _)))

end Item

section Routines

variable (r : Ir.Routine)

theorem isComment_of_mem_block {exit : String} {op : Ir.Op} {item : Item}
    (h : item ∈ block exit op) : item.isComment = false := by
  have code (is : List Instruction) (h : item ∈ is.map .instruction) : item.isComment = false := by
    obtain ⟨i, -, rfl⟩ := List.mem_map.mp h
    rfl
  cases op with
  | label mark =>
      cases List.mem_singleton.mp h
      rfl
  | _ => exact code _ h

theorem uncommented_instructions (is : List Instruction) :
    Item.uncommented (is.map .instruction) = is.map .instruction :=
  Item.uncommented_eq_self (by simp [Item.isComment])

theorem uncommented_annotatedBlock (exit : String) (op : Ir.Op) :
    Item.uncommented (annotatedBlock true exit op) = annotatedBlock false exit op := by
  have kept : Item.uncommented (block exit op) = block exit op :=
    Item.uncommented_eq_self fun _ => isComment_of_mem_block
  rw [annotatedBlock, annotatedBlock, Item.uncommented_append, kept]
  rfl

/-- The entries of a routine without annotation are those of the annotated one without comments. -/
theorem uncommented_routineItems :
    Item.uncommented (routineItems true r) = routineItems false r := by
  have blocks (exit : String) (ops : List Ir.Op) :
      Item.uncommented (ops.flatMap (annotatedBlock true exit)) =
        ops.flatMap (annotatedBlock false exit) := by
    induction ops with
    | nil => rfl
    | cons op ops ih =>
        rw [List.flatMap_cons, Item.uncommented_append, uncommented_annotatedBlock, ih,
          List.flatMap_cons]
  have label (name : String) (items : List Item) :
      Item.uncommented (.label name :: items) = .label name :: Item.uncommented items := rfl
  simp only [routineItems, List.cons_append, label, Item.uncommented_append, blocks,
    uncommented_instructions]

theorem comment_mem_routineItems {content : String} (h : .comment content ∈ routineItems true r) :
    ∃ op ∈ r.ops, content = op.text := by
  have inBlock (exit : String) (op : Ir.Op) (h : .comment content ∈ annotatedBlock true exit op) :
      content = op.text := by
    rcases List.mem_append.mp h with named | code
    · simpa using named
    · cases isComment_of_mem_block code
  simp only [routineItems, List.cons_append, List.mem_cons, List.mem_append, List.mem_map,
    List.mem_flatMap, reduceCtorEq, and_false, exists_false, false_or, or_false] at h
  obtain ⟨op, mem, named⟩ := h
  exact ⟨op, mem, inBlock _ op named⟩

/-- The annotated file of a routine and the plain one assemble to the same program, and so have the
same runs, or are refused for the same cause, whatever the name and the operations of the routine
are. -/
theorem annotation_keeps_program :
    (∃ p, assemble (ofRoutine true r) = .ok p ∧ assemble (ofRoutine false r) = .ok p) ∨
      ∃ e e', assemble (ofRoutine true r) = .error e ∧ assemble (ofRoutine false r) = .error e' ∧
        e.cause = e'.cause := by
  have single (content : String) (h : .comment content ∈ routineItems true r) :
      '\n' ∉ content.toList := by
    obtain ⟨op, -, rfl⟩ := comment_mem_routineItems r h
    exact newline_not_mem_text op
  have alike := Item.assemble_uncommented single
  rw [uncommented_routineItems] at alike
  rw [ofRoutine, ofRoutine]
  generalize assemble (Item.file (routineItems true r)) = annotated at alike
  generalize assemble (Item.file (routineItems false r)) = plain at alike
  cases alike with
  | ok => exact .inl ⟨_, rfl, rfl⟩
  | error same => exact .inr ⟨_, _, rfl, rfl, same.symm⟩

end Routines

end IntLang.Asm
