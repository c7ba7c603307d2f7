import IntLang.Machine.Run
import IntLang.Proofs.Asm.RoundTrip
/-!
Emission. A list of entries can be emitted if its labels and comments keep to their lines, its
branches go to labels that an operand can name, and its immediates fit their fields. The emitted
file then assembles to the instructions of the list and to its labels.
-/
namespace IntLang.Asm

/-- The word that the instruction keeps in its immediate field. -/
def Instruction.field? : Instruction → Option Word
  | .immediate _ _ _ value => some value
  | .lw _ offset _ | .sw _ offset _ => some offset
  | _ => none

/-- The operand of a branch can name the label: some characters, none of which is white space or
parts operands. -/
structure TargetName (name : String) : Prop where
  ne_empty : name ≠ ""
  chars : ∀ c ∈ name.toList, Text.isBlank c = false ∧ c ≠ ','

structure Emittable (items : List Item) : Prop where
  once : (items.filterMap Item.label?).Nodup
  label : ∀ name ∈ items.filterMap Item.label?, Item.PrintableLabel name
  comment : ∀ content, .comment content ∈ items → '\n' ∉ content.toList
  target : ∀ i ∈ items.filterMap Item.instruction?, ∀ name ∈ i.target?,
    name ∈ items.filterMap Item.label? ∧ TargetName name
  field : ∀ i ∈ items.filterMap Item.instruction?, ∀ w ∈ i.field?, fitsImmediate w = true

/-- A label that a branch can name is a plain word. -/
theorem TargetName.plainWord {name : String} (h : TargetName name)
    (label : Item.PrintableLabel name) : PlainWord name.toList := by
  constructor
  · intro hnil
    exact h.ne_empty (String.toList_eq_nil_iff.mp hnil)
  · intro c hc
    obtain ⟨blank, comma⟩ := h.chars c hc
    obtain ⟨-, hash, colon⟩ := label.chars c hc
    exact isPlain_iff.mpr ⟨blank, comma, hash, colon⟩

theorem Instruction.printable_of_fits {i : Instruction}
    (field : ∀ w ∈ i.field?, fitsImmediate w = true)
    (target : ∀ name ∈ i.target?, PlainWord name.toList) : i.Printable := by
  cases i with
  | immediate op rd rs value => exact field value rfl
  | lw rd offset base | sw rs offset base => exact field offset rfl
  | branch condition rs name | j name => exact target name rfl
  | _ => trivial

theorem Instruction.fits_of_printable {i : Instruction} (h : i.Printable) :
    ∀ w ∈ i.field?, fitsImmediate w = true := by
  intro w hw
  cases i <;> cases hw <;> exact h

namespace Emittable

variable {items : List Item}

theorem printable (e : Emittable items) : ∀ item ∈ items, item.Printable := by
  intro item hitem
  cases item with
  | instruction i =>
      have hi : i ∈ items.filterMap Item.instruction? := List.mem_filterMap.mpr ⟨_, hitem, rfl⟩
      refine Instruction.printable_of_fits (e.field i hi) ?_
      intro name hname
      obtain ⟨hlabel, target⟩ := e.target i hi name hname
      exact target.plainWord (e.label name hlabel)
  | label name => exact e.label name (List.mem_filterMap.mpr ⟨_, hitem, rfl⟩)
  | comment content => exact e.comment content hitem

theorem assemble_eq (e : Emittable items) : assemble (Item.file items) = .ok (.ofItems items) :=
  assemble_file e.printable e.once fun i hi name hname => (e.target i hi name hname).1

theorem address? (e : Emittable items) {front behind : List Item} {name : String}
    (h : items = front ++ .label name :: behind) :
    (Image.ofItems items).address? name = some (front.filterMap Item.instruction?).length := by
  subst h
  apply Image.address?_ofItems
  intro hfront
  have once := e.once
  rw [List.filterMap_append] at once
  exact (List.nodup_append.mp once).2.2 name hfront name List.mem_cons_self rfl

end Emittable

theorem Image.address?_ofItems_eq_none {items : List Item} {name : String}
    (h : name ∉ items.filterMap Item.label?) : (ofItems items).address? name = none :=
  address?_foldl h .empty

/-- The emitted file of such entries assembles. The program has the instructions of the list in
their order, its labels name the numbers of instructions before them, and no other name is known:
a call of it leaves the machine as it is. -/
theorem emitted_file_assembles {items : List Item} (e : Emittable items) :
    ∃ p, assemble (Item.file items) = .ok p ∧
      p.instructions.toList = items.filterMap Item.instruction? ∧
      (∀ front name behind, items = front ++ .label name :: behind →
        p.address? name = some (front.filterMap Item.instruction?).length) ∧
      ∀ name, name ∉ items.filterMap Item.label? → p.address? name = none ∧
        ∀ m : Machine, m.run p name = (.error (.unknownEntry name), m) := by
  refine ⟨_, e.assemble_eq, Image.instructions_ofItems items, ?_, ?_⟩
  · intro front name behind h
    exact e.address? h
  · intro name h
    have unknown := Image.address?_ofItems_eq_none h
    refine ⟨unknown, ?_⟩
    intro m
    simp only [Machine.run, unknown]

/-- Entries with a label that has a blank inside, one without characters, a comment that holds what
would end a label, and immediates at both ends of their range. -/
def tightEntries : List Item :=
  [.label "main", .comment "a: # b", .instruction (.branch .zero .t1 ".Lend"),
    .instruction (.addi .sp .sp (-2048)), .label "a b", .instruction (.lw .a0 2047 .sp),
    .label ".Lend", .label "", .instruction .ret]

def tightInstructions : List Instruction :=
  [.branch .zero .t1 ".Lend", .addi .sp .sp (-2048), .lw .a0 2047 .sp, .ret]

theorem tightEntries_assemble : Emittable tightEntries ∧
    ∃ p, assemble (Item.file tightEntries) = .ok p ∧ p.address? "a b" = some 2 ∧
      p.address? "" = some 3 ∧ p.address? "b" = none := by
  have e : Emittable tightEntries := by
    refine ⟨by decide, ?_, ?_, ?_, ?_⟩
    · intro name hname
      have names : name ∈ ["main", "a b", ".Lend", ""] := hname
      simp only [List.mem_cons, List.not_mem_nil, or_false] at names
      rcases names with rfl | rfl | rfl | rfl <;> exact ⟨by decide, by simp⟩
    · intro content hcontent
      simp only [tightEntries, List.mem_cons, reduceCtorEq, Item.comment.injEq, false_or,
        List.not_mem_nil, or_false] at hcontent
      subst hcontent
      decide
    · intro i hi name hname
      have instructions : i ∈ tightInstructions := hi
      simp only [tightInstructions, List.mem_cons, List.not_mem_nil, or_false] at instructions
      rcases instructions with rfl | rfl | rfl | rfl
      · cases hname
        exact ⟨by decide, by decide, by simp [Text.isBlank]⟩
      all_goals cases hname
    · intro i hi w hw
      have instructions : i ∈ tightInstructions := hi
      simp only [tightInstructions, List.mem_cons, List.not_mem_nil, or_false] at instructions
      rcases instructions with rfl | rfl | rfl | rfl <;> cases hw <;> decide
  obtain ⟨p, assembled, -, labels, unknown⟩ := emitted_file_assembles e
  exact ⟨e, p, assembled, labels (tightEntries.take 4) _ _ rfl,
    labels (tightEntries.take 7) _ _ rfl, (unknown "b" (by decide)).1⟩

end IntLang.Asm
