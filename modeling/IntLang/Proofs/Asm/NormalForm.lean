import Mathlib.Data.List.Nodup
import Mathlib.Data.List.Perm.Basic
import IntLang.Proofs.Asm.Emission
import IntLang.Proofs.Stateful
import IntLang.Proofs.Text.Parts
/-!
The normal form of assembled programs. Whatever text a program was read from, its instructions have
immediates that fit and targets that a printed operand can name, and its labels keep to their lines.
So the program can be listed, each label before the instruction at its address, and the listing
assembles to it again.
-/
namespace IntLang.Asm

/-- The labels of entries, each with the number of instructions before it, of which `n` stand before
the entries. -/
def Item.placed (n : Nat) : List Item → List (String × Nat)
  | [] => []
  | .instruction _ :: items => placed (n + 1) items
  | .label name :: items => (name, n) :: placed n items
  | .comment _ :: items => placed n items

namespace Image

/-- The entries are the program's instructions in their order and one entry for each of its labels,
just before the instruction at its address or, where that is the program's size, at the end. -/
structure Listing (p : Image) (items : List Item) : Prop where
  instructions : items.filterMap Item.instruction? = p.instructions.toList
  labels : (Item.placed 0 items).Perm p.labels
  bare : ∀ content, .comment content ∉ items

def labelItems (labels : List (String × Nat)) (address : Nat) : List Item :=
  (labels.filter (·.2 = address)).map (.label ·.1)

/-- The entries of instructions, of which the first has that address, and of the labels from there
on. -/
def listFrom (labels : List (String × Nat)) (address : Nat) : List Instruction → List Item
  | [] => labelItems labels address
  | i :: rest => labelItems labels address ++ .instruction i :: listFrom labels (address + 1) rest

/-- The program's entries. Labels of one address stand in order of definition. -/
def items (p : Image) : List Item := listFrom p.labels 0 p.instructions.toList

end Image

/-- An instruction as it is read: its immediate fits, and a printed operand can name its target. -/
structure Instruction.Readable (i : Instruction) : Prop where
  field : ∀ w ∈ i.field?, fitsImmediate w = true
  target : ∀ name ∈ i.target?, TargetName name

/-- A program as it is read, before its targets are looked up. -/
structure Image.Readable (p : Image) : Prop where
  instruction : ∀ i ∈ p.instructions.toList, i.Readable
  once : (p.labels.map Prod.fst).Nodup
  label : ∀ l ∈ p.labels, Item.PrintableLabel l.1 ∧ l.2 ≤ p.size

section Reading

theorem Operand.fits_of_narrow {w value : Word} (h : Operand.narrow w = .ok value) :
    fitsImmediate value = true := by
  rw [Operand.narrow] at h
  split at h
  · cases h
    assumption
  · cases h

theorem Operand.fits_of_address {cs : List Char} {offset : Word} {base : Register}
    (h : Operand.address cs = .ok (offset, base)) : fitsImmediate offset = true := by
  rw [Operand.address] at h
  split at h
  · cases h
  · rename_i written rest cut
    have read {value : Word} (h : (do
        let base ← register (Text.trim rest.dropLast)
        let value ← narrow value
        .ok (value, base)) = .ok (offset, base)) : fitsImmediate offset = true := by
      obtain ⟨r, -, h⟩ := exists_of_bind h
      obtain ⟨narrowed, narrow, h⟩ := exists_of_bind h
      cases h
      exact fits_of_narrow narrow
    split at h
    · dsimp only at h
      split at h
      · exact read h
      · split at h
        · exact read h
        · cases h
    · cases h

/-- A label that is read as an operand, which has no comma, can be named in print. -/
theorem Operand.targetName_of_label {cs : List Char} {name : String}
    (h : Operand.label cs = .ok name) (noComma : ',' ∉ cs) : TargetName name := by
  rw [Operand.label] at h
  split at h
  · cases h
  · rename_i accepted
    cases h
    obtain ⟨nonempty, noBlank⟩ := not_or.mp accepted
    constructor
    · rw [ne_eq, String.ofList_eq_empty_iff]
      exact nonempty
    · intro c hc
      rw [String.toList_ofList] at hc
      refine ⟨?_, ne_of_mem_of_not_mem hc noComma⟩
      rw [Bool.not_eq_true, List.any_eq_false] at noBlank
      exact Bool.eq_false_iff.mpr (noBlank c hc)

theorem Instruction.readable_of_plain {i : Instruction} (field : i.field? = none)
    (target : i.target? = none) : i.Readable := by
  constructor
  · intro w hw
    rw [field] at hw
    cases hw
  · intro name hname
    rw [target] at hname
    cases hname

/-- Operands without commas are read as a readable instruction. -/
theorem Instruction.ofOperands_readable {m : Mnemonic} {operands : List (List Char)}
    {i : Instruction} (h : ofOperands m operands = .ok i) (noComma : ∀ w ∈ operands, ',' ∉ w) :
    i.Readable := by
  unfold ofOperands at h
  split at h
  case h_1 =>
      obtain ⟨rd, -, h⟩ := exists_of_bind h
      obtain ⟨rs, -, h⟩ := exists_of_bind h
      obtain ⟨rt, -, h⟩ := exists_of_bind h
      cases h
      exact readable_of_plain rfl rfl
  case h_2 =>
      obtain ⟨rd, -, h⟩ := exists_of_bind h
      obtain ⟨rs, -, h⟩ := exists_of_bind h
      cases h
      exact readable_of_plain rfl rfl
  case h_3 =>
      obtain ⟨rd, -, h⟩ := exists_of_bind h
      obtain ⟨rs, -, h⟩ := exists_of_bind h
      obtain ⟨w, -, h⟩ := exists_of_bind h
      obtain ⟨value, narrow, h⟩ := exists_of_bind h
      cases h
      refine ⟨?_, nofun⟩
      rintro w ⟨⟩
      exact Operand.fits_of_narrow narrow
  case h_4 =>
      obtain ⟨rd, -, h⟩ := exists_of_bind h
      obtain ⟨value, -, h⟩ := exists_of_bind h
      cases h
      exact readable_of_plain rfl rfl
  case h_5 | h_6 =>
      obtain ⟨r, -, h⟩ := exists_of_bind h
      obtain ⟨⟨offset, base⟩, address, h⟩ := exists_of_bind h
      cases h
      refine ⟨?_, nofun⟩
      rintro w ⟨⟩
      exact Operand.fits_of_address address
  case h_7 =>
      obtain ⟨rs, -, h⟩ := exists_of_bind h
      obtain ⟨name, label, h⟩ := exists_of_bind h
      cases h
      refine ⟨nofun, ?_⟩
      rintro name ⟨⟩
      exact Operand.targetName_of_label label (noComma _ (by simp))
  case h_8 =>
      obtain ⟨name, label, h⟩ := exists_of_bind h
      cases h
      refine ⟨nofun, ?_⟩
      rintro name ⟨⟩
      exact Operand.targetName_of_label label (noComma _ (by simp))
  case h_9 =>
      cases h
      exact readable_of_plain rfl rfl
  case h_10 => cases h

theorem Instruction.not_comma_of_mem_operands {cs w : List Char} (h : w ∈ operands cs) :
    ',' ∉ w := by
  rw [operands] at h
  split at h
  · cases h
  · obtain ⟨piece, hpiece, rfl⟩ := List.mem_map.mp h
    intro hc
    exact Text.not_mem_of_mem_pieces hpiece (Text.mem_of_mem_trim hc)

theorem Instruction.ofLine_readable {cs : List Char} {i : Instruction} (h : ofLine cs = .ok i) :
    i.Readable := by
  simp only [ofLine] at h
  split at h
  · exact ofOperands_readable h fun w hw => not_comma_of_mem_operands hw
  · cases h

/-- A label of a line, which has no line feed, keeps to a line of its own in print. -/
theorem printableLabel_of_cut {line before after : List Char} (noFeed : '\n' ∉ line)
    (cut : Text.cut? (· = ':') (Text.trim (line.takeWhile (· ≠ '#'))) = some (before, after)) :
    Item.PrintableLabel (String.ofList (Text.trim before)) := by
  obtain ⟨⟨s, -, append⟩, noColon⟩ := Text.cut?_eq_some cut
  constructor
  · rw [String.toList_ofList, Text.trim_trim]
  · intro c hc
    rw [String.toList_ofList] at hc
    have inBefore : c ∈ before := Text.mem_of_mem_trim hc
    have inLine : c ∈ line.takeWhile (· ≠ '#') := by
      apply Text.mem_of_mem_trim
      rw [append]
      exact List.mem_append_left _ inBefore
    refine ⟨?_, ?_, ?_⟩
    · exact ne_of_mem_of_not_mem ((List.takeWhile_sublist _).subset inLine) noFeed
    · have := List.mem_takeWhile_imp inLine
      exact of_decide_eq_true this
    · exact of_decide_eq_false (noColon c inBefore)

end Reading

namespace Image

theorem address?_eq_none_iff {p : Image} {name : String} :
    p.address? name = none ↔ name ∉ p.labels.map Prod.fst := by
  rw [address?, List.lookup_eq_none_iff]
  simp only [List.mem_map, not_exists, not_and]
  grind

namespace Readable

variable {p p' : Image}

theorem empty : Readable .empty :=
  ⟨fun _ hi => (List.not_mem_nil hi).elim, List.nodup_nil, fun _ hl => (List.not_mem_nil hl).elim⟩

theorem push (h : p.Readable) {i : Instruction} (hi : i.Readable) : (p.push i).Readable := by
  refine ⟨?_, h.once, ?_⟩
  · intro j hj
    rw [Image.push, Array.toList_push, List.mem_append, List.mem_singleton] at hj
    rcases hj with hj | rfl
    · exact h.instruction j hj
    · exact hi
  · intro l hl
    obtain ⟨printable, bound⟩ := h.label l hl
    refine ⟨printable, ?_⟩
    have size : (p.push i).size = p.size + 1 := Array.size_push i
    omega

theorem define (h : p.Readable) {name : String} (printable : Item.PrintableLabel name)
    (defined : p.define? name = some p') : p'.Readable := by
  rw [define?] at defined
  split at defined
  · cases defined
  · rename_i unnamed
    cases defined
    refine ⟨h.instruction, ?_, ?_⟩
    · have fresh := address?_eq_none_iff.mp unnamed
      rw [List.map_append, List.map_cons, List.map_nil]
      exact List.nodup_append.mpr ⟨h.once, List.nodup_singleton _,
        fun a ha b hb => by
          cases List.mem_singleton.mp hb
          exact ne_of_mem_of_not_mem ha fresh⟩
    · intro l hl
      rcases List.mem_append.mp hl with hl | hl
      · exact h.label l hl
      · cases List.mem_singleton.mp hl
        exact ⟨printable, Nat.le_refl _⟩

theorem addCode (h : p.Readable) {cs : List Char} (added : p.addCode cs = .ok p') :
    p'.Readable := by
  rw [Image.addCode] at added
  split at added
  · cases added
    exact h
  · cases hi : Instruction.ofLine cs with
    | error fault =>
        rw [hi] at added
        cases added
    | ok i =>
        rw [hi] at added
        cases added
        exact h.push (Instruction.ofLine_readable hi)

theorem addLine (h : p.Readable) {line : List Char} (noFeed : '\n' ∉ line)
    (added : p.addLine line = .ok p') : p'.Readable := by
  rw [Image.addLine] at added
  split at added
  · exact h.addCode added
  · rename_i before after cut
    split at added
    · cases added
    · rename_i q defined
      exact (h.define (printableLabel_of_cut noFeed cut) defined).addCode added

theorem addLines (h : p.Readable) {lines : List (List Char)} (noFeed : ∀ line ∈ lines, '\n' ∉ line)
    {number : Nat} (added : p.addLines number lines = .ok p') : p'.Readable := by
  induction lines generalizing p number with
  | nil =>
      cases added
      exact h
  | cons line rest ih =>
      obtain ⟨hline, hrest⟩ := List.forall_mem_cons.mp noFeed
      rw [Image.addLines] at added
      split at added
      · rename_i q hq
        exact ih (h.addLine hline hq) hrest added
      · cases added

end Readable

/-- If no target is missing, each is a label. -/
theorem mem_labels_of_missingTarget? {p : Image} (h : p.missingTarget? = none) {i : Instruction}
    (hi : i ∈ p.instructions.toList) {name : String} (hname : name ∈ i.target?) :
    name ∈ p.labels.map Prod.fst := by
  have present := List.findSome?_eq_none_iff.mp h i hi
  rw [Option.mem_def.mp hname, Option.filter_some] at present
  apply Classical.byContradiction
  intro absent
  rw [address?_eq_none_iff.mpr absent] at present
  cases present

end Image

/-- What a text assembles to. -/
theorem readable_of_assemble {text : String} {p : Image} (accepted : assemble text = .ok p) :
    p.Readable ∧ p.missingTarget? = none := by
  rw [assemble] at accepted
  split at accepted
  · rename_i q lines
    split at accepted
    · rename_i found
      cases accepted
      refine ⟨?_, found⟩
      exact Image.Readable.empty.addLines (fun line hline => Text.not_mem_of_mem_pieces hline) lines
    · cases accepted
  · cases accepted

namespace Item

theorem filterMap_label? (n : Nat) (items : List Item) :
    items.filterMap label? = (placed n items).map Prod.fst := by
  induction items generalizing n with
  | nil => rfl
  | cons item items ih =>
      cases item with
      | instruction i => exact ih (n + 1)
      | label name => exact congrArg (name :: ·) (ih n)
      | comment content => exact ih n

end Item

namespace Image

theorem labels_foldl (items : List Item) (p : Image) :
    (items.foldl add p).labels = p.labels ++ Item.placed p.size items := by
  induction items generalizing p with
  | nil => exact (List.append_nil _).symm
  | cons item items ih =>
      rw [List.foldl_cons, ih]
      cases item with
      | instruction i =>
          have size : (p.add (.instruction i)).size = p.size + 1 := Array.size_push i
          rw [size]
          rfl
      | label name => exact List.append_assoc ..
      | comment content => rfl

theorem labels_ofItems (items : List Item) : (ofItems items).labels = Item.placed 0 items :=
  labels_foldl items .empty

theorem address?_eq_some_iff {p : Image} (once : (p.labels.map Prod.fst).Nodup) {name : String}
    {address : Nat} : p.address? name = some address ↔ (name, address) ∈ p.labels := by
  rw [address?, List.lookup_eq_some_iff]
  constructor
  · rintro ⟨front, behind, append, -⟩
    rw [append]
    exact List.mem_append_right _ List.mem_cons_self
  · intro hmem
    obtain ⟨front, behind, append⟩ := List.append_of_mem hmem
    refine ⟨front, behind, append, ?_⟩
    intro l hl
    rw [append, List.map_append, List.map_cons] at once
    have apart := (List.nodup_append.mp once).2.2 l.1 (List.mem_map_of_mem hl) name
      List.mem_cons_self
    exact bne_iff_ne.mpr (Ne.symm apart)

/-- Programs with the same labels, each once, know the same addresses. -/
theorem address?_of_perm {p q : Image} (perm : q.labels.Perm p.labels)
    (once : (p.labels.map Prod.fst).Nodup) (name : String) : q.address? name = p.address? name := by
  have once' : (q.labels.map Prod.fst).Nodup := (perm.map Prod.fst).nodup_iff.mpr once
  apply Option.ext
  intro address
  rw [address?_eq_some_iff once', address?_eq_some_iff once, perm.mem_iff]

section List

variable (labels : List (String × Nat))

theorem filterMap_instruction?_labelItems (address : Nat) (items : List Item) :
    (labelItems labels address ++ items).filterMap Item.instruction? =
      items.filterMap Item.instruction? := by
  have none : (labelItems labels address).filterMap Item.instruction? = [] := by
    rw [List.filterMap_eq_nil_iff, labelItems]
    intro item hitem
    obtain ⟨l, -, rfl⟩ := List.mem_map.mp hitem
    rfl
  rw [List.filterMap_append, none, List.nil_append]

theorem placed_labelItems (address : Nat) (items : List Item) :
    Item.placed address (labelItems labels address ++ items) =
      labels.filter (·.2 = address) ++ Item.placed address items := by
  induction labels with
  | nil => rfl
  | cons l labels ih =>
      rw [labelItems] at ih ⊢
      by_cases hl : l.2 = address
      · have kept : decide (l.2 = address) = true := decide_eq_true hl
        rw [List.filter_cons, if_pos kept, List.map_cons, List.cons_append, Item.placed, ih,
          List.cons_append, ← hl]
      · have dropped : decide (l.2 = address) ≠ true := by simpa using hl
        rw [List.filter_cons, if_neg dropped, ih]

theorem instructions_listFrom (address : Nat) (instructions : List Instruction) :
    (listFrom labels address instructions).filterMap Item.instruction? = instructions := by
  induction instructions generalizing address with
  | nil =>
      rw [listFrom, ← List.append_nil (labelItems _ _), filterMap_instruction?_labelItems]
      rfl
  | cons i rest ih =>
      rw [listFrom, filterMap_instruction?_labelItems]
      exact congrArg (i :: ·) (ih (address + 1))

/-- The listing from an address on places the labels that have this address or a later one. -/
theorem placed_listFrom {address : Nat} {instructions : List Instruction}
    (bound : ∀ l ∈ labels, l.2 ≤ address + instructions.length) :
    (Item.placed address (listFrom labels address instructions)).Perm
      (labels.filter (address ≤ ·.2)) := by
  induction instructions generalizing address with
  | nil =>
      rw [listFrom, ← List.append_nil (labelItems _ _), placed_labelItems]
      rw [Item.placed, List.append_nil]
      apply List.Perm.of_eq
      apply List.filter_congr
      intro l hl
      have := bound l hl
      rw [List.length_nil] at this
      rw [decide_eq_decide]
      omega
  | cons i rest ih =>
      have later : (Item.placed (address + 1) (listFrom labels (address + 1) rest)).Perm
          (labels.filter (address + 1 ≤ ·.2)) := by
        refine ih fun l hl => ?_
        have := bound l hl
        rw [List.length_cons] at this
        omega
      rw [listFrom, placed_labelItems, Item.placed]
      refine (later.append_left _).trans ?_
      have here : labels.filter (·.2 = address) =
          (labels.filter (address ≤ ·.2)).filter (·.2 = address) := by
        rw [List.filter_filter]
        apply List.filter_congr
        intro l _
        grind
      have there : labels.filter (address + 1 ≤ ·.2) =
          (labels.filter (address ≤ ·.2)).filter (fun l => !decide (l.2 = address)) := by
        rw [List.filter_filter]
        apply List.filter_congr
        intro l _
        grind
      rw [here, there]
      exact List.filter_append_perm _ _

theorem comment_not_mem_listFrom (address : Nat) (instructions : List Instruction)
    (content : String) : .comment content ∉ listFrom labels address instructions := by
  have labelled (address : Nat) : .comment content ∉ labelItems labels address := by
    intro h
    obtain ⟨l, -, h⟩ := List.mem_map.mp h
    cases h
  induction instructions generalizing address with
  | nil => exact labelled address
  | cons i rest ih =>
      intro h
      rcases List.mem_append.mp h with h | h
      · exact labelled address h
      · rcases List.mem_cons.mp h with h | h
        · cases h
        · exact ih (address + 1) h

end List

variable {p : Image}

theorem Readable.listing_items (h : p.Readable) : p.Listing p.items := by
  refine ⟨instructions_listFrom .., ?_, comment_not_mem_listFrom _ _ _⟩
  have placed : (Item.placed 0 (listFrom p.labels 0 p.instructions.toList)).Perm
      (p.labels.filter (0 ≤ ·.2)) := by
    refine placed_listFrom p.labels fun l hl => ?_
    have bound := (h.label l hl).2
    rw [Image.size] at bound
    rwa [Nat.zero_add, Array.length_toList]
  rwa [List.filter_eq_self.mpr fun l _ => decide_eq_true (Nat.zero_le l.2)] at placed

/-- A listing of a program that was read, with all targets found, can be emitted. -/
theorem Listing.emittable {items : List Item} (listing : p.Listing items) (h : p.Readable)
    (found : p.missingTarget? = none) : Emittable items := by
  have names := listing.labels.map Prod.fst
  rw [← Item.filterMap_label?] at names
  constructor
  · exact names.nodup_iff.mpr h.once
  · intro name hname
    obtain ⟨l, hl, rfl⟩ := List.mem_map.mp (names.mem_iff.mp hname)
    exact (h.label l hl).1
  · intro content hcontent
    exact (listing.bare content hcontent).elim
  · intro i hi name hname
    rw [listing.instructions] at hi
    refine ⟨names.mem_iff.mpr (mem_labels_of_missingTarget? found hi hname), ?_⟩
    exact (h.instruction i hi).target name hname
  · intro i hi
    rw [listing.instructions] at hi
    exact (h.instruction i hi).field

end Image

/-- Every program that a text assembles to can be listed, and every listing of it, in whatever order
the labels of one address stand, assembles to a program with the same instructions and the same
labels. Its immediates fit, its targets are labels, and no label is beyond its end. -/
theorem assembled_program_relists {text : String} {p : Image} (accepted : assemble text = .ok p) :
    p.Listing p.items ∧
      (∀ items, p.Listing items → ∃ q, assemble (Item.file items) = .ok q ∧
        q.instructions = p.instructions ∧ ∀ name, q.address? name = p.address? name) ∧
      (∀ i ∈ p.instructions.toList, ∀ w ∈ i.field?, -2048 ≤ w ∧ w ≤ 2047) ∧
      (∀ i ∈ p.instructions.toList, ∀ name ∈ i.target?, ∃ address, p.address? name = some address) ∧
      ∀ name address, p.address? name = some address → address ≤ p.size := by
  obtain ⟨readable, found⟩ := readable_of_assemble accepted
  refine ⟨readable.listing_items, ?_, ?_, ?_, ?_⟩
  · intro items listing
    refine ⟨_, (listing.emittable readable found).assemble_eq, ?_, ?_⟩
    · apply Array.toList_inj.mp
      rw [Image.instructions_ofItems, listing.instructions]
    · apply Image.address?_of_perm _ readable.once
      rw [Image.labels_ofItems]
      exact listing.labels
  · intro i hi w hw
    have fits := (readable.instruction i hi).field w hw
    simpa [fitsImmediate] using fits
  · intro i hi name hname
    apply Option.ne_none_iff_exists'.mp
    intro unknown
    exact Image.address?_eq_none_iff.mp unknown
      (Image.mem_labels_of_missingTarget? found hi hname)
  · intro name address known
    exact (readable.label _ ((Image.address?_eq_some_iff readable.once).mp known)).2

/-- A text with register numbers, odd spacing, a label with a blank inside, one without characters,
lines that start with a label, an address without its offset, a comment and a directive. -/
def oddText : String :=
  " two words :addi x2 ,sp,-2048 # a: b\n:\tlw a0,( s0 )\n.globl main\nend:\n j end"

def oddImage : Image where
  instructions := #[.addi .sp .sp (-2048), .lw .a0 0 .fp, .j "end"]
  labels := [("two words", 0), ("", 1), ("end", 2)]

def oddListing : String :=
  "\t.text\n\t.globl\tmain\ntwo words:\n\taddi sp, sp, -2048\n" ++
    ":\n\tlw a0, 0(fp)\nend:\n\tj end\n"

theorem oddText_relists : assemble oddText = .ok oddImage ∧
    ∃ q, assemble oddListing = .ok q ∧ q.instructions = oddImage.instructions ∧
      ∀ name, q.address? name = oddImage.address? name := by
  have accepted : assemble oddText = .ok oddImage := by decide +kernel
  have printed : Item.file oddImage.items = oddListing := by decide +kernel
  obtain ⟨listing, relists, -⟩ := assembled_program_relists accepted
  rw [← printed]
  exact ⟨accepted, relists oddImage.items listing⟩

end IntLang.Asm
