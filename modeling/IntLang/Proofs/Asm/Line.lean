import Mathlib.Data.List.Basic
import IntLang.Asm.Assemble
import IntLang.Proofs.Text.Printed
/-!
Printed instructions read back. The printed operands of an instruction are plain words, which the
commas and the white space between them keep apart.
-/
namespace IntLang.Asm

/-- A character that can stand in an operand or in the name of an instruction. -/
def isPlain (c : Char) : Bool := !Text.isBlank c && c ≠ ',' && c ≠ '#' && c ≠ ':'

structure PlainWord (cs : List Char) : Prop where
  ne_nil : cs ≠ []
  plain : ∀ c ∈ cs, isPlain c = true

theorem isPlain_iff {c : Char} :
    isPlain c = true ↔ Text.isBlank c = false ∧ c ≠ ',' ∧ c ≠ '#' ∧ c ≠ ':' := by
  simp [isPlain, and_assoc]

namespace PlainWord

variable {cs : List Char}

theorem of_all (nonempty : cs.isEmpty = false) (all : cs.all isPlain = true) : PlainWord cs := by
  refine ⟨?_, List.all_eq_true.mp all⟩
  rintro rfl
  cases nonempty

theorem not_blank (h : PlainWord cs) : ∀ c ∈ cs, Text.isBlank c = false :=
  fun c hc => (isPlain_iff.mp (h.plain c hc)).1

theorem append {ds : List Char} (h : PlainWord cs) (hd : ∀ c ∈ ds, isPlain c = true) :
    PlainWord (cs ++ ds) := by
  refine ⟨by simp [h.ne_nil], ?_⟩
  intro c hc
  rcases List.mem_append.mp hc with hc | hc
  · exact h.plain c hc
  · exact hd c hc

theorem trim (h : PlainWord cs) : Text.trim cs = cs := Text.trim_of_not_blank h.not_blank

end PlainWord

theorem isPlain_of_isDigit {c : Char} (h : c.isDigit = true) : isPlain c = true := by
  have range : 48 ≤ c.toNat ∧ c.toNat ≤ 57 := by
    simp only [Char.isDigit, Bool.and_eq_true, decide_eq_true_eq, ge_iff_le,
      UInt32.le_iff_toNat_le] at h
    exact h
  have ne {d : Char} (hd : d.toNat < 48 ∨ 57 < d.toNat) : c ≠ d := by
    rintro rfl
    omega
  refine isPlain_iff.mpr ⟨?_, ne (by decide), ne (by decide), ne (by decide)⟩
  simp only [Text.isBlank, Bool.or_eq_false_iff, Bool.and_eq_false_iff, decide_eq_false_iff_not,
    beq_eq_false_iff_ne]
  omega

theorem plainWord_word (w : Word) : PlainWord (Word.text w).toList := by
  constructor
  · intro h
    have read := Word.int?_text w
    rw [h] at read
    cases read
  · intro c hc
    rcases Word.text_chars hc with hc | rfl
    · exact isPlain_of_isDigit hc
    · rfl

theorem plainWord_register (r : Register) : PlainWord r.name.toList := by
  cases r <;> exact .of_all rfl rfl

theorem plainWord_mnemonic (m : Mnemonic) : PlainWord m.name.toList := by
  cases m with
  | alu op => cases op <;> exact .of_all rfl rfl
  | unary op => cases op <;> exact .of_all rfl rfl
  | immediate op => cases op <;> exact .of_all rfl rfl
  | branch condition => cases condition <;> exact .of_all rfl rfl
  | _ => exact .of_all rfl rfl

theorem ofName?_mnemonic (m : Mnemonic) : Mnemonic.ofName? m.name = some m := by
  cases m with
  | alu op => cases op <;> rfl
  | unary op => cases op <;> rfl
  | immediate op => cases op <;> rfl
  | branch condition => cases condition <;> rfl
  | _ => rfl

/-- Operands behind the name of an instruction: a blank, then the operands between commas. -/
def operandText : List (List Char) → List Char
  | [] => []
  | word :: rest => ' ' :: (word ++ rest.flatMap fun w => ',' :: ' ' :: w)

section Operands

variable {word : List Char} {rest : List (List Char)}

theorem pieces_operands (hw : ',' ∉ word) (hr : ∀ w ∈ rest, ',' ∉ w) :
    Text.pieces ',' (word ++ rest.flatMap fun w => ',' :: ' ' :: w) =
      word :: rest.map (' ' :: ·) := by
  induction rest generalizing word with
  | nil => simp [Text.pieces_of_not_mem hw]
  | cons w rest ih =>
      obtain ⟨hw', hr'⟩ := List.forall_mem_cons.mp hr
      have next := ih (show ',' ∉ ' ' :: w by simp [hw']) hr'
      rw [List.cons_append] at next
      simp [Text.pieces_append_cons hw, next]

theorem last_not_blank (hw : PlainWord word) (hr : ∀ w ∈ rest, PlainWord w) {c : Char}
    (hc : (word ++ rest.flatMap fun w => ',' :: ' ' :: w).getLast? = some c) :
    Text.isBlank c = false := by
  induction rest generalizing word with
  | nil =>
      rw [List.flatMap_nil, List.append_nil] at hc
      exact hw.not_blank c (List.mem_of_getLast? hc)
  | cons w rest ih =>
      obtain ⟨hw', hr'⟩ := List.forall_mem_cons.mp hr
      apply ih hw' hr'
      have hne : w ++ rest.flatMap (fun w => ',' :: ' ' :: w) ≠ [] := by simp [hw'.ne_nil]
      have split : word ++ (w :: rest).flatMap (fun w => ',' :: ' ' :: w) =
          (word ++ [',', ' ']) ++ (w ++ rest.flatMap fun w => ',' :: ' ' :: w) := by simp
      rwa [split, List.getLast?_append_of_ne_nil _ hne] at hc

theorem operands_operandText {words : List (List Char)} (h : ∀ w ∈ words, PlainWord w) :
    Instruction.operands (Text.trim (operandText words).tail) = words := by
  cases words with
  | nil => rfl
  | cons word rest =>
      obtain ⟨hw, hr⟩ := List.forall_mem_cons.mp h
      have noComma {w : List Char} (hw : PlainWord w) : ',' ∉ w :=
        fun hc => (isPlain_iff.mp (hw.plain _ hc)).2.1 rfl
      have trimmed : Text.trim (word ++ rest.flatMap fun w => ',' :: ' ' :: w) =
          word ++ rest.flatMap fun w => ',' :: ' ' :: w := by
        refine Text.trim_of_ends ?_ (fun c hc => last_not_blank hw hr hc)
        intro c hc
        rw [List.head?_append_of_ne_nil _ hw.ne_nil] at hc
        exact hw.not_blank c (List.mem_of_head? hc)
      have trimWord (w : List Char) (hw : w ∈ rest) : Text.trim (' ' :: w) = w := by
        rw [Text.trim_cons_of_isBlank (by decide), (hr w hw).trim]
      have trimWords : (rest.map (' ' :: ·)).map Text.trim = rest := by
        rw [List.map_map]
        exact (List.map_congr_left trimWord).trans (List.map_id' rest)
      rw [operandText, List.tail_cons, trimmed, Instruction.operands,
        if_neg (by simp [hw.ne_nil]), pieces_operands (noComma hw) fun w hw => noComma (hr w hw),
        List.map_cons, hw.trim, trimWords]

end Operands

namespace Instruction

def mnemonic : Instruction → Mnemonic
  | .alu op _ _ _ => .alu op
  | .unary op _ _ => .unary op
  | .immediate op _ _ _ => .immediate op
  | .li _ _ => .li
  | .lw _ _ _ => .lw
  | .sw _ _ _ => .sw
  | .branch condition _ _ => .branch condition
  | .j _ => .j
  | .ret => .ret

def addressText (offset : Word) (base : Register) : List Char :=
  (Word.text offset).toList ++ '(' :: (base.name.toList ++ [')'])

def words : Instruction → List (List Char)
  | .alu _ rd rs rt => [rd.name.toList, rs.name.toList, rt.name.toList]
  | .unary _ rd rs => [rd.name.toList, rs.name.toList]
  | .immediate _ rd rs value => [rd.name.toList, rs.name.toList, (Word.text value).toList]
  | .li rd value => [rd.name.toList, (Word.text value).toList]
  | .lw r offset base | .sw r offset base => [r.name.toList, addressText offset base]
  | .branch _ rs target => [rs.name.toList, target.toList]
  | .j target => [target.toList]
  | .ret => []

/-- The instruction survives printing: its immediate has 12 bits, and the label it names is a plain
word. -/
def Printable : Instruction → Prop
  | .immediate _ _ _ value => fitsImmediate value = true
  | .lw _ offset _ | .sw _ offset _ => fitsImmediate offset = true
  | .branch _ _ target | .j target => PlainWord target.toList
  | _ => True

theorem text_toList (i : Instruction) :
    i.text.toList = i.mnemonic.name.toList ++ operandText i.words := by
  cases i <;> simp [text, mnemonic, words, operandText, Mnemonic.name, addressText]

theorem plainWord_addressText (offset : Word) (base : Register) :
    PlainWord (addressText offset base) := by
  apply (plainWord_word offset).append
  intro c hc
  have hc : c = '(' ∨ c ∈ base.name.toList ∨ c = ')' := by simpa using hc
  rcases hc with rfl | hc | rfl
  · rfl
  · exact (plainWord_register base).plain c hc
  · rfl

theorem Printable.words {i : Instruction} (h : i.Printable) : ∀ w ∈ i.words, PlainWord w := by
  have register := plainWord_register
  have word := plainWord_word
  have address := plainWord_addressText
  cases i with
  | branch _ rs target => simp [Instruction.words, register, show PlainWord target.toList from h]
  | j target => simp [Instruction.words, show PlainWord target.toList from h]
  | _ => simp [Instruction.words, register, word, address]

theorem register_name (r : Register) : Operand.register r.name.toList = .ok r := by
  simp [Operand.register, Register.ofName?_name]

theorem word_text (w : Word) : Operand.word (Word.text w).toList = .ok w := by
  simp [Operand.word, Word.ofText?_text]

theorem label_text {target : String} (h : PlainWord target.toList) :
    Operand.label target.toList = .ok target := by
  have hb : ¬ (target.toList = [] ∨ target.toList.any Text.isBlank = true) := by
    rintro (hnil | hany)
    · exact h.ne_nil hnil
    · obtain ⟨c, hc, hblank⟩ := List.any_eq_true.mp hany
      rw [h.not_blank c hc] at hblank
      cases hblank
  simp only [Operand.label, if_neg hb, String.ofList_toList]

theorem address_text {offset : Word} (h : fitsImmediate offset = true) (base : Register) :
    Operand.address (addressText offset base) = .ok (offset, base) := by
  have noParen : ∀ c ∈ (Word.text offset).toList, decide (c = '(') = false := by
    intro c hc
    apply decide_eq_false
    rintro rfl
    rcases Word.text_chars hc with hc | hc <;> cases hc
  have cut := Text.cut?_append_cons noParen (s := '(') (by decide) (base.name.toList ++ [')'])
  simp [Operand.address, addressText, cut, (plainWord_word offset).trim,
    (plainWord_word offset).ne_nil, Word.ofText?_text, (plainWord_register base).trim,
    register_name, Operand.narrow, h, bind, Except.bind]

theorem ofOperands_words {i : Instruction} (h : i.Printable) :
    ofOperands i.mnemonic i.words = .ok i := by
  cases i with
  | immediate op rd rs value =>
      have fits : fitsImmediate value = true := h
      simp [mnemonic, Instruction.words, ofOperands, register_name, word_text, Operand.narrow,
        fits, bind, Except.bind]
  | lw rd offset base =>
      simp [mnemonic, Instruction.words, ofOperands, register_name, address_text h, bind,
        Except.bind]
  | sw rs offset base =>
      simp [mnemonic, Instruction.words, ofOperands, register_name, address_text h, bind,
        Except.bind]
  | branch condition rs target =>
      simp [mnemonic, Instruction.words, ofOperands, register_name, label_text h, bind,
        Except.bind]
  | j target =>
      simp [mnemonic, Instruction.words, ofOperands, label_text h, bind, Except.bind]
  | _ =>
      simp [mnemonic, Instruction.words, ofOperands, register_name, word_text, bind, Except.bind]

/-- A printed instruction reads back. -/
theorem ofLine_text {i : Instruction} (h : i.Printable) : ofLine i.text.toList = .ok i := by
  have name := plainWord_mnemonic i.mnemonic
  have operands := operands_operandText h.words
  have cut : ((Text.cut? Text.isBlank i.text.toList).getD (i.text.toList, [])) =
      (i.mnemonic.name.toList, (operandText i.words).tail) := by
    rw [text_toList]
    cases i.words with
    | nil =>
        rw [operandText, List.append_nil, Text.cut?_eq_none name.not_blank]
        rfl
    | cons word rest =>
        rw [operandText, Text.cut?_append_cons name.not_blank (by decide)]
        rfl
  simp only [ofLine, cut, String.ofList_toList, ofName?_mnemonic, operands]
  exact ofOperands_words h

end Instruction

end IntLang.Asm
