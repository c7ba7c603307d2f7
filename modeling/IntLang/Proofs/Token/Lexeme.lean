import Mathlib.Data.List.Basic
import IntLang.Proofs.Token.Places
/-!
The cut of a text into tokens, said without the scanner. A text is trivia and lexemes in turn; each
lexeme is the longest that starts where it starts, and opens no comment. The first character of a
lexeme tells which sort it is of, and its characters tell the token.
-/
namespace IntLang

open Cursor (isWordStart isWordPart wordKind)

/-- White space and comments in front of `rest`. A block comment goes up to the first closing mark
behind its opening mark, a `//` comment up to the end of its line or of the text. -/
inductive Trivia : List Char → List Char → Prop
  | nil {rest} : Trivia [] rest
  | blank {c w rest} : Text.isBlank c = true → Trivia w rest → Trivia (c :: w) rest
  | line {body w rest} : '\n' ∉ body → Trivia w rest →
      Trivia ('/' :: '/' :: (body ++ '\n' :: w)) rest
  | lastLine {body} : '\n' ∉ body → Trivia ('/' :: '/' :: body) []
  | block {body w rest} : ¬ ['*', '/'] <:+: body → Trivia w rest →
      Trivia ('/' :: '*' :: (body ++ '*' :: '/' :: w)) rest

/-- The text is a spelling of a token of that kind. -/
inductive Lexeme : Token.Kind → List Char → Prop
  | literal {ds} : ds ≠ [] → (∀ d ∈ ds, d.isDigit = true) →
      Lexeme (.literal (Nat.ofDigitChars 10 ds 0)) ds
  | keyword (word : Keyword) : Lexeme (.keyword word) word.text.toList
  | identifier {c cs} : isWordStart c = true → (∀ d ∈ cs, isWordPart d = true) →
      (∀ word : Keyword, word.text ≠ String.ofList (c :: cs)) →
      Lexeme (.identifier (String.ofList (c :: cs))) (c :: cs)
  | symbol (mark : Symbol) : Lexeme (.symbol mark) mark.text.toList

/-- The text starts with the opening mark of a comment. -/
def OpensComment (cs : List Char) : Prop := ['/', '/'] <+: cs ∨ ['/', '*'] <+: cs

theorem opensComment_cons {c : Char} {cs : List Char} :
    OpensComment (c :: cs) ↔ c = '/' ∧ (['/'] <+: cs ∨ ['*'] <+: cs) := by
  simp only [OpensComment, List.cons_prefix_cons, and_or_left, eq_comm]

theorem not_opensComment {c : Char} {cs : List Char} (h : c ≠ '/') : ¬ OpensComment (c :: cs) := by
  rw [opensComment_cons]
  exact fun opens => h opens.1

/-- In front of `rest`, the text `l` is the lexeme of a token of that kind: no longer lexeme starts
where it starts, it opens no comment, and no word starts right behind a literal. -/
structure Munch (kind : Token.Kind) (l rest : List Char) : Prop where
  lexeme : Lexeme kind l
  longest : ∀ {k l'}, Lexeme k l' → l' <+: l ++ rest → l'.length ≤ l.length
  code : ¬ OpensComment (l ++ rest)
  apart : ∀ v, kind = .literal v → ∀ c ∈ rest.head?, isWordStart c = false

/-- Behind the text `read`, all that is left of a source is trivia and the lexemes of those tokens
in turn. A token has the place behind all characters in front of it. -/
inductive Cuts : List Char → List Char → List Token → Prop
  | last {read w} : Trivia w [] → Cuts read w [⟨.endOfFile, Position.start.after (read ++ w)⟩]
  | more {read w l rest kind tokens} : Trivia w (l ++ rest) → Munch kind l rest →
      Cuts (read ++ w ++ l) rest tokens →
      Cuts read (w ++ (l ++ rest)) (⟨kind, Position.start.after (read ++ w)⟩ :: tokens)

def Symbol.ofChars? : List Char → Option Symbol
  | [first] => single? first
  | [first, second] => pair? first second
  | _ => none

section Characters

variable {c : Char}

theorem toNat_of_isWordPart (h : isWordPart c = true) : 48 ≤ c.toNat ∧ c.toNat ≤ 122 := by
  have value : c.toNat = c.val.toNat := rfl
  delta isWordPart Char.isAlphanum Char.isAlpha Char.isUpper Char.isLower Char.isDigit at h
  simp only [Bool.or_eq_true, Bool.and_eq_true, decide_eq_true_eq, UInt32.le_iff_toNat_le,
    ge_iff_le] at h
  rcases h with h | rfl
  · have : 'A'.val.toNat = 65 := rfl
    have : 'Z'.val.toNat = 90 := rfl
    have : 'a'.val.toNat = 97 := rfl
    have : 'z'.val.toNat = 122 := rfl
    have : '0'.val.toNat = 48 := rfl
    have : '9'.val.toNat = 57 := rfl
    omega
  · decide

theorem not_isDigit_of_isWordStart (h : isWordStart c = true) : c.isDigit = false := by
  rw [Bool.eq_false_iff]
  delta isWordStart Char.isAlpha Char.isUpper Char.isLower at h
  delta Char.isDigit
  simp only [Bool.or_eq_true, Bool.and_eq_true, decide_eq_true_eq, UInt32.le_iff_toNat_le,
    ge_iff_le, ne_eq] at h ⊢
  rcases h with h | rfl
  · have : 'A'.val.toNat = 65 := rfl
    have : 'a'.val.toNat = 97 := rfl
    have : '9'.val.toNat = 57 := rfl
    omega
  · decide

theorem not_isWordPart_of_isBlank (h : Text.isBlank c = true) : isWordPart c = false := by
  rw [Bool.eq_false_iff]
  intro part
  obtain ⟨low, high⟩ := toNat_of_isWordPart part
  simp only [Text.isBlank, Bool.or_eq_true, Bool.and_eq_true, decide_eq_true_eq, beq_iff_eq] at h
  omega

theorem isWordPart_of_isDigit (h : c.isDigit = true) : isWordPart c = true := by
  unfold isWordPart Char.isAlphanum
  rw [h, Bool.or_true, Bool.true_or]

theorem not_isWordPart (notStart : isWordStart c = false) (notDigit : c.isDigit = false) :
    isWordPart c = false := by
  unfold isWordStart at notStart
  unfold isWordPart Char.isAlphanum
  rw [notDigit, Bool.or_false, notStart]

theorem isWordStart_of_isWordPart (part : isWordPart c = true) (notDigit : c.isDigit = false) :
    isWordStart c = true := by
  by_contra notStart
  rw [not_isWordPart (Bool.eq_false_iff.mpr notStart) notDigit] at part
  cases part

theorem ne_slash_of_isWordPart (h : isWordPart c = true) : c ≠ '/' := by
  rintro rfl
  cases h

end Characters

namespace Symbol

theorem ofChars?_text (s : Symbol) : ofChars? s.text.toList = some s := by
  cases s <;> rfl

theorem ofChars?_eq_some {l : List Char} {s : Symbol} (h : ofChars? l = some s) :
    (∃ c, l = [c]) ∨ ∃ c d, l = [c, d] ∧ pair? c d = some s := by
  unfold ofChars? at h
  split at h
  · exact .inl ⟨_, rfl⟩
  · exact .inr ⟨_, _, rfl, h⟩
  · cases h

theorem text_of_single? {c : Char} {s : Symbol} (h : single? c = some s) : s.text.toList = [c] := by
  unfold single? at h
  split at h <;> cases h <;> rfl

theorem text_of_pair? {c d : Char} {s : Symbol} (h : pair? c d = some s) :
    s.text.toList = [c, d] := by
  unfold pair? at h
  split at h <;> cases h <;> rfl

theorem text_head (s : Symbol) :
    ∃ c cs, s.text.toList = c :: cs ∧ isWordPart c = false ∧ Text.isBlank c = false := by
  cases s <;> exact ⟨_, _, rfl, by decide, by decide⟩

end Symbol

theorem Keyword.text_letters (word : Keyword) :
    ∃ c cs, word.text.toList = c :: cs ∧ isWordStart c = true ∧ ∀ d ∈ cs, isWordPart d = true := by
  cases word <;> exact ⟨_, _, rfl, by decide, List.all_eq_true.mp (by decide)⟩

theorem Keyword.ofText?_text (word : Keyword) : ofText? word.text = some word := by
  cases word <;> decide

theorem Keyword.text_of_ofText? {name : String} {word : Keyword} (h : ofText? name = some word) :
    word.text = name := by
  unfold ofText? at h
  have found := List.find?_some h
  exact of_decide_eq_true found

theorem Keyword.text_ne_of_ofText? {name : String} (h : ofText? name = none) (word : Keyword) :
    word.text ≠ name := by
  rintro rfl
  rw [ofText?_text] at h
  cases h

section Lexeme

variable {k k' : Token.Kind} {l l' rest rest' : List Char}

theorem Lexeme.word {c : Char} {cs : List Char} (start : isWordStart c = true)
    (parts : ∀ d ∈ cs, isWordPart d = true) :
    Lexeme (wordKind (String.ofList (c :: cs))) (c :: cs) := by
  unfold wordKind
  cases h : Keyword.ofText? (String.ofList (c :: cs)) with
  | some word =>
      have spelled : word.text.toList = c :: cs := by
        rw [Keyword.text_of_ofText? h, String.toList_ofList]
      have lexeme := Lexeme.keyword word
      rwa [spelled] at lexeme
  | none => exact .identifier start parts (Keyword.text_ne_of_ofText? h)

/-- The first character of a lexeme tells a word, a literal and a symbol apart. -/
theorem Lexeme.sort (h : Lexeme k l) : ∃ c cs, l = c :: cs ∧
    (isWordStart c = true ∧ (∀ d ∈ cs, isWordPart d = true) ∧ k = wordKind (String.ofList l) ∨
    c.isDigit = true ∧ (∀ d ∈ cs, d.isDigit = true) ∧ k = .literal (Nat.ofDigitChars 10 l 0) ∨
    (isWordPart c = false ∧ Text.isBlank c = false) ∧
      ∃ s, Symbol.ofChars? l = some s ∧ k = .symbol s) := by
  cases h with
  | literal ne digits =>
      obtain ⟨c, cs, rfl⟩ := List.exists_cons_of_ne_nil ne
      obtain ⟨first, others⟩ := List.forall_mem_cons.mp digits
      exact ⟨c, cs, rfl, .inr (.inl ⟨first, others, rfl⟩)⟩
  | keyword word =>
      obtain ⟨c, cs, spelled, start, parts⟩ := word.text_letters
      refine ⟨c, cs, spelled, .inl ⟨start, parts, ?_⟩⟩
      rw [String.ofList_toList, wordKind, Keyword.ofText?_text]
  | @identifier c cs start parts free =>
      refine ⟨c, cs, rfl, .inl ⟨start, parts, ?_⟩⟩
      unfold wordKind
      cases h : Keyword.ofText? (String.ofList (c :: cs)) with
      | some word => exact (free word (Keyword.text_of_ofText? h)).elim
      | none => rfl
  | symbol s =>
      obtain ⟨c, cs, spelled, notWord⟩ := s.text_head
      exact ⟨c, cs, spelled, .inr (.inr ⟨notWord, s, s.ofChars?_text, rfl⟩)⟩

section FirstCharacter

variable {first : Char} {cs : List Char}

theorem Lexeme.parts (h : Lexeme k l) (pre : l <+: first :: cs) (start : isWordStart first = true) :
    ∀ d ∈ l, isWordPart d = true := by
  obtain ⟨c, ds, rfl, sort⟩ := h.sort
  obtain ⟨rfl, -⟩ := List.cons_prefix_cons.mp pre
  have part := Cursor.isWordPart_of_isWordStart start
  rcases sort with ⟨-, parts, -⟩ | ⟨digit, -⟩ | ⟨⟨notWord, -⟩, -⟩
  · exact List.forall_mem_cons.mpr ⟨part, parts⟩
  · rw [not_isDigit_of_isWordStart start] at digit
    cases digit
  · rw [part] at notWord
    cases notWord

theorem Lexeme.digits (h : Lexeme k l) (pre : l <+: first :: cs) (digit : first.isDigit = true) :
    ∀ d ∈ l, d.isDigit = true := by
  obtain ⟨c, ds, rfl, sort⟩ := h.sort
  obtain ⟨rfl, -⟩ := List.cons_prefix_cons.mp pre
  rcases sort with ⟨start, -⟩ | ⟨-, digits, -⟩ | ⟨⟨notWord, -⟩, -⟩
  · rw [not_isDigit_of_isWordStart start] at digit
    cases digit
  · exact List.forall_mem_cons.mpr ⟨digit, digits⟩
  · rw [isWordPart_of_isDigit digit] at notWord
    cases notWord

theorem Lexeme.symbol_of_not_isWordPart (h : Lexeme k l) (pre : l <+: first :: cs)
    (notWord : isWordPart first = false) : ∃ s, Symbol.ofChars? l = some s := by
  obtain ⟨c, ds, rfl, sort⟩ := h.sort
  obtain ⟨rfl, -⟩ := List.cons_prefix_cons.mp pre
  rcases sort with ⟨start, -⟩ | ⟨digit, -⟩ | ⟨-, s, hs, -⟩
  · rw [Cursor.isWordPart_of_isWordStart start] at notWord
    cases notWord
  · rw [isWordPart_of_isDigit digit] at notWord
    cases notWord
  · exact ⟨s, hs⟩

end FirstCharacter

theorem Lexeme.ne_nil (h : Lexeme k l) : l ≠ [] := by
  obtain ⟨c, cs, rfl, -⟩ := h.sort
  exact List.cons_ne_nil c cs

theorem Lexeme.kind_unique (h : Lexeme k l) (h' : Lexeme k' l) : k = k' := by
  obtain ⟨c, cs, rfl, sort⟩ := h.sort
  obtain ⟨c', cs', same, sort'⟩ := h'.sort
  cases same
  rcases sort with ⟨start, -, rfl⟩ | ⟨digit, -, rfl⟩ | ⟨⟨notWord, -⟩, s, hs, rfl⟩ <;>
    rcases sort' with ⟨start', -, rfl⟩ | ⟨digit', -, rfl⟩ | ⟨⟨notWord', -⟩, s', hs', rfl⟩ <;>
    grind [Cursor.isWordPart_of_isWordStart, isWordPart_of_isDigit, not_isDigit_of_isWordStart]

/-- The text starts neither with white space nor with a comment. -/
def Solid (cs : List Char) : Prop := (∀ c ∈ cs.head?, Text.isBlank c = false) ∧ ¬ OpensComment cs

theorem solid_nil : Solid [] := by
  refine ⟨nofun, ?_⟩
  rintro (⟨t, ht⟩ | ⟨t, ht⟩) <;> cases ht

theorem Munch.solid (h : Munch k l rest) : Solid (l ++ rest) := by
  refine ⟨?_, h.code⟩
  obtain ⟨c, cs, rfl, sort⟩ := h.lexeme.sort
  rintro _ ⟨⟩
  rw [Bool.eq_false_iff]
  intro blank
  have notWord := not_isWordPart_of_isBlank blank
  rcases sort with ⟨start, -⟩ | ⟨digit, -⟩ | ⟨⟨-, notBlank⟩, -⟩
  · rw [Cursor.isWordPart_of_isWordStart start] at notWord
    cases notWord
  · rw [isWordPart_of_isDigit digit] at notWord
    cases notWord
  · rw [notBlank] at blank
    cases blank

/-- Two lexemes that start at the same place are the same. -/
theorem Munch.unique (h : Munch k l rest) (h' : Munch k' l' rest')
    (same : l ++ rest = l' ++ rest') : k = k' ∧ l = l' ∧ rest = rest' := by
  have shorter := h.longest h'.lexeme (same ▸ List.prefix_append l' rest')
  have longer := h'.longest h.lexeme (same ▸ List.prefix_append l rest)
  obtain ⟨rfl, rfl⟩ := List.append_inj same (Nat.le_antisymm longer shorter)
  exact ⟨h.lexeme.kind_unique h'.lexeme, rfl, rfl⟩

end Lexeme

end IntLang
