import IntLang.Proofs.Token.Cutting
/-!
Printed tokens read back. The scanner takes every cut of a text whose literals it can hold; and
tokens that are printed one behind the other, with trivia to part them, make up such a cut.
-/
namespace IntLang

open Token (Kind)
open Cursor (isWordStart isWordPart wordKind literalMax)

theorem Symbol.second_of_pair? {c d : Char} {s : Symbol} (h : pair? c d = some s) :
    d = '=' ∨ d = '&' ∨ d = '|' := by
  unfold pair? at h
  split at h <;> cases h <;> simp

section Munch

variable {kind : Kind} {c : Char} {cs l rest : List Char} {p : Position}

/-- No lexeme goes on from another one by the character behind it. -/
theorem Munch.not_longer {k : Kind} (h : Munch kind l (c :: rest)) : ¬ Lexeme k (l ++ [c]) := by
  intro longer
  have length := h.longest longer ⟨rest, by simp⟩
  rw [List.length_append] at length
  exact Nat.not_succ_le_self _ length

/-- A word is not followed by a character that would make it longer. -/
theorem Munch.word_ends (h : Munch kind (c :: cs) rest) (start : isWordStart c = true)
    (parts : ∀ d ∈ cs, isWordPart d = true) : ∀ d ∈ rest.head?, isWordPart d = false := by
  intro d hd
  obtain ⟨others, rfl⟩ := List.head?_eq_some_iff.mp hd
  rw [Bool.eq_false_iff]
  intro part
  have longer := Lexeme.word start (List.forall_mem_append.mpr
    ⟨parts, List.forall_mem_singleton.mpr part⟩)
  exact h.not_longer longer

/-- A literal is not followed by a digit. -/
theorem Munch.literal_ends (h : Munch kind (c :: cs) rest)
    (digits : ∀ d ∈ c :: cs, d.isDigit = true) : ∀ d ∈ rest.head?, d.isDigit = false := by
  intro d hd
  obtain ⟨others, rfl⟩ := List.head?_eq_some_iff.mp hd
  rw [Bool.eq_false_iff]
  intro digit
  have longer := Lexeme.literal (List.append_ne_nil_of_right_ne_nil _ (List.cons_ne_nil d []))
    (List.forall_mem_append.mpr ⟨digits, List.forall_mem_singleton.mpr digit⟩)
  exact h.not_longer longer

/-- A symbol of one character is not followed by one with which it makes another symbol. -/
theorem Munch.symbol_ends (h : Munch kind [c] rest) :
    ∀ d ∈ rest.head?, Symbol.pair? c d = none := by
  intro d hd
  obtain ⟨others, rfl⟩ := List.head?_eq_some_iff.mp hd
  cases pair : Symbol.pair? c d with
  | none => rfl
  | some s =>
      have longer := Lexeme.symbol s
      rw [Symbol.text_of_pair? pair] at longer
      exact (h.not_longer longer).elim

theorem not_isWordStart_and_not_isDigit (notWord : isWordPart c = false) :
    isWordStart c = false ∧ c.isDigit = false := by
  constructor
  · rw [Bool.eq_false_iff]
    intro start
    rw [Cursor.isWordPart_of_isWordStart start] at notWord
    cases notWord
  · rw [Bool.eq_false_iff]
    intro digit
    rw [isWordPart_of_isDigit digit] at notWord
    cases notWord

theorem takeWhile_append_of_ends {isPart : Char → Bool} (inner : ∀ d ∈ l, isPart d = true)
    (ends : ∀ d ∈ rest.head?, isPart d = false) : (l ++ rest).takeWhile isPart = l ∧
      (l ++ rest).dropWhile isPart = rest := by
  have stop : rest.takeWhile isPart = [] ∧ rest.dropWhile isPart = rest := by
    cases rest with
    | nil => exact ⟨rfl, rfl⟩
    | cons d rest => simp [ends d rfl]
  rw [List.takeWhile_append_of_pos inner, List.dropWhile_append_of_pos inner, stop.1, stop.2,
    List.append_nil]
  exact ⟨rfl, rfl⟩

namespace Cursor

theorem word_of_munch (munch : Munch kind (c :: cs) rest) (start : isWordStart c = true)
    (parts : ∀ d ∈ cs, isWordPart d = true) :
    lexeme ⟨(c :: cs) ++ rest, p⟩ =
      (.ok ⟨wordKind (String.ofList (c :: cs)), p⟩, ⟨rest, p.after (c :: cs)⟩) := by
  have inner : ∀ d ∈ c :: cs, isWordPart d = true :=
    List.forall_mem_cons.mpr ⟨isWordPart_of_isWordStart start, parts⟩
  obtain ⟨taken, left⟩ := takeWhile_append_of_ends inner (munch.word_ends start parts)
  rw [List.cons_append, lexeme]
  simp only [start, if_true, word]
  rw [← List.cons_append, taken, left]

theorem le_ofDigitChars (value : Nat) (ds : List Char) : value ≤ Nat.ofDigitChars 10 ds value := by
  induction ds generalizing value with
  | nil => exact Nat.le_refl _
  | cons d ds ih =>
      rw [Nat.ofDigitChars_cons]
      exact Nat.le_trans (by omega) (ih _)

/-- Digits are read to their end if their value is small enough. -/
theorem digits_of_le {value : Nat} {ds : List Char} (inner : ∀ d ∈ ds, d.isDigit = true)
    (ends : ∀ d ∈ rest.head?, d.isDigit = false) (fits : Nat.ofDigitChars 10 ds value ≤ literalMax)
    (p : Position) :
    digits value p (ds ++ rest) = (some (Nat.ofDigitChars 10 ds value), ⟨rest, p.after ds⟩) := by
  induction ds generalizing value p with
  | nil =>
      cases rest with
      | nil => rfl
      | cons d rest =>
          rw [List.nil_append, digits, if_neg (by simp [ends d rfl])]
          rfl
  | cons d ds ih =>
      obtain ⟨digit, inner⟩ := List.forall_mem_cons.mp inner
      rw [Nat.ofDigitChars_cons, Nat.mul_comm] at fits ⊢
      have longer := Nat.le_trans (le_ofDigitChars _ ds) fits
      rw [List.cons_append, digits, if_pos digit]
      simp only [if_pos longer, ih inner fits, Position.after_cons]

/-- Reading digits comes to no value if theirs is too large. -/
theorem digits_of_lt {value : Nat} {ds : List Char} (inner : ∀ d ∈ ds, d.isDigit = true)
    (large : literalMax < Nat.ofDigitChars 10 ds value) (small : value ≤ literalMax)
    (p : Position) (rest : List Char) : (digits value p (ds ++ rest)).1 = none := by
  induction ds generalizing value p with
  | nil => exact absurd large (Nat.not_lt_of_le small)
  | cons d ds ih =>
      obtain ⟨digit, inner⟩ := List.forall_mem_cons.mp inner
      rw [Nat.ofDigitChars_cons, Nat.mul_comm] at large
      rw [List.cons_append, digits, if_pos digit]
      dsimp only
      split
      · rename_i longer
        exact ih inner large longer (p.next d)
      · rfl

theorem lexeme_of_isDigit (digit : c.isDigit = true) (cs : List Char) (p : Position) :
    lexeme ⟨c :: cs, p⟩ = literal ⟨c :: cs, p⟩ := by
  have notStart : isWordStart c = false := by
    rw [Bool.eq_false_iff]
    intro start
    rw [not_isDigit_of_isWordStart start] at digit
    cases digit
  simp only [lexeme, notStart, Bool.false_eq_true, if_false, if_pos digit]

/-- Digits that are apart from a word make up a literal if their value is small enough. -/
theorem literal_of_digits {ds : List Char} (inner : ∀ d ∈ ds, d.isDigit = true)
    (ends : ∀ d ∈ rest.head?, d.isDigit = false) (apart : ∀ d ∈ rest.head?, isWordStart d = false)
    (fits : Nat.ofDigitChars 10 ds 0 ≤ literalMax) : literal ⟨ds ++ rest, p⟩ =
      (.ok ⟨.literal (Nat.ofDigitChars 10 ds 0), p⟩, ⟨rest, p.after ds⟩) := by
  have read := digits_of_le inner ends fits p
  simp only [literal, read]
  cases rest with
  | nil => rfl
  | cons d rest => simp only [apart d rfl, Bool.false_eq_true, if_false]

theorem literal_of_munch (munch : Munch kind (c :: cs) rest)
    (inner : ∀ d ∈ c :: cs, d.isDigit = true)
    (apart : ∀ d ∈ rest.head?, isWordStart d = false)
    (fits : Nat.ofDigitChars 10 (c :: cs) 0 ≤ literalMax) :
    lexeme ⟨(c :: cs) ++ rest, p⟩ =
      (.ok ⟨.literal (Nat.ofDigitChars 10 (c :: cs) 0), p⟩, ⟨rest, p.after (c :: cs)⟩) := by
  rw [List.cons_append, lexeme_of_isDigit (inner c List.mem_cons_self)]
  exact literal_of_digits inner (munch.literal_ends inner) apart fits

theorem symbol_of_munch {s : Symbol} (munch : Munch kind (c :: cs) rest)
    (spelled : Symbol.ofChars? (c :: cs) = some s) :
    symbol p c (cs ++ rest) = (.ok ⟨.symbol s, p⟩, ⟨rest, p.after (c :: cs)⟩) := by
  obtain ⟨d, same⟩ | ⟨d, e, same, pair⟩ := Symbol.ofChars?_eq_some spelled
  · cases same
    have single : Symbol.single? c = some s := spelled
    unfold symbol
    cases rest with
    | nil => simp [single]
    | cons e rest => simp [single, munch.symbol_ends e rfl]
  · cases same
    simp [symbol, pair]

/-- In front of a lexeme that it can hold, the scanner takes that lexeme. -/
theorem lexeme_of_munch (munch : Munch kind l rest)
    (fits : ∀ v, kind = .literal v → v ≤ literalMax) :
    lexeme ⟨l ++ rest, p⟩ = (.ok ⟨kind, p⟩, ⟨rest, p.after l⟩) := by
  obtain ⟨c, cs, rfl, sort⟩ := munch.lexeme.sort
  obtain ⟨start, parts, rfl⟩ | ⟨digit, digits, rfl⟩ | ⟨⟨notWord, -⟩, s, spelled, rfl⟩ := sort
  · exact word_of_munch munch start parts
  · exact literal_of_munch munch (List.forall_mem_cons.mpr ⟨digit, digits⟩)
      (munch.apart _ rfl) (Int.ofNat_le.mp (fits _ rfl))
  · obtain ⟨notStart, notDigit⟩ := not_isWordStart_and_not_isDigit notWord
    rw [List.cons_append, lexeme]
    simp only [notStart, notDigit, Bool.false_eq_true, if_false]
    exact symbol_of_munch munch spelled

/-- In front of trivia and a lexeme that it can hold, the scanner takes that lexeme next. -/
theorem next_of_munch {w : List Char} (trivia : Trivia w (l ++ rest)) (munch : Munch kind l rest)
    (fits : ∀ v, kind = .literal v → v ≤ literalMax) :
    next ⟨w ++ (l ++ rest), p⟩ = (.ok ⟨kind, p.after w⟩, ⟨rest, p.after (w ++ l)⟩) := by
  simp only [next, skipGap_trivia trivia munch.solid, lexeme_of_munch munch fits,
    Position.after_append]

theorem next_of_trivia {w : List Char} (trivia : Trivia w []) :
    next ⟨w, p⟩ = (.ok ⟨.endOfFile, p.after w⟩, ⟨[], p.after w⟩) := by
  have skipped := skipGap_trivia trivia solid_nil p
  rw [List.append_nil] at skipped
  simp only [next, skipped, lexeme]

theorem tokensWithin_of_cuts {read text : List Char} {tokens : List Token}
    (cuts : Cuts read text tokens) (fits : ∀ t ∈ tokens, ∀ v, t.kind = .literal v → v ≤ literalMax)
    {bound : Nat} (room : text.length ≤ bound) :
    tokensWithin bound ⟨text, Position.start.after read⟩ = .ok tokens := by
  induction cuts generalizing bound with
  | @last read w trivia =>
      rw [Position.after_append]
      cases bound with
      | zero =>
          obtain rfl := List.length_eq_zero_iff.mp (Nat.le_zero.mp room)
          rfl
      | succ bound => simp only [tokensWithin, next_of_trivia trivia, if_true]
  | @more read w l rest kind tokens trivia munch _ ih =>
      obtain ⟨fitsFirst, fits⟩ := List.forall_mem_cons.mp fits
      have some := List.length_pos_of_ne_nil munch.lexeme.ne_nil
      rw [List.length_append, List.length_append] at room
      obtain ⟨bound, rfl⟩ := Nat.exists_eq_succ_of_ne_zero (by omega : bound ≠ 0)
      have inner : kind ≠ .endOfFile := by
        rintro rfl
        cases munch.lexeme
      have behind : rest.length ≤ bound := by omega
      have others := ih fits behind
      rw [List.append_assoc, Position.after_append] at others
      rw [Position.after_append]
      simp only [tokensWithin, next_of_munch trivia munch fitsFirst, if_neg inner, others]
      rfl

end Cursor

/-- A cut of a source is what the scanner answers, unless a literal is too large for it. -/
theorem tokenize_of_cuts {source : String} {tokens : List Token}
    (cuts : Cuts [] source.toList tokens)
    (fits : ∀ t ∈ tokens, ∀ v, t.kind = .literal v → v ≤ literalMax) :
    tokenize source = .ok tokens :=
  Cursor.tokensWithin_of_cuts cuts fits (Nat.le_refl _)

end Munch

namespace Token

/-- The kind is printed as a lexeme: a literal that the scanner can hold, or a name that is no
reserved word. -/
def Kind.Printable : Kind → Prop
  | .literal value => 0 ≤ value ∧ value ≤ literalMax
  | .identifier name =>
      (∃ c cs, name.toList = c :: cs ∧ isWordStart c = true ∧ ∀ d ∈ cs, isWordPart d = true) ∧
        ∀ word : Keyword, word.text ≠ name
  | .keyword _ | .symbol _ => True
  | .endOfFile => False

/-- The text of printed tokens. Each comes with the separator that is printed behind it. -/
def printed : List (Kind × List Char) → List Char
  | [] => []
  | (kind, separator) :: rest => kind.text.toList ++ (separator ++ printed rest)

/-- Printed tokens behind the text `read`, each with the place behind all characters in front of it,
and the end of the file. -/
def placed (read : List Char) : List (Kind × List Char) → List Token
  | [] => [⟨.endOfFile, Position.start.after read⟩]
  | (kind, separator) :: rest =>
      ⟨kind, Position.start.after read⟩ ::
        placed (read ++ kind.text.toList ++ separator) rest

/-- The separator keeps a token of that kind apart from what is printed behind: it starts with white
space, or with a comment behind any token but a slash. -/
def Kind.Parts (kind : Kind) (separator : List Char) : Prop :=
  ∃ c ∈ separator.head?, Text.isBlank c = true ∨ kind ≠ .symbol .slash

/-- Printable tokens with separators of white space and comments, of which the last one may be
empty. -/
inductive Spaced : List (Kind × List Char) → Prop
  | nil : Spaced []
  | cons {kind separator rest} : kind.Printable → Trivia separator (printed rest) →
      (kind.Parts separator ∨ separator = [] ∧ rest = []) → Spaced rest →
      Spaced ((kind, separator) :: rest)

section Printed

variable {kind : Kind} {l rest : List Char}

theorem Kind.Printable.lexeme (h : kind.Printable) : Lexeme kind kind.text.toList := by
  cases kind with
  | literal value =>
      obtain ⟨n, rfl⟩ := Int.eq_ofNat_of_zero_le h.1
      have digits : (Kind.literal n).text.toList = Nat.toDigits 10 n := Nat.toList_repr
      have lexeme := @Lexeme.literal (Nat.toDigits 10 n) Nat.toDigits_ne_nil
        fun d hd => Nat.isDigit_of_mem_toDigits (by decide) (by decide) hd
      rw [Nat.ofDigitChars_ten_toDigits] at lexeme
      rwa [digits]
  | identifier name =>
      obtain ⟨⟨c, cs, spelled, start, parts⟩, free⟩ := h
      obtain rfl : name = String.ofList (c :: cs) := by rw [← spelled, String.ofList_toList]
      have letters : (Kind.identifier (String.ofList (c :: cs))).text.toList = c :: cs := spelled
      rw [letters]
      exact .identifier start parts free
  | keyword word => exact .keyword word
  | symbol mark => exact .symbol mark
  | endOfFile => exact h.elim

theorem Kind.Printable.fits (h : kind.Printable) : ∀ v, kind = .literal v → v ≤ literalMax := by
  rintro v rfl
  exact h.2

/-- What is printed behind a token starts with white space, or with a comment behind any token but
a slash; or nothing is. -/
def Kind.Follows (kind : Kind) (rest : List Char) : Prop :=
  ∀ c ∈ rest.head?, Text.isBlank c = true ∨ c = '/' ∧ kind ≠ .symbol .slash

theorem Kind.Follows.not_isWordPart (h : kind.Follows rest) :
    ∀ c ∈ rest.head?, isWordPart c = false := by
  intro c hc
  obtain blank | ⟨rfl, -⟩ := h c hc
  · exact not_isWordPart_of_isBlank blank
  · rfl

theorem Kind.Follows.pair? (h : kind.Follows rest) (first : Char) :
    ∀ c ∈ rest.head?, Symbol.pair? first c = none := by
  intro c hc
  cases pair : Symbol.pair? first c with
  | none => rfl
  | some s =>
      obtain blank | ⟨rfl, -⟩ := h c hc
      · obtain rfl | rfl | rfl := Symbol.second_of_pair? pair <;> cases blank
      · obtain second | second | second := Symbol.second_of_pair? pair <;> cases second

end Printed

end Token

section Printed

variable {kind : Kind} {l rest : List Char}

theorem Lexeme.eq_slash {cs : List Char} (h : Lexeme kind ('/' :: cs)) :
    kind = .symbol .slash ∧ cs = [] := by
  obtain ⟨c, ds, same, ⟨start, -⟩ | ⟨digit, -⟩ | ⟨-, s, spelled, rfl⟩⟩ := h.sort
  · cases same
    cases start
  · cases same
    cases digit
  · obtain ⟨d, single⟩ | ⟨d, e, double, pair⟩ := Symbol.ofChars?_eq_some spelled
    · cases single
      cases spelled
      exact ⟨rfl, rfl⟩
    · cases double
      cases pair

/-- What is printed behind a token does not make a comment of it. -/
theorem Lexeme.not_opensComment (h : Lexeme kind l) (follows : kind.Follows rest) :
    ¬ OpensComment (l ++ rest) := by
  obtain ⟨c, cs, rfl, -⟩ := h.sort
  rw [List.cons_append, opensComment_cons]
  rintro ⟨rfl, opens⟩
  obtain ⟨rfl, rfl⟩ := h.eq_slash
  obtain ⟨t, rfl⟩ | ⟨t, rfl⟩ := opens
  · obtain blank | ⟨-, other⟩ := follows '/' rfl
    · cases blank
    · exact other rfl
  · obtain blank | ⟨star, -⟩ := follows '*' rfl
    · cases blank
    · cases star

/-- A lexeme is the longest in front of what may be printed behind it. -/
theorem Lexeme.munch (h : Lexeme kind l) (follows : kind.Follows rest) : Munch kind l rest := by
  have ends := follows.not_isWordPart
  have notDigit : ∀ d ∈ rest.head?, d.isDigit = false :=
    fun d hd => (not_isWordStart_and_not_isDigit (ends d hd)).2
  refine ⟨h, ?_, h.not_opensComment follows,
    fun _ _ d hd => (not_isWordStart_and_not_isDigit (ends d hd)).1⟩
  intro k l' other pre
  obtain ⟨c, cs, rfl, sort⟩ := h.sort
  obtain ⟨start, parts, -⟩ | ⟨digit, digits, -⟩ | ⟨⟨notWord, -⟩, s, spelled, -⟩ := sort
  · have inner : ∀ d ∈ c :: cs, isWordPart d = true :=
      List.forall_mem_cons.mpr ⟨Cursor.isWordPart_of_isWordStart start, parts⟩
    exact Cursor.length_le_of_class inner ends (other.parts pre start) pre
  · have inner : ∀ d ∈ c :: cs, d.isDigit = true := List.forall_mem_cons.mpr ⟨digit, digits⟩
    exact Cursor.length_le_of_class inner notDigit (other.digits pre digit) pre
  · obtain ⟨s', spelled'⟩ := other.symbol_of_not_isWordPart pre notWord
    obtain ⟨d, rfl⟩ | ⟨d, e, rfl, pair⟩ := Symbol.ofChars?_eq_some spelled'
    · exact Nat.succ_le_succ (Nat.zero_le _)
    · obtain ⟨d, same⟩ | ⟨d, e, same, -⟩ := Symbol.ofChars?_eq_some spelled
      · cases same
        obtain ⟨rfl, t, rfl⟩ := List.cons_prefix_cons.mp pre
        rw [follows.pair? d e rfl] at pair
        cases pair
      · cases same
        exact Nat.le_refl 2

theorem Trivia.head {w : List Char} (h : Trivia w rest) :
    ∀ c ∈ w.head?, Text.isBlank c = true ∨ c = '/' := by
  rintro c hc
  cases h with
  | nil => cases hc
  | blank blank _ =>
      cases hc
      exact .inl blank
  | line | lastLine | block =>
      cases hc
      exact .inr rfl

theorem Token.Kind.Parts.follows {separator : List Char} (h : kind.Parts separator)
    (trivia : Trivia separator rest) : kind.Follows (separator ++ rest) := by
  obtain ⟨c, first, alone⟩ := h
  intro d hd
  rw [List.head?_append, first] at hd
  cases hd
  obtain blank | rfl := trivia.head c first
  · exact .inl blank
  · exact alone.imp_right fun other => ⟨rfl, other⟩

end Printed

/-- Separated tokens make up a cut of their text, behind any trivia. -/
theorem Token.Spaced.cuts {tokens : List (Kind × List Char)} (h : Spaced tokens)
    {read front : List Char} (trivia : Trivia front (printed tokens)) :
    Cuts read (front ++ printed tokens) (placed (read ++ front) tokens) := by
  induction h generalizing read front with
  | nil =>
      rw [printed, List.append_nil]
      exact .last trivia
  | @cons kind separator rest printable gap parts _ ih =>
      have follows : kind.Follows (separator ++ printed rest) := by
        obtain parts | ⟨rfl, rfl⟩ := parts
        · exact parts.follows gap
        · exact nofun
      exact .more trivia (printable.lexeme.munch follows) (ih gap)

theorem Token.Spaced.fits {tokens : List (Kind × List Char)} (h : Spaced tokens)
    (read : List Char) : ∀ t ∈ placed read tokens, ∀ v, t.kind = .literal v → v ≤ literalMax := by
  induction h generalizing read with
  | nil => simp [placed]
  | cons printable _ _ _ ih => exact List.forall_mem_cons.mpr ⟨printable.fits, ih _⟩

/-- What the scanner answers for printed tokens: these tokens, each behind all that is printed
before it, and the end of the file. -/
theorem tokenize_printed {front : List Char} {tokens : List (Kind × List Char)}
    (trivia : Trivia front (Token.printed tokens)) (spaced : Token.Spaced tokens) :
    tokenize (String.ofList (front ++ Token.printed tokens)) = .ok (Token.placed front tokens) := by
  apply tokenize_of_cuts
  · rw [String.toList_ofList]
    exact spaced.cuts trivia
  · exact spaced.fits front

/-- A slash in front of a line comment that looks like a block comment, the largest literal, a
comment of stars, two symbols that would make one, and a last comment without a line feed. -/
def partedTokens : List (Kind × List Char) :=
  [(.symbol .slash, " //*\n".toList), (.literal 9223372036854775807, " /***/".toList),
    (.symbol .less, ['\t']), (.symbol .assign, " // x".toList)]

theorem partedTokens_tokenized :
    Trivia "/**/".toList (Token.printed partedTokens) ∧ Token.Spaced partedTokens ∧
    tokenize (String.ofList ("/**/".toList ++ Token.printed partedTokens)) =
      .ok [⟨.symbol .slash, ⟨1, 5⟩⟩, ⟨.literal 9223372036854775807, ⟨2, 1⟩⟩,
        ⟨.symbol .less, ⟨2, 26⟩⟩, ⟨.symbol .assign, ⟨2, 28⟩⟩, ⟨.endOfFile, ⟨2, 34⟩⟩] := by
  have front : Trivia "/**/".toList (Token.printed partedTokens) :=
    @Trivia.block [] _ _ (by decide) .nil
  have parts {kind : Kind} {separator : List Char}
      (h : ∃ c ∈ separator.head?, Text.isBlank c = true) : kind.Parts separator :=
    h.imp fun _ => And.imp_right .inl
  have spaced : Token.Spaced partedTokens := by
    refine .cons trivial (.blank rfl (@Trivia.line ['*'] _ _ (by decide) .nil))
      (.inl (parts ⟨_, rfl, rfl⟩)) ?_
    refine .cons (by unfold Kind.Printable; decide)
      (.blank rfl (@Trivia.block ['*'] _ _ (by decide) .nil)) (.inl (parts ⟨_, rfl, rfl⟩)) ?_
    refine .cons trivial (.blank rfl .nil) (.inl (parts ⟨_, rfl, rfl⟩)) ?_
    exact .cons trivial (.blank rfl (@Trivia.lastLine [' ', 'x'] (by decide)))
      (.inl (parts ⟨_, rfl, rfl⟩)) .nil
  refine ⟨front, spaced, ?_⟩
  rw [tokenize_printed front spaced]
  decide

end IntLang
