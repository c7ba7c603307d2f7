import IntLang.Proofs.Token.Printing
import IntLang.Proofs.Parser.Phrase
import IntLang.Proofs.Parser.Spelling
/-!
Numerals, from their digits to the tree. The scanner tests the value digit by digit, and the parser
tests it once more against a word. Together they refuse a numeral for its whole value only, and a
literal of the tree has exactly the value that its digits stand for.
-/
namespace IntLang

open Token (Kind)
open Cursor (isWordStart literalMax)

namespace Cursor

/-- The signed 64-bit integer of that value, if there is one. -/
def held? (v : Int) : Option Int64 :=
  if -9223372036854775808 ≤ v ∧ v ≤ 9223372036854775807 then some (Int64.ofInt v) else none

/-- A further digit in 64-bit arithmetic, with its product checked and its sum checked. -/
def append? (value : Int64) (d : Char) : Option Int64 := do
  let tens ← held? (value.toInt * 10)
  held? (tens.toInt + (d.toNat - '0'.toNat : Nat))

section Checked

variable {n : Nat} {v : Int} {value : Int64} {d : Char} {ds rest : List Char}

theorem held?_of_le (positive : 0 ≤ v) (fits : v ≤ literalMax) :
    ∃ word, held? v = some word ∧ word.toInt = v := by
  unfold literalMax at fits
  exact ⟨Int64.ofInt v, if_pos (by omega), Int64.toInt_ofInt_of_le (by omega) (by omega)⟩

theorem held?_of_lt (large : literalMax < v) : held? v = none := by
  unfold literalMax at large
  exact if_neg (by omega)

theorem append?_of_le (same : value.toInt = n)
    (fits : n * 10 + (d.toNat - '0'.toNat) ≤ literalMax) :
    ∃ word, append? value d = some word ∧
      word.toInt = (n * 10 + (d.toNat - '0'.toNat) : Nat) := by
  rw [append?, same]
  generalize d.toNat - '0'.toNat = digit at fits ⊢
  obtain ⟨tens, product, exactly⟩ : ∃ tens, held? (n * 10) = some tens ∧ tens.toInt = n * 10 :=
    held?_of_le (by omega) (by omega)
  rw [product, Option.bind_eq_bind, Option.bind_some, exactly]
  exact held?_of_le (by omega) (by omega)

theorem append?_of_lt (same : value.toInt = n)
    (large : literalMax < n * 10 + (d.toNat - '0'.toNat)) : append? value d = none := by
  rw [append?, same]
  generalize d.toNat - '0'.toNat = digit at large ⊢
  by_cases small : n * 10 ≤ literalMax
  · obtain ⟨tens, product, exactly⟩ : ∃ tens, held? (n * 10) = some tens ∧ tens.toInt = n * 10 :=
      held?_of_le (by omega) (by omega)
    rw [product, Option.bind_eq_bind, Option.bind_some, exactly]
    exact held?_of_lt (by omega)
  · rw [held?_of_lt (by omega), Option.bind_eq_bind, Option.bind_none]

/-- The scanner comes to the value of checked 64-bit arithmetic, and to none where that does. -/
theorem digits_checked (same : value.toInt = n) (inner : ∀ d ∈ ds, d.isDigit = true)
    (ends : ∀ d ∈ rest.head?, d.isDigit = false) (p : Position) :
    (digits n p (ds ++ rest)).1.map Int.ofNat = (ds.foldlM append? value).map Int64.toInt := by
  induction ds generalizing n value p with
  | nil =>
      rw [List.nil_append, List.foldlM_nil, Option.pure_def, Option.map_some, same]
      cases rest with
      | nil => rfl
      | cons d rest =>
          rw [digits, if_neg (by simp [ends d rfl])]
          rfl
  | cons d ds ih =>
      obtain ⟨digit, inner⟩ := List.forall_mem_cons.mp inner
      rw [List.cons_append, digits, if_pos digit, List.foldlM_cons]
      dsimp only
      split
      · rename_i fits
        obtain ⟨word, appended, same⟩ := append?_of_le same fits
        rw [appended, Option.bind_eq_bind, Option.bind_some]
        exact ih same inner (p.next d)
      · rename_i large
        rw [append?_of_lt same (Nat.lt_of_not_le large)]
        rfl

end Checked

end Cursor

/-- In front of `rest` stand digits, all there are at that place, which make up the number `v`. -/
structure Numeral (v : Nat) (ds rest : List Char) : Prop where
  some : ds ≠ []
  digits : ∀ d ∈ ds, d.isDigit = true
  whole : ∀ d ∈ rest.head?, d.isDigit = false
  value : Nat.ofDigitChars 10 ds 0 = v

namespace Numeral

open Cursor

variable {v : Nat} {w ds rest : List Char} {p : Position}

theorem solid (h : Numeral v ds rest) : Solid (ds ++ rest) := by
  obtain ⟨d, ds, rfl⟩ := List.exists_cons_of_ne_nil h.some
  have part := isWordPart_of_isDigit (h.digits d List.mem_cons_self)
  refine ⟨?_, not_opensComment (ne_slash_of_isWordPart part)⟩
  rintro _ ⟨⟩
  rw [Bool.eq_false_iff]
  intro blank
  rw [not_isWordPart_of_isBlank blank] at part
  cases part

/-- Behind trivia the scanner reads a numeral as a literal. -/
theorem next_eq (h : Numeral v ds rest) (trivia : Trivia w (ds ++ rest)) (p : Position) :
    next ⟨w ++ (ds ++ rest), p⟩ = literal ⟨ds ++ rest, p.after w⟩ := by
  simp only [next, skipGap_trivia trivia h.solid]
  obtain ⟨d, ds, rfl⟩ := List.exists_cons_of_ne_nil h.some
  exact lexeme_of_isDigit (h.digits d List.mem_cons_self) _ _

theorem literal_of_lt (h : Numeral v ds rest) (large : literalMax < v) :
    (literal ⟨ds ++ rest, p⟩).1 = .error ⟨.literalTooLarge, p⟩ := by
  have stopped := digits_of_lt h.digits (h.value ▸ large) (Nat.zero_le _) p rest
  unfold literal
  split
  · rfl
  · rename_i read
    rw [read] at stopped
    cases stopped

theorem literal_of_suffix (h : Numeral v ds rest) (fits : v ≤ literalMax) {s : Char}
    (first : s ∈ rest.head?) (start : isWordStart s = true) :
    (literal ⟨ds ++ rest, p⟩).1 = .error ⟨.invalidSuffix s, p.after ds⟩ := by
  have read := digits_of_le h.digits h.whole (h.value ▸ fits) p
  obtain ⟨others, rfl⟩ := List.head?_eq_some_iff.mp first
  simp only [literal, read, if_pos start]

theorem literal_of_apart (h : Numeral v ds rest) (fits : v ≤ literalMax)
    (apart : ∀ s ∈ rest.head?, isWordStart s = false) :
    literal ⟨ds ++ rest, p⟩ = (.ok ⟨.literal v, p⟩, ⟨rest, p.after ds⟩) := by
  rw [literal_of_digits h.digits h.whole apart (h.value ▸ fits), h.value]

end Numeral

namespace Parser

section Literal

variable {v : Nat} {p : Position} {word : Word} {behind : List Token} {finish : Position}
  {expression : Parser Expr} {s r : Stream} {e : ParseError}

theorem primaryWith_of_le (fits : v ≤ 2147483647) : ∃ word : Word, word.toInt = v ∧
    ∀ expression p behind finish, primaryWith expression ⟨⟨.literal v, p⟩ :: behind, finish⟩ =
      .ok (.literal p word) ⟨behind, finish⟩ := by
  refine ⟨Int32.ofInt v, Int32.toInt_ofInt_of_le (by omega) (by omega), fun _ _ _ _ => ?_⟩
  have held : Word.ofInt? v = some (Int32.ofInt v) := if_pos (by omega)
  rw [primaryWith, bind_of_ok (take_eq _)]
  simp only [Stream.head, List.headD_cons, held]
  rfl

theorem primaryWith_of_lt (large : 2147483647 < v) (expression : Parser Expr)
    (behind : List Token) (finish : Position) :
    primaryWith expression ⟨⟨.literal v, p⟩ :: behind, finish⟩ =
      .error (.wideLiteral v p) ⟨behind, finish⟩ := by
  have held : Word.ofInt? v = none := if_neg (by omega)
  rw [primaryWith, bind_of_ok (take_eq _)]
  simp only [Stream.head, List.headD_cons, held]
  rfl

theorem binaryWith_of_error {bound : Nat} (h : unaryWith expression bound s = .error e r)
    (looseness : Nat) : binaryWith expression bound looseness s = .error e r := by
  induction looseness with
  | zero => exact h
  | succ looseness ih => exact bind_of_error ih _

/-- A fault in the first operand is that of the expression. -/
theorem expressionWithin_of_error {bound : Nat} (plain : unaryOp? s.head.kind = none)
    (h : primaryWith (expressionWithin bound) s = .error e r) :
    expressionWithin (bound + 1) s = .error e r := by
  have operand : unaryWith (expressionWithin bound) (bound + 1) s = .error e r := by
    rw [unaryWith, bind_of_ok (peek_eq s), plain]
    exact h
  have condition := binaryWith_of_error operand BinaryOp.loosest
  have target : conditionalWith (expressionWithin bound) (bound + 1) s = .error e r :=
    bind_of_error condition _
  exact bind_of_error target _

/-- A literal that fits a word is an expression of its own in front of a token that goes on with
none. -/
theorem expression_of_literal (same : word.toInt = v)
    (apart : Phrase.Apart (Stream.mk behind finish).head.kind) :
    Parser.expression ⟨⟨.literal v, p⟩ :: behind, finish⟩ =
      .ok (.literal p word) ⟨behind, finish⟩ := by
  have written : [Token.mk (.literal v) p].map Token.kind = (Expr.literal p word).kinds := by
    rw [Expr.kinds, same]
    rfl
  have taken : Reads ⟨⟨.literal v, p⟩ :: behind, finish⟩ ⟨behind, finish⟩
      (Expr.literal p word).kinds :=
    ⟨[⟨.literal v, p⟩], rfl, written, Expr.endOfFile_not_mem_kinds _⟩
  obtain ⟨e, read, alike⟩ :=
    reader_reads (r := .expression) (t := .literal p word) trivial taken apart Phrase.noConfusion
  change (remaining >>= expressionWithin) _ = _ at read
  obtain ⟨ts, took, spelled⟩ := expressionWithin_spells _ _ _ _
    ((remaining_bind expressionWithin _).symm.trans read)
  cases spelled with
  | literal =>
      cases alike
      have place := congrArg (fun s => s.head.position) took
      cases place
      exact read
  | _ => cases alike

theorem expression_of_error (plain : unaryOp? s.head.kind = none) (more : s.tokens ≠ [])
    (h : ∀ expression, primaryWith expression s = .error e r) :
    Parser.expression s = .error e r := by
  rw [Parser.expression, remaining_bind]
  obtain ⟨t, ts, same⟩ := List.exists_cons_of_ne_nil more
  rw [same, List.length_cons]
  exact expressionWithin_of_error plain (h _)

end Literal

end Parser

section Exact

open Cursor

variable {v : Nat} {w ds rest : List Char}

/-- Of a numeral behind trivia the scanner answers the value, unless that is above `literalMax`. It
then refuses the numeral at its first digit, and else at a letter or an underscore that follows.
Digit by digit it keeps to checked 64-bit arithmetic. The parser makes of the literal a word of the
same value, and refuses at its place a value that is no word. -/
theorem numeral_read_exactly (numeral : Numeral v ds rest) (trivia : Trivia w (ds ++ rest))
    (p : Position) :
    (digits 0 (p.after w) (ds ++ rest)).1.map Int.ofNat =
      (ds.foldlM append? 0).map Int64.toInt ∧
    (literalMax < v →
      (next ⟨w ++ (ds ++ rest), p⟩).1 = .error ⟨.literalTooLarge, p.after w⟩) ∧
    (v ≤ literalMax → ∀ s ∈ rest.head?, isWordStart s = true →
      (next ⟨w ++ (ds ++ rest), p⟩).1 = .error ⟨.invalidSuffix s, p.after (w ++ ds)⟩) ∧
    (v ≤ literalMax → (∀ s ∈ rest.head?, isWordStart s = false) →
      next ⟨w ++ (ds ++ rest), p⟩ =
        (.ok ⟨.literal v, p.after w⟩, ⟨rest, p.after (w ++ ds)⟩)) ∧
    (v ≤ 2147483647 → ∃ word : Word, word.toInt = v ∧ ∀ q behind finish,
      (∀ expression, Parser.primaryWith expression ⟨⟨.literal v, q⟩ :: behind, finish⟩ =
        .ok (.literal q word) ⟨behind, finish⟩) ∧
      (Phrase.Apart (Stream.mk behind finish).head.kind →
        Parser.expression ⟨⟨.literal v, q⟩ :: behind, finish⟩ =
          .ok (.literal q word) ⟨behind, finish⟩)) ∧
    (2147483647 < v → ∀ q behind finish,
      (∀ expression, Parser.primaryWith expression ⟨⟨.literal v, q⟩ :: behind, finish⟩ =
        .error (.wideLiteral v q) ⟨behind, finish⟩) ∧
      Parser.expression ⟨⟨.literal v, q⟩ :: behind, finish⟩ =
        .error (.wideLiteral v q) ⟨behind, finish⟩) := by
  rw [numeral.next_eq trivia, Position.after_append]
  refine ⟨digits_checked rfl numeral.digits numeral.whole _, numeral.literal_of_lt,
    fun fits s => numeral.literal_of_suffix fits, numeral.literal_of_apart,
    fun fits => ?_, fun large q behind finish => ?_⟩
  · obtain ⟨word, same, primary⟩ := Parser.primaryWith_of_le fits
    exact ⟨word, same, fun q behind finish =>
      ⟨fun expression => primary expression q behind finish, Parser.expression_of_literal same⟩⟩
  · have primary (expression : Parser Expr) :=
      Parser.primaryWith_of_lt large (p := q) expression behind finish
    exact ⟨primary, Parser.expression_of_error rfl (List.cons_ne_nil _ _) primary⟩

/-- With its leading zeros the numeral is longer than the largest literal. The scanner takes it, and
the parser refuses it. -/
theorem paddedNumeral_read :
    (next ⟨"/**/0000000000000000002147483648;".toList, .start⟩).1 =
      .ok ⟨.literal 2147483648, ⟨1, 5⟩⟩ ∧
    Parser.expression (.ofTokens [⟨.literal 2147483648, ⟨1, 5⟩⟩, ⟨.symbol .semicolon, ⟨1, 33⟩⟩]) =
      .error (.wideLiteral 2147483648 ⟨1, 5⟩) ⟨[⟨.symbol .semicolon, ⟨1, 33⟩⟩], ⟨1, 33⟩⟩ ∧
    (next ⟨"9223372036854775808x".toList, .start⟩).1 = .error ⟨.literalTooLarge, ⟨1, 1⟩⟩ := by
  have padded : Numeral 2147483648 "0000000000000000002147483648".toList [';'] :=
    ⟨by decide, List.all_eq_true.mp rfl, by rintro _ ⟨⟩; rfl, by decide⟩
  have front : Trivia "/**/".toList ("0000000000000000002147483648".toList ++ [';']) :=
    @Trivia.block [] _ _ (by decide) .nil
  have wide : Numeral 9223372036854775808 "9223372036854775808".toList ['x'] :=
    ⟨by decide, List.all_eq_true.mp rfl, by rintro _ ⟨⟩; rfl, by decide⟩
  obtain ⟨-, -, -, taken, -, refused⟩ := numeral_read_exactly padded front .start
  obtain ⟨-, large, -⟩ := numeral_read_exactly wide .nil .start
  have apart : ∀ s ∈ [';'].head?, isWordStart s = false := by
    rintro _ ⟨⟩
    rfl
  refine ⟨congrArg Prod.fst (taken (by decide) apart), ?_, large (by decide)⟩
  exact (refused (by decide) ⟨1, 5⟩ [⟨.symbol .semicolon, ⟨1, 33⟩⟩] ⟨1, 33⟩).2

end Exact

end IntLang
