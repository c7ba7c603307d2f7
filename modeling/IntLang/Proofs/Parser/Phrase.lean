import IntLang.Proofs.Parser.Completeness
/-!
The readers and the trees, phrase by phrase. A reader that answers took the tokens that its tree is
written with and no more, and the tree is one of those that need no further parentheses; from the
tokens of such a tree it reads the tree again.
-/
namespace IntLang

open Token (Kind)

/-- What the parser has a reader for. A chain of binary operators is told by any operator of its
looseness. -/
inductive Phrase
  | program
  | function
  | item
  | declaration
  | statement
  | expression
  | conditional
  | binary (op : BinaryOp)
  | unary
  | primary
deriving DecidableEq, Repr

def Stmt.isDeclaration : Stmt → Bool
  | .declare _ _ _ _ => true
  | _ => false

namespace Phrase

abbrev Tree : Phrase → Type
  | .program | .function => Program
  | .item | .declaration | .statement => Stmt
  | .expression | .conditional | .binary _ | .unary | .primary => Expr

def reader : (r : Phrase) → Parser r.Tree
  | .program => Parser.program
  | .function => Parser.function
  | .item => Parser.item
  | .declaration => Parser.declaration
  | .statement => Parser.statement
  | .expression => Parser.expression
  | .conditional => Parser.conditional
  | .binary op => Parser.binary op.looseness
  | .unary => Parser.unary
  | .primary => Parser.primary

def kinds : (r : Phrase) → r.Tree → List Kind
  | .program, p | .function, p => Program.kinds p
  | .item, a | .declaration, a | .statement, a => Stmt.kinds a
  | .expression, e | .conditional, e | .binary _, e | .unary, e | .primary, e => Expr.kinds e

/-- What stands behind the tokens of the tree and is read with them. -/
def closing : Phrase → List Kind
  | .program => [.endOfFile]
  | _ => []

/-- The trees that a phrase may be, in which every operand binds tightly enough for its place. -/
def Shape : (r : Phrase) → r.Tree → Prop
  | .program, p | .function, p => Program.Canonical p
  | .item, a => Stmt.CanonicalItem a
  | .declaration, a => Stmt.CanonicalItem a ∧ Stmt.isDeclaration a = true
  | .statement, a => Stmt.Canonical a
  | .expression, e => Expr.Canonical e
  | .conditional, e => Expr.Canonical e ∧ Expr.level e ≤ BinaryOp.loosest + 1
  | .binary op, e => Expr.Canonical e ∧ Expr.level e ≤ op.looseness
  | .unary, e => Expr.Canonical e ∧ Expr.level e = 0
  | .primary, e => Expr.Canonical e ∧ Expr.isPrimary e = true

def bare : (r : Phrase) → r.Tree → r.Tree
  | .program, p | .function, p => Program.bare p
  | .item, a | .declaration, a | .statement, a => Stmt.bare a
  | .expression, e | .conditional, e | .binary _, e | .unary, e | .primary, e => Expr.bare e

/-- A token of that kind goes on with no expression. -/
def Apart (k : Kind) : Prop :=
  k ≠ .symbol .question ∧ k ≠ .symbol .assign ∧ ∀ op : BinaryOp, k ≠ .symbol op.symbol

/-- A token of that kind may stand behind the tree: no `else` behind an open statement, and nothing
that goes on with an expression behind an expression. -/
def Ends : (r : Phrase) → r.Tree → Kind → Prop
  | .program, _, _ | .function, _, _ | .declaration, _, _ => True
  | .item, a, k | .statement, a, k => Stmt.isOpen a = true → k ≠ .keyword .alt
  | .expression, _, k | .conditional, _, k | .binary _, _, k | .unary, _, k | .primary, _, k =>
      Apart k

theorem Apart.closes {k : Kind} (h : Apart k) (level : Nat) : Parser.Closes level k := by
  apply Parser.Closes.of_none
  obtain ⟨notQuestion, notAssign, notOperator⟩ := h
  unfold Parser.joins?
  split
  · exact (notQuestion rfl).elim
  · exact (notAssign rfl).elim
  · rename_i s _ _
    cases hop : BinaryOp.ofSymbol? s with
    | none => rfl
    | some op =>
        rw [BinaryOp.ofSymbol?_eq_some_iff] at hop
        exact (notOperator op (by rw [hop])).elim
  · rfl

theorem endOfFile_not_mem_kinds (r : Phrase) (t : r.Tree) : .endOfFile ∉ r.kinds t := by
  cases r with
  | program | function => exact Program.endOfFile_not_mem_kinds t
  | item | declaration | statement => exact Stmt.endOfFile_not_mem_kinds t
  | _ => exact Expr.endOfFile_not_mem_kinds t

end Phrase

namespace Parser

section Readers

variable {s s' : Stream}

/-- A reader that is bounded by the number of tokens left. -/
theorem remaining_bind {α : Type} (p : Nat → Parser α) (s : Stream) :
    (remaining >>= p) s = p s.tokens.length s :=
  bind_of_ok (remaining_eq s) p

theorem primaryWith_isPrimary {expression : Parser Expr} {e : Expr}
    (h : primaryWith expression s = .ok e s') : e.isPrimary = true := by
  obtain ⟨w, -, rfl, -⟩ | ⟨name, -, rfl, -⟩ | ⟨inner, s₁, -, -, -, rfl, -⟩ := primaryWith_cases h
  · rfl
  · rfl
  · rfl

theorem declarationWithin_isDeclaration {bound : Nat} {a : Stmt}
    (h : declarationWithin bound s = .ok a s') : a.isDeclaration = true := by
  obtain ⟨name, initial, s₁, -, -, -, -, rfl, -⟩ := declarationWithin_cases h
  rfl

/-- But for a program, a reader takes the tokens of its tree only. -/
theorem reader_gives {r : Phrase} {t : r.Tree} (h : r.reader s = .ok t s')
    (inner : r ≠ .program) : Reads s s' (r.kinds t) ∧ r.Shape t := by
  cases r with
  | program => exact (inner rfl).elim
  | function => exact function_gives h
  | item =>
      change (remaining >>= itemWithin) s = _ at h
      rw [remaining_bind] at h
      exact itemWithin_gives h
  | declaration =>
      change (remaining >>= declarationWithin) s = _ at h
      rw [remaining_bind] at h
      obtain ⟨read, canonical⟩ := declarationWithin_gives h
      exact ⟨read, canonical, declarationWithin_isDeclaration h⟩
  | statement =>
      change (remaining >>= statementWithin) s = _ at h
      rw [remaining_bind] at h
      obtain ⟨read, canonical, -⟩ := statementWithin_gives _ _ _ _ h
      exact ⟨read, canonical⟩
  | expression =>
      change (remaining >>= expressionWithin) s = _ at h
      rw [remaining_bind] at h
      obtain ⟨read, canonical, -⟩ := expressionWithin_gives _ _ _ _ h
      exact ⟨read, canonical⟩
  | conditional =>
      change (remaining >>= fun n => conditionalWith (expressionWithin n) n) s = _ at h
      rw [remaining_bind] at h
      exact conditionalWith_gives (expressionWithin_gives _) _ _ _ _ h
  | binary op =>
      change (remaining >>= fun n => binaryWith (expressionWithin n) n op.looseness) s = _ at h
      rw [remaining_bind] at h
      exact binaryWith_gives (expressionWithin_gives _) _ _ _ _ _ h
  | unary =>
      change (remaining >>= fun n => unaryWith (expressionWithin n) n) s = _ at h
      rw [remaining_bind] at h
      obtain ⟨read, canonical, tight⟩ := unaryWith_gives (expressionWithin_gives _) _ _ _ _ h
      exact ⟨read, canonical, Nat.le_zero.mp tight⟩
  | primary =>
      change (remaining >>= fun n => primaryWith (expressionWithin n)) s = _ at h
      rw [remaining_bind] at h
      obtain ⟨read, canonical, -⟩ := primaryWith_gives (expressionWithin_gives _) _ _ _ h
      exact ⟨read, canonical, primaryWith_isPrimary h⟩

/-- What a reader answers is written with the tokens that it took, all of them and in order, and the
tokens behind them are left as they are. It has the shape of its phrase. -/
theorem reader_lossless {r : Phrase} {t : r.Tree} (h : r.reader s = .ok t s') :
    r.Shape t ∧ s'.finish = s.finish ∧ ∃ taken closing,
      s.tokens = taken ++ (closing ++ s'.tokens) ∧ taken.map Token.kind = r.kinds t ∧
        (closing.map Token.kind = r.closing ∨ closing = [] ∧ s'.tokens = []) := by
  by_cases inner : r = .program
  · subst inner
    obtain ⟨⟨tokens, finish⟩, hfunction, last, rfl⟩ := program_cases h
    obtain ⟨⟨taken, rfl, written, -⟩, canonical⟩ := function_gives hfunction
    refine ⟨canonical, rfl, ?_⟩
    cases tokens with
    | nil => exact ⟨taken, [], rfl, written, .inr ⟨rfl, rfl⟩⟩
    | cons eof rest => exact ⟨taken, [eof], rfl, written, .inl (congrArg (fun k => [k]) last)⟩
  · obtain ⟨⟨taken, rfl, written, -⟩, shape⟩ := reader_gives h inner
    refine ⟨shape, rfl, taken, [], rfl, written, .inl ?_⟩
    cases r with
    | program => exact (inner rfl).elim
    | _ => rfl

/-- Differences in a row, the last one with a kept pair of parentheses, in front of a semicolon. -/
def differences : List Token :=
  [⟨.identifier "a", ⟨1, 1⟩⟩, ⟨.symbol .minus, ⟨1, 3⟩⟩, ⟨.identifier "b", ⟨1, 5⟩⟩,
    ⟨.symbol .minus, ⟨1, 7⟩⟩, ⟨.symbol .leftParen, ⟨1, 9⟩⟩, ⟨.literal 1, ⟨1, 10⟩⟩,
    ⟨.symbol .rightParen, ⟨1, 11⟩⟩, ⟨.symbol .semicolon, ⟨1, 12⟩⟩]

/-- The first difference is the left operand of the second one. -/
def differencesTree : Expr :=
  .binary ⟨1, 1⟩ .sub (.binary ⟨1, 1⟩ .sub (.var ⟨1, 1⟩ "a") (.var ⟨1, 5⟩ "b"))
    (.paren ⟨1, 9⟩ (.literal ⟨1, 10⟩ 1))

theorem differences_lossless :
    (Phrase.binary .add).reader (.ofTokens differences) =
      .ok differencesTree ⟨[⟨.symbol .semicolon, ⟨1, 12⟩⟩], ⟨1, 12⟩⟩ ∧
    differencesTree.Canonical ∧ differencesTree.level ≤ 2 ∧
      (differences.take 7).map Token.kind = differencesTree.kinds := by
  have read : (Phrase.binary .add).reader (.ofTokens differences) =
      .ok differencesTree ⟨[⟨.symbol .semicolon, ⟨1, 12⟩⟩], ⟨1, 12⟩⟩ := rfl
  obtain ⟨⟨canonical, tight⟩, -, taken, closing, split, written, ended⟩ := reader_lossless read
  refine ⟨read, canonical, tight, ?_⟩
  have none : closing = [] := List.map_eq_nil_iff.mp (ended.elim id fun h => h.1 ▸ rfl)
  subst none
  have same : taken = differences.take 7 := List.append_cancel_right split.symm
  rw [← same]
  exact written

theorem closes_of_isDeclaration {a : Stmt} {k : Kind} (declares : a.isDeclaration = true)
    (dangling : a.isOpen = true) : k ≠ .keyword .alt := by
  cases a with
  | declare => cases dangling
  | _ => cases declares

theorem itemWithin_of_isDeclaration {a : Stmt} {bound : Nat} (declares : a.isDeclaration = true)
    (read : Reads s s' a.kinds) : itemWithin bound s = declarationWithin bound s := by
  cases a with
  | declare =>
      rw [itemWithin, bind_of_ok (peek_eq s), if_pos read.uncons.1]
  | _ => cases declares

/-- But for a program, a reader reads the tree again from the tokens that it is written with. -/
theorem reader_reads {r : Phrase} {t : r.Tree} (shape : r.Shape t) (read : Reads s s' (r.kinds t))
    (ends : r.Ends t s'.head.kind) (inner : r ≠ .program) : Parses r.reader r.bare t s s' := by
  -- A reader that takes its bound from the tokens left takes all tokens of the tree.
  have bounded {α : Type} {p : Nat → Parser α} {bare : α → α} {a : α}
      (h : Parses (p s.tokens.length) bare a s s') : Parses (remaining >>= p) bare a s s' := by
    unfold Parses
    rwa [remaining_bind]
  have size := read.length_le
  have ready := expressionWithin_parses s.tokens.length
  cases r with
  | program => exact (inner rfl).elim
  | function => exact function_parses shape read
  | item => exact bounded (itemWithin_parses shape size read ends)
  | declaration =>
      obtain ⟨canonical, declares⟩ := shape
      have parsed := itemWithin_parses canonical size read (closes_of_isDeclaration declares)
      unfold Parses at parsed
      rw [itemWithin_of_isDeclaration declares read] at parsed
      exact bounded parsed
  | statement => exact bounded (statementWithin_parses shape size read ends)
  | expression => exact bounded (ready t s s' shape t.level_le size read (ends.closes _))
  | conditional =>
      obtain ⟨canonical, tight⟩ := shape
      exact bounded (conditionalWith_parses ready (Nat.le_succ _) t s s' canonical tight size read
        (ends.closes _))
  | binary op =>
      obtain ⟨canonical, tight⟩ := shape
      exact bounded (binaryWith_parses ready (Nat.le_succ _) op.looseness_le t s s' canonical tight
        size read (ends.closes _))
  | unary =>
      obtain ⟨canonical, tight⟩ := shape
      exact bounded (unaryWith_parses ready tight canonical (Nat.le_succ_of_le size)
        (Nat.le_succ_of_le size) read)
  | primary =>
      obtain ⟨canonical, primary⟩ := shape
      exact bounded (primaryWith_parses ready primary canonical (Nat.le_succ_of_le size) read)

/-- From the tokens that a tree of its shape is written with, at whatever places they are, a reader
reads the tree again, up to a token that may stand behind it. -/
theorem reader_parses {r : Phrase} {t : r.Tree} {taken closing rest : List Token}
    {finish : Position} (shape : r.Shape t) (written : taken.map Token.kind = r.kinds t)
    (closed : closing.map Token.kind = r.closing)
    (ends : r.Ends t (Stream.mk rest finish).head.kind) :
    ∃ t', r.reader ⟨taken ++ (closing ++ rest), finish⟩ = .ok t' ⟨rest, finish⟩ ∧
      r.bare t' = r.bare t := by
  have read {behind : List Token} : Reads ⟨taken ++ behind, finish⟩ ⟨behind, finish⟩ (r.kinds t) :=
    ⟨taken, rfl, written, r.endOfFile_not_mem_kinds t⟩
  by_cases inner : r = .program
  · subst inner
    obtain ⟨eof, rfl, last⟩ := List.map_eq_singleton_iff.mp closed
    exact program_parses shape read last
  · have none : closing = [] := by
      cases r with
      | program => exact (inner rfl).elim
      | _ => exact List.map_eq_nil_iff.mp closed
    subst none
    exact reader_reads shape read ends inner

/-- An `if` with an `else` as the arm of one without. -/
def nestedIfs : Program :=
  ⟨"main", [.ifThen .start (.var .start "a") (.ifElse .start (.var .start "b") (.empty .start)
    (.empty .start))], .start⟩

theorem nestedIfs_parses :
    (∃ q, onTokens program (nestedIfs.kinds.map (⟨·, ⟨9, 9⟩⟩) ++ [⟨.endOfFile, ⟨9, 9⟩⟩]) = .ok q ∧
      q.bare = nestedIfs.bare) ∧
    ∃ e, binary 2 (.ofTokens differences) = .ok e ⟨[⟨.symbol .semicolon, ⟨1, 12⟩⟩], ⟨1, 12⟩⟩ ∧
      e.bare = differencesTree.bare := by
  constructor
  · have canonical : nestedIfs.Canonical :=
      List.forall_mem_singleton.mpr ⟨trivial, trivial, ⟨trivial, rfl⟩, trivial⟩
    have parses : ∃ q, Phrase.program.reader ⟨nestedIfs.kinds.map (⟨·, ⟨9, 9⟩⟩) ++
        ([⟨.endOfFile, ⟨9, 9⟩⟩] ++ []), ⟨9, 9⟩⟩ = .ok q ⟨[], ⟨9, 9⟩⟩ ∧ q.bare = nestedIfs.bare :=
      reader_parses (r := .program) canonical rfl rfl trivial
    obtain ⟨q, parsed, same⟩ := parses
    exact ⟨q, onTokens_eq_ok.mpr ⟨_, parsed⟩, same⟩
  · have shape : (Phrase.binary .add).Shape differencesTree := by
      refine ⟨⟨⟨?_, ⟨?_, trivial⟩, ?_, trivial⟩, ?_, trivial⟩, ?_⟩ <;> decide
    have ends : Phrase.Apart (.symbol .semicolon) :=
      ⟨by decide, by decide, fun op => by cases op <;> decide⟩
    have parses : ∃ e, (Phrase.binary .add).reader ⟨differences.take 7 ++
        ([] ++ [⟨.symbol .semicolon, ⟨1, 12⟩⟩]), ⟨1, 12⟩⟩ =
          .ok e ⟨[⟨.symbol .semicolon, ⟨1, 12⟩⟩], ⟨1, 12⟩⟩ ∧ e.bare = differencesTree.bare :=
      reader_parses (r := .binary .add) shape rfl rfl ends
    exact parses

end Readers

end Parser

end IntLang
