import IntLang.Proofs.Parser.Grammar
import IntLang.Proofs.Parser.Completeness
/-!
The parser accepts what the grammar derives: the derived lists are those that canonical trees are
written with.
-/
namespace IntLang.Grammar

open Token (Kind)
open Rule (word mark ref opt many)

/-- The nonterminal of the expressions up to that level. -/
def atLevel : Nat → Nonterminal
  | 0 => .unary
  | 1 => .multiplicative
  | 2 => .additive
  | 3 => .relational
  | 4 => .equality
  | 5 => .logicalAnd
  | 6 => .logicalOr
  | 7 => .conditional
  | _ => .expression

section Derives

variable {ks ks' : List Kind}

theorem derives_mark (s : Symbol) : Derives (mark s) [.symbol s] := .token

theorem derives_word (w : Keyword) : Derives (word w) [.keyword w] := .token

theorem Derives.alone {x a : Rule} (hx : Derives x ks) (ha : Derives a []) :
    Derives (x ++ a) ks := by
  have all := Derives.seq hx ha
  rwa [List.append_nil] at all

theorem Derives.raise_step {n : Nat} (h : Derives (.ref (atLevel n)) ks) :
    Derives (.ref (atLevel (n + 1))) ks := by
  match n with
  | 0 | 1 | 2 | 3 | 4 | 5 => exact .ref (h.alone .done)
  | 6 => exact .ref (h.alone .without)
  | 7 => exact .ref (.right h)
  | n + 8 => exact h

theorem Derives.raise {n m : Nat} (h : Derives (.ref (atLevel n)) ks) (hle : n ≤ m) :
    Derives (.ref (atLevel m)) ks := by
  induction hle with
  | refl => exact h
  | step _ ih => exact ih.raise_step

/-- The rule at the looseness of an operator is a chain of that operator, among others. -/
theorem production_operator (op : BinaryOp) : ∃ ops,
    production (atLevel op.looseness) =
      ref (atLevel (op.looseness - 1)) ++ many (ops ++ ref (atLevel (op.looseness - 1))) ∧
    Derives ops [.symbol op.symbol] := by
  cases op with
  | mul => exact ⟨_, rfl, .left (.left .token)⟩
  | div => exact ⟨_, rfl, .left (.right .token)⟩
  | rem => exact ⟨_, rfl, .right .token⟩
  | add | eq => exact ⟨_, rfl, .left .token⟩
  | sub | ne => exact ⟨_, rfl, .right .token⟩
  | lt => exact ⟨_, rfl, .left (.left (.left .token))⟩
  | gt => exact ⟨_, rfl, .left (.left (.right .token))⟩
  | le => exact ⟨_, rfl, .left (.right .token)⟩
  | ge => exact ⟨_, rfl, .right .token⟩
  | land | lor => exact ⟨_, rfl, .token⟩

theorem Derives.binary (op : BinaryOp) (h : Derives (.ref (atLevel op.looseness)) ks)
    (h' : Derives (.ref (atLevel (op.looseness - 1))) ks') :
    Derives (.ref (atLevel op.looseness)) (ks ++ .symbol op.symbol :: ks') := by
  obtain ⟨ops, rule, hop⟩ := production_operator op
  cases h with
  | ref h =>
      apply Derives.ref
      rw [rule] at h ⊢
      exact h.snoc (.seq hop h')

theorem production_unary (op : UnaryOp) : ∃ ops,
    production .unary = ops ++ ref .unary ||| ref .primary ∧ Derives ops [.symbol op.symbol] := by
  refine ⟨_, rfl, ?_⟩
  cases op with
  | neg => exact .left (.left .token)
  | not => exact .left (.right .token)
  | lnot => exact .right .token

end Derives

theorem derives_expr {e : Expr} (canonical : e.Canonical) :
    Derives (.ref (atLevel e.level)) e.kinds := by
  induction e with
  | literal _ w => exact .ref (.right (.ref (.left (.left (.literal (Word.ofInt?_toInt w))))))
  | var _ _ => exact .ref (.right (.ref (.left (.right .identifier))))
  | paren _ inner ih =>
      have derived := (ih canonical).raise inner.level_le
      exact .ref (.right (.ref (.right (.seq (.seq .token derived) .token))))
  | unary _ op operand ih =>
      obtain ⟨tight, canonical⟩ := canonical
      have derived := ih canonical
      rw [tight] at derived
      obtain ⟨ops, rule, hop⟩ := production_unary op
      apply Derives.ref
      rw [Expr.level, atLevel, rule]
      exact .left (.seq hop derived)
  | binary _ op left right ihl ihr =>
      obtain ⟨⟨tightLeft, canonicalLeft⟩, tightRight, canonicalRight⟩ := canonical
      exact ((ihl canonicalLeft).raise tightLeft).binary op
        ((ihr canonicalRight).raise (Nat.le_sub_one_of_lt tightRight))
  | conditional _ condition whenTrue whenFalse ihc iht ihf =>
      obtain ⟨⟨tight, canonicalCondition⟩, canonicalTrue, tightFalse, canonicalFalse⟩ := canonical
      have first := (ihc canonicalCondition).raise tight
      have second := (iht canonicalTrue).raise whenTrue.level_le
      have third := (ihf canonicalFalse).raise tightFalse
      have all : Derives (production .conditional) _ := .seq first
        (.opt (.seq (.seq (.seq (derives_mark .question) second) (derives_mark .colon)) third))
      simp only [List.append_assoc, List.cons_append, List.nil_append] at all
      exact .ref all
  | assign _ target value ih =>
      have derived := (ih canonical).raise value.level_le
      exact .ref (.left (.seq (.seq .identifier .token) derived))

theorem derives_expression {e : Expr} (canonical : e.Canonical) :
    Derives (.ref .expression) e.kinds := (derives_expr canonical).raise e.level_le

theorem derives_test {ks ks' : List Kind} (condition : Derives (.ref .expression) ks)
    (whenTrue : Derives (.ref .statement) ks') :
    Derives (word .cond ++ mark .leftParen ++ ref .expression ++ mark .rightParen ++ ref .statement)
      (.keyword .cond :: .symbol .leftParen :: (ks ++ .symbol .rightParen :: ks')) := by
  have all := Derives.seq (.seq (.seq (.seq (derives_word .cond) (derives_mark .leftParen))
    condition) (derives_mark .rightParen)) whenTrue
  simpa only [List.append_assoc, List.cons_append, List.nil_append] using all

theorem derives_statement {a : Stmt} (canonical : a.Canonical) :
    Derives (.ref .statement) a.kinds := by
  induction a with
  | ret _ value =>
      exact .ref (.left (.left (.seq (.seq .token (derives_expression canonical)) .token)))
  | expr _ value =>
      exact .ref (.left (.right (.seq (.opt (derives_expression canonical)) .token)))
  | empty _ => exact .ref (.left (.right (.seq .without .token)))
  | ifThen _ condition whenTrue ih =>
      obtain ⟨canonicalCondition, canonicalTrue⟩ := canonical
      have test := derives_test (derives_expression canonicalCondition) (ih canonicalTrue)
      exact .ref (.right (test.alone .without))
  | ifElse _ condition whenTrue whenFalse iht ihf =>
      obtain ⟨canonicalCondition, ⟨canonicalTrue, -⟩, canonicalFalse⟩ := canonical
      have test := derives_test (derives_expression canonicalCondition) (iht canonicalTrue)
      have all := test.seq (.opt (.seq (derives_word .alt) (ihf canonicalFalse)))
      refine .ref (.right ?_)
      simpa only [Stmt.kinds, List.append_assoc, List.cons_append, List.nil_append] using all
  | declare => exact canonical.elim

theorem derives_item {a : Stmt} (canonical : a.CanonicalItem) :
    Derives (.ref .blockItem) a.kinds := by
  by_cases statement : a.Canonical
  · exact .ref (.right (derives_statement statement))
  · cases a with
    | declare _ name _ initial =>
        have value : Derives (.opt (mark .assign ++ ref .expression))
            (Stmt.initialKinds initial) := by
          cases initial with
          | none => exact .without
          | some value =>
              exact .opt (.seq (derives_mark .assign) (derives_expression (canonical value rfl)))
        exact .ref (.left (.ref (.seq (.seq (.seq .token .identifier) value) .token)))
    | _ => exact absurd canonical statement

theorem derives_items {items : List Stmt} (canonical : ∀ a ∈ items, a.CanonicalItem) :
    Derives (.many (.ref .blockItem)) (items.flatMap Stmt.kinds) := by
  induction items with
  | nil => exact .done
  | cons a items ih =>
      obtain ⟨first, others⟩ := List.forall_mem_cons.mp canonical
      exact .more (derives_item first) (ih others)

theorem derives_program {p : Program} (canonical : p.Canonical) :
    Derives (.ref .program) (p.kinds ++ [.endOfFile]) := by
  have head : Derives (word .int ++ .identifier ++ mark .leftParen ++ mark .rightParen ++
      mark .leftBrace) [.keyword .int, .identifier p.name, .symbol .leftParen, .symbol .rightParen,
        .symbol .leftBrace] :=
    .seq (.seq (.seq (.seq .token .identifier) .token) .token) .token
  exact .ref (.seq (.seq (head.seq (derives_items canonical)) .token) .token)

/-- Joins an `else` and its arm to the innermost `if` that has none. -/
def attach : Stmt → Stmt → Stmt
  | .ifThen p condition whenTrue, arm =>
      if whenTrue.isOpen then .ifThen p condition (attach whenTrue arm)
      else .ifElse p condition whenTrue arm
  | .ifElse p condition whenTrue whenFalse, arm =>
      .ifElse p condition whenTrue (attach whenFalse arm)
  | a, _ => a

theorem attach_written {a arm : Stmt} (canonical : a.Canonical) (dangling : a.isOpen = true)
    (canonicalArm : arm.Canonical) :
    (attach a arm).Canonical ∧ (attach a arm).kinds = a.kinds ++ .keyword .alt :: arm.kinds := by
  induction a with
  | ifThen p condition whenTrue ih =>
      obtain ⟨canonicalCondition, canonicalTrue⟩ := canonical
      unfold attach
      by_cases inner : whenTrue.isOpen = true
      · obtain ⟨attached, kinds⟩ := ih canonicalTrue inner
        rw [if_pos inner]
        refine ⟨⟨canonicalCondition, attached⟩, ?_⟩
        simp only [Stmt.kinds, kinds, List.append_assoc, List.cons_append]
      · rw [if_neg inner]
        refine ⟨⟨canonicalCondition, ⟨canonicalTrue, eq_false_of_ne_true inner⟩, canonicalArm⟩, ?_⟩
        simp only [Stmt.kinds, List.append_assoc, List.cons_append]
  | ifElse p condition whenTrue whenFalse _ ih =>
      obtain ⟨canonicalCondition, canonicalTrue, canonicalFalse⟩ := canonical
      obtain ⟨attached, kinds⟩ := ih canonicalFalse dangling
      refine ⟨⟨canonicalCondition, canonicalTrue, attached⟩, ?_⟩
      simp only [attach, Stmt.kinds, kinds, List.append_assoc, List.cons_append]
  | _ => cases dangling

/-- Some canonical expression up to that level is written with those kinds. -/
def WrittenExpr (level : Nat) (ks : List Kind) : Prop :=
  ∃ e : Expr, e.Canonical ∧ e.level ≤ level ∧ e.kinds = ks

def Written : Nonterminal → List Kind → Prop
  | .program, ks => ∃ p : Program, p.Canonical ∧ p.kinds ++ [.endOfFile] = ks
  | .blockItem, ks => ∃ a : Stmt, a.CanonicalItem ∧ a.kinds = ks
  | .declaration, ks => ∃ a : Stmt, a.CanonicalItem ∧ a.kinds = ks
  | .statement, ks => ∃ a : Stmt, a.Canonical ∧ a.kinds = ks
  | .expression, ks => WrittenExpr 8 ks
  | .conditional, ks => WrittenExpr 7 ks
  | .logicalOr, ks => WrittenExpr 6 ks
  | .logicalAnd, ks => WrittenExpr 5 ks
  | .equality, ks => WrittenExpr 4 ks
  | .relational, ks => WrittenExpr 3 ks
  | .additive, ks => WrittenExpr 2 ks
  | .multiplicative, ks => WrittenExpr 1 ks
  | .unary, ks => WrittenExpr 0 ks
  | .primary, ks => WrittenExpr 0 ks

section Closed

variable {level : Nat} {ks : List Kind}

theorem WrittenExpr.mono {n : Nat} (h : WrittenExpr level ks) (hle : level ≤ n) :
    WrittenExpr n ks := by
  obtain ⟨e, canonical, tight, rfl⟩ := h
  exact ⟨e, canonical, Nat.le_trans tight hle, rfl⟩

theorem WrittenExpr.chain {n : Nonterminal} {ops : Rule}
    (h : (ref n ++ many (ops ++ ref n)).Holds Written ks) (operand : Written n = WrittenExpr level)
    (operator : ∀ ks, ops.Holds Written ks → ∃ op : BinaryOp, op.looseness = level + 1 ∧
      ks = [.symbol op.symbol]) : WrittenExpr (level + 1) ks := by
  obtain ⟨first, _, rfl, hfirst, parts, rfl, hparts⟩ := h
  change Written n first at hfirst
  rw [operand] at hfirst
  have left : WrittenExpr (level + 1) first := hfirst.mono (Nat.le_succ level)
  clear hfirst
  induction parts generalizing first with
  | nil =>
      rw [List.flatten_nil, List.append_nil]
      exact left
  | cons part parts ih =>
      obtain ⟨⟨mark, right, rfl, hmark, hright⟩, others⟩ := List.forall_mem_cons.mp hparts
      obtain ⟨op, hop, rfl⟩ := operator _ hmark
      obtain ⟨a, canonicalLeft, tightLeft, rfl⟩ := left
      change Written n right at hright
      rw [operand] at hright
      obtain ⟨b, canonicalRight, tightRight, rfl⟩ := hright
      rw [List.flatten_cons, ← List.append_assoc]
      refine ih _ others ⟨.binary .start op a b, ?_, Nat.le_of_eq hop, rfl⟩
      exact ⟨⟨by omega, canonicalLeft⟩, by omega, canonicalRight⟩

theorem written_primary (h : (production .primary).Holds Written ks) : Written .primary ks := by
  obtain (⟨v, w, hw, rfl⟩ | ⟨name, rfl⟩) | ⟨_, _, rfl, ⟨_, _, rfl, rfl, inner⟩, rfl⟩ := h
  · refine ⟨.literal .start w, trivial, Nat.le_refl 0, ?_⟩
    rw [Expr.kinds, Word.ofInt?_eq_some hw]
  · exact ⟨.var .start name, trivial, Nat.le_refl 0, rfl⟩
  · obtain ⟨e, canonical, -, rfl⟩ := inner
    exact ⟨.paren .start e, canonical, Nat.le_refl 0, rfl⟩

theorem written_unary (h : (production .unary).Holds Written ks) : Written .unary ks := by
  obtain ⟨mark, _, rfl, hmark, operand⟩ | primary := h
  · have operator : ∃ op : UnaryOp, mark = [.symbol op.symbol] := by
      obtain (rfl | rfl) | rfl := hmark
      · exact ⟨.neg, rfl⟩
      · exact ⟨.not, rfl⟩
      · exact ⟨.lnot, rfl⟩
    obtain ⟨op, rfl⟩ := operator
    obtain ⟨e, canonical, tight, rfl⟩ := operand
    exact ⟨.unary .start op e, ⟨Nat.le_zero.mp tight, canonical⟩, Nat.le_refl 0, rfl⟩
  · exact primary

theorem written_conditional (h : (production .conditional).Holds Written ks) :
    Written .conditional ks := by
  obtain ⟨_, _, rfl, condition, rfl | arms⟩ := h
  · rw [List.append_nil]
    exact WrittenExpr.mono condition (by decide)
  · obtain ⟨_, _, rfl, ⟨_, _, rfl, ⟨_, _, rfl, rfl, whenTrue⟩, rfl⟩, whenFalse⟩ := arms
    obtain ⟨a, canonicalCondition, tight, rfl⟩ := condition
    obtain ⟨b, canonicalTrue, -, rfl⟩ := whenTrue
    obtain ⟨c, canonicalFalse, tightFalse, rfl⟩ := whenFalse
    refine ⟨.conditional .start a b c,
      ⟨⟨tight, canonicalCondition⟩, canonicalTrue, tightFalse, canonicalFalse⟩, Nat.le_refl 7, ?_⟩
    simp only [Expr.kinds, List.append_assoc, List.cons_append, List.nil_append]

theorem written_expression (h : (production .expression).Holds Written ks) :
    Written .expression ks := by
  obtain ⟨_, _, rfl, ⟨_, _, rfl, ⟨name, rfl⟩, rfl⟩, value⟩ | conditional := h
  · obtain ⟨e, canonical, -, rfl⟩ := value
    exact ⟨.assign .start name e, canonical, Nat.le_refl 8, rfl⟩
  · exact WrittenExpr.mono conditional (by decide)

/-- An `if` without `else` and one with it, whichever `if` of its first arm the `else` is for. -/
theorem written_test {condition whenTrue : List Kind} (hc : WrittenExpr 8 condition)
    (ht : Written .statement whenTrue) {arm : List Kind}
    (ha : (opt (word .alt ++ ref .statement)).Holds Written arm) :
    Written .statement (.keyword .cond :: .symbol .leftParen ::
      (condition ++ .symbol .rightParen :: (whenTrue ++ arm))) := by
  obtain ⟨c, canonicalCondition, -, rfl⟩ := hc
  obtain ⟨a, canonicalTrue, rfl⟩ := ht
  have short : (Stmt.ifThen .start c a).Canonical := ⟨canonicalCondition, canonicalTrue⟩
  obtain rfl | ⟨_, _, rfl, rfl, b, canonicalArm, rfl⟩ := ha
  · refine ⟨_, short, ?_⟩
    rw [List.append_nil, Stmt.kinds]
  · obtain ⟨canonical, kinds⟩ := attach_written short rfl canonicalArm
    refine ⟨_, canonical, ?_⟩
    rw [kinds]
    simp only [Stmt.kinds, List.append_assoc, List.cons_append, List.nil_append]

theorem written_statement (h : (production .statement).Holds Written ks) :
    Written .statement ks := by
  obtain (⟨_, _, rfl, ⟨_, _, rfl, rfl, value⟩, rfl⟩ | ⟨_, _, rfl, value, rfl⟩) | test := h
  · obtain ⟨e, canonical, -, rfl⟩ := value
    exact ⟨.ret .start e, canonical, rfl⟩
  · obtain rfl | ⟨e, canonical, -, rfl⟩ := value
    · exact ⟨.empty .start, trivial, rfl⟩
    · exact ⟨.expr .start e, canonical, rfl⟩
  · obtain ⟨_, arm, rfl, ⟨_, _, rfl, test, whenTrue⟩, harm⟩ := test
    obtain ⟨_, _, rfl, ⟨_, _, rfl, ⟨_, _, rfl, rfl, rfl⟩, condition⟩, rfl⟩ := test
    have written := written_test condition whenTrue harm
    simpa only [List.append_assoc, List.cons_append, List.nil_append] using written

theorem written_declaration (h : (production .declaration).Holds Written ks) :
    Written .declaration ks := by
  obtain ⟨_, _, rfl, ⟨_, _, rfl, ⟨_, _, rfl, rfl, name, rfl⟩, initial⟩, rfl⟩ := h
  obtain rfl | ⟨_, _, rfl, rfl, e, canonical, -, rfl⟩ := initial
  · refine ⟨.declare .start name .start none, ?_, rfl⟩
    rintro _ ⟨⟩
  · refine ⟨.declare .start name .start (some e), ?_, rfl⟩
    rintro _ ⟨⟩
    exact canonical

theorem written_items {ks : List Kind} (h : (many (ref .blockItem)).Holds Written ks) :
    ∃ items : List Stmt, (∀ a ∈ items, a.CanonicalItem) ∧ items.flatMap Stmt.kinds = ks := by
  obtain ⟨parts, rfl, hparts⟩ := h
  induction parts with
  | nil => exact ⟨[], fun _ hmem => (List.not_mem_nil hmem).elim, rfl⟩
  | cons part parts ih =>
      obtain ⟨⟨a, canonical, rfl⟩, others⟩ := List.forall_mem_cons.mp hparts
      obtain ⟨items, canonicals, kinds⟩ := ih others
      refine ⟨a :: items, List.forall_mem_cons.mpr ⟨canonical, canonicals⟩, ?_⟩
      rw [List.flatMap_cons, kinds, List.flatten_cons]

theorem written_program (h : (production .program).Holds Written ks) : Written .program ks := by
  obtain ⟨_, _, rfl, ⟨_, _, rfl, ⟨_, _, rfl, ⟨_, _, rfl, ⟨_, _, rfl, ⟨_, _, rfl, ⟨_, _, rfl, rfl,
    name, rfl⟩, rfl⟩, rfl⟩, rfl⟩, body⟩, rfl⟩, rfl⟩ := h
  obtain ⟨items, canonical, rfl⟩ := written_items body
  exact ⟨⟨name, items, .start⟩, canonical, rfl⟩

/-- The lists that canonical trees are written with are closed under the rules. -/
theorem written_closed (n : Nonterminal) (h : (production n).Holds Written ks) : Written n ks := by
  cases n with
  | program => exact written_program h
  | blockItem =>
      obtain declared | ⟨a, canonical, rfl⟩ := h
      · exact declared
      · exact ⟨a, canonical.item, rfl⟩
  | declaration => exact written_declaration h
  | statement => exact written_statement h
  | expression => exact written_expression h
  | conditional => exact written_conditional h
  | logicalOr =>
      apply WrittenExpr.chain h rfl
      rintro _ rfl
      exact ⟨.lor, rfl, rfl⟩
  | logicalAnd =>
      apply WrittenExpr.chain h rfl
      rintro _ rfl
      exact ⟨.land, rfl, rfl⟩
  | equality =>
      apply WrittenExpr.chain h rfl
      rintro _ (rfl | rfl)
      · exact ⟨.eq, rfl, rfl⟩
      · exact ⟨.ne, rfl, rfl⟩
  | relational =>
      apply WrittenExpr.chain h rfl
      rintro _ (((rfl | rfl) | rfl) | rfl)
      · exact ⟨.lt, rfl, rfl⟩
      · exact ⟨.gt, rfl, rfl⟩
      · exact ⟨.le, rfl, rfl⟩
      · exact ⟨.ge, rfl, rfl⟩
  | additive =>
      apply WrittenExpr.chain h rfl
      rintro _ (rfl | rfl)
      · exact ⟨.add, rfl, rfl⟩
      · exact ⟨.sub, rfl, rfl⟩
  | multiplicative =>
      apply WrittenExpr.chain h rfl
      rintro _ ((rfl | rfl) | rfl)
      · exact ⟨.mul, rfl, rfl⟩
      · exact ⟨.div, rfl, rfl⟩
      · exact ⟨.rem, rfl, rfl⟩
  | unary => exact written_unary h
  | primary => exact written_primary h

end Closed

section Program

variable {ts : List Token} {eof : Token}

/-- What is read up to an end of file is all that stands before the only one. -/
theorem kinds_of_reads (inner : ∀ t ∈ ts, t.kind ≠ .endOfFile) {s : Stream} {ks : List Kind}
    (read : Parser.Reads (.ofTokens (ts ++ [eof])) s ks) (last : eof.kind = .endOfFile)
    (hend : s.head.kind = .endOfFile) : ks = ts.map Token.kind := by
  obtain ⟨taken, hs, rfl, notEnd⟩ := read
  have all : ts ++ [eof] = taken ++ s.tokens := congrArg Stream.tokens hs
  apply congrArg (List.map Token.kind)
  obtain ⟨rest, htaken, hrest⟩ | ⟨rest, hts, hrest⟩ := List.append_eq_append_iff.mp all
  · cases rest with
    | nil => exact htaken.trans (List.append_nil ts)
    | cons t rest =>
        obtain ⟨rfl, -⟩ := List.cons.inj hrest
        refine absurd (List.mem_map.mpr ⟨eof, ?_, last⟩) notEnd
        rw [htaken]
        exact List.mem_append_right _ List.mem_cons_self
  · cases rest with
    | nil => exact (hts.trans (List.append_nil taken)).symm
    | cons t rest =>
        unfold Stream.head at hend
        rw [hrest] at hend
        refine absurd hend (inner t ?_)
        rw [hts]
        exact List.mem_append_right _ List.mem_cons_self

/-- The parser accepts the token lists that the grammar derives, and no others. The tree of an
accepted list is canonical and written with its tokens: without parentheses, no last arm of a
conditional is an assignment, and no arm of an `if` is a declaration. -/
theorem program_accepted_iff_derives (inner : ∀ t ∈ ts, t.kind ≠ .endOfFile)
    (last : eof.kind = .endOfFile) :
    ((∃ p, Parser.onTokens Parser.program (ts ++ [eof]) = .ok p) ↔
      Derives (.ref .program) (ts.map Token.kind ++ [.endOfFile])) ∧
    ∀ p, Parser.onTokens Parser.program (ts ++ [eof]) = .ok p →
      p.Canonical ∧ p.kinds = ts.map Token.kind := by
  have sound (p : Program) (h : Parser.onTokens Parser.program (ts ++ [eof]) = .ok p) :
      p.Canonical ∧ p.kinds = ts.map Token.kind := by
    obtain ⟨s, parsed⟩ := Parser.onTokens_eq_ok.mp h
    obtain ⟨canonical, s₁, read, hend⟩ := Parser.program_gives parsed
    exact ⟨canonical, kinds_of_reads inner read last hend⟩
  refine ⟨⟨?_, ?_⟩, sound⟩
  · rintro ⟨p, accepted⟩
    obtain ⟨canonical, kinds⟩ := sound p accepted
    rw [← kinds]
    exact derives_program canonical
  · intro derived
    obtain ⟨p, canonical, kinds⟩ := derived.holds (fun _ _ => written_closed _)
    have read : Parser.Reads (.ofTokens (ts ++ [eof]))
        ⟨[eof], (Stream.ofTokens (ts ++ [eof])).finish⟩ p.kinds := by
      refine ⟨ts, rfl, (List.append_cancel_right kinds).symm, ?_⟩
      rw [List.append_cancel_right kinds]
      intro hmem
      obtain ⟨t, ht, heq⟩ := List.mem_map.mp hmem
      exact inner t ht heq
    obtain ⟨p', parsed, -⟩ := Parser.program_parses canonical read last
    exact ⟨p', Parser.onTokens_eq_ok.mpr ⟨_, parsed⟩⟩

def inFunction (body : List Kind) : List Token :=
  let ks : List Kind := .keyword .int :: .identifier "main" :: .symbol .leftParen ::
    .symbol .rightParen :: .symbol .leftBrace :: (body ++ [.symbol .rightBrace])
  ks.map (fun k => ⟨k, .start⟩)

/-- The statement `a ? b = 1 : c;`. -/
def assignedFirst : List Kind :=
  [.identifier "a", .symbol .question, .identifier "b", .symbol .assign, .literal 1,
    .symbol .colon, .identifier "c", .symbol .semicolon]

/-- The same with the assignment in the last arm, `a ? b : c = 1;`. -/
def assignedLast : List Kind :=
  [.identifier "a", .symbol .question, .identifier "b", .symbol .colon, .identifier "c",
    .symbol .assign, .literal 1, .symbol .semicolon]

theorem assignedFirst_derived :
    (∀ body ∈ [assignedFirst, assignedLast], ∀ t ∈ inFunction body, t.kind ≠ .endOfFile) ∧
      Derives (.ref .program) ((inFunction assignedFirst).map Token.kind ++ [.endOfFile]) ∧
      ¬ Derives (.ref .program) ((inFunction assignedLast).map Token.kind ++ [.endOfFile]) := by
  have inner : ∀ body ∈ [assignedFirst, assignedLast], ∀ t ∈ inFunction body,
      t.kind ≠ .endOfFile := by decide
  have ended : (⟨.endOfFile, .start⟩ : Token).kind = .endOfFile := rfl
  have first := program_accepted_iff_derives (inner assignedFirst (by decide)) ended
  have last := program_accepted_iff_derives (inner assignedLast (by decide)) ended
  refine ⟨inner, first.1.mp ⟨_, rfl⟩, ?_⟩
  intro derived
  obtain ⟨p, accepted⟩ := last.1.mpr derived
  cases accepted

end Program

end IntLang.Grammar
