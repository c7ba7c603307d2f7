import IntLang.Proofs.Parser.Inversion
/-!
Trees with the tokens that they are written with, places included. What the parser answers is
written with the tokens that it took, and every node has the place of the first of its tokens.
-/
namespace IntLang

/-- The expression is written with those tokens, from whose places those of its nodes are taken. -/
inductive Expr.Spelled : Expr → List Token → Prop
  | literal {p w} : Spelled (.literal p w) [⟨.literal w.toInt, p⟩]
  | var {p name} : Spelled (.var p name) [⟨.identifier name, p⟩]
  | assign {p q target value ts} : Spelled value ts →
      Spelled (.assign p target value) (⟨.identifier target, p⟩ :: ⟨.symbol .assign, q⟩ :: ts)
  | conditional {q q' condition whenTrue whenFalse ts ts₁ ts₂} : Spelled condition ts →
      Spelled whenTrue ts₁ → Spelled whenFalse ts₂ →
      Spelled (.conditional condition.position condition whenTrue whenFalse)
        (ts ++ ⟨.symbol .question, q⟩ :: (ts₁ ++ ⟨.symbol .colon, q'⟩ :: ts₂))
  | binary {q op left right ts ts₁} : Spelled left ts → Spelled right ts₁ →
      Spelled (.binary left.position op left right) (ts ++ ⟨.symbol op.symbol, q⟩ :: ts₁)
  | unary {p op operand ts} : Spelled operand ts →
      Spelled (.unary p op operand) (⟨.symbol op.symbol, p⟩ :: ts)
  | paren {p q inner ts} : Spelled inner ts →
      Spelled (.paren p inner) (⟨.symbol .leftParen, p⟩ :: (ts ++ [⟨.symbol .rightParen, q⟩]))

namespace Stmt

inductive InitialSpelled : Option Expr → List Token → Prop
  | none : InitialSpelled none []
  | some {q value ts} : value.Spelled ts →
      InitialSpelled (some value) (⟨.symbol .assign, q⟩ :: ts)

inductive Spelled : Stmt → List Token → Prop
  | ret {p q value ts} : value.Spelled ts →
      Spelled (.ret p value) (⟨.keyword .ret, p⟩ :: (ts ++ [⟨.symbol .semicolon, q⟩]))
  | expr {q value ts} : value.Spelled ts →
      Spelled (.expr value.position value) (ts ++ [⟨.symbol .semicolon, q⟩])
  | empty {p} : Spelled (.empty p) [⟨.symbol .semicolon, p⟩]
  | ifThen {p q q' condition whenTrue ts ts₁} : condition.Spelled ts → Spelled whenTrue ts₁ →
      Spelled (.ifThen p condition whenTrue)
        (⟨.keyword .cond, p⟩ :: ⟨.symbol .leftParen, q⟩ ::
          (ts ++ ⟨.symbol .rightParen, q'⟩ :: ts₁))
  | ifElse {p q q' q'' condition whenTrue whenFalse ts ts₁ ts₂} : condition.Spelled ts →
      Spelled whenTrue ts₁ → Spelled whenFalse ts₂ →
      Spelled (.ifElse p condition whenTrue whenFalse)
        (⟨.keyword .cond, p⟩ :: ⟨.symbol .leftParen, q⟩ ::
          (ts ++ ⟨.symbol .rightParen, q'⟩ :: (ts₁ ++ ⟨.keyword .alt, q''⟩ :: ts₂)))
  | declare {p q q' name initial ts} : InitialSpelled initial ts →
      Spelled (.declare p name q initial)
        (⟨.keyword .int, p⟩ :: ⟨.identifier name, q⟩ :: (ts ++ [⟨.symbol .semicolon, q'⟩]))

inductive AllSpelled : List Stmt → List Token → Prop
  | nil : AllSpelled [] []
  | cons {s rest ts ts₁} : Spelled s ts → AllSpelled rest ts₁ → AllSpelled (s :: rest) (ts ++ ts₁)

end Stmt

/-- The program is written with those tokens, up to the end of the file. -/
inductive Program.Spelled : Program → List Token → Prop
  | intro {name body p q₁ q₂ q₃ q₄ q₅ ts} : Stmt.AllSpelled body ts →
      Spelled ⟨name, body, p⟩
        (⟨.keyword .int, p⟩ :: ⟨.identifier name, q₁⟩ :: ⟨.symbol .leftParen, q₂⟩ ::
          ⟨.symbol .rightParen, q₃⟩ :: ⟨.symbol .leftBrace, q₄⟩ ::
          (ts ++ [⟨.symbol .rightBrace, q₅⟩]))

theorem Expr.Spelled.head {e : Expr} {ts : List Token} (h : e.Spelled ts) :
    ∃ t rest, ts = t :: rest ∧ t.position = e.position := by
  induction h with
  | conditional _ _ _ ih _ _ | binary _ _ ih _ =>
      obtain ⟨t, rest, rfl, same⟩ := ih
      exact ⟨t, _, List.cons_append, same⟩
  | _ => exact ⟨_, _, rfl, rfl⟩

namespace Parser

open Token (Kind)

/-- From the stream `s` up to `s'` stand those tokens. -/
def Took (s s' : Stream) (ts : List Token) : Prop := s = ⟨ts ++ s'.tokens, s'.finish⟩

/-- An answer of the reader is written with the tokens that the reader took. -/
def Spells (p : Parser Expr) : Prop := ∀ s e s', p s = .ok e s' → ∃ ts, Took s s' ts ∧ e.Spelled ts

section Took

variable {s s₁ s' : Stream} {ts ts₁ : List Token} {k : Kind}

theorem Took.trans (h : Took s s₁ ts) (h' : Took s₁ s' ts₁) : Took s s' (ts ++ ts₁) := by
  unfold Took at *
  rw [h, h', List.append_assoc]

theorem Took.cons {t : Token} (h : Took s s₁ [t]) (h' : Took s₁ s' ts) : Took s s' (t :: ts) :=
  h.trans h'

theorem took_head (h : s.head.kind = k) (hk : k ≠ .endOfFile) :
    Took s s.tail [⟨k, s.head.position⟩] := by
  obtain ⟨tokens, finish⟩ := s
  cases tokens with
  | nil => exact (hk h.symm).elim
  | cons t ts =>
      subst h
      rfl

end Took

section Expr

variable {expression operand : Parser Expr} {s s' : Stream}

theorem primaryWith_spells (he : Spells expression) : Spells (primaryWith expression) := by
  intro s e s' h
  obtain ⟨w, hkind, rfl, rfl⟩ | ⟨name, hkind, rfl, rfl⟩ |
    ⟨inner, s₁, hopen, hinner, hclose, rfl, rfl⟩ := primaryWith_cases h
  · exact ⟨_, took_head hkind Kind.noConfusion, .literal⟩
  · exact ⟨_, took_head hkind Kind.noConfusion, .var⟩
  · obtain ⟨ts, took, spelled⟩ := he _ _ _ hinner
    have opened := took_head hopen Kind.noConfusion
    have closed := took_head hclose Kind.noConfusion
    exact ⟨_, opened.cons (took.trans closed), .paren spelled⟩

theorem unaryWith_spells (he : Spells expression) (bound : Nat) :
    Spells (unaryWith expression bound) := by
  induction bound with
  | zero => exact primaryWith_spells he
  | succ bound ih =>
      intro s e s' h
      obtain ⟨op, operand, hop, hoperand, rfl⟩ | hprimary := unaryWith_cases h
      · obtain ⟨ts, took, spelled⟩ := ih _ _ _ hoperand
        exact ⟨_, (took_head hop Kind.noConfusion).cons took, .unary spelled⟩
      · exact primaryWith_spells he _ _ _ hprimary

/-- The operators that a chain takes up stand behind the tokens of what it went on from. -/
theorem chain_spells (ho : Spells operand) {looseness : Nat} (bound : Nat) {left e : Expr}
    {ts : List Token} (spelled : left.Spelled ts)
    (h : chain looseness operand bound left s = .ok e s') :
    ∃ ts₁, Took s s' ts₁ ∧ e.Spelled (ts ++ ts₁) := by
  induction bound generalizing left ts s with
  | zero =>
      obtain ⟨rfl, rfl⟩ := pure_eq_ok h
      exact ⟨[], rfl, by rwa [List.append_nil]⟩
  | succ bound ih =>
      obtain ⟨op, right, s₁, hop, -, hright, hrest⟩ | ⟨rfl, rfl, -⟩ := chain_cases h
      · obtain ⟨ts₁, tookRight, spelledRight⟩ := ho _ _ _ hright
        obtain ⟨ts₂, tookRest, spelledRest⟩ := ih (.binary spelled spelledRight) hrest
        refine ⟨_, (took_head hop Kind.noConfusion).cons (tookRight.trans tookRest), ?_⟩
        rw [List.append_assoc, List.cons_append] at spelledRest
        exact spelledRest
      · exact ⟨[], rfl, by rwa [List.append_nil]⟩

theorem binaryWith_spells (he : Spells expression) (bound looseness : Nat) :
    Spells (binaryWith expression bound looseness) := by
  induction looseness with
  | zero => exact unaryWith_spells he bound
  | succ looseness ih =>
      intro s e s' h
      obtain ⟨left, s₁, hleft, hrest⟩ := bind_eq_ok h
      obtain ⟨ts, took, spelled⟩ := ih _ _ _ hleft
      obtain ⟨ts₁, tookRest, spelledRest⟩ := chain_spells ih bound spelled hrest
      exact ⟨_, took.trans tookRest, spelledRest⟩

theorem conditionalWith_spells (he : Spells expression) (bound : Nat) :
    Spells (conditionalWith expression bound) := by
  induction bound with
  | zero => exact binaryWith_spells he 0 BinaryOp.loosest
  | succ bound ih =>
      intro s e s' h
      obtain ⟨condition, s₁, hcondition, hrest⟩ := conditionalWith_cases h
      obtain ⟨ts, took, spelled⟩ := binaryWith_spells he _ _ _ _ _ hcondition
      obtain ⟨whenTrue, whenFalse, s₂, hmark, htrue, hcolon, hfalse, rfl⟩ | ⟨rfl, rfl⟩ := hrest
      · obtain ⟨ts₁, tookTrue, spelledTrue⟩ := he _ _ _ htrue
        obtain ⟨ts₂, tookFalse, spelledFalse⟩ := ih _ _ _ hfalse
        have mark := took_head hmark Kind.noConfusion
        have colon := took_head hcolon Kind.noConfusion
        exact ⟨_, took.trans (mark.cons (tookTrue.trans (colon.cons tookFalse))),
          .conditional spelled spelledTrue spelledFalse⟩
      · exact ⟨ts, took, spelled⟩

theorem expressionWithin_spells (bound : Nat) : Spells (expressionWithin bound) := by
  induction bound with
  | zero =>
      intro s e s' h
      cases h
  | succ bound ih =>
      intro s e s' h
      obtain ⟨target, s₁, htarget, hrest⟩ := expressionWithin_cases h
      obtain ⟨ts, took, spelled⟩ := conditionalWith_spells ih _ _ _ _ htarget
      obtain ⟨p, name, value, rfl, hmark, hvalue, rfl⟩ | ⟨rfl, rfl⟩ := hrest
      · obtain ⟨ts₁, tookValue, spelledValue⟩ := ih _ _ _ hvalue
        have mark := took_head hmark Kind.noConfusion
        cases spelled
        exact ⟨_, took.cons (mark.cons tookValue), .assign spelledValue⟩
      · exact ⟨ts, took, spelled⟩

end Expr

section Stmt

variable {bound : Nat} {s s' : Stream} {a : Stmt}

theorem terminated_spells {construct : Construct} {made : Expr → Stmt}
    (h : terminated bound construct made s = .ok a s') : ∃ value ts q, a = made value ∧
      value.Spelled ts ∧ Took s s' (ts ++ [⟨.symbol .semicolon, q⟩]) := by
  obtain ⟨value, s₁, hvalue, hclose, rfl, rfl⟩ := terminated_cases h
  obtain ⟨ts, took, spelled⟩ := expressionWithin_spells bound _ _ _ hvalue
  have closed := took_head hclose Kind.noConfusion
  exact ⟨value, ts, _, rfl, spelled, took.trans closed⟩

theorem statementWithin_spells (h : statementWithin bound s = .ok a s') :
    ∃ ts, Took s s' ts ∧ a.Spelled ts := by
  induction bound generalizing s a s' with
  | zero => cases h
  | succ bound ih =>
      obtain ⟨hret, h⟩ | h | ⟨hmark, rfl, rfl⟩ |
        ⟨condition, whenTrue, s₁, s₂, hcond, hopen, hcondition, hclose, htrue, h⟩ :=
          statementWithin_cases h
      · obtain ⟨value, ts, q, rfl, spelled, took⟩ := terminated_spells h
        exact ⟨_, (took_head hret Kind.noConfusion).cons took, .ret spelled⟩
      · obtain ⟨value, ts, q, rfl, spelled, took⟩ := terminated_spells h
        -- The statement starts where its expression starts.
        obtain ⟨t, rest, rfl, place⟩ := spelled.head
        have first : s.head.position = value.position := by
          rw [← place, took]
          rfl
        rw [first]
        exact ⟨_, took, .expr spelled⟩
      · exact ⟨_, took_head hmark Kind.noConfusion, .empty⟩
      · obtain ⟨ts, took, spelled⟩ := expressionWithin_spells bound _ _ _ hcondition
        obtain ⟨ts₁, tookTrue, spelledTrue⟩ := ih htrue
        have opened := (took_head hcond Kind.noConfusion).cons (took_head hopen Kind.noConfusion)
        have closed := took_head hclose Kind.noConfusion
        have test := opened.trans (took.trans closed)
        obtain ⟨whenFalse, halt, hfalse, rfl⟩ | ⟨-, rfl, rfl⟩ := alternative_cases h
        · obtain ⟨ts₂, tookFalse, spelledFalse⟩ := ih hfalse
          have alt := took_head halt Kind.noConfusion
          have all := test.trans (tookTrue.trans (alt.cons tookFalse))
          rw [List.append_assoc, List.append_assoc] at all
          exact ⟨_, all, .ifElse spelled spelledTrue spelledFalse⟩
        · have all := test.trans tookTrue
          rw [List.append_assoc, List.append_assoc] at all
          exact ⟨_, all, .ifThen spelled spelledTrue⟩

theorem initialWithin_spells {initial : Option Expr}
    (h : initialWithin bound s = .ok initial s') :
    ∃ ts, Took s s' ts ∧ Stmt.InitialSpelled initial ts := by
  obtain ⟨value, hmark, hvalue, rfl⟩ | ⟨rfl, rfl⟩ := initialWithin_cases h
  · obtain ⟨ts, took, spelled⟩ := expressionWithin_spells bound _ _ _ hvalue
    exact ⟨_, (took_head hmark Kind.noConfusion).cons took, .some spelled⟩
  · exact ⟨[], rfl, .none⟩

theorem declarationWithin_spells (h : declarationWithin bound s = .ok a s') :
    ∃ ts, Took s s' ts ∧ a.Spelled ts := by
  obtain ⟨name, initial, s₁, hint, hname, hinitial, hclose, rfl, rfl⟩ := declarationWithin_cases h
  obtain ⟨ts, took, spelled⟩ := initialWithin_spells hinitial
  have int := took_head hint Kind.noConfusion
  have named := took_head hname Kind.noConfusion
  have closed := took_head hclose Kind.noConfusion
  exact ⟨_, int.cons (named.cons (took.trans closed)), .declare spelled⟩

theorem itemWithin_spells (h : itemWithin bound s = .ok a s') :
    ∃ ts, Took s s' ts ∧ a.Spelled ts := by
  obtain hdeclaration | hstatement := itemWithin_cases h
  · exact declarationWithin_spells hdeclaration
  · exact statementWithin_spells hstatement

theorem itemsWithin_spells {items : List Stmt} (h : itemsWithin bound s = .ok items s') :
    ∃ ts, Took s s' ts ∧ Stmt.AllSpelled items ts := by
  induction bound generalizing s items with
  | zero =>
      obtain ⟨rfl, rfl⟩ := pure_eq_ok h
      exact ⟨[], rfl, .nil⟩
  | succ bound ih =>
      obtain ⟨a, others, s₁, ha, hothers, rfl⟩ | ⟨rfl, rfl, -⟩ := itemsWithin_cases h
      · obtain ⟨ts, took, spelled⟩ := itemWithin_spells ha
        obtain ⟨ts₁, tookOthers, spelledOthers⟩ := ih hothers
        exact ⟨_, took.trans tookOthers, .cons spelled spelledOthers⟩
      · exact ⟨[], rfl, .nil⟩

theorem function_spells {p : Program} (h : function s = .ok p s') :
    ∃ ts, Took s s' ts ∧ p.Spelled ts := by
  obtain ⟨s₁, s₂, hint, hname, hleft, hright, hopening, rfl, hbody, hclosing, place, rfl⟩ :=
    function_cases h
  obtain ⟨ts, took, spelled⟩ := itemsWithin_spells hbody
  obtain ⟨name, body, p⟩ := p
  obtain rfl : p = s.head.position := place
  have header := (took_head hint Kind.noConfusion).cons ((took_head hname
    Kind.noConfusion).cons ((took_head hleft Kind.noConfusion).cons ((took_head hright
      Kind.noConfusion).cons (took_head hopening Kind.noConfusion))))
  exact ⟨_, header.trans (took.trans (took_head hclosing Kind.noConfusion)), .intro spelled⟩

/-- A program that the parser answers is written with the tokens up to the end of the file. -/
theorem onTokens_program_spells {tokens : List Token} {p : Program}
    (h : onTokens program tokens = .ok p) : ∃ ts rest, tokens = ts ++ rest ∧ p.Spelled ts ∧
      ∀ t ∈ rest.head?, t.kind = .endOfFile := by
  obtain ⟨s', parsed⟩ := onTokens_eq_ok.mp h
  obtain ⟨s₁, hfunction, last, -⟩ := program_cases parsed
  obtain ⟨ts, took, spelled⟩ := function_spells hfunction
  refine ⟨ts, s₁.tokens, congrArg Stream.tokens took, spelled, ?_⟩
  intro t ht
  obtain ⟨rest, more⟩ := List.head?_eq_some_iff.mp ht
  rwa [Stream.head, more] at last

end Stmt

end Parser

end IntLang
