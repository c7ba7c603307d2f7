import IntLang.Proofs.Parser.Reading
import IntLang.Proofs.Text.Printed
/-!
What a reader that answers has done: which tokens it looked at and which readers it went through.
One statement for each reader; the facts about all answers of the parser follow from these.
-/
namespace IntLang.Parser

open Token (Kind)

variable {s s' : Stream}

section Tokens

theorem require_cases {k : Kind} {c : Construct} {t : Token} (h : require k c s = .ok t s') :
    s.head.kind = k ∧ t = s.head ∧ s' = s.tail := by
  have hk := require_kind h
  rw [require_of_head hk] at h
  cases h
  exact ⟨hk, rfl, rfl⟩

theorem identifier_cases {c : Construct} {name : String} {p : Position}
    (h : identifier c s = .ok (name, p) s') :
    s.head.kind = .identifier name ∧ p = s.head.position ∧ s' = s.tail := by
  unfold identifier at h
  split at h
  · rename_i found hs
    cases h
    exact ⟨hs, rfl, rfl⟩
  · cases h

theorem accept_cases {k : Kind} {b : Bool} (h : accept k s = .ok b s') :
    (b = true ∧ s.head.kind = k ∧ s' = s.tail) ∨ (b = false ∧ s.head.kind ≠ k ∧ s' = s) := by
  by_cases hk : s.head.kind = k
  · rw [accept_of_head hk] at h
    cases h
    exact .inl ⟨rfl, hk, rfl⟩
  · rw [accept_of_ne hk] at h
    cases h
    exact .inr ⟨rfl, hk, rfl⟩

theorem unaryOp?_eq_some {k : Kind} {op : UnaryOp} :
    unaryOp? k = some op ↔ k = .symbol op.symbol := by
  cases k with
  | symbol s =>
      unfold unaryOp?
      rw [UnaryOp.ofSymbol?_eq_some_iff, Kind.symbol.injEq]
      exact eq_comm
  | _ => simp [unaryOp?]

theorem binaryOp?_eq_some {looseness : Nat} {k : Kind} {op : BinaryOp} :
    binaryOp? looseness k = some op ↔ k = .symbol op.symbol ∧ op.looseness = looseness := by
  cases k with
  | symbol s =>
      unfold binaryOp?
      rw [Option.filter_eq_some_iff, BinaryOp.ofSymbol?_eq_some_iff, Kind.symbol.injEq,
        decide_eq_true_iff, eq_comm]
  | _ => simp [binaryOp?]

end Tokens

section Expr

variable {expression operand : Parser Expr} {bound looseness : Nat} {e : Expr}

theorem primaryWith_cases (h : primaryWith expression s = .ok e s') :
    (∃ w, s.head.kind = .literal w.toInt ∧ e = .literal s.head.position w ∧ s' = s.tail) ∨
    (∃ name, s.head.kind = .identifier name ∧ e = .var s.head.position name ∧ s' = s.tail) ∨
    ∃ inner s₁, s.head.kind = .symbol .leftParen ∧ expression s.tail = .ok inner s₁ ∧
      s₁.head.kind = .symbol .rightParen ∧ e = .paren s.head.position inner ∧ s' = s₁.tail := by
  unfold primaryWith at h
  obtain ⟨token, s₁, htake, h⟩ := bind_eq_ok h
  obtain ⟨rfl, rfl⟩ := take_eq_ok htake
  cases hkind : s.head.kind with
  | literal value =>
      rw [hkind] at h
      cases hword : Word.ofInt? value with
      | none =>
          simp only [hword] at h
          cases h
      | some word =>
          simp only [hword] at h
          obtain ⟨rfl, rfl⟩ := pure_eq_ok h
          exact .inl ⟨word, by rw [Word.ofInt?_eq_some hword], rfl, rfl⟩
  | identifier name =>
      rw [hkind] at h
      obtain ⟨rfl, rfl⟩ := pure_eq_ok h
      exact .inr (.inl ⟨name, rfl, rfl, rfl⟩)
  | symbol mark =>
      rw [hkind] at h
      cases mark with
      | leftParen =>
          obtain ⟨inner, s₂, hinner, h⟩ := bind_eq_ok h
          obtain ⟨close, s₃, hclose, h⟩ := bind_eq_ok h
          obtain ⟨rfl, rfl⟩ := pure_eq_ok h
          obtain ⟨closed, -, rfl⟩ := require_cases hclose
          exact .inr (.inr ⟨inner, s₂, rfl, hinner, closed, rfl, rfl⟩)
      | _ => cases h
  | _ =>
      rw [hkind] at h
      cases h

theorem unaryWith_cases (h : unaryWith expression (bound + 1) s = .ok e s') :
    (∃ op operand, s.head.kind = .symbol op.symbol ∧
      unaryWith expression bound s.tail = .ok operand s' ∧
      e = .unary s.head.position op operand) ∨
    primaryWith expression s = .ok e s' := by
  unfold unaryWith at h
  obtain ⟨k, s₁, hpeek, h⟩ := bind_eq_ok h
  obtain ⟨rfl, rfl⟩ := peek_eq_ok hpeek
  cases hop : unaryOp? s₁.head.kind with
  | none =>
      simp only [hop] at h
      exact .inr h
  | some op =>
      simp only [hop] at h
      obtain ⟨token, s₂, htake, h⟩ := bind_eq_ok h
      obtain ⟨rfl, rfl⟩ := take_eq_ok htake
      obtain ⟨operand, s₃, hoperand, h⟩ := bind_eq_ok h
      obtain ⟨rfl, rfl⟩ := pure_eq_ok h
      exact .inl ⟨op, operand, unaryOp?_eq_some.mp hop, hoperand, rfl⟩

theorem chain_cases {left : Expr}
    (h : chain looseness operand (bound + 1) left s = .ok e s') :
    (∃ op right s₁, s.head.kind = .symbol op.symbol ∧ op.looseness = looseness ∧
      operand s.tail = .ok right s₁ ∧
      chain looseness operand bound (.binary left.position op left right) s₁ = .ok e s') ∨
    (e = left ∧ s' = s ∧ binaryOp? looseness s.head.kind = none) := by
  unfold chain at h
  obtain ⟨k, s₁, hpeek, h⟩ := bind_eq_ok h
  obtain ⟨rfl, rfl⟩ := peek_eq_ok hpeek
  cases hop : binaryOp? looseness s₁.head.kind with
  | none =>
      simp only [hop] at h
      obtain ⟨rfl, rfl⟩ := pure_eq_ok h
      exact .inr ⟨rfl, rfl, rfl⟩
  | some op =>
      simp only [hop] at h
      obtain ⟨hkind, hlevel⟩ := binaryOp?_eq_some.mp hop
      obtain ⟨token, s₂, htake, h⟩ := bind_eq_ok h
      obtain ⟨rfl, rfl⟩ := take_eq_ok htake
      obtain ⟨right, s₃, hright, h⟩ := bind_eq_ok h
      exact .inl ⟨op, right, s₃, hkind, hlevel, hright, h⟩

theorem conditionalWith_cases (h : conditionalWith expression (bound + 1) s = .ok e s') :
    ∃ condition s₁, binaryWith expression (bound + 1) BinaryOp.loosest s = .ok condition s₁ ∧
      ((∃ whenTrue whenFalse s₂, s₁.head.kind = .symbol .question ∧
        expression s₁.tail = .ok whenTrue s₂ ∧ s₂.head.kind = .symbol .colon ∧
        conditionalWith expression bound s₂.tail = .ok whenFalse s' ∧
        e = .conditional condition.position condition whenTrue whenFalse) ∨
      (e = condition ∧ s' = s₁)) := by
  unfold conditionalWith at h
  obtain ⟨condition, s₁, hcondition, h⟩ := bind_eq_ok h
  obtain ⟨chosen, s₂, haccept, hrest⟩ := bind_eq_ok h
  refine ⟨condition, s₁, hcondition, ?_⟩
  obtain ⟨rfl, hmark, rfl⟩ | ⟨rfl, -, rfl⟩ := accept_cases haccept
  · obtain ⟨whenTrue, s₃, htrue, h⟩ := bind_eq_ok hrest
    obtain ⟨colon, s₄, hcolon, h⟩ := bind_eq_ok h
    obtain ⟨whenFalse, s₅, hfalse, h⟩ := bind_eq_ok h
    obtain ⟨rfl, rfl⟩ := pure_eq_ok h
    obtain ⟨between, -, rfl⟩ := require_cases hcolon
    exact .inl ⟨whenTrue, whenFalse, s₃, hmark, htrue, between, hfalse, rfl⟩
  · obtain ⟨rfl, rfl⟩ := pure_eq_ok hrest
    exact .inr ⟨rfl, rfl⟩

theorem expressionWithin_cases (h : expressionWithin (bound + 1) s = .ok e s') :
    ∃ target s₁, conditionalWith (expressionWithin bound) (bound + 1) s = .ok target s₁ ∧
      ((∃ p name value, target = .var p name ∧ s₁.head.kind = .symbol .assign ∧
        expressionWithin bound s₁.tail = .ok value s' ∧ e = .assign p name value) ∨
      (e = target ∧ s' = s₁)) := by
  unfold expressionWithin at h
  obtain ⟨target, s₁, htarget, h⟩ := bind_eq_ok h
  refine ⟨target, s₁, htarget, ?_⟩
  obtain ⟨k, s₂, hpeek, h⟩ := bind_eq_ok h
  obtain ⟨rfl, rfl⟩ := peek_eq_ok hpeek
  by_cases hkind : s₂.head.kind = .symbol .assign
  · rw [if_pos hkind] at h
    obtain ⟨token, s₃, htake, h⟩ := bind_eq_ok h
    obtain ⟨rfl, rfl⟩ := take_eq_ok htake
    cases target with
    | var p name =>
        obtain ⟨value, s₄, hvalue, h⟩ := bind_eq_ok h
        obtain ⟨rfl, rfl⟩ := pure_eq_ok h
        exact .inl ⟨p, name, value, rfl, hkind, hvalue, rfl⟩
    | _ => cases h
  · rw [if_neg hkind] at h
    obtain ⟨rfl, rfl⟩ := pure_eq_ok h
    exact .inr ⟨rfl, rfl⟩

end Expr

section Stmt

variable {bound : Nat} {a : Stmt}

/-- What reads the expression and the semicolon that end a statement. -/
def terminated (bound : Nat) (construct : Construct) (made : Expr → Stmt) : Parser Stmt := do
  let value ← expressionWithin bound
  let _ ← require (.symbol .semicolon) construct
  pure (made value)

/-- What reads on behind the first arm of an `if`. -/
def alternative (bound : Nat) (position : Position) (condition : Expr) (whenTrue : Stmt) :
    Parser Stmt := do
  if ← accept (.keyword .alt) then
    let whenFalse ← statementWithin bound
    pure (.ifElse position condition whenTrue whenFalse)
  else
    pure (.ifThen position condition whenTrue)

theorem terminated_cases {construct : Construct} {made : Expr → Stmt}
    (h : terminated bound construct made s = .ok a s') :
    ∃ value s₁, expressionWithin bound s = .ok value s₁ ∧ s₁.head.kind = .symbol .semicolon ∧
      a = made value ∧ s' = s₁.tail := by
  obtain ⟨value, s₁, hvalue, h⟩ := bind_eq_ok h
  obtain ⟨close, s₂, hclose, h⟩ := bind_eq_ok h
  obtain ⟨rfl, rfl⟩ := pure_eq_ok h
  obtain ⟨closed, -, rfl⟩ := require_cases hclose
  exact ⟨value, s₁, hvalue, closed, rfl, rfl⟩

theorem alternative_cases {position : Position} {condition : Expr} {whenTrue : Stmt}
    (h : alternative bound position condition whenTrue s = .ok a s') :
    (∃ whenFalse, s.head.kind = .keyword .alt ∧ statementWithin bound s.tail = .ok whenFalse s' ∧
      a = .ifElse position condition whenTrue whenFalse) ∨
    (s.head.kind ≠ .keyword .alt ∧ a = .ifThen position condition whenTrue ∧ s' = s) := by
  obtain ⟨chosen, s₁, haccept, hrest⟩ := bind_eq_ok h
  obtain ⟨rfl, halt, rfl⟩ | ⟨rfl, hnone, rfl⟩ := accept_cases haccept
  · obtain ⟨whenFalse, s₂, hfalse, h⟩ := bind_eq_ok hrest
    obtain ⟨rfl, rfl⟩ := pure_eq_ok h
    exact .inl ⟨whenFalse, halt, hfalse, rfl⟩
  · obtain ⟨rfl, rfl⟩ := pure_eq_ok hrest
    exact .inr ⟨hnone, rfl, rfl⟩

theorem statementWithin_cases (h : statementWithin (bound + 1) s = .ok a s') :
    (s.head.kind = .keyword .ret ∧
      terminated bound .returnStatement (.ret s.head.position) s.tail = .ok a s') ∨
    terminated (bound + 1) .expressionStatement (.expr s.head.position) s = .ok a s' ∨
    (s.head.kind = .symbol .semicolon ∧ a = .empty s.head.position ∧ s' = s.tail) ∨
    ∃ condition whenTrue s₁ s₂, s.head.kind = .keyword .cond ∧
      s.tail.head.kind = .symbol .leftParen ∧
      expressionWithin bound s.tail.tail = .ok condition s₁ ∧
      s₁.head.kind = .symbol .rightParen ∧ statementWithin bound s₁.tail = .ok whenTrue s₂ ∧
      alternative bound s.head.position condition whenTrue s₂ = .ok a s' := by
  unfold statementWithin at h
  obtain ⟨found, s₁, hnext, h⟩ := bind_eq_ok h
  cases found with
  | none => cases h
  | some token =>
      obtain ⟨rfl, rfl⟩ := next?_eq_ok hnext
      cases hkind : s₁.head.kind with
      | keyword word =>
          simp only [hkind] at h
          cases word with
          | int => cases h
          | ret =>
              obtain ⟨token, s₂, htake, h⟩ := bind_eq_ok h
              obtain ⟨rfl, rfl⟩ := take_eq_ok htake
              exact .inl ⟨rfl, h⟩
          | cond =>
              obtain ⟨token, s₂, htake, h⟩ := bind_eq_ok h
              obtain ⟨rfl, rfl⟩ := take_eq_ok htake
              obtain ⟨left, s₃, hleft, h⟩ := bind_eq_ok h
              obtain ⟨opened, -, rfl⟩ := require_cases hleft
              obtain ⟨condition, s₄, hcondition, h⟩ := bind_eq_ok h
              obtain ⟨right, s₅, hright, h⟩ := bind_eq_ok h
              obtain ⟨closed, -, rfl⟩ := require_cases hright
              obtain ⟨whenTrue, s₆, htrue, h⟩ := bind_eq_ok h
              exact .inr (.inr (.inr ⟨condition, whenTrue, s₄, s₆, rfl, opened, hcondition,
                closed, htrue, h⟩))
          | alt => exact .inr (.inl h)
      | symbol mark =>
          simp only [hkind] at h
          cases mark with
          | semicolon =>
              obtain ⟨token, s₂, htake, h⟩ := bind_eq_ok h
              obtain ⟨rfl, rfl⟩ := take_eq_ok htake
              obtain ⟨rfl, rfl⟩ := pure_eq_ok h
              exact .inr (.inr (.inl ⟨rfl, rfl, rfl⟩))
          | _ => exact .inr (.inl h)
      | _ =>
          simp only [hkind] at h
          exact .inr (.inl h)

theorem initialWithin_cases {initial : Option Expr} (h : initialWithin bound s = .ok initial s') :
    (∃ value, s.head.kind = .symbol .assign ∧ expressionWithin bound s.tail = .ok value s' ∧
      initial = some value) ∨ (initial = none ∧ s' = s) := by
  unfold initialWithin at h
  obtain ⟨chosen, s₁, haccept, hrest⟩ := bind_eq_ok h
  obtain ⟨rfl, hmark, rfl⟩ | ⟨rfl, -, rfl⟩ := accept_cases haccept
  · obtain ⟨value, s₂, hvalue, h⟩ := bind_eq_ok hrest
    obtain ⟨rfl, rfl⟩ := pure_eq_ok h
    exact .inl ⟨value, hmark, hvalue, rfl⟩
  · obtain ⟨rfl, rfl⟩ := pure_eq_ok hrest
    exact .inr ⟨rfl, rfl⟩

theorem declarationWithin_cases (h : declarationWithin bound s = .ok a s') :
    ∃ name initial s₁, s.head.kind = .keyword .int ∧ s.tail.head.kind = .identifier name ∧
      initialWithin bound s.tail.tail = .ok initial s₁ ∧ s₁.head.kind = .symbol .semicolon ∧
      a = .declare s.head.position name s.tail.head.position initial ∧ s' = s₁.tail := by
  unfold declarationWithin at h
  obtain ⟨token, s₁, htoken, h⟩ := bind_eq_ok h
  obtain ⟨hint, rfl, rfl⟩ := require_cases htoken
  obtain ⟨⟨name, position⟩, s₂, hname, h⟩ := bind_eq_ok h
  obtain ⟨named, rfl, rfl⟩ := identifier_cases hname
  obtain ⟨initial, s₃, hinitial, h⟩ := bind_eq_ok h
  obtain ⟨close, s₄, hclose, h⟩ := bind_eq_ok h
  obtain ⟨closed, -, rfl⟩ := require_cases hclose
  obtain ⟨rfl, rfl⟩ := pure_eq_ok h
  exact ⟨name, initial, s₃, hint, named, hinitial, closed, rfl, rfl⟩

theorem itemWithin_cases (h : itemWithin bound s = .ok a s') :
    declarationWithin bound s = .ok a s' ∨ statementWithin bound s = .ok a s' := by
  unfold itemWithin at h
  obtain ⟨k, s₁, hpeek, h⟩ := bind_eq_ok h
  obtain ⟨rfl, rfl⟩ := peek_eq_ok hpeek
  split at h
  · exact .inl h
  · exact .inr h

theorem itemsWithin_cases {items : List Stmt} (h : itemsWithin (bound + 1) s = .ok items s') :
    (∃ a others s₁, itemWithin (bound + 1) s = .ok a s₁ ∧
      itemsWithin bound s₁ = .ok others s' ∧ items = a :: others) ∨
    (items = [] ∧ s' = s ∧ (s.head.kind = .symbol .rightBrace ∨ s.head.kind = .endOfFile)) := by
  unfold itemsWithin at h
  obtain ⟨k, s₁, hpeek, h⟩ := bind_eq_ok h
  obtain ⟨rfl, rfl⟩ := peek_eq_ok hpeek
  split at h
  · rename_i stop
    obtain ⟨rfl, rfl⟩ := pure_eq_ok h
    exact .inr ⟨rfl, rfl, stop⟩
  · obtain ⟨a, s₂, ha, h⟩ := bind_eq_ok h
    obtain ⟨others, s₃, hothers, h⟩ := bind_eq_ok h
    obtain ⟨rfl, rfl⟩ := pure_eq_ok h
    exact .inl ⟨a, others, s₂, ha, hothers, rfl⟩

/-- The heads are those of the five tokens in front of the body, one behind the other. -/
theorem function_cases {p : Program} (h : function s = .ok p s') :
    ∃ s₁ s₂, s.head.kind = .keyword .int ∧ s.tail.head.kind = .identifier p.name ∧
      s.tail.tail.head.kind = .symbol .leftParen ∧
      s.tail.tail.tail.head.kind = .symbol .rightParen ∧
      s.tail.tail.tail.tail.head.kind = .symbol .leftBrace ∧
      s₁ = s.tail.tail.tail.tail.tail ∧ itemsWithin s₁.tokens.length s₁ = .ok p.body s₂ ∧
      s₂.head.kind = .symbol .rightBrace ∧ p.position = s.head.position ∧ s' = s₂.tail := by
  unfold function at h
  obtain ⟨token, s₁, htoken, h⟩ := bind_eq_ok h
  obtain ⟨hint, rfl, rfl⟩ := require_cases htoken
  obtain ⟨⟨name, position⟩, s₂, hname, h⟩ := bind_eq_ok h
  obtain ⟨named, rfl, rfl⟩ := identifier_cases hname
  obtain ⟨left, s₃, hleft, h⟩ := bind_eq_ok h
  obtain ⟨opened, -, rfl⟩ := require_cases hleft
  obtain ⟨right, s₄, hright, h⟩ := bind_eq_ok h
  obtain ⟨closed, -, rfl⟩ := require_cases hright
  obtain ⟨opening, s₅, hopening, h⟩ := bind_eq_ok h
  obtain ⟨begun, -, rfl⟩ := require_cases hopening
  obtain ⟨bound, s₆, hbound, h⟩ := bind_eq_ok h
  cases hbound
  obtain ⟨body, s₇, hbody, h⟩ := bind_eq_ok h
  obtain ⟨closing, s₈, hclosing, h⟩ := bind_eq_ok h
  obtain ⟨ended, -, rfl⟩ := require_cases hclosing
  obtain ⟨rfl, rfl⟩ := pure_eq_ok h
  exact ⟨_, s₇, hint, named, opened, closed, begun, rfl, hbody, ended, rfl, rfl⟩

theorem program_cases {p : Program} (h : program s = .ok p s') :
    ∃ s₁, function s = .ok p s₁ ∧ s₁.head.kind = .endOfFile ∧ s' = s₁.tail := by
  unfold program at h
  obtain ⟨parsed, s₁, hfunction, h⟩ := bind_eq_ok h
  obtain ⟨token, s₂, hend, h⟩ := bind_eq_ok h
  obtain ⟨last, -, rfl⟩ := require_cases hend
  obtain ⟨rfl, rfl⟩ := pure_eq_ok h
  exact ⟨s₁, hfunction, last, rfl⟩

end Stmt

end IntLang.Parser
