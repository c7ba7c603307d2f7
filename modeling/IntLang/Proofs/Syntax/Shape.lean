import IntLang.Syntax.Basic
/-!
The token kinds that a tree is written with, and the shape of trees that need no further
parentheses.
-/
namespace IntLang

open Token (Kind)

theorem BinaryOp.looseness_pos (op : BinaryOp) : 0 < op.looseness := by
  cases op <;> decide

theorem BinaryOp.looseness_le (op : BinaryOp) : op.looseness ≤ loosest := by
  cases op <;> decide

namespace Expr

def kinds : Expr → List Kind
  | .literal _ value => [.literal value.toInt]
  | .var _ name => [.identifier name]
  | .assign _ target value => .identifier target :: .symbol .assign :: value.kinds
  | .conditional _ condition whenTrue whenFalse =>
      condition.kinds ++ .symbol .question :: (whenTrue.kinds ++ .symbol .colon :: whenFalse.kinds)
  | .binary _ op left right => left.kinds ++ .symbol op.symbol :: right.kinds
  | .unary _ op operand => .symbol op.symbol :: operand.kinds
  | .paren _ inner => .symbol .leftParen :: (inner.kinds ++ [.symbol .rightParen])

theorem endOfFile_not_mem_kinds (e : Expr) : .endOfFile ∉ e.kinds := by
  induction e <;> simp_all [kinds]

def starts : Kind → Bool
  | .literal _ | .identifier _ | .symbol .leftParen => true
  | .symbol s => (UnaryOp.ofSymbol? s).isSome
  | _ => false

theorem exists_start (e : Expr) : ∃ k ks, e.kinds = k :: ks ∧ starts k = true := by
  induction e with
  | conditional _ _ _ _ ih _ _ | binary _ _ _ _ ih _ =>
      obtain ⟨k, ks, hk, start⟩ := ih
      exact ⟨k, _, by rw [kinds, hk, List.cons_append], start⟩
  | unary _ op _ _ => exact ⟨_, _, rfl, by cases op <;> rfl⟩
  | _ => exact ⟨_, _, rfl, rfl⟩

/-- How loosely the outermost construct binds: an operator as its looseness says, a conditional and
an assignment above all operators, and anything else below. -/
def level : Expr → Nat
  | .literal _ _ | .var _ _ | .unary _ _ _ | .paren _ _ => 0
  | .binary _ op _ _ => op.looseness
  | .conditional _ _ _ _ => BinaryOp.loosest + 1
  | .assign _ _ _ => BinaryOp.loosest + 2

theorem level_le (e : Expr) : e.level ≤ BinaryOp.loosest + 2 := by
  cases e with
  | binary _ op _ _ => exact Nat.le_add_right_of_le op.looseness_le
  | _ => exact Nat.le_of_ble_eq_true rfl

/-- An expression that binds as tightly as can be without an operator in front. -/
def isPrimary : Expr → Bool
  | .literal _ _ | .var _ _ | .paren _ _ => true
  | _ => false

theorem isPrimary_or_unary {e : Expr} (h : e.level = 0) :
    e.isPrimary = true ∨ ∃ p op operand, e = .unary p op operand := by
  cases e with
  | literal | var | paren => exact .inl rfl
  | unary p op operand => exact .inr ⟨p, op, operand, rfl⟩
  | binary _ op _ _ => exact absurd h (Nat.ne_of_gt op.looseness_pos)
  | _ => cases h

theorem exists_conditional {e : Expr} (h : e.level = BinaryOp.loosest + 1) :
    ∃ p condition whenTrue whenFalse, e = .conditional p condition whenTrue whenFalse := by
  cases e with
  | conditional p condition whenTrue whenFalse => exact ⟨p, condition, whenTrue, whenFalse, rfl⟩
  | binary _ op _ _ => exact absurd h (Nat.ne_of_lt (Nat.lt_succ_of_le op.looseness_le))
  | _ => cases h

theorem exists_assign {e : Expr} (h : e.level = BinaryOp.loosest + 2) :
    ∃ p target value, e = .assign p target value := by
  cases e with
  | assign p target value => exact ⟨p, target, value, rfl⟩
  | binary _ op _ _ =>
      exact absurd h (Nat.ne_of_lt (Nat.lt_succ_of_le (Nat.le_succ_of_le op.looseness_le)))
  | _ => cases h

/-- Every operand binds tightly enough for its place without parentheses around it. -/
def Canonical : Expr → Prop
  | .literal _ _ | .var _ _ => True
  | .assign _ _ value => value.Canonical
  | .conditional _ condition whenTrue whenFalse =>
      (condition.level ≤ BinaryOp.loosest ∧ condition.Canonical) ∧ whenTrue.Canonical ∧
        whenFalse.level ≤ BinaryOp.loosest + 1 ∧ whenFalse.Canonical
  | .binary _ op left right =>
      (left.level ≤ op.looseness ∧ left.Canonical) ∧ right.level < op.looseness ∧ right.Canonical
  | .unary _ _ operand => operand.level = 0 ∧ operand.Canonical
  | .paren _ inner => inner.Canonical

/-- The expression with all places forgotten. -/
def bare : Expr → Expr
  | .literal _ value => .literal .start value
  | .var _ name => .var .start name
  | .assign _ target value => .assign .start target value.bare
  | .conditional _ condition whenTrue whenFalse =>
      .conditional .start condition.bare whenTrue.bare whenFalse.bare
  | .binary _ op left right => .binary .start op left.bare right.bare
  | .unary _ op operand => .unary .start op operand.bare
  | .paren _ inner => .paren .start inner.bare

end Expr

namespace Stmt

def initialKinds : Option Expr → List Kind
  | some value => .symbol .assign :: value.kinds
  | none => []

def kinds : Stmt → List Kind
  | .ret _ value => .keyword .ret :: (value.kinds ++ [.symbol .semicolon])
  | .expr _ value => value.kinds ++ [.symbol .semicolon]
  | .empty _ => [.symbol .semicolon]
  | .ifThen _ condition whenTrue =>
      .keyword .cond :: .symbol .leftParen ::
        (condition.kinds ++ .symbol .rightParen :: whenTrue.kinds)
  | .ifElse _ condition whenTrue whenFalse =>
      .keyword .cond :: .symbol .leftParen :: (condition.kinds ++ .symbol .rightParen ::
        (whenTrue.kinds ++ .keyword .alt :: whenFalse.kinds))
  | .declare _ name _ initial =>
      .keyword .int :: .identifier name :: (initialKinds initial ++ [.symbol .semicolon])

theorem endOfFile_not_mem_kinds (a : Stmt) : .endOfFile ∉ a.kinds := by
  induction a with
  | declare _ _ _ initial =>
      cases initial <;> simp [kinds, initialKinds, Expr.endOfFile_not_mem_kinds]
  | _ => simp_all [kinds, Expr.endOfFile_not_mem_kinds]

def starts : Kind → Bool
  | .keyword .ret | .keyword .cond | .symbol .semicolon => true
  | k => Expr.starts k

/-- The statement ends in an `if` that an `else` behind it would join. -/
def isOpen : Stmt → Bool
  | .ifThen _ _ _ => true
  | .ifElse _ _ _ whenFalse => whenFalse.isOpen
  | _ => false

/-- A statement whose parts are canonical, in which every `else` belongs to the nearest `if` and no
arm is a declaration. -/
def Canonical : Stmt → Prop
  | .ret _ value | .expr _ value => value.Canonical
  | .empty _ => True
  | .ifThen _ condition whenTrue => condition.Canonical ∧ whenTrue.Canonical
  | .ifElse _ condition whenTrue whenFalse =>
      condition.Canonical ∧ (whenTrue.Canonical ∧ whenTrue.isOpen = false) ∧ whenFalse.Canonical
  | .declare _ _ _ _ => False

theorem Canonical.exists_start {s : Stmt} (h : s.Canonical) :
    ∃ k ks, s.kinds = k :: ks ∧ starts k = true := by
  cases s with
  | expr _ value =>
      obtain ⟨k, ks, hk, start⟩ := value.exists_start
      refine ⟨k, _, by rw [kinds, hk, List.cons_append], ?_⟩
      unfold starts
      split
      · rfl
      · rfl
      · rfl
      · exact start
  | declare => exact h.elim
  | _ => exact ⟨_, _, rfl, rfl⟩

def CanonicalItem : Stmt → Prop
  | .declare _ _ _ initial => ∀ value ∈ initial, value.Canonical
  | s => s.Canonical

theorem Canonical.item {s : Stmt} (h : s.Canonical) : s.CanonicalItem := by
  cases s with
  | declare _ _ _ _ => exact h.elim
  | _ => exact h

def bare : Stmt → Stmt
  | .ret _ value => .ret .start value.bare
  | .expr _ value => .expr .start value.bare
  | .empty _ => .empty .start
  | .ifThen _ condition whenTrue => .ifThen .start condition.bare whenTrue.bare
  | .ifElse _ condition whenTrue whenFalse =>
      .ifElse .start condition.bare whenTrue.bare whenFalse.bare
  | .declare _ name _ initial => .declare .start name .start (initial.map Expr.bare)

end Stmt

namespace Program

/-- The token kinds of a program in order, up to the end of the file. -/
def kinds (p : Program) : List Kind :=
  .keyword .int :: .identifier p.name :: .symbol .leftParen :: .symbol .rightParen ::
    .symbol .leftBrace :: (p.body.flatMap Stmt.kinds ++ [.symbol .rightBrace])

theorem endOfFile_not_mem_kinds (p : Program) : .endOfFile ∉ p.kinds := by
  simp [kinds, Stmt.endOfFile_not_mem_kinds]

def Canonical (p : Program) : Prop := ∀ s ∈ p.body, s.CanonicalItem

def bare (p : Program) : Program := ⟨p.name, p.body.map Stmt.bare, .start⟩

end Program

end IntLang
