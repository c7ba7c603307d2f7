import IntLang.Parser.Basic
import IntLang.Syntax.Basic
/-!
Reading expressions, from the loosest level to the tightest:

    expression  := identifier '=' expression | conditional
    conditional := binary ('?' expression ':' conditional)?
    binary      := unary (operator unary)*
    unary       := ('-' | '~' | '!') unary | primary
    primary     := literal | identifier | '(' expression ')'

where chains of binary operators group by looseness, and to the left within one looseness. Readers
that nest take a bound on the number of tokens left. Nesting takes a token, so the bound is never
what ends a reading: at bound zero a reader answers as it does where no token is left.
-/
namespace IntLang.Parser

/-- A literal, a variable, or an expression in parentheses. -/
def primaryWith (expression : Parser Expr) : Parser Expr := do
  let token ← take
  match token.kind with
  | .literal value =>
      match Word.ofInt? value with
      | some word => pure (.literal token.position word)
      | none => throw (.wideLiteral value token.position)
  | .identifier name => pure (.var token.position name)
  | .symbol .leftParen =>
      let inner ← expression
      let _ ← require (.symbol .rightParen) .parenthesized
      pure (.paren token.position inner)
  | _ => throw (.unexpected .expression token)

/-- The unary operator that the token stands for. -/
def unaryOp? : Token.Kind → Option UnaryOp
  | .symbol s => UnaryOp.ofSymbol? s
  | _ => none

/-- The binary operator of that looseness that the token stands for. -/
def binaryOp? (looseness : Nat) : Token.Kind → Option BinaryOp
  | .symbol s => (BinaryOp.ofSymbol? s).filter (·.looseness = looseness)
  | _ => none

/-- Any number of unary operators in front of a primary expression. -/
def unaryWith (expression : Parser Expr) : Nat → Parser Expr
  | 0 => primaryWith expression
  | bound + 1 => do
      match unaryOp? (← peek) with
      | some op =>
          let token ← take
          let operand ← unaryWith expression bound
          pure (.unary token.position op operand)
      | none => primaryWith expression

/-- Goes on from `left` with operators of that looseness, each with its right operand. -/
def chain (looseness : Nat) (operand : Parser Expr) : Nat → Expr → Parser Expr
  | 0, left => pure left
  | bound + 1, left => do
      match binaryOp? looseness (← peek) with
      | some op =>
          let _ ← take
          let right ← operand
          chain looseness operand bound (.binary left.position op left right)
      | none => pure left

/-- An expression whose binary operators have at most that looseness. -/
def binaryWith (expression : Parser Expr) (bound : Nat) : Nat → Parser Expr
  | 0 => unaryWith expression bound
  | looseness + 1 => do
      let left ← binaryWith expression bound looseness
      chain (looseness + 1) (binaryWith expression bound looseness) bound left

/-- A binary expression, or a choice between an expression and a conditional. -/
def conditionalWith (expression : Parser Expr) : Nat → Parser Expr
  | 0 => binaryWith expression 0 BinaryOp.loosest
  | bound + 1 => do
      let condition ← binaryWith expression (bound + 1) BinaryOp.loosest
      if ← accept (.symbol .question) then
        let whenTrue ← expression
        let _ ← require (.symbol .colon) .conditional
        let whenFalse ← conditionalWith expression bound
        pure (.conditional condition.position condition whenTrue whenFalse)
      else
        pure condition

/-- A conditional, or an assignment: a conditional that turns out to be a variable, followed by
`=` and the assigned expression. -/
def expressionWithin : Nat → Parser Expr
  | 0 => reject .expression
  | bound + 1 => do
      let target ← conditionalWith (expressionWithin bound) (bound + 1)
      if (← peek) = .symbol .assign then
        let token ← take
        match target with
        | .var position name =>
            let value ← expressionWithin bound
            pure (.assign position name value)
        | _ => throw (.invalidTarget token.position)
      else
        pure target

def expression : Parser Expr := do expressionWithin (← remaining)

def conditional : Parser Expr := do
  let bound ← remaining
  conditionalWith (expressionWithin bound) bound

/-- An expression whose binary operators have at most that looseness. -/
def binary (looseness : Nat) : Parser Expr := do
  let bound ← remaining
  binaryWith (expressionWithin bound) bound looseness

def unary : Parser Expr := do
  let bound ← remaining
  unaryWith (expressionWithin bound) bound

def primary : Parser Expr := do primaryWith (expressionWithin (← remaining))

end IntLang.Parser
