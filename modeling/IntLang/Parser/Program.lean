import IntLang.Parser.Expr
/-!
Reading statements, declarations, the function and the whole program:

    program     := function endOfFile
    function    := 'int' identifier '(' ')' '{' item* '}'
    item        := declaration | statement
    declaration := 'int' identifier ('=' expression)? ';'
    statement   := 'return' expression ';' | expression? ';'
                 | 'if' '(' expression ')' statement ('else' statement)?

A declaration is no statement, so it cannot stand alone as an arm of `if`; `else` goes with the
nearest `if`. Bounds are those of expressions.
-/
namespace IntLang.Parser

def statementWithin : Nat → Parser Stmt
  | 0 => reject .statement
  | bound + 1 => do
      match ← next? with
      | none => reject .statement
      | some token =>
          match token.kind with
          | .keyword .ret =>
              let _ ← take
              let value ← expressionWithin bound
              let _ ← require (.symbol .semicolon) .returnStatement
              pure (.ret token.position value)
          | .keyword .cond =>
              let _ ← take
              let _ ← require (.symbol .leftParen) .ifStatement
              let condition ← expressionWithin bound
              let _ ← require (.symbol .rightParen) .ifStatement
              let whenTrue ← statementWithin bound
              if ← accept (.keyword .alt) then
                let whenFalse ← statementWithin bound
                pure (.ifElse token.position condition whenTrue whenFalse)
              else
                pure (.ifThen token.position condition whenTrue)
          | .symbol .semicolon =>
              let _ ← take
              pure (.empty token.position)
          | .keyword .int => reject .statement
          | _ =>
              let value ← expressionWithin (bound + 1)
              let _ ← require (.symbol .semicolon) .expressionStatement
              pure (.expr token.position value)

/-- The initial value of a declaration, if there is one. -/
def initialWithin (bound : Nat) : Parser (Option Expr) := do
  if ← accept (.symbol .assign) then
    let value ← expressionWithin bound
    pure (some value)
  else
    pure none

def declarationWithin (bound : Nat) : Parser Stmt := do
  let token ← require (.keyword .int) .declaration
  let (name, position) ← identifier .declaration
  let initial ← initialWithin bound
  let _ ← require (.symbol .semicolon) .declaration
  pure (.declare token.position name position initial)

/-- A declaration or a statement. -/
def itemWithin (bound : Nat) : Parser Stmt := do
  if (← peek) = .keyword .int then declarationWithin bound else statementWithin bound

/-- The items up to a closing brace or the end of the file. -/
def itemsWithin : Nat → Parser (List Stmt)
  | 0 => pure []
  | bound + 1 => do
      let kind ← peek
      if kind = .symbol .rightBrace ∨ kind = .endOfFile then
        pure []
      else
        let item ← itemWithin (bound + 1)
        let items ← itemsWithin bound
        pure (item :: items)

def statement : Parser Stmt := do statementWithin (← remaining)

def declaration : Parser Stmt := do declarationWithin (← remaining)

def item : Parser Stmt := do itemWithin (← remaining)

/-- The function, without what follows it. -/
def function : Parser Program := do
  let token ← require (.keyword .int) .returnType
  let (name, _) ← identifier .functionDefinition
  let _ ← require (.symbol .leftParen) .functionDefinition
  let _ ← require (.symbol .rightParen) .functionDefinition
  let _ ← require (.symbol .leftBrace) .functionBody
  let body ← itemsWithin (← remaining)
  let _ ← require (.symbol .rightBrace) .functionBody
  pure ⟨name, body, token.position⟩

/-- The function, up to the end of the file. -/
def program : Parser Program := do
  let parsed ← function
  let _ ← require .endOfFile .program
  pure parsed

/-- What a reader makes of a token list. -/
def onTokens {α : Type} (p : Parser α) (tokens : List Token) : Except ParseError α :=
  match p.run (.ofTokens tokens) with
  | .ok a _ => .ok a
  | .error e _ => .error e

end IntLang.Parser
