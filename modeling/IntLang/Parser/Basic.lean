import IntLang.Token.Basic
import IntLang.Diagnostic
/-!
Reading from a list of tokens: looking at the next one, taking it, and the faults that reading can
meet. Behind the last token the stream answers `endOfFile` without end. A fault keeps the stream
as it then stands, so that reading can go on.
-/
namespace IntLang

/-- The tokens left, and the place of the last token there was at first. -/
structure Stream where
  tokens : List Token
  finish : Position
deriving DecidableEq, Repr

namespace Stream

def ofTokens (tokens : List Token) : Stream :=
  ⟨tokens, (tokens.getLast?.map Token.position).getD .start⟩

/-- The next token. -/
def head (s : Stream) : Token := s.tokens.headD ⟨.endOfFile, s.finish⟩

/-- The stream behind the next token. -/
def tail (s : Stream) : Stream := ⟨s.tokens.tail, s.finish⟩

end Stream

/-- The part of the grammar in which a token is missed. -/
inductive Construct
  | returnType
  | functionDefinition
  | functionBody
  | declaration
  | returnStatement
  | ifStatement
  | expressionStatement
  | conditional
  | parenthesized
  | program
deriving DecidableEq, Repr

def Construct.text : Construct → String
  | .returnType => "function return type"
  | .functionDefinition => "function definition"
  | .functionBody => "function body"
  | .declaration => "declaration"
  | .returnStatement => "return statement"
  | .ifStatement => "if statement"
  | .expressionStatement => "expression statement"
  | .conditional => "conditional expression"
  | .parenthesized => "parenthesized expression"
  | .program => "program"

/-- What could have stood where another token stands. -/
inductive Expectation
  | token (kind : Token.Kind) (construct : Construct)
  | identifier (construct : Construct)
  | expression
  | statement
deriving DecidableEq, Repr

def Expectation.text : Expectation → String
  | .token kind construct => s!"'{kind.text}' in {construct.text}"
  | .identifier construct => s!"identifier in {construct.text}"
  | .expression => "expression"
  | .statement => "statement"

inductive ParseError
  | unexpected (expected : Expectation) (found : Token)
  | wideLiteral (value : Int) (position : Position)
  | invalidTarget (position : Position)
deriving DecidableEq, Repr

namespace ParseError

/-- The spelling of a token that was found, in quotes unless it is the end of the file. -/
def found (token : Token) : String :=
  if token.kind = .endOfFile then token.kind.text else s!"'{token.kind.text}'"

def message : ParseError → String
  | .unexpected expected token => s!"expected {expected.text}, found {found token}"
  | .wideLiteral value _ => s!"integer literal {value} does not fit in int"
  | .invalidTarget _ => "left-hand side of assignment must be a variable"

def position : ParseError → Position
  | .unexpected _ token => token.position
  | .wideLiteral _ position => position
  | .invalidTarget position => position

def diagnostic (e : ParseError) : Diagnostic := ⟨.malformed e.message, e.position⟩

end ParseError

/-- A reader of tokens. -/
abbrev Parser := EStateM ParseError Stream

namespace Parser

/-- The kind of the next token, which is not taken. -/
def peek : Parser Token.Kind := fun s => .ok s.head.kind s

/-- The next token, if any is left, which is not taken. -/
def next? : Parser (Option Token) := fun s => .ok s.tokens.head? s

/-- Takes the next token. -/
def take : Parser Token := fun s => .ok s.head s.tail

/-- Takes the next token as the one at fault. -/
def reject {α : Type} (expected : Expectation) : Parser α := fun s =>
  .error (.unexpected expected s.head) s.tail

/-- Takes the next token, which has to be of that kind. -/
def require (kind : Token.Kind) (construct : Construct) : Parser Token := fun s =>
  if s.head.kind = kind then .ok s.head s.tail
  else .error (.unexpected (.token kind construct) s.head) s.tail

/-- Takes the next token, which has to be an identifier. -/
def identifier (construct : Construct) : Parser (String × Position) := fun s =>
  match s.head.kind with
  | .identifier name => .ok (name, s.head.position) s.tail
  | _ => .error (.unexpected (.identifier construct) s.head) s.tail

/-- Takes the next token if it is of that kind, and says whether it was. -/
def accept (kind : Token.Kind) : Parser Bool := fun s =>
  if s.head.kind = kind then .ok true s.tail else .ok false s

/-- The number of tokens left. -/
def remaining : Parser Nat := fun s => .ok s.tokens.length s

end Parser

end IntLang
