import IntLang.Position
/-!
Tokens: the words and symbols of the language, each with the place of its first character.
-/
namespace IntLang

/-- The reserved words `int`, `return`, `if` and `else`. -/
inductive Keyword
  | int
  | ret
  | cond
  | alt
deriving DecidableEq, Repr

inductive Symbol
  | plus | minus | star | slash | percent | tilde | bang | assign | less | greater
  | question | colon
  | lessEqual | greaterEqual | equal | notEqual | andAnd | orOr
  | leftParen | rightParen | leftBrace | rightBrace | semicolon
deriving DecidableEq, Repr

/-- What a token is. A literal keeps the value written in the source, which may exceed a word;
`endOfFile` closes every token list that the scanner makes. -/
inductive Token.Kind
  | literal (value : Int)
  | identifier (name : String)
  | keyword (word : Keyword)
  | symbol (mark : Symbol)
  | endOfFile
deriving DecidableEq, Repr

structure Token where
  kind : Token.Kind
  position : Position
deriving DecidableEq, Repr

namespace Keyword

def text : Keyword → String
  | .int => "int"
  | .ret => "return"
  | .cond => "if"
  | .alt => "else"

/-- The reserved word of that spelling. -/
def ofText? (s : String) : Option Keyword :=
  [.int, .ret, .cond, .alt].find? (·.text = s)

end Keyword

namespace Symbol

def text : Symbol → String
  | .plus => "+"
  | .minus => "-"
  | .star => "*"
  | .slash => "/"
  | .percent => "%"
  | .tilde => "~"
  | .bang => "!"
  | .assign => "="
  | .less => "<"
  | .greater => ">"
  | .question => "?"
  | .colon => ":"
  | .lessEqual => "<="
  | .greaterEqual => ">="
  | .equal => "=="
  | .notEqual => "!="
  | .andAnd => "&&"
  | .orOr => "||"
  | .leftParen => "("
  | .rightParen => ")"
  | .leftBrace => "\x7b"
  | .rightBrace => "\x7d"
  | .semicolon => ";"

/-- The symbol written with that one character. -/
def single? : Char → Option Symbol
  | '+' => some .plus
  | '-' => some .minus
  | '*' => some .star
  | '/' => some .slash
  | '%' => some .percent
  | '~' => some .tilde
  | '!' => some .bang
  | '=' => some .assign
  | '<' => some .less
  | '>' => some .greater
  | '?' => some .question
  | ':' => some .colon
  | '(' => some .leftParen
  | ')' => some .rightParen
  | '\x7b' => some .leftBrace
  | '\x7d' => some .rightBrace
  | ';' => some .semicolon
  | _ => none

/-- The symbol written with those two characters. -/
def pair? : Char → Char → Option Symbol
  | '<', '=' => some .lessEqual
  | '>', '=' => some .greaterEqual
  | '=', '=' => some .equal
  | '!', '=' => some .notEqual
  | '&', '&' => some .andAnd
  | '|', '|' => some .orOr
  | _, _ => none

end Symbol

namespace Token

/-- The spelling of a token; the end of the file, which has none, is described. -/
def Kind.text : Kind → String
  | .literal value => toString value
  | .identifier name => name
  | .keyword word => word.text
  | .symbol mark => mark.text
  | .endOfFile => "end of file"

/-- The spelling in quotes, and the place. -/
def text (t : Token) : String := s!"'{t.kind.text}' at {t.position.text}"

end Token

end IntLang
