import IntLang.Token.Basic
import IntLang.Diagnostic
import IntLang.Text.Blank
/-!
Cutting a source text into tokens. White space, `//` comments and `/* */` comments stand between
tokens and are skipped; each token is the longest that starts where it starts. A scanner that has
met a fault goes on behind it.
-/
namespace IntLang

/-- What is left of a source text, and the place of its first character. -/
structure Cursor where
  rest : List Char
  position : Position
deriving DecidableEq, Repr

inductive LexFault
  | unterminatedComment
  | literalTooLarge
  | invalidSuffix (suffix : Char)
  | unexpectedCharacter (found : Char)
deriving DecidableEq, Repr

def LexFault.message : LexFault → String
  | .unterminatedComment => "unterminated block comment"
  | .literalTooLarge => "integer literal is too large"
  | .invalidSuffix suffix => s!"invalid suffix '{suffix}' on integer literal"
  | .unexpectedCharacter found => s!"unexpected character '{found}'"

structure LexError where
  fault : LexFault
  position : Position
deriving DecidableEq, Repr

def LexError.diagnostic (e : LexError) : Diagnostic := ⟨.malformed e.fault.message, e.position⟩

namespace Cursor

def ofText (source : String) : Cursor := ⟨source.toList, .start⟩

/-- The largest value that a literal may have. -/
def literalMax : Nat := 9223372036854775807

def isWordStart (c : Char) : Bool := c.isAlpha || c = '_'

def isWordPart (c : Char) : Bool := c.isAlphanum || c = '_'

/-- Where skipping stands: between tokens, in a comment that ends with its line, or in a block
comment opened at the given place. -/
inductive Gap
  | between
  | line
  | block (opened : Position)

/-- Skips white space and comments. A block comment without an end takes the rest of the text,
and the result is the place where it was opened. -/
def skipGap : Gap → Position → List Char → Except Position Unit × Cursor
  | .between, p, '/' :: '/' :: cs => skipGap .line ((p.next '/').next '/') cs
  | .between, p, '/' :: '*' :: cs => skipGap (.block p) ((p.next '/').next '*') cs
  | .between, p, c :: cs =>
      if Text.isBlank c then skipGap .between (p.next c) cs else (.ok (), ⟨c :: cs, p⟩)
  | .line, p, c :: cs => skipGap (if c = '\n' then .between else .line) (p.next c) cs
  | .block _, p, '*' :: '/' :: cs => skipGap .between ((p.next '*').next '/') cs
  | .block opened, p, c :: cs => skipGap (.block opened) (p.next c) cs
  | .block opened, p, [] => (.error opened, ⟨[], p⟩)
  | .between, p, [] => (.ok (), ⟨[], p⟩)
  | .line, p, [] => (.ok (), ⟨[], p⟩)

/-- Reads the digits at the front onto `value`. It stops before the first digit that would lead
above `literalMax`, and then has no value. -/
def digits (value : Nat) (p : Position) : List Char → Option Nat × Cursor
  | [] => (some value, ⟨[], p⟩)
  | c :: cs =>
      if c.isDigit then
        let longer := value * 10 + (c.toNat - '0'.toNat)
        if longer ≤ literalMax then digits longer (p.next c) cs else (none, ⟨c :: cs, p⟩)
      else (some value, ⟨c :: cs, p⟩)

/-- Reads the literal at the front. No letter and no underscore may follow it. -/
def literal (c : Cursor) : Except LexError Token × Cursor :=
  match digits 0 c.position c.rest with
  | (none, c') => (.error ⟨.literalTooLarge, c.position⟩, c')
  | (some value, c') =>
      match c'.rest with
      | [] => (.ok ⟨.literal value, c.position⟩, c')
      | s :: _ =>
          if isWordStart s then (.error ⟨.invalidSuffix s, c'.position⟩, c')
          else (.ok ⟨.literal value, c.position⟩, c')

/-- A reserved word, or else an identifier. -/
def wordKind (name : String) : Token.Kind :=
  match Keyword.ofText? name with
  | some word => .keyword word
  | none => .identifier name

/-- Reads the identifier or reserved word at the front. -/
def word (c : Cursor) : Token × Cursor :=
  let letters := c.rest.takeWhile isWordPart
  (⟨wordKind (String.ofList letters), c.position⟩,
    ⟨c.rest.dropWhile isWordPart, c.position.after letters⟩)

/-- Reads the symbol that starts with `first`, of two characters if they make one. A character
that starts no symbol is passed over. -/
def symbol (p : Position) (first : Char) (cs : List Char) : Except LexError Token × Cursor :=
  let one : Except LexError Token × Cursor :=
    match Symbol.single? first with
    | some s => (.ok ⟨.symbol s, p⟩, ⟨cs, p.next first⟩)
    | none => (.error ⟨.unexpectedCharacter first, p⟩, ⟨cs, p.next first⟩)
  match cs with
  | [] => one
  | second :: rest =>
      match Symbol.pair? first second with
      | some s => (.ok ⟨.symbol s, p⟩, ⟨rest, (p.next first).next second⟩)
      | none => one

/-- Reads the token whose first character is at the front. -/
def lexeme (c : Cursor) : Except LexError Token × Cursor :=
  match c.rest with
  | [] => (.ok ⟨.endOfFile, c.position⟩, c)
  | first :: cs =>
      if isWordStart first then
        let (token, c') := c.word
        (.ok token, c')
      else if first.isDigit then c.literal
      else symbol c.position first cs

/-- The next token, and what is left behind it. At the end of the text this is `endOfFile`, again
and again. -/
def next (c : Cursor) : Except LexError Token × Cursor :=
  match skipGap .between c.position c.rest with
  | (.error opened, c') => (.error ⟨.unterminatedComment, opened⟩, c')
  | (.ok (), c') => c'.lexeme

/-- The tokens up to the end of the text, or the first fault. Each token takes at least one
character, so the number of characters left bounds the number of tokens. -/
def tokensWithin : Nat → Cursor → Except LexError (List Token)
  | 0, c => .ok [⟨.endOfFile, c.position⟩]
  | bound + 1, c =>
      match c.next with
      | (.error e, _) => .error e
      | (.ok token, c') =>
          if token.kind = .endOfFile then .ok [token]
          else (tokensWithin bound c').map (token :: ·)

end Cursor

/-- All tokens of a source text; the last one, and only that, is `endOfFile`. -/
def tokenize (source : String) : Except LexError (List Token) :=
  let c := Cursor.ofText source
  c.tokensWithin c.rest.length

end IntLang
