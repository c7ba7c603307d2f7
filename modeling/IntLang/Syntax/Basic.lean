import IntLang.Operator
/-!
Syntax trees. A program is one function, whose body is a list of statements; every node has the
place of its first token.
-/
namespace IntLang

/-- Expressions. Parentheses are kept as nodes. -/
inductive Expr
  | literal (position : Position) (value : Word)
  | var (position : Position) (name : String)
  | assign (position : Position) (target : String) (value : Expr)
  | conditional (position : Position) (condition whenTrue whenFalse : Expr)
  | binary (position : Position) (op : BinaryOp) (left right : Expr)
  | unary (position : Position) (op : UnaryOp) (operand : Expr)
  | paren (position : Position) (inner : Expr)
deriving DecidableEq, Repr

/-- Statements. A declaration also has the place of the declared name, and may have an initial
value. -/
inductive Stmt
  | ret (position : Position) (value : Expr)
  | expr (position : Position) (value : Expr)
  | empty (position : Position)
  | ifThen (position : Position) (condition : Expr) (whenTrue : Stmt)
  | ifElse (position : Position) (condition : Expr) (whenTrue whenFalse : Stmt)
  | declare (position : Position) (name : String) (namePosition : Position)
      (initial : Option Expr)
deriving DecidableEq, Repr

/-- The one function of a program, with the place of its return type. -/
structure Program where
  name : String
  body : List Stmt
  position : Position
deriving DecidableEq, Repr

def Expr.position : Expr → Position
  | .literal p _ | .var p _ | .assign p _ _ | .conditional p _ _ _ | .binary p _ _ _
  | .unary p _ _ | .paren p _ => p

def Stmt.position : Stmt → Position
  | .ret p _ | .expr p _ | .empty p | .ifThen p _ _ | .ifElse p _ _ _ | .declare p _ _ _ => p

end IntLang
