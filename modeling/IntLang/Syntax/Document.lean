import IntLang.Syntax.Basic
import IntLang.Document
/-!
Syntax trees as structured data: a node is a record of its kind and its location, a kind with
parts is a record of one field named for it.
-/
namespace IntLang

open Document (number text)

def Position.document (p : Position) : Document :=
  .record [("line", number p.line.toNat), ("column", number p.column.toNat)]

/-- A node of a tree. -/
def Document.node (kind : Document) (p : Position) : Document :=
  .record [("kind", kind), ("location", p.document)]

/-- A kind with parts. -/
def Document.tagged (tag : String) (parts : Document) : Document := .record [(tag, parts)]

def BinaryOp.tag : BinaryOp → String
  | .add => "Add"
  | .sub => "Sub"
  | .mul => "Mul"
  | .div => "Div"
  | .rem => "Mod"
  | .lt => "Less"
  | .gt => "Greater"
  | .le => "LessEqual"
  | .ge => "GreaterEqual"
  | .eq => "Equal"
  | .ne => "NotEqual"
  | .land => "LogicalAnd"
  | .lor => "LogicalOr"

def UnaryOp.tag : UnaryOp → String
  | .neg => "Minus"
  | .not => "BitNot"
  | .lnot => "LogicalNot"

def Expr.document : Expr → Document
  | .literal p value => .node (.tagged "IntLiteral" (number value.toInt)) p
  | .var p name => .node (.tagged "Identifier" (.record [("name", text name)])) p
  | .assign p target value =>
      .node (.tagged "Assign" (.record [("target", text target), ("value", value.document)])) p
  | .conditional p condition whenTrue whenFalse =>
      .node (.tagged "Conditional" (.record [("condition", condition.document),
        ("then_expr", whenTrue.document), ("else_expr", whenFalse.document)])) p
  | .binary p op left right =>
      .node (.tagged "Binary" (.record [("op", text op.tag), ("left", left.document),
        ("right", right.document)])) p
  | .unary p op operand =>
      .node (.tagged "Unary" (.record [("op", text op.tag), ("operand", operand.document)])) p
  | .paren p inner => .node (.tagged "Parenthesized" inner.document) p

/-- An `if` statement; the arm for false may be missing. -/
def Document.ifNode (condition whenTrue whenFalse : Document) (p : Position) : Document :=
  .node (.tagged "If" (.record [("condition", condition), ("then_stmt", whenTrue),
    ("else_stmt", whenFalse)])) p

def Stmt.document : Stmt → Document
  | .ret p value => .node (.tagged "Return" value.document) p
  | .expr p value => .node (.tagged "Expression" value.document) p
  | .empty p => .node (text "Empty") p
  | .ifThen p condition whenTrue => .ifNode condition.document whenTrue.document .null p
  | .ifElse p condition whenTrue whenFalse =>
      .ifNode condition.document whenTrue.document whenFalse.document p
  | .declare p name namePosition initial =>
      .node (.tagged "Declaration" (.record [("name", text name),
        ("initializer", (initial.map Expr.document).getD .null),
        ("location", namePosition.document)])) p

/-- The record of the one function. -/
def Program.functionDocument (program : Program) : Document :=
  .record [("name", text program.name), ("body", .list (program.body.map Stmt.document)),
    ("location", program.position.document)]

def Program.document (program : Program) : Document :=
  .record [("function", program.functionDocument)]

end IntLang
