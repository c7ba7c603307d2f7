import IntLang.Ir.Basic
import IntLang.Ir.Scope
import IntLang.Syntax.Basic
/-!
From syntax trees to intermediate code. An expression leaves one word on the stack and a statement
none; names become slots as they are met, and every `if` and every conditional expression takes
one label number, before its condition takes any. The first diagnostic ends the walk.
-/
namespace IntLang.Ir

/-- What a walk over a function has declared and numbered. -/
structure Walk where
  scope : Scope
  nextLabel : UInt32
deriving DecidableEq, Repr

/-- A step of a walk, or the diagnostic that ends it. -/
abbrev Lower := EStateM Diagnostic Walk

namespace Walk

/-- A walk that has not met anything. -/
def start : Walk := ⟨.empty, 0⟩

/-- The walk at the start of a function, whatever it met before. -/
def restart (w : Walk) : Walk := { scope := w.scope.clear, nextLabel := 0 }

end Walk

namespace Lower

/-- A label number that the function has not used. -/
def freshLabel : Lower UInt32 := fun w => .ok w.nextLabel { w with nextLabel := w.nextLabel + 1 }

def declare (name : String) (position : Position) : Lower UInt32 := fun w =>
  match w.scope.declare name position with
  | .ok (slot, scope) => .ok slot { w with scope := scope }
  | .error d => .error d w

def lookup (name : String) (access : Access) (position : Position) : Lower UInt32 := fun w =>
  match w.scope.lookup name access position with
  | .ok slot => .ok slot w
  | .error d => .error d w

/-- Code that goes on with `whenTrue` or, if the word on the stack is zero, with `whenFalse`. -/
def choice (id : UInt32) (whenTrue whenFalse : List Op) : List Op :=
  .beqz ⟨.otherwise, id⟩ :: whenTrue ++
    .br ⟨.done, id⟩ :: .label ⟨.otherwise, id⟩ :: whenFalse ++ [.label ⟨.done, id⟩]

/-- Code that skips `whenTrue` if the word on the stack is zero. -/
def guarded (id : UInt32) (whenTrue : List Op) : List Op :=
  .beqz ⟨.done, id⟩ :: whenTrue ++ [.label ⟨.done, id⟩]

/-- Code that leaves the value of an expression on the stack. An assignment writes its value to
the slot and keeps it; its name is looked up after the value is lowered. -/
def expr : Expr → Lower (List Op)
  | .literal _ value => pure [.push value]
  | .var position name => do
      let slot ← lookup name .read position
      pure [.frameAddr slot, .load]
  | .assign position target value => do
      let code ← expr value
      let slot ← lookup target .write position
      pure (code ++ [.frameAddr slot, .store])
  | .conditional _ condition whenTrue whenFalse => do
      let id ← freshLabel
      let test ← expr condition
      let first ← expr whenTrue
      let second ← expr whenFalse
      pure (test ++ choice id first second)
  | .binary _ op left right => do
      let first ← expr left
      let second ← expr right
      pure (first ++ second ++ [.binary op])
  | .unary _ op operand => do
      let code ← expr operand
      pure (code ++ [.unary op])
  | .paren _ inner => expr inner

/-- The initial value of a declared variable, zero if it has none. -/
def initial : Option Expr → Lower (List Op)
  | some value => expr value
  | none => pure [.push 0]

/-- Code that carries out a statement. A declared name comes into scope behind its initial
value. -/
def stmt : Stmt → Lower (List Op)
  | .ret _ value => do
      let code ← expr value
      pure (code ++ [.ret])
  | .expr _ value => do
      let code ← expr value
      pure (code ++ [.pop])
  | .empty _ => pure []
  | .ifThen _ condition whenTrue => do
      let id ← freshLabel
      let test ← expr condition
      let first ← stmt whenTrue
      pure (test ++ guarded id first)
  | .ifElse _ condition whenTrue whenFalse => do
      let id ← freshLabel
      let test ← expr condition
      let first ← stmt whenTrue
      let second ← stmt whenFalse
      pure (test ++ choice id first second)
  | .declare _ name namePosition value => do
      let code ← initial value
      let slot ← declare name namePosition
      pure (code ++ [.frameAddr slot, .store, .pop])

def stmts : List Stmt → Lower (List Op)
  | [] => pure []
  | s :: rest => do
      let first ← stmt s
      let others ← stmts rest
      pure (first ++ others)

/-- The name that the function of a program must have. -/
def entryName : String := "main"

/-- Lowers a whole program after a walk that may have ended anywhere. A function of another name
is refused; otherwise the walk starts anew, and the end of the body returns zero. -/
def program (p : Program) (w : Walk) : Except CompileError Routine × Walk :=
  if p.name ≠ entryName then (.error (.wrongEntry p.name), w)
  else match (stmts p.body).run w.restart with
    | .ok ops w' => (.ok ⟨p.name, ops ++ [.push 0], w'.scope.size⟩, w')
    | .error d w' => (.error (.semantic d), w')

end Lower

/-- The routine of a program. -/
def Routine.ofProgram (p : Program) : Except CompileError Routine := (Lower.program p .start).1

end IntLang.Ir
