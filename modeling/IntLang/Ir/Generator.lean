import IntLang.Ir.SlotTable
import IntLang.Ir.Lowering
/-!
A generator of intermediate code that is kept from one program to the next. It writes operations
behind each other into a buffer as it meets them. What a fault leaves in the buffer, the table and
the counter of labels stays there until the next program.
-/
namespace IntLang.Ir

/-- The variables and labels met so far, and the operations written so far. -/
structure Generator where
  table : SlotTable
  nextLabel : UInt32
  buffer : Array Op

/-- A step of a generator, or the diagnostic that ends it. -/
abbrev Emit := EStateM Diagnostic Generator

namespace Emit

/-- Writes an operation. -/
def op (o : Op) : Emit Unit := fun g => .ok () { g with buffer := g.buffer.push o }

/-- A label number that the function has not used. -/
def freshLabel : Emit UInt32 := fun g => .ok g.nextLabel { g with nextLabel := g.nextLabel + 1 }

def declare (name : String) (position : Position) : Emit UInt32 := fun g =>
  match g.table.declare name position with
  | (.ok slot, table) => .ok slot { g with table := table }
  | (.error d, table) => .error d { g with table := table }

def lookup (name : String) (access : Access) (position : Position) : Emit UInt32 := fun g =>
  match g.table.lookup name access position with
  | .ok slot => .ok slot g
  | .error d => .error d g

/-- Writes code that leaves the value of an expression on the stack. -/
def expr : Expr → Emit Unit
  | .literal _ value => op (.push value)
  | .var position name => do
      let slot ← lookup name .read position
      op (.frameAddr slot)
      op .load
  | .assign position target value => do
      expr value
      let slot ← lookup target .write position
      op (.frameAddr slot)
      op .store
  | .conditional _ condition whenTrue whenFalse => do
      let id ← freshLabel
      expr condition
      op (.beqz ⟨.otherwise, id⟩)
      expr whenTrue
      op (.br ⟨.done, id⟩)
      op (.label ⟨.otherwise, id⟩)
      expr whenFalse
      op (.label ⟨.done, id⟩)
  | .binary _ o left right => do
      expr left
      expr right
      op (.binary o)
  | .unary _ o operand => do
      expr operand
      op (.unary o)
  | .paren _ inner => expr inner

/-- The initial value of a declared variable, zero if it has none. -/
def initial : Option Expr → Emit Unit
  | some value => expr value
  | none => op (.push 0)

/-- Writes code that carries out a statement. -/
def stmt : Stmt → Emit Unit
  | .ret _ value => do
      expr value
      op .ret
  | .expr _ value => do
      expr value
      op .pop
  | .empty _ => pure ()
  | .ifThen _ condition whenTrue => do
      let id ← freshLabel
      expr condition
      op (.beqz ⟨.done, id⟩)
      stmt whenTrue
      op (.label ⟨.done, id⟩)
  | .ifElse _ condition whenTrue whenFalse => do
      let id ← freshLabel
      expr condition
      op (.beqz ⟨.otherwise, id⟩)
      stmt whenTrue
      op (.br ⟨.done, id⟩)
      op (.label ⟨.otherwise, id⟩)
      stmt whenFalse
      op (.label ⟨.done, id⟩)
  | .declare _ name namePosition value => do
      initial value
      let slot ← declare name namePosition
      op (.frameAddr slot)
      op .store
      op .pop

def stmts : List Stmt → Emit Unit
  | [] => pure ()
  | s :: rest => do
      stmt s
      stmts rest

/-- Writes the code of a body, whose end returns zero. -/
def body (items : List Stmt) : Emit Unit := do
  stmts items
  op (.push 0)

end Emit

namespace Generator

/-- A generator that has not met anything. -/
def new : Generator := ⟨.empty, 0, #[]⟩

/-- The generator at the start of a function. -/
def restart (g : Generator) : Generator :=
  { table := g.table.clear, nextLabel := 0, buffer := #[] }

/-- The routine of a program, which is taken out of the buffer. A function of another name is
refused before anything is forgotten. -/
def generate (g : Generator) (p : Program) : Except CompileError Routine × Generator :=
  if p.name ≠ Lower.entryName then (.error (.wrongEntry p.name), g)
  else match (Emit.body p.body).run g.restart with
    | .ok _ g' => (.ok ⟨p.name, g'.buffer.toList, g'.table.size⟩, { g' with buffer := #[] })
    | .error d g' => (.error (.semantic d), g')

end Generator

end IntLang.Ir
