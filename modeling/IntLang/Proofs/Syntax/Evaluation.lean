import Mathlib.Logic.Function.Basic
import IntLang.Syntax.Basic
/-!
What a program means: evaluation of its tree over a partial environment. Operands are evaluated
from left to right and both of them always; of a conditional expression and of an `if` only the
chosen arm is evaluated. Reading a variable that holds nothing ends the evaluation with its name.
-/
namespace IntLang

abbrev Env := String → Option Word

/-- The value of an expression, and the environment after its assignments. -/
def Expr.eval : Expr → Env → Except String (Word × Env)
  | .literal _ value, env => .ok (value, env)
  | .var _ name, env =>
      match env name with
      | some value => .ok (value, env)
      | none => .error name
  | .assign _ target value, env => do
      let (v, env) ← value.eval env
      .ok (v, Function.update env target (some v))
  | .conditional _ condition whenTrue whenFalse, env => do
      let (v, env) ← condition.eval env
      if v ≠ 0 then whenTrue.eval env else whenFalse.eval env
  | .binary _ op left right, env => do
      let (a, env) ← left.eval env
      let (b, env) ← right.eval env
      .ok (op.value a b, env)
  | .unary _ op operand, env => do
      let (a, env) ← operand.eval env
      .ok (op.value a, env)
  | .paren _ inner, env => inner.eval env

/-- How a statement ends: with an environment for the statements behind it, or with the result of
the function. -/
inductive Completion
  | normal (env : Env)
  | returned (value : Word)

def evalInitial : Option Expr → Env → Except String (Word × Env)
  | some value, env => value.eval env
  | none, env => .ok (0, env)

namespace Stmt

def exec : Stmt → Env → Except String Completion
  | .ret _ value, env => do
      let (v, _) ← value.eval env
      .ok (.returned v)
  | .expr _ value, env => do
      let (_, env) ← value.eval env
      .ok (.normal env)
  | .empty _, env => .ok (.normal env)
  | .ifThen _ condition whenTrue, env => do
      let (v, env) ← condition.eval env
      if v ≠ 0 then whenTrue.exec env else .ok (.normal env)
  | .ifElse _ condition whenTrue whenFalse, env => do
      let (v, env) ← condition.eval env
      if v ≠ 0 then whenTrue.exec env else whenFalse.exec env
  | .declare _ name _ initial, env => do
      let (v, env) ← evalInitial initial env
      .ok (.normal (Function.update env name (some v)))

/-- Statements up to the first that returns. -/
def execAll : List Stmt → Env → Except String Completion
  | [], env => .ok (.normal env)
  | s :: rest, env => do
      match ← s.exec env with
      | .normal env => execAll rest env
      | .returned v => .ok (.returned v)

end Stmt

/-- The result of a program: that of the first `return` that is executed, or zero. -/
def Program.eval (p : Program) : Except String Word := do
  match ← Stmt.execAll p.body (fun _ => none) with
  | .normal _ => .ok 0
  | .returned v => .ok v

def Expr.choices : Expr → Nat
  | .literal _ _ | .var _ _ => 0
  | .assign _ _ value => value.choices
  | .conditional _ condition whenTrue whenFalse =>
      1 + condition.choices + whenTrue.choices + whenFalse.choices
  | .binary _ _ left right => left.choices + right.choices
  | .unary _ _ operand => operand.choices
  | .paren _ inner => inner.choices

def Stmt.choices : Stmt → Nat
  | .ret _ value | .expr _ value => value.choices
  | .empty _ => 0
  | .ifThen _ condition whenTrue => 1 + condition.choices + whenTrue.choices
  | .ifElse _ condition whenTrue whenFalse =>
      1 + condition.choices + whenTrue.choices + whenFalse.choices
  | .declare _ _ _ (some value) => value.choices
  | .declare _ _ _ none => 0

def Stmt.choicesAll : List Stmt → Nat
  | [] => 0
  | s :: rest => s.choices + choicesAll rest

def Stmt.declared : Stmt → List String
  | .ret _ _ | .expr _ _ | .empty _ => []
  | .ifThen _ _ whenTrue => whenTrue.declared
  | .ifElse _ _ whenTrue whenFalse => whenTrue.declared ++ whenFalse.declared
  | .declare _ name _ _ => [name]

namespace Program

def choices (p : Program) : Nat := Stmt.choicesAll p.body

def declared (p : Program) : List String := p.body.flatMap Stmt.declared

/-- There are numbers for all labels and slots. They have 32 bits, so that a longer function comes
round to numbers that are in use. -/
structure FitsCounters (p : Program) : Prop where
  choices_le : p.choices ≤ UInt32.size
  declared_le : p.declared.length ≤ UInt32.size

end Program

end IntLang
