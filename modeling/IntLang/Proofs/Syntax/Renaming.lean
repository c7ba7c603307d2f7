import Mathlib.Data.Set.Function
import IntLang.Proofs.Syntax.Mention
import IntLang.Proofs.Syntax.Shape
/-!
Trees up to what carries no structure: parentheses, which are nodes of their own, and the spelling
of the variables. Places are forgotten by `bare`.
-/
namespace IntLang

namespace Expr

def unwrapped : Expr → Expr
  | .literal p value => .literal p value
  | .var p name => .var p name
  | .assign p target value => .assign p target value.unwrapped
  | .conditional p condition whenTrue whenFalse =>
      .conditional p condition.unwrapped whenTrue.unwrapped whenFalse.unwrapped
  | .binary p op left right => .binary p op left.unwrapped right.unwrapped
  | .unary p op operand => .unary p op operand.unwrapped
  | .paren _ inner => inner.unwrapped

def rename (f : String → String) : Expr → Expr
  | .literal p value => .literal p value
  | .var p name => .var p (f name)
  | .assign p target value => .assign p (f target) (value.rename f)
  | .conditional p condition whenTrue whenFalse =>
      .conditional p (condition.rename f) (whenTrue.rename f) (whenFalse.rename f)
  | .binary p op left right => .binary p op (left.rename f) (right.rename f)
  | .unary p op operand => .unary p op (operand.rename f)
  | .paren p inner => .paren p (inner.rename f)

theorem rename_id (e : Expr) : e.rename id = e := by
  induction e <;> simp_all [rename]

end Expr

namespace Stmt

def unwrapped : Stmt → Stmt
  | .ret p value => .ret p value.unwrapped
  | .expr p value => .expr p value.unwrapped
  | .empty p => .empty p
  | .ifThen p condition whenTrue => .ifThen p condition.unwrapped whenTrue.unwrapped
  | .ifElse p condition whenTrue whenFalse =>
      .ifElse p condition.unwrapped whenTrue.unwrapped whenFalse.unwrapped
  | .declare p name q initial => .declare p name q (initial.map Expr.unwrapped)

def rename (f : String → String) : Stmt → Stmt
  | .ret p value => .ret p (value.rename f)
  | .expr p value => .expr p (value.rename f)
  | .empty p => .empty p
  | .ifThen p condition whenTrue => .ifThen p (condition.rename f) (whenTrue.rename f)
  | .ifElse p condition whenTrue whenFalse =>
      .ifElse p (condition.rename f) (whenTrue.rename f) (whenFalse.rename f)
  | .declare p name q initial => .declare p (f name) q (initial.map (Expr.rename f))

theorem rename_id (a : Stmt) : a.rename id = a := by
  induction a with
  | declare p name q initial => cases initial <;> simp [rename, Expr.rename_id]
  | _ => simp_all [rename, Expr.rename_id]

end Stmt

namespace Program

def unwrapped (p : Program) : Program := ⟨p.name, p.body.map Stmt.unwrapped, p.position⟩

/-- The program with other names for its variables. The function keeps its name. -/
def rename (f : String → String) (p : Program) : Program :=
  ⟨p.name, p.body.map (Stmt.rename f), p.position⟩

theorem rename_id (p : Program) : p.rename id = p := by
  have each : Stmt.rename id = id := funext Stmt.rename_id
  rw [rename, each, List.map_id]

def variableNames (p : Program) : Set String := {name | ∃ m ∈ p.mentions, m.name = name}

end Program

/-- The same fault about a variable, under the other name. -/
inductive Diagnostic.Cause.Renamed (f : String → String) :
    Diagnostic.Cause → Diagnostic.Cause → Prop
  | redeclared {name} : Renamed f (.redeclared name) (.redeclared (f name))
  | undeclared {name access} : Renamed f (.undeclared name access) (.undeclared (f name) access)

theorem Diagnostic.Cause.Renamed.eq_of_id {cause cause' : Diagnostic.Cause}
    (h : cause.Renamed id cause') : cause = cause' := by
  cases h <;> rfl

end IntLang
