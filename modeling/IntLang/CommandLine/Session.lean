import IntLang.Syntax.Document
import IntLang.CommandLine.Reading
/-!
The program with libraries of its own.
-/
namespace IntLang.CommandLine

/-- Arguments are read in the usual form, and trees are shown as structured text. -/
def Libraries.ordinary : Libraries where
  parse := Invocation.ofArguments
  render program := .ok program.document.pretty

/-- Runs the program on its arguments. -/
def perform {m : Type → Type} [Monad m] (files : Files m) (args : List String) : m Outcome :=
  Libraries.ordinary.perform files args

end IntLang.CommandLine
