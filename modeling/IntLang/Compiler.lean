import IntLang.Token.Scan
import IntLang.Parser.Program
import IntLang.Ir.Lowering
import IntLang.Asm.Routine
/-!
The compiler: source text to syntax tree to intermediate code to assembly text.
-/
namespace IntLang

/-- The tree of a source text. -/
def Program.ofSource (source : String) : Except CompileError Program :=
  match tokenize source with
  | .error e => .error (.lexical e.diagnostic)
  | .ok tokens =>
      match Parser.onTokens Parser.program tokens with
      | .error e => .error (.grammatical e.diagnostic)
      | .ok program => .ok program

/-- The intermediate code of a source text. -/
def Ir.Routine.ofSource (source : String) : Except CompileError Ir.Routine :=
  match Program.ofSource source with
  | .error e => .error e
  | .ok program => Ir.Routine.ofProgram program

/-- The assembly text of a source text, with the operations named in comments if asked. -/
def compile (annotate : Bool) (source : String) : Except CompileError String :=
  (Ir.Routine.ofSource source).map (Asm.ofRoutine annotate)

end IntLang
