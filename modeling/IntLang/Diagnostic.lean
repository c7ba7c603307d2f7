import IntLang.Position
/-!
What the compiler reports to its user: a description of the fault at a place in the source, or a
fault of the whole compilation that has no place.
-/
namespace IntLang

/-- How a variable is touched. -/
inductive Access
  | read
  | write
deriving DecidableEq, Repr

def Access.text : Access → String
  | .read => "read"
  | .write => "write"

/-- The fault that a diagnostic describes: malformed input in the words of whoever rejects it, a
second declaration of a variable, or a use of a variable before its declaration. -/
inductive Diagnostic.Cause
  | malformed (message : String)
  | redeclared (name : String)
  | undeclared (name : String) (access : Access)
deriving DecidableEq, Repr

structure Diagnostic where
  cause : Diagnostic.Cause
  position : Position
deriving DecidableEq, Repr

namespace Diagnostic

def Cause.text : Cause → String
  | .malformed message => message
  | .redeclared name => s!"variable '{name}' is already declared"
  | .undeclared name .read => s!"variable '{name}' is used before declaration"
  | .undeclared name .write => s!"variable '{name}' is assigned before declaration"

/-- The variable that the fault is about. -/
def Cause.variable? : Cause → Option String
  | .malformed _ => none
  | .redeclared name => some name
  | .undeclared name _ => some name

/-- The line shown to the user. -/
def text (d : Diagnostic) : String :=
  s!"Parse/Semantic Error ({d.position.text}): {d.cause.text}"

end Diagnostic

/-- Why a compilation ends without assembly text: a fault found while cutting the source into
tokens, building the tree or resolving names, a function of the wrong name, or a failure to read,
write or render. -/
inductive CompileError
  | lexical (diagnostic : Diagnostic)
  | grammatical (diagnostic : Diagnostic)
  | semantic (diagnostic : Diagnostic)
  | wrongEntry (name : String)
  | file (message : String)
  | rendering (message : String)
deriving DecidableEq, Repr

namespace CompileError

/-- The diagnostic of a fault that has a place. -/
def diagnostic? : CompileError → Option Diagnostic
  | .lexical d | .grammatical d | .semantic d => some d
  | .wrongEntry _ | .file _ | .rendering _ => none

def message : CompileError → String
  | .lexical d | .grammatical d | .semantic d => d.text
  | .wrongEntry name => s!"Structural error: function name is not main (found '{name}')"
  | .file message => s!"IO error: {message}"
  | .rendering message => s!"Serialization error: {message}"

end CompileError

end IntLang
