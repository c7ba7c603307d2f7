import IntLang.Compiler
import IntLang.CommandLine.Arguments
import IntLang.CommandLine.FileTree
/-!
A run of the program: read the input, print what the options ask for as far as the compilation
gets, and write the assembly text last, so that a failed compilation writes nothing.

How arguments are read and how a tree is put into text is the work of libraries, which the program
is given.
-/
namespace IntLang.CommandLine

/-- Reading and writing of files by path, in whatever way `m` does it. -/
structure Files (m : Type → Type) where
  read : String → m (Except FileError String)
  write : String → String → m (Except FileError Unit)

/-- The files of a tree. -/
def Files.ofTree : Files (StateM FileTree) where
  read path := fun t => (t.read path, t)
  write path text := fun t =>
    match t.write path text with
    | .ok t' => (.ok (), t')
    | .error e => (.error e, t)

/-- How a run ends: the exit status, and the texts of its two output streams without the lines of
the log. -/
structure Outcome where
  status : UInt32
  printed : String
  complaint : String
deriving DecidableEq, Repr

/-- A run that ends with an error. -/
def Outcome.failure (printed : String) (e : CompileError) : Outcome :=
  ⟨1, printed, e.message ++ "\n"⟩

structure Libraries where
  /-- Reads the arguments, or ends the run at once. -/
  parse : List String → Except Outcome Invocation
  /-- The text of a tree, or what keeps it from being one. -/
  render : Program → Except String String

/-- What is printed on the way, and the assembly text or what ended the compilation. -/
structure Report where
  printed : String
  assembly : Except CompileError String

namespace Libraries

/-- The lines that show the tree, if it is asked for. -/
def dump (k : Libraries) (options : Options) (program : Program) : Except CompileError String :=
  if options.dumpTree then
    match k.render program with
    | .ok text => .ok (text ++ "\n")
    | .error message => .error (.rendering message)
  else .ok ""

/-- Compiles a source text. The tree is printed before names are resolved, the listing after. -/
def report (k : Libraries) (options : Options) (source : String) : Report :=
  match Program.ofSource source with
  | .error e => ⟨"", .error e⟩
  | .ok program =>
      match k.dump options program with
      | .error e => ⟨"", .error e⟩
      | .ok tree =>
          match Ir.Routine.ofProgram program with
          | .error e => ⟨tree, .error e⟩
          | .ok routine =>
              let listing := if options.printIr then routine.listing else ""
              ⟨tree ++ listing, .ok (Asm.ofRoutine options.annotate routine)⟩

end Libraries

/-- Carries out a compilation. -/
def Invocation.perform {m : Type → Type} [Monad m] (k : Libraries) (files : Files m)
    (i : Invocation) : m Outcome := do
  match ← files.read i.input with
  | .error e => pure (.failure "" (.file e.message))
  | .ok source =>
      let ⟨printed, assembly⟩ := k.report i.options source
      match assembly with
      | .error e => pure (.failure printed e)
      | .ok text =>
          match ← files.write i.output text with
          | .error e => pure (.failure printed (.file e.message))
          | .ok () => pure ⟨0, printed, ""⟩

/-- Runs the program on its arguments. -/
def Libraries.perform {m : Type → Type} [Monad m] (k : Libraries) (files : Files m)
    (args : List String) : m Outcome :=
  match k.parse args with
  | .error outcome => pure outcome
  | .ok invocation => invocation.perform k files

end IntLang.CommandLine
