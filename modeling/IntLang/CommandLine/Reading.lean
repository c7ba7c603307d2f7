import IntLang.CommandLine.Compilation
/-!
A reader of arguments: one input, at most one output, flags, and requests that are answered at once.
Arguments are taken from left to right, and the first that is a misuse or such a request settles
the matter.
-/
namespace IntLang.CommandLine

/-- What ends the reading before every argument is taken. -/
inductive Interruption
  | version
  | help
  | misuse
deriving DecidableEq, Repr

def usage : String := "Usage: mdc [OPTIONS] <INPUT> [OUTPUT]\n"

def Interruption.outcome : Interruption → Outcome
  | .version => ⟨0, "mdc 0.1.0\n", ""⟩
  | .help => ⟨0, usage, ""⟩
  | .misuse => ⟨2, "", usage⟩

/-- The flags that may be given once. -/
def flags : List String := ["--print-ir", "--dump-ast", "--annotate"]

/-- The paths and the flags read so far. -/
structure Reading where
  paths : List String
  given : List String
deriving DecidableEq, Repr

namespace Reading

abbrev Step := Except Interruption Reading

/-- Takes an argument as a path. -/
def path (r : Reading) (argument : String) : Step :=
  if r.paths.length ≥ 2 ∨ argument = "" then .error .misuse
  else .ok { r with paths := r.paths ++ [argument] }

/-- Takes an option written with two dashes. -/
def longOption (r : Reading) (argument : String) : Step :=
  if argument ∈ flags then
    if argument ∈ r.given then .error .misuse else .ok { r with given := r.given ++ [argument] }
  else if argument = "--verbose" then .ok r
  else if argument = "--version" then .error .version
  else if argument = "--help" then .error .help
  else .error .misuse

/-- Takes the letters of an option written with one dash, each an option of its own. -/
def letters (r : Reading) : List Char → Step
  | [] => .ok r
  | 'v' :: rest => r.letters rest
  | 'V' :: _ => .error .version
  | 'h' :: _ => .error .help
  | _ => .error .misuse

/-- Takes an argument in front of `--`. A dash alone is a path. -/
def argument (r : Reading) (a : String) : Step :=
  match a.toList with
  | '-' :: '-' :: _ => r.longOption a
  | '-' :: c :: rest => r.letters (c :: rest)
  | _ => r.path a

/-- Takes all arguments; behind `--` they are paths. -/
def arguments : Reading → List String → Step
  | r, [] => .ok r
  | r, a :: rest =>
      if a = "--" then rest.foldlM path r
      else do
        let r ← r.argument a
        r.arguments rest

end Reading

/-- What a list of arguments asks for. -/
def Invocation.ofArguments (args : List String) : Except Outcome Invocation :=
  match Reading.arguments ⟨[], []⟩ args with
  | .error interruption => .error interruption.outcome
  | .ok ⟨[], _⟩ => .error Interruption.misuse.outcome
  | .ok ⟨input :: rest, given⟩ =>
      .ok ⟨input, rest.head?, ⟨"--print-ir" ∈ given, "--dump-ast" ∈ given, "--annotate" ∈ given⟩⟩

end IntLang.CommandLine
