/-!
What a compilation is asked to do, and where it leaves its text.
-/
namespace IntLang.CommandLine

structure Options where
  printIr : Bool
  dumpTree : Bool
  annotate : Bool
deriving DecidableEq, Repr

/-- What one run of the program is asked to compile. -/
structure Invocation where
  input : String
  output? : Option String
  options : Options
deriving DecidableEq, Repr

/-- The letters of a path, the last one first, without what stands behind the last name: slashes,
and dots that name a directory itself. -/
def dropTail : List Char → List Char
  | '/' :: back => dropTail back
  | '.' :: '/' :: back => dropTail back
  | back => back

/-- The input with the extension `s`. A name has an extension if it has a dot behind its first
character; `..` names no file and is left alone. A name such as `..c` has the stem `.`, which with
the dot that follows it is the parent directory and takes no extension; it does if something stands
behind the name. -/
def defaultOutput (input : String) : String :=
  let letters := input.toList.reverse
  let back := dropTail letters
  let name := back.takeWhile (· ≠ '/')
  let above := (back.dropWhile (· ≠ '/')).reverse
  if name = [] ∨ name = ['.'] ∨ name = ['.', '.'] then input
  else
    let front := (name.dropWhile (· ≠ '.')).drop 1
    let stem := if front = [] then name else front
    if stem = ['.'] ∧ back = letters then String.ofList (above ++ ['.', '.'])
    else String.ofList (above ++ stem.reverse ++ ['.', 's'])

namespace Invocation

def output (i : Invocation) : String := i.output?.getD (defaultOutput i.input)

end Invocation

end IntLang.CommandLine
