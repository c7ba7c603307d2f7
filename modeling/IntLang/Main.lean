import IntLang.CommandLine.Session
/-!
The program on the files of the system.
-/
namespace IntLang.CommandLine

/-- The cause of a failure of the system. Its codes come with either sign. -/
def FileError.ofSystem : IO.Error → FileError
  | .noFileOrDirectory .. => .notFound
  | .inappropriateType _ code _ => if code = 20 ∨ code = -20 then .notDirectory else .isDirectory
  | .permissionDenied .. => .other "Permission denied (os error 13)"
  | e@(.invalidArgument _ code _) =>
      if code = 36 ∨ code = -36 then .nameTooLong else .other (toString e)
  | e@(.resourceExhausted _ code _) =>
      if code = 28 ∨ code = -28 then .noSpace else .other (toString e)
  | e => .other (toString e)

/-- The files of the system. -/
def Files.ofSystem : Files IO where
  read path := do
    try
      let bytes ← IO.FS.readBinFile path
      match String.fromUTF8? bytes with
      | some text => pure (.ok text)
      | none => pure (.error .invalidText)
    catch e => pure (.error (.ofSystem e))
  write path text := do
    try
      IO.FS.withFile path .write fun file => do
        file.putStr text
        file.flush
      pure (.ok ())
    catch e => pure (.error (.ofSystem e))

end IntLang.CommandLine

def main (args : List String) : IO UInt32 := do
  let outcome ← IntLang.CommandLine.perform IntLang.CommandLine.Files.ofSystem args
  IO.print outcome.printed
  IO.eprint outcome.complaint
  pure outcome.status
