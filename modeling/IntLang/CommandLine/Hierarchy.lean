import IntLang.CommandLine.FileTree
/-!
The surroundings of a working directory: the directories at the root that every system has, and the
devices with fixed names.
-/
namespace IntLang.CommandLine.FileTree

/-- The directories that are always there. -/
def systemDirectories : List Location :=
  [["bin"], ["boot"], ["dev"], ["dev", "pts"], ["dev", "shm"], ["etc"], ["home"], ["lib"],
    ["lib64"], ["media"], ["mnt"], ["opt"], ["proc"], ["root"], ["run"], ["sbin"], ["srv"], ["sys"],
    ["tmp"], ["usr"], ["usr", "bin"], ["usr", "lib"], ["usr", "local"], ["usr", "sbin"],
    ["usr", "share"], ["var"], ["var", "log"], ["var", "tmp"]]

/-- The stream that shows what a program prints. -/
def standardOutput : Location := ["dev", "stdout"]

/-- The devices that are always there. Nothing is waiting to be read from the streams. -/
def systemDevices : List (Location × Device) :=
  [(["dev", "null"], .null), (["dev", "zero"], .endless), (["dev", "random"], .endless),
    (["dev", "urandom"], .endless), (["dev", "full"], .full),
    (["dev", "stdin"], .stream .empty), (standardOutput, .stream .empty),
    (["dev", "stderr"], .stream .empty)]

/-- A system with an empty working directory at that location. -/
def around (workingDirectory : Location) : FileTree :=
  let above := (List.range workingDirectory.length).map fun k => workingDirectory.take (k + 1)
  ⟨workingDirectory, (systemDirectories ++ above).map (·, .directory) ++
    systemDevices.map fun (l, kind) => (l, .device kind)⟩

/-- The bytes that a stream at that location has handed on. -/
def taken (t : FileTree) (l : Location) : ByteArray :=
  match t.node? l with
  | some (.device (.stream bytes)) => bytes
  | _ => .empty

end IntLang.CommandLine.FileTree
