import IntLang.Text.Split
/-!
A file tree as a program sees it: directories, files and devices by their names from the root, a
working directory from which paths start, and what reading and writing at a path does.
-/
namespace IntLang.CommandLine

/-- Why a file cannot be read or written. -/
inductive FileError
  | notFound
  | notDirectory
  | isDirectory
  | nameTooLong
  | noSpace
  | outOfMemory
  | invalidText
  | other (description : String)
deriving DecidableEq, Repr

def FileError.message : FileError → String
  | .notFound => "No such file or directory (os error 2)"
  | .notDirectory => "Not a directory (os error 20)"
  | .isDirectory => "Is a directory (os error 21)"
  | .nameTooLong => "File name too long (os error 36)"
  | .noSpace => "No space left on device (os error 28)"
  | .outOfMemory => "out of memory"
  | .invalidText => "stream did not contain valid UTF-8"
  | .other description => description

/-- Names from the root down. -/
abbrev Location := List String

/-- What stands among the files without being one that keeps its content. -/
inductive Device
  /-- Reads as empty and takes anything. -/
  | null
  /-- Has no end when read and takes anything. -/
  | endless
  /-- Has no end when read and no room for anything. -/
  | full
  /-- Reads as ended, and hands on what it takes, in order. -/
  | stream (taken : ByteArray)

inductive Node
  | directory
  | file (content : ByteArray)
  | device (kind : Device)

namespace Node

/-- All that reading gives. -/
def content : Node → Except FileError ByteArray
  | directory => .error .isDirectory
  | file content => .ok content
  | device .null | device (.stream _) => .ok .empty
  | device .endless | device .full => .error .outOfMemory

/-- What is there after writing. A file holds the new content alone. -/
def store : Node → ByteArray → Except FileError Node
  | directory, _ => .error .isDirectory
  | file _, content => .ok (file content)
  | device .full, content => if content.isEmpty then .ok (device .full) else .error .noSpace
  | device (.stream taken), content => .ok (device (.stream (taken ++ content)))
  | device kind, _ => .ok (device kind)

end Node

/-- Nodes by location, and the directory where relative paths start. -/
structure FileTree where
  workingDirectory : Location
  nodes : List (Location × Node)

namespace FileTree

/-- What stands at a location. The root is a directory in every tree. -/
def node? (t : FileTree) (l : Location) : Option Node :=
  if l = [] then some .directory else t.nodes.lookup l

/-- Puts a node at a location, in place of what stood there. -/
def put (t : FileTree) (l : Location) (node : Node) : FileTree :=
  { t with nodes := (l, node) :: t.nodes.filter (·.1 ≠ l) }

theorem lookup_filter_of_ne {l l' : Location} (h : l' ≠ l) (nodes : List (Location × Node)) :
    (nodes.filter (·.1 ≠ l)).lookup l' = nodes.lookup l' := by
  induction nodes with
  | nil => rfl
  | cons entry rest ih =>
    obtain ⟨k, node⟩ := entry
    by_cases hk : k = l
    · have hne : (l' == k) = false := by simpa [hk] using h
      rw [List.filter_cons_of_neg (by simpa using hk), ih, List.lookup_cons, hne]
    · rw [List.filter_cons_of_pos (by simpa using hk), List.lookup_cons, List.lookup_cons, ih]

theorem node?_put {t : FileTree} {l : Location} (h : l ≠ []) (node : Node) (l' : Location) :
    (t.put l node).node? l' = if l' = l then some node else t.node? l' := by
  by_cases hl : l' = l
  · subst hl
    simp [node?, put, h]
  · have hne : (l' == l) = false := by simpa using hl
    rw [if_neg hl, node?, node?, put, List.lookup_cons, hne, lookup_filter_of_ne hl]

/-- The most bytes that a name in a directory has. -/
def nameLimit : Nat := 255

/-- The most bytes that a path has. -/
def pathLimit : Nat := 4095

/-- What a directory holds under a name. -/
def child? (t : FileTree) (directory : Location) (name : String) :
    Except FileError (Option Node) :=
  if name.utf8ByteSize > nameLimit then .error .nameTooLong else .ok (t.node? (directory ++ [name]))

/-- One step from a directory to another. The root is its own parent. -/
def enter (t : FileTree) (l : Location) (name : String) : Except FileError Location :=
  if name = "" ∨ name = "." then .ok l
  else if name = ".." then .ok l.dropLast
  else do
    match ← t.child? l name with
    | some .directory => pure (l ++ [name])
    | some _ => throw .notDirectory
    | none => throw .notFound

/-- The directory that names lead to. -/
def walk (t : FileTree) (start : Location) (names : List String) : Except FileError Location :=
  names.foldlM t.enter start

/-- Where a path starts, and the names that lead on from there. -/
def route (t : FileTree) (path : String) : Except FileError (Location × List String) :=
  if path.utf8ByteSize > pathLimit then .error .nameTooLong
  else
    let start := if path.toList.head? = some '/' then [] else t.workingDirectory
    .ok (start, (Text.pieces '/' path.toList).map String.ofList)

/-- The name stands for a directory wherever it stands. -/
def isDots (name : String) : Bool := name = "" || name = "." || name = ".."

/-- The bytes read at a path. -/
def content (t : FileTree) (path : String) : Except FileError ByteArray := do
  let (start, names) ← t.route path
  let directory ← t.walk start names.dropLast
  let name := names.getLast?.getD ""
  if isDots name then throw .isDirectory
  match ← t.child? directory name with
  | some node => node.content
  | none => throw .notFound

/-- Writes bytes at a path, to a new file if nothing is there. A path that ends in a slash names no
file, whatever stands there. -/
def store (t : FileTree) (path : String) (content : ByteArray) : Except FileError FileTree := do
  let (start, names) ← t.route path
  let trimmed := (names.reverse.dropWhile (· = "")).reverse
  let directory ← t.walk start trimmed.dropLast
  let name := trimmed.getLast?.getD ""
  if isDots name || trimmed.length < names.length then throw .isDirectory
  let node ← match ← t.child? directory name with
    | some node => node.store content
    | none => pure (.file content)
  pure (t.put (directory ++ [name]) node)

/-- The text read at a path. -/
def read (t : FileTree) (path : String) : Except FileError String := do
  match String.fromUTF8? (← t.content path) with
  | some text => pure text
  | none => throw .invalidText

/-- Writes a text at a path. -/
def write (t : FileTree) (path text : String) : Except FileError FileTree :=
  t.store path text.toUTF8

/-- One step from a directory to another, which is made if nothing is there. -/
def enterNew (here : FileTree × Location) (name : String) :
    Except FileError (FileTree × Location) :=
  let (t, l) := here
  match t.enter l name with
  | .ok next => .ok (t, next)
  | .error .notFound => .ok (t.put (l ++ [name]) .directory, l ++ [name])
  | .error e => .error e

/-- Makes every directory of a path that is not there yet. -/
def makeDirectories (t : FileTree) (path : String) : Except FileError FileTree := do
  let (start, names) ← t.route path
  let (made, _) ← names.foldlM enterNew (t, start)
  pure made

/-- The files below the working directory, by the names that lead to them from there. -/
def files (t : FileTree) : List (Location × ByteArray) :=
  t.nodes.filterMap fun (l, node) =>
    match t.workingDirectory.isPrefixOf? l, node with
    | some below, .file content => some (below, content)
    | _, _ => none

end FileTree

end IntLang.CommandLine
