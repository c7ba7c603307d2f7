import IntLang.Diagnostic
/-!
The variables of a function. There is one flat scope; a declared name has the slot numbered by the
declarations before it, and keeps it until the scope is cleared.
-/
namespace IntLang.Ir

/-- The declared names in order of declaration. -/
structure Scope where
  names : List String
deriving DecidableEq, Repr

namespace Scope

def empty : Scope := ⟨[]⟩

def size (s : Scope) : UInt32 := .ofNat s.names.length

/-- Forgets all declarations. -/
def clear (_ : Scope) : Scope := empty

def isEmpty (s : Scope) : Bool := s.names.isEmpty

/-- The slot of a declared name. -/
def slot? (s : Scope) (name : String) : Option UInt32 := (s.names.idxOf? name).map UInt32.ofNat

/-- Gives `name` the next free slot. A name can be declared once. -/
def declare (s : Scope) (name : String) (position : Position) :
    Except Diagnostic (UInt32 × Scope) :=
  if name ∈ s.names then .error ⟨.redeclared name, position⟩
  else .ok (s.size, ⟨s.names ++ [name]⟩)

/-- The slot of a name that is read or written at `position`. -/
def lookup (s : Scope) (name : String) (access : Access) (position : Position) :
    Except Diagnostic UInt32 :=
  match s.slot? name with
  | some slot => .ok slot
  | none => .error ⟨.undeclared name access, position⟩

end Scope

end IntLang.Ir
