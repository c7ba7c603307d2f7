import Std.Data.ExtTreeMap
import IntLang.Diagnostic
/-!
The slots of variables, stored by name. A name that is declared gets the number of names before it
as its slot; a name that has one already is refused.
-/
namespace IntLang.Ir

/-- Slots by name. -/
structure SlotTable where
  slots : Std.ExtTreeMap String UInt32

namespace SlotTable

def empty : SlotTable := ⟨∅⟩

/-- The number of names, which is the next free slot. -/
def size (t : SlotTable) : UInt32 := .ofNat t.slots.size

def isEmpty (t : SlotTable) : Bool := t.slots.isEmpty

/-- Forgets all names. -/
def clear (_ : SlotTable) : SlotTable := empty

/-- Gives `name` the next free slot. A name can be declared once. -/
def declare (t : SlotTable) (name : String) (position : Position) :
    Except Diagnostic UInt32 × SlotTable :=
  match t.slots[name]? with
  | some _ => (.error ⟨.redeclared name, position⟩, t)
  | none => (.ok t.size, ⟨t.slots.insert name t.size⟩)

/-- The slot of a name that is read or written at `position`. -/
def lookup (t : SlotTable) (name : String) (access : Access) (position : Position) :
    Except Diagnostic UInt32 :=
  match t.slots[name]? with
  | some slot => .ok slot
  | none => .error ⟨.undeclared name access, position⟩

end SlotTable

end IntLang.Ir
