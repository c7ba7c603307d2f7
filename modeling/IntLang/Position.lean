/-!
Places in a source text: the line and column of a character, both counted from 1 in 32 bits.
-/
namespace IntLang

structure Position where
  line : UInt32
  column : UInt32
deriving DecidableEq, Repr, Inhabited

namespace Position

/-- The place of the first character of a text. -/
def start : Position := ⟨1, 1⟩

/-- The place after the character `c`: a line feed opens a new line, every other character
takes one column. -/
def next (p : Position) (c : Char) : Position :=
  if c = '\n' then ⟨p.line + 1, 1⟩ else ⟨p.line, p.column + 1⟩

/-- The place after all of `cs`. -/
def after (p : Position) (cs : List Char) : Position := cs.foldl next p

/-- Written `line,column`. -/
def text (p : Position) : String := toString p.line.toNat ++ "," ++ toString p.column.toNat

@[simp] theorem after_nil (p : Position) : p.after [] = p := rfl

@[simp] theorem after_cons (p : Position) (c : Char) (cs : List Char) :
    p.after (c :: cs) = (p.next c).after cs := rfl

theorem after_append (p : Position) (as bs : List Char) :
    p.after (as ++ bs) = (p.after as).after bs := List.foldl_append

end Position

end IntLang
