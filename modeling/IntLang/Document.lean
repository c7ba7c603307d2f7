/-!
Structured data and its indented text: two spaces a level, a colon and a space behind each key,
and fields in the order of the record.
-/
namespace IntLang

inductive Document
  | null
  | number (value : Int)
  | text (value : String)
  | list (items : List Document)
  | record (fields : List (String × Document))

namespace Document

/-- A character inside quotes. Quotation marks, backslashes and control characters are escaped. -/
def escape (c : Char) : String :=
  match c with
  | '"' => "\\\""
  | '\\' => "\\\\"
  | '\n' => "\\n"
  | '\r' => "\\r"
  | '\t' => "\\t"
  | '\x08' => "\\b"
  | '\x0c' => "\\f"
  | c =>
      if c.toNat < 0x20 then
        "\\u00" ++ String.ofList [Nat.digitChar (c.toNat / 16), Nat.digitChar (c.toNat % 16)]
      else String.singleton c

def quoted (s : String) : String := "\"" ++ String.join (s.toList.map escape) ++ "\""

/-- A new line at that depth. -/
def newline (depth : Nat) : String := "\n" ++ String.ofList (List.replicate (2 * depth) ' ')

mutual

/-- The text of a document whose first character stands at that depth. -/
def render (depth : Nat) : Document → String
  | .null => "null"
  | .number value => toString value
  | .text value => quoted value
  | .list [] => "[]"
  | .list (item :: items) =>
      "[" ++ newline (depth + 1) ++ render (depth + 1) item ++ renderItems (depth + 1) items ++
        newline depth ++ "]"
  | .record [] => "\x7b\x7d"
  | .record ((key, value) :: fields) =>
      "\x7b" ++ newline (depth + 1) ++ quoted key ++ ": " ++ render (depth + 1) value ++
        renderFields (depth + 1) fields ++ newline depth ++ "\x7d"

/-- The items after the first. -/
def renderItems (depth : Nat) : List Document → String
  | [] => ""
  | item :: items => "," ++ newline depth ++ render depth item ++ renderItems depth items

/-- The fields after the first. -/
def renderFields (depth : Nat) : List (String × Document) → String
  | [] => ""
  | (key, value) :: fields =>
      "," ++ newline depth ++ quoted key ++ ": " ++ render depth value ++ renderFields depth fields

end

/-- The text of a whole document. -/
def pretty (d : Document) : String := render 0 d

end Document

end IntLang
