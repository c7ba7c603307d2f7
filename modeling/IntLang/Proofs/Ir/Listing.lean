import IntLang.Ir.Basic
import IntLang.Proofs.Text.Printed
/-!
Listings read back. No operation has a semicolon or a line end in its text. So the last semicolon of
a listing is the one of its header, whatever name stands before it, and each line below the header
is one operation. Routines with the same listing are equal.
-/
namespace IntLang.Ir

open Text

/-- A character that can stand in the text of an operation. -/
def isListed (c : Char) : Bool := c.isAlphanum || c = ' ' || c = '_' || c = '-'

theorem not_mem_of_all_isListed {cs : List Char} (h : cs.all isListed = true) {c : Char}
    (other : isListed c = false) : c ∉ cs := by
  intro hc
  rw [List.all_eq_true.mp h c hc] at other
  cases other

section Number

def number? (cs : List Char) : Option UInt32 :=
  (Decimal.nat? cs).bind fun n => if n < UInt32.size then some (.ofNat n) else none

theorem number?_toDigits (k : UInt32) : number? (Nat.toDigits 10 k.toNat) = some k := by
  rw [number?, Decimal.nat?_toDigits, Option.bind_some, if_pos k.toNat_lt_size, UInt32.ofNat_toNat]

theorem isListed_of_isDigit {c : Char} (h : c.isDigit = true) : isListed c = true := by
  simp [isListed, Char.isAlphanum, h]

theorem all_isListed_toDigits (n : Nat) : (Nat.toDigits 10 n).all isListed = true :=
  List.all_eq_true.mpr fun _ h =>
    isListed_of_isDigit (Nat.isDigit_of_mem_toDigits (by decide) (by decide) h)

theorem all_isListed_word (w : Word) : (Word.text w).toList.all isListed = true := by
  rw [List.all_eq_true]
  intro c h
  rcases Word.text_chars h with digit | rfl
  · exact isListed_of_isDigit digit
  · rfl

end Number

namespace Label

def Role.name : Role → String
  | .otherwise => "else"
  | .done => "end"

def Role.ofName? : String → Option Role
  | "else" => some .otherwise
  | "end" => some .done
  | _ => none

def ofText? (cs : List Char) : Option Label := do
  let (name, id) ← cut? (· = '_') cs
  let role ← Role.ofName? (String.ofList name)
  let id ← number? id
  return ⟨role, id⟩

theorem text_toList (l : Label) :
    l.text.toList = l.role.name.toList ++ '_' :: Nat.toDigits 10 l.id.toNat := by
  obtain ⟨role, id⟩ := l
  cases role <;> simp [text, Role.name]

theorem ofText?_text (l : Label) : ofText? l.text.toList = some l := by
  have name : '_' ∉ l.role.name.toList := by cases l.role <;> decide
  have role : Role.ofName? l.role.name = some l.role := by cases l.role <;> rfl
  simp only [ofText?, text_toList, cut?_of_not_mem name, Option.bind_eq_bind, Option.bind_some,
    String.ofList_toList, role, number?_toDigits]
  rfl

theorem all_isListed_text (l : Label) : l.text.toList.all isListed = true := by
  rw [text_toList, List.all_append, List.all_cons, all_isListed_toDigits]
  cases l.role <;> rfl

end Label

namespace Op

/-- The operations that are written without an operand. -/
def bare : List Op :=
  [.unary .neg, .unary .not, .unary .lnot, .binary .add, .binary .sub, .binary .mul, .binary .div,
    .binary .rem, .binary .lt, .binary .gt, .binary .le, .binary .ge, .binary .eq, .binary .ne,
    .binary .land, .binary .lor, .load, .store, .pop, .ret]

def ofOperand? (name : String) (operand : List Char) : Option Op :=
  match name with
  | "push" => (Word.ofText? operand).map .push
  | "frameaddr" => (number? operand).map .frameAddr
  | "br" => (Label.ofText? operand).map .br
  | "beqz" => (Label.ofText? operand).map .beqz
  | "bnez" => (Label.ofText? operand).map .bnez
  | "label" => (Label.ofText? operand).map .label
  | _ => none

def ofText? (cs : List Char) : Option Op :=
  match cut? (· = ' ') cs with
  | none => bare.find? (·.text = String.ofList cs)
  | some (name, operand) => ofOperand? (String.ofList name) operand

variable {op : Op}

/-- The names of operators and of the other bare operations do not clash. -/
theorem ofText?_bare (h : op ∈ bare) : ofText? op.text.toList = some op := by
  revert op
  decide

/-- An operation reads back if its operand does. -/
theorem ofText?_operand {α : Type} {make : α → Op} {x : α} (name : String) {operand : String}
    (read : List Char → Option α) (family : ∀ cs, ofOperand? name cs = (read cs).map make)
    (word : ' ' ∉ name.toList) (written : (make x).text = name ++ " " ++ operand)
    (back : read operand.toList = some x) : ofText? (make x).text.toList = some (make x) := by
  have split : (make x).text.toList = name.toList ++ ' ' :: operand.toList := by simp [written]
  simp only [ofText?, split, cut?_of_not_mem word, String.ofList_toList, family, back,
    Option.map_some]

/-- A written operation reads back. -/
theorem ofText?_text (op : Op) : ofText? op.text.toList = some op := by
  cases op with
  | push value =>
      exact ofText?_operand "push" Word.ofText? (fun _ => rfl) (by decide) rfl value.ofText?_text
  | frameAddr slot =>
      have digits : (toString slot.toNat).toList = Nat.toDigits 10 slot.toNat := Nat.toList_repr
      exact ofText?_operand "frameaddr" number? (fun _ => rfl) (by decide) rfl
        (digits ▸ number?_toDigits slot)
  | br target =>
      exact ofText?_operand "br" Label.ofText? (fun _ => rfl) (by decide) rfl target.ofText?_text
  | beqz target =>
      exact ofText?_operand "beqz" Label.ofText? (fun _ => rfl) (by decide) rfl target.ofText?_text
  | bnez target =>
      exact ofText?_operand "bnez" Label.ofText? (fun _ => rfl) (by decide) rfl target.ofText?_text
  | label mark =>
      exact ofText?_operand "label" Label.ofText? (fun _ => rfl) (by decide) rfl mark.ofText?_text
  | unary op => exact ofText?_bare (by cases op <;> decide)
  | binary op => exact ofText?_bare (by cases op <;> decide)
  | _ => exact ofText?_bare (by decide)

theorem all_isListed_text (op : Op) : op.text.toList.all isListed = true := by
  cases op with
  | push value =>
      rw [text, String.toList_append, List.all_append, all_isListed_word]
      rfl
  | frameAddr slot =>
      rw [text, String.toList_append, List.all_append, Nat.toString_eq_repr, Nat.toList_repr,
        all_isListed_toDigits]
      rfl
  | br target | beqz target | bnez target | label target =>
      rw [text, String.toList_append, List.all_append, target.all_isListed_text]
      rfl
  | unary op => cases op <;> rfl
  | binary op => cases op <;> rfl
  | _ => rfl

def line (op : Op) : List Char := ' ' :: ' ' :: op.text.toList

theorem all_isListed_line (op : Op) : op.line.all isListed = true := by
  rw [line, List.all_cons, List.all_cons, op.all_isListed_text]
  rfl

/-- The operations of the lines below a header, behind which stands nothing. -/
def ofLines? : List (List Char) → Option (List Op)
  | [[]] => some []
  | (' ' :: ' ' :: text) :: lines => do
      let op ← ofText? text
      let ops ← ofLines? lines
      return op :: ops
  | _ => none

theorem ofLines?_lines (ops : List Op) : ofLines? (ops.map line ++ [[]]) = some ops := by
  induction ops with
  | nil => rfl
  | cons op ops ih =>
      rw [List.map_cons, List.cons_append, line, ofLines?, ofText?_text, ih]
      rfl

end Op

namespace Routine

/-- What stands between the semicolon of the header and its end. -/
def count (r : Routine) : List Char :=
  ' ' :: (Nat.toDigits 10 r.localCount.toNat ++ [' ', 'l', 'o', 'c', 'a', 'l', 's'])

/-- What stands behind the semicolon of the header. -/
def behind (r : Routine) : List Char :=
  r.count ++ '\n' :: r.ops.flatMap fun op => op.line ++ ['\n']

def ofCount? (cs : List Char) : Option UInt32 :=
  match pieces ' ' cs with
  | [[], digits, ['l', 'o', 'c', 'a', 'l', 's']] => number? digits
  | _ => none

/-- The routine of that listing. The name ends at the last semicolon. -/
def ofListing? (listing : String) : Option Routine :=
  match cut? (· = ';') listing.toList.reverse with
  | some (behind, ' ' :: ':' :: name) =>
      match pieces '\n' behind.reverse with
      | count :: lines => do
          let localCount ← ofCount? count
          let ops ← Op.ofLines? lines
          return ⟨String.ofList name.reverse, ops, localCount⟩
      | [] => none
  | _ => none

variable (r s : Routine)

theorem listing_toList : r.listing.toList = r.name.toList ++ ':' :: ' ' :: ';' :: r.behind := by
  simp [listing, header, behind, count, Op.line, String.toList_join, List.flatMap_map]

theorem all_isListed_count : r.count.all isListed = true := by
  rw [count, List.all_cons, List.all_append, all_isListed_toDigits]
  rfl

theorem semicolon_not_mem_behind : ';' ∉ r.behind := by
  intro h
  rcases List.mem_append.mp h with count | h
  · exact not_mem_of_all_isListed r.all_isListed_count rfl count
  obtain ⟨op, -, h⟩ := List.mem_flatMap.mp (List.mem_of_ne_of_mem (by decide) h)
  rcases List.mem_append.mp h with line | h
  · exact not_mem_of_all_isListed op.all_isListed_line rfl line
  · cases List.mem_singleton.mp h

theorem pieces_behind : pieces '\n' r.behind = r.count :: (r.ops.map Op.line ++ [[]]) := by
  rw [behind, pieces_append_cons (not_mem_of_all_isListed r.all_isListed_count rfl),
    pieces_lines fun op _ => not_mem_of_all_isListed op.all_isListed_line rfl]

theorem ofCount?_count : ofCount? r.count = some r.localCount := by
  have blank : ' ' ∉ Nat.toDigits 10 r.localCount.toNat := by
    intro h
    have digit : ' '.isDigit = true := Nat.isDigit_of_mem_toDigits (by decide) (by decide) h
    cases digit
  have parts : pieces ' ' r.count =
      [[], Nat.toDigits 10 r.localCount.toNat, ['l', 'o', 'c', 'a', 'l', 's']] := by
    rw [count, pieces_cons_self, pieces_append_cons blank, pieces_of_not_mem (by decide)]
  rw [ofCount?, parts]
  exact number?_toDigits r.localCount

theorem ofListing?_listing : ofListing? r.listing = some r := by
  have reversed : r.listing.toList.reverse =
      r.behind.reverse ++ ';' :: ' ' :: ':' :: r.name.toList.reverse := by
    simp [listing_toList]
  have last : ';' ∉ r.behind.reverse := fun h =>
    r.semicolon_not_mem_behind (List.mem_reverse.mp h)
  simp only [ofListing?, reversed, cut?_of_not_mem last, List.reverse_reverse, pieces_behind,
    ofCount?_count, Op.ofLines?_lines, String.ofList_toList]
  rfl

/-- Different routines have different listings, whatever their names are: from its listing a routine
can be read back with its name, its operations and the number of its variables. -/
theorem listing_faithful :
    (r.listing = s.listing ↔ r = s) ∧ ofListing? r.listing = some r := by
  refine ⟨⟨?_, congrArg listing⟩, r.ofListing?_listing⟩
  intro same
  have read := r.ofListing?_listing
  rw [same, s.ofListing?_listing] at read
  exact (Option.some.inj read).symm

/-- A name that looks like a listing is no obstacle. -/
example : ofListing? "f: ; 3 locals\n  ret: ; 1 locals\n  push -2\n  br end_7\n" =
    some ⟨"f: ; 3 locals\n  ret", [.push (-2), .br ⟨.done, 7⟩], 1⟩ := by decide +kernel

end Routine

end IntLang.Ir
