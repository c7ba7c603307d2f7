/-!
Cutting a text at its first separator, or at every separator.
-/
namespace IntLang.Text

/-- What stands before and after the first character that `isSeparator` accepts. -/
def cut? (isSeparator : Char → Bool) : List Char → Option (List Char × List Char)
  | [] => none
  | c :: cs =>
      if isSeparator c then some ([], cs)
      else (cut? isSeparator cs).map fun (before, after) => (c :: before, after)

/-- The pieces between the occurrences of `separator`: always one more than there are
occurrences, so that the empty text is one empty piece. -/
def pieces (separator : Char) (cs : List Char) : List (List Char) :=
  cs.foldr (fun c found =>
    if c = separator then [] :: found
    else match found with
      | [] => [[c]]
      | piece :: rest => (c :: piece) :: rest) [[]]

@[simp] theorem pieces_nil (separator : Char) : pieces separator [] = [[]] := rfl

theorem pieces_cons_self (separator : Char) (cs : List Char) :
    pieces separator (separator :: cs) = [] :: pieces separator cs := by simp [pieces]

theorem pieces_ne_nil (separator : Char) (cs : List Char) : pieces separator cs ≠ [] := by
  cases cs with
  | nil => simp
  | cons c cs =>
      simp only [pieces, List.foldr_cons]
      split
      · simp
      · split <;> simp

end IntLang.Text
