import Mathlib.Data.List.Basic
import Mathlib.Data.List.TakeWhile
import IntLang.CommandLine.Arguments
/-!
The output that is taken when none is given: it stands in the directory of the input, and has the
name of the input with the extension `s`.
-/
namespace IntLang.CommandLine

/-- What stands behind the last name of a path without leading anywhere else. -/
inductive Trailing : List Char → Prop
  | nil : Trailing []
  | slash {tail} : Trailing tail → Trailing (tail ++ ['/'])
  | dot {tail} : Trailing tail → Trailing (tail ++ ['/', '.'])

/-- A path is cut into what leads to its last name, the name, and what stands behind it. -/
structure Named (path above name tail : List Char) : Prop where
  path_eq : path = above ++ name ++ tail
  ends : ∀ c ∈ above.getLast?, c = '/'
  plain : '/' ∉ name
  trailing : Trailing tail
  first : name = [] ∨ name = ['.'] → above = []

/-- The second path is the first with the extension `s`. -/
inductive Extended : List Char → List Char → Prop
  /-- The letters behind the last dot give way, if the dot is not the first letter of the name. -/
  | replaced {path above stem old tail} : Named path above (stem ++ '.' :: old) tail →
      '.' ∉ old → stem ≠ [] → ¬(stem = ['.'] ∧ (old = [] ∨ tail = [])) →
      Extended path (above ++ stem ++ ['.', 's'])
  /-- A name without such a dot is continued. -/
  | added {path above name tail} : Named path above name tail →
      '.' ∉ name.tail → name ≠ [] → name ≠ ['.'] → Extended path (above ++ name ++ ['.', 's'])
  /-- Without its letters behind the last dot, the name would be that of the directory above. -/
  | parent {path above old} : Named path above ('.' :: '.' :: old) [] → '.' ∉ old → old ≠ [] →
      Extended path (above ++ ['.', '.'])
  /-- The path does not end in the name of a file. -/
  | nameless {path above name tail} : Named path above name tail →
      name = [] ∨ name = ['.'] ∨ name = ['.', '.'] → Extended path path

theorem dropTail_trailing (letters : List Char) :
    ∃ tail, Trailing tail ∧ letters.reverse = (dropTail letters).reverse ++ tail := by
  induction letters using dropTail.induct with
  | case1 back ih =>
      obtain ⟨tail, trailing, cut⟩ := ih
      refine ⟨tail ++ ['/'], trailing.slash, ?_⟩
      rw [dropTail, List.reverse_cons, cut, List.append_assoc]
  | case2 back ih =>
      obtain ⟨tail, trailing, cut⟩ := ih
      refine ⟨tail ++ ['/', '.'], trailing.dot, ?_⟩
      rw [dropTail, List.reverse_cons, List.reverse_cons, cut, List.append_assoc, List.append_assoc]
      rfl
  | case3 letters no_slash no_dot =>
      refine ⟨[], .nil, ?_⟩
      rw [dropTail.eq_3 letters no_slash no_dot, List.append_nil]

/-- Nothing that stands behind a name is left. -/
theorem dropTail_ne (letters back : List Char) :
    dropTail letters ≠ '/' :: back ∧ dropTail letters ≠ '.' :: '/' :: back := by
  induction letters using dropTail.induct with
  | case1 _ ih | case2 _ ih => rwa [dropTail]
  | case3 letters no_slash no_dot =>
      rw [dropTail.eq_3 letters no_slash no_dot]
      exact ⟨no_slash back, no_dot back⟩

theorem not_mem_takeWhile (c : Char) (letters : List Char) :
    c ∉ letters.takeWhile (· ≠ c) := by
  intro h
  simpa using List.mem_takeWhile_imp h

theorem dropWhile_cases (c : Char) (letters : List Char) :
    letters.dropWhile (· ≠ c) = [] ∨ ∃ rest, letters.dropWhile (· ≠ c) = c :: rest := by
  cases dropped : letters.dropWhile (· ≠ c) with
  | nil => exact .inl rfl
  | cons d rest =>
      have stops := List.head?_dropWhile_not (· ≠ c) letters
      rw [dropped] at stops
      cases (by simpa using stops : d = c)
      exact .inr ⟨rest, rfl⟩

/-- The name that is found from the end of a path. -/
theorem exists_named (letters : List Char) :
    ∃ tail, (tail = [] ↔ dropTail letters = letters) ∧
      Named letters.reverse ((dropTail letters).dropWhile (· ≠ '/')).reverse
        ((dropTail letters).takeWhile (· ≠ '/')).reverse tail := by
  obtain ⟨tail, trailing, cut⟩ := dropTail_trailing letters
  have whole : tail = [] ↔ dropTail letters = letters := by
    constructor
    · rintro rfl
      simpa using cut.symm
    · intro same
      simpa [same] using cut
  refine ⟨tail, whole, ?_, ?_, ?_, trailing, ?_⟩
  · rw [← List.reverse_append, List.takeWhile_append_dropWhile, cut]
  · intro c hc
    rw [List.getLast?_reverse] at hc
    rcases dropWhile_cases '/' (dropTail letters) with none | ⟨rest, some⟩
    · rw [none] at hc
      cases hc
    · rw [some] at hc
      cases hc
      rfl
  · rw [List.mem_reverse]
    exact not_mem_takeWhile '/' _
  · intro name
    rcases dropWhile_cases '/' (dropTail letters) with none | ⟨rest, some⟩
    · rw [none]
      rfl
    · have split := List.takeWhile_append_dropWhile (p := (· ≠ '/')) (l := dropTail letters)
      rcases name with name | name
      · rw [List.reverse_eq_nil_iff.mp name, some] at split
        exact absurd split.symm (dropTail_ne letters rest).1
      · rw [List.reverse_eq_iff.mp name, some] at split
        exact absurd split.symm (dropTail_ne letters rest).2

/-- The last dot of a name, whose letters are given from its end: it is the first letter or there
is none, or it stands behind a stem. -/
theorem stem_cases (name : List Char) :
    (name.dropWhile (· ≠ '.')).drop 1 = [] ∧ '.' ∉ name.reverse.tail ∨
      (name.dropWhile (· ≠ '.')).drop 1 ≠ [] ∧ ∃ old, '.' ∉ old ∧
        name.reverse = ((name.dropWhile (· ≠ '.')).drop 1).reverse ++ '.' :: old := by
  have split := List.takeWhile_append_dropWhile (p := (· ≠ '.')) (l := name)
  have old := not_mem_takeWhile '.' name
  generalize name.takeWhile (· ≠ '.') = behind at split old
  rw [← List.mem_reverse] at old
  rcases dropWhile_cases '.' name with none | ⟨rest, some⟩
  · rw [none, List.append_nil] at split
    subst split
    exact .inl ⟨by rw [none]; rfl, fun h => old (List.mem_of_mem_tail h)⟩
  · rw [some] at split ⊢
    have cut : name.reverse = rest.reverse ++ '.' :: behind.reverse := by
      rw [← split, List.reverse_append, List.reverse_cons, List.append_assoc]
      rfl
    by_cases front : rest = []
    · subst front
      exact .inl ⟨rfl, by rwa [cut]⟩
    · exact .inr ⟨front, _, old, cut⟩

theorem Named.extended_stem {path above stem old tail : List Char}
    (named : Named path above (stem ++ '.' :: old) tail) (last : '.' ∉ old) (stem_ne : stem ≠ [])
    (name_ne : stem ++ '.' :: old ≠ ['.', '.']) :
    Extended path
      (if stem = ['.'] ∧ tail = [] then above ++ ['.', '.'] else above ++ stem ++ ['.', 's']) := by
  split_ifs with parent
  · obtain ⟨rfl, rfl⟩ := parent
    refine .parent named last ?_
    rintro rfl
    exact name_ne rfl
  · refine .replaced named last stem_ne ?_
    rintro ⟨rfl, rfl | absent⟩
    · exact name_ne rfl
    · exact parent ⟨rfl, absent⟩

theorem extended_defaultOutput (input : String) :
    Extended input.toList (defaultOutput input).toList := by
  obtain ⟨tail, whole, named⟩ := exists_named input.toList.reverse
  rw [List.reverse_reverse] at named
  rw [defaultOutput]
  dsimp only
  generalize (dropTail input.toList.reverse).takeWhile (· ≠ '/') = name at named ⊢
  by_cases nameless : name = [] ∨ name = ['.'] ∨ name = ['.', '.']
  · rw [if_pos nameless]
    refine .nameless named ?_
    rcases nameless with rfl | rfl | rfl <;> simp
  rw [if_neg nameless]
  obtain ⟨name_ne, name_ne_dot, name_ne_dots⟩ : name ≠ [] ∧ name ≠ ['.'] ∧ name ≠ ['.', '.'] := by
    simpa only [not_or] using nameless
  rcases stem_cases name with ⟨none, dotless⟩ | ⟨some, old, last, cut⟩
  · rw [none, if_pos rfl, if_neg (fun h => name_ne_dot h.1), String.toList_ofList]
    refine .added named dotless ?_ ?_
    · simpa using name_ne
    · simpa [List.reverse_eq_iff] using name_ne_dot
  · rw [if_neg some]
    generalize (name.dropWhile (· ≠ '.')).drop 1 = stem at some cut ⊢
    have parent : stem = ['.'] ∧ dropTail input.toList.reverse = input.toList.reverse ↔
        stem.reverse = ['.'] ∧ tail = [] := by
      rw [whole, List.reverse_eq_iff]
      rfl
    rw [apply_ite String.toList, String.toList_ofList, String.toList_ofList,
      if_congr parent rfl rfl]
    rw [cut] at named
    refine named.extended_stem last (by simpa using some) ?_
    rw [← cut]
    exact fun dots => name_ne_dots (List.reverse_eq_iff.mp dots)

end IntLang.CommandLine
