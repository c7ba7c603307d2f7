import IntLang.Text.Blank
import IntLang.Text.Split
import IntLang.Word
/-!
Printed texts read back: what is joined with a separator is cut apart again, trimming removes the
white space put around a text and nothing else, and the decimal text of a word is read as the
word.
-/
namespace IntLang.Text

section Pieces

variable {separator : Char} {piece : List Char}

theorem pieces_cons_of_ne {c : Char} (h : c ≠ separator) (cs : List Char) :
    pieces separator (c :: cs) = (pieces separator cs).modifyHead (c :: ·) := by
  rw [pieces, List.foldr_cons, if_neg h, ← pieces]
  have := pieces_ne_nil separator cs
  cases hp : pieces separator cs with
  | nil => exact (this hp).elim
  | cons first rest => rfl

theorem pieces_append (h : separator ∉ piece) (cs : List Char) :
    pieces separator (piece ++ cs) = (pieces separator cs).modifyHead (piece ++ ·) := by
  induction piece with
  | nil =>
      rw [List.nil_append]
      cases pieces separator cs <;> rfl
  | cons c piece ih =>
      obtain ⟨hc, hpiece⟩ := List.ne_and_not_mem_of_not_mem_cons h
      rw [List.cons_append, pieces_cons_of_ne (Ne.symm hc), ih hpiece]
      cases pieces separator cs <;> rfl

theorem pieces_append_cons (h : separator ∉ piece) (cs : List Char) :
    pieces separator (piece ++ separator :: cs) = piece :: pieces separator cs := by
  rw [pieces_append h, pieces_cons_self]
  simp

/-- A text with a separator inside has the pieces of both sides of it. -/
theorem pieces_append_separator (cs ds : List Char) :
    pieces separator (cs ++ separator :: ds) = pieces separator cs ++ pieces separator ds := by
  induction cs with
  | nil => rw [List.nil_append, pieces_cons_self, pieces_nil, List.singleton_append]
  | cons c cs ih =>
      rw [List.cons_append]
      by_cases h : c = separator
      · rw [h, pieces_cons_self, pieces_cons_self, ih, List.cons_append]
      · rw [pieces_cons_of_ne h, pieces_cons_of_ne h, ih]
        have some := pieces_ne_nil separator cs
        cases hp : pieces separator cs with
        | nil => exact (some hp).elim
        | cons first rest => rfl

theorem pieces_of_not_mem (h : separator ∉ piece) : pieces separator piece = [piece] := by
  have := pieces_append h []
  rwa [List.append_nil, pieces_nil, List.modifyHead_cons, List.append_nil] at this

/-- Lines that end in separators are the pieces, and an empty one is behind them. -/
theorem pieces_lines {α : Type} {line : α → List Char} {xs : List α}
    (apart : ∀ x ∈ xs, separator ∉ line x) :
    pieces separator (xs.flatMap fun x => line x ++ [separator]) = xs.map line ++ [[]] := by
  induction xs with
  | nil => rfl
  | cons x xs ih =>
      obtain ⟨hx, hxs⟩ := List.forall_mem_cons.mp apart
      rw [List.flatMap_cons, List.append_assoc, List.singleton_append, pieces_append_cons hx,
        ih hxs, List.map_cons, List.cons_append]

end Pieces

section Cut

variable {isSeparator : Char → Bool} {before : List Char}

theorem cut?_append_cons (h : ∀ c ∈ before, isSeparator c = false) {s : Char}
    (hs : isSeparator s = true) (after : List Char) :
    cut? isSeparator (before ++ s :: after) = some (before, after) := by
  induction before with
  | nil => simp [cut?, hs]
  | cons c before ih =>
      obtain ⟨hc, hbefore⟩ := List.forall_mem_cons.mp h
      simp [cut?, hc, ih hbefore]

theorem cut?_of_not_mem {separator : Char} (h : separator ∉ before) (after : List Char) :
    cut? (· = separator) (before ++ separator :: after) = some (before, after) := by
  refine cut?_append_cons (fun c hc => ?_) (decide_eq_true rfl) after
  rw [decide_eq_false_iff_not]
  rintro rfl
  exact h hc

theorem cut?_eq_none (h : ∀ c ∈ before, isSeparator c = false) :
    cut? isSeparator before = none := by
  induction before with
  | nil => rfl
  | cons c before ih =>
      obtain ⟨hc, hbefore⟩ := List.forall_mem_cons.mp h
      simp [cut?, hc, ih hbefore]

end Cut

section Trim

variable {cs : List Char}

theorem trim_cons_of_isBlank {c : Char} (h : isBlank c = true) (cs : List Char) :
    trim (c :: cs) = trim cs := by
  rw [trim, trimLeft, List.dropWhile_cons_of_pos h]
  rfl

theorem trim_of_ends (first : ∀ c, cs.head? = some c → isBlank c = false)
    (last : ∀ c, cs.getLast? = some c → isBlank c = false) : trim cs = cs := by
  have left : trimLeft cs = cs := by
    cases cs with
    | nil => rfl
    | cons c cs =>
        exact List.dropWhile_cons_of_neg (by simp [first c rfl])
  rw [trim, left, trimRight]
  cases hr : cs.reverse with
  | nil => simpa using hr.symm
  | cons c rest =>
      have hc : isBlank c = false := last c (by rw [← List.head?_reverse, hr]; rfl)
      rw [List.dropWhile_cons_of_neg (by simp [hc]), ← hr, List.reverse_reverse]

theorem trim_of_not_blank (h : ∀ c ∈ cs, isBlank c = false) : trim cs = cs :=
  trim_of_ends (fun c hc => h c (List.mem_of_head? hc)) (fun c hc => h c (List.mem_of_getLast? hc))

theorem length_trim_le (cs : List Char) : (trim cs).length ≤ cs.length := by
  rw [trim, trimRight, trimLeft, List.length_reverse]
  apply Nat.le_trans (List.dropWhile_sublist _).length_le
  rw [List.length_reverse]
  exact (List.dropWhile_sublist _).length_le

theorem not_blank_of_trim (h : trim cs = cs) {c : Char} (hc : cs.head? = some c) :
    isBlank c = false := by
  cases cs with
  | nil => cases hc
  | cons d rest =>
      cases hc
      cases hb : isBlank c with
      | false => rfl
      | true =>
          have shorter := length_trim_le rest
          rw [← trim_cons_of_isBlank hb, h, List.length_cons] at shorter
          omega

end Trim

end IntLang.Text

namespace IntLang.Word

open Text

theorem ofInt?_toInt (w : Word) : ofInt? w.toInt = some w := by
  have lower := w.le_toInt
  have upper := w.toInt_lt
  rw [ofInt?, if_pos (by constructor <;> omega), Int32.ofInt_toInt]

theorem ofInt?_eq_some {v : Int} {w : Word} (h : ofInt? v = some w) : w.toInt = v := by
  unfold ofInt? at h
  split at h
  · cases h
    rw [Int32.toInt_ofInt_of_le (by omega) (by omega)]
  · cases h

theorem int?_toDigits (n : Nat) : Decimal.int? (Nat.toDigits 10 n) = some (n : Int) := by
  have read := Decimal.nat?_toDigits n
  cases hd : Nat.toDigits 10 n with
  | nil => exact (Nat.toDigits_ne_nil hd).elim
  | cons c cs =>
      have digit : c.isDigit = true :=
        Nat.isDigit_of_mem_toDigits (b := 10) (n := n) (by decide) (by decide) (by simp [hd])
      rw [hd] at read
      unfold Decimal.int?
      split
      · rename_i heq
        cases heq
        cases digit
      · rename_i heq
        cases heq
        cases digit
      · rw [read]
        rfl

theorem text_toList (w : Word) : (text w).toList =
    match w.toInt with
    | .ofNat n => Nat.toDigits 10 n
    | .negSucc n => '-' :: Nat.toDigits 10 (n + 1) := by
  rw [text]
  cases w.toInt with
  | ofNat n => exact Nat.toList_repr
  | negSucc n =>
      change ("-" ++ (n + 1).repr).toList = _
      rw [String.toList_append, Nat.toList_repr]
      rfl

theorem int?_text (w : Word) : Decimal.int? (text w).toList = some w.toInt := by
  rw [text_toList]
  cases w.toInt with
  | ofNat n => exact int?_toDigits n
  | negSucc n =>
      rw [Decimal.int?, Decimal.nat?_toDigits]
      rfl

/-- A written word reads back. -/
theorem ofText?_text (w : Word) : ofText? (text w).toList = some w := by
  rw [ofText?, int?_text]
  exact ofInt?_toInt w

theorem text_chars {w : Word} {c : Char} (h : c ∈ (text w).toList) : c.isDigit ∨ c = '-' := by
  have digit {n : Nat} (hc : c ∈ Nat.toDigits 10 n) : c.isDigit = true :=
    Nat.isDigit_of_mem_toDigits (by decide) (by decide) hc
  rw [text_toList] at h
  cases hw : w.toInt with
  | ofNat n =>
      rw [hw] at h
      exact .inl (digit h)
  | negSucc n =>
      rw [hw] at h
      rcases List.mem_cons.mp h with rfl | h
      · exact .inr rfl
      · exact .inl (digit h)

end IntLang.Word
