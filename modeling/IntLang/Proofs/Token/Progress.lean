import IntLang.Proofs.Token.Places
/-!
Calls of the scanner one behind the other, at faults as well as at tokens. Each call passes over
some of what is left, so that the text is used up after as many calls as it has characters, and the
place is always that behind what has been passed over.
-/
namespace IntLang.Cursor

section Next

variable {g : Gap} {p opened : Position} {cs : List Char}

/-- A comment without an end takes the rest of the text. -/
theorem skipGap_of_error (h : (skipGap g p cs).1 = .error opened) :
    (skipGap g p cs).2.rest = [] := by
  fun_induction skipGap g p cs with
  | case1 p cs ih | case2 p cs ih | case5 p c cs ih | case6 opened p cs ih => exact ih h
  | case3 p c cs _ _ _ ih | case7 opened p c cs _ ih => exact ih h
  | case8 => rfl
  | case4 | case9 | case10 => cases h

/-- Whatever it answers, a call passes over characters, and over some if any are left. -/
theorem next_passes (c : Cursor) :
    ∃ taken, Passes c taken c.next.2 ∧ (c.rest ≠ [] → taken ≠ []) := by
  obtain ⟨gap, passes⟩ := skipGap_passes .between c.position c.rest
  have closed {opened : Position} (h : (skipGap .between c.position c.rest).1 = .error opened) :=
    skipGap_of_error h
  unfold next
  cases skipped : skipGap .between c.position c.rest with
  | mk result c₁ =>
      rw [skipped] at passes closed
      -- Where nothing is left behind the gap, the gap is all there was.
      have whole (none : c₁.rest = []) (more : c.rest ≠ []) : gap ≠ [] := by
        rintro rfl
        exact more (passes.rest.trans none)
      cases result with
      | error opened => exact ⟨gap, passes, whole (closed rfl)⟩
      | ok _ =>
          obtain ⟨rest, p⟩ := c₁
          cases rest with
          | nil => exact ⟨gap, passes, whole rfl⟩
          | cons first cs =>
              obtain ⟨taken, further, ne⟩ :=
                lexeme_passes (c := ⟨first :: cs, p⟩) (List.cons_ne_nil _ _)
              exact ⟨gap ++ taken, passes.trans further,
                fun _ => List.append_ne_nil_of_right_ne_nil gap ne⟩

theorem next_of_nil (p : Position) : next ⟨[], p⟩ = (.ok ⟨.endOfFile, p⟩, ⟨[], p⟩) := rfl

end Next

/-- The cursor behind that many calls on a source. A call goes on from where the one before it has
stopped, at a token or at a fault. -/
def afterCalls (source : String) : Nat → Cursor
  | 0 => ofText source
  | calls + 1 => (afterCalls source calls).next.2

section Calls

variable (source : String) (calls : Nat)

theorem afterCalls_passes : ∃ read, Passes (ofText source) read (afterCalls source calls) := by
  induction calls with
  | zero => exact ⟨[], .refl _⟩
  | succ calls ih =>
      obtain ⟨read, passes⟩ := ih
      obtain ⟨taken, further, -⟩ := next_passes (afterCalls source calls)
      exact ⟨read ++ taken, passes.trans further⟩

theorem length_afterCalls_le : (afterCalls source calls).rest.length ≤ source.length - calls := by
  induction calls with
  | zero => exact Nat.le_of_eq String.length_toList
  | succ calls ih =>
      obtain ⟨taken, passes, ne⟩ := next_passes (afterCalls source calls)
      have length := congrArg List.length passes.rest
      rw [List.length_append] at length
      rw [afterCalls]
      by_cases more : (afterCalls source calls).rest = []
      · rw [more] at length
        simp only [List.length_nil] at length
        omega
      · have some := List.length_pos_iff.mpr (ne more)
        omega

/-- Between two calls the scanner stands behind the characters that it has passed over, at their
place. The next call, whatever it answers, passes over some more if any are left. Behind as many
calls as the source has characters, every call answers the end of the file, which is behind all of
them. -/
theorem scanner_progresses : ∃ read taken,
    Passes (ofText source) read (afterCalls source calls) ∧
    Passes (afterCalls source calls) taken (afterCalls source (calls + 1)) ∧
    ((afterCalls source calls).rest ≠ [] → taken ≠ []) ∧
    (source.length ≤ calls → (afterCalls source calls).next =
      (.ok ⟨.endOfFile, Position.start.after source.toList⟩, afterCalls source calls)) := by
  obtain ⟨read, passes⟩ := afterCalls_passes source calls
  obtain ⟨taken, further, ne⟩ := next_passes (afterCalls source calls)
  refine ⟨read, taken, passes, further, ne, fun enough => ?_⟩
  have left := length_afterCalls_le source calls
  rw [Nat.sub_eq_zero_of_le enough, Nat.le_zero, List.length_eq_zero_iff] at left
  have all := passes.rest
  rw [left, List.append_nil] at all
  have place : (afterCalls source calls).position = Position.start.after source.toList := by
    rw [passes.position, ← all]
    rfl
  generalize afterCalls source calls = c at left place
  obtain ⟨rest, p⟩ := c
  cases left
  cases place
  exact next_of_nil _

end Calls

/-- A literal that is too large is left in its middle, a bad suffix in front of it, a character that
starts no token behind it, and an open comment at the end. -/
example : (List.range 6).map (fun calls =>
    (afterCalls "99999999999999999999x@/*" calls).rest.length) = [24, 6, 4, 3, 2, 0] := by
  decide +kernel

end IntLang.Cursor
