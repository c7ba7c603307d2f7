import Mathlib.Data.List.Basic
import IntLang.Proofs.Text.Printed
/-!
Parts of a text: what trimming, cutting and splitting give is made of characters of the text, the
parts before a separator are free of it, and trimmed texts stay as they are.
-/
namespace IntLang.Text

section Trim

variable {cs : List Char}

theorem mem_of_mem_trim {c : Char} (h : c ∈ trim cs) : c ∈ cs := by
  rw [trim, trimRight, List.mem_reverse] at h
  have left := (List.dropWhile_sublist _).subset h
  rw [List.mem_reverse, trimLeft] at left
  exact (List.dropWhile_sublist _).subset left

theorem not_blank_head_trimLeft {c : Char} (h : (trimLeft cs).head? = some c) :
    isBlank c = false := by
  rw [trimLeft] at h
  have := List.head?_dropWhile_not isBlank cs
  rw [h] at this
  simpa using this

/-- What trimming at the end leaves is an initial part. -/
theorem trimRight_isPrefix (cs : List Char) : trimRight cs <+: cs := by
  rw [trimRight, ← List.reverse_suffix, List.reverse_reverse]
  exact List.dropWhile_suffix _

theorem trim_trim (cs : List Char) : trim (trim cs) = trim cs := by
  apply trim_of_ends
  · intro c hc
    obtain ⟨tail, append⟩ := trimRight_isPrefix (trimLeft cs)
    have first : (trimLeft cs).head? = some c := by
      rw [← append, List.head?_append, ← trim, hc]
      rfl
    exact not_blank_head_trimLeft first
  · intro c hc
    rw [trim, trimRight, List.getLast?_reverse] at hc
    have := List.head?_dropWhile_not isBlank (trimLeft cs).reverse
    rw [hc] at this
    simpa using this

end Trim

/-- The text is cut at a separator, and none stands before it. -/
theorem cut?_eq_some {isSeparator : Char → Bool} {cs before after : List Char}
    (h : cut? isSeparator cs = some (before, after)) :
    (∃ s, isSeparator s = true ∧ cs = before ++ s :: after) ∧
      ∀ c ∈ before, isSeparator c = false := by
  induction cs generalizing before with
  | nil => cases h
  | cons c cs ih =>
      rw [cut?] at h
      split at h
      · rename_i hc
        cases h
        exact ⟨⟨c, hc, rfl⟩, List.forall_mem_nil _⟩
      · rename_i hc
        obtain ⟨⟨before', after'⟩, cut, pair⟩ := Option.map_eq_some_iff.mp h
        cases pair
        obtain ⟨⟨s, hs, append⟩, free⟩ := ih cut
        refine ⟨⟨s, hs, congrArg (c :: ·) append⟩, ?_⟩
        exact List.forall_mem_cons.mpr ⟨Bool.eq_false_iff.mpr hc, free⟩

theorem not_mem_of_mem_pieces {separator : Char} {piece cs : List Char}
    (h : piece ∈ pieces separator cs) : separator ∉ piece := by
  induction cs generalizing piece with
  | nil =>
      cases List.mem_singleton.mp h
      exact List.not_mem_nil
  | cons c cs ih =>
      by_cases hc : c = separator
      · rw [hc, pieces_cons_self] at h
        rcases List.mem_cons.mp h with rfl | h
        · exact List.not_mem_nil
        · exact ih h
      rw [pieces_cons_of_ne hc] at h
      cases found : pieces separator cs with
      | nil => exact (pieces_ne_nil separator cs found).elim
      | cons first rest =>
          rw [found, List.modifyHead_cons] at h
          rw [found] at ih
          rcases List.mem_cons.mp h with rfl | h
          · intro hmem
            rcases List.mem_cons.mp hmem with rfl | hmem
            · exact hc rfl
            · exact ih List.mem_cons_self hmem
          · exact ih (List.mem_cons_of_mem _ h)

end IntLang.Text
