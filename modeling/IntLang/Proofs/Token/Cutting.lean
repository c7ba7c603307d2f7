import Mathlib.Data.List.TakeWhile
import IntLang.Proofs.Token.Lexeme
/-!
The scanner cuts a text as it has to be cut: it skips the trivia, all of it, and then takes the
longest lexeme.
-/
namespace IntLang

open Token (Kind)

namespace Cursor

/-- What is skipped from each state on: trivia, or the rest of a comment and trivia behind it. -/
def Gap.Skips : Gap → List Char → List Char → Prop
  | .between, w, rest => Trivia w rest
  | .line, w, rest =>
      (∃ body w', w = body ++ '\n' :: w' ∧ '\n' ∉ body ∧ Trivia w' rest) ∨ '\n' ∉ w ∧ rest = []
  | .block _, w, rest =>
      ∃ body w', w = body ++ '*' :: '/' :: w' ∧ ¬ ['*', '/'] <:+: body ∧ Trivia w' rest

section Trivia

variable {w rest : List Char}

theorem Gap.Skips.opened (h : Gap.line.Skips w rest) : Trivia ('/' :: '/' :: w) rest := by
  obtain ⟨body, w', rfl, inner, trivia⟩ | ⟨inner, rfl⟩ := h
  · exact .line inner trivia
  · exact .lastLine inner

theorem Gap.Skips.opened_block {p : Position} (h : (Gap.block p).Skips w rest) :
    Trivia ('/' :: '*' :: w) rest := by
  obtain ⟨body, w', rfl, inner, trivia⟩ := h
  exact .block inner trivia

theorem Gap.Skips.cons {c : Char} (h : Gap.line.Skips w rest) (hc : c ≠ '\n') :
    Gap.line.Skips (c :: w) rest := by
  obtain ⟨body, w', rfl, inner, trivia⟩ | ⟨inner, rfl⟩ := h
  · exact .inl ⟨c :: body, w', rfl, List.not_mem_cons_of_ne_of_not_mem (Ne.symm hc) inner, trivia⟩
  · exact .inr ⟨List.not_mem_cons_of_ne_of_not_mem (Ne.symm hc) inner, rfl⟩

theorem skipGap_skips (g : Gap) (p : Position) (cs : List Char)
    (h : (skipGap g p cs).1 = .ok ()) :
    ∃ w, Passes ⟨cs, p⟩ w (skipGap g p cs).2 ∧ g.Skips w (skipGap g p cs).2.rest ∧
      Solid (skipGap g p cs).2.rest := by
  fun_induction skipGap g p cs with
  | case1 p cs ih =>
      obtain ⟨w, passes, skips, solid⟩ := ih h
      exact ⟨_, passes.cons.cons, skips.opened, solid⟩
  | case2 p cs ih =>
      obtain ⟨w, passes, skips, solid⟩ := ih h
      exact ⟨_, passes.cons.cons, skips.opened_block, solid⟩
  | case3 p c cs _ _ blank ih =>
      obtain ⟨w, passes, skips, solid⟩ := ih h
      exact ⟨_, passes.cons, .blank blank skips, solid⟩
  | case4 p c cs line block solid =>
      refine ⟨[], .refl _, .nil, ?_, ?_⟩
      · rintro _ ⟨⟩
        exact Bool.eq_false_iff.mpr solid
      · intro opens
        obtain ⟨hc, ⟨t, ht⟩ | ⟨t, ht⟩⟩ := opensComment_cons.mp opens
        · exact line t hc ht.symm
        · exact block t hc ht.symm
  | case5 p c cs ih =>
      obtain ⟨w, passes, skips, solid⟩ := ih h
      refine ⟨_, passes.cons, ?_, solid⟩
      by_cases feed : c = '\n'
      · simp only [if_pos feed] at skips ⊢
        exact .inl ⟨[], w, by rw [feed]; rfl, List.not_mem_nil, skips⟩
      · simp only [if_neg feed] at skips ⊢
        exact skips.cons feed
  | case6 opened p cs ih =>
      obtain ⟨w, passes, skips, solid⟩ := ih h
      exact ⟨_, passes.cons.cons, ⟨[], w, rfl, by decide, skips⟩, solid⟩
  | case7 opened p c cs still ih =>
      obtain ⟨w, passes, ⟨body, w', rfl, inner, trivia⟩, solid⟩ := ih h
      refine ⟨_, passes.cons, ⟨c :: body, w', rfl, ?_, trivia⟩, solid⟩
      rw [List.infix_cons_iff, List.cons_prefix_cons]
      rintro (⟨rfl, t, ht⟩ | further)
      · rw [← ht] at passes
        exact still _ rfl passes.rest
      · exact inner further
  | case8 => cases h
  | case9 p => exact ⟨[], .refl _, .nil, solid_nil⟩
  | case10 p => exact ⟨[], .refl _, .inr ⟨List.not_mem_nil, rfl⟩, solid_nil⟩

theorem skipGap_between {c : Char} {cs : List Char} (code : ¬ OpensComment (c :: cs))
    (p : Position) : skipGap .between p (c :: cs) =
      if Text.isBlank c then skipGap .between (p.next c) cs else (.ok (), ⟨c :: cs, p⟩) := by
  rw [skipGap.eq_def]
  split <;> simp_all [opensComment_cons]

theorem skipGap_within {c : Char} {cs : List Char} (further : ¬ ['*', '/'] <+: c :: cs)
    (opened p : Position) :
    skipGap (.block opened) p (c :: cs) = skipGap (.block opened) (p.next c) cs := by
  rw [skipGap.eq_def]
  split <;> simp_all

theorem skipGap_of_solid (solid : Solid rest) (p : Position) :
    skipGap .between p rest = (.ok (), ⟨rest, p⟩) := by
  cases rest with
  | nil => rfl
  | cons c cs => rw [skipGap_between solid.2, if_neg (by simp [solid.1 c rfl])]

theorem skipGap_blank {c : Char} (blank : Text.isBlank c = true) (p : Position) (cs : List Char) :
    skipGap .between p (c :: cs) = skipGap .between (p.next c) cs := by
  have code : ¬ OpensComment (c :: cs) := by
    rw [opensComment_cons]
    rintro ⟨rfl, -⟩
    cases blank
  rw [skipGap_between code, if_pos blank]

theorem skipGap_line {body : List Char} (inner : '\n' ∉ body) (p : Position) (cs : List Char) :
    skipGap .line p (body ++ cs) = skipGap .line (p.after body) cs := by
  induction body generalizing p with
  | nil => rfl
  | cons c body ih =>
      obtain ⟨hc, inner⟩ := List.ne_and_not_mem_of_not_mem_cons inner
      change skipGap (if c = '\n' then .between else .line) (p.next c) (body ++ cs) = _
      rw [if_neg (Ne.symm hc), ih inner, Position.after_cons]

theorem skipGap_block {body : List Char} (inner : ¬ ['*', '/'] <:+: body) (opened p : Position)
    (cs : List Char) : skipGap (.block opened) p (body ++ '*' :: '/' :: cs) =
      skipGap .between (p.after (body ++ ['*', '/'])) cs := by
  induction body generalizing p with
  | nil => rfl
  | cons c body ih =>
      rw [List.infix_cons_iff, List.cons_prefix_cons, not_or] at inner
      obtain ⟨notClosed, inner⟩ := inner
      have further : ¬ ['*', '/'] <+: c :: (body ++ '*' :: '/' :: cs) := by
        rw [List.cons_prefix_cons]
        rintro ⟨rfl, t, ht⟩
        cases body with
        | nil => cases ht
        | cons d body =>
            obtain ⟨rfl, -⟩ := List.cons.inj ht
            exact notClosed ⟨rfl, List.prefix_append ['/'] body⟩
      rw [List.cons_append, skipGap_within further, ih inner]
      rfl

/-- The scanner skips trivia, up to a text that starts with none. -/
theorem skipGap_trivia (h : Trivia w rest) (solid : Solid rest) (p : Position) :
    skipGap .between p (w ++ rest) = (.ok (), ⟨rest, p.after w⟩) := by
  induction h generalizing p with
  | nil => exact skipGap_of_solid solid p
  | blank hc _ ih => rw [List.cons_append, skipGap_blank hc, ih solid, Position.after_cons]
  | @line body w rest inner _ ih =>
      change skipGap .line ((p.next '/').next '/') ((body ++ '\n' :: w) ++ rest) = _
      rw [List.append_assoc, skipGap_line inner]
      change skipGap .between ((((p.next '/').next '/').after body).next '\n') (w ++ rest) = _
      rw [ih solid, Position.after_cons, Position.after_cons, Position.after_append,
        Position.after_cons]
  | @lastLine body inner =>
      change skipGap .line ((p.next '/').next '/') (body ++ []) = _
      rw [skipGap_line inner]
      rfl
  | @block body w rest inner _ ih =>
      change skipGap (.block p) ((p.next '/').next '*') ((body ++ '*' :: '/' :: w) ++ rest) = _
      rw [List.append_assoc]
      change skipGap (.block p) ((p.next '/').next '*') (body ++ '*' :: '/' :: (w ++ rest)) = _
      rw [skipGap_block inner, ih solid, ← Position.after_append, List.append_assoc]
      rfl

end Trivia

section Lexeme

variable {c c' : Cursor} {p : Position} {t : Token} {cs l rest : List Char}

/-- Where the class of characters ends with `l`, no longer text is all of that class. -/
theorem length_le_of_class {isPart : Char → Bool} {l' : List Char}
    (inner : ∀ d ∈ l, isPart d = true) (ends : ∀ d ∈ rest.head?, isPart d = false)
    (inner' : ∀ d ∈ l', isPart d = true) (pre : l' <+: l ++ rest) : l'.length ≤ l.length := by
  obtain ⟨t, ht⟩ := pre
  have stop : rest.takeWhile isPart = [] := by
    cases rest with
    | nil => rfl
    | cons d rest => exact List.takeWhile_cons_of_neg (by simp [ends d rfl])
  have taken := congrArg (List.takeWhile isPart) ht
  rw [List.takeWhile_append_of_pos inner, List.takeWhile_append_of_pos inner', stop,
    List.append_nil] at taken
  rw [← taken, List.length_append]
  exact Nat.le_add_right _ _

theorem word_munches {first : Char} (hrest : c.rest = first :: cs)
    (start : isWordStart first = true) :
    ∃ l, Passes c l c.word.2 ∧ Munch c.word.1.kind l c.word.2.rest := by
  have split : c.rest = c.rest.takeWhile isWordPart ++ c.rest.dropWhile isWordPart :=
    List.takeWhile_append_dropWhile.symm
  refine ⟨c.rest.takeWhile isWordPart, ⟨split, rfl⟩, ?_⟩
  have letters : c.rest.takeWhile isWordPart = first :: cs.takeWhile isWordPart := by
    rw [hrest, List.takeWhile_cons_of_pos (isWordPart_of_isWordStart start)]
  have parts (d : Char) (hd : d ∈ c.rest.takeWhile isWordPart) : isWordPart d = true :=
    List.mem_takeWhile_imp hd
  have ends : ∀ d ∈ (c.rest.dropWhile isWordPart).head?, isWordPart d = false := by
    intro d hd
    have := List.head?_dropWhile_not isWordPart c.rest
    rw [hd] at this
    exact this
  constructor
  · change Lexeme (wordKind (String.ofList (c.rest.takeWhile isWordPart))) _
    rw [letters]
    refine .word start fun d hd => parts d ?_
    rw [letters]
    exact List.mem_cons_of_mem _ hd
  · intro k l' lexeme pre
    have whole : l' <+: first :: cs := by
      rw [← hrest, split]
      exact pre
    exact length_le_of_class parts ends (lexeme.parts whole start) pre
  · change ¬ OpensComment (c.rest.takeWhile isWordPart ++ c.rest.dropWhile isWordPart)
    rw [← split, hrest]
    apply not_opensComment
    rintro rfl
    cases start
  · intro v literal
    change wordKind _ = _ at literal
    unfold wordKind at literal
    split at literal <;> cases literal

/-- Digits are read up to the first character that is none. -/
theorem digits_reads {value n : Nat} (h : digits value p cs = (some n, c')) :
    ∃ ds, Passes ⟨cs, p⟩ ds c' ∧ (∀ d ∈ ds, d.isDigit = true) ∧
      n = Nat.ofDigitChars 10 ds value ∧ ∀ d ∈ c'.rest.head?, d.isDigit = false := by
  induction cs generalizing value p with
  | nil =>
      cases h
      exact ⟨[], .refl _, nofun, rfl, nofun⟩
  | cons d cs ih =>
      unfold digits at h
      by_cases digit : d.isDigit = true
      · simp only [if_pos digit] at h
        split at h
        · obtain ⟨ds, passes, digits, value, ends⟩ := ih h
          refine ⟨d :: ds, passes.cons, List.forall_mem_cons.mpr ⟨digit, digits⟩, ?_, ends⟩
          rw [value, Nat.ofDigitChars_cons, Nat.mul_comm]
        · cases h
      · rw [if_neg digit] at h
        cases h
        refine ⟨[], .refl _, nofun, rfl, ?_⟩
        rintro _ ⟨⟩
        exact Bool.eq_false_iff.mpr digit

theorem literal_munches {first : Char} (hrest : c.rest = first :: cs)
    (digit : first.isDigit = true) (h : c.literal = (.ok t, c')) :
    ∃ l, Passes c l c' ∧ Munch t.kind l c'.rest := by
  unfold literal at h
  cases read : digits 0 c.position c.rest with
  | mk value behind =>
      rw [read] at h
      cases value with
      | none => cases h
      | some n =>
          obtain ⟨ds, passes, digits, rfl, ends⟩ := digits_reads read
          have whole : ds ++ behind.rest = first :: cs := passes.rest.symm.trans hrest
          have ne : ds ≠ [] := by
            rintro rfl
            rw [List.nil_append] at whole
            rw [ends first (by rw [whole]; rfl)] at digit
            cases digit
          have munch (apart : ∀ d ∈ behind.rest.head?, isWordStart d = false) :
              Munch (.literal (Nat.ofDigitChars 10 ds 0)) ds behind.rest := by
            refine ⟨.literal ne digits, ?_, ?_, fun _ _ => apart⟩
            · intro k l' lexeme pre
              refine length_le_of_class digits ends ?_ pre
              rw [whole] at pre
              exact lexeme.digits pre digit
            · rw [whole]
              apply not_opensComment
              rintro rfl
              cases digit
          simp only at h
          cases hbehind : behind.rest with
          | nil =>
              simp only [hbehind] at h
              cases h
              exact ⟨ds, passes, munch (by rw [hbehind]; exact nofun)⟩
          | cons d rest =>
              simp only [hbehind] at h
              split at h
              · cases h
              · rename_i notStart
                cases h
                refine ⟨ds, passes, munch ?_⟩
                rw [hbehind]
                rintro _ ⟨⟩
                exact Bool.eq_false_iff.mpr notStart

/-- Of the symbols that start with a character, the scanner takes the longest one. -/
theorem symbol_munches {first : Char} (solid : Solid (first :: cs))
    (notWord : isWordPart first = false) (h : symbol p first cs = (.ok t, c')) :
    ∃ l, Passes ⟨first :: cs, p⟩ l c' ∧ Munch t.kind l c'.rest := by
  obtain ⟨s, single, unpaired, rfl, rfl⟩ | ⟨s, second, rest, rfl, pair, rfl, rfl⟩ := symbol_cases h
  · have lexeme := Lexeme.symbol s
    rw [Symbol.text_of_single? single] at lexeme
    refine ⟨[first], (Passes.refl _).cons, lexeme, ?_, solid.2, fun _ => Kind.noConfusion⟩
    intro k l' other pre
    obtain ⟨s', spelled⟩ := other.symbol_of_not_isWordPart pre notWord
    obtain ⟨d, rfl⟩ | ⟨d, e, rfl, pair⟩ := Symbol.ofChars?_eq_some spelled
    · exact Nat.le_refl 1
    · obtain ⟨rfl, t, ht⟩ := List.cons_prefix_cons.mp pre
      have second : cs = e :: t := ht.symm
      rw [unpaired e (second ▸ rfl)] at pair
      cases pair
  · have lexeme := Lexeme.symbol s
    rw [Symbol.text_of_pair? pair] at lexeme
    refine ⟨[first, second], (Passes.refl _).cons.cons, lexeme, ?_, solid.2,
      fun _ => Kind.noConfusion⟩
    intro k l' other pre
    obtain ⟨s', spelled⟩ := other.symbol_of_not_isWordPart pre notWord
    obtain ⟨d, rfl⟩ | ⟨d, e, rfl, -⟩ := Symbol.ofChars?_eq_some spelled
    · exact Nat.le_succ 1
    · exact Nat.le_refl 2

/-- In front of a text that starts with no trivia, the scanner takes the longest lexeme. -/
theorem lexeme_munches (solid : Solid c.rest) (some : c.rest ≠ [])
    (h : c.lexeme = (.ok t, c')) : ∃ l, Passes c l c' ∧ Munch t.kind l c'.rest := by
  obtain ⟨rest, p⟩ := c
  obtain ⟨first, cs, rfl⟩ := List.exists_cons_of_ne_nil some
  unfold lexeme at h
  by_cases start : isWordStart first = true
  · simp only [start, if_true] at h
    cases h
    exact word_munches rfl start
  · simp only [start] at h
    by_cases digit : first.isDigit = true
    · rw [if_pos digit] at h
      exact literal_munches rfl digit h
    · rw [if_neg digit] at h
      exact symbol_munches solid
        (not_isWordPart (Bool.eq_false_iff.mpr start) (Bool.eq_false_iff.mpr digit)) h

/-- The next token is the end of the file behind trivia, or the lexeme behind trivia. -/
theorem next_cuts (h : c.next = (.ok t, c')) :
    (Trivia c.rest [] ∧ t = ⟨.endOfFile, c.position.after c.rest⟩) ∨
    ∃ w l, Passes c (w ++ l) c' ∧ Trivia w (l ++ c'.rest) ∧ Munch t.kind l c'.rest ∧
      t.position = c.position.after w := by
  have skips := skipGap_skips .between c.position c.rest
  unfold next at h
  cases skipped : skipGap .between c.position c.rest with
  | mk result c₁ =>
      rw [skipped] at h skips
      cases result with
      | error opened => cases h
      | ok _ =>
          obtain ⟨w, passes, trivia, solid⟩ := skips rfl
          by_cases more : c₁.rest = []
          · simp only [lexeme, more] at h
            cases h
            have whole := passes.rest
            rw [more, List.append_nil] at whole
            left
            rw [whole, ← passes.position]
            exact ⟨more ▸ trivia, rfl⟩
          · obtain ⟨l, further, munch⟩ := lexeme_munches solid more h
            refine .inr ⟨w, l, passes.trans further, further.rest ▸ trivia, munch, ?_⟩
            rw [← passes.position]
            exact lexeme_position h

/-- The scanner cuts all that is left of the source. -/
theorem tokensWithin_cuts {bound : Nat} {tokens : List Token} {read : List Char}
    (h : c.tokensWithin bound = .ok tokens) (room : c.rest.length ≤ bound)
    (place : c.position = Position.start.after read) : Cuts read c.rest tokens := by
  induction bound generalizing c tokens read with
  | zero =>
      cases h
      have done : c.rest = [] := List.length_eq_zero_iff.mp (Nat.le_zero.mp room)
      have last := @Cuts.last read [] .nil
      rwa [List.append_nil, ← place, ← done] at last
  | succ bound ih =>
      unfold tokensWithin at h
      split at h
      · cases h
      · rename_i t c' hnext
        obtain ⟨trivia, rfl⟩ | ⟨w, l, passes, trivia, munch, position⟩ := next_cuts hnext
        · cases h
          rw [place, ← Position.after_append]
          exact .last trivia
        · obtain ⟨k, p⟩ := t
          obtain rfl : p = Position.start.after (read ++ w) := by
            rw [Position.after_append, ← place]
            exact position
          have inner : k ≠ .endOfFile := by
            rintro rfl
            cases munch.lexeme
          rw [if_neg inner] at h
          cases hothers : c'.tokensWithin bound with
          | error e =>
              rw [hothers] at h
              cases h
          | ok others =>
              rw [hothers] at h
              cases h
              have whole := passes.rest
              rw [List.append_assoc] at whole
              rw [whole]
              refine .more trivia munch (ih hothers ?_ ?_)
              · have taken := List.length_pos_of_ne_nil munch.lexeme.ne_nil
                rw [whole, List.length_append, List.length_append] at room
                omega
              · rw [passes.position, place, ← Position.after_append, List.append_assoc]

end Lexeme

end Cursor

theorem Trivia.unique {w' rest' : List Char} (h : Trivia w rest)
    (h' : Trivia w' rest') (solid : Solid rest) (solid' : Solid rest')
    (same : w ++ rest = w' ++ rest') : w = w' ∧ rest = rest' := by
  have skipped := Cursor.skipGap_trivia h solid .start
  rw [same, Cursor.skipGap_trivia h' solid'] at skipped
  obtain rfl : rest' = rest := congrArg (fun r => r.2.rest) skipped
  exact ⟨List.append_cancel_right same, rfl⟩

/-- One text is cut into one list of tokens only. -/
theorem Cuts.unique {read text : List Char} {tokens others : List Token}
    (h : Cuts read text tokens) (h' : Cuts read text others) : others = tokens := by
  -- Behind the last trivia of one cut, the other one has no lexeme either.
  have last {w w' l rest : List Char} {kind : Token.Kind} (trivia : Trivia w [])
      (trivia' : Trivia w' (l ++ rest)) (munch : Munch kind l rest)
      (same : w ++ [] = w' ++ (l ++ rest)) : False := by
    obtain ⟨-, none⟩ := trivia.unique trivia' solid_nil munch.solid same
    exact munch.lexeme.ne_nil (List.append_eq_nil_iff.mp none.symm).1
  induction h generalizing others with
  | @last read w trivia =>
      generalize same : w = text at h'
      cases h' with
      | last _ => rfl
      | more trivia' munch' _ => exact (last trivia trivia' munch' (by rw [List.append_nil, same])).elim
  | @more read w l rest kind tokens trivia munch _ ih =>
      generalize same : w ++ (l ++ rest) = text at h'
      cases h' with
      | last trivia' => exact (last trivia' trivia munch (by rw [List.append_nil, same])).elim
      | more trivia' munch' others' =>
          obtain ⟨rfl, behind⟩ := trivia.unique trivia' munch.solid munch'.solid same
          obtain ⟨rfl, rfl, rfl⟩ := munch.unique munch' behind
          rw [ih others']

/-- The scanner cuts a source into trivia and longest lexemes, and there is no other such cut. In a
source with places for all its characters, the places of the tokens go up. -/
theorem tokenize_cuts {source : String} {tokens : List Token} (h : tokenize source = .ok tokens)
    (short : source.length + 1 < UInt32.size) :
    Cuts [] source.toList tokens ∧ (∀ others, Cuts [] source.toList others → others = tokens) ∧
      tokens.Pairwise fun t u => t.position.Before u.position := by
  have cuts : Cuts [] source.toList tokens := Cursor.tokensWithin_cuts h (Nat.le_refl _) rfl
  refine ⟨cuts, fun others => cuts.unique, tokenize_places h ?_⟩
  refine Position.counts_of_length (n := 1) (Nat.le_refl 1) (Nat.le_refl 1) ?_
  rw [String.length_toList]
  omega

/-- A block comment that opens with `/*/`, a word that starts like `int`, a slash in front of a
comment, and a last comment without a line feed. -/
def crowdedText : String := "/*/\n*/int int1<=/ /**/2//x"

def crowdedTokens : List Token :=
  [⟨.keyword .int, ⟨2, 3⟩⟩, ⟨.identifier "int1", ⟨2, 7⟩⟩, ⟨.symbol .lessEqual, ⟨2, 11⟩⟩,
    ⟨.symbol .slash, ⟨2, 13⟩⟩, ⟨.literal 2, ⟨2, 19⟩⟩, ⟨.endOfFile, ⟨2, 23⟩⟩]

theorem crowdedText_cut : tokenize crowdedText = .ok crowdedTokens ∧
    crowdedText.length + 1 < UInt32.size ∧ Cuts [] crowdedText.toList crowdedTokens ∧
    crowdedTokens.Pairwise fun t u => t.position.Before u.position := by
  have lexed : tokenize crowdedText = .ok crowdedTokens := by decide +kernel
  have short : crowdedText.length + 1 < UInt32.size := by decide
  obtain ⟨cuts, -, places⟩ := tokenize_cuts lexed short
  exact ⟨lexed, short, cuts, places⟩

end IntLang
