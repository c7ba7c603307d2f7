import IntLang.Proofs.Token.Cutting
/-!
Where the names of a source stand in its text: outside all comments, as whole words, and behind the
characters that their places count.
-/
namespace IntLang

open Cursor (isWordStart isWordPart)

/-- The place between the two texts is in no comment: from the start of the first one it is reached
over whole comments and over characters that open none. -/
inductive Outside : List Char → List Char → Prop
  | here {rest} : Outside [] rest
  | code {c cs rest} : ¬ OpensComment (c :: (cs ++ rest)) → Outside cs rest →
      Outside (c :: cs) rest
  | line {body cs rest} : '\n' ∉ body → Outside cs rest →
      Outside ('/' :: '/' :: (body ++ '\n' :: cs)) rest
  | block {body cs rest} : ¬ ['*', '/'] <:+: body → Outside cs rest →
      Outside ('/' :: '*' :: (body ++ '*' :: '/' :: cs)) rest

/-- The text does not end within a word. -/
def Closed (cs : List Char) : Prop := ∀ c ∈ cs.getLast?, isWordPart c = false

/-- Between `pre` and `post`, the text has the name at that place, in no comment and as a whole
word. -/
structure Occurs (text : List Char) (name : String) (place : Position) (pre post : List Char) :
    Prop where
  split : text = pre ++ (name.toList ++ post)
  place : Position.start.after pre = place
  outside : Outside pre (name.toList ++ post)
  starts : Closed pre
  ends : ∀ c ∈ post.head?, isWordPart c = false

section Outside

variable {k : Token.Kind} {l w rest cs cs' : List Char}

theorem Outside.append (h : Outside cs (cs' ++ rest)) (h' : Outside cs' rest) :
    Outside (cs ++ cs') rest := by
  generalize behind : cs' ++ rest = x at h
  induction h with
  | here => exact h'
  | code free _ ih =>
      refine .code ?_ (ih behind)
      rwa [List.append_eq, List.append_assoc, behind]
  | line inner _ ih =>
      rw [List.cons_append, List.cons_append, List.append_assoc]
      exact .line inner (ih behind)
  | block inner _ ih =>
      rw [List.cons_append, List.cons_append, List.append_assoc]
      exact .block inner (ih behind)

theorem outside_of_free (free : ∀ c ∈ cs, c ≠ '/') : Outside cs rest := by
  induction cs with
  | nil => exact .here
  | cons c cs ih =>
      obtain ⟨first, others⟩ := List.forall_mem_cons.mp free
      exact .code (not_opensComment first) (ih others)

theorem Trivia.outside (h : Trivia w rest) (more : rest ≠ []) : Outside w rest := by
  induction h with
  | nil => exact .here
  | blank blank _ ih =>
      refine .code (not_opensComment ?_) (ih more)
      rintro rfl
      cases blank
  | line inner _ ih => exact .line inner (ih more)
  | lastLine _ => exact (more rfl).elim
  | block inner _ ih => exact .block inner (ih more)

theorem Lexeme.text_of_symbol {s : Symbol} (h : Lexeme (.symbol s) l) : l = s.text.toList := by
  cases h
  rfl

theorem Lexeme.text_of_identifier {name : String} (h : Lexeme (.identifier name) l) :
    l = name.toList := by
  cases h
  rw [String.toList_ofList]

theorem Symbol.text_chars (s : Symbol) :
    (∀ c ∈ s.text.toList, isWordPart c = false) ∧ ∀ c ∈ s.text.toList.tail, c ≠ '/' := by
  have chars : s.text.toList.all (fun c => !isWordPart c) = true ∧
      s.text.toList.tail.all (· != '/') = true := by
    cases s <;> decide
  simpa only [List.all_eq_true, Bool.not_eq_true', bne_iff_ne] using chars

theorem Munch.outside (h : Munch k l rest) : Outside l rest := by
  obtain ⟨c, cs, rfl, sort⟩ := h.lexeme.sort
  refine .code h.code (outside_of_free ?_)
  obtain ⟨-, parts, -⟩ | ⟨-, digits, -⟩ | ⟨-, s, -, rfl⟩ := sort
  · exact fun d hd => ne_slash_of_isWordPart (parts d hd)
  · exact fun d hd => ne_slash_of_isWordPart (isWordPart_of_isDigit (digits d hd))
  · have free := s.text_chars.2
    rwa [← h.lexeme.text_of_symbol] at free

end Outside

section Closed

variable {k : Token.Kind} {l w rest front : List Char} {c : Char}

theorem closed_nil : Closed [] := nofun

theorem closed_concat (h : isWordPart c = false) : Closed (front ++ [c]) := by
  intro d hd
  rw [List.getLast?_concat] at hd
  cases hd
  exact h

theorem Closed.append (h : Closed w) (h' : w = [] → Closed front) : Closed (front ++ w) := by
  intro c hc
  rw [List.getLast?_append] at hc
  cases hw : w.getLast? with
  | none =>
      rw [hw] at hc
      exact h' (List.getLast?_eq_none_iff.mp hw) c hc
  | some d =>
      rw [hw] at hc
      cases hc
      exact h _ hw

/-- Trivia in front of something ends in white space or in the last mark of a comment. -/
theorem Trivia.closed (h : Trivia w rest) (more : rest ≠ []) : Closed w := by
  induction h with
  | nil => exact closed_nil
  | @blank c w rest blank _ ih =>
      have first : Closed ([] ++ [c]) := closed_concat (not_isWordPart_of_isBlank blank)
      have all : Closed ([c] ++ w) := (ih more).append fun _ => first
      exact all
  | @line body w rest _ _ ih =>
      have comment : Closed ('/' :: '/' :: body ++ ['\n']) := closed_concat rfl
      have all := (ih more).append fun _ => comment
      rwa [List.append_assoc] at all
  | lastLine _ => exact (more rfl).elim
  | @block body w rest _ _ ih =>
      have comment : Closed (('/' :: '*' :: body ++ ['*']) ++ ['/']) := closed_concat rfl
      have all := (ih more).append fun _ => comment
      rwa [List.append_assoc, List.append_assoc] at all

/-- A lexeme in front of a letter or a digit is a symbol. -/
theorem Munch.closed (h : Munch k l rest) (part : ∃ d ∈ rest.head?, isWordPart d = true) :
    Closed l := by
  obtain ⟨d, first, part⟩ := part
  obtain ⟨behind, rfl⟩ := List.head?_eq_some_iff.mp first
  obtain ⟨c, cs, rfl, sort⟩ := h.lexeme.sort
  -- A word and a literal would go on.
  have longer {k' : Token.Kind} (lexeme : Lexeme k' (c :: (cs ++ [d]))) : False := by
    have pre : c :: (cs ++ [d]) <+: c :: cs ++ d :: behind :=
      ⟨behind, by simp only [List.cons_append, List.append_assoc, List.nil_append]⟩
    have length := h.longest lexeme pre
    simp only [List.length_cons, List.length_append, List.length_nil] at length
    omega
  obtain ⟨start, parts, -⟩ | ⟨digit, digits, rfl⟩ | ⟨-, s, -, rfl⟩ := sort
  · refine (longer (.word start ?_)).elim
    exact List.forall_mem_append.mpr ⟨parts, List.forall_mem_singleton.mpr part⟩
  · by_cases another : d.isDigit = true
    · refine (longer (.literal (List.cons_ne_nil _ _) ?_)).elim
      exact List.forall_mem_cons.mpr ⟨digit,
        List.forall_mem_append.mpr ⟨digits, List.forall_mem_singleton.mpr another⟩⟩
    · have start := isWordStart_of_isWordPart part (Bool.eq_false_iff.mpr another)
      rw [h.apart _ rfl d rfl] at start
      cases start
  · intro e he
    have chars := s.text_chars.1
    rw [← h.lexeme.text_of_symbol] at chars
    exact chars e (List.mem_of_getLast? he)

end Closed

section Cuts

variable {read text : List Char} {tokens : List Token} {name : String} {p : Position}

theorem Lexeme.letters {l : List Char} (h : Lexeme (.identifier name) l) :
    ∃ c cs, l = c :: cs ∧ ∀ d ∈ c :: cs, isWordPart d = true := by
  cases h with
  | identifier start parts _ =>
      have part := Cursor.isWordPart_of_isWordStart start
      exact ⟨_, _, rfl, List.forall_mem_cons.mpr ⟨part, parts⟩⟩

theorem Munch.ends {l rest : List Char} (h : Munch (.identifier name) l rest) :
    ∀ c ∈ rest.head?, isWordPart c = false := by
  intro d hd
  by_contra part
  have closed := h.closed ⟨d, hd, Bool.not_eq_false _ ▸ part⟩
  obtain ⟨c, cs, rfl, parts⟩ := h.lexeme.letters
  have last := List.getLast?_eq_some_getLast (List.cons_ne_nil c cs)
  have inner := parts _ (List.mem_of_getLast? last)
  rw [closed _ last] at inner
  cases inner

/-- A name among the tokens stands in the text as a whole word outside all comments, unless the
text starts within a word. -/
theorem Cuts.occurs (h : Cuts read text tokens)
    (closed : (∃ d ∈ text.head?, isWordPart d = true) → Closed read)
    (found : ⟨.identifier name, p⟩ ∈ tokens) :
    ∃ pre post, text = pre ++ (name.toList ++ post) ∧ Position.start.after (read ++ pre) = p ∧
      Outside pre (name.toList ++ post) ∧ Closed (read ++ pre) ∧
        ∀ c ∈ post.head?, isWordPart c = false := by
  induction h with
  | last _ => cases List.mem_singleton.mp found
  | @more read w l rest kind tokens trivia munch _ ih =>
      have more : l ++ rest ≠ [] := by
        intro none
        exact munch.lexeme.ne_nil (List.append_eq_nil_iff.mp none).1
      obtain here | behind := List.mem_cons.mp found
      · cases here
        obtain rfl := munch.lexeme.text_of_identifier
        refine ⟨w, rest, rfl, rfl, trivia.outside more, (trivia.closed more).append ?_, munch.ends⟩
        rintro rfl
        obtain ⟨c, cs, spelled, parts⟩ := munch.lexeme.letters
        exact closed ⟨c, by rw [spelled]; rfl, parts c List.mem_cons_self⟩
      · have closedLexeme (part : ∃ d ∈ rest.head?, isWordPart d = true) : Closed (read ++ w ++ l) :=
          (munch.closed part).append fun none => (munch.lexeme.ne_nil none).elim
        obtain ⟨pre, post, rfl, place, outside, starts, ends⟩ := ih closedLexeme behind
        have whole : read ++ w ++ l ++ pre = read ++ (w ++ (l ++ pre)) := by
          simp only [List.append_assoc]
        rw [whole] at place starts
        refine ⟨w ++ (l ++ pre), post, ?_, place, ?_, starts, ends⟩
        · simp only [List.append_assoc]
        · have inner := munch.outside.append outside
          refine Outside.append ?_ inner
          rw [List.append_assoc]
          exact trivia.outside more

end Cuts

section Tokenize

variable {source name : String} {tokens : List Token} {p : Position}

/-- Each name among the tokens of a source occurs at its place. -/
theorem tokenize_occurs (h : tokenize source = .ok tokens)
    (found : ⟨.identifier name, p⟩ ∈ tokens) :
    ∃ pre post, Occurs source.toList name p pre post := by
  have cuts : Cuts [] source.toList tokens :=
    Cursor.tokensWithin_cuts h (Nat.le_refl _) rfl
  obtain ⟨pre, post, split, place, outside, starts, ends⟩ :=
    cuts.occurs (fun _ => closed_nil) found
  exact ⟨pre, post, split, place, outside, starts, ends⟩

/-- In a text with places for all its characters, different characters have different places. -/
theorem eq_of_place {text pre pre' rest rest' : List Char} (short : text.length + 1 < UInt32.size)
    (split : text = pre ++ rest) (split' : text = pre' ++ rest')
    (same : Position.start.after pre = Position.start.after pre') : pre = pre' := by
  have first : pre <+: text := split ▸ List.prefix_append pre rest
  have second : pre' <+: text := split' ▸ List.prefix_append pre' rest'
  have same_of_longer {pre more : List Char} (within : pre ++ more <+: text)
      (same : Position.start.after pre = Position.start.after (pre ++ more)) : more = [] := by
    have length := within.length_le
    by_contra ne
    have counts : Position.start.Counts (pre ++ more) :=
      Position.counts_of_length (n := 1) (Nat.le_refl 1) (Nat.le_refl 1) (by omega)
    have before := (Position.counts_append.mp counts).2.before_after ne
    rw [← Position.after_append, ← same] at before
    exact before.ne rfl
  obtain ⟨more, rfl⟩ | ⟨more, rfl⟩ := List.prefix_or_prefix_of_prefix first second
  · rw [same_of_longer second same, List.append_nil]
  · rw [same_of_longer first same.symm, List.append_nil]

end Tokenize

end IntLang
