import IntLang.Token.Scan
/-!
The places of tokens. The scanner passes over its text from left to right, and every token but the
end of the file takes a character. So as long as lines and columns fit their 32 bits, each token has
a place behind all tokens before it.
-/
namespace IntLang

namespace Position

/-- The place `p` is on an earlier line than `q`, or on the same line and further left. -/
def Before (p q : Position) : Prop :=
  p.line.toNat < q.line.toNat ∨ p.line = q.line ∧ p.column.toNat < q.column.toNat

/-- Neither counter comes round on the way over those characters. -/
def Counts (p : Position) : List Char → Prop
  | [] => True
  | c :: cs =>
      (if c = '\n' then p.line else p.column).toNat + 1 < UInt32.size ∧ Counts (p.next c) cs

section Order

variable {p q r : Position} {n : Nat} {cs cs' : List Char}

theorem Before.trans (h : p.Before q) (h' : q.Before r) : p.Before r := by
  unfold Before at *
  rcases h with h | ⟨hl, h⟩ <;> rcases h' with h' | ⟨hl', h'⟩
  · exact .inl (Nat.lt_trans h h')
  · exact .inl (hl' ▸ h)
  · exact .inl (hl ▸ h')
  · exact .inr ⟨hl.trans hl', Nat.lt_trans h h'⟩

theorem Before.ne (h : p.Before q) : p ≠ q := by
  rintro rfl
  rcases h with h | ⟨-, h⟩ <;> exact Nat.lt_irrefl _ h

theorem toNat_add_one {w : UInt32} (h : w.toNat + 1 < UInt32.size) :
    (w + 1).toNat = w.toNat + 1 := by
  rw [UInt32.toNat_add]
  exact Nat.mod_eq_of_lt h

theorem counts_append : p.Counts (cs ++ cs') ↔ p.Counts cs ∧ (p.after cs).Counts cs' := by
  induction cs generalizing p with
  | nil => exact (true_and _).symm.to_iff
  | cons c cs ih => rw [List.cons_append, Counts, Counts, ih, and_assoc, after_cons]

theorem Counts.before_next {c : Char} (h : p.Counts (c :: cs)) : p.Before (p.next c) := by
  have bound := h.1
  unfold Position.next
  split
  · rename_i feed
    rw [if_pos feed] at bound
    left
    rw [toNat_add_one bound]
    exact Nat.lt_succ_self _
  · rename_i feed
    rw [if_neg feed] at bound
    right
    rw [toNat_add_one bound]
    exact ⟨rfl, Nat.lt_succ_self _⟩

theorem Counts.before_after (h : p.Counts cs) (ne : cs ≠ []) : p.Before (p.after cs) := by
  induction cs generalizing p with
  | nil => exact (ne rfl).elim
  | cons c cs ih =>
      rw [after_cons]
      cases cs with
      | nil => exact h.before_next
      | cons d cs => exact h.before_next.trans (ih h.2 (List.cons_ne_nil d cs))

/-- A line and a column are no more than the characters in front of them. -/
theorem counts_of_length (line : p.line.toNat ≤ n) (column : p.column.toNat ≤ n)
    (size : n + cs.length < UInt32.size) : p.Counts cs := by
  induction cs generalizing p n with
  | nil => trivial
  | cons c cs ih =>
      rw [List.length_cons] at size
      have nextLine : (p.line + 1).toNat ≤ n + 1 := by
        rw [toNat_add_one (by omega)]
        exact Nat.succ_le_succ line
      have nextColumn : (p.column + 1).toNat ≤ n + 1 := by
        rw [toNat_add_one (by omega)]
        exact Nat.succ_le_succ column
      refine ⟨?_, ih (n := n + 1) ?_ ?_ (by omega)⟩
      · split <;> omega
      · unfold Position.next
        split
        · exact nextLine
        · exact Nat.le_succ_of_le line
      · unfold Position.next
        split
        · exact Nat.succ_le_succ (Nat.zero_le n)
        · exact nextColumn

end Order

end Position

namespace Cursor

/-- Between two cursors stand those characters. -/
structure Passes (c : Cursor) (cs : List Char) (c' : Cursor) : Prop where
  rest : c.rest = cs ++ c'.rest
  position : c'.position = c.position.after cs

/-- The token is at the place of the cursor, and takes characters unless it is the end of the
file. -/
def Starts (t : Token) (c c' : Cursor) : Prop :=
  t.position = c.position ∧ ∃ cs, Passes c cs c' ∧ (t.kind ≠ .endOfFile → cs ≠ [])

section Passes

variable {c c' : Cursor} {cs cs' : List Char} {p : Position} {t : Token}

theorem Passes.refl (c : Cursor) : Passes c [] c := ⟨rfl, rfl⟩

theorem Passes.cons {d : Char} (h : Passes ⟨cs', p.next d⟩ cs c') :
    Passes ⟨d :: cs', p⟩ (d :: cs) c' :=
  ⟨congrArg (d :: ·) h.rest, h.position⟩

theorem Passes.trans {c₁ : Cursor} (h : Passes c cs c₁) (h' : Passes c₁ cs' c') :
    Passes c (cs ++ cs') c' := by
  constructor
  · rw [h.rest, h'.rest, List.append_assoc]
  · rw [h'.position, h.position, Position.after_append]

theorem Passes.counts (h : Passes c cs c') (fits : c.position.Counts c.rest) :
    c.position.Counts cs ∧ c'.position.Counts c'.rest := by
  rw [h.rest, Position.counts_append, ← h.position] at fits
  exact fits

theorem Passes.before (h : Passes c cs c') (fits : c.position.Counts c.rest) (ne : cs ≠ []) :
    c.position.Before c'.position := by
  rw [h.position]
  exact (h.counts fits).1.before_after ne

theorem Passes.eq_or_before (h : Passes c cs c') (fits : c.position.Counts c.rest) :
    c'.position = c.position ∨ c.position.Before c'.position := by
  by_cases empty : cs = []
  · left
    rw [h.position, empty, Position.after_nil]
  · exact .inr (h.before fits empty)

theorem skipGap_passes (g : Gap) (p : Position) (rest : List Char) :
    ∃ cs, Passes ⟨rest, p⟩ cs (skipGap g p rest).2 := by
  fun_induction skipGap g p rest with
  | case1 p cs ih | case2 p cs ih | case6 opened p cs ih =>
      obtain ⟨taken, h⟩ := ih
      exact ⟨_, h.cons.cons⟩
  | case3 p c cs _ _ _ ih | case5 p c cs ih | case7 opened p c cs _ ih =>
      obtain ⟨taken, h⟩ := ih
      exact ⟨_, h.cons⟩
  | _ => exact ⟨[], .refl _⟩

/-- Only a value that is large already keeps a digit from being read. -/
theorem digits_passes (value : Nat) (p : Position) (cs : List Char) :
    ∃ taken, Passes ⟨cs, p⟩ taken (digits value p cs).2 ∧
      (value * 10 + 9 ≤ literalMax → ∀ d ∈ cs.head?, d.isDigit → taken ≠ []) := by
  induction cs generalizing value p with
  | nil => exact ⟨[], .refl _, fun _ => nofun⟩
  | cons d cs ih =>
      unfold digits
      by_cases digit : d.isDigit = true
      · simp only [if_pos digit]
        split
        · obtain ⟨taken, passes, -⟩ := ih (value * 10 + (d.toNat - '0'.toNat)) (p.next d)
          exact ⟨_, passes.cons, fun _ _ _ _ => List.cons_ne_nil _ _⟩
        · rename_i large
          refine ⟨[], .refl _, fun small => ?_⟩
          have nine : d.toNat - '0'.toNat ≤ 9 :=
            Nat.sub_le_sub_right (Char.isDigit_iff_toNat.mp digit).2 _
          omega
      · rw [if_neg digit]
        refine ⟨[], .refl _, fun _ => ?_⟩
        rintro _ ⟨⟩ first
        exact (digit first).elim

/-- For a literal, whatever is wrong with it, the scanner stops where the digits have been read. -/
theorem literal_stops (c : Cursor) : c.literal.2 = (digits 0 c.position c.rest).2 := by
  unfold literal
  split
  · rename_i read
    rw [read]
  · rename_i read
    rw [read]
    split
    · rfl
    · split <;> rfl

theorem literal_passes (hd : ∃ d ∈ c.rest.head?, d.isDigit) :
    ∃ taken, Passes c taken c.literal.2 ∧ taken ≠ [] := by
  obtain ⟨d, first, digit⟩ := hd
  obtain ⟨taken, passes, ne⟩ := digits_passes 0 c.position c.rest
  rw [literal_stops]
  exact ⟨taken, passes, ne (by decide) d first digit⟩

theorem literal_position (h : c.literal = (.ok t, c')) : t.position = c.position := by
  unfold literal at h
  split at h
  · cases h
  · split at h
    · cases h
      rfl
    · split at h <;> cases h
      rfl

theorem isWordPart_of_isWordStart {d : Char} (h : isWordStart d = true) : isWordPart d = true := by
  unfold isWordStart at h
  unfold isWordPart Char.isAlphanum
  cases hd : d.isAlpha <;> simp_all

theorem word_passes (hd : ∃ d ∈ c.rest.head?, isWordStart d) :
    ∃ taken, Passes c taken c.word.2 ∧ taken ≠ [] := by
  obtain ⟨d, first, start⟩ := hd
  refine ⟨_, ⟨List.takeWhile_append_dropWhile.symm, rfl⟩, ?_⟩
  obtain ⟨cs, hrest⟩ := List.head?_eq_some_iff.mp first
  rw [hrest, List.takeWhile_cons_of_pos (isWordPart_of_isWordStart start)]
  exact List.cons_ne_nil _ _

/-- The scanner takes a symbol of two characters, or else one of one character. -/
theorem symbol_cases {first : Char} (h : symbol p first cs = (.ok t, c')) :
    (∃ s, Symbol.single? first = some s ∧ (∀ second ∈ cs.head?, Symbol.pair? first second = none) ∧
      t = ⟨.symbol s, p⟩ ∧ c' = ⟨cs, p.next first⟩) ∨
    ∃ s second rest, cs = second :: rest ∧ Symbol.pair? first second = some s ∧
      t = ⟨.symbol s, p⟩ ∧ c' = ⟨rest, (p.next first).next second⟩ := by
  unfold symbol at h
  grind

/-- Whether or not it finds a symbol, the scanner passes over one character or two. -/
theorem symbol_passes (p : Position) (first : Char) (cs : List Char) :
    ∃ taken, Passes ⟨first :: cs, p⟩ taken (symbol p first cs).2 ∧ taken ≠ [] := by
  have stops : (symbol p first cs).2 = ⟨cs, p.next first⟩ ∨ ∃ second rest, cs = second :: rest ∧
      (symbol p first cs).2 = ⟨rest, (p.next first).next second⟩ := by
    unfold symbol
    grind
  obtain stops | ⟨second, rest, rfl, stops⟩ := stops <;> rw [stops]
  · exact ⟨[first], (Passes.refl _).cons, List.cons_ne_nil _ _⟩
  · exact ⟨[first, second], (Passes.refl _).cons.cons, List.cons_ne_nil _ _⟩

/-- In front of a character, whether or not it starts a lexeme, the scanner passes over some. -/
theorem lexeme_passes (more : c.rest ≠ []) : ∃ taken, Passes c taken c.lexeme.2 ∧ taken ≠ [] := by
  obtain ⟨rest, p⟩ := c
  obtain ⟨first, cs, rfl⟩ := List.exists_cons_of_ne_nil more
  unfold lexeme
  by_cases start : isWordStart first = true
  · simp only [start, if_true]
    exact word_passes ⟨first, rfl, start⟩
  · simp only [start]
    by_cases digit : first.isDigit = true
    · rw [if_pos digit]
      exact literal_passes ⟨first, rfl, digit⟩
    · rw [if_neg digit]
      exact symbol_passes p first cs

theorem lexeme_position (h : c.lexeme = (.ok t, c')) : t.position = c.position := by
  unfold lexeme at h
  split at h
  · cases h
    rfl
  · split at h
    · cases h
      rfl
    · split at h
      · exact literal_position h
      · obtain ⟨s, -, -, rfl, -⟩ | ⟨s, second, rest, -, -, rfl, -⟩ := symbol_cases h <;> rfl

theorem lexeme_starts (h : c.lexeme = (.ok t, c')) : Starts t c c' := by
  refine ⟨lexeme_position h, ?_⟩
  obtain ⟨rest, p⟩ := c
  cases rest with
  | nil =>
      cases h
      exact ⟨[], .refl _, fun more => (more rfl).elim⟩
  | cons first cs =>
      obtain ⟨taken, passes, ne⟩ := lexeme_passes (c := ⟨first :: cs, p⟩) (List.cons_ne_nil _ _)
      rw [h] at passes
      exact ⟨taken, passes, fun _ => ne⟩

/-- The next token starts behind a gap. -/
theorem next_starts (h : c.next = (.ok t, c')) : ∃ gap c₁, Passes c gap c₁ ∧ Starts t c₁ c' := by
  obtain ⟨gap, passes⟩ := skipGap_passes .between c.position c.rest
  unfold next at h
  cases hskip : skipGap .between c.position c.rest with
  | mk skipped c₁ =>
      rw [hskip] at h passes
      cases skipped with
      | error opened => cases h
      | ok _ => exact ⟨gap, c₁, passes, lexeme_starts h⟩

end Passes

/-- The tokens from a cursor on: each starts behind a gap, and the last one, and only that, is the
end of the file. -/
inductive Scans : Cursor → List Token → Prop
  | last {c gap c₁ c' t} : Passes c gap c₁ → Starts t c₁ c' → t.kind = .endOfFile → Scans c [t]
  | more {c gap c₁ c' t ts} : Passes c gap c₁ → Starts t c₁ c' → t.kind ≠ .endOfFile →
      Scans c' ts → Scans c (t :: ts)

section Scans

variable {c : Cursor} {tokens : List Token}

theorem tokensWithin_scans {bound : Nat} (h : c.tokensWithin bound = .ok tokens) :
    Scans c tokens := by
  induction bound generalizing c tokens with
  | zero =>
      cases h
      exact .last (.refl c) ⟨rfl, [], .refl c, fun more => (more rfl).elim⟩ rfl
  | succ bound ih =>
      unfold tokensWithin at h
      split at h
      · cases h
      · rename_i t c' hnext
        obtain ⟨gap, c₁, passes, starts⟩ := next_starts hnext
        by_cases last : t.kind = .endOfFile
        · rw [if_pos last] at h
          cases h
          exact .last passes starts last
        · rw [if_neg last] at h
          cases hothers : c'.tokensWithin bound with
          | error e =>
              rw [hothers] at h
              cases h
          | ok others =>
              rw [hothers] at h
              cases h
              exact .more passes starts last (ih hothers)

theorem Scans.ends (h : Scans c tokens) :
    ∃ ts eof, tokens = ts ++ [eof] ∧ (∀ t ∈ ts, t.kind ≠ .endOfFile) ∧ eof.kind = .endOfFile := by
  induction h with
  | last _ _ ended => exact ⟨[], _, rfl, nofun, ended⟩
  | more _ _ inner _ ih =>
      obtain ⟨ts, eof, rfl, others, ended⟩ := ih
      exact ⟨_ :: ts, eof, rfl, List.forall_mem_cons.mpr ⟨inner, others⟩, ended⟩

/-- The places of the tokens go up, from that of the cursor on. -/
theorem Scans.ordered (h : Scans c tokens) (fits : c.position.Counts c.rest) :
    (∀ t ∈ tokens, t.position = c.position ∨ c.position.Before t.position) ∧
      tokens.Pairwise fun t u => t.position.Before u.position := by
  induction h with
  | last passes starts =>
      refine ⟨List.forall_mem_singleton.mpr ?_, List.pairwise_singleton _ _⟩
      rw [starts.1]
      exact passes.eq_or_before fits
  | @more c gap c₁ c' t ts passes starts inner _ ih =>
      obtain ⟨position, cs, taken, ne⟩ := starts
      have fits₁ := (passes.counts fits).2
      have first := passes.eq_or_before fits
      have next := taken.before fits₁ (ne inner)
      rw [← position] at first next
      obtain ⟨bounds, pairs⟩ := ih (taken.counts fits₁).2
      have behind : ∀ u ∈ ts, t.position.Before u.position := by
        intro u hu
        obtain same | later := bounds u hu
        · rwa [same]
        · exact next.trans later
      refine ⟨List.forall_mem_cons.mpr ⟨first, fun u hu => ?_⟩, .cons behind pairs⟩
      obtain same | earlier := first
      · exact .inr (same ▸ behind u hu)
      · exact .inr (earlier.trans (behind u hu))

end Scans

end Cursor

section Tokenize

variable {source : String} {tokens : List Token}

theorem tokenize_ends (h : tokenize source = .ok tokens) :
    ∃ ts eof, tokens = ts ++ [eof] ∧ (∀ t ∈ ts, t.kind ≠ .endOfFile) ∧ eof.kind = .endOfFile :=
  (Cursor.tokensWithin_scans h).ends

/-- Each token has a place behind those of all tokens before it. -/
theorem tokenize_places (h : tokenize source = .ok tokens)
    (fits : Position.start.Counts source.toList) :
    tokens.Pairwise fun t u => t.position.Before u.position :=
  ((Cursor.tokensWithin_scans h).ordered fits).2

end Tokenize

end IntLang
