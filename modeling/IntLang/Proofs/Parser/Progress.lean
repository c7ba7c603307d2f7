import IntLang.Proofs.Parser.Exhaustion
import IntLang.Proofs.Parser.Spelling
/-!
Progress of the readers, at faults as well as at answers. A call takes at least one token if any is
left, and is refused where none is. So the loops over items and operators come to their ends, and
tokens are used up after as many calls as there are of them.
-/
namespace IntLang

open Token (Kind)

namespace Phrase

theorem kinds_ne_nil {r : Phrase} {t : r.Tree} (shape : r.Shape t) : r.kinds t ≠ [] := by
  have starts {ks : List Kind} {start : Kind → Prop} (h : ∃ k rest, ks = k :: rest ∧ start k) :
      ks ≠ [] := by
    obtain ⟨k, rest, rfl, -⟩ := h
    exact List.cons_ne_nil k rest
  cases r with
  | program | function => exact List.cons_ne_nil _ _
  | item => exact starts (Parser.Stmt.CanonicalItem.exists_start shape)
  | declaration => exact starts (Parser.Stmt.CanonicalItem.exists_start shape.1)
  | statement => exact starts (Stmt.Canonical.exists_start shape)
  | expression | conditional | binary op | unary | primary => exact starts (Expr.exists_start t)

end Phrase

namespace Parser

/-- The stream as the reader leaves it, with an answer or at a fault. -/
def leftBy {α : Type} (p : Parser α) (s : Stream) : Stream :=
  match p s with
  | .ok _ r => r
  | .error _ r => r

/-- Whatever it answers, the reader takes tokens off the front, and some if any are left. Where none
are left it meets a fault and leaves the stream as it is. -/
structure Progresses {α : Type} (p : Parser α) : Prop where
  takes : ∀ s, ∃ ts, Took s (leftBy p s) ts ∧ (s.tokens ≠ [] → ts ≠ [])
  refuses : ∀ s, s.tokens = [] → ∃ e, p s = .error e s

section Progresses

variable {α : Type} {p : Parser α} {s s₁ s' r : Stream} {e : ParseError} {ts : List Token}
  {ks : List Kind} {beginning : List Kind → Prop}

theorem Took.length_eq (h : Took s s' ts) : s.tokens.length = ts.length + s'.tokens.length := by
  rw [h, List.length_append]

theorem Took.eq_of_nil (h : Took s s' []) : s = s' := h

theorem head_of_nil (h : s.tokens = []) : s.head.kind = .endOfFile := by
  rw [Stream.head, h]
  rfl

theorem took_tail (s : Stream) : ∃ ts, Took s s.tail ts ∧ (s.tokens ≠ [] → ts ≠ []) := by
  obtain ⟨tokens, finish⟩ := s
  cases tokens with
  | nil => exact ⟨[], rfl, fun more => (more rfl).elim⟩
  | cons t ts => exact ⟨[t], rfl, fun _ => List.cons_ne_nil t []⟩

theorem Reads.took (h : Reads s s' ks) (some : ks ≠ []) : ∃ ts, Took s s' ts ∧ ts ≠ [] := by
  obtain ⟨ts, took, rfl, -⟩ := h
  exact ⟨ts, took, fun none => some (none ▸ rfl)⟩

/-- The token at fault is taken as well. -/
theorem Stops.took (h : Stops s e r beginning) :
    ∃ ts, Took s r ts ∧ (s.tokens ≠ [] → ts ≠ []) := by
  obtain ⟨s₁, ks, ⟨ts, read, -, -⟩, -, rfl, -⟩ := h
  have front : Took s s₁ ts := read
  obtain ⟨last, took, more⟩ := took_tail s₁
  refine ⟨ts ++ last, front.trans took, fun left none => ?_⟩
  obtain ⟨rfl, rfl⟩ := List.append_eq_nil_iff.mp none
  exact more (front.eq_of_nil ▸ left) rfl

/-- A reader progresses whose answers and faults are read off the stream. -/
theorem Progresses.of_faults (gives : ∀ s a s', p s = .ok a s' → ∃ ts, Took s s' ts ∧ ts ≠ [])
    (faults : Faults p beginning) (refuses : Refuses p) : Progresses p := by
  constructor
  · intro s
    cases run : p s with
    | ok a r =>
        obtain ⟨ts, took, some⟩ := gives s a r run
        exact ⟨ts, by rwa [leftBy, run], fun _ => some⟩
    | error e r =>
        obtain ⟨ts, took, some⟩ := (faults s e r run).took
        exact ⟨ts, by rwa [leftBy, run], some⟩
  · intro s none
    obtain ⟨e, r, run, -⟩ := refuses s (head_of_nil none)
    obtain ⟨ts, took, -⟩ := (faults s e r run).took
    have length := took.length_eq
    rw [none, List.length_nil] at length
    obtain rfl : ts = [] := List.eq_nil_of_length_eq_zero (by omega)
    exact ⟨e, took.eq_of_nil ▸ run⟩

end Progresses

section Readers

variable {s s' : Stream}

theorem Faults.remaining {α : Type} {q : Nat → Parser α} {beginning : List Kind → Prop}
    (h : ∀ bound, Faults (q bound) beginning) : Faults (remaining >>= q) beginning := by
  intro s e r failed
  rw [remaining_bind] at failed
  exact h _ s e r failed

theorem reader_faults (r : Phrase) : ∃ beginning, Faults r.reader beginning := by
  have gives := expressionWithin_gives
  have faults := expressionWithin_faults
  cases r with
  | program => exact ⟨_, program_faults⟩
  | function => exact ⟨_, function_faults⟩
  | item => exact ⟨_, .remaining itemWithin_faults⟩
  | declaration => exact ⟨_, .remaining declarationWithin_faults⟩
  | statement => exact ⟨_, .remaining statementWithin_faults⟩
  | expression => exact ⟨_, .remaining faults⟩
  | conditional =>
      exact ⟨_, .remaining fun n => conditionalWith_faults (gives n) (faults n) n⟩
  | binary op =>
      exact ⟨_, .remaining fun n => binaryWith_faults (gives n) (faults n) n op.looseness⟩
  | unary => exact ⟨_, .remaining fun n => unaryWith_faults (gives n) (faults n) n⟩
  | primary => exact ⟨_, .remaining fun n => primaryWith_faults (gives n) (faults n)⟩

/-- The tokens of a tree have been taken; a program takes the end of the file as well. -/
theorem reader_took {r : Phrase} {t : r.Tree} (h : r.reader s = .ok t s') :
    ∃ ts, Took s s' ts ∧ ts ≠ [] := by
  by_cases whole : r = .program
  · subst whole
    obtain ⟨s₁, hfunction, -, rfl⟩ := program_cases h
    obtain ⟨ts, took, some⟩ := (function_gives hfunction).1.took (List.cons_ne_nil _ _)
    obtain ⟨last, tookLast, -⟩ := took_tail s₁
    exact ⟨ts ++ last, took.trans tookLast, List.append_ne_nil_of_left_ne_nil some last⟩
  · obtain ⟨read, shape⟩ := reader_gives h whole
    exact read.took (Phrase.kinds_ne_nil shape)

theorem reader_progresses (r : Phrase) : Progresses r.reader := by
  obtain ⟨beginning, faults⟩ := reader_faults r
  exact .of_faults (fun _ _ _ run => reader_took run) faults (reader_refuses r)

end Readers

section Loops

variable {bound n level : Nat} {s s' : Stream}

theorem itemWithin_progresses (bound : Nat) : Progresses (itemWithin bound) := by
  refine .of_faults (fun s a s' run => ?_) (itemWithin_faults bound) (itemWithin_refuses bound)
  obtain ⟨read, canonical⟩ := itemWithin_gives run
  exact read.took (Phrase.kinds_ne_nil (r := .item) canonical)

theorem binaryWith_progresses (n bound level : Nat) :
    Progresses (binaryWith (expressionWithin n) bound level) := by
  have gives := binaryWith_gives (expressionWithin_gives n) bound level
  refine .of_faults (fun s e s' run => ?_)
    (binaryWith_faults (expressionWithin_gives n) (expressionWithin_faults n) bound level)
    (binaryWith_refuses _ bound level)
  obtain ⟨read, canonical, -⟩ := gives s e s' run
  exact read.took (Phrase.kinds_ne_nil (r := .expression) canonical)

/-- One more operator of a chain with its operand. -/
theorem Progresses.behind_take {α : Type} {p : Parser α} (h : Progresses p) :
    Progresses (take >>= fun _ => p) := by
  have run (s : Stream) : (take >>= fun _ => p) s = p s.tail := bind_of_ok (take_eq s) _
  constructor
  · intro s
    obtain ⟨first, tookFirst, some⟩ := took_tail s
    obtain ⟨ts, took, -⟩ := h.takes s.tail
    refine ⟨first ++ ts, ?_, fun more => List.append_ne_nil_of_left_ne_nil (some more) ts⟩
    have same : leftBy (take >>= fun _ => p) s = leftBy p s.tail := by rw [leftBy, run, leftBy]
    rw [same]
    exact tookFirst.trans took
  · intro s none
    have same : s.tail = s := by
      obtain ⟨tokens, finish⟩ := s
      obtain rfl : tokens = [] := none
      rfl
    rw [run, same]
    exact h.refuses s none

theorem Progresses.length_lt {α : Type} {p : Parser α} (h : Progresses p) (more : s.tokens ≠ []) :
    (leftBy p s).tokens.length < s.tokens.length := by
  obtain ⟨ts, took, some⟩ := h.takes s
  have taken := List.length_pos_iff.mpr (some more)
  have length := took.length_eq
  omega

/-- An answer is a proof that tokens were left. -/
theorem Progresses.length_lt_of_ok {α : Type} {p : Parser α} {a : α} (h : Progresses p)
    (run : p s = .ok a s') : s'.tokens.length < s.tokens.length := by
  have more : s.tokens ≠ [] := by
    intro none
    obtain ⟨e, failed⟩ := h.refuses s none
    rw [run] at failed
    cases failed
  have shorter := h.length_lt more
  rwa [leftBy, run] at shorter

/-- The loop over the items ends at what it looks for, not because it may go no further. Each of its
items has taken a token. -/
theorem itemsWithin_stops {items : List Stmt} (enough : s.tokens.length ≤ bound)
    (run : itemsWithin bound s = .ok items s') :
    items.length + s'.tokens.length ≤ s.tokens.length ∧
      (s'.head.kind = .symbol .rightBrace ∨ s'.head.kind = .endOfFile) := by
  induction bound generalizing s items with
  | zero =>
      obtain ⟨rfl, rfl⟩ := pure_eq_ok run
      have none := List.eq_nil_of_length_eq_zero (Nat.le_zero.mp enough)
      exact ⟨by simp, .inr (head_of_nil none)⟩
  | succ bound ih =>
      obtain ⟨a, others, s₁, first, rest, rfl⟩ | ⟨rfl, rfl, stop⟩ := itemsWithin_cases run
      · have shorter := (itemWithin_progresses (bound + 1)).length_lt_of_ok first
        obtain ⟨counted, stop⟩ := ih (by omega) rest
        rw [List.length_cons]
        exact ⟨by omega, stop⟩
      · exact ⟨by simp, stop⟩

/-- A chain ends where no operator of its looseness follows. Each operator that it has taken up,
which makes the tree deeper to the left, has taken a token. -/
theorem chain_stops {operand : Parser Expr} (progresses : Progresses operand) {left e : Expr}
    (enough : s.tokens.length ≤ bound) (run : chain level operand bound left s = .ok e s') :
    spine level e + s'.tokens.length ≤ spine level left + s.tokens.length ∧
      binaryOp? level s'.head.kind = none := by
  induction bound generalizing s left with
  | zero =>
      obtain ⟨rfl, rfl⟩ := pure_eq_ok run
      have none := List.eq_nil_of_length_eq_zero (Nat.le_zero.mp enough)
      rw [head_of_nil none]
      exact ⟨Nat.le_refl _, rfl⟩
  | succ bound ih =>
      obtain ⟨op, right, s₁, -, same, second, rest⟩ | ⟨rfl, rfl, stop⟩ := chain_cases run
      · have round : (take >>= fun _ => operand) s = .ok right s₁ :=
          (bind_of_ok (take_eq s) _).trans second
        have shorter := progresses.behind_take.length_lt_of_ok round
        obtain ⟨counted, stop⟩ := ih (by omega) rest
        rw [spine, if_pos same] at counted
        exact ⟨by omega, stop⟩
      · exact ⟨Nat.le_refl _, stop⟩

/-- The stream behind calls of those readers, each of which goes on from where the one before it has
stopped, with an answer or at a fault. -/
def afterCalls (readers : List Phrase) (s : Stream) : Stream :=
  readers.foldl (fun s r => leftBy r.reader s) s

theorem length_afterCalls_le (readers : List Phrase) (s : Stream) :
    (afterCalls readers s).tokens.length ≤ s.tokens.length - readers.length := by
  induction readers generalizing s with
  | nil => exact Nat.le_refl _
  | cons r readers ih =>
      have shorter : (leftBy r.reader s).tokens.length ≤ s.tokens.length - 1 := by
        by_cases none : s.tokens = []
        · obtain ⟨e, failed⟩ := (reader_progresses r).refuses s none
          rw [leftBy, failed, none]
          exact Nat.zero_le _
        · exact Nat.le_pred_of_lt ((reader_progresses r).length_lt none)
      have rest := ih (leftBy r.reader s)
      rw [afterCalls, List.foldl_cons]
      rw [afterCalls] at rest
      rw [List.length_cons]
      omega

/-- On any tokens, with ends of the file anywhere or none, a reader takes some of them if any are
left, and nothing else happens to them; where none are left it is refused. So does each round of the
loop over items, and each round of a chain of operators, and these loops go on for as long as their
next token lets them. Whatever readers are called one behind the other, and whatever faults they
meet, the tokens are used up after as many calls as there are of them. -/
theorem readers_progress :
    (∀ r : Phrase, Progresses r.reader) ∧
    (∀ bound, Progresses (itemWithin bound)) ∧
    (∀ bound s items s', s.tokens.length ≤ bound → itemsWithin bound s = .ok items s' →
      items.length + s'.tokens.length ≤ s.tokens.length ∧
        (s'.head.kind = .symbol .rightBrace ∨ s'.head.kind = .endOfFile)) ∧
    (∀ n bound level,
      Progresses (take >>= fun _ => binaryWith (expressionWithin n) bound level)) ∧
    (∀ n bound level left s e s', s.tokens.length ≤ bound →
      chain (level + 1) (binaryWith (expressionWithin n) bound level) bound left s = .ok e s' →
        spine (level + 1) e + s'.tokens.length ≤ spine (level + 1) left + s.tokens.length ∧
          binaryOp? (level + 1) s'.head.kind = none) ∧
    ∀ readers s, s.tokens.length ≤ readers.length → (afterCalls readers s).tokens = [] := by
  refine ⟨reader_progresses, itemWithin_progresses, fun bound s items s' => itemsWithin_stops,
    fun n bound level => (binaryWith_progresses n bound level).behind_take,
    fun n bound level left s e s' => chain_stops (binaryWith_progresses n bound level), ?_⟩
  intro readers s enough
  have left := length_afterCalls_le readers s
  rw [Nat.sub_eq_zero_of_le enough, Nat.le_zero] at left
  exact List.eq_nil_of_length_eq_zero left

end Loops

/-- A token at fault is taken, and so is an end of the file between other tokens. -/
example : ([0, 1, 2, 3].map fun calls => (afterCalls (List.replicate calls .statement)
    ⟨[⟨.symbol .rightParen, ⟨1, 1⟩⟩, ⟨.endOfFile, ⟨1, 2⟩⟩, ⟨.symbol .semicolon, ⟨1, 2⟩⟩], ⟨1, 3⟩⟩
      ).tokens.length) = [3, 2, 1, 0] := by
  decide

end Parser

end IntLang
