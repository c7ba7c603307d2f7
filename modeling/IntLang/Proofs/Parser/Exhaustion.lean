import IntLang.Proofs.Parser.Lockstep
import IntLang.Proofs.Parser.Phrase
/-!
Behind its last token a stream answers with an end of the file. So it does not matter to a reader
whether a token list is closed by a token that says so: it answers with the same tree, or there is
a fault in either case. Only the place of the end may differ, and a fault at the end shows it.
-/
namespace IntLang.Parser

open Token (Kind)

/-- The end of two readings, of tokens that are exhausted at `f` and of tokens with an end of the
file at `f'`. The answers are the same and the tokens left are related, or there is a fault in both
at the same token, for which the end of the file counts as one. -/
inductive Same (f f' : Position) (related : List Token → List Token → Prop) {α : Type} :
    EStateM.Result ParseError Stream α → EStateM.Result ParseError Stream α → Prop
  | ok {a rest rest'} : related rest rest' →
      Same f f' related (.ok a ⟨rest, f⟩) (.ok a ⟨rest', f'⟩)
  | error {e e' r r'} : (e'.position = e.position ∨ e.position = f ∧ e'.position = f') →
      Same f f' related (.error e r) (.error e' r')

/-- What is left of the tokens `ts`, without and with `eof` behind them. -/
def Closed (eof : Token) (ts rest rest' : List Token) : Prop :=
  rest <:+ ts ∧ rest' = rest ++ [eof]

/-- Two readers end the same way on any tokens without an end of the file, at least `least` and at
most `n` of them, where the second has an end of the file behind them. -/
def Alike (f f' : Position) (least n : Nat) {α : Type} (p p' : Parser α) : Prop :=
  ∀ ts, least ≤ ts.length → ts.length ≤ n → (∀ t ∈ ts, t.kind ≠ .endOfFile) →
    Same f f' (Closed ⟨.endOfFile, f'⟩ ts) (p ⟨ts, f⟩) (p' ⟨ts ++ [⟨.endOfFile, f'⟩], f'⟩)

/-- At an end of the file the reader meets a fault, which is there. -/
def Refuses {α : Type} (p : Parser α) : Prop :=
  ∀ s : Stream, s.head.kind = .endOfFile → ∃ e r, p s = .error e r ∧ e.position = s.head.position

/-- At an end of the file the reader gives that answer and takes nothing. -/
def Passes {α : Type} (p : Parser α) (a : α) : Prop :=
  ∀ s : Stream, s.head.kind = .endOfFile → p s = .ok a s

section Refuses

variable {α β : Type} {p : Parser α}

theorem Refuses.bind (h : Refuses p) (q : α → Parser β) : Refuses (p >>= q) := by
  intro s hs
  obtain ⟨e, r, failed, position⟩ := h s hs
  exact ⟨e, r, bind_of_error failed q, position⟩

theorem Refuses.peek {q : Kind → Parser α} (h : Refuses (q .endOfFile)) :
    Refuses (Parser.peek >>= q) := by
  intro s hs
  rw [bind_of_ok (peek_eq s), hs]
  exact h s hs

theorem Refuses.remaining {q : Nat → Parser α} (h : ∀ bound, Refuses (q bound)) :
    Refuses (remaining >>= q) := by
  intro s hs
  rw [remaining_bind]
  exact h _ s hs

theorem reject_refuses (expected : Expectation) : Refuses (reject expected : Parser α) :=
  fun _ _ => ⟨_, _, rfl, rfl⟩

theorem require_refuses {k : Kind} (hk : k ≠ .endOfFile) (c : Construct) :
    Refuses (require k c) := by
  intro s hs
  have ne : s.head.kind ≠ k := fun h => hk (h.symm.trans hs)
  exact ⟨_, _, if_neg ne, rfl⟩

theorem identifier_refuses (c : Construct) : Refuses (identifier c) := by
  intro s hs
  unfold identifier
  rw [hs]
  exact ⟨_, _, rfl, rfl⟩

theorem primaryWith_refuses (expression : Parser Expr) : Refuses (primaryWith expression) := by
  intro s hs
  unfold primaryWith
  rw [bind_of_ok (take_eq s), hs]
  exact ⟨_, _, rfl, rfl⟩

theorem unaryWith_refuses (expression : Parser Expr) (bound : Nat) :
    Refuses (unaryWith expression bound) := by
  cases bound with
  | zero => exact primaryWith_refuses expression
  | succ bound => exact .peek (primaryWith_refuses expression)

theorem binaryWith_refuses (expression : Parser Expr) (bound level : Nat) :
    Refuses (binaryWith expression bound level) := by
  induction level with
  | zero => exact unaryWith_refuses expression bound
  | succ level ih => exact ih.bind _

theorem conditionalWith_refuses (expression : Parser Expr) (bound : Nat) :
    Refuses (conditionalWith expression bound) := by
  cases bound with
  | zero => exact binaryWith_refuses expression 0 _
  | succ bound => exact (binaryWith_refuses expression (bound + 1) _).bind _

theorem expressionWithin_refuses (bound : Nat) : Refuses (expressionWithin bound) := by
  cases bound with
  | zero => exact reject_refuses _
  | succ bound => exact (conditionalWith_refuses _ (bound + 1)).bind _

/-- A statement is refused as such where no token is left, and as an expression otherwise. -/
theorem statementWithin_refuses (bound : Nat) : Refuses (statementWithin bound) := by
  cases bound with
  | zero => exact reject_refuses _
  | succ bound =>
      intro s hs
      obtain ⟨tokens, finish⟩ := s
      cases tokens with
      | nil => exact ⟨_, _, rfl, rfl⟩
      | cons t ts =>
          have last : t.kind = .endOfFile := hs
          have behind : Refuses (terminated (bound + 1) .expressionStatement (.expr t.position)) :=
            (expressionWithin_refuses (bound + 1)).bind _
          obtain ⟨e, r, failed, position⟩ := behind ⟨t :: ts, finish⟩ hs
          refine ⟨e, r, ?_, position⟩
          have found : next? ⟨t :: ts, finish⟩ = .ok (some t) ⟨t :: ts, finish⟩ := rfl
          unfold statementWithin
          rw [← failed, bind_of_ok found]
          dsimp only
          rw [last]
          rfl

theorem declarationWithin_refuses (bound : Nat) : Refuses (declarationWithin bound) :=
  (require_refuses Kind.noConfusion _).bind _

theorem itemWithin_refuses (bound : Nat) : Refuses (itemWithin bound) := by
  refine .peek ?_
  rw [if_neg Kind.noConfusion]
  exact statementWithin_refuses bound

theorem function_refuses : Refuses function := (require_refuses Kind.noConfusion _).bind _

theorem reader_refuses (r : Phrase) : Refuses r.reader := by
  cases r with
  | program => exact function_refuses.bind _
  | function => exact function_refuses
  | item => exact .remaining itemWithin_refuses
  | declaration => exact .remaining declarationWithin_refuses
  | statement => exact .remaining statementWithin_refuses
  | expression => exact .remaining expressionWithin_refuses
  | conditional => exact .remaining fun n => conditionalWith_refuses _ n
  | binary op => exact .remaining fun n => binaryWith_refuses _ n op.looseness
  | unary => exact .remaining fun n => unaryWith_refuses _ n
  | primary => exact .remaining fun n => primaryWith_refuses _

theorem Passes.peek {q : Kind → Parser α} {a : α} (h : Passes (q .endOfFile) a) :
    Passes (Parser.peek >>= q) a := by
  intro s hs
  rw [bind_of_ok (peek_eq s), hs]
  exact h s hs

theorem pure_passes (a : α) : Passes (pure a) a := fun _ _ => rfl

theorem chain_passes (level : Nat) (operand : Parser Expr) (bound : Nat) (left : Expr) :
    Passes (chain level operand bound left) left := by
  cases bound with
  | zero => exact pure_passes left
  | succ bound => exact .peek (pure_passes left)

theorem itemsWithin_passes (bound : Nat) : Passes (itemsWithin bound) [] := by
  cases bound with
  | zero => exact pure_passes []
  | succ bound => exact .peek (pure_passes [])

end Refuses

theorem Closed.refl (eof : Token) (ts : List Token) : Closed eof ts ts (ts ++ [eof]) :=
  ⟨List.suffix_refl ts, rfl⟩

theorem Closed.of_isSuffix {eof : Token} {ts₁ ts rest rest' : List Token}
    (h : Closed eof ts₁ rest rest') (suffix : ts₁ <:+ ts) : Closed eof ts rest rest' :=
  ⟨h.1.trans suffix, h.2⟩

theorem Same.imp {f f' : Position} {related related' : List Token → List Token → Prop} {α : Type}
    {x x' : EStateM.Result ParseError Stream α} (h : Same f f' related x x')
    (imp : ∀ rest rest', related rest rest' → related' rest rest') : Same f f' related' x x' := by
  cases h with
  | ok left => exact .ok (imp _ _ left)
  | error places => exact .error places

/-- What goes on from an answer decides the end. -/
theorem Same.bind {f f' : Position} {related related' : List Token → List Token → Prop}
    {α β : Type} {p p' : Parser α} {q q' : α → Parser β} {s s' : Stream}
    (h : Same f f' related (p s) (p' s'))
    (further : ∀ a rest rest', p s = .ok a ⟨rest, f⟩ → related rest rest' →
      Same f f' related' (q a ⟨rest, f⟩) (q' a ⟨rest', f'⟩)) :
    Same f f' related' ((p >>= q) s) ((p' >>= q') s') := by
  generalize run : p s = x at h
  generalize run' : p' s' = x' at h
  cases h with
  | ok left =>
      rw [bind_of_ok run, bind_of_ok run']
      exact further _ _ _ run left
  | error places =>
      rw [bind_of_error run, bind_of_error run']
      exact .error places

/-- Whatever stands behind it, a token is taken with the same answer or the same fault. -/
theorem Single.decides {α : Type} {p : Parser α} (h : Single p) (t : Token) :
    (∃ a, ∀ ts f, p ⟨t :: ts, f⟩ = .ok a ⟨ts, f⟩) ∨
      ∃ e, ∀ ts f, p ⟨t :: ts, f⟩ = .error e ⟨ts, f⟩ := by
  obtain ⟨decide, hp⟩ := h
  have head (ts : List Token) (f : Position) : (Stream.mk (t :: ts) f).head = t := rfl
  cases decided : decide t with
  | ok a =>
      refine .inl ⟨a, fun ts f => ?_⟩
      simp only [hp, head, decided]
      rfl
  | error e =>
      refine .inr ⟨e, fun ts f => ?_⟩
      simp only [hp, head, decided]
      rfl

namespace Alike

variable {f f' : Position} {least n m : Nat} {α β : Type} {p p' : Parser α}
  {q q' : α → Parser β}

theorem mono (h : Alike f f' least n p p') (hle : m ≤ n) : Alike f f' least m p p' :=
  fun ts hleast hts => h ts hleast (Nat.le_trans hts hle)

theorem weaken (h : Alike f f' 0 n p p') : Alike f f' least n p p' :=
  fun ts _ => h ts (Nat.zero_le _)

theorem pure (a : α) : Alike f f' least n (Pure.pure a : Parser α) (Pure.pure a) :=
  fun ts _ _ _ => .ok (.refl _ ts)

theorem throw (e : ParseError) :
    Alike f f' least n (MonadExcept.throw e : Parser α) (MonadExcept.throw e) :=
  fun _ _ _ _ => .error (.inl rfl)

/-- An answer that leaves at most `m` tokens leaves no more to what goes on from it. -/
theorem bind_of_takes (h : Alike f f' least n p p')
    (takes : ∀ {ts a rest}, ts.length ≤ n → rest <:+ ts → p ⟨ts, f⟩ = .ok a ⟨rest, f⟩ →
      rest.length ≤ m)
    (hq : ∀ a, Alike f f' 0 m (q a) (q' a)) : Alike f f' least n (p >>= q) (p' >>= q') := by
  intro ts hleast hts unclosed
  refine (h ts hleast hts unclosed).bind ?_
  rintro a rest _ run ⟨suffix, rfl⟩
  have second := hq a rest (Nat.zero_le _) (takes hts suffix run)
    fun t ht => unclosed t (suffix.subset ht)
  exact second.imp fun _ _ left => left.of_isSuffix suffix

theorem bind (h : Alike f f' least n p p') (hq : ∀ a, Alike f f' 0 n (q a) (q' a)) :
    Alike f f' least n (p >>= q) (p' >>= q') :=
  h.bind_of_takes (fun hts suffix _ => Nat.le_trans suffix.length_le hts) hq

/-- Where no token is left, a reader that refuses the end of the file does so in both. -/
theorem of_refuses (h : Alike f f' 1 n p p') (refuses : Refuses p) (refuses' : Refuses p') :
    Alike f f' 0 n p p' := by
  intro ts _ hts unclosed
  cases ts with
  | nil =>
      obtain ⟨e, r, failed, position⟩ := refuses ⟨[], f⟩ rfl
      obtain ⟨e', r', failed', position'⟩ := refuses' ⟨[⟨.endOfFile, f'⟩], f'⟩ rfl
      rw [failed, List.nil_append, failed']
      exact .error (.inr ⟨position, position'⟩)
  | cons t ts => exact h (t :: ts) (Nat.le_add_left 1 _) hts unclosed

theorem zero_of_refuses (refuses : Refuses p) (refuses' : Refuses p') : Alike f f' 0 0 p p' :=
  .of_refuses (fun _ hleast hts => absurd (Nat.le_trans hleast hts) (Nat.not_succ_le_zero 0))
    refuses refuses'

theorem zero_of_passes {a : α} (passes : Passes p a) (passes' : Passes p' a) :
    Alike f f' 0 0 p p' := by
  intro ts _ hts _
  obtain rfl := List.eq_nil_of_length_eq_zero (Nat.le_zero.mp hts)
  rw [passes ⟨[], f⟩ rfl, List.nil_append, passes' ⟨[⟨.endOfFile, f'⟩], f'⟩ rfl]
  exact .ok (.refl _ [])

theorem reject (expected : Expectation) :
    Alike f f' 1 n (Parser.reject expected : Parser α) (Parser.reject expected) := by
  intro ts hleast _ _
  cases ts with
  | nil => exact absurd hleast (Nat.not_succ_le_zero 0)
  | cons t ts => exact .error (.inl rfl)

/-- The token that is taken is not the end of the file, which one of the streams does not have. -/
theorem single (h : Single p) (hq : ∀ a, Alike f f' 0 n (q a) (q' a)) :
    Alike f f' 1 (n + 1) (p >>= q) (p >>= q') := by
  intro ts hleast hts unclosed
  cases ts with
  | nil => exact absurd hleast (Nat.not_succ_le_zero 0)
  | cons t ts =>
      rw [List.cons_append]
      obtain ⟨a, run⟩ | ⟨e, run⟩ := h.decides t
      · have second := hq a ts (Nat.zero_le _) (Nat.le_of_succ_le_succ hts)
          (List.forall_mem_cons.mp unclosed).2
        rw [bind_of_ok (run _ _), bind_of_ok (run _ _)]
        exact second.imp fun _ _ left => left.of_isSuffix (List.suffix_cons t ts)
      · rw [bind_of_error (run _ _), bind_of_error (run _ _)]
        exact .error (.inl rfl)

/-- What is decided by the kind of the next token is decided the same at the end and before it. -/
theorem peek {q q' : Kind → Parser α} (last : Alike f f' 0 0 (q .endOfFile) (q' .endOfFile))
    (next : ∀ kind, kind ≠ .endOfFile → Alike f f' 1 n (q kind) (q' kind)) :
    Alike f f' least n (Parser.peek >>= q) (Parser.peek >>= q') := by
  intro ts _ hts unclosed
  rw [bind_of_ok (peek_eq _), bind_of_ok (peek_eq _)]
  cases ts with
  | nil => exact last [] (Nat.zero_le _) (Nat.le_refl _) unclosed
  | cons t ts =>
      have ne := unclosed t List.mem_cons_self
      exact next t.kind ne (t :: ts) (Nat.le_add_left 1 _) hts unclosed

theorem next? {q q' : Option Token → Parser α}
    (h : ∀ token, Alike f f' 1 n (q (some token)) (q' (some token))) :
    Alike f f' 1 n (Parser.next? >>= q) (Parser.next? >>= q') := by
  intro ts hleast hts unclosed
  cases ts with
  | nil => exact absurd hleast (Nat.not_succ_le_zero 0)
  | cons t ts => exact h t (t :: ts) hleast hts unclosed

theorem accept {k : Kind} (hk : k ≠ .endOfFile) {first first' second second' : Parser α}
    (h : Alike f f' 0 n first first') (h' : Alike f f' 0 (n + 1) second second') :
    Alike f f' least (n + 1)
      (Parser.accept k >>= fun b => if b = true then first else second)
      (Parser.accept k >>= fun b => if b = true then first' else second') := by
  rw [Lockstep.accept_bind, Lockstep.accept_bind]
  refine .peek ?_ fun kind _ => ?_
  · rw [if_neg hk.symm, if_neg hk.symm]
    exact h'.mono (Nat.zero_le _)
  · split
    · exact .single single_take fun _ => h
    · exact h'.weaken

/-- Where an end of the file is one of the tokens left, the bound is higher by one. -/
theorem remaining {q : Nat → Parser α}
    (h : ∀ {n b b'}, n ≤ b → n ≤ b' → Alike f f' 0 n (q b) (q b')) :
    Alike f f' 0 n (Parser.remaining >>= q) (Parser.remaining >>= q) := by
  intro ts hleast _ unclosed
  rw [remaining_bind, remaining_bind]
  have enough : ts.length ≤ (ts ++ [(⟨.endOfFile, f'⟩ : Token)]).length := by simp
  exact h (Nat.le_refl _) enough ts hleast (Nat.le_refl _) unclosed

end Alike

section Expr

variable {f f' : Position} {n k b b' : Nat}

theorem require_alike {α : Type} (k : Kind) (hk : k ≠ .endOfFile) (c : Construct)
    {q q' : Token → Parser α} (h : ∀ t, Alike f f' 0 n (q t) (q' t)) :
    Alike f f' 0 (n + 1) (require k c >>= q) (require k c >>= q') :=
  .of_refuses (.single (single_require k c) h) ((require_refuses hk c).bind q)
    ((require_refuses hk c).bind q')

theorem identifier_alike {α : Type} (c : Construct) {q q' : String × Position → Parser α}
    (h : ∀ named, Alike f f' 0 n (q named) (q' named)) :
    Alike f f' 0 (n + 1) (identifier c >>= q) (identifier c >>= q') :=
  .of_refuses (.single (single_identifier c) h) ((identifier_refuses c).bind q)
    ((identifier_refuses c).bind q')

theorem primaryWith_alike {expression expression' : Parser Expr}
    (h : Alike f f' 0 n expression expression') :
    Alike f f' 0 (n + 1) (primaryWith expression) (primaryWith expression') := by
  refine .of_refuses ?_ (primaryWith_refuses _) (primaryWith_refuses _)
  refine .single single_take fun token => ?_
  cases token.kind with
  | literal value =>
      dsimp only
      cases Word.ofInt? value with
      | none => exact .throw _
      | some word => exact .pure _
  | symbol mark =>
      cases mark with
      | leftParen =>
          have close (inner : Expr) : Alike f f' 0 (n + 1) _ _ :=
            require_alike (.symbol .rightParen) Kind.noConfusion .parenthesized
              fun _ => .pure (Expr.paren token.position inner)
          exact h.bind fun inner => (close inner).mono (Nat.le_succ n)
      | _ => exact .throw _
  | identifier name => exact .pure _
  | _ => exact .throw _

theorem unaryWith_alike {expression expression' : Parser Expr}
    (h : Alike f f' 0 n expression expression') (hk : k ≤ n + 1) (hb : k ≤ b) (hb' : k ≤ b') :
    Alike f f' 0 k (unaryWith expression b) (unaryWith expression' b') := by
  -- The two have different fuel, so the induction is on the number of tokens, which is no more.
  induction k generalizing b b' with
  | zero => exact .zero_of_refuses (unaryWith_refuses _ _) (unaryWith_refuses _ _)
  | succ k ih =>
      obtain ⟨b, rfl⟩ := Nat.exists_eq_succ_of_ne_zero (by omega : b ≠ 0)
      obtain ⟨b', rfl⟩ := Nat.exists_eq_succ_of_ne_zero (by omega : b' ≠ 0)
      have operand : Alike f f' 0 k (unaryWith expression b) (unaryWith expression' b') :=
        ih (by omega) (by omega) (by omega)
      refine .peek (.zero_of_refuses (primaryWith_refuses _) (primaryWith_refuses _)) ?_
      intro kind _
      cases unaryOp? kind with
      | none => exact ((primaryWith_alike h).mono hk).weaken
      | some op => exact .single single_take fun token => operand.bind fun _ => .pure _

theorem chain_alike {operand operand' : Parser Expr} (h : Alike f f' 0 n operand operand')
    (level : Nat) (hk : k ≤ n) (hb : k ≤ b) (hb' : k ≤ b') (left : Expr) :
    Alike f f' 0 k (chain level operand b left) (chain level operand' b' left) := by
  induction k generalizing b b' left with
  | zero => exact .zero_of_passes (chain_passes _ _ _ left) (chain_passes _ _ _ left)
  | succ k ih =>
      obtain ⟨b, rfl⟩ := Nat.exists_eq_succ_of_ne_zero (by omega : b ≠ 0)
      obtain ⟨b', rfl⟩ := Nat.exists_eq_succ_of_ne_zero (by omega : b' ≠ 0)
      have further (left : Expr) : Alike f f' 0 k (chain level operand b left)
          (chain level operand' b' left) := ih (by omega) (by omega) (by omega) left
      refine .peek (.pure left) fun kind _ => ?_
      cases binaryOp? level kind with
      | none => exact .pure left
      | some op =>
          exact .single single_take fun _ =>
            (h.mono (Nat.le_of_succ_le hk)).bind fun right => further _

theorem binaryWith_alike {expression expression' : Parser Expr}
    (h : Alike f f' 0 n expression expression') (hk : k ≤ n + 1) (hb : k ≤ b) (hb' : k ≤ b')
    (level : Nat) :
    Alike f f' 0 k (binaryWith expression b level) (binaryWith expression' b' level) := by
  induction level with
  | zero => exact unaryWith_alike h hk hb hb'
  | succ level ih =>
      exact ih.bind fun left => chain_alike ih (level + 1) (Nat.le_refl k) hb hb' left

theorem conditionalWith_alike {expression expression' : Parser Expr}
    (h : Alike f f' 0 n expression expression') (hk : k ≤ n + 1) (hb : k ≤ b) (hb' : k ≤ b') :
    Alike f f' 0 k (conditionalWith expression b) (conditionalWith expression' b') := by
  induction k generalizing b b' with
  | zero => exact .zero_of_refuses (conditionalWith_refuses _ _) (conditionalWith_refuses _ _)
  | succ k ih =>
      obtain ⟨b, rfl⟩ := Nat.exists_eq_succ_of_ne_zero (by omega : b ≠ 0)
      obtain ⟨b', rfl⟩ := Nat.exists_eq_succ_of_ne_zero (by omega : b' ≠ 0)
      have last : Alike f f' 0 k (conditionalWith expression b) (conditionalWith expression' b') :=
        ih (by omega) (by omega) (by omega)
      refine (binaryWith_alike h hk hb hb' _).bind fun condition => ?_
      have arms (whenTrue : Expr) : Alike f f' 0 (k + 1) _ _ :=
        require_alike (.symbol .colon) Kind.noConfusion .conditional fun _ =>
          last.bind fun whenFalse =>
            .pure (Expr.conditional condition.position condition whenTrue whenFalse)
      exact .accept Kind.noConfusion ((h.mono (Nat.le_of_succ_le_succ hk)).bind
        fun whenTrue => (arms whenTrue).mono (Nat.le_succ k)) (.pure condition)

theorem expressionWithin_alike (hb : n ≤ b) (hb' : n ≤ b') :
    Alike f f' 0 n (expressionWithin b) (expressionWithin b') := by
  induction n generalizing b b' with
  | zero => exact .zero_of_refuses (expressionWithin_refuses b) (expressionWithin_refuses b')
  | succ n ih =>
      obtain ⟨b, rfl⟩ := Nat.exists_eq_succ_of_ne_zero (by omega : b ≠ 0)
      obtain ⟨b', rfl⟩ := Nat.exists_eq_succ_of_ne_zero (by omega : b' ≠ 0)
      have inner : Alike f f' 0 n (expressionWithin b) (expressionWithin b') :=
        ih (by omega) (by omega)
      refine (conditionalWith_alike inner (Nat.le_refl _) hb hb').bind fun target => ?_
      refine .peek (.pure target) fun kind _ => ?_
      split
      · refine .single single_take fun token => ?_
        cases target with
        | var position name => exact inner.bind fun value => .pure _
        | _ => exact .throw _
      · exact .pure target

end Expr

section Stmt

variable {f f' : Position} {n b b' : Nat}

/-- A part with the token that closes it. -/
theorem closed_alike {α β : Type} {p p' : Parser α} (h : Alike f f' 0 n p p') (k : Kind)
    (hk : k ≠ .endOfFile) (c : Construct) (made : α → β) :
    Alike f f' 0 n (p >>= fun a => require k c >>= fun _ => pure (made a))
      (p' >>= fun a => require k c >>= fun _ => pure (made a)) :=
  h.bind fun a => (require_alike k hk c fun _ => .pure (made a)).mono (Nat.le_succ n)

theorem terminated_alike (hb : n ≤ b) (hb' : n ≤ b') (construct : Construct)
    (made : Expr → Stmt) :
    Alike f f' 0 n (terminated b construct made) (terminated b' construct made) :=
  closed_alike (expressionWithin_alike hb hb') (.symbol .semicolon) Kind.noConfusion construct made

theorem alternative_alike (h : Alike f f' 0 n (statementWithin b) (statementWithin b'))
    (position : Position) (condition : Expr) (whenTrue : Stmt) :
    Alike f f' 0 (n + 1) (alternative b position condition whenTrue)
      (alternative b' position condition whenTrue) :=
  .accept Kind.noConfusion (h.bind fun _ => .pure _) (.pure _)

theorem test_alike (arm : Alike f f' 0 n (statementWithin b) (statementWithin b'))
    (hb : n ≤ b) (hb' : n ≤ b') (position : Position) :
    Alike f f' 0 n (test b position) (test b' position) := by
  have behind (condition : Expr) : Alike f f' 0 (n + 1) _ _ :=
    require_alike (.symbol .rightParen) Kind.noConfusion .ifStatement fun _ =>
      arm.bind fun whenTrue =>
        (alternative_alike arm position condition whenTrue).mono (Nat.le_succ n)
  have opened : Alike f f' 0 (n + 1) _ _ :=
    require_alike (.symbol .leftParen) Kind.noConfusion .ifStatement fun _ =>
      (expressionWithin_alike hb hb').bind fun condition => (behind condition).mono (Nat.le_succ n)
  exact opened.mono (Nat.le_succ n)

theorem statementWithin_alike (hb : n ≤ b) (hb' : n ≤ b') :
    Alike f f' 0 n (statementWithin b) (statementWithin b') := by
  induction n generalizing b b' with
  | zero => exact .zero_of_refuses (statementWithin_refuses b) (statementWithin_refuses b')
  | succ n ih =>
      refine .of_refuses ?_ (statementWithin_refuses b) (statementWithin_refuses b')
      obtain ⟨b, rfl⟩ := Nat.exists_eq_succ_of_ne_zero (by omega : b ≠ 0)
      obtain ⟨b', rfl⟩ := Nat.exists_eq_succ_of_ne_zero (by omega : b' ≠ 0)
      have hn : n ≤ b := Nat.le_of_succ_le_succ hb
      have hn' : n ≤ b' := Nat.le_of_succ_le_succ hb'
      have arm : Alike f f' 0 n (statementWithin b) (statementWithin b') := ih hn hn'
      refine .next? fun token => ?_
      have simple : Alike f f' 1 (n + 1)
          (terminated (b + 1) .expressionStatement (.expr token.position))
          (terminated (b' + 1) .expressionStatement (.expr token.position)) :=
        (terminated_alike hb hb' _ _).weaken
      dsimp only
      cases token.kind with
      | keyword word =>
          cases word with
          | int => exact .reject _
          | ret =>
              exact .single single_take fun _ =>
                terminated_alike hn hn' .returnStatement (.ret token.position)
          | cond => exact .single single_take fun _ => test_alike arm hn hn' token.position
          | alt => exact simple
      | symbol mark =>
          cases mark with
          | semicolon => exact .single single_take fun _ => .pure _
          | _ => exact simple
      | _ => exact simple

theorem initialWithin_alike (hb : n ≤ b) (hb' : n ≤ b') :
    Alike f f' 0 (n + 1) (initialWithin b) (initialWithin b') :=
  .accept Kind.noConfusion ((expressionWithin_alike hb hb').bind fun _ => .pure _) (.pure none)

theorem declarationWithin_alike (hb : n ≤ b) (hb' : n ≤ b') :
    Alike f f' 0 n (declarationWithin b) (declarationWithin b') := by
  have behind (token : Token) (named : String × Position) : Alike f f' 0 n _ _ :=
    closed_alike ((initialWithin_alike hb hb').mono (Nat.le_succ n)) (.symbol .semicolon)
      Kind.noConfusion .declaration (Stmt.declare token.position named.1 named.2)
  have named (token : Token) : Alike f f' 0 (n + 1) _ _ :=
    identifier_alike .declaration (behind token)
  exact (require_alike (.keyword .int) Kind.noConfusion .declaration named).mono
    (Nat.le_add_right n 2)

theorem itemWithin_alike (hb : n ≤ b) (hb' : n ≤ b') :
    Alike f f' 0 n (itemWithin b) (itemWithin b') := by
  refine .peek ?_ fun kind _ => ?_
  · exact .zero_of_refuses (statementWithin_refuses b) (statementWithin_refuses b')
  · split
    · exact (declarationWithin_alike hb hb').weaken
    · exact (statementWithin_alike hb hb').weaken

/-- Fuel for each item is enough, for each of them takes a token. -/
theorem itemsWithin_alike (hb : n ≤ b) (hb' : n ≤ b') :
    Alike f f' 0 n (itemsWithin b) (itemsWithin b') := by
  induction n generalizing b b' with
  | zero => exact .zero_of_passes (itemsWithin_passes b) (itemsWithin_passes b')
  | succ n ih =>
      obtain ⟨b, rfl⟩ := Nat.exists_eq_succ_of_ne_zero (by omega : b ≠ 0)
      obtain ⟨b', rfl⟩ := Nat.exists_eq_succ_of_ne_zero (by omega : b' ≠ 0)
      have others : Alike f f' 0 n (itemsWithin b) (itemsWithin b') := ih (by omega) (by omega)
      refine .peek (.pure []) fun kind _ => ?_
      split
      · exact .pure []
      · refine ((itemWithin_alike hb hb').weaken).bind_of_takes ?_ fun item =>
          others.bind fun items => .pure (item :: items)
        intro ts a rest hts _ run
        exact Nat.le_of_succ_le_succ (Nat.le_trans (itemWithin_takes run) hts)

theorem function_alike : Alike f f' 0 n function function := by
  have body (token : Token) (named : String × Position) : Alike f f' 0 n _ _ :=
    .remaining fun hb hb' => closed_alike (itemsWithin_alike hb hb') (.symbol .rightBrace)
      Kind.noConfusion .functionBody fun body => (⟨named.1, body, token.position⟩ : Program)
  have opening (token : Token) (named : String × Position) : Alike f f' 0 (n + 1) _ _ :=
    require_alike (.symbol .leftBrace) Kind.noConfusion .functionBody fun _ => body token named
  have right (token : Token) (named : String × Position) : Alike f f' 0 (n + 2) _ _ :=
    require_alike (.symbol .rightParen) Kind.noConfusion .functionDefinition
      fun _ => opening token named
  have left (token : Token) (named : String × Position) : Alike f f' 0 (n + 3) _ _ :=
    require_alike (.symbol .leftParen) Kind.noConfusion .functionDefinition
      fun _ => right token named
  have name (token : Token) : Alike f f' 0 (n + 4) _ _ :=
    identifier_alike .functionDefinition (left token)
  exact (require_alike (.keyword .int) Kind.noConfusion .returnType name).mono
    (Nat.le_add_right n 5)

/-- But for a program, a reader leaves the end of the file where it is. -/
theorem reader_alike {r : Phrase} (inner : r ≠ .program) : Alike f f' 0 n r.reader r.reader := by
  cases r with
  | program => exact (inner rfl).elim
  | function => exact function_alike
  | item => exact .remaining itemWithin_alike
  | declaration => exact .remaining declarationWithin_alike
  | statement => exact .remaining statementWithin_alike
  | expression => exact .remaining expressionWithin_alike
  | conditional =>
      exact .remaining fun hb hb' =>
        conditionalWith_alike (expressionWithin_alike hb hb') (Nat.le_succ _) hb hb'
  | binary op =>
      exact .remaining fun hb hb' =>
        binaryWith_alike (expressionWithin_alike hb hb') (Nat.le_succ _) hb hb' op.looseness
  | unary =>
      exact .remaining fun hb hb' =>
        unaryWith_alike (expressionWithin_alike hb hb') (Nat.le_succ _) hb hb'
  | primary =>
      exact .remaining fun hb hb' =>
        (primaryWith_alike (expressionWithin_alike hb hb')).mono (Nat.le_succ _)

/-- What a reader leaves of tokens without `eof` behind them, and what it leaves with it. A program
takes it, and there is nothing else to leave. -/
def Leaves (eof : Token) : Phrase → List Token → List Token → Prop
  | .program, rest, rest' => rest = [] ∧ rest' = []
  | _, rest, rest' => rest' = rest ++ [eof]

theorem program_same {ts : List Token} (unclosed : ∀ t ∈ ts, t.kind ≠ .endOfFile) :
    Same f f' (Leaves ⟨.endOfFile, f'⟩ .program) (program ⟨ts, f⟩)
      (program ⟨ts ++ [⟨.endOfFile, f'⟩], f'⟩) := by
  refine (function_alike ts (Nat.zero_le _) (Nat.le_refl _) unclosed).bind ?_
  rintro parsed rest _ - ⟨suffix, rfl⟩
  cases rest with
  | nil => exact .ok ⟨rfl, rfl⟩
  | cons t rest =>
      have ne : t.kind ≠ .endOfFile := unclosed t (suffix.subset List.mem_cons_self)
      have failed (tokens : List Token) (g : Position) :
          require .endOfFile .program ⟨t :: tokens, g⟩ =
            .error (.unexpected (.token .endOfFile .program) t) ⟨tokens, g⟩ := if_neg ne
      rw [bind_of_error (failed rest f), List.cons_append, bind_of_error (failed _ f')]
      exact .error (.inl rfl)

theorem reader_same (r : Phrase) {ts : List Token} (unclosed : ∀ t ∈ ts, t.kind ≠ .endOfFile) :
    Same f f' (Leaves ⟨.endOfFile, f'⟩ r) (r.reader ⟨ts, f⟩)
      (r.reader ⟨ts ++ [⟨.endOfFile, f'⟩], f'⟩) := by
  by_cases whole : r = .program
  · subst whole
    exact program_same unclosed
  · refine (reader_alike whole ts (Nat.zero_le _) (Nat.le_refl _) unclosed).imp ?_
    rintro rest _ ⟨-, rfl⟩
    cases r with
    | program => exact (whole rfl).elim
    | _ => rfl

end Stmt

/-- An exhausted token list is read as one that is closed by an end of the file, wherever that
stands. A reader gives the same tree and leaves the same rest, or it meets a fault in both. The
faults are at the same place if the end of the file is where the last token is. -/
theorem reader_exhausted (r : Phrase) {ts : List Token} (unclosed : ∀ t ∈ ts, t.kind ≠ .endOfFile)
    (place : Position) :
    (∃ t s s', r.reader (.ofTokens ts) = .ok t s ∧
      r.reader (.ofTokens (ts ++ [⟨.endOfFile, place⟩])) = .ok t s' ∧
        Leaves ⟨.endOfFile, place⟩ r s.tokens s'.tokens) ∨
    ∃ e s e' s', r.reader (.ofTokens ts) = .error e s ∧
      r.reader (.ofTokens (ts ++ [⟨.endOfFile, place⟩])) = .error e' s' ∧
        (place = (ts.getLast?.map Token.position).getD .start → e'.position = e.position) := by
  have closed : Stream.ofTokens (ts ++ [⟨.endOfFile, place⟩]) =
      ⟨ts ++ [⟨.endOfFile, place⟩], place⟩ := by
    unfold Stream.ofTokens
    rw [List.getLast?_concat]
    rfl
  have same : Same (Stream.ofTokens ts).finish place (Leaves ⟨.endOfFile, place⟩ r)
      (r.reader (.ofTokens ts)) (r.reader ⟨ts ++ [⟨.endOfFile, place⟩], place⟩) :=
    reader_same r unclosed
  rw [closed]
  generalize r.reader (.ofTokens ts) = x at same
  generalize r.reader ⟨ts ++ [⟨.endOfFile, place⟩], place⟩ = x' at same
  cases same with
  | ok left => exact .inl ⟨_, _, _, rfl, rfl, left⟩
  | error places =>
      refine .inr ⟨_, _, _, _, rfl, rfl, fun here => ?_⟩
      obtain place | ⟨last, last'⟩ := places
      · exact place
      · exact last'.trans (here.trans last.symm)

def unterminated : List Token := [⟨.keyword .ret, ⟨1, 1⟩⟩, ⟨.literal 1, ⟨1, 8⟩⟩]

theorem unterminated_rejected :
    (∀ t ∈ unterminated, t.kind ≠ .endOfFile) ∧
    ∃ e s e' s', statement (.ofTokens unterminated) = .error e s ∧
      statement (.ofTokens (unterminated ++ [⟨.endOfFile, ⟨1, 8⟩⟩])) = .error e' s' ∧
        e'.position = e.position := by
  have unclosed : ∀ t ∈ unterminated, t.kind ≠ .endOfFile := by decide
  refine ⟨unclosed, ?_⟩
  obtain ⟨_, _, _, read, -⟩ | ⟨e, s, e', s', failed, failed', same⟩ :=
    reader_exhausted .statement unclosed ⟨1, 8⟩
  · cases read
  · exact ⟨e, s, e', s', failed, failed', same rfl⟩

/-- The faults are at the same place, but what was expected there may differ. -/
example : onTokens statement [] = .error (.unexpected .statement ⟨.endOfFile, .start⟩) ∧
    onTokens statement [⟨.endOfFile, .start⟩] =
      .error (.unexpected .expression ⟨.endOfFile, .start⟩) := ⟨rfl, rfl⟩

end IntLang.Parser
