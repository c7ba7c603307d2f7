import IntLang.Proofs.Parser.Completeness
import IntLang.Proofs.Parser.Repair
/-!
A reader decides by the tokens that it has taken and the next one. So on two streams that begin
alike it does the same for as long as it stays within their common beginning, whatever is behind it
and however much fuel there is beyond the length of the beginning.
-/
namespace IntLang.Parser

open Token (Kind)

/-- An answer leaves no more tokens than there were, and a fault at least `taken` less. -/
structure Shrinks {α : Type} (taken : Nat) (p : Parser α) : Prop where
  ok : ∀ {s a r}, p s = .ok a r → r.tokens.length ≤ s.tokens.length
  error : ∀ {s e r}, p s = .error e r → r.tokens.length ≤ s.tokens.length - taken

/-- Two readers on streams that begin with the same tokens, at most `n`, and go on with `x` and
`x'`. Where the first leaves more than `x` with its answer, the second gives the same answer and
leaves the same part of the beginning. Where the first meets a fault within the beginning, so does
the second. -/
structure Lockstep (x x' : List Token) (f f' : Position) {α : Type} (taken n : Nat)
    (p p' : Parser α) : Prop where
  shrinks : Shrinks taken p
  ok : ∀ {front a r}, front.length ≤ n → p ⟨front ++ x, f⟩ = .ok a r →
    x.length < r.tokens.length →
    ∃ rest, r = ⟨rest ++ x, f⟩ ∧ p' ⟨front ++ x', f'⟩ = .ok a ⟨rest ++ x', f'⟩
  error : ∀ {front e r}, front.length ≤ n → p ⟨front ++ x, f⟩ = .error e r →
    x.length ≤ r.tokens.length → ∃ e' r', p' ⟨front ++ x', f'⟩ = .error e' r'

section Shrinks

variable {α β : Type} {p : Parser α} {q : α → Parser β} {taken : Nat}

theorem Shrinks.weaken (h : Shrinks taken p) : Shrinks 0 p :=
  ⟨h.ok, fun failed => Nat.le_trans (h.error failed) (Nat.sub_le _ _)⟩

theorem Shrinks.bind (h : Shrinks taken p) (hq : ∀ a, Shrinks taken (q a)) :
    Shrinks taken (p >>= q) := by
  constructor
  · intro s b r run
    obtain ⟨a, s₁, first, second⟩ := bind_eq_ok run
    exact Nat.le_trans ((hq a).ok second) (h.ok first)
  · intro s e r run
    obtain failed | ⟨a, s₁, first, second⟩ := bind_eq_error run
    · exact h.error failed
    · have := (hq a).error second
      have := h.ok first
      omega

theorem Shrinks.pure (a : α) : Shrinks taken (Pure.pure a : Parser α) := by
  constructor
  · intro s b r run
    obtain ⟨-, rfl⟩ := pure_eq_ok run
    exact Nat.le_refl _
  · intro s e r run
    cases run

theorem Shrinks.peek : Shrinks 1 peek := by
  refine ⟨?_, nofun⟩
  rintro s a r ⟨⟩
  exact Nat.le_refl _

theorem Shrinks.next? : Shrinks 1 next? := by
  refine ⟨?_, nofun⟩
  intro s a r run
  obtain rfl : s = r := (EStateM.Result.ok.inj run).2
  exact Nat.le_refl _

theorem Shrinks.throw (e : ParseError) : Shrinks 0 (throw e : Parser α) := by
  constructor <;> intro s a r run <;> cases run
  exact Nat.le_refl _

theorem length_tail (s : Stream) : s.tail.tokens.length = s.tokens.length - 1 := List.length_tail

theorem Reads.length_ge {s s' : Stream} {ks : List Kind} (h : Reads s s' ks) :
    s'.tokens.length ≤ s.tokens.length := by
  obtain ⟨ts, rfl, -, -⟩ := h
  rw [List.length_append]
  exact Nat.le_add_left _ _

/-- A reader whose answers and faults are read off the stream shrinks it. -/
theorem Shrinks.of_faults {beginning : List Kind → Prop}
    (gives : ∀ s a r, p s = .ok a r → ∃ ks, Reads s r ks) (faults : Faults p beginning) :
    Shrinks 1 p := by
  constructor
  · intro s a r run
    obtain ⟨ks, read⟩ := gives s a r run
    exact read.length_ge
  · intro s e r run
    obtain ⟨s₁, ks, read, -, rfl, -⟩ := faults s e r run
    rw [length_tail]
    exact Nat.sub_le_sub_right read.length_ge 1

end Shrinks

/-- A reader that takes one token and decides by nothing else. -/
def Single {α : Type} (p : Parser α) : Prop :=
  ∃ decide : Token → Except ParseError α, ∀ s, p s =
    match decide s.head with
    | .ok a => .ok a s.tail
    | .error e => .error e s.tail

theorem single_take : Single take := ⟨.ok, fun _ => rfl⟩

theorem single_require (k : Kind) (c : Construct) : Single (require k c) := by
  refine ⟨fun t => if t.kind = k then .ok t else .error (.unexpected (.token k c) t), ?_⟩
  intro s
  by_cases h : s.head.kind = k <;> simp [require, h]

theorem single_identifier (c : Construct) : Single (identifier c) := by
  refine ⟨fun t => onTokens (identifier c) [t], ?_⟩
  intro s
  have single (t : Token) : (Stream.ofTokens [t]).head = t := rfl
  cases h : s.head.kind <;> simp [onTokens, EStateM.run, identifier, single, h]

theorem Shrinks.single {α β : Type} {p : Parser α} {q : α → Parser β} (h : Single p)
    (hq : ∀ a, Shrinks 0 (q a)) : Shrinks 1 (p >>= q) := by
  obtain ⟨decide, hp⟩ := h
  constructor
  · intro s b r run
    obtain ⟨a, s₁, first, second⟩ := bind_eq_ok run
    rw [hp] at first
    split at first <;> cases first
    have := (hq a).ok second
    rw [length_tail] at this
    omega
  · intro s e r run
    obtain failed | ⟨a, s₁, first, second⟩ := bind_eq_error run
    · rw [hp] at failed
      split at failed <;> cases failed
      exact Nat.le_of_eq (length_tail s)
    · rw [hp] at first
      split at first <;> cases first
      have := (hq a).error second
      rw [length_tail] at this
      omega

namespace Lockstep

variable {x x' : List Token} {f f' : Position} {α β : Type} {taken n m : Nat}
  {p p' : Parser α} {q q' : α → Parser β}

theorem mono (h : Lockstep x x' f f' taken n p p') (hle : m ≤ n) :
    Lockstep x x' f f' taken m p p' :=
  ⟨h.shrinks, fun hm => h.ok (Nat.le_trans hm hle), fun hm => h.error (Nat.le_trans hm hle)⟩

theorem weaken (h : Lockstep x x' f f' taken n p p') : Lockstep x x' f f' 0 n p p' :=
  ⟨h.shrinks.weaken, h.ok, h.error⟩

theorem pure (a : α) :
    Lockstep x x' f f' taken n (Pure.pure a : Parser α) (Pure.pure a : Parser α) := by
  refine ⟨.pure a, ?_, ?_⟩
  · intro front b r _ run _
    obtain ⟨rfl, rfl⟩ := pure_eq_ok run
    exact ⟨front, rfl, rfl⟩
  · intro front e r _ run _
    cases run

theorem throw (e e' : ParseError) :
    Lockstep x x' f f' 0 n (MonadExcept.throw e : Parser α) (MonadExcept.throw e' : Parser α) := by
  refine ⟨.throw e, ?_, ?_⟩
  · intro front b r _ run _
    cases run
  · intro front e r _ _ _
    exact ⟨_, _, rfl⟩

/-- Behind an answer that has taken `d` tokens, as many fewer are left of the beginning. Some are,
for what goes on from the answer would leave less than `x` otherwise. -/
theorem bind_of_takes (hx : x ≠ []) (d : Nat) (h : Lockstep x x' f f' 1 (n + d) p p')
    (takes : ∀ {s a r}, p s = .ok a r → r.tokens.length + d ≤ s.tokens.length)
    (hq : ∀ a, Lockstep x x' f f' 1 n (q a) (q' a)) :
    Lockstep x x' f f' 1 (n + d) (p >>= q) (p' >>= q') := by
  have positive := List.length_pos_iff.mpr hx
  have onward {front : List Token} {a : α} {s₁ : Stream} (hn : front.length ≤ n + d)
      (first : p ⟨front ++ x, f⟩ = .ok a s₁) (long : x.length < s₁.tokens.length) :
      ∃ rest, rest.length ≤ n ∧ s₁ = ⟨rest ++ x, f⟩ ∧
        p' ⟨front ++ x', f'⟩ = .ok a ⟨rest ++ x', f'⟩ := by
    obtain ⟨rest, rfl, first'⟩ := h.ok hn first long
    have le := takes first
    simp only [List.length_append] at le
    exact ⟨rest, by omega, rfl, first'⟩
  refine ⟨h.shrinks.bind fun a => (hq a).shrinks, ?_, ?_⟩
  · intro front b r hn run long
    obtain ⟨a, s₁, first, second⟩ := bind_eq_ok run
    have le := (hq a).shrinks.ok second
    obtain ⟨rest, hrest, rfl, first'⟩ := onward hn first (by omega)
    rw [bind_of_ok first']
    exact (hq a).ok hrest second long
  · intro front e r hn run within
    obtain failed | ⟨a, s₁, first, second⟩ := bind_eq_error run
    · obtain ⟨e', r', failed'⟩ := h.error hn failed within
      exact ⟨e', r', bind_of_error failed' q'⟩
    · have le := (hq a).shrinks.error second
      obtain ⟨rest, hrest, rfl, first'⟩ := onward hn first (by omega)
      rw [bind_of_ok first']
      exact (hq a).error hrest second within

theorem bind (hx : x ≠ []) (h : Lockstep x x' f f' 1 n p p')
    (hq : ∀ a, Lockstep x x' f f' 1 n (q a) (q' a)) :
    Lockstep x x' f f' 1 n (p >>= q) (p' >>= q') :=
  bind_of_takes hx 0 h h.shrinks.ok hq

/-- What shrinks the stream leaves nothing of an empty beginning. -/
theorem of_cons (hx : x ≠ []) (shrinks : Shrinks 1 p)
    (ok : ∀ {t front a r}, front.length + 1 ≤ n → p ⟨t :: (front ++ x), f⟩ = .ok a r →
      x.length < r.tokens.length →
      ∃ rest, r = ⟨rest ++ x, f⟩ ∧ p' ⟨t :: (front ++ x'), f'⟩ = .ok a ⟨rest ++ x', f'⟩)
    (error : ∀ {t front e r}, front.length + 1 ≤ n → p ⟨t :: (front ++ x), f⟩ = .error e r →
      x.length ≤ r.tokens.length → ∃ e' r', p' ⟨t :: (front ++ x'), f'⟩ = .error e' r') :
    Lockstep x x' f f' 1 n p p' := by
  have positive := List.length_pos_iff.mpr hx
  refine ⟨shrinks, ?_, ?_⟩
  · intro front a r hn run long
    cases front with
    | nil =>
        have : r.tokens.length ≤ x.length := shrinks.ok run
        omega
    | cons t front => exact ok hn run long
  · intro front e r hn run within
    cases front with
    | nil =>
        have : r.tokens.length ≤ x.length - 1 := shrinks.error run
        omega
    | cons t front => exact error hn run within

theorem zero (hx : x ≠ []) (shrinks : Shrinks 1 p) : Lockstep x x' f f' 1 0 p p' :=
  .of_cons hx shrinks nofun nofun

/-- Behind a token that is taken, what goes on may throw a fault at that token. -/
theorem single (hx : x ≠ []) (h : Single p) (hq : ∀ a, Lockstep x x' f f' 0 n (q a) (q' a)) :
    Lockstep x x' f f' 1 (n + 1) (p >>= q) (p >>= q') := by
  have shrinks := Shrinks.single h fun a => (hq a).shrinks
  obtain ⟨decide, hp⟩ := h
  have run (t : Token) (ts : List Token) (g : Position) :
      p ⟨t :: ts, g⟩ = match decide t with
        | .ok a => .ok a ⟨ts, g⟩
        | .error e => .error e ⟨ts, g⟩ := hp _
  refine .of_cons hx shrinks ?_ ?_
  · intro t front b r hn whole long
    obtain ⟨a, s₁, first, second⟩ := bind_eq_ok whole
    rw [run] at first
    have first' := run t (front ++ x') f'
    cases hd : decide t <;> rw [hd] at first first' <;> cases first
    rw [bind_of_ok first']
    exact (hq a).ok (Nat.le_of_succ_le_succ hn) second long
  · intro t front e r hn whole within
    have first' := run t (front ++ x') f'
    obtain failed | ⟨a, s₁, first, second⟩ := bind_eq_error whole
    · rw [run] at failed
      cases hd : decide t <;> rw [hd] at failed first' <;> cases failed
      exact ⟨_, _, bind_of_error first' q'⟩
    · rw [run] at first
      cases hd : decide t <;> rw [hd] at first first' <;> cases first
      rw [bind_of_ok first']
      exact (hq a).error (Nat.le_of_succ_le_succ hn) second within

theorem reject (hx : x ≠ []) (expected : Expectation) :
    Lockstep x x' f f' 1 n (Parser.reject expected : Parser α) (Parser.reject expected) := by
  have faults : Faults (Parser.reject expected : Parser α) fun _ => True :=
    reject_faults expected trivial
  refine .of_cons hx (.of_faults nofun faults) nofun ?_
  intro t front e r _ _ _
  exact ⟨_, _, rfl⟩

theorem peek (hx : x ≠ []) : Lockstep x x' f f' 1 n Parser.peek Parser.peek := by
  refine .of_cons hx .peek ?_ nofun
  rintro t front a r - ⟨⟩ -
  exact ⟨t :: front, rfl, rfl⟩

theorem next? (hx : x ≠ []) : Lockstep x x' f f' 1 n Parser.next? Parser.next? := by
  refine .of_cons hx .next? ?_ nofun
  rintro t front a r - ⟨⟩ -
  exact ⟨t :: front, rfl, rfl⟩

theorem accept_bind (k : Kind) (first second : Parser α) :
    (Parser.accept k >>= fun b => if b = true then first else second) =
      Parser.peek >>= fun kind => if kind = k then take >>= fun _ => first else second := by
  funext s
  rw [bind_of_ok (peek_eq s)]
  by_cases h : s.head.kind = k
  · rw [bind_of_ok (accept_of_head h), if_pos rfl, if_pos h, bind_of_ok (take_eq s)]
  · rw [bind_of_ok (accept_of_ne h), if_neg Bool.false_ne_true, if_neg h]

theorem accept (hx : x ≠ []) (k : Kind) {first first' second second' : Parser α}
    (h : Lockstep x x' f f' 0 n first first') (h' : Lockstep x x' f f' 1 (n + 1) second second') :
    Lockstep x x' f f' 1 (n + 1)
      (Parser.accept k >>= fun b => if b = true then first else second)
      (Parser.accept k >>= fun b => if b = true then first' else second') := by
  rw [accept_bind, accept_bind]
  refine (peek hx).bind hx fun kind => ?_
  split
  · exact .single hx single_take fun _ => h
  · exact h'

end Lockstep

/-- A chain whose operand takes tokens takes no more than there are, whatever stands on its left. -/
theorem chain_shrinks {operand : Parser Expr} (h : Shrinks 1 operand) (level bound : Nat)
    (left : Expr) : Shrinks 1 (chain level operand bound left) := by
  induction bound generalizing left with
  | zero => exact .pure left
  | succ bound ih =>
      unfold chain
      refine Shrinks.peek.bind fun kind => ?_
      cases binaryOp? level kind with
      | none => exact .pure left
      | some op => exact .single single_take fun _ => (h.bind fun right => ih _).weaken

section Expr

variable {x x' : List Token} {f f' : Position} {n k c c' b b' : Nat} (hx : x ≠ [])

include hx

theorem primaryWith_lockstep {expression expression' : Parser Expr}
    (h : Lockstep x x' f f' 1 n expression expression') :
    Lockstep x x' f f' 1 (n + 1) (primaryWith expression) (primaryWith expression') := by
  unfold primaryWith
  refine .single hx single_take fun token => ?_
  cases token.kind with
  | literal value =>
      dsimp only
      cases Word.ofInt? value with
      | none => exact .throw _ _
      | some word => exact .pure _
  | symbol mark =>
      cases mark with
      | leftParen =>
          have close (inner : Expr) : Lockstep x x' f f' 1 (n + 1) _ _ :=
            .single hx (single_require (.symbol .rightParen) .parenthesized)
              fun _ => .pure (Expr.paren token.position inner)
          exact (h.bind hx fun inner => (close inner).mono (Nat.le_succ n)).weaken
      | _ => exact .throw _ _
  | identifier name => exact .pure _
  | _ => exact .throw _ _

theorem unaryWith_lockstep (h : Lockstep x x' f f' 1 n (expressionWithin c) (expressionWithin c'))
    (hk : k ≤ n + 1) (hb : k ≤ b) (hb' : k ≤ b') :
    Lockstep x x' f f' 1 k (unaryWith (expressionWithin c) b)
      (unaryWith (expressionWithin c') b') := by
  induction k generalizing b b' with
  | zero =>
      exact .zero hx (.of_faults
        (fun s e r run => ⟨_, (unaryWith_gives (expressionWithin_gives c) b s e r run).1⟩)
        (unaryWith_faults (expressionWithin_gives c) (expressionWithin_faults c) b))
  | succ k ih =>
      obtain ⟨b, rfl⟩ := Nat.exists_eq_succ_of_ne_zero (by omega : b ≠ 0)
      obtain ⟨b', rfl⟩ := Nat.exists_eq_succ_of_ne_zero (by omega : b' ≠ 0)
      have operand : Lockstep x x' f f' 1 k (unaryWith (expressionWithin c) b)
          (unaryWith (expressionWithin c') b') := ih (by omega) (by omega) (by omega)
      unfold unaryWith
      refine (Lockstep.peek hx).bind hx fun kind => ?_
      cases unaryOp? kind with
      | none => exact (primaryWith_lockstep hx h).mono hk
      | some op =>
          exact .single hx single_take fun token => (operand.bind hx fun _ => .pure _).weaken

theorem chain_lockstep {operand operand' : Parser Expr}
    (h : Lockstep x x' f f' 1 n operand operand') (level : Nat) (hk : k ≤ n) (hb : k ≤ b)
    (hb' : k ≤ b') (left : Expr) :
    Lockstep x x' f f' 1 k (chain level operand b left) (chain level operand' b' left) := by
  induction k generalizing b b' left with
  | zero => exact .zero hx (chain_shrinks h.shrinks level b left)
  | succ k ih =>
      obtain ⟨b, rfl⟩ := Nat.exists_eq_succ_of_ne_zero (by omega : b ≠ 0)
      obtain ⟨b', rfl⟩ := Nat.exists_eq_succ_of_ne_zero (by omega : b' ≠ 0)
      have further (left : Expr) : Lockstep x x' f f' 1 k (chain level operand b left)
          (chain level operand' b' left) := ih (by omega) (by omega) (by omega) left
      unfold chain
      refine (Lockstep.peek hx).bind hx fun kind => ?_
      cases binaryOp? level kind with
      | none => exact .pure left
      | some op =>
          exact .single hx single_take fun _ =>
            ((h.mono (Nat.le_of_succ_le hk)).bind hx fun right => further _).weaken

theorem binaryWith_lockstep (h : Lockstep x x' f f' 1 n (expressionWithin c) (expressionWithin c'))
    (hk : k ≤ n + 1) (hb : k ≤ b) (hb' : k ≤ b') (level : Nat) :
    Lockstep x x' f f' 1 k (binaryWith (expressionWithin c) b level)
      (binaryWith (expressionWithin c') b' level) := by
  induction level with
  | zero => exact unaryWith_lockstep hx h hk hb hb'
  | succ level ih =>
      exact ih.bind hx fun left => chain_lockstep hx ih (level + 1) (Nat.le_refl k) hb hb' left

theorem conditionalWith_lockstep
    (h : Lockstep x x' f f' 1 n (expressionWithin c) (expressionWithin c')) (hk : k ≤ n + 1)
    (hb : k ≤ b) (hb' : k ≤ b') :
    Lockstep x x' f f' 1 k (conditionalWith (expressionWithin c) b)
      (conditionalWith (expressionWithin c') b') := by
  induction k generalizing b b' with
  | zero =>
      exact .zero hx (.of_faults
        (fun s e r run => ⟨_, (conditionalWith_gives (expressionWithin_gives c) b s e r run).1⟩)
        (conditionalWith_faults (expressionWithin_gives c) (expressionWithin_faults c) b))
  | succ k ih =>
      obtain ⟨b, rfl⟩ := Nat.exists_eq_succ_of_ne_zero (by omega : b ≠ 0)
      obtain ⟨b', rfl⟩ := Nat.exists_eq_succ_of_ne_zero (by omega : b' ≠ 0)
      have last : Lockstep x x' f f' 1 k (conditionalWith (expressionWithin c) b)
          (conditionalWith (expressionWithin c') b') := ih (by omega) (by omega) (by omega)
      refine (binaryWith_lockstep hx h hk hb hb' _).bind hx fun condition => ?_
      have arms (whenTrue : Expr) : Lockstep x x' f f' 1 (k + 1) _ _ :=
        .single hx (single_require (.symbol .colon) .conditional) fun _ => (last.bind hx
          fun whenFalse =>
            .pure (Expr.conditional condition.position condition whenTrue whenFalse)).weaken
      exact .accept hx (.symbol .question)
        ((h.mono (Nat.le_of_succ_le_succ hk)).bind hx
          fun whenTrue => (arms whenTrue).mono (Nat.le_succ k)).weaken (.pure condition)

theorem expressionWithin_lockstep (hb : n ≤ b) (hb' : n ≤ b') :
    Lockstep x x' f f' 1 n (expressionWithin b) (expressionWithin b') := by
  induction n generalizing b b' with
  | zero =>
      exact .zero hx (.of_faults
        (fun s e r run => ⟨_, (expressionWithin_gives b s e r run).1⟩) (expressionWithin_faults b))
  | succ n ih =>
      obtain ⟨b, rfl⟩ := Nat.exists_eq_succ_of_ne_zero (by omega : b ≠ 0)
      obtain ⟨b', rfl⟩ := Nat.exists_eq_succ_of_ne_zero (by omega : b' ≠ 0)
      have inner : Lockstep x x' f f' 1 n (expressionWithin b) (expressionWithin b') :=
        ih (by omega) (by omega)
      refine (conditionalWith_lockstep hx inner (Nat.le_refl _) hb hb').bind hx fun target => ?_
      refine (Lockstep.peek hx).bind hx fun kind => ?_
      split
      · refine .single hx single_take fun token => ?_
        cases target with
        | var position name => exact (inner.bind hx fun value => .pure _).weaken
        | _ => exact .throw _ _
      · exact .pure target

end Expr

section Stmt

variable {x x' : List Token} {f f' : Position} {n b b' : Nat} (hx : x ≠ [])

include hx

theorem require_lockstep {α : Type} (k : Kind) (c : Construct) (a : Token → α) :
    Lockstep x x' f f' 1 n (require k c >>= fun t => pure (a t))
      (require k c >>= fun t => pure (a t)) :=
  (Lockstep.single hx (single_require k c) fun t => .pure (a t)).mono (Nat.le_succ n)

theorem terminated_lockstep (hb : n ≤ b) (hb' : n ≤ b') (construct : Construct)
    (made : Expr → Stmt) :
    Lockstep x x' f f' 1 n (terminated b construct made) (terminated b' construct made) :=
  (expressionWithin_lockstep hx hb hb').bind hx fun value =>
    require_lockstep hx (.symbol .semicolon) construct fun _ => made value

theorem alternative_lockstep
    (h : Lockstep x x' f f' 1 n (statementWithin b) (statementWithin b')) (position : Position)
    (condition : Expr) (whenTrue : Stmt) :
    Lockstep x x' f f' 1 (n + 1) (alternative b position condition whenTrue)
      (alternative b' position condition whenTrue) :=
  .accept hx (.keyword .alt) (h.bind hx fun _ => .pure _).weaken (.pure _)

theorem test_lockstep (arm : Lockstep x x' f f' 1 n (statementWithin b) (statementWithin b'))
    (hb : n ≤ b) (hb' : n ≤ b') (position : Position) :
    Lockstep x x' f f' 1 n (test b position) (test b' position) := by
  have closed (condition : Expr) : Lockstep x x' f f' 1 (n + 1) _ _ :=
    .single hx (single_require (.symbol .rightParen) .ifStatement) fun _ =>
      (arm.bind hx fun whenTrue =>
        (alternative_lockstep hx arm position condition whenTrue).mono (Nat.le_succ n)).weaken
  have opened : Lockstep x x' f f' 1 (n + 1) _ _ :=
    .single hx (single_require (.symbol .leftParen) .ifStatement) fun _ =>
      ((expressionWithin_lockstep hx hb hb').bind hx
        fun condition => (closed condition).mono (Nat.le_succ n)).weaken
  exact opened.mono (Nat.le_succ n)

theorem statementWithin_lockstep (hb : n ≤ b) (hb' : n ≤ b') :
    Lockstep x x' f f' 1 n (statementWithin b) (statementWithin b') := by
  induction n generalizing b b' with
  | zero =>
      exact .zero hx (.of_faults
        (fun s e r run => ⟨_, (statementWithin_gives b s e r run).1⟩) (statementWithin_faults b))
  | succ n ih =>
      obtain ⟨b, rfl⟩ := Nat.exists_eq_succ_of_ne_zero (by omega : b ≠ 0)
      obtain ⟨b', rfl⟩ := Nat.exists_eq_succ_of_ne_zero (by omega : b' ≠ 0)
      have hn : n ≤ b := Nat.le_of_succ_le_succ hb
      have hn' : n ≤ b' := Nat.le_of_succ_le_succ hb'
      have arm := ih hn hn'
      unfold statementWithin
      refine (Lockstep.next? hx).bind hx fun found => ?_
      cases found with
      | none => exact .reject hx _
      | some token =>
          have simple : Lockstep x x' f f' 1 (n + 1)
              (terminated (b + 1) .expressionStatement (.expr token.position))
              (terminated (b' + 1) .expressionStatement (.expr token.position)) :=
            terminated_lockstep hx hb hb' _ _
          dsimp only
          cases token.kind with
          | keyword word =>
              cases word with
              | int => exact .reject hx _
              | ret =>
                  exact .single hx single_take fun _ =>
                    (terminated_lockstep hx hn hn' .returnStatement (.ret token.position)).weaken
              | cond =>
                  exact .single hx single_take fun _ =>
                    (test_lockstep hx arm hn hn' token.position).weaken
              | alt => exact simple
          | symbol mark =>
              cases mark with
              | semicolon => exact .single hx single_take fun _ => .pure _
              | _ => exact simple
          | _ => exact simple

theorem initialWithin_lockstep (hb : n ≤ b) (hb' : n ≤ b') :
    Lockstep x x' f f' 1 (n + 1) (initialWithin b) (initialWithin b') :=
  .accept hx (.symbol .assign)
    ((expressionWithin_lockstep hx hb hb').bind hx fun _ => .pure _).weaken (.pure none)

theorem declarationWithin_lockstep (hb : n ≤ b) (hb' : n ≤ b') :
    Lockstep x x' f f' 1 n (declarationWithin b) (declarationWithin b') := by
  have behind (token : Token) (named : String × Position) : Lockstep x x' f f' 1 n _ _ :=
    ((initialWithin_lockstep hx hb hb').mono (Nat.le_succ n)).bind hx fun initial =>
      require_lockstep hx (.symbol .semicolon) .declaration
        fun _ => Stmt.declare token.position named.1 named.2 initial
  have named (token : Token) : Lockstep x x' f f' 1 (n + 1) _ _ :=
    .single hx (single_identifier .declaration) fun named => (behind token named).weaken
  exact (Lockstep.single hx (single_require (.keyword .int) .declaration) fun token =>
    (named token).weaken).mono (Nat.le_add_right n 2)

theorem itemWithin_lockstep (hb : n ≤ b) (hb' : n ≤ b') :
    Lockstep x x' f f' 1 n (itemWithin b) (itemWithin b') := by
  refine (Lockstep.peek hx).bind hx fun kind => ?_
  split
  · exact declarationWithin_lockstep hx hb hb'
  · exact statementWithin_lockstep hx hb hb'

omit hx in
theorem itemWithin_takes {s r : Stream} {a : Stmt} (run : itemWithin b s = .ok a r) :
    r.tokens.length + 1 ≤ s.tokens.length := by
  obtain ⟨read, canonical⟩ := itemWithin_gives run
  obtain ⟨k, ks, hk, -⟩ := Stmt.CanonicalItem.exists_start canonical
  obtain ⟨ts, rfl, kinds, -⟩ := read
  have length := congrArg List.length kinds
  rw [hk, List.length_map, List.length_cons] at length
  rw [List.length_append]
  omega

theorem itemsWithin_lockstep (hb : n ≤ b) (hb' : n ≤ b') :
    Lockstep x x' f f' 1 n (itemsWithin b) (itemsWithin b') := by
  induction n generalizing b b' with
  | zero =>
      exact .zero hx (.of_faults
        (fun s e r run => ⟨_, (itemsWithin_gives run).1⟩) (itemsWithin_faults b))
  | succ n ih =>
      obtain ⟨b, rfl⟩ := Nat.exists_eq_succ_of_ne_zero (by omega : b ≠ 0)
      obtain ⟨b', rfl⟩ := Nat.exists_eq_succ_of_ne_zero (by omega : b' ≠ 0)
      have others : Lockstep x x' f f' 1 n (itemsWithin b) (itemsWithin b') :=
        ih (by omega) (by omega)
      refine (Lockstep.peek hx).bind hx fun kind => ?_
      split
      · exact .pure []
      · exact (itemWithin_lockstep hx hb hb').bind_of_takes hx 1 itemWithin_takes fun item =>
          others.bind hx fun items => .pure (item :: items)

omit hx in
/-- Streams of different lengths give different fuel, of which there is enough for either. -/
theorem remaining_lockstep {α : Type} {q : Nat → Parser α}
    (h : ∀ {n b b'}, n ≤ b → n ≤ b' → Lockstep x x' f f' 1 n (q b) (q b')) :
    Lockstep x x' f f' 1 n (remaining >>= q) (remaining >>= q) := by
  refine ⟨?_, ?_, ?_⟩
  · refine ⟨?_, ?_⟩
    · intro s a r run
      rw [bind_of_ok (remaining_eq s)] at run
      exact (h (Nat.zero_le _) (Nat.le_refl _)).shrinks.ok run
    · intro s e r run
      rw [bind_of_ok (remaining_eq s)] at run
      exact (h (Nat.zero_le _) (Nat.le_refl _)).shrinks.error run
  · intro front a r _ run long
    rw [bind_of_ok (remaining_eq _)] at run ⊢
    have enough (y : List Token) : front.length ≤ (front ++ y).length := by simp
    exact (h (enough x) (enough x')).ok (Nat.le_refl _) run long
  · intro front e r _ run within
    rw [bind_of_ok (remaining_eq _)] at run ⊢
    have enough (y : List Token) : front.length ≤ (front ++ y).length := by simp
    exact (h (enough x) (enough x')).error (Nat.le_refl _) run within

theorem function_lockstep : Lockstep x x' f f' 1 n function function := by
  have body (token : Token) (named : String × Position) : Lockstep x x' f f' 1 n _ _ :=
    remaining_lockstep fun hb hb' => (itemsWithin_lockstep hx hb hb').bind hx fun body =>
      require_lockstep hx (.symbol .rightBrace) .functionBody
        fun _ => (⟨named.1, body, token.position⟩ : Program)
  have opening (token : Token) (named : String × Position) : Lockstep x x' f f' 1 (n + 1) _ _ :=
    .single hx (single_require (.symbol .leftBrace) .functionBody)
      fun _ => (body token named).weaken
  have right (token : Token) (named : String × Position) : Lockstep x x' f f' 1 (n + 2) _ _ :=
    .single hx (single_require (.symbol .rightParen) .functionDefinition)
      fun _ => (opening token named).weaken
  have left (token : Token) (named : String × Position) : Lockstep x x' f f' 1 (n + 3) _ _ :=
    .single hx (single_require (.symbol .leftParen) .functionDefinition)
      fun _ => (right token named).weaken
  have name (token : Token) : Lockstep x x' f f' 1 (n + 4) _ _ :=
    .single hx (single_identifier .functionDefinition) fun named => (left token named).weaken
  exact (Lockstep.single hx (single_require (.keyword .int) .returnType)
    fun token => (name token).weaken).mono (Nat.le_add_right n 5)

theorem program_lockstep : Lockstep x x' f f' 1 n program program :=
  (function_lockstep hx).bind hx fun parsed =>
    require_lockstep hx .endOfFile .program fun _ => parsed

end Stmt

end IntLang.Parser
