import IntLang.Proofs.Parser.Soundness
/-!
Every canonical tree is read from the tokens that it is written with, as long as the token behind
them does not go on with it.
-/
namespace IntLang.Parser

open Token (Kind)

/-- The level of the expressions that a token of that kind goes on with. -/
def joins? : Kind → Option Nat
  | .symbol .question => some (BinaryOp.loosest + 1)
  | .symbol .assign => some (BinaryOp.loosest + 2)
  | .symbol s => (BinaryOp.ofSymbol? s).map BinaryOp.looseness
  | _ => none

/-- A token of that kind goes on with no expression up to that level. -/
def Closes (level : Nat) (k : Kind) : Prop := ∀ n ∈ joins? k, level < n

section Closes

variable {level n : Nat} {k : Kind}

theorem Closes.mono (h : Closes level k) (hn : n ≤ level) : Closes n k :=
  fun m hm => Nat.lt_of_le_of_lt hn (h m hm)

theorem Closes.of_none (h : joins? k = none) : Closes level k := by
  intro n hn
  rw [h] at hn
  cases hn

theorem joins?_operator (op : BinaryOp) : joins? (.symbol op.symbol) = some op.looseness := by
  cases op <;> rfl

theorem Closes.operator {op : BinaryOp} (h : level < op.looseness) :
    Closes level (.symbol op.symbol) := by
  intro n hn
  rw [joins?_operator] at hn
  cases hn
  exact h

theorem closes_question : Closes BinaryOp.loosest (.symbol .question) := by
  rintro n ⟨⟩
  exact Nat.lt_succ_self _

theorem closes_assign : Closes (BinaryOp.loosest + 1) (.symbol .assign) := by
  rintro n ⟨⟩
  exact Nat.lt_succ_self _

theorem Closes.ne_question (h : Closes (BinaryOp.loosest + 1) k) : k ≠ .symbol .question := by
  rintro rfl
  exact Nat.lt_irrefl _ (h _ rfl)

theorem Closes.ne_assign (h : Closes (BinaryOp.loosest + 2) k) : k ≠ .symbol .assign := by
  rintro rfl
  exact Nat.lt_irrefl _ (h _ rfl)

theorem Closes.binaryOp?_eq_none (h : Closes level k) (hn : n ≤ level) : binaryOp? n k = none := by
  cases hop : binaryOp? n k with
  | none => rfl
  | some op =>
      obtain ⟨rfl, rfl⟩ := binaryOp?_eq_some.mp hop
      exact absurd (h _ (joins?_operator op)) (Nat.not_lt_of_le hn)

end Closes

/-- The reader answers that tree, but for its places, from the tokens up to `s'`. -/
def Parses {α : Type} (p : Parser α) (bare : α → α) (a : α) (s s' : Stream) : Prop :=
  ∃ a', p s = .ok a' s' ∧ bare a' = bare a

/-- The reader answers every canonical expression up to that level of at most that many tokens. -/
def Ready (p : Parser Expr) (level size : Nat) : Prop :=
  ∀ e s s', e.Canonical → e.level ≤ level → e.kinds.length ≤ size → Reads s s' e.kinds →
    Closes level s'.head.kind → Parses p Expr.bare e s s'

section Expr

variable {expression : Parser Expr} {size bound level : Nat} {e : Expr} {s s' : Stream}

theorem primaryWith_parses (ready : Ready expression (BinaryOp.loosest + 2) size)
    (primary : e.isPrimary = true) (canonical : e.Canonical)
    (short : e.kinds.length ≤ size + 1) (read : Reads s s' e.kinds) :
    Parses (primaryWith expression) Expr.bare e s s' := by
  unfold primaryWith Parses
  rw [bind_of_ok (take_eq s)]
  cases e with
  | literal p w =>
      obtain ⟨hkind, rest⟩ := read.uncons
      obtain rfl := rest.eq_of_nil
      rw [hkind]
      simp only [Word.ofInt?_toInt]
      exact ⟨_, rfl, rfl⟩
  | var p name =>
      obtain ⟨hkind, rest⟩ := read.uncons
      obtain rfl := rest.eq_of_nil
      rw [hkind]
      exact ⟨_, rfl, rfl⟩
  | paren p inner =>
      obtain ⟨hkind, rest⟩ := read.uncons
      obtain ⟨s₁, readInner, rest⟩ := rest.split
      obtain ⟨hclose, rest⟩ := rest.uncons
      obtain rfl := rest.eq_of_nil
      have closes : Closes (BinaryOp.loosest + 2) s₁.head.kind := by
        rw [hclose]
        exact .of_none rfl
      have shorter : inner.kinds.length ≤ size := by
        simp only [Expr.kinds, List.length_cons, List.length_append] at short
        omega
      obtain ⟨e', parsed, same⟩ := ready inner _ _ canonical inner.level_le shorter readInner closes
      rw [hkind]
      refine ⟨.paren s.head.position e', ?_, ?_⟩
      · change (expression >>= _) s.tail = _
        rw [bind_of_ok parsed, bind_of_ok (require_of_head hclose _)]
        rfl
      · rw [Expr.bare, same, Expr.bare]
  | _ => cases primary

theorem unaryOp?_of_isPrimary (primary : e.isPrimary = true) {k : Kind} {ks : List Kind}
    (hk : e.kinds = k :: ks) : unaryOp? k = none := by
  cases e with
  | literal | var | paren =>
      cases hk
      rfl
  | _ => cases primary

theorem unaryWith_parses (ready : Ready expression (BinaryOp.loosest + 2) size)
    (tight : e.level = 0) (canonical : e.Canonical) (short : e.kinds.length ≤ size + 1)
    (fuel : e.kinds.length ≤ bound + 1) (read : Reads s s' e.kinds) :
    Parses (unaryWith expression bound) Expr.bare e s s' := by
  induction bound generalizing e s with
  | zero =>
      obtain primary | ⟨p, op, operand, rfl⟩ := Expr.isPrimary_or_unary tight
      · exact primaryWith_parses ready primary canonical short read
      · obtain ⟨k, ks, hk, -⟩ := operand.exists_start
        simp only [Expr.kinds, hk, List.length_cons] at fuel
        omega
  | succ bound ih =>
      obtain ⟨k, ks, hk, -⟩ := e.exists_start
      have hkind := (hk ▸ read).uncons.1
      have peeked := peek_eq s
      rw [hkind] at peeked
      obtain primary | ⟨p, op, operand, rfl⟩ := Expr.isPrimary_or_unary tight
      · have parsed := primaryWith_parses ready primary canonical short read
        unfold unaryWith Parses
        rw [bind_of_ok peeked]
        simp only [unaryOp?_of_isPrimary primary hk]
        exact parsed
      · obtain ⟨-, rest⟩ := read.uncons
        obtain ⟨tightOperand, canonicalOperand⟩ := canonical
        cases hk
        simp only [Expr.kinds, List.length_cons] at short fuel
        obtain ⟨e', parsed, same⟩ := ih tightOperand canonicalOperand (by omega) (by omega) rest
        refine ⟨.unary s.head.position op e', ?_, ?_⟩
        · unfold unaryWith
          rw [bind_of_ok peeked]
          simp only [unaryOp?_eq_some.mpr rfl]
          rw [bind_of_ok (take_eq s), bind_of_ok parsed]
          rfl
        · rw [Expr.bare, same, Expr.bare]

/-- The operators of that looseness in a row on the left. -/
def spine (looseness : Nat) : Expr → Nat
  | .binary _ op left _ => if op.looseness = looseness then spine looseness left + 1 else 0
  | _ => 0

theorem spine_le (looseness : Nat) (e : Expr) : spine looseness e ≤ e.kinds.length := by
  induction e with
  | binary _ op left _ ih _ =>
      unfold spine
      split
      · simp only [Expr.kinds, List.length_append, List.length_cons]
        omega
      · exact Nat.zero_le _
  | _ => exact Nat.zero_le _

theorem spine_of_lt {looseness : Nat} (h : e.level < looseness) : spine looseness e = 0 := by
  cases e with
  | binary _ op _ _ => exact if_neg (Nat.ne_of_lt h)
  | _ => rfl

/-- The leftmost operand is read first; the chain then takes up the operators on its right one by
one, whatever fuel is left to it behind them. -/
theorem chain_parses {operand : Parser Expr} (ready : Ready operand level size)
    (hlevel : level < BinaryOp.loosest) (canonical : e.Canonical) (tight : e.level ≤ level + 1)
    (short : e.kinds.length ≤ size) (read : Reads s s' e.kinds)
    (closes : Closes level s'.head.kind) :
    ∃ left s₁ e', operand s = .ok left s₁ ∧ e'.bare = e.bare ∧ ∀ fuel,
      chain (level + 1) operand (spine (level + 1) e + fuel) left s₁ =
        chain (level + 1) operand fuel e' s' := by
  have tighter {e : Expr} {s' : Stream} (canonical : e.Canonical) (tight : e.level < level + 1)
      (short : e.kinds.length ≤ size) (read : Reads s s' e.kinds)
      (closes : Closes level s'.head.kind) :
      ∃ left s₁ e', operand s = .ok left s₁ ∧ e'.bare = e.bare ∧ ∀ fuel,
        chain (level + 1) operand (spine (level + 1) e + fuel) left s₁ =
          chain (level + 1) operand fuel e' s' := by
    obtain ⟨e', parsed, same⟩ :=
      ready e s s' canonical (Nat.le_of_lt_succ tight) short read closes
    refine ⟨e', s', e', parsed, same, ?_⟩
    intro fuel
    rw [spine_of_lt tight, Nat.zero_add]
  induction e generalizing s' with
  | binary p op left right ihl _ =>
      rcases Nat.lt_or_eq_of_le tight with lower | same
      · exact tighter canonical lower short read closes
      · change op.looseness = level + 1 at same
        obtain ⟨⟨tightLeft, canonicalLeft⟩, tightRight, canonicalRight⟩ := canonical
        rw [same] at tightLeft tightRight
        obtain ⟨s₁, readLeft, rest⟩ := read.split
        obtain ⟨hop, readRight⟩ := rest.uncons
        simp only [Expr.kinds, List.length_append, List.length_cons] at short
        have closesLeft : Closes level s₁.head.kind := by
          rw [hop]
          exact .operator (by omega)
        obtain ⟨first, s₂, left', parsedFirst, sameLeft, steps⟩ :=
          ihl canonicalLeft tightLeft (by omega) readLeft closesLeft
        obtain ⟨right', parsedRight, sameRight⟩ := ready right _ _ canonicalRight
          (Nat.le_of_lt_succ tightRight) (by omega) readRight closes
        refine ⟨first, s₂, .binary left'.position op left' right', parsedFirst, ?_, ?_⟩
        · rw [Expr.bare, sameLeft, sameRight, Expr.bare]
        · intro fuel
          have next : binaryOp? (level + 1) s₁.head.kind = some op :=
            binaryOp?_eq_some.mpr ⟨hop, same⟩
          rw [spine, if_pos same, Nat.add_assoc, steps, Nat.add_comm 1 fuel, chain,
            bind_of_ok (peek_eq s₁)]
          simp only [next]
          rw [bind_of_ok (take_eq s₁), bind_of_ok parsedRight]
  | conditional | assign => exact absurd tight (by simp only [Expr.level]; omega)
  | _ => exact tighter canonical (Nat.succ_pos _) short read closes

theorem binaryWith_parses (ready : Ready expression (BinaryOp.loosest + 2) size)
    (fuel : bound ≤ size + 1) (hlevel : level ≤ BinaryOp.loosest) :
    Ready (binaryWith expression bound level) level bound := by
  induction level with
  | zero =>
      intro e s s' canonical tight short read _
      exact unaryWith_parses ready (Nat.le_zero.mp tight) canonical (Nat.le_trans short fuel)
        (Nat.le_succ_of_le short) read
  | succ level ih =>
      intro e s s' canonical tight short read closes
      obtain ⟨left, s₁, e', parsed, same, steps⟩ := chain_parses (ih (Nat.le_of_lt hlevel)) hlevel
        canonical tight short read (closes.mono (Nat.le_succ level))
      refine ⟨e', ?_, same⟩
      obtain ⟨fuel, hfuel⟩ := Nat.exists_eq_add_of_le (Nat.le_trans (spine_le (level + 1) e) short)
      have last : chain (level + 1) (binaryWith expression bound level) fuel e' s' = .ok e' s' := by
        cases fuel with
        | zero => rfl
        | succ fuel =>
            rw [chain, bind_of_ok (peek_eq s')]
            simp only [closes.binaryOp?_eq_none (Nat.le_refl _)]
            rfl
      have run := steps fuel
      rw [← hfuel] at run
      rw [binaryWith, bind_of_ok parsed, run, last]

theorem conditionalWith_parses (ready : Ready expression (BinaryOp.loosest + 2) size)
    (fuel : bound ≤ size + 1) :
    Ready (conditionalWith expression bound) (BinaryOp.loosest + 1) bound := by
  induction bound with
  | zero =>
      intro e s s' _ _ short _ _
      obtain ⟨k, ks, hk, -⟩ := e.exists_start
      rw [hk] at short
      cases short
  | succ bound ih =>
      have binary := binaryWith_parses ready fuel (Nat.le_refl BinaryOp.loosest)
      intro e s s' canonical tight short read closes
      rcases Nat.lt_or_eq_of_le tight with lower | same
      · obtain ⟨e', parsed, same⟩ := binary e s s' canonical (Nat.le_of_lt_succ lower) short read
          (closes.mono (Nat.le_succ _))
        refine ⟨e', ?_, same⟩
        rw [conditionalWith, bind_of_ok parsed, bind_of_ok (accept_of_ne closes.ne_question),
          if_neg Bool.false_ne_true]
        rfl
      · obtain ⟨p, condition, whenTrue, whenFalse, rfl⟩ := Expr.exists_conditional same
        obtain ⟨⟨tightCondition, canonicalCondition⟩, canonicalTrue, tightFalse,
          canonicalFalse⟩ := canonical
        obtain ⟨s₁, readCondition, rest⟩ := read.split
        obtain ⟨hmark, rest⟩ := rest.uncons
        obtain ⟨s₂, readTrue, rest⟩ := rest.split
        obtain ⟨hcolon, readFalse⟩ := rest.uncons
        simp only [Expr.kinds, List.length_append, List.length_cons] at short
        have closesTrue : Closes (BinaryOp.loosest + 2) s₂.head.kind := by
          rw [hcolon]
          exact .of_none rfl
        obtain ⟨condition', parsedCondition, sameCondition⟩ := binary condition _ _
          canonicalCondition tightCondition (by omega) readCondition (hmark ▸ closes_question)
        obtain ⟨whenTrue', parsedTrue, sameTrue⟩ := ready whenTrue _ _ canonicalTrue
          whenTrue.level_le (by omega) readTrue closesTrue
        obtain ⟨whenFalse', parsedFalse, sameFalse⟩ := ih (by omega) whenFalse _ _
          canonicalFalse tightFalse (by omega) readFalse closes
        refine ⟨.conditional condition'.position condition' whenTrue' whenFalse', ?_, ?_⟩
        · rw [conditionalWith, bind_of_ok parsedCondition, bind_of_ok (accept_of_head hmark),
            if_pos rfl, bind_of_ok parsedTrue, bind_of_ok (require_of_head hcolon _),
            bind_of_ok parsedFalse]
          rfl
        · rw [Expr.bare, sameCondition, sameTrue, sameFalse, Expr.bare]

theorem eq_var_of_bare {e : Expr} {p : Position} {name : String}
    (h : e.bare = (Expr.var p name).bare) : ∃ q, e = .var q name := by
  cases e with
  | var q other =>
      cases h
      exact ⟨q, rfl⟩
  | _ => cases h

/-- The target of an assignment is read as a conditional that turns out to be a variable. -/
theorem expressionWithin_parses (bound : Nat) :
    Ready (expressionWithin bound) (BinaryOp.loosest + 2) bound := by
  induction bound with
  | zero =>
      intro e s s' _ _ short _ _
      obtain ⟨k, ks, hk, -⟩ := e.exists_start
      rw [hk] at short
      cases short
  | succ bound ih =>
      have conditional := conditionalWith_parses ih (Nat.le_refl (bound + 1))
      intro e s s' canonical tight short read closes
      rcases Nat.lt_or_eq_of_le tight with lower | same
      · obtain ⟨e', parsed, same⟩ := conditional e s s' canonical (Nat.le_of_lt_succ lower) short
          read (closes.mono (Nat.le_succ _))
        refine ⟨e', ?_, same⟩
        rw [expressionWithin, bind_of_ok parsed,
          bind_of_ok (peek_eq s'), if_neg closes.ne_assign]
        rfl
      · obtain ⟨p, target, value, rfl⟩ := Expr.exists_assign same
        have parts : Reads s s' ([.identifier target] ++ .symbol .assign :: value.kinds) := read
        obtain ⟨s₁, readTarget, rest⟩ := parts.split
        obtain ⟨hmark, readValue⟩ := rest.uncons
        simp only [Expr.kinds, List.length_cons] at short
        obtain ⟨target', parsedTarget, sameTarget⟩ := conditional (.var p target) s s₁ trivial
          (Nat.zero_le _) (Nat.le_add_left 1 bound) readTarget (hmark ▸ closes_assign)
        obtain ⟨q, rfl⟩ := eq_var_of_bare sameTarget
        obtain ⟨value', parsedValue, sameValue⟩ := ih value _ _ canonical value.level_le
          (by omega) readValue closes
        refine ⟨.assign q target value', ?_, ?_⟩
        · rw [expressionWithin, bind_of_ok parsedTarget,
            bind_of_ok (peek_eq s₁), if_pos hmark,
            bind_of_ok (take_eq s₁)]
          change (expressionWithin bound >>= _) s₁.tail = _
          rw [bind_of_ok parsedValue]
          rfl
        · rw [Expr.bare, sameValue, Expr.bare]

end Expr

section Stmt

variable {bound : Nat} {s s' : Stream} {a : Stmt}

theorem statementWithin_of_start {k : Kind} {ks : List Kind} (read : Reads s s' (k :: ks))
    (start : Expr.starts k = true) :
    statementWithin (bound + 1) s =
      terminated (bound + 1) .expressionStatement (.expr s.head.position) s := by
  rw [statementWithin, bind_of_ok read.next?]
  obtain ⟨rfl, -⟩ := read.uncons
  cases hkind : s.head.kind with
  | keyword word =>
      rw [hkind] at start
      cases start
  | symbol mark =>
      rw [hkind] at start
      cases mark with
      | semicolon => cases start
      | _ =>
          simp only [hkind]
          rfl
  | _ =>
      simp only [hkind]
      rfl

theorem terminated_parses {value : Expr} (canonical : value.Canonical)
    (short : value.kinds.length ≤ bound) (read : Reads s s' (value.kinds ++ [.symbol .semicolon]))
    (construct : Construct) (made : Expr → Stmt) : ∃ value', value'.bare = value.bare ∧
      terminated bound construct made s = .ok (made value') s' := by
  obtain ⟨s₁, readValue, rest⟩ := read.split
  obtain ⟨hclose, rest⟩ := rest.uncons
  obtain rfl := rest.eq_of_nil
  obtain ⟨value', parsed, same⟩ := expressionWithin_parses bound value _ _ canonical
    value.level_le short readValue (hclose ▸ .of_none rfl)
  refine ⟨value', same, ?_⟩
  rw [terminated, bind_of_ok parsed, bind_of_ok (require_of_head hclose _)]
  rfl

theorem statementWithin_of_cond {condition : Expr} {whenTrue : Stmt} {s₁ s₂ : Stream}
    (canonical : condition.Canonical) (short : condition.kinds.length ≤ bound)
    (read : Reads s s₁ (.keyword .cond :: .symbol .leftParen ::
      (condition.kinds ++ [.symbol .rightParen])))
    (parsed : statementWithin bound s₁ = .ok whenTrue s₂) :
    ∃ condition', condition'.bare = condition.bare ∧ statementWithin (bound + 1) s =
      alternative bound s.head.position condition' whenTrue s₂ := by
  have found := read.next?
  obtain ⟨hkind, rest⟩ := read.uncons
  obtain ⟨hopen, rest⟩ := rest.uncons
  obtain ⟨s₃, readCondition, rest⟩ := rest.split
  obtain ⟨hclose, rest⟩ := rest.uncons
  obtain rfl := rest.eq_of_nil
  obtain ⟨condition', parsedCondition, same⟩ := expressionWithin_parses bound condition _ _
    canonical condition.level_le short readCondition (hclose ▸ .of_none rfl)
  refine ⟨condition', same, ?_⟩
  rw [statementWithin, bind_of_ok found]
  simp only [hkind]
  rw [bind_of_ok (take_eq s), bind_of_ok (require_of_head hopen _), bind_of_ok parsedCondition,
    bind_of_ok (require_of_head hclose _), bind_of_ok parsed]
  rfl

theorem statementWithin_parses (canonical : a.Canonical) (short : a.kinds.length ≤ bound)
    (read : Reads s s' a.kinds) (closes : a.isOpen = true → s'.head.kind ≠ .keyword .alt) :
    Parses (statementWithin bound) Stmt.bare a s s' := by
  induction bound generalizing a s s' with
  | zero =>
      obtain ⟨k, ks, hk, -⟩ := canonical.exists_start
      rw [hk] at short
      cases short
  | succ bound ih =>
      cases a with
      | ret p value =>
          have found := read.next?
          obtain ⟨hkind, rest⟩ := read.uncons
          simp only [Stmt.kinds, List.length_cons, List.length_append] at short
          obtain ⟨value', same, parsed⟩ := terminated_parses canonical
            (show _ ≤ bound by omega) rest .returnStatement (.ret s.head.position)
          refine ⟨.ret s.head.position value', ?_, ?_⟩
          · rw [statementWithin, bind_of_ok found]
            simp only [hkind]
            rw [bind_of_ok (take_eq s)]
            exact parsed
          · rw [Stmt.bare, same, Stmt.bare]
      | expr p value =>
          obtain ⟨k, ks, hk, start⟩ := value.exists_start
          have first : Reads s s' (k :: (ks ++ [.symbol .semicolon])) := by
            simpa only [Stmt.kinds, hk, List.cons_append] using read
          simp only [Stmt.kinds, List.length_cons, List.length_append] at short
          obtain ⟨value', same, parsed⟩ := terminated_parses canonical
            (show _ ≤ bound + 1 by omega) read .expressionStatement (.expr s.head.position)
          refine ⟨.expr s.head.position value', ?_, ?_⟩
          · rw [statementWithin_of_start first start]
            exact parsed
          · rw [Stmt.bare, same, Stmt.bare]
      | empty p =>
          have found := read.next?
          obtain ⟨hkind, rest⟩ := read.uncons
          obtain rfl := rest.eq_of_nil
          refine ⟨.empty s.head.position, ?_, rfl⟩
          rw [statementWithin, bind_of_ok found]
          simp only [hkind]
          rw [bind_of_ok (take_eq s)]
          rfl
      | ifThen p condition whenTrue =>
          obtain ⟨canonicalCondition, canonicalTrue⟩ := canonical
          simp only [Stmt.kinds, List.length_cons, List.length_append] at short
          have test : Reads s s' ((.keyword .cond :: .symbol .leftParen ::
              (condition.kinds ++ [.symbol .rightParen])) ++ whenTrue.kinds) := by
            simpa only [Stmt.kinds, List.cons_append, List.append_assoc, List.nil_append] using read
          obtain ⟨s₁, readTest, readTrue⟩ := test.split
          obtain ⟨whenTrue', parsedTrue, sameTrue⟩ :=
            ih canonicalTrue (by omega) readTrue (fun _ => closes rfl)
          obtain ⟨condition', same, run⟩ :=
            statementWithin_of_cond canonicalCondition (by omega) readTest parsedTrue
          refine ⟨.ifThen s.head.position condition' whenTrue', ?_, ?_⟩
          · rw [run, alternative, bind_of_ok (accept_of_ne (closes rfl)),
              if_neg Bool.false_ne_true]
            rfl
          · rw [Stmt.bare, same, sameTrue, Stmt.bare]
      | ifElse p condition whenTrue whenFalse =>
          obtain ⟨canonicalCondition, ⟨canonicalTrue, closed⟩, canonicalFalse⟩ := canonical
          simp only [Stmt.kinds, List.length_cons, List.length_append] at short
          have test : Reads s s' ((.keyword .cond :: .symbol .leftParen ::
              (condition.kinds ++ [.symbol .rightParen])) ++
              (whenTrue.kinds ++ .keyword .alt :: whenFalse.kinds)) := by
            simpa only [Stmt.kinds, List.cons_append, List.append_assoc, List.nil_append] using read
          obtain ⟨s₁, readTest, rest⟩ := test.split
          obtain ⟨s₂, readTrue, rest⟩ := rest.split
          obtain ⟨halt, readFalse⟩ := rest.uncons
          obtain ⟨whenTrue', parsedTrue, sameTrue⟩ := ih canonicalTrue (by omega) readTrue
            (fun dangling => absurd dangling (by rw [closed]; exact Bool.false_ne_true))
          obtain ⟨whenFalse', parsedFalse, sameFalse⟩ :=
            ih canonicalFalse (by omega) readFalse closes
          obtain ⟨condition', same, run⟩ :=
            statementWithin_of_cond canonicalCondition (by omega) readTest parsedTrue
          refine ⟨.ifElse s.head.position condition' whenTrue' whenFalse', ?_, ?_⟩
          · rw [run, alternative, bind_of_ok (accept_of_head halt), if_pos rfl,
              bind_of_ok parsedFalse]
            rfl
          · rw [Stmt.bare, same, sameTrue, sameFalse, Stmt.bare]
      | declare => exact canonical.elim

theorem initialWithin_parses {initial : Option Expr}
    (canonical : ∀ value ∈ initial, value.Canonical)
    (short : (Stmt.initialKinds initial).length ≤ bound)
    (read : Reads s s' (Stmt.initialKinds initial)) (hclose : s'.head.kind = .symbol .semicolon) :
    Parses (initialWithin bound) (Option.map Expr.bare) initial s s' := by
  cases initial with
  | none =>
      obtain rfl := read.eq_of_nil
      refine ⟨none, ?_, rfl⟩
      rw [initialWithin, bind_of_ok (accept_of_ne (by rw [hclose]; exact fun h => by cases h)),
        if_neg Bool.false_ne_true]
      rfl
  | some value =>
      obtain ⟨hmark, readValue⟩ := read.uncons
      obtain ⟨value', parsed, same⟩ := expressionWithin_parses bound value _ _ (canonical value rfl)
        value.level_le (Nat.le_of_succ_le short) readValue (hclose ▸ .of_none rfl)
      refine ⟨some value', ?_, congrArg some same⟩
      rw [initialWithin, bind_of_ok (accept_of_head hmark), if_pos rfl, bind_of_ok parsed]
      rfl

theorem itemWithin_parses (canonical : a.CanonicalItem) (short : a.kinds.length ≤ bound)
    (read : Reads s s' a.kinds) (closes : a.isOpen = true → s'.head.kind ≠ .keyword .alt) :
    Parses (itemWithin bound) Stmt.bare a s s' := by
  by_cases declares : ∃ p name q initial, a = .declare p name q initial
  · obtain ⟨p, name, q, initial, rfl⟩ := declares
    obtain ⟨hint, rest⟩ := read.uncons
    obtain ⟨hname, rest⟩ := rest.uncons
    obtain ⟨s₁, readInitial, rest⟩ := rest.split
    obtain ⟨hclose, rest⟩ := rest.uncons
    obtain rfl := rest.eq_of_nil
    simp only [Stmt.kinds, List.length_cons, List.length_append] at short
    obtain ⟨initial', parsed, same⟩ :=
      initialWithin_parses canonical (show _ ≤ bound by omega) readInitial hclose
    refine ⟨.declare s.head.position name s.tail.head.position initial', ?_, ?_⟩
    · rw [itemWithin, bind_of_ok (peek_eq s), if_pos hint, declarationWithin,
        bind_of_ok (require_of_head hint _), bind_of_ok (identifier_of_head hname _)]
      change (initialWithin bound >>= _) s.tail.tail = _
      rw [bind_of_ok parsed, bind_of_ok (require_of_head hclose _)]
      rfl
    · rw [Stmt.bare, same, Stmt.bare]
  · have statement : a.Canonical := by
      cases a with
      | declare p name q initial => exact absurd ⟨p, name, q, initial, rfl⟩ declares
      | _ => exact canonical
    obtain ⟨k, ks, hk, start⟩ := statement.exists_start
    have hkind := (hk ▸ read).uncons.1
    have hint : s.head.kind ≠ .keyword .int := by
      rw [hkind]
      rintro rfl
      cases start
    obtain ⟨a', parsed, same⟩ := statementWithin_parses statement short read closes
    refine ⟨a', ?_, same⟩
    rw [itemWithin, bind_of_ok (peek_eq s), if_neg hint, parsed]

theorem Stmt.CanonicalItem.exists_start (canonical : a.CanonicalItem) : ∃ k ks, a.kinds = k :: ks ∧
    k ≠ .keyword .alt ∧ k ≠ .symbol .rightBrace ∧ k ≠ .endOfFile := by
  by_cases statement : a.Canonical
  · obtain ⟨k, ks, hk, start⟩ := Stmt.Canonical.exists_start statement
    refine ⟨k, ks, hk, ?_, ?_, ?_⟩ <;> rintro rfl <;> cases start
  · cases a with
    | declare => exact ⟨_, _, rfl, by decide, by decide, by decide⟩
    | _ => exact absurd canonical statement

/-- No item starts with `else`, and neither does what closes them. -/
theorem head_ne_alt {items : List Stmt} (canonical : ∀ a ∈ items, a.CanonicalItem)
    (read : Reads s s' (items.flatMap Stmt.kinds)) (hclose : s'.head.kind = .symbol .rightBrace) :
    s.head.kind ≠ .keyword .alt := by
  cases items with
  | nil =>
      obtain rfl := read.eq_of_nil
      rw [hclose]
      decide
  | cons a items =>
      obtain ⟨k, ks, hk, notElse, -, -⟩ :=
        Stmt.CanonicalItem.exists_start (canonical a List.mem_cons_self)
      rw [List.flatMap_cons, hk] at read
      rw [read.uncons.1]
      exact notElse

theorem itemsWithin_parses {items : List Stmt} (canonical : ∀ a ∈ items, a.CanonicalItem)
    (short : (items.flatMap Stmt.kinds).length ≤ bound)
    (read : Reads s s' (items.flatMap Stmt.kinds)) (hclose : s'.head.kind = .symbol .rightBrace) :
    Parses (itemsWithin bound) (List.map Stmt.bare) items s s' := by
  induction items generalizing bound s with
  | nil =>
      obtain rfl := read.eq_of_nil
      refine ⟨[], ?_, rfl⟩
      cases bound with
      | zero => rfl
      | succ bound =>
          rw [itemsWithin, bind_of_ok (peek_eq s), if_pos (.inl hclose)]
          rfl
  | cons a items ih =>
      obtain ⟨first, others⟩ := List.forall_mem_cons.mp canonical
      obtain ⟨k, ks, hk, -, notBrace, notEnd⟩ := Stmt.CanonicalItem.exists_start first
      rw [List.flatMap_cons] at read
      obtain ⟨s₁, readItem, readItems⟩ := read.split
      have hkind := (hk ▸ readItem).uncons.1
      rw [List.flatMap_cons, List.length_append, hk, List.length_cons] at short
      obtain ⟨bound, rfl⟩ := Nat.exists_eq_succ_of_ne_zero (by omega : bound ≠ 0)
      have closes (_ : a.isOpen = true) := head_ne_alt others readItems hclose
      have shortItem : a.kinds.length ≤ bound + 1 := by
        rw [hk, List.length_cons]
        omega
      obtain ⟨a', parsed, same⟩ := itemWithin_parses first shortItem readItem closes
      obtain ⟨items', parsedItems, sameItems⟩ := ih others (show _ ≤ bound by omega) readItems
      refine ⟨a' :: items', ?_, ?_⟩
      · rw [itemsWithin, bind_of_ok (peek_eq s), if_neg, bind_of_ok parsed, bind_of_ok parsedItems]
        · rfl
        · rw [hkind]
          exact fun h => h.elim notBrace notEnd
      · rw [List.map_cons, List.map_cons, same, sameItems]

theorem function_parses {p : Program} (canonical : p.Canonical) (read : Reads s s' p.kinds) :
    Parses function Program.bare p s s' := by
  obtain ⟨hint, rest⟩ := read.uncons
  obtain ⟨hname, rest⟩ := rest.uncons
  obtain ⟨hleft, rest⟩ := rest.uncons
  obtain ⟨hright, rest⟩ := rest.uncons
  obtain ⟨hopen, rest⟩ := rest.uncons
  obtain ⟨s₁, readBody, rest⟩ := rest.split
  obtain ⟨hclose, rest⟩ := rest.uncons
  obtain rfl := rest.eq_of_nil
  obtain ⟨body, parsed, same⟩ :=
    itemsWithin_parses canonical readBody.length_le readBody hclose
  refine ⟨⟨p.name, body, s.head.position⟩, ?_, ?_⟩
  · rw [function, bind_of_ok (require_of_head hint _), bind_of_ok (identifier_of_head hname _)]
    change (require (.symbol .leftParen) .functionDefinition >>= _) s.tail.tail = _
    rw [bind_of_ok (require_of_head hleft _), bind_of_ok (require_of_head hright _),
      bind_of_ok (require_of_head hopen _), bind_of_ok (remaining_eq _), bind_of_ok parsed,
      bind_of_ok (require_of_head hclose _)]
    rfl
  · rw [Program.bare, same, Program.bare]

theorem program_parses {p : Program} (canonical : p.Canonical) (read : Reads s s' p.kinds)
    (hend : s'.head.kind = .endOfFile) : Parses program Program.bare p s s'.tail := by
  obtain ⟨p', parsed, same⟩ := function_parses canonical read
  refine ⟨p', ?_, same⟩
  rw [program, bind_of_ok parsed, bind_of_ok (require_of_head hend _)]
  rfl

end Stmt

end IntLang.Parser
