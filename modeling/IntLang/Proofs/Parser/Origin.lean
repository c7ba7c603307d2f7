import IntLang.Proofs.Parser.Phrase
import IntLang.Proofs.Parser.Spelling
/-!
Where the nodes of a tree come from. Each node was read from a range of the tokens that a reader
took, and it has the place of the first one.
-/
namespace IntLang

open Token (Kind)

inductive Node
  | expr (e : Expr)
  | stmt (a : Stmt)
  | function (p : Program)
deriving DecidableEq, Repr

namespace Node

def position : Node → Position
  | .expr e => e.position
  | .stmt a => a.position
  | .function p => p.position

def kinds : Node → List Kind
  | .expr e => e.kinds
  | .stmt a => a.kinds
  | .function p => p.kinds

def Spelled : Node → List Token → Prop
  | .expr e => e.Spelled
  | .stmt a => a.Spelled
  | .function p => p.Spelled

end Node

/-- The nodes of an expression that `i` tokens stand in front of, each with the number of tokens in
front of it. -/
def Expr.nodes (i : Nat) (e : Expr) : List (Nat × Node) :=
  (i, .expr e) :: match e with
    | .literal _ _ | .var _ _ => []
    | .assign _ _ value => value.nodes (i + 2)
    | .conditional _ condition whenTrue whenFalse =>
        condition.nodes i ++ whenTrue.nodes (i + condition.kinds.length + 1) ++
          whenFalse.nodes (i + condition.kinds.length + whenTrue.kinds.length + 2)
    | .binary _ _ left right => left.nodes i ++ right.nodes (i + left.kinds.length + 1)
    | .unary _ _ operand => operand.nodes (i + 1)
    | .paren _ inner => inner.nodes (i + 1)

namespace Stmt

def initialNodes (i : Nat) : Option Expr → List (Nat × Node)
  | none => []
  | some value => value.nodes (i + 1)

def nodes (i : Nat) (a : Stmt) : List (Nat × Node) :=
  (i, .stmt a) :: match a with
    | .ret _ value => value.nodes (i + 1)
    | .expr _ value => value.nodes i
    | .empty _ => []
    | .ifThen _ condition whenTrue =>
        condition.nodes (i + 2) ++ whenTrue.nodes (i + condition.kinds.length + 3)
    | .ifElse _ condition whenTrue whenFalse =>
        condition.nodes (i + 2) ++ whenTrue.nodes (i + condition.kinds.length + 3) ++
          whenFalse.nodes (i + condition.kinds.length + whenTrue.kinds.length + 4)
    | .declare _ _ _ initial => initialNodes (i + 2) initial

def allNodes (i : Nat) : List Stmt → List (Nat × Node)
  | [] => []
  | a :: rest => a.nodes i ++ allNodes (i + a.kinds.length) rest

end Stmt

/-- The nodes below a node and itself, each with the number of the tokens of the whole in front of
it. The body of a function begins behind five tokens. -/
def Node.nodes : Node → List (Nat × Node)
  | .expr e => e.nodes 0
  | .stmt a => a.nodes 0
  | .function p => (0, .function p) :: Stmt.allNodes 5 p.body

/-- The node is written with the tokens from `i` on, and has the place of the first of them. -/
def Node.StartsAt (ts : List Token) (i : Nat) (n : Node) : Prop :=
  ∃ us, us <+: ts.drop i ∧ us.map Token.kind = n.kinds ∧
    us.head?.map Token.position = some n.position

/-- Every node below a node, and itself, has the place of the first of its tokens, and every
declared name that of its token. -/
structure Node.Located (n : Node) (ts : List Token) : Prop where
  starts : ∀ part ∈ n.nodes, part.2.StartsAt ts part.1
  named : ∀ i p name q initial, (i, .stmt (.declare p name q initial)) ∈ n.nodes →
    ts[i + 1]? = some ⟨.identifier name, q⟩

section Spelled

theorem Expr.Spelled.kinds_eq {e : Expr} {ts : List Token} (h : e.Spelled ts) :
    ts.map Token.kind = e.kinds := by
  induction h <;> simp_all [Expr.kinds]

theorem Stmt.Spelled.kinds_eq {a : Stmt} {ts : List Token} (h : a.Spelled ts) :
    ts.map Token.kind = a.kinds := by
  induction h with
  | declare initial =>
      cases initial with
      | none => rfl
      | some value => simp [Stmt.kinds, Stmt.initialKinds, value.kinds_eq]
  | ret value | expr value => simp [Stmt.kinds, value.kinds_eq]
  | empty => rfl
  | ifThen condition _ ih | ifElse condition _ _ ih _ => simp_all [Stmt.kinds, condition.kinds_eq]

theorem Stmt.AllSpelled.kinds_eq {items : List Stmt} {ts : List Token}
    (h : Stmt.AllSpelled items ts) : ts.map Token.kind = items.flatMap Stmt.kinds := by
  induction h with
  | nil => rfl
  | cons first _ ih => rw [List.map_append, first.kinds_eq, ih, List.flatMap_cons]

theorem Node.Spelled.kinds_eq {n : Node} {ts : List Token} (h : n.Spelled ts) :
    ts.map Token.kind = n.kinds := by
  cases n with
  | expr e => exact Expr.Spelled.kinds_eq h
  | stmt a => exact Stmt.Spelled.kinds_eq h
  | function p =>
      cases h with
      | intro body => simp [Node.kinds, Program.kinds, body.kinds_eq]

theorem Stmt.Spelled.head {a : Stmt} {ts : List Token} (h : a.Spelled ts) :
    ts.head?.map Token.position = some a.position := by
  cases h with
  | expr value =>
      obtain ⟨t, rest, rfl, place⟩ := value.head
      exact congrArg some place
  | _ => rfl

theorem Node.Spelled.head {n : Node} {ts : List Token} (h : n.Spelled ts) :
    ts.head?.map Token.position = some n.position := by
  cases n with
  | expr e =>
      obtain ⟨t, rest, rfl, place⟩ := Expr.Spelled.head h
      exact congrArg some place
  | stmt a => exact Stmt.Spelled.head h
  | function p =>
      cases h
      rfl

end Spelled

/-- The nodes are written with parts of the tokens `ts`, which `i` tokens stand in front of. -/
def Within (i : Nat) (ts : List Token) (nodes : List (Nat × Node)) : Prop :=
  ∀ n ∈ nodes, ∃ front us behind, ts = front ++ (us ++ behind) ∧ n.1 = i + front.length ∧
    n.2.Spelled us

section Within

variable {i j : Nat} {ts whole : List Token} {nodes more : List (Nat × Node)}

theorem Within.nil : Within i ts [] := List.forall_mem_nil _

theorem Within.cons {n : Node} (h : n.Spelled ts) (below : Within i ts nodes) :
    Within i ts ((i, n) :: nodes) :=
  List.forall_mem_cons.mpr ⟨⟨[], ts, [], (List.append_nil ts).symm, rfl, h⟩, below⟩

theorem Within.append (h : Within i ts nodes) (h' : Within i ts more) :
    Within i ts (nodes ++ more) := List.forall_mem_append.mpr ⟨h, h'⟩

/-- Nodes within a part are nodes within the whole. -/
theorem Within.embed (h : Within j ts nodes) (pre post : List Token)
    (split : whole = pre ++ (ts ++ post)) (offset : j = i + pre.length) :
    Within i whole nodes := by
  intro n hn
  obtain ⟨front, us, behind, rfl, number, spelled⟩ := h n hn
  refine ⟨pre ++ front, us, behind ++ post, ?_, ?_, spelled⟩
  · simp only [split, List.append_assoc]
  · rw [number, offset, List.length_append, Nat.add_assoc]

theorem Within.behind (h : Within j ts nodes) (pre : List Token) (split : whole = pre ++ ts)
    (offset : j = i + pre.length) : Within i whole nodes :=
  h.embed pre [] (by rw [split, List.append_nil]) offset

theorem length_eq {ks : List Kind} (h : ts.map Token.kind = ks) : ks.length = ts.length := by
  rw [← h, List.length_map]

end Within

theorem Expr.Spelled.within {e : Expr} {ts : List Token} (h : e.Spelled ts) (i : Nat) :
    Within i ts (e.nodes i) := by
  induction h generalizing i with
  | literal => exact .cons .literal .nil
  | var => exact .cons .var .nil
  | assign value ih =>
      exact .cons (.assign value) ((ih _).behind [_, _] rfl rfl)
  | @conditional q q' _ _ _ ts ts₁ ts₂ condition whenTrue whenFalse ihc iht ihf =>
      have front := length_eq condition.kinds_eq
      have between := length_eq whenTrue.kinds_eq
      refine .cons (.conditional condition whenTrue whenFalse) (.append (.append ?_ ?_) ?_)
      · exact (ihc i).embed [] _ rfl rfl
      · exact (iht _).embed (ts ++ [⟨.symbol .question, q⟩]) (⟨.symbol .colon, q'⟩ :: ts₂)
          (by simp) (by simp [front, Nat.add_assoc])
      · exact (ihf _).behind (ts ++ ⟨.symbol .question, q⟩ :: (ts₁ ++ [⟨.symbol .colon, q'⟩]))
          (by simp) (by simp [front, between]; omega)
  | @binary q op _ _ ts ts₁ left right ihl ihr =>
      have front := length_eq left.kinds_eq
      refine .cons (.binary left right) (.append ?_ ?_)
      · exact (ihl i).embed [] _ rfl rfl
      · exact (ihr _).behind (ts ++ [⟨.symbol op.symbol, q⟩]) (by simp)
          (by simp [front, Nat.add_assoc])
  | unary operand ih => exact .cons (.unary operand) ((ih _).behind [_] rfl rfl)
  | paren inner ih => exact .cons (.paren inner) ((ih _).embed [_] [_] rfl rfl)

theorem Stmt.InitialSpelled.within {initial : Option Expr} {ts : List Token}
    (h : Stmt.InitialSpelled initial ts) (i : Nat) :
    Within i ts (Stmt.initialNodes i initial) := by
  cases h with
  | none => exact .nil
  | some value => exact (value.within _).behind [_] rfl rfl

theorem Stmt.Spelled.within {a : Stmt} {ts : List Token} (h : a.Spelled ts) (i : Nat) :
    Within i ts (a.nodes i) := by
  induction h generalizing i with
  | ret value => exact .cons (.ret value) ((value.within _).embed [_] [_] rfl rfl)
  | expr value => exact .cons (.expr value) ((value.within _).embed [] [_] rfl rfl)
  | empty => exact .cons .empty .nil
  | @ifThen p q q' _ _ ts ts₁ condition whenTrue ih =>
      have front := length_eq condition.kinds_eq
      refine .cons (.ifThen condition whenTrue) (.append ?_ ?_)
      · exact (condition.within _).embed [_, _] _ rfl rfl
      · exact (ih _).behind (⟨.keyword .cond, p⟩ :: ⟨.symbol .leftParen, q⟩ ::
          (ts ++ [⟨.symbol .rightParen, q'⟩])) (by simp) (by simp [front]; omega)
  | @ifElse p q q' q'' _ _ _ ts ts₁ ts₂ condition whenTrue whenFalse iht ihf =>
      have front := length_eq condition.kinds_eq
      have between := length_eq whenTrue.kinds_eq
      refine .cons (.ifElse condition whenTrue whenFalse) (.append (.append ?_ ?_) ?_)
      · exact (condition.within _).embed [_, _] _ rfl rfl
      · exact (iht _).embed (⟨.keyword .cond, p⟩ :: ⟨.symbol .leftParen, q⟩ ::
          (ts ++ [⟨.symbol .rightParen, q'⟩])) (⟨.keyword .alt, q''⟩ :: ts₂) (by simp)
          (by simp [front]; omega)
      · exact (ihf _).behind (⟨.keyword .cond, p⟩ :: ⟨.symbol .leftParen, q⟩ ::
          (ts ++ ⟨.symbol .rightParen, q'⟩ :: (ts₁ ++ [⟨.keyword .alt, q''⟩]))) (by simp)
          (by simp [front, between]; omega)
  | declare initial => exact .cons (.declare initial) ((initial.within _).embed [_, _] [_] rfl rfl)

theorem Stmt.AllSpelled.within {items : List Stmt} {ts : List Token}
    (h : Stmt.AllSpelled items ts) (i : Nat) : Within i ts (Stmt.allNodes i items) := by
  induction h generalizing i with
  | nil => exact .nil
  | @cons _ _ ts ts₁ first _ ih =>
      refine .append ((first.within i).embed [] ts₁ rfl rfl) ((ih _).behind ts rfl ?_)
      rw [length_eq first.kinds_eq]

theorem Node.Spelled.within {n : Node} {ts : List Token} (h : n.Spelled ts) :
    Within 0 ts n.nodes := by
  cases n with
  | expr e => exact Expr.Spelled.within h 0
  | stmt a => exact Stmt.Spelled.within h 0
  | function p =>
      refine .cons h ?_
      cases h with
      | intro body => exact (body.within 5).embed [_, _, _, _, _] [_] rfl rfl

theorem Node.Spelled.located {n : Node} {ts : List Token} (h : n.Spelled ts) : n.Located ts := by
  have within := h.within
  constructor
  · rintro ⟨i, part⟩ hpart
    obtain ⟨front, us, behind, rfl, number, spelled⟩ := within _ hpart
    obtain rfl : i = front.length := number.trans (Nat.zero_add _)
    refine ⟨us, ?_, spelled.kinds_eq, spelled.head⟩
    rw [List.drop_left]
    exact List.prefix_append us behind
  · intro i p name q initial hpart
    obtain ⟨front, us, behind, rfl, number, spelled⟩ := within _ hpart
    obtain rfl : i = front.length := number.trans (Nat.zero_add _)
    cases spelled with
    | declare => simp

def Phrase.node : (r : Phrase) → r.Tree → Node
  | .program, p | .function, p => .function p
  | .item, a | .declaration, a | .statement, a => .stmt a
  | .expression, e | .conditional, e | .binary _, e | .unary, e | .primary, e => .expr e

namespace Parser

variable {r : Phrase} {t : r.Tree} {s s' : Stream}

/-- But for a program, a reader answers what it took the tokens of. -/
theorem reader_spells (h : r.reader s = .ok t s') (inner : r ≠ .program) :
    ∃ ts, Took s s' ts ∧ (r.node t).Spelled ts := by
  cases r with
  | program => exact (inner rfl).elim
  | function => exact function_spells h
  | item =>
      change (remaining >>= itemWithin) s = _ at h
      rw [remaining_bind] at h
      exact itemWithin_spells h
  | declaration =>
      change (remaining >>= declarationWithin) s = _ at h
      rw [remaining_bind] at h
      exact declarationWithin_spells h
  | statement =>
      change (remaining >>= statementWithin) s = _ at h
      rw [remaining_bind] at h
      exact statementWithin_spells h
  | expression =>
      change (remaining >>= expressionWithin) s = _ at h
      rw [remaining_bind] at h
      exact expressionWithin_spells _ _ _ _ h
  | conditional =>
      change (remaining >>= fun n => conditionalWith (expressionWithin n) n) s = _ at h
      rw [remaining_bind] at h
      exact conditionalWith_spells (expressionWithin_spells _) _ _ _ _ h
  | binary op =>
      change (remaining >>= fun n => binaryWith (expressionWithin n) n op.looseness) s = _ at h
      rw [remaining_bind] at h
      exact binaryWith_spells (expressionWithin_spells _) _ _ _ _ _ h
  | unary =>
      change (remaining >>= fun n => unaryWith (expressionWithin n) n) s = _ at h
      rw [remaining_bind] at h
      exact unaryWith_spells (expressionWithin_spells _) _ _ _ _ h
  | primary =>
      change (remaining >>= fun n => primaryWith (expressionWithin n)) s = _ at h
      rw [remaining_bind] at h
      exact primaryWith_spells (expressionWithin_spells _) _ _ _ h

/-- Every node of what a reader answers, at any depth, was read from a range of the tokens that the
reader took, and has the place of the first token of the range; the place of a declared name is that
of its token. Behind the tokens of a program the end of the file is taken as well. -/
theorem reader_locates (h : r.reader s = .ok t s') : ∃ taken closing,
    s.tokens = taken ++ (closing ++ s'.tokens) ∧
      (closing.map Token.kind = r.closing ∨ closing = [] ∧ s'.tokens = []) ∧
        (r.node t).Located taken := by
  by_cases inner : r = .program
  · subst inner
    obtain ⟨⟨tokens, finish⟩, hfunction, last, rfl⟩ := program_cases h
    obtain ⟨taken, rfl, spelled⟩ := function_spells hfunction
    have located : (Node.function t).Located taken := Node.Spelled.located spelled
    cases tokens with
    | nil => exact ⟨taken, [], rfl, .inr ⟨rfl, rfl⟩, located⟩
    | cons eof rest =>
        exact ⟨taken, [eof], rfl, .inl (congrArg (fun k => [k]) last), located⟩
  · obtain ⟨taken, rfl, spelled⟩ := reader_spells h inner
    refine ⟨taken, [], rfl, .inl ?_, spelled.located⟩
    cases r with
    | program => exact (inner rfl).elim
    | _ => rfl

/-- An `if` in front of an assignment, whose value is chosen by a difference of three. -/
def guardedChoice : List Token :=
  [⟨.keyword .cond, ⟨1, 1⟩⟩, ⟨.symbol .leftParen, ⟨1, 4⟩⟩, ⟨.identifier "a", ⟨1, 5⟩⟩,
    ⟨.symbol .rightParen, ⟨1, 6⟩⟩, ⟨.identifier "b", ⟨2, 3⟩⟩, ⟨.symbol .assign, ⟨2, 5⟩⟩,
    ⟨.identifier "a", ⟨2, 7⟩⟩, ⟨.symbol .minus, ⟨2, 9⟩⟩, ⟨.literal 1, ⟨2, 11⟩⟩,
    ⟨.symbol .minus, ⟨2, 13⟩⟩, ⟨.literal 2, ⟨2, 15⟩⟩, ⟨.symbol .question, ⟨2, 17⟩⟩,
    ⟨.symbol .leftParen, ⟨2, 19⟩⟩, ⟨.literal 3, ⟨2, 20⟩⟩, ⟨.symbol .rightParen, ⟨2, 21⟩⟩,
    ⟨.symbol .colon, ⟨2, 23⟩⟩, ⟨.literal 4, ⟨2, 25⟩⟩, ⟨.symbol .semicolon, ⟨2, 26⟩⟩]

/-- The statement and the assignment start at the target; the choice and both differences start at
their first operand. -/
def guardedChoiceTree : Stmt :=
  .ifThen ⟨1, 1⟩ (.var ⟨1, 5⟩ "a") (.expr ⟨2, 3⟩ (.assign ⟨2, 3⟩ "b" (.conditional ⟨2, 7⟩
    (.binary ⟨2, 7⟩ .sub (.binary ⟨2, 7⟩ .sub (.var ⟨2, 7⟩ "a") (.literal ⟨2, 11⟩ 1))
      (.literal ⟨2, 15⟩ 2))
    (.paren ⟨2, 19⟩ (.literal ⟨2, 20⟩ 3)) (.literal ⟨2, 25⟩ 4))))

theorem guardedChoice_located :
    Phrase.statement.reader (.ofTokens guardedChoice) = .ok guardedChoiceTree ⟨[], ⟨2, 26⟩⟩ ∧
      (Node.stmt guardedChoiceTree).Located guardedChoice ∧
      (Node.stmt guardedChoiceTree).nodes.map (fun n => (n.1, n.2.position)) =
        [(0, ⟨1, 1⟩), (2, ⟨1, 5⟩), (4, ⟨2, 3⟩), (4, ⟨2, 3⟩), (6, ⟨2, 7⟩), (6, ⟨2, 7⟩), (6, ⟨2, 7⟩),
          (6, ⟨2, 7⟩), (8, ⟨2, 11⟩), (10, ⟨2, 15⟩), (12, ⟨2, 19⟩), (13, ⟨2, 20⟩), (16, ⟨2, 25⟩)] := by
  have read : Phrase.statement.reader (.ofTokens guardedChoice) =
      .ok guardedChoiceTree ⟨[], ⟨2, 26⟩⟩ := rfl
  obtain ⟨taken, closing, split, ended, located⟩ := reader_locates read
  have none : closing = [] := ended.elim List.map_eq_nil_iff.mp And.left
  subst none
  have same : taken = guardedChoice := (List.append_nil taken).symm.trans split.symm
  subst same
  exact ⟨read, located, rfl⟩

end Parser

end IntLang
