import IntLang.Proofs.Parser.Inversion
import IntLang.Proofs.Syntax.Shape
/-!
Whatever a reader answers is a canonical tree that is written with the tokens that it took.
-/
namespace IntLang.Parser

open Token (Kind)

/-- An answer of the reader is canonical, binds no looser than that level, and has the kinds of the
tokens that the reader took. -/
def Gives (p : Parser Expr) (level : Nat) : Prop :=
  ∀ s e s', p s = .ok e s' → Reads s s' e.kinds ∧ e.Canonical ∧ e.level ≤ level

section Expr

variable {expression operand : Parser Expr} {level : Nat}

theorem primaryWith_gives (he : Gives expression level) : Gives (primaryWith expression) 0 := by
  intro s e s' h
  obtain ⟨w, hkind, rfl, rfl⟩ | ⟨name, hkind, rfl, rfl⟩ |
    ⟨inner, s₁, hopen, hinner, hclose, rfl, rfl⟩ := primaryWith_cases h
  · exact ⟨reads_head hkind Kind.noConfusion, trivial, Nat.le_refl 0⟩
  · exact ⟨reads_head hkind Kind.noConfusion, trivial, Nat.le_refl 0⟩
  · obtain ⟨readInner, canonical, -⟩ := he _ _ _ hinner
    have readOpen := reads_head hopen Kind.noConfusion
    have readClose := reads_head hclose Kind.noConfusion
    exact ⟨readOpen.cons (readInner.trans readClose), canonical, Nat.le_refl 0⟩

theorem unaryWith_gives (he : Gives expression level) (bound : Nat) :
    Gives (unaryWith expression bound) 0 := by
  induction bound with
  | zero => exact primaryWith_gives he
  | succ bound ih =>
      intro s e s' h
      obtain ⟨op, operand, hop, hoperand, rfl⟩ | hprimary := unaryWith_cases h
      · obtain ⟨readOperand, canonical, tight⟩ := ih _ _ _ hoperand
        have read := reads_head hop Kind.noConfusion
        exact ⟨read.cons readOperand, ⟨Nat.le_zero.mp tight, canonical⟩, Nat.le_refl 0⟩
      · exact primaryWith_gives he _ _ _ hprimary

theorem chain_gives (ho : Gives operand level) (bound : Nat) {left e : Expr} {s s' : Stream}
    (canonical : left.Canonical) (tight : left.level ≤ level + 1)
    (h : chain (level + 1) operand bound left s = .ok e s') :
    ∃ ks, e.kinds = left.kinds ++ ks ∧ Reads s s' ks ∧ e.Canonical ∧ e.level ≤ level + 1 := by
  induction bound generalizing left s with
  | zero =>
      obtain ⟨rfl, rfl⟩ := pure_eq_ok h
      exact ⟨[], (List.append_nil _).symm, .nil _, canonical, tight⟩
  | succ bound ih =>
      obtain ⟨op, right, s₁, hop, hlevel, hright, hrest⟩ | ⟨rfl, rfl, -⟩ := chain_cases h
      · obtain ⟨readRight, canonicalRight, tightRight⟩ := ho _ _ _ hright
        have joined : (Expr.binary left.position op left right).Canonical := by
          unfold Expr.Canonical
          rw [hlevel]
          exact ⟨⟨tight, canonical⟩, Nat.lt_succ_of_le tightRight, canonicalRight⟩
        obtain ⟨ks, hkinds, readRest, done⟩ := ih joined (Nat.le_of_eq hlevel) hrest
        have read := reads_head hop Kind.noConfusion
        refine ⟨.symbol op.symbol :: (right.kinds ++ ks), ?_,
          read.cons (readRight.trans readRest), done⟩
        rw [hkinds]
        simp only [Expr.kinds, List.append_assoc, List.cons_append]
      · exact ⟨[], (List.append_nil _).symm, .nil _, canonical, tight⟩

theorem binaryWith_gives {n : Nat} (he : Gives expression n) (bound level : Nat) :
    Gives (binaryWith expression bound level) level := by
  induction level with
  | zero => exact unaryWith_gives he bound
  | succ level ih =>
      intro s e s' h
      unfold binaryWith at h
      obtain ⟨left, s₁, hleft, h⟩ := bind_eq_ok h
      obtain ⟨readLeft, canonical, tight⟩ := ih _ _ _ hleft
      obtain ⟨ks, hkinds, readRest, done⟩ :=
        chain_gives ih bound canonical (Nat.le_succ_of_le tight) h
      rw [hkinds]
      exact ⟨readLeft.trans readRest, done⟩

theorem conditionalWith_gives (he : Gives expression level) (bound : Nat) :
    Gives (conditionalWith expression bound) (BinaryOp.loosest + 1) := by
  induction bound with
  | zero =>
      intro s e s' h
      obtain ⟨read, canonical, tight⟩ := binaryWith_gives he 0 BinaryOp.loosest _ _ _ h
      exact ⟨read, canonical, Nat.le_succ_of_le tight⟩
  | succ bound ih =>
      intro s e s' h
      obtain ⟨condition, s₁, hcondition, hrest⟩ := conditionalWith_cases h
      obtain ⟨readCondition, canonical, tight⟩ := binaryWith_gives he _ _ _ _ _ hcondition
      obtain ⟨whenTrue, whenFalse, s₂, hmark, htrue, hcolon, hfalse, rfl⟩ | ⟨rfl, rfl⟩ := hrest
      · obtain ⟨readTrue, canonicalTrue, -⟩ := he _ _ _ htrue
        obtain ⟨readFalse, canonicalFalse, tightFalse⟩ := ih _ _ _ hfalse
        have readMark := reads_head hmark Kind.noConfusion
        have readColon := reads_head hcolon Kind.noConfusion
        refine ⟨readCondition.trans (readMark.cons (readTrue.trans (readColon.cons readFalse))),
          ?_, Nat.le_refl _⟩
        exact ⟨⟨tight, canonical⟩, canonicalTrue, tightFalse, canonicalFalse⟩
      · exact ⟨readCondition, canonical, Nat.le_succ_of_le tight⟩

theorem expressionWithin_gives (bound : Nat) :
    Gives (expressionWithin bound) (BinaryOp.loosest + 2) := by
  induction bound with
  | zero =>
      intro s e s' h
      cases h
  | succ bound ih =>
      intro s e s' h
      obtain ⟨target, s₁, htarget, hrest⟩ := expressionWithin_cases h
      obtain ⟨readTarget, canonical, tight⟩ := conditionalWith_gives ih _ _ _ _ htarget
      obtain ⟨p, name, value, rfl, hmark, hvalue, rfl⟩ | ⟨rfl, rfl⟩ := hrest
      · obtain ⟨readValue, canonicalValue, -⟩ := ih _ _ _ hvalue
        have readMark := reads_head hmark Kind.noConfusion
        exact ⟨readTarget.trans (readMark.cons readValue), canonicalValue, Nat.le_refl _⟩
      · exact ⟨readTarget, canonical, Nat.le_succ_of_le tight⟩

end Expr

section Stmt

/-- An answer of the reader is canonical and has the kinds of the tokens that the reader took. No
`else` is left behind an open statement, whose part it would be. -/
def GivesStmt (p : Parser Stmt) : Prop :=
  ∀ s a s', p s = .ok a s' →
    Reads s s' a.kinds ∧ a.Canonical ∧ (a.isOpen = true → s'.head.kind ≠ .keyword .alt)

section Ends

variable {bound : Nat} {s s' : Stream} {a : Stmt}

theorem terminated_gives {construct : Construct} {made : Expr → Stmt}
    (h : terminated bound construct made s = .ok a s') : ∃ value, a = made value ∧
      value.Canonical ∧ Reads s s' (value.kinds ++ [.symbol .semicolon]) := by
  obtain ⟨value, s₁, hvalue, hclose, rfl, rfl⟩ := terminated_cases h
  obtain ⟨readValue, canonical, -⟩ := expressionWithin_gives bound _ _ _ hvalue
  have readClose := reads_head hclose Kind.noConfusion
  exact ⟨value, rfl, canonical, readValue.trans readClose⟩

theorem alternative_gives {position : Position} {condition : Expr} {whenTrue : Stmt}
    (arms : GivesStmt (statementWithin bound))
    (h : alternative bound position condition whenTrue s = .ok a s') :
    (∃ whenFalse, a = .ifElse position condition whenTrue whenFalse ∧ whenFalse.Canonical ∧
      s.head.kind = .keyword .alt ∧ Reads s s' (.keyword .alt :: whenFalse.kinds) ∧
      (whenFalse.isOpen = true → s'.head.kind ≠ .keyword .alt)) ∨
    (a = .ifThen position condition whenTrue ∧ s' = s ∧ s.head.kind ≠ .keyword .alt) := by
  obtain ⟨whenFalse, halt, hfalse, rfl⟩ | ⟨hnone, rfl, rfl⟩ := alternative_cases h
  · obtain ⟨readFalse, canonical, dangling⟩ := arms _ _ _ hfalse
    have readElse := reads_head halt Kind.noConfusion
    exact .inl ⟨whenFalse, rfl, canonical, halt, readElse.cons readFalse, dangling⟩
  · exact .inr ⟨rfl, rfl, hnone⟩

end Ends

theorem statementWithin_gives (bound : Nat) : GivesStmt (statementWithin bound) := by
  induction bound with
  | zero =>
      intro s a s' h
      cases h
  | succ bound ih =>
      intro s a s' h
      obtain ⟨hret, h⟩ | h | ⟨hmark, rfl, rfl⟩ |
        ⟨condition, whenTrue, s₁, s₂, hcond, hopen, hcondition, hclose, htrue, h⟩ :=
          statementWithin_cases h
      · obtain ⟨value, rfl, canonical, readValue⟩ := terminated_gives h
        have read := reads_head hret Kind.noConfusion
        exact ⟨read.cons readValue, canonical, Bool.noConfusion⟩
      · obtain ⟨value, rfl, canonical, readValue⟩ := terminated_gives h
        exact ⟨readValue, canonical, Bool.noConfusion⟩
      · exact ⟨reads_head hmark Kind.noConfusion, trivial, Bool.noConfusion⟩
      · obtain ⟨readCondition, canonical, -⟩ := expressionWithin_gives bound _ _ _ hcondition
        obtain ⟨readTrue, canonicalTrue, dangling⟩ := ih _ _ _ htrue
        have read := reads_head hcond Kind.noConfusion
        have readLeft := reads_head hopen Kind.noConfusion
        have readRight := reads_head hclose Kind.noConfusion
        have readTest := read.cons (readLeft.cons (readCondition.trans (readRight.cons readTrue)))
        obtain ⟨whenFalse, rfl, canonicalFalse, halt, readFalse, danglingFalse⟩ |
          ⟨rfl, rfl, hnone⟩ := alternative_gives ih h
        · have closed : whenTrue.isOpen = false :=
            eq_false_of_ne_true (fun hopen => dangling hopen halt)
          refine ⟨?_, ⟨canonical, ⟨canonicalTrue, closed⟩, canonicalFalse⟩, danglingFalse⟩
          have readAll := readTest.trans readFalse
          simpa only [Stmt.kinds, List.cons_append, List.append_assoc,
            List.singleton_append] using readAll
        · exact ⟨readTest, ⟨canonical, canonicalTrue⟩, fun _ => hnone⟩

theorem initialWithin_gives {bound : Nat} {s s' : Stream} {initial : Option Expr}
    (h : initialWithin bound s = .ok initial s') :
    Reads s s' (Stmt.initialKinds initial) ∧ ∀ value ∈ initial, value.Canonical := by
  obtain ⟨value, hmark, hvalue, rfl⟩ | ⟨rfl, rfl⟩ := initialWithin_cases h
  · obtain ⟨readValue, canonical, -⟩ := expressionWithin_gives bound _ _ _ hvalue
    have readMark := reads_head hmark Kind.noConfusion
    refine ⟨readMark.cons readValue, ?_⟩
    rintro _ ⟨⟩
    exact canonical
  · refine ⟨.nil _, ?_⟩
    rintro _ ⟨⟩

theorem declarationWithin_gives {bound : Nat} {s s' : Stream} {a : Stmt}
    (h : declarationWithin bound s = .ok a s') : Reads s s' a.kinds ∧ a.CanonicalItem := by
  obtain ⟨name, initial, s₁, hint, hname, hinitial, hclose, rfl, rfl⟩ := declarationWithin_cases h
  obtain ⟨readInitial, canonical⟩ := initialWithin_gives hinitial
  have readToken := reads_head hint Kind.noConfusion
  have readName := reads_head hname Kind.noConfusion
  have readClose := reads_head hclose Kind.noConfusion
  exact ⟨readToken.cons (readName.cons (readInitial.trans readClose)), canonical⟩

theorem itemWithin_gives {bound : Nat} {s s' : Stream} {a : Stmt}
    (h : itemWithin bound s = .ok a s') : Reads s s' a.kinds ∧ a.CanonicalItem := by
  obtain hdeclaration | hstatement := itemWithin_cases h
  · exact declarationWithin_gives hdeclaration
  · obtain ⟨read, canonical, -⟩ := statementWithin_gives bound _ _ _ hstatement
    exact ⟨read, canonical.item⟩

theorem itemsWithin_gives {bound : Nat} {s s' : Stream} {items : List Stmt}
    (h : itemsWithin bound s = .ok items s') :
    Reads s s' (items.flatMap Stmt.kinds) ∧ ∀ a ∈ items, a.CanonicalItem := by
  induction bound generalizing s s' items with
  | zero =>
      obtain ⟨rfl, rfl⟩ := pure_eq_ok h
      exact ⟨.nil _, fun _ => False.elim ∘ List.not_mem_nil⟩
  | succ bound ih =>
      obtain ⟨a, others, s₁, ha, hothers, rfl⟩ | ⟨rfl, rfl, -⟩ := itemsWithin_cases h
      · obtain ⟨readItem, canonical⟩ := itemWithin_gives ha
        obtain ⟨readItems, canonicals⟩ := ih hothers
        exact ⟨readItem.trans readItems, List.forall_mem_cons.mpr ⟨canonical, canonicals⟩⟩
      · exact ⟨.nil _, fun _ => False.elim ∘ List.not_mem_nil⟩

theorem function_gives {s s' : Stream} {p : Program} (h : function s = .ok p s') :
    Reads s s' p.kinds ∧ p.Canonical := by
  obtain ⟨s₁, s₂, hint, hname, hleft, hright, hopening, rfl, hbody, hclosing, -, rfl⟩ :=
    function_cases h
  obtain ⟨readBody, canonical⟩ := itemsWithin_gives hbody
  have readHead := (reads_head hint Kind.noConfusion).cons ((reads_head hname
    Kind.noConfusion).cons ((reads_head hleft Kind.noConfusion).cons ((reads_head hright
      Kind.noConfusion).cons (reads_head hopening Kind.noConfusion))))
  exact ⟨readHead.trans (readBody.trans (reads_head hclosing Kind.noConfusion)), canonical⟩

theorem program_gives {s s' : Stream} {p : Program} (h : program s = .ok p s') :
    p.Canonical ∧ ∃ s₁, Reads s s₁ p.kinds ∧ s₁.head.kind = .endOfFile := by
  obtain ⟨s₁, hfunction, last, -⟩ := program_cases h
  obtain ⟨read, canonical⟩ := function_gives hfunction
  exact ⟨canonical, s₁, read, last⟩

end Stmt

end IntLang.Parser
