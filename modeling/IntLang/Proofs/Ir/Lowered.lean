import IntLang.Ir.Lowering
import IntLang.Proofs.Stateful
import IntLang.Proofs.Syntax.Evaluation
/-!
Lowering as a relation between a tree, the walk before it, its code and the walk behind it: one
rule for each construct, and nothing of the monad. Whatever is said of lowered code is proved by
induction over these rules.
-/
namespace IntLang.Ir

def Walk.bump (w : Walk) : Walk := { w with nextLabel := w.nextLabel + 1 }

def Walk.declare (w : Walk) (name : String) : Walk := { w with scope := ⟨w.scope.names ++ [name]⟩ }

@[simp] theorem Walk.bump_scope (w : Walk) : w.bump.scope = w.scope := rfl

@[simp] theorem Walk.declare_nextLabel (w : Walk) (name : String) :
    (w.declare name).nextLabel = w.nextLabel := rfl

/-- `ExprLowers e w code w'`: from the walk `w`, the expression becomes `code` and leads to
`w'`. -/
inductive ExprLowers : Expr → Walk → List Op → Walk → Prop
  | literal {p v w} : ExprLowers (.literal p v) w [.push v] w
  | var {p name w k} : w.scope.slot? name = some k →
      ExprLowers (.var p name) w [.frameAddr k, .load] w
  | assign {p target value w code w' k} : ExprLowers value w code w' →
      w'.scope.slot? target = some k →
      ExprLowers (.assign p target value) w (code ++ [.frameAddr k, .store]) w'
  | conditional {p condition whenTrue whenFalse w test w₁ first w₂ second w₃} :
      ExprLowers condition w.bump test w₁ → ExprLowers whenTrue w₁ first w₂ →
      ExprLowers whenFalse w₂ second w₃ →
      ExprLowers (.conditional p condition whenTrue whenFalse) w
        (test ++ Lower.choice w.nextLabel first second) w₃
  | binary {p op left right w first w₁ second w₂} : ExprLowers left w first w₁ →
      ExprLowers right w₁ second w₂ →
      ExprLowers (.binary p op left right) w (first ++ second ++ [.binary op]) w₂
  | unary {p op operand w code w'} : ExprLowers operand w code w' →
      ExprLowers (.unary p op operand) w (code ++ [.unary op]) w'
  | paren {p inner w code w'} : ExprLowers inner w code w' →
      ExprLowers (.paren p inner) w code w'

/-- `StmtLowers s w code w'`: from the walk `w`, the statement becomes `code` and leads to
`w'`. -/
inductive StmtLowers : Stmt → Walk → List Op → Walk → Prop
  | ret {p value w code w'} : ExprLowers value w code w' →
      StmtLowers (.ret p value) w (code ++ [.ret]) w'
  | expr {p value w code w'} : ExprLowers value w code w' →
      StmtLowers (.expr p value) w (code ++ [.pop]) w'
  | empty {p w} : StmtLowers (.empty p) w [] w
  | ifThen {p condition whenTrue w test w₁ first w₂} : ExprLowers condition w.bump test w₁ →
      StmtLowers whenTrue w₁ first w₂ →
      StmtLowers (.ifThen p condition whenTrue) w (test ++ Lower.guarded w.nextLabel first) w₂
  | ifElse {p condition whenTrue whenFalse w test w₁ first w₂ second w₃} :
      ExprLowers condition w.bump test w₁ → StmtLowers whenTrue w₁ first w₂ →
      StmtLowers whenFalse w₂ second w₃ →
      StmtLowers (.ifElse p condition whenTrue whenFalse) w
        (test ++ Lower.choice w.nextLabel first second) w₃
  | declare {p name q w} : name ∉ w.scope.names →
      StmtLowers (.declare p name q none) w [.push 0, .frameAddr w.scope.size, .store, .pop]
        (w.declare name)
  | declareInitial {p name q value w code w'} : ExprLowers value w code w' →
      name ∉ w'.scope.names →
      StmtLowers (.declare p name q (some value)) w
        (code ++ [.frameAddr w'.scope.size, .store, .pop]) (w'.declare name)

inductive StmtsLower : List Stmt → Walk → List Op → Walk → Prop
  | nil {w} : StmtsLower [] w [] w
  | cons {s rest w first w₁ others w₂} : StmtLowers s w first w₁ → StmtsLower rest w₁ others w₂ →
      StmtsLower (s :: rest) w (first ++ others) w₂

section Monad

variable {w w' : Walk}

theorem lookup_eq_ok {name : String} {access : Access} {p : Position} {k : UInt32}
    (h : Lower.lookup name access p w = .ok k w') : w.scope.slot? name = some k ∧ w = w' := by
  simp only [Lower.lookup, Scope.lookup] at h
  cases hs : w.scope.slot? name with
  | some k' =>
      rw [hs] at h
      cases h
      exact ⟨rfl, rfl⟩
  | none =>
      rw [hs] at h
      cases h

theorem declare_eq_ok {name : String} {p : Position} {k : UInt32}
    (h : Lower.declare name p w = .ok k w') :
    name ∉ w.scope.names ∧ k = w.scope.size ∧ w' = w.declare name := by
  simp only [Lower.declare, Scope.declare] at h
  by_cases hn : name ∈ w.scope.names
  · rw [if_pos hn] at h
    cases h
  · rw [if_neg hn] at h
    cases h
    exact ⟨hn, rfl, rfl⟩

theorem freshLabel_eq_ok {id : UInt32} (h : Lower.freshLabel w = .ok id w') :
    id = w.nextLabel ∧ w' = w.bump := by
  cases h
  exact ⟨rfl, rfl⟩

end Monad

theorem ExprLowers.of_ok {e : Expr} {w : Walk} {code : List Op} {w' : Walk}
    (h : Lower.expr e w = .ok code w') : ExprLowers e w code w' := by
  induction e generalizing w code w' with
  | literal p v =>
      obtain ⟨rfl, rfl⟩ := pure_eq_ok h
      exact .literal
  | var p name =>
      obtain ⟨k, w₁, hl, h⟩ := bind_eq_ok h
      obtain ⟨hk, rfl⟩ := lookup_eq_ok hl
      obtain ⟨rfl, rfl⟩ := pure_eq_ok h
      exact .var hk
  | assign p target value ih =>
      obtain ⟨code₁, w₁, hv, h⟩ := bind_eq_ok h
      obtain ⟨k, w₂, hl, h⟩ := bind_eq_ok h
      obtain ⟨hk, rfl⟩ := lookup_eq_ok hl
      obtain ⟨rfl, rfl⟩ := pure_eq_ok h
      exact .assign (ih hv) hk
  | conditional p condition whenTrue whenFalse ihc iht ihf =>
      obtain ⟨id, w₁, hid, h⟩ := bind_eq_ok h
      obtain ⟨rfl, rfl⟩ := freshLabel_eq_ok hid
      obtain ⟨test, w₂, hc, h⟩ := bind_eq_ok h
      obtain ⟨first, w₃, ht, h⟩ := bind_eq_ok h
      obtain ⟨second, w₄, hf, h⟩ := bind_eq_ok h
      obtain ⟨rfl, rfl⟩ := pure_eq_ok h
      exact .conditional (ihc hc) (iht ht) (ihf hf)
  | binary p op left right ihl ihr =>
      obtain ⟨first, w₁, hl, h⟩ := bind_eq_ok h
      obtain ⟨second, w₂, hr, h⟩ := bind_eq_ok h
      obtain ⟨rfl, rfl⟩ := pure_eq_ok h
      exact .binary (ihl hl) (ihr hr)
  | unary p op operand ih =>
      obtain ⟨code₁, w₁, ho, h⟩ := bind_eq_ok h
      obtain ⟨rfl, rfl⟩ := pure_eq_ok h
      exact .unary (ih ho)
  | paren p inner ih => exact .paren (ih h)

theorem StmtLowers.of_ok {s : Stmt} {w : Walk} {code : List Op} {w' : Walk}
    (h : Lower.stmt s w = .ok code w') : StmtLowers s w code w' := by
  induction s generalizing w code w' with
  | ret p value =>
      obtain ⟨code₁, w₁, hv, h⟩ := bind_eq_ok h
      obtain ⟨rfl, rfl⟩ := pure_eq_ok h
      exact .ret (.of_ok hv)
  | expr p value =>
      obtain ⟨code₁, w₁, hv, h⟩ := bind_eq_ok h
      obtain ⟨rfl, rfl⟩ := pure_eq_ok h
      exact .expr (.of_ok hv)
  | empty p =>
      obtain ⟨rfl, rfl⟩ := pure_eq_ok h
      exact .empty
  | ifThen p condition whenTrue ih =>
      obtain ⟨id, w₁, hid, h⟩ := bind_eq_ok h
      obtain ⟨rfl, rfl⟩ := freshLabel_eq_ok hid
      obtain ⟨test, w₂, hc, h⟩ := bind_eq_ok h
      obtain ⟨first, w₃, ht, h⟩ := bind_eq_ok h
      obtain ⟨rfl, rfl⟩ := pure_eq_ok h
      exact .ifThen (.of_ok hc) (ih ht)
  | ifElse p condition whenTrue whenFalse iht ihf =>
      obtain ⟨id, w₁, hid, h⟩ := bind_eq_ok h
      obtain ⟨rfl, rfl⟩ := freshLabel_eq_ok hid
      obtain ⟨test, w₂, hc, h⟩ := bind_eq_ok h
      obtain ⟨first, w₃, ht, h⟩ := bind_eq_ok h
      obtain ⟨second, w₄, hf, h⟩ := bind_eq_ok h
      obtain ⟨rfl, rfl⟩ := pure_eq_ok h
      exact .ifElse (.of_ok hc) (iht ht) (ihf hf)
  | declare p name q initial =>
      obtain ⟨code₁, w₁, hi, h⟩ := bind_eq_ok h
      obtain ⟨k, w₂, hd, h⟩ := bind_eq_ok h
      obtain ⟨hn, rfl, rfl⟩ := declare_eq_ok hd
      obtain ⟨rfl, rfl⟩ := pure_eq_ok h
      cases initial with
      | none =>
          obtain ⟨rfl, rfl⟩ := pure_eq_ok hi
          exact .declare hn
      | some value => exact .declareInitial (.of_ok hi) hn

theorem StmtsLower.of_ok {body : List Stmt} {w : Walk} {code : List Op} {w' : Walk}
    (h : Lower.stmts body w = .ok code w') : StmtsLower body w code w' := by
  induction body generalizing w code w' with
  | nil =>
      obtain ⟨rfl, rfl⟩ := pure_eq_ok h
      exact .nil
  | cons s rest ih =>
      obtain ⟨first, w₁, hs, h⟩ := bind_eq_ok h
      obtain ⟨others, w₂, hr, h⟩ := bind_eq_ok h
      obtain ⟨rfl, rfl⟩ := pure_eq_ok h
      exact .cons (.of_ok hs) (ih hr)

/-- A lowered program is the code of its body and a last `push 0`. -/
theorem Routine.ofProgram_stmts {p : Program} {r : Routine} (h : Routine.ofProgram p = .ok r) :
    ∃ code w, Lower.stmts p.body .start = .ok code w ∧ p.name = Lower.entryName ∧
      r = ⟨Lower.entryName, code ++ [.push 0], w.scope.size⟩ := by
  simp only [Routine.ofProgram, Lower.program] at h
  by_cases hn : p.name ≠ Lower.entryName
  · rw [if_pos hn] at h
    cases h
  · rw [if_neg hn] at h
    cases hs : (Lower.stmts p.body).run Walk.start.restart with
    | ok code w =>
        rw [hs] at h
        cases h
        exact ⟨code, w, hs, not_not.mp hn, by rw [not_not.mp hn]⟩
    | error d w =>
        rw [hs] at h
        cases h

theorem Routine.ofProgram_eq_ok {p : Program} {r : Routine} (h : Routine.ofProgram p = .ok r) :
    ∃ code w, StmtsLower p.body .start code w ∧ p.name = Lower.entryName ∧
      r = ⟨Lower.entryName, code ++ [.push 0], w.scope.size⟩ := by
  obtain ⟨code, w, lowered, named⟩ := ofProgram_stmts h
  exact ⟨code, w, .of_ok lowered, named⟩

end IntLang.Ir
