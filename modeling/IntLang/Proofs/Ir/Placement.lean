import IntLang.Proofs.Ir.Lowered
/-!
Where statements come to lie. The length of the code of a tree can be read off the tree, and with
it the position at which the code of every statement starts.
-/
namespace IntLang

def Expr.codeLength : Expr → Nat
  | .literal _ _ => 1
  | .var _ _ => 2
  | .assign _ _ value => value.codeLength + 2
  | .conditional _ condition whenTrue whenFalse =>
      condition.codeLength + whenTrue.codeLength + whenFalse.codeLength + 4
  | .binary _ _ left right => left.codeLength + right.codeLength + 1
  | .unary _ _ operand => operand.codeLength + 1
  | .paren _ inner => inner.codeLength

def Stmt.codeLength : Stmt → Nat
  | .ret _ value | .expr _ value => value.codeLength + 1
  | .empty _ => 0
  | .ifThen _ condition whenTrue => condition.codeLength + whenTrue.codeLength + 2
  | .ifElse _ condition whenTrue whenFalse =>
      condition.codeLength + whenTrue.codeLength + whenFalse.codeLength + 4
  | .declare _ _ _ (some value) => value.codeLength + 3
  | .declare _ _ _ none => 4

/-- Statements in code that stands behind that many operations. -/
def Stmt.behind (n : Nat) (parts : List (Nat × Stmt)) : List (Nat × Stmt) :=
  parts.map fun part => (n + part.1, part.2)

/-- A statement and all statements within it, each with the position in the code of the whole at
which its own code starts. -/
def Stmt.parts : Stmt → List (Nat × Stmt)
  | .ifThen p condition whenTrue =>
      (0, .ifThen p condition whenTrue) :: behind (condition.codeLength + 1) whenTrue.parts
  | .ifElse p condition whenTrue whenFalse =>
      (0, .ifElse p condition whenTrue whenFalse) ::
        (behind (condition.codeLength + 1) whenTrue.parts ++
          behind (condition.codeLength + 1 + whenTrue.codeLength + 2) whenFalse.parts)
  | s => [(0, s)]

def Stmt.partsAll : List Stmt → List (Nat × Stmt)
  | [] => []
  | s :: rest => s.parts ++ behind s.codeLength (partsAll rest)

def Program.parts (p : Program) : List (Nat × Stmt) := Stmt.partsAll p.body

namespace Ir

theorem ExprLowers.length_eq {e : Expr} {w : Walk} {code : List Op} {w' : Walk}
    (h : ExprLowers e w code w') : code.length = e.codeLength := by
  induction h with
  | literal | var _ => rfl
  | assign _ _ ih =>
      rw [List.length_append, ih, Expr.codeLength]
      rfl
  | conditional _ _ _ ihc iht ihf =>
      simp only [List.length_append, Lower.choice, List.length_cons, List.length_nil, ihc, iht, ihf,
        Expr.codeLength]
      omega
  | binary _ _ ihl ihr =>
      rw [List.length_append, List.length_append, ihl, ihr]
      rfl
  | unary _ ih =>
      rw [List.length_append, ih]
      rfl
  | paren _ ih => exact ih

theorem StmtLowers.length_eq {s : Stmt} {w : Walk} {code : List Op} {w' : Walk}
    (h : StmtLowers s w code w') : code.length = s.codeLength := by
  induction h with
  | ret he | expr he =>
      rw [List.length_append, he.length_eq]
      rfl
  | empty => rfl
  | ifThen hc _ ih =>
      simp only [List.length_append, Lower.guarded, List.length_cons, List.length_nil,
        hc.length_eq, ih, Stmt.codeLength]
      omega
  | ifElse hc _ _ iht ihf =>
      simp only [List.length_append, Lower.choice, List.length_cons, List.length_nil,
        hc.length_eq, iht, ihf, Stmt.codeLength]
      omega
  | declare _ => rfl
  | declareInitial he _ =>
      rw [List.length_append, he.length_eq]
      rfl

def Stands (s : Stmt) (i : Nat) (code : List Op) : Prop :=
  ∃ w inner w' front behind, Lower.stmt s w = .ok inner w' ∧
    code = front ++ (inner ++ behind) ∧ front.length = i

theorem Stands.whole {s : Stmt} {w : Walk} {code : List Op} {w' : Walk}
    (h : Lower.stmt s w = .ok code w') : Stands s 0 code :=
  ⟨w, code, w', [], [], h, by simp, rfl⟩

theorem Stands.within {s : Stmt} {i : Nat} {inner : List Op} (h : Stands s i inner)
    (front behind : List Op) {code : List Op} (hcode : code = front ++ (inner ++ behind)) {n : Nat}
    (hn : front.length = n) : Stands s (n + i) code := by
  obtain ⟨w, own, w', before, after, lowered, rfl, rfl⟩ := h
  refine ⟨w, own, w', front ++ before, after ++ behind, lowered, ?_, ?_⟩
  · rw [hcode]
    simp only [List.append_assoc]
  · rw [List.length_append, hn]

def StandsAll (parts : List (Nat × Stmt)) (code : List Op) : Prop :=
  ∀ part ∈ parts, Stands part.2 part.1 code

theorem StandsAll.within {parts : List (Nat × Stmt)} {inner : List Op} (h : StandsAll parts inner)
    (front behind : List Op) {code : List Op} (hcode : code = front ++ (inner ++ behind)) {n : Nat}
    (hn : front.length = n) : StandsAll (Stmt.behind n parts) code := by
  intro part hpart
  obtain ⟨part, hmem, rfl⟩ := List.mem_map.mp hpart
  exact (h part hmem).within front behind hcode hn

theorem stmt_stands {s : Stmt} {w : Walk} {code : List Op} {w' : Walk}
    (h : Lower.stmt s w = .ok code w') : StandsAll s.parts code := by
  have whole := Stands.whole h
  induction s generalizing w code w' with
  | ifThen p condition whenTrue ih =>
      obtain ⟨id, w₁, -, h⟩ := bind_eq_ok h
      obtain ⟨test, w₂, hc, h⟩ := bind_eq_ok h
      obtain ⟨first, w₃, ht, h⟩ := bind_eq_ok h
      obtain ⟨rfl, rfl⟩ := pure_eq_ok h
      have length := (ExprLowers.of_ok hc).length_eq
      refine List.forall_mem_cons.mpr ⟨whole, ?_⟩
      refine (ih ht (.whole ht)).within (test ++ [.beqz ⟨.done, id⟩]) [.label ⟨.done, id⟩] ?_ ?_
      · simp [Lower.guarded]
      · rw [List.length_append, length]
        rfl
  | ifElse p condition whenTrue whenFalse iht ihf =>
      obtain ⟨id, w₁, -, h⟩ := bind_eq_ok h
      obtain ⟨test, w₂, hc, h⟩ := bind_eq_ok h
      obtain ⟨first, w₃, ht, h⟩ := bind_eq_ok h
      obtain ⟨second, w₄, hf, h⟩ := bind_eq_ok h
      obtain ⟨rfl, rfl⟩ := pure_eq_ok h
      have testLength := (ExprLowers.of_ok hc).length_eq
      have firstLength := (StmtLowers.of_ok ht).length_eq
      refine List.forall_mem_cons.mpr ⟨whole, List.forall_mem_append.mpr ⟨?_, ?_⟩⟩
      · refine (iht ht (.whole ht)).within (test ++ [.beqz ⟨.otherwise, id⟩])
          (.br ⟨.done, id⟩ :: .label ⟨.otherwise, id⟩ :: (second ++ [.label ⟨.done, id⟩])) ?_ ?_
        · simp [Lower.choice]
        · rw [List.length_append, testLength]
          rfl
      · refine (ihf hf (.whole hf)).within
          (test ++ [.beqz ⟨.otherwise, id⟩] ++ first ++
            [.br ⟨.done, id⟩, .label ⟨.otherwise, id⟩]) [.label ⟨.done, id⟩] ?_ ?_
        · simp [Lower.choice]
        · simp only [List.length_append, testLength, firstLength]
          rfl
  | _ => exact List.forall_mem_singleton.mpr whole

theorem stmts_stand {body : List Stmt} {w : Walk} {code : List Op} {w' : Walk}
    (h : Lower.stmts body w = .ok code w') : StandsAll (Stmt.partsAll body) code := by
  induction body generalizing w code w' with
  | nil => exact fun _ hpart => (List.not_mem_nil hpart).elim
  | cons s rest ih =>
      obtain ⟨first, w₁, hs, h⟩ := bind_eq_ok h
      obtain ⟨others, w₂, hr, h⟩ := bind_eq_ok h
      obtain ⟨rfl, rfl⟩ := pure_eq_ok h
      have length := (StmtLowers.of_ok hs).length_eq
      refine List.forall_mem_append.mpr ⟨?_, ?_⟩
      · intro part hpart
        have stands := (stmt_stands hs part hpart).within [] others rfl rfl
        rwa [List.length_nil, Nat.zero_add] at stands
      · exact (ih hr).within first [] (by simp) length

/-- In the code of a program, the code of every statement stands at its position. -/
theorem Routine.ofProgram_stands {p : Program} {r : Routine} (h : Routine.ofProgram p = .ok r) :
    StandsAll p.parts r.ops := by
  obtain ⟨code, w, lowered, -, rfl⟩ := ofProgram_stmts h
  intro part hpart
  have stands := (stmts_stand lowered part hpart).within [] [.push 0] rfl rfl
  rwa [List.length_nil, Nat.zero_add] at stands

end Ir

end IntLang
