import Mathlib.Data.List.Nodup
import Mathlib.Data.List.Perm.Subperm
import IntLang.Proofs.Ir.Labels
/-!
The numbers of labels run out. Every choice of a program defines one label behind its arms, so that
a program with more choices than there are numbers defines a label twice.
-/
namespace IntLang.Ir

/-- The number of labels that stand behind the arms of a construct. -/
def joins (ops : List Op) : Nat := (marks ops).countP (·.role = .done)

theorem joins_append (xs ys : List Op) : joins (xs ++ ys) = joins xs + joins ys := by
  rw [joins, marks_append, List.countP_append]
  rfl

theorem joins_of_unmarked {ops : List Op} (h : marks ops = []) : joins ops = 0 := by
  rw [joins, h, List.countP_nil]

theorem joins_choice (id : UInt32) (first second : List Op) :
    joins (Lower.choice id first second) = 1 + joins first + joins second := by
  simp [joins, List.countP_append]
  omega

theorem joins_guarded (id : UInt32) (first : List Op) :
    joins (Lower.guarded id first) = 1 + joins first := by
  simp [joins, List.countP_append]
  omega

theorem ExprLowers.joins {e : Expr} {w : Walk} {code : List Op} {w' : Walk}
    (h : ExprLowers e w code w') : joins code = e.choices := by
  induction h with
  | literal => exact joins_of_unmarked rfl
  | var _ => exact joins_of_unmarked rfl
  | assign _ _ ih => rw [joins_append, ih, joins_of_unmarked rfl, Expr.choices, Nat.add_zero]
  | conditional _ _ _ ihc iht ihf =>
      rw [joins_append, joins_choice, ihc, iht, ihf, Expr.choices]
      omega
  | binary _ _ ihl ihr =>
      rw [joins_append, joins_append, ihl, ihr, joins_of_unmarked rfl, Expr.choices, Nat.add_zero]
  | unary _ ih => rw [joins_append, ih, joins_of_unmarked rfl, Expr.choices, Nat.add_zero]
  | paren _ ih => exact ih

theorem StmtLowers.joins {s : Stmt} {w : Walk} {code : List Op} {w' : Walk}
    (h : StmtLowers s w code w') : joins code = s.choices := by
  induction h with
  | ret he | expr he =>
      rw [joins_append, he.joins, joins_of_unmarked rfl, Stmt.choices, Nat.add_zero]
  | empty => exact joins_of_unmarked rfl
  | ifThen hc _ ih =>
      rw [joins_append, joins_guarded, hc.joins, ih, Stmt.choices]
      omega
  | ifElse hc _ _ iht ihf =>
      rw [joins_append, joins_choice, hc.joins, iht, ihf, Stmt.choices]
      omega
  | declare _ => exact joins_of_unmarked rfl
  | declareInitial he _ =>
      rw [joins_append, he.joins, joins_of_unmarked rfl, Stmt.choices, Nat.add_zero]

theorem StmtsLower.joins {body : List Stmt} {w : Walk} {code : List Op} {w' : Walk}
    (h : StmtsLower body w code w') : joins code = Stmt.choicesAll body := by
  induction h with
  | nil => exact joins_of_unmarked rfl
  | cons hs _ ih => rw [joins_append, hs.joins, ih, Stmt.choicesAll]

def joinNumbers (ops : List Op) : List Nat :=
  ((marks ops).filter (·.role = .done)).map (·.id.toNat)

theorem length_joinNumbers (ops : List Op) : (joinNumbers ops).length = joins ops := by
  rw [joinNumbers, List.length_map, ← List.countP_eq_length_filter, joins]

theorem mem_joinNumbers {ops : List Op} {n : Nat} :
    n ∈ joinNumbers ops ↔ ∃ id : UInt32, ⟨.done, id⟩ ∈ marks ops ∧ id.toNat = n := by
  rw [joinNumbers, List.mem_map]
  constructor
  · rintro ⟨⟨role, id⟩, hl, heq⟩
    obtain ⟨hmem, hrole⟩ := List.mem_filter.mp hl
    cases of_decide_eq_true hrole
    exact ⟨id, hmem, heq⟩
  · rintro ⟨id, hmem, heq⟩
    exact ⟨_, List.mem_filter.mpr ⟨hmem, decide_eq_true rfl⟩, heq⟩

/-- Distinct labels of one role have distinct numbers. -/
theorem nodup_joinNumbers {ops : List Op} (once : (marks ops).Nodup) :
    (joinNumbers ops).Nodup := by
  apply (once.filter _).map_on
  intro l hl l' hl' same
  have role := of_decide_eq_true (List.mem_filter.mp hl).2
  have role' := of_decide_eq_true (List.mem_filter.mp hl').2
  cases l
  cases l'
  cases role
  cases role'
  exact congrArg _ (UInt32.toNat_inj.mp same)

theorem joins_le_of_once {ops : List Op} (once : (marks ops).Nodup) :
    joins ops ≤ UInt32.size := by
  have numbers : joinNumbers ops ⊆ List.range UInt32.size := by
    intro n hn
    obtain ⟨id, -, rfl⟩ := mem_joinNumbers.mp hn
    exact List.mem_range.mpr id.toNat_lt_size
  have le := ((nodup_joinNumbers once).subperm numbers).length_le
  rwa [length_joinNumbers, List.length_range] at le

theorem Routine.choices_le_of_once {p : Program} {r : Routine} (h : Routine.ofProgram p = .ok r)
    (once : (marks r.ops).Nodup) : p.choices ≤ UInt32.size := by
  obtain ⟨code, w, lowered, -, rfl⟩ := Routine.ofProgram_eq_ok h
  have last : joins [.push 0] = 0 := joins_of_unmarked rfl
  have le := joins_le_of_once once
  rwa [joins_append, last, Nat.add_zero, lowered.joins] at le

end IntLang.Ir
