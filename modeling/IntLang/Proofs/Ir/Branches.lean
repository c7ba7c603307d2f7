import IntLang.Proofs.Ir.Numbering
/-!
Branches of lowered code. Every label is branched to from one place, which lies before its
definition, and the numbers of the labels are those below the number of choices.
-/
namespace IntLang.Ir

def targets (ops : List Op) : List Label := ops.filterMap Op.target?

@[simp] theorem targets_append (xs ys : List Op) : targets (xs ++ ys) = targets xs ++ targets ys :=
  List.filterMap_append

@[simp] theorem targets_choice (id : UInt32) (first second : List Op) :
    targets (Lower.choice id first second) =
      ⟨.otherwise, id⟩ :: (targets first ++ ⟨.done, id⟩ :: targets second) := by
  simp [Lower.choice, targets, List.filterMap_cons, Op.target?]

@[simp] theorem targets_guarded (id : UInt32) (first : List Op) :
    targets (Lower.guarded id first) = ⟨.done, id⟩ :: targets first := by
  simp [Lower.guarded, targets, List.filterMap_cons, Op.target?]

theorem mem_targets {l : Label} {ops : List Op} :
    l ∈ targets ops ↔ ∃ op ∈ ops, op.target? = some l := List.mem_filterMap

/-- The code branches to each label as often as it defines it, and on no word but zero. -/
structure Linked (ops : List Op) : Prop where
  perm : (targets ops).Perm (marks ops)
  bnez_not_mem : ∀ l, .bnez l ∉ ops

namespace Linked

variable {xs ys first second : List Op} {id : UInt32}

theorem of_unlabelled {ops : List Op} (ht : targets ops = []) (hm : marks ops = []) :
    Linked ops where
  perm := by rw [ht, hm]
  bnez_not_mem l hl := by
    have target : l ∈ targets ops := mem_targets.mpr ⟨_, hl, rfl⟩
    rw [ht] at target
    cases target

theorem append (hx : Linked xs) (hy : Linked ys) : Linked (xs ++ ys) where
  perm := by
    rw [targets_append, marks_append]
    exact hx.perm.append hy.perm
  bnez_not_mem l hl := (List.mem_append.mp hl).elim (hx.bnez_not_mem l) (hy.bnez_not_mem l)

theorem choice (hf : Linked first) (hs : Linked second) :
    Linked (Lower.choice id first second) where
  perm := by
    rw [List.perm_iff_count]
    intro l
    have left := hf.perm.count_eq l
    have right := hs.perm.count_eq l
    simp only [targets_choice, marks_choice, List.count_append, List.count_cons, List.count_nil]
    omega
  bnez_not_mem l := by simp [Lower.choice, hf.bnez_not_mem, hs.bnez_not_mem]

theorem guarded (hf : Linked first) : Linked (Lower.guarded id first) where
  perm := by
    rw [List.perm_iff_count]
    intro l
    have inner := hf.perm.count_eq l
    simp only [targets_guarded, marks_guarded, List.count_append, List.count_cons, List.count_nil]
    omega
  bnez_not_mem l := by simp [Lower.guarded, hf.bnez_not_mem]

end Linked

theorem ExprLowers.linked {e : Expr} {w : Walk} {code : List Op} {w' : Walk}
    (h : ExprLowers e w code w') : Linked code := by
  induction h with
  | literal => exact .of_unlabelled rfl rfl
  | var _ => exact .of_unlabelled rfl rfl
  | assign _ _ ih => exact ih.append (.of_unlabelled rfl rfl)
  | conditional _ _ _ ihc iht ihf => exact ihc.append (.choice iht ihf)
  | binary _ _ ihl ihr => exact (ihl.append ihr).append (.of_unlabelled rfl rfl)
  | unary _ ih => exact ih.append (.of_unlabelled rfl rfl)
  | paren _ ih => exact ih

theorem StmtLowers.linked {s : Stmt} {w : Walk} {code : List Op} {w' : Walk}
    (h : StmtLowers s w code w') : Linked code := by
  induction h with
  | ret he | expr he => exact he.linked.append (.of_unlabelled rfl rfl)
  | empty => exact .of_unlabelled rfl rfl
  | ifThen hc _ ih => exact hc.linked.append (.guarded ih)
  | ifElse hc _ _ iht ihf => exact hc.linked.append (.choice iht ihf)
  | declare _ => exact .of_unlabelled rfl rfl
  | declareInitial he _ => exact he.linked.append (.of_unlabelled rfl rfl)

theorem StmtsLower.linked {body : List Stmt} {w : Walk} {code : List Op} {w' : Walk}
    (h : StmtsLower body w code w') : Linked code := by
  induction h with
  | nil => exact .of_unlabelled rfl rfl
  | cons hs _ ih => exact hs.linked.append ih

def Mentions (ops : List Op) (l : Label) : Prop := l ∈ targets ops ∨ l ∈ marks ops

theorem Linked.mentions_iff {ops : List Op} (h : Linked ops) {l : Label} :
    Mentions ops l ↔ l ∈ marks ops := by
  rw [Mentions, h.perm.mem_iff, or_self]

/-- In linked code whose branches go forward, a label that is defined once has one branch to it,
before its definition. -/
theorem Linked.places {ops : List Op} (h : Linked ops) (forward : Forward ops)
    (once : (marks ops).Nodup) {l : Label} (hl : l ∈ marks ops) :
    ∃ i j : Nat, i < j ∧ (∀ k : Nat, (∃ op ∈ ops[k]?, op.target? = some l) ↔ k = i) ∧
      ∀ k : Nat, ops[k]? = some (.label l) ↔ k = j := by
  obtain ⟨op, hop, target⟩ := mem_targets.mp (h.perm.mem_iff.mpr hl)
  obtain ⟨i, hi⟩ := List.mem_iff_getElem?.mp hop
  obtain ⟨j, hij, hj⟩ := forward.exists_label hi target
  refine ⟨i, j, hij, ?_, ?_⟩
  · intro k
    constructor
    · rintro ⟨other, hk, same⟩
      exact place_unique (h.perm.nodup_iff.mpr once) hk hi same target
    · rintro rfl
      exact ⟨op, hi, target⟩
  · intro k
    constructor
    · intro hk
      exact mark_unique once hk hj
    · rintro rfl
      exact hj

/-- Distinct labels whose numbers lie below the number of joins have all of these numbers. -/
theorem LabelRange.mem_marks {ops : List Op} (h : LabelRange 0 (joins ops) ops) {id : UInt32}
    (hid : id.toNat < joins ops) : ⟨.done, id⟩ ∈ marks ops := by
  have within : joinNumbers ops ⊆ List.range (joins ops) := by
    intro n hn
    obtain ⟨number, hmark, rfl⟩ := mem_joinNumbers.mp hn
    exact List.mem_range.mpr (h.within _ hmark).2
  have all : (joinNumbers ops).Perm (List.range (joins ops)) := by
    apply ((nodup_joinNumbers h.once).subperm within).perm_of_length_le
    exact Nat.le_of_eq (by rw [length_joinNumbers, List.length_range])
  obtain ⟨number, hmark, same⟩ := mem_joinNumbers.mp (all.mem_iff.mpr (List.mem_range.mpr hid))
  cases UInt32.toNat_inj.mp same
  exact hmark

/-- Every label in the code of a program is defined at one position and is the target of one
branch, which stands before that position. The numbers of the labels are those below the number of
choices, and no branch is taken on a word other than zero. -/
theorem Routine.ofProgram_labels {p : Program} {r : Routine} (h : Routine.ofProgram p = .ok r)
    (few : p.choices < UInt32.size) :
    (∀ l, Mentions r.ops l → ∃ i j : Nat, i < j ∧
      (∀ k : Nat, (∃ op ∈ r.ops[k]?, op.target? = some l) ↔ k = i) ∧
      ∀ k : Nat, r.ops[k]? = some (.label l) ↔ k = j) ∧
    (∀ id : UInt32, (∃ role, Mentions r.ops ⟨role, id⟩) ↔ id.toNat < p.choices) ∧
    ∀ l, .bnez l ∉ r.ops := by
  obtain ⟨code, w, lowered, -, rfl⟩ := ofProgram_eq_ok h
  have linked : Linked (code ++ [.push 0]) := lowered.linked.append (.of_unlabelled rfl rfl)
  have forward : Forward (code ++ [.push 0]) := lowered.forward.append (.cons_of_none rfl trivial)
  have count : joins (code ++ [.push 0]) = p.choices := by
    rw [joins_append, lowered.joins, joins_of_unmarked rfl]
    rfl
  have range : LabelRange 0 (joins (code ++ [.push 0])) (code ++ [.push 0]) := by
    obtain ⟨-, body⟩ := lowered.labels (a := 0) rfl
      (by simpa [Program.choices] using Nat.le_of_lt few)
    rw [Nat.zero_add] at body
    rw [count]
    exact body.append (.of_unmarked _ rfl)
  refine ⟨?_, ?_, linked.bnez_not_mem⟩
  · intro l hl
    exact linked.places forward range.once (linked.mentions_iff.mp hl)
  · intro id
    rw [← count]
    constructor
    · rintro ⟨role, hl⟩
      exact (range.within _ (linked.mentions_iff.mp hl)).2
    · intro hid
      exact ⟨.done, linked.mentions_iff.mpr (range.mem_marks hid)⟩

/-- A function with a conditional expression as the condition of an `if` and another one in a
declaration that is an arm of an `if` within an arm. -/
def nestedChoices : Program :=
  let p : Position := .start
  let number (v : Word) : Expr := .literal p v
  ⟨"main",
    [.ifElse p (.conditional p (number 1) (number 2) (number 3))
      (.ifThen p (number 4)
        (.declare p "a" p (some (.conditional p (number 0) (number 5) (number 6)))))
      (.empty p)], p⟩

theorem nestedChoices_labels : ∃ r, Routine.ofProgram nestedChoices = .ok r ∧
    nestedChoices.choices < UInt32.size ∧
    (∀ id : UInt32, (∃ role, Mentions r.ops ⟨role, id⟩) ↔ id.toNat < 4) ∧
    ∃ i j : Nat, i < j ∧ ∀ k : Nat, r.ops[k]? = some (.label ⟨.otherwise, 3⟩) ↔ k = j := by
  have few : nestedChoices.choices < UInt32.size := by decide
  refine ⟨_, rfl, few, ?_⟩
  obtain ⟨places, numbers, -⟩ := Routine.ofProgram_labels (p := nestedChoices) rfl few
  obtain ⟨i, j, before, -, defined⟩ := places ⟨.otherwise, 3⟩ (.inr (by decide))
  exact ⟨numbers, i, j, before, defined⟩

end IntLang.Ir
