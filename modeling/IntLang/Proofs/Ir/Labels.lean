import Mathlib.Data.List.Basic
import IntLang.Proofs.Ir.Execution
import IntLang.Proofs.Ir.Lowered
/-!
Labels of lowered code. The numbers of its labels lie in the range that the walk has passed over,
no label is defined twice, and every branch goes forward.
-/
namespace IntLang.Ir

def marks (ops : List Op) : List Label := ops.filterMap Op.mark?

@[simp] theorem marks_append (xs ys : List Op) : marks (xs ++ ys) = marks xs ++ marks ys :=
  List.filterMap_append

@[simp] theorem marks_label (l : Label) (ops : List Op) :
    marks (.label l :: ops) = l :: marks ops := rfl

@[simp] theorem marks_choice (id : UInt32) (first second : List Op) :
    marks (Lower.choice id first second) =
      marks first ++ ⟨.otherwise, id⟩ :: (marks second ++ [⟨.done, id⟩]) := by
  simp [Lower.choice, marks, List.filterMap_cons, Op.mark?]

@[simp] theorem marks_guarded (id : UInt32) (first : List Op) :
    marks (Lower.guarded id first) = marks first ++ [⟨.done, id⟩] := by
  simp [Lower.guarded, marks, List.filterMap_cons, Op.mark?]

theorem mem_marks {l : Label} {ops : List Op} : l ∈ marks ops ↔ Op.label l ∈ ops := by
  constructor
  · intro h
    obtain ⟨op, hop, hl⟩ := List.mem_filterMap.mp h
    cases op with
    | label m =>
        cases hl
        exact hop
    | _ => cases hl
  · intro h
    exact List.mem_filterMap.mpr ⟨_, h, rfl⟩

/-- Where no label is found twice, it is found at one position. -/
theorem place_unique {f : Op → Option Label} {ops : List Op} (once : (ops.filterMap f).Nodup)
    {i j : Nat} {x y : Op} {l : Label} (hi : ops[i]? = some x) (hj : ops[j]? = some y)
    (hx : f x = some l) (hy : f y = some l) : i = j := by
  rw [List.Nodup, List.pairwise_filterMap, List.pairwise_iff_getElem] at once
  obtain ⟨hil, rfl⟩ := List.getElem?_eq_some_iff.mp hi
  obtain ⟨hjl, rfl⟩ := List.getElem?_eq_some_iff.mp hj
  rcases Nat.lt_trichotomy i j with hlt | heq | hlt
  · exact (once i j hil hjl hlt l hx l hy rfl).elim
  · exact heq
  · exact (once j i hjl hil hlt l hy l hx rfl).elim

theorem mark_unique {ops : List Op} (once : (marks ops).Nodup) {i j : Nat} {l : Label}
    (hi : ops[i]? = some (.label l)) (hj : ops[j]? = some (.label l)) : i = j :=
  place_unique once hi hj rfl rfl

theorem position?_eq_some_of_once {ops : List Op} (once : (marks ops).Nodup) {j : Nat} {l : Label}
    (hj : ops[j]? = some (.label l)) : position? ops l = some j := by
  cases h : position? ops l with
  | none =>
      rw [position?, List.idxOf?_eq_none_iff] at h
      exact (h (List.mem_of_getElem? hj)).elim
  | some i =>
      obtain ⟨hlt, hi, -⟩ := List.idxOf?_eq_some_iff.mp h
      exact congrArg some (mark_unique once (List.getElem?_eq_some_iff.mpr ⟨hlt, hi⟩) hj)

theorem getElem?_of_position? {ops : List Op} {l : Label} {j : Nat}
    (h : position? ops l = some j) : ops[j]? = some (.label l) := by
  obtain ⟨hlt, hj, -⟩ := List.idxOf?_eq_some_iff.mp h
  exact List.getElem?_eq_some_iff.mpr ⟨hlt, hj⟩

/-- The position at which a suffix of the code starts. -/
def before (ops rest : List Op) : Nat := ops.length - rest.length

section Suffix

variable {ops : List Op} {op : Op} {rest : List Op}

theorem suffix_of_append {xs : List Op} (h : (xs ++ rest) <:+ ops) : rest <:+ ops :=
  (List.suffix_append xs rest).trans h

theorem suffix_of_cons (h : (op :: rest) <:+ ops) : rest <:+ ops :=
  (List.suffix_cons op rest).trans h

theorem before_succ (h : (op :: rest) <:+ ops) : before ops rest = before ops (op :: rest) + 1 := by
  have hlen := h.length_le
  simp only [List.length_cons] at hlen
  simp only [before, List.length_cons]
  omega

theorem getElem?_before (h : (op :: rest) <:+ ops) :
    ops[before ops (op :: rest)]? = some op := by
  obtain ⟨front, rfl⟩ := h
  simp [before]

theorem position?_before {l : Label} (once : (marks ops).Nodup) (h : (.label l :: rest) <:+ ops) :
    position? ops l = some (before ops (.label l :: rest)) :=
  position?_eq_some_of_once once (getElem?_before h)

end Suffix

/-- Every branch of the code goes to a label defined behind it in the code. -/
def Forward : List Op → Prop
  | [] => True
  | op :: rest => (∀ l, op.target? = some l → .label l ∈ rest) ∧ Forward rest

theorem Forward.append {xs ys : List Op} (hx : Forward xs) (hy : Forward ys) :
    Forward (xs ++ ys) := by
  induction xs with
  | nil => exact hy
  | cons op rest ih =>
      refine ⟨?_, ih hx.2⟩
      intro l hl
      exact List.mem_append_left ys (hx.1 l hl)

theorem Forward.cons_of_none {op : Op} {ops : List Op} (h : op.target? = none)
    (hops : Forward ops) : Forward (op :: ops) := by
  refine ⟨?_, hops⟩
  intro l hl
  rw [h] at hl
  cases hl

theorem Forward.cons_of_mem {op : Op} {ops : List Op} {l : Label} (h : op.target? = some l)
    (hl : .label l ∈ ops) (hops : Forward ops) : Forward (op :: ops) := by
  refine ⟨?_, hops⟩
  intro m hm
  rw [h] at hm
  cases hm
  exact hl

theorem Forward.exists_label {ops : List Op} (h : Forward ops) {i : Nat} {op : Op} {l : Label}
    (hi : ops[i]? = some op) (hl : op.target? = some l) :
    ∃ j, i < j ∧ ops[j]? = some (.label l) := by
  induction ops generalizing i with
  | nil => cases hi
  | cons first rest ih =>
      cases i with
      | zero =>
          cases hi
          obtain ⟨j, hj⟩ := List.mem_iff_getElem?.mp (h.1 l hl)
          exact ⟨j + 1, Nat.succ_pos j, hj⟩
      | succ i =>
          obtain ⟨j, hlt, hj⟩ := ih h.2 hi
          exact ⟨j + 1, Nat.succ_lt_succ hlt, hj⟩

theorem Forward.choice {id : UInt32} {first second : List Op} (hf : Forward first)
    (hs : Forward second) : Forward (Lower.choice id first second) := by
  have last : Forward [Op.label ⟨.done, id⟩] := .cons_of_none rfl trivial
  have arm : Forward (.br ⟨.done, id⟩ :: .label ⟨.otherwise, id⟩ :: second ++
      [Op.label ⟨.done, id⟩]) :=
    .cons_of_mem (l := ⟨.done, id⟩) rfl (by simp) (.cons_of_none rfl (hs.append last))
  have code := hf.append arm
  rw [← List.append_assoc] at code
  exact .cons_of_mem (l := ⟨.otherwise, id⟩) rfl (by simp) code

theorem Forward.guarded {id : UInt32} {first : List Op} (hf : Forward first) :
    Forward (Lower.guarded id first) :=
  .cons_of_mem (l := ⟨.done, id⟩) rfl (by simp) (hf.append (.cons_of_none rfl trivial))

theorem ExprLowers.forward {e : Expr} {w : Walk} {code : List Op} {w' : Walk}
    (h : ExprLowers e w code w') : Forward code := by
  induction h with
  | literal => exact .cons_of_none rfl trivial
  | var _ => exact .cons_of_none rfl (.cons_of_none rfl trivial)
  | assign _ _ ih => exact ih.append (.cons_of_none rfl (.cons_of_none rfl trivial))
  | conditional _ _ _ ihc iht ihf => exact ihc.append (.choice iht ihf)
  | binary _ _ ihl ihr => exact (ihl.append ihr).append (.cons_of_none rfl trivial)
  | unary _ ih => exact ih.append (.cons_of_none rfl trivial)
  | paren _ ih => exact ih

theorem StmtLowers.forward {s : Stmt} {w : Walk} {code : List Op} {w' : Walk}
    (h : StmtLowers s w code w') : Forward code := by
  have store (k : UInt32) : Forward [.frameAddr k, .store, .pop] :=
    .cons_of_none rfl (.cons_of_none rfl (.cons_of_none rfl trivial))
  induction h with
  | ret he => exact he.forward.append (.cons_of_none rfl trivial)
  | expr he => exact he.forward.append (.cons_of_none rfl trivial)
  | empty => exact trivial
  | ifThen hc _ ih => exact hc.forward.append (.guarded ih)
  | ifElse hc _ _ iht ihf => exact hc.forward.append (.choice iht ihf)
  | declare _ => exact .cons_of_none rfl (store _)
  | declareInitial he _ => exact he.forward.append (store _)

theorem StmtsLower.forward {body : List Stmt} {w : Walk} {code : List Op} {w' : Walk}
    (h : StmtsLower body w code w') : Forward code := by
  induction h with
  | nil => exact trivial
  | cons hs _ ih => exact hs.forward.append ih

/-- The labels of the code are distinct, and their numbers lie from `a` up to and without `b`. -/
structure LabelRange (a b : Nat) (ops : List Op) : Prop where
  le : a ≤ b
  within : ∀ l ∈ marks ops, a ≤ l.id.toNat ∧ l.id.toNat < b
  once : (marks ops).Nodup

namespace LabelRange

variable {a b c d : Nat} {xs ys : List Op}

theorem of_unmarked (a : Nat) {ops : List Op} (h : marks ops = []) : LabelRange a a ops :=
  ⟨Nat.le_refl a, by simp [h], by simp [h]⟩

theorem append (hx : LabelRange a b xs) (hy : LabelRange b c ys) :
    LabelRange a c (xs ++ ys) where
  le := Nat.le_trans hx.le hy.le
  within l hl := by
    have left := hx.le
    have right := hy.le
    rw [marks_append, List.mem_append] at hl
    rcases hl with hl | hl
    · have := hx.within l hl
      omega
    · have := hy.within l hl
      omega
  once := by
    rw [marks_append, List.nodup_append]
    refine ⟨hx.once, hy.once, ?_⟩
    rintro l hl m hm rfl
    have left := hx.within l hl
    have right := hy.within l hm
    omega

variable {id : UInt32} {first second : List Op}

theorem choice (hid : id.toNat = a) (test : LabelRange (a + 1) b xs) (hf : LabelRange b c first)
    (hs : LabelRange c d second) : LabelRange a d (xs ++ Lower.choice id first second) := by
  have body : LabelRange (a + 1) d (xs ++ first ++ second) := (test.append hf).append hs
  have perm : (marks (xs ++ Lower.choice id first second)).Perm
      (⟨.otherwise, id⟩ :: ⟨.done, id⟩ :: marks (xs ++ first ++ second)) := by
    rw [List.perm_iff_count]
    intro l
    simp only [marks_append, marks_choice, List.count_append, List.count_cons, List.count_nil]
    omega
  have fresh (role : Label.Role) : (⟨role, id⟩ : Label) ∉ marks (xs ++ first ++ second) := by
    intro hm
    have := (body.within _ hm).1
    simp only at this
    omega
  have hle := body.le
  refine ⟨by omega, ?_, ?_⟩
  · intro l hl
    rcases List.mem_cons.mp (perm.mem_iff.mp hl) with rfl | hl
    · exact ⟨Nat.le_of_eq hid.symm, by simp only; omega⟩
    rcases List.mem_cons.mp hl with rfl | hl
    · exact ⟨Nat.le_of_eq hid.symm, by simp only; omega⟩
    · have := body.within l hl
      omega
  · rw [perm.nodup_iff, List.nodup_cons, List.nodup_cons]
    refine ⟨?_, fresh .done, body.once⟩
    rintro (_ | ⟨_, hm⟩)
    exact fresh .otherwise hm

theorem guarded (hid : id.toNat = a) (test : LabelRange (a + 1) b xs)
    (hf : LabelRange b c first) : LabelRange a c (xs ++ Lower.guarded id first) := by
  have body : LabelRange (a + 1) c (xs ++ first) := test.append hf
  have perm : (marks (xs ++ Lower.guarded id first)).Perm
      (⟨.done, id⟩ :: marks (xs ++ first)) := by
    rw [List.perm_iff_count]
    intro l
    simp only [marks_append, marks_guarded, List.count_append, List.count_cons, List.count_nil]
    omega
  have hle := body.le
  refine ⟨by omega, ?_, ?_⟩
  · intro l hl
    rcases List.mem_cons.mp (perm.mem_iff.mp hl) with rfl | hl
    · exact ⟨Nat.le_of_eq hid.symm, by simp only; omega⟩
    · have := body.within l hl
      omega
  · rw [perm.nodup_iff, List.nodup_cons]
    refine ⟨?_, body.once⟩
    intro hm
    have := (body.within _ hm).1
    simp only at this
    omega

end LabelRange

theorem bump_nextLabel {w : Walk} {a : Nat} (h : w.nextLabel = .ofNat a) :
    w.bump.nextLabel = .ofNat (a + 1) := by
  rw [UInt32.ofNat_add, ← h]
  rfl

theorem nextLabel_toNat {w : Walk} {a : Nat} (h : w.nextLabel = .ofNat a) (ha : a < UInt32.size) :
    w.nextLabel.toNat = a := by
  rw [h, UInt32.toNat_ofNat_of_lt' ha]

/-- The labels of an expression are numbered on from the walk before it. The last number may bring
the counter round to zero. -/
theorem ExprLowers.labels {e : Expr} {w : Walk} {code : List Op} {w' : Walk}
    (h : ExprLowers e w code w') {a : Nat} (hw : w.nextLabel = .ofNat a)
    (ha : a + e.choices ≤ UInt32.size) :
    w'.nextLabel = .ofNat (a + e.choices) ∧ LabelRange a (a + e.choices) code := by
  induction h generalizing a with
  | literal => exact ⟨hw, .of_unmarked a rfl⟩
  | var _ => exact ⟨hw, .of_unmarked a rfl⟩
  | assign _ _ ih =>
      obtain ⟨next, range⟩ := ih hw ha
      exact ⟨next, range.append (.of_unmarked _ rfl)⟩
  | @conditional p condition whenTrue whenFalse w _ _ _ _ _ _ _ _ _ ihc iht ihf =>
      simp only [Expr.choices] at ha ⊢
      obtain ⟨next, test⟩ := ihc (bump_nextLabel hw) (by omega)
      obtain ⟨next, first⟩ := iht next (by omega)
      obtain ⟨next, second⟩ := ihf next (by omega)
      have hsum : a + 1 + condition.choices + whenTrue.choices + whenFalse.choices =
          a + (1 + condition.choices + whenTrue.choices + whenFalse.choices) := by omega
      rw [hsum] at next second
      exact ⟨next, .choice (nextLabel_toNat hw (by omega)) test first second⟩
  | @binary p op left right _ _ _ _ _ _ _ ihl ihr =>
      simp only [Expr.choices] at ha ⊢
      obtain ⟨next, first⟩ := ihl hw (by omega)
      obtain ⟨next, second⟩ := ihr next (by omega)
      rw [Nat.add_assoc] at next second
      exact ⟨next, (first.append second).append (.of_unmarked _ rfl)⟩
  | unary _ ih =>
      obtain ⟨next, range⟩ := ih hw ha
      exact ⟨next, range.append (.of_unmarked _ rfl)⟩
  | paren _ ih => exact ih hw ha

theorem StmtLowers.labels {s : Stmt} {w : Walk} {code : List Op} {w' : Walk}
    (h : StmtLowers s w code w') {a : Nat} (hw : w.nextLabel = .ofNat a)
    (ha : a + s.choices ≤ UInt32.size) :
    w'.nextLabel = .ofNat (a + s.choices) ∧ LabelRange a (a + s.choices) code := by
  induction h generalizing a with
  | ret he | expr he =>
      obtain ⟨next, range⟩ := he.labels hw ha
      exact ⟨next, range.append (.of_unmarked _ rfl)⟩
  | empty => exact ⟨hw, .of_unmarked a rfl⟩
  | @ifThen p condition whenTrue _ _ _ _ _ hc _ ih =>
      simp only [Stmt.choices] at ha ⊢
      obtain ⟨next, test⟩ := hc.labels (bump_nextLabel hw) (by omega)
      obtain ⟨next, first⟩ := ih next (by omega)
      have hsum : a + 1 + condition.choices + whenTrue.choices =
          a + (1 + condition.choices + whenTrue.choices) := by omega
      rw [hsum] at next first
      exact ⟨next, .guarded (nextLabel_toNat hw (by omega)) test first⟩
  | @ifElse p condition whenTrue whenFalse _ _ _ _ _ _ _ hc _ _ iht ihf =>
      simp only [Stmt.choices] at ha ⊢
      obtain ⟨next, test⟩ := hc.labels (bump_nextLabel hw) (by omega)
      obtain ⟨next, first⟩ := iht next (by omega)
      obtain ⟨next, second⟩ := ihf next (by omega)
      have hsum : a + 1 + condition.choices + whenTrue.choices + whenFalse.choices =
          a + (1 + condition.choices + whenTrue.choices + whenFalse.choices) := by omega
      rw [hsum] at next second
      exact ⟨next, .choice (nextLabel_toNat hw (by omega)) test first second⟩
  | declare _ => exact ⟨hw, .of_unmarked a rfl⟩
  | declareInitial he _ =>
      obtain ⟨next, range⟩ := he.labels hw ha
      exact ⟨next, range.append (.of_unmarked _ rfl)⟩

theorem StmtsLower.labels {body : List Stmt} {w : Walk} {code : List Op} {w' : Walk}
    (h : StmtsLower body w code w') {a : Nat} (hw : w.nextLabel = .ofNat a)
    (ha : a + Stmt.choicesAll body ≤ UInt32.size) :
    w'.nextLabel = .ofNat (a + Stmt.choicesAll body) ∧
      LabelRange a (a + Stmt.choicesAll body) code := by
  induction h generalizing a with
  | nil => exact ⟨hw, .of_unmarked a rfl⟩
  | cons hs _ ih =>
      simp only [Stmt.choicesAll] at ha ⊢
      obtain ⟨next, first⟩ := hs.labels hw (by omega)
      obtain ⟨next, others⟩ := ih next (by omega)
      rw [Nat.add_assoc] at next others
      exact ⟨next, first.append others⟩

end IntLang.Ir
