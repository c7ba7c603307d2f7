import IntLang.Proofs.Ir.Discipline
import IntLang.Proofs.Ir.Placement
import IntLang.Proofs.Ir.Preservation
/-!
The operand stack of lowered code. Lowering makes disciplined code, and the deepest stack can be
read off the tree.
-/
namespace IntLang

def Expr.deepest : Expr → Nat
  | .literal _ _ | .var _ _ => 1
  | .assign _ _ value => max value.deepest 2
  | .conditional _ condition whenTrue whenFalse =>
      max condition.deepest (max whenTrue.deepest whenFalse.deepest)
  | .binary _ _ left right => max left.deepest (right.deepest + 1)
  | .unary _ _ operand => operand.deepest
  | .paren _ inner => inner.deepest

def Stmt.deepest : Stmt → Nat
  | .ret _ value | .expr _ value => value.deepest
  | .empty _ => 0
  | .ifThen _ condition whenTrue => max condition.deepest whenTrue.deepest
  | .ifElse _ condition whenTrue whenFalse =>
      max condition.deepest (max whenTrue.deepest whenFalse.deepest)
  | .declare _ _ _ (some value) => max value.deepest 2
  | .declare _ _ _ none => 2

def Program.deepest (p : Program) : Nat := p.body.foldr (fun s d => max s.deepest d) 1

theorem Expr.deepest_pos (e : Expr) : 0 < e.deepest := by
  induction e with
  | literal | var => exact Nat.one_pos
  | assign _ _ _ ih | unary _ _ _ ih | paren _ _ ih =>
      simp only [deepest]
      omega
  | conditional _ _ _ _ ih | binary _ _ _ _ ih =>
      simp only [deepest]
      omega

namespace Ir

/-- Operations with the depth of the stack before them, from the depth `d` to the depth behind the
last. Labels have the depth that the branches to them come with. -/
inductive Flows (marked : Label → Nat → Prop) : Nat → List (Nat × Op) → Nat → Prop
  | nil {d} : Flows marked d [] d
  | cons {d next op rest d'} : op.pops ≤ d →
      (op.fallsThrough = true → next = d - op.pops + op.pushes) →
      (∀ l ∈ op.target?, marked l (d - op.pops)) → (op = .ret → d = 1) →
      Flows marked next rest d' → Flows marked d ((d, op) :: rest) d'

/-- The code takes the stack from the depth `d` to `d'`, and comes to `peak` on the way but not
beyond. Its branches stay within it. -/
structure Stages (code : List Op) (d d' peak : Nat) (xs : List (Nat × Op)) : Prop where
  code : xs.map Prod.snd = code
  flows : Flows (fun l k => (k, .label l) ∈ xs) d xs d'
  peak : peak = xs.foldr (fun x m => max x.1 m) d'

def choiceDepths (id : UInt32) (d d' : Nat) (xs ys : List (Nat × Op)) : List (Nat × Op) :=
  (d + 1, .beqz ⟨.otherwise, id⟩) :: (xs ++ (d', .br ⟨.done, id⟩) ::
    (d, .label ⟨.otherwise, id⟩) :: (ys ++ [(d', .label ⟨.done, id⟩)]))

def guardedDepths (id : UInt32) (d : Nat) (xs : List (Nat × Op)) : List (Nat × Op) :=
  (d + 1, .beqz ⟨.done, id⟩) :: (xs ++ [(d, .label ⟨.done, id⟩)])

/-- The depth before the position `i`, from the depths before the operations and the last one. -/
def depthAt (xs : List (Nat × Op)) (last i : Nat) : Nat := ((xs[i]?).map Prod.fst).getD last

def Settles (xs : List (Nat × Op)) (last : Nat) (parts : List (Nat × Stmt)) : Prop :=
  ∀ part ∈ parts, part.1 ≤ xs.length ∧ depthAt xs last part.1 = 0

section Flow

variable {marked : Label → Nat → Prop} {d m d' : Nat} {xs ys : List (Nat × Op)} {op : Op}

theorem Flows.mono {marked' : Label → Nat → Prop} (h : Flows marked d xs d')
    (hm : ∀ l k, marked l k → marked' l k) : Flows marked' d xs d' := by
  induction h with
  | nil => exact .nil
  | cons pops next branch ret _ ih =>
      exact .cons pops next (fun l hl => hm _ _ (branch l hl)) ret ih

theorem Flows.append (hx : Flows marked d xs m) (hy : Flows marked m ys d') :
    Flows marked d (xs ++ ys) d' := by
  induction hx with
  | nil => exact hy
  | cons pops next branch ret _ ih => exact .cons pops next branch ret (ih hy)

theorem Flows.step (ht : op.target? = none) (hr : op ≠ .ret) (pops : op.pops ≤ d)
    (h : Flows marked (d - op.pops + op.pushes) xs d') : Flows marked d ((d, op) :: xs) d' := by
  refine .cons pops (fun _ => rfl) ?_ (fun h => absurd h hr) h
  intro l hl
  rw [ht] at hl
  cases hl

/-- An operation that does not go on behind itself may stand before any depth. -/
theorem Flows.leave (hf : op.fallsThrough = false) (pops : op.pops ≤ d)
    (branch : ∀ l ∈ op.target?, marked l (d - op.pops)) (ret : op = .ret → d = 1)
    (h : Flows marked m xs d') : Flows marked d ((d, op) :: xs) d' := by
  refine .cons pops ?_ branch ret h
  intro through
  rw [hf] at through
  cases through

theorem peak_append (xs ys : List (Nat × Op)) (n : Nat) :
    (xs ++ ys).foldr (fun x m => max x.1 m) n =
      max (xs.foldr (fun x m => max x.1 m) 0) (ys.foldr (fun x m => max x.1 m) n) := by
  induction xs with
  | nil => simp
  | cons x xs ih =>
      rw [List.cons_append, List.foldr_cons, List.foldr_cons, ih]
      omega

theorem peak_eq_max (xs : List (Nat × Op)) (n : Nat) : xs.foldr (fun x m => max x.1 m) n =
    max (xs.foldr (fun x m => max x.1 m) 0) n := by
  have split := peak_append xs [] n
  rwa [List.append_nil] at split

theorem Flows.le_peak (h : Flows marked d xs d') : d ≤ xs.foldr (fun x m => max x.1 m) d' := by
  cases h with
  | nil => exact Nat.le_refl d
  | cons => exact Nat.le_max_left d _

theorem Flows.depthAt_zero (h : Flows marked d xs d') : depthAt xs d' 0 = d := by
  cases h <;> rfl

end Flow

section Settles

variable {xs ys : List (Nat × Op)} {last m : Nat} {parts : List (Nat × Stmt)}

theorem depthAt_append_left {i : Nat} (hi : i ≤ xs.length) (hy : depthAt ys last 0 = m) :
    depthAt (xs ++ ys) last i = depthAt xs m i := by
  rcases Nat.lt_or_eq_of_le hi with hlt | rfl
  · rw [depthAt, depthAt, List.getElem?_append_left hlt, List.getElem?_eq_getElem hlt]
    rfl
  · rw [← hy, depthAt, depthAt, depthAt, List.getElem?_append_right (Nat.le_refl _), Nat.sub_self,
      List.getElem?_eq_none (Nat.le_refl _)]
    rfl

theorem depthAt_append_right (xs ys : List (Nat × Op)) (last i : Nat) :
    depthAt (xs ++ ys) last (xs.length + i) = depthAt ys last i := by
  rw [depthAt, depthAt, List.getElem?_append_right (Nat.le_add_right _ _), Nat.add_sub_cancel_left]

theorem Settles.append_left (h : Settles xs m parts) (hy : depthAt ys last 0 = m) :
    Settles (xs ++ ys) last parts := by
  intro part hpart
  obtain ⟨hle, rests⟩ := h part hpart
  rw [depthAt_append_left hle hy, List.length_append]
  exact ⟨Nat.le_add_right_of_le hle, rests⟩

theorem Settles.append_right (h : Settles ys last parts) {n : Nat} (hn : xs.length = n) :
    Settles (xs ++ ys) last (Stmt.behind n parts) := by
  intro part hpart
  obtain ⟨part, hmem, rfl⟩ := List.mem_map.mp hpart
  obtain ⟨hle, rests⟩ := h part hmem
  rw [← hn, depthAt_append_right, List.length_append]
  exact ⟨Nat.add_le_add_left hle _, rests⟩

/-- The arms of a statement that chooses settle behind the code of its test. -/
theorem Settles.choice {id : UInt32} {first second : List (Nat × Stmt)} {n k : Nat}
    (test : List (Nat × Op)) (hf : Settles xs 0 first) (hs : Settles ys 0 second)
    (hn : test.length = n) (hk : xs.length = k) :
    Settles (test ++ choiceDepths id 0 0 xs ys) 0
      (Stmt.behind (n + 1) first ++ Stmt.behind (n + 1 + k + 2) second) := by
  let start : List (Nat × Op) := test ++ [(0 + 1, .beqz ⟨.otherwise, id⟩)]
  let middle : List (Nat × Op) := [(0, .br ⟨.done, id⟩), (0, .label ⟨.otherwise, id⟩)]
  have startLength : start.length = n + 1 := by
    rw [List.length_append, hn]
    rfl
  have whole : test ++ choiceDepths id 0 0 xs ys =
      start ++ (xs ++ (middle ++ (ys ++ [(0, .label ⟨.done, id⟩)]))) := by
    simp [choiceDepths, start, middle]
  rw [whole]
  refine List.forall_mem_append.mpr ⟨(hf.append_left rfl).append_right startLength, ?_⟩
  rw [← List.append_assoc, ← List.append_assoc]
  refine (hs.append_left rfl).append_right ?_
  rw [List.length_append, List.length_append, startLength, hk]
  rfl

theorem Settles.guarded {id : UInt32} {n : Nat} (test : List (Nat × Op)) (hf : Settles xs 0 parts)
    (hn : test.length = n) :
    Settles (test ++ guardedDepths id 0 xs) 0 (Stmt.behind (n + 1) parts) := by
  rw [guardedDepths, List.append_cons]
  refine (hf.append_left rfl).append_right ?_
  rw [List.length_append, hn]
  rfl

end Settles

namespace Stages

variable {first second code : List Op} {d m d' p q : Nat} {xs ys : List (Nat × Op)}

theorem append (hx : Stages first d m p xs) (hy : Stages second m d' q ys) :
    Stages (first ++ second) d d' (max p q) (xs ++ ys) := by
  constructor
  · rw [List.map_append, hx.code, hy.code]
  · apply (hx.flows.mono ?_).append (hy.flows.mono ?_)
    · intro l k h
      exact List.mem_append_left ys h
    · intro l k h
      exact List.mem_append_right xs h
  · have start := hy.flows.le_peak
    rw [hx.peak, hy.peak, peak_append, peak_eq_max xs m]
    omega

theorem single (d : Nat) (op : Op) (ht : op.target? = none) (hr : op ≠ .ret)
    (pops : op.pops ≤ d) :
    Stages [op] d (d - op.pops + op.pushes) (max d (d - op.pops + op.pushes)) [(d, op)] :=
  ⟨rfl, .step ht hr pops .nil, rfl⟩

theorem nil : Stages [] d d d [] := ⟨rfl, .nil, rfl⟩

theorem length_eq (h : Stages code d d' p xs) : xs.length = code.length := by
  rw [← h.code, List.length_map]

/-- A statement whose code this is starts on an empty stack. -/
theorem settles (h : Stages code 0 d' p xs) (s : Stmt) : Settles xs d' [(0, s)] :=
  List.forall_mem_singleton.mpr ⟨Nat.zero_le _, h.flows.depthAt_zero⟩

theorem congr {n k : Nat} (h : Stages code d d' p xs) (hd : d' = n) (hp : p = k) :
    Stages code d n k xs := by
  subst hd hp
  exact h

theorem choice (id : UInt32) (hf : Stages first d d' p xs) (hs : Stages second d d' q ys) :
    Stages (Lower.choice id first second) (d + 1) d' (max (d + 1) (max p q))
      (choiceDepths id d d' xs ys) where
  code := by simp [Lower.choice, choiceDepths, hf.code, hs.code]
  flows := by
    have start : Op.pops (.beqz ⟨.otherwise, id⟩) ≤ d + 1 := Nat.le_add_left 1 d
    refine .cons start (fun _ => rfl) ?_ (by simp) ((hf.flows.mono ?_).append ?_)
    · rintro l ⟨⟩
      simp [choiceDepths, Op.pops]
    · intro l k h
      simp [choiceDepths, h]
    refine .leave (m := d) rfl (Nat.zero_le _) ?_ (by simp) ?_
    · rintro l ⟨⟩
      simp [choiceDepths, Op.pops]
    refine .step rfl (by simp) (Nat.zero_le _) ((hs.flows.mono ?_).append ?_)
    · intro l k h
      simp [choiceDepths, h]
    · exact .step rfl (by simp) (Nat.zero_le _) .nil
  peak := by
    have left := hf.flows.le_peak
    have right := hs.flows.le_peak
    rw [hf.peak, hs.peak, choiceDepths, List.foldr_cons, peak_append]
    simp only [List.foldr_cons, peak_append, List.foldr_nil]
    rw [peak_eq_max _ d'] at left right ⊢
    rw [peak_eq_max ys d']
    omega

theorem guarded (id : UInt32) (hf : Stages first d d p xs) :
    Stages (Lower.guarded id first) (d + 1) d (max (d + 1) p) (guardedDepths id d xs) where
  code := by simp [Lower.guarded, guardedDepths, hf.code]
  flows := by
    have start : Op.pops (.beqz ⟨.done, id⟩) ≤ d + 1 := Nat.le_add_left 1 d
    refine .cons start (fun _ => rfl) ?_ (by simp) ((hf.flows.mono ?_).append ?_)
    · rintro l ⟨⟩
      simp [guardedDepths, Op.pops]
    · intro l k h
      simp [guardedDepths, h]
    · exact .step rfl (by simp) (Nat.zero_le _) .nil
  peak := by
    have left := hf.flows.le_peak
    rw [hf.peak, guardedDepths, List.foldr_cons, peak_append, peak_eq_max _ d]
    simp only [List.foldr_cons, List.foldr_nil]
    omega

end Stages

theorem ExprLowers.stages {e : Expr} {w : Walk} {code : List Op} {w' : Walk}
    (h : ExprLowers e w code w') (d : Nat) :
    ∃ xs, Stages code d (d + 1) (d + e.deepest) xs := by
  induction h generalizing d with
  | @literal _ v _ =>
      have push := Stages.single d (.push v) rfl (by simp) (Nat.zero_le d)
      exact ⟨_, push.congr rfl (by simp [Expr.deepest, Op.pops, Op.pushes])⟩
  | @var _ _ _ k _ =>
      have address := Stages.single d (.frameAddr k) rfl (by simp) (Nat.zero_le d)
      have load := Stages.single (d + 1) .load rfl (by simp) (Nat.le_add_left 1 d)
      exact ⟨_, (address.append load).congr rfl (by simp [Expr.deepest, Op.pops, Op.pushes])⟩
  | @assign _ _ _ _ _ _ k _ _ ih =>
      obtain ⟨xs, value⟩ := ih d
      have address := Stages.single (d + 1) (.frameAddr k) rfl (by simp) (Nat.zero_le (d + 1))
      have store := Stages.single (d + 2) .store rfl (by simp) (Nat.le_add_left 2 d)
      refine ⟨_, (value.append (address.append store)).congr rfl ?_⟩
      simp only [Expr.deepest, Op.pops, Op.pushes]
      omega
  | @conditional _ condition whenTrue whenFalse _ _ _ _ _ _ _ _ _ _ ihc iht ihf =>
      obtain ⟨_, test⟩ := ihc d
      obtain ⟨_, first⟩ := iht d
      obtain ⟨_, second⟩ := ihf d
      refine ⟨_, (test.append (first.choice _ second)).congr rfl ?_⟩
      have := condition.deepest_pos
      simp only [Expr.deepest]
      omega
  | @binary _ op left right _ _ _ _ _ _ _ ihl ihr =>
      obtain ⟨_, first⟩ := ihl d
      obtain ⟨_, second⟩ := ihr (d + 1)
      have operation := Stages.single (d + 2) (.binary op) rfl (by simp)
        (Nat.le_add_left 2 d)
      refine ⟨_, ((first.append second).append operation).congr rfl ?_⟩
      have := right.deepest_pos
      simp only [Expr.deepest, Op.pops, Op.pushes]
      omega
  | @unary _ op operand _ _ _ _ ih =>
      obtain ⟨_, value⟩ := ih d
      have operation := Stages.single (d + 1) (.unary op) rfl (by simp)
        (Nat.le_add_left 1 d)
      refine ⟨_, (value.append operation).congr rfl ?_⟩
      have := operand.deepest_pos
      simp only [Expr.deepest, Op.pops, Op.pushes]
      omega
  | paren _ ih => exact ih d

theorem stages_store (k : UInt32) : ∃ xs, Stages [.frameAddr k, .store, .pop] 1 0 2 xs := by
  have address := Stages.single 1 (.frameAddr k) rfl (by simp) (Nat.zero_le 1)
  have store := Stages.single 2 .store rfl (by simp) (Nat.le_refl 2)
  have drop := Stages.single 1 .pop rfl (by simp) (Nat.le_refl 1)
  exact ⟨_, (address.append (store.append drop)).congr rfl rfl⟩

theorem StmtLowers.stages {s : Stmt} {w : Walk} {code : List Op} {w' : Walk}
    (h : StmtLowers s w code w') :
    ∃ xs, Stages code 0 0 s.deepest xs ∧ Settles xs 0 s.parts := by
  induction h with
  | @ret _ value _ _ _ he =>
      obtain ⟨_, result⟩ := he.stages 0
      have last : Stages [.ret] 1 0 1 [(1, .ret)] :=
        ⟨rfl, .leave rfl (Nat.le_refl 1) (by simp [Op.target?]) (fun _ => rfl) .nil, rfl⟩
      have whole := result.append last
      refine ⟨_, whole.congr rfl ?_, whole.settles _⟩
      have := value.deepest_pos
      simp only [Stmt.deepest]
      omega
  | @expr _ value _ _ _ he =>
      obtain ⟨_, result⟩ := he.stages 0
      have drop := Stages.single 1 .pop rfl (by simp) (Nat.le_refl 1)
      have whole := result.append drop
      refine ⟨_, whole.congr rfl ?_, whole.settles _⟩
      have := value.deepest_pos
      simp only [Stmt.deepest, Op.pops, Op.pushes]
      omega
  | empty => exact ⟨[], .nil, Stages.nil.settles _⟩
  | @ifThen _ condition _ w _ _ _ _ hc _ ih =>
      obtain ⟨_, test⟩ := hc.stages 0
      obtain ⟨_, first, settles⟩ := ih
      have whole := test.append (first.guarded w.nextLabel)
      refine ⟨_, whole.congr rfl ?_, List.forall_mem_cons.mpr ⟨?_, ?_⟩⟩
      · have := condition.deepest_pos
        simp only [Stmt.deepest]
        omega
      · exact whole.settles _ _ (List.mem_singleton_self _)
      · exact settles.guarded _ (test.length_eq.trans hc.length_eq)
  | @ifElse _ condition _ _ w _ _ _ _ _ _ hc ht _ iht ihf =>
      obtain ⟨_, test⟩ := hc.stages 0
      obtain ⟨_, first, settlesFirst⟩ := iht
      obtain ⟨_, second, settlesSecond⟩ := ihf
      have whole := test.append (first.choice w.nextLabel second)
      refine ⟨_, whole.congr rfl ?_, List.forall_mem_cons.mpr ⟨?_, ?_⟩⟩
      · have := condition.deepest_pos
        simp only [Stmt.deepest]
        omega
      · exact whole.settles _ _ (List.mem_singleton_self _)
      · exact settlesFirst.choice _ settlesSecond (test.length_eq.trans hc.length_eq)
          (first.length_eq.trans ht.length_eq)
  | declare _ =>
      obtain ⟨_, store⟩ := stages_store _
      have zero := Stages.single 0 (.push 0) rfl (by simp) (Nat.le_refl 0)
      have whole := zero.append store
      exact ⟨_, whole.congr rfl rfl, whole.settles _⟩
  | declareInitial he _ =>
      obtain ⟨_, value⟩ := he.stages 0
      obtain ⟨_, store⟩ := stages_store _
      have whole := value.append store
      refine ⟨_, whole.congr rfl ?_, whole.settles _⟩
      simp only [Stmt.deepest]
      omega

theorem StmtsLower.stages {body : List Stmt} {w : Walk} {code : List Op} {w' : Walk}
    (h : StmtsLower body w code w') :
    ∃ xs, Stages (code ++ [.push 0]) 0 1 (body.foldr (fun s d => max s.deepest d) 1) xs ∧
      Settles xs 1 (Stmt.partsAll body) := by
  induction h with
  | nil =>
      refine ⟨_, Stages.single 0 (.push 0) rfl (by simp) (Nat.le_refl 0), ?_⟩
      exact fun _ hpart => (List.not_mem_nil hpart).elim
  | cons hs _ ih =>
      obtain ⟨_, first, settlesFirst⟩ := hs.stages
      obtain ⟨_, others, settlesOthers⟩ := ih
      rw [List.append_assoc]
      refine ⟨_, first.append others, List.forall_mem_append.mpr ⟨?_, ?_⟩⟩
      · exact settlesFirst.append_left others.flows.depthAt_zero
      · exact settlesOthers.append_right (first.length_eq.trans hs.length_eq)

/-- Addresses of slots below `locals` stand right before the operations that use them. -/
inductive Paired (locals : UInt32) : List Op → Prop
  | nil : Paired locals []
  | access {k op rest} : k < locals → op.isAccess = true → Paired locals rest →
      Paired locals (.frameAddr k :: op :: rest)
  | cons {op rest} : op.slot? = none → op.isAccess = false → Paired locals rest →
      Paired locals (op :: rest)

section Pairs

variable {locals : UInt32} {xs ys ops : List Op}

theorem Paired.append (hx : Paired locals xs) (hy : Paired locals ys) :
    Paired locals (xs ++ ys) := by
  induction hx with
  | nil => exact hy
  | access hk ha _ ih => exact .access hk ha ih
  | cons hs ha _ ih => exact .cons hs ha ih

theorem Paired.single (op : Op) (hs : op.slot? = none) (ha : op.isAccess = false) :
    Paired locals [op] := .cons hs ha .nil

theorem Paired.slot (h : Paired locals ops) {i : Nat} {k : UInt32}
    (hi : ops[i]? = some (.frameAddr k)) :
    k < locals ∧ ∃ user ∈ ops[i + 1]?, user.isAccess = true := by
  induction h generalizing i with
  | nil => cases hi
  | access hk ha _ ih =>
      match i with
      | 0 =>
          cases hi
          exact ⟨hk, _, rfl, ha⟩
      | 1 =>
          cases hi
          cases ha
      | i + 2 => exact ih hi
  | cons hs _ _ ih =>
      cases i with
      | zero =>
          cases hi
          cases hs
      | succ i => exact ih hi

theorem Paired.maker (h : Paired locals ops) {i : Nat} {op : Op} (hi : ops[i]? = some op)
    (ha : op.isAccess = true) :
    0 < i ∧ ∃ maker ∈ ops[i - 1]?, maker.slot?.isSome = true := by
  have before : ∃ j, i = j + 1 ∧ ∃ maker ∈ ops[j]?, maker.slot?.isSome = true := by
    induction h generalizing i with
    | nil => cases hi
    | access _ _ _ ih =>
        match i with
        | 0 =>
            cases hi
            cases ha
        | 1 => exact ⟨0, rfl, _, rfl, rfl⟩
        | i + 2 =>
            obtain ⟨j, rfl, maker⟩ := ih hi
            exact ⟨j + 2, rfl, maker⟩
    | cons _ hn _ ih =>
        cases i with
        | zero =>
            cases hi
            rw [hn] at ha
            cases ha
        | succ i =>
            obtain ⟨j, rfl, maker⟩ := ih hi
            exact ⟨j + 1, rfl, maker⟩
  obtain ⟨j, rfl, maker⟩ := before
  exact ⟨Nat.succ_pos j, maker⟩

theorem Paired.choice {id : UInt32} {first second : List Op} (hf : Paired locals first)
    (hs : Paired locals second) : Paired locals (Lower.choice id first second) := by
  have second : Paired locals (.br ⟨.done, id⟩ :: .label ⟨.otherwise, id⟩ :: second) :=
    .cons rfl rfl (.cons rfl rfl hs)
  have arms := (hf.append second).append (.single (.label ⟨.done, id⟩) rfl rfl)
  exact .cons rfl rfl arms

theorem Paired.guarded {id : UInt32} {first : List Op} (hf : Paired locals first) :
    Paired locals (Lower.guarded id first) :=
  .cons rfl rfl (hf.append (.single (.label ⟨.done, id⟩) rfl rfl))

end Pairs

theorem slot_lt {names : List String} (hlen : names.length < UInt32.size) {k : Nat}
    (hk : k < names.length) : UInt32.ofNat k < UInt32.ofNat names.length := by
  rw [UInt32.lt_iff_toNat_lt, UInt32.toNat_ofNat_of_lt' (Nat.lt_trans hk hlen),
    UInt32.toNat_ofNat_of_lt' hlen]
  exact hk

section Paired

variable {names : List String} (hlen : names.length < UInt32.size)

include hlen

theorem ExprLowers.paired {e : Expr} {w : Walk} {code : List Op} {w' : Walk}
    (h : ExprLowers e w code w') (hn : w'.scope.names <+: names) :
    Paired (.ofNat names.length) code := by
  have access {op : Op} (ha : op.isAccess = true) {w : Walk} {name : String} {slot : UInt32}
      (hw : w.scope.names <+: names) (hs : w.scope.slot? name = some slot) :
      Paired (.ofNat names.length) [.frameAddr slot, op] := by
    obtain ⟨k, hk, rfl⟩ := slot?_eq_some hw hs
    exact .access (slot_lt hlen (idxOf?_lt hk)) ha .nil
  induction h with
  | literal => exact .single _ rfl rfl
  | var hs => exact access rfl hn hs
  | assign _ hs ih => exact (ih hn).append (access rfl hn hs)
  | conditional _ ht hf ihc iht ihf =>
      have second := hf.scope ▸ hn
      exact (ihc (ht.scope ▸ second)).append ((iht second).choice (ihf hn))
  | binary _ hr ihl ihr => exact ((ihl (hr.scope ▸ hn)).append (ihr hn)).append (.single _ rfl rfl)
  | unary _ ih => exact (ih hn).append (.single _ rfl rfl)
  | paren _ ih => exact ih hn

theorem StmtLowers.paired {s : Stmt} {w : Walk} {code : List Op} {w' : Walk}
    (h : StmtLowers s w code w') (hn : w'.scope.names <+: names) :
    Paired (.ofNat names.length) code := by
  have store {w : Walk} {name : String} (hw : (w.declare name).scope.names <+: names) :
      Paired (.ofNat names.length) [.frameAddr w.scope.size, .store, .pop] := by
    have hlt := hw.length_le
    simp only [Walk.declare, List.length_append, List.length_singleton] at hlt
    exact .access (slot_lt hlen hlt) rfl (.single _ rfl rfl)
  induction h with
  | ret he | expr he => exact (he.paired hlen hn).append (.single _ rfl rfl)
  | empty => exact .nil
  | ifThen hc ht ih => exact (hc.paired hlen (ht.scope_prefix.trans hn)).append (ih hn).guarded
  | ifElse hc ht hf iht ihf =>
      have second := hf.scope_prefix.trans hn
      exact (hc.paired hlen (ht.scope_prefix.trans second)).append ((iht second).choice (ihf hn))
  | declare _ => exact .cons rfl rfl (store hn)
  | declareInitial he _ =>
      exact (he.paired hlen ((List.prefix_append _ _).trans hn)).append (store hn)

theorem StmtsLower.paired {body : List Stmt} {w : Walk} {code : List Op} {w' : Walk}
    (h : StmtsLower body w code w') (hn : w'.scope.names <+: names) :
    Paired (.ofNat names.length) code := by
  induction h with
  | nil => exact .nil
  | cons hs hrest ih => exact (hs.paired hlen (hrest.scope_prefix.trans hn)).append (ih hn)

end Paired

section Depths

variable {marked : Label → Nat → Prop} {d d' : Nat} {xs : List (Nat × Op)}

theorem depthAt_length (xs : List (Nat × Op)) (last : Nat) : depthAt xs last xs.length = last := by
  simp [depthAt]

theorem Flows.at (h : Flows marked d xs d') {i k : Nat} {op : Op} (hi : xs[i]? = some (k, op)) :
    op.pops ≤ k ∧
      (op.fallsThrough = true → depthAt xs d' (i + 1) = k - op.pops + op.pushes) ∧
      (∀ l ∈ op.target?, marked l (k - op.pops)) ∧ (op = .ret → k = 1) := by
  induction h generalizing i with
  | nil => cases hi
  | cons pops next branch ret rest ih =>
      cases i with
      | zero =>
          cases hi
          refine ⟨pops, ?_, branch, ret⟩
          intro through
          rw [← next through]
          exact rest.depthAt_zero
      | succ i => exact ih hi

theorem depthAt_le (i : Nat) : depthAt xs d' i ≤ xs.foldr (fun x m => max x.1 m) d' := by
  induction xs generalizing i with
  | nil => exact Nat.le_refl d'
  | cons x xs ih =>
      cases i with
      | zero => exact Nat.le_max_left _ _
      | succ i => exact Nat.le_trans (ih i) (Nat.le_max_right _ _)

/-- The peak is the depth of some position. -/
theorem exists_depthAt_eq (xs : List (Nat × Op)) (d' : Nat) : ∃ i, i ≤ xs.length ∧
    depthAt xs d' i = xs.foldr (fun x m => max x.1 m) d' := by
  induction xs with
  | nil => exact ⟨0, Nat.le_refl 0, rfl⟩
  | cons x xs ih =>
      obtain ⟨i, hle, hi⟩ := ih
      rw [List.foldr_cons]
      rcases Nat.le_total x.1 (xs.foldr (fun x m => max x.1 m) d') with h | h
      · exact ⟨i + 1, Nat.succ_le_succ hle, hi.trans (Nat.max_eq_right h).symm⟩
      · exact ⟨0, Nat.zero_le _, (Nat.max_eq_left h).symm⟩

theorem getElem?_depthAt {r : Routine} (hcode : xs.map Prod.snd = r.ops) {i : Nat} {op : Op}
    (hop : r.ops[i]? = some op) : xs[i]? = some (depthAt xs d' i, op) := by
  rw [← hcode, List.getElem?_map] at hop
  obtain ⟨⟨k, _⟩, hk, rfl⟩ := Option.map_eq_some_iff.mp hop
  rw [depthAt, hk]
  rfl

/-- Code whose depths flow along it and whose addresses are paired with their users is disciplined
if its labels are defined once. -/
theorem Flows.disciplined {r : Routine} (hcode : xs.map Prod.snd = r.ops)
    (h : Flows (fun l k => (k, .label l) ∈ xs) 0 xs 1) (once : (marks r.ops).Nodup)
    (paired : Paired r.localCount r.ops) : Disciplined r (depthAt xs 1) where
  once := once
  start := h.depthAt_zero
  finish := by
    have length := congrArg List.length hcode
    rw [List.length_map] at length
    rw [← length]
    exact depthAt_length xs 1
  obeys i op hop := by
    obtain ⟨pops, next, branch, ret⟩ := h.at (getElem?_depthAt hcode hop)
    refine ⟨pops, next, ?_, ret, ?_, paired.maker hop⟩
    · intro l hl
      obtain ⟨j, hj⟩ := List.mem_iff_getElem?.mp (branch l hl)
      have label : r.ops[j]? = some (.label l) := by
        rw [← hcode, List.getElem?_map, hj]
        rfl
      refine ⟨j, position?_eq_some_of_once once label, ?_⟩
      rw [depthAt, hj]
      rfl
    · intro k hslot
      cases op with
      | frameAddr _ =>
          cases hslot
          exact paired.slot hop
      | _ => cases hslot

end Depths

/-- Lowering makes disciplined code. The depths of its stack reach the deepest stack of the
program, and none is beyond; every statement starts on an empty stack. -/
theorem Routine.ofProgram_disciplined {p : Program} {r : Routine}
    (h : Routine.ofProgram p = .ok r) (choices : p.choices ≤ UInt32.size)
    (declared : p.declared.length < UInt32.size) :
    ∃ depth, Disciplined r depth ∧ (∀ i, depth i ≤ p.deepest) ∧
      (∃ i, i ≤ r.ops.length ∧ depth i = p.deepest) ∧ ∀ part ∈ p.parts, depth part.1 = 0 := by
  have once := ofProgram_once h ⟨choices, Nat.le_of_lt declared⟩
  obtain ⟨code, w, lowered, -, rfl⟩ := ofProgram_eq_ok h
  obtain ⟨xs, ⟨hcode, flows, peak⟩, settles⟩ := lowered.stages
  have scope := lowered.scope
  have names : w.scope.names.length < UInt32.size := by
    rw [scope]
    exact declared
  have paired : Paired w.scope.size (code ++ [.push 0]) :=
    (lowered.paired names List.prefix_rfl).append (.single _ rfl rfl)
  refine ⟨depthAt xs 1, flows.disciplined hcode once paired, ?_, ?_, ?_⟩
  · intro i
    rw [Program.deepest, peak]
    exact depthAt_le i
  · obtain ⟨i, hle, hi⟩ := exists_depthAt_eq xs 1
    have length := congrArg List.length hcode
    rw [List.length_map] at length
    rw [length] at hle
    exact ⟨i, hle, hi.trans peak.symm⟩
  · intro part hpart
    exact (settles part hpart).2

/-- The operations of a lowered program have depths of the operand stack that keep to the
discipline, and are zero wherever the code of a statement starts. -/
theorem Routine.ofProgram_operand_depths {p : Program} {r : Routine}
    (h : Routine.ofProgram p = .ok r) (choices : p.choices ≤ UInt32.size)
    (declared : p.declared.length < UInt32.size) :
    ∃ depth, Disciplined r depth ∧
      ∀ part ∈ p.parts, Stands part.2 part.1 r.ops ∧ depth part.1 = 0 := by
  obtain ⟨depth, d, -, -, settled⟩ := ofProgram_disciplined h choices declared
  have stands := ofProgram_stands h
  exact ⟨depth, d, fun part hpart => ⟨stands part hpart, settled part hpart⟩⟩

/-- A function that may return from the middle of an `if`, with code behind it. -/
def earlyReturn : Program :=
  let p : Position := .start
  let a : Expr := .var p "a"
  ⟨"main",
    [.declare p "a" p (some (.literal p 1)),
      .ifElse p a
        (.ret p (.binary p .add (.literal p 2) (.conditional p a (.literal p 3) a)))
        (.empty p),
      .expr p (.assign p "a" (.literal p 5))], p⟩

theorem earlyReturn_operand_depths : ∃ r, Routine.ofProgram earlyReturn = .ok r ∧
    earlyReturn.choices ≤ UInt32.size ∧ earlyReturn.declared.length < UInt32.size ∧
    ∃ depth, Disciplined r depth ∧ depth 7 = 0 ∧ r.ops[7]? = some (.push 2) := by
  have choices : earlyReturn.choices ≤ UInt32.size := by decide
  have declared : earlyReturn.declared.length < UInt32.size := by decide
  refine ⟨_, rfl, choices, declared, ?_⟩
  obtain ⟨depth, d, settled⟩ :=
    Routine.ofProgram_operand_depths (p := earlyReturn) rfl choices declared
  have part : ∃ s, (7, s) ∈ earlyReturn.parts :=
    ⟨_, .tail _ (.tail _ (.head _))⟩
  obtain ⟨s, hs⟩ := part
  exact ⟨depth, d, (settled _ hs).2, rfl⟩

end Ir

end IntLang
