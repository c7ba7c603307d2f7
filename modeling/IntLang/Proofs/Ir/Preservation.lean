import IntLang.Proofs.Ir.Labels
/-!
Lowering keeps the meaning: the reference machine on the code of a program ends as the evaluation
of its tree does. Where the evaluation reads a variable that holds nothing, the machine ends at the
load from the slot of that variable.
-/
namespace IntLang.Ir

namespace ExprLowers

variable {e : Expr} {w w' : Walk} {code : List Op}

theorem scope (h : ExprLowers e w code w') : w'.scope = w.scope := by
  induction h with
  | literal | var _ => rfl
  | assign _ _ ih | unary _ ih | paren _ ih => exact ih
  | conditional _ _ _ ihc iht ihf => exact ihf.trans (iht.trans ihc)
  | binary _ _ ihl ihr => exact ihr.trans ihl

end ExprLowers

theorem StmtLowers.scope {s : Stmt} {w : Walk} {code : List Op} {w' : Walk}
    (h : StmtLowers s w code w') : w'.scope.names = w.scope.names ++ s.declared := by
  induction h with
  | ret he | expr he => simp [he.scope, Stmt.declared]
  | empty => simp [Stmt.declared]
  | ifThen hc _ ih => simp [ih, hc.scope, Stmt.declared]
  | ifElse hc _ _ iht ihf => simp [ihf, iht, hc.scope, Stmt.declared]
  | declare _ => rfl
  | declareInitial he _ => simp [Walk.declare, he.scope, Stmt.declared]

theorem StmtsLower.scope {body : List Stmt} {w : Walk} {code : List Op} {w' : Walk}
    (h : StmtsLower body w code w') :
    w'.scope.names = w.scope.names ++ body.flatMap Stmt.declared := by
  induction h with
  | nil => simp
  | cons hs _ ih => simp [ih, hs.scope]

theorem StmtLowers.scope_prefix {s : Stmt} {w : Walk} {code : List Op} {w' : Walk}
    (h : StmtLowers s w code w') : w.scope.names <+: w'.scope.names := by
  rw [h.scope]
  exact List.prefix_append _ _

theorem StmtsLower.scope_prefix {body : List Stmt} {w : Walk} {code : List Op} {w' : Walk}
    (h : StmtsLower body w code w') : w.scope.names <+: w'.scope.names := by
  rw [h.scope]
  exact List.prefix_append _ _

/-- The words of the variables lie in their slots. -/
def Agrees (names : List String) (env : Env) (slots : Slots) : Prop :=
  ∀ name k, names.idxOf? name = some k → slots (.ofNat k) = env name

theorem idxOf?_of_prefix {xs ys : List String} (h : xs <+: ys) {name : String} {k : Nat}
    (hk : xs.idxOf? name = some k) : ys.idxOf? name = some k := by
  obtain ⟨zs, rfl⟩ := h
  rw [List.idxOf?] at hk ⊢
  rw [List.findIdx?_append, hk]
  rfl

theorem idxOf?_inj {names : List String} {a b : String} {k : Nat}
    (ha : names.idxOf? a = some k) (hb : names.idxOf? b = some k) : a = b := by
  obtain ⟨_, rfl, _⟩ := List.idxOf?_eq_some_iff.mp ha
  obtain ⟨_, rfl, _⟩ := List.idxOf?_eq_some_iff.mp hb
  rfl

theorem idxOf?_lt {names : List String} {a : String} {k : Nat} (h : names.idxOf? a = some k) :
    k < names.length := (List.idxOf?_eq_some_iff.mp h).1

theorem idxOf?_declared {scope : List String} {name : String} (fresh : name ∉ scope)
    {names : List String} (h : scope ++ [name] <+: names) :
    names.idxOf? name = some scope.length := by
  apply idxOf?_of_prefix h
  rw [List.idxOf?_eq_some_iff]
  refine ⟨by simp, by simp, ?_⟩
  intro j hj heq
  rw [List.getElem_append_left hj] at heq
  exact fresh (heq ▸ List.getElem_mem hj)

theorem Agrees.update {names : List String} {env : Env} {slots : Slots}
    (h : Agrees names env slots) (hlen : names.length ≤ UInt32.size) {target : String} {k : Nat}
    (hk : names.idxOf? target = some k) (v : Word) :
    Agrees names (Function.update env target (some v))
      (Function.update slots (.ofNat k) (some v)) := by
  intro name j hj
  by_cases hname : name = target
  · subst hname
    rw [hk] at hj
    cases hj
    simp
  · have hjk : UInt32.ofNat j ≠ UInt32.ofNat k := by
      intro heq
      have hj' := Nat.lt_of_lt_of_le (idxOf?_lt hj) hlen
      have hk' := Nat.lt_of_lt_of_le (idxOf?_lt hk) hlen
      have same := congrArg UInt32.toNat heq
      rw [UInt32.toNat_ofNat_of_lt' hj', UInt32.toNat_ofNat_of_lt' hk'] at same
      subst same
      exact hname (idxOf?_inj hj hk)
    rw [Function.update_of_ne hjk, Function.update_of_ne hname]
    exact h name j hj

/-- Where a name has a slot, the slot is numbered by the position of the name among all names. -/
theorem slot?_eq_some {scope : Scope} {names : List String} (h : scope.names <+: names)
    {name : String} {slot : UInt32} (hs : scope.slot? name = some slot) :
    ∃ k, names.idxOf? name = some k ∧ slot = .ofNat k := by
  obtain ⟨k, hk, rfl⟩ := Option.map_eq_some_iff.mp hs
  exact ⟨k, idxOf?_of_prefix h hk, rfl⟩

/-- The run from `s` follows an evaluation: it comes to where its result is `good`, or ends at the
slot of the variable that held nothing. -/
def Follows {α : Type} (ops : List Op) (names : List String) (s : State) (good : α → Prop) :
    Except String α → Prop
  | .ok a => good a
  | .error name => ∃ k, names.idxOf? name = some k ∧ Ends ops s (.unassigned (.ofNat k))

namespace Follows

variable {α β : Type} {ops : List Op} {names : List String} {s : State} {good : α → Prop}
  {good' : β → Prop} {x : Except String α} {f : α → Except String β}

theorem bind (h : Follows ops names s good x)
    (hf : ∀ a, good a → Follows ops names s good' (f a)) :
    Follows ops names s good' (x >>= f) := by
  cases x with
  | ok a => exact hf a h
  | error name => exact h

theorem imp {good₁ : α → Prop} (h : Follows ops names s good x)
    (hg : ∀ a, good a → good₁ a) : Follows ops names s good₁ x := by
  cases x with
  | ok a => exact hg a h
  | error name => exact h

end Follows

/-- The run from `s` comes to `rest` with the value on the stack and the variables in their
slots. -/
def Leaves (ops : List Op) (names : List String) (s : State) (rest : List Op) (stack : List Word) :
    Word × Env → Prop
  | (v, env) => ∃ slots, Agrees names env slots ∧
      Reaches ops s ⟨before ops rest, v :: stack, slots⟩

/-- The run from `s` comes to `rest` with the variables in their slots, or ends with the word that
is returned. -/
def Completes (ops : List Op) (names : List String) (s : State) (rest : List Op)
    (stack : List Word) : Completion → Prop
  | .normal env => ∃ slots, Agrees names env slots ∧
      Reaches ops s ⟨before ops rest, stack, slots⟩
  | .returned v => Ends ops s (.returned v)

section Steps

variable {ops : List Op} {op : Op} {rest : List Op} {stack : List Word} {slots : Slots} {s : State}

theorem step_before (h : (op :: rest) <:+ ops) :
    step ops ⟨before ops (op :: rest), stack, slots⟩ =
      perform ops ⟨before ops (op :: rest), stack, slots⟩ op := by
  rw [step, getElem?_before h]

theorem Reaches.next (hr : Reaches ops s ⟨before ops (op :: rest), stack, slots⟩)
    (h : (op :: rest) <:+ ops) {stack' : List Word} {slots' : Slots}
    (hp : perform ops ⟨before ops (op :: rest), stack, slots⟩ op =
      .ok ⟨before ops (op :: rest) + 1, stack', slots'⟩) :
    Reaches ops s ⟨before ops rest, stack', slots'⟩ := by
  apply hr.tail
  rw [step_before h, hp, before_succ h]

theorem Reaches.jump (once : (marks ops).Nodup) {l : Label} {behind : List Op}
    (hr : Reaches ops s ⟨before ops (op :: rest), stack, slots⟩) (h : (op :: rest) <:+ ops)
    (hl : (.label l :: behind) <:+ ops) {stack' : List Word}
    (hp : perform ops ⟨before ops (op :: rest), stack, slots⟩ op =
      Ir.jump ops l stack' ⟨before ops (op :: rest), stack, slots⟩) :
    Reaches ops s ⟨before ops behind, stack', slots⟩ := by
  refine Reaches.next (hr.tail ?_) hl rfl
  rw [step_before h, hp, Ir.jump, position?_before once hl]

theorem Reaches.label {l : Label} (hr : Reaches ops s ⟨before ops (.label l :: rest), stack, slots⟩)
    (h : (.label l :: rest) <:+ ops) : Reaches ops s ⟨before ops rest, stack, slots⟩ :=
  hr.next h rfl

end Steps

section Choice

variable {ops : List Op} {id : UInt32} {first second rest : List Op} {stack : List Word}
  {slots : Slots} {s : State} {v : Word}

def choiceEnd (id : UInt32) (second rest : List Op) : List Op :=
  .br ⟨.done, id⟩ :: .label ⟨.otherwise, id⟩ :: (second ++ .label ⟨.done, id⟩ :: rest)

theorem choice_append (id : UInt32) (first second rest : List Op) :
    Lower.choice id first second ++ rest =
      .beqz ⟨.otherwise, id⟩ :: (first ++ choiceEnd id second rest) := by
  simp [Lower.choice, choiceEnd]

theorem guarded_append (id : UInt32) (first rest : List Op) :
    Lower.guarded id first ++ rest =
      .beqz ⟨.done, id⟩ :: (first ++ .label ⟨.done, id⟩ :: rest) := by
  simp [Lower.guarded]

theorem otherwise_suffix (h : (Lower.choice id first second ++ rest) <:+ ops) :
    (.label ⟨.otherwise, id⟩ :: (second ++ .label ⟨.done, id⟩ :: rest)) <:+ ops := by
  rw [choice_append] at h
  exact suffix_of_cons (suffix_of_append (suffix_of_cons h))

theorem done_suffix (h : (Lower.choice id first second ++ rest) <:+ ops) :
    (.label ⟨.done, id⟩ :: rest) <:+ ops :=
  suffix_of_append (suffix_of_cons (otherwise_suffix h))

theorem firstArm_suffix (h : (Lower.choice id first second ++ rest) <:+ ops) :
    (first ++ choiceEnd id second rest) <:+ ops := by
  rw [choice_append] at h
  exact suffix_of_cons h

theorem Reaches.firstArm (h : (Lower.choice id first second ++ rest) <:+ ops) (hv : v ≠ 0)
    (hr : Reaches ops s ⟨before ops (Lower.choice id first second ++ rest), v :: stack, slots⟩) :
    Reaches ops s ⟨before ops (first ++ choiceEnd id second rest), stack, slots⟩ := by
  rw [choice_append] at h hr
  exact hr.next h (by simp [perform, hv, State.next])

theorem Reaches.secondArm (once : (marks ops).Nodup)
    (h : (Lower.choice id first second ++ rest) <:+ ops)
    (hr : Reaches ops s ⟨before ops (Lower.choice id first second ++ rest), 0 :: stack, slots⟩) :
    Reaches ops s ⟨before ops (second ++ .label ⟨.done, id⟩ :: rest), stack, slots⟩ := by
  have target := otherwise_suffix h
  rw [choice_append] at h hr
  exact hr.jump once h target (by simp [perform])

theorem Reaches.choiceEnd (once : (marks ops).Nodup)
    (h : (Lower.choice id first second ++ rest) <:+ ops)
    (hr : Reaches ops s ⟨before ops (choiceEnd id second rest), stack, slots⟩) :
    Reaches ops s ⟨before ops rest, stack, slots⟩ := by
  have target := done_suffix h
  exact hr.jump once (suffix_of_append (firstArm_suffix h)) target rfl

end Choice

section Preservation

variable {ops : List Op} {names : List String}

theorem ExprLowers.follows (once : (marks ops).Nodup) (hlen : names.length ≤ UInt32.size) {e : Expr}
    {w : Walk} {code : List Op} {w' : Walk} (h : ExprLowers e w code w')
    (hn : w'.scope.names <+: names) {rest : List Op} (hs : (code ++ rest) <:+ ops) {s : State}
    {stack : List Word} {slots : Slots} {env : Env} (agree : Agrees names env slots)
    (hr : Reaches ops s ⟨before ops (code ++ rest), stack, slots⟩) :
    Follows ops names s (Leaves ops names s rest stack) (e.eval env) := by
  induction h generalizing rest stack slots env with
  | literal => exact ⟨slots, agree, hr.next hs rfl⟩
  | @var p name w slot hslot =>
      obtain ⟨k, hk, rfl⟩ := slot?_eq_some hn hslot
      have load : (.load :: rest) <:+ ops := suffix_of_cons hs
      have reached : Reaches ops s
          ⟨before ops (.load :: rest), (UInt32.ofNat k).toInt32 :: stack, slots⟩ := hr.next hs rfl
      have held := agree name k hk
      rw [Expr.eval]
      cases hv : env name with
      | some v =>
          rw [hv] at held
          exact ⟨slots, agree, reached.next load (by simp [perform, held, State.next])⟩
      | none =>
          rw [hv] at held
          refine ⟨k, hk, .of_reaches reached (.of_step ?_)⟩
          rw [step_before load]
          simp [perform, held]
  | @assign p target value w code w' slot _ hslot ih =>
      obtain ⟨k, hk, rfl⟩ := slot?_eq_some hn hslot
      rw [List.append_assoc] at hs hr
      apply (ih hn hs agree hr).bind
      rintro ⟨v, env₁⟩ ⟨slots₁, agree₁, hr₁⟩
      have stored := suffix_of_append hs
      refine ⟨_, agree₁.update hlen hk v, (hr₁.next stored rfl).next (suffix_of_cons stored) ?_⟩
      simp [perform]
  | @conditional p condition whenTrue whenFalse w test w₁ first w₂ second w₃ _ ht hf ihc iht ihf =>
      have hn₂ : w₂.scope.names <+: names := by rwa [← hf.scope]
      have hn₁ : w₁.scope.names <+: names := by rwa [← ht.scope]
      rw [List.append_assoc] at hs hr
      apply (ihc hn₁ hs agree hr).bind
      rintro ⟨v, env₁⟩ ⟨slots₁, agree₁, hr₁⟩
      have chosen := suffix_of_append hs
      by_cases hv : v = 0
      · subst hv
        have arm := suffix_of_cons (otherwise_suffix chosen)
        apply (ihf hn arm agree₁ (hr₁.secondArm once chosen)).imp
        rintro ⟨v, env₂⟩ ⟨slots₂, agree₂, hr₂⟩
        exact ⟨slots₂, agree₂, hr₂.label (done_suffix chosen)⟩
      · have arm := firstArm_suffix chosen
        simp only [ne_eq, hv, not_false_eq_true, if_true]
        apply (iht hn₂ arm agree₁ (hr₁.firstArm chosen hv)).imp
        rintro ⟨v, env₂⟩ ⟨slots₂, agree₂, hr₂⟩
        exact ⟨slots₂, agree₂, hr₂.choiceEnd once chosen⟩
  | @binary p op left right w first w₁ second w₂ _ hright ihl ihr =>
      have hn₁ : w₁.scope.names <+: names := by rwa [← hright.scope]
      rw [List.append_assoc, List.append_assoc] at hs hr
      apply (ihl hn₁ hs agree hr).bind
      rintro ⟨a, env₁⟩ ⟨slots₁, agree₁, hr₁⟩
      apply (ihr hn (suffix_of_append hs) agree₁ hr₁).bind
      rintro ⟨b, env₂⟩ ⟨slots₂, agree₂, hr₂⟩
      exact ⟨slots₂, agree₂, hr₂.next (suffix_of_append (suffix_of_append hs)) rfl⟩
  | unary _ ih =>
      rw [List.append_assoc] at hs hr
      apply (ih hn hs agree hr).bind
      rintro ⟨a, env₁⟩ ⟨slots₁, agree₁, hr₁⟩
      exact ⟨slots₁, agree₁, hr₁.next (suffix_of_append hs) rfl⟩
  | paren _ ih => exact ih hn hs agree hr

theorem Completes.onward {s : State} {rest behind : List Op} {stack : List Word} {c : Completion}
    (h : Completes ops names s rest stack c)
    (go : ∀ slots, Reaches ops s ⟨before ops rest, stack, slots⟩ →
      Reaches ops s ⟨before ops behind, stack, slots⟩) :
    Completes ops names s behind stack c := by
  cases c with
  | normal env =>
      obtain ⟨slots, agree, hr⟩ := h
      exact ⟨slots, agree, go slots hr⟩
  | returned v => exact h

theorem Leaves.declare (hlen : names.length ≤ UInt32.size) {scope : List String} {name : String}
    (fresh : name ∉ scope) (hn : scope ++ [name] <+: names) {s : State} {rest : List Op}
    {stack : List Word} {slot : UInt32} (hslot : slot = .ofNat scope.length)
    (hs : (.frameAddr slot :: .store :: .pop :: rest) <:+ ops) {v : Word} {env : Env}
    (h : Leaves ops names s (.frameAddr slot :: .store :: .pop :: rest) stack (v, env)) :
    Completes ops names s rest stack (.normal (Function.update env name (some v))) := by
  subst hslot
  obtain ⟨slots, agree, hr⟩ := h
  have store := suffix_of_cons hs
  have pop := suffix_of_cons store
  have stored : Reaches ops s ⟨before ops (.pop :: rest), v :: stack,
      Function.update slots (.ofNat scope.length) (some v)⟩ :=
    (hr.next hs rfl).next store (by simp [perform])
  exact ⟨_, agree.update hlen (idxOf?_declared fresh hn) v, stored.next pop rfl⟩

theorem StmtLowers.follows (once : (marks ops).Nodup) (hlen : names.length ≤ UInt32.size)
    {st : Stmt} {w : Walk} {code : List Op} {w' : Walk} (h : StmtLowers st w code w')
    (hn : w'.scope.names <+: names) {rest : List Op} (hs : (code ++ rest) <:+ ops) {s : State}
    {stack : List Word} {slots : Slots} {env : Env} (agree : Agrees names env slots)
    (hr : Reaches ops s ⟨before ops (code ++ rest), stack, slots⟩) :
    Follows ops names s (Completes ops names s rest stack) (st.exec env) := by
  induction h generalizing rest stack slots env with
  | ret he =>
      rw [List.append_assoc] at hs hr
      apply (he.follows once hlen hn hs agree hr).bind
      rintro ⟨v, env₁⟩ ⟨slots₁, agree₁, hr₁⟩
      exact .of_reaches hr₁ (.of_step (step_before (suffix_of_append hs)))
  | expr he =>
      rw [List.append_assoc] at hs hr
      apply (he.follows once hlen hn hs agree hr).bind
      rintro ⟨v, env₁⟩ ⟨slots₁, agree₁, hr₁⟩
      exact ⟨slots₁, agree₁, hr₁.next (suffix_of_append hs) rfl⟩
  | empty => exact ⟨slots, agree, hr⟩
  | @ifThen p condition whenTrue w test w₁ first w₂ hc ht ih =>
      have hn₁ := ht.scope_prefix.trans hn
      rw [List.append_assoc] at hs hr
      apply (hc.follows once hlen hn₁ hs agree hr).bind
      rintro ⟨v, env₁⟩ ⟨slots₁, agree₁, hr₁⟩
      have test := suffix_of_append hs
      rw [guarded_append] at test hr₁
      have arm := suffix_of_cons test
      have done := suffix_of_append arm
      by_cases hv : v = 0
      · subst hv
        exact ⟨slots₁, agree₁, hr₁.jump once test done (by simp [perform])⟩
      · simp only [ne_eq, hv, not_false_eq_true, if_true]
        have taken : Reaches ops s
            ⟨before ops (first ++ .label ⟨.done, w.nextLabel⟩ :: rest), stack, slots₁⟩ :=
          hr₁.next test (by simp [perform, hv, State.next])
        apply (ih hn arm agree₁ taken).imp
        intro _ completed
        exact completed.onward (fun _ hr₂ => hr₂.label done)
  | @ifElse p condition whenTrue whenFalse w test w₁ first w₂ second w₃ hc ht hf iht ihf =>
      have hn₂ := hf.scope_prefix.trans hn
      rw [List.append_assoc] at hs hr
      apply (hc.follows once hlen (ht.scope_prefix.trans hn₂) hs agree hr).bind
      rintro ⟨v, env₁⟩ ⟨slots₁, agree₁, hr₁⟩
      have chosen := suffix_of_append hs
      by_cases hv : v = 0
      · subst hv
        have arm := suffix_of_cons (otherwise_suffix chosen)
        apply (ihf hn arm agree₁ (hr₁.secondArm once chosen)).imp
        intro _ completed
        exact completed.onward (fun _ hr₂ => hr₂.label (done_suffix chosen))
      · have arm := firstArm_suffix chosen
        simp only [ne_eq, hv, not_false_eq_true, if_true]
        apply (iht hn₂ arm agree₁ (hr₁.firstArm chosen hv)).imp
        intro _ completed
        exact completed.onward (fun _ hr₂ => hr₂.choiceEnd once chosen)
  | declare fresh =>
      exact Leaves.declare hlen fresh hn rfl (suffix_of_cons hs) ⟨slots, agree, hr.next hs rfl⟩
  | declareInitial he fresh =>
      have hn₁ := (List.prefix_append _ _).trans hn
      rw [List.append_assoc] at hs hr
      apply (he.follows once hlen hn₁ hs agree hr).bind
      rintro ⟨v, env₁⟩ left
      exact Leaves.declare hlen fresh hn rfl (suffix_of_append hs) left

theorem StmtsLower.follows (once : (marks ops).Nodup) (hlen : names.length ≤ UInt32.size)
    {body : List Stmt} {w : Walk} {code : List Op} {w' : Walk} (h : StmtsLower body w code w')
    (hn : w'.scope.names <+: names) {rest : List Op} (hs : (code ++ rest) <:+ ops) {s : State}
    {stack : List Word} {slots : Slots} {env : Env} (agree : Agrees names env slots)
    (hr : Reaches ops s ⟨before ops (code ++ rest), stack, slots⟩) :
    Follows ops names s (Completes ops names s rest stack) (Stmt.execAll body env) := by
  induction h generalizing slots env with
  | nil => exact ⟨slots, agree, hr⟩
  | cons hst hrest ih =>
      rw [List.append_assoc] at hs hr
      apply (hst.follows once hlen (hrest.scope_prefix.trans hn) hs agree hr).bind
      rintro (env₁ | v) completed
      · obtain ⟨slots₁, agree₁, hr₁⟩ := completed
        exact ih hn (suffix_of_append hs) agree₁ hr₁
      · exact completed

end Preservation

namespace Routine

variable {p : Program} {r : Routine}

theorem ofProgram_once (h : Routine.ofProgram p = .ok r) (fits : p.FitsCounters) :
    (marks r.ops).Nodup := by
  obtain ⟨code, w, lowered, -, rfl⟩ := ofProgram_eq_ok h
  have choices := fits.choices_le
  obtain ⟨-, range⟩ := lowered.labels (a := 0) rfl (by simpa [Program.choices] using choices)
  exact (range.append (.of_unmarked _ rfl)).once

/-- The run of a lowered program follows the evaluation of the program. -/
theorem ofProgram_follows (h : Routine.ofProgram p = .ok r) (fits : p.FitsCounters) :
    Follows r.ops p.declared (.start .empty)
      (fun v => Ends r.ops (.start .empty) (.returned v)) p.eval := by
  have once := ofProgram_once h fits
  obtain ⟨code, w, lowered, -, rfl⟩ := ofProgram_eq_ok h
  have scope : w.scope.names <+: p.declared := by
    rw [lowered.scope]
    exact List.prefix_rfl
  have agree : Agrees p.declared (fun _ => none) Slots.empty := fun _ _ _ => rfl
  have start : Reaches (code ++ [.push 0]) (.start .empty)
      ⟨before (code ++ [.push 0]) (code ++ [.push 0]), [], .empty⟩ := by
    rw [before, Nat.sub_self]
    exact .refl
  apply (lowered.follows once fits.declared_le scope List.suffix_rfl agree start).bind
  rintro (env | v) completed
  · obtain ⟨slots, -, reached⟩ := completed
    have last : [Op.push 0] <:+ code ++ [.push 0] := List.suffix_append _ _
    refine .of_reaches (reached.next last rfl) (.of_step ?_)
    simp [step, before]
  · exact completed

/-- The code of a program that is accepted ends as its evaluation does: with the same word, or at
the load from the slot of the variable that held nothing. It never gets stuck and never runs for
ever. -/
theorem ofProgram_preserves_evaluation (h : Routine.ofProgram p = .ok r)
    (fits : p.FitsCounters) :
    (∀ v, p.eval = .ok v → Ends r.ops (.start .empty) (.returned v)) ∧
      (∀ name, p.eval = .error name → ∃ k, p.declared.idxOf? name = some k ∧
        Ends r.ops (.start .empty) (.unassigned (.ofNat k))) ∧
      ¬ Ends r.ops (.start .empty) .stuck ∧ ¬ Diverges r.ops (.start .empty) := by
  have follows := ofProgram_follows h fits
  cases hp : p.eval with
  | ok v =>
      rw [hp] at follows
      refine ⟨fun v' hv => Except.ok.inj hv ▸ follows, by simp, ?_,
        follows.not_diverges⟩
      intro hs
      cases follows.unique hs
  | error name =>
      rw [hp] at follows
      obtain ⟨k, hk, ends⟩ := follows
      refine ⟨by simp, fun name' hn => Except.error.inj hn ▸ ⟨k, hk, ends⟩, ?_,
        ends.not_diverges⟩
      intro hs
      cases ends.unique hs

/-- A function whose second variable is declared in an arm that is not executed. -/
def skippedDeclaration : Program :=
  let p : Position := .start
  ⟨"main",
    [.declare p "a" p (some (.literal p (-3))),
      .ifElse p (.conditional p (.binary p .lt (.var p "a") (.literal p 0)) (.literal p 0)
          (.assign p "a" (.literal p 1)))
        (.declare p "b c" p none) (.empty p),
      .ret p (.binary p .add (.var p "a") (.var p "b c"))], p⟩

theorem skippedDeclaration_ends : ∃ r, Routine.ofProgram skippedDeclaration = .ok r ∧
    skippedDeclaration.FitsCounters ∧ skippedDeclaration.eval = .error "b c" ∧
    Ends r.ops (.start .empty) (.unassigned 1) := by
  have fits : skippedDeclaration.FitsCounters := ⟨by decide, by decide⟩
  have faults : skippedDeclaration.eval = .error "b c" := rfl
  refine ⟨_, rfl, fits, faults, ?_⟩
  obtain ⟨k, hk, ends⟩ := (ofProgram_preserves_evaluation rfl fits).2.1 "b c" faults
  cases (show skippedDeclaration.declared.idxOf? "b c" = some 1 from rfl).symm.trans hk
  exact ends

end Routine

end IntLang.Ir
