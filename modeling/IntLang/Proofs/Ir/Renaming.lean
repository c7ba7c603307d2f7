import IntLang.Proofs.Ir.Lowered
import IntLang.Proofs.Syntax.Renaming
/-!
Lowering sees the structure of a program and nothing else. Walks over two trees that differ in
places, parentheses and an injective renaming stay in step: they draw the same label numbers, give
the same slots, write the same code, and stop at the same fault.
-/
namespace IntLang.Ir

section Steps

variable {α β : Type} {f : String → String} {names : Set String}

/-- The walks have met the same declarations and labels; the one has names of the set, the other
has them renamed. -/
structure Walk.Alike (f : String → String) (names : Set String) (w w' : Walk) : Prop where
  known : ∀ name ∈ w.scope.names, name ∈ names
  renamed : w'.scope.names = w.scope.names.map f
  nextLabel : w'.nextLabel = w.nextLabel

theorem Walk.Alike.size {w w' : Walk} (alike : w.Alike f names w') :
    w'.scope.size = w.scope.size := by
  rw [Scope.size, Scope.size, alike.renamed, List.length_map]

/-- Both steps give the same answer and lead to walks that are alike, or both meet one fault. -/
inductive Agree (f : String → String) (names : Set String) :
    EStateM.Result Diagnostic Walk α → EStateM.Result Diagnostic Walk α → Prop
  | ok {a w w'} : w.Alike f names w' → Agree f names (.ok a w) (.ok a w')
  | error {d w d' w'} : d.cause.Renamed f d'.cause → Agree f names (.error d w) (.error d' w')

def InStep (f : String → String) (names : Set String) (x x' : Lower α) : Prop :=
  ∀ w w', w.Alike f names w' → Agree f names (x w) (x' w')

theorem InStep.pure (a : α) : InStep f names (pure a) (pure a) := fun _ _ alike => .ok alike

theorem InStep.bind {x x' : Lower α} {g g' : α → Lower β} (first : InStep f names x x')
    (second : ∀ a, InStep f names (g a) (g' a)) : InStep f names (x >>= g) (x' >>= g') := by
  intro w w' alike
  have agree := first w w' alike
  generalize hx : x w = r, hx' : x' w' = r' at agree
  cases agree with
  | ok alike =>
      rw [bind_of_ok hx, bind_of_ok hx']
      exact second _ _ _ alike
  | error same =>
      rw [bind_of_error hx, bind_of_error hx']
      exact .error same

theorem freshLabel_inStep : InStep f names Lower.freshLabel Lower.freshLabel := by
  intro w w' alike
  rw [Lower.freshLabel, Lower.freshLabel, alike.nextLabel]
  exact .ok ⟨alike.known, alike.renamed, rfl⟩

end Steps

section Names

variable {f : String → String} {names : Set String} (inj : Set.InjOn f names) {name : String}

include inj

theorem mem_map_iff {declared : List String} (known : ∀ n ∈ declared, n ∈ names)
    (hn : name ∈ names) : f name ∈ declared.map f ↔ name ∈ declared := by
  constructor
  · intro h
    obtain ⟨n, declares, same⟩ := List.mem_map.mp h
    rwa [← inj (known n declares) hn same]
  · exact List.mem_map_of_mem

theorem idxOf?_map {declared : List String} (known : ∀ n ∈ declared, n ∈ names)
    (hn : name ∈ names) : (declared.map f).idxOf? (f name) = declared.idxOf? name := by
  induction declared with
  | nil => rfl
  | cons n rest ih =>
      obtain ⟨first, others⟩ := List.forall_mem_cons.mp known
      rw [List.map_cons, List.idxOf?_cons, List.idxOf?_cons, ih others]
      by_cases same : n = name
      · simp [same]
      · have apart : f n ≠ f name := fun h => same (inj first hn h)
        simp [same, apart]

theorem lookup_inStep (hn : name ∈ names) (access : Access) (p q : Position) :
    InStep f names (Lower.lookup name access p) (Lower.lookup (f name) access q) := by
  intro w w' alike
  have slot : w'.scope.slot? (f name) = w.scope.slot? name := by
    rw [Scope.slot?, Scope.slot?, alike.renamed, idxOf?_map inj alike.known hn]
  simp only [Lower.lookup, Scope.lookup, slot]
  cases w.scope.slot? name with
  | some k => exact .ok alike
  | none => exact .error .undeclared

theorem declare_inStep (hn : name ∈ names) (p q : Position) :
    InStep f names (Lower.declare name p) (Lower.declare (f name) q) := by
  intro w w' alike
  simp only [Lower.declare, Scope.declare, alike.size, alike.renamed,
    mem_map_iff inj alike.known hn]
  by_cases again : name ∈ w.scope.names
  · simp only [if_pos again]
    exact .error .redeclared
  · simp only [if_neg again]
    refine .ok ⟨?_, ?_, alike.nextLabel⟩
    · intro n declared
      rcases List.mem_append.mp declared with before | last
      · exact alike.known n before
      · rwa [List.mem_singleton.mp last]
    · rw [List.map_append, List.map_singleton]

theorem expr_inStep {e : Expr} (within : ∀ m ∈ e.mentions, m.name ∈ names) :
    InStep f names (Lower.expr e) (Lower.expr (e.bare.unwrapped.rename f)) := by
  induction e with
  | literal p value => exact .pure _
  | var p name =>
      have hn : name ∈ names := within _ (List.mem_singleton_self _)
      exact (lookup_inStep inj hn .read p _).bind fun _ => .pure _
  | assign p target value ih =>
      obtain ⟨inValue, inTarget⟩ := List.forall_mem_append.mp within
      have hn : target ∈ names := inTarget _ (List.mem_singleton_self _)
      exact (ih inValue).bind fun _ => (lookup_inStep inj hn .write p _).bind fun _ => .pure _
  | conditional p condition whenTrue whenFalse ihc iht ihf =>
      obtain ⟨inCondition, inArms⟩ := List.forall_mem_append.mp within
      obtain ⟨inTrue, inFalse⟩ := List.forall_mem_append.mp inArms
      exact freshLabel_inStep.bind fun _ => (ihc inCondition).bind fun _ =>
        (iht inTrue).bind fun _ => (ihf inFalse).bind fun _ => .pure _
  | binary p op left right ihl ihr =>
      obtain ⟨inLeft, inRight⟩ := List.forall_mem_append.mp within
      exact (ihl inLeft).bind fun _ => (ihr inRight).bind fun _ => .pure _
  | unary p op operand ih => exact (ih within).bind fun _ => .pure _
  | paren p inner ih => exact ih within

theorem initial_inStep {initial : Option Expr}
    (within : ∀ m ∈ Stmt.initialMentions initial, m.name ∈ names) :
    InStep f names (Lower.initial initial) (Lower.initial
      (((initial.map Expr.bare).map Expr.unwrapped).map (Expr.rename f))) := by
  cases initial with
  | none => exact .pure _
  | some value => exact expr_inStep inj within

theorem stmt_inStep {a : Stmt} (within : ∀ m ∈ a.mentions, m.name ∈ names) :
    InStep f names (Lower.stmt a) (Lower.stmt (a.bare.unwrapped.rename f)) := by
  induction a with
  | ret p value => exact (expr_inStep inj within).bind fun _ => .pure _
  | expr p value => exact (expr_inStep inj within).bind fun _ => .pure _
  | empty p => exact .pure _
  | ifThen p condition whenTrue ih =>
      obtain ⟨inCondition, inTrue⟩ := List.forall_mem_append.mp within
      exact freshLabel_inStep.bind fun _ => (expr_inStep inj inCondition).bind fun _ =>
        (ih inTrue).bind fun _ => .pure _
  | ifElse p condition whenTrue whenFalse iht ihf =>
      obtain ⟨inCondition, inArms⟩ := List.forall_mem_append.mp within
      obtain ⟨inTrue, inFalse⟩ := List.forall_mem_append.mp inArms
      exact freshLabel_inStep.bind fun _ => (expr_inStep inj inCondition).bind fun _ =>
        (iht inTrue).bind fun _ => (ihf inFalse).bind fun _ => .pure _
  | declare p name q initial =>
      obtain ⟨inInitial, inName⟩ := List.forall_mem_append.mp within
      have hn : name ∈ names := inName _ (List.mem_singleton_self _)
      exact (initial_inStep inj inInitial).bind fun _ =>
        (declare_inStep inj hn q _).bind fun _ => .pure _

theorem stmts_inStep {body : List Stmt}
    (within : ∀ m ∈ body.flatMap Stmt.mentions, m.name ∈ names) :
    InStep f names (Lower.stmts body)
      (Lower.stmts (((body.map Stmt.bare).map Stmt.unwrapped).map (Stmt.rename f))) := by
  induction body with
  | nil => exact .pure _
  | cons a rest ih =>
      rw [List.flatMap_cons] at within
      obtain ⟨here, behind⟩ := List.forall_mem_append.mp within
      exact (stmt_inStep inj here).bind fun _ => (ih behind).bind fun _ => .pure _

end Names

/-- Lowering a program and lowering its structure with other names agree. -/
theorem body_agree {p r : Program} {f : String → String} (inj : p.variableNames.InjOn f)
    (same : p.bare.unwrapped.rename f = r) (w w' : Walk) :
    Agree f p.variableNames (Lower.stmts p.body w.restart) (Lower.stmts r.body w'.restart) := by
  subst same
  have within : ∀ m ∈ p.body.flatMap Stmt.mentions, m.name ∈ p.variableNames :=
    fun m hm => ⟨m, hm, rfl⟩
  exact stmts_inStep inj within _ _ ⟨nofun, rfl, rfl⟩

/-- Two programs that are equal once places and parentheses are dropped and the variables of the one
are renamed, distinct ones to distinct names, have the same routine, or they are refused for one
fault about corresponding variables. Nothing that the walks met before has a part in it. -/
theorem Lower.program_of_renamed {p q : Program} {f : String → String}
    (inj : p.variableNames.InjOn f) (same : p.bare.unwrapped.rename f = q.bare.unwrapped)
    (main : p.name = entryName) (w w' : Walk) :
    (∃ r, (program p w).1 = .ok r ∧ (program q w').1 = .ok r) ∨
      ∃ d d', (program p w).1 = .error (.semantic d) ∧ (program q w').1 = .error (.semantic d') ∧
        d.cause.Renamed f d'.cause := by
  have name : (p.bare.unwrapped.rename f).name = q.bare.unwrapped.name := congrArg Program.name same
  have named : ¬p.name ≠ entryName := not_not_intro main
  have named' : ¬q.name ≠ entryName := not_not_intro (name.symm.trans main)
  have first := body_agree inj same w w'
  have second := body_agree (Set.injOn_id _) q.bare.unwrapped.rename_id w' w'
  simp only [program, if_neg named, if_neg named', EStateM.run]
  generalize stmts p.body w.restart = x, stmts q.body w'.restart = y,
    stmts q.bare.unwrapped.body w'.restart = z at first second
  cases first with
  | ok alike =>
      cases second with
      | ok alike' =>
          have size := alike.size.symm.trans alike'.size
          refine .inl ⟨_, rfl, ?_⟩
          simp only [size, show q.name = p.name from name.symm]
  | error fault =>
      cases second with
      | error fault' => exact .inr ⟨_, _, rfl, rfl, fault'.eq_of_id ▸ fault⟩

/-- The tree of `int main() { int a = 1; b = (a); }`. -/
def wrappedRead : Program :=
  let place (column : UInt32) : Position := ⟨1, column⟩
  ⟨"main",
    [.declare (place 14) "a" (place 18) (some (.literal (place 22) 1)),
      .expr (place 25) (.assign (place 25) "b" (.paren (place 29) (.var (place 30) "a")))], .start⟩

/-- The tree of `int main() {int b=1; a=b;}`. -/
def plainRead : Program :=
  let place (column : UInt32) : Position := ⟨1, column⟩
  ⟨"main",
    [.declare (place 13) "b" (place 17) (some (.literal (place 19) 1)),
      .expr (place 22) (.assign (place 22) "a" (.var (place 24) "b"))], .start⟩

def exchange (name : String) : String :=
  if name = "a" then "b" else if name = "b" then "a" else name

theorem exchange_exchange (name : String) : exchange (exchange name) = name := by
  grind [exchange]

/-- The variable that is not declared is `b` in the one and `a` in the other. That an earlier walk
had met `b` does not help. -/
theorem wrappedRead_program : wrappedRead.variableNames.InjOn exchange ∧
    wrappedRead.bare.unwrapped.rename exchange = plainRead.bare.unwrapped ∧
    wrappedRead.name = Lower.entryName ∧
    ∃ d d', (Lower.program wrappedRead ⟨⟨["b"]⟩, 3⟩).1 = .error (.semantic d) ∧
      (Lower.program plainRead .start).1 = .error (.semantic d') ∧
      d.cause.Renamed exchange d'.cause := by
  have inj : wrappedRead.variableNames.InjOn exchange :=
    (Function.LeftInverse.injective exchange_exchange).injOn
  have same : wrappedRead.bare.unwrapped.rename exchange = plainRead.bare.unwrapped := by decide
  have named : wrappedRead.name = Lower.entryName := rfl
  refine ⟨inj, same, named, ?_⟩
  rcases Lower.program_of_renamed inj same named ⟨⟨["b"]⟩, 3⟩ .start with ⟨r, lowered, -⟩ | fault
  · cases lowered
  · exact fault

end IntLang.Ir
