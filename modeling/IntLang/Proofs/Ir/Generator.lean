import IntLang.Ir.Generator
import IntLang.Proofs.Ir.SlotTable
import IntLang.Proofs.Stateful
/-!
A generator answers every program as if it had met no other. Whatever its table, its counter and its
buffer hold, it writes the code that lowering gives, behind what the buffer held, and stops at the
same diagnostic; and it empties them before a program is written.
-/
namespace IntLang.Ir

/-- The generator has met the declarations and labels of the walk. -/
structure Generator.Stands (g : Generator) (w : Walk) : Prop where
  table : g.table.Holds w.scope
  nextLabel : g.nextLabel = w.nextLabel

/-- Behind `start` the buffer holds the code that the walk answers, or both end at one
diagnostic. -/
inductive Wrote (start : List Op) :
    EStateM.Result Diagnostic Generator Unit → EStateM.Result Diagnostic Walk (List Op) → Prop
  | ok {ops g w} : g.Stands w → g.buffer.toList = start ++ ops → Wrote start (.ok () g) (.ok ops w)
  | error {d g w} : Wrote start (.error d g) (.error d w)

/-- Where the code `held` is written already, the generator goes on as the walk does, whose code has
`held` at its front. -/
def Writes (held : List Op) (x : Emit Unit) (y : Lower (List Op)) : Prop :=
  ∀ start g w, g.Stands w → g.buffer.toList = start ++ held → Wrote start (x g) (y w)

/-- Both give one value and nothing is written, or both end at one diagnostic. -/
inductive Drew {α : Type} (buffer : Array Op) :
    EStateM.Result Diagnostic Generator α → EStateM.Result Diagnostic Walk α → Prop
  | ok {a g w} : g.Stands w → g.buffer = buffer → Drew buffer (.ok a g) (.ok a w)
  | error {d g w} : Drew buffer (.error d g) (.error d w)

def Draws {α : Type} (x : Emit α) (y : Lower α) : Prop :=
  ∀ g w, g.Stands w → Drew g.buffer (x g) (y w)

section Steps

variable {α : Type} {held : List Op} {x x' : Emit Unit} {y : Lower (List Op)}

theorem Writes.pure : Writes held (pure ()) (pure held) := fun _ _ _ stands buffer =>
  .ok stands buffer

theorem Writes.op {o : Op} (further : Writes (held ++ [o]) x y) :
    Writes held (Emit.op o >>= fun _ => x) y := by
  intro start g w stands buffer
  refine further start { g with buffer := g.buffer.push o } w ⟨stands.table, stands.nextLabel⟩ ?_
  rw [Array.toList_push, buffer, List.append_assoc]

theorem Writes.last {o : Op} {code : List Op} (whole : held ++ [o] = code) :
    Writes held (Emit.op o) (Pure.pure code) := by
  subst whole
  exact Writes.op .pure

/-- What is written in between is put behind what is held. -/
theorem Writes.bind {f : List Op → Lower (List Op)} (first : Writes [] x y)
    (further : ∀ ops, Writes (held ++ ops) x' (f ops)) :
    Writes held (x >>= fun _ => x') (y >>= f) := by
  intro start g w stands buffer
  have wrote := first (start ++ held) g w stands (by rw [buffer, List.append_nil])
  generalize hx : x g = r, hy : y w = r' at wrote
  cases wrote with
  | ok stands' buffer' =>
      rw [bind_of_ok hx, bind_of_ok hy]
      rw [List.append_assoc] at buffer'
      exact further _ start _ _ stands' buffer'
  | error =>
      rw [bind_of_error hx, bind_of_error hy]
      exact .error

theorem Writes.behind (all : Writes [] x y) :
    Writes held x (y >>= fun ops => Pure.pure (held ++ ops)) := by
  have ended : Writes held (x >>= fun _ => Pure.pure ()) _ := all.bind fun _ => .pure
  rwa [bind_pure_unit] at ended

theorem Writes.draw {z : Emit α} {v : Lower α} {x : α → Emit Unit} {f : α → Lower (List Op)}
    (first : Draws z v) (further : ∀ a, Writes held (x a) (f a)) :
    Writes held (z >>= x) (v >>= f) := by
  intro start g w stands buffer
  have drew := first g w stands
  generalize hz : z g = r, hv : v w = r' at drew
  cases drew with
  | ok stands' kept =>
      rw [bind_of_ok hz, bind_of_ok hv]
      exact further _ start _ _ stands' (kept ▸ buffer)
  | error =>
      rw [bind_of_error hz, bind_of_error hv]
      exact .error

theorem freshLabel_draws : Draws Emit.freshLabel Lower.freshLabel := by
  intro g w stands
  rw [Emit.freshLabel, Lower.freshLabel, stands.nextLabel]
  exact .ok ⟨stands.table, rfl⟩ rfl

theorem lookup_draws (name : String) (access : Access) (p : Position) :
    Draws (Emit.lookup name access p) (Lower.lookup name access p) := by
  intro g w stands
  rw [Emit.lookup, Lower.lookup, stands.table.lookup_eq]
  cases w.scope.lookup name access p with
  | ok slot => exact .ok stands rfl
  | error d => exact .error

theorem declare_draws (name : String) (p : Position) :
    Draws (Emit.declare name p) (Lower.declare name p) := by
  intro g w stands
  rw [Emit.declare, Lower.declare, Scope.declare]
  by_cases again : name ∈ w.scope.names
  · rw [stands.table.declare_again again, if_pos again]
    exact .error
  · obtain ⟨t, answer, holds⟩ := stands.table.declare_fresh again p
    rw [answer, if_neg again]
    exact .ok ⟨holds, stands.nextLabel⟩ rfl

end Steps

theorem expr_writes (e : Expr) : Writes [] (Emit.expr e) (Lower.expr e) := by
  induction e with
  | literal p value => exact .last rfl
  | var p name => exact .draw (lookup_draws name .read p) fun _ => .op (.last rfl)
  | assign p target value ih =>
      exact ih.bind fun code => .draw (lookup_draws target .write p) fun slot =>
        .op (.last (by simp))
  | conditional p condition whenTrue whenFalse ihc iht ihf =>
      exact .draw freshLabel_draws fun id => ihc.bind fun test => .op (iht.bind fun first =>
        .op (.op (ihf.bind fun second => .last (by simp [Lower.choice]))))
  | binary p o left right ihl ihr => exact ihl.bind fun first => ihr.bind fun second => .last rfl
  | unary p o operand ih => exact ih.bind fun code => .last rfl
  | paren p inner ih => exact ih

theorem initial_writes (value : Option Expr) :
    Writes [] (Emit.initial value) (Lower.initial value) := by
  cases value with
  | none => exact .last rfl
  | some e => exact expr_writes e

theorem stmt_writes (a : Stmt) : Writes [] (Emit.stmt a) (Lower.stmt a) := by
  induction a with
  | ret p value => exact (expr_writes value).bind fun code => .last rfl
  | expr p value => exact (expr_writes value).bind fun code => .last rfl
  | empty p => exact .pure
  | ifThen p condition whenTrue ih =>
      exact .draw freshLabel_draws fun id => (expr_writes condition).bind fun test =>
        .op (ih.bind fun first => .last (by simp [Lower.guarded]))
  | ifElse p condition whenTrue whenFalse iht ihf =>
      exact .draw freshLabel_draws fun id => (expr_writes condition).bind fun test =>
        .op (iht.bind fun first => .op (.op (ihf.bind fun second =>
          .last (by simp [Lower.choice]))))
  | declare p name q value =>
      exact (initial_writes value).bind fun code => .draw (declare_draws name q) fun slot =>
        .op (.op (.last (by simp)))

theorem stmts_write (items : List Stmt) : Writes [] (Emit.stmts items) (Lower.stmts items) := by
  induction items with
  | nil => exact .pure
  | cons a rest ih => exact (stmt_writes a).bind fun _ => ih.behind

theorem body_writes (items : List Stmt) :
    Writes [] (Emit.body items) (Lower.stmts items >>= fun ops => pure (ops ++ [.push 0])) :=
  (stmts_write items).bind fun _ => .last rfl

namespace Generator

theorem restart_stands (g : Generator) (w : Walk) : g.restart.Stands w.restart :=
  ⟨SlotTable.holds_empty, rfl⟩

/-- A generator answers a program as lowering does, whatever it has met before. -/
theorem generate_eq (g : Generator) (p : Program) : (g.generate p).1 = Routine.ofProgram p := by
  rw [generate, Routine.ofProgram, Lower.program]
  by_cases named : p.name ≠ Lower.entryName
  · rw [if_pos named, if_pos named]
  · rw [if_neg named, if_neg named]
    have wrote := body_writes p.body [] g.restart _ (g.restart_stands .start) rfl
    rw [EStateM.run, EStateM.run]
    cases lowered : Lower.stmts p.body Walk.start.restart with
    | ok ops w =>
        rw [bind_of_ok lowered] at wrote
        generalize Emit.body p.body g.restart = r at wrote
        cases wrote with
        | ok stands buffer =>
            simp [buffer, stands.table.size_eq]
    | error d w =>
        rw [bind_of_error lowered] at wrote
        generalize Emit.body p.body g.restart = r at wrote
        cases wrote
        rfl

def answers (g : Generator) : List Program → List (Except CompileError Routine)
  | [] => []
  | p :: rest => (g.generate p).1 :: (g.generate p).2.answers rest

/-- Each of the programs that a generator gets in turn is answered as a new generator answers it,
and as lowering does, whatever the generator has met before and wherever it has stopped. -/
theorem answers_as_new (g : Generator) (history : List Program) :
    g.answers history = history.map (fun p => (new.generate p).1) ∧
      g.answers history = history.map Routine.ofProgram := by
  have lowered : g.answers history = history.map Routine.ofProgram := by
    induction history generalizing g with
    | nil => rfl
    | cons p rest ih => rw [answers, generate_eq, ih, List.map_cons]
  refine ⟨?_, lowered⟩
  rw [lowered]
  exact List.map_congr_left fun p _ => (new.generate_eq p).symm

end Generator

end IntLang.Ir
