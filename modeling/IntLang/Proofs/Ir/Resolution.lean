import IntLang.Proofs.Ir.Lowered
import IntLang.Proofs.Syntax.Mention
/-!
How lowering resolves names: a walk meets the mentions of a tree in turn, ends at the first one at
fault, and otherwise has the names that they declare in scope.
-/
namespace IntLang.Ir

open Mention (Resolve Offend declaredNames)

/-- A step of a walk meets those mentions in turn. -/
structure Meets {α : Type} (x : Lower α) (ms : List Mention) : Prop where
  ok : ∀ {w a w'}, x w = .ok a w' →
    Resolve w.scope.names ms ∧ w'.scope.names = w.scope.names ++ declaredNames ms
  error : ∀ {w d w'}, x w = .error d w' → Offend w.scope.names ms d

section Steps

variable {α β : Type} {x : Lower α} {f : α → Lower β} {ms ms' : List Mention}

theorem Meets.pure (a : α) : Meets (pure a) [] := by
  constructor
  · intro w b w' h
    obtain ⟨rfl, rfl⟩ := pure_eq_ok h
    exact ⟨trivial, (List.append_nil _).symm⟩
  · intro w d w' h
    cases h

theorem Meets.bind (h : Meets x ms) (h' : ∀ a, Meets (f a) ms') : Meets (x >>= f) (ms ++ ms') := by
  constructor
  · intro w b w' run
    obtain ⟨a, w₁, first, second⟩ := bind_eq_ok run
    obtain ⟨resolve, scope⟩ := h.ok first
    obtain ⟨resolve', scope'⟩ := (h' a).ok second
    rw [scope] at resolve' scope'
    refine ⟨Mention.resolve_append.mpr ⟨resolve, resolve'⟩, ?_⟩
    rw [scope', Mention.declaredNames_append, List.append_assoc]
  · intro w d w' run
    obtain first | ⟨a, w₁, first, second⟩ := bind_eq_error run
    · exact (h.error first).append_right
    · obtain ⟨resolve, scope⟩ := h.ok first
      have offend := (h' a).error second
      rw [scope] at offend
      exact offend.append_left resolve

/-- What is made of the answer of a step meets nothing. -/
theorem Meets.last (h : Meets x ms) (f : α → β) : Meets (x >>= fun a => Pure.pure (f a)) ms := by
  have all := h.bind fun a => Meets.pure (f a)
  rwa [List.append_nil] at all

theorem freshLabel_meets : Meets Lower.freshLabel [] := by
  constructor
  · intro w id w' h
    obtain ⟨-, rfl⟩ := freshLabel_eq_ok h
    exact ⟨trivial, (List.append_nil _).symm⟩
  · intro w d w' h
    cases h

theorem mem_of_slot?_isSome {scope : Scope} {name : String} :
    (scope.slot? name).isSome = true ↔ name ∈ scope.names := by
  unfold Scope.slot?
  rw [Option.isSome_map, List.isSome_idxOf?]

theorem lookup_meets (name : String) (access : Access) (p : Position) :
    Meets (Lower.lookup name access p) [⟨.touched access, name, p⟩] := by
  constructor
  · intro w k w' h
    obtain ⟨found, rfl⟩ := lookup_eq_ok h
    have declared : name ∈ w.scope.names := mem_of_slot?_isSome.mp (by rw [found]; rfl)
    exact ⟨⟨if_pos declared, trivial⟩, (List.append_nil _).symm⟩
  · intro w d w' h
    simp only [Lower.lookup, Scope.lookup] at h
    cases found : w.scope.slot? name with
    | some k =>
        rw [found] at h
        cases h
    | none =>
        rw [found] at h
        cases h
        have undeclared : name ∉ w.scope.names := by
          rw [← mem_of_slot?_isSome, found]
          exact Bool.false_ne_true
        refine ⟨[], _, [], rfl, trivial, ?_, rfl⟩
        rw [declaredNames, List.filterMap_nil, List.append_nil]
        exact if_neg undeclared

theorem declare_meets (name : String) (p : Position) :
    Meets (Lower.declare name p) [⟨.declared, name, p⟩] := by
  constructor
  · intro w k w' h
    obtain ⟨fresh, -, rfl⟩ := declare_eq_ok h
    exact ⟨⟨if_neg fresh, trivial⟩, rfl⟩
  · intro w d w' h
    simp only [Lower.declare, Scope.declare] at h
    by_cases declared : name ∈ w.scope.names
    · rw [if_pos declared] at h
      cases h
      refine ⟨[], _, [], rfl, trivial, ?_, rfl⟩
      rw [declaredNames, List.filterMap_nil, List.append_nil]
      exact if_pos declared
    · rw [if_neg declared] at h
      cases h

end Steps

theorem expr_meets (e : Expr) : Meets (Lower.expr e) e.mentions := by
  induction e with
  | literal => exact .pure _
  | var p name => exact (lookup_meets name .read p).last _
  | assign p target value ih => exact ih.bind fun _ => (lookup_meets target .write p).last _
  | conditional p condition whenTrue whenFalse ihc iht ihf =>
      exact freshLabel_meets.bind fun _ => ihc.bind fun _ => iht.bind fun _ => ihf.last _
  | binary p op left right ihl ihr => exact ihl.bind fun _ => ihr.last _
  | unary p op operand ih => exact ih.last _
  | paren p inner ih => exact ih

theorem initial_meets (initial : Option Expr) :
    Meets (Lower.initial initial) (Stmt.initialMentions initial) := by
  cases initial with
  | none => exact .pure _
  | some value => exact expr_meets value

theorem stmt_meets (a : Stmt) : Meets (Lower.stmt a) a.mentions := by
  induction a with
  | ret p value => exact (expr_meets value).last _
  | expr p value => exact (expr_meets value).last _
  | empty => exact .pure _
  | ifThen p condition whenTrue ih =>
      exact freshLabel_meets.bind fun _ => (expr_meets condition).bind fun _ => ih.last _
  | ifElse p condition whenTrue whenFalse iht ihf =>
      exact freshLabel_meets.bind fun _ => (expr_meets condition).bind fun _ =>
        iht.bind fun _ => ihf.last _
  | declare p name q initial =>
      exact (initial_meets initial).bind fun _ => (declare_meets name q).last _

theorem stmts_meet (body : List Stmt) : Meets (Lower.stmts body) (body.flatMap Stmt.mentions) := by
  induction body with
  | nil => exact .pure _
  | cons a rest ih =>
      rw [List.flatMap_cons]
      exact (stmt_meets a).bind fun _ => ih.last _

/-- A diagnostic of the lowering is about the first mention at fault. -/
theorem Routine.ofProgram_offend {p : Program} {d : Diagnostic}
    (h : Routine.ofProgram p = .error (.semantic d)) : Offend [] p.mentions d := by
  simp only [Routine.ofProgram, Lower.program] at h
  by_cases hn : p.name ≠ Lower.entryName
  · rw [if_pos hn] at h
    cases h
  · rw [if_neg hn] at h
    cases hs : (Lower.stmts p.body).run Walk.start.restart with
    | ok code w =>
        rw [hs] at h
        cases h
    | error d w =>
        rw [hs] at h
        cases h
        exact (stmts_meet p.body).error hs

end IntLang.Ir
