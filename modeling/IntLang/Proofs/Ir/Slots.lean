import IntLang.Proofs.Ir.Discipline
import IntLang.Proofs.Ir.Preservation
import IntLang.Proofs.Ir.Resolution
/-!
Lowering resolves the names of a program. It is refused for the first mention at fault, and only if
there is one. Otherwise the addresses in the code are those of the mentions in their order, each
with the number that the declaration of its name has among all declarations.
-/
namespace IntLang

def Mention.slot (names : List String) (m : Mention) : UInt32 := .ofNat (names.idxOf m.name)

theorem Mention.slot_of_idxOf? {names : List String} {m : Mention} {k : Nat}
    (h : names.idxOf? m.name = some k) : m.slot names = .ofNat k := by
  rw [slot, List.idxOf_eq_getD_idxOf?, h]
  rfl

namespace Ir

open Mention (Resolve Offend declaredNames)

def addressed (ops : List Op) : List UInt32 := ops.filterMap Op.slot?

section Addressed

variable (ops ops' : List Op) (op : Op) (id : UInt32)

@[simp] theorem addressed_nil : addressed [] = [] := rfl

@[simp] theorem addressed_append : addressed (ops ++ ops') = addressed ops ++ addressed ops' :=
  List.filterMap_append

@[simp] theorem addressed_cons : addressed (op :: ops) = op.slot?.toList ++ addressed ops := by
  rw [addressed, List.filterMap_cons]
  cases op.slot? <;> rfl

@[simp] theorem addressed_choice :
    addressed (Lower.choice id ops ops') = addressed ops ++ addressed ops' := by
  simp [Lower.choice, Op.slot?]

@[simp] theorem addressed_guarded : addressed (Lower.guarded id ops) = addressed ops := by
  simp [Lower.guarded, Op.slot?]

end Addressed

section Lowered

variable {names : List String} {w w' : Walk} {code : List Op}

/-- The code of an expression takes an address for each mention. -/
theorem ExprLowers.addressed {e : Expr} (h : ExprLowers e w code w')
    (within : w.scope.names <+: names) :
    addressed code = e.mentions.map (Mention.slot names) := by
  induction h with
  | literal => rfl
  | @var p name w k found =>
      obtain ⟨i, listed, rfl⟩ := slot?_eq_some within found
      rw [Expr.mentions, List.map_singleton, Mention.slot_of_idxOf? listed]
      rfl
  | @assign p target value w code w' k lowered found ih =>
      rw [lowered.scope] at found
      obtain ⟨i, listed, rfl⟩ := slot?_eq_some within found
      rw [addressed_append, ih within, Expr.mentions, List.map_append, List.map_singleton,
        Mention.slot_of_idxOf? listed]
      rfl
  | conditional hc ht _ ihc iht ihf =>
      have behind := hc.scope
      have between := ht.scope
      rw [addressed_append, addressed_choice, ihc within, iht (behind ▸ within),
        ihf (between ▸ behind ▸ within), Expr.mentions, List.map_append, List.map_append]
  | binary hl _ ihl ihr =>
      rw [addressed_append, addressed_append, ihl within, ihr (hl.scope ▸ within), Expr.mentions,
        List.map_append]
      exact List.append_nil _
  | unary _ ih =>
      rw [addressed_append, ih within]
      exact List.append_nil _
  | paren _ ih => exact ih within

/-- The code of a statement takes an address for each mention. -/
theorem StmtLowers.addressed {s : Stmt} (h : StmtLowers s w code w')
    (within : w'.scope.names <+: names) :
    addressed code = s.mentions.map (Mention.slot names) := by
  induction h with
  | ret he | expr he =>
      rw [addressed_append, he.addressed (he.scope ▸ within)]
      exact List.append_nil _
  | empty => rfl
  | ifThen hc ht ih =>
      have test := ht.scope_prefix.trans within
      rw [addressed_append, addressed_guarded, hc.addressed (hc.scope ▸ test), ih within,
        Stmt.mentions, List.map_append]
  | ifElse hc ht hf iht ihf =>
      have first := hf.scope_prefix.trans within
      have test := ht.scope_prefix.trans first
      rw [addressed_append, addressed_choice, hc.addressed (hc.scope ▸ test), iht first,
        ihf within, Stmt.mentions, List.map_append, List.map_append]
  | @declare p name q w fresh =>
      have listed := idxOf?_declared fresh within
      rw [Stmt.mentions, List.map_append, List.map_singleton, Mention.slot_of_idxOf? listed]
      rfl
  | @declareInitial p name q value w code w' he fresh =>
      have listed := idxOf?_declared fresh within
      have front := (List.prefix_append _ _).trans within
      rw [addressed_append, he.addressed (he.scope ▸ front), Stmt.mentions, List.map_append,
        List.map_singleton, Mention.slot_of_idxOf? listed]
      rfl

theorem StmtsLower.addressed {body : List Stmt} (h : StmtsLower body w code w')
    (within : w'.scope.names <+: names) :
    addressed code = (body.flatMap Stmt.mentions).map (Mention.slot names) := by
  induction h with
  | nil => rfl
  | cons hs hr ih =>
      rw [addressed_append, List.flatMap_cons, List.map_append, ih within,
        hs.addressed (hr.scope_prefix.trans within)]

end Lowered

/-- The code of the routine finds each variable of the program at the slot of its one declaration.
The addresses that it takes are those of the mentions, in order. -/
structure Routine.Resolved (p : Program) (r : Routine) : Prop where
  localCount : r.localCount = .ofNat (declaredNames p.mentions).length
  once : (declaredNames p.mentions).Nodup
  declared : ∀ m ∈ p.mentions, m.name ∈ declaredNames p.mentions
  addressed : addressed r.ops = p.mentions.map (Mention.slot (declaredNames p.mentions))

namespace Lower

variable {p : Program}

theorem program_cases (named : p.name = entryName) (w : Walk) :
    (∃ d, (program p w).1 = .error (.semantic d) ∧ Offend [] p.mentions d) ∨
      ∃ r, (program p w).1 = .ok r ∧ Resolve [] p.mentions ∧ r.Resolved p := by
  rw [program, if_neg (not_not.mpr named)]
  cases run : (stmts p.body).run w.restart with
  | error d w' => exact .inl ⟨d, rfl, (stmts_meet p.body).error run⟩
  | ok code w' =>
      obtain ⟨resolve, scope⟩ := (stmts_meet p.body).ok run
      change Resolve [] p.mentions at resolve
      change w'.scope.names = declaredNames p.mentions at scope
      refine .inr ⟨_, rfl, resolve, ?_, ?_, fun m => resolve.declared, ?_⟩
      · rw [← scope]
        rfl
      · exact resolve.nodup .nil
      · rw [addressed_append, (StmtsLower.of_ok run).addressed List.prefix_rfl, scope]
        exact List.append_nil _

/-- A program is refused if one of its mentions is at fault behind those in front of it, and only
then; the diagnostic is about the first such mention. Any other program has a routine with its names
resolved. What the walk met before does not matter. -/
theorem program_resolves (named : p.name = entryName) (w : Walk) :
    ((∃ e, (program p w).1 = .error e) ↔ ∃ before m after, p.mentions = before ++ m :: after ∧
      (m.cause? (declaredNames before)).isSome) ∧
    (∀ e, (program p w).1 = .error e ↔ ∃ d, e = .semantic d ∧ Offend [] p.mentions d) ∧
    ((¬∃ e, (program p w).1 = .error e) → ∃ r, (program p w).1 = .ok r ∧ r.Resolved p) := by
  rcases program_cases named w with ⟨d, refused, offend⟩ | ⟨r, lowered, resolve, resolved⟩
  · refine ⟨⟨fun _ => ?_, fun _ => ⟨_, refused⟩⟩, ?_, fun never => absurd ⟨_, refused⟩ never⟩
    · obtain ⟨before, m, after, split, -, fault, -⟩ := offend
      rw [List.nil_append] at fault
      exact ⟨before, m, after, split, by rw [fault]; rfl⟩
    · intro e
      rw [refused]
      constructor
      · rintro ⟨⟩
        exact ⟨d, rfl, offend⟩
      · rintro ⟨d', rfl, offend'⟩
        rw [offend.unique offend']
  · refine ⟨⟨fun ⟨e, refused⟩ => ?_, ?_⟩, ?_, fun _ => ⟨r, lowered, resolved⟩⟩
    · cases lowered.symm.trans refused
    · rintro ⟨before, m, after, split, fault⟩
      have faultless := Mention.resolve_iff.mp resolve before m after split
      rw [List.nil_append] at faultless
      rw [faultless] at fault
      cases fault
    · intro e
      rw [lowered]
      constructor
      · intro refused
        cases refused
      · rintro ⟨d, -, offend⟩
        exact absurd resolve offend.not_resolve

/-- The tree of `int main() { int a = 1; if (a) b = a = 2; int b; int b; }`: the assignment to `b`
and its second declaration are at fault. -/
def earlyWrite : Program :=
  let place (column : UInt32) : Position := ⟨1, column⟩
  ⟨"main",
    [.declare (place 14) "a" (place 18) (some (.literal (place 22) 1)),
      .ifThen (place 25) (.var (place 29) "a") (.expr (place 32) (.assign (place 32) "b"
        (.assign (place 36) "a" (.literal (place 40) 2)))),
      .declare (place 43) "b" (place 47) none, .declare (place 50) "b" (place 54) none], .start⟩

/-- That `b` was declared in an earlier walk does not help. -/
theorem earlyWrite_resolves : earlyWrite.name = entryName ∧
    (program earlyWrite ⟨⟨["b"]⟩, 3⟩).1 = .error (.semantic ⟨.undeclared "b" .write, ⟨1, 32⟩⟩) := by
  have named : earlyWrite.name = entryName := rfl
  have offend : Offend [] earlyWrite.mentions ⟨.undeclared "b" .write, ⟨1, 32⟩⟩ :=
    ⟨[⟨.declared, "a", ⟨1, 18⟩⟩, ⟨.touched .read, "a", ⟨1, 29⟩⟩, ⟨.touched .write, "a", ⟨1, 36⟩⟩],
      ⟨.touched .write, "b", ⟨1, 32⟩⟩, [⟨.declared, "b", ⟨1, 47⟩⟩, ⟨.declared, "b", ⟨1, 54⟩⟩],
      by decide, ⟨by decide, by decide, by decide, trivial⟩, by decide, rfl⟩
  obtain ⟨-, refused, -⟩ := program_resolves named ⟨⟨["b"]⟩, 3⟩
  exact ⟨named, (refused _).mpr ⟨_, rfl, offend⟩⟩

end Lower

end Ir

end IntLang
