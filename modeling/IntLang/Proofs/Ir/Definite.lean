import IntLang.Proofs.Ir.Preservation
import IntLang.Proofs.Syntax.Shape
/-!
Where no arm of an `if` is a declaration, every variable that can be named holds a word: the
evaluation of an accepted program has a result.
-/
namespace IntLang

def Env.Covers (env : Env) (names : List String) : Prop :=
  ∀ name ∈ names, ∃ v, env name = some v

theorem Env.Covers.mono {env : Env} {names names' : List String} (h : env.Covers names')
    (hsub : names ⊆ names') : env.Covers names :=
  fun name hname => h name (hsub hname)

theorem Env.Covers.update {env : Env} {names : List String} (h : env.Covers names) (target : String)
    (v : Word) : Env.Covers (Function.update env target (some v)) (names ++ [target]) := by
  intro name hname
  by_cases heq : name = target
  · subst heq
    exact ⟨v, Function.update_self _ _ _⟩
  · rw [Function.update_of_ne heq]
    apply h
    exact (List.mem_append.mp hname).resolve_right (fun h => heq (List.mem_singleton.mp h))

/-- Where the statement is not the last one executed, all of the names hold words behind it. -/
def Completion.Covers : Completion → List String → Prop
  | .normal env, names => env.Covers names
  | .returned _, _ => True

theorem Stmt.Canonical.declared_eq_nil {s : Stmt} (h : s.Canonical) : s.declared = [] := by
  induction s with
  | ret | expr | empty => rfl
  | ifThen _ _ _ ih => exact ih h.2
  | ifElse _ _ _ _ iht ihf =>
      obtain ⟨-, ⟨canonicalTrue, -⟩, canonicalFalse⟩ := h
      rw [Stmt.declared, iht canonicalTrue, ihf canonicalFalse, List.append_nil]
  | declare => exact h.elim

namespace Ir

theorem mem_of_slot?_eq_some {scope : Scope} {name : String} {slot : UInt32}
    (h : scope.slot? name = some slot) : name ∈ scope.names := by
  obtain ⟨k, hk, -⟩ := slot?_eq_some List.prefix_rfl h
  obtain ⟨hlt, rfl, -⟩ := List.idxOf?_eq_some_iff.mp hk
  exact List.getElem_mem hlt

theorem ExprLowers.evaluates {e : Expr} {w : Walk} {code : List Op} {w' : Walk}
    (h : ExprLowers e w code w') {env : Env} (covers : env.Covers w.scope.names) :
    ∃ v env', e.eval env = .ok (v, env') ∧ env'.Covers w'.scope.names := by
  induction h generalizing env with
  | literal => exact ⟨_, env, rfl, covers⟩
  | var hs =>
      obtain ⟨v, hv⟩ := covers _ (mem_of_slot?_eq_some hs)
      refine ⟨v, env, ?_, covers⟩
      rw [Expr.eval, hv]
  | @assign _ target _ _ _ _ _ _ _ ih =>
      obtain ⟨v, env₁, hv, covers₁⟩ := ih covers
      refine ⟨v, _, ?_, (covers₁.update target v).mono (List.subset_append_left _ _)⟩
      rw [Expr.eval, hv]
      rfl
  | conditional _ ht hf ihc iht ihf =>
      obtain ⟨v, env₁, hv, covers₁⟩ := ihc covers
      rw [Expr.eval, hv]
      by_cases hz : v = 0
      · obtain ⟨u, env₂, hu, covers₂⟩ := ihf (ht.scope ▸ covers₁)
        refine ⟨u, env₂, ?_, covers₂⟩
        rw [← hu, hz]
        rfl
      · obtain ⟨u, env₂, hu, covers₂⟩ := iht covers₁
        refine ⟨u, env₂, ?_, hf.scope ▸ covers₂⟩
        rw [← hu]
        exact if_pos hz
  | @binary _ op _ _ _ _ _ _ _ _ _ ihl ihr =>
      obtain ⟨a, env₁, ha, covers₁⟩ := ihl covers
      obtain ⟨b, env₂, hb, covers₂⟩ := ihr covers₁
      refine ⟨op.value a b, env₂, ?_, covers₂⟩
      rw [Expr.eval, ha]
      change (Expr.eval _ env₁ >>= _) = _
      rw [hb]
      rfl
  | @unary _ op _ _ _ _ _ ih =>
      obtain ⟨a, env₁, ha, covers₁⟩ := ih covers
      refine ⟨op.value a, env₁, ?_, covers₁⟩
      rw [Expr.eval, ha]
      rfl
  | paren _ ih => exact ih covers

theorem StmtLowers.executes {s : Stmt} {w : Walk} {code : List Op} {w' : Walk}
    (h : StmtLowers s w code w') (canonical : s.Canonical) {env : Env}
    (covers : env.Covers w.scope.names) :
    ∃ c, s.exec env = .ok c ∧ c.Covers w'.scope.names := by
  induction h generalizing env with
  | ret he =>
      obtain ⟨v, env₁, hv, -⟩ := he.evaluates covers
      refine ⟨.returned v, ?_, trivial⟩
      rw [Stmt.exec, hv]
      rfl
  | expr he =>
      obtain ⟨v, env₁, hv, covers₁⟩ := he.evaluates covers
      refine ⟨.normal env₁, ?_, covers₁⟩
      rw [Stmt.exec, hv]
      rfl
  | empty => exact ⟨.normal env, rfl, covers⟩
  | ifThen hc ht ih =>
      obtain ⟨-, canonicalTrue⟩ := canonical
      obtain ⟨v, env₁, hv, covers₁⟩ := hc.evaluates covers
      rw [Stmt.exec, hv]
      by_cases hz : v = 0
      · refine ⟨.normal env₁, ?_, ?_⟩
        · rw [hz]
          rfl
        · rw [ht.scope, canonicalTrue.declared_eq_nil, List.append_nil]
          exact covers₁
      · obtain ⟨c, hc, covers₂⟩ := ih canonicalTrue covers₁
        refine ⟨c, ?_, covers₂⟩
        rw [← hc]
        exact if_pos hz
  | ifElse hc ht hf iht ihf =>
      obtain ⟨-, ⟨canonicalTrue, -⟩, canonicalFalse⟩ := canonical
      obtain ⟨v, env₁, hv, covers₁⟩ := hc.evaluates covers
      rw [Stmt.exec, hv]
      have same := ht.scope
      rw [canonicalTrue.declared_eq_nil, List.append_nil] at same
      by_cases hz : v = 0
      · rw [← same] at covers₁
        obtain ⟨c, hc, covers₂⟩ := ihf canonicalFalse covers₁
        refine ⟨c, ?_, covers₂⟩
        rw [← hc, hz]
        rfl
      · obtain ⟨c, hc, covers₂⟩ := iht canonicalTrue covers₁
        refine ⟨c, ?_, ?_⟩
        · rw [← hc]
          exact if_pos hz
        · rw [hf.scope, canonicalFalse.declared_eq_nil, List.append_nil]
          exact covers₂
  | declare _ => exact canonical.elim
  | declareInitial _ _ => exact canonical.elim

theorem StmtLowers.executesItem {s : Stmt} {w : Walk} {code : List Op} {w' : Walk}
    (h : StmtLowers s w code w') (canonical : s.CanonicalItem) {env : Env}
    (covers : env.Covers w.scope.names) :
    ∃ c, s.exec env = .ok c ∧ c.Covers w'.scope.names := by
  cases s with
  | declare p name q initial =>
      cases h with
      | declare _ => exact ⟨_, rfl, covers.update name 0⟩
      | declareInitial he _ =>
          obtain ⟨v, env₁, hv, covers₁⟩ := he.evaluates covers
          refine ⟨.normal _, ?_, covers₁.update name v⟩
          rw [Stmt.exec, evalInitial, hv]
          rfl
  | _ => exact h.executes canonical covers

theorem StmtsLower.executes {body : List Stmt} {w : Walk} {code : List Op} {w' : Walk}
    (h : StmtsLower body w code w') (canonical : ∀ s ∈ body, s.CanonicalItem) {env : Env}
    (covers : env.Covers w.scope.names) : ∃ c, Stmt.execAll body env = .ok c := by
  induction h generalizing env with
  | nil => exact ⟨.normal env, rfl⟩
  | cons hs _ ih =>
      obtain ⟨first, rest⟩ := List.forall_mem_cons.mp canonical
      obtain ⟨c, hc, covers₁⟩ := hs.executesItem first covers
      rw [Stmt.execAll, hc]
      cases c with
      | normal env₁ => exact ih rest covers₁
      | returned v => exact ⟨.returned v, rfl⟩

/-- A canonical program that is accepted has a result. -/
theorem Routine.ofProgram_evaluates {p : Program} {r : Routine} (h : Routine.ofProgram p = .ok r)
    (canonical : p.Canonical) : ∃ v, p.eval = .ok v := by
  obtain ⟨code, w, lowered, -, -⟩ := ofProgram_eq_ok h
  have covers : Env.Covers (fun _ => none) Walk.start.scope.names :=
    fun _ hname => (List.not_mem_nil hname).elim
  obtain ⟨c, hc⟩ := lowered.executes canonical covers
  rw [Program.eval, hc]
  cases c with
  | normal env => exact ⟨0, rfl⟩
  | returned v => exact ⟨v, rfl⟩

end Ir

end IntLang
