import IntLang.Syntax.Basic
import IntLang.Diagnostic
/-!
The mentions of variables in a tree, in the order in which their names are resolved: a value in
front of its target, an initial value in front of its variable, a condition in front of its arms.
A mention is at fault by what is declared in front of it.
-/
namespace IntLang

/-- What is done to a variable where its name stands. -/
inductive Mention.Role
  | declared
  | touched (access : Access)
deriving DecidableEq, Repr

/-- The name of a variable at a place of the source. -/
structure Mention where
  role : Mention.Role
  name : String
  position : Position
deriving DecidableEq, Repr

def Expr.mentions : Expr → List Mention
  | .literal _ _ => []
  | .var p name => [⟨.touched .read, name, p⟩]
  | .assign p target value => value.mentions ++ [⟨.touched .write, target, p⟩]
  | .conditional _ condition whenTrue whenFalse =>
      condition.mentions ++ (whenTrue.mentions ++ whenFalse.mentions)
  | .binary _ _ left right => left.mentions ++ right.mentions
  | .unary _ _ operand => operand.mentions
  | .paren _ inner => inner.mentions

def Stmt.initialMentions : Option Expr → List Mention
  | some value => value.mentions
  | none => []

def Stmt.mentions : Stmt → List Mention
  | .ret _ value | .expr _ value => value.mentions
  | .empty _ => []
  | .ifThen _ condition whenTrue => condition.mentions ++ whenTrue.mentions
  | .ifElse _ condition whenTrue whenFalse =>
      condition.mentions ++ (whenTrue.mentions ++ whenFalse.mentions)
  | .declare _ name namePosition initial =>
      initialMentions initial ++ [⟨.declared, name, namePosition⟩]

def Program.mentions (p : Program) : List Mention := p.body.flatMap Stmt.mentions

namespace Mention

def declares? (m : Mention) : Option String := if m.role = .declared then some m.name else none

/-- The fault of a mention where those names are declared. -/
def cause? (m : Mention) (names : List String) : Option Diagnostic.Cause :=
  match m.role with
  | .declared => if m.name ∈ names then some (.redeclared m.name) else none
  | .touched access => if m.name ∈ names then none else some (.undeclared m.name access)

def declaredNames (ms : List Mention) : List String := ms.filterMap declares?

/-- No mention is at fault behind those in front of it, where those names are declared. -/
def Resolve (names : List String) : List Mention → Prop
  | [] => True
  | m :: ms => m.cause? names = none ∧ Resolve (names ++ declaredNames [m]) ms

/-- The diagnostic is about the first mention at fault. -/
def Offend (names : List String) (ms : List Mention) (d : Diagnostic) : Prop :=
  ∃ before m after, ms = before ++ m :: after ∧ Resolve names before ∧
    m.cause? (names ++ declaredNames before) = some d.cause ∧ m.position = d.position

section Resolve

variable {names : List String} {ms ms' : List Mention} {m : Mention} {d : Diagnostic}

theorem declaredNames_append : declaredNames (ms ++ ms') = declaredNames ms ++ declaredNames ms' :=
  List.filterMap_append

theorem resolve_append :
    Resolve names (ms ++ ms') ↔ Resolve names ms ∧ Resolve (names ++ declaredNames ms) ms' := by
  induction ms generalizing names with
  | nil => simp [Resolve, declaredNames]
  | cons m ms ih =>
      rw [List.cons_append, Resolve, Resolve, ih, and_assoc, List.append_assoc,
        ← declaredNames_append, List.singleton_append]

theorem Offend.append_right (h : Offend names ms d) : Offend names (ms ++ ms') d := by
  obtain ⟨before, m, after, rfl, resolve, fault, place⟩ := h
  exact ⟨before, m, after ++ ms', List.append_assoc .., resolve, fault, place⟩

theorem Offend.append_left (resolve : Resolve names ms)
    (h : Offend (names ++ declaredNames ms) ms' d) : Offend names (ms ++ ms') d := by
  obtain ⟨before, m, after, rfl, resolve', fault, place⟩ := h
  refine ⟨ms ++ before, m, after, (List.append_assoc ..).symm, ?_, ?_, place⟩
  · exact resolve_append.mpr ⟨resolve, resolve'⟩
  · rwa [declaredNames_append, ← List.append_assoc]

theorem cause?_of_declared (h : m.cause? names = none) {name : String}
    (declares : m.declares? = some name) : name ∉ names := by
  unfold declares? at declares
  split at declares
  · rename_i role
    cases declares
    unfold cause? at h
    rw [role] at h
    intro found
    simp only [if_pos found] at h
    cases h
  · cases declares

/-- No name is declared twice by mentions that are not at fault. -/
theorem Resolve.nodup (h : Resolve names ms) (distinct : names.Nodup) :
    (names ++ declaredNames ms).Nodup := by
  induction ms generalizing names with
  | nil =>
      rw [declaredNames, List.filterMap_nil, List.append_nil]
      exact distinct
  | cons m ms ih =>
      obtain ⟨faultless, rest⟩ := h
      have one : (names ++ declaredNames [m]).Nodup := by
        cases declares : m.declares? with
        | none =>
            rw [declaredNames, List.filterMap_cons_none declares, List.filterMap_nil,
              List.append_nil]
            exact distinct
        | some name =>
            rw [declaredNames, List.filterMap_cons_some declares, List.filterMap_nil]
            have fresh := cause?_of_declared faultless declares
            refine List.nodup_append.mpr ⟨distinct, List.pairwise_singleton _ _, ?_⟩
            rintro other found _ last rfl
            rw [List.mem_singleton.mp last] at found
            exact fresh found
      have all := ih rest one
      rwa [List.append_assoc, ← declaredNames_append, List.singleton_append] at all

/-- No mention is at fault means that none is, behind all that stand in front of it. -/
theorem resolve_iff : Resolve names ms ↔ ∀ before m after, ms = before ++ m :: after →
    m.cause? (names ++ declaredNames before) = none := by
  constructor
  · rintro resolve before m after rfl
    exact (resolve_append.mp resolve).2.1
  · intro faultless
    induction ms generalizing names with
    | nil => trivial
    | cons m ms ih =>
        refine ⟨?_, ih ?_⟩
        · have first := faultless [] m ms rfl
          rwa [declaredNames, List.filterMap_nil, List.append_nil] at first
        · rintro before m' after rfl
          have later := faultless (m :: before) m' after rfl
          rwa [← List.singleton_append, declaredNames_append, ← List.append_assoc] at later

theorem Offend.not_resolve (h : Offend names ms d) : ¬Resolve names ms := by
  obtain ⟨before, m, after, split, -, fault, -⟩ := h
  intro resolve
  cases (resolve_iff.mp resolve before m after split).symm.trans fault

theorem mem_declaredNames (name : String) (p : Position) (h : ⟨.declared, name, p⟩ ∈ ms) :
    name ∈ declaredNames ms := List.mem_filterMap.mpr ⟨_, h, rfl⟩

/-- Among mentions that resolve, every name is declared. -/
theorem Resolve.declared (h : Resolve [] ms) (hm : m ∈ ms) : m.name ∈ declaredNames ms := by
  obtain ⟨before, after, rfl⟩ := List.append_of_mem hm
  have faultless := resolve_iff.mp h before m after rfl
  obtain ⟨role, name, p⟩ := m
  cases role with
  | declared => exact mem_declaredNames name p hm
  | touched access =>
      by_cases found : name ∈ declaredNames before
      · rw [declaredNames_append]
        exact List.mem_append_left _ found
      · cases (if_neg found).symm.trans faultless

/-- A mention at fault does not stand among mentions that resolve. -/
theorem length_le_of_fault {before after before' after' : List Mention} {m' : Mention}
    {cause : Diagnostic.Cause} (same : before ++ m :: after = before' ++ m' :: after')
    (fault : m.cause? (names ++ declaredNames before) = some cause)
    (resolve' : Resolve names before') : before'.length ≤ before.length := by
  rw [List.append_eq_append_iff] at same
  obtain ⟨rest, rfl, tail⟩ | ⟨rest, rfl, -⟩ := same
  · cases rest with
    | nil => simp
    | cons head rest =>
        obtain ⟨rfl, -⟩ := List.cons_eq_cons.mp tail
        cases (resolve_append.mp resolve').2.1.symm.trans fault
  · simp

/-- There is one first mention at fault. -/
theorem Offend.unique {d' : Diagnostic} (h : Offend names ms d) (h' : Offend names ms d') :
    d = d' := by
  obtain ⟨before, m, after, rfl, resolve, fault, place⟩ := h
  obtain ⟨before', m', after', same, resolve', fault', place'⟩ := h'
  have lengths : before.length = before'.length :=
    Nat.le_antisymm (length_le_of_fault same.symm fault' resolve) (length_le_of_fault same fault resolve')
  obtain ⟨rfl, tails⟩ := List.append_inj same lengths
  obtain ⟨rfl, -⟩ := List.cons_eq_cons.mp tails
  have causes := Option.some.inj (fault.symm.trans fault')
  have places := place.symm.trans place'
  cases d
  cases d'
  cases causes
  cases places
  rfl

end Resolve

end Mention

end IntLang
