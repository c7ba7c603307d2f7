import IntLang.Proofs.Parser.Spelling
import IntLang.Proofs.Syntax.Mention
/-!
The mentions of variables in a tree are names among the tokens that the tree is written with, and
the tokens beside a name tell what is done to the variable: it is declared behind `int`, written in
front of `=`, and read elsewhere.
-/
namespace IntLang

/-- The last of the tokens is not the keyword in front of a declared name. -/
def NoType (ts : List Token) : Prop := ∀ t ∈ ts.getLast?, t.kind ≠ .keyword .int

/-- The first of the tokens is not the mark behind an assigned name. -/
def NoAssign (ts : List Token) : Prop := ∀ t ∈ ts.head?, t.kind ≠ .symbol .assign

/-- Between those tokens a name is used in that role. -/
def Mention.Role.Between : Mention.Role → List Token → List Token → Prop
  | .declared, front, _ => ¬ NoType front
  | .touched .write, front, behind => NoType front ∧ ¬ NoAssign behind
  | .touched .read, front, behind => NoType front ∧ NoAssign behind

/-- The mention is a name among the tokens, at the place of the mention and in its role. -/
def Mention.Among (m : Mention) (ts : List Token) : Prop :=
  ∃ front behind, ts = front ++ ⟨.identifier m.name, m.position⟩ :: behind ∧
    m.role.Between front behind

section Between

variable {m : Mention} {ts front behind outer next : List Token}

theorem noType_nil : NoType [] := nofun

theorem noAssign_nil : NoAssign [] := nofun

theorem noType_concat {k : Token.Kind} {p : Position} (h : k ≠ .keyword .int) :
    NoType (front ++ [⟨k, p⟩]) := by
  intro t ht
  rw [List.getLast?_concat] at ht
  cases ht
  exact h

theorem noAssign_cons {k : Token.Kind} {p : Position} (h : k ≠ .symbol .assign) :
    NoAssign (⟨k, p⟩ :: behind) := by
  rintro _ ⟨⟩
  exact h

theorem noType_append (h : NoType outer) : NoType (outer ++ front) ↔ NoType front := by
  unfold NoType
  rw [List.getLast?_append]
  cases front.getLast? with
  | none => exact iff_of_true h nofun
  | some t => rfl

theorem noAssign_append (h : NoAssign next) : NoAssign (behind ++ next) ↔ NoAssign behind := by
  unfold NoAssign
  rw [List.head?_append]
  cases behind.head? with
  | none => exact iff_of_true h nofun
  | some t => rfl

theorem Mention.Role.Between.within {role : Mention.Role} (h : role.Between front behind)
    (before : NoType outer) (after : NoAssign next) :
    role.Between (outer ++ front) (behind ++ next) := by
  have type : NoType (outer ++ front) ↔ NoType front := noType_append before
  have assign : NoAssign (behind ++ next) ↔ NoAssign behind := noAssign_append after
  cases role with
  | declared => exact fun none => h (type.mp none)
  | touched access =>
      cases access with
      | read => exact ⟨type.mpr h.1, assign.mpr h.2⟩
      | write => exact ⟨type.mpr h.1, fun none => h.2 (assign.mp none)⟩

/-- What a mention is, it is in front of and behind further tokens. -/
theorem Mention.Among.within (h : m.Among ts) (before : NoType outer) (after : NoAssign next) :
    m.Among (outer ++ (ts ++ next)) := by
  obtain ⟨front, behind, rfl, between⟩ := h
  refine ⟨outer ++ front, behind ++ next, ?_, between.within before after⟩
  simp only [List.append_assoc, List.cons_append]

theorem Mention.Among.prepend (h : m.Among ts) (before : NoType outer) :
    m.Among (outer ++ ts) := by
  have all := h.within before noAssign_nil
  rwa [List.append_nil] at all

theorem Mention.Among.append (h : m.Among ts) (after : NoAssign next) : m.Among (ts ++ next) :=
  h.within noType_nil after

variable {k : Token.Kind} {p : Position}

/-- In front of a mark other than that of an assignment, a mention stays what it is. -/
theorem Mention.Among.leading (h : m.Among ts) (mark : k ≠ .symbol .assign) :
    m.Among (ts ++ ⟨k, p⟩ :: behind) :=
  h.append (noAssign_cons mark)

/-- Behind a mark other than `int`, a mention stays what it is. -/
theorem Mention.Among.trailing (h : m.Among ts) (mark : k ≠ .keyword .int) :
    m.Among (front ++ ⟨k, p⟩ :: ts) := by
  rw [List.append_cons]
  exact h.prepend (noType_concat mark)

theorem Mention.Among.cons (h : m.Among ts) (mark : k ≠ .keyword .int) :
    m.Among (⟨k, p⟩ :: ts) := by
  have all : m.Among ([] ++ ⟨k, p⟩ :: ts) := h.trailing mark
  exact all

theorem NoType.trailing (h : NoType ts) (mark : k ≠ .keyword .int) :
    NoType (front ++ ⟨k, p⟩ :: ts) := by
  rw [List.append_cons]
  exact (noType_append (noType_concat mark)).mpr h

theorem NoType.cons (h : NoType ts) (mark : k ≠ .keyword .int) : NoType (⟨k, p⟩ :: ts) := by
  have all : NoType ([] ++ ⟨k, p⟩ :: ts) := h.trailing mark
  exact all

end Between

section Spelled

variable {m : Mention} {ts : List Token}

theorem BinaryOp.symbol_ne_assign (op : BinaryOp) :
    Token.Kind.symbol op.symbol ≠ .symbol .assign := by
  cases op <;> decide

theorem Expr.Spelled.among {e : Expr} (h : e.Spelled ts) (hm : m ∈ e.mentions) : m.Among ts := by
  induction h with
  | literal => cases hm
  | var =>
      cases List.mem_singleton.mp hm
      exact ⟨[], [], rfl, noType_nil, noAssign_nil⟩
  | assign _ ih =>
      obtain inner | last := List.mem_append.mp hm
      · exact ((ih inner).cons (by decide)).cons Token.Kind.noConfusion
      · cases List.mem_singleton.mp last
        exact ⟨[], _, rfl, noType_nil, fun none => none _ rfl rfl⟩
  | conditional _ _ _ ihc iht ihf =>
      obtain first | others := List.mem_append.mp hm
      · exact (ihc first).leading (by decide)
      · obtain second | third := List.mem_append.mp others
        · exact ((iht second).leading (by decide)).trailing (by decide)
        · exact ((ihf third).trailing (by decide)).trailing (by decide)
  | @binary _ op _ _ _ _ _ _ ihl ihr =>
      obtain first | second := List.mem_append.mp hm
      · exact (ihl first).leading op.symbol_ne_assign
      · exact (ihr second).trailing Token.Kind.noConfusion
  | unary _ ih => exact (ih hm).cons Token.Kind.noConfusion
  | paren _ ih => exact ((ih hm).leading (by decide)).cons (by decide)

/-- Nothing that is written starts with the mark of an assignment. -/
theorem Expr.Spelled.starts {e : Expr} (h : e.Spelled ts) (behind : List Token) :
    NoAssign (ts ++ behind) := by
  induction h generalizing behind with
  | conditional _ _ _ ih _ _ | binary _ _ ih _ =>
      rw [List.append_assoc]
      exact ih _
  | @unary _ op _ _ _ _ => exact noAssign_cons (by cases op <;> decide)
  | _ => exact noAssign_cons nofun

namespace Stmt

theorem Spelled.starts {a : Stmt} (h : a.Spelled ts) (behind : List Token) :
    NoAssign (ts ++ behind) := by
  cases h with
  | expr value =>
      rw [List.append_assoc]
      exact value.starts _
  | _ => exact noAssign_cons nofun

theorem AllSpelled.starts {body : List Stmt} (h : AllSpelled body ts) : NoAssign ts := by
  cases h with
  | nil => exact noAssign_nil
  | cons first _ => exact first.starts _

theorem Spelled.ends {a : Stmt} (h : a.Spelled ts) : NoType ts := by
  induction h with
  | ret _ => exact (noType_concat (by decide)).cons (by decide)
  | expr _ => exact noType_concat (by decide)
  | empty => exact noType_nil.cons (by decide)
  | ifThen _ _ ih => exact ((ih.trailing (by decide)).cons (by decide)).cons (by decide)
  | ifElse _ _ _ _ ih =>
      refine NoType.cons (NoType.cons ?_ (by decide)) (by decide)
      exact (ih.trailing (by decide)).trailing (by decide)
  | @declare p q q' name _ ts _ =>
      have all : NoType ((⟨.keyword .int, p⟩ :: ⟨.identifier name, q⟩ :: ts) ++
          [⟨.symbol .semicolon, q'⟩]) := noType_concat (by decide)
      exact all

theorem InitialSpelled.among {initial : Option Expr} (h : InitialSpelled initial ts)
    (hm : m ∈ initialMentions initial) : m.Among ts := by
  cases h with
  | none => cases hm
  | some value => exact (value.among hm).cons (by decide)

theorem Spelled.among {a : Stmt} (h : a.Spelled ts) (hm : m ∈ a.mentions) : m.Among ts := by
  induction h with
  | ret value => exact ((value.among hm).leading (by decide)).cons (by decide)
  | expr value => exact (value.among hm).leading (by decide)
  | empty => cases hm
  | ifThen condition _ ih =>
      refine Mention.Among.cons (Mention.Among.cons ?_ (by decide)) (by decide)
      obtain first | second := List.mem_append.mp hm
      · exact (condition.among first).leading (by decide)
      · exact (ih second).trailing (by decide)
  | ifElse condition _ _ iht ihf =>
      refine Mention.Among.cons (Mention.Among.cons ?_ (by decide)) (by decide)
      obtain first | others := List.mem_append.mp hm
      · exact (condition.among first).leading (by decide)
      · obtain second | third := List.mem_append.mp others
        · exact ((iht second).leading (by decide)).trailing (by decide)
        · exact ((ihf third).trailing (by decide)).trailing (by decide)
  | @declare p q q' name _ ts initial =>
      obtain inner | last := List.mem_append.mp hm
      · have named : NoType ([⟨.keyword .int, p⟩] ++ [⟨.identifier name, q⟩]) :=
          noType_concat Token.Kind.noConfusion
        exact (initial.among inner).within named (noAssign_cons (by decide))
      · cases List.mem_singleton.mp last
        exact ⟨[⟨.keyword .int, p⟩], _, rfl, fun none => none _ rfl rfl⟩

theorem AllSpelled.among {body : List Stmt} (h : AllSpelled body ts)
    (hm : m ∈ body.flatMap Stmt.mentions) : m.Among ts := by
  induction h with
  | nil => cases hm
  | cons first others ih =>
      rw [List.flatMap_cons] at hm
      obtain inFirst | inOthers := List.mem_append.mp hm
      · exact (first.among inFirst).append others.starts
      · exact (ih inOthers).prepend first.ends

end Stmt

theorem Program.Spelled.among {p : Program} (h : p.Spelled ts) (hm : m ∈ p.mentions) :
    m.Among ts := by
  cases h with
  | @intro name body p q₁ q₂ q₃ q₄ q₅ ts body =>
      have header : NoType ([⟨.keyword .int, p⟩, ⟨.identifier name, q₁⟩, ⟨.symbol .leftParen, q₂⟩,
          ⟨.symbol .rightParen, q₃⟩] ++ [⟨.symbol .leftBrace, q₄⟩]) :=
        noType_concat Token.Kind.noConfusion
      exact (body.among hm).within header (noAssign_cons (by decide))

end Spelled

end IntLang
