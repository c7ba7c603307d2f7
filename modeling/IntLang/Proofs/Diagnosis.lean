import Mathlib.Data.List.Nodup
import IntLang.Compiler
import IntLang.Proofs.Token.Occurrence
import IntLang.Proofs.Parser.Naming
import IntLang.Proofs.Ir.Resolution
/-!
Where the diagnostics of name resolution point. The place of a diagnostic goes from the scanner over
the tree to the lowering; it is that of the first name at fault, which stands there in the source.
-/
namespace IntLang

open Mention (Resolve Offend declaredNames)

/-- Behind the mentions `before`, the fault of the mention is that it is the second declaration of
its name, or that it touches a name which none of them declares. -/
inductive Mention.Faulty (before : List Mention) : Mention → Diagnostic.Cause → Prop
  | again {name p} : (declaredNames before).count name = 1 →
      Faulty before ⟨.declared, name, p⟩ (.redeclared name)
  | unknown {name access p} : name ∉ declaredNames before →
      Faulty before ⟨.touched access, name, p⟩ (.undeclared name access)

theorem Mention.Resolve.faulty {before : List Mention} {m : Mention} {cause : Diagnostic.Cause}
    (resolve : Resolve [] before) (fault : m.cause? (declaredNames before) = some cause) :
    m.Faulty before cause := by
  obtain ⟨role, name, p⟩ := m
  have distinct : (declaredNames before).Nodup := resolve.nodup .nil
  cases role with
  | declared =>
      by_cases declared : name ∈ declaredNames before
      · cases (if_pos declared).symm.trans fault
        exact .again (List.count_eq_one_of_mem distinct declared)
      · cases (if_neg declared).symm.trans fault
  | touched access =>
      by_cases declared : name ∈ declaredNames before
      · cases (if_pos declared).symm.trans fault
      · cases (if_neg declared).symm.trans fault
        exact .unknown declared

section Source

variable {source : String}

/-- Tokens and a tree are built before names are resolved. -/
theorem Program.ofSource_cases (source : String) :
    (∃ d, ofSource source = .error (.lexical d)) ∨
    (∃ d, ofSource source = .error (.grammatical d)) ∨
    ∃ p tokens, ofSource source = .ok p ∧ tokenize source = .ok tokens ∧
      Parser.onTokens Parser.program tokens = .ok p := by
  unfold ofSource
  cases tokenize source with
  | error e => exact .inl ⟨_, rfl⟩
  | ok tokens =>
      cases parsed : Parser.onTokens Parser.program tokens with
      | error e => exact .inr (.inl ⟨e.diagnostic, by simp only [parsed]⟩)
      | ok p => exact .inr (.inr ⟨p, tokens, by simp only [parsed], rfl, parsed⟩)

/-- A mention in the tree of a source is a name among its tokens. -/
theorem Mention.among_of_onTokens {tokens : List Token} {p : Program} {m : Mention}
    (parsed : Parser.onTokens Parser.program tokens = .ok p) (hm : m ∈ p.mentions) :
    m.Among tokens := by
  obtain ⟨ts, rest, rfl, spelled, last⟩ := Parser.onTokens_program_spells parsed
  refine (spelled.among hm).append ?_
  intro t ht
  rw [last t ht]
  exact Token.Kind.noConfusion

/-- A diagnostic of name resolution comes from lowering the tree. -/
theorem Ir.Routine.ofSource_offend {d : Diagnostic}
    (h : Ir.Routine.ofSource source = .error (.semantic d)) :
    ∃ p tokens, Program.ofSource source = .ok p ∧ tokenize source = .ok tokens ∧
      Parser.onTokens Parser.program tokens = .ok p ∧ Offend [] p.mentions d := by
  unfold ofSource at h
  obtain ⟨e, built⟩ | ⟨e, built⟩ | ⟨p, tokens, built, lexed, parsed⟩ :=
    Program.ofSource_cases source
  · rw [built] at h
    cases h
  · rw [built] at h
    cases h
  · rw [built] at h
    exact ⟨p, tokens, built, lexed, parsed, ofProgram_offend h⟩

/-- A diagnostic of name resolution has the place of the first mention at fault. Among the tokens
the name of that mention stands there in its role; in the source it stands there as a whole word
and in no comment, and there is no other text with that place. -/
theorem Ir.Routine.ofSource_diagnosed {d : Diagnostic}
    (h : Ir.Routine.ofSource source = .error (.semantic d))
    (short : source.length + 1 < UInt32.size) :
    ∃ p before m after, Program.ofSource source = .ok p ∧ p.mentions = before ++ m :: after ∧
      Resolve [] before ∧ m.Faulty before d.cause ∧ m.position = d.position ∧
      (∃ tokens, tokenize source = .ok tokens ∧ m.Among tokens) ∧
      ∃ pre post, Occurs source.toList m.name d.position pre post ∧
        ∀ pre' rest, source.toList = pre' ++ rest → Position.start.after pre' = d.position →
          pre' = pre := by
  obtain ⟨p, tokens, built, lexed, parsed, before, m, after, listed, resolve, fault, place⟩ :=
    ofSource_offend h
  have found : m ∈ p.mentions := by
    rw [listed]
    exact List.mem_append_right _ List.mem_cons_self
  have among := Mention.among_of_onTokens parsed found
  have token : ⟨.identifier m.name, m.position⟩ ∈ tokens := by
    obtain ⟨front, behind, split, -⟩ := among
    rw [split]
    exact List.mem_append_right _ List.mem_cons_self
  obtain ⟨pre, post, occurs⟩ := tokenize_occurs lexed token
  rw [place] at occurs
  refine ⟨p, before, m, after, built, listed, resolve, resolve.faulty fault, place,
    ⟨tokens, lexed, among⟩, pre, post, occurs, ?_⟩
  intro pre' rest split same
  rw [← String.length_toList] at short
  exact eq_of_place short split occurs.split (same.trans occurs.place.symm)

/-- A program that names its variable in a comment, and reads it in its fourth line. -/
def unknownName : String :=
  "/* header\n comment */ int main() \x7b\n  // y\n  return y;\n\x7d"

theorem unknownName_diagnosed :
    Ir.Routine.ofSource unknownName =
      .error (.semantic ⟨.undeclared "y" .read, ⟨4, 10⟩⟩) ∧
    unknownName.length + 1 < UInt32.size ∧
    ∃ pre post, Occurs unknownName.toList "y" ⟨4, 10⟩ pre post := by
  have rejected : Ir.Routine.ofSource unknownName =
      .error (.semantic ⟨.undeclared "y" .read, ⟨4, 10⟩⟩) := by decide +kernel
  have short : unknownName.length + 1 < UInt32.size := by decide
  obtain ⟨p, before, m, after, -, -, -, faulty, -, -, pre, post, occurs, -⟩ :=
    Ir.Routine.ofSource_diagnosed rejected short
  cases faulty
  exact ⟨rejected, short, pre, post, occurs⟩

end Source

end IntLang
