import Mathlib.Data.List.Basic
import IntLang.Compiler
import IntLang.Proofs.Parser.Recognition
import IntLang.Proofs.Parser.Lockstep
import IntLang.Proofs.Token.Places
/-!
Where a program is rejected: at the first token with which the tokens read so far stop being the
beginning of a program. The tokens in front of it are one, since the trees that have been read can
be completed. Together with it they are none, since on any continuation that the grammar derives the
parser would meet the same fault.
-/
namespace IntLang

open Token (Kind)

namespace Grammar

/-- The tokens are the beginning of what the grammar derives. -/
def Viable (tokens : List Token) : Prop :=
  ∃ ks, Derives (.ref .program) (tokens.map Token.kind ++ ks)

/-- The tokens in front of the one at `i` are the beginning of a program, and together with it they
are none. -/
structure FirstFault (tokens : List Token) (i : Nat) : Prop where
  viable : Viable (tokens.take i)
  hopeless : ¬ Viable (tokens.take (i + 1))

section Viable

variable {tokens tokens' : List Token} {i j : Nat}

theorem viable_iff_begins : Viable tokens ↔ Parser.BeginsProgram (tokens.map Token.kind) := by
  constructor
  · rintro ⟨ks, derived⟩
    obtain ⟨p, canonical, kinds⟩ := derived.holds (fun _ _ => written_closed _)
    exact ⟨p, ks, canonical, kinds⟩
  · rintro ⟨p, ks, canonical, kinds⟩
    exact ⟨ks, kinds ▸ derives_program canonical⟩

theorem Viable.of_isPrefix (h : Viable tokens') (hp : tokens <+: tokens') : Viable tokens := by
  obtain ⟨behind, rfl⟩ := hp
  obtain ⟨ks, derived⟩ := h
  rw [List.map_append, List.append_assoc] at derived
  exact ⟨_, derived⟩

theorem FirstFault.le (h : FirstFault tokens i) (h' : FirstFault tokens j) : i ≤ j := by
  refine Nat.le_of_not_lt fun shorter => ?_
  exact h'.hopeless (h.viable.of_isPrefix (List.take_prefix_take_left shorter))

theorem FirstFault.unique (h : FirstFault tokens i) (h' : FirstFault tokens j) : i = j :=
  Nat.le_antisymm (h.le h') (h'.le h)

end Viable

end Grammar

namespace Parser

open Grammar (Viable FirstFault)

variable {ts tokens : List Token} {eof : Token} {e : ParseError} {p : Program}

/-- The parser accepts tokens of the kinds that a canonical program is written with. -/
theorem program_accepts (canonical : p.Canonical)
    (written : tokens.map Token.kind = p.kinds ++ [.endOfFile]) :
    ∃ q, onTokens program tokens = .ok q := by
  obtain ⟨front, behind, rfl, kinds, ended⟩ := List.map_eq_append_iff.mp written
  obtain ⟨last, rfl, hlast⟩ := List.map_eq_singleton_iff.mp ended
  have read : Reads (.ofTokens (front ++ [last]))
      ⟨[last], (Stream.ofTokens (front ++ [last])).finish⟩ p.kinds :=
    ⟨front, rfl, kinds, p.endOfFile_not_mem_kinds⟩
  obtain ⟨q, parsed, -⟩ := program_parses canonical read hlast
  exact ⟨q, onTokens_eq_ok.mpr ⟨_, parsed⟩⟩

theorem accepted_of_viable (h : Viable tokens) :
    ∃ behind q, onTokens program (tokens ++ behind) = .ok q := by
  obtain ⟨p, ks, canonical, kinds⟩ := Grammar.viable_iff_begins.mp h
  have made : (tokens ++ ks.map fun k => (⟨k, .start⟩ : Token)).map Token.kind =
      p.kinds ++ [.endOfFile] := by
    rw [kinds, List.map_append, List.map_map]
    simp [Function.comp_def]
  obtain ⟨q, accepted⟩ := program_accepts canonical made
  exact ⟨_, q, accepted⟩

/-- Nothing follows an end of file, so a whole token list begins no program but itself. -/
theorem accepted_of_viable_whole (h : Viable (ts ++ [eof])) (last : eof.kind = .endOfFile) :
    ∃ q, onTokens program (ts ++ [eof]) = .ok q := by
  obtain ⟨p, ks, canonical, kinds⟩ := Grammar.viable_iff_begins.mp h
  rw [List.map_append, List.map_singleton, last, List.append_assoc] at kinds
  obtain ⟨same, -, -⟩ := (List.append_cons_inj_of_notMem p.endOfFile_not_mem_kinds
    List.not_mem_nil).mp kinds
  apply program_accepts canonical
  rw [List.map_append, List.map_singleton, last, same]

/-- A fault with more tokens behind it is met whatever those tokens are. -/
theorem not_viable_of_fault {front x : List Token} {f : Position} {r : Stream} (hx : x ≠ [])
    (failed : program ⟨front ++ x, f⟩ = .error e r) (within : x.length ≤ r.tokens.length) :
    ¬ Viable front := by
  intro viable
  obtain ⟨behind, q, accepted⟩ := accepted_of_viable viable
  obtain ⟨s, parsed⟩ := onTokens_eq_ok.mp accepted
  have same : Lockstep x behind f (Stream.ofTokens (front ++ behind)).finish 1 front.length
      program program := program_lockstep hx
  obtain ⟨e', r', refused⟩ := same.error (Nat.le_refl _) failed within
  cases parsed.symm.trans refused

/-- The parser rejects a token list at its first fault. -/
theorem firstFault_of_rejected (last : eof.kind = .endOfFile)
    (rejected : onTokens program (ts ++ [eof]) = .error e) :
    ∃ i t, (ts ++ [eof])[i]? = some t ∧ e.position = t.position ∧ FirstFault (ts ++ [eof]) i := by
  obtain ⟨r, failed⟩ := onTokens_eq_error rejected
  obtain ⟨s, ks, ⟨front, split, rfl, inner⟩, position, rfl, begins⟩ := program_faults _ _ _ failed
  have all : ts ++ [eof] = front ++ s.tokens := congrArg Stream.tokens split
  obtain ⟨tokens, f⟩ := s
  cases tokens with
  | nil =>
      refine absurd (List.mem_map.mpr ⟨eof, ?_, last⟩) inner
      rw [← List.append_nil front, ← all]
      exact List.mem_append_right _ List.mem_cons_self
  | cons t x =>
      refine ⟨front.length, t, ?_, position, ?_, ?_⟩
      · rw [all, List.getElem?_append_right (Nat.le_refl _), Nat.sub_self]
        rfl
      · rw [all, List.take_left]
        exact Grammar.viable_iff_begins.mpr begins
      · have upTo : (ts ++ [eof]).take (front.length + 1) = front ++ [t] := by
          rw [all, List.append_cons]
          exact List.take_left' List.length_append
        rw [upTo]
        by_cases more : x = []
        · subst more
          intro viable
          rw [← all] at viable
          obtain ⟨q, accepted⟩ := accepted_of_viable_whole viable last
          cases accepted.symm.trans rejected
        · rw [split, List.append_cons] at failed
          exact not_viable_of_fault more failed (Nat.le_refl _)

end Parser

section Source

open Grammar (FirstFault)

variable {source : String} {tokens : List Token}

theorem Program.rejected_of_tokenize (lexed : tokenize source = .ok tokens) {error : CompileError}
    (rejected : Program.ofSource source = .error error) :
    ∃ e, Parser.onTokens Parser.program tokens = .error e ∧ error = .grammatical e.diagnostic := by
  unfold Program.ofSource at rejected
  simp only [lexed] at rejected
  cases parsed : Parser.onTokens Parser.program tokens with
  | ok p =>
      simp only [parsed] at rejected
      cases rejected
  | error e =>
      simp only [parsed] at rejected
      cases rejected
      exact ⟨e, rfl, rfl⟩

/-- The parser rejects a source at the place of the first token that no continuation can repair:
some continuation of the tokens in front of it is accepted, and no continuation of the tokens up to
it is derived by the grammar. There is one such token only, and as long as no counter of lines or
columns comes round, no other token has its place. -/
theorem Program.rejected_at_firstFault (lexed : tokenize source = .ok tokens)
    {error : CompileError} (rejected : Program.ofSource source = .error error) :
    ∃ d i t, error = .grammatical d ∧ tokens[i]? = some t ∧ d.position = t.position ∧
      FirstFault tokens i ∧ (∀ j, FirstFault tokens j → j = i) ∧
      (∃ behind p, Parser.onTokens Parser.program (tokens.take i ++ behind) = .ok p) ∧
      (Position.start.Counts source.toList →
        ∀ j u, tokens[j]? = some u → u.position = d.position → j = i) := by
  obtain ⟨e, rejected, rfl⟩ := Program.rejected_of_tokenize lexed rejected
  obtain ⟨ts, eof, rfl, -, last⟩ := tokenize_ends lexed
  obtain ⟨i, t, ht, position, fault⟩ := Parser.firstFault_of_rejected last rejected
  refine ⟨e.diagnostic, i, t, rfl, ht, position, fault, fun j other => other.unique fault,
    Parser.accepted_of_viable fault.viable, ?_⟩
  intro fits j u hu same
  have places := List.pairwise_iff_getElem.mp (tokenize_places lexed fits)
  obtain ⟨hi, rfl⟩ := List.getElem?_eq_some_iff.mp ht
  obtain ⟨hj, rfl⟩ := List.getElem?_eq_some_iff.mp hu
  have equal := same.trans position
  rcases Nat.lt_trichotomy j i with earlier | rfl | later
  · exact ((places j i hj hi earlier).ne equal).elim
  · rfl
  · exact ((places i j hi hj later).ne equal.symm).elim

/-- A program that assigns to a sum, in its second line. -/
def assignedSum : String := "int main() \x7b\n  a + 1 = 2;\n\x7d"

def assignedSumTokens : List Token :=
  [⟨.keyword .int, ⟨1, 1⟩⟩, ⟨.identifier "main", ⟨1, 5⟩⟩, ⟨.symbol .leftParen, ⟨1, 9⟩⟩,
    ⟨.symbol .rightParen, ⟨1, 10⟩⟩, ⟨.symbol .leftBrace, ⟨1, 12⟩⟩, ⟨.identifier "a", ⟨2, 3⟩⟩,
    ⟨.symbol .plus, ⟨2, 5⟩⟩, ⟨.literal 1, ⟨2, 7⟩⟩, ⟨.symbol .assign, ⟨2, 9⟩⟩, ⟨.literal 2, ⟨2, 11⟩⟩,
    ⟨.symbol .semicolon, ⟨2, 12⟩⟩, ⟨.symbol .rightBrace, ⟨3, 1⟩⟩, ⟨.endOfFile, ⟨3, 2⟩⟩]

theorem assignedSum_rejected :
    tokenize assignedSum = .ok assignedSumTokens ∧
      (∃ d, Program.ofSource assignedSum = .error (.grammatical d) ∧ d.position = ⟨2, 9⟩) ∧
      FirstFault assignedSumTokens 8 ∧ assignedSumTokens[8]? = some ⟨.symbol .assign, ⟨2, 9⟩⟩ := by
  have lexed : tokenize assignedSum = .ok assignedSumTokens := by decide +kernel
  have rejected : Program.ofSource assignedSum = .error (.grammatical
      ⟨.malformed "left-hand side of assignment must be a variable", ⟨2, 9⟩⟩) := by
    decide +kernel
  have fits : Position.start.Counts assignedSum.toList :=
    Position.counts_of_length (n := 1) (Nat.le_refl 1) (Nat.le_refl 1) (by decide)
  obtain ⟨d, i, t, same, -, -, fault, -, -, only⟩ := Program.rejected_at_firstFault lexed rejected
  cases same
  have here := only fits 8 _ rfl rfl
  exact ⟨lexed, ⟨_, rejected, rfl⟩, here ▸ fault, rfl⟩

end Source

end IntLang
