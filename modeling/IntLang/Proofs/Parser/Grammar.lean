import IntLang.Word
import IntLang.Token.Basic
/-!
The grammar of the language: a rule for each nonterminal, and the lists of token kinds that the
rules derive. The grammar leaves open which `if` an `else` belongs to.
-/
namespace IntLang.Grammar

open Token (Kind)

inductive Nonterminal
  | program
  | blockItem
  | declaration
  | statement
  | expression
  | conditional
  | logicalOr
  | logicalAnd
  | equality
  | relational
  | additive
  | multiplicative
  | unary
  | primary
deriving DecidableEq, Repr

inductive Rule
  | literal
  | identifier
  | token (kind : Kind)
  | ref (n : Nonterminal)
  | seq (a b : Rule)
  | alt (a b : Rule)
  | opt (a : Rule)
  | many (a : Rule)

namespace Rule

instance : Append Rule := ⟨.seq⟩

instance : OrOp Rule := ⟨.alt⟩

def word (w : Keyword) : Rule := .token (.keyword w)

def mark (s : Symbol) : Rule := .token (.symbol s)

end Rule

open Rule (word mark ref opt many)

def production : Nonterminal → Rule
  | .program => word .int ++ .identifier ++ mark .leftParen ++ mark .rightParen ++
      mark .leftBrace ++ many (ref .blockItem) ++ mark .rightBrace ++ .token .endOfFile
  | .blockItem => ref .declaration ||| ref .statement
  | .declaration =>
      word .int ++ .identifier ++ opt (mark .assign ++ ref .expression) ++ mark .semicolon
  | .statement =>
      word .ret ++ ref .expression ++ mark .semicolon |||
      opt (ref .expression) ++ mark .semicolon |||
      word .cond ++ mark .leftParen ++ ref .expression ++ mark .rightParen ++ ref .statement ++
        opt (word .alt ++ ref .statement)
  | .expression => .identifier ++ mark .assign ++ ref .expression ||| ref .conditional
  | .conditional =>
      ref .logicalOr ++ opt (mark .question ++ ref .expression ++ mark .colon ++ ref .conditional)
  | .logicalOr => ref .logicalAnd ++ many (mark .orOr ++ ref .logicalAnd)
  | .logicalAnd => ref .equality ++ many (mark .andAnd ++ ref .equality)
  | .equality => ref .relational ++ many ((mark .equal ||| mark .notEqual) ++ ref .relational)
  | .relational =>
      ref .additive ++ many ((mark .less ||| mark .greater ||| mark .lessEqual |||
        mark .greaterEqual) ++ ref .additive)
  | .additive => ref .multiplicative ++ many ((mark .plus ||| mark .minus) ++ ref .multiplicative)
  | .multiplicative =>
      ref .unary ++ many ((mark .star ||| mark .slash ||| mark .percent) ++ ref .unary)
  | .unary => (mark .minus ||| mark .tilde ||| mark .bang) ++ ref .unary ||| ref .primary
  | .primary => .literal ||| .identifier ||| mark .leftParen ++ ref .expression ++ mark .rightParen

/-- The kinds that a rule derives. The value of a literal is that of a word. -/
inductive Derives : Rule → List Kind → Prop
  | literal {v w} : Word.ofInt? v = some w → Derives .literal [.literal v]
  | identifier {name} : Derives .identifier [.identifier name]
  | token {k} : Derives (.token k) [k]
  | ref {n ks} : Derives (production n) ks → Derives (ref n) ks
  | seq {a b ks ks'} : Derives a ks → Derives b ks' → Derives (a ++ b) (ks ++ ks')
  | left {a b ks} : Derives a ks → Derives (a ||| b) ks
  | right {a b ks} : Derives b ks → Derives (a ||| b) ks
  | without {a} : Derives (opt a) []
  | opt {a ks} : Derives a ks → Derives (opt a) ks
  | done {a} : Derives (many a) []
  | more {a ks ks'} : Derives a ks → Derives (many a) ks' → Derives (many a) (ks ++ ks')

/-- What a rule says of a list of kinds where the nonterminals stand for the sets `L`. -/
def Rule.Holds (L : Nonterminal → List Kind → Prop) : Rule → List Kind → Prop
  | .literal, ks => ∃ v w, Word.ofInt? v = some w ∧ ks = [.literal v]
  | .identifier, ks => ∃ name, ks = [.identifier name]
  | .token k, ks => ks = [k]
  | .ref n, ks => L n ks
  | .seq a b, ks => ∃ first second, ks = first ++ second ∧ a.Holds L first ∧ b.Holds L second
  | .alt a b, ks => a.Holds L ks ∨ b.Holds L ks
  | .opt a, ks => ks = [] ∨ a.Holds L ks
  | .many a, ks => ∃ parts : List (List Kind), ks = parts.flatten ∧ ∀ part ∈ parts, a.Holds L part

/-- Sets that are closed under the rules hold whatever the rules derive. -/
theorem Derives.holds {L : Nonterminal → List Kind → Prop}
    (closed : ∀ n ks, (production n).Holds L ks → L n ks) {r : Rule} {ks : List Kind}
    (h : Derives r ks) : r.Holds L ks := by
  induction h with
  | literal hw => exact ⟨_, _, hw, rfl⟩
  | identifier => exact ⟨_, rfl⟩
  | token => rfl
  | ref _ ih => exact closed _ _ ih
  | seq _ _ iha ihb => exact ⟨_, _, rfl, iha, ihb⟩
  | left _ ih => exact .inl ih
  | right _ ih => exact .inr ih
  | without => exact .inl rfl
  | opt _ ih => exact .inr ih
  | done => exact ⟨[], rfl, fun _ hmem => (List.not_mem_nil hmem).elim⟩
  | more _ _ iha ihb =>
      obtain ⟨parts, rfl, hparts⟩ := ihb
      exact ⟨_ :: parts, rfl, List.forall_mem_cons.mpr ⟨iha, hparts⟩⟩

theorem Derives.many_snoc {a : Rule} {ks ks' : List Kind} (h : Derives (many a) ks)
    (ha : Derives a ks') : Derives (many a) (ks ++ ks') := by
  generalize hr : many a = r at h
  induction h with
  | done =>
      cases hr
      rw [List.nil_append, ← List.append_nil ks']
      exact .more ha .done
  | more hfirst _ _ ih =>
      cases hr
      rw [List.append_assoc]
      exact .more hfirst (ih rfl)
  | _ => cases hr

theorem Derives.snoc {x a : Rule} {ks ks' : List Kind} (h : Derives (x ++ many a) ks)
    (ha : Derives a ks') : Derives (x ++ many a) (ks ++ ks') := by
  change Derives (.seq x (many a)) ks at h
  cases h with
  | seq hx hm =>
      rw [List.append_assoc]
      exact .seq hx (hm.many_snoc ha)

end IntLang.Grammar
