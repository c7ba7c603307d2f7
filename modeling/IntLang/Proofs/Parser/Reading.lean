import IntLang.Parser.Program
import IntLang.Proofs.Stateful
/-!
What the readers of single tokens do to a stream.
-/
namespace IntLang.Parser

open Token (Kind)

/-- The tokens from the stream `s` up to `s'` have those kinds, and none of them ends a file. -/
def Reads (s s' : Stream) (ks : List Kind) : Prop :=
  ∃ ts, s = ⟨ts ++ s'.tokens, s'.finish⟩ ∧ ts.map Token.kind = ks ∧ .endOfFile ∉ ks

section Reads

variable {s s₁ s' : Stream} {ks ks' : List Kind}

theorem Reads.nil (s : Stream) : Reads s s [] := ⟨[], rfl, rfl, List.not_mem_nil⟩

theorem Reads.trans (h : Reads s s₁ ks) (h' : Reads s₁ s' ks') : Reads s s' (ks ++ ks') := by
  obtain ⟨ts, rfl, rfl, hend⟩ := h
  obtain ⟨ts', rfl, rfl, hend'⟩ := h'
  refine ⟨ts ++ ts', ?_, List.map_append, ?_⟩
  · rw [List.append_assoc]
  · intro hmem
    exact (List.mem_append.mp hmem).elim hend hend'

theorem Reads.cons {k : Kind} (h : Reads s s₁ [k]) (h' : Reads s₁ s' ks) : Reads s s' (k :: ks) :=
  h.trans h'

theorem reads_tail (h : s.head.kind ≠ .endOfFile) : Reads s s.tail [s.head.kind] := by
  obtain ⟨tokens, finish⟩ := s
  cases tokens with
  | nil => exact (h rfl).elim
  | cons t ts =>
      refine ⟨[t], rfl, rfl, ?_⟩
      intro hmem
      exact h (List.mem_singleton.mp hmem).symm

theorem reads_head {k : Kind} (h : s.head.kind = k) (hk : k ≠ .endOfFile) : Reads s s.tail [k] := by
  subst h
  exact reads_tail hk

theorem Reads.eq_of_nil (h : Reads s s' []) : s = s' := by
  obtain ⟨ts, rfl, hts, -⟩ := h
  rw [List.map_eq_nil_iff.mp hts, List.nil_append]

theorem Reads.split (h : Reads s s' (ks ++ ks')) : ∃ s₁, Reads s s₁ ks ∧ Reads s₁ s' ks' := by
  obtain ⟨ts, rfl, hts, hend⟩ := h
  obtain ⟨first, second, rfl, rfl, rfl⟩ := List.map_eq_append_iff.mp hts
  refine ⟨⟨second ++ s'.tokens, s'.finish⟩, ⟨first, ?_, rfl, ?_⟩, ⟨second, rfl, rfl, ?_⟩⟩
  · rw [List.append_assoc]
  · intro hmem
    exact hend (List.mem_append_left _ hmem)
  · intro hmem
    exact hend (List.mem_append_right _ hmem)

theorem Reads.uncons {k : Kind} (h : Reads s s' (k :: ks)) :
    s.head.kind = k ∧ Reads s.tail s' ks := by
  obtain ⟨ts, rfl, hts, hend⟩ := h
  obtain ⟨t, rest, rfl, rfl, rfl⟩ := List.map_eq_cons_iff.mp hts
  exact ⟨rfl, rest, rfl, rfl, fun hmem => hend (List.mem_cons_of_mem _ hmem)⟩

theorem Reads.length_le (h : Reads s s' ks) : ks.length ≤ s.tokens.length := by
  obtain ⟨ts, rfl, rfl, -⟩ := h
  rw [List.length_map, List.length_append]
  exact Nat.le_add_right _ _

theorem Reads.next? {k : Kind} (h : Reads s s' (k :: ks)) : next? s = .ok (some s.head) s := by
  obtain ⟨ts, rfl, hts, -⟩ := h
  obtain ⟨t, rest, rfl, -, -⟩ := List.map_eq_cons_iff.mp hts
  rfl

theorem peek_eq_ok {k : Kind} (h : peek s = .ok k s') : k = s.head.kind ∧ s' = s := by
  cases h
  exact ⟨rfl, rfl⟩

theorem next?_eq_ok {t : Token} (h : next? s = .ok (some t) s') : s.head = t ∧ s' = s := by
  unfold next? at h
  unfold Stream.head
  cases ht : s.tokens with
  | nil =>
      rw [ht] at h
      cases h
  | cons u ts =>
      rw [ht] at h
      cases h
      exact ⟨rfl, rfl⟩

theorem take_eq_ok {t : Token} (h : take s = .ok t s') : t = s.head ∧ s' = s.tail := by
  cases h
  exact ⟨rfl, rfl⟩

theorem require_kind {k : Kind} {c : Construct} {t : Token} (h : require k c s = .ok t s') :
    s.head.kind = k := by
  unfold require at h
  by_cases hs : s.head.kind = k
  · exact hs
  · rw [if_neg hs] at h
    cases h

theorem require_eq_ok {k : Kind} (hk : k ≠ .endOfFile) {c : Construct} {t : Token}
    (h : require k c s = .ok t s') : Reads s s' [k] := by
  have hs := require_kind h
  unfold require at h
  rw [if_pos hs] at h
  cases h
  exact reads_head hs hk

theorem identifier_eq_ok {c : Construct} {name : String} {p : Position}
    (h : identifier c s = .ok (name, p) s') : Reads s s' [.identifier name] := by
  unfold identifier at h
  split at h
  · rename_i found hs
    cases h
    exact reads_head hs Kind.noConfusion
  · cases h

theorem accept_eq_ok {k : Kind} (hk : k ≠ .endOfFile) {b : Bool} (h : accept k s = .ok b s') :
    (b = true ∧ s.head.kind = k ∧ Reads s s' [k]) ∨ (b = false ∧ s' = s ∧ s.head.kind ≠ k) := by
  unfold accept at h
  by_cases hs : s.head.kind = k
  · rw [if_pos hs] at h
    cases h
    exact .inl ⟨rfl, hs, reads_head hs hk⟩
  · rw [if_neg hs] at h
    cases h
    exact .inr ⟨rfl, rfl, hs⟩

theorem peek_eq (s : Stream) : peek s = .ok s.head.kind s := rfl

theorem take_eq (s : Stream) : take s = .ok s.head s.tail := rfl

theorem remaining_eq (s : Stream) : remaining s = .ok s.tokens.length s := rfl

theorem require_of_head {k : Kind} (h : s.head.kind = k) (c : Construct) :
    require k c s = .ok s.head s.tail := if_pos h

theorem accept_of_head {k : Kind} (h : s.head.kind = k) : accept k s = .ok true s.tail := if_pos h

theorem accept_of_ne {k : Kind} (h : s.head.kind ≠ k) : accept k s = .ok false s := if_neg h

theorem identifier_of_head {name : String} (h : s.head.kind = .identifier name) (c : Construct) :
    identifier c s = .ok (name, s.head.position) s.tail := by
  unfold identifier
  rw [h]

end Reads

theorem onTokens_eq_ok {α : Type} {p : Parser α} {tokens : List Token} {a : α} :
    onTokens p tokens = .ok a ↔ ∃ s, p.run (.ofTokens tokens) = .ok a s := by
  unfold onTokens
  cases p.run (.ofTokens tokens) with
  | ok b s =>
      constructor
      · rintro ⟨⟩
        exact ⟨s, rfl⟩
      · rintro ⟨_, ⟨⟩⟩
        rfl
  | error e s =>
      constructor
      · intro h
        cases h
      · rintro ⟨_, h⟩
        cases h

theorem onTokens_eq_error {α : Type} {p : Parser α} {tokens : List Token} {e : ParseError}
    (h : onTokens p tokens = .error e) : ∃ s, p.run (.ofTokens tokens) = .error e s := by
  unfold onTokens at h
  cases run : p.run (.ofTokens tokens) with
  | ok a s =>
      rw [run] at h
      cases h
  | error e' s =>
      rw [run] at h
      cases h
      exact ⟨s, rfl⟩

end IntLang.Parser
