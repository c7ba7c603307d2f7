import Mathlib.Data.List.DropRight
import Mathlib.Data.List.Nodup
import IntLang.Ir.SlotTable
import IntLang.Proofs.Ir.Preservation
import IntLang.Proofs.Ir.Resolution
/-!
A table of slots behind any history of calls. Its slots are numbered by the order of declaration
since the last clearing, and a call that is refused leaves it as it was.
-/
namespace IntLang.Ir

/-- A name that is declared last has the number of the names before it as its slot. -/
theorem Scope.slot?_concat {names : List String} {name : String} (fresh : name ∉ names)
    (other : String) : slot? ⟨names ++ [name]⟩ other =
      if name = other then some (.ofNat names.length) else slot? ⟨names⟩ other := by
  by_cases same : name = other
  · subst same
    rw [if_pos rfl, slot?, idxOf?_declared fresh List.prefix_rfl, Option.map_some]
  · rw [if_neg same, slot?, slot?, List.idxOf?, List.findIdx?_append, List.findIdx?_singleton,
      if_neg (by simpa using same)]
    simp

namespace SlotTable

section Holds

variable {t : SlotTable} {s : Scope}

/-- The table stores the slots that the names of a scope have. -/
structure Holds (t : SlotTable) (s : Scope) : Prop where
  slot : ∀ name, t.slots[name]? = s.slot? name
  count : t.slots.size = s.names.length

theorem holds_empty : empty.Holds .empty :=
  ⟨fun _ => Std.ExtTreeMap.getElem?_empty, Std.ExtTreeMap.size_empty⟩

theorem Holds.size_eq (h : t.Holds s) : t.size = s.size := congrArg UInt32.ofNat h.count

theorem Holds.isEmpty_eq (h : t.Holds s) : t.isEmpty = s.isEmpty := by
  rw [isEmpty, Std.ExtTreeMap.isEmpty_eq_size_beq_zero, h.count, Scope.isEmpty]
  cases s.names <;> rfl

theorem Holds.lookup_eq (h : t.Holds s) (name : String) (access : Access) (p : Position) :
    t.lookup name access p = s.lookup name access p := by
  cases found : s.slot? name <;> simp [lookup, Scope.lookup, h.slot, found]

theorem Holds.mem_iff (h : t.Holds s) {name : String} :
    t.slots[name]? = none ↔ name ∉ s.names := by
  rw [h.slot, ← mem_of_slot?_isSome, Option.not_isSome_iff_eq_none]

theorem Holds.declare_again (h : t.Holds s) {name : String} (again : name ∈ s.names)
    (p : Position) : t.declare name p = (.error ⟨.redeclared name, p⟩, t) := by
  rw [declare]
  cases found : t.slots[name]? with
  | some slot => rfl
  | none => exact (h.mem_iff.mp found again).elim

/-- The table behind a name that had no slot. -/
theorem Holds.declare_fresh (h : t.Holds s) {name : String} (fresh : name ∉ s.names)
    (p : Position) : ∃ t', t.declare name p = (.ok s.size, t') ∧ t'.Holds ⟨s.names ++ [name]⟩ := by
  have none : t.slots[name]? = none := h.mem_iff.mpr fresh
  refine ⟨⟨t.slots.insert name t.size⟩, ?_, ?_, ?_⟩
  · rw [declare, none, h.size_eq]
  · intro other
    rw [Std.ExtTreeMap.getElem?_insert, Scope.slot?_concat fresh, h.slot, h.size_eq]
    by_cases same : name = other
    · simp [same, Scope.size]
    · simp [same]
  · have absent : t.slots.contains name = false := by
      rw [Std.ExtTreeMap.contains_eq_isSome_getElem?, none]
      rfl
    rw [Std.ExtTreeMap.size_insert, absent, List.length_append, h.count]
    rfl

end Holds

inductive Call
  | declare (name : String) (position : Position)
  | lookup (name : String) (access : Access) (position : Position)
  | clear
deriving DecidableEq

def Call.declared? : Call → Option String
  | .declare name _ => some name
  | .lookup _ _ _ | .clear => none

def Call.fault? : Call → Option Diagnostic
  | .declare name position => some ⟨.redeclared name, position⟩
  | .lookup name access position => some ⟨.undeclared name access, position⟩
  | .clear => none

/-- The answer to a call, which a clearing has not, and the table behind it. -/
def call (t : SlotTable) : Call → Option (Except Diagnostic UInt32) × SlotTable
  | .declare name position => ((t.declare name position).1, (t.declare name position).2)
  | .lookup name access position => (t.lookup name access position, t)
  | .clear => (none, t.clear)

def after (t : SlotTable) (history : List Call) : SlotTable :=
  history.foldl (fun t c => (t.call c).2) t

/-- The names declared since the last clearing, in the order in which each came first. -/
def declared (history : List Call) : List String :=
  ((history.rtakeWhile (· ≠ .clear)).filterMap Call.declared?).eraseDups

/-- A declaration since the last clearing was answered with that slot. -/
def Granted (history : List Call) (name : String) (slot : UInt32) : Prop :=
  ∃ earlier p later, history = earlier ++ .declare name p :: later ∧ .clear ∉ later ∧
    ((empty.after earlier).declare name p).1 = .ok slot

section History

variable {history : List Call}

theorem after_concat (t : SlotTable) (c : Call) :
    t.after (history ++ [c]) = ((t.after history).call c).2 := List.foldl_concat ..

theorem eraseDups_concat (names : List String) (name : String) : (names ++ [name]).eraseDups =
    if name ∈ names.eraseDups then names.eraseDups else names.eraseDups ++ [name] := by
  rw [List.eraseDups_append]
  by_cases again : name ∈ names
  · simp [List.removeAll, again]
  · simp [List.removeAll, again, List.eraseDups_cons]

theorem declared_clear : declared (history ++ [.clear]) = [] := by
  rw [declared, List.rtakeWhile_concat]
  rfl

theorem declared_lookup (name : String) (access : Access) (p : Position) :
    declared (history ++ [.lookup name access p]) = declared history := by
  rw [declared, List.rtakeWhile_concat, if_pos (by simp), List.filterMap_append]
  exact congrArg List.eraseDups (List.append_nil _)

theorem declared_declare (name : String) (p : Position) :
    declared (history ++ [.declare name p]) =
      if name ∈ declared history then declared history else declared history ++ [name] := by
  rw [declared, List.rtakeWhile_concat, if_pos (by simp), List.filterMap_append]
  exact eraseDups_concat _ name

/-- Behind every history the table stores the declared names in their order. -/
theorem after_holds (history : List Call) :
    (empty.after history).Holds ⟨declared history⟩ ∧ (declared history).Nodup := by
  induction history using List.reverseRecOn with
  | nil => exact ⟨holds_empty, List.nodup_nil⟩
  | append_singleton history c ih =>
      obtain ⟨holds, nodup⟩ := ih
      rw [after_concat]
      cases c with
      | clear =>
          rw [declared_clear]
          exact ⟨holds_empty, List.nodup_nil⟩
      | lookup name access p =>
          rw [declared_lookup]
          exact ⟨holds, nodup⟩
      | declare name p =>
          rw [declared_declare, call]
          by_cases again : name ∈ declared history
          · rw [if_pos again, holds.declare_again again]
            exact ⟨holds, nodup⟩
          · obtain ⟨t', answer, holds'⟩ := holds.declare_fresh again p
            rw [if_neg again, answer]
            exact ⟨holds', List.concat_eq_append ▸ nodup.concat again⟩

theorem slots_declare {t : SlotTable} {name other : String} {p : Position} {slot : UInt32} :
    (t.declare other p).2.slots[name]? = some slot ↔
      t.slots[name]? = some slot ∨ other = name ∧ (t.declare other p).1 = .ok slot := by
  cases found : t.slots[other]? with
  | some k => simp [declare, found]
  | none =>
      by_cases same : other = name
      · subst same
        simp [declare, found]
      · simp [declare, found, same, Std.ExtTreeMap.getElem?_insert]

theorem granted_concat {c : Call} {name : String} {slot : UInt32} :
    Granted (history ++ [c]) name slot ↔ c ≠ .clear ∧ Granted history name slot ∨
      ∃ p, c = .declare name p ∧ ((empty.after history).declare name p).1 = .ok slot := by
  constructor
  · rintro ⟨earlier, p, later, split, uncleared, answer⟩
    rcases List.eq_nil_or_concat later with rfl | ⟨later, last, rfl⟩
    · obtain ⟨rfl, same⟩ := List.append_inj' split rfl
      exact .inr ⟨p, List.singleton_inj.mp same, answer⟩
    · rw [List.concat_eq_append] at split uncleared
      rw [← List.cons_append, ← List.append_assoc] at split
      obtain ⟨rfl, same⟩ := List.append_inj' split rfl
      obtain rfl := List.singleton_inj.mp same
      simp only [List.mem_append, List.mem_singleton, not_or] at uncleared
      exact .inl ⟨Ne.symm uncleared.2, earlier, p, later, rfl, uncleared.1, answer⟩
  · rintro (⟨kept, earlier, p, later, rfl, uncleared, answer⟩ | ⟨p, rfl, answer⟩)
    · refine ⟨earlier, p, later ++ [c], by simp, ?_, answer⟩
      simpa [uncleared] using Ne.symm kept
    · exact ⟨history, p, [], rfl, List.not_mem_nil, answer⟩

/-- The table stores what declarations since the last clearing were answered with. -/
theorem slots_after (history : List Call) (name : String) (slot : UInt32) :
    (empty.after history).slots[name]? = some slot ↔ Granted history name slot := by
  induction history using List.reverseRecOn with
  | nil =>
      have unknown : (empty.after []).slots[name]? = none := holds_empty.slot name
      rw [unknown]
      refine ⟨nofun, ?_⟩
      rintro ⟨earlier, p, later, split, -⟩
      simp at split
  | append_singleton history c ih =>
      rw [granted_concat, ← ih, after_concat]
      generalize empty.after history = t
      cases c with
      | clear =>
          have unknown : t.clear.slots[name]? = none := holds_empty.slot name
          simp [call, unknown]
      | lookup other access p => simp [call]
      | declare other p =>
          rw [call, slots_declare]
          by_cases same : other = name
          · subst same
            simp
          · simp [same]

end History

/-- What is known of a table behind a history. Its slots are the numbers below the number of names,
each for one name, in the order of declaration; a name has one if it was declared since the last
clearing, the one that the declaration was answered with; a name that has none gets the next one;
and what is refused changes nothing and is refused for its own name, access and place. -/
structure Follows (t : SlotTable) (history : List Call) : Prop where
  nodup : (declared history).Nodup
  size : t.size.toNat = (declared history).length
  isEmpty : t.isEmpty = true ↔ declared history = []
  slots : ∀ name access p slot,
    t.lookup name access p = .ok slot ↔ (declared history)[slot.toNat]? = some name
  found : ∀ name access p,
    (∃ slot, t.lookup name access p = .ok slot) ↔ name ∈ declared history
  granted : ∀ name access p slot,
    t.lookup name access p = .ok slot ↔ Granted history name slot
  declares : ∀ name p slot,
    (t.declare name p).1 = .ok slot ↔ name ∉ declared history ∧ slot = t.size
  refused : ∀ c d, (t.call c).1 = some (.error d) → (t.call c).2 = t ∧ c.fault? = some d

section Follows

variable {t : SlotTable} {names : List String}

theorem lookup_eq_ok_iff {name : String} {access : Access} {p : Position} {slot : UInt32} :
    t.lookup name access p = .ok slot ↔ t.slots[name]? = some slot := by
  rw [lookup]
  cases t.slots[name]? <;> simp

theorem refused_of_call {c : Call} {d : Diagnostic} (h : (t.call c).1 = some (.error d)) :
    (t.call c).2 = t ∧ c.fault? = some d := by
  cases c with
  | clear => cases h
  | lookup name access p =>
      rw [call, lookup] at h
      cases found : t.slots[name]? <;> rw [found] at h <;> cases h
      exact ⟨rfl, rfl⟩
  | declare name p =>
      rw [call, declare] at h ⊢
      cases found : t.slots[name]? <;> rw [found] at h <;> cases h
      exact ⟨rfl, rfl⟩

/-- As long as the numbers of the names fit 32 bits, a slot is the number of its name. -/
theorem Holds.slots_iff (h : t.Holds ⟨names⟩) (nodup : names.Nodup)
    (few : names.length < UInt32.size) {name : String} {slot : UInt32} :
    t.slots[name]? = some slot ↔ names[slot.toNat]? = some name := by
  rw [h.slot]
  constructor
  · intro found
    obtain ⟨k, index, rfl⟩ := slot?_eq_some List.prefix_rfl found
    obtain ⟨inside, rfl, -⟩ := List.idxOf?_eq_some_iff.mp index
    rw [UInt32.toNat_ofNat_of_lt' (Nat.lt_trans inside few)]
    exact List.getElem?_eq_getElem inside
  · intro listed
    obtain ⟨inside, rfl⟩ := List.getElem?_eq_some_iff.mp listed
    have index : names.idxOf? names[slot.toNat] = some slot.toNat := by
      rw [List.idxOf?_eq_some_iff]
      refine ⟨inside, rfl, fun j before same => ?_⟩
      exact Nat.ne_of_lt before (nodup.getElem_inj_iff.mp same)
    rw [Scope.slot?, index, Option.map_some, UInt32.ofNat_toNat]

theorem Holds.declare_iff (h : t.Holds ⟨names⟩) (name : String) (p : Position) (slot : UInt32) :
    (t.declare name p).1 = .ok slot ↔ name ∉ names ∧ slot = t.size := by
  by_cases again : name ∈ names
  · rw [h.declare_again again]
    simp [again]
  · obtain ⟨t', answer, -⟩ := h.declare_fresh again p
    rw [answer, h.size_eq]
    simp [again, eq_comm]

end Follows

/-- Behind every history of fewer than 2 ^ 32 names the table is as the history says. -/
theorem after_follows (history : List Call) (few : (declared history).length < UInt32.size) :
    (empty.after history).Follows history := by
  obtain ⟨holds, nodup⟩ := after_holds history
  have numbered (name : String) (slot : UInt32) :
      (empty.after history).slots[name]? = some slot ↔
        (declared history)[slot.toNat]? = some name := holds.slots_iff nodup few
  refine ⟨nodup, ?_, ?_, ?_, ?_, ?_, holds.declare_iff, fun _ _ => refused_of_call⟩
  · rw [holds.size_eq]
    exact UInt32.toNat_ofNat_of_lt' few
  · rw [holds.isEmpty_eq]
    exact List.isEmpty_iff
  · intro name access p slot
    rw [lookup_eq_ok_iff, numbered]
  · intro name access p
    rw [← not_iff_not, ← holds.mem_iff]
    simp [lookup_eq_ok_iff, Option.eq_none_iff_forall_ne_some]
  · intro name access p slot
    rw [lookup_eq_ok_iff, slots_after]

/-- Two names, a clearing, and two names again of which one is declared twice. -/
def renewed : List Call :=
  [.declare "a" ⟨1, 5⟩, .declare "b" ⟨1, 12⟩, .clear, .lookup "a" .write ⟨2, 3⟩,
    .declare "b" ⟨3, 5⟩, .declare "b" ⟨4, 5⟩, .declare "c" ⟨5, 5⟩]

theorem renewed_follows :
    (declared renewed).length < UInt32.size ∧ (empty.after renewed).Follows renewed ∧
      declared renewed = ["b", "c"] ∧
      (empty.after renewed).lookup "c" .read ⟨6, 3⟩ = .ok 1 ∧
      (empty.after renewed).lookup "a" .read ⟨6, 7⟩ = .error ⟨.undeclared "a" .read, ⟨6, 7⟩⟩ := by
  have names : declared renewed = ["b", "c"] := by decide
  have few : (declared renewed).length < UInt32.size := by
    rw [names]
    decide
  have follows : (empty.after renewed).Follows renewed := after_follows renewed few
  refine ⟨few, follows, names, ?_, ?_⟩
  · rw [follows.slots, names]
    rfl
  · cases answer : (empty.after renewed).lookup "a" .read ⟨6, 7⟩ with
    | ok slot =>
        have known := (follows.found "a" .read ⟨6, 7⟩).mp ⟨slot, answer⟩
        rw [names] at known
        simp at known
    | error d =>
        have same := (follows.refused (.lookup "a" .read ⟨6, 7⟩) d (congrArg some answer)).2
        rw [Option.some_inj.mp same]

end SlotTable

end IntLang.Ir
