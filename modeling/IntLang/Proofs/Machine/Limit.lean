import IntLang.Proofs.Machine.Trace
/-!
The step limit. Whatever the limit, a call follows one sequence of instructions. It stops of itself
where this comes to an end, and is cut short where the limit comes first; the limit is looked at
before the next instruction is fetched.
-/
namespace IntLang

open Asm (Image)

namespace Machine

/-- `Stops p pc s n result s'`: from the address `pc` and the store `s`, `n` instructions are
executed until there is none at the next address, or until one ends the run. -/
inductive Stops (p : Image) (pc : Nat) (s : Store) : Nat → Except Fault Word → Store → Prop
  | outside {n pc' s'} : Advances p n pc s pc' s' → p.instructions[pc']? = none →
      Stops p pc s n (.error (.pcOutOfRange pc')) s'
  | closed {n pc' s' result} : Advances p n pc s pc' s' → Closes p pc' s' result →
      Stops p pc s (n + 1) result s'

section Runs

variable {p : Image} {n m limit pc pc' : Nat} {s s' : Store} {result : Except Fault Word}

theorem Advances.take (h : Advances p n pc s pc' s') (hm : m ≤ n) :
    ∃ pc₁ s₁, Advances p m pc s pc₁ s₁ := by
  induction h generalizing m with
  | refl =>
      obtain rfl := Nat.le_zero.mp hm
      exact ⟨_, _, .refl⟩
  | step hi he _ ih =>
      cases m with
      | zero => exact ⟨_, _, .refl⟩
      | succ m =>
          obtain ⟨pc₁, s₁, taken⟩ := ih (Nat.le_of_succ_le_succ hm)
          exact ⟨pc₁, s₁, .step hi he taken⟩

theorem Advances.runFrom (h : Advances p n pc s pc' s') :
    Machine.runFrom p 0 n pc s = (.error (.stepLimit n), n, s') := by
  have run := runFrom_of_advances h 0 0
  rwa [Nat.add_zero, Nat.zero_add] at run

/-- An instruction that ends the run counts as a step. -/
theorem Closes.runFrom (h : Closes p pc' s' result) (front : Advances p n pc s pc' s')
    (long : n < limit) : Machine.runFrom p 0 limit pc s = (result, n + 1, s') := by
  obtain ⟨left, rfl⟩ := Nat.exists_eq_add_of_lt long
  rw [Nat.add_assoc, runFrom_of_advances front, Nat.zero_add]
  cases h with
  | returned hi caller => exact runFrom_ret hi caller n left
  | fault hi he => exact runFrom_fault hi he n left

theorem Closes.ne_stepLimit (h : Closes p pc s result) (l : Nat) :
    result ≠ .error (.stepLimit l) := by
  rintro rfl
  cases h with
  | fault hi he => cases fails_of_execute he

theorem Stops.ne_stepLimit (h : Stops p pc s n result s') (l : Nat) :
    result ≠ .error (.stepLimit l) := by
  cases h with
  | outside advances out => exact nofun
  | closed advances closes => exact closes.ne_stepLimit l

/-- Under a limit that is not reached, a run that stops does so. -/
theorem Stops.runFrom (h : Stops p pc s n result s') (long : n < limit) :
    Machine.runFrom p 0 limit pc s = (result, n, s') := by
  cases h with
  | outside advances out =>
      obtain ⟨left, rfl⟩ := Nat.exists_eq_add_of_lt long
      rw [Nat.add_assoc, runFrom_of_advances advances, Nat.zero_add, Machine.runFrom]
      simp only [out]
  | closed advances closes => exact closes.runFrom advances (Nat.lt_of_succ_lt long)

theorem Stops.take (h : Stops p pc s n result s') (hm : m < n) :
    ∃ pc₁ s₁, Advances p m pc s pc₁ s₁ := by
  cases h with
  | outside advances out => exact advances.take (Nat.le_of_lt hm)
  | closed advances closes => exact advances.take (Nat.le_of_lt_succ hm)

/-- Instructions lead on up to the limit, or the run stops within it. -/
theorem advances_or_stops (p : Image) (limit pc : Nat) (s : Store) :
    (∃ pc' s', Advances p limit pc s pc' s') ∨
      ∃ n < limit, ∃ pc' s', Advances p n pc s pc' s' ∧
        (p.instructions[pc']? = none ∨ ∃ result, Closes p pc' s' result) := by
  induction limit generalizing pc s with
  | zero => exact .inl ⟨pc, s, .refl⟩
  | succ limit ih =>
      cases hi : p.instructions[pc]? with
      | none => exact .inr ⟨0, Nat.succ_pos limit, pc, s, .refl, .inl hi⟩
      | some i =>
          cases he : execute p pc s i with
          | error f => exact .inr ⟨0, Nat.succ_pos limit, pc, s, .refl, .inr ⟨_, .fault hi he⟩⟩
          | ok next =>
              obtain ⟨pc₁ | _, s₁⟩ := next
              · rcases ih pc₁ s₁ with ⟨pc', s', further⟩ | ⟨n, hn, pc', s', further, stop⟩
                · exact .inl ⟨pc', s', .step hi he further⟩
                · exact .inr ⟨n + 1, Nat.succ_lt_succ hn, pc', s', .step hi he further, stop⟩
              · obtain ⟨rfl, caller, -⟩ := ret_of_halt he
                exact .inr ⟨0, Nat.succ_pos limit, pc, s, .refl, .inr ⟨_, .returned hi caller⟩⟩

/-- The ways in which a run ends. -/
theorem runFrom_cases (h : runFrom p 0 limit pc s = (result, n, s')) :
    (result = .error (.stepLimit limit) ∧ n = limit ∧ ∃ pc', Advances p limit pc s pc' s') ∨
      (n ≤ limit ∧ Stops p pc s n result s') := by
  rcases advances_or_stops p limit pc s with
    ⟨pc', s₁, advances⟩ | ⟨k, hk, pc', s₁, advances, out | ⟨result₁, closes⟩⟩
  · cases h.symm.trans advances.runFrom
    exact .inl ⟨rfl, rfl, pc', advances⟩
  · have stops := Stops.outside advances out
    cases h.symm.trans (stops.runFrom hk)
    exact .inr ⟨Nat.le_of_lt hk, stops⟩
  · cases h.symm.trans (closes.runFrom advances hk)
    exact .inr ⟨hk, .closed advances closes⟩

end Runs

def withLimit (m : Machine) (limit : Nat) : Machine := { m with stepLimit := limit }

/-- Under the limit, a call ends at it. -/
def Exhausts (m : Machine) (p : Image) (entry : String) (limit : Nat) : Prop :=
  ∃ s, (m.withLimit limit).run p entry = (.error (.stepLimit limit), ⟨s, limit, limit⟩)

/-- `n` instructions of a call lead to an address at which the program has none. -/
def Leaves (m : Machine) (p : Image) (entry : String) (n pc : Nat) : Prop :=
  ∃ start s, p.address? entry = some start ∧ Advances p n start (entryStore m.store) pc s ∧
    p.instructions[pc]? = none

section Calls

variable {m : Machine} {p : Image} {entry : String} {n limit start : Nat} {s : Store}
  {result : Except Fault Word}

theorem run_eq (address : p.address? entry = some start)
    (run : runFrom p 0 limit start (entryStore m.store) = (result, n, s)) :
    (m.withLimit limit).run p entry = (result, ⟨s, n, limit⟩) := by
  simp only [Machine.run, withLimit, address, run]

/-- A call of a label ends at its limit, or the run from there on stops of itself. -/
theorem run_cases {after : Machine} (known : p.address? entry ≠ none)
    (run : m.run p entry = (result, after)) : ∃ start, p.address? entry = some start ∧
      after.stepLimit = m.stepLimit ∧
      ((result = .error (.stepLimit m.stepLimit) ∧ after.steps = m.stepLimit ∧
          ∃ pc, Advances p after.steps start (entryStore m.store) pc after.store) ∨
        (after.steps ≤ m.stepLimit ∧
          Stops p start (entryStore m.store) after.steps result after.store)) := by
  obtain ⟨start, address⟩ := Option.ne_none_iff_exists'.mp known
  obtain ⟨⟨result₁, n, s⟩, call⟩ : ∃ ending,
    runFrom p 0 m.stepLimit start (entryStore m.store) = ending := ⟨_, rfl⟩
  cases run.symm.trans (run_eq address call)
  refine ⟨start, address, rfl, ?_⟩
  rcases runFrom_cases call with ⟨exhausted, rfl, front⟩ | ending
  · exact .inl ⟨exhausted, rfl, front⟩
  · exact .inr ending

theorem Exhausts.of_advances {pc : Nat} (address : p.address? entry = some start)
    (h : Advances p n start (entryStore m.store) pc s) : m.Exhausts p entry n :=
  ⟨s, run_eq address h.runFrom⟩

/-- Every limit cuts the same run: a call that ends at its limit does so under all smaller ones, and
one that stops of itself does so under all greater ones, with the same steps and the same store. The
number of its steps is enough as a limit too, unless control is then at an address outside the
program: the limit comes before the fetch. -/
theorem run_under_limits (m : Machine) {p : Image} {entry : String}
    (known : p.address? entry ≠ none) {limit : Nat} {result : Except Fault Word} {after : Machine}
    (run : (m.withLimit limit).run p entry = (result, after)) :
    after.steps ≤ limit ∧
    ((∃ l, result = .error (.stepLimit l)) →
      after.steps = limit ∧ ∀ shorter ≤ limit, m.Exhausts p entry shorter) ∧
    ((∀ l, result ≠ .error (.stepLimit l)) →
      (∀ longer > after.steps,
        (m.withLimit longer).run p entry = (result, after.withLimit longer)) ∧
      (∀ shorter < after.steps, m.Exhausts p entry shorter) ∧
      (∀ pc, m.Leaves p entry after.steps pc → result = .error (.pcOutOfRange pc) ∧
        (m.withLimit after.steps).run p entry =
          (.error (.stepLimit after.steps), after.withLimit after.steps)) ∧
      ((∀ pc, ¬m.Leaves p entry after.steps pc) →
        (m.withLimit after.steps).run p entry = (result, after.withLimit after.steps))) := by
  obtain ⟨start, address⟩ := Option.ne_none_iff_exists'.mp known
  obtain ⟨⟨result₁, n, s⟩, call⟩ : ∃ ending,
    runFrom p 0 limit start (entryStore m.store) = ending := ⟨_, rfl⟩
  cases run.symm.trans (run_eq address call)
  rcases runFrom_cases call with ⟨rfl, rfl, pc, advances⟩ | ⟨within, stops⟩
  · refine ⟨Nat.le_refl _, fun _ => ⟨rfl, fun shorter hs => ?_⟩, fun free => (free _ rfl).elim⟩
    obtain ⟨pc₁, s₁, front⟩ := advances.take hs
    exact .of_advances address front
  · refine ⟨within, fun ⟨l, exhausted⟩ => (stops.ne_stepLimit l exhausted).elim, fun _ => ?_⟩
    refine ⟨?_, ?_, ?_, ?_⟩
    · exact fun longer long => run_eq address (stops.runFrom long)
    · intro shorter hs
      obtain ⟨pc₁, s₁, front⟩ := stops.take hs
      exact .of_advances address front
    · rintro pc ⟨start₁, s₁, address₁, advances, out⟩
      cases address.symm.trans address₁
      have next := n.lt_succ_self
      cases (stops.runFrom next).symm.trans ((Stops.outside advances out).runFrom next)
      exact ⟨rfl, run_eq address advances.runFrom⟩
    · intro stays
      cases stops with
      | outside advances out => exact (stays _ ⟨start, s, address, advances, out⟩).elim
      | @closed n _ _ _ advances closes =>
          exact run_eq address (closes.runFrom advances n.lt_succ_self)

/-- A program that ends without a return. -/
def openEnded : Image := ⟨#[.li .a0 1], [("main", 0)]⟩

theorem openEnded_under_limits :
    openEnded.address? "main" ≠ none ∧
    ((new 5).withLimit 9).run openEnded "main" =
      (.error (.pcOutOfRange 1), ⟨(entryStore (new 5).store).set .a0 1, 1, 9⟩) ∧
    (∀ longer > 1, ((new 5).withLimit longer).run openEnded "main" =
      (.error (.pcOutOfRange 1), ⟨(entryStore (new 5).store).set .a0 1, 1, longer⟩)) ∧
    ((new 5).withLimit 1).run openEnded "main" =
      (.error (.stepLimit 1), ⟨(entryStore (new 5).store).set .a0 1, 1, 1⟩) ∧
    (new 5).Exhausts openEnded "main" 0 := by
  have known : openEnded.address? "main" ≠ none := by decide
  have run : ((new 5).withLimit 9).run openEnded "main" =
    (.error (.pcOutOfRange 1), ⟨(entryStore (new 5).store).set .a0 1, 1, 9⟩) := rfl
  obtain ⟨-, -, stopped⟩ := run_under_limits (new 5) known run
  obtain ⟨longer, shorter, same, -⟩ := stopped nofun
  have leaves : (new 5).Leaves openEnded "main" 1 1 := ⟨0, _, rfl, .step rfl rfl .refl, rfl⟩
  exact ⟨known, run, longer, (same 1 leaves).2, shorter 0 (by decide)⟩

end Calls

end Machine

end IntLang
