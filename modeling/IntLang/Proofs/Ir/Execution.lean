import Mathlib.Logic.Function.Basic
import IntLang.Ir.Basic
/-!
The reference machine of the intermediate code. It has an operand stack of words and a partial map
from slots to words; the address of a slot is its number. Branches go to the first definition of
their label. A run ends when `ret` or the end of the code is reached, at a load from a slot that
holds nothing, or where an operation has no meaning.
-/
namespace IntLang.Ir

abbrev Slots := UInt32 → Option Word

def Slots.empty : Slots := fun _ => none

structure State where
  pc : Nat
  stack : List Word
  slots : Slots

/-- How a run ends. It is `stuck` where operands or a branch target are missing. -/
inductive Outcome
  | returned (value : Word)
  | unassigned (slot : UInt32)
  | stuck
deriving DecidableEq, Repr

namespace State

def start (slots : Slots) : State := ⟨0, [], slots⟩

/-- The state behind the current operation, with another stack. -/
def next (s : State) (stack : List Word) : State := { s with pc := s.pc + 1, stack := stack }

end State

namespace Op

def target? : Op → Option Label
  | .br l | .beqz l | .bnez l => some l
  | _ => none

def mark? : Op → Option Label
  | .label l => some l
  | _ => none

end Op

def position? (ops : List Op) (l : Label) : Option Nat := ops.idxOf? (.label l)

def jump (ops : List Op) (l : Label) (stack : List Word) (s : State) : Except Outcome State :=
  match position? ops l with
  | some pc => .ok ⟨pc, stack, s.slots⟩
  | none => .error .stuck

def perform (ops : List Op) (s : State) : Op → Except Outcome State
  | .push v => .ok (s.next (v :: s.stack))
  | .unary op =>
      match s.stack with
      | a :: rest => .ok (s.next (op.value a :: rest))
      | _ => .error .stuck
  | .binary op =>
      match s.stack with
      | b :: a :: rest => .ok (s.next (op.value a b :: rest))
      | _ => .error .stuck
  | .frameAddr k => .ok (s.next (k.toInt32 :: s.stack))
  | .load =>
      match s.stack with
      | a :: rest =>
          match s.slots a.toUInt32 with
          | some v => .ok (s.next (v :: rest))
          | none => .error (.unassigned a.toUInt32)
      | _ => .error .stuck
  | .store =>
      match s.stack with
      | a :: v :: rest =>
          .ok ⟨s.pc + 1, v :: rest, Function.update s.slots a.toUInt32 (some v)⟩
      | _ => .error .stuck
  | .pop =>
      match s.stack with
      | _ :: rest => .ok (s.next rest)
      | _ => .error .stuck
  | .ret =>
      match s.stack with
      | v :: _ => .error (.returned v)
      | _ => .error .stuck
  | .br l => jump ops l s.stack s
  | .beqz l =>
      match s.stack with
      | a :: rest => if a = 0 then jump ops l rest s else .ok (s.next rest)
      | _ => .error .stuck
  | .bnez l =>
      match s.stack with
      | a :: rest => if a ≠ 0 then jump ops l rest s else .ok (s.next rest)
      | _ => .error .stuck
  | .label _ => .ok (s.next s.stack)

/-- One step: the next state, or the end of the run. Behind the last operation the word on top of
the stack is returned. -/
def step (ops : List Op) (s : State) : Except Outcome State :=
  match ops[s.pc]? with
  | some op => perform ops s op
  | none =>
      match s.stack with
      | v :: _ => .error (.returned v)
      | [] => .error .stuck

/-- Only `ret` and loads end a run that does not get stuck. -/
theorem op_of_perform_error {ops : List Op} {s : State} {op : Op} {o : Outcome}
    (h : perform ops s op = .error o) (meaning : o ≠ .stuck) :
    (op = .ret ∧ ∃ v, o = .returned v) ∨ (op = .load ∧ ∃ k, o = .unassigned k) := by
  have jumps {l : Label} {rest : List Word} (h : jump ops l rest s = .error o) : o = .stuck := by
    rw [jump] at h
    split at h <;> cases h
    rfl
  cases op with
  | ret =>
      rw [perform] at h
      split at h <;> cases h
      · exact .inl ⟨rfl, _, rfl⟩
      · exact (meaning rfl).elim
  | load =>
      rw [perform] at h
      split at h
      · split at h <;> cases h
        exact .inr ⟨rfl, _, rfl⟩
      · cases h
        exact (meaning rfl).elim
  | push v | frameAddr k | label l => cases h
  | br l => exact (meaning (jumps h)).elim
  | beqz l | bnez l =>
      rw [perform] at h
      split at h
      · split at h
        · exact (meaning (jumps h)).elim
        · cases h
      · cases h
        exact (meaning rfl).elim
  | _ =>
      rw [perform] at h
      split at h <;> cases h
      exact (meaning rfl).elim

/-- The outcome of a run of at most that many steps, if it ends within them. -/
def run (ops : List Op) : Nat → State → Option Outcome
  | 0, _ => none
  | n + 1, s =>
      match step ops s with
      | .ok s' => run ops n s'
      | .error o => some o

def Ends (ops : List Op) (s : State) (o : Outcome) : Prop := ∃ n, run ops n s = some o

def Diverges (ops : List Op) (s : State) : Prop := ∀ n, run ops n s = none

inductive Reaches (ops : List Op) : State → State → Prop
  | refl {s} : Reaches ops s s
  | tail {s s' s''} : Reaches ops s s' → step ops s' = .ok s'' → Reaches ops s s''

theorem run_mono {ops : List Op} {n m : Nat} {s : State} {o : Outcome} (hle : n ≤ m)
    (h : run ops n s = some o) : run ops m s = some o := by
  induction n generalizing m s with
  | zero => simp [run] at h
  | succ n ih =>
      obtain ⟨m, rfl⟩ := Nat.exists_eq_succ_of_ne_zero (by omega : m ≠ 0)
      rw [run] at h ⊢
      cases hs : step ops s with
      | ok s' =>
          rw [hs] at h
          exact ih (by omega) h
      | error o' =>
          rw [hs] at h
          exact h

theorem Ends.unique {ops : List Op} {s : State} {o o' : Outcome} (h : Ends ops s o)
    (h' : Ends ops s o') : o = o' := by
  obtain ⟨n, hn⟩ := h
  obtain ⟨m, hm⟩ := h'
  have left := run_mono (Nat.le_max_left n m) hn
  have right := run_mono (Nat.le_max_right n m) hm
  exact Option.some.inj (left.symm.trans right)

theorem Ends.not_diverges {ops : List Op} {s : State} {o : Outcome} (h : Ends ops s o) :
    ¬ Diverges ops s := by
  obtain ⟨n, hn⟩ := h
  intro hd
  rw [hd n] at hn
  cases hn

theorem Ends.of_step {ops : List Op} {s : State} {o : Outcome} (h : step ops s = .error o) :
    Ends ops s o := ⟨1, by simp [run, h]⟩

theorem Ends.of_reaches {ops : List Op} {s s' : State} {o : Outcome} (h : Reaches ops s s')
    (ho : Ends ops s' o) : Ends ops s o := by
  induction h with
  | refl => exact ho
  | tail _ hstep ih =>
      obtain ⟨n, hn⟩ := ho
      exact ih ⟨n + 1, by rw [run, hstep]; exact hn⟩

end IntLang.Ir
