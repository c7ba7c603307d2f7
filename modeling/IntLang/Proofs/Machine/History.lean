import Mathlib.Data.Finset.Card
import IntLang.Proofs.Machine.Limit
/-!
What a machine is after any history of calls, register settings, loads and stores, however its calls
ended. The log of a history lists the writes to memory in their order, those of executed
instructions among them; the memory knows of an address what the log says last, and nothing else.
-/
namespace IntLang

open Asm (Register Instruction Image)

structure Written where
  address : UInt32
  word : Word

/-- The last write to the address in the log wrote that word. -/
def Written.Last (log : List Written) (address : UInt32) (w : Word) : Prop :=
  ∃ front behind, log = front ++ ⟨address, w⟩ :: behind ∧ ∀ later ∈ behind, later.address ≠ address

namespace Memory

def record (m : Memory) (log : List Written) : Memory :=
  log.foldl (fun m w => ⟨m.words.insert w.address w.word⟩) m

section Record

variable {m : Memory} {log log' : List Written} {written : Written} {a : UInt32} {w : Word}

theorem record_append : m.record (log ++ log') = (m.record log).record log' :=
  List.foldl_append

theorem record_concat :
    m.record (log ++ [written]) = ⟨(m.record log).words.insert written.address written.word⟩ :=
  List.foldl_concat ..

theorem last_nil : ¬Written.Last [] a w := by
  rintro ⟨front, behind, split, -⟩
  exact List.append_ne_nil_of_right_ne_nil front (List.cons_ne_nil _ _) split.symm

theorem last_concat : Written.Last (log ++ [written]) a w ↔
    if written.address = a then written.word = w else Written.Last log a w := by
  constructor
  · rintro ⟨front, behind, split, later⟩
    cases behind using List.reverseRecOn with
    | nil =>
        obtain ⟨-, same⟩ := List.append_inj' split rfl
        cases same
        rw [if_pos rfl]
    | append_singleton behind last =>
        rw [← List.cons_append, ← List.append_assoc] at split
        obtain ⟨rfl, same⟩ := List.append_inj' split rfl
        cases same
        rw [if_neg (later written (by simp))]
        exact ⟨front, behind, rfl, fun w hw => later w (List.mem_append_left _ hw)⟩
  · intro h
    split at h
    · subst h
      rename_i here
      subst here
      exact ⟨log, [], rfl, List.forall_mem_nil _⟩
    · rename_i other
      obtain ⟨front, behind, rfl, later⟩ := h
      refine ⟨front, behind ++ [written], by simp, fun w hw => ?_⟩
      rcases List.mem_append.mp hw with hw | hw
      · exact later w hw
      · rwa [List.mem_singleton.mp hw]

/-- A word is in the memory if it is the last that the log has for its address. -/
theorem getElem?_record : (empty.record log).words[a]? = some w ↔ Written.Last log a w := by
  induction log using List.reverseRecOn with
  | nil => exact ⟨nofun, fun h => (last_nil h).elim⟩
  | append_singleton log written ih =>
      rw [record_concat, Std.ExtTreeMap.getElem?_insert, last_concat]
      by_cases here : written.address = a
      · simp [here]
      · simp [here, ih]

theorem load_eq_ok_iff : m.load a = .ok w ↔ a % 4 = 0 ∧ m.words[a]? = some w := by
  rw [load, isAligned]
  by_cases aligned : a % 4 = 0
  · cases m.words[a]? <;> simp [aligned]
  · simp [aligned]

theorem mem_record : a ∈ (empty.record log).words ↔ a ∈ log.map Written.address := by
  induction log using List.reverseRecOn with
  | nil => simp [record, empty]
  | append_singleton log written ih =>
      rw [record_concat, Std.ExtTreeMap.mem_insert, ih, Std.compare_eq_iff_eq, List.map_append,
        List.mem_append, List.map_singleton, List.mem_singleton, or_comm, eq_comm]

/-- An address is in the log if there is a last write to it. -/
theorem exists_last : (∃ w, Written.Last log a w) ↔ a ∈ log.map Written.address := by
  simp only [← getElem?_record]
  rw [← mem_record, Std.ExtTreeMap.mem_iff_isSome_getElem?, Option.isSome_iff_exists]

theorem size_record : (empty.record log).size = (log.map Written.address).toFinset.card := by
  induction log using List.reverseRecOn with
  | nil => rfl
  | append_singleton log written ih =>
      have known : (empty.record log).words.contains written.address = true ↔
          written.address ∈ (log.map Written.address).toFinset := by
        rw [← Std.ExtTreeMap.mem_iff_contains, mem_record, List.mem_toFinset]
      have addresses : ((log ++ [written]).map Written.address).toFinset =
          insert written.address (log.map Written.address).toFinset := by
        ext a
        simp
      rw [size] at ih
      rw [size, record_concat, Std.ExtTreeMap.size_insert, addresses, Finset.card_insert_eq_ite, ih]
      simp only [known]

end Record

end Memory

def Asm.Instruction.written (s : Store) : Instruction → List Written
  | .sw rs offset base => [⟨s.effective offset base, s.get rs⟩]
  | _ => []

namespace Machine

section Writes

variable {p : Image} {s s' : Store} {i : Instruction}

theorem memory_of_after (h : s.after i = .ok s') : s'.memory = s.memory.record (i.written s) ∧
    ∀ w ∈ i.written s, Memory.isAligned w.address = true := by
  cases i with
  | sw rs offset base =>
      rw [Store.after, Memory.store] at h
      split at h
      · rename_i aligned
        cases h
        exact ⟨rfl, List.forall_mem_singleton.mpr aligned⟩
      · cases h
  | lw rd offset base =>
      rw [Store.after] at h
      cases loaded : s.memory.load (s.effective offset base) <;> rw [loaded] at h <;> cases h
      exact ⟨rfl, List.forall_mem_nil _⟩
  | _ =>
      cases h
      exact ⟨rfl, List.forall_mem_nil _⟩

/-- The writes of the instructions that `runFrom` executes. One that meets a fault writes
nothing. -/
def writesFrom (p : Image) : (left pc : Nat) → Store → List Written
  | 0, _, _ => []
  | left + 1, pc, s =>
      match p.instructions[pc]? with
      | none => []
      | some i =>
          match execute p pc s i with
          | .error _ => []
          | .ok (.halt, _) => i.written s
          | .ok (.address pc', s') => i.written s ++ writesFrom p left pc' s'

theorem memory_runFrom (p : Image) (taken left pc : Nat) (s : Store) :
    (runFrom p taken left pc s).2.2.memory = s.memory.record (writesFrom p left pc s) ∧
      ∀ w ∈ writesFrom p left pc s, Memory.isAligned w.address = true := by
  induction left generalizing taken pc s with
  | zero => exact ⟨rfl, List.forall_mem_nil _⟩
  | succ left ih =>
      rw [runFrom, writesFrom]
      cases hi : p.instructions[pc]? with
      | none => exact ⟨rfl, List.forall_mem_nil _⟩
      | some i =>
          dsimp only
          cases he : execute p pc s i with
          | error f => exact ⟨rfl, List.forall_mem_nil _⟩
          | ok next =>
              obtain ⟨pc' | _, s'⟩ := next
              · obtain ⟨here, aligned⟩ := memory_of_after (after_of_execute he)
                obtain ⟨behind, aligned'⟩ := ih (taken + 1) pc' s'
                refine ⟨?_, List.forall_mem_append.mpr ⟨aligned, aligned'⟩⟩
                rw [Memory.record_append, ← here]
                exact behind
              · exact memory_of_after (after_of_execute he)

end Writes

inductive Action
  | run (p : Image) (entry : String)
  | set (r : Register) (w : Word)
  | load (address : UInt32)
  | store (address : UInt32) (w : Word)

def act (m : Machine) : Action → Machine
  | .run p entry => (m.run p entry).2
  | .set r w => m.set r w
  | .load _ => m
  | .store address w => (m.write address w).2

/-- The writes of an action: a store that succeeds, and those that a call executes. -/
def writes (m : Machine) : Action → List Written
  | .run p entry =>
      match p.address? entry with
      | none => []
      | some pc => writesFrom p m.stepLimit pc (entryStore m.store)
  | .set _ _ | .load _ => []
  | .store address w =>
      match (m.write address w).1 with
      | .ok _ => [⟨address, w⟩]
      | .error _ => []

def actAll (m : Machine) : List Action → Machine
  | [] => m
  | action :: rest => (m.act action).actAll rest

def log (m : Machine) : List Action → List Written
  | [] => []
  | action :: rest => m.writes action ++ (m.act action).log rest

theorem log_append {m : Machine} {history further : List Action} :
    m.log (history ++ further) = m.log history ++ (m.actAll history).log further := by
  induction history generalizing m with
  | nil => rfl
  | cons action rest ih =>
      rw [List.cons_append, log, ih, log, List.append_assoc]
      rfl

theorem memory_act (m : Machine) (action : Action) :
    (m.act action).store.memory = m.store.memory.record (m.writes action) ∧
      ∀ w ∈ m.writes action, Memory.isAligned w.address = true := by
  cases action with
  | run p entry =>
      rw [act, writes, Machine.run]
      cases p.address? entry with
      | none => exact ⟨rfl, List.forall_mem_nil _⟩
      | some pc => exact memory_runFrom p 0 m.stepLimit pc (entryStore m.store)
  | set r w => exact ⟨rfl, List.forall_mem_nil _⟩
  | load address => exact ⟨rfl, List.forall_mem_nil _⟩
  | store address w =>
      rw [act, writes, Machine.write, Memory.store]
      by_cases aligned : Memory.isAligned address = true
      · simp only [if_pos aligned]
        exact ⟨rfl, List.forall_mem_singleton.mpr aligned⟩
      · simp only [if_neg aligned]
        exact ⟨rfl, List.forall_mem_nil _⟩

theorem memory_actAll (m : Machine) (history : List Action) :
    (m.actAll history).store.memory = m.store.memory.record (m.log history) ∧
      ∀ w ∈ m.log history, Memory.isAligned w.address = true := by
  induction history generalizing m with
  | nil => exact ⟨rfl, List.forall_mem_nil _⟩
  | cons action rest ih =>
      obtain ⟨here, aligned⟩ := memory_act m action
      obtain ⟨behind, aligned'⟩ := ih (m.act action)
      refine ⟨?_, List.forall_mem_append.mpr ⟨aligned, aligned'⟩⟩
      rw [log, Memory.record_append, ← here]
      exact behind

theorem steps_act (m : Machine) (action : Action) : (m.act action).stepLimit = m.stepLimit ∧
    (m.steps ≤ m.stepLimit → (m.act action).steps ≤ m.stepLimit) := by
  cases action with
  | run p entry =>
      by_cases known : p.address? entry = none
      · have same : m.act (.run p entry) = m := by
          simp only [act, Machine.run, known]
        rw [same]
        exact ⟨rfl, id⟩
      · obtain ⟨start, -, limit, ⟨-, exhausted, -⟩ | ⟨within, -⟩⟩ := run_cases (m := m) known rfl
        · exact ⟨limit, fun _ => Nat.le_of_eq exhausted⟩
        · exact ⟨limit, fun _ => within⟩
  | set r w => exact ⟨rfl, id⟩
  | load address => exact ⟨rfl, id⟩
  | store address w =>
      rw [act, Machine.write]
      cases m.store.memory.store address w <;> exact ⟨rfl, id⟩

theorem steps_actAll (m : Machine) (history : List Action) :
    (m.actAll history).stepLimit = m.stepLimit ∧
      (m.steps ≤ m.stepLimit → (m.actAll history).steps ≤ m.stepLimit) := by
  induction history generalizing m with
  | nil => exact ⟨rfl, id⟩
  | cons action rest ih =>
      obtain ⟨limit, steps⟩ := steps_act m action
      obtain ⟨limit', steps'⟩ := ih (m.act action)
      rw [limit] at limit' steps'
      exact ⟨limit', fun within => steps' (steps within)⟩

theorem size_actAll (limit : Nat) (history : List Action) :
    ((new limit).actAll history).store.memory.size =
      (((new limit).log history).map Written.address).toFinset.card := by
  rw [(memory_actAll (new limit) history).1]
  exact Memory.size_record

/-- What is known of a machine behind the writes of a log: `zero` reads zero, whole words have been
written, a load finds the last word that was written to its address, the memory counts the
addresses, and the last call kept to the limit. -/
structure Keeps (m : Machine) (log : List Written) : Prop where
  zero : m.get .zero = 0
  aligned : ∀ a ∈ m.store.memory.words, a % 4 = 0
  load : ∀ a w, m.load a = .ok w ↔ a % 4 = 0 ∧ Written.Last log a w
  loaded : ∀ a, (∃ w, m.load a = .ok w) ↔ a % 4 = 0 ∧ a ∈ log.map Written.address
  size : m.store.memory.size = (log.map Written.address).toFinset.card
  steps : m.steps ≤ m.stepLimit

/-- Behind every history of a new machine it keeps what the log says. What is done further takes no
word out of the memory. -/
theorem keeps_history (limit : Nat) (history : List Action) :
    ((new limit).actAll history).Keeps ((new limit).log history) ∧
      ((new limit).actAll history).stepLimit = limit ∧
      ∀ further, ((new limit).actAll history).store.memory.size ≤
        ((new limit).actAll (history ++ further)).store.memory.size := by
  obtain ⟨memory, aligned⟩ := memory_actAll (new limit) history
  obtain ⟨fixed, steps⟩ := steps_actAll (new limit) history
  have load (a : UInt32) (w : Word) : ((new limit).actAll history).load a = .ok w ↔
      a % 4 = 0 ∧ Written.Last ((new limit).log history) a w := by
    rw [Machine.load, memory, ← Memory.getElem?_record]
    exact Memory.load_eq_ok_iff
  refine ⟨?_, fixed, fun further => ?_⟩
  · constructor
    · rfl
    · intro a ha
      rw [memory] at ha
      obtain ⟨w, hw, rfl⟩ := List.mem_map.mp (Memory.mem_record.mp ha)
      exact of_decide_eq_true (aligned w hw)
    · exact load
    · intro a
      simp only [load, exists_and_left, Memory.exists_last]
    · exact size_actAll limit history
    · rw [fixed]
      exact steps (Nat.zero_le limit)
  · rw [size_actAll, size_actAll, log_append, List.map_append, List.toFinset_append]
    exact Finset.card_le_card Finset.subset_union_left

/-- A call that ends at a fault has written what it wrote before; a store that fails writes
nothing. -/
example :
    let p : Image := ⟨#[.li .t0 5, .sw .t0 0 .t1, .lw .a0 1 .sp], [("main", 0)]⟩
    (new 9).log [.store 8 1, .store 6 2, .run p "main", .set .t1 8, .run p "main"] =
      [⟨8, 1⟩, ⟨0, 5⟩, ⟨8, 5⟩] := rfl

end Machine

end IntLang
