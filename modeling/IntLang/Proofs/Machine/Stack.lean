import IntLang.Machine.Basic
import IntLang.Proofs.Ir.Execution
/-!
The stack in memory. Below an aligned address the words are numbered: the frame of a routine keeps
the saved registers in the first two, its slots in those behind, and the operand stack in the rest.
-/
namespace IntLang

def Word.Aligned (a : Word) : Prop := Memory.isAligned a.toUInt32 = true

instance (a : Word) : Decidable a.Aligned :=
  inferInstanceAs (Decidable (Memory.isAligned a.toUInt32 = true))

namespace Memory

def word? (m : Memory) (a : Word) : Option Word := m.words[a.toUInt32]?

def put (m : Memory) (a w : Word) : Memory := ⟨m.words.insert a.toUInt32 w⟩

theorem word?_put (m : Memory) (a b w : Word) :
    (m.put a w).word? b = if a = b then some w else m.word? b := by
  rw [put, word?, word?, Std.ExtTreeMap.getElem?_insert]
  by_cases h : a = b
  · subst h
    simp
  · have ne : a.toUInt32 ≠ b.toUInt32 := fun heq => h (congrArg UInt32.toInt32 heq)
    simp [h, ne]

theorem load_of_word? {m : Memory} {a w : Word} (ha : a.Aligned) (h : m.word? a = some w) :
    m.load a.toUInt32 = .ok w := by
  rw [word?] at h
  rw [load, if_pos (show isAligned a.toUInt32 = true from ha), h]

theorem load_of_none {m : Memory} {a : Word} (ha : a.Aligned) (h : m.word? a = none) :
    m.load a.toUInt32 = .error (.uninitialized a.toUInt32) := by
  rw [word?] at h
  rw [load, if_pos (show isAligned a.toUInt32 = true from ha), h]

theorem store_of_aligned {a : Word} (ha : a.Aligned) (m : Memory) (w : Word) :
    m.store a.toUInt32 w = .ok (m.put a w) := by
  rw [store, if_pos (show isAligned a.toUInt32 = true from ha)]
  rfl

end Memory

/-- The address of the `n`-th word below `top`. -/
def cell (top : Word) (n : Nat) : Word := top - 4 * .ofNat n

section Cell

variable {top : Word}

theorem cell_zero (top : Word) : cell top 0 = top := by
  rw [cell]
  grind

theorem cell_eq_sub (top : Word) (n : Nat) : cell top n = top - .ofNat (4 * n) := by
  rw [cell, Int32.ofNat_mul]
  rfl

theorem cell_add (top : Word) (n m : Nat) : cell top (n + m) = cell top n - 4 * .ofNat m := by
  rw [cell, cell, Int32.ofNat_add]
  grind

theorem cell_succ (top : Word) (n : Nat) : cell top (n + 1) = cell top n - 4 := cell_add top n 1

theorem cell_succ_add (top : Word) (n : Nat) : cell top (n + 1) + 4 = cell top n := by
  rw [cell_succ]
  grind

theorem Word.Aligned.sub_four {a : Word} (h : a.Aligned) : (a - 4).Aligned := by
  unfold Word.Aligned Memory.isAligned at h ⊢
  have rest := congrArg UInt32.toNat (of_decide_eq_true h)
  refine decide_eq_true (UInt32.toNat_inj.mp ?_)
  rw [UInt32.toNat_mod] at rest ⊢
  rw [Int32.toUInt32_sub, UInt32.toNat_sub]
  simp only [show (Int32.toUInt32 4).toNat = 4 from rfl, show (4 : UInt32).toNat = 4 from rfl,
    show (0 : UInt32).toNat = 0 from rfl] at rest ⊢
  omega

theorem Word.Aligned.add_four {a : Word} (h : a.Aligned) : (a + 4).Aligned := by
  unfold Word.Aligned Memory.isAligned at h ⊢
  have rest := congrArg UInt32.toNat (of_decide_eq_true h)
  refine decide_eq_true (UInt32.toNat_inj.mp ?_)
  rw [UInt32.toNat_mod] at rest ⊢
  rw [Int32.toUInt32_add, UInt32.toNat_add]
  simp only [show (Int32.toUInt32 4).toNat = 4 from rfl, show (4 : UInt32).toNat = 4 from rfl,
    show (0 : UInt32).toNat = 0 from rfl] at rest ⊢
  omega

theorem Word.Aligned.cell (h : top.Aligned) (n : Nat) : (cell top n).Aligned := by
  induction n with
  | zero => rwa [cell_zero]
  | succ n ih =>
      rw [cell_succ]
      exact ih.sub_four

theorem cell_inj {n m : Nat} (hn : n < 0x40000000) (hm : m < 0x40000000)
    (h : cell top n = cell top m) : n = m := by
  have scaled : Int32.ofNat (4 * n) = Int32.ofNat (4 * m) := by
    rw [cell, cell] at h
    rw [Int32.ofNat_mul, Int32.ofNat_mul]
    grind
  have offsets := congrArg (fun w => w.toUInt32.toNat) scaled
  simp only [Int32.toUInt32_ofNat', UInt32.toNat_ofNat'] at offsets
  omega

theorem word?_put_cell {n m : Nat} (hn : n < 0x40000000) (hm : m < 0x40000000) (memory : Memory)
    (w : Word) : (memory.put (cell top n) w).word? (cell top m) =
      if n = m then some w else memory.word? (cell top m) := by
  rw [Memory.word?_put]
  by_cases h : n = m
  · simp [h]
  · rw [if_neg h, if_neg fun heq => h (cell_inj hn hm heq)]

end Cell

/-- The memory of a routine that runs below `top`: the registers saved from `entry`, the slots, and
the operand stack down to `sp`. Nothing has changed outside the words from 1 to `limit`. -/
structure Framed (top : Word) (locals limit : Nat) (entry : Store) (stack : List Word)
    (slots : Ir.Slots) (sp : Word) (memory : Memory) : Prop where
  sp_eq : sp = cell top (2 + locals + stack.length)
  room : 2 + locals + stack.length ≤ limit
  savedRa : memory.word? (cell top 1) = some (entry.get .ra)
  savedFp : memory.word? (cell top 2) = some (entry.get .fp)
  slot : ∀ k : UInt32, k.toNat < locals → memory.word? (cell top (3 + k.toNat)) = slots k
  operand : ∀ j, j < stack.length →
    memory.word? (cell top (3 + locals + j)) = stack.reverse[j]?
  outside : ∀ a, (∀ n, 0 < n → n ≤ limit → a ≠ cell top n) →
    memory.word? a = entry.memory.word? a

namespace Framed

variable {top : Word} {locals limit : Nat} {entry : Store} {stack : List Word} {slots : Ir.Slots}
  {sp : Word} {memory : Memory} {v : Word}

theorem aligned (h : Framed top locals limit entry stack slots sp memory) (ht : top.Aligned) :
    sp.Aligned := by
  rw [h.sp_eq]
  exact ht.cell _

theorem word?_sp (h : Framed top locals limit entry (v :: stack) slots sp memory) :
    memory.word? sp = some v := by
  have place : 2 + locals + (v :: stack).length = 3 + locals + stack.length := by
    rw [List.length_cons]
    omega
  rw [h.sp_eq, place, h.operand stack.length (by simp)]
  simp

theorem drop (h : Framed top locals limit entry (v :: stack) slots sp memory) :
    Framed top locals limit entry stack slots (sp + 4) memory where
  sp_eq := by
    rw [h.sp_eq, List.length_cons]
    exact cell_succ_add top (2 + locals + stack.length)
  room := by
    have := h.room
    rw [List.length_cons] at this
    omega
  savedRa := h.savedRa
  savedFp := h.savedFp
  slot := h.slot
  operand j hj := by
    rw [h.operand j (by rw [List.length_cons]; omega), List.reverse_cons,
      List.getElem?_append_left (by simpa using hj)]
  outside := h.outside

theorem word?_put_of_ne (hlimit : limit < 0x40000000) {n m : Nat} (hn : n ≤ limit) (hm : m ≤ limit)
    (ne : n ≠ m) : (memory.put (cell top n) v).word? (cell top m) = memory.word? (cell top m) := by
  rw [word?_put_cell (by omega) (by omega), if_neg ne]

theorem word?_put_outside {n : Nat} (hn : 0 < n) (hle : n ≤ limit) {a : Word}
    (ha : ∀ n, 0 < n → n ≤ limit → a ≠ cell top n) :
    (memory.put (cell top n) v).word? a = memory.word? a := by
  rw [Memory.word?_put, if_neg fun heq => ha n hn hle heq.symm]

theorem push (h : Framed top locals limit entry stack slots sp memory)
    (hlimit : limit < 0x40000000) (room : 2 + locals + stack.length + 1 ≤ limit) (v : Word) :
    Framed top locals limit entry (v :: stack) slots (sp - 4) (memory.put (sp - 4) v) := by
  have place : sp - 4 = cell top (2 + locals + stack.length + 1) := by
    rw [h.sp_eq]
    exact (cell_succ top _).symm
  rw [place]
  exact {
    sp_eq := by rw [List.length_cons, Nat.add_assoc]
    room := room
    savedRa := by rw [word?_put_of_ne hlimit room (by omega) (by omega), h.savedRa]
    savedFp := by rw [word?_put_of_ne hlimit room (by omega) (by omega), h.savedFp]
    slot := fun k hk => by
      rw [word?_put_of_ne hlimit room (by omega) (by omega), h.slot k hk]
    operand := fun j hj => by
      rw [List.length_cons] at hj
      rw [List.reverse_cons]
      by_cases hlast : j = stack.length
      · subst hlast
        rw [word?_put_cell (by omega) (by omega), if_pos (by omega)]
        simp
      · rw [word?_put_of_ne hlimit room (by omega) (by omega), h.operand j (by omega),
          List.getElem?_append_left (by rw [List.length_reverse]; omega)]
    outside := fun a ha => by rw [word?_put_outside (by omega) room ha, h.outside a ha] }

theorem assign (h : Framed top locals limit entry stack slots sp memory)
    (hlimit : limit < 0x40000000) {k : UInt32} (hk : k.toNat < locals) (v : Word) :
    Framed top locals limit entry stack (Function.update slots k (some v)) sp
      (memory.put (cell top (3 + k.toNat)) v) := by
  have hroom := h.room
  have room : 3 + k.toNat ≤ limit := by omega
  exact {
    sp_eq := h.sp_eq
    room := h.room
    savedRa := by rw [word?_put_of_ne hlimit room (by omega) (by omega), h.savedRa]
    savedFp := by rw [word?_put_of_ne hlimit room (by omega) (by omega), h.savedFp]
    slot := fun j hj => by
      by_cases heq : j = k
      · subst heq
        rw [word?_put_cell (by omega) (by omega), if_pos rfl, Function.update_self]
      · have ne : 3 + k.toNat ≠ 3 + j.toNat := fun hn =>
          heq (UInt32.toNat_inj.mp (by omega))
        rw [word?_put_of_ne hlimit room (by omega) ne, Function.update_of_ne heq, h.slot j hj]
    operand := fun j hj => by
      rw [word?_put_of_ne hlimit room (by omega) (by omega), h.operand j hj]
    outside := fun a ha => by rw [word?_put_outside (by omega) room ha, h.outside a ha] }

end Framed

end IntLang
