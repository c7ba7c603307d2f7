import Mathlib.Data.List.Nodup
import IntLang.Proofs.Asm.Emission
import IntLang.Proofs.Asm.Layout
/-!
The protocol of frames. The prologue takes a frame below the stack pointer and saves the registers
of the caller in its first two words; the epilogue, which needs nothing but the stack pointer and
these two words, gives everything back. The words of a frame fill it without overlap.
-/
namespace IntLang

section Cells

variable {top a : Word} {n : Nat}

theorem toNat_sub_cell (hn : n < 0x40000000) : (top - cell top n).toUInt32.toNat = 4 * n := by
  have offset : top - cell top n = .ofNat (4 * n) := by
    rw [cell_eq_sub]
    grind
  rw [offset, Int32.toUInt32_ofNat', UInt32.toNat_ofNat']
  exact Nat.mod_eq_of_lt (by omega)

/-- Aligned addresses are whole words apart. -/
theorem exists_eq_cell (ht : top.Aligned) (ha : a.Aligned) :
    ∃ n < 0x40000000, a = cell top n := by
  have distance : Int32.ofNat (top - a).toUInt32.toNat = top - a := by
    rw [← UInt32.toInt32_ofNat', UInt32.ofNat_toNat, Int32.toInt32_toUInt32]
  have whole : (top - a).toUInt32.toNat % 4 = 0 := by
    unfold Word.Aligned Memory.isAligned at ht ha
    have restTop := congrArg UInt32.toNat (of_decide_eq_true ht)
    have rest := congrArg UInt32.toNat (of_decide_eq_true ha)
    rw [UInt32.toNat_mod] at restTop rest
    simp only [show (4 : UInt32).toNat = 4 from rfl, show (0 : UInt32).toNat = 0 from rfl]
      at restTop rest
    rw [Int32.toUInt32_sub, UInt32.toNat_sub]
    omega
  have bound := (top - a).toUInt32.toNat_lt
  refine ⟨(top - a).toUInt32.toNat / 4, by omega, ?_⟩
  rw [cell_eq_sub, Nat.mul_div_cancel' (Nat.dvd_of_mod_eq_zero whole), distance]
  grind

end Cells

namespace Asm

open Machine (Performs)

namespace Frame

variable (f : Frame) {s : Store} {top : Word}

/-- The addresses of the words of a frame below `top`: the saved `ra` and `fp`, and the slots. -/
def words (top : Word) : List Word :=
  (top - 4) :: (top - 8) :: (List.range f.slots.toNat).map fun k => top - 12 - 4 * .ofNat k

theorem words_eq (top : Word) :
    f.words top = (List.range (2 + f.slots.toNat)).map fun n => cell top (n + 1) := by
  have slot (k : Nat) : cell top (k + 1 + 1 + 1) = top - 12 - 4 * .ofNat k := by
    rw [show k + 1 + 1 + 1 = 3 + k by omega, cell_add]
    rfl
  rw [Nat.add_comm, List.range_succ_eq_map, List.range_succ_eq_map]
  simp only [words, List.map_cons, List.map_map, Function.comp_def, Nat.succ_eq_add_one, slot]
  rfl

theorem nodup_words (fits : 8 + 4 * f.slots.toNat < 0x80000000) (top : Word) :
    (f.words top).Nodup := by
  rw [words_eq]
  apply List.nodup_range.map_on
  intro n hn m hm same
  rw [List.mem_range] at hn hm
  exact Nat.succ.inj (cell_inj (by omega) (by omega) same)

/-- An aligned address is one of the frame if it lies less than the size of the frame below `top`. -/
theorem mem_words_iff (fits : 8 + 4 * f.slots.toNat < 0x80000000) (ht : top.Aligned) {a : Word} :
    a ∈ f.words top ↔ a.Aligned ∧ 0 < (top - a).toUInt32.toNat ∧
      (top - a).toUInt32.toNat ≤ 8 + 4 * f.slots.toNat := by
  rw [words_eq, List.mem_map]
  constructor
  · rintro ⟨n, hn, rfl⟩
    rw [List.mem_range] at hn
    rw [toNat_sub_cell (by omega)]
    exact ⟨ht.cell _, by omega, by omega⟩
  · rintro ⟨ha, above, within⟩
    obtain ⟨n, hn, rfl⟩ := exists_eq_cell ht ha
    rw [toNat_sub_cell hn] at above within
    obtain ⟨n, rfl⟩ := Nat.exists_eq_succ_of_ne_zero (by omega : n ≠ 0)
    exact ⟨n, List.mem_range.mpr (by omega), rfl⟩

theorem toInt_size (fits : 8 + 4 * f.slots.toNat < 0x80000000) :
    f.size.toInt = 8 + 4 * f.slots.toNat := by
  have size : f.size = .ofNat (8 + 4 * f.slots.toNat) := by
    rw [size_eq, Int32.ofNat_add, Int32.ofNat_add, Int32.ofNat_mul]
    grind
  rw [size, Int32.toInt_ofNat_of_lt fits]
  rfl

theorem field_fits : ∀ i ∈ f.prologue ++ f.epilogue, ∀ w ∈ i.field?, fitsImmediate w = true := by
  intro i hi
  have printable : i.Printable :=
    List.forall_mem_append.mpr ⟨printable_prologue f, printable_epilogue f⟩ i hi
  exact i.fits_of_printable printable

/-- The size of a frame is that of its words, which do not overlap. The prologue leaves the base of
the frame in `fp` and the registers of the caller in the first two words; whatever happens to the
other registers and words meanwhile, the epilogue restores `sp`, `fp` and `ra` from these and writes
no memory. No immediate of either is too wide for its instruction. -/
theorem frame_protocol {f : Frame} (fits : 8 + 4 * f.slots.toNat < 0x80000000) {s : Store}
    (aligned : (s.get .sp).Aligned) :
    f.size.toInt = 8 + 4 * f.slots.toNat ∧
    (∃ s₁, Performs f.prologue s s₁ ∧ s₁.get .fp = s.get .sp ∧
      s₁.get .sp = s.get .sp - f.size ∧
      s₁.memory.word? (s.get .sp - 4) = some (s.get .ra) ∧
      s₁.memory.word? (s.get .sp - 8) = some (s.get .fp) ∧
      ∀ s₂ : Store, s₂.get .sp = s₁.get .sp →
        (∀ a ∈ [s.get .sp - 4, s.get .sp - 8], s₂.memory.word? a = s₁.memory.word? a) →
        ∃ s₃, Performs f.epilogue.dropLast s₂ s₃ ∧
          (∀ r ∈ [Register.sp, .fp, .ra], s₃.get r = s.get r) ∧ s₃.memory = s₂.memory) ∧
    (f.words (s.get .sp)).Nodup ∧
    (∀ a, a ∈ f.words (s.get .sp) ↔ a.Aligned ∧ 0 < (s.get .sp - a).toUInt32.toNat ∧
      (s.get .sp - a).toUInt32.toNat ≤ 8 + 4 * f.slots.toNat) ∧
    ∀ i ∈ f.prologue ++ f.epilogue, ∀ w ∈ i.field?, fitsImmediate w = true := by
  refine ⟨f.toInt_size fits, ?_, f.nodup_words fits _, fun a => f.mem_words_iff fits aligned,
    f.field_fits⟩
  obtain ⟨s₁, taken, sp₁, fp₁, mem₁⟩ := f.prologue_spec aligned rfl
  have bottom : cell (s.get .sp) (2 + f.slots.toNat) = s.get .sp - f.size := by
    rw [← f.top_sub_size, Int32.sub_eq_add_neg]
  have savedRa : s₁.memory.word? (cell (s.get .sp) 1) = some (s.get .ra) := by
    rw [mem₁, word?_put_cell (by decide) (by decide), if_neg (by decide), Memory.word?_put,
      if_pos rfl]
  have savedFp : s₁.memory.word? (cell (s.get .sp) 2) = some (s.get .fp) := by
    rw [mem₁, Memory.word?_put, if_pos rfl]
  refine ⟨s₁, .of_afterAll (straight_prologue f) taken, fp₁, sp₁.trans bottom, savedRa, savedFp, ?_⟩
  intro s₂ sp₂ kept
  have keptRa := kept (s.get .sp - 4) (by simp)
  have keptFp := kept (s.get .sp - 8) (by simp)
  obtain ⟨s₃, restored, sp₃, fp₃, ra₃, -, mem₃⟩ := f.restore_spec aligned (sp₂.trans sp₁)
    (keptRa.trans savedRa) (keptFp.trans savedFp)
  rw [epilogue_eq, List.dropLast_concat]
  refine ⟨s₃, .of_afterAll (straight_restore f) restored, ?_, mem₃⟩
  simp [sp₃, fp₃, ra₃]

/-- A stack pointer so low that the addresses below it come round. -/
def lowStack : Store := ⟨⟨7, 8, 9, 0, 0, 0, 0⟩, .empty⟩

theorem lowStack_restored : ∃ s₁ s₃,
    8 + 4 * (Frame.mk 600).slots.toNat < 0x80000000 ∧ (lowStack.get .sp).Aligned ∧
    Performs (Frame.mk 600).prologue lowStack s₁ ∧ s₁.get .sp = -2400 ∧
    Performs (Frame.mk 600).epilogue.dropLast
      (((s₁.set .fp 1).set .ra 2).write (-2400) 3) s₃ ∧
    s₃.get .sp = 8 ∧ s₃.get .fp = 9 ∧ s₃.get .ra = 7 := by
  have fits : 8 + 4 * (Frame.mk 600).slots.toNat < 0x80000000 := by decide
  have aligned : (lowStack.get .sp).Aligned := by decide
  obtain ⟨-, ⟨s₁, taken, -, sp₁, -, -, restore⟩, -⟩ := frame_protocol fits aligned
  obtain ⟨s₃, restored, registers, -⟩ :=
    restore (((s₁.set .fp 1).set .ra 2).write (-2400) 3) (by simp) <| by
      intro a saved
      simp only [Store.memory_write, Store.memory_set, Memory.word?_put]
      rw [if_neg]
      rintro rfl
      exact absurd saved (by decide)
  exact ⟨s₁, s₃, fits, aligned, taken, sp₁, restored, registers .sp (by simp),
    registers .fp (by simp), registers .ra (by simp)⟩

end Frame

end Asm

end IntLang
