import IntLang.Machine.Basic
import IntLang.Proofs.Text.Printed
/-!
Division of words. Hardware traps at a zero divisor and at the smallest word divided by -1. The
machine sets these pairs aside, so that all words have a quotient and a remainder, and these always
make up the dividend again in the arithmetic of words.
-/
namespace IntLang

namespace Word

variable {a b : Word}

/-- The only quotient of words that is no word: the smallest one divided by -1. -/
def Overflows (a b : Word) : Prop := a = Int32.minValue ∧ b = -1

instance (a b : Word) : Decidable (Overflows a b) := inferInstanceAs (Decidable (_ ∧ _))

/-- Quotient and remainder as the hardware gives them. It traps at a zero divisor, and where the
quotient is no word. -/
def divide? (a b : Word) : Option (Word × Word) :=
  if b = 0 then none
  else do
    let q ← ofInt? (a.toInt.tdiv b.toInt)
    let r ← ofInt? (a.toInt.tmod b.toInt)
    return (q, r)

/-- Division that asks the hardware only behind guards against the pairs it traps at. -/
def guardedDivide? (a b : Word) : Option (Word × Word) :=
  if b = 0 then some (-1, a)
  else if Overflows a b then some (a, 0)
  else divide? a b

/-- `q` and `r` are a quotient and a remainder of `a` by `b`. They make up `a` in the arithmetic of
words. Where `b` is not zero, the remainder is smaller than it and has the sign of `a`, and the
quotient, if it fits, is the exact one truncated toward zero. -/
structure Divides (a b q r : Word) : Prop where
  whole : a = q * b + r
  smaller : b ≠ 0 → r.toInt.natAbs < b.toInt.natAbs
  sign : b ≠ 0 → r = 0 ∨ r.toInt.sign = a.toInt.sign
  truncated : b ≠ 0 → ¬ Overflows a b → q.toInt = a.toInt.tdiv b.toInt

theorem toInt_quotient (nonzero : b ≠ 0) (fits : ¬ Overflows a b) :
    (quotient a b).toInt = a.toInt.tdiv b.toInt := by
  rw [quotient, if_neg nonzero]
  by_cases smallest : a = Int32.minValue
  · exact Int32.toInt_div_of_ne_right a b fun negative => fits ⟨smallest, negative⟩
  · exact Int32.toInt_div_of_ne_left a b smallest

theorem toInt_remainder (nonzero : b ≠ 0) : (remainder a b).toInt = a.toInt.tmod b.toInt := by
  rw [remainder, if_neg nonzero, Int32.toInt_mod]

/-- Where the quotient comes round by `2 ^ 32`, its product with the divisor does so as well. -/
theorem quotient_mul_add_remainder (a b : Word) : quotient a b * b + remainder a b = a := by
  by_cases zero : b = 0
  · rw [quotient, remainder, if_pos zero, if_pos zero, zero, Int32.mul_zero, Int32.zero_add]
  · rw [quotient, remainder, if_neg zero, if_neg zero, ← Int32.toInt_inj, Int32.toInt_add,
      Int32.toInt_mul, Int32.toInt_div, Int32.toInt_mod, Int.bmod_mul_bmod, Int.bmod_add_bmod,
      Int.tdiv_mul_add_tmod]
    exact Int32.toInt_bmod_size a

theorem sign_remainder (nonzero : b ≠ 0) :
    remainder a b = 0 ∨ (remainder a b).toInt.sign = a.toInt.sign := by
  rw [← Int32.toInt_inj, toInt_remainder nonzero, Int.sign_tmod]
  split
  · rename_i divisible
    exact .inl (Int.tmod_eq_zero_of_dvd divisible)
  · exact .inr rfl

theorem divides (a b : Word) : Divides a b (quotient a b) (remainder a b) where
  whole := (quotient_mul_add_remainder a b).symm
  smaller nonzero := by
    have positive : 0 < b.toInt.natAbs := by
      rw [Int.natAbs_pos, ← Int32.toInt_zero]
      exact fun h => nonzero (Int32.toInt_inj.mp h)
    rw [toInt_remainder nonzero, Int.natAbs_tmod]
    exact Nat.mod_lt _ positive
  sign := sign_remainder
  truncated := toInt_quotient

theorem divide?_eq (nonzero : b ≠ 0) (fits : ¬ Overflows a b) :
    divide? a b = some (quotient a b, remainder a b) := by
  rw [divide?, if_neg nonzero, ← toInt_quotient nonzero fits, ← toInt_remainder nonzero,
    ofInt?_toInt, ofInt?_toInt]
  rfl

/-- The hardware traps at no other pairs. -/
theorem divide?_eq_none_iff : divide? a b = none ↔ b = 0 ∨ Overflows a b := by
  constructor
  · intro traps
    by_cases zero : b = 0
    · exact .inl zero
    by_cases overflows : Overflows a b
    · exact .inr overflows
    rw [divide?_eq zero overflows] at traps
    cases traps
  · rintro (rfl | ⟨rfl, rfl⟩)
    · rfl
    · decide

/-- Behind its guards the hardware never traps, and answers what the machine takes. -/
theorem guardedDivide?_eq (a b : Word) :
    guardedDivide? a b = some (quotient a b, remainder a b) := by
  unfold guardedDivide?
  split
  · rename_i zero
    rw [quotient, remainder, if_pos zero, if_pos zero]
  split
  · rename_i overflows
    obtain ⟨rfl, rfl⟩ := overflows
    rfl
  · rename_i nonzero fits
    exact divide?_eq nonzero fits

end Word

namespace Machine

open Asm (Register Alu Image)

/-- The quotient and the remainder that the machine takes of any two words obey the law of division,
and are what guarded hardware answers. Neither instruction ever fails. -/
theorem division_law (a b : Word) :
    Word.Divides a b (Alu.div.value a b) (Alu.rem.value a b) ∧
    (Word.divide? a b = none ↔ b = 0 ∨ Word.Overflows a b) ∧
    Word.guardedDivide? a b = some (Alu.div.value a b, Alu.rem.value a b) ∧
    ∀ (p : Image) (pc : Nat) (s : Store) (rd rs rt : Register), s.get rs = a → s.get rt = b →
      execute p pc s (.alu .div rd rs rt) =
        .ok (.address (pc + 1), s.set rd (Alu.div.value a b)) ∧
      execute p pc s (.alu .rem rd rs rt) =
        .ok (.address (pc + 1), s.set rd (Alu.rem.value a b)) := by
  refine ⟨Word.divides a b, Word.divide?_eq_none_iff, Word.guardedDivide?_eq a b, ?_⟩
  rintro p pc s rd rs rt rfl rfl
  exact ⟨rfl, rfl⟩

/-- The smallest word, and a divisor that does not go into it. -/
def unevenStore : Store := ⟨⟨0, 0, 0, 0, Int32.minValue, -7, 0⟩, .empty⟩

theorem unevenStore_divided : (-7 : Word) ≠ 0 ∧ ¬ Word.Overflows Int32.minValue (-7) ∧
    unevenStore.get .t1 = Int32.minValue ∧ unevenStore.get .t2 = -7 ∧
    (Alu.div.value Int32.minValue (-7)).toInt = 306783378 ∧
    (Alu.rem.value Int32.minValue (-7)).toInt.natAbs < 7 ∧
    (Alu.rem.value Int32.minValue (-7) = 0 ∨
      (Alu.rem.value Int32.minValue (-7)).toInt.sign = -1) ∧
    execute .empty 5 unevenStore (.alu .div .a0 .t1 .t2) =
      .ok (.address 6, unevenStore.set .a0 306783378) := by
  obtain ⟨divides, -, -, through⟩ := division_law Int32.minValue (-7)
  have nonzero : (-7 : Word) ≠ 0 := by decide
  have fits : ¬ Word.Overflows Int32.minValue (-7) := by decide
  refine ⟨nonzero, fits, rfl, rfl, divides.truncated nonzero fits, divides.smaller nonzero,
    divides.sign nonzero, ?_⟩
  exact (through .empty 5 unevenStore .a0 .t1 .t2 rfl rfl).1

end Machine

end IntLang
