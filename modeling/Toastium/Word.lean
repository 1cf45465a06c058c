import Mathlib.Data.Nat.Notation
import Mathlib.Tactic.Basic

/-!
# Bitmap words

A bitmap word is a bit vector. `setBit` and `clearBit` change one bit and leave the
others alone. `firstClear` is the position of the lowest clear bit, which a bitmap
search reads off as the count of trailing zeros of the complement. A word other than
all ones has one (`firstClear_lt`), it is clear (`getLsbD_firstClear`), and every bit
below it is set (`getLsbD_of_lt_firstClear`).
-/

namespace Toastium

variable {n : ℕ}

/-- The word with bit `b` set. -/
def setBit (w : BitVec n) (b : ℕ) : BitVec n :=
  w ||| BitVec.twoPow n b

/-- The word with bit `b` cleared. -/
def clearBit (w : BitVec n) (b : ℕ) : BitVec n :=
  w &&& ~~~BitVec.twoPow n b

/-- The position of the lowest clear bit, `n` if there is none. -/
def firstClear (w : BitVec n) : ℕ :=
  (~~~w).ctz.toNat

theorem getLsbD_setBit {w : BitVec n} {b i : ℕ} (hi : i < n) :
    (setBit w b).getLsbD i = (w.getLsbD i || decide (i = b)) := by
  simp [setBit, hi, eq_comm]

theorem getLsbD_clearBit {w : BitVec n} {b i : ℕ} (hi : i < n) :
    (clearBit w b).getLsbD i = (w.getLsbD i && decide (i ≠ b)) := by
  simp [clearBit, hi, eq_comm]

theorem eq_allOnes_iff {w : BitVec n} :
    w = BitVec.allOnes n ↔ ∀ i, i < n → w.getLsbD i = true := by
  constructor
  · rintro rfl i hi
    simpa using hi
  · intro h
    refine BitVec.eq_of_getLsbD_eq fun i hi => ?_
    simp [h i hi, hi]

theorem not_ne_zero_of_ne_allOnes {w : BitVec n} (h : w ≠ BitVec.allOnes n) : ~~~w ≠ 0#n := by
  intro h0
  apply h
  rw [← BitVec.not_not (b := w), h0, BitVec.not_zero]

theorem firstClear_lt {w : BitVec n} (h : w ≠ BitVec.allOnes n) : firstClear w < n := by
  have hlt := BitVec.ctz_lt_iff_ne_zero.2 (not_ne_zero_of_ne_allOnes h)
  refine Nat.lt_of_lt_of_le (BitVec.lt_def.1 hlt) ?_
  simp

theorem getLsbD_firstClear {w : BitVec n} (h : w ≠ BitVec.allOnes n) :
    w.getLsbD (firstClear w) = false := by
  have hb := BitVec.getLsbD_true_ctz_of_ne_zero (not_ne_zero_of_ne_allOnes h)
  have hlt := firstClear_lt h
  unfold firstClear at *
  simpa [BitVec.getLsbD_not, hlt] using hb

theorem getLsbD_of_lt_firstClear {w : BitVec n} {i : ℕ} (hn : i < n) (hi : i < firstClear w) :
    w.getLsbD i = true := by
  have hb := BitVec.getLsbD_false_of_lt_ctz hi
  simpa [BitVec.getLsbD_not, hn] using hb

end Toastium
