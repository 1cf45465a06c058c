import Mathlib.Data.BitVec
import Mathlib.Tactic

/-!
# The low bits of a word

`clearBelow x k` is the word `x` without the bits below `k`. A word or its negation is all ones from
the lowest set bit of the word on (`or_neg_eq`), not all ones as soon as the word is not 0, so a
word masked with it keeps its bits just if none is below that one (`clearBelow_eq_self_iff`).
-/

namespace Toastium

variable {n : ℕ}

/-- The word without the bits below `k`. -/
def clearBelow (x : BitVec n) (k : ℕ) : BitVec n :=
  x >>> k <<< k

theorem getLsbD_clearBelow {x : BitVec n} {k i : ℕ} (hi : i < n) :
    (clearBelow x k).getLsbD i = (decide (k ≤ i) && x.getLsbD i) := by
  rw [clearBelow, BitVec.getLsbD_shiftLeft, BitVec.getLsbD_ushiftRight, decide_eq_true hi,
    Bool.true_and]
  by_cases hk : k ≤ i
  · rw [decide_eq_true hk, decide_eq_false (Nat.not_lt.mpr hk), Nat.add_sub_cancel' hk]
    rfl
  · rw [decide_eq_false hk, decide_eq_true (Nat.not_le.mp hk)]
    rfl

@[simp] theorem clearBelow_zero (x : BitVec n) : clearBelow x 0 = x := by
  simp [clearBelow]

theorem clearBelow_of_le {x : BitVec n} {k : ℕ} (hk : n ≤ k) : clearBelow x k = 0 := by
  refine BitVec.eq_of_getLsbD_eq fun i hi => ?_
  rw [getLsbD_clearBelow hi, decide_eq_false (by omega)]
  simp

theorem clearBelow_and (x y : BitVec n) (j k : ℕ) :
    clearBelow x j &&& clearBelow y k = clearBelow (x &&& y) (max j k) := by
  refine BitVec.eq_of_getLsbD_eq fun i hi => ?_
  simp only [BitVec.getLsbD_and, getLsbD_clearBelow hi, max_le_iff, Bool.decide_and]
  cases x.getLsbD i <;> simp [Bool.and_assoc]

theorem and_clearBelow (x y : BitVec n) (k : ℕ) :
    x &&& clearBelow y k = clearBelow (x &&& y) k := by
  have h := clearBelow_and x y 0 k
  rwa [clearBelow_zero, Nat.zero_max] at h

theorem ctz_lt_iff {x : BitVec n} : x.ctz.toNat < n ↔ x ≠ 0 := by
  have h := BitVec.ctz_lt_iff_ne_zero (x := x)
  rw [BitVec.lt_def] at h
  simpa using h

/-- A bit is set at `i` or below, if the trailing zeros are not more than `i`. -/
theorem exists_getLsbD_iff {x : BitVec n} {i : ℕ} (hi : i < n) :
    (∃ j ≤ i, x.getLsbD j = true) ↔ x.ctz.toNat ≤ i := by
  constructor
  · rintro ⟨j, hj, hset⟩
    by_contra hlt
    have hclear := BitVec.getLsbD_false_of_lt_ctz (x := x) (i := j) (by omega)
    exact Bool.false_ne_true (hclear.symm.trans hset)
  · intro hle
    exact ⟨_, hle, BitVec.getLsbD_true_ctz_of_ne_zero (ctz_lt_iff.mp (hle.trans_lt hi))⟩

/-- A word or its negation has just the bits from the lowest one of the word on. -/
theorem or_neg_eq (x : BitVec n) : x ||| -x = clearBelow (BitVec.allOnes n) x.ctz.toNat := by
  refine BitVec.eq_of_getLsbD_eq fun i hi => ?_
  have hiff := exists_getLsbD_iff (x := x) hi
  rw [getLsbD_clearBelow hi, BitVec.getLsbD_or, BitVec.getLsbD_neg, BitVec.getLsbD_allOnes,
    decide_eq_true hi, Bool.and_true, Bool.true_and, ← decide_eq_decide.mpr hiff]
  cases hset : x.getLsbD i with
  | true => exact (decide_eq_true ⟨i, le_rfl, hset⟩).symm
  | false =>
    rw [Bool.false_or, Bool.false_xor]
    refine decide_eq_decide.mpr ⟨fun ⟨j, hj, hj'⟩ => ⟨j, hj.le, hj'⟩, fun ⟨j, hj, hj'⟩ => ?_⟩
    refine ⟨j, lt_of_le_of_ne hj ?_, hj'⟩
    rintro rfl
    exact Bool.false_ne_true (hset.symm.trans hj')

/-- The bits that are cleared were not set. -/
theorem clearBelow_eq_self_iff {x : BitVec n} {k : ℕ} (hx : x ≠ 0) :
    clearBelow x k = x ↔ k ≤ x.ctz.toNat := by
  constructor
  · intro h
    have hset := congrArg (fun y => y.getLsbD x.ctz.toNat) h
    simp only [getLsbD_clearBelow (ctz_lt_iff.mpr hx),
      BitVec.getLsbD_true_ctz_of_ne_zero hx] at hset
    simpa using hset
  · intro hle
    refine BitVec.eq_of_getLsbD_eq fun i hi => ?_
    rw [getLsbD_clearBelow hi]
    by_cases hk : k ≤ i
    · rw [decide_eq_true hk, Bool.true_and]
    · have hclear := BitVec.getLsbD_false_of_lt_ctz (x := x) (i := i) (by omega)
      rw [hclear, Bool.and_false]

end Toastium
