import Toastium.ByteMemory
import Toastium.ListItems

/-!
# `memcpy`

`memcpy` of `string.c` copies words if both addresses and the size are multiples of 8, and bytes
if not. Both loops go up, so where the ranges overlap later steps may read what earlier ones wrote.

`memcpyWords_eq` : between aligned ranges a word is read before any of it is written, or is the word
that is written, so the loop over bytes does the same eight bytes at a time. `memcpy_correct` : the
two paths leave the same memory wherever the words are copied, and ranges that do not overlap are
copied with everything else unchanged. `HoldsObjects.memcpy` : this is the copy of bytes to an
object that the lists and the files are modelled with.
-/

namespace Toastium

/-! ## The code -/

/-- The loop of `memcpy` over bytes, after `n` steps. -/
def memcpyBytes (dst src : BitVec 64) : ℕ → (BitVec 64 → BitVec 8) → BitVec 64 → BitVec 8
  | 0, m => m
  | n + 1, m =>
    let m := memcpyBytes dst src n m
    Function.update m (dst + BitVec.ofNat 64 n) (m (src + BitVec.ofNat 64 n))

/-- The loop of `memcpy` over words, after `n` steps. -/
def memcpyWords (dst src : BitVec 64) : ℕ → (BitVec 64 → BitVec 8) → BitVec 64 → BitVec 8
  | 0, m => m
  | n + 1, m =>
    let m := memcpyWords dst src n m
    storeWord m (dst + BitVec.ofNat 64 (8 * n)) (loadWord m (src + BitVec.ofNat 64 (8 * n)))

/-- The test of `memcpy` for its loop over words. -/
def CopiesWords (dst src size : BitVec 64) : Prop :=
  ¬(roundModDown dst.toNat 8 ≠ dst.toNat ∨ roundModDown src.toNat 8 ≠ src.toNat ∨
    roundModDown size.toNat 8 ≠ size.toNat)

instance (dst src size : BitVec 64) : Decidable (CopiesWords dst src size) :=
  inferInstanceAs (Decidable (¬_))

/-- `memcpy`. -/
def memcpy (dst src size : BitVec 64) (m : BitVec 64 → BitVec 8) : BitVec 64 → BitVec 8 :=
  if CopiesWords dst src size then memcpyWords dst src (size / 8).toNat m
  else memcpyBytes dst src size.toNat m

/-- The ranges of `size` bytes at `dst` and at `src` do not overlap. -/
def RangesApart (dst src size : BitVec 64) : Prop :=
  ∀ i < size.toNat, ∀ j < size.toNat, dst + BitVec.ofNat 64 i ≠ src + BitVec.ofNat 64 j

instance (dst src size : BitVec 64) : Decidable (RangesApart dst src size) :=
  inferInstanceAs (Decidable (∀ i < size.toNat, ∀ j < size.toNat, _))

/-! ## The loops -/

theorem roundModDown_eq_self_iff {n : ℕ} : roundModDown n 8 = n ↔ 8 ∣ n := by
  unfold roundModDown
  omega

theorem copiesWords_iff {dst src size : BitVec 64} :
    CopiesWords dst src size ↔ 8 ∣ dst.toNat ∧ 8 ∣ src.toNat ∧ 8 ∣ size.toNat := by
  unfold CopiesWords
  simp only [not_or, not_not, roundModDown_eq_self_iff]

/-- The loop over bytes, where no step reads what an earlier one wrote. -/
theorem memcpyBytes_eq_copied {dst src : BitVec 64} (m : BitVec 64 → BitVec 8) :
    ∀ {n : ℕ}, n ≤ 2 ^ 64 → offset src dst = 0 ∨ n ≤ offset src dst →
      memcpyBytes dst src n m = copied dst src n m
  | 0, _, _ => rfl
  | n + 1, hn, hd => by
    rw [memcpyBytes, memcpyBytes_eq_copied m (Nat.le_of_succ_le hn)
      (hd.imp_right Nat.le_of_succ_le)]
    exact copied_succ hn hd m

/-- The loop over bytes goes on as from its middle. -/
theorem memcpyBytes_add (dst src : BitVec 64) (n : ℕ) (m : BitVec 64 → BitVec 8) : ∀ k : ℕ,
    memcpyBytes dst src (n + k) m =
      memcpyBytes (dst + BitVec.ofNat 64 n) (src + BitVec.ofNat 64 n) k (memcpyBytes dst src n m)
  | 0 => rfl
  | k + 1 => by
    rw [← Nat.add_assoc, memcpyBytes, memcpyBytes_add dst src n m k, memcpyBytes]
    simp only [BitVec.add_assoc, ← BitVec.ofNat_add]

/-- Aligned addresses are the same or a word apart. -/
theorem offset_aligned {dst src : BitVec 64} (hdst : 8 ∣ dst.toNat) (hsrc : 8 ∣ src.toNat) :
    offset src dst = 0 ∨ 8 ≤ offset src dst := by
  rw [offset, BitVec.toNat_sub]
  omega

/-- The loop over words does what the loop over bytes does, eight steps at a time. -/
theorem memcpyWords_eq {dst src : BitVec 64} (hd : offset src dst = 0 ∨ 8 ≤ offset src dst)
    (m : BitVec 64 → BitVec 8) : ∀ n : ℕ, memcpyWords dst src n m = memcpyBytes dst src (8 * n) m
  | 0 => rfl
  | n + 1 => by
    have hword : offset (src + BitVec.ofNat 64 (8 * n)) (dst + BitVec.ofNat 64 (8 * n)) = 0 ∨
        8 ≤ offset (src + BitVec.ofNat 64 (8 * n)) (dst + BitVec.ofNat 64 (8 * n)) := by
      rwa [offset_add_both]
    rw [memcpyWords, memcpyWords_eq hd m n, Nat.mul_succ, memcpyBytes_add,
      memcpyBytes_eq_copied _ (by decide) hword]
    exact storeWord_loadWord _ _ _

theorem RangesApart.offset {dst src size : BitVec 64} (h : RangesApart dst src size) :
    size.toNat ≤ Toastium.offset src dst := by
  by_contra hlt
  rw [Nat.not_le] at hlt
  refine h 0 (by omega) _ hlt ?_
  rw [add_offset, BitVec.add_zero]

/-- Whatever path is taken, the bytes are copied one by one. -/
theorem memcpy_eq_bytes (dst src size : BitVec 64) (m : BitVec 64 → BitVec 8) :
    memcpy dst src size m = memcpyBytes dst src size.toNat m := by
  unfold memcpy
  split_ifs with hwords
  · obtain ⟨hdst, hsrc, hsize⟩ := copiesWords_iff.mp hwords
    rw [memcpyWords_eq (offset_aligned hdst hsrc), BitVec.toNat_udiv,
      show (8 : BitVec 64).toNat = 8 from rfl, Nat.mul_div_cancel' hsize]
  · rfl

theorem memcpy_eq_copied {dst src size : BitVec 64} (h : RangesApart dst src size)
    (m : BitVec 64 → BitVec 8) : memcpy dst src size m = copied dst src size.toNat m := by
  rw [memcpy_eq_bytes]
  exact memcpyBytes_eq_copied m size.isLt.le (Or.inr h.offset)

/-- Words are copied just between aligned ranges, and the loops agree there, overlaps or not. Ranges
that do not overlap are copied, with the rest of the memory unchanged. -/
theorem memcpy_correct (dst src size : BitVec 64) (m : BitVec 64 → BitVec 8) :
    (CopiesWords dst src size ↔ 8 ∣ dst.toNat ∧ 8 ∣ src.toNat ∧ 8 ∣ size.toNat) ∧
    (CopiesWords dst src size →
      memcpyWords dst src (size / 8).toNat m = memcpyBytes dst src size.toNat m) ∧
    (RangesApart dst src size →
      (∀ i < size.toNat,
        memcpy dst src size m (dst + BitVec.ofNat 64 i) = m (src + BitVec.ofNat 64 i)) ∧
      ∀ x, (∀ i < size.toNat, x ≠ dst + BitVec.ofNat 64 i) → memcpy dst src size m x = m x) := by
  refine ⟨copiesWords_iff, fun hwords => ?_, fun happart => ?_⟩
  · rw [← memcpy_eq_bytes, memcpy, if_pos hwords]
  · rw [memcpy_eq_copied happart]
    refine ⟨fun i hi => copied_of_lt size.isLt.le hi m, fun x hx => copied_of_le ?_ m⟩
    by_contra hlt
    exact hx _ (Nat.not_le.mp hlt) (add_offset dst x).symm

/-- Every byte is the lowest of its address. -/
def countingMemory : BitVec 64 → BitVec 8 := fun x => x.setWidth 8

/-- Two words moved up by one, so that the second is read after it was written, and two words
copied behind themselves. -/
theorem memcpy_correct_moved :
    memcpyWords 16 8 2 countingMemory = memcpyBytes 16 8 16 countingMemory ∧
      memcpy 16 8 16 countingMemory 24 = 8 ∧ memcpy 16 0 16 countingMemory 24 = 8 :=
  ⟨(memcpy_correct 16 8 16 countingMemory).2.1 (by decide), by decide,
    ((memcpy_correct 16 0 16 countingMemory).2.2 (by decide)).1 8 (by decide)⟩

/-! ## Objects in memory -/

/-- The memory holds the cells of the objects, each at its own address. -/
structure HoldsObjects (m : BitVec 64 → BitVec 8) (h : Heap (BitVec 8)) : Prop where
  cell : ∀ p i, i < h.len p → m (BitVec.ofNat 64 (p + i)) = h.cell p i
  apart : ∀ p i q j, i < h.len p → j < h.len q →
    BitVec.ofNat 64 (p + i) = BitVec.ofNat 64 (q + j) → p = q ∧ i = j

/-- A copy to an object, as the users of objects see it, is `memcpy`. -/
theorem HoldsObjects.memcpy {m : BitVec 64 → BitVec 8} {h : Heap (BitVec 8)}
    (hm : HoldsObjects m h) {dst start : ℕ} {src size : BitVec 64}
    (hle : start + size.toNat ≤ h.len dst)
    (happart : RangesApart (BitVec.ofNat 64 (dst + start)) src size) :
    ∃ h', memcpyFrom dst start (fun i => m (src + BitVec.ofNat 64 i)) size.toNat 0 h = .ok h' ∧
      HoldsObjects (Toastium.memcpy (BitVec.ofNat 64 (dst + start)) src size m) h' := by
  have hadd : ∀ k, BitVec.ofNat 64 (dst + start) + BitVec.ofNat 64 k =
      BitVec.ofNat 64 (dst + (start + k)) := fun k => by
    rw [← BitVec.ofNat_add, Nat.add_assoc]
  refine ⟨_, memcpyFrom_eq size.toNat 0 hle, fun p i hi => ?_, hm.apart⟩
  rw [Heap.len_fill] at hi
  rw [memcpy_eq_copied happart, Heap.cell_fill, Nat.add_zero]
  split_ifs with hin
  · obtain ⟨rfl, hge, hlt⟩ := hin
    have hcell := @copied_of_lt _ (BitVec.ofNat 64 (p + start)) src size.toNat (i - start)
      size.isLt.le (by omega) m
    rw [hadd, Nat.add_sub_cancel' hge] at hcell
    rwa [Nat.zero_add]
  · rw [← hm.cell p i hi]
    refine copied_of_le (Nat.le_of_not_lt fun hlt => hin ?_) m
    have haddr := add_offset (BitVec.ofNat 64 (dst + start)) (BitVec.ofNat 64 (p + i))
    rw [hadd] at haddr
    obtain ⟨hp, hi'⟩ := hm.apart _ _ p i (by omega) hi haddr
    exact ⟨hp.symm, by omega, by omega⟩

end Toastium
