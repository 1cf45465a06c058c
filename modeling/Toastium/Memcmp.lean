import Toastium.ByteMemory

/-!
# `memcmp`

`memcmp` of `string.c` first compares words while four bytes are left. The offset goes up by 4 from
one word to the next, and `i / 4` of it is the number of the word, so `size / 4` words are compared,
twice as many bytes as there are.

`memcmp_exact_iff` : the result is that of the first `size` bytes, and does not depend on others,
exactly when no word is compared, or the bytes differ, or the ranges are the same, or the bytes
behind them that are compared are bytes of the ranges and the same.
-/

namespace Toastium

/-! ## The code -/

/-- The loop of `memcmp` over words, from the offset `i` on : the offset it ends at, none if two
words differ. -/
def memcmpWords (m : BitVec 64 → BitVec 8) (srcA srcB : BitVec 64) (size i : ℕ) : Option ℕ :=
  if size - i ≥ 4 then
    if loadWord m (srcA + BitVec.ofNat 64 (8 * (i / 4))) ≠
        loadWord m (srcB + BitVec.ofNat 64 (8 * (i / 4))) then none
    else memcmpWords m srcA srcB size (i + 4)
  else some i
termination_by size - i

/-- The loop of `memcmp` over bytes, from the offset `i` on : whether all are the same. -/
def memcmpBytes (m : BitVec 64 → BitVec 8) (srcA srcB : BitVec 64) (size i : ℕ) : Bool :=
  if size - i > 0 then
    if m (srcA + BitVec.ofNat 64 i) ≠ m (srcB + BitVec.ofNat 64 i) then false
    else memcmpBytes m srcA srcB size (i + 1)
  else true
termination_by size - i

/-- `memcmp`. -/
def memcmp (m : BitVec 64 → BitVec 8) (size srcA srcB : BitVec 64) : ℤ :=
  match memcmpWords m srcA srcB size.toNat 0 with
  | none => 1
  | some i => if memcmpBytes m srcA srcB size.toNat i then 0 else 1

/-! ## What is compared -/

/-- The first `n` bytes are the same. -/
def SameBytes (m : BitVec 64 → BitVec 8) (srcA srcB : BitVec 64) (n : ℕ) : Prop :=
  ∀ i < n, m (srcA + BitVec.ofNat 64 i) = m (srcB + BitVec.ofNat 64 i)

instance (m : BitVec 64 → BitVec 8) (srcA srcB : BitVec 64) (n : ℕ) :
    Decidable (SameBytes m srcA srcB n) :=
  inferInstanceAs (Decidable (∀ i < n, _))

/-- The address is in one of the ranges of `size` bytes. -/
def InRanges (size srcA srcB x : BitVec 64) : Prop :=
  offset srcA x < size.toNat ∨ offset srcB x < size.toNat

/-- The result is 0 just if the first `size` bytes are the same, and other bytes do not matter. -/
structure MemcmpExact (m : BitVec 64 → BitVec 8) (size srcA srcB : BitVec 64) : Prop where
  eq_zero_iff : memcmp m size srcA srcB = 0 ↔ SameBytes m srcA srcB size.toNat
  congr : ∀ m', (∀ x, InRanges size srcA srcB x → m' x = m x) →
    memcmp m' size srcA srcB = memcmp m size srcA srcB

/-- The bytes behind the ranges that are compared are bytes of the ranges. -/
def ComparesRanges (size srcA srcB : BitVec 64) : Prop :=
  ∀ i, size.toNat ≤ i → i < 8 * (size.toNat / 4) →
    InRanges size srcA srcB (srcA + BitVec.ofNat 64 i) ∧
      InRanges size srcA srcB (srcB + BitVec.ofNat 64 i)

/-- The inputs that `memcmp` compares as it is to. -/
def ComparesSize (m : BitVec 64 → BitVec 8) (size srcA srcB : BitVec 64) : Prop :=
  size.toNat < 4 ∨ ¬SameBytes m srcA srcB size.toNat ∨ srcA = srcB ∨
    ComparesRanges size srcA srcB ∧ SameBytes m srcA srcB (8 * (size.toNat / 4))

section Loops

variable {m : BitVec 64 → BitVec 8} {srcA srcB : BitVec 64}

theorem SameBytes.mono {n k : ℕ} (h : SameBytes m srcA srcB n) (hk : k ≤ n) :
    SameBytes m srcA srcB k :=
  fun i hi => h i (hi.trans_le hk)

/-- A word more is the same. -/
theorem sameBytes_word {n : ℕ} : SameBytes m srcA srcB (8 * (n + 1)) ↔
    SameBytes m srcA srcB (8 * n) ∧ loadWord m (srcA + BitVec.ofNat 64 (8 * n)) =
      loadWord m (srcB + BitVec.ofNat 64 (8 * n)) := by
  rw [loadWord_eq_iff]
  simp only [BitVec.add_assoc, ← BitVec.ofNat_add]
  constructor
  · exact fun h => ⟨h.mono (by omega), fun i hi => h _ (by omega)⟩
  · rintro ⟨h, hword⟩ i hi
    rcases Nat.lt_or_ge i (8 * n) with hlt | hge
    · exact h i hlt
    · have heq := hword (i - 8 * n) (by omega)
      rwa [Nat.add_sub_cancel' hge] at heq

/-- The loop over words, when those before are the same. -/
theorem memcmpWords_eq {size k : ℕ} (hk : 4 * k ≤ size) (h : SameBytes m srcA srcB (8 * k)) :
    (memcmpWords m srcA srcB size (4 * k) = some (4 * (size / 4)) ∧
      SameBytes m srcA srcB (8 * (size / 4))) ∨
    (memcmpWords m srcA srcB size (4 * k) = none ∧
      ¬SameBytes m srcA srcB (8 * (size / 4))) := by
  rw [memcmpWords]
  have hword : 4 * k / 4 = k := Nat.mul_div_cancel_left k (by decide)
  by_cases hmore : size - 4 * k ≥ 4
  · rw [if_pos hmore, hword]
    by_cases heq : loadWord m (srcA + BitVec.ofNat 64 (8 * k)) =
        loadWord m (srcB + BitVec.ofNat 64 (8 * k))
    · rw [if_neg (not_not.mpr heq), ← Nat.mul_succ]
      exact memcmpWords_eq (by omega) (sameBytes_word.mpr ⟨h, heq⟩)
    · rw [if_pos heq]
      refine Or.inr ⟨rfl, fun hall => heq ?_⟩
      exact (sameBytes_word.mp (hall.mono (by omega))).2
  · have hlast : k = size / 4 := by omega
    rw [if_neg hmore]
    subst hlast
    exact Or.inl ⟨rfl, h⟩
termination_by size - 4 * k

theorem memcmpBytes_iff {size i : ℕ} (hi : i ≤ size) (h : SameBytes m srcA srcB i) :
    memcmpBytes m srcA srcB size i = true ↔ SameBytes m srcA srcB size := by
  rw [memcmpBytes]
  by_cases hmore : size - i > 0
  · rw [if_pos hmore]
    by_cases heq : m (srcA + BitVec.ofNat 64 i) = m (srcB + BitVec.ofNat 64 i)
    · rw [if_neg (not_not.mpr heq)]
      refine memcmpBytes_iff (by omega) fun j hj => ?_
      rcases Nat.lt_succ_iff_lt_or_eq.mp hj with hj | rfl
      · exact h j hj
      · exact heq
    · rw [if_pos heq]
      exact iff_of_false Bool.false_ne_true fun hall => heq (hall i (by omega))
  · rw [if_neg hmore]
    obtain rfl : i = size := by omega
    exact iff_of_true rfl h
termination_by size - i

/-- Twice the size is compared, rounded down to words, and at least the size. -/
theorem memcmp_eq_zero_iff {size : BitVec 64} : memcmp m size srcA srcB = 0 ↔
    SameBytes m srcA srcB (max size.toNat (8 * (size.toNat / 4))) := by
  have hsame : SameBytes m srcA srcB (max size.toNat (8 * (size.toNat / 4))) ↔
      SameBytes m srcA srcB (8 * (size.toNat / 4)) ∧ SameBytes m srcA srcB size.toNat :=
    ⟨fun h => ⟨h.mono (le_max_right _ _), h.mono (le_max_left _ _)⟩, fun ⟨hw, hb⟩ i hi =>
      (lt_max_iff.mp hi).elim (hb i) (hw i)⟩
  rw [hsame, memcmp]
  have hnone : SameBytes m srcA srcB (8 * 0) := fun i hi => absurd hi (Nat.not_lt_zero i)
  rcases memcmpWords_eq (Nat.zero_le size.toNat) hnone with ⟨hloop, hw⟩ | ⟨hloop, hw⟩
  · have hbytes := memcmpBytes_iff (Nat.mul_div_le size.toNat 4) (hw.mono (by omega))
    rw [Nat.mul_zero] at hloop
    rw [hloop]
    dsimp only
    split_ifs with hall
    · exact iff_of_true rfl ⟨hw, hbytes.mp hall⟩
    · exact iff_of_false one_ne_zero fun h => hall (hbytes.mpr h.2)
  · rw [Nat.mul_zero] at hloop
    rw [hloop]
    exact iff_of_false one_ne_zero fun h => hw h.1

theorem memcmp_cases (m : BitVec 64 → BitVec 8) (size srcA srcB : BitVec 64) :
    memcmp m size srcA srcB = 0 ∨ memcmp m size srcA srcB = 1 := by
  unfold memcmp
  split
  · exact Or.inr rfl
  · split_ifs
    · exact Or.inl rfl
    · exact Or.inr rfl

theorem memcmp_congr {m' : BitVec 64 → BitVec 8} {size : BitVec 64}
    (h : memcmp m' size srcA srcB = 0 ↔ memcmp m size srcA srcB = 0) :
    memcmp m' size srcA srcB = memcmp m size srcA srcB := by
  have hm' := memcmp_cases m' size srcA srcB
  have hm := memcmp_cases m size srcA srcB
  omega

/-- The same bytes are compared in memories that agree on them. -/
theorem SameBytes.congr {m' : BitVec 64 → BitVec 8} {n : ℕ} (h : SameBytes m srcA srcB n)
    (hA : ∀ i < n, m' (srcA + BitVec.ofNat 64 i) = m (srcA + BitVec.ofNat 64 i))
    (hB : ∀ i < n, m' (srcB + BitVec.ofNat 64 i) = m (srcB + BitVec.ofNat 64 i)) :
    SameBytes m' srcA srcB n :=
  fun i hi => (hA i hi).trans ((h i hi).trans (hB i hi).symm)

theorem inRanges_of_lt {size : BitVec 64} {i : ℕ} (hi : i < size.toNat) :
    InRanges size srcA srcB (srcA + BitVec.ofNat 64 i) ∧
      InRanges size srcA srcB (srcB + BitVec.ofNat 64 i) := by
  have h64 := hi.trans size.isLt
  refine ⟨Or.inl ?_, Or.inr ?_⟩
  · rwa [offset_add srcA h64]
  · rwa [offset_add srcB h64]

/-- Where every byte compared is in the ranges, memories that agree there are compared the same. -/
theorem memcmp_congr_of_ranges {m' : BitVec 64 → BitVec 8} {size : BitVec 64}
    (hin : ∀ i < max size.toNat (8 * (size.toNat / 4)),
      InRanges size srcA srcB (srcA + BitVec.ofNat 64 i) ∧
        InRanges size srcA srcB (srcB + BitVec.ofNat 64 i))
    (hm' : ∀ x, InRanges size srcA srcB x → m' x = m x) :
    memcmp m' size srcA srcB = memcmp m size srcA srcB := by
  refine memcmp_congr ?_
  rw [memcmp_eq_zero_iff, memcmp_eq_zero_iff]
  constructor
  · intro h
    exact h.congr (fun i hi => (hm' _ (hin i hi).1).symm) fun i hi => (hm' _ (hin i hi).2).symm
  · intro h
    exact h.congr (fun i hi => hm' _ (hin i hi).1) fun i hi => hm' _ (hin i hi).2

/-- Other bytes do not matter where the first `size` differ. -/
theorem MemcmpExact.of_not_sameBytes {size : BitVec 64}
    (h : ¬SameBytes m srcA srcB size.toNat) : MemcmpExact m size srcA srcB where
  eq_zero_iff := by
    rw [memcmp_eq_zero_iff]
    exact iff_of_false (fun hall => h (hall.mono (le_max_left _ _))) h
  congr m' hm' := by
    refine memcmp_congr ?_
    rw [memcmp_eq_zero_iff, memcmp_eq_zero_iff]
    refine iff_of_false (fun hall => h ?_) fun hall => h (hall.mono (le_max_left _ _))
    exact (hall.mono (le_max_left _ _)).congr (fun i hi => (hm' _ (inRanges_of_lt hi).1).symm)
      fun i hi => (hm' _ (inRanges_of_lt hi).2).symm

theorem update_succ_ne {x y : BitVec 64} (hne : y ≠ x) :
    Function.update m x (m y + 1) x ≠ Function.update m x (m y + 1) y := by
  rw [Function.update_self, Function.update_of_ne hne]
  exact add_eq_left.not.mpr (by decide)

/-- If the result is exact, a byte that is compared with another one is in the ranges : else it
could be changed. -/
theorem MemcmpExact.inRanges {size x y : BitVec 64} (h : MemcmpExact m size srcA srcB)
    (hzero : memcmp m size srcA srcB = 0) (hne : y ≠ x)
    (hcmp : ∀ m', memcmp m' size srcA srcB = 0 → m' x = m' y) : InRanges size srcA srcB x := by
  by_contra hx
  have hsame := h.congr (Function.update m x (m y + 1)) fun z hz => by
    have hz' : z ≠ x := by
      rintro rfl
      exact hx hz
    exact Function.update_of_ne hz' _ _
  exact update_succ_ne hne (hcmp _ (hsame.trans hzero))

/-- If the result is exact and 0, the bytes compared behind the ranges are bytes of the ranges. -/
theorem MemcmpExact.comparesRanges {size : BitVec 64} (h : MemcmpExact m size srcA srcB)
    (hzero : memcmp m size srcA srcB = 0) (hne : srcA ≠ srcB) :
    ComparesRanges size srcA srcB := by
  intro i _ hi
  have hne' : srcA + BitVec.ofNat 64 i ≠ srcB + BitVec.ofNat 64 i := fun heq =>
    hne (add_right_cancel heq)
  have hcmp : ∀ m', memcmp m' size srcA srcB = 0 →
      m' (srcA + BitVec.ofNat 64 i) = m' (srcB + BitVec.ofNat 64 i) := fun m' h0 =>
    memcmp_eq_zero_iff.mp h0 i (lt_max_of_lt_right hi)
  exact ⟨h.inRanges hzero hne'.symm hcmp, h.inRanges hzero hne' fun m' h0 => (hcmp m' h0).symm⟩

/-- Where every byte compared is in the ranges and they are the same, if the first `size` are, the
result is exact. -/
theorem MemcmpExact.of_ranges {size : BitVec 64}
    (hin : ∀ i < max size.toNat (8 * (size.toNat / 4)),
      InRanges size srcA srcB (srcA + BitVec.ofNat 64 i) ∧
        InRanges size srcA srcB (srcB + BitVec.ofNat 64 i))
    (hsame : SameBytes m srcA srcB size.toNat →
      SameBytes m srcA srcB (max size.toNat (8 * (size.toNat / 4)))) :
    MemcmpExact m size srcA srcB where
  eq_zero_iff := by
    rw [memcmp_eq_zero_iff]
    exact ⟨fun h => h.mono (le_max_left _ _), hsame⟩
  congr _ hm' := memcmp_congr_of_ranges hin hm'

end Loops

/-- The result is that of the first `size` bytes, whatever the others are, exactly when no word is
compared, or the bytes differ, or the ranges are the same, or the bytes compared behind the ranges
are bytes of the ranges and the same. -/
theorem memcmp_exact_iff (m : BitVec 64 → BitVec 8) (size srcA srcB : BitVec 64) :
    MemcmpExact m size srcA srcB ↔ ComparesSize m size srcA srcB := by
  constructor
  · intro h
    by_contra hnot
    rw [ComparesSize, not_or, not_or, not_or, not_not] at hnot
    obtain ⟨-, hsame, hne, hranges⟩ := hnot
    have hzero := h.eq_zero_iff.mpr hsame
    exact hranges ⟨h.comparesRanges hzero hne,
      (memcmp_eq_zero_iff.mp hzero).mono (le_max_right _ _)⟩
  · rintro (hsmall | hdiff | rfl | ⟨hranges, hsame⟩)
    · have hmax : max size.toNat (8 * (size.toNat / 4)) = size.toNat := by omega
      refine .of_ranges (fun i hi => inRanges_of_lt (hmax ▸ hi)) fun h => ?_
      rwa [hmax]
    · exact .of_not_sameBytes hdiff
    · have hzero : ∀ m', memcmp m' size srcA srcA = 0 := fun m' =>
        memcmp_eq_zero_iff.mpr fun _ _ => rfl
      exact ⟨iff_of_true (hzero m) fun _ _ => rfl, fun m' _ => (hzero m').trans (hzero m).symm⟩
    · refine .of_ranges (fun i hi => ?_) fun h i hi =>
        (lt_max_iff.mp hi).elim (h i) (hsame i)
      rcases Nat.lt_or_ge i size.toNat with hlt | hge
      · exact inRanges_of_lt hlt
      · exact hranges i hge ((lt_max_iff.mp hi).resolve_left (Nat.not_lt.mpr hge))

/-- The memory with one byte that is not 0. -/
def fifthByteMemory : BitVec 64 → BitVec 8 := fun x => if x = 4 then 1 else 0

/-- Four bytes that are the same, and a fifth that is not. -/
theorem not_memcmpExact_fifthByte : SameBytes fifthByteMemory 0 16 4 ∧
    memcmp fifthByteMemory 4 0 16 = 1 ∧ ¬MemcmpExact fifthByteMemory 4 0 16 := by
  have hsame : SameBytes fifthByteMemory 0 16 4 := by decide
  have hdiff : ¬memcmp fifthByteMemory 4 0 16 = 0 := by
    rw [memcmp_eq_zero_iff]
    decide
  exact ⟨hsame, (memcmp_cases _ _ _ _).resolve_left hdiff,
    fun h => hdiff (h.eq_zero_iff.mpr hsame)⟩

end Toastium
