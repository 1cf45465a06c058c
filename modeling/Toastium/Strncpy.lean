import Toastium.ByteMemory
import Toastium.LowBits

/-!
# `strncpy`

`strncpy` of `string.c` copies without branches. Each byte is masked, and the mask is masked with
`output | -output` so that it is 0 from the end of the string on. But that is all ones only where
the byte is odd : it is the bits from the lowest one of the byte on, so a byte loses the bits below
the lowest one of any byte before it.

`strncpy_correct_iff` : the bytes behind the string are 0, and those of the string are copied
exactly when none has fewer trailing zeros than one before it. Where `dest` comes after `src`, so
that the string is written to before it is read, what is read is part of the condition.
-/

namespace Toastium

/-! ## The code -/

/-- The loop of `strncpy` after `n` steps : the mask and the memory. -/
def strncpyLoop (dest src : BitVec 64) :
    ℕ → (BitVec 64 → BitVec 8) → BitVec 8 × (BitVec 64 → BitVec 8)
  | 0, m => (255, m)
  | i + 1, m =>
    let (mask, m) := strncpyLoop dest src i m
    let output := m (src + BitVec.ofNat 64 i)
    let mask := (output ||| -output) &&& mask
    (mask, Function.update m (dest + BitVec.ofNat 64 i) (output &&& mask))

/-- `strncpy`. -/
def strncpy (dest src size : BitVec 64) (m : BitVec 64 → BitVec 8) : BitVec 64 → BitVec 8 :=
  (strncpyLoop dest src size.toNat m).2

/-! ## What is due -/

/-- A string of `len` bytes at `src`. -/
structure TerminatedAt (m : BitVec 64 → BitVec 8) (src : BitVec 64) (len : ℕ) : Prop where
  lt : len < 2 ^ 64
  byte : ∀ i < len, m (src + BitVec.ofNat 64 i) ≠ 0
  zero : m (src + BitVec.ofNat 64 len) = 0

/-- Byte `i` of a string, 0 behind it. -/
def dueByte (m : BitVec 64 → BitVec 8) (src : BitVec 64) (len i : ℕ) : BitVec 8 :=
  if i < len then m (src + BitVec.ofNat 64 i) else 0

/-- The `size` bytes at `dest` are those of the string, and 0 behind them. -/
def StrncpyCorrect (m : BitVec 64 → BitVec 8) (dest src size : BitVec 64) (len : ℕ) : Prop :=
  ∀ i < size.toNat, strncpy dest src size m (dest + BitVec.ofNat 64 i) = dueByte m src len i

/-- No byte has fewer trailing zeros than one before it. -/
def RisingZeros (f : ℕ → BitVec 8) (n : ℕ) : Prop :=
  ∀ i < n, ∀ j < i, (f j).ctz.toNat ≤ (f i).ctz.toNat

instance (f : ℕ → BitVec 8) (n : ℕ) : Decidable (RisingZeros f n) :=
  inferInstanceAs (Decidable (∀ i < n, ∀ j < i, _))

/-- The string, or its zero, is written to before it is read. -/
def WritesAhead (dest src size : BitVec 64) (len : ℕ) : Prop :=
  0 < offset src dest ∧ offset src dest < size.toNat ∧ offset src dest ≤ len

instance (dest src size : BitVec 64) (len : ℕ) : Decidable (WritesAhead dest src size len) :=
  inferInstanceAs (Decidable (_ ∧ _))

/-- The most trailing zeros of `f 0`, …, `f (n - 1)`. -/
def mostZeros (f : ℕ → BitVec 8) : ℕ → ℕ
  | 0 => 0
  | n + 1 => max (f n).ctz.toNat (mostZeros f n)

/-- The byte that step `i` finds at `src + i` when the bytes before it are what is due. -/
def fedByte (m : BitVec 64 → BitVec 8) (dest src : BitVec 64) (len i : ℕ) : BitVec 8 :=
  if 0 < offset src dest ∧ offset src dest ≤ i then dueByte m src len (i - offset src dest)
  else m (src + BitVec.ofNat 64 i)

/-- Each byte due is the one found, without the bits below the lowest one of a byte found so far. -/
def FeedsDue (m : BitVec 64 → BitVec 8) (dest src size : BitVec 64) (len : ℕ) : Prop :=
  ∀ i < size.toNat, dueByte m src len i =
    clearBelow (fedByte m dest src len i) (mostZeros (fedByte m dest src len) (i + 1))

/-- The strings that `strncpy` copies. -/
def StrncpyKeeps (m : BitVec 64 → BitVec 8) (dest src size : BitVec 64) (len : ℕ) : Prop :=
  ¬WritesAhead dest src size len ∧
      RisingZeros (fun i => m (src + BitVec.ofNat 64 i)) (min size.toNat len) ∨
    WritesAhead dest src size len ∧ FeedsDue m dest src size len

/-! ## The loop -/

theorem mostZeros_congr {f g : ℕ → BitVec 8} : ∀ {n : ℕ}, (∀ i < n, f i = g i) →
    mostZeros f n = mostZeros g n
  | 0, _ => rfl
  | n + 1, h => by
    rw [mostZeros, mostZeros, h n (Nat.lt_succ_self n),
      mostZeros_congr fun i hi => h i (hi.trans (Nat.lt_succ_self n))]

theorem mostZeros_le_iff {f : ℕ → BitVec 8} {k : ℕ} : ∀ {n : ℕ},
    mostZeros f n ≤ k ↔ ∀ i < n, (f i).ctz.toNat ≤ k
  | 0 => ⟨fun _ _ hi => absurd hi (Nat.not_lt_zero _), fun _ => Nat.zero_le _⟩
  | n + 1 => by
    rw [mostZeros, max_le_iff, mostZeros_le_iff, Nat.forall_lt_succ_right, and_comm]

section Loop

variable {m : BitVec 64 → BitVec 8} {dest src : BitVec 64}

/-- The byte that step `i` reads. -/
def readByte (m : BitVec 64 → BitVec 8) (dest src : BitVec 64) (i : ℕ) : BitVec 8 :=
  (strncpyLoop dest src i m).2 (src + BitVec.ofNat 64 i)

/-- The byte that step `i` writes. -/
def wroteByte (m : BitVec 64 → BitVec 8) (dest src : BitVec 64) (i : ℕ) : BitVec 8 :=
  clearBelow (readByte m dest src i) (mostZeros (readByte m dest src) (i + 1))

/-- The mask has the bits from the most trailing zeros so far on. -/
theorem strncpyLoop_mask : ∀ n : ℕ, (strncpyLoop dest src n m).1 =
    clearBelow (BitVec.allOnes 8) (mostZeros (readByte m dest src) n)
  | 0 => by
    rw [mostZeros, clearBelow_zero]
    rfl
  | n + 1 => by
    have hmask : (strncpyLoop dest src (n + 1) m).1 =
        (readByte m dest src n ||| -readByte m dest src n) &&& (strncpyLoop dest src n m).1 := rfl
    rw [hmask, or_neg_eq, strncpyLoop_mask n, clearBelow_and, BitVec.and_self, mostZeros]

/-- A step writes the byte it read, masked. -/
theorem strncpyLoop_succ (n : ℕ) : (strncpyLoop dest src (n + 1) m).2 =
    Function.update (strncpyLoop dest src n m).2 (dest + BitVec.ofNat 64 n)
      (wroteByte m dest src n) := by
  have hstep : (strncpyLoop dest src (n + 1) m).2 =
      Function.update (strncpyLoop dest src n m).2 (dest + BitVec.ofNat 64 n)
        (readByte m dest src n &&& (strncpyLoop dest src (n + 1) m).1) := rfl
  rw [hstep, strncpyLoop_mask, and_clearBelow, BitVec.and_allOnes, wroteByte]

/-- The memory after `n` steps. -/
theorem strncpyLoop_eq : ∀ {n : ℕ}, n ≤ 2 ^ 64 → ∀ x, (strncpyLoop dest src n m).2 x =
    if offset dest x < n then wroteByte m dest src (offset dest x) else m x
  | 0, _, x => rfl
  | n + 1, hn, x => by
    rw [strncpyLoop_succ]
    by_cases hx : x = dest + BitVec.ofNat 64 n
    · have hoff : offset dest x = n := (eq_add_iff hn).mp hx
      rw [hoff, if_pos (Nat.lt_succ_self n), hx, Function.update_self]
    · have hne : offset dest x ≠ n := fun h => hx ((eq_add_iff hn).mpr h)
      have hiff : offset dest x < n + 1 ↔ offset dest x < n := by omega
      rw [Function.update_of_ne hx, strncpyLoop_eq (Nat.le_of_succ_le hn)]
      simp only [hiff]

theorem strncpy_byte (size : BitVec 64) {i : ℕ} (hi : i < size.toNat) :
    strncpy dest src size m (dest + BitVec.ofNat 64 i) = wroteByte m dest src i := by
  have hoff := offset_add dest (hi.trans size.isLt)
  rw [strncpy, strncpyLoop_eq size.isLt.le, hoff, if_pos hi]

/-- A step reads what was written `dest - src` steps before, or the memory. -/
theorem readByte_eq {i : ℕ} (hi : i < 2 ^ 64) : readByte m dest src i =
    if 0 < offset src dest ∧ offset src dest ≤ i then wroteByte m dest src (i - offset src dest)
    else m (src + BitVec.ofNat 64 i) := by
  have hlt := offset_lt src dest
  rw [readByte, strncpyLoop_eq hi.le, offset_other src dest hi]
  by_cases hle : offset src dest ≤ i
  · rw [if_pos hle]
    by_cases hpos : 0 < offset src dest
    · rw [if_pos (by omega), if_pos ⟨hpos, hle⟩]
    · rw [if_neg (by omega), if_neg fun h => hpos h.1]
  · rw [if_neg hle, if_neg (by omega), if_neg fun h => hle h.2]

/-- Step `i` finds what it is to find, if the bytes before are those due. -/
theorem readByte_eq_fedByte {len i : ℕ} (hi : i < 2 ^ 64)
    (hdue : ∀ j < i, wroteByte m dest src j = dueByte m src len j) :
    readByte m dest src i = fedByte m dest src len i := by
  rw [readByte_eq hi, fedByte]
  by_cases hover : 0 < offset src dest ∧ offset src dest ≤ i
  · rw [if_pos hover, if_pos hover, hdue _ (by omega)]
  · rw [if_neg hover, if_neg hover]

theorem wroteByte_eq {len i : ℕ} (hi : i < 2 ^ 64)
    (hdue : ∀ j < i, wroteByte m dest src j = dueByte m src len j) :
    wroteByte m dest src i =
      clearBelow (fedByte m dest src len i) (mostZeros (fedByte m dest src len) (i + 1)) := by
  have hread : ∀ j < i + 1, readByte m dest src j = fedByte m dest src len j := fun j hj =>
    readByte_eq_fedByte (by omega) fun k hk => hdue k (by omega)
  rw [wroteByte, hread i (Nat.lt_succ_self i), mostZeros_congr hread]

/-- The copy is right just if each byte due is what a step makes of the byte it is to find. -/
theorem strncpyCorrect_iff_feedsDue {size : BitVec 64} {len : ℕ} :
    StrncpyCorrect m dest src size len ↔ FeedsDue m dest src size len := by
  have hsize := size.isLt
  constructor
  · intro h i hi
    have hdue : ∀ j < size.toNat, wroteByte m dest src j = dueByte m src len j := fun j hj =>
      (strncpy_byte size hj).symm.trans (h j hj)
    rw [← hdue i hi, wroteByte_eq (by omega) fun j hj => hdue j (by omega)]
  · intro h i hi
    rw [strncpy_byte size hi]
    induction i using Nat.strong_induction_on with
    | _ i ih =>
      rw [wroteByte_eq (by omega) fun j hj => ih j hj (by omega), h i hi]

/-- A string that is not written to before it is read is found as it was. -/
theorem fedByte_of_not_ahead {size : BitVec 64} {len i : ℕ}
    (h : ¬WritesAhead dest src size len) (hi : i < size.toNat) (hle : i ≤ len) :
    fedByte m dest src len i = m (src + BitVec.ofNat 64 i) :=
  if_neg fun ⟨hpos, hoff⟩ => h ⟨hpos, by omega, by omega⟩

/-- Behind the end of the string every bit is cleared. -/
theorem clearBelow_fedByte_of_le {size : BitVec 64} {len i : ℕ} (hstr : TerminatedAt m src len)
    (h : ¬WritesAhead dest src size len) (hi : i < size.toNat) (hle : len ≤ i) :
    clearBelow (fedByte m dest src len i) (mostZeros (fedByte m dest src len) (i + 1)) = 0 := by
  have hzeros := mostZeros_le_iff.mp (le_refl (mostZeros (fedByte m dest src len) (i + 1))) len
    (by omega)
  rw [fedByte_of_not_ahead h (by omega) le_rfl, hstr.zero] at hzeros
  exact clearBelow_of_le hzeros

theorem feedsDue_iff_risingZeros {size : BitVec 64} {len : ℕ} (hstr : TerminatedAt m src len)
    (h : ¬WritesAhead dest src size len) : FeedsDue m dest src size len ↔
      RisingZeros (fun i => m (src + BitVec.ofNat 64 i)) (min size.toNat len) := by
  have hfed : ∀ i < size.toNat, i ≤ len →
      fedByte m dest src len i = m (src + BitVec.ofNat 64 i) := fun i hi hle =>
    fedByte_of_not_ahead h hi hle
  constructor
  · intro hdue i hi j hj
    have hi' : i < size.toNat ∧ i < len := lt_min_iff.mp hi
    have hkept := hdue i hi'.1
    rw [dueByte, if_pos hi'.2, hfed i hi'.1 hi'.2.le] at hkept
    have hmost := (clearBelow_eq_self_iff (hstr.byte i hi'.2)).mp hkept.symm
    have hj' := mostZeros_le_iff.mp hmost j (by omega)
    rwa [hfed j (by omega) (by omega)] at hj'
  · intro hrise i hi
    by_cases hlen : i < len
    · rw [dueByte, if_pos hlen, hfed i hi hlen.le, eq_comm,
        clearBelow_eq_self_iff (hstr.byte i hlen), mostZeros_le_iff]
      intro j hj
      rw [hfed j (by omega) (by omega)]
      rcases Nat.lt_succ_iff_lt_or_eq.mp hj with hj | rfl
      · exact hrise i (lt_min hi hlen) j hj
      · exact le_rfl
    · rw [dueByte, if_neg hlen, clearBelow_fedByte_of_le hstr h hi (Nat.not_lt.mp hlen)]

/-- A string is copied with zeros behind it exactly when no byte of it has fewer trailing zeros than
one before it, where it is not written to before it is read, and otherwise when what is found makes
the bytes due. -/
theorem strncpy_correct_iff {size : BitVec 64} {len : ℕ} (hstr : TerminatedAt m src len) :
    StrncpyCorrect m dest src size len ↔ StrncpyKeeps m dest src size len := by
  rw [strncpyCorrect_iff_feedsDue, StrncpyKeeps]
  by_cases h : WritesAhead dest src size len
  · simp only [h, not_true_eq_false, false_and, true_and, false_or]
  · simp only [h, not_false_eq_true, false_and, true_and, or_false]
    exact feedsDue_iff_risingZeros hstr h

end Loop

/-- The memory of zeros with the bytes `l` from address 0 on. -/
def stringMemory (l : List (BitVec 8)) : BitVec 64 → BitVec 8 :=
  fun x => l.getD x.toNat 0

/-- `"ab"`. The second byte has more trailing zeros. -/
theorem strncpy_correct_ab : StrncpyCorrect (stringMemory [0x61, 0x62]) 16 0 4 2 :=
  (strncpy_correct_iff ⟨by decide, by decide, by decide⟩).mpr (Or.inl ⟨by decide, by decide⟩)

/-- `"ba"`. The second byte is copied without its lowest bit. -/
theorem not_strncpyCorrect_ba : TerminatedAt (stringMemory [0x62, 0x61]) 0 2 ∧
    strncpy 16 0 4 (stringMemory [0x62, 0x61]) 17 = 0x60 ∧
    ¬StrncpyCorrect (stringMemory [0x62, 0x61]) 16 0 4 2 := by
  refine ⟨⟨by decide, by decide, by decide⟩, by decide, fun h => ?_⟩
  exact absurd (h 1 (by decide)) (by decide)

end Toastium
