import Toastium.Heap

/-!
# Memory of bytes

Memory as a function of the address, with addresses of 64 bits that wrap. `offset p x` counts the
address `x` from `p` on. `copied dst src n m` is the memory `m` with a range copied at once, and
`copied_succ` says when a copy of one more byte, made after the others, still reads what was there
before them : the range is copied onto itself, or `dst` is not among the addresses to be read.
-/

namespace Toastium

variable {α : Type*}

/-! ## Addresses -/

/-- The number of an address, from `p` on. -/
def offset (p x : BitVec 64) : ℕ :=
  (x - p).toNat

theorem offset_lt (p x : BitVec 64) : offset p x < 2 ^ 64 :=
  (x - p).isLt

theorem add_offset (p x : BitVec 64) : p + BitVec.ofNat 64 (offset p x) = x := by
  rw [offset, BitVec.ofNat_toNat, BitVec.setWidth_eq, BitVec.add_comm, BitVec.sub_add_cancel]

@[simp] theorem offset_self (p : BitVec 64) : offset p p = 0 := by
  rw [offset, BitVec.sub_self]
  rfl

theorem offset_add (p : BitVec 64) {i : ℕ} (hi : i < 2 ^ 64) :
    offset p (p + BitVec.ofNat 64 i) = i := by
  rw [offset, BitVec.add_comm, BitVec.add_sub_cancel, BitVec.toNat_ofNat, Nat.mod_eq_of_lt hi]

theorem eq_add_iff {p x : BitVec 64} {i : ℕ} (hi : i < 2 ^ 64) :
    x = p + BitVec.ofNat 64 i ↔ offset p x = i := by
  constructor
  · rintro rfl
    exact offset_add p hi
  · rintro rfl
    exact (add_offset p x).symm

/-- The same address counted from a later one. -/
theorem offset_shift (p x : BitVec 64) {n : ℕ} (hn : n ≤ 2 ^ 64) :
    offset (p + BitVec.ofNat 64 n) x =
      if n ≤ offset p x then offset p x - n else offset p x + (2 ^ 64 - n) := by
  have hx := (x - p).isLt
  have hsub : x - (p + BitVec.ofNat 64 n) = x - p - BitVec.ofNat 64 n := by
    rw [BitVec.sub_sub]
  rw [offset, hsub, BitVec.toNat_sub, BitVec.toNat_ofNat, offset]
  split_ifs with hle <;> omega

/-- An address of one range counted from the other. -/
theorem offset_other (p q : BitVec 64) {i : ℕ} (hi : i < 2 ^ 64) :
    offset q (p + BitVec.ofNat 64 i) =
      if offset p q ≤ i then i - offset p q else i + (2 ^ 64 - offset p q) := by
  have h := offset_shift p (p + BitVec.ofNat 64 i) (offset_lt p q).le
  rwa [add_offset, offset_add p hi] at h

/-- Two addresses moved together. -/
theorem offset_add_both (p q : BitVec 64) (n : ℕ) :
    offset (p + BitVec.ofNat 64 n) (q + BitVec.ofNat 64 n) = offset p q :=
  congrArg BitVec.toNat (add_sub_add_right_eq_sub q p (BitVec.ofNat 64 n))

/-! ## Ranges copied -/

/-- The memory with the range of `n` addresses from `src` on copied to `dst`. -/
def copied (dst src : BitVec 64) (n : ℕ) (m : BitVec 64 → α) : BitVec 64 → α :=
  fun x => if offset dst x < n then m (src + BitVec.ofNat 64 (offset dst x)) else m x

@[simp] theorem copied_zero (dst src : BitVec 64) (m : BitVec 64 → α) : copied dst src 0 m = m :=
  rfl

theorem copied_of_lt {dst src : BitVec 64} {n i : ℕ} (hn : n ≤ 2 ^ 64) (hi : i < n)
    (m : BitVec 64 → α) :
    copied dst src n m (dst + BitVec.ofNat 64 i) = m (src + BitVec.ofNat 64 i) := by
  rw [copied, offset_add dst (hi.trans_le hn), if_pos hi]

theorem copied_of_le {dst src x : BitVec 64} {n : ℕ} (hx : n ≤ offset dst x)
    (m : BitVec 64 → α) : copied dst src n m x = m x :=
  if_neg (Nat.not_lt.mpr hx)

/-- The first `n` steps of a copy that goes up leave what the next step reads. -/
theorem copied_next {dst src : BitVec 64} {n : ℕ} (hn : n < 2 ^ 64)
    (hd : offset src dst = 0 ∨ n < offset src dst) (m : BitVec 64 → α) :
    copied dst src n m (src + BitVec.ofNat 64 n) = m (src + BitVec.ofNat 64 n) := by
  refine copied_of_le ?_ m
  have hlt := offset_lt src dst
  rw [offset_other src dst hn]
  split_ifs with hle <;> omega

/-- One more byte copied. -/
theorem copied_succ {dst src : BitVec 64} {n : ℕ} (hn : n < 2 ^ 64)
    (hd : offset src dst = 0 ∨ n < offset src dst) (m : BitVec 64 → α) :
    Function.update (copied dst src n m) (dst + BitVec.ofNat 64 n)
      (copied dst src n m (src + BitVec.ofNat 64 n)) = copied dst src (n + 1) m := by
  funext x
  rw [copied_next hn hd]
  by_cases hx : x = dst + BitVec.ofNat 64 n
  · subst hx
    rw [Function.update_self, copied_of_lt hn (Nat.lt_succ_self n)]
  · have hne : offset dst x ≠ n := fun h => hx ((eq_add_iff hn).mpr h)
    rw [Function.update_of_ne hx]
    unfold copied
    have hiff : offset dst x < n + 1 ↔ offset dst x < n := by omega
    simp only [hiff]

/-! ## Words -/

/-- The word of the eight bytes from `p` on, the lowest first. -/
def loadWord (m : BitVec 64 → BitVec 8) (p : BitVec 64) : BitVec 64 :=
  loadU64 (fun i => m (p + BitVec.ofNat 64 i)) 0

/-- The memory with the eight bytes of a word from `p` on. -/
def storeWord (m : BitVec 64 → BitVec 8) (p : BitVec 64) (v : BitVec 64) :
    BitVec 64 → BitVec 8 :=
  fun x => if offset p x < 8 then v.extractLsb' (8 * offset p x) 8 else m x

/-- A byte of a word that is loaded. -/
theorem extractLsb'_loadU64 (mem : ℕ → BitVec 8) (p : ℕ) {i : ℕ} (hi : i < 8) :
    (loadU64 mem p).extractLsb' (8 * i) 8 = mem (p + i) := by
  refine BitVec.eq_of_getLsbD_eq fun j hj => ?_
  have hword := getLsbD_bytes (fun k => mem (p + k)) (i := 8 * i + j) (by omega)
  have hdiv : (8 * i + j) / 8 = i := by omega
  have hmod : (8 * i + j) % 8 = j := by omega
  simp only [hdiv, hmod] at hword
  rw [BitVec.getLsbD_extractLsb', decide_eq_true hj, Bool.true_and]
  exact hword

/-- A word loaded and stored is a range copied. -/
theorem storeWord_loadWord (m : BitVec 64 → BitVec 8) (dst src : BitVec 64) :
    storeWord m dst (loadWord m src) = copied dst src 8 m := by
  funext x
  unfold storeWord copied loadWord
  split_ifs with hx
  · rw [extractLsb'_loadU64 _ _ hx, Nat.zero_add]
  · rfl

/-- Words are the same if their bytes are. -/
theorem loadWord_eq_iff {m : BitVec 64 → BitVec 8} {p q : BitVec 64} :
    loadWord m p = loadWord m q ↔
      ∀ i < 8, m (p + BitVec.ofNat 64 i) = m (q + BitVec.ofNat 64 i) := by
  constructor
  · intro h i hi
    have hbyte := congrArg (fun v => v.extractLsb' (8 * i) 8) h
    simpa only [loadWord, extractLsb'_loadU64 _ _ hi, Nat.zero_add] using hbyte
  · intro h
    unfold loadWord loadU64
    simp only [Nat.zero_add, h 0 (by decide), h 1 (by decide), h 2 (by decide), h 3 (by decide),
      h 4 (by decide), h 5 (by decide), h 6 (by decide), h 7 (by decide)]

end Toastium
