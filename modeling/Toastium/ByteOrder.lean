import Mathlib.Data.BitVec
import Mathlib.Data.Nat.Digits.Defs
import Mathlib.Tactic

/-!
# Byte orders

The number that bytes stand for, the lowest byte first or last (`ByteOrder.nat`), and the word
of it. A function that flips the bytes of a word takes the word in one order to the word in the
other (`FlipsBytes.flip_word`), so a word loaded in the order of the machine and flipped if the
data has the other order is the word in the order of the data (`convert_word`).
-/

namespace Toastium

/-- The order of the bytes of a number in memory. -/
inductive ByteOrder
  | big
  | little
  deriving DecidableEq, Repr

/-- The number with the given bytes, the lowest first. -/
def ofBytes (bytes : List (BitVec 8)) : ℕ :=
  Nat.ofDigits 256 (bytes.map BitVec.toNat)

/-- The number that bytes stand for. -/
def ByteOrder.nat : ByteOrder → List (BitVec 8) → ℕ
  | .big, bytes => ofBytes bytes.reverse
  | .little, bytes => ofBytes bytes

/-- The word of `w` bits that bytes stand for. -/
def ByteOrder.word (order : ByteOrder) (w : ℕ) (bytes : List (BitVec 8)) : BitVec w :=
  BitVec.ofNat w (order.nat bytes)

/-- A word in the order of the machine, for data in a given order. -/
def convert {w : ℕ} (flip : BitVec w → BitVec w) (machine order : ByteOrder) (x : BitVec w) :
    BitVec w :=
  if machine = order then x else flip x

/-- The function reverses the `n` bytes of a word. -/
def FlipsBytes {w : ℕ} (n : ℕ) (flip : BitVec w → BitVec w) : Prop :=
  ∀ x i, i < 8 * n → (flip x).getLsbD i = x.getLsbD (8 * (n - 1 - i / 8) + i % 8)

/-- Bit `i` of a number is a bit of byte `i / 8`. -/
theorem testBit_ofBytes : ∀ (bytes : List (BitVec 8)) (i : ℕ),
    (ofBytes bytes).testBit i = (bytes[i / 8]?.getD 0).getLsbD (i % 8)
  | [], i => by simp [ofBytes]
  | b :: bytes, i => by
    have hcons : ofBytes (b :: bytes) = 2 ^ 8 * ofBytes bytes + b.toNat := by
      simp only [ofBytes, List.map_cons, Nat.ofDigits_cons]
      omega
    rw [hcons, Nat.testBit_two_pow_mul_add _ b.isLt]
    split_ifs with hi
    · rw [Nat.div_eq_of_lt hi, Nat.mod_eq_of_lt hi]
      rfl
    · obtain ⟨j, rfl⟩ := Nat.exists_eq_add_of_le (Nat.le_of_not_lt hi)
      have hdiv : (8 + j) / 8 = j / 8 + 1 := by omega
      have hmod : (8 + j) % 8 = j % 8 := by omega
      rw [Nat.add_sub_cancel_left, testBit_ofBytes bytes j, hdiv, hmod, List.getElem?_cons_succ]

theorem ofBytes_lt (bytes : List (BitVec 8)) : ofBytes bytes < 2 ^ (8 * bytes.length) := by
  have hdigits : ∀ d ∈ bytes.map BitVec.toNat, d < 256 := fun d hd => by
    obtain ⟨b, -, rfl⟩ := List.mem_map.mp hd
    exact b.isLt
  have hlt := Nat.ofDigits_lt_base_pow_length (by decide) hdigits
  rw [List.length_map] at hlt
  rwa [pow_mul]

theorem ByteOrder.nat_lt (order : ByteOrder) (bytes : List (BitVec 8)) :
    order.nat bytes < 2 ^ (8 * bytes.length) := by
  cases order with
  | big =>
    have hlt := ofBytes_lt bytes.reverse
    rwa [List.length_reverse] at hlt
  | little => exact ofBytes_lt bytes

/-- A word as wide as the bytes holds their number. -/
theorem ByteOrder.toNat_word {w : ℕ} (order : ByteOrder) {bytes : List (BitVec 8)}
    (hw : w = 8 * bytes.length) : (order.word w bytes).toNat = order.nat bytes := by
  subst hw
  rw [ByteOrder.word, BitVec.toNat_ofNat, Nat.mod_eq_of_lt (order.nat_lt bytes)]

/-- Flipping the bytes reverses the list that the word stands for. -/
theorem FlipsBytes.flip_ofBytes {w n : ℕ} {flip : BitVec w → BitVec w} (h : FlipsBytes n flip)
    (hw : w = 8 * n) {bytes : List (BitVec 8)} (hlen : bytes.length = n) :
    flip (BitVec.ofNat w (ofBytes bytes)) = BitVec.ofNat w (ofBytes bytes.reverse) := by
  refine BitVec.eq_of_getLsbD_eq fun i hi => ?_
  have hbyte : i / 8 < n := by omega
  have hdiv : (8 * (n - 1 - i / 8) + i % 8) / 8 = n - 1 - i / 8 := by omega
  have hmod : (8 * (n - 1 - i / 8) + i % 8) % 8 = i % 8 := by omega
  have hj : 8 * (n - 1 - i / 8) + i % 8 < w := by omega
  rw [h _ i (hw ▸ hi), BitVec.getLsbD_ofNat, BitVec.getLsbD_ofNat, decide_eq_true hj,
    decide_eq_true hi, Bool.true_and, Bool.true_and, testBit_ofBytes, testBit_ofBytes, hdiv, hmod,
    List.getElem?_reverse (by omega), hlen]

/-- Flipping the bytes takes a word from one order to the other. -/
theorem FlipsBytes.flip_word {w n : ℕ} {flip : BitVec w → BitVec w} (h : FlipsBytes n flip)
    (hw : w = 8 * n) {bytes : List (BitVec 8)} (hlen : bytes.length = n) {a b : ByteOrder}
    (hne : a ≠ b) : flip (a.word w bytes) = b.word w bytes := by
  have hrev := h.flip_ofBytes hw (List.length_reverse.trans hlen)
  rw [List.reverse_reverse] at hrev
  cases a with
  | big =>
    cases b with
    | big => exact absurd rfl hne
    | little => exact hrev
  | little =>
    cases b with
    | big => exact h.flip_ofBytes hw hlen
    | little => exact absurd rfl hne

/-- A word loaded by the machine and converted is the word in the order of the data. -/
theorem convert_word {w n : ℕ} {flip : BitVec w → BitVec w} (h : FlipsBytes n flip)
    (hw : w = 8 * n) (machine order : ByteOrder) {bytes : List (BitVec 8)}
    (hlen : bytes.length = n) :
    convert flip machine order (machine.word w bytes) = order.word w bytes := by
  unfold convert
  split_ifs with hne
  · rw [hne]
  · exact h.flip_word hw hlen hne

end Toastium
