import Toastium.Layout

/-!
# Strings

The functions of `string.c` on strings that end with a zero. The argument is the memory from
the string on, as far as it can be read. A string that was copied is the list of its bytes,
without the zero.
-/

namespace Toastium

/-- A string without its zero. -/
def bytesOf (s : List Char) : List (BitVec 8) :=
  s.map fun c => BitVec.ofNat 8 c.toNat

/-- `strchr`, as an index. -/
def strchr (c : BitVec 8) : List (BitVec 8) → Except (Fault Panic) (Option ℕ)
  | [] => .error (.wild 0 0)
  | b :: str =>
    if b = 0 then .ok none
    else if b = c then .ok (some 0)
    else do
      let i ← strchr c str
      return i.map (· + 1)

/-- `strlen`. -/
def strlen : List (BitVec 8) → Except (Fault Panic) ℕ
  | [] => .error (.wild 0 0)
  | b :: str =>
    if b = 0 then .ok 0
    else do
      let len ← strlen str
      return len + 1

/-- The loop of `strscpy`, over at most `size` bytes. -/
def copyBytes : ℕ → List (BitVec 8) → Except (Fault Panic) (List (BitVec 8))
  | 0, _ => .ok []
  | _ + 1, [] => .error (.wild 0 0)
  | size + 1, b :: src =>
    if b = 0 then .ok []
    else do
      let dest ← copyBytes size src
      return b :: dest

/-- `strscpy`. The last of `size` bytes is overwritten by the zero. -/
def strscpy (src : List (BitVec 8)) (size : ℕ) : Except (Fault Panic) (List (BitVec 8)) := do
  let dest ← copyBytes size src
  return if dest.length = size then dest.take (size - 1) else dest

/-- `strcmp`. -/
def strcmp : List (BitVec 8) → List (BitVec 8) → ℤ
  | [], [] => 0
  | [], _ :: _ => -1
  | _ :: _, [] => 1
  | a :: srcA, b :: srcB => if a ≠ b then if a > b then 1 else -1 else strcmp srcA srcB

theorem strcmp_eq_zero_iff : ∀ {a b : List (BitVec 8)}, strcmp a b = 0 ↔ a = b
  | [], [] => by simp [strcmp]
  | [], _ :: _ => by simp [strcmp]
  | _ :: _, [] => by simp [strcmp]
  | x :: a, y :: b => by
    rw [strcmp, List.cons.injEq]
    split_ifs with hne
    · simp [hne]
    · simp [hne]
    · rw [not_not] at hne
      simp only [hne, true_and]
      exact strcmp_eq_zero_iff

section Terminated

variable {tail : List (BitVec 8)}

theorem strchr_eq {c : BitVec 8} : ∀ {str : List (BitVec 8)}, 0 ∉ str →
    strchr c (str ++ 0 :: tail) =
      .ok (if c ∈ str then some (str.takeWhile (· ≠ c)).length else none)
  | [], _ => by
    rw [List.nil_append, strchr, if_pos rfl, if_neg List.not_mem_nil]
  | b :: str, h => by
    have hb : b ≠ 0 := fun e => h (e ▸ List.mem_cons_self)
    rw [List.cons_append, strchr, if_neg hb]
    by_cases hc : b = c
    · rw [if_pos hc, if_pos (hc ▸ List.mem_cons_self), List.takeWhile_cons]
      simp [hc]
    · have hmem : c ∈ b :: str ↔ c ∈ str := by simp [Ne.symm hc]
      rw [if_neg hc, strchr_eq fun h0 => h (List.mem_cons_of_mem _ h0), ok_bind, pure_eq_ok,
        List.takeWhile_cons]
      simp only [hmem, hc, ne_eq, not_false_eq_true, decide_true, if_true, List.length_cons]
      split_ifs <;> rfl

theorem strlen_eq : ∀ {str : List (BitVec 8)}, 0 ∉ str →
    strlen (str ++ 0 :: tail) = .ok str.length
  | [], _ => by
    rw [List.nil_append, strlen, if_pos rfl, List.length_nil]
  | b :: str, h => by
    have hb : b ≠ 0 := fun e => h (e ▸ List.mem_cons_self)
    rw [List.cons_append, strlen, if_neg hb, strlen_eq fun h0 => h (List.mem_cons_of_mem _ h0)]
    rfl

theorem copyBytes_eq : ∀ {size : ℕ} {str : List (BitVec 8)}, 0 ∉ str →
    copyBytes size (str ++ 0 :: tail) = .ok (str.take size)
  | 0, str, _ => by
    rw [copyBytes, List.take_zero]
  | size + 1, [], _ => by
    rw [List.nil_append, copyBytes, if_pos rfl, List.take_nil]
  | size + 1, b :: str, h => by
    have hb : b ≠ 0 := fun e => h (e ▸ List.mem_cons_self)
    rw [List.cons_append, copyBytes, if_neg hb,
      copyBytes_eq fun h0 => h (List.mem_cons_of_mem _ h0), List.take_succ_cons]
    rfl

/-- A string is copied up to its first `size - 1` bytes. -/
theorem strscpy_eq {str : List (BitVec 8)} (h : 0 ∉ str) (size : ℕ) :
    strscpy (str ++ 0 :: tail) (size + 1) = .ok (str.take size) := by
  rw [strscpy, copyBytes_eq h, ok_bind, pure_eq_ok, List.length_take, Nat.add_sub_cancel,
    List.take_take, min_eq_left (Nat.le_succ size)]
  split_ifs with hlen
  · rfl
  · rw [List.take_of_length_le (by omega), List.take_of_length_le (by omega)]

end Terminated

end Toastium
