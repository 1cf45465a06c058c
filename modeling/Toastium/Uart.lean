import Toastium.Strings

/-!
# Numbers on the UART

`uart_print_u64` and `uart_print_s64` of `uart.c`. The digits of a number are written to a buffer
from its end on, until the rest of the number is 0, and are then looked up in a table and sent. What
is sent is a list of bytes : the wait of `uart_16550_output_u8` for the chip is not modelled.

`uart_print_iff` : the decimal representation is sent, of every `u64`, and of every `s64` that is
not the least one. That one is its own negation, so its remainders are negative and are no indices
of the table.
-/

namespace Toastium

/-! ## The code -/

/-- `uart_print_char`, as the bytes sent. -/
def uartPrintChar (c : BitVec 8) : List (BitVec 8) :=
  if c = 10 then [c, 13] else [c]

/-- `hex_list`, with the zero at its end. -/
def hexList : List (BitVec 8) :=
  bytesOf ['0', '1', '2', '3', '4', '5', '6', '7', '8', '9'] ++ [0]

/-- What was sent, and the indices at which the table was read. -/
structure UartRun where
  sent : List (BitVec 8)
  looked : List ℕ
  deriving DecidableEq, Repr

/-- `digits[i] = digit`, for a buffer of 20 digits. -/
def storeDigit (digits : ℕ → BitVec 8) (i : ℕ) (digit : BitVec 8) :
    Except (Fault Panic) (ℕ → BitVec 8) :=
  if i < 20 then .ok (Function.update digits i digit) else .error (.wild 0 i)

/-- `hex_list[i]`. -/
def lookDigit (i : ℕ) : Except (Fault Panic) (BitVec 8) :=
  match hexList[i]? with
  | some c => .ok c
  | none => .error (.wild 0 i)

/-- The loop that writes the digits, down from index `i - 1`, with the remainder and the quotient by
ten of the type of the number. Returns `bottom` and the buffer. -/
def writeDigits (rem quot : BitVec 64 → BitVec 64) :
    ℕ → BitVec 64 → (ℕ → BitVec 8) → Except (Fault Panic) (ℕ × (ℕ → BitVec 8))
  | 0, _, digits => .ok (0, digits)
  | i + 1, num, digits => do
    let digit := (rem num).setWidth 8
    let digits ← storeDigit digits i digit
    let num := quot num
    if num = 0 then return (i, digits)
    writeDigits rem quot i num digits

/-- The loop that sends the digits, `n` of them from index `i` on. -/
def sendDigits (digits : ℕ → BitVec 8) : ℕ → ℕ → UartRun → Except (Fault Panic) UartRun
  | 0, _, out => .ok out
  | n + 1, i, out => do
    let idx := (digits i).toNat
    let c ← lookDigit idx
    sendDigits digits n (i + 1) ⟨out.sent ++ uartPrintChar c, out.looked ++ [idx]⟩

/-- The digits of a number, written and sent. -/
def printDigits (rem quot : BitVec 64 → BitVec 64) (num : BitVec 64) (out : UartRun) :
    Except (Fault Panic) UartRun := do
  let (bottom, digits) ← writeDigits rem quot 20 num fun _ => 0
  sendDigits digits (20 - bottom) bottom out

/-- `uart_print_u64`. -/
def uartPrintU64 (num : BitVec 64) : Except (Fault Panic) UartRun :=
  printDigits (· % 10) (· / 10) num ⟨[], []⟩

/-- `uart_print_s64`. The negation wraps. -/
def uartPrintS64 (num : BitVec 64) : Except (Fault Panic) UartRun :=
  if num.toInt < 0 then
    printDigits (BitVec.srem · 10) (BitVec.sdiv · 10) (-num) ⟨uartPrintChar 45, []⟩
  else printDigits (BitVec.srem · 10) (BitVec.sdiv · 10) num ⟨[], []⟩

/-! ## Decimal numbers -/

/-- The decimal representation of a number. -/
def decimal (z : ℤ) : List (BitVec 8) :=
  bytesOf (toString z).toList

/-- The decimal representation was sent, and the table was read at its ten digits only. A write that
is not to the buffer ends without a result. -/
def PrintsDecimal (z : ℤ) (r : Except (Fault Panic) UartRun) : Prop :=
  ∃ out, r = .ok out ∧ out.sent = decimal z ∧ ∀ i ∈ out.looked, i < 10

theorem decimal_natCast (n : ℕ) : decimal n = bytesOf (Nat.toDigits 10 n) := by
  have htoString : (toString (n : ℤ)).toList = Nat.toDigits 10 n := by
    change (Nat.repr n).toList = _
    rw [Nat.repr, String.toList_ofList]
  rw [decimal, htoString]

theorem decimal_neg {n : ℕ} (hn : 0 < n) :
    decimal (-n) = uartPrintChar 45 ++ bytesOf (Nat.toDigits 10 n) := by
  obtain ⟨k, rfl⟩ := Nat.exists_eq_succ_of_ne_zero hn.ne'
  have htoString : (toString (-((k + 1 : ℕ) : ℤ))).toList = '-' :: Nat.toDigits 10 (k + 1) := by
    change ("-" ++ Nat.repr (k + 1)).toList = _
    rw [String.toList_append, Nat.repr, String.toList_ofList, String.toList_ofList]
    rfl
  rw [decimal, htoString]
  rfl

/-! ## The loops -/

/-- Remainder and quotient by ten as those of natural numbers, on numbers that the quotient does not
lead out of. -/
structure DividesByTen (Good : BitVec 64 → Prop) (rem quot : BitVec 64 → BitVec 64) : Prop where
  rem_eq : ∀ {x}, Good x → (rem x).toNat = x.toNat % 10
  quot_eq : ∀ {x}, Good x → (quot x).toNat = x.toNat / 10
  good : ∀ {x}, Good x → Good (quot x)

theorem dividesByTen_unsigned : DividesByTen (fun _ => True) (· % 10) (· / 10) where
  rem_eq _ := BitVec.toNat_umod
  quot_eq _ := BitVec.toNat_udiv
  good _ := trivial

theorem dividesByTen_signed :
    DividesByTen (fun x => x.msb = false) (BitVec.srem · 10) (BitVec.sdiv · 10) where
  rem_eq h := by
    rw [BitVec.srem_eq, h]
    exact BitVec.toNat_umod
  quot_eq h := by
    rw [BitVec.sdiv_eq, h]
    exact BitVec.toNat_udiv
  good {x} h := by
    have hx : x.toNat < 2 ^ 63 := by
      have := BitVec.msb_eq_false_iff_two_mul_lt.mp h
      omega
    have hquot : (x.sdiv 10).toNat = x.toNat / 10 := by
      rw [BitVec.sdiv_eq, h]
      exact BitVec.toNat_udiv
    rw [BitVec.msb_eq_false_iff_two_mul_lt, hquot]
    omega

theorem DividesByTen.quot_eq_zero_iff {Good : BitVec 64 → Prop} {rem quot : BitVec 64 → BitVec 64}
    (h : DividesByTen Good rem quot) {x : BitVec 64} (hx : Good x) :
    quot x = 0 ↔ x.toNat < 10 := by
  rw [← BitVec.toNat_inj, h.quot_eq hx, show (0 : BitVec 64).toNat = 0 from rfl]
  omega

/-- The digits from `bottom` to `i` are those of `n`. -/
structure DigitsOf (n bottom i : ℕ) (digits : ℕ → BitVec 8) : Prop where
  lt : bottom < i
  digit : ∀ j, bottom ≤ j → j < i → (digits j).toNat < 10
  eq : (List.range' bottom (i - bottom)).map (fun j => (digits j).toNat.digitChar) =
    Nat.toDigits 10 n

/-- A number of one digit. -/
theorem DigitsOf.single {n i : ℕ} {digits : ℕ → BitVec 8} (hn : n < 10)
    (hdigit : (digits i).toNat = n) : DigitsOf n i (i + 1) digits := by
  refine ⟨Nat.lt_succ_self i, fun j hj hji => ?_, ?_⟩
  · obtain rfl : j = i := by omega
    rwa [hdigit]
  · rw [Nat.add_sub_cancel_left, List.range'_one, List.map_singleton, hdigit,
      Nat.toDigits_of_lt_base hn]

/-- The lowest digit behind those of the rest. -/
theorem DigitsOf.succ {n bottom i : ℕ} {digits : ℕ → BitVec 8}
    (h : DigitsOf (n / 10) bottom i digits) (hn : 10 ≤ n) (hdigit : (digits i).toNat = n % 10) :
    DigitsOf n bottom (i + 1) digits := by
  have hlt := h.lt
  refine ⟨hlt.trans (Nat.lt_succ_self i), fun j hj hji => ?_, ?_⟩
  · rcases Nat.lt_succ_iff_lt_or_eq.mp hji with hji | rfl
    · exact h.digit j hj hji
    · rw [hdigit]
      exact Nat.mod_lt n (by decide)
  · rw [Nat.succ_sub hlt.le, List.range'_1_concat, List.map_append, h.eq, List.map_singleton,
      Nat.add_sub_cancel' hlt.le, hdigit, ← Nat.toDigits_of_base_le (by decide) hn]

section Loops

variable {Good : BitVec 64 → Prop} {rem quot : BitVec 64 → BitVec 64}

theorem writeDigits_succ {i : ℕ} (hi : i < 20) (num : BitVec 64) (digits : ℕ → BitVec 8) :
    writeDigits rem quot (i + 1) num digits =
      if quot num = 0 then .ok (i, Function.update digits i ((rem num).setWidth 8))
      else writeDigits rem quot i (quot num) (Function.update digits i ((rem num).setWidth 8)) := by
  rw [writeDigits, storeDigit, if_pos hi]
  rfl

/-- The digits of a number that fits are written, and the buffer behind them is left alone. -/
theorem writeDigits_eq (hdiv : DividesByTen Good rem quot) : ∀ {i : ℕ} {num : BitVec 64}
    {digits : ℕ → BitVec 8}, Good num → i < 20 → num.toNat < 10 ^ (i + 1) →
      ∃ bottom digits', writeDigits rem quot (i + 1) num digits = .ok (bottom, digits') ∧
        DigitsOf num.toNat bottom (i + 1) digits' ∧ ∀ j, i < j → digits' j = digits j
  | i, num, digits, hgood, hi, hnum => by
    have hdigit : ((rem num).setWidth 8).toNat = num.toNat % 10 := by
      rw [BitVec.toNat_setWidth, hdiv.rem_eq hgood]
      omega
    have hquot := hdiv.quot_eq hgood
    have hkept : ∀ j, i < j →
        Function.update digits i ((rem num).setWidth 8) j = digits j := fun j hj =>
      Function.update_of_ne hj.ne' _ _
    rw [writeDigits_succ hi]
    by_cases hzero : quot num = 0
    · have hlt := (hdiv.quot_eq_zero_iff hgood).mp hzero
      rw [if_pos hzero]
      refine ⟨_, _, rfl, .single hlt ?_, hkept⟩
      rw [Function.update_self, hdigit, Nat.mod_eq_of_lt hlt]
    · have hge := Nat.not_lt.mp ((hdiv.quot_eq_zero_iff hgood).not.mp hzero)
      rw [if_neg hzero]
      cases i with
      | zero => omega
      | succ i =>
        have hfits : (quot num).toNat < 10 ^ (i + 1) := by
          rw [hquot]
          rw [pow_succ] at hnum
          omega
        obtain ⟨bottom, digits', hrun, hdigits, hsame⟩ := @writeDigits_eq hdiv i (quot num)
          (Function.update digits (i + 1) ((rem num).setWidth 8)) (hdiv.good hgood)
          (Nat.lt_of_succ_lt hi) hfits
        rw [hquot] at hdigits
        refine ⟨bottom, digits', hrun, hdigits.succ hge ?_, fun j hj => ?_⟩
        · rw [hsame (i + 1) (Nat.lt_succ_self i), Function.update_self, hdigit]
        · rw [hsame j (Nat.lt_of_succ_lt hj), hkept j hj]

/-- A digit is looked up and sent. -/
theorem lookDigit_eq : ∀ d < 10, lookDigit d = .ok (BitVec.ofNat 8 d.digitChar.toNat) ∧
    uartPrintChar (BitVec.ofNat 8 d.digitChar.toNat) = [BitVec.ofNat 8 d.digitChar.toNat] := by
  decide

theorem sendDigits_eq {digits : ℕ → BitVec 8} : ∀ {n i : ℕ} {out : UartRun},
    (∀ j, i ≤ j → j < i + n → (digits j).toNat < 10) → sendDigits digits n i out =
      .ok ⟨out.sent ++ bytesOf ((List.range' i n).map fun j => (digits j).toNat.digitChar),
        out.looked ++ (List.range' i n).map fun j => (digits j).toNat⟩
  | 0, i, out, _ => by
    rw [sendDigits, List.range'_zero]
    simp [bytesOf]
  | n + 1, i, out, h => by
    obtain ⟨hlook, hchar⟩ := lookDigit_eq _ (h i le_rfl (by omega))
    rw [sendDigits, hlook, ok_bind, sendDigits_eq fun j hj hlt => h j (by omega) (by omega), hchar]
    simp [bytesOf, List.range'_succ]

/-- The digits of a number are sent after what was sent before. -/
theorem printDigits_eq (hdiv : DividesByTen Good rem quot) {num : BitVec 64} (hgood : Good num)
    (sent : List (BitVec 8)) : ∃ out, printDigits rem quot num ⟨sent, []⟩ = .ok out ∧
      out.sent = sent ++ bytesOf (Nat.toDigits 10 num.toNat) ∧ ∀ i ∈ out.looked, i < 10 := by
  have hnum : num.toNat < 10 ^ (19 + 1) := num.isLt.trans (by decide)
  obtain ⟨bottom, digits, hwrite, hdigits, -⟩ :=
    @writeDigits_eq Good rem quot hdiv 19 num (fun _ => 0) hgood (by decide) hnum
  have hlt := hdigits.lt
  have hdigit : ∀ j, bottom ≤ j → j < bottom + (20 - bottom) → (digits j).toNat < 10 :=
    fun j hj hji => hdigits.digit j hj (by omega)
  rw [printDigits, hwrite, ok_bind]
  refine ⟨_, sendDigits_eq hdigit, ?_, fun i hi => ?_⟩
  · rw [hdigits.eq]
  · obtain ⟨j, hj, rfl⟩ := List.mem_map.mp hi
    obtain ⟨hle, hji⟩ := List.mem_range'_1.mp hj
    exact hdigit j hle hji

end Loops

/-! ## The numbers -/

theorem uartPrintU64_decimal (num : BitVec 64) : PrintsDecimal num.toNat (uartPrintU64 num) := by
  obtain ⟨out, hrun, hsent, hlooked⟩ := @printDigits_eq _ _ _ dividesByTen_unsigned num trivial []
  refine ⟨out, hrun, ?_, hlooked⟩
  rw [hsent, decimal_natCast, List.nil_append]

theorem toInt_neg_iff {num : BitVec 64} : num.toInt < 0 ↔ 2 ^ 63 ≤ num.toNat := by
  have := num.isLt
  rw [BitVec.toInt_eq_toNat_cond]
  split_ifs <;> omega

/-- The negation of a number that is not the least one. -/
theorem neg_of_ne_intMin {num : BitVec 64} (hneg : num.toInt < 0) (hnum : num ≠ BitVec.intMin 64) :
    (-num).msb = false ∧ 0 < (-num).toNat ∧ num.toInt = -((-num).toNat : ℤ) := by
  have hlt := num.isLt
  have hle := toInt_neg_iff.mp hneg
  have hne : num.toNat ≠ 2 ^ 63 := fun h => hnum (BitVec.eq_of_toNat_eq h)
  have htoNat : (-num).toNat = 2 ^ 64 - num.toNat := by
    rw [BitVec.toNat_neg, Nat.mod_eq_of_lt (by omega)]
  have htoInt : num.toInt = num.toNat - (2 ^ 64 : ℕ) := by
    rw [BitVec.toInt_eq_toNat_cond, if_neg (by omega)]
  rw [BitVec.msb_eq_false_iff_two_mul_lt, htoNat, htoInt]
  refine ⟨by omega, by omega, by omega⟩

theorem uartPrintS64_decimal {num : BitVec 64} (hnum : num ≠ BitVec.intMin 64) :
    PrintsDecimal num.toInt (uartPrintS64 num) := by
  unfold uartPrintS64
  split_ifs with hneg
  · obtain ⟨hmsb, hpos, htoInt⟩ := neg_of_ne_intMin hneg hnum
    obtain ⟨out, hrun, hsent, hlooked⟩ := printDigits_eq dividesByTen_signed hmsb (uartPrintChar 45)
    refine ⟨out, hrun, ?_, hlooked⟩
    rw [hsent, htoInt, decimal_neg hpos]
  · have hlt : num.toNat < 2 ^ 63 := Nat.not_le.mp (toInt_neg_iff.not.mp hneg)
    have hmsb : num.msb = false := by
      rw [BitVec.msb_eq_false_iff_two_mul_lt]
      omega
    obtain ⟨out, hrun, hsent, hlooked⟩ := printDigits_eq dividesByTen_signed hmsb []
    refine ⟨out, hrun, ?_, hlooked⟩
    rw [hsent, BitVec.toInt_eq_toNat_of_msb hmsb, decimal_natCast, List.nil_append]

/-- The least number is its own negation, and its first digit is 247. -/
theorem uartPrintS64_intMin : uartPrintS64 (BitVec.intMin 64) = .error (.wild 0 247) := by
  rfl

/-- The decimal representation is sent of every `u64`, and of every `s64` but the least. -/
theorem uart_print_iff (num : BitVec 64) : PrintsDecimal num.toNat (uartPrintU64 num) ∧
    (PrintsDecimal num.toInt (uartPrintS64 num) ↔ num ≠ BitVec.intMin 64) := by
  refine ⟨uartPrintU64_decimal num, fun h hmin => ?_, uartPrintS64_decimal⟩
  rw [hmin, uartPrintS64_intMin] at h
  obtain ⟨out, hout, -⟩ := h
  cases hout

/-- The least number. The table is read behind its end. -/
theorem not_printsDecimal_intMin :
    ¬PrintsDecimal (BitVec.intMin 64).toInt (uartPrintS64 (BitVec.intMin 64)) := by
  rw [uartPrintS64_intMin]
  rintro ⟨out, hout, -⟩
  cases hout

end Toastium
