import Toastium.ElfParser

/-!
# The conversions of byte orders

The six functions of `endian.c` take a word in the order of the machine, loaded from data in a given
order, to the number the data stands for. `init_endian_conversion` finds the order of the machine.

`endian_converts` : on a machine of either order each of them gives the number of the bytes, of
every width, and `big_endian_u32_to_host` agrees with `dtb_read_int`, which puts the four bytes
together itself.
-/

namespace Toastium

namespace Endian

/-! ## The code -/

variable (endianType : ByteOrder)

/-- `big_endian_u64_to_host`. -/
def bigEndianU64ToHost := convert flipU64 endianType .big

/-- `little_endian_u64_to_host`. -/
def littleEndianU64ToHost := convert flipU64 endianType .little

/-- `big_endian_u32_to_host`. -/
def bigEndianU32ToHost := convert flipU32 endianType .big

/-- `little_endian_u32_to_host`. -/
def littleEndianU32ToHost := convert flipU32 endianType .little

/-- `big_endian_u16_to_host`. -/
def bigEndianU16ToHost := convert flipU16 endianType .big

/-- `little_endian_u16_to_host`. -/
def littleEndianU16ToHost := convert flipU16 endianType .little

/-- On a little-endian machine. -/
theorem bigEndianU64ToHost_little :
    bigEndianU64ToHost (initEndianConversion .little) = Toastium.bigEndianU64ToHost := rfl

end Endian

/-! ## The conversions -/

/-- Four bytes, the highest first. -/
theorem dtbReadInt_eq_nat (mem : ℕ → BitVec 8) (p : ℕ) :
    dtbReadInt mem p = ByteOrder.big.nat (slice mem p 4) := by
  rw [dtbReadInt_eq]
  change _ = Nat.ofDigits 256 [(mem (p + 3)).toNat, (mem (p + 2)).toNat, (mem (p + 1)).toNat,
    (mem p).toNat]
  simp only [Nat.ofDigits_cons, Nat.ofDigits_nil]
  ring

/-- The function takes a word loaded by the machine to the number of the `n` bytes in an order. -/
def Converts {w : ℕ} (machine : ByteOrder) (n : ℕ) (order : ByteOrder)
    (toHost : BitVec w → BitVec w) : Prop :=
  ∀ bytes : List (BitVec 8), bytes.length = n →
    (toHost (machine.word w bytes)).toNat = order.nat bytes

/-- A conversion with a function that flips the bytes of its width. -/
theorem converts_convert {w n : ℕ} {flip : BitVec w → BitVec w} (hflip : FlipsBytes n flip)
    (hw : w = 8 * n) (machine order : ByteOrder) :
    Converts machine n order (convert flip (initEndianConversion machine) order) := by
  intro bytes hlen
  rw [initEndianConversion_eq, convert_word hflip hw machine order hlen,
    ByteOrder.toNat_word order (hlen ▸ hw)]

/-- On a machine of either order the conversions give the numbers of the bytes, and the reader of
the device tree agrees with the one of its width. -/
theorem endian_converts (machine : ByteOrder) :
    (Converts machine 2 .big (Endian.bigEndianU16ToHost (initEndianConversion machine)) ∧
      Converts machine 2 .little (Endian.littleEndianU16ToHost (initEndianConversion machine))) ∧
    (Converts machine 4 .big (Endian.bigEndianU32ToHost (initEndianConversion machine)) ∧
      Converts machine 4 .little (Endian.littleEndianU32ToHost (initEndianConversion machine))) ∧
    (Converts machine 8 .big (Endian.bigEndianU64ToHost (initEndianConversion machine)) ∧
      Converts machine 8 .little (Endian.littleEndianU64ToHost (initEndianConversion machine))) ∧
    ∀ mem p, dtbReadInt mem p = (Endian.bigEndianU32ToHost (initEndianConversion machine)
      (machine.word 32 (slice mem p 4))).toNat :=
  have hbig : Converts machine 4 .big (Endian.bigEndianU32ToHost (initEndianConversion machine)) :=
    converts_convert flipsBytes_flipU32 rfl machine .big
  ⟨⟨converts_convert flipsBytes_flipU16 rfl machine .big,
      converts_convert flipsBytes_flipU16 rfl machine .little⟩,
    ⟨hbig, converts_convert flipsBytes_flipU32 rfl machine .little⟩,
    ⟨converts_convert flipsBytes_flipU64 rfl machine .big,
      converts_convert flipsBytes_flipU64 rfl machine .little⟩,
    fun mem p => (dtbReadInt_eq_nat mem p).trans (hbig _ length_slice).symm⟩

end Toastium
