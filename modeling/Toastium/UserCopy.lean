import Toastium.FileRead

/-!
# Copies from and to user memory

`kernel_read_user` and `kernel_write_user` of `user_accses.c`. Both check the range and call
`arch_copy_user`, which copies byte by byte. A page fault at a byte of the user is not resolved :
its handler skips the instruction and leaves 1 in the register of the response, so the copy ends
after that byte. If it was the load that was skipped, the byte that is stored is what was in the
temporary register.

`kernel_write_user` adds the destination to itself where `kernel_read_user` adds the size to the
source, so it refuses address 0 and the addresses from `2 ^ 63` on (`writeUserRefused_iff`). A
write that is not refused, to pages that can be written, copies all bytes (`copyToUser_eq`).
-/

namespace Toastium

/-- The memory of a process, as the kernel reaches it. `vma_replace_section` maps no user page
from `0x4000000000` on. -/
structure UserMemory where
  byte : ℕ → BitVec 8
  readable : ℕ → Bool
  writable : ℕ → Bool
  mapped_lt : ∀ a, readable a = true ∨ writable a = true → a < 0x4000000000

/-- The memory with other bytes. -/
def UserMemory.withBytes (u : UserMemory) (g : ℕ → BitVec 8) : UserMemory :=
  { u with byte := g }

@[simp] theorem UserMemory.byte_withBytes (u : UserMemory) (g : ℕ → BitVec 8) :
    (u.withBytes g).byte = g := rfl

/-! ## The code -/

/-- `arch_copy_user` from user memory : `n` bytes from `src` on to `dest`, from its cell `i` on.
`t2` is the temporary register. Returns whether the response is 0. -/
def copyFromUser (u : UserMemory) (dest : ℕ) : ℕ → ℕ → ℕ → BitVec 8 → Heap (BitVec 8) →
    Except (Fault Panic) (Bool × Heap (BitVec 8))
  | 0, _, _, _, h => .ok (true, h)
  | n + 1, src, i, t2, h =>
    if u.readable src then do
      let h ← h.store dest i (u.byte src)
      copyFromUser u dest n (src + 1) (i + 1) (u.byte src) h
    else do
      let h ← h.store dest i t2
      return (false, h)

/-- `arch_copy_user` to user memory : `n` bytes of `src`, from its cell `i` on, to `dest`. -/
def copyToUser (h : Heap (BitVec 8)) (src : ℕ) : ℕ → ℕ → ℕ → UserMemory →
    Except (Fault Panic) (Bool × UserMemory)
  | 0, _, _, u => .ok (true, u)
  | n + 1, i, dest, u => do
    let b ← h.load src i
    if u.writable dest then
      copyToUser h src n (i + 1) (dest + 1) (u.withBytes (Function.update u.byte dest b))
    else return (false, u)

/-- The check of `kernel_read_user`. -/
def readUserRefused (src size : BitVec 64) : Prop :=
  src.toNat ≥ kernelVmaStart ∨ (src + size).toNat ≥ kernelVmaStart ∨
    (src + size).toNat ≤ src.toNat

/-- The check of `kernel_write_user`. -/
def writeUserRefused (dest size : BitVec 64) : Prop :=
  dest.toNat ≥ kernelVmaStart ∨ (dest + size).toNat ≥ kernelVmaStart ∨
    (dest + dest).toNat ≤ dest.toNat

instance (src size : BitVec 64) : Decidable (readUserRefused src size) :=
  inferInstanceAs (Decidable (_ ∨ _ ∨ _))

instance (dest size : BitVec 64) : Decidable (writeUserRefused dest size) :=
  inferInstanceAs (Decidable (_ ∨ _ ∨ _))

/-! ## The checks -/

/-- What `kernel_write_user` refuses of the ranges below the user's limit : the address 0. -/
theorem writeUserRefused_iff {dest size : BitVec 64}
    (h : dest.toNat + size.toNat ≤ 0x4000000000) : writeUserRefused dest size ↔ dest = 0 := by
  unfold writeUserRefused kernelVmaStart
  rw [BitVec.toNat_add, BitVec.toNat_add, ← BitVec.toNat_inj]
  change _ ↔ dest.toNat = 0
  omega

/-- A range that `kernel_read_user` does not refuse ends below the kernel. -/
theorem lt_of_not_readUserRefused {src size : BitVec 64} (h : ¬readUserRefused src size) :
    src.toNat + size.toNat < kernelVmaStart := by
  unfold readUserRefused kernelVmaStart at *
  rw [BitVec.toNat_add] at h
  have := size.isLt
  omega

/-! ## The copies -/

/-- A copy to the user's pages that can be written. -/
theorem copyToUser_eq {h : Heap (BitVec 8)} {src : ℕ} : ∀ (n i dest : ℕ) {u : UserMemory},
    i + n ≤ h.len src → (∀ k < n, u.writable (dest + k) = true) →
    copyToUser h src n i dest u =
      .ok (true, u.withBytes (patch (slice (h.cell src) i n) dest u.byte))
  | 0, i, dest, u, _, _ => by
    rw [copyToUser, slice_zero, patch_nil]
    rfl
  | n + 1, i, dest, u, hlen, hw => by
    have hfirst : u.writable dest = true := hw 0 (Nat.succ_pos n)
    rw [copyToUser, Heap.load_eq_ok (by omega), ok_bind, if_pos hfirst,
      copyToUser_eq n (i + 1) (dest + 1) (by omega) fun k hk => ?_]
    · rw [slice_succ, patch_cons]
      rfl
    · have := hw (k + 1) (by omega)
      rwa [show dest + (k + 1) = dest + 1 + k by omega] at this

/-- A copy to the user reads what it is told to. -/
theorem copyToUser_within {h : Heap (BitVec 8)} {src b : ℕ} : ∀ (n i dest : ℕ) {u : UserMemory},
    i + n ≤ b → ErrorWithin b (copyToUser h src n i dest u)
  | 0, i, dest, u, _ => ErrorWithin.ok _
  | n + 1, i, dest, u, hb => by
    refine (ErrorWithin.load h src (by omega)).bind fun v _ => ?_
    split_ifs
    · exact copyToUser_within n (i + 1) (dest + 1) (by omega)
    · exact ErrorWithin.ok _

/-- A copy from the user writes what it is told to, and no objects come or go. -/
theorem copyFromUser_within {u : UserMemory} {dest b : ℕ} : ∀ (n src i : ℕ) (t2 : BitVec 8)
    {h : Heap (BitVec 8)}, i + n ≤ b → ErrorWithin b (copyFromUser u dest n src i t2 h)
  | 0, src, i, t2, h, _ => ErrorWithin.ok _
  | n + 1, src, i, t2, h, hb => by
    unfold copyFromUser
    split_ifs
    · exact (ErrorWithin.store h dest _ (by omega)).bind fun h' _ =>
        copyFromUser_within n (src + 1) (i + 1) _ (by omega)
    · exact (ErrorWithin.store h dest _ (by omega)).bind fun h' _ => ErrorWithin.ok _

theorem copyFromUser_objs {u : UserMemory} {dest : ℕ} : ∀ (n src i : ℕ) (t2 : BitVec 8)
    {h h' : Heap (BitVec 8)} {b : Bool}, copyFromUser u dest n src i t2 h = .ok (b, h') →
    h'.objs = h.objs
  | 0, src, i, t2, h, h', b, hrun => by
    cases hrun
    rfl
  | n + 1, src, i, t2, h, h', b, hrun => by
    have hstore : ∀ {v : BitVec 8} {h₁ : Heap (BitVec 8)},
        (h.store dest i v : Except (Fault Panic) _) = .ok h₁ → h₁.objs = h.objs := fun hs => by
      unfold Heap.store at hs
      split_ifs at hs
      cases hs
      rfl
    unfold copyFromUser at hrun
    split_ifs at hrun
    · obtain ⟨h₁, hs, hrun⟩ := bind_eq_ok.mp hrun
      exact (copyFromUser_objs n _ _ _ hrun).trans (hstore hs)
    · obtain ⟨h₁, hs, hrun⟩ := bind_eq_ok.mp hrun
      cases hrun
      exact hstore hs

end Toastium
