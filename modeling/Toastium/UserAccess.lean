import Toastium.FsRead
import Toastium.TrapHandlers

/-!
# Page faults in copies of user memory

`arch_copy_user` by its instructions (`archCopyUser`, `copyStep`). A page fault of one of them is
handled by `handle_async_trap`, nested in the handler that copies : it is not resolved, so the
response is set to 1 and the instruction is skipped (`handleAsyncTrap_nested`). The copies of
`UserCopy` are what the instructions do, and the addresses of the user that they access are
`copyAccesses` (`kernelReadUser_instructions`, `kernelWriteUser_instructions`).

`user_range_iff` : for which ranges the checks of `kernel_read_user` and `kernel_write_user` are
right. `kernelReadUser_exact_iff` : when a read that faults leaves the rest of the buffer alone.
A load that is skipped leaves the byte before it in the register, and it is stored.
-/

namespace Toastium

/-! ## The code -/

/-- The instructions of `arch_copy_user`. -/
inductive CopyInstr
  /-- `mv t0, a0` -/
  | mv
  /-- `li a0, 0x0` -/
  | li
  /-- `j copy_byte` -/
  | j
  /-- `bgt a0, zero, return_response` -/
  | bgt
  /-- `beq a1, zero, return_response` -/
  | beq
  /-- `lb t2, 0(t0)` -/
  | lb
  /-- `sb t2, 0(a2)` -/
  | sb
  /-- `addi t0, t0, 1` -/
  | nextSrc
  /-- `addi a2, a2, 1` -/
  | nextDest
  /-- `addi a1, a1, -1` -/
  | decSize
  | ret

/-- `arch_copy_user`. -/
def archCopyUser : List CopyInstr :=
  [.mv, .li, .j, .bgt, .beq, .lb, .sb, .nextSrc, .nextDest, .decSize, .j, .ret]

/-- The label `copy_byte`. -/
def copyByte : ℕ := 3

/-- The label `return_response`. -/
def returnResponse : ℕ := 11

/-- The registers, of `t2` the byte that `sb` stores, and the memory. `pc` counts instructions. -/
structure CopyState (μ : Type) where
  pc : ℕ
  a0 : BitVec 64
  a1 : BitVec 64
  a2 : BitVec 64
  t0 : BitVec 64
  t2 : BitVec 8
  mem : μ

/-- The accesses to memory. A load returns no byte, and a store `false`, on a page fault. -/
structure CopyMemory (μ : Type) where
  load : BitVec 64 → μ → Except (Fault Panic) (Option (BitVec 8) × μ)
  store : BitVec 64 → BitVec 8 → μ → Except (Fault Panic) (Bool × μ)

variable {μ : Type}

/-- The next instruction. -/
def CopyState.next (st : CopyState μ) : CopyState μ :=
  { st with pc := st.pc + 1 }

/-- A page fault, once `handle_async_trap` has returned. A load or store of a byte has 4 bytes. -/
def CopyState.fault (st : CopyState μ) : CopyState μ :=
  { st.next with a0 := 1 }

/-- One instruction. -/
def copyStep (ops : CopyMemory μ) (st : CopyState μ) : Except (Fault Panic) (CopyState μ) :=
  match archCopyUser[st.pc]? with
  | some .mv => .ok { st.next with t0 := st.a0 }
  | some .li => .ok { st.next with a0 := 0 }
  | some .j => .ok { st with pc := copyByte }
  | some .bgt => .ok (if (0#64).slt st.a0 then { st with pc := returnResponse } else st.next)
  | some .beq => .ok (if st.a1 = 0 then { st with pc := returnResponse } else st.next)
  | some .lb => do
    match ← ops.load st.t0 st.mem with
    | (some data, mem) => return { st.next with t2 := data, mem := mem }
    | (none, mem) => return { st.fault with mem := mem }
  | some .sb => do
    match ← ops.store st.a2 st.t2 st.mem with
    | (true, mem) => return { st.next with mem := mem }
    | (false, mem) => return { st.fault with mem := mem }
  | some .nextSrc => .ok { st.next with t0 := st.t0 + 1 }
  | some .nextDest => .ok { st.next with a2 := st.a2 + 1 }
  | some .decSize => .ok { st.next with a1 := st.a1 - 1 }
  | _ => .ok st

/-- The instructions up to the return. -/
def copyRun (ops : CopyMemory μ) : ℕ → CopyState μ → Except (Fault Panic) (CopyState μ)
  | 0, _ => .error .fuel
  | n + 1, st => if st.pc = returnResponse then .ok st else copyStep ops st >>= copyRun ops n

/-- Loads from the user and stores to the buffer at `dest`. The addresses loaded from are kept. -/
def readMemory (u : UserMemory) (dest : ℕ) : CopyMemory (Heap (BitVec 8) × List ℕ) where
  load a mem := .ok (if u.readable a.toNat then some (u.byte a.toNat) else none,
    (mem.1, mem.2 ++ [a.toNat]))
  store a b mem := do
    let h ← mem.1.store dest (a.toNat - dest) b
    return (true, (h, mem.2))

/-- Loads from the buffer at `src` and stores to the user. The addresses stored to are kept. -/
def writeMemory (h : Heap (BitVec 8)) (src : ℕ) : CopyMemory (UserMemory × List ℕ) where
  load a mem := do
    let b ← h.load src (a.toNat - src)
    return (some b, mem)
  store a b mem := .ok (
    if mem.1.writable a.toNat then
      (true, (mem.1.withBytes (Function.update mem.1.byte a.toNat b), mem.2 ++ [a.toNat]))
    else (false, (mem.1, mem.2 ++ [a.toNat])))

/-- The addresses of the user that a copy of `n` bytes accesses, from `a` on. -/
def copyAccesses (mapped : ℕ → Bool) : ℕ → ℕ → List ℕ
  | 0, _ => []
  | n + 1, a => a :: if mapped a then copyAccesses mapped n (a + 1) else []

/-! ## The nested page fault -/

/-- A page fault while user memory is read : the response is 1, and the instruction is skipped. -/
theorem handleAsyncTrap_nested {σ : Type} (svc : SyscallServices σ) (fuel : ℕ) {m : Machine σ}
    (h : NestedFault m) :
    handleAsyncTrap svc fuel m =
      .ok { m with frame := { m.frame with register10 := 1, sepc := m.frame.sepc + 4 } } := by
  obtain ⟨⟨trap, hparse, hcode⟩, hstate, hreading⟩ := h
  simp [handleAsyncTrap, asyncStart, hparse, hstate, asyncEnter, hcode, hreading, asyncTrapSwitch,
    interruptableTrapPageFault, pgfaultLoad, asyncLeave, respond, trapDataSetResponse,
    trapDataIterInstruction]

/-! ## The instructions -/

section Run

variable {ops : CopyMemory μ} {a0 a1 a2 t0 : BitVec 64} {t2 : BitVec 8} {mem : μ}

/-- An instruction before the return. -/
theorem copyRun_step {pc : ℕ} {st : CopyState μ} (n : ℕ) (hpc : pc < 11)
    (h : copyStep ops ⟨pc, a0, a1, a2, t0, t2, mem⟩ = .ok st) :
    copyRun ops (n + 1) ⟨pc, a0, a1, a2, t0, t2, mem⟩ = copyRun ops n st := by
  rw [copyRun, h, ok_bind]
  exact if_neg (Nat.ne_of_lt hpc)

/-- An instruction that does not return. -/
theorem copyRun_error {pc : ℕ} {e : Fault Panic} (n : ℕ) (hpc : pc < 11)
    (h : copyStep ops ⟨pc, a0, a1, a2, t0, t2, mem⟩ = .error e) :
    copyRun ops (n + 1) ⟨pc, a0, a1, a2, t0, t2, mem⟩ = .error e := by
  rw [copyRun, h, error_bind]
  exact if_neg (Nat.ne_of_lt hpc)

theorem copyRun_ret (n : ℕ) : copyRun ops (n + 1) ⟨11, a0, a1, a2, t0, t2, mem⟩ =
    .ok ⟨11, a0, a1, a2, t0, t2, mem⟩ :=
  if_pos rfl

/-- The loop is left when the response is 1. -/
theorem copyRun_failed (n : ℕ) : copyRun ops (n + 2) ⟨3, 1, a1, a2, t0, t2, mem⟩ =
    .ok ⟨11, 1, a1, a2, t0, t2, mem⟩ := by
  rw [copyRun_step _ (by decide) rfl]
  exact copyRun_ret n

/-- The loop is left when no byte is left. -/
theorem copyRun_done (n : ℕ) : copyRun ops (n + 3) ⟨3, 0, 0, a2, t0, t2, mem⟩ =
    .ok ⟨11, 0, 0, a2, t0, t2, mem⟩ := by
  rw [copyRun_step _ (by decide) rfl]
  change copyRun ops (n + 2) ⟨4, 0, 0, a2, t0, t2, mem⟩ = _
  rw [copyRun_step _ (by decide) rfl]
  exact copyRun_ret n

/-- The instructions before the load of a byte. -/
theorem copyRun_enter (n : ℕ) (h : a1 ≠ 0) :
    copyRun ops (n + 2) ⟨3, 0, a1, a2, t0, t2, mem⟩ =
      copyRun ops n ⟨5, 0, a1, a2, t0, t2, mem⟩ := by
  rw [copyRun_step _ (by decide) rfl]
  change copyRun ops (n + 1) ⟨4, 0, a1, a2, t0, t2, mem⟩ = _
  refine copyRun_step _ (by decide) (congrArg Except.ok ?_)
  exact if_neg h

/-- The instructions after the store of a byte. -/
theorem copyRun_advance (n : ℕ) :
    copyRun ops (n + 4) ⟨7, a0, a1, a2, t0, t2, mem⟩ =
      copyRun ops n ⟨3, a0, a1 - 1, a2 + 1, t0 + 1, t2, mem⟩ := by
  rw [copyRun_step _ (by decide) rfl]
  change copyRun ops (n + 3) ⟨8, a0, a1, a2, t0 + 1, t2, mem⟩ = _
  rw [copyRun_step _ (by decide) rfl]
  change copyRun ops (n + 2) ⟨9, a0, a1, a2 + 1, t0 + 1, t2, mem⟩ = _
  rw [copyRun_step _ (by decide) rfl]
  change copyRun ops (n + 1) ⟨10, a0, a1 - 1, a2 + 1, t0 + 1, t2, mem⟩ = _
  exact copyRun_step _ (by decide) rfl

end Run

/-- What a run returns : whether the response is 0, and the memory. -/
def copyResult (run : Except (Fault Panic) (CopyState μ)) : Except (Fault Panic) (Bool × μ) :=
  run.map fun st => (decide (st.a0 = 0), st.mem)

theorem ofNat_succ (n : ℕ) : BitVec.ofNat 64 (n + 1) = BitVec.ofNat 64 n + 1 :=
  BitVec.ofNat_add n 1

theorem toNat_ofNat_lt {n : ℕ} (h : n < 2 ^ 64) : (BitVec.ofNat 64 n).toNat = n := by
  rw [BitVec.toNat_ofNat, Nat.mod_eq_of_lt h]

theorem ofNat_succ_ne_zero {n : ℕ} (h : n + 1 < 2 ^ 64) : BitVec.ofNat 64 (n + 1) ≠ 0 := by
  intro h0
  have := congrArg BitVec.toNat h0
  rw [toNat_ofNat_lt h] at this
  exact Nat.succ_ne_zero n this

section Read

variable {u : UserMemory} {dest : ℕ}

/-- `lb` of a byte of the user that can be read. -/
theorem copyStep_read {a1 a2 src : BitVec 64} {t2 : BitVec 8} {h : Heap (BitVec 8)} {log : List ℕ}
    (hr : u.readable src.toNat = true) :
    copyStep (readMemory u dest) ⟨5, 0, a1, a2, src, t2, (h, log)⟩ =
      .ok ⟨6, 0, a1, a2, src, u.byte src.toNat, (h, log ++ [src.toNat])⟩ := by
  simp [copyStep, archCopyUser, readMemory, hr, CopyState.next]

/-- `lb` of a byte of the user that faults. -/
theorem copyStep_readFault {a1 a2 src : BitVec 64} {t2 : BitVec 8} {h : Heap (BitVec 8)}
    {log : List ℕ} (hr : ¬u.readable src.toNat = true) :
    copyStep (readMemory u dest) ⟨5, 0, a1, a2, src, t2, (h, log)⟩ =
      .ok ⟨6, 1, a1, a2, src, t2, (h, log ++ [src.toNat])⟩ := by
  simp [copyStep, archCopyUser, readMemory, hr, CopyState.next, CopyState.fault]

/-- `sb` to the buffer. -/
theorem copyStep_put {a0 a1 src : BitVec 64} {t2 : BitVec 8} {h : Heap (BitVec 8)} {log : List ℕ}
    {i : ℕ} (hi : dest + i < 2 ^ 64) :
    copyStep (readMemory u dest) ⟨6, a0, a1, BitVec.ofNat 64 (dest + i), src, t2, (h, log)⟩ =
      (h.store dest i t2).map fun h =>
        ⟨7, a0, a1, BitVec.ofNat 64 (dest + i), src, t2, (h, log)⟩ := by
  have hsub : (BitVec.ofNat 64 (dest + i)).toNat - dest = i := by
    rw [toNat_ofNat_lt hi, Nat.add_sub_cancel_left]
  simp only [copyStep, archCopyUser, readMemory, hsub]
  cases h.store dest i t2 <;> rfl

/-- The instructions copy from the user what `copyFromUser` does. -/
theorem copyRun_read (k : ℕ) : ∀ (n src i : ℕ) (t2 : BitVec 8) (h : Heap (BitVec 8))
    (log : List ℕ), src + n ≤ 2 ^ 64 → dest + i + n ≤ 2 ^ 64 → n < 2 ^ 64 →
    copyResult (copyRun (readMemory u dest) (8 * n + (k + 3))
      ⟨3, 0, BitVec.ofNat 64 n, BitVec.ofNat 64 (dest + i), BitVec.ofNat 64 src, t2, (h, log)⟩) =
      (copyFromUser u dest n src i t2 h).map fun r =>
        (r.1, (r.2, log ++ copyAccesses u.readable n src))
  | 0, src, i, t2, h, log, _, _, _ => by
    rw [Nat.mul_zero, Nat.zero_add]
    change copyResult (copyRun _ (k + 3) ⟨3, 0, 0, _, _, _, _⟩) = _
    rw [copyRun_done, copyFromUser, copyAccesses, List.append_nil]
    rfl
  | n + 1, src, i, t2, h, log, hsrc, hdest, hn => by
    have hsrc' : (BitVec.ofNat 64 src).toNat = src := toNat_ofNat_lt (by omega)
    have hfuel : 8 * (n + 1) + (k + 3) = 8 * n + (k + 3) + 4 + 1 + 1 + 2 := by omega
    rw [hfuel, copyRun_enter _ (ofNat_succ_ne_zero hn), copyFromUser, copyAccesses]
    -- the instructions after the load, with the response `a0` and the byte `b`
    have hstore : ∀ (a0 : BitVec 64) (b : BitVec 8),
        copyRun (readMemory u dest) (8 * n + (k + 3) + 4 + 1) ⟨6, a0, BitVec.ofNat 64 (n + 1),
          BitVec.ofNat 64 (dest + i), BitVec.ofNat 64 src, b, (h, log ++ [src])⟩ =
        h.store dest i b >>= fun h1 => copyRun (readMemory u dest) (8 * n + (k + 3))
          ⟨3, a0, BitVec.ofNat 64 n, BitVec.ofNat 64 (dest + (i + 1)), BitVec.ofNat 64 (src + 1),
            b, (h1, log ++ [src])⟩ := by
      intro a0 b
      have hput := @copyStep_put u dest a0 (BitVec.ofNat 64 (n + 1)) (BitVec.ofNat 64 src) b h
        (log ++ [src]) i (by omega)
      cases hst : h.store dest i b with
      | error e =>
        rw [hst] at hput
        exact copyRun_error _ (by decide) hput
      | ok h1 =>
        rw [hst] at hput
        rw [copyRun_step _ (by decide) hput, copyRun_advance, ok_bind, ofNat_succ n,
          ← Nat.add_assoc dest i 1, ofNat_succ (dest + i), ofNat_succ src, BitVec.add_sub_cancel]
    split_ifs with hr
    · -- the byte is copied
      rw [copyRun_step _ (by decide) (copyStep_read (hsrc'.symm ▸ hr)), hsrc', hstore]
      cases hst : h.store dest i (u.byte src) with
      | error e => rfl
      | ok h1 =>
        rw [ok_bind, ok_bind, copyRun_read k n (src + 1) (i + 1) _ h1 _ (by omega) (by omega)
          (by omega), List.append_assoc]
        rfl
    · -- the load is skipped, and the byte in the register is stored
      rw [copyRun_step _ (by decide) (copyStep_readFault (hsrc'.symm ▸ hr)), hsrc', hstore]
      cases hst : h.store dest i t2 with
      | error e => rfl
      | ok h1 =>
        rw [ok_bind, ok_bind, ← Nat.add_assoc, copyRun_failed]
        rfl

end Read

section Write

variable {h : Heap (BitVec 8)} {src : ℕ}

/-- `lb` from the buffer. -/
theorem copyStep_take {a1 a2 : BitVec 64} {t2 : BitVec 8} {u : UserMemory} {log : List ℕ}
    {i : ℕ} (hi : src + i < 2 ^ 64) :
    copyStep (writeMemory h src) ⟨5, 0, a1, a2, BitVec.ofNat 64 (src + i), t2, (u, log)⟩ =
      (h.load src i).map fun b => ⟨6, 0, a1, a2, BitVec.ofNat 64 (src + i), b, (u, log)⟩ := by
  have hsub : (BitVec.ofNat 64 (src + i)).toNat - src = i := by
    rw [toNat_ofNat_lt hi, Nat.add_sub_cancel_left]
  simp only [copyStep, archCopyUser, writeMemory, hsub]
  cases h.load src i <;> rfl

/-- `sb` to a byte of the user that can be written. -/
theorem copyStep_write {a1 dest t0 : BitVec 64} {b : BitVec 8} {u : UserMemory} {log : List ℕ}
    (hw : u.writable dest.toNat = true) :
    copyStep (writeMemory h src) ⟨6, 0, a1, dest, t0, b, (u, log)⟩ =
      .ok ⟨7, 0, a1, dest, t0, b,
        (u.withBytes (Function.update u.byte dest.toNat b), log ++ [dest.toNat])⟩ := by
  simp [copyStep, archCopyUser, writeMemory, hw, CopyState.next]

/-- `sb` to a byte of the user that faults. -/
theorem copyStep_writeFault {a1 dest t0 : BitVec 64} {b : BitVec 8} {u : UserMemory}
    {log : List ℕ} (hw : ¬u.writable dest.toNat = true) :
    copyStep (writeMemory h src) ⟨6, 0, a1, dest, t0, b, (u, log)⟩ =
      .ok ⟨7, 1, a1, dest, t0, b, (u, log ++ [dest.toNat])⟩ := by
  simp [copyStep, archCopyUser, writeMemory, hw, CopyState.next, CopyState.fault]

/-- The instructions copy to the user what `copyToUser` does. -/
theorem copyRun_write (k : ℕ) : ∀ (n i dest : ℕ) (t2 : BitVec 8) (u : UserMemory)
    (log : List ℕ), dest < 2 ^ 64 → src + i + n ≤ 2 ^ 64 → n < 2 ^ 64 →
    copyResult (copyRun (writeMemory h src) (8 * n + (k + 3))
      ⟨3, 0, BitVec.ofNat 64 n, BitVec.ofNat 64 dest, BitVec.ofNat 64 (src + i), t2, (u, log)⟩) =
      (copyToUser h src n i dest u).map fun r =>
        (r.1, (r.2, log ++ copyAccesses u.writable n dest))
  | 0, i, dest, t2, u, log, _, _, _ => by
    rw [Nat.mul_zero, Nat.zero_add]
    change copyResult (copyRun _ (k + 3) ⟨3, 0, 0, _, _, _, _⟩) = _
    rw [copyRun_done, copyToUser, copyAccesses, List.append_nil]
    rfl
  | n + 1, i, dest, t2, u, log, hdest, hsrc, hn => by
    have hdest' : (BitVec.ofNat 64 dest).toNat = dest := toNat_ofNat_lt hdest
    have hfuel : 8 * (n + 1) + (k + 3) = 8 * n + (k + 3) + 4 + 1 + 1 + 2 := by omega
    -- the instructions after the store, with the response `a0`
    have hnext : ∀ (a0 : BitVec 64) (b : BitVec 8) (mem : UserMemory × List ℕ),
        copyRun (writeMemory h src) (8 * n + (k + 3) + 4) ⟨7, a0, BitVec.ofNat 64 (n + 1),
          BitVec.ofNat 64 dest, BitVec.ofNat 64 (src + i), b, mem⟩ =
        copyRun (writeMemory h src) (8 * n + (k + 3)) ⟨3, a0, BitVec.ofNat 64 n,
          BitVec.ofNat 64 (dest + 1), BitVec.ofNat 64 (src + (i + 1)), b, mem⟩ := by
      intro a0 b mem
      rw [copyRun_advance, ofNat_succ n, ← Nat.add_assoc src i 1, ofNat_succ (src + i),
        ofNat_succ dest, BitVec.add_sub_cancel]
    have htake := @copyStep_take h src (BitVec.ofNat 64 (n + 1)) (BitVec.ofNat 64 dest) t2 u log i
      (by omega)
    rw [hfuel, copyRun_enter _ (ofNat_succ_ne_zero hn), copyToUser, copyAccesses]
    cases hload : h.load src i with
    | error e =>
      rw [hload] at htake
      rw [copyRun_error _ (by decide) htake]
      rfl
    | ok b =>
      rw [hload] at htake
      rw [copyRun_step _ (by decide) htake, ok_bind]
      split_ifs with hw
      · -- the byte is copied
        have hlt := u.mapped_lt dest (Or.inr hw)
        rw [copyRun_step _ (by decide) (copyStep_write (hdest'.symm ▸ hw)), hdest', hnext,
          copyRun_write k n (i + 1) (dest + 1) b _ _ (by omega) (by omega) (by omega),
          List.append_assoc]
        rfl
      · -- the store is skipped
        rw [copyRun_step _ (by decide) (copyStep_writeFault (hdest'.symm ▸ hw)), hdest', hnext,
          ← Nat.add_assoc, copyRun_failed]
        rfl

end Write

/-- A call of `arch_copy_user` up to the label `copy_byte`. -/
theorem copyRun_call {ops : CopyMemory μ} {src size dest t0 : BitVec 64} {t2 : BitVec 8} {mem : μ}
    (n : ℕ) : copyRun ops (n + 3) ⟨0, src, size, dest, t0, t2, mem⟩ =
      copyRun ops n ⟨3, 0, size, dest, src, t2, mem⟩ := by
  rw [copyRun_step _ (by decide) rfl]
  change copyRun ops (n + 2) ⟨1, src, size, dest, src, t2, mem⟩ = _
  rw [copyRun_step _ (by decide) rfl]
  change copyRun ops (n + 1) ⟨2, 0, size, dest, src, t2, mem⟩ = _
  exact copyRun_step _ (by decide) rfl

/-- `arch_copy_user` from user memory is `copyFromUser`, and accesses `copyAccesses`. -/
theorem archCopyUser_read (u : UserMemory) {src size dest : BitVec 64} (t0 : BitVec 64)
    (t2 : BitVec 8) (h : Heap (BitVec 8)) (k : ℕ) (hsrc : src.toNat + size.toNat ≤ 2 ^ 64)
    (hdest : dest.toNat + size.toNat ≤ 2 ^ 64) :
    copyResult (copyRun (readMemory u dest.toNat) (8 * size.toNat + (k + 3) + 3)
      ⟨0, src, size, dest, t0, t2, (h, [])⟩) =
      (copyFromUser u dest.toNat size.toNat src.toNat 0 t2 h).map fun r =>
        (r.1, (r.2, copyAccesses u.readable size.toNat src.toNat)) := by
  have hrun := @copyRun_read u dest.toNat k size.toNat src.toNat 0 t2 h [] hsrc hdest size.isLt
  simp only [Nat.add_zero, BitVec.ofNat_toNat, BitVec.setWidth_eq, List.nil_append] at hrun
  rw [copyRun_call]
  exact hrun

/-- `arch_copy_user` to user memory is `copyToUser`, and accesses `copyAccesses`. -/
theorem archCopyUser_write (u : UserMemory) {src size dest : BitVec 64} (t0 : BitVec 64)
    (t2 : BitVec 8) (h : Heap (BitVec 8)) (k : ℕ) (hsrc : src.toNat + size.toNat ≤ 2 ^ 64) :
    copyResult (copyRun (writeMemory h src.toNat) (8 * size.toNat + (k + 3) + 3)
      ⟨0, src, size, dest, t0, t2, (u, [])⟩) =
      (copyToUser h src.toNat size.toNat 0 dest.toNat u).map fun r =>
        (r.1, (r.2, copyAccesses u.writable size.toNat dest.toNat)) := by
  have hrun := @copyRun_write h src.toNat k size.toNat 0 dest.toNat t2 u [] dest.isLt hsrc size.isLt
  simp only [Nat.add_zero, BitVec.ofNat_toNat, BitVec.setWidth_eq, List.nil_append] at hrun
  rw [copyRun_call]
  exact hrun

/-- `kernel_read_user` by the instructions of the copy. -/
theorem kernelReadUser_instructions (env : FsEnv) {s : Vfs} {src size dest : BitVec 64}
    (t0 : BitVec 64) (k : ℕ) (haccept : ¬readUserRefused src size)
    (hdest : dest.toNat + size.toNat ≤ 2 ^ 64) :
    s.kernelReadUser env src size dest =
      copyResult (copyRun (readMemory s.user dest.toNat) (8 * size.toNat + (k + 3) + 3)
        ⟨0, src, size, dest, t0, env.temp s.irqDisable, (s.bytes, [])⟩) >>= fun r =>
          .ok (r.1, { s with bytes := r.2.1, sie := true }) := by
  have hsrc : src.toNat + size.toNat ≤ 2 ^ 64 :=
    (lt_of_not_readUserRefused haccept).le.trans (by decide)
  rw [Vfs.kernelReadUser, if_neg haccept, archCopyUser_read s.user t0 _ s.bytes k hsrc hdest]
  change copyFromUser s.user _ _ _ _ _ s.bytes >>= _ = _
  cases copyFromUser s.user dest.toNat size.toNat src.toNat 0 (env.temp s.irqDisable) s.bytes
  · rfl
  · rfl

/-- `kernel_write_user` by the instructions of the copy. -/
theorem kernelWriteUser_instructions {s : Vfs} {src size dest : BitVec 64} (t0 : BitVec 64)
    (t2 : BitVec 8) (k : ℕ) (haccept : ¬writeUserRefused dest size)
    (hsrc : src.toNat + size.toNat ≤ 2 ^ 64) :
    s.kernelWriteUser dest size src =
      copyResult (copyRun (writeMemory s.bytes src.toNat) (8 * size.toNat + (k + 3) + 3)
        ⟨0, src, size, dest, t0, t2, (s.user, [])⟩) >>= fun r =>
          .ok (r.1, { s with user := r.2.1, sie := true }) := by
  rw [Vfs.kernelWriteUser, if_neg haccept, archCopyUser_write s.user t0 t2 s.bytes k hsrc]
  change copyToUser s.bytes _ _ _ _ s.user >>= _ = _
  cases copyToUser s.bytes src.toNat size.toNat 0 dest.toNat s.user
  · rfl
  · rfl

/-! ## The ranges that are accepted -/

/-- The ranges that are meant : not empty, and ending below the kernel. -/
def UserRange (addr size : BitVec 64) : Prop :=
  0 < size.toNat ∧ addr.toNat + size.toNat < kernelVmaStart

/-- Every access of the copy is below the kernel, whatever is mapped. Between the highest address
of a user and the kernel no address can be mapped. -/
def AccessesBelowKernel (addr size : BitVec 64) : Prop :=
  ∀ mapped : ℕ → Bool, (∀ a, 0x4000000000 ≤ a → a < kernelVmaStart → mapped a = false) →
    ∀ a ∈ copyAccesses mapped size.toNat addr.toNat, a < kernelVmaStart

/-- Reads and writes of a range are accepted just if it is meant, and then no byte of the kernel
is accessed. -/
structure RangeChecked (addr size : BitVec 64) : Prop where
  read : ¬readUserRefused addr size ↔ UserRange addr size
  write : ¬writeUserRefused addr size ↔ UserRange addr size
  accesses : ¬readUserRefused addr size ∨ ¬writeUserRefused addr size →
    AccessesBelowKernel addr size

/-- A copy that starts below the kernel stops at the first address that cannot be mapped. -/
theorem copyAccesses_lt {mapped : ℕ → Bool}
    (hhole : ∀ a, 0x4000000000 ≤ a → a < kernelVmaStart → mapped a = false) :
    ∀ (n a : ℕ), a < kernelVmaStart → ∀ b ∈ copyAccesses mapped n a, b < kernelVmaStart
  | 0, a, _, b, hb => by cases hb
  | n + 1, a, ha, b, hb => by
    rw [copyAccesses] at hb
    rcases List.mem_cons.mp hb with rfl | hb
    · exact ha
    · split_ifs at hb with hm
      · have hlow : a < 0x4000000000 := by
          by_contra hge
          rw [hhole a (Nat.le_of_not_lt hge) ha] at hm
          cases hm
        refine copyAccesses_lt hhole n (a + 1) ?_ b hb
        unfold kernelVmaStart
        omega
      · cases hb

/-- `kernel_read_user` accepts the ranges that are meant. -/
theorem readUserRefused_iff {src size : BitVec 64} :
    ¬readUserRefused src size ↔ UserRange src size := by
  unfold readUserRefused UserRange kernelVmaStart
  rw [BitVec.toNat_add]
  have := src.isLt
  have := size.isLt
  omega

/-- Both checks are right for just these ranges. A write is refused at the address 0 and at those
from `2 ^ 63` on, and accepted at any other if the range wraps or is empty. -/
theorem user_range_iff (addr size : BitVec 64) :
    RangeChecked addr size ↔
      if addr = 0 ∨ 2 ^ 63 ≤ addr.toNat then
        size = 0 ∨ kernelVmaStart ≤ addr.toNat + size.toNat
      else size ≠ 0 ∧ addr.toNat + size.toNat < 2 ^ 64 := by
  have hwrite : (¬writeUserRefused addr size ↔ UserRange addr size) ↔
      if addr = 0 ∨ 2 ^ 63 ≤ addr.toNat then
        size = 0 ∨ kernelVmaStart ≤ addr.toNat + size.toNat
      else size ≠ 0 ∧ addr.toNat + size.toNat < 2 ^ 64 := by
    unfold writeUserRefused UserRange kernelVmaStart
    have haddr : addr = 0 ↔ addr.toNat = 0 := (BitVec.toNat_inj (y := 0)).symm
    have hsize : size = 0 ↔ size.toNat = 0 := (BitVec.toNat_inj (y := 0)).symm
    have := addr.isLt
    have := size.isLt
    simp only [BitVec.toNat_add, haddr, hsize, ne_eq]
    split_ifs <;> omega
  rw [← hwrite]
  refine ⟨fun h => h.write, fun h => ⟨readUserRefused_iff, h, fun hok mapped hhole => ?_⟩⟩
  refine copyAccesses_lt hhole _ _ ?_
  rcases hok with hok | hok
  · exact Nat.lt_of_not_le fun hge => hok (Or.inl hge)
  · exact Nat.lt_of_not_le fun hge => hok (Or.inl hge)

/-- A write of a range that wraps is accepted, and of the byte at the address 0 it is not. -/
theorem user_range_unchecked :
    (¬writeUserRefused 0x1000 0xfffffffffffff800 ∧ ¬RangeChecked 0x1000 0xfffffffffffff800) ∧
      (writeUserRefused 0 1 ∧ ¬RangeChecked 0 1) := by
  have hwraps : ¬writeUserRefused 0x1000 0xfffffffffffff800 := by decide
  have hzero : writeUserRefused 0 1 := by decide
  refine ⟨⟨hwraps, fun h => ?_⟩, hzero, fun h => ?_⟩
  · exact absurd (h.write.mp hwraps).2 (by decide)
  · have hread : ¬readUserRefused 0 1 := by decide
    exact h.write.mpr (h.read.mp hread) hzero

/-! ## Reads that fault -/

/-- Byte `k` from `src` on is the first that faults. -/
def FirstFault (u : UserMemory) (src k : ℕ) : Prop :=
  u.readable (src + k) = false ∧ ∀ j < k, u.readable (src + j) = true

/-- What `t2` holds when the load of byte `k` is skipped : the byte before, or what it held when
the copy started. -/
def staleByte (t2 : BitVec 8) (u : UserMemory) (src : ℕ) : ℕ → BitVec 8
  | 0 => t2
  | k + 1 => u.byte (src + k)

/-- A read of user memory returns whether no byte faults, and otherwise the bytes before the first
that faults are in the buffer and the others are as they were. -/
def ReadsExactly (env : FsEnv) (s : Vfs) (src size dest : BitVec 64) : Prop :=
  ∃ done s', s.kernelReadUser env src size dest = .ok (done, s') ∧
    (done = true ↔ ∀ k < size.toNat, s.user.readable (src.toNat + k) = true) ∧
    ∀ k < size.toNat, FirstFault s.user src.toNat k →
      (∀ j < k, s'.bytes.cell dest.toNat j = s.user.byte (src.toNat + j)) ∧
      ∀ j, k ≤ j → j < size.toNat → s'.bytes.cell dest.toNat j = s.bytes.cell dest.toNat j

section Faults

variable {u : UserMemory} {dest : ℕ}

/-- A copy of bytes that can all be read. -/
theorem copyFromUser_readable : ∀ (n src i : ℕ) (t2 : BitVec 8) {h : Heap (BitVec 8)},
    i + n ≤ h.len dest → (∀ k < n, u.readable (src + k) = true) →
    ∃ h', copyFromUser u dest n src i t2 h = .ok (true, h')
  | 0, _, _, _, h, _, _ => ⟨h, rfl⟩
  | n + 1, src, i, t2, h, hlen, hr => by
    have hfirst : u.readable src = true := hr 0 (Nat.succ_pos n)
    rw [copyFromUser, if_pos hfirst, Heap.store_eq_ok (by omega), ok_bind]
    refine copyFromUser_readable n (src + 1) (i + 1) _ ?_ fun k hk => ?_
    · rw [Heap.len_set]
      omega
    · have := hr (k + 1) (by omega)
      rwa [show src + (k + 1) = src + 1 + k by omega] at this

/-- A copy of which byte `k` is the first that faults. -/
theorem copyFromUser_fault : ∀ (n k src i : ℕ) (t2 : BitVec 8) {h : Heap (BitVec 8)},
    i + n ≤ h.len dest → k < n → FirstFault u src k →
    ∃ h', copyFromUser u dest n src i t2 h = .ok (false, h') ∧
      (∀ j < k, h'.cell dest (i + j) = u.byte (src + j)) ∧
      h'.cell dest (i + k) = staleByte t2 u src k ∧
      ∀ j, j < i ∨ i + k < j → h'.cell dest j = h.cell dest j
  | 0, k, _, _, _, _, _, hk, _ => absurd hk (Nat.not_lt_zero k)
  | n + 1, 0, src, i, t2, h, hlen, _, hfault => by
    have hr : ¬u.readable src = true := by
      rw [show u.readable src = false from hfault.1]
      decide
    rw [copyFromUser, if_neg hr, Heap.store_eq_ok (by omega), ok_bind]
    refine ⟨_, rfl, fun j hj => absurd hj (Nat.not_lt_zero j), Heap.cell_set_self _ _ _ _,
      fun j hj => ?_⟩
    exact Heap.cell_set_of_index_ne _ _ _ _ (by omega)
  | n + 1, k + 1, src, i, t2, h, hlen, hk, hfault => by
    have hnext : FirstFault u (src + 1) k := by
      constructor
      · rw [show src + 1 + k = src + (k + 1) by omega]
        exact hfault.1
      · intro j hj
        rw [show src + 1 + j = src + (j + 1) by omega]
        exact hfault.2 (j + 1) (by omega)
    have hr : u.readable src = true := hfault.2 0 (Nat.succ_pos k)
    rw [copyFromUser, if_pos hr, Heap.store_eq_ok (by omega), ok_bind]
    have hlen' : i + 1 + n ≤ (h.set dest i (u.byte src)).len dest := by
      rw [Heap.len_set]
      omega
    obtain ⟨h', hrun, hcopied, hstale, hrest⟩ := copyFromUser_fault n k (src + 1) (i + 1)
      (u.byte src) hlen' (by omega) hnext
    have hfirst : h'.cell dest i = u.byte src := by
      rw [hrest i (Or.inl (Nat.lt_succ_self i)), Heap.cell_set_self]
    refine ⟨h', hrun, fun j hj => ?_, ?_, fun j hj => ?_⟩
    · cases j with
      | zero => exact hfirst
      | succ j =>
        rw [show i + (j + 1) = i + 1 + j by omega, show src + (j + 1) = src + 1 + j by omega]
        exact hcopied j (by omega)
    · rw [show i + (k + 1) = i + 1 + k by omega, hstale]
      cases k with
      | zero => rfl
      | succ k =>
        change u.byte (src + 1 + k) = u.byte (src + (k + 1))
        rw [show src + (k + 1) = src + 1 + k by omega]
    · have hj' : j < i + 1 ∨ i + 1 + k < j := by omega
      have hji : j ≠ i := by omega
      rw [hrest j hj', Heap.cell_set_of_index_ne _ _ _ _ hji]

theorem FirstFault.unique {u : UserMemory} {src k k' : ℕ} (h : FirstFault u src k)
    (h' : FirstFault u src k') : k' = k := by
  rcases Nat.lt_trichotomy k' k with hlt | heq | hgt
  · have := h.2 k' hlt
    rw [h'.1] at this
    cases this
  · exact heq
  · have := h'.2 k hgt
    rw [h.1] at this
    cases this

/-- There is a first byte that faults, if one does. -/
theorem exists_firstFault {src n : ℕ} (h : ¬∀ k < n, u.readable (src + k) = true) :
    ∃ k < n, FirstFault u src k := by
  have hex : ∃ k, k < n ∧ u.readable (src + k) = false := by
    by_contra hno
    exact h fun k hk => by_contra fun hr => hno ⟨k, hk, by simpa using hr⟩
  obtain ⟨hlt, hfault⟩ := Nat.find_spec hex
  refine ⟨Nat.find hex, hlt, hfault, fun j hj => ?_⟩
  have hmin := Nat.find_min hex hj
  by_contra hr
  exact hmin ⟨hj.trans hlt, by simpa using hr⟩

end Faults

/-- A read that is accepted is exact if and only if, at the first byte that faults, the buffer
already has the byte that the register `t2` has : the store behind the load that is skipped
changes the buffer there, and nothing else. -/
theorem kernelReadUser_exact_iff (env : FsEnv) {s : Vfs} {src size dest : BitVec 64}
    (haccept : ¬readUserRefused src size) (hlen : size.toNat ≤ s.bytes.len dest.toNat) :
    ReadsExactly env s src size dest ↔
      ∀ k < size.toNat, FirstFault s.user src.toNat k →
        s.bytes.cell dest.toNat k = staleByte (env.temp s.irqDisable) s.user src.toNat k := by
  have hrun : s.kernelReadUser env src size dest =
      copyFromUser s.user dest.toNat size.toNat src.toNat 0 (env.temp s.irqDisable) s.bytes >>=
        fun r => .ok (r.1, { s.irqDisable with bytes := r.2 }.irqEnable) := by
    rw [Vfs.kernelReadUser, if_neg haccept]
    rfl
  have hlen' : 0 + size.toNat ≤ s.bytes.len dest.toNat := by rwa [Nat.zero_add]
  by_cases hall : ∀ k < size.toNat, s.user.readable (src.toNat + k) = true
  · -- no byte faults
    have hnone : ∀ k < size.toNat, ¬FirstFault s.user src.toNat k := fun k hk hf => by
      have := hall k hk
      rw [hf.1] at this
      cases this
    obtain ⟨h', hcopy⟩ := copyFromUser_readable size.toNat src.toNat 0 (env.temp s.irqDisable)
      hlen' hall
    rw [hcopy, ok_bind] at hrun
    refine ⟨fun _ k hk hf => absurd hf (hnone k hk), fun _ => ?_⟩
    exact ⟨_, _, hrun, ⟨fun _ => hall, fun _ => rfl⟩, fun k hk hf => absurd hf (hnone k hk)⟩
  · -- byte `k` is the first that faults
    obtain ⟨k, hk, hf⟩ := exists_firstFault hall
    obtain ⟨h', hcopy, hcopied, hstale, hrest⟩ := copyFromUser_fault size.toNat k src.toNat 0
      (env.temp s.irqDisable) hlen' hk hf
    simp only [Nat.zero_add] at hcopied hstale hrest
    rw [hcopy, ok_bind] at hrun
    constructor
    · rintro ⟨done, s', hok, -, hexact⟩ k' - hf'
      rw [hrun] at hok
      cases hok
      rw [hf.unique hf', ← hstale]
      exact ((hexact k hk hf).2 k le_rfl hk).symm
    · intro hcell
      refine ⟨_, _, hrun, ⟨fun hfalse => absurd hfalse Bool.false_ne_true, fun h => absurd h hall⟩,
        ?_⟩
      intro k' _ hf'
      rw [hf.unique hf']
      refine ⟨hcopied, fun j hj _ => ?_⟩
      rcases Nat.eq_or_lt_of_le hj with rfl | hlt
      · exact hstale.trans (hcell k hk hf).symm
      · exact hrest j (Or.inr hlt)

/-- A copy of which the third byte faults, to a buffer that has a zero there, as the user has
before it. -/
theorem kernelReadUser_exact_oneFile :
    ReadsExactly bumpEnv (oneFileVfs 100) 0x3ffffffffe 4 0x2000 ↔
      ∀ k < 4, FirstFault (oneFileVfs 100).user 0x3ffffffffe k →
        (oneFileVfs 100).bytes.cell 0x2000 k =
          staleByte 0 (oneFileVfs 100).user 0x3ffffffffe k :=
  kernelReadUser_exact_iff bumpEnv (by decide) (by decide)

/-- A copy of which the first byte faults overwrites the `A` in the buffer. -/
theorem kernelReadUser_stale :
    ¬readUserRefused 0x4000000000 4 ∧
      ¬ReadsExactly bumpEnv (oneFileVfs 100) 0x4000000000 4 0x2000 := by
  refine ⟨by decide, ?_⟩
  have hf : FirstFault (oneFileVfs 100).user 0x4000000000 0 :=
    ⟨rfl, fun j hj => absurd hj (Nat.not_lt_zero j)⟩
  have hrun : ∃ s', (oneFileVfs 100).kernelReadUser bumpEnv 0x4000000000 4 0x2000 =
      .ok (false, s') ∧ s'.bytes.cell 0x2000 0 = 0 := ⟨_, rfl, rfl⟩
  rintro ⟨done, s', hok, -, hexact⟩
  obtain ⟨s2, hrun, hcell⟩ := hrun
  rw [hrun] at hok
  cases hok
  have hkept : s'.bytes.cell 0x2000 0 = 0x41 := (hexact 0 (by decide) hf).2 0 le_rfl (by decide)
  exact absurd (hkept.symm.trans hcell) (by decide)

end Toastium
