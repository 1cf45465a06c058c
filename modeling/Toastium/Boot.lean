import Toastium.Layout
import Toastium.Riscv

/-!
# The boot

`setup_vma` to `start_os` of `arch_boot.S`, instruction by instruction, from the address that the
kernel is loaded at. `setup_vmn_table` fills the table of the kernel with leaves of 1 GiB, the lower
half for the addresses as they are and the upper half for the window of the kernel. The table is
installed while the lower half is running, and the boot jumps to the window.

`boot_reaches_main` : the boot ends at the call of `arch_main` in the window, with the arguments of
the loader in their registers, a stack, `.bss` cleared, and a translation of all addresses that is
given in full by `bootMmu`. `blank_first_half_vma_table` does not clear the lower half : `t1` holds
`satp` there and not 0, so that the loop ends at once. The device tree is read through the addresses
of the lower half.
-/

namespace Toastium

open Riscv

/-- The kernel as it is loaded : the addresses of its instructions, from `setup_vma` on, and its
symbols. The table is on a page of its own behind `.bss`. -/
structure Image where
  addr : ℕ → BitVec 64
  unsafeTrapEntry : BitVec 64
  stackTop : BitVec 64
  table : BitVec 64
  bssBottom : BitVec 64
  bssTop : BitVec 64
  addr_lt : ∀ i, (addr i).toNat < 2 ^ 38
  table_dvd : 4096 ∣ table.toNat
  table_le : table.toNat + 4096 ≤ 2 ^ 38
  bssBottom_dvd : 16 ∣ bssBottom.toNat
  bssTop_dvd : 16 ∣ bssTop.toNat
  bss_le : bssBottom.toNat ≤ bssTop.toNat
  bssTop_le : bssTop.toNat ≤ table.toNat

/-- `KERNEL_VMA_START`, as an immediate. -/
def kernelVma : BitVec 64 := BitVec.ofNat 64 kernelVmaStart

theorem toNat_kernelVma : kernelVma.toNat = kernelVmaStart := by decide

namespace Image

variable (im : Image)

/-! ## The code -/

/-- `setup_vma`, to its jump. The registers are `sp` (2), `t0` to `t2` (5 to 7) and `t3` to `t6`
(28 to 31). -/
def setupVma : List Instr :=
  [.la 5 im.unsafeTrapEntry, .csrw .stvec 5, .la 5 im.stackTop, .addi 2 5 0, .la 5 im.table,
    .li 31 4096, .div 5 5 31, .mul 5 5 31, .li 31 2048, .addi 6 0 0]

/-- The entries of the upper half. -/
def highEntries : List Instr :=
  [.li 7 8, .div 7 6 7, .li 29 0xef, .slli 30 7 28, .add 29 29 30, .add 28 6 5, .add 28 28 31]

/-- The entries of the lower half. -/
def lowEntries : List Instr :=
  [.li 29 0xcf, .add 29 29 30, .add 28 6 5]

/-- The body of `setup_vmn_table`. -/
def setupVmnTable : List Instr :=
  highEntries ++ [.sd 29 0 28] ++ lowEntries ++ [.sd 29 0 28, .addi 6 6 8]

/-- `finish_vma_setup`, to the write of `satp`. -/
def finishVmaSetup : List Instr :=
  [.la 6 im.table, .li 7 4096, .div 6 6 7, .li 28 0xffff, .slli 28 28 44, .add 6 6 28, .li 28 8,
    .slli 28 28 60, .add 6 6 28]

/-- The end of `finish_vma_setup`, to its jump. -/
def jumpHigh : List Instr :=
  [.fence, .fence, .la 28 (im.addr 42), .li 7 kernelVma, .add 28 28 7]

/-- `real_start`, to its jump. -/
def realStart : List Instr :=
  [.fence, .fence, .la 5 im.stackTop, .addi 2 5 0, .la 5 im.unsafeTrapEntry, .csrw .stvec 5,
    .la 5 im.bssBottom, .la 6 im.bssTop]

/-- `jump_blank_first_half_vma_table` and `blank_first_half_vma_table`. -/
def blankFirstHalf : List Instr :=
  [.la 5 im.table, .j (im.addr 44), .bgeu 6 31 (im.addr 50), .add 29 0 0, .add 28 6 5, .sd 29 0 28,
    .addi 6 6 8, .j (im.addr 44)]

/-- `clear_bss`. -/
def clearBss : List Instr :=
  [.bgeu 5 6 (im.addr 63), .sd 0 0 5, .addi 5 5 8, .j (im.addr 59)]

/-- `setup_vma` to `start_os`. -/
def boot : List Instr :=
  List.flatten [im.setupVma, [.j (im.addr 11), .bgeu 6 31 (im.addr 26)], setupVmnTable,
    [.j (im.addr 11)], im.finishVmaSetup, [.csrw .satp 6], im.jumpHigh, [.jr 28],
    im.blankFirstHalf, im.realStart, [.j (im.addr 59)], im.clearBss]

/-- The registers that the boot writes. -/
def temps : List Reg := [2, 5, 6, 7, 28, 29, 30, 31]

/-! ## The table -/

/-- An entry of the lower half. -/
def lowEntry (i : ℕ) : BitVec 64 :=
  (0xcf : BitVec 64) + BitVec.ofNat 64 i <<< 28

/-- An entry of the upper half, which is global. -/
def highEntry (i : ℕ) : BitVec 64 :=
  (0xef : BitVec 64) + BitVec.ofNat 64 i <<< 28

/-- `satp` for the table, with the last ASID. -/
def satp : BitVec 64 :=
  BitVec.ofNat 64 (im.table.toNat / 4096) + (0xffff : BitVec 64) <<< 44 + (8 : BitVec 64) <<< 60

end Image

/-- The addresses while the kernel boots : the lower half as it is, and the window of the kernel
above, both for the supervisor alone. -/
def bootMmu (priv : Privilege) (va : BitVec 64) : Option (BitVec 64) :=
  if priv = .user then none
  else if va.toNat < 2 ^ 38 then some va
  else if kernelVmaStart ≤ va.toNat then some (va - kernelVma)
  else none

/-- The table of the boot is filled and installed. -/
structure BootMap (im : Image) (s : Hart) : Prop where
  priv : s.priv = .supervisor
  satp : s.csr .satp = im.satp
  low : ∀ i < 256, s.mem (wordAddr im.table i) = Image.lowEntry i
  high : ∀ i < 256, s.mem (wordAddr im.table (256 + i)) = Image.highEntry i

section Table

variable {im : Image} {s t : Hart}

theorem Image.gigapage_entry {flags i : ℕ} (hi : i < 256) (hflags : flags < 2 ^ 10)
    (hrwx : flags % 2 ^ 5 = 15) :
    Gigapage (BitVec.ofNat 64 flags + BitVec.ofNat 64 i <<< 28) i := by
  refine .of_toNat ?_ (by omega) hflags hrwx
  rw [BitVec.toNat_add, BitVec.toNat_shiftLeft, BitVec.toNat_ofNat, BitVec.toNat_ofNat,
    Nat.shiftLeft_eq]
  omega

theorem Image.gigapage_lowEntry {i : ℕ} (hi : i < 256) : Gigapage (Image.lowEntry i) i :=
  Image.gigapage_entry hi (by decide) (by decide)

theorem Image.gigapage_highEntry {i : ℕ} (hi : i < 256) : Gigapage (Image.highEntry i) i :=
  Image.gigapage_entry hi (by decide) (by decide)

theorem Image.toNat_satp :
    im.satp.toNat = im.table.toNat / 4096 + 0xffff * 2 ^ 44 + 8 * 2 ^ 60 := by
  have hle := im.table_le
  have hasid : ((0xffff : BitVec 64) <<< 44).toNat = 0xffff * 2 ^ 44 := by decide
  have hmode : ((8 : BitVec 64) <<< 60).toNat = 8 * 2 ^ 60 := by decide
  rw [Image.satp, BitVec.toNat_add, BitVec.toNat_add, BitVec.toNat_ofNat, hasid, hmode]
  omega

theorem Image.satp_mode : im.satp >>> 60 = 8 := by
  have hle := im.table_le
  refine BitVec.eq_of_toNat_eq ?_
  rw [BitVec.toNat_ushiftRight, im.toNat_satp, Nat.shiftRight_eq_div_pow]
  change _ = 8
  omega

theorem Image.satp_root : (im.satp &&& 0xfffffffffff) <<< 12 = im.table := by
  have hle := im.table_le
  have hdvd := im.table_dvd
  have hmask : (0xfffffffffff : BitVec 64).toNat = 2 ^ 44 - 1 := by decide
  refine BitVec.eq_of_toNat_eq ?_
  rw [BitVec.toNat_shiftLeft, toNat_and_mask _ hmask, im.toNat_satp, Nat.shiftLeft_eq]
  omega

/-- The table translates all addresses. -/
theorem BootMap.sv39_eq (h : BootMap im s) (priv : Privilege) (access : Access) (va : BitVec 64) :
    sv39 s.csr priv s.mem access va = bootMmu priv va := by
  have hlt := va.isLt
  have hmode : s.csr .satp >>> 60 = 8 := by rw [h.satp, Image.satp_mode]
  by_cases hva : va.toNat < 2 ^ 38 ∨ 2 ^ 64 - 2 ^ 38 ≤ va.toNat
  · have hi : va.toNat % 2 ^ 38 / 2 ^ 30 < 256 := by omega
    obtain ⟨pte, hpte, hleaf⟩ : ∃ pte, s.mem (wordAddr im.table (va.toNat / 2 ^ 30 % 512)) = pte ∧
        Gigapage pte (va.toNat % 2 ^ 38 / 2 ^ 30) := by
      rcases hva with hva | hva
      · refine ⟨_, ?_, Image.gigapage_lowEntry hi⟩
        rw [← h.low _ hi, show va.toNat / 2 ^ 30 % 512 = va.toNat % 2 ^ 38 / 2 ^ 30 by omega]
      · refine ⟨_, ?_, Image.gigapage_highEntry hi⟩
        rw [← h.high _ hi,
          show va.toNat / 2 ^ 30 % 512 = 256 + va.toNat % 2 ^ 38 / 2 ^ 30 by omega]
    rw [sv39_gigapage hmode hva (by rw [h.satp, Image.satp_root]; exact hpte) hleaf (by omega),
      show va.toNat % 2 ^ 38 / 2 ^ 30 * 2 ^ 30 + va.toNat % 2 ^ 30 = va.toNat % 2 ^ 38 by omega]
    cases priv with
    | user => rfl
    | supervisor =>
      rw [if_pos rfl, bootMmu, if_neg (by decide)]
      rcases hva with hva | hva
      · rw [if_pos hva, Nat.mod_eq_of_lt hva, BitVec.ofNat_toNat, BitVec.setWidth_eq]
      · rw [if_neg (by omega), if_pos (by unfold kernelVmaStart; omega)]
        refine congrArg some (BitVec.eq_of_toNat_eq ?_)
        rw [BitVec.toNat_ofNat, BitVec.toNat_sub, toNat_kernelVma]
        unfold kernelVmaStart
        omega
  · have hnot : va ≠ (va.setWidth 39).signExtend 64 := fun hc => hva ((canonical_iff va).mp hc)
    rw [sv39, if_neg (by rw [hmode]; decide), if_pos (.inr hnot), bootMmu]
    push Not at hva
    rw [if_neg (show ¬va.toNat < 2 ^ 38 by omega),
      if_neg (show ¬kernelVmaStart ≤ va.toNat by unfold kernelVmaStart; omega), ite_self]

theorem BootMap.congr (h : BootMap im s) (hpriv : t.priv = s.priv)
    (hsatp : t.csr .satp = s.csr .satp) (hmem : t.mem = s.mem) : BootMap im t where
  priv := hpriv.trans h.priv
  satp := hsatp.trans h.satp
  low i hi := by rw [hmem, h.low i hi]
  high i hi := by rw [hmem, h.high i hi]

theorem toNat_add_kernelVma {x : BitVec 64} (hx : x.toNat < 2 ^ 38) :
    (x + kernelVma).toNat = x.toNat + kernelVmaStart := by
  rw [BitVec.toNat_add, toNat_kernelVma]
  unfold kernelVmaStart
  omega

/-- The window of the kernel. -/
theorem bootMmu_window {x : BitVec 64} (hx : x.toNat < 2 ^ 38) :
    bootMmu .supervisor (x + kernelVma) = some x := by
  rw [bootMmu, if_neg (by decide), toNat_add_kernelVma hx, if_neg (by unfold kernelVmaStart; omega),
    if_pos (Nat.le_add_left _ _), BitVec.add_sub_cancel]

theorem BootMap.fetches_high (h : BootMap im s) : s.Fetches sv39 im.addr kernelVma := fun i => by
  rw [h.sv39_eq, h.priv, bootMmu_window (im.addr_lt i)]

end Table

/-! ## The run -/

section Run

variable {im : Image} {code : Code} {s t : Hart}

theorem sv39_bare (h : s.csr .satp >>> 60 = 0) (priv : Privilege) (access : Access)
    (va : BitVec 64) : sv39 s.csr priv s.mem access va = some va :=
  if_pos h

theorem Image.fetches_bare (h : s.csr .satp >>> 60 = 0) : s.Fetches sv39 im.addr 0 := fun i => by
  rw [sv39_bare h, add_zero]

theorem Image.table_aligned : im.table &&& 7 = 0 := by
  have hdvd := im.table_dvd
  refine BitVec.eq_of_toNat_eq ?_
  rw [toNat_and_mask _ (show (7 : BitVec 64).toNat = 2 ^ 3 - 1 from rfl)]
  change _ = 0
  omega

/-- A word of the table is written while addresses are physical. -/
theorem exec_sd_table (shift : BitVec 64) {k : ℕ} (rs2 : Reg) {rs1 : Reg}
    (hbare : s.csr .satp >>> 60 = 0) (haddr : s.get rs1 = wordAddr im.table k) :
    exec sv39 shift s (.sd rs2 0 rs1) = some (s.setMem (wordAddr im.table k) (s.get rs2)) := by
  refine exec_sd ?_
  rw [haddr, add_zero, Hart.word, sv39_bare hbare]
  exact if_pos (wordAddr_aligned im.table_aligned k)

/-- The registers of `setup_vmn_table` in its round `k`. -/
structure SetupRegs (im : Image) (k : ℕ) (t : Hart) : Prop where
  table : t.get 5 = im.table
  bytes : t.get 6 = BitVec.ofNat 64 (8 * k)
  half : t.get 31 = 2048

theorem execs_highEntries {k : ℕ} (hk : k < 256) (hr : SetupRegs im k s)
    (hbare : s.csr .satp >>> 60 = 0) :
    ∃ t, execs sv39 0 (Image.highEntries ++ [.sd 29 0 28]) s = some t ∧ t.priv = s.priv ∧
      t.csr = s.csr ∧
      t.mem = Function.update s.mem (wordAddr im.table (256 + k)) (Image.highEntry k) ∧
      SetupRegs im k t ∧ t.get 30 = BitVec.ofNat 64 k <<< 28 := by
  obtain ⟨h5, h6, h31⟩ := hr
  have hdiv : divide (s.get 6) 8 = BitVec.ofNat 64 k := by
    have hbytes : (BitVec.ofNat 64 (8 * k)).toNat = 8 * k := by
      rw [BitVec.toNat_ofNat]
      omega
    rw [h6, divide_eq (by omega) (by decide) (by decide), hbytes]
    exact congrArg _ (Nat.mul_div_cancel_left k (by decide))
  obtain ⟨t, hrun, hpriv, hcsr, hmem, ht5, ht6, ht31, ht30, ht29, ht28⟩ : ∃ t,
      execs sv39 0 Image.highEntries s = some t ∧ t.priv = s.priv ∧ t.csr = s.csr ∧
      t.mem = s.mem ∧ t.get 5 = s.get 5 ∧ t.get 6 = s.get 6 ∧ t.get 31 = s.get 31 ∧
      t.get 30 = divide (s.get 6) 8 <<< 28 ∧
      t.get 29 = (0xef : BitVec 64) + divide (s.get 6) 8 <<< 28 ∧
      t.get 28 = s.get 6 + s.get 5 + s.get 31 :=
    ⟨_, rfl, rfl, rfl, rfl, rfl, rfl, rfl, rfl, rfl, rfl⟩
  rw [hdiv] at ht29 ht30
  have haddr : t.get 28 = wordAddr im.table (256 + k) := by
    rw [ht28, h5, h6, h31, wordAddr, add_comm (BitVec.ofNat 64 (8 * k)), add_assoc]
    refine congrArg (im.table + ·) (BitVec.eq_of_toNat_eq ?_)
    rw [BitVec.toNat_add, BitVec.toNat_ofNat, BitVec.toNat_ofNat]
    change (8 * k % 2 ^ 64 + 2048) % 2 ^ 64 = _
    omega
  have hstore := exec_sd_table 0 29 (hcsr ▸ hbare) haddr
  rw [ht29] at hstore
  refine ⟨t.setMem (wordAddr im.table (256 + k)) (Image.highEntry k), ?_, hpriv, hcsr, ?_,
    ⟨ht5.trans h5, ht6.trans h6, ht31.trans h31⟩, ht30⟩
  · rw [execs_append, hrun, Option.bind_eq_bind, Option.bind_some, execs_cons, hstore]
    rfl
  · rw [← hmem]
    rfl

theorem execs_lowEntries {k : ℕ} (hr : SetupRegs im k s) (h30 : s.get 30 = BitVec.ofNat 64 k <<< 28)
    (hbare : s.csr .satp >>> 60 = 0) :
    ∃ t, execs sv39 0 (Image.lowEntries ++ [.sd 29 0 28, .addi 6 6 8]) s = some t ∧
      t.priv = s.priv ∧ t.csr = s.csr ∧
      t.mem = Function.update s.mem (wordAddr im.table k) (Image.lowEntry k) ∧
      SetupRegs im (k + 1) t := by
  obtain ⟨h5, h6, h31⟩ := hr
  obtain ⟨t, hrun, hpriv, hcsr, hmem, ht5, ht6, ht31, ht29, ht28⟩ : ∃ t,
      execs sv39 0 Image.lowEntries s = some t ∧ t.priv = s.priv ∧ t.csr = s.csr ∧
      t.mem = s.mem ∧ t.get 5 = s.get 5 ∧ t.get 6 = s.get 6 ∧ t.get 31 = s.get 31 ∧
      t.get 29 = 0xcf + s.get 30 ∧ t.get 28 = s.get 6 + s.get 5 :=
    ⟨_, rfl, rfl, rfl, rfl, rfl, rfl, rfl, rfl, rfl⟩
  rw [h30] at ht29
  have haddr : t.get 28 = wordAddr im.table k := by
    rw [ht28, h5, h6, wordAddr, add_comm]
  have hstore := exec_sd_table 0 29 (hcsr ▸ hbare) haddr
  rw [ht29] at hstore
  obtain ⟨u, hu⟩ : ∃ u, u = t.setMem (wordAddr im.table k) (Image.lowEntry k) := ⟨_, rfl⟩
  refine ⟨u.set 6 (u.get 6 + 8), ?_, ?_, ?_, ?_, ?_, ?_, ?_⟩
  · rw [execs_append, hrun, Option.bind_eq_bind, Option.bind_some, execs_cons, hstore, hu]
    rfl
  · rw [hu]
    exact hpriv
  · rw [hu]
    exact hcsr
  · rw [hu, ← hmem]
    rfl
  · rw [Hart.get_set_of_ne _ _ (by decide), hu]
    exact ht5.trans h5
  · rw [Hart.get_set_self _ _ (by decide), hu, show (t.setMem _ _).get 6 = t.get 6 from rfl, ht6,
      h6]
    refine BitVec.eq_of_toNat_eq ?_
    rw [BitVec.toNat_add, BitVec.toNat_ofNat, BitVec.toNat_ofNat]
    change (8 * k % 2 ^ 64 + 8) % 2 ^ 64 = _
    omega
  · rw [Hart.get_set_of_ne _ _ (by decide), hu]
    exact ht31.trans h31

/-- Two entries are written. -/
theorem execs_setupVmnTable {k : ℕ} (hk : k < 256) (hr : SetupRegs im k s)
    (hbare : s.csr .satp >>> 60 = 0) :
    ∃ t, execs sv39 0 Image.setupVmnTable s = some t ∧ t.priv = s.priv ∧ t.csr = s.csr ∧
      t.mem = Function.update (Function.update s.mem (wordAddr im.table (256 + k))
        (Image.highEntry k)) (wordAddr im.table k) (Image.lowEntry k) ∧
      SetupRegs im (k + 1) t := by
  obtain ⟨t1, hrun1, hpriv1, hcsr1, hmem1, hr1, h30⟩ := execs_highEntries hk hr hbare
  obtain ⟨t2, hrun2, hpriv2, hcsr2, hmem2, hr2⟩ := execs_lowEntries hr1 h30 (hcsr1 ▸ hbare)
  refine ⟨t2, ?_, hpriv2.trans hpriv1, hcsr2.trans hcsr1, by rw [hmem2, hmem1], hr2⟩
  rw [Image.setupVmnTable, List.append_assoc, execs_append, hrun1]
  exact hrun2

theorem Image.divide_table : divide im.table 4096 = BitVec.ofNat 64 (im.table.toNat / 4096) :=
  divide_eq (by have := im.table_le; omega) (by decide) (by decide)

/-- The registers that the boot leaves alone. -/
def KeepsRegs (s t : Hart) : Prop :=
  ∀ r, r ∉ Image.temps → t.reg r = s.reg r

theorem KeepsRegs.trans {u : Hart} (h : KeepsRegs s t) (h' : KeepsRegs t u) : KeepsRegs s u :=
  fun r hr => (h' r hr).trans (h r hr)

theorem KeepsRegs.of_execs {shift : BitVec 64} {is : List Instr} {l : List Reg}
    (hrun : execs sv39 shift is s = some t) (hl : is.filterMap Instr.rd = l)
    (hsub : l ⊆ Image.temps) : KeepsRegs s t :=
  fun _ hr => execs_reg hrun fun h => hr (hsub (hl ▸ h))

/-- The table after `k` rounds of `setup_vmn_table` that began in `s`. -/
structure Filled (im : Image) (s : Hart) (k : ℕ) (t : Hart) : Prop where
  priv : t.priv = s.priv
  satp : t.csr .satp = s.csr .satp
  regs : SetupRegs im k t
  keeps : KeepsRegs s t
  low : ∀ i < k, t.mem (wordAddr im.table i) = Image.lowEntry i
  high : ∀ i < k, t.mem (wordAddr im.table (256 + i)) = Image.highEntry i
  other : SameOff im.table 512 s.mem t.mem

theorem Filled.next {k : ℕ} (h : Filled im s k t) (hk : k < 256)
    (hload : Loaded code im.addr 0 im.boot) (hbare : s.csr .satp >>> 60 = 0) :
    ∃ t', HartSteps sv39 code (im.addr 11 + 0, t) (im.addr 11 + 0, t') ∧
      Filled im s (k + 1) t' := by
  have hbare' : t.csr .satp >>> 60 = 0 := h.satp ▸ hbare
  obtain ⟨t', hrun, hpriv, hcsr, hmem, hregs⟩ := execs_setupVmnTable hk h.regs hbare'
  have hbranch := HartSteps.bgeu_next (Image.fetches_bare hbare')
    (hload 11 (.bgeu 6 31 (im.addr 26)) rfl) (by
      rw [h.regs.half, h.regs.bytes, BitVec.le_def, BitVec.toNat_ofNat]
      change ¬2048 ≤ 8 * k % 2 ^ 64
      omega)
  have hcode : Loaded code im.addr 12 Image.setupVmnTable := (hload.drop 12).take 13
  have hno : ∀ r, Instr.csrw .satp r ∉ Image.setupVmnTable := by decide
  obtain ⟨hsteps, hbare''⟩ := HartSteps.block (P := fun u => u.csr .satp >>> 60 = 0)
    (fun _ hu => Image.fetches_bare hu) hcode (by decide) (fun x hx u u' hu hexec => by
      rw [exec_satp hexec fun r hxr => hno r (hxr ▸ hx)]
      exact hu) hbare' hrun
  have hjump := HartSteps.jump (Image.fetches_bare hbare'') (hload 25 (.j (im.addr 11)) rfl)
  have hne : ∀ {a b : ℕ}, a < 512 → b < 512 → a ≠ b → wordAddr im.table a ≠ wordAddr im.table b :=
    fun ha hb hab h => hab (wordAddr_inj im.table (by omega) (by omega) h)
  refine ⟨t', hbranch.trans (hsteps.trans hjump), hpriv.trans h.priv, hcsr ▸ h.satp, hregs,
    h.keeps.trans (.of_execs hrun rfl (by decide)), fun i hi => ?_, fun i hi => ?_, fun x hx => ?_⟩
  · rw [hmem]
    rcases Nat.lt_succ_iff_lt_or_eq.mp hi with hi | rfl
    · rw [Function.update_of_ne (hne (by omega) (by omega) (by omega)),
        Function.update_of_ne (hne (by omega) (by omega) (by omega))]
      exact h.low i hi
    · exact Function.update_self _ _ _
  · rw [hmem, Function.update_of_ne (hne (by omega) (by omega) (by omega))]
    rcases Nat.lt_succ_iff_lt_or_eq.mp hi with hi | rfl
    · rw [Function.update_of_ne (hne (by omega) (by omega) (by omega))]
      exact h.high i hi
    · exact Function.update_self _ _ _
  · rw [hmem, Function.update_of_ne (hx k (by omega)), Function.update_of_ne (hx _ (by omega))]
    exact h.other x hx

/-- The words of `.bss`. -/
def Image.bssWords (im : Image) : ℕ :=
  (im.bssTop.toNat - im.bssBottom.toNat) / 8

/-- `.bss` after `k` rounds of `clear_bss` that began in `s`. -/
structure Cleared (im : Image) (s : Hart) (k : ℕ) (t : Hart) : Prop where
  map : BootMap im t
  csr : t.csr = s.csr
  ptr : t.get 5 = wordAddr im.bssBottom k + kernelVma
  reg : ∀ r, r ≠ 5 → t.reg r = s.reg r
  zero : ∀ i < k, t.mem (wordAddr im.bssBottom i) = 0
  other : SameOff im.bssBottom im.bssWords s.mem t.mem

theorem Image.toNat_bssWord {k : ℕ} (hk : k ≤ im.bssWords) :
    (wordAddr im.bssBottom k).toNat = im.bssBottom.toNat + 8 * k ∧
      im.bssBottom.toNat + 8 * k ≤ im.bssTop.toNat := by
  have h1 := im.bss_le
  have h2 := im.bssTop_le
  have h3 := im.table_le
  unfold Image.bssWords at hk
  have hle : im.bssBottom.toNat + 8 * k ≤ im.bssTop.toNat := by omega
  exact ⟨toNat_wordAddr (by omega), hle⟩

theorem Image.bss_aligned : im.bssBottom &&& 7 = 0 := by
  have hdvd := im.bssBottom_dvd
  refine BitVec.eq_of_toNat_eq ?_
  rw [toNat_and_mask _ (show (7 : BitVec 64).toNat = 2 ^ 3 - 1 from rfl)]
  change _ = 0
  omega

theorem BootMap.setMem (h : BootMap im s) {a : BitVec 64} (v : BitVec 64)
    (ha : a.toNat < im.table.toNat) : BootMap im (s.setMem a v) := by
  have hle := im.table_le
  have hne : ∀ i < 512, wordAddr im.table i ≠ a := fun i hi hia => by
    have hnat := congrArg BitVec.toNat hia
    rw [toNat_wordAddr (by omega)] at hnat
    omega
  refine ⟨h.priv, h.satp, fun i hi => ?_, fun i hi => ?_⟩
  · exact (Function.update_of_ne (hne i (by omega)) _ _).trans (h.low i hi)
  · exact (Function.update_of_ne (hne _ (by omega)) _ _).trans (h.high i hi)

theorem Cleared.next {k : ℕ} (h : Cleared im s k t) (hk : k < im.bssWords)
    (hload : Loaded code im.addr 0 im.boot) (h6 : s.get 6 = im.bssTop + kernelVma) :
    ∃ t', HartSteps sv39 code (im.addr 59 + kernelVma, t) (im.addr 59 + kernelVma, t') ∧
      Cleared im s (k + 1) t' := by
  have htable := im.table_le
  have htop := im.bssTop_le
  obtain ⟨hword, -⟩ := Image.toNat_bssWord hk.le
  obtain ⟨-, hlast⟩ := Image.toNat_bssWord (Nat.succ_le_of_lt hk)
  have hlt : (wordAddr im.bssBottom k).toNat < 2 ^ 38 := by omega
  have hbranch := HartSteps.bgeu_next h.map.fetches_high (hload 59 (.bgeu 5 6 (im.addr 63)) rfl) (by
    rw [show t.get 6 = s.get 6 from h.reg 6 (by decide), h6, h.ptr, BitVec.le_def,
      toNat_add_kernelVma hlt, toNat_add_kernelVma (by omega)]
    omega)
  obtain ⟨u, hu⟩ : ∃ u, u = t.setMem (wordAddr im.bssBottom k) 0 := ⟨_, rfl⟩
  have hstore : exec sv39 kernelVma t (.sd 0 0 5) = some u := by
    rw [hu]
    refine @exec_sd sv39 kernelVma t 5 0 0 _ ?_
    rw [h.ptr, add_zero, Hart.word, h.map.sv39_eq, h.map.priv, bootMmu_window hlt]
    exact if_pos (wordAddr_aligned im.bss_aligned k)
  have hmap : BootMap im u := hu ▸ h.map.setMem 0 (by omega)
  have hsd := step_eq h.map.fetches_high (hload 60 (.sd 0 0 5) rfl) hstore
  have haddi := step_eq hmap.fetches_high (hload 61 (.addi 5 5 8) rfl)
    (show exec sv39 kernelVma u (.addi 5 5 8) = some (u.set 5 (u.get 5 + 8)) from rfl)
  have hmap' : BootMap im (u.set 5 (u.get 5 + 8)) := hmap.congr rfl rfl rfl
  have hjump := HartSteps.jump hmap'.fetches_high (hload 62 (.j (im.addr 59)) rfl)
  refine ⟨u.set 5 (u.get 5 + 8), hbranch.trans (.head hsd (.head haddi hjump)), hmap', ?_, ?_, ?_,
    ?_, ?_⟩
  · rw [hu]
    exact h.csr
  · rw [Hart.get_set_self _ _ (by decide), hu, show (t.setMem _ 0).get 5 = t.get 5 from rfl, h.ptr,
      add_right_comm]
    refine congrArg (· + kernelVma) (BitVec.eq_of_toNat_eq ?_)
    rw [BitVec.toNat_add, hword, toNat_wordAddr (by omega)]
    change (im.bssBottom.toNat + 8 * k + 8) % 2 ^ 64 = _
    omega
  · intro r hr
    rw [hu]
    exact (Function.update_of_ne hr _ _).trans (h.reg r hr)
  · intro i hi
    rw [hu]
    rcases Nat.lt_succ_iff_lt_or_eq.mp hi with hi | rfl
    · refine (Function.update_of_ne (fun heq => ?_) _ _).trans (h.zero i hi)
      have := wordAddr_inj im.bssBottom (by omega) (by omega) heq
      omega
    · exact Function.update_self _ _ _
  · intro x hx
    rw [hu]
    exact (Function.update_of_ne (hx k hk) _ _).trans (h.other x hx)

end Run

end Toastium
