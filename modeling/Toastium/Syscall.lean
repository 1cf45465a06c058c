import Toastium.Trap

/-!
# Syscalls

An `ecall` is first given to `syscall_sync_handler`, with interrupts disabled, and what that
does not handle to `syscall_async_handler`. Each is a switch over the number of the call in
`arg0_reg`, and returns whether it handled the call; the result of the call is left in
`return_reg`.

What the calls use of the kernel (the console, the allocators, copies from and to user memory,
files) is a parameter, `SyscallServices`, over an arbitrary state. Traps that are taken while a
service runs are part of it.
-/

namespace Toastium

/-! ## Results -/

/-- `TRAP_HANDLED`. -/
def trapHandled : BitVec 64 := 0

/-- `TRAP_UNHANDLED`. -/
def trapUnhandled : BitVec 64 := 1

/-- `TRAP_SWAP_PROCESS`. -/
def trapSwapProcess : BitVec 64 := 2

/-- `U64_MAX`. -/
def u64Max : BitVec 64 := 0xffffffffffffffff

/-- `MAX_OPEN_FILE_DESCRIPTORS`. -/
def maxOpenFileDescriptors : ℕ := 1024

/-! ## Services -/

/-- The functions of the kernel that the syscalls call. Pointers are words, a process is the
address of its structure. -/
structure SyscallServices (σ : Type) where
  uartPrintChar : BitVec 8 → σ → σ
  /-- What is printed for an unknown syscall. -/
  uartPrintUnknown : TrapData → σ → σ
  irqDisable : σ → σ
  irqEnable : σ → σ
  memAlloc : BitVec 64 → σ → Except (Fault Panic) (BitVec 64 × σ)
  memFree : BitVec 64 → σ → Except (Fault Panic) σ
  pgAlloc : σ → Except (Fault Panic) (BitVec 64 × σ)
  pgFree : BitVec 64 → σ → Except (Fault Panic) σ
  /-- A byte of kernel memory. -/
  loadByte : BitVec 64 → σ → BitVec 8
  /-- The local array `path` of `syscall_fs_open`. -/
  path : BitVec 64
  clearPath : σ → σ
  /-- `kernel_read_user(src, size, dest, proc)`. -/
  kernelReadUser : BitVec 64 → BitVec 64 → BitVec 64 → ℕ → σ → Except (Fault Panic) (Bool × σ)
  /-- `kernel_write_user(dest, size, src, proc)`. -/
  kernelWriteUser : BitVec 64 → BitVec 64 → BitVec 64 → ℕ → σ → Except (Fault Panic) (Bool × σ)
  /-- `proc->file_desc_cnt`. -/
  fileDescCnt : ℕ → σ → BitVec 64
  setFileDescCnt : ℕ → BitVec 64 → σ → σ
  /-- `file_open_path(proc->working_dir, path)`. -/
  fileOpenPath : ℕ → BitVec 64 → σ → Except (Fault Panic) (BitVec 64 × σ)
  /-- `fd_get_local(local_id, proc)`. -/
  fdGetLocal : BitVec 64 → ℕ → σ → Except (Fault Panic) (BitVec 64)
  /-- `fd_insert_local(fd, proc)`. -/
  fdInsertLocal : BitVec 64 → ℕ → σ → Except (Fault Panic) (BitVec 64 × σ)
  /-- `file_descriptor_read(fd, dest, size)`. -/
  fileDescriptorRead : BitVec 64 → BitVec 64 → BitVec 64 → σ → Except (Fault Panic) (BitVec 64 × σ)
  /-- `file_descriptor_write(fd, src, size)`. -/
  fileDescriptorWrite :
    BitVec 64 → BitVec 64 → BitVec 64 → σ → Except (Fault Panic) (BitVec 64 × σ)
  /-- `fd->seek_pos`. -/
  setSeekPos : BitVec 64 → BitVec 64 → σ → Except (Fault Panic) σ

/-- A kernel without files and with no user memory that can be copied. The state is what was
printed. -/
def bareServices : SyscallServices (List (BitVec 8)) where
  uartPrintChar c s := s ++ [c]
  uartPrintUnknown _ s := s
  irqDisable s := s
  irqEnable s := s
  memAlloc _ s := .ok (0x1000, s)
  memFree _ s := .ok s
  pgAlloc s := .ok (0x2000, s)
  pgFree _ s := .ok s
  loadByte _ _ := 0
  path := 0x3000
  clearPath s := s
  kernelReadUser _ _ _ _ s := .ok (false, s)
  kernelWriteUser _ _ _ _ s := .ok (false, s)
  fileDescCnt _ _ := 0
  setFileDescCnt _ _ s := s
  fileOpenPath _ _ s := .ok (0, s)
  fdGetLocal _ _ _ := .ok 0
  fdInsertLocal _ _ s := .ok (0, s)
  fileDescriptorRead _ _ _ s := .ok (0, s)
  fileDescriptorWrite _ _ _ s := .ok (0, s)
  setSeekPos _ _ s := .ok s

/-- `trap->return_reg`. -/
def TrapData.setReturn (trap : TrapData) (r : BitVec 64) : TrapData :=
  { trap with returnReg := r }

section Calls

variable {σ : Type} (svc : SyscallServices σ)

/-! ## The console -/

/-- The loop of `syscall_uart` over the string : the bytes from `location` on. -/
def uartPrintBytes (location : BitVec 64) : ℕ → σ → σ
  | 0, s => s
  | n + 1, s => uartPrintBytes (location + 1) n (svc.uartPrintChar (svc.loadByte location s) s)

/-- The string of `syscall_uart` : copied from user memory, and printed. -/
def uartPrintStr (trap : TrapData) (s : σ) : Except (Fault Panic) (BitVec 64 × TrapData × σ) := do
  let strSrc := trap.arg2Reg
  let strSize := trap.arg3Reg
  let (location, s) ← svc.memAlloc strSize (svc.irqDisable s)
  let (response, s) ← svc.kernelReadUser strSrc strSize location trap.processPtr (svc.irqEnable s)
  let s := if response then uartPrintBytes svc location strSize.toNat s else s
  let s ← svc.memFree location (svc.irqDisable s)
  return (trapHandled, trap.setReturn (if response then 0 else -1), svc.irqEnable s)

/-- `syscall_uart`. -/
def syscallUart (async : Bool) (trap : TrapData) (s : σ) :
    Except (Fault Panic) (BitVec 64 × TrapData × σ) :=
  match trap.arg1Reg.toNat with
  | 0 => .ok (trapHandled, trap, svc.uartPrintChar (trap.arg2Reg.setWidth 8) s)
  | 1 =>
    if async = false then .ok (u64Max, trap, s)
    else if trap.arg3Reg.toNat > 512 ∨ trap.arg3Reg = 0 then
      .ok (trapHandled, trap.setReturn (-1), s)
    else uartPrintStr svc trap s
  | _ => .ok (trapUnhandled, trap, s)

/-! ## Files -/

/-- `syscall_fs_open`. -/
def syscallFsOpen (trap : TrapData) (s : σ) : Except (Fault Panic) (TrapData × σ) := do
  let proc := trap.processPtr
  if (svc.fileDescCnt proc s).toNat ≥ maxOpenFileDescriptors then return (trap.setReturn (-1), s)
  let (_, s) ← svc.kernelReadUser trap.arg1Reg 256 svc.path proc (svc.clearPath s)
  if svc.loadByte svc.path s = 0 then return (trap.setReturn (-1), s)
  let (fd, s) ← svc.fileOpenPath proc svc.path s
  if fd = 0 then return (trap.setReturn (-1), s)
  let (localId, s) ← svc.fdInsertLocal fd proc s
  return (trap.setReturn localId, svc.setFileDescCnt proc (svc.fileDescCnt proc s + 1) s)

/-- The loop of `syscall_fs_read` over whole pages. Returns whether it ran to its end, with
`cur_addr` and `read_size`. -/
def readPages (fd page : BitVec 64) (proc : ℕ) :
    ℕ → BitVec 64 → BitVec 64 → σ → Except (Fault Panic) (Bool × BitVec 64 × BitVec 64 × σ)
  | 0, curAddr, readSize, s => .ok (true, curAddr, readSize, s)
  | n + 1, curAddr, readSize, s => do
    let (readCnt, s) ← svc.fileDescriptorRead fd page 4096 s
    if readCnt.toNat < 4096 then return (false, curAddr, readSize + readCnt, s)
    let (_, s) ← svc.kernelWriteUser curAddr 4096 page proc s
    readPages fd page proc n (curAddr + 4096) (readSize + readCnt) s

/-- `syscall_fs_read`. `size` is signed, the counter of the loop is not. -/
def syscallFsRead (trap : TrapData) (s : σ) : Except (Fault Panic) (TrapData × σ) := do
  let proc := trap.processPtr
  let size := trap.arg3Reg
  let fd ← svc.fdGetLocal trap.arg1Reg proc s
  if fd = 0 then return (trap.setReturn (-1), s)
  let (page, s) ← svc.pgAlloc (svc.irqDisable s)
  let (whole, curAddr, readSize, s) ←
    readPages svc fd page proc (size.sdiv 4096).toNat trap.arg2Reg 0 (svc.irqEnable s)
  let sizeLeft := if whole then size.srem 4096 else 0
  let (readSize, s) ← if sizeLeft ≠ 0 then do
      let (readCnt, s) ← svc.fileDescriptorRead fd page sizeLeft s
      let (_, s) ← svc.kernelWriteUser curAddr readCnt page proc s
      pure (readSize + readCnt, s)
    else pure (readSize, s)
  let s ← svc.pgFree page (svc.irqDisable s)
  return (trap.setReturn readSize, svc.irqEnable s)

/-- The loop of `syscall_fs_write` over whole pages. Returns whether it ran to its end, with
`cur_addr` and `write_size`. -/
def writePages (fd page : BitVec 64) (proc : ℕ) :
    ℕ → BitVec 64 → BitVec 64 → σ → Except (Fault Panic) (Bool × BitVec 64 × BitVec 64 × σ)
  | 0, curAddr, writeSize, s => .ok (true, curAddr, writeSize, s)
  | n + 1, curAddr, writeSize, s => do
    let (isUserRead, s) ← svc.kernelReadUser curAddr 4096 page proc s
    if isUserRead = false then return (false, curAddr, writeSize, s)
    let (writeCnt, s) ← svc.fileDescriptorWrite fd page 4096 s
    if writeCnt.toNat < 4096 then return (false, curAddr, writeSize + writeCnt, s)
    writePages fd page proc n (curAddr + 4096) (writeSize + writeCnt) s

/-- `syscall_fs_write`. -/
def syscallFsWrite (trap : TrapData) (s : σ) : Except (Fault Panic) (TrapData × σ) := do
  let proc := trap.processPtr
  let size := trap.arg3Reg
  let fd ← svc.fdGetLocal trap.arg1Reg proc s
  if fd = 0 then return (trap.setReturn (-1), s)
  let (page, s) ← svc.pgAlloc (svc.irqDisable s)
  let (whole, curAddr, writeSize, s) ←
    writePages svc fd page proc (size.sdiv 4096).toNat trap.arg2Reg 0 (svc.irqEnable s)
  let sizeLeft := if whole then size.srem 4096 else 0
  let (writeSize, s) ← if sizeLeft ≠ 0 then do
      let (isUserRead, s) ← svc.kernelReadUser curAddr sizeLeft page proc s
      let sizeLeft := if isUserRead then sizeLeft else 0
      let (writeCnt, s) ← svc.fileDescriptorWrite fd page sizeLeft s
      pure (writeSize + writeCnt, s)
    else pure (writeSize, s)
  let s ← svc.pgFree page (svc.irqDisable s)
  return (trap.setReturn writeSize, svc.irqEnable s)

/-- `syscall_fs_seek`. `return_reg` is set only if there is no such descriptor. -/
def syscallFsSeek (trap : TrapData) (s : σ) : Except (Fault Panic) (TrapData × σ) := do
  let fd ← svc.fdGetLocal trap.arg1Reg trap.processPtr s
  if fd = 0 then return (trap.setReturn (-1), s)
  let s ← svc.setSeekPos fd trap.arg2Reg s
  return (trap, s)

/-! ## The two handlers -/

/-- `idle_loop_system`, which does not return. -/
def idleLoopSystem : Except (Fault Panic) σ :=
  .error .fuel

/-- `syscall_sync_handler`. -/
def syscallSyncHandler (trap : TrapData) (s : σ) :
    Except (Fault Panic) (BitVec 64 × TrapData × σ) :=
  match trap.arg0Reg.toNat with
  | 1 => syscallUart svc false trap s
  | _ => .ok (trapUnhandled, trap, s)

/-- `syscall_async_handler`. -/
def syscallAsyncHandler (trap : TrapData) (s : σ) :
    Except (Fault Panic) (BitVec 64 × TrapData × σ) :=
  match trap.arg0Reg.toNat with
  | 1 => syscallUart svc true trap s
  | 3 => do
    let s ← idleLoopSystem
    return (trapHandled, trap, s)
  | 4 => do
    let (trap, s) ← syscallFsOpen svc trap s
    return (trapHandled, trap, s)
  | 5 => do
    let (trap, s) ← syscallFsRead svc trap s
    return (trapHandled, trap, s)
  | 6 => do
    let (trap, s) ← syscallFsWrite svc trap s
    return (trapHandled, trap, s)
  | 7 => do
    let (trap, s) ← syscallFsSeek svc trap s
    return (trapHandled, trap, s)
  | _ => .ok (trapUnhandled, trap, svc.uartPrintUnknown trap s)

/-- The calls that `syscall_sync_handler` does not answer with `TRAP_UNHANDLED`. -/
def SyncCall (trap : TrapData) : Prop :=
  trap.arg0Reg = 1 ∧ (trap.arg1Reg = 0 ∨ trap.arg1Reg = 1)

variable {trap : TrapData} {s : σ}

theorem syscallSyncHandler_left (h : ¬SyncCall trap) :
    syscallSyncHandler svc trap s = .ok (trapUnhandled, trap, s) := by
  unfold syscallSyncHandler
  split
  next h0 =>
    have h0 : trap.arg0Reg = 1 := BitVec.eq_of_toNat_eq h0
    unfold syscallUart
    split
    next h1 => exact absurd ⟨h0, .inl (BitVec.eq_of_toNat_eq h1)⟩ h
    next h1 => exact absurd ⟨h0, .inr (BitVec.eq_of_toNat_eq h1)⟩ h
    next => rfl
  next => rfl

theorem syscallSyncHandler_char (h0 : trap.arg0Reg = 1) (h1 : trap.arg1Reg = 0) :
    syscallSyncHandler svc trap s =
      .ok (trapHandled, trap, svc.uartPrintChar (trap.arg2Reg.setWidth 8) s) := by
  simp only [syscallSyncHandler, syscallUart, h0, h1]
  rfl

theorem syscallSyncHandler_str (h0 : trap.arg0Reg = 1) (h1 : trap.arg1Reg = 1) :
    syscallSyncHandler svc trap s = .ok (u64Max, trap, s) := by
  simp only [syscallSyncHandler, syscallUart, h0, h1]
  rfl

theorem handled_eq_ok {call : Except (Fault Panic) (TrapData × σ)} {r : BitVec 64}
    {trap' : TrapData} {s' : σ} :
    (do let (trap, s) ← call; return (trapHandled, trap, s)) = Except.ok (r, trap', s') ↔
      r = trapHandled ∧ call = .ok (trap', s') := by
  constructor
  · intro h
    obtain ⟨⟨t, u⟩, hcall, h⟩ := bind_eq_ok.mp h
    cases h
    exact ⟨rfl, hcall⟩
  · rintro ⟨rfl, rfl⟩
    rfl

/-- Every call of `syscall_async_handler` that returns is handled or not. -/
theorem syscallAsyncHandler_response {r : BitVec 64} {trap' : TrapData} {s' : σ}
    (h : syscallAsyncHandler svc trap s = .ok (r, trap', s')) :
    r = trapHandled ∨ r = trapUnhandled := by
  unfold syscallAsyncHandler at h
  split at h
  next =>
    unfold syscallUart at h
    split at h
    next => exact .inl (fst_of_ok h)
    next =>
      rw [if_neg (by decide)] at h
      split_ifs at h
      · exact .inl (fst_of_ok h)
      · unfold uartPrintStr at h
        obtain ⟨a, -, h⟩ := bind_eq_ok.mp h
        obtain ⟨b, -, h⟩ := bind_eq_ok.mp h
        obtain ⟨c, -, h⟩ := bind_eq_ok.mp h
        exact .inl (fst_of_ok h)
    next => exact .inr (fst_of_ok h)
  next => cases h
  next => exact .inl (handled_eq_ok.1 h).1
  next => exact .inl (handled_eq_ok.1 h).1
  next => exact .inl (handled_eq_ok.1 h).1
  next => exact .inl (handled_eq_ok.1 h).1
  next => exact .inr (fst_of_ok h)

/-- The file calls that return leave the number of the call in `return_reg`, where it is on
entry. -/
structure FsKeepsNumber (trap : TrapData) (s : σ) : Prop where
  fsOpen : trap.arg0Reg = 4 → ∀ trap' s', syscallFsOpen svc trap s = .ok (trap', s') →
    trap'.returnReg = 4
  fsRead : trap.arg0Reg = 5 → ∀ trap' s', syscallFsRead svc trap s = .ok (trap', s') →
    trap'.returnReg = 5
  fsWrite : trap.arg0Reg = 6 → ∀ trap' s', syscallFsWrite svc trap s = .ok (trap', s') →
    trap'.returnReg = 6
  fsSeek : trap.arg0Reg = 7 → svc.fdGetLocal trap.arg1Reg trap.processPtr s ≠ .ok 0

theorem syscallFsSeek_return (hret : trap.returnReg = 7) :
    (∀ trap' s', syscallFsSeek svc trap s = .ok (trap', s') → trap'.returnReg = 7) ↔
      svc.fdGetLocal trap.arg1Reg trap.processPtr s ≠ .ok 0 := by
  constructor
  · intro h hfd
    have hrun : syscallFsSeek svc trap s = .ok (trap.setReturn (-1), s) := by
      simp only [syscallFsSeek, hfd, ok_bind, if_true, pure_eq_ok]
    have hne : (-1 : BitVec 64) ≠ 7 := by decide
    exact hne (h _ _ hrun)
  · intro hfd trap' s' h
    obtain ⟨fd, hget, h⟩ := bind_eq_ok.mp h
    have hne : fd ≠ 0 := fun e => hfd (e ▸ hget)
    rw [if_neg hne] at h
    obtain ⟨s1, -, h⟩ := bind_eq_ok.mp h
    rw [fst_of_ok h, hret]

/-- A handled call leaves `return_reg` as it is exactly if it is not a file call with another
result. -/
theorem syscallAsyncHandler_return (hcall : ¬SyncCall trap) (hret : trap.returnReg = trap.arg0Reg) :
    (∀ trap' s', syscallAsyncHandler svc trap s = .ok (trapHandled, trap', s') →
      trap'.returnReg = trap.returnReg) ↔ FsKeepsNumber svc trap s := by
  constructor
  · intro h
    have hfs : ∀ {n : BitVec 64} {call : Except (Fault Panic) (TrapData × σ)}, trap.arg0Reg = n →
        syscallAsyncHandler svc trap s =
          (do let (trap, s) ← call; return (trapHandled, trap, s)) →
        ∀ trap' s', call = .ok (trap', s') → trap'.returnReg = n := fun h0 hrun trap' s' hc => by
      rw [h trap' s' (hrun.trans (handled_eq_ok.2 ⟨rfl, hc⟩)), hret, h0]
    refine ⟨fun h0 => hfs h0 ?_, fun h0 => hfs h0 ?_, fun h0 => hfs h0 ?_, fun h0 => ?_⟩
    · rw [syscallAsyncHandler, h0]
      rfl
    · rw [syscallAsyncHandler, h0]
      rfl
    · rw [syscallAsyncHandler, h0]
      rfl
    · refine (syscallFsSeek_return svc (hret.trans h0)).1 (hfs h0 ?_)
      rw [syscallAsyncHandler, h0]
      rfl
  · intro h trap' s' hrun
    have hne : trapHandled ≠ trapUnhandled := by decide
    unfold syscallAsyncHandler at hrun
    split at hrun
    next h0 =>
      have h0 : trap.arg0Reg = 1 := BitVec.eq_of_toNat_eq h0
      unfold syscallUart at hrun
      split at hrun
      next h1 => exact absurd ⟨h0, .inl (BitVec.eq_of_toNat_eq h1)⟩ hcall
      next h1 => exact absurd ⟨h0, .inr (BitVec.eq_of_toNat_eq h1)⟩ hcall
      next => exact absurd (fst_of_ok hrun) hne
    next => cases hrun
    next h0 =>
      have h0 : trap.arg0Reg = 4 := BitVec.eq_of_toNat_eq h0
      rw [h.fsOpen h0 _ _ (handled_eq_ok.1 hrun).2, hret, h0]
    next h0 =>
      have h0 : trap.arg0Reg = 5 := BitVec.eq_of_toNat_eq h0
      rw [h.fsRead h0 _ _ (handled_eq_ok.1 hrun).2, hret, h0]
    next h0 =>
      have h0 : trap.arg0Reg = 6 := BitVec.eq_of_toNat_eq h0
      rw [h.fsWrite h0 _ _ (handled_eq_ok.1 hrun).2, hret, h0]
    next h0 =>
      have h0 : trap.arg0Reg = 7 := BitVec.eq_of_toNat_eq h0
      rw [(syscallFsSeek_return svc (hret.trans h0)).2 (h.fsSeek h0) _ _ (handled_eq_ok.1 hrun).2,
        hret, h0]
    next => exact absurd (fst_of_ok hrun) hne

end Calls

end Toastium
