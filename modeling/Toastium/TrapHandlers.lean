import Toastium.KillPaths
import Toastium.Syscall

/-!
# The trap handlers

`trap_entry` saves a trap in the trap frame of the running process and calls
`handle_sync_trap`. If that returns 0 the process is resumed, otherwise the result is the stack
pointer with which `handle_async_trap` is called. Three things go wrong on this path.

`trapframe_parse` reads the privilege from a bit of `scause` that is clear in every exception, so
faults of a process are taken for faults of the kernel : `userFault_panics`.

`handle_sync_trap` returns the top of the stack for a page fault in `handle_async_trap`, whose
frames are there, and 1 for traps in a trap : `syncStack_ok_iff`.

`uninterruptible_trap_syscall` takes a call that `syscall_sync_handler` left to
`syscall_async_handler` for handled, and `interruptable_trap_syscall` never sends the result of
a call : `syscall_served_iff`.

The state is that of one trap : `frame` stays the frame where it was saved. The mappings of the
trap frames are in `TrapFrames`.
-/

namespace Toastium

/-! ## The state -/

/-- The machine while a trap of the process `frame.processPtr` is handled : the trap frame with
the trap, the fields of the process that its traps depend on, and the rest of the kernel. -/
structure Machine (σ : Type) where
  frame : TrapFrame
  trapState : TrapState
  readingUserspace : Bool
  kernelspaceTrapframe : TrapFrame
  kernel : Kernel
  services : σ

/-- One normal process, which runs, and the idle process. -/
def oneProcess : Kernel :=
  { Kernel.empty with
    procs := fun p => if p = 64 then ⟨1, 0, true, .normal, 1⟩ else ⟨0, 0, false, .idle, 0⟩
    live := [64, 128]
    processUpto := 2
    itemCnt := 2
    hartIdleProcess := 128
    current := 64 }

/-- A trap of the process of `oneProcess` in user mode. -/
def oneTrap (scause a0 a1 : BitVec 64) : Machine (List (BitVec 8)) where
  frame := ⟨0x8000, a0, a1, 0, 0, scause, 0x1000, 0, 0, 64⟩
  trapState := .process
  readingUserspace := false
  kernelspaceTrapframe := ⟨0, 0, 0, 0, 0, 0, 0, 0, 0, 64⟩
  kernel := oneProcess
  services := []

/-- A load page fault of that process in `handle_async_trap`, with its frames on the stack. -/
def oneNestedFault : Machine (List (BitVec 8)) where
  frame := ⟨0xffffffffffffdf00, 0, 0, 0, 0, 13, 0xffffffc000001000, 0x5000, 0x100, 64⟩
  trapState := .interruptableTrap
  readingUserspace := true
  kernelspaceTrapframe :=
    ⟨0xffffffffffffdf00, 0, 0, 0, 0, 13, 0xffffffc000001000, 0x5000, 0x100, 64⟩
  kernel := oneProcess
  services := []

/-- `trap_change_process`. The current process is the one whose trap frame is mapped. -/
def trapChangeProcess (fuel : ℕ) (trap : TrapData) (k : Kernel) : Except (Fault Panic) Kernel :=
  { k with current := trap.processPtr }.trapChangeProcess fuel

/-! ## Handlers with interrupts disabled -/

/-- The handlers of faults : the process is killed, and the kernel panics with `e` if the fault
is its own. -/
def killOnFault (e : Panic) (fuel : ℕ) (trap : TrapData) (pastProcState : TrapState) (k : Kernel) :
    Except (Fault Panic) (BitVec 64 × Kernel) :=
  if pastProcState ≠ .process ∨ trap.privilege ≠ .user then .error (.panic e)
  else do
    let k ← k.killProcess fuel (k.procs trap.processPtr).processId
    let k ← trapChangeProcess fuel trap k
    return (trapHandled, k)

/-- `uninterruptible_trap_access_misaligned`. -/
def uninterruptibleTrapAccessMisaligned :=
  killOnFault .kernelTrapAccessMisaligned

/-- `uninterruptible_trap_access_fault`. -/
def uninterruptibleTrapAccessFault :=
  killOnFault .kernelTrapAccessFault

/-- `uninterruptible_trap_instruction_invalid`. -/
def uninterruptibleTrapInstructionInvalid :=
  killOnFault .kernelTrapInstructionInvalid

/-- `uninterruptible_trap_page_fault`. -/
def uninterruptibleTrapPageFault (pastProcState : TrapState) (readingUserspace : Bool) :
    Except (Fault Panic) (BitVec 64) :=
  if pastProcState ≠ .process ∧ readingUserspace = false then .error (.panic .kernelTrapPageFault)
  else .ok trapUnhandled

/-- `uninterruptible_trap_timer`. -/
def uninterruptibleTrapTimer (trap : TrapData) : Except (Fault Panic) (BitVec 64) :=
  if trap.privilege ≠ .supervisor then .error (.panic .kernelTrapTimerNonSupervisorPrivilege)
  else .ok trapSwapProcess

section Handlers

variable {σ : Type} (svc : SyscallServices σ)

/-- `uninterruptible_trap_syscall`. Every response but `TRAP_UNHANDLED` counts as handled. -/
def uninterruptibleTrapSyscall (trap : TrapData) (m : Machine σ) :
    Except (Fault Panic) (BitVec 64 × Machine σ) := do
  let (response, trap, s) ← syscallSyncHandler svc trap m.services
  if response = trapUnhandled then return (trapUnhandled, { m with services := s })
  return (trapHandled, { m with
    frame := trapDataIterInstruction (trapDataSetResponse trap m.frame)
    services := s })

/-- The switch of `handle_sync_trap`. -/
def syncTrapSwitch (fuel : ℕ) (trap : TrapData) (pastProcState : TrapState) (m : Machine σ) :
    Except (Fault Panic) (BitVec 64 × Machine σ) :=
  match trap.code with
  | .accessMisaligned => do
    let (isHandled, k) ← uninterruptibleTrapAccessMisaligned fuel trap pastProcState m.kernel
    return (isHandled, { m with kernel := k })
  | .accessFault => do
    let (isHandled, k) ← uninterruptibleTrapAccessFault fuel trap pastProcState m.kernel
    return (isHandled, { m with kernel := k })
  | .instructionInvalid => do
    let (isHandled, k) ← uninterruptibleTrapInstructionInvalid fuel trap pastProcState m.kernel
    return (isHandled, { m with kernel := k })
  | .breakpoint => .error (.panic .kernelTrapUnimplentedBreakpoint)
  | .syscall => uninterruptibleTrapSyscall svc trap m
  | .pageFault => do
    let isHandled ← uninterruptibleTrapPageFault pastProcState m.readingUserspace
    return (isHandled, m)
  | .doubleTrap => .error (.panic .kernelTrapDoubleTrap)
  | .softwareCheck => .error (.panic .kernelTrapUnimplentedSoftwareCheck)
  | .hardwareError => .error (.panic .kernelTrapUnimplentedHardwareError)
  | .softwareInterrupt => .error (.panic .kernelTrapUnimplentedSoftwareInterrupt)
  | .timerInterrupt => do
    let isHandled ← uninterruptibleTrapTimer trap
    return (isHandled, m)
  | .externalInterrupt => .error (.panic .kernelTrapUnimplentedExternalInterrupt)

/-- The stack that `handle_sync_trap` returns for an unhandled trap, at the top of the process
kernel stack. -/
def asyncStack : BitVec 64 :=
  BitVec.ofNat 64 (roundModDown (procKernStackTop - 8) 8)

/-- `handle_sync_trap`. -/
def handleSyncTrap (fuel : ℕ) (m : Machine σ) : Except (Fault Panic) (BitVec 64 × Machine σ) := do
  let trap ← trapframeParse m.frame
  let pastProcState := m.trapState
  let (isHandled, m) ←
    syncTrapSwitch svc fuel trap pastProcState { m with trapState := .uninterruptableTrap }
  let m := { m with trapState := pastProcState }
  if isHandled = trapUnhandled then
    if pastProcState = .uninterruptableTrap then
      -- the stack is assigned to `response`, which is not returned
      let _response := roundModDown (m.kernelspaceTrapframe.register2 - 8).toNat 8
      return (isHandled, m)
    else return (asyncStack, m)
  else if isHandled = trapSwapProcess then do
    let k ← trapChangeProcess fuel trap m.kernel
    return (trapHandled, { m with kernel := k })
  else return (isHandled, m)

/-! ## Handlers with interrupts enabled -/

/-- `interruptable_trap_response`. -/
structure InterruptableTrapResponse where
  queuedResponse : BitVec 64
  skipInstruction : Bool
  killProcess : Bool
  sendResponse : Bool
  deriving DecidableEq, Repr

/-- `pgfault_load`, a stub. -/
def pgfaultLoad (_trap : TrapData) : Bool :=
  false

/-- `interruptable_trap_page_fault`. -/
def interruptableTrapPageFault (trap : TrapData) (trapState : TrapState)
    (response : InterruptableTrapResponse) : InterruptableTrapResponse :=
  let pageLoaded := pgfaultLoad trap
  if trapState = .readUserspace then
    { response with
      queuedResponse := if pageLoaded then 0 else 1
      sendResponse := !pageLoaded
      skipInstruction := !pageLoaded }
  else if pageLoaded = false then { response with killProcess := true }
  else response

/-- `interruptable_trap_syscall`. -/
def interruptableTrapSyscall (trap : TrapData) (response : InterruptableTrapResponse) (s : σ) :
    Except (Fault Panic) (TrapData × InterruptableTrapResponse × σ) := do
  let (asyncResponse, trap, s) ← syscallAsyncHandler svc trap s
  let response :=
    if asyncResponse = trapUnhandled then { response with killProcess := true } else response
  return (trap, { response with skipInstruction := true }, s)

/-- The start of `handle_async_trap`. -/
def asyncStart (m : Machine σ) : Except (Fault Panic) (TrapData × Machine σ) := do
  let trap ← trapframeParse m.frame
  let (_, trapState) ← asyncEnter m.trapState trap.code m.readingUserspace
  return (trap, { m with trapState := trapState })

/-- The switch of `handle_async_trap`. -/
def asyncTrapSwitch (trap : TrapData) (m : Machine σ) :
    Except (Fault Panic) (TrapData × InterruptableTrapResponse × Machine σ) :=
  let response : InterruptableTrapResponse := ⟨0, false, false, false⟩
  match trap.code with
  | .syscall => do
    let (trap, response, s) ← interruptableTrapSyscall svc trap response m.services
    return (trap, response, { m with services := s })
  | .pageFault => .ok (trap, interruptableTrapPageFault trap m.trapState response, m)
  | _ => .error (.panic .unhandledKernelProcessTrap)

/-- The frame at the end of `handle_async_trap`. -/
def respond (trap : TrapData) (response : InterruptableTrapResponse) (frame : TrapFrame) :
    TrapFrame :=
  let frame := if response.sendResponse then
    trapDataSetResponse { trap with returnReg := response.queuedResponse } frame else frame
  if response.skipInstruction then trapDataIterInstruction frame else frame

/-- `handle_async_trap`. -/
def handleAsyncTrap (fuel : ℕ) (m : Machine σ) : Except (Fault Panic) (Machine σ) := do
  let pastProcState := m.trapState
  let (trap, m) ← asyncStart m
  let (trap, response, m) ← asyncTrapSwitch svc trap m
  let (_, trapState) ← asyncLeave pastProcState
  let m := { m with trapState := trapState, frame := respond trap response m.frame }
  if response.killProcess then do
    let k ← trapChangeProcess fuel trap m.kernel
    let k ← k.killProcess fuel (k.procs trap.processPtr).processId
    return { m with kernel := k }
  else return m

/-- `trap_entry`, up to `resume_process`. -/
def trapEntry (fuel : ℕ) (m : Machine σ) : Except (Fault Panic) (Machine σ) := do
  let (stack, m) ← handleSyncTrap svc fuel m
  if stack ≠ 0 then handleAsyncTrap svc fuel m else return m

end Handlers

/-! ## The stack of `handle_async_trap` -/

/-- An address of the process kernel stack. -/
def InKernStack (sp : BitVec 64) : Prop :=
  procKernStackStart ≤ sp.toNat ∧ sp.toNat ≤ procKernStackTop

/-- An aligned address of the process kernel stack. -/
def StackPtr (sp : BitVec 64) : Prop :=
  8 ∣ sp.toNat ∧ InKernStack sp

section Stack

variable {σ : Type} (svc : SyscallServices σ)

/-- A page fault of `handle_async_trap` that reads user memory. -/
structure NestedFault (m : Machine σ) : Prop where
  code : ∃ trap, trapframeParse m.frame = .ok trap ∧ trap.code = .pageFault
  state : m.trapState = .interruptableTrap
  reading : m.readingUserspace = true

/-- `handle_sync_trap` returns 0 or a stack pointer, and for a page fault in the handler one
below the frames of that. -/
structure SyncStackOk (m : Machine σ) : Prop where
  returned : ∀ fuel r m', handleSyncTrap svc fuel m = .ok (r, m') → r = 0 ∨ StackPtr r
  nested : NestedFault m → InKernStack m.kernelspaceTrapframe.register2 → ∀ fuel,
    ∃ r m', handleSyncTrap svc fuel m = .ok (r, m') ∧ StackPtr r ∧
      r.toNat < m.kernelspaceTrapframe.register2.toNat

/-- The traps that are left to `handle_async_trap`. -/
def LeftToAsync (m : Machine σ) : Prop :=
  ∃ trap, trapframeParse m.frame = .ok trap ∧
    (trap.code = .pageFault ∧ (m.trapState = .process ∨ m.readingUserspace = true) ∨
      trap.code = .syscall ∧ ¬SyncCall trap)

variable {svc}
variable {m m' : Machine σ} {fuel : ℕ} {r : BitVec 64} {trap : TrapData}

/-- A trap that is left to `handle_async_trap` changes nothing. -/
theorem handleSyncTrap_left (h : LeftToAsync m) (fuel : ℕ) :
    handleSyncTrap svc fuel m =
      .ok (if m.trapState = .uninterruptableTrap then trapUnhandled else asyncStack, m) := by
  obtain ⟨trap, hparse, h⟩ := h
  have hswitch : syncTrapSwitch svc fuel trap m.trapState
      { m with trapState := .uninterruptableTrap } =
      .ok (trapUnhandled, { m with trapState := .uninterruptableTrap }) := by
    rcases h with ⟨hcode, hstate⟩ | ⟨hcode, hcall⟩
    · have hread : ¬(m.trapState ≠ .process ∧ m.readingUserspace = false) := by
        rintro ⟨h1, h2⟩
        rcases hstate with h | h
        · exact h1 h
        · exact absurd (h.symm.trans h2) (by decide)
      simp only [syncTrapSwitch, hcode, uninterruptibleTrapPageFault, if_neg hread, ok_bind,
        pure_eq_ok]
    · simp only [syncTrapSwitch, hcode, uninterruptibleTrapSyscall,
        syscallSyncHandler_left svc hcall, ok_bind, if_true, pure_eq_ok]
  simp only [handleSyncTrap, hparse, hswitch, ok_bind, if_true, pure_eq_ok]
  split_ifs <;> rfl

theorem killOnFault_handled {e : Panic} {past : TrapState} {k k' : Kernel}
    (h : killOnFault e fuel trap past k = .ok (r, k')) : r = trapHandled := by
  unfold killOnFault at h
  split_ifs at h
  obtain ⟨k1, -, h⟩ := bind_eq_ok.mp h
  obtain ⟨k2, -, h⟩ := bind_eq_ok.mp h
  exact fst_of_ok h

theorem killBranch_handled {e : Panic} {past : TrapState}
    (h : (do
      let (isHandled, k) ← killOnFault e fuel trap past m.kernel
      return (isHandled, { m with kernel := k })) = Except.ok (r, m')) : r = trapHandled := by
  obtain ⟨⟨r', k⟩, hk, h⟩ := bind_eq_ok.mp h
  exact (fst_of_ok h).trans (killOnFault_handled hk)

theorem uninterruptibleTrapSyscall_cases
    (h : uninterruptibleTrapSyscall svc trap m = .ok (r, m')) :
    r = trapHandled ∨ r = trapUnhandled ∧ ¬SyncCall trap := by
  by_cases hcall : SyncCall trap
  · refine .inl ?_
    unfold uninterruptibleTrapSyscall at h
    rcases hcall with ⟨h0, h1 | h1⟩
    · rw [syscallSyncHandler_char svc h0 h1] at h
      exact fst_of_ok h
    · rw [syscallSyncHandler_str svc h0 h1] at h
      exact fst_of_ok h
  · refine .inr ⟨?_, hcall⟩
    rw [uninterruptibleTrapSyscall, syscallSyncHandler_left svc hcall] at h
    exact fst_of_ok h

/-- What the switch returns, and the traps that it does not handle. -/
theorem syncTrapSwitch_cases {past : TrapState}
    (h : syncTrapSwitch svc fuel trap past m = .ok (r, m')) :
    r = trapHandled ∨ r = trapSwapProcess ∨ r = trapUnhandled ∧
      (trap.code = .pageFault ∧ (past = .process ∨ m.readingUserspace = true) ∨
        trap.code = .syscall ∧ ¬SyncCall trap) := by
  unfold syncTrapSwitch at h
  split at h
  next => exact .inl (killBranch_handled h)
  next => exact .inl (killBranch_handled h)
  next => exact .inl (killBranch_handled h)
  next => cases h
  next hcode =>
    rcases uninterruptibleTrapSyscall_cases h with hr | ⟨hr, hcall⟩
    · exact .inl hr
    · exact .inr (.inr ⟨hr, .inr ⟨hcode, hcall⟩⟩)
  next hcode =>
    obtain ⟨r', hr, h⟩ := bind_eq_ok.mp h
    unfold uninterruptibleTrapPageFault at hr
    split_ifs at hr with hread
    have hr' : r = trapUnhandled :=
      (fst_of_ok h).trans (Except.ok.inj hr).symm
    refine .inr (.inr ⟨hr', .inl ⟨hcode, ?_⟩⟩)
    by_cases hp : past = .process
    · exact .inl hp
    · exact .inr (Bool.eq_true_of_not_eq_false fun hf => hread ⟨hp, hf⟩)
  next => cases h
  next => cases h
  next => cases h
  next => cases h
  next =>
    obtain ⟨r', hr, h⟩ := bind_eq_ok.mp h
    unfold uninterruptibleTrapTimer at hr
    split_ifs at hr
    exact .inr (.inl ((fst_of_ok h).trans (Except.ok.inj hr).symm))
  next => cases h

/-- Every other trap that returns is handled. -/
theorem handleSyncTrap_zero (hleft : ¬LeftToAsync m)
    (h : handleSyncTrap svc fuel m = .ok (r, m')) : r = 0 := by
  obtain ⟨trap, hparse, h⟩ := bind_eq_ok.mp h
  obtain ⟨⟨isHandled, m1⟩, hswitch, h⟩ := bind_eq_ok.mp h
  rcases syncTrapSwitch_cases hswitch with hr | hr | ⟨-, hr⟩
  · simp only [hr, trapHandled, trapUnhandled, trapSwapProcess] at h
    exact fst_of_ok h
  · simp only [hr, trapUnhandled, trapSwapProcess] at h
    obtain ⟨k, -, h⟩ := bind_eq_ok.mp h
    exact fst_of_ok h
  · exact absurd ⟨trap, hparse, hr⟩ hleft

theorem asyncStack_toNat : asyncStack.toNat = 0xffffffffffffdff0 := by
  decide

theorem stackPtr_asyncStack : StackPtr asyncStack := by
  unfold StackPtr InKernStack
  rw [asyncStack_toNat]
  decide

theorem not_stackPtr_trapUnhandled : ¬(trapUnhandled = 0 ∨ StackPtr trapUnhandled) := by
  unfold StackPtr InKernStack
  decide

theorem NestedFault.left (h : NestedFault m) : LeftToAsync m := by
  obtain ⟨trap, hparse, hcode⟩ := h.code
  exact ⟨trap, hparse, .inl ⟨hcode, .inr h.reading⟩⟩

/-- The stack pointer is right exactly for traps that are handled or not taken in a trap, and
for page faults in the handler only if that has nothing on its stack. -/
theorem syncStack_ok_iff (svc : SyscallServices σ) (m : Machine σ) :
    SyncStackOk svc m ↔ ¬(m.trapState = .uninterruptableTrap ∧ LeftToAsync m) ∧
      (NestedFault m → InKernStack m.kernelspaceTrapframe.register2 →
        0xffffffffffffdff0 < m.kernelspaceTrapframe.register2.toNat) := by
  constructor
  · intro h
    refine ⟨?_, fun hnested hin => ?_⟩
    · rintro ⟨hstate, hleft⟩
      have hrun : handleSyncTrap svc 0 m = .ok (trapUnhandled, m) := by
        rw [handleSyncTrap_left hleft, if_pos hstate]
      exact not_stackPtr_trapUnhandled (h.returned 0 _ _ hrun)
    · obtain ⟨r, m', hrun, -, hlt⟩ := h.nested hnested hin 0
      rw [handleSyncTrap_left hnested.left, hnested.state] at hrun
      have hr : r = asyncStack := fst_of_ok hrun
      rwa [hr, asyncStack_toNat] at hlt
  · rintro ⟨hstate, hsp⟩
    refine ⟨fun fuel r m' hrun => ?_, fun hnested hin fuel => ?_⟩
    · by_cases hleft : LeftToAsync m
      · rw [handleSyncTrap_left hleft, if_neg fun e => hstate ⟨e, hleft⟩] at hrun
        have hr : r = asyncStack := fst_of_ok hrun
        exact .inr (hr ▸ stackPtr_asyncStack)
      · exact .inl (handleSyncTrap_zero hleft hrun)
    · refine ⟨asyncStack, m, ?_, stackPtr_asyncStack, ?_⟩
      · rw [handleSyncTrap_left hnested.left, hnested.state]
        rfl
      · rw [asyncStack_toNat]
        exact hsp hnested hin

theorem not_syncStackOk_nested : NestedFault oneNestedFault ∧
    InKernStack oneNestedFault.kernelspaceTrapframe.register2 ∧
    ¬SyncStackOk bareServices oneNestedFault := by
  have hnested : NestedFault oneNestedFault := ⟨⟨_, rfl, rfl⟩, rfl, rfl⟩
  have hin : InKernStack oneNestedFault.kernelspaceTrapframe.register2 := by
    unfold InKernStack
    decide
  refine ⟨hnested, hin, fun h => ?_⟩
  obtain ⟨r, m', hrun, -, hlt⟩ := h.nested hnested hin 0
  rw [handleSyncTrap_left hnested.left] at hrun
  have hr : r = asyncStack := fst_of_ok hrun
  rw [hr, asyncStack_toNat] at hlt
  exact absurd hlt (by decide)

end Stack

/-! ## Faults of a process -/

section Faults

variable {σ : Type}

/-- A misaligned access, an access fault or an illegal instruction in user mode (`SPP`, bit 8 of
`sstatus`, is clear), of a normal running process. -/
structure UserFault (m : Machine σ) : Prop where
  cause : m.frame.scause ∈ [0, 1, 2, 4, 5, 6, 7]
  user : m.frame.sstatus.getLsbD 8 = false
  state : m.trapState = .process
  normal : (m.kernel.procs m.frame.processPtr).processType = .normal
  running : (m.kernel.procs m.frame.processPtr).running = true

/-- `handle_sync_trap` returns, has killed the process and changed to another one. -/
def FaultKills (svc : SyscallServices σ) (m : Machine σ) : Prop :=
  ∃ fuel r m', handleSyncTrap svc fuel m = .ok (r, m') ∧
    (m.kernel.procs m.frame.processPtr).processId ∈ m'.kernel.killed ∧
    m'.kernel.current ≠ m.frame.processPtr

theorem parseException_le {p : PrivilegeMode} {n : ℕ} {r : TrapCode × PrivilegeMode}
    (h : parseException p n = .ok r) : n ≤ 19 := by
  by_contra hn
  have hdefault : parseException p n = .error (.panic .unhandledTrapExceptionOccurred) := by
    unfold parseException
    split <;> first | omega | rfl
  rw [hdefault] at h
  cases h

theorem parseException_user {n : ℕ} {code : TrapCode} {p : PrivilegeMode}
    (h : parseException .supervisor n = .ok (code, p)) : p = .user ↔ n = 8 := by
  unfold parseException at h
  split at h <;> cases h <;> decide

/-- Bit 8 of `scause` is clear in every exception. -/
theorem trapframeParse_exception {frame : TrapFrame} {trap : TrapData}
    (hexc : frame.scause.getLsbD 63 = false) (h : trapframeParse frame = .ok trap) :
    parseException .supervisor frame.scause.toNat = .ok (trap.code, trap.privilege) := by
  have hlt : frame.scause.toNat < 2 ^ 63 := by
    rw [BitVec.getLsbD, Nat.testBit_eq_decide_div_mod_eq, decide_eq_false_iff_not] at hexc
    have := frame.scause.isLt
    omega
  have hcode : (frame.scause &&& 0x7fffffffffffffff).toNat = frame.scause.toNat := by
    rw [BitVec.toNat_and]
    exact Nat.and_two_pow_sub_one_of_lt_two_pow hlt
  simp only [trapframeParse, hcode, hexc] at h
  obtain ⟨⟨code, p⟩, hp, h⟩ := bind_eq_ok.mp h
  have hle := parseException_le hp
  have hbit : frame.scause.getLsbD 8 = false :=
    Nat.testBit_lt_two_pow (show frame.scause.toNat < 2 ^ 8 by omega)
  rw [hbit] at hp
  rw [← Except.ok.inj h]
  exact hp

theorem trapframeParse_user {frame : TrapFrame} {trap : TrapData}
    (hexc : frame.scause.getLsbD 63 = false) (h : trapframeParse frame = .ok trap) :
    trap.privilege = .user ↔ frame.scause = 8 := by
  rw [parseException_user (trapframeParse_exception hexc h)]
  exact ⟨fun e => BitVec.eq_of_toNat_eq e, fun e => congrArg BitVec.toNat e⟩

theorem killOnFault_panics {e : Panic} {fuel : ℕ} {trap : TrapData} {past : TrapState}
    {k : Kernel} (h : trap.privilege ≠ .user) :
    killOnFault e fuel trap past k = .error (.panic e) :=
  if_pos (.inr h)

/-- A fault is parsed as one of the kernel. -/
theorem trapframeParse_fault {frame : TrapFrame}
    (h : frame.scause ∈ [0, 1, 2, 4, 5, 6, 7]) :
    ∃ trap, trapframeParse frame = .ok trap ∧ trap.privilege ≠ .user ∧
      (trap.code = .accessMisaligned ∨ trap.code = .accessFault ∨
        trap.code = .instructionInvalid) := by
  have hne : PrivilegeMode.supervisor ≠ .user := by decide
  simp only [List.mem_cons, List.not_mem_nil, or_false] at h
  rcases h with h | h | h | h | h | h | h <;> simp only [trapframeParse, h]
  · exact ⟨_, rfl, hne, .inl rfl⟩
  · exact ⟨_, rfl, hne, .inr (.inl rfl)⟩
  · exact ⟨_, rfl, hne, .inr (.inr rfl)⟩
  · exact ⟨_, rfl, hne, .inl rfl⟩
  · exact ⟨_, rfl, hne, .inr (.inl rfl)⟩
  · exact ⟨_, rfl, hne, .inl rfl⟩
  · exact ⟨_, rfl, hne, .inr (.inl rfl)⟩

theorem handleSyncTrap_fault {m : Machine σ} (h : m.frame.scause ∈ [0, 1, 2, 4, 5, 6, 7]) :
    ∃ e, ∀ (svc : SyscallServices σ) fuel, handleSyncTrap svc fuel m = .error (.panic e) := by
  obtain ⟨trap, hparse, hpriv, hcode | hcode | hcode⟩ := trapframeParse_fault h
  · refine ⟨.kernelTrapAccessMisaligned, fun svc fuel => ?_⟩
    simp only [handleSyncTrap, hparse, ok_bind, syncTrapSwitch, hcode,
      uninterruptibleTrapAccessMisaligned, killOnFault_panics hpriv, error_bind]
  · refine ⟨.kernelTrapAccessFault, fun svc fuel => ?_⟩
    simp only [handleSyncTrap, hparse, ok_bind, syncTrapSwitch, hcode,
      uninterruptibleTrapAccessFault, killOnFault_panics hpriv, error_bind]
  · refine ⟨.kernelTrapInstructionInvalid, fun svc fuel => ?_⟩
    simp only [handleSyncTrap, hparse, ok_bind, syncTrapSwitch, hcode,
      uninterruptibleTrapInstructionInvalid, killOnFault_panics hpriv, error_bind]

theorem not_faultKills {svc : SyscallServices σ} {m : Machine σ}
    (h : m.frame.scause ∈ [0, 1, 2, 4, 5, 6, 7]) : ¬FaultKills svc m := by
  rintro ⟨fuel, r, m', hrun, -⟩
  obtain ⟨e, hpanic⟩ := handleSyncTrap_fault h
  rw [hpanic] at hrun
  cases hrun

/-- A fault in user mode always panics : the privilege of an exception is user only for an
environment call, whatever `SPP` says. -/
theorem userFault_panics (svc : SyscallServices σ) {m : Machine σ} (h : UserFault m) :
    (∃ e, ∀ fuel, handleSyncTrap svc fuel m = .error (.panic e)) ∧ ¬FaultKills svc m ∧
    ∀ frame trap, frame.scause.getLsbD 63 = false → trapframeParse frame = .ok trap →
      ((trap.privilege = .user ↔ frame.sstatus.getLsbD 8 = false) ↔
        (frame.scause = 8 ↔ frame.sstatus.getLsbD 8 = false)) := by
  obtain ⟨e, hpanic⟩ := handleSyncTrap_fault h.cause
  refine ⟨⟨e, hpanic svc⟩, not_faultKills h.cause, fun frame trap hexc hparse => ?_⟩
  rw [trapframeParse_user hexc hparse]

theorem userFault_oneTrap : UserFault (oneTrap 2 0 0) :=
  ⟨by decide, by decide, rfl, rfl, rfl⟩

theorem userFault_panics_oneTrap :
    (∃ e, ∀ fuel, handleSyncTrap bareServices fuel (oneTrap 2 0 0) = .error (.panic e)) ∧
      ¬FaultKills bareServices (oneTrap 2 0 0) :=
  have h := userFault_panics bareServices userFault_oneTrap
  ⟨h.1, h.2.1⟩

theorem not_faultKills_oneTrap :
    UserFault (oneTrap 2 0 0) ∧ ¬FaultKills bareServices (oneTrap 2 0 0) :=
  ⟨userFault_oneTrap, not_faultKills userFault_oneTrap.cause⟩

end Faults

/-! ## Syscalls -/

/-- The two handlers of syscalls. -/
inductive SyscallHandler
  | sync
  | async
  deriving DecidableEq, Repr

section Syscalls

variable {σ : Type} (svc : SyscallServices σ)

/-- A handler carries out the syscall, and leaves the result in `return_reg` if it returns :
`syscall_sync_handler` if it says so, `syscall_async_handler` if it is called. -/
inductive Executes (fuel : ℕ) (m : Machine σ) :
    SyscallHandler → Except (Fault Panic) (BitVec 64) → Prop
  | sync {trap trap' : TrapData} {s : σ} : trapframeParse m.frame = .ok trap →
      syscallSyncHandler svc trap m.services = .ok (trapHandled, trap', s) →
      Executes fuel m .sync (.ok trap'.returnReg)
  | async {stack : BitVec 64} {m₁ m₂ : Machine σ} {trap : TrapData} :
      handleSyncTrap svc fuel m = .ok (stack, m₁) → stack ≠ 0 →
      asyncStart m₁ = .ok (trap, m₂) → trap.code = .syscall →
      Executes fuel m .async
        ((syscallAsyncHandler svc trap m₂.services).map fun r => r.2.1.returnReg)

/-- One handler carries out the syscall, and a process that is resumed and not killed has the
result in `a0` and goes on after the `ecall`. -/
def SyscallServed (fuel : ℕ) (m : Machine σ) : Prop :=
  ∃ handler ret, Executes svc fuel m handler ret ∧
    (∀ handler' ret', Executes svc fuel m handler' ret' → handler' = handler) ∧
    ∀ m', trapEntry svc fuel m = .ok m' → m'.kernel.killed = m.kernel.killed →
      ret = .ok m'.frame.register10 ∧ m'.frame.sepc = m.frame.sepc + 4

/-- What `trapframe_parse` reads from the frame of an `ecall` in user mode. -/
def ecallTrap (frame : TrapFrame) : TrapData where
  processPtr := frame.processPtr
  trapType := .exception
  privilege := .user
  code := .syscall
  faultPc := frame.sepc
  faultAddr := frame.stval
  arg0Reg := frame.register10
  arg1Reg := frame.register11
  arg2Reg := frame.register12
  arg3Reg := frame.register13
  returnReg := frame.register10

theorem trapframeParse_ecall {frame : TrapFrame} (h : frame.scause = 8) :
    trapframeParse frame = .ok (ecallTrap frame) := by
  simp only [trapframeParse, h]
  rfl

variable {svc}
variable {m m' : Machine σ} {fuel : ℕ}

theorem leftToAsync_ecall (hecall : m.frame.scause = 8) (hcall : ¬SyncCall (ecallTrap m.frame)) :
    LeftToAsync m :=
  ⟨_, trapframeParse_ecall hecall, .inr ⟨rfl, hcall⟩⟩

/-- A call that `syscall_sync_handler` answers, whether it carried it out or not. -/
theorem handleSyncTrap_answered (hecall : m.frame.scause = 8) {r : BitVec 64} {s : σ}
    (hrun : syscallSyncHandler svc (ecallTrap m.frame) m.services = .ok (r, ecallTrap m.frame, s))
    (hr : r ≠ trapUnhandled) :
    handleSyncTrap svc fuel m =
      .ok (0, { m with frame := trapDataIterInstruction m.frame, services := s }) := by
  simp only [handleSyncTrap, trapframeParse_ecall hecall, ok_bind, syncTrapSwitch, ecallTrap,
    uninterruptibleTrapSyscall] at hrun ⊢
  rw [hrun, ok_bind]
  simp only [if_neg hr, ok_bind, pure_eq_ok]
  rfl

/-- A call that is left to `handle_async_trap` gets there from `PROC_TRAP_PROCESS` only. -/
theorem asyncStart_ecall (hecall : m.frame.scause = 8) (hstate : m.trapState = .process) :
    asyncStart m = .ok (ecallTrap m.frame, { m with trapState := .interruptableTrap }) := by
  simp only [asyncStart, trapframeParse_ecall hecall, hstate, asyncEnter, ok_bind, pure_eq_ok]

theorem state_of_asyncStart (hecall : m.frame.scause = 8) {trap : TrapData}
    (h : asyncStart m = .ok (trap, m')) : m.trapState = .process := by
  rw [asyncStart, trapframeParse_ecall hecall, ok_bind] at h
  obtain ⟨a, ha, -⟩ := bind_eq_ok.mp h
  cases hstate : m.trapState with
  | process => rfl
  | uninterruptableTrap =>
    rw [hstate] at ha
    cases ha
  | interruptableTrap =>
    have hcode : TrapCode.syscall ≠ .pageFault := by decide
    rw [hstate, asyncEnter, if_pos (.inl hcode)] at ha
    cases ha
  | readUserspace =>
    rw [hstate] at ha
    cases ha

theorem handleSyncTrap_async (hecall : m.frame.scause = 8) (hstate : m.trapState = .process)
    (hcall : ¬SyncCall (ecallTrap m.frame)) : handleSyncTrap svc fuel m = .ok (asyncStack, m) := by
  rw [handleSyncTrap_left (leftToAsync_ecall hecall hcall), hstate]
  rfl

/-- A syscall never has its result sent. -/
theorem asyncTrapSwitch_syscall {trap : TrapData} (hcode : trap.code = .syscall) :
    asyncTrapSwitch svc trap m = syscallAsyncHandler svc trap m.services >>= fun r =>
      .ok (r.2.1, ⟨0, true, decide (r.1 = trapUnhandled), false⟩,
        { m with services := r.2.2 }) := by
  simp only [asyncTrapSwitch, hcode, interruptableTrapSyscall, bind_assoc]
  congr 1
  funext r
  by_cases hr : r.1 = trapUnhandled <;> simp [hr]

theorem handleAsyncTrap_handled (hecall : m.frame.scause = 8) (hstate : m.trapState = .process)
    {trap : TrapData} {s : σ}
    (hrun : syscallAsyncHandler svc (ecallTrap m.frame) m.services = .ok (trapHandled, trap, s)) :
    handleAsyncTrap svc fuel m =
      .ok { m with frame := trapDataIterInstruction m.frame, services := s } := by
  have hswitch : asyncTrapSwitch svc (ecallTrap m.frame)
      { m with trapState := .interruptableTrap } = .ok (trap, ⟨0, true, false, false⟩,
        { m with trapState := .interruptableTrap, services := s }) := by
    rw [asyncTrapSwitch_syscall rfl, hrun]
    rfl
  simp only [handleAsyncTrap, asyncStart_ecall hecall hstate, hswitch, ok_bind, hstate, asyncLeave,
    respond]
  rfl

/-- A call that is not handled kills the process. -/
theorem handleAsyncTrap_unhandled (hecall : m.frame.scause = 8) (hstate : m.trapState = .process)
    {trap : TrapData} {s : σ}
    (hrun : syscallAsyncHandler svc (ecallTrap m.frame) m.services = .ok (trapUnhandled, trap, s))
    (h : handleAsyncTrap svc fuel m = .ok m') : m'.kernel.killed ≠ m.kernel.killed := by
  have hswitch : asyncTrapSwitch svc (ecallTrap m.frame)
      { m with trapState := .interruptableTrap } = .ok (trap, ⟨0, true, true, false⟩,
        { m with trapState := .interruptableTrap, services := s }) := by
    rw [asyncTrapSwitch_syscall rfl, hrun]
    rfl
  simp only [handleAsyncTrap, asyncStart_ecall hecall hstate, hswitch, ok_bind, hstate, asyncLeave,
    if_true] at h
  obtain ⟨k1, hk1, h⟩ := bind_eq_ok.mp h
  obtain ⟨k2, hk2, h⟩ := bind_eq_ok.mp h
  have hkilled : k1.killed = m.kernel.killed :=
    Kernel.killed_trapChangeProcess (k := { m.kernel with current := trap.processPtr }) hk1
  have hkill : m'.kernel.killed = (k1.procs trap.processPtr).processId :: k1.killed := by
    rw [← Except.ok.inj h]
    exact Kernel.killed_killProcess hk2
  rw [hkill, hkilled]
  exact List.cons_ne_self _ _

theorem handleAsyncTrap_error (hecall : m.frame.scause = 8) (hstate : m.trapState = .process)
    {e : Fault Panic}
    (hrun : syscallAsyncHandler svc (ecallTrap m.frame) m.services = .error e) :
    handleAsyncTrap svc fuel m = .error e := by
  have hswitch : asyncTrapSwitch svc (ecallTrap m.frame)
      { m with trapState := .interruptableTrap } = .error e := by
    rw [asyncTrapSwitch_syscall rfl, hrun]
    rfl
  simp only [handleAsyncTrap, asyncStart_ecall hecall hstate, hswitch, ok_bind, error_bind]

theorem Executes.sync_char {ret : Except (Fault Panic) (BitVec 64)} (hecall : m.frame.scause = 8)
    (h : Executes svc fuel m .sync ret) : m.frame.register10 = 1 ∧ m.frame.register11 = 0 := by
  cases h with
  | sync hparse hrun =>
    obtain rfl := Except.ok.inj ((trapframeParse_ecall hecall).symm.trans hparse)
    by_cases hcall : SyncCall (ecallTrap m.frame)
    · obtain ⟨h0, h1 | h1⟩ := hcall
      · exact ⟨h0, h1⟩
      · rw [syscallSyncHandler_str svc h0 h1] at hrun
        exact absurd (fst_of_ok hrun) (by decide)
    · rw [syscallSyncHandler_left svc hcall] at hrun
      exact absurd (fst_of_ok hrun) (by decide)

theorem Executes.async_left {ret : Except (Fault Panic) (BitVec 64)} (hecall : m.frame.scause = 8)
    (h : Executes svc fuel m .async ret) :
    m.trapState = .process ∧ ¬SyncCall (ecallTrap m.frame) ∧
      ret = (syscallAsyncHandler svc (ecallTrap m.frame) m.services).map
        fun r => r.2.1.returnReg := by
  cases h with
  | async hsync hne hstart hcode =>
    have hleft : LeftToAsync m := by
      by_contra hleft
      exact hne (handleSyncTrap_zero hleft hsync)
    have hcall : ¬SyncCall (ecallTrap m.frame) := by
      obtain ⟨trap, hparse, h⟩ := hleft
      obtain rfl := Except.ok.inj ((trapframeParse_ecall hecall).symm.trans hparse)
      rcases h with ⟨hcode, -⟩ | ⟨-, hcall⟩
      · cases hcode
      · exact hcall
    rw [handleSyncTrap_left hleft] at hsync
    cases hsync
    have hstate := state_of_asyncStart hecall hstart
    rw [asyncStart_ecall hecall hstate] at hstart
    cases hstart
    exact ⟨hstate, hcall, rfl⟩

theorem executes_async (hecall : m.frame.scause = 8) (hstate : m.trapState = .process)
    (hcall : ¬SyncCall (ecallTrap m.frame)) : Executes svc fuel m .async
      ((syscallAsyncHandler svc (ecallTrap m.frame) m.services).map fun r => r.2.1.returnReg) := by
  have hsync : handleSyncTrap svc fuel m = .ok (asyncStack, m) :=
    handleSyncTrap_async hecall hstate hcall
  have hexec := Executes.async hsync (by decide) (asyncStart_ecall hecall hstate) rfl
  exact hexec

/-- The syscalls that are served : a character is printed, or the process is in
`PROC_TRAP_PROCESS`, and the call is not to print a string and not a file call with a result
other than its number. -/
def ServedWhen (svc : SyscallServices σ) (m : Machine σ) : Prop :=
  m.frame.register10 = 1 ∧ m.frame.register11 = 0 ∨
    m.trapState = .process ∧ ¬(m.frame.register10 = 1 ∧ m.frame.register11 = 1) ∧
      FsKeepsNumber svc (ecallTrap m.frame) m.services

theorem served_char (hecall : m.frame.scause = 8) (h0 : m.frame.register10 = 1)
    (h1 : m.frame.register11 = 0) : SyscallServed svc fuel m := by
  have hrun : syscallSyncHandler svc (ecallTrap m.frame) m.services =
      .ok (trapHandled, ecallTrap m.frame, _) := syscallSyncHandler_char svc h0 h1
  refine ⟨.sync, _, .sync (trapframeParse_ecall hecall) hrun, fun handler ret h => ?_, ?_⟩
  · cases handler with
    | sync => rfl
    | async => exact absurd ⟨h0, .inl h1⟩ (h.async_left hecall).2.1
  · intro m' hentry _
    rw [trapEntry, handleSyncTrap_answered hecall hrun (by decide)] at hentry
    cases hentry
    exact ⟨rfl, rfl⟩

/-- A call that gets to `syscall_async_handler`. -/
theorem served_async_iff (hecall : m.frame.scause = 8) (hstate : m.trapState = .process)
    (hcall : ¬SyncCall (ecallTrap m.frame)) :
    SyscallServed svc fuel m ↔ FsKeepsNumber svc (ecallTrap m.frame) m.services := by
  have hentry : trapEntry svc fuel m = handleAsyncTrap svc fuel m := by
    rw [trapEntry, handleSyncTrap_async hecall hstate hcall]
    rfl
  rw [← syscallAsyncHandler_return svc hcall rfl]
  constructor
  · rintro ⟨handler, ret, hexec, honly, hresume⟩ trap' s' hrun
    obtain rfl := honly _ _ (executes_async hecall hstate hcall)
    obtain ⟨-, -, rfl⟩ := hexec.async_left hecall
    rw [hentry, handleAsyncTrap_handled hecall hstate hrun] at hresume
    obtain ⟨hret, -⟩ := hresume _ rfl rfl
    rw [hrun] at hret
    exact Except.ok.inj hret
  · intro hkeep
    refine ⟨.async, _, executes_async hecall hstate hcall, fun handler ret h => ?_, ?_⟩
    · cases handler with
      | sync =>
        obtain ⟨h0, h1⟩ := h.sync_char hecall
        exact absurd ⟨h0, .inl h1⟩ hcall
      | async => rfl
    · intro m' hrun hkilled
      rw [hentry] at hrun
      cases hcase : syscallAsyncHandler svc (ecallTrap m.frame) m.services with
      | error e =>
        rw [handleAsyncTrap_error hecall hstate hcase] at hrun
        cases hrun
      | ok a =>
        obtain ⟨r, trap', s'⟩ := a
        rcases syscallAsyncHandler_response svc hcase with rfl | rfl
        · rw [handleAsyncTrap_handled hecall hstate hcase] at hrun
          cases hrun
          exact ⟨congrArg Except.ok (hkeep trap' s' hcase), rfl⟩
        · exact absurd hkilled (handleAsyncTrap_unhandled hecall hstate hcase hrun)

/-- A syscall is served exactly if it is one of `ServedWhen`. -/
theorem syscall_served_iff (svc : SyscallServices σ) (fuel : ℕ) {m : Machine σ}
    (hecall : m.frame.scause = 8) : SyscallServed svc fuel m ↔ ServedWhen svc m := by
  by_cases hchar : m.frame.register10 = 1 ∧ m.frame.register11 = 0
  · exact ⟨fun _ => .inl hchar, fun _ => served_char hecall hchar.1 hchar.2⟩
  have hsync : ∀ ret, ¬Executes svc fuel m .sync ret := fun ret h => hchar (h.sync_char hecall)
  constructor
  · intro h
    have h' := h
    obtain ⟨handler, ret, hexec, -, -⟩ := h'
    cases handler with
    | sync => exact absurd hexec (hsync ret)
    | async =>
      obtain ⟨hstate, hcall, -⟩ := hexec.async_left hecall
      exact .inr ⟨hstate, fun hstr => hcall ⟨hstr.1, .inr hstr.2⟩,
        (served_async_iff hecall hstate hcall).1 h⟩
  · rintro (h | ⟨hstate, hstr, hkeep⟩)
    · exact absurd h hchar
    · refine (served_async_iff hecall hstate ?_).2 hkeep
      rintro ⟨h0, h1 | h1⟩
      · exact hchar ⟨h0, h1⟩
      · exact hstr ⟨h0, h1⟩

theorem syscall_served_iff_char : SyscallServed bareServices 0 (oneTrap 8 1 0) :=
  (syscall_served_iff bareServices 0 rfl).2 (.inl ⟨rfl, rfl⟩)

/-- Nobody prints a string. -/
theorem not_syscallServed_str : (oneTrap 8 1 1).frame.scause = 8 ∧
    ¬SyscallServed bareServices 0 (oneTrap 8 1 1) := by
  refine ⟨rfl, ?_⟩
  rintro ⟨handler, ret, hexec, -⟩
  cases handler with
  | sync => exact absurd (hexec.sync_char rfl).2 (by decide)
  | async => exact (hexec.async_left rfl).2.1 ⟨rfl, .inr rfl⟩

end Syscalls

end Toastium
