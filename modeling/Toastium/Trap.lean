import Toastium.Layout

/-!
# Traps

The trap frame that `trap_entry` saves, what `trapframe_parse` reads off it, and the state
that a process is in while its traps are handled. A process has three trap frames, and the
one mapped at `TRAPFRAME_ADDRESS` is where the next trap is saved. `handle_async_trap`
changes the frame and the state when it starts (`asyncEnter`) and when it ends
(`asyncLeave`).
-/

namespace Toastium

/-! ## Trap frames -/

/-- `trapframe`, with the registers that the kernel reads or writes : the stack pointer
and the arguments of a syscall. -/
structure TrapFrame where
  register2 : BitVec 64
  register10 : BitVec 64
  register11 : BitVec 64
  register12 : BitVec 64
  register13 : BitVec 64
  scause : BitVec 64
  sepc : BitVec 64
  stval : BitVec 64
  sstatus : BitVec 64
  processPtr : ℕ
  deriving DecidableEq, Repr

/-- `privilege_mode`. -/
inductive PrivilegeMode
  | user
  | supervisor
  | machine
  deriving DecidableEq, Repr

/-- `trap_type`. -/
inductive TrapType
  | interrupt
  | exception
  deriving DecidableEq, Repr

/-- `trap_code`. -/
inductive TrapCode
  | softwareInterrupt
  | timerInterrupt
  | externalInterrupt
  | accessMisaligned
  | accessFault
  | instructionInvalid
  | breakpoint
  | syscall
  | pageFault
  | doubleTrap
  | softwareCheck
  | hardwareError
  deriving DecidableEq, Repr

/-- `trap_data`. `hart_id` is not set by `trapframe_parse`. -/
structure TrapData where
  processPtr : ℕ
  trapType : TrapType
  privilege : PrivilegeMode
  code : TrapCode
  faultPc : BitVec 64
  faultAddr : BitVec 64
  arg0Reg : BitVec 64
  arg1Reg : BitVec 64
  arg2Reg : BitVec 64
  arg3Reg : BitVec 64
  returnReg : BitVec 64
  deriving DecidableEq, Repr

/-- The interrupts of `trapframe_parse`, with their privilege. -/
def parseInterrupt (trapCode : ℕ) : Except (Fault Panic) (TrapCode × PrivilegeMode) :=
  match trapCode with
  | 1 => .ok (.softwareInterrupt, .supervisor)
  | 3 => .ok (.softwareInterrupt, .machine)
  | 5 => .ok (.timerInterrupt, .supervisor)
  | 7 => .ok (.timerInterrupt, .machine)
  | 9 => .ok (.externalInterrupt, .supervisor)
  | 11 => .ok (.externalInterrupt, .machine)
  | _ => .error (.panic .unhandledTrapInterruptOccurred)

/-- The exceptions of `trapframe_parse`. An environment call sets the privilege. -/
def parseException (privilege : PrivilegeMode) (trapCode : ℕ) :
    Except (Fault Panic) (TrapCode × PrivilegeMode) :=
  match trapCode with
  | 0 => .ok (.accessMisaligned, privilege)
  | 1 => .ok (.accessFault, privilege)
  | 2 => .ok (.instructionInvalid, privilege)
  | 3 => .ok (.breakpoint, privilege)
  | 4 => .ok (.accessMisaligned, privilege)
  | 5 => .ok (.accessFault, privilege)
  | 6 => .ok (.accessMisaligned, privilege)
  | 7 => .ok (.accessFault, privilege)
  | 8 => .ok (.syscall, .user)
  | 9 => .ok (.syscall, .supervisor)
  | 11 => .ok (.syscall, .machine)
  | 12 => .ok (.pageFault, privilege)
  | 13 => .ok (.pageFault, privilege)
  | 15 => .ok (.pageFault, privilege)
  | 16 => .ok (.doubleTrap, privilege)
  | 18 => .ok (.softwareCheck, privilege)
  | 19 => .ok (.hardwareError, privilege)
  | _ => .error (.panic .unhandledTrapExceptionOccurred)

/-- `trapframe_parse`. The privilege is taken from bit 8 of `scause`. -/
def trapframeParse (frame : TrapFrame) : Except (Fault Panic) TrapData := do
  let isInterrupt := frame.scause.getLsbD 63
  let trapCode := (frame.scause &&& 0x7fffffffffffffff).toNat
  let isUserMode := frame.scause.getLsbD 8
  let privilege : PrivilegeMode := if isUserMode then .user else .supervisor
  let (code, privilege) ←
    if isInterrupt then parseInterrupt trapCode else parseException privilege trapCode
  return {
    processPtr := frame.processPtr
    trapType := if isInterrupt then .interrupt else .exception
    privilege := privilege
    code := code
    faultPc := frame.sepc
    faultAddr := frame.stval
    arg0Reg := frame.register10
    arg1Reg := frame.register11
    arg2Reg := frame.register12
    arg3Reg := frame.register13
    returnReg := frame.register10 }

/-- `trap_data_set_response`. -/
def trapDataSetResponse (trap : TrapData) (frame : TrapFrame) : TrapFrame :=
  { frame with register10 := trap.returnReg }

/-- `trap_data_iter_instruction`. -/
def trapDataIterInstruction (frame : TrapFrame) : TrapFrame :=
  { frame with sepc := frame.sepc + 4 }

/-! ## The state of a process -/

/-- `process_trap_state`. -/
inductive TrapState
  | process
  | uninterruptableTrap
  | interruptableTrap
  | readUserspace
  deriving DecidableEq, Repr

/-- The three trap frames of a process. -/
inductive FrameKind
  | userspace
  | kernelspace
  | pageFault
  deriving DecidableEq, Repr

/-- The frame that is mapped in a state. A process in `uninterruptableTrap` keeps the one of
the state before. -/
def TrapState.frame : TrapState → Option FrameKind
  | process => some .userspace
  | uninterruptableTrap => none
  | interruptableTrap => some .kernelspace
  | readUserspace => some .pageFault

/-- The start of `handle_async_trap` : the frame that is mapped, and the new state. -/
def asyncEnter (pastProcState : TrapState) (code : TrapCode) (readingUserspace : Bool) :
    Except (Fault Panic) (FrameKind × TrapState) :=
  match pastProcState with
  | .uninterruptableTrap => .error (.panic .interruptableTrapEnteredFromUninterruptable)
  | .interruptableTrap =>
    if code ≠ .pageFault ∨ readingUserspace = false then
      .error (.panic .doubleProcessTrapNotPageFault)
    else .ok (.pageFault, .readUserspace)
  | .process => .ok (.kernelspace, .interruptableTrap)
  | .readUserspace => .error (.panic .pageFaultFromKernelReadUserspace)

/-- The end of `handle_async_trap` : the frame that is mapped, and the new state. -/
def asyncLeave (pastProcState : TrapState) : Except (Fault Panic) (FrameKind × TrapState) :=
  match pastProcState with
  | .process => .ok (.userspace, pastProcState)
  | .interruptableTrap => .ok (.kernelspace, pastProcState)
  | .uninterruptableTrap =>
    .error (.panic .unexpectedUninteruptableExitUninterruptableTrap)
  | .readUserspace => .error (.panic .unexpectedUninteruptableExitReadUserspace)

/-- The frame mapped at the start is the one of the new state. -/
theorem asyncEnter_frame {past st : TrapState} {code : TrapCode} {reading : Bool} {f : FrameKind}
    (h : asyncEnter past code reading = .ok (f, st)) : st.frame = some f := by
  cases past with
  | process =>
    cases h
    rfl
  | uninterruptableTrap => cases h
  | interruptableTrap =>
    unfold asyncEnter at h
    split_ifs at h
    cases h
    rfl
  | readUserspace => cases h

/-- The frame mapped at the end is the one of the state at the start, to which the process
returns. -/
theorem asyncLeave_frame {past st : TrapState} {f : FrameKind}
    (h : asyncLeave past = .ok (f, st)) : st = past ∧ past.frame = some f := by
  cases past with
  | process =>
    cases h
    exact ⟨rfl, rfl⟩
  | uninterruptableTrap => cases h
  | interruptableTrap =>
    cases h
    exact ⟨rfl, rfl⟩
  | readUserspace => cases h

end Toastium
