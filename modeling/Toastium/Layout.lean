import Toastium.Heap

/-!
# Constants and panics of the kernel

The page size and the address-space layout (`def.h`, `layout.h`), and the panics the
modelled functions raise. A panic stops the kernel, so a function that can panic returns
in `Except Panic`, or in `Except (Fault Panic)` where it also reaches memory.
-/

namespace Toastium

/-- `KERNEL_PAGE_SIZE`. -/
def kernelPageSize : ℕ := 4096

/-- `ROUND_MOD_DOWN`. -/
def roundModDown (number rounder : ℕ) : ℕ :=
  number / rounder * rounder

/-- `ROUND_MOD_UP`. -/
def roundModUp (number rounder : ℕ) : ℕ :=
  (number + (rounder - 1)) % 2 ^ 64 / rounder * rounder

/-- `KERNEL_VMA_START`, the bottom of the kernel window. -/
def kernelVmaStart : ℕ := 0xffffffc000000000

/-- `TRAPFRAME_ADDRESS`. -/
def trapframeAddress : ℕ := 0xffffffffffffe000

/-- `PROC_KERN_STACK_START`. -/
def procKernStackStart : ℕ := 0xffffffffffffa000

/-- `PROC_KERN_STACK_SIZE`. -/
def procKernStackSize : ℕ := 4096 * 4

/-- `PROC_KERN_STACK_TOP`. -/
def procKernStackTop : ℕ := procKernStackStart + procKernStackSize - 1

/-- `HART_KERN_STACK_START`. -/
def hartKernStackStart : ℕ := 0xffffffffffff4000

/-- `KERN_MAPPING_BOTTOM`. -/
def kernMappingBottom : ℕ := 0xffffffffffff3000

/-- `PANIC` codes, under the texts the source gives them. -/
inductive Panic
  | outOfFreePages
  | pageRemoveNoOverride
  | attemptRemovePageOutOfRange
  | doubleFreePage
  | addrKeyLargerThenRadix
  | readWriteOutOfBoundsFileDesc
  | attemptWriteToSocket
  | attemptWriteToPipe
  | attemptWriteToFolder
  | kernelSchedulerQueueFull
  | attemptRemoveListItemOutBounds
  | attemptToKillIdleProcess
  | attemptAllocateZeroBytes
  | attemptAllocateLargerThenPage
  | doubleAcquirePage
  | allocatorReleaseNoIdxTable
  | allocatorReleaseNoIdxTableLeaf
  | allocatorReleaseFree
  | allocatorBumpLargerThenPage
  | attemptToExpandNonCompressLeaf
  | vmaMappingLargerThenMaxSize
  | vmaMappingPastMaxUserspace
  | vmaMappingPastMaxKernelspace
  | badSizeLeftMapping
  | procAsidLoopInvalid
  | incorrectDtbMagicHeader
  | incorrectDtbVersion
  | dtbStackDepthToHigh
  | dtbStackDepthLessZero
  | dtbUnexpectedCode
  | invalidDeviceTreeDumpLocation
  | noReservedMemory
  | unhandledTrapInterruptOccurred
  | unhandledTrapExceptionOccurred
  | kernelTrapAccessMisaligned
  | kernelTrapAccessFault
  | kernelTrapInstructionInvalid
  | kernelTrapUnimplentedBreakpoint
  | kernelTrapPageFault
  | kernelTrapDoubleTrap
  | kernelTrapUnimplentedSoftwareCheck
  | kernelTrapUnimplentedHardwareError
  | kernelTrapUnimplentedSoftwareInterrupt
  | kernelTrapTimerNonSupervisorPrivilege
  | kernelTrapUnimplentedExternalInterrupt
  | interruptableTrapEnteredFromUninterruptable
  | doubleProcessTrapNotPageFault
  | pageFaultFromKernelReadUserspace
  | unhandledKernelProcessTrap
  | unexpectedUninteruptableExitUninterruptableTrap
  | unexpectedUninteruptableExitReadUserspace
  | inodeFileDebugInjectDataOnNonFile
  | inodeFileDebugInjectDataAlreadyContents
  | releaseMappedFileDescriptorNotSupported
  deriving DecidableEq, Repr

/-- `pg_alloc`, as the users of pages see it : a fresh zeroed page of 512 words. -/
abbrev PageSource := Source (BitVec 64) 512 4096

theorem pageBytes_pos : 0 < 4096 := by
  decide

/-- Pages handed out in the order of their addresses. -/
def bumpPages : PageSource :=
  Source.bump (BitVec 64) 512 4096 pageBytes_pos

/-- `pg_alloc`, where its pages are in the window of the kernel. -/
structure KernelPages extends Source (BitVec 64) 512 4096 where
  window : ∀ {h p}, next h = some p → kernelVmaStart ≤ p

/-- Pages of the window handed out in the order of their addresses. -/
def windowPages : KernelPages where
  toSource := Source.bumpFrom (BitVec 64) 512 4096 kernelVmaStart (by decide)
  window hp := (Source.lt_of_bumpFrom hp).le

/-- The first free page of the window. -/
def firstFitPages : KernelPages where
  toSource := Source.firstFit (BitVec 64) 512 4096 kernelVmaStart (by decide) (by decide)
  window hp := (Source.lt_of_firstFit hp).le

end Toastium
