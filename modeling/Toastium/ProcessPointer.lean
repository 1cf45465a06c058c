import Toastium.TrapFrames

/-!
# The process of a trap

`trapframe_parse` finds the process that was running through `process_ptr` of the frame mapped at
`TRAPFRAME_ADDRESS`. `new_blank_process` writes the pointer to the frames for user space and for
the kernel, and not to the frame for page faults, and no other code writes it.

`trapframe_processPtr` : in every run in which no page fault is handled inside a copy from or to
user space, the frame that is mapped points to the process; and in every run it does so exactly
as long as the frame for page faults is not the one mapped.
-/

namespace Toastium

/-! ## The pointer -/

/-- `((trapframe *)TRAPFRAME_ADDRESS)->process_ptr`, through the table of the process. -/
def TrapRun.processPtr (s : TrapRun) : Except (Fault Panic) (BitVec 64) := do
  match ← translate s.heap s.proc.vmaTable (trapframeAddress + 8 * processPtrWord) with
  | none => .error (.wild trapframeAddress processPtrWord)
  | some (phys, _) => loadAddr s.heap (kernelVmaStart + phys)

/-- The state in which the last trap was taken that is still handled, or the state of the
process if there is none. -/
def TrapRun.takenIn (s : TrapRun) : TrapState :=
  s.sync.getD s.proc.trapState

/-- A process as `new_blank_process` makes it, with its structure at `ptr`. -/
def TrapRun.BuiltAt (src : KernelPages) (fuel : ℕ) (ptr : BitVec 64) (s : TrapRun) : Prop :=
  ∃ h, newBlankProcessMaps src fuel ptr h = .ok (s.proc, s.heap) ∧ s.sync = none ∧ s.asyncs = []

/-- Other code leaves the frames in use and the pointers as they are. Saving the registers of a
trap does not write them either. -/
def KeepsProcessPtr (s : TrapRun) : TrapEvent → Prop
  | .other h => ∀ f, s.heap.len (s.proc.trapframe f) = h.len (s.proc.trapframe f) ∧
    h.cell (s.proc.trapframe f) processPtrWord = s.heap.cell (s.proc.trapframe f) processPtrWord
  | _ => True

/-- What happens to the process, and leaves the pointers. -/
def TrapRun.PtrStep (src : KernelPages) (fuel : ℕ) (hartStacks : HartStacks) :
    TrapRun → TrapEvent → TrapRun → Prop :=
  Guarded KeepsProcessPtr (TrapRun.Step src fuel hartStacks)

/-- No `handle_async_trap` starts inside another one. -/
def NoNestedFault (s : TrapRun) : TrapEvent → Prop
  | .asyncEnter _ => s.proc.trapState ≠ .interruptableTrap
  | _ => True

/-! ## The invariant -/

/-- The frames are not part of the table, and two of them hold the pointer. -/
structure PtrInv (ptr : BitVec 64) (s : TrapRun) : Prop where
  inv : s.Inv
  foreign : ∀ f, Foreign s.proc.vmaTable (s.proc.trapframe f) s.heap
  ptr : ∀ f, s.heap.cell (s.proc.trapframe f) processPtrWord = if f = .pageFault then 0 else ptr

section Invariant

variable {src : KernelPages} {fuel : ℕ} {hartStacks : HartStacks} {ptr : BitVec 64}
  {s s' : TrapRun}

theorem TrapRun.BuiltAt.ptrInv : ∀ {s : TrapRun}, s.BuiltAt src fuel ptr → PtrInv ptr s := by
  rintro ⟨heap, proc, sync, asyncs⟩ ⟨h, hnew, rfl, rfl⟩
  have hspec := newBlankProcessMaps_spec hnew
  exact ⟨TrapRun.Built.inv ⟨ptr, h, hnew, rfl, rfl⟩,
    fun f => hspec.foreign _ (proc.trapframe_mem f), hspec.ptr⟩

/-- The pages of the frames, after the table was changed. -/
theorem PtrInv.of_kept (hi : PtrInv ptr s) (hinv : s'.Inv)
    (htable : s'.proc.vmaTable = s.proc.vmaTable) (hframes : s'.proc.trapframe = s.proc.trapframe)
    (hkept : ∀ f, Kept s.proc.vmaTable (s.proc.trapframe f) s.heap s'.heap) : PtrInv ptr s' := by
  refine ⟨hinv, fun f => ?_, fun f => ?_⟩
  · rw [htable, hframes]
    exact (hkept f).1
  · rw [hframes, (hkept f).2, hi.ptr]

theorem PtrInv.mapFrame {f : FrameKind} {h : Heap (BitVec 64)} (hi : PtrInv ptr s)
    (hmap : s.mapFrame src fuel f = .ok h) (g : FrameKind) :
    Kept s.proc.vmaTable (s.proc.trapframe g) s.heap h := by
  obtain ⟨-, -, hr⟩ := hi.inv.table.mapPage fuel topPage_trapframe (hi.inv.window f) hmap
  exact (hi.foreign g).of_rangeMapped hr

theorem PtrInv.switch {hartId : ℕ} {proc : TrapProcess} {h : Heap (BitVec 64)}
    (hi : PtrInv ptr s)
    (hsw : processUpdateContextSwitch src fuel hartStacks s.proc hartId s.heap = .ok (proc, h)) :
    proc.vmaTable = s.proc.vmaTable ∧ proc.trapframe = s.proc.trapframe ∧
      proc.trapState = s.proc.trapState ∧
      ∀ g, Kept s.proc.vmaTable (s.proc.trapframe g) s.heap h := by
  unfold processUpdateContextSwitch at hsw
  split_ifs at hsw
  · cases hsw
    exact ⟨rfl, rfl, rfl, fun g => ⟨hi.foreign g, fun _ => rfl⟩⟩
  obtain ⟨h1, hmap, hsw⟩ := bind_eq_ok.mp hsw
  cases hsw
  have hlen := hartStacks.length hartId
  obtain ⟨-, -, -, hkept⟩ := mapPages_ok hi.inv.table (by decide) (by decide)
    (by rw [hlen]; decide) (hartStacks.window hartId) hmap
  exact ⟨rfl, rfl, rfl, fun g => (hkept _ (hi.foreign g)).1⟩

/-- Every event keeps the invariant. -/
theorem TrapRun.PtrStep.ptrInv {e : TrapEvent} (hi : PtrInv ptr s)
    (hs : s.PtrStep src fuel hartStacks e s') : PtrInv ptr s' := by
  obtain ⟨hkeep, hs⟩ := hs
  have hinv := TrapRun.Step.inv hi.inv hs
  cases hs with
  | syncEnter hsync => exact ⟨hinv, hi.foreign, hi.ptr⟩
  | syncLeave hsync => exact ⟨hinv, hi.foreign, hi.ptr⟩
  | asyncEnter hsync hent hmap => exact hi.of_kept hinv rfl rfl (hi.mapFrame hmap)
  | asyncLeave hsync hlist hlea hmap => exact hi.of_kept hinv rfl rfl (hi.mapFrame hmap)
  | preempt hsync hst hsw =>
    obtain ⟨htable, hframes, -, hkept⟩ := hi.switch hsw
    exact hi.of_kept hinv htable hframes hkept
  | reading hsync hst => exact ⟨hinv, hi.foreign, hi.ptr⟩
  | other hsame =>
    exact ⟨hinv, fun f => (hi.foreign f).of_sameTable hi.inv.table.ok hsame (hkeep f).1,
      fun f => (hkeep f).2.trans (hi.ptr f)⟩

/-- What is read is the pointer of the frame mapped. -/
theorem processPtr_of_mapped {f : FrameKind} (hi : PtrInv ptr s)
    (hm : PageMapped s.heap s.proc.vmaTable trapframeAddress (s.proc.trapframe f)) :
    s.processPtr = .ok (if f = .pageFault then 0 else ptr) := by
  have hwin := hi.inv.window f
  have hdvd := hwin.dvd
  have hle := hwin.le
  have haddr : kernelVmaStart + (s.proc.trapframe f - kernelVmaStart + 8 * processPtrWord) =
      s.proc.trapframe f + 280 := by
    unfold processPtrWord
    omega
  have hpage : (s.proc.trapframe f + 280) / 4096 * 4096 = s.proc.trapframe f := by omega
  have hword : (s.proc.trapframe f + 280) % 4096 / 8 = processPtrWord := by
    unfold processPtrWord
    omega
  rw [TrapRun.processPtr, hm _ (by decide), ok_bind]
  dsimp only
  rw [haddr, loadAddr, if_pos (by omega), hpage, hword,
    Heap.load_eq_ok (by rw [(hi.foreign f).1]; decide), hi.ptr]

/-- The frame mapped points to the process exactly if it is not the one for page faults. -/
theorem PtrInv.processPtr_iff (hi : PtrInv ptr s) (hptr : ptr ≠ 0) :
    s.processPtr = .ok ptr ↔ s.takenIn ≠ .readUserspace := by
  obtain ⟨f, hf, hm⟩ := hi.inv.frame
  rw [processPtr_of_mapped hi hm]
  have hstate : s.takenIn.frame = some f := hf
  cases hst : s.takenIn with
  | process =>
    rw [hst] at hstate
    cases hstate
    simp
  | uninterruptableTrap =>
    rw [hst] at hstate
    cases hstate
  | interruptableTrap =>
    rw [hst] at hstate
    cases hstate
    simp
  | readUserspace =>
    rw [hst] at hstate
    cases hstate
    have hne : (0 : BitVec 64) ≠ ptr := hptr.symm
    simpa using hne

theorem PtrInv.reach
    (h : Reach (TrapRun.BuiltAt src fuel ptr) (TrapRun.PtrStep src fuel hartStacks) s) :
    PtrInv ptr s :=
  Reach.invariant (PtrInv ptr) (fun _ => TrapRun.BuiltAt.ptrInv)
    (fun _ _ _ hi hs => TrapRun.PtrStep.ptrInv hi hs) h

/-- A handler that starts in user space is not one for a page fault of the kernel. -/
theorem asyncEnter_ne_readUserspace {past st : TrapState} {code : TrapCode} {reading : Bool}
    {f : FrameKind} (h : asyncEnter past code reading = .ok (f, st))
    (hpast : past ≠ .interruptableTrap) : st ≠ .readUserspace := by
  cases past with
  | process =>
    cases h
    decide
  | uninterruptableTrap => cases h
  | interruptableTrap => exact absurd rfl hpast
  | readUserspace => cases h

theorem asyncLeave_ne_readUserspace {past st : TrapState} {f : FrameKind}
    (h : asyncLeave past = .ok (f, st)) : st ≠ .readUserspace := by
  obtain ⟨rfl, -⟩ := asyncLeave_frame h
  rintro rfl
  cases h

/-- Without nested faults the frame for page faults is never mapped. -/
theorem takenIn_of_noNestedFault
    (h : Reach (TrapRun.BuiltAt src fuel ptr)
      (Guarded NoNestedFault (TrapRun.PtrStep src fuel hartStacks)) s) :
    PtrInv ptr s ∧ s.takenIn ≠ .readUserspace := by
  refine Reach.invariant (fun s => PtrInv ptr s ∧ s.takenIn ≠ .readUserspace) ?_ ?_ h
  · rintro s hb
    refine ⟨hb.ptrInv, ?_⟩
    obtain ⟨h, hnew, hsync, -⟩ := hb
    rw [TrapRun.takenIn, hsync, Option.getD_none, (newBlankProcessMaps_spec hnew).state]
    decide
  · rintro s e s' ⟨hi, hst⟩ ⟨hnest, hstep⟩
    refine ⟨hstep.ptrInv hi, ?_⟩
    obtain ⟨-, hstep⟩ := hstep
    unfold TrapRun.takenIn at hst ⊢
    cases hstep with
    | syncEnter hsync => rwa [hsync] at hst
    | syncLeave hsync => rwa [hsync] at hst
    | asyncEnter hsync hent _ =>
      rw [hsync, Option.getD_none]
      exact asyncEnter_ne_readUserspace hent hnest
    | asyncLeave hsync _ hlea _ =>
      rw [hsync, Option.getD_none]
      exact asyncLeave_ne_readUserspace hlea
    | preempt _ _ hsw =>
      rw [(hi.switch hsw).2.2.1]
      exact hst
    | reading => exact hst
    | other => exact hst

/-- In every run without nested faults the frame mapped points to the process, and in every run
it does exactly if the frame for page faults is not the one mapped. -/
theorem trapframe_processPtr (src : KernelPages) (fuel : ℕ) (hartStacks : HartStacks)
    {ptr : BitVec 64} (hptr : ptr ≠ 0) :
    (∀ s, Reach (TrapRun.BuiltAt src fuel ptr)
        (Guarded NoNestedFault (TrapRun.PtrStep src fuel hartStacks)) s →
      s.processPtr = .ok ptr) ∧
    ∀ s, Reach (TrapRun.BuiltAt src fuel ptr) (TrapRun.PtrStep src fuel hartStacks) s →
      (s.processPtr = .ok ptr ↔ s.takenIn ≠ .readUserspace) := by
  refine ⟨fun s hs => ?_, fun s hs => (PtrInv.reach hs).processPtr_iff hptr⟩
  obtain ⟨hi, hst⟩ := takenIn_of_noNestedFault hs
  exact (hi.processPtr_iff hptr).mpr hst

end Invariant

/-! ## A page fault inside a copy -/

/-- A handler starts, where pages are left. -/
theorem firstFit_asyncEnter {ptr : BitVec 64} {s : TrapRun} (hi : PtrInv ptr s)
    (hn : s.heap.objs.length < 63) (hsync : s.sync = none) {code : TrapCode} {f : FrameKind}
    {st : TrapState}
    (hent : asyncEnter s.proc.trapState code s.proc.readingUserspace = .ok (f, st)) :
    ∃ s', s.PtrStep firstFitPages 3 oneHartStack (.asyncEnter code) s' ∧ s'.sync = none ∧
      s'.proc.trapState = st ∧ s'.heap.objs.length ≤ s.heap.objs.length + 2 := by
  obtain ⟨h, hmap, hlen⟩ := firstFit_mapPage 3 hi.inv.table topPage_trapframe (hi.inv.window f) hn
  exact ⟨_, ⟨trivial, TrapRun.Step.asyncEnter hsync hent hmap⟩, hsync, rfl, hlen⟩

/-- A process at address 64 makes a syscall, whose handler copies from user space and takes a page
fault. -/
theorem nestedFault_reach : ∃ s, Reach (TrapRun.BuiltAt firstFitPages 3 64)
    (TrapRun.PtrStep firstFitPages 3 oneHartStack) s ∧ s.takenIn = .readUserspace := by
  obtain ⟨⟨proc, heap⟩, hnew, hlen⟩ :=
    newBlankProcessMaps_ok (h := ⟨[], fun _ _ => 0⟩) 3 64 (by decide)
  have h0 : Reach (TrapRun.BuiltAt firstFitPages 3 64)
      (TrapRun.PtrStep firstFitPages 3 oneHartStack) ⟨heap, proc, none, []⟩ :=
    .start ⟨_, hnew, rfl, rfl⟩
  have hlen0 : heap.objs.length ≤ 21 := hlen
  have hst0 := (newBlankProcessMaps_spec hnew).state
  have hent0 : asyncEnter proc.trapState .syscall proc.readingUserspace =
      .ok (.kernelspace, .interruptableTrap) := by
    rw [hst0]
    rfl
  obtain ⟨s1, hstep1, hsync1, hst1, hlen1⟩ := firstFit_asyncEnter (PtrInv.reach h0)
    (show heap.objs.length < 63 by omega) rfl hent0
  have h1 := h0.next hstep1
  have h2 := h1.next (⟨trivial, TrapRun.Step.reading hsync1 hst1⟩ :
    s1.PtrStep firstFitPages 3 oneHartStack (.reading true) _)
  have hlen1 : s1.heap.objs.length ≤ heap.objs.length + 2 := hlen1
  have hent2 : asyncEnter s1.proc.trapState .pageFault true = .ok (.pageFault, .readUserspace) := by
    rw [hst1]
    rfl
  obtain ⟨s3, hstep3, hsync3, hst3, -⟩ := firstFit_asyncEnter (PtrInv.reach h2)
    (show s1.heap.objs.length < 63 by omega) hsync1 hent2
  exact ⟨s3, h2.next hstep3, by rw [TrapRun.takenIn, hsync3, Option.getD_none, hst3]⟩

theorem trapframe_processPtr_nestedFault :
    (∃ s : TrapRun, s.BuiltAt firstFitPages 3 64 ∧ s.processPtr = .ok 64) ∧
      ∃ s, Reach (TrapRun.BuiltAt firstFitPages 3 64)
        (TrapRun.PtrStep firstFitPages 3 oneHartStack) s ∧ s.processPtr ≠ .ok 64 := by
  obtain ⟨hgood, hiff⟩ := trapframe_processPtr firstFitPages 3 oneHartStack
    (show (64 : BitVec 64) ≠ 0 by decide)
  refine ⟨?_, ?_⟩
  · obtain ⟨⟨proc, heap⟩, hnew, -⟩ :=
      newBlankProcessMaps_ok (h := ⟨[], fun _ _ => 0⟩) 3 64 (by decide)
    have hbuilt : TrapRun.BuiltAt firstFitPages 3 64 ⟨heap, proc, none, []⟩ :=
      ⟨_, hnew, rfl, rfl⟩
    exact ⟨_, hbuilt, hgood _ (.start hbuilt)⟩
  · obtain ⟨s, hs, hst⟩ := nestedFault_reach
    exact ⟨s, hs, fun hp => (hiff s hs).mp hp hst⟩

/-- While the page fault is handled, the frame mapped points to address 0. -/
theorem not_processPtr_nestedFault : ∃ s, Reach (TrapRun.BuiltAt firstFitPages 3 64)
    (TrapRun.PtrStep firstFitPages 3 oneHartStack) s ∧ s.processPtr = .ok 0 ∧
      s.processPtr ≠ .ok 64 := by
  obtain ⟨s, hs, hst⟩ := nestedFault_reach
  have hi := PtrInv.reach hs
  obtain ⟨f, hf, hm⟩ := hi.inv.frame
  have hstate : s.takenIn.frame = some f := hf
  rw [hst] at hstate
  cases hstate
  have hzero : s.processPtr = .ok 0 := processPtr_of_mapped hi hm
  refine ⟨s, hs, hzero, fun hp => ?_⟩
  rw [hzero] at hp
  exact absurd (Except.ok.inj hp) (by decide)

end Toastium
