import Toastium.TrapHandlers

/-!
# The hart id of a trap

`handle_sync_trap` has its `trap_data` on the stack and does not clear it. `trapframe_parse` sets
each of its fields but `hart_id`, which `trap_change_process` hands to the scheduler and to the
context switch : it is whatever the stack held there.

`trapframeParse_hart` is what the parser sets. `trapSwitch_same_iff` : the next process and the
state after `trap_change_process` do not depend on the earlier contents of the `trap_data` exactly
if the kernel stays on the process that trapped (`StaysOn`), or panics before it comes to the
scheduler. In any other case the hart id is written to the next process and chooses the stacks
that are mapped for it. `trapChange_kernel` : with the hart id of the hart, it is the
`trap_change_process` of one hart.

A panic keeps the state in which it was raised, so what was written before it counts as well.
The arrays of `hart_idle_process` and `hart_stacks_list` are read at any index : behind their
entries is what the memory holds there. The calls on page tables and on the timer are parameters.
-/

namespace Toastium

/-! ## The code -/

/-- `trap_data` with its `hart_id`. -/
structure HartTrap extends TrapData where
  hartId : BitVec 64

/-- `trapframe_parse`, into the `trap_data` of its caller. -/
def trapframeParseInto (trap : HartTrap) (frame : TrapFrame) : Except (Fault Panic) HartTrap := do
  let parsed ← trapframeParse frame
  return { trap with
    processPtr := parsed.processPtr
    trapType := parsed.trapType
    privilege := parsed.privilege
    code := parsed.code
    faultPc := parsed.faultPc
    faultAddr := parsed.faultAddr
    arg0Reg := parsed.arg0Reg
    arg1Reg := parsed.arg1Reg
    arg2Reg := parsed.arg2Reg
    arg3Reg := parsed.arg3Reg
    returnReg := parsed.returnReg }

/-- The kernel with the state of its harts : the idle processes and the stacks by hart id, the
`last_hart` of each process, and in `vma` the page tables and the timer. The one idle process of
`kernel` is not read. -/
structure HartKernel (σ : Type) where
  kernel : Kernel
  hartIdleProcess : BitVec 64 → ℕ
  hartStacksList : BitVec 64 → ℕ
  lastHart : ℕ → BitVec 64
  vma : σ

/-- What a function returns, or its panic with the state in which it was raised. -/
abbrev SwitchM (σ : Type) := Except (Fault Panic × HartKernel σ)

/-- The calls of a context switch on page tables, and `timer_set_future_ms`. -/
structure SwitchCalls (σ : Type) where
  vmaMapKernel : (proc virtAddr physAddr : ℕ) → σ → Except (Fault Panic × σ) σ
  vmaSwap : (proc : ℕ) → σ → Except (Fault Panic × σ) σ
  timerSetFutureMs : (ms : ℕ) → σ → Except (Fault Panic × σ) σ

/-- The kernel with the trap frame of `proc` mapped. -/
def Kernel.trapped (k : Kernel) (proc : ℕ) : Kernel :=
  { k with current := proc }

namespace HartKernel

variable {σ : Type}

/-- A call on the page tables or the timer. -/
def withVma (k : HartKernel σ) : Except (Fault Panic × σ) σ → SwitchM σ (HartKernel σ)
  | .ok s => .ok { k with vma := s }
  | .error (e, s) => .error (e, { k with vma := s })

/-- A function of the kernel's processes. A panic in it leaves the state as it was. -/
def withKernel (k : HartKernel σ) : Except (Fault Panic) Kernel → SwitchM σ (HartKernel σ)
  | .ok kernel => .ok { k with kernel := kernel }
  | .error e => .error (e, k)

/-- `scheduler_next`. -/
def schedulerNext (hartId : BitVec 64) (k : HartKernel σ) : ℕ × HartKernel σ :=
  if k.kernel.queue.count = 0 then (k.hartIdleProcess hartId, k)
  else (k.kernel.queue.schedulerNext.1,
    { k with kernel := { k.kernel with queue := k.kernel.queue.schedulerNext.2 } })

section Code

variable (calls : SwitchCalls σ) (fuel : ℕ)

/-- The body of the loop of `process_update_context_switch`. A hart has four pages of stack. -/
def mapHartStack (proc : ℕ) (hartId : BitVec 64) (k : HartKernel σ) (i : ℕ) :
    SwitchM σ (HartKernel σ) :=
  k.withVma (calls.vmaMapKernel proc (hartKernStackStart + kernelPageSize * i)
    (k.hartStacksList (BitVec.ofNat 64 i + hartId * 4)) k.vma)

/-- `process_update_context_switch`. -/
def processUpdateContextSwitch (proc : ℕ) (hartId : BitVec 64) (k : HartKernel σ) :
    SwitchM σ (HartKernel σ) :=
  if k.lastHart proc = hartId then .ok k
  else (List.range 4).foldlM (mapHartStack calls proc hartId)
    { k with lastHart := Function.update k.lastHart proc hartId }

/-- `context_change_process`. The old process is the one whose trap frame is mapped. -/
def contextChangeProcess (proc : ℕ) (hartId : BitVec 64) (k : HartKernel σ) :
    SwitchM σ (HartKernel σ) :=
  if k.kernel.current = proc then .ok k
  else do
    let oldProc := k.kernel.current
    let k ← k.processUpdateContextSwitch calls proc hartId
    let k ← k.withVma (calls.vmaSwap proc k.vma)
    let k := { k with
      kernel := k.kernel.enter proc
      lastHart := Function.update k.lastHart proc hartId }
    match (k.kernel.procs oldProc).processType with
    | .normal =>
      .ok { k with kernel := k.kernel.modify oldProc fun p => { p with running := false } }
    | .idle => .ok k
    | .dead => k.withKernel (k.kernel.processCleanup fuel oldProc)

/-- The first part of `trap_change_process` : the process that comes next. -/
def selectProcess (trap : HartTrap) (k : HartKernel σ) :
    SwitchM σ (ℕ × HartKernel σ) := do
  let k ← k.withKernel (k.kernel.trapped trap.processPtr).requeue
  return k.schedulerNext trap.hartId

/-- `trap_change_process`. -/
def trapChangeProcess (trap : HartTrap) (k : HartKernel σ) : SwitchM σ (HartKernel σ) := do
  let (nextProcess, k) ← k.selectProcess trap
  let k ← k.contextChangeProcess calls fuel nextProcess trap.hartId
  k.withVma (calls.timerSetFutureMs 4 k.vma)

/-- `trapframe_parse` and then `trap_change_process`, with `prior` in the `trap_data` before. -/
def trapSwitch (prior : HartTrap) (frame : TrapFrame) (k : HartKernel σ) :
    SwitchM σ (HartKernel σ) :=
  match trapframeParseInto prior frame with
  | .ok trap => k.trapChangeProcess calls fuel trap
  | .error e => .error (e, k)

/-- The process that they select. -/
def trapNext (prior : HartTrap) (frame : TrapFrame) (k : HartKernel σ) :
    SwitchM σ ℕ :=
  match trapframeParseInto prior frame with
  | .ok trap => (k.selectProcess trap).map Prod.fst
  | .error e => .error (e, k)

end Code

/-! ## What depends on the hart id -/

/-- Two runs that find different things in the `trap_data` select the same process and leave the
same state. -/
def SameSwitch (calls : SwitchCalls σ) (fuel : ℕ) (frame : TrapFrame) (k : HartKernel σ) : Prop :=
  ∀ prior prior' : HartTrap, k.trapNext prior frame = k.trapNext prior' frame ∧
    k.trapSwitch calls fuel prior frame = k.trapSwitch calls fuel prior' frame

/-- The process `old`, which trapped, is the next one on every hart : if it can run on, it is
queued to an empty queue, or the first one of the queue is `old` again, or there is no room for
it and the kernel panics. -/
def StaysOn (k : HartKernel σ) (old : ℕ) : Prop :=
  if (k.kernel.procs old).processType = .normal ∧ (k.kernel.procs old).blockWaiting = 0 then
    k.kernel.queue.count = processQueueSize ∨
      (k.kernel.queue.start + k.kernel.queue.count) % processQueueSize = k.kernel.queue.start ∨
        k.kernel.queue.slots k.kernel.queue.start = old
  else if k.kernel.queue.count = 0 then ∀ hartId, k.hartIdleProcess hartId = old
  else k.kernel.queue.slots k.kernel.queue.start = old

/-! ## The next process -/

section Requeue

variable {k k' : Kernel} {old : ℕ}

theorem requeue_of_room (hrun : (k.procs k.current).processType = .normal ∧
    (k.procs k.current).blockWaiting = 0) (hroom : k.queue.count ≠ processQueueSize) :
    k.requeue = .ok { k with queue := { k.queue with
      slots := Function.update k.queue.slots
        ((k.queue.start + k.queue.count) % processQueueSize) k.current
      count := k.queue.count + 1 } } := by
  rw [Kernel.requeue, if_pos hrun, ReadyQueue.schedulerQueueProcess, if_neg hroom.symm]
  rfl

theorem requeue_of_full (hrun : (k.procs k.current).processType = .normal ∧
    (k.procs k.current).blockWaiting = 0) (hfull : k.queue.count = processQueueSize) :
    k.requeue = .error (.panic .kernelSchedulerQueueFull) := by
  rw [Kernel.requeue, if_pos hrun, ReadyQueue.schedulerQueueProcess, if_pos hfull.symm]
  rfl

theorem requeue_of_not (hrun : ¬((k.procs k.current).processType = .normal ∧
    (k.procs k.current).blockWaiting = 0)) : k.requeue = .ok k :=
  if_neg hrun

/-- Only the queue changes. -/
theorem requeue_queue (h : k.requeue = .ok k') : ∃ queue, k' = { k with queue := queue } := by
  by_cases hrun : (k.procs k.current).processType = .normal ∧ (k.procs k.current).blockWaiting = 0
  · by_cases hfull : k.queue.count = processQueueSize
    · rw [requeue_of_full hrun hfull] at h
      cases h
    · rw [requeue_of_room hrun hfull] at h
      cases h
      exact ⟨_, rfl⟩
  · rw [requeue_of_not hrun] at h
    cases h
    exact ⟨_, rfl⟩

end Requeue

variable {calls : SwitchCalls σ} {fuel proc : ℕ} {hartId : BitVec 64} {k : HartKernel σ}

/-- The kernel stays on a process exactly if the scheduler selects it for every hart, once it is
queued. -/
theorem staysOn_iff {old : ℕ} : k.StaysOn old ↔
    ∀ kernel, (k.kernel.trapped old).requeue = .ok kernel →
      ∀ hartId, (schedulerNext hartId { k with kernel := kernel }).1 = old := by
  unfold StaysOn
  by_cases hrun : (k.kernel.procs old).processType = .normal ∧ (k.kernel.procs old).blockWaiting = 0
  · rw [if_pos hrun]
    by_cases hfull : k.kernel.queue.count = processQueueSize
    · refine ⟨fun _ kernel h => ?_, fun _ => .inl hfull⟩
      rw [requeue_of_full (k := k.kernel.trapped old) hrun hfull] at h
      cases h
    · have hroom := requeue_of_room (k := k.kernel.trapped old) hrun hfull
      have hnext : ∀ kernel, (k.kernel.trapped old).requeue = .ok kernel →
          ∀ hartId, (schedulerNext hartId { k with kernel := kernel }).1 =
            Function.update k.kernel.queue.slots
              ((k.kernel.queue.start + k.kernel.queue.count) % processQueueSize) old
              k.kernel.queue.start := fun kernel h hartId => by
        rw [hroom] at h
        cases h
        rw [schedulerNext, if_neg (Nat.succ_ne_zero _)]
        rfl
      have hslot : Function.update k.kernel.queue.slots
          ((k.kernel.queue.start + k.kernel.queue.count) % processQueueSize) old
          k.kernel.queue.start = old ↔
          (k.kernel.queue.start + k.kernel.queue.count) % processQueueSize = k.kernel.queue.start ∨
            k.kernel.queue.slots k.kernel.queue.start = old := by
        rw [Function.update_apply]
        split_ifs with he
        · exact ⟨fun _ => .inl he.symm, fun _ => rfl⟩
        · exact ⟨.inr, fun h => h.resolve_left fun e => he e.symm⟩
      constructor
      · rintro h kernel hkernel hartId
        rw [hnext kernel hkernel hartId]
        exact hslot.2 (h.resolve_left hfull)
      · intro h
        exact .inr (hslot.1 ((hnext _ hroom 0).symm.trans (h _ hroom 0)))
  · rw [if_neg hrun, requeue_of_not (k := k.kernel.trapped old) hrun]
    have hnext : (∀ kernel, (.ok (k.kernel.trapped old) : Except (Fault Panic) Kernel) =
        .ok kernel → ∀ hartId, (schedulerNext hartId { k with kernel := kernel }).1 = old) ↔
        ∀ hartId, (schedulerNext hartId
          { k with kernel := k.kernel.trapped old }).1 = old :=
      ⟨fun h => h _ rfl, fun h kernel e => by cases e; exact h⟩
    rw [hnext]
    split_ifs with hcount
    · refine forall_congr' fun hartId => ?_
      rw [schedulerNext, if_pos (show (k.kernel.trapped old).queue.count = 0 from hcount)]
    · have hfirst : ∀ hartId, (schedulerNext hartId { k with kernel := k.kernel.trapped old }).1 =
          k.kernel.queue.slots k.kernel.queue.start := fun hartId => by
        rw [schedulerNext, if_neg (show ¬(k.kernel.trapped old).queue.count = 0 from hcount)]
        rfl
      exact ⟨fun h hartId => (hfirst hartId).trans h, fun h => (hfirst 0).symm.trans (h 0)⟩

/-! ## The hart that a switch leaves behind -/

/-- The state that a function leaves, also where it panics. -/
def stateOf : SwitchM σ (HartKernel σ) → HartKernel σ
  | .ok k => k
  | .error (_, k) => k

section LastHart

variable {P : HartKernel σ → Prop} {x : SwitchM σ (HartKernel σ)}

/-- What a function leaves and the next one keeps, the two leave. -/
theorem stateOf_bind {f : HartKernel σ → SwitchM σ (HartKernel σ)} (hx : P (stateOf x))
    (hf : ∀ k, P k → P (stateOf (f k))) : P (stateOf (x >>= f)) := by
  cases x with
  | error e => exact hx
  | ok k => exact hf k hx

theorem lastHart_withVma (k : HartKernel σ) (r : Except (Fault Panic × σ) σ) :
    (stateOf (k.withVma r)).lastHart = k.lastHart := by
  cases r <;> rfl

theorem lastHart_withKernel (k : HartKernel σ) (r : Except (Fault Panic) Kernel) :
    (stateOf (k.withKernel r)).lastHart = k.lastHart := by
  cases r <;> rfl

theorem lastHart_mapHartStacks : ∀ (is : List ℕ) (k : HartKernel σ),
    (stateOf (is.foldlM (mapHartStack calls proc hartId) k)).lastHart = k.lastHart
  | [], _ => rfl
  | i :: is, k => by
    have hmap : (stateOf (k.mapHartStack calls proc hartId i)).lastHart = k.lastHart :=
      lastHart_withVma _ _
    rw [List.foldlM_cons]
    exact stateOf_bind (P := fun k' => k'.lastHart = k.lastHart) hmap fun k' hk' =>
      (lastHart_mapHartStacks is k').trans hk'

theorem lastHart_update (k : HartKernel σ) :
    (stateOf (k.processUpdateContextSwitch calls proc hartId)).lastHart proc = hartId := by
  unfold processUpdateContextSwitch
  split_ifs with h
  · exact h
  · rw [lastHart_mapHartStacks]
    exact Function.update_self _ _ _

/-- A switch to another process leaves the hart id in it. -/
theorem lastHart_contextChange (hne : k.kernel.current ≠ proc) :
    (stateOf (k.contextChangeProcess calls fuel proc hartId)).lastHart proc = hartId := by
  have hkeep : ∀ k' : HartKernel σ, k'.lastHart proc = hartId → ∀ r,
      (stateOf (k'.withVma r)).lastHart proc = hartId := fun k' hk' r => by
    rw [lastHart_withVma, hk']
  unfold contextChangeProcess
  rw [if_neg hne]
  refine stateOf_bind (P := fun k' => k'.lastHart proc = hartId) (lastHart_update k)
    fun k₁ hk₁ => ?_
  refine stateOf_bind (P := fun k' => k'.lastHart proc = hartId) (hkeep k₁ hk₁ _) fun k₂ _ => ?_
  dsimp only
  split
  · exact Function.update_self _ _ _
  · exact Function.update_self _ _ _
  · rw [lastHart_withKernel]
    exact Function.update_self _ _ _

end LastHart

/-! ## The two calls -/

/-- The parser sets each field but the hart id. -/
theorem trapframeParse_hart (prior : HartTrap) (frame : TrapFrame) :
    trapframeParseInto prior frame =
      (trapframeParse frame).map fun parsed => ⟨parsed, prior.hartId⟩ := by
  unfold trapframeParseInto
  cases trapframeParse frame <;> rfl

theorem schedulerNext_state (hartId hartId' : BitVec 64) (k : HartKernel σ) :
    (schedulerNext hartId k).2 = (schedulerNext hartId' k).2 := by
  unfold schedulerNext
  split_ifs <;> rfl

theorem schedulerNext_current (hartId : BitVec 64) (k : HartKernel σ) :
    (schedulerNext hartId k).2.kernel.current = k.kernel.current := by
  unfold schedulerNext
  split_ifs <;> rfl

/-- The process that trapped is the current one. -/
theorem schedulerNext_trapped {kernel : Kernel} {proc : ℕ}
    (hqueue : (k.kernel.trapped proc).requeue = .ok kernel) (hartId : BitVec 64) :
    (schedulerNext hartId { k with kernel := kernel }).2.kernel.current = proc := by
  obtain ⟨queue, rfl⟩ := requeue_queue hqueue
  exact schedulerNext_current _ _

section Switch

variable {kernel : Kernel} {frame : TrapFrame} (calls : SwitchCalls σ) (fuel : ℕ) (trap : HartTrap)

theorem selectProcess_eq (hqueue : (k.kernel.trapped trap.processPtr).requeue = .ok kernel) :
    k.selectProcess trap = .ok (schedulerNext trap.hartId { k with kernel := kernel }) := by
  rw [selectProcess, hqueue]
  rfl

theorem selectProcess_error {e : Fault Panic}
    (hqueue : (k.kernel.trapped trap.processPtr).requeue = .error e) :
    k.selectProcess trap = .error (e, k) := by
  rw [selectProcess, hqueue]
  rfl

theorem trapChangeProcess_eq (hqueue : (k.kernel.trapped trap.processPtr).requeue = .ok kernel) :
    k.trapChangeProcess calls fuel trap =
      (schedulerNext trap.hartId { k with kernel := kernel }).2.contextChangeProcess calls fuel
        (schedulerNext trap.hartId { k with kernel := kernel }).1 trap.hartId >>= fun k =>
          k.withVma (calls.timerSetFutureMs 4 k.vma) := by
  rw [trapChangeProcess, selectProcess_eq trap hqueue, ok_bind]

theorem trapChangeProcess_error {e : Fault Panic}
    (hqueue : (k.kernel.trapped trap.processPtr).requeue = .error e) :
    k.trapChangeProcess calls fuel trap = .error (e, k) := by
  rw [trapChangeProcess, selectProcess_error trap hqueue, error_bind]

/-- Nothing is switched if the next process is the one that trapped. -/
theorem trapChangeProcess_same (hqueue : (k.kernel.trapped trap.processPtr).requeue = .ok kernel)
    (hnext : (schedulerNext trap.hartId { k with kernel := kernel }).1 = trap.processPtr) :
    k.trapChangeProcess calls fuel trap =
      (schedulerNext 0 { k with kernel := kernel }).2.withVma (calls.timerSetFutureMs 4
        (schedulerNext 0 { k with kernel := kernel }).2.vma) := by
  have hcurrent := schedulerNext_trapped hqueue trap.hartId
  rw [trapChangeProcess_eq calls fuel trap hqueue, hnext, contextChangeProcess, if_pos hcurrent,
    ok_bind, schedulerNext_state _ 0]

/-- Another process gets the hart id. -/
theorem lastHart_trapChange (hqueue : (k.kernel.trapped trap.processPtr).requeue = .ok kernel)
    (hnext : (schedulerNext trap.hartId { k with kernel := kernel }).1 = proc)
    (hne : proc ≠ trap.processPtr) :
    (stateOf (k.trapChangeProcess calls fuel trap)).lastHart proc = trap.hartId := by
  have hcurrent := schedulerNext_trapped hqueue trap.hartId
  rw [trapChangeProcess_eq calls fuel trap hqueue, hnext]
  refine stateOf_bind (P := fun k' => k'.lastHart proc = trap.hartId)
    (lastHart_contextChange (hcurrent.trans_ne hne.symm)) fun k' hk' => ?_
  rw [lastHart_withVma, hk']

end Switch

theorem trapframeParse_processPtr {frame : TrapFrame} {parsed : TrapData}
    (h : trapframeParse frame = .ok parsed) : parsed.processPtr = frame.processPtr := by
  unfold trapframeParse at h
  dsimp only at h
  split_ifs at h
  all_goals
    obtain ⟨⟨code, privilege⟩, -, h⟩ := bind_eq_ok.mp h
    cases h
    rfl

section Same

variable {frame : TrapFrame} {parsed : TrapData}

/-- If no hart id makes a difference, the kernel stays on the process : any other one would be
entered with the hart id in it. -/
theorem SameSwitch.staysOn (hsame : k.SameSwitch calls fuel frame)
    (hparsed : trapframeParse frame = .ok parsed) : k.StaysOn frame.processPtr := by
  rw [staysOn_iff]
  intro kernel hqueue hartId
  by_contra hne
  -- the run that finds `h` in the `hart_id` of its `trap_data`
  have hparse : ∀ h, trapframeParseInto ⟨parsed, h⟩ frame = .ok ⟨parsed, h⟩ := fun h => by
    rw [trapframeParse_hart, hparsed]
    rfl
  have hqueue' : (k.kernel.trapped parsed.processPtr).requeue = .ok kernel := by
    rw [trapframeParse_processPtr hparsed, hqueue]
  have hnext : ∀ h, (schedulerNext h { k with kernel := kernel }).1 =
      (schedulerNext hartId { k with kernel := kernel }).1 := fun h => by
    have hselected := (hsame ⟨parsed, h⟩ ⟨parsed, hartId⟩).1
    simp only [trapNext, hparse] at hselected
    rw [selectProcess_eq ⟨parsed, h⟩ hqueue', selectProcess_eq ⟨parsed, hartId⟩ hqueue']
      at hselected
    exact Except.ok.inj hselected
  have hlast : ∀ h, (stateOf (k.trapSwitch calls fuel ⟨parsed, h⟩ frame)).lastHart
      (schedulerNext hartId { k with kernel := kernel }).1 = h := fun h => by
    rw [trapSwitch, hparse]
    exact lastHart_trapChange calls fuel ⟨parsed, h⟩ hqueue' (hnext h)
      (hne <| ·.trans (trapframeParse_processPtr hparsed))
  have heq := congrArg (fun r => (stateOf r).lastHart
    (schedulerNext hartId { k with kernel := kernel }).1) (hsame ⟨parsed, 0⟩ ⟨parsed, 1⟩).2
  exact absurd ((hlast 0).symm.trans (heq.trans (hlast 1))) (by decide)

/-- A kernel that stays on the process, or panics before, does not read the hart id. -/
theorem sameSwitch_of_staysOn (calls : SwitchCalls σ) (fuel : ℕ)
    (hstays : ∀ parsed, trapframeParse frame = .ok parsed → k.StaysOn frame.processPtr) :
    k.SameSwitch calls fuel frame := by
  intro prior prior'
  simp only [trapNext, trapSwitch, trapframeParse_hart]
  cases hparsed : trapframeParse frame with
  | error e => exact ⟨rfl, rfl⟩
  | ok parsed =>
    have hptr := trapframeParse_processPtr hparsed
    have hnext := staysOn_iff.1 (hstays parsed hparsed)
    rw [← hptr] at hnext
    simp only [Except.map]
    cases hqueue : (k.kernel.trapped parsed.processPtr).requeue with
    | error e =>
      have hselect : ∀ h, k.selectProcess ⟨parsed, h⟩ = .error (e, k) := fun h =>
        selectProcess_error ⟨parsed, h⟩ hqueue
      have hchange : ∀ h, k.trapChangeProcess calls fuel ⟨parsed, h⟩ = .error (e, k) := fun h =>
        trapChangeProcess_error calls fuel ⟨parsed, h⟩ hqueue
      simp only [hselect, hchange, and_self]
    | ok kernel =>
      have hselect := fun h => selectProcess_eq ⟨parsed, h⟩ hqueue
      have hchange := fun h => trapChangeProcess_same calls fuel ⟨parsed, h⟩ hqueue
        (hnext kernel hqueue h)
      simp only [hselect, hchange, hnext kernel hqueue, and_self]

end Same

/-- `trapframe_parse` and `trap_change_process` do not depend on what the `trap_data` held before
exactly if the kernel stays on the process that trapped, or the parser panics. -/
theorem trapSwitch_same_iff (calls : SwitchCalls σ) (fuel : ℕ) (frame : TrapFrame)
    (k : HartKernel σ) : k.SameSwitch calls fuel frame ↔
      ∀ parsed, trapframeParse frame = .ok parsed → k.StaysOn frame.processPtr :=
  ⟨fun hsame _ hparsed => hsame.staysOn hparsed, sameSwitch_of_staysOn calls fuel⟩

/-! ## One hart -/

/-- The calls do not panic. -/
structure CallsReturn (calls : SwitchCalls σ) : Prop where
  map : ∀ proc va p s, ∃ s', calls.vmaMapKernel proc va p s = .ok s'
  swap : ∀ proc s, ∃ s', calls.vmaSwap proc s = .ok s'
  timer : ∀ ms s, ∃ s', calls.timerSetFutureMs ms s = .ok s'

/-- The processes and the queue, if nothing panics. -/
def kernelOf : SwitchM σ (HartKernel σ) → Except (Fault Panic) Kernel
  | .ok k => .ok k.kernel
  | .error (e, _) => .error e

section OneHart

variable (hcalls : CallsReturn calls)
include hcalls

theorem mapHartStacks_kernel : ∀ (is : List ℕ) (k : HartKernel σ),
    ∃ k', is.foldlM (mapHartStack calls proc hartId) k = .ok k' ∧ k'.kernel = k.kernel
  | [], k => ⟨k, rfl, rfl⟩
  | i :: is, k => by
    obtain ⟨s, hs⟩ := hcalls.map proc (hartKernStackStart + kernelPageSize * i)
      (k.hartStacksList (BitVec.ofNat 64 i + hartId * 4)) k.vma
    obtain ⟨k', hk', hkernel⟩ := mapHartStacks_kernel is { k with vma := s }
    refine ⟨k', ?_, hkernel⟩
    rw [List.foldlM_cons, mapHartStack, hs]
    exact hk'

theorem updateContext_kernel (proc : ℕ) (hartId : BitVec 64) (k : HartKernel σ) :
    ∃ k', k.processUpdateContextSwitch calls proc hartId = .ok k' ∧ k'.kernel = k.kernel := by
  unfold processUpdateContextSwitch
  split_ifs
  · exact ⟨k, rfl, rfl⟩
  · exact mapHartStacks_kernel hcalls _ _

theorem contextChange_kernel (k : HartKernel σ) :
    kernelOf (k.contextChangeProcess calls fuel proc hartId) =
      k.kernel.contextChangeProcess fuel proc := by
  unfold contextChangeProcess Kernel.contextChangeProcess
  split_ifs
  · rfl
  · obtain ⟨k', hk', hkernel⟩ := updateContext_kernel hcalls proc hartId k
    obtain ⟨s, hs⟩ := hcalls.swap proc k'.vma
    rw [hk', ok_bind, hs, ← hkernel]
    dsimp only [withVma, ok_bind]
    cases ((k'.kernel.enter proc).procs k'.kernel.current).processType with
    | normal => rfl
    | idle => rfl
    | dead =>
      cases (k'.kernel.enter proc).processCleanup fuel k'.kernel.current <;> rfl

/-- With the hart id of the hart, it is `trap_change_process` on one hart. -/
theorem trapChange_kernel (trap : HartTrap)
    (hidle : k.hartIdleProcess trap.hartId = k.kernel.hartIdleProcess) :
    kernelOf (k.trapChangeProcess calls fuel trap) =
      Toastium.trapChangeProcess fuel trap.toTrapData k.kernel := by
  change _ = (k.kernel.trapped trap.processPtr).trapChangeProcess fuel
  unfold Kernel.trapChangeProcess
  cases hqueue : (k.kernel.trapped trap.processPtr).requeue with
  | error e =>
    rw [trapChangeProcess_error calls fuel trap hqueue]
    rfl
  | ok kernel =>
    have hidle' : k.hartIdleProcess trap.hartId = kernel.hartIdleProcess := by
      obtain ⟨queue, rfl⟩ := requeue_queue hqueue
      exact hidle
    have hnext : (schedulerNext trap.hartId { k with kernel := kernel }).1 =
        kernel.schedulerNext.1 ∧ (schedulerNext trap.hartId { k with kernel := kernel }).2.kernel =
          kernel.schedulerNext.2 := by
      unfold schedulerNext Kernel.schedulerNext
      split_ifs
      · exact ⟨hidle', rfl⟩
      · exact ⟨rfl, rfl⟩
    rw [trapChangeProcess_eq calls fuel trap hqueue, ok_bind, ← hnext.1, ← hnext.2,
      ← contextChange_kernel hcalls]
    cases contextChangeProcess calls fuel _ trap.hartId _ with
    | error e => rfl
    | ok k' =>
      obtain ⟨s, hs⟩ := hcalls.timer 4 k'.vma
      rw [ok_bind, hs]
      rfl

end OneHart

end HartKernel

/-- Calls on page tables that do nothing. -/
def noCalls : SwitchCalls Unit :=
  ⟨fun _ _ _ s => .ok s, fun _ s => .ok s, fun _ s => .ok s⟩

/-- A `trap_data` with a hart id in it. -/
def staleTrap (hartId : BitVec 64) : HartTrap :=
  ⟨⟨0, .interrupt, .user, .softwareInterrupt, 0, 0, 0, 0, 0, 0, 0⟩, hartId⟩

/-- Two normal processes, one that runs and one that is ready, and the idle process. -/
def twoReady : HartKernel Unit where
  kernel := { oneProcess with
    procs := fun p =>
      if p = 64 then ⟨1, 0, true, .normal, 1⟩
      else if p = 192 then ⟨2, 0, false, .normal, 2⟩
      else ⟨0, 0, false, .idle, 0⟩
    queue := ⟨fun _ => 192, 0, 1⟩ }
  hartIdleProcess := fun hartId => if hartId = 0 then 128 else 0
  hartStacksList := fun _ => 0
  lastHart := fun _ => BitVec.allOnes 64
  vma := ()

/-- After a timer interrupt the ready process gets the hart id that was on the stack. -/
theorem not_sameSwitch_twoReady :
    ¬twoReady.SameSwitch noCalls 8 (oneTrap 0x8000000000000005 0 0).frame := by
  intro h
  have hsame := congrArg (fun r => (HartKernel.stateOf r).lastHart 192)
    (h (staleTrap 0) (staleTrap 1)).2
  exact absurd hsame (by decide)

end Toastium
