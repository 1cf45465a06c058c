import Toastium.Reach
import Toastium.Hashmap
import Toastium.KernelList
import Toastium.Scheduler

/-!
# Process creation, timer traps and the two kill paths

Processes on one hart. A synchronous fault kills the running process and then changes to
the next one (`kill_process`, `trap_change_process`); a bad syscall or an unloadable page
fault, handled with interrupts enabled, does the two in the opposite order. In the second
order the killed process is first put back into the ready queue. If the queue was empty it
is dequeued at once and runs on, dead. Otherwise it is removed from the queue again, and
`scheduler_remove` then puts the process that was just dequeued, and is running, into the
queue.

`killPaths_safe` : in every run without asynchronous kills and with fewer than `2 ^ 32`
processes created, the queue holds no process twice, not the running one, and none that
was killed, no killed process runs, and a process is cleaned up at most once; and every
asynchronous kill that returns breaks this.

The pages and the block of a process that `process_cleanup` frees, and the mappings of a
context switch, are not part of the state; `mem_alloc` returns a block that is not in use.
-/

namespace Toastium

/-- `process_type`. -/
inductive ProcessType
  | normal
  | idle
  | dead
  deriving DecidableEq, Repr

/-- `process`, as far as the scheduling of processes depends on it. -/
structure Process where
  processId : ℕ
  blockWaiting : ℕ
  running : Bool
  processType : ProcessType
  listIdx : ℕ
  deriving DecidableEq, Repr

/-- The kernel's processes. `procs` is the memory of the process structures, `live` the
structures not freed, `itemCnt` the length of `running_list`, `current` the process whose
trap frame is mapped. `killed` and `cleaned` record the ids that `kill_process` and
`process_cleanup` were run for. -/
structure Kernel where
  procs : ℕ → Process
  live : List ℕ
  processHashmap : Hashmap ℕ
  processUpto : ℕ
  itemCnt : ℕ
  queue : ReadyQueue
  hartIdleProcess : ℕ
  current : ℕ
  killed : List ℕ
  cleaned : List ℕ

/-- The allocators of process structures and of hash map leaves. -/
structure ProcessSources where
  proc : AddrSource
  leaf : AddrSource

namespace Kernel

/-- A field of a process structure written. -/
def modify (k : Kernel) (p : ℕ) (f : Process → Process) : Kernel :=
  { k with procs := Function.update k.procs p (f (k.procs p)) }

/-! ## `process.c` -/

/-- `process_from_id`. -/
def processFromId (k : Kernel) (fuel processId : ℕ) : Except (Fault Panic) ℕ :=
  k.processHashmap.get builtinNumHash fuel processId

/-- The loop of `new_blank_process`, at most `m` times : the first `process_upto` that is
not in the table. -/
def freeUpto (k : Kernel) (fuel : ℕ) : ℕ → ℕ → Except (Fault Panic) ℕ
  | 0, _ => .error .fuel
  | m + 1, upto => do
    if (← k.processFromId fuel upto) = 0 then return upto
    k.freeUpto fuel m (upto + 1)

/-- `new_blank_process`. `list_idx` is not initialised, `listIdx` is what it happens to
be. `process_id` has 32 bits. -/
def newBlankProcess (src : ProcessSources) (fuel listIdx : ℕ) (k : Kernel) :
    Except (Fault Panic) (ℕ × Kernel) := do
  let upto ← k.freeUpto fuel fuel k.processUpto
  match src.proc.next k.live with
  | none => .error (.panic .outOfFreePages)
  | some proc =>
    let table ← k.processHashmap.insert builtinNumHash src.leaf upto proc
    return (proc, { k with
      procs := Function.update k.procs proc ⟨upto % 2 ^ 32, 0, false, .normal, listIdx⟩
      live := proc :: k.live
      processHashmap := table
      processUpto := upto + 1
      itemCnt := k.itemCnt + 1 })

/-- `list_remove`, for 8-byte items : the length that is left. The last item is looked up
at `item_size - 1`. -/
def listRemove (itemCnt itemIdx : ℕ) : Except (Fault Panic) ℕ :=
  if itemIdx ≥ itemCnt then .error (.panic .attemptRemoveListItemOutBounds)
  else if 8 - 1 > itemCnt then .error (.panic .attemptRemoveListItemOutBounds)
  else .ok (itemCnt - 1)

/-- The byte of a section that `process_cleanup` writes a `list_idx` to : it takes the
address of an item for that of a process. -/
def replacementByte (listIdx : ℕ) : ℕ :=
  8 + 8 * (listIdx % sectionMaxCnt) + 144

/-- `process_cleanup`. -/
def processCleanup (fuel proc : ℕ) (k : Kernel) : Except (Fault Panic) Kernel := do
  let (_, table) ← k.processHashmap.remove builtinNumHash fuel (k.procs proc).processId
  let highestIdx := k.itemCnt - 1
  let itemCnt ← listRemove k.itemCnt (k.procs proc).listIdx
  if highestIdx ≠ (k.procs proc).listIdx ∧ replacementByte (k.procs proc).listIdx ≥ 4096 then
    .error (.wild proc (replacementByte (k.procs proc).listIdx))
  else return { k with
    processHashmap := table
    itemCnt := itemCnt
    live := k.live.erase proc
    cleaned := (k.procs proc).processId :: k.cleaned }

/-- `kill_process`. -/
def killProcess (fuel processId : ℕ) (k : Kernel) : Except (Fault Panic) Kernel := do
  let proc ← k.processFromId fuel processId
  if proc = 0 then .error (.wild 0 0)
  else if (k.procs proc).processType = .idle then .error (.panic .attemptToKillIdleProcess)
  else
    let k := { k with killed := processId :: k.killed }
    if (k.procs proc).running then
      return k.modify proc fun p => { p with processType := .dead }
    else processCleanup fuel proc { k with queue := k.queue.schedulerRemove proc }

/-! ## Context switches and traps -/

/-- `scheduler_next`. -/
def schedulerNext (k : Kernel) : ℕ × Kernel :=
  if k.queue.count = 0 then (k.hartIdleProcess, k)
  else (k.queue.schedulerNext.1, { k with queue := k.queue.schedulerNext.2 })

/-- The first part of `context_change_process` : `change_context` and the `running` flag. -/
def enter (k : Kernel) (proc : ℕ) : Kernel :=
  { k with current := proc }.modify proc fun p => { p with running := true }

/-- `context_change_process`. -/
def contextChangeProcess (fuel proc : ℕ) (k : Kernel) : Except (Fault Panic) Kernel :=
  if k.current = proc then .ok k
  else match ((k.enter proc).procs k.current).processType with
    | .normal => .ok ((k.enter proc).modify k.current fun p => { p with running := false })
    | .idle => .ok (k.enter proc)
    | .dead => processCleanup fuel k.current (k.enter proc)

/-- The first part of `trap_change_process` : the old process is queued if it can run on. -/
def requeue (k : Kernel) : Except (Fault Panic) Kernel := do
  if (k.procs k.current).processType = .normal ∧ (k.procs k.current).blockWaiting = 0 then
    let queue ← k.queue.schedulerQueueProcess k.current
    return { k with queue := queue }
  else return k

/-- `trap_change_process`. -/
def trapChangeProcess (fuel : ℕ) (k : Kernel) : Except (Fault Panic) Kernel := do
  let k ← k.requeue
  contextChangeProcess fuel k.schedulerNext.1 k.schedulerNext.2

end Kernel

/-! ## Runs -/

/-- What happens to the kernel's processes. -/
inductive KernelEvent
  | create (listIdx : ℕ)
  | timer
  | syncKill
  | asyncKill
  deriving DecidableEq

/-- `create_init_process`, a timer trap, a fault of the running process (`kill_process`,
then `trap_change_process`) and the end of a handler that kills it
(`trap_change_process`, then `kill_process`). -/
def Kernel.handle (src : ProcessSources) (fuel : ℕ) (k : Kernel) :
    KernelEvent → Except (Fault Panic) Kernel
  | .create listIdx => do
    let (proc, k) ← k.newBlankProcess src fuel listIdx
    let queue ← k.queue.schedulerQueueProcess proc
    return { k with queue := queue }
  | .timer => k.trapChangeProcess fuel
  | .syncKill => do
    let k ← k.killProcess fuel (k.procs k.current).processId
    k.trapChangeProcess fuel
  | .asyncKill => do
    let proc := k.current
    let k ← k.trapChangeProcess fuel
    k.killProcess fuel (k.procs proc).processId

/-- An event that is handled to its end. -/
def KernelStep (src : ProcessSources) (k : Kernel) (e : KernelEvent) (k' : Kernel) : Prop :=
  ∃ fuel, k.handle src fuel e = .ok k'

/-- No process and empty tables. -/
def Kernel.empty : Kernel where
  procs := fun _ => ⟨0, 0, false, .dead, 0⟩
  live := []
  processHashmap := ⟨512, fun _ => 0, fun _ => none, []⟩
  processUpto := 0
  itemCnt := 0
  queue := ⟨fun _ => 0, 0, 0⟩
  hartIdleProcess := 0
  current := 0
  killed := []
  cleaned := []

/-- Process `proc` made the idle process, and running. -/
def Kernel.bootstrap (k : Kernel) (proc : ℕ) : Kernel :=
  { k with hartIdleProcess := proc, current := proc }.modify proc
    fun p => { p with processType := .idle }

/-- `processes_init`, `schedular_init` and `context_bootstrap` for one hart : the first
process created is the idle process. -/
def KernelInit (src : ProcessSources) (k : Kernel) : Prop :=
  ∃ fuel listIdx proc k0, Kernel.empty.newBlankProcess src fuel listIdx = .ok (proc, k0) ∧
    k = k0.bootstrap proc

/-- What holds of the queue, the running process and the processes killed. -/
structure KernelSafe (k : Kernel) : Prop where
  nodup : k.queue.contents.Nodup
  current_notMem : k.current ∉ k.queue.contents
  queue_notKilled : ∀ p ∈ k.queue.contents, (k.procs p).processId ∉ k.killed
  current_notKilled : (k.procs k.current).processId ∉ k.killed
  cleaned_nodup : k.cleaned.Nodup

/-- No asynchronous kill, and no process created once `process_upto` is past 32 bits. -/
def SyncKillsOnly (k : Kernel) : KernelEvent → Prop
  | .create _ => k.processUpto < 2 ^ 32
  | .timer => True
  | .syncKill => True
  | .asyncKill => False

/-! ## The invariant -/

/-- The processes, their table and the records : ids are unique and found in the table only
under the process they were given to, and no live process was killed. -/
structure ProcsInv (k : Kernel) : Prop where
  live_nodup : k.live.Nodup
  unblocked : ∀ p ∈ k.live, (k.procs p).blockWaiting = 0
  upto_le : k.processUpto ≤ 2 ^ 32
  id_lt : ∀ p ∈ k.live, (k.procs p).processId < k.processUpto
  killed_lt : ∀ i ∈ k.killed, i < k.processUpto
  live_notKilled : ∀ p ∈ k.live, (k.procs p).processId ∉ k.killed
  cleaned_killed : ∀ i ∈ k.cleaned, i ∈ k.killed
  cleaned_nodup : k.cleaned.Nodup
  table : ∃ log : ℕ → ℕ,
    k.processHashmap.OnlyPairs (fun key data => key < k.processUpto ∧ log key = data) ∧
      ∀ p ∈ k.live, log (k.procs p).processId = p

/-- The queue holds normal live processes, each once, and the idle process is live. -/
structure ReadyInv (k : Kernel) : Prop where
  wf : k.queue.Wf
  nodup : k.queue.contents.Nodup
  ready_live : ∀ p ∈ k.queue.contents, p ∈ k.live
  ready_normal : ∀ p ∈ k.queue.contents, (k.procs p).processType = .normal
  idle_live : k.hartIdleProcess ∈ k.live
  idle_type : (k.procs k.hartIdleProcess).processType = .idle

/-- The running process is live and not queued, and is the idle process or a normal one
that is marked as running. -/
structure CurrentInv (k : Kernel) : Prop where
  live : k.current ∈ k.live
  notMem : k.current ∉ k.queue.contents
  running : k.current = k.hartIdleProcess ∨
    (k.procs k.current).processType = .normal ∧ (k.procs k.current).running = true

/-- The invariant between two events. -/
structure KernelInv (k : Kernel) : Prop where
  procs : ProcsInv k
  ready : ReadyInv k
  current : CurrentInv k

theorem KernelInv.safe {k : Kernel} (h : KernelInv k) : KernelSafe k where
  nodup := h.ready.nodup
  current_notMem := h.current.notMem
  queue_notKilled p hp := h.procs.live_notKilled p (h.ready.ready_live p hp)
  current_notKilled := h.procs.live_notKilled _ h.current.live
  cleaned_nodup := h.procs.cleaned_nodup

namespace Kernel

variable {src : ProcessSources} {k k' : Kernel} {fuel : ℕ}

theorem procs_modify (k : Kernel) (p q : ℕ) (f : Process → Process) :
    (k.modify p f).procs q = if q = p then f (k.procs p) else k.procs q := by
  simp [modify, Function.update_apply]

@[simp] theorem procs_modify_self (k : Kernel) (p : ℕ) (f : Process → Process) :
    (k.modify p f).procs p = f (k.procs p) := by
  simp [modify]

theorem procs_modify_of_ne (k : Kernel) {p q : ℕ} (f : Process → Process) (h : q ≠ p) :
    (k.modify p f).procs q = k.procs q := by
  simp [modify, h]

/-! ### The process table -/

/-- A lookup of a live process's id finds that process, if it finds anything. -/
theorem processFromId_eq (h : ProcsInv k) {p r : ℕ} (hp : p ∈ k.live)
    (hr : k.processFromId fuel (k.procs p).processId = .ok r) : r = 0 ∨ r = p := by
  obtain ⟨log, hpairs, hlog⟩ := h.table
  rcases hpairs.getFrom hr with h0 | ⟨-, hr⟩
  · exact Or.inl h0
  · exact Or.inr (hr.symm.trans (hlog p hp))

/-- `process_upto` is not in the table. -/
theorem freeUpto_eq (h : ProcsInv k) {m u : ℕ}
    (hu : k.freeUpto fuel m k.processUpto = .ok u) : u = k.processUpto := by
  obtain ⟨log, hpairs, -⟩ := h.table
  cases m with
  | zero => cases hu
  | succ m =>
    obtain ⟨r, hr, hu⟩ := bind_eq_ok.mp hu
    rcases hpairs.getFrom hr with h0 | ⟨hlt, -⟩
    · rw [if_pos h0] at hu
      exact (Except.ok.inj hu).symm
    · exact absurd hlt (lt_irrefl _)

end Kernel

/-- The type and the `running` flag of a process do not matter for the table. -/
theorem ProcsInv.modify {k : Kernel} (h : ProcsInv k) (p : ℕ) (f : Process → Process)
    (hf : ∀ x, (f x).processId = x.processId) (hb : ∀ x, (f x).blockWaiting = x.blockWaiting) :
    ProcsInv (k.modify p f) := by
  have hid : ∀ q, ((k.modify p f).procs q).processId = (k.procs q).processId := by
    intro q
    rw [Kernel.procs_modify]
    split_ifs with hq
    · rw [hf, hq]
    · rfl
  have hblock : ∀ q, ((k.modify p f).procs q).blockWaiting = (k.procs q).blockWaiting := by
    intro q
    rw [Kernel.procs_modify]
    split_ifs with hq
    · rw [hb, hq]
    · rfl
  obtain ⟨log, hpairs, hlog⟩ := h.table
  exact ⟨h.live_nodup, fun q hq => (hblock q).trans (h.unblocked q hq), h.upto_le,
    fun q hq => (hid q).symm ▸ h.id_lt q hq, h.killed_lt,
    fun q hq => (hid q).symm ▸ h.live_notKilled q hq, h.cleaned_killed, h.cleaned_nodup,
    log, hpairs, fun q hq => (hid q).symm ▸ hlog q hq⟩

/-- Only the queue, the running and the idle process change. -/
theorem ProcsInv.congr {k k' : Kernel} (h : ProcsInv k) (hprocs : k'.procs = k.procs)
    (hlive : k'.live = k.live) (htable : k'.processHashmap = k.processHashmap)
    (hupto : k'.processUpto = k.processUpto) (hkilled : k'.killed = k.killed)
    (hcleaned : k'.cleaned = k.cleaned) : ProcsInv k' := by
  obtain ⟨h1, h0, h2, h3, h4, h5, h6, h7, h8⟩ := h
  rw [← hlive] at h0 h1 h3 h5 h8
  rw [← hupto] at h2 h3 h4 h8
  rw [← hkilled] at h4 h5 h6
  rw [← hcleaned] at h6 h7
  rw [← hprocs] at h0 h3 h5 h8
  rw [← htable] at h8
  exact ⟨h1, h0, h2, h3, h4, h5, h6, h7, h8⟩

/-- Fields other than the type of a process do not matter for the queue. -/
theorem ReadyInv.modify {k : Kernel} (h : ReadyInv k) (p : ℕ) (f : Process → Process)
    (hf : ∀ x, (f x).processType = x.processType) : ReadyInv (k.modify p f) := by
  have htype : ∀ q, ((k.modify p f).procs q).processType = (k.procs q).processType := by
    intro q
    rw [Kernel.procs_modify]
    split_ifs with hq
    · rw [hf, hq]
    · rfl
  exact ⟨h.wf, h.nodup, h.ready_live, fun q hq => (htype q).trans (h.ready_normal q hq),
    h.idle_live, (htype _).trans h.idle_type⟩

/-! ### A timer trap -/

namespace Kernel

variable {src : ProcessSources} {k k' : Kernel} {fuel : ℕ}

/-- `scheduler_next` takes the front of the queue, or the idle process if it is empty. -/
theorem schedulerNext_spec (h : ReadyInv k) :
    (k.queue.contents = [] ∧ k.schedulerNext = (k.hartIdleProcess, k)) ∨
    ∃ next queue, k.schedulerNext = (next, { k with queue := queue }) ∧
      k.queue.contents = next :: queue.contents ∧ next ∉ queue.contents ∧ next ∈ k.live ∧
      (k.procs next).processType = .normal ∧ ReadyInv { k with queue := queue } := by
  unfold schedulerNext
  by_cases hc : k.queue.count = 0
  · rw [if_pos hc]
    exact Or.inl ⟨ReadyQueue.contents_eq_nil hc, rfl⟩
  · rw [if_neg hc]
    have hcont := ReadyQueue.contents_schedulerNext (Nat.pos_of_ne_zero hc) h.wf
    have hmem : ∀ p ∈ k.queue.schedulerNext.1 :: k.queue.schedulerNext.2.contents,
        p ∈ k.queue.contents := fun p hp => hcont ▸ hp
    have hnd := List.nodup_cons.mp (hcont ▸ h.nodup)
    refine Or.inr ⟨_, _, rfl, hcont, hnd.1, h.ready_live _ (hmem _ List.mem_cons_self),
      h.ready_normal _ (hmem _ List.mem_cons_self), ReadyQueue.wf_schedulerNext h.wf, hnd.2,
      fun p hp => ?_, fun p hp => ?_, h.idle_live, h.idle_type⟩
    · exact h.ready_live p (hmem p (List.mem_cons_of_mem _ hp))
    · exact h.ready_normal p (hmem p (List.mem_cons_of_mem _ hp))

/-- A running process that is normal and not blocked is queued. -/
theorem requeue_spec (h : ReadyInv k) (hc : CurrentInv k) (hr : k.requeue = .ok k') :
    (k' = k ∧ ¬((k.procs k.current).processType = .normal ∧
      (k.procs k.current).blockWaiting = 0)) ∨
    ∃ queue, k' = { k with queue := queue } ∧ queue.Wf ∧
      queue.contents = k.queue.contents ++ [k.current] ∧
      (k.procs k.current).processType = .normal ∧ ReadyInv k' := by
  unfold requeue at hr
  split_ifs at hr with hn
  · obtain ⟨queue, hq, hr⟩ := bind_eq_ok.mp hr
    obtain ⟨hwf, hcont⟩ := ReadyQueue.contents_schedulerQueueProcess h.wf hq
    cases hr
    refine Or.inr ⟨queue, rfl, hwf, hcont, hn.1, hwf, ?_, ?_, ?_, h.idle_live, h.idle_type⟩
    · rw [hcont, List.nodup_append]
      refine ⟨h.nodup, List.nodup_singleton _, ?_⟩
      rintro a ha b hb rfl
      rw [List.mem_singleton] at hb
      exact hc.notMem (hb ▸ ha)
    · intro p hp
      rw [hcont, List.mem_append, List.mem_singleton] at hp
      rcases hp with hp | rfl
      · exact h.ready_live p hp
      · exact hc.live
    · intro p hp
      rw [hcont, List.mem_append, List.mem_singleton] at hp
      rcases hp with hp | rfl
      · exact h.ready_normal p hp
      · exact hn.1
  · cases hr
    exact Or.inl ⟨rfl, hn⟩

@[simp] theorem enter_procs_self (k : Kernel) (p : ℕ) :
    (k.enter p).procs p = { k.procs p with running := true } :=
  procs_modify_self _ _ _

theorem enter_processId (k : Kernel) (p q : ℕ) :
    ((k.enter p).procs q).processId = (k.procs q).processId := by
  rw [enter, procs_modify]
  split_ifs with hq
  · rw [hq]
  · rfl

theorem enter_processType (k : Kernel) (p q : ℕ) :
    ((k.enter p).procs q).processType = (k.procs q).processType := by
  rw [enter, procs_modify]
  split_ifs with hq
  · rw [hq]
  · rfl

/-- A change from a process that is not dead to one that is ready or idle. -/
theorem contextChangeProcess_inv (hp : ProcsInv k) (hr : ReadyInv k) {next : ℕ}
    (hlive : next ∈ k.live) (hmem : next ∉ k.queue.contents)
    (hnext : next = k.hartIdleProcess ∨ (k.procs next).processType = .normal)
    (hold : (k.procs k.current).processType ≠ .dead) (hsame : k.current = next → CurrentInv k)
    (h : contextChangeProcess fuel next k = .ok k') :
    KernelInv k' ∧ k'.current = next ∧ k'.queue = k.queue ∧ k'.live = k.live ∧
      k'.hartIdleProcess = k.hartIdleProcess ∧
      (∀ p, (k'.procs p).processId = (k.procs p).processId) ∧
      ((k.procs k.current).processType = .normal → k.current ≠ next →
        (k'.procs k.current).running = false) := by
  unfold contextChangeProcess at h
  split_ifs at h with heq
  · cases h
    exact ⟨⟨hp, hr, hsame heq⟩, heq, rfl, rfl, rfl, fun _ => rfl, fun _ hne => absurd heq hne⟩
  have hold1 : (k.enter next).procs k.current = k.procs k.current := procs_modify_of_ne _ _ heq
  have hid1 := enter_processId k next
  have hp1 : ProcsInv (k.enter next) := ProcsInv.modify (k := { k with current := next })
    (hp.congr rfl rfl rfl rfl rfl rfl) _ _ (fun _ => rfl) fun _ => rfl
  have hr1 : ReadyInv (k.enter next) := ReadyInv.modify (k := { k with current := next })
    ⟨hr.wf, hr.nodup, hr.ready_live, hr.ready_normal, hr.idle_live, hr.idle_type⟩ _ _ fun _ => rfl
  have hcur1 : CurrentInv (k.enter next) := by
    refine ⟨hlive, hmem, hnext.imp_right fun hn => ?_⟩
    change ((k.enter next).procs next).processType = _ ∧ ((k.enter next).procs next).running = _
    rw [enter_procs_self]
    exact ⟨hn, rfl⟩
  simp only [hold1] at h
  cases ht : (k.procs k.current).processType with
  | normal =>
    simp only [ht] at h
    cases h
    have hne : next ≠ k.current := fun e => heq e.symm
    refine ⟨⟨hp1.modify _ _ (fun _ => rfl) fun _ => rfl, hr1.modify _ _ fun _ => rfl, hcur1.live,
      hcur1.notMem, ?_⟩, rfl, rfl, rfl, rfl, fun p => ?_, fun _ _ => ?_⟩
    · change next = _ ∨ (((k.enter next).modify _ _).procs next).processType = _ ∧
        (((k.enter next).modify _ _).procs next).running = _
      rw [procs_modify_of_ne _ _ hne]
      exact hcur1.running
    · rw [procs_modify]
      split_ifs with hpo
      · rw [hpo]
        exact hid1 _
      · exact hid1 p
    · rw [procs_modify_self]
  | idle =>
    simp only [ht] at h
    cases h
    exact ⟨⟨hp1, hr1, hcur1⟩, rfl, rfl, rfl, rfl, hid1, fun hn => by cases hn⟩
  | dead => exact absurd ht hold

/-- The change to the next process, from one that is not dead and may be queued. -/
theorem contextChange_schedulerNext (hp : ProcsInv k) (hr : ReadyInv k)
    (hlive : k.current ∈ k.live) (hrun : k.current = k.hartIdleProcess ∨
      (k.procs k.current).processType = .normal ∧ (k.procs k.current).running = true)
    (h : contextChangeProcess fuel k.schedulerNext.1 k.schedulerNext.2 = .ok k') :
    KernelInv k' ∧ k'.current = k.schedulerNext.1 ∧ k'.queue = k.schedulerNext.2.queue ∧
      k'.live = k.live ∧ k'.hartIdleProcess = k.hartIdleProcess ∧
      (∀ p, (k'.procs p).processId = (k.procs p).processId) ∧
      ((k.procs k.current).processType = .normal → k.current ≠ k.schedulerNext.1 →
        (k'.procs k.current).running = false) := by
  have hdead : (k.procs k.current).processType ≠ .dead := by
    rcases hrun with hi | ⟨hn, -⟩
    · rw [hi, hr.idle_type]
      decide
    · rw [hn]
      decide
  rcases schedulerNext_spec hr with ⟨hnil, hs⟩ | ⟨next, queue, hs, -, hnd, hnl, hnn, hr2⟩
  · have hmem : ∀ p, p ∉ k.queue.contents := by simp [hnil]
    rw [hs] at h ⊢
    exact contextChangeProcess_inv hp hr hr.idle_live (hmem _) (Or.inl rfl) hdead
      (fun _ => ⟨hlive, hmem _, hrun⟩) h
  · have hp2 : ProcsInv { k with queue := queue } := hp.congr rfl rfl rfl rfl rfl rfl
    rw [hs] at h ⊢
    exact contextChangeProcess_inv hp2 hr2 hnl hnd (Or.inr hnn) hdead
      (fun he => ⟨hlive, fun hm => hnd ((show k.current = next from he) ▸ hm), hrun⟩) h

theorem trapChangeProcess_inv (hk : KernelInv k) (h : k.trapChangeProcess fuel = .ok k') :
    KernelInv k' := by
  obtain ⟨hp, hr, hc⟩ := hk
  obtain ⟨k1, hreq, hchange⟩ := bind_eq_ok.mp h
  rcases requeue_spec hr hc hreq with ⟨rfl, -⟩ | ⟨queue, rfl, -, -, -, hr1⟩
  · exact (contextChange_schedulerNext hp hr hc.live hc.running hchange).1
  · have hp1 : ProcsInv { k with queue := queue } := hp.congr rfl rfl rfl rfl rfl rfl
    exact (contextChange_schedulerNext hp1 hr1 hc.live hc.running hchange).1

/-! ### A synchronous kill -/

/-- What `process_cleanup` changes. -/
theorem processCleanup_eq {proc : ℕ} (h : processCleanup fuel proc k = .ok k') :
    ∃ table itemCnt r, k.processHashmap.remove builtinNumHash fuel (k.procs proc).processId =
        .ok (r, table) ∧
      k' = { k with processHashmap := table, itemCnt := itemCnt, live := k.live.erase proc,
                    cleaned := (k.procs proc).processId :: k.cleaned } := by
  obtain ⟨⟨r, table⟩, hrem, h⟩ := bind_eq_ok.mp h
  obtain ⟨itemCnt, -, h⟩ := bind_eq_ok.mp h
  split_ifs at h
  cases h
  exact ⟨table, itemCnt, r, hrem, rfl⟩

/-- What `kill_process` does : it panics or marks the process as dead if it is running, and
removes it otherwise. -/
theorem killProcess_cases {processId : ℕ} (h : killProcess fuel processId k = .ok k') :
    ∃ proc, k.processFromId fuel processId = .ok proc ∧ proc ≠ 0 ∧
      (k.procs proc).processType ≠ .idle ∧
      ((k.procs proc).running = true ∧
        k' = { k with killed := processId :: k.killed }.modify proc
          (fun p => { p with processType := .dead }) ∨
      (k.procs proc).running = false ∧
        processCleanup fuel proc { k with killed := processId :: k.killed,
                                          queue := k.queue.schedulerRemove proc } = .ok k') := by
  obtain ⟨r, hr, h⟩ := bind_eq_ok.mp h
  split_ifs at h with h0 hidle
  refine ⟨r, hr, h0, hidle, ?_⟩
  cases hrun : (k.procs r).running with
  | true =>
    simp only [hrun, if_true] at h
    exact Or.inl ⟨rfl, (Except.ok.inj h).symm⟩
  | false =>
    simp only [hrun] at h
    exact Or.inr ⟨rfl, h⟩

theorem killed_processCleanup {proc : ℕ} (h : processCleanup fuel proc k = .ok k') :
    k'.killed = k.killed := by
  obtain ⟨table, itemCnt, r, -, rfl⟩ := processCleanup_eq h
  rfl

/-- A change of the process kills none. -/
theorem killed_trapChangeProcess (h : k.trapChangeProcess fuel = .ok k') :
    k'.killed = k.killed := by
  obtain ⟨k1, hqueue, h⟩ := bind_eq_ok.mp h
  have hk1 : k1.killed = k.killed := by
    unfold requeue at hqueue
    split_ifs at hqueue
    · obtain ⟨queue, -, hqueue⟩ := bind_eq_ok.mp hqueue
      rw [← Except.ok.inj hqueue]
    · rw [← Except.ok.inj hqueue]
  have hnext : k1.schedulerNext.2.killed = k1.killed := by
    unfold schedulerNext
    split_ifs <;> rfl
  rw [← hk1, ← hnext]
  unfold contextChangeProcess at h
  split_ifs at h
  · rw [← Except.ok.inj h]
  · split at h
    next =>
      rw [← Except.ok.inj h]
      rfl
    next =>
      rw [← Except.ok.inj h]
      rfl
    next => exact (killed_processCleanup h).trans rfl

theorem killed_killProcess {processId : ℕ} (h : killProcess fuel processId k = .ok k') :
    k'.killed = processId :: k.killed := by
  obtain ⟨proc, -, -, -, ⟨-, rfl⟩ | ⟨-, hclean⟩⟩ := killProcess_cases h
  · rfl
  · exact killed_processCleanup hclean

/-- What `kill_process` does to a live process. -/
theorem killProcess_eq (hp : ProcsInv k) {proc : ℕ} (hlive : proc ∈ k.live)
    (h : killProcess fuel (k.procs proc).processId k = .ok k') :
    (k.procs proc).processType ≠ .idle ∧
    ((k.procs proc).running = true ∧
      k' = { k with killed := (k.procs proc).processId :: k.killed }.modify proc
        (fun p => { p with processType := .dead }) ∨
    (k.procs proc).running = false ∧
      processCleanup fuel proc { k with killed := (k.procs proc).processId :: k.killed,
                                        queue := k.queue.schedulerRemove proc } = .ok k') := by
  obtain ⟨r, hr, h0, hkill⟩ := killProcess_cases h
  obtain rfl := (processFromId_eq hp hlive hr).resolve_left h0
  exact hkill

/-- Cleaning up the process killed last. -/
theorem processCleanup_procsInv (killed : List ℕ) {c : ℕ}
    (hp : ProcsInv { k with killed := killed }) (hc : c ∈ k.live)
    (hk : k.killed = (k.procs c).processId :: killed) (h : processCleanup fuel c k = .ok k') :
    ProcsInv k' := by
  obtain ⟨table, itemCnt, r, hrem, rfl⟩ := processCleanup_eq h
  obtain ⟨log, hpairs, hlog⟩ := hp.table
  have hne : ∀ p ∈ k.live.erase c, p ∈ k.live ∧ p ≠ c := fun p hp' =>
    ⟨List.mem_of_mem_erase hp', fun e => (hp.live_nodup.not_mem_erase) (e ▸ hp')⟩
  have hfresh : (k.procs c).processId ∉ killed := hp.live_notKilled c hc
  refine ⟨hp.live_nodup.erase c, fun p hp' => hp.unblocked p (hne p hp').1, hp.upto_le,
    fun p hp' => hp.id_lt p (hne p hp').1, ?_, ?_, ?_, ?_,
    log, hpairs.removeFrom hrem, fun p hp' => hlog p (hne p hp').1⟩
  · intro i hi
    simp only [hk, List.mem_cons] at hi
    rcases hi with rfl | hi
    · exact hp.id_lt c hc
    · exact hp.killed_lt i hi
  · intro p hp' hm
    simp only [hk, List.mem_cons] at hm
    rcases hm with hm | hm
    · have hlogp := hlog p (hne p hp').1
      have hlogc := hlog c hc
      simp only [hm] at hlogp
      exact (hne p hp').2 (hlogp.symm.trans hlogc)
    · exact hp.live_notKilled p (hne p hp').1 hm
  · intro i hi
    simp only [hk, List.mem_cons] at hi ⊢
    rcases hi with rfl | hi
    · exact Or.inl rfl
    · exact Or.inr (hp.cleaned_killed i hi)
  · exact List.nodup_cons.mpr ⟨fun hm => hfresh (hp.cleaned_killed _ hm), hp.cleaned_nodup⟩

/-- The change away from a process that was killed while running. -/
theorem contextChange_dead (hp : ProcsInv k) (hr : ReadyInv k) {c next : ℕ} {k1 : Kernel}
    (hc : c ∈ k.live) (hcmem : c ∉ k.queue.contents) (hcn : c ≠ next) (hlive : next ∈ k.live)
    (hmem : next ∉ k.queue.contents)
    (hnext : next = k.hartIdleProcess ∨ (k.procs next).processType = .normal)
    (hidle : c ≠ k.hartIdleProcess) (hcur : k.current = c)
    (hk1 : k1 = { k with killed := (k.procs c).processId :: k.killed }.modify c
      (fun p => { p with processType := .dead }))
    (h : contextChangeProcess fuel next k1 = .ok k') : KernelInv k' := by
  have hprocs : ∀ q, q ≠ c → k1.procs q = k.procs q := fun q hq => by
    rw [hk1, procs_modify_of_ne _ _ hq]
  have hprocsc : k1.procs c = { k.procs c with processType := .dead } := by
    rw [hk1, procs_modify_self]
  have hold : (k1.enter next).procs c = k1.procs c := procs_modify_of_ne _ _ hcn
  have hcur1 : k1.current = c := by rw [hk1]; exact hcur
  have hcleanup : processCleanup fuel c (k1.enter next) = .ok k' := by
    unfold contextChangeProcess at h
    rw [hcur1, if_neg hcn] at h
    simpa only [hold, hprocsc] using h
  have hprocs' : ProcsInv k' := by
    refine processCleanup_procsInv k.killed ?_ (by rw [hk1]; exact hc) ?_ hcleanup
    · have hdead : ProcsInv ({ k with current := next }.modify c
          fun p => { p with processType := .dead }) :=
        ProcsInv.modify (k := { k with current := next }) (hp.congr rfl rfl rfl rfl rfl rfl) c _
          (fun _ => rfl) fun _ => rfl
      rw [hk1]
      exact hdead.modify next (fun p => { p with running := true }) (fun _ => rfl) fun _ => rfl
    · rw [enter_processId, hk1, procs_modify_self]
      rfl
  obtain ⟨table, itemCnt, -, -, rfl⟩ := processCleanup_eq hcleanup
  have hsub : ∀ p ∈ k.live, p ≠ c → p ∈ k.live.erase c := fun p hp' hpc =>
    (List.mem_erase_of_ne hpc).mpr hp'
  have htype : ∀ q, q ≠ c → ((k1.enter next).procs q).processType = (k.procs q).processType := by
    intro q hq
    rw [enter_processType, hprocs q hq]
  have hready : ∀ p ∈ k.queue.contents, p ≠ c := fun p hp' e => hcmem (e ▸ hp')
  subst hk1
  refine ⟨hprocs', ⟨hr.wf, hr.nodup, fun p hp' => hsub p (hr.ready_live p hp') (hready p hp'),
    fun p hp' => (htype p (hready p hp')).trans (hr.ready_normal p hp'),
    hsub _ hr.idle_live (Ne.symm hidle), (htype _ (Ne.symm hidle)).trans hr.idle_type⟩,
    hsub _ hlive (Ne.symm hcn), hmem, hnext.imp_right fun hn => ⟨?_, ?_⟩⟩
  · exact (htype next (Ne.symm hcn)).trans hn
  · exact congrArg Process.running (enter_procs_self _ next)

theorem syncKill_inv (hk : KernelInv k)
    (h : k.handle src fuel .syncKill = .ok k') : KernelInv k' := by
  obtain ⟨hp, hr, hc⟩ := hk
  obtain ⟨k1, hkill, hchange⟩ := bind_eq_ok.mp h
  obtain ⟨hidle, hkill⟩ := killProcess_eq hp hc.live hkill
  have hne : k.current ≠ k.hartIdleProcess := fun e => hidle (e ▸ hr.idle_type)
  obtain ⟨hnormal, hrun⟩ := hc.running.resolve_left hne
  rcases hkill with ⟨-, hk1⟩ | ⟨hrun', -⟩
  swap
  · rw [hrun] at hrun'
    cases hrun'
  obtain ⟨k2, hreq, hchange⟩ := bind_eq_ok.mp hchange
  obtain rfl : k1 = k2 := by
    have hdead : (k1.procs k1.current).processType = .dead := by
      rw [hk1]
      exact congrArg Process.processType (procs_modify_self _ k.current _)
    unfold requeue at hreq
    rw [if_neg (by rw [hdead]; simp)] at hreq
    exact Except.ok.inj hreq
  have hnext1 : k1.schedulerNext =
      (k.schedulerNext.1, { k1 with queue := k.schedulerNext.2.queue }) := by
    subst hk1
    unfold schedulerNext
    change (if k.queue.count = 0 then _ else _) = _
    split_ifs <;> rfl
  rw [hnext1] at hchange
  rcases schedulerNext_spec hr with ⟨hnil, hs⟩ | ⟨next, queue, hs, hcont, hnd, hnl, hnn, hr2⟩
  · have hmem : ∀ p, p ∉ k.queue.contents := by simp [hnil]
    rw [hs] at hchange
    refine contextChange_dead hp hr hc.live hc.notMem hne hr.idle_live (hmem _) (Or.inl rfl) hne rfl
      ?_ hchange
    rw [hk1]
    rfl
  · have hp2 : ProcsInv { k with queue := queue } := hp.congr rfl rfl rfl rfl rfl rfl
    have hcur : k.current ∉ next :: queue.contents := hcont ▸ hc.notMem
    rw [List.mem_cons, not_or] at hcur
    rw [hs] at hchange
    refine contextChange_dead hp2 hr2 hc.live hcur.2 hcur.1 hnl hnd (Or.inr hnn) hne rfl ?_ hchange
    rw [hk1]
    rfl

/-! ### Creation -/

/-- What `new_blank_process` changes. -/
theorem newBlankProcess_cases {listIdx proc : ℕ}
    (h : k.newBlankProcess src fuel listIdx = .ok (proc, k')) :
    ∃ upto table, k.freeUpto fuel fuel k.processUpto = .ok upto ∧
      src.proc.next k.live = some proc ∧
      k.processHashmap.insert builtinNumHash src.leaf upto proc = .ok table ∧
      k' = { k with
        procs := Function.update k.procs proc ⟨upto % 2 ^ 32, 0, false, .normal, listIdx⟩
        live := proc :: k.live
        processHashmap := table
        processUpto := upto + 1
        itemCnt := k.itemCnt + 1 } := by
  obtain ⟨upto, hupto, h⟩ := bind_eq_ok.mp h
  split at h
  · cases h
  · obtain ⟨table, hins, h⟩ := bind_eq_ok.mp h
    cases h
    exact ⟨upto, table, hupto, ‹_›, hins, rfl⟩

theorem newBlankProcess_eq (hp : ProcsInv k) {listIdx proc : ℕ}
    (h : k.newBlankProcess src fuel listIdx = .ok (proc, k')) :
    ∃ table, src.proc.next k.live = some proc ∧
      k.processHashmap.insert builtinNumHash src.leaf k.processUpto proc = .ok table ∧
      k' = { k with
        procs := Function.update k.procs proc ⟨k.processUpto % 2 ^ 32, 0, false, .normal, listIdx⟩
        live := proc :: k.live
        processHashmap := table
        processUpto := k.processUpto + 1
        itemCnt := k.itemCnt + 1 } := by
  obtain ⟨upto, table, hupto, hnew⟩ := newBlankProcess_cases h
  obtain rfl := freeUpto_eq hp hupto
  exact ⟨table, hnew⟩

/-- The table after a creation. -/
theorem newBlankProcess_procsInv (hp : ProcsInv k) (hlt : k.processUpto < 2 ^ 32)
    {listIdx proc : ℕ} (h : k.newBlankProcess src fuel listIdx = .ok (proc, k')) :
    ProcsInv k' := by
  obtain ⟨table, hnext, hins, rfl⟩ := newBlankProcess_eq hp h
  obtain ⟨log, hpairs, hlog⟩ := hp.table
  have hfresh := src.proc.fresh hnext
  have hmod : k.processUpto % 2 ^ 32 = k.processUpto := Nat.mod_eq_of_lt hlt
  have hne : ∀ p ∈ k.live, p ≠ proc := fun p hp' e => hfresh (e ▸ hp')
  refine ⟨List.nodup_cons.mpr ⟨hfresh, hp.live_nodup⟩, ?_, hlt, ?_, fun i hi => ?_, ?_,
    hp.cleaned_killed, hp.cleaned_nodup, Function.update log k.processUpto proc, ?_, ?_⟩
  · intro p hp'
    rcases List.mem_cons.mp hp' with rfl | hp'
    · simp only [Function.update_self]
    · simp only [Function.update_of_ne (hne p hp')]
      exact hp.unblocked p hp'
  · intro p hp'
    rcases List.mem_cons.mp hp' with rfl | hp'
    · simp only [Function.update_self, hmod]
      exact Nat.lt_succ_self _
    · simp only [Function.update_of_ne (hne p hp')]
      exact (hp.id_lt p hp').trans (Nat.lt_succ_self _)
  · exact (hp.killed_lt i hi).trans (Nat.lt_succ_self _)
  · intro p hp'
    rcases List.mem_cons.mp hp' with rfl | hp'
    · simp only [Function.update_self, hmod]
      exact fun hm => lt_irrefl _ (hp.killed_lt _ hm)
    · simp only [Function.update_of_ne (hne p hp')]
      exact hp.live_notKilled p hp'
  · refine Hashmap.OnlyPairs.insert _ (hpairs.mono fun key data hkd => ?_) ?_ hins
    · rw [Function.update_of_ne hkd.1.ne]
      exact ⟨hkd.1.trans (Nat.lt_succ_self _), hkd.2⟩
    · exact ⟨Nat.lt_succ_self _, Function.update_self _ _ _⟩
  · intro p hp'
    rcases List.mem_cons.mp hp' with rfl | hp'
    · simp only [Function.update_self, hmod]
    · simp only [Function.update_of_ne (hne p hp')]
      rw [Function.update_of_ne (hp.id_lt p hp').ne]
      exact hlog p hp'

theorem create_inv (hk : KernelInv k) (hlt : k.processUpto < 2 ^ 32) {listIdx : ℕ}
    (h : k.handle src fuel (.create listIdx) = .ok k') : KernelInv k' := by
  obtain ⟨hp, hr, hc⟩ := hk
  obtain ⟨⟨proc, k1⟩, hnew, h⟩ := bind_eq_ok.mp h
  have hp1 := newBlankProcess_procsInv hp hlt hnew
  obtain ⟨table, hnext, -, rfl⟩ := newBlankProcess_eq hp hnew
  obtain ⟨queue, hq, h⟩ := bind_eq_ok.mp h
  obtain ⟨hwf, hcont⟩ := ReadyQueue.contents_schedulerQueueProcess hr.wf hq
  cases h
  have hfresh := src.proc.fresh hnext
  have hne : ∀ p ∈ k.live, p ≠ proc := fun p hp' e => hfresh (e ▸ hp')
  have hcases : ∀ p, p ∈ queue.contents → p ∈ k.queue.contents ∨ p = proc := fun p hp' => by
    rw [hcont, List.mem_append, List.mem_singleton] at hp'
    exact hp'
  refine ⟨hp1.congr rfl rfl rfl rfl rfl rfl, ⟨hwf, ?_, fun p hp' => ?_, fun p hp' => ?_,
    List.mem_cons_of_mem _ hr.idle_live, ?_⟩, List.mem_cons_of_mem _ hc.live, fun hm => ?_, ?_⟩
  · rw [hcont, List.nodup_append]
    refine ⟨hr.nodup, List.nodup_singleton _, fun a ha b hb => ?_⟩
    rw [List.mem_singleton.mp hb]
    exact hne a (hr.ready_live a ha)
  · rcases hcases p hp' with hp' | rfl
    · exact List.mem_cons_of_mem _ (hr.ready_live p hp')
    · exact List.mem_cons_self
  · rcases hcases p hp' with hp' | rfl
    · simp only [Function.update_of_ne (hne p (hr.ready_live p hp'))]
      exact hr.ready_normal p hp'
    · simp only [Function.update_self]
  · simp only [Function.update_of_ne (hne _ hr.idle_live)]
    exact hr.idle_type
  · rcases hcases _ hm with hm | hm
    · exact hc.notMem hm
    · exact hne _ hc.live hm
  · simp only [Function.update_of_ne (hne _ hc.live)]
    exact hc.running

/-! ### An asynchronous kill -/

/-- The queue after the first part of `trap_change_process` and the process dequeued from
it, when the running process goes into the queue and another one comes out. -/
theorem mem_remove_requeued {queue : ReadyQueue} {c : ℕ} (hq : queue.Wf) {l : List ℕ}
    (hcont : queue.contents = l ++ [c]) (hnd : queue.contents.Nodup)
    (hne : c ≠ queue.schedulerNext.1) :
    queue.schedulerNext.1 ∈ (queue.schedulerNext.2.schedulerRemove c).contents := by
  have hpos : 0 < queue.count := by
    rw [Nat.pos_iff_ne_zero]
    intro h0
    rw [ReadyQueue.contents_eq_nil h0] at hcont
    simp at hcont
  have hnext := ReadyQueue.contents_schedulerNext hpos hq
  have hstart := hq.start_lt
  have hcount := hq.count_le
  have hslot : queue.schedulerNext.1 = queue.schedulerNext.2.slots
      ((queue.schedulerNext.2.start + 511) % processQueueSize) := by
    have hback : ((queue.start + 1) % processQueueSize + 511) % processQueueSize = queue.start := by
      unfold processQueueSize at *
      omega
    exact congrArg queue.slots hback.symm
  rw [hslot]
  cases l with
  | nil =>
    rw [hnext, List.nil_append, List.cons.injEq] at hcont
    exact absurd hcont.1.symm hne
  | cons a l =>
    rw [hnext, List.cons_append, List.cons.injEq] at hcont
    rw [hnext, List.nodup_cons, hcont.2, List.nodup_append] at hnd
    refine ReadyQueue.mem_schedulerRemove_last (l := l) (ReadyQueue.wf_schedulerNext hq) ?_ hcont.2
      fun hm => hnd.2.2.2 c hm c (List.mem_singleton_self c) rfl
    change queue.count - 1 < _
    omega

theorem asyncKill_not_safe (hk : KernelInv k)
    (h : k.handle src fuel .asyncKill = .ok k') : ¬KernelSafe k' := by
  obtain ⟨hp, hr, hc⟩ := hk
  obtain ⟨k1, htrap, hkill⟩ := bind_eq_ok.mp h
  obtain ⟨k0, hreq, hchange⟩ := bind_eq_ok.mp htrap
  rcases requeue_spec hr hc hreq with ⟨rfl, hn⟩ | ⟨queue, rfl, hwf, hcont, hnormal, hr0⟩
  · -- only the idle process is not queued, and it cannot be killed
    obtain ⟨hk1, -, -, hlive, hidle, -, -⟩ :=
      contextChange_schedulerNext hp hr hc.live hc.running hchange
    have hcur : k0.current = k0.hartIdleProcess := by
      rcases hc.running with hi | ⟨ht, -⟩
      · exact hi
      · exact absurd ⟨ht, hp.unblocked _ hc.live⟩ hn
    have hne := (killProcess_eq hk1.procs (hlive ▸ hc.live) hkill).1
    rw [hcur, ← hidle] at hne
    exact absurd hk1.ready.idle_type hne
  · have hp0 : ProcsInv { k with queue := queue } := hp.congr rfl rfl rfl rfl rfl rfl
    have hrun : (k.procs k.current).running = true := by
      rcases hc.running with hi | ⟨-, hrun⟩
      · rw [hi, hr.idle_type] at hnormal
        cases hnormal
      · exact hrun
    obtain ⟨hk1, hcur1, hqueue1, hlive1, -, -, hstopped⟩ :=
      contextChange_schedulerNext hp0 hr0 hc.live hc.running hchange
    have hcount : queue.count ≠ 0 := fun h0 => by
      rw [ReadyQueue.contents_eq_nil h0] at hcont
      simp at hcont
    have hnext : Kernel.schedulerNext { k with queue := queue } =
        (queue.schedulerNext.1, { k with queue := queue.schedulerNext.2 }) := if_neg hcount
    rw [hnext] at hcur1 hqueue1 hstopped hchange
    by_cases hsame : k.current = queue.schedulerNext.1
    · -- it was alone : it is dequeued again, and killed while it runs on
      have hk1eq : k1 = { k with queue := queue.schedulerNext.2 } := by
        unfold contextChangeProcess at hchange
        rw [if_pos hsame] at hchange
        exact (Except.ok.inj hchange).symm
      obtain ⟨-, ⟨-, rfl⟩ | ⟨hrun', -⟩⟩ := killProcess_eq hk1.procs (hlive1 ▸ hc.live) hkill
      · intro hsafe
        apply hsafe.current_notKilled
        change ((Kernel.modify _ _ _).procs k1.current).processId ∈ _ :: _
        rw [hcur1, ← show k.current = _ from hsame, procs_modify_self]
        exact List.mem_cons_self
      · rw [hk1eq] at hrun'
        rw [show (Kernel.procs _ _).running = true from hrun] at hrun'
        cases hrun'
    · -- it is removed from the queue, and the process that runs now is put into it
      have hrun1 : (k1.procs k.current).running = false := hstopped hnormal hsame
      obtain ⟨-, ⟨hrun', -⟩ | ⟨-, hcleanup⟩⟩ := killProcess_eq hk1.procs (hlive1 ▸ hc.live) hkill
      · rw [hrun1] at hrun'
        cases hrun'
      · obtain ⟨table, itemCnt, -, -, rfl⟩ := processCleanup_eq hcleanup
        intro hsafe
        apply hsafe.current_notMem
        change k1.current ∈ (k1.queue.schedulerRemove k.current).contents
        rw [hcur1, hqueue1]
        exact mem_remove_requeued hwf hcont hr0.nodup hsame

end Kernel

/-! ### Every run -/

theorem procsInv_empty : ProcsInv Kernel.empty where
  live_nodup := List.nodup_nil
  unblocked := by simp [Kernel.empty]
  upto_le := by decide
  id_lt := by simp [Kernel.empty]
  killed_lt := by simp [Kernel.empty]
  live_notKilled := by simp [Kernel.empty]
  cleaned_killed := by simp [Kernel.empty]
  cleaned_nodup := List.nodup_nil
  table := ⟨fun _ => 0, fun _ _ hl => (Option.some_ne_none _ hl.symm).elim, by simp [Kernel.empty]⟩

theorem KernelInv.init {src : ProcessSources} {k : Kernel} (h : KernelInit src k) :
    KernelInv k := by
  obtain ⟨fuel, listIdx, proc, k0, hnew, rfl⟩ := h
  have hp0 := Kernel.newBlankProcess_procsInv procsInv_empty (by decide) hnew
  have hp1 : ProcsInv (k0.bootstrap proc) :=
    ProcsInv.modify (k := { k0 with hartIdleProcess := proc, current := proc })
      (hp0.congr rfl rfl rfl rfl rfl rfl) _ _ (fun _ => rfl) fun _ => rfl
  obtain ⟨table, -, -, hk0⟩ := Kernel.newBlankProcess_eq procsInv_empty hnew
  have hlive : proc ∈ (k0.bootstrap proc).live := by
    rw [hk0]
    exact List.mem_cons_self
  have hqueue : (k0.bootstrap proc).queue = ⟨fun _ => 0, 0, 0⟩ := by
    rw [hk0]
    rfl
  have hnil : (k0.bootstrap proc).queue.contents = [] := by
    rw [hqueue]
    rfl
  have hmem : ∀ p, p ∉ (k0.bootstrap proc).queue.contents := by simp [hnil]
  have hwf : (k0.bootstrap proc).queue.Wf := by
    rw [hqueue]
    exact ⟨by decide, by decide⟩
  exact ⟨hp1, ⟨hwf, hnil ▸ List.nodup_nil, fun p hp => absurd hp (hmem p),
    fun p hp => absurd hp (hmem p), hlive,
    congrArg Process.processType (Kernel.procs_modify_self _ proc _)⟩, hlive, hmem _, Or.inl rfl⟩

theorem KernelInv.reach {src : ProcessSources} {k : Kernel}
    (h : Reach (KernelInit src) (Guarded SyncKillsOnly (KernelStep src)) k) : KernelInv k := by
  refine Reach.invariant KernelInv (fun _ => KernelInv.init) ?_ h
  rintro k e k' hk ⟨hcond, fuel, hstep⟩
  cases e with
  | create listIdx => exact Kernel.create_inv hk hcond hstep
  | timer => exact Kernel.trapChangeProcess_inv hk hstep
  | syncKill => exact Kernel.syncKill_inv hk hstep
  | asyncKill => exact hcond.elim

/-- In every run without asynchronous kills, and with no process created once
`process_upto` is past 32 bits, the queue and the kills are as they should be. Every
asynchronous kill that returns ends this. -/
theorem killPaths_safe {src : ProcessSources} {k : Kernel}
    (h : Reach (KernelInit src) (Guarded SyncKillsOnly (KernelStep src)) k) :
    KernelSafe k ∧ ∀ k', KernelStep src k .asyncKill k' → ¬KernelSafe k' := by
  have hk := KernelInv.reach h
  refine ⟨hk.safe, ?_⟩
  rintro k' ⟨fuel, hstep⟩
  exact Kernel.asyncKill_not_safe hk hstep

/-- Structures and leaves handed out in the order of their addresses. -/
def bumpProcesses : ProcessSources :=
  ⟨AddrSource.bump 256 (by decide), AddrSource.bump 64 (by decide)⟩

/-- A kernel after its start. -/
def kernelStart : Kernel :=
  Kernel.bootstrap { Kernel.empty with
    procs := Function.update Kernel.empty.procs 256 ⟨0, 0, false, .normal, 0⟩
    live := [256]
    processHashmap := ⟨512, Function.update (fun _ => 0) 0 64,
      Function.update (fun _ => none) 64 (some ⟨0, 0, 256⟩), [64]⟩
    processUpto := 1
    itemCnt := 1 } 256

theorem kernelStart_init : KernelInit bumpProcesses kernelStart :=
  ⟨1, 0, 256, _, rfl, rfl⟩

/-- An event handled, as a function. -/
def Kernel.handle? (k : Kernel) (e : KernelEvent) : Option Kernel :=
  (k.handle bumpProcesses 8 e).toOption

theorem Kernel.step_of_handle? {k k' : Kernel} {e : KernelEvent} (h : k.handle? e = some k') :
    KernelStep bumpProcesses k e k' :=
  ⟨8, eq_ok_of_toOption h⟩

instance (k : Kernel) : (e : KernelEvent) → Decidable (SyncKillsOnly k e)
  | .create _ => inferInstanceAs (Decidable (k.processUpto < 2 ^ 32))
  | .timer => inferInstanceAs (Decidable True)
  | .syncKill => inferInstanceAs (Decidable True)
  | .asyncKill => inferInstanceAs (Decidable False)

/-- Six processes created, the first of them dispatched by a timer trap and killed by a
fault. -/
theorem syncKill_reach : ∃ k, k.killed = [1] ∧
    Reach (KernelInit bumpProcesses) (Guarded SyncKillsOnly (KernelStep bumpProcesses)) k := by
  obtain ⟨k, hrun, hk⟩ : ∃ k,
      [.create 0, .create 0, .create 0, .create 0, .create 0, .create 0, .timer, .syncKill].foldlM
        (fun k e => if SyncKillsOnly k e then k.handle? e else none) kernelStart = some k ∧
      decide (k.killed = [1]) = true := (Option.any_eq_true _ _).mp (by decide +kernel)
  refine ⟨k, of_decide_eq_true hk, Reach.of_foldlM (fun s a s' h => ?_)
    (Reach.start kernelStart_init) hrun⟩
  split_ifs at h with hc
  exact ⟨hc, Kernel.step_of_handle? h⟩

theorem killPaths_safe_syncKill : ∃ k, k.killed = [1] ∧ KernelSafe k := by
  obtain ⟨k, hk, hreach⟩ := syncKill_reach
  exact ⟨k, hk, (killPaths_safe hreach).1⟩

/-- A process alone is dispatched by a timer trap and makes a bad syscall : it is killed,
and is still the running process. -/
theorem not_kernelSafe_asyncKill :
    ∃ k, Reach (KernelInit bumpProcesses) (KernelStep bumpProcesses) k ∧ ¬KernelSafe k := by
  obtain ⟨k, hrun, hk⟩ : ∃ k,
      [KernelEvent.create 0, .timer, .asyncKill].foldlM Kernel.handle? kernelStart = some k ∧
      decide ((k.procs k.current).processId ∈ k.killed) = true :=
    (Option.any_eq_true _ _).mp (by decide +kernel)
  exact ⟨k, Reach.of_foldlM (fun _ _ _ => Kernel.step_of_handle?) (Reach.start kernelStart_init)
    hrun, fun hsafe => hsafe.current_notKilled (of_decide_eq_true hk)⟩

end Toastium
