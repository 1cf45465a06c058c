import Toastium.KillPaths
import Toastium.Rotation

/-!
# Processes in turn

The ready queue, the running process and the two ways to the next process are a rotation
(`Kernel.rotation_step`), as long as no process is killed asynchronously. So in every run no live
process is lost, and one that waits at place `i` of the queue runs at switch `i + 1`
(`processes_in_turn`).
-/

namespace Toastium

/-- The event changes the running process. -/
def KernelEvent.switches : KernelEvent → Bool
  | create _ => false
  | timer => true
  | syncKill => true
  | asyncKill => true

namespace Kernel

variable {src : ProcessSources} {k k' : Kernel} {fuel : ℕ}

/-- The kernel as a rotation. The idle process does not take part. -/
def rotation (k : Kernel) : Rotation ℕ where
  ready := k.queue.contents
  running := if k.current = k.hartIdleProcess then none else some k.current

/-- What the kernel is after a change to the first of `l`. -/
structure ChangedTo (k : Kernel) (l : List ℕ) (k' : Kernel) : Prop where
  rotation : k'.rotation = Rotation.next l
  idle : k'.hartIdleProcess = k.hartIdleProcess

/-- The process that comes next is the first of the queue. -/
theorem schedulerNext_changedTo (h : ReadyInv k) (hcur : k'.current = k.schedulerNext.1)
    (hqueue : k'.queue = k.schedulerNext.2.queue) (hidle : k'.hartIdleProcess = k.hartIdleProcess) :
    ChangedTo k k.queue.contents k' := by
  refine ⟨?_, hidle⟩
  rcases schedulerNext_spec h with ⟨hnil, hs⟩ | ⟨next, queue, hs, hcont, -, -, hnormal, -⟩
  · rw [hs] at hcur hqueue
    rw [rotation, hqueue, hnil, hcur, hidle, if_pos rfl]
    rfl
  · rw [hs] at hcur hqueue
    have hne : next ≠ k.hartIdleProcess := fun e => by
      rw [e, h.idle_type] at hnormal
      cases hnormal
    rw [rotation, hqueue, hcont, hcur, hidle, if_neg hne]
    rfl

theorem timer_rotation (hk : KernelInv k) (h : k.trapChangeProcess fuel = .ok k') :
    ChangedTo k (k.queue.contents ++ k.rotation.running.toList) k' ∧ k'.live = k.live := by
  obtain ⟨hp, hr, hc⟩ := hk
  obtain ⟨k1, hreq, hchange⟩ := bind_eq_ok.mp h
  rcases requeue_spec hr hc hreq with ⟨rfl, hn⟩ | ⟨queue, rfl, -, hcont, hnormal, hr1⟩
  · have hidle : k1.current = k1.hartIdleProcess :=
      hc.running.resolve_right fun hrun => hn ⟨hrun.1, hp.unblocked _ hc.live⟩
    obtain ⟨-, hcur, hqueue, hlive, hidle', -, -⟩ :=
      contextChange_schedulerNext hp hr hc.live hc.running hchange
    have hnext := schedulerNext_changedTo hr hcur hqueue hidle'
    rw [rotation, if_pos hidle, Option.toList_none, List.append_nil]
    exact ⟨hnext, hlive⟩
  · have hne : k.current ≠ k.hartIdleProcess := fun e => by
      rw [e, hr.idle_type] at hnormal
      cases hnormal
    have hp1 : ProcsInv { k with queue := queue } := hp.congr rfl rfl rfl rfl rfl rfl
    obtain ⟨-, hcur, hqueue, hlive, hidle', -, -⟩ :=
      contextChange_schedulerNext hp1 hr1 hc.live hc.running hchange
    have hnext := schedulerNext_changedTo hr1 hcur hqueue hidle'
    rw [rotation, if_neg hne, Option.toList_some, ← hcont]
    exact ⟨⟨hnext.rotation, hnext.idle⟩, hlive⟩

/-- The next process is another one than the running one, which is not queued. -/
theorem schedulerNext_ne (hr : ReadyInv k) (hc : CurrentInv k)
    (hne : k.current ≠ k.hartIdleProcess) : k.current ≠ k.schedulerNext.1 := by
  rcases schedulerNext_spec hr with ⟨-, hs⟩ | ⟨next, queue, hs, hcont, -⟩
  · rw [hs]
    exact hne
  · rw [hs]
    intro heq
    exact hc.notMem (hcont ▸ heq ▸ List.mem_cons_self)

/-- A change away from a dead process. -/
theorem contextChange_of_dead {next : ℕ} (hne : k.current ≠ next)
    (hdead : (k.procs k.current).processType = .dead)
    (h : contextChangeProcess fuel next k = .ok k') :
    k'.current = next ∧ k'.queue = k.queue ∧ k'.live = k.live.erase k.current ∧
      k'.hartIdleProcess = k.hartIdleProcess := by
  unfold contextChangeProcess at h
  rw [if_neg hne] at h
  simp only [enter_processType, hdead] at h
  obtain ⟨table, itemCnt, r, -, rfl⟩ := processCleanup_eq h
  exact ⟨rfl, rfl, rfl, rfl⟩

/-- The process that is killed leaves. -/
theorem syncKill_rotation (hk : KernelInv k) (h : k.handle src fuel .syncKill = .ok k') :
    ChangedTo k k.queue.contents k' ∧ k'.live = k.live.erase k.current := by
  obtain ⟨hp, hr, hc⟩ := hk
  obtain ⟨k1, hkill, hchange⟩ := bind_eq_ok.mp h
  obtain ⟨hidle, hkill⟩ := killProcess_eq hp hc.live hkill
  have hne : k.current ≠ k.hartIdleProcess := fun e => hidle (e ▸ hr.idle_type)
  obtain ⟨-, hrun⟩ := hc.running.resolve_left hne
  rcases hkill with ⟨-, hk1⟩ | ⟨hrun', -⟩
  swap
  · rw [hrun] at hrun'
    cases hrun'
  obtain ⟨k2, hreq, hchange⟩ := bind_eq_ok.mp hchange
  have hdead : (k1.procs k1.current).processType = .dead := by
    rw [hk1]
    exact congrArg Process.processType (procs_modify_self _ k.current _)
  obtain rfl : k1 = k2 := by
    unfold requeue at hreq
    rw [if_neg (by rw [hdead]; simp)] at hreq
    exact Except.ok.inj hreq
  have hnext1 : k1.schedulerNext =
      (k.schedulerNext.1, { k1 with queue := k.schedulerNext.2.queue }) := by
    subst hk1
    unfold schedulerNext
    change (if k.queue.count = 0 then _ else _) = _
    split_ifs <;> rfl
  rw [hnext1] at hchange
  have hcur1 : k1.current = k.current := by rw [hk1]; rfl
  obtain ⟨hcur, hqueue, hlive, hidle'⟩ := contextChange_of_dead
    (k := { k1 with queue := k.schedulerNext.2.queue })
    (show k1.current ≠ _ from hcur1 ▸ schedulerNext_ne hr hc hne) hdead hchange
  refine ⟨schedulerNext_changedTo hr hcur hqueue (hidle'.trans ?_), hlive.trans ?_⟩
  · rw [hk1]
    rfl
  · rw [hk1]
    rfl

theorem create_rotation (hk : KernelInv k) {listIdx : ℕ}
    (h : k.handle src fuel (.create listIdx) = .ok k') :
    ∃ proc, k'.rotation = k.rotation.step (.arrive proc) ∧ k'.live = proc :: k.live ∧
      k'.hartIdleProcess = k.hartIdleProcess := by
  obtain ⟨⟨proc, k1⟩, hnew, h⟩ := bind_eq_ok.mp h
  obtain ⟨table, -, -, rfl⟩ := newBlankProcess_eq hk.procs hnew
  obtain ⟨queue, hq, h⟩ := bind_eq_ok.mp h
  obtain ⟨-, hcont⟩ := ReadyQueue.contents_schedulerQueueProcess hk.ready.wf hq
  cases h
  refine ⟨proc, ?_, rfl, rfl⟩
  simp only [rotation, Rotation.step, hcont]

/-- What one event does to the rotation and to the live processes. -/
theorem rotation_step (hk : KernelInv k) {e : KernelEvent} (hcond : SyncKillsOnly k e)
    (h : k.handle src fuel e = .ok k') :
    ∃ ev, k'.rotation = k.rotation.step ev ∧ ev.switches = e.switches ∧
      k'.hartIdleProcess = k.hartIdleProcess ∧
      ∀ p ∈ k'.live, p ∈ k.live ∧ (ev = .leave → p ≠ k.current) ∨ ev = .arrive p := by
  cases e with
  | create listIdx =>
    obtain ⟨proc, hrot, hlive, hidle⟩ := create_rotation hk h
    refine ⟨.arrive proc, hrot, rfl, hidle, fun p hp => ?_⟩
    rw [hlive] at hp
    rcases List.mem_cons.mp hp with rfl | hp
    · exact Or.inr rfl
    · exact Or.inl ⟨hp, fun hev => by cases hev⟩
  | timer =>
    obtain ⟨hrot, hlive⟩ := timer_rotation hk h
    exact ⟨.tick, hrot.rotation, rfl, hrot.idle, fun p hp =>
      Or.inl ⟨hlive ▸ hp, fun hev => by cases hev⟩⟩
  | syncKill =>
    obtain ⟨hrot, hlive⟩ := syncKill_rotation hk h
    refine ⟨.leave, hrot.rotation, rfl, hrot.idle, fun p hp => ?_⟩
    rw [hlive, hk.procs.live_nodup.mem_erase_iff] at hp
    exact Or.inl ⟨hp.2, fun _ => hp.1⟩
  | asyncKill => exact hcond.elim

end Kernel

/-! ## Every run -/

section Runs

variable {src : ProcessSources} {k k' : Kernel}

theorem KernelInv.step (hk : KernelInv k) {e : KernelEvent}
    (h : Guarded SyncKillsOnly (KernelStep src) k e k') : KernelInv k' := by
  obtain ⟨hcond, fuel, hstep⟩ := h
  cases e with
  | create listIdx => exact Kernel.create_inv hk hcond hstep
  | timer => exact Kernel.trapChangeProcess_inv hk hstep
  | syncKill => exact Kernel.syncKill_inv hk hstep
  | asyncKill => exact hcond.elim

/-- Every live process runs, waits or is the idle process. -/
def NoneLost (k : Kernel) : Prop :=
  ∀ p ∈ k.live, p = k.hartIdleProcess ∨ k.rotation.Mem p

theorem NoneLost.step (hk : KernelInv k) (hn : NoneLost k) {e : KernelEvent}
    (h : Guarded SyncKillsOnly (KernelStep src) k e k') : NoneLost k' := by
  obtain ⟨hcond, fuel, hstep⟩ := h
  obtain ⟨ev, hrot, -, hidle, hlive⟩ := Kernel.rotation_step hk hcond hstep
  intro p hp
  rw [hidle, hrot, Rotation.mem_step]
  rcases hlive p hp with ⟨hp, hleave⟩ | rfl
  · refine (hn p hp).imp_right fun hm => ?_
    cases ev with
    | arrive b => exact Or.inl hm
    | tick => exact hm
    | leave =>
      refine hm.resolve_right fun hrun => hleave rfl ?_
      unfold Kernel.rotation at hrun
      split_ifs at hrun
      exact (Option.some.inj hrun).symm
  · exact Or.inr (Or.inr rfl)

theorem NoneLost.init (h : KernelInit src k) : NoneLost k := by
  obtain ⟨fuel, listIdx, proc, k0, hnew, rfl⟩ := h
  obtain ⟨table, -, -, rfl⟩ := Kernel.newBlankProcess_eq procsInv_empty hnew
  intro p hp
  exact Or.inl (List.mem_singleton.mp hp)

/-- A run of the kernel is one of its rotation. -/
theorem rotation_path (hk : KernelInv k) {es : List KernelEvent}
    (h : Path (Guarded SyncKillsOnly (KernelStep src)) k es k') :
    ∃ evs, k'.rotation = k.rotation.run evs ∧
      evs.countP Rotation.Event.switches = es.countP KernelEvent.switches := by
  induction h with
  | nil s => exact ⟨[], rfl, rfl⟩
  | cons hstep _ ih =>
    obtain ⟨fuel, hhandle⟩ := hstep.2
    obtain ⟨ev, hrot, hswitch, -⟩ := Kernel.rotation_step hk hstep.1 hhandle
    obtain ⟨evs, hrun, hcount⟩ := ih (hk.step hstep)
    refine ⟨ev :: evs, ?_, ?_⟩
    · rw [hrun, hrot]
      rfl
    · rw [List.countP_cons, List.countP_cons, hcount, hswitch]

end Runs

/-- In every run no live process is lost : one that is not the idle process and does not run has a
place in the queue, and the switch that follows as many others as its place runs it, whatever else
happens until then. -/
theorem processes_in_turn {src : ProcessSources} {k : Kernel}
    (h : Reach (KernelInit src) (Guarded SyncKillsOnly (KernelStep src)) k) {p : ℕ}
    (hlive : p ∈ k.live) (hidle : p ≠ k.hartIdleProcess) (hcur : p ≠ k.current) :
    ∃ i < processQueueSize, k.queue.contents[i]? = some p ∧
      ∀ es k', Path (Guarded SyncKillsOnly (KernelStep src)) k es k' →
        (es.countP KernelEvent.switches ≤ i →
          k'.queue.contents[i - es.countP KernelEvent.switches]? = some p) ∧
        (es.countP KernelEvent.switches = i → ∀ e k'', e.switches = true →
          Guarded SyncKillsOnly (KernelStep src) k' e k'' → k''.current = p) := by
  obtain ⟨hk, hnone⟩ : KernelInv k ∧ NoneLost k := Reach.invariant
    (fun k => KernelInv k ∧ NoneLost k) (fun _ h => ⟨KernelInv.init h, NoneLost.init h⟩)
    (fun _ _ _ hi hstep => ⟨hi.1.step hstep, hi.2.step hi.1 hstep⟩) h
  have hmem : p ∈ k.queue.contents := by
    refine ((hnone p hlive).resolve_left hidle).resolve_right fun hrun => hcur ?_
    unfold Kernel.rotation at hrun
    split_ifs at hrun
    exact (Option.some.inj hrun).symm
  obtain ⟨i, hi⟩ := List.mem_iff_getElem?.mp hmem
  have hlen : i < k.queue.count := by
    simpa [ReadyQueue.contents] using (List.getElem?_eq_some_iff.mp hi).1
  refine ⟨i, hlen.trans_le hk.ready.wf.count_le, hi, fun es k' hpath => ?_⟩
  obtain ⟨evs, hrun, hcount⟩ := rotation_path hk hpath
  have hplace : es.countP KernelEvent.switches ≤ i →
      k'.rotation.ready[i - es.countP KernelEvent.switches]? = some p := fun hle => by
    rw [hrun, ← hcount]
    refine Rotation.run_ready ?_
    rw [hcount, Nat.sub_add_cancel hle]
    exact hi
  refine ⟨hplace, fun heq e k'' he hstep => ?_⟩
  have hk' : KernelInv k' := by
    have hr : Reach (KernelInit src) (Guarded SyncKillsOnly (KernelStep src)) k' := h.path hpath
    exact KernelInv.reach hr
  obtain ⟨fuel, hhandle⟩ := hstep.2
  obtain ⟨ev, hrot, hswitch, -⟩ := Kernel.rotation_step hk' hstep.1 hhandle
  have hfirst := hplace heq.le
  rw [heq, Nat.sub_self] at hfirst
  have hnext := Rotation.step_running (hswitch.trans he) hfirst
  rw [← hrot] at hnext
  unfold Kernel.rotation at hnext
  split_ifs at hnext
  exact Option.some.inj hnext

/-- Two processes created, and the first dispatched by a timer trap. -/
theorem twoProcesses_reach : ∃ k, k.live = [768, 512, 256] ∧ k.hartIdleProcess = 256 ∧
    k.current = 512 ∧ k.queue.contents = [768] ∧
    Reach (KernelInit bumpProcesses) (Guarded SyncKillsOnly (KernelStep bumpProcesses)) k := by
  obtain ⟨k, hrun, hk⟩ : ∃ k, [.create 0, .create 0, .timer].foldlM
        (fun k e => if SyncKillsOnly k e then k.handle? e else none) kernelStart = some k ∧
      decide (k.live = [768, 512, 256] ∧ k.hartIdleProcess = 256 ∧ k.current = 512 ∧
        k.queue.contents = [768]) = true := (Option.any_eq_true _ _).mp (by decide +kernel)
  obtain ⟨hlive, hidle, hcur, hqueue⟩ := of_decide_eq_true hk
  refine ⟨k, hlive, hidle, hcur, hqueue, Reach.of_foldlM (fun s a s' h => ?_)
    (Reach.start kernelStart_init) hrun⟩
  split_ifs at h with hc
  exact ⟨hc, Kernel.step_of_handle? h⟩

/-- The second one runs at the next switch. -/
theorem processes_in_turn_two : ∃ k, k.current = 512 ∧ ∀ e k', e.switches = true →
    Guarded SyncKillsOnly (KernelStep bumpProcesses) k e k' → k'.current = 768 := by
  obtain ⟨k, hlive, hidle, hcur, hqueue, hreach⟩ := twoProcesses_reach
  obtain ⟨i, -, hi, hturn⟩ := processes_in_turn (p := 768) hreach (by rw [hlive]; decide)
    (by rw [hidle]; decide) (by rw [hcur]; decide)
  obtain rfl : i = 0 := by
    rw [hqueue] at hi
    have hlt := (List.getElem?_eq_some_iff.mp hi).1
    simpa using hlt
  exact ⟨k, hcur, (hturn [] k (.nil k)).2 rfl⟩

end Toastium
