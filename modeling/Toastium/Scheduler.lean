import Toastium.Reach
import Toastium.Layout

/-!
# The ready queue

The ring buffer of `scheduler.c` : 512 slots, `process_queue_count` of them in use from
`process_queue_start` on. `contents` lists the queued processes in order.

`scheduler_remove` shifts the slots up to the removed process by one and leaves
`process_queue_count` as it is. The first slot gets the value of the slot before it, which
is the process dequeued last (`nth_schedulerRemove_last`). So a removal deletes what it is asked
to delete exactly if there is nothing to delete (`schedulerRemove_deletes_iff`).

Without removals the ring buffer is a queue (`scheduler_fifo`) : in every run of
`scheduler_queue_process` and `scheduler_next`, the processes that came out, followed by those
still queued, are the processes that were queued, in their order.
-/

namespace Toastium

/-- `process_queue_size`. -/
def processQueueSize : ℕ := 512

/-- The ring buffer of the ready processes. -/
structure ReadyQueue where
  slots : ℕ → ℕ
  start : ℕ
  count : ℕ

namespace ReadyQueue

/-- The slot `i` places after the start. -/
def nth (q : ReadyQueue) (i : ℕ) : ℕ :=
  q.slots ((q.start + i) % processQueueSize)

/-- The queued processes, in order. -/
def contents (q : ReadyQueue) : List ℕ :=
  (List.range q.count).map q.nth

/-- `scheduler_next`, on a queue that is not empty. -/
def schedulerNext (q : ReadyQueue) : ℕ × ReadyQueue :=
  (q.slots q.start,
    { q with start := (q.start + 1) % processQueueSize, count := q.count - 1 })

/-- `scheduler_queue_process`. -/
def schedulerQueueProcess (q : ReadyQueue) (proc : ℕ) : Except (Fault Panic) ReadyQueue :=
  if processQueueSize = q.count then .error (.panic .kernelSchedulerQueueFull)
  else .ok { q with
    slots := Function.update q.slots ((q.start + q.count) % processQueueSize) proc
    count := q.count + 1 }

/-- The loop of `scheduler_remove` : `m` passes from `i` on. `offset` is an unsigned 64-bit
number that is counted down from 0. -/
def removeFrom (q : ReadyQueue) (proc : ℕ) : ℕ → ℕ → BitVec 64 → (ℕ → ℕ) → ℕ → ℕ
  | 0, _, _, slots => slots
  | m + 1, i, offset, slots =>
    let pos := q.start + (q.count - i)
    let offset := if slots (pos % processQueueSize) = proc then offset - 1#64 else offset
    if offset = 0#64 then q.removeFrom proc m (i + 1) offset slots
    else q.removeFrom proc m (i + 1) offset
      (Function.update slots (pos % processQueueSize)
        (slots ((BitVec.ofNat 64 pos + offset).toNat % processQueueSize)))

/-- `scheduler_remove`. -/
def schedulerRemove (q : ReadyQueue) (proc : ℕ) : ReadyQueue :=
  { q with slots := q.removeFrom proc q.count 1 0#64 q.slots }

/-- The start is a slot and the queue is not over-full. -/
structure Wf (q : ReadyQueue) : Prop where
  start_lt : q.start < processQueueSize
  count_le : q.count ≤ processQueueSize

variable {q : ReadyQueue}

theorem mem_contents {p : ℕ} : p ∈ q.contents ↔ ∃ i < q.count, q.nth i = p := by
  simp [contents]

theorem contents_eq_nil (h : q.count = 0) : q.contents = [] := by
  simp [contents, h]

theorem contents_schedulerNext (h : 0 < q.count) (hq : q.Wf) :
    q.contents = q.schedulerNext.1 :: q.schedulerNext.2.contents := by
  obtain ⟨n, hn⟩ := Nat.exists_eq_succ_of_ne_zero h.ne'
  have hstart := hq.start_lt
  simp only [contents, schedulerNext, hn, Nat.succ_sub_one, List.range_succ_eq_map, List.map_cons,
    List.map_map, List.cons.injEq]
  refine ⟨?_, List.map_congr_left fun i _ => ?_⟩
  · rw [nth, Nat.add_zero, Nat.mod_eq_of_lt hstart]
  · simp only [nth, Function.comp_apply, Nat.mod_add_mod]
    congr 2
    omega

theorem wf_schedulerNext (hq : q.Wf) : q.schedulerNext.2.Wf :=
  ⟨Nat.mod_lt _ (by decide), (Nat.sub_le _ _).trans hq.count_le⟩

theorem contents_schedulerQueueProcess {q' : ReadyQueue} {proc : ℕ} (hq : q.Wf)
    (h : q.schedulerQueueProcess proc = .ok q') :
    q'.Wf ∧ q'.contents = q.contents ++ [proc] := by
  unfold schedulerQueueProcess at h
  split_ifs at h with hfull
  cases h
  have hcount := hq.count_le
  refine ⟨⟨hq.start_lt, by dsimp only; omega⟩, ?_⟩
  simp only [contents, List.range_succ, List.map_append, List.map_cons, List.map_nil]
  congr 1
  · refine List.map_congr_left fun i hi => ?_
    rw [List.mem_range] at hi
    simp only [nth]
    rw [Function.update_of_ne]
    unfold processQueueSize at *
    omega
  · simp [nth]

/-! ## Removing the last process of the queue -/

theorem slot_pred (pos : ℕ) (h : pos < 2 ^ 64) :
    (BitVec.ofNat 64 pos + (0#64 - 1#64)).toNat % processQueueSize =
      (pos + 511) % processQueueSize := by
  have hneg : 0#64 - 1#64 = BitVec.allOnes 64 := by decide
  rw [hneg, BitVec.toNat_add, BitVec.toNat_ofNat, BitVec.toNat_allOnes, Nat.mod_eq_of_lt h,
    processQueueSize]
  omega

/-- Once `offset` is `-1`, each slot gets the value of the slot before it. -/
theorem removeFrom_shift (proc : ℕ) (hstart : q.start < processQueueSize)
    (hcount : q.count < processQueueSize) :
    ∀ (m i : ℕ) (slots : ℕ → ℕ), 1 ≤ i → m + i = q.count + 1 →
      (∀ j < m, slots ((q.start + j) % processQueueSize) ≠ proc) →
      (∀ j < m, q.removeFrom proc m i (0#64 - 1#64) slots ((q.start + j) % processQueueSize) =
        slots ((q.start + j + 511) % processQueueSize)) ∧
      ∀ x, (∀ j < m, x ≠ (q.start + j) % processQueueSize) →
        q.removeFrom proc m i (0#64 - 1#64) slots x = slots x
  | 0, i, slots, _, _, _ => ⟨fun j hj => absurd hj (Nat.not_lt_zero j), fun _ _ => rfl⟩
  | m + 1, i, slots, hi1, hi, hne => by
    unfold processQueueSize at hstart hcount
    have hpos : q.start + (q.count - i) = q.start + m := by omega
    have hstep : q.removeFrom proc (m + 1) i (0#64 - 1#64) slots =
        q.removeFrom proc m (i + 1) (0#64 - 1#64)
          (Function.update slots ((q.start + m) % processQueueSize)
            (slots ((q.start + m + 511) % processQueueSize))) := by
      rw [removeFrom]
      simp only [hpos, if_neg (hne m (Nat.lt_succ_self m)),
        slot_pred _ (show q.start + m < 2 ^ 64 by omega)]
      rw [if_neg (by decide)]
    obtain ⟨hin, hout⟩ := removeFrom_shift proc (by unfold processQueueSize; omega)
      (by unfold processQueueSize; omega) m (i + 1)
      (Function.update slots ((q.start + m) % processQueueSize)
        (slots ((q.start + m + 511) % processQueueSize))) (by omega) (by omega) (fun j hj => by
          rw [Function.update_of_ne (by unfold processQueueSize; omega)]
          exact hne j (by omega))
    rw [hstep]
    refine ⟨fun j hj => ?_, fun x hx => ?_⟩
    · rcases Nat.lt_succ_iff_lt_or_eq.mp hj with hj | rfl
      · rw [hin j hj, Function.update_of_ne]
        unfold processQueueSize
        omega
      · rw [hout _ (fun k hk => by unfold processQueueSize; omega), Function.update_self]
    · rw [hout x (fun k hk => hx k (by omega)), Function.update_of_ne (hx m (by omega))]

/-- Removing the last process keeps the count, and moves the process dequeued last, which
is in the slot before the start, to the front. -/
theorem nth_schedulerRemove_last {proc : ℕ} (hq : q.Wf) (hpos : 0 < q.count)
    (hlt : q.count < processQueueSize) (hlast : q.nth (q.count - 1) = proc)
    (hother : ∀ j < q.count - 1, q.nth j ≠ proc) {j : ℕ} (hj : j < q.count) :
    (q.schedulerRemove proc).nth j = q.slots ((q.start + j + 511) % processQueueSize) := by
  obtain ⟨n, hn⟩ := Nat.exists_eq_succ_of_ne_zero hpos.ne'
  have hstart := hq.start_lt
  have hcount : q.count - 1 = n := by omega
  rw [hcount] at hlast hother
  unfold processQueueSize at hstart hlt
  have hstep : q.removeFrom proc q.count 1 0#64 q.slots =
      q.removeFrom proc n 2 (0#64 - 1#64)
        (Function.update q.slots ((q.start + n) % processQueueSize)
          (q.slots ((q.start + n + 511) % processQueueSize))) := by
    conv_lhs => rw [hn]
    rw [removeFrom]
    simp only [hcount, if_pos (show q.slots ((q.start + n) % processQueueSize) = proc from hlast),
      slot_pred _ (show q.start + n < 2 ^ 64 by omega)]
    rw [if_neg (by decide)]
  obtain ⟨hin, hout⟩ := removeFrom_shift (q := q) proc hq.start_lt
    (by unfold processQueueSize; omega) n 2
    (Function.update q.slots ((q.start + n) % processQueueSize)
      (q.slots ((q.start + n + 511) % processQueueSize))) (by decide) (by omega) (fun k hk => by
        rw [Function.update_of_ne (by unfold processQueueSize; omega)]
        exact hother k hk)
  simp only [nth, schedulerRemove, hstep]
  rcases Nat.lt_or_ge j n with hjn | hjn
  · rw [hin j hjn, Function.update_of_ne]
    unfold processQueueSize
    omega
  · obtain rfl : j = n := by omega
    rw [hout _ (fun k hk => by unfold processQueueSize; omega), Function.update_self]

/-- Removing the last process queues the one dequeued last. -/
theorem mem_schedulerRemove_last {proc : ℕ} {l : List ℕ} (hq : q.Wf)
    (hlt : q.count < processQueueSize) (hcont : q.contents = l ++ [proc]) (hl : proc ∉ l) :
    q.slots ((q.start + 511) % processQueueSize) ∈ (q.schedulerRemove proc).contents := by
  have hlen : q.count = l.length + 1 := by
    have := congrArg List.length hcont
    simpa [contents] using this
  have hnth : ∀ j < q.count, (l ++ [proc])[j]? = some (q.nth j) := by
    intro j hj
    rw [← hcont, contents, List.getElem?_map, List.getElem?_range hj]
    rfl
  have hlast : q.nth (q.count - 1) = proc := by
    have h := hnth (q.count - 1) (by omega)
    rw [show q.count - 1 = l.length by omega, List.getElem?_concat_length] at h
    rw [show q.count - 1 = l.length by omega]
    exact (Option.some.inj h).symm
  have hother : ∀ j < q.count - 1, q.nth j ≠ proc := by
    intro j hj he
    have h := hnth j (by omega)
    rw [List.getElem?_append_left (by omega), he] at h
    exact hl (List.mem_of_getElem? h)
  rw [mem_contents]
  refine ⟨0, by change 0 < q.count; omega, ?_⟩
  rw [nth_schedulerRemove_last hq (by omega) hlt hlast hother (by omega), Nat.add_zero]

/-! ## Deleting the occurrences of a process -/

/-- The queue without `proc`, in the old order, and counted. -/
def Deletes (q : ReadyQueue) (proc : ℕ) : Prop :=
  (q.schedulerRemove proc).contents = q.contents.filter (fun p => p ≠ proc) ∧
    (q.schedulerRemove proc).count + q.contents.count proc = q.count

/-- The passes of the loop change no slot as long as none of them meets `proc`. -/
theorem removeFrom_of_not_mem (proc : ℕ) (slots : ℕ → ℕ) :
    ∀ m i : ℕ, (∀ j, i ≤ j → j < i + m →
        slots ((q.start + (q.count - j)) % processQueueSize) ≠ proc) →
      q.removeFrom proc m i 0#64 slots = slots
  | 0, i, _ => rfl
  | m + 1, i, h => by
    have hi := h i (le_refl i) (by omega)
    rw [removeFrom]
    simp only [if_neg hi, if_true]
    exact removeFrom_of_not_mem proc slots m (i + 1) fun j hj hlt => h j (by omega) (by omega)

theorem schedulerRemove_of_not_mem {proc : ℕ} (h : proc ∉ q.contents) :
    q.schedulerRemove proc = q := by
  have hslots : q.removeFrom proc q.count 1 0#64 q.slots = q.slots :=
    removeFrom_of_not_mem proc q.slots q.count 1 fun j hj hlt he =>
      h (mem_contents.mpr ⟨q.count - j, by omega, he⟩)
  rw [schedulerRemove, hslots]

/-- A removal is right exactly if the process is not queued : the count never changes. -/
theorem schedulerRemove_deletes_iff (q : ReadyQueue) (proc : ℕ) :
    Deletes q proc ↔ proc ∉ q.contents := by
  constructor
  · rintro ⟨-, hcount⟩ hmem
    have hpos : 0 < q.contents.count proc := List.count_pos_iff.mpr hmem
    have hsame : (q.schedulerRemove proc).count = q.count := rfl
    omega
  · intro h
    refine ⟨?_, ?_⟩
    · rw [schedulerRemove_of_not_mem h, List.filter_eq_self.mpr]
      intro p hp
      have hne : p ≠ proc := fun he => h (he ▸ hp)
      exact decide_eq_true hne
    · rw [schedulerRemove_of_not_mem h, List.count_eq_zero_of_not_mem h, Nat.add_zero]

/-- Processes 7 and 8 queued in the first two slots, after process 9 came out of the last. -/
def queueTwo : ReadyQueue :=
  ⟨fun i => if i = 0 then 7 else if i = 1 then 8 else if i = 511 then 9 else 0, 0, 2⟩

/-- Removing process 7 leaves two processes queued, the first of them process 9. -/
theorem not_deletes_queueTwo :
    queueTwo.contents = [7, 8] ∧ (queueTwo.schedulerRemove 7).contents = [9, 8] ∧
      ¬ Deletes queueTwo 7 := by
  have hcont : (queueTwo.schedulerRemove 7).contents = [9, 8] := by decide
  refine ⟨by decide, hcont, ?_⟩
  rintro ⟨hfilter, -⟩
  rw [hcont] at hfilter
  exact absurd hfilter (by decide)

end ReadyQueue

/-! ## Every run -/

/-- The ready queue with the idle processes of the harts. -/
structure Scheduler where
  queue : ReadyQueue
  hartIdleProcess : ℕ → ℕ

/-- `scheduler_next`. -/
def Scheduler.schedulerNext (s : Scheduler) (hartId : ℕ) : ℕ × Scheduler :=
  if s.queue.count = 0 then (s.hartIdleProcess hartId, s)
  else (s.queue.schedulerNext.1, { s with queue := s.queue.schedulerNext.2 })

/-- A call of the scheduler. -/
inductive SchedulerCall
  | queue (proc : ℕ)
  | next (hartId : ℕ)

/-- A scheduler, and the processes that were queued and that came out of its queue, in the
order of the calls. -/
structure SchedulerRun where
  sched : Scheduler
  queued : List ℕ
  taken : List ℕ

/-- `schedular_init`. The slots hold whatever the page held. -/
def SchedulerInit (r : SchedulerRun) : Prop :=
  r.sched.queue.start = 0 ∧ r.sched.queue.count = 0 ∧ r.queued = [] ∧ r.taken = []

/-- A call that returns. -/
inductive SchedulerStep : SchedulerRun → SchedulerCall → SchedulerRun → Prop
  | queue {r : SchedulerRun} {proc : ℕ} {q : ReadyQueue} :
    r.sched.queue.schedulerQueueProcess proc = .ok q →
    SchedulerStep r (.queue proc) ⟨{ r.sched with queue := q }, r.queued ++ [proc], r.taken⟩
  | next {r : SchedulerRun} {hartId : ℕ} : 0 < r.sched.queue.count →
    SchedulerStep r (.next hartId) ⟨(r.sched.schedulerNext hartId).2, r.queued,
      r.taken ++ [(r.sched.schedulerNext hartId).1]⟩
  | idle {r : SchedulerRun} {hartId : ℕ} : r.sched.queue.count = 0 →
    SchedulerStep r (.next hartId) ⟨(r.sched.schedulerNext hartId).2, r.queued, r.taken⟩

/-- The ring buffer is a queue of at most 512 processes. -/
structure SchedulerFifo (r : SchedulerRun) : Prop where
  count_le : r.sched.queue.count ≤ processQueueSize
  /-- Nothing is lost or duplicated, and the order is kept. -/
  order : r.queued = r.taken ++ r.sched.queue.contents
  /-- A process that is queued comes last. -/
  queue : ∀ proc, r.sched.queue.count < processQueueSize →
    ∃ q, r.sched.queue.schedulerQueueProcess proc = .ok q ∧
      q.contents = r.sched.queue.contents ++ [proc]
  /-- The process queued longest ago comes out, and only it. -/
  next : ∀ hartId, 0 < r.sched.queue.count → r.sched.queue.contents =
    (r.sched.schedulerNext hartId).1 :: (r.sched.schedulerNext hartId).2.queue.contents
  /-- An empty queue gives the idle process of the hart. -/
  idle : ∀ hartId, r.sched.queue.count = 0 →
    r.sched.schedulerNext hartId = (r.sched.hartIdleProcess hartId, r.sched)

theorem Scheduler.schedulerNext_of_pos {s : Scheduler} (hartId : ℕ) (h : 0 < s.queue.count) :
    s.schedulerNext hartId =
      (s.queue.schedulerNext.1, { s with queue := s.queue.schedulerNext.2 }) :=
  if_neg h.ne'

/-- What every call keeps. -/
theorem SchedulerStep.order {r r' : SchedulerRun} {c : SchedulerCall}
    (hr : r.sched.queue.Wf ∧ r.queued = r.taken ++ r.sched.queue.contents)
    (h : SchedulerStep r c r') :
    r'.sched.queue.Wf ∧ r'.queued = r'.taken ++ r'.sched.queue.contents := by
  obtain ⟨hwf, horder⟩ := hr
  cases h with
  | queue hq =>
    obtain ⟨hwf', hcont⟩ := ReadyQueue.contents_schedulerQueueProcess hwf hq
    refine ⟨hwf', ?_⟩
    rw [horder, hcont, List.append_assoc]
  | @next hartId hpos =>
    rw [Scheduler.schedulerNext_of_pos hartId hpos]
    refine ⟨ReadyQueue.wf_schedulerNext hwf, ?_⟩
    rw [horder, ReadyQueue.contents_schedulerNext hpos hwf, List.append_assoc]
    rfl
  | @idle hartId h0 =>
    rw [Scheduler.schedulerNext, if_pos h0]
    exact ⟨hwf, horder⟩

/-- In every run of calls that return, the ring buffer is a queue. -/
theorem scheduler_fifo {r : SchedulerRun} (h : Reach SchedulerInit SchedulerStep r) :
    SchedulerFifo r := by
  have hinv := Reach.invariant
    (fun r => r.sched.queue.Wf ∧ r.queued = r.taken ++ r.sched.queue.contents) ?_
    (fun _ _ _ hr hstep => hstep.order hr) h
  · obtain ⟨hwf, horder⟩ := hinv
    refine ⟨hwf.count_le, horder, fun proc hlt => ?_, fun hartId hpos => ?_, fun hartId h0 => ?_⟩
    · have hq : r.sched.queue.schedulerQueueProcess proc = .ok _ := if_neg hlt.ne'
      exact ⟨_, hq, (ReadyQueue.contents_schedulerQueueProcess hwf hq).2⟩
    · rw [Scheduler.schedulerNext_of_pos hartId hpos]
      exact ReadyQueue.contents_schedulerNext hpos hwf
    · exact if_pos h0
  · rintro r ⟨hstart, hcount, hqueued, htaken⟩
    refine ⟨⟨by rw [hstart]; decide, by rw [hcount]; decide⟩, ?_⟩
    rw [hqueued, htaken, ReadyQueue.contents_eq_nil hcount, List.nil_append]

/-- Two processes queued, and one of them taken. -/
theorem scheduler_fifo_taken : ∃ r, r.queued = [7, 8] ∧ r.taken = [7] ∧ SchedulerFifo r := by
  have hinit : SchedulerInit ⟨⟨⟨fun _ => 0, 0, 0⟩, fun _ => 1⟩, [], []⟩ := ⟨rfl, rfl, rfl, rfl⟩
  have hfirst := (Reach.start hinit).next (@SchedulerStep.queue _ 7 _ rfl)
  have hsecond := hfirst.next (@SchedulerStep.queue _ 8 _ rfl)
  exact ⟨_, rfl, rfl, scheduler_fifo (hsecond.next (@SchedulerStep.next _ 0 (by decide)))⟩

end Toastium
