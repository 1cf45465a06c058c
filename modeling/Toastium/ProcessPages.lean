import Toastium.ProcessTable
import Toastium.TrapFrames

/-!
# What a process leaves behind

`new_blank_process` takes eight pages and the pages of the tables from the pager, and a block for
the process and one for its leaf of the hash map from the allocator. `process_cleanup` gives the
two blocks back, and the pages of two of the three trap frames, of the root of the table and of
the kernel stack. The frame for page faults, the descriptors and the lower tables stay allocated.

`processMemory_leaks` : for every process that is created, mapped in any way and cleaned up, the
pages in use afterwards are not those from before.
-/

namespace Toastium

/-! ## The code -/

/-- The process table, and the pages of the processes. -/
structure ProcessMemory where
  table : ProcessTable
  pages : Heap (BitVec 64)

/-- A process : the address of its structure, its pages, and the memory. -/
structure OneProcess where
  proc : ℕ
  maps : TrapProcess
  mem : ProcessMemory

/-- `pg_free`, for a list of pages. -/
def freePages : List ℕ → Heap (BitVec 64) → Except (Fault Panic) (Heap (BitVec 64))
  | [], h => .ok h
  | p :: ps, h => do
    let h ← pgFree p h
    freePages ps h

/-- The pages that `process_cleanup` frees, in order. -/
def TrapProcess.freed (proc : TrapProcess) : List ℕ :=
  proc.trapframe .userspace :: proc.trapframe .kernelspace :: proc.vmaTable ::
    proc.physKernelStackAddr

/-- Where pages and blocks come from, and the pages of `running_list`. -/
structure MemorySources where
  pages : KernelPages
  list : PageSource
  blocks : ProcessSources

variable (src : MemorySources) (fuel : ℕ)

/-- `new_blank_process`. -/
def ProcessMemory.newBlankProcess (listIdx : ℕ) (padding : BitVec 32) (s : ProcessMemory) :
    Except (Fault Panic) OneProcess := do
  let (proc, table) ← s.table.newBlankProcess src.blocks src.list fuel listIdx padding
  let (maps, pages) ← newBlankProcessMaps src.pages fuel (BitVec.ofNat 64 proc) s.pages
  return ⟨proc, maps, ⟨table, pages⟩⟩

namespace OneProcess

/-- The process structure. -/
def process (l : OneProcess) : Process :=
  l.mem.table.kernel.procs l.proc

/-- `process_cleanup`. -/
def cleanup (l : OneProcess) : Except (Fault Panic) ProcessMemory := do
  let table ← l.mem.table.processCleanup src.list fuel l.proc
  let pages ← freePages l.maps.freed l.mem.pages
  return ⟨table, pages⟩

/-- `kill_process` of a process that does not run. -/
def kill (l : OneProcess) : Except (Fault Panic) ProcessMemory := do
  let table ← l.mem.table.killProcess src.list fuel l.process.processId
  let pages ← freePages l.maps.freed l.mem.pages
  return ⟨table, pages⟩

/-- What happens to a process before it is cleaned up. -/
inductive Event
  | map (c : MapCall)
  | setRunning (running : Bool)
  | kill

/-- The steps. A running process that is killed is marked dead. -/
inductive Step (l : OneProcess) : Event → OneProcess → Prop
  | map {c : MapCall} {h : Heap (BitVec 64)} :
    c.run src.pages fuel l.maps.vmaTable l.mem.pages = .ok h →
    Step l (.map c) { l with mem := { l.mem with pages := h } }
  | setRunning {running : Bool} :
    Step l (.setRunning running) { l with mem := { l.mem with table := { l.mem.table with
      kernel := l.mem.table.kernel.modify l.proc fun p => { p with running := running } } } }
  | kill {table : ProcessTable} : l.process.running = true →
    l.mem.table.killProcess src.list fuel l.process.processId = .ok table →
    Step l .kill { l with mem := { l.mem with table := table } }

/-- A process as it was created in `s`. -/
def Created (s : ProcessMemory) (l : OneProcess) : Prop :=
  ∃ listIdx padding, s.newBlankProcess src fuel listIdx padding = .ok l

/-- A process killed and cleaned up : at once if it does not run, else at the context switch away
from it. -/
def Ends (l : OneProcess) (s : ProcessMemory) : Prop :=
  l.process.running = false ∧ l.kill src fuel = .ok s ∨
    l.process.processType = .dead ∧ l.cleanup src fuel = .ok s

end OneProcess

/-- The same pages and the same blocks are in use. -/
structure SameMemory (s s' : ProcessMemory) : Prop where
  pages : ∀ p, s'.pages.len p = 0 ↔ s.pages.len p = 0
  sections : ∀ p, s'.table.sections.len p = 0 ↔ s.table.sections.len p = 0
  procs : ∀ b, b ∈ s'.table.kernel.live ↔ b ∈ s.table.kernel.live
  leaves : ∀ b, b ∈ s'.table.kernel.processHashmap.live ↔ b ∈ s.table.kernel.processHashmap.live

/-! ## The frame for page faults -/

section Leak

variable {src : MemorySources} {fuel : ℕ} {s s' : ProcessMemory} {l l' : OneProcess}

/-- The frame for page faults, in use and not one of the tables, nor one of the pages that are
freed at the end. -/
structure FaultFrame (s : ProcessMemory) (l : OneProcess) : Prop where
  free : s.pages.len (l.maps.trapframe .pageFault) = 0
  notFreed : l.maps.trapframe .pageFault ∉ l.maps.freed
  tables : ∃ T : ℕ → Prop, T l.maps.vmaTable ∧
    TablesApart T (l.maps.trapframe .pageFault) l.mem.pages

theorem OneProcess.Created.faultFrame (hnull : s.pages.len 0 = 0)
    (hc : OneProcess.Created src fuel s l) : FaultFrame s l := by
  obtain ⟨listIdx, padding, hnew⟩ := hc
  obtain ⟨⟨proc, table⟩, -, hnew⟩ := bind_eq_ok.mp hnew
  obtain ⟨⟨maps, pages⟩, hmaps, hnew⟩ := bind_eq_ok.mp hnew
  cases hnew
  have hspec := newBlankProcessMaps_spec hmaps
  have hmem := maps.trapframe_mem .pageFault
  have hfor := hspec.foreign _ hmem
  obtain ⟨pg, hinv, -⟩ := hspec.table.ok
  refine ⟨hspec.free _ hmem, ?_, IsTable pages maps.vmaTable, IsTable.root,
    hinv.tablesApart (hspec.null hnull) (by rw [hfor.1]; decide) hfor.2⟩
  have hnodup := hspec.nodup
  have hroot : maps.trapframe .pageFault ≠ maps.vmaTable := fun he => hfor.2 (he ▸ IsTable.root)
  simp only [TrapProcess.pages, List.nodup_cons, List.mem_cons, not_or] at hnodup
  simp only [TrapProcess.freed, List.mem_cons, not_or]
  exact ⟨Ne.symm hnodup.1.2.1, Ne.symm hnodup.2.1.1, hroot, hnodup.2.2.1⟩

theorem FaultFrame.step {e : OneProcess.Event} (hf : FaultFrame s l)
    (hs : OneProcess.Step src fuel l e l') : FaultFrame s l' := by
  obtain ⟨hfree, hnot, T, hroot, ht⟩ := hf
  cases hs with
  | map hrun =>
    obtain ⟨T', hT, ht'⟩ := ht.mapCall hroot hrun
    exact ⟨hfree, hnot, T', hT _ hroot, ht'⟩
  | setRunning => exact ⟨hfree, hnot, T, hroot, ht⟩
  | kill _ _ => exact ⟨hfree, hnot, T, hroot, ht⟩

/-- Pages that are not freed stay in use. -/
theorem len_freePages {q : ℕ} : ∀ {ps : List ℕ} {h h' : Heap (BitVec 64)}, q ∉ ps →
    freePages ps h = .ok h' → h'.len q = h.len q
  | [], h, h', _, hf => by
    cases hf
    rfl
  | p :: ps, h, h', hq, hf => by
    obtain ⟨h1, hp, hf⟩ := bind_eq_ok.mp hf
    rw [List.mem_cons, not_or] at hq
    unfold pgFree at hp
    split_ifs at hp
    cases hp
    rw [len_freePages hq.2 hf, Heap.len_drop_of_ne _ hq.1]

/-- The frame for page faults was free before the process was created, and is in use after it was
cleaned up. -/
theorem faultFrame_leaks (hnull : s.pages.len 0 = 0)
    (hr : Reach (OneProcess.Created src fuel s) (OneProcess.Step src fuel) l)
    (hend : l.Ends src fuel s') :
    s.pages.len (l.maps.trapframe .pageFault) = 0 ∧
      s'.pages.len (l.maps.trapframe .pageFault) ≠ 0 := by
  obtain ⟨hfree, hnot, T, -, ht⟩ := Reach.invariant (FaultFrame s)
    (fun _ hc => OneProcess.Created.faultFrame hnull hc) (fun _ _ _ hf hs => hf.step hs) hr
  obtain ⟨h, hpages, rfl⟩ : ∃ h, freePages l.maps.freed l.mem.pages = .ok h ∧ s'.pages = h := by
    rcases hend with ⟨-, hkill⟩ | ⟨-, hclean⟩
    · obtain ⟨table, -, hkill⟩ := bind_eq_ok.mp hkill
      obtain ⟨h, hpages, hkill⟩ := bind_eq_ok.mp hkill
      cases hkill
      exact ⟨h, hpages, rfl⟩
    · obtain ⟨table, -, hclean⟩ := bind_eq_ok.mp hclean
      obtain ⟨h, hpages, hclean⟩ := bind_eq_ok.mp hclean
      cases hclean
      exact ⟨h, hpages, rfl⟩
  refine ⟨hfree, ?_⟩
  rw [len_freePages hnot hpages]
  exact ht.live

/-- No process gives back what it took. -/
theorem processMemory_leaks (hnull : s.pages.len 0 = 0)
    (hr : Reach (OneProcess.Created src fuel s) (OneProcess.Step src fuel) l)
    (hend : l.Ends src fuel s') : ¬SameMemory s s' := by
  obtain ⟨hfree, hlive⟩ := faultFrame_leaks hnull hr hend
  exact fun hsame => hlive ((hsame.pages _).mpr hfree)

end Leak

/-! ## A process created and killed -/

/-- Different pages in use can be freed one after another. -/
theorem freePages_ok : ∀ {ps : List ℕ} {h : Heap (BitVec 64)}, ps.Nodup →
    (∀ p ∈ ps, h.len p ≠ 0) → ∃ h', freePages ps h = .ok h'
  | [], h, _, _ => ⟨h, rfl⟩
  | p :: ps, h, hnodup, hlive => by
    rw [List.nodup_cons] at hnodup
    have hfree : pgFree p h = .ok (h.drop p) := if_neg (hlive p List.mem_cons_self)
    have hlive' : ∀ q ∈ ps, (h.drop p).len q ≠ 0 := fun q hq => by
      have hne : q ≠ p := fun he => hnodup.1 (he ▸ hq)
      rw [Heap.len_drop_of_ne _ hne]
      exact hlive q (List.mem_cons_of_mem _ hq)
    obtain ⟨h', hrest⟩ := freePages_ok hnodup.2 hlive'
    exact ⟨h', by rw [freePages, hfree, ok_bind, hrest]⟩

section Composed

variable {src : MemorySources} {fuel listIdx : ℕ} {padding : BitVec 32} {s : ProcessMemory}
  {l : OneProcess} {table : ProcessTable} {pages : Heap (BitVec 64)}

theorem ProcessMemory.newBlankProcess_ok {proc : ℕ} {maps : TrapProcess}
    (htable : s.table.newBlankProcess src.blocks src.list fuel listIdx padding = .ok (proc, table))
    (hmaps : newBlankProcessMaps src.pages fuel (BitVec.ofNat 64 proc) s.pages =
      .ok (maps, pages)) :
    s.newBlankProcess src fuel listIdx padding = .ok ⟨proc, maps, ⟨table, pages⟩⟩ := by
  rw [ProcessMemory.newBlankProcess, htable, ok_bind]
  dsimp only
  rw [hmaps]
  rfl

theorem OneProcess.kill_ok
    (htable : l.mem.table.killProcess src.list fuel l.process.processId = .ok table)
    (hpages : freePages l.maps.freed l.mem.pages = .ok pages) :
    l.kill src fuel = .ok ⟨table, pages⟩ := by
  rw [OneProcess.kill, htable, ok_bind, hpages]
  rfl

end Composed

/-- The pages of a process that are in use and not part of its table can be freed. -/
theorem TrapProcess.freed_ok {h : Heap (BitVec 64)} {proc : TrapProcess}
    (ht : TableOk h proc.vmaTable) (hnodup : proc.pages.Nodup)
    (hforeign : ∀ p ∈ proc.pages, Foreign proc.vmaTable p h) :
    ∃ h', freePages proc.freed h = .ok h' := by
  obtain ⟨pg, hinv, -⟩ := ht
  have hroot : ∀ p ∈ proc.pages, p ≠ proc.vmaTable := fun p hp he =>
    (hforeign p hp).2 (he ▸ IsTable.root)
  have hlive : ∀ p ∈ proc.pages, h.len p ≠ 0 := fun p hp => by
    rw [(hforeign p hp).1]
    decide
  simp only [TrapProcess.pages, List.nodup_cons, List.mem_cons, not_or, forall_eq_or_imp]
    at hnodup hroot hlive
  refine freePages_ok ?_ ?_
  · simp only [TrapProcess.freed, List.nodup_cons, List.mem_cons, not_or]
    exact ⟨⟨hnodup.1.1, hroot.1, hnodup.1.2.2⟩, ⟨hroot.2.1, hnodup.2.1.2⟩,
      fun hmem => hroot.2.2.2 _ hmem rfl, hnodup.2.2.2⟩
  · simp only [TrapProcess.freed, List.mem_cons, forall_eq_or_imp]
    exact ⟨hlive.1, hlive.2.1, by rw [hinv.len hinv.root]; decide, hlive.2.2.2⟩

/-- The pages of a new process can be freed. -/
theorem NewProcess.freed_ok {ptr : BitVec 64} {h h' : Heap (BitVec 64)} {proc : TrapProcess}
    (hspec : NewProcess ptr h proc h') : ∃ h'', freePages proc.freed h' = .ok h'' :=
  TrapProcess.freed_ok hspec.table.ok hspec.nodup hspec.foreign

/-- The table with seven processes. -/
def tableSeven : Option ProcessTable :=
  [0, 1, 2, 3, 4, 5, 6].foldlM (fun t i =>
    (t.newBlankProcess bumpProcesses bumpPages 2 i 0).toOption.map Prod.snd) tableStart

/-- An eighth process created, with 7 in the `list_idx` that is not written, and killed. -/
theorem tableSeven_kill : ∃ t0 t1 t2 proc, tableSeven = some t0 ∧
    t0.newBlankProcess bumpProcesses bumpPages 2 7 0 = .ok (proc, t1) ∧
    (t1.kernel.procs proc).running = false ∧
    t1.killProcess bumpPages 2 (t1.kernel.procs proc).processId = .ok t2 := by
  obtain ⟨t0, hseven, h⟩ : ∃ t0, tableSeven = some t0 ∧
      (t0.newBlankProcess bumpProcesses bumpPages 2 7 0).toOption.any (fun r =>
        (r.2.kernel.procs r.1).running == false &&
          (r.2.killProcess bumpPages 2 (r.2.kernel.procs r.1).processId).isOk) = true :=
    (Option.any_eq_true _ _).mp (by decide +kernel)
  obtain ⟨⟨proc, t1⟩, hnew, hkill⟩ := (Option.any_eq_true _ _).mp h
  rw [Bool.and_eq_true, beq_iff_eq] at hkill
  obtain ⟨t2, hkill'⟩ := exists_eq_ok hkill.2
  exact ⟨t0, t1, t2, proc, hseven, eq_ok_of_toOption hnew, hkill.1, hkill'⟩

/-- Pages, list pages and blocks in the order of their addresses. -/
def firstSources : MemorySources :=
  ⟨firstFitPages, bumpPages, bumpProcesses⟩

/-- A process created where no page is in use, and killed before it runs. -/
theorem eighthProcess_ends : ∃ s l s', tableSeven = some s.table ∧ s.pages.len 0 = 0 ∧
    OneProcess.Created firstSources 2 s l ∧ l.Ends firstSources 2 s' := by
  obtain ⟨t0, t1, t2, proc, hseven, hnew, hrunning, hkill⟩ := tableSeven_kill
  obtain ⟨⟨maps, pages⟩, hmaps, -⟩ := newBlankProcessMaps_ok (h := ⟨[], fun _ _ => 0⟩) 2
    (BitVec.ofNat 64 proc) (by decide)
  obtain ⟨pages', hfree⟩ := (newBlankProcessMaps_spec hmaps).freed_ok
  exact ⟨⟨t0, ⟨[], fun _ _ => 0⟩⟩, ⟨proc, maps, ⟨t1, pages⟩⟩, ⟨t2, pages'⟩, hseven,
    rfl, ⟨7, 0, ProcessMemory.newBlankProcess_ok hnew hmaps⟩,
    Or.inl ⟨hrunning, OneProcess.kill_ok hkill hfree⟩⟩

theorem processMemory_leaks_eighth : ∃ s l s', tableSeven = some s.table ∧
    OneProcess.Created firstSources 2 s l ∧ l.Ends firstSources 2 s' ∧ ¬SameMemory s s' := by
  obtain ⟨s, l, s', hseven, hnull, hc, hend⟩ := eighthProcess_ends
  exact ⟨s, l, s', hseven, hc, hend, processMemory_leaks hnull (Reach.start hc) hend⟩

/-- Its frame for page faults stays in use. -/
theorem not_sameMemory_eighth : ∃ s l s', tableSeven = some s.table ∧
    OneProcess.Created firstSources 2 s l ∧ l.Ends firstSources 2 s' ∧
    s.pages.len (l.maps.trapframe .pageFault) = 0 ∧
    s'.pages.len (l.maps.trapframe .pageFault) ≠ 0 ∧ ¬SameMemory s s' := by
  obtain ⟨s, l, s', hseven, hnull, hc, hend⟩ := eighthProcess_ends
  obtain ⟨hfree, hlive⟩ := faultFrame_leaks hnull (Reach.start hc) hend
  exact ⟨s, l, s', hseven, hc, hend, hfree, hlive, fun hsame => hlive ((hsame.pages _).mpr hfree)⟩

end Toastium
