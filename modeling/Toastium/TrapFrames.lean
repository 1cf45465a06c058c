import Toastium.VmaFrees
import Toastium.Trap

/-!
# Which trap frame is mapped

A process from `new_blank_process`, and the traps it takes. The page table maps one of its
three trap frames at `TRAPFRAME_ADDRESS`, and its kernel stack below. `handle_async_trap`
maps another frame when it starts and the old one when it ends, a switch to the process on
another hart maps the stack of the hart, and other code changes memory that is not part of
the table.

All of these calls map one page of the top block of 2 MiB, below a page that stays
unmapped, so that `vma_replace_section` gets them right (`TopTable.mapPage`).
`trapFrames_mapped` : the frame mapped is the one of the process's state, the pages of the
stack stay mapped, and a handler that ends leaves the state and the frame as they were when
it started.

Each call of `handle_async_trap` has its own local variables here. The stack that
`handle_sync_trap` picks for it is not part of this model.
-/

namespace Toastium

/-! ## A page of the top block -/

/-- The flags of the pages that the kernel maps for itself. -/
def kernelPageFlags : BitVec 64 :=
  vmaRead ||| vmaWrite ||| vmaValid ||| vmaDirty ||| vmaAccessed

/-- The page at `va` is mapped to the page `p` of the window. -/
def PageMapped (h : Heap (BitVec 64)) (root va p : ℕ) : Prop :=
  ∀ k, k < 4096 → translate h root (va + k) =
    .ok (some (p - kernelVmaStart + k, kernelPageFlags.toNat))

/-- A table in order with the last page of the address space not mapped. -/
structure TopTable (h : Heap (BitVec 64)) (root : ℕ) : Prop where
  ok : TableOk h root
  guard : translate h root 0xfffffffffffff000 = .ok none

/-- A page between the bottom of the kernel's mappings and the last page. -/
structure TopPage (va : ℕ) : Prop where
  dvd : 4096 ∣ va
  ge : kernMappingBottom ≤ va
  lt : va < 0xfffffffffffff000

theorem TopPage.range {va : ℕ} (hva : TopPage va) : PageRange va 4096 where
  virtDvd := hva.dvd
  sizeDvd := dvd_refl _
  pos := by decide
  half := by
    obtain ⟨hdvd, hge, hlt⟩ := hva
    unfold kernMappingBottom kernelVmaStart at *
    omega

/-- The place of such a page in the sv39 space. -/
theorem TopPage.normal {va : ℕ} (hva : TopPage va) :
    normalVirtAddr va + 2 ^ 64 = va + 2 ^ 39 := by
  have hge := hva.ge
  rw [normalVirtAddr, if_pos (by unfold kernMappingBottom kernelVmaStart at *; omega)]
  unfold kernMappingBottom kernelVmaStart at *
  omega

section Top

variable {src : KernelPages} {h h' : Heap (BitVec 64)} {root va p : ℕ}

theorem TopTable.pageXlate (ht : TopTable h root) : pageXlate h root 0x7ffffff = none := by
  obtain ⟨pg, hinv, -⟩ := ht.ok
  have hguard := ht.guard
  rw [hinv.translate_eq, if_neg (by decide)] at hguard
  rw [hinv.pageXlate_eq]
  exact Option.map_eq_none_iff.mp (Except.ok.inj hguard)

/-- A leaf above a page that is not mapped is 0. -/
theorem TableInv.cell_eq_zero {pg : List ℕ → Option ℕ} {π : List ℕ} {i q vpn : ℕ}
    (ht : TableInv h root pg) (hq : pg π = some q) (hi : i < 512) (hn : pg (i :: π) = none)
    (hu : Under (i :: π) vpn) (hx : xlate h pg vpn 2 [] root = none) : h.cell q i = 0 := by
  rw [ht.xlate_entry hq hi hn hu, leafXlate] at hx
  by_contra hne
  rw [if_neg hne] at hx
  cases hx

theorem TopTable.notPinned (ht : TopTable h root) (hva : TopPage va) :
    NotPinned h root (normalVirtAddr va) 4096 := by
  obtain ⟨pg, hinv, -⟩ := ht.ok
  have hx := ht.pageXlate
  rw [hinv.pageXlate_eq] at hx
  have hnormal := hva.normal
  have hge := hva.ge
  have hlt := hva.lt
  have hi2 : normalVirtAddr va / ppn2JmpSize = 511 := by
    unfold ppn2JmpSize kernMappingBottom at *
    omega
  have hi1 : (normalVirtAddr va + 4096 - ppn0JmpSize) % ppn2JmpSize / ppn1JmpSize = 511 := by
    unfold ppn0JmpSize ppn1JmpSize ppn2JmpSize kernMappingBottom at *
    omega
  have htable : blockTable h root (normalVirtAddr va) = (pg [511]).getD 0 := by
    rw [hinv.blockTable_eq (by unfold kernMappingBottom at *; omega), hi2]
  refine ⟨fun hzero => ?_, fun hne _ hzero => ?_⟩
  · rw [htable] at hzero
    rw [hi2, hinv.cell_eq_zero hinv.root (by decide) (hinv.none_of_getD hzero)
      (show Under [511] 0x7ffffff by decide) hx]
    decide
  · rw [htable] at hne
    cases ht1 : pg [511] with
    | none => exact absurd (by rw [ht1, Option.getD_none]) hne
    | some t1 =>
      rw [htable, ht1, Option.getD_some, midEntry, hi1] at hzero ⊢
      rw [hinv.getBranchLoc_eq ht1 (by decide)] at hzero
      rw [hinv.cell_eq_zero ht1 (by decide) (hinv.none_of_getD hzero)
        (show Under [511, 511] 0x7ffffff by decide) hx]
      decide

theorem leafArgs_page (hp : WindowPage p) : LeafArgs (BitVec.ofNat 64 p) kernelPageFlags 4096 where
  flags := by decide
  dvd := by
    have hdvd := hp.dvd
    have hle := hp.le
    rw [hp.offset]
    unfold kernelVmaStart at *
    omega
  le := by
    have hlt := hp.lt
    rw [hp.offset]
    unfold kernelVmaStart
    omega

theorem TopTable.shape (ht : TopTable h root) (hva : TopPage va) (hp : WindowPage p) :
    Shape h root (normalVirtAddr va) 4096 (BitVec.ofNat 64 p) kernelPageFlags := by
  have hnormal := hva.normal
  have hdvd := hva.dvd
  have hge := hva.ge
  have hlt := hva.lt
  unfold kernMappingBottom at hge
  refine ⟨Or.inr (Or.inl ?_), fun _ j hj => ?_, fun hle => ?_, leafArgs_page hp, ?_⟩
  · unfold ppn1JmpSize ppn2JmpSize
    omega
  · exact absurd hj (by unfold ppn1JmpSize; omega)
  · exact absurd hle (by decide)
  · rw [if_neg (by decide)]
    refine Or.inr (Or.inr ⟨0x7ffffff, ?_, by omega, fun x _ => ?_⟩)
    · omega
    · rw [ht.pageXlate]
      exact Option.some_ne_none _ |>.symm

/-- A page of the top block mapped by `vma_map_kernel`. -/
theorem TopTable.mapPage (fuel : ℕ) (ht : TopTable h root) (hva : TopPage va)
    (hp : WindowPage p)
    (hmap : vmaMapKernel src fuel root va 4096 (BitVec.ofNat 64 p) (vmaRead ||| vmaWrite) h =
      .ok h') :
    TopTable h' root ∧ PageMapped h' root va p ∧
      RangeMapped h root va 4096 (BitVec.ofNat 64 p) kernelPageFlags h' := by
  have hmap' : vmaReplaceSection src fuel root va 4096 (BitVec.ofNat 64 p) kernelPageFlags h =
      .ok h' := hmap
  rcases ht.ok.replaceSection src fuel hva.range (ht.notPinned hva) (ht.shape hva hp) with
    ⟨hpanic, -⟩ | ⟨h'', hok, ht', hr, -⟩
  · rw [hpanic] at hmap'
    cases hmap'
  rw [hok] at hmap'
  cases hmap'
  have hlt := hva.lt
  have hdvd := hva.dvd
  refine ⟨⟨ht', ?_⟩, fun k hk => ?_, hr⟩
  · obtain ⟨t, hold, hnew⟩ := hr.outside 0xfffffffffffff000 (by decide) (by omega)
    rw [ht.guard] at hold
    rw [hnew, ← hold]
  · rw [hr.inside k hk, if_neg (by decide), hp.offset]

theorem PageMapped.of_rangeMapped {va' p' : ℕ} {phys flags : BitVec 64}
    (hm : PageMapped h root va' p') (hva : TopPage va) (hva' : TopPage va') (hne : va' ≠ va)
    (hr : RangeMapped h root va 4096 phys flags h') : PageMapped h' root va' p' := fun k hk => by
  have hdvd := hva.dvd
  have hdvd' := hva'.dvd
  have hlt' := hva'.lt
  obtain ⟨t, hold, hnew⟩ := hr.outside (va' + k) (by omega) (by omega)
  rw [hm k hk] at hold
  rw [hnew, ← hold]

end Top

/-! ## The process -/

/-- `process`, as far as its traps and mappings depend on it. -/
structure TrapProcess where
  vmaTable : ℕ
  trapframe : FrameKind → ℕ
  physKernelStackAddr : List ℕ
  trapState : TrapState
  readingUserspace : Bool
  lastHart : ℕ

/-- `pg_alloc`, a number of times. -/
def allocPages (src : KernelPages) :
    ℕ → Heap (BitVec 64) → Except (Fault Panic) (List ℕ × Heap (BitVec 64))
  | 0, h => .ok ([], h)
  | n + 1, h => do
    let (page, h) ← src.alloc Panic.outOfFreePages h
    let (pages, h) ← allocPages src n h
    return (page :: pages, h)

/-- The loop that maps pages from `va` on. -/
def mapPages (src : KernelPages) (fuel root : ℕ) :
    ℕ → List ℕ → Heap (BitVec 64) → Except (Fault Panic) (Heap (BitVec 64))
  | _, [], h => .ok h
  | va, page :: pages, h => do
    let h ← vmaMapKernel src fuel root va kernelPageSize (BitVec.ofNat 64 page)
      (vmaRead ||| vmaWrite) h
    mapPages src fuel root (va + kernelPageSize) pages h

/-- The word of a trap frame that holds `process_ptr`. -/
def processPtrWord : ℕ := 35

/-- `new_blank_process`, as far as the pages and the mappings of the process depend on it.
`temp_process` is the block that `mem_alloc` returns. -/
def newBlankProcessMaps (src : KernelPages) (fuel : ℕ) (tempProcess : BitVec 64)
    (h : Heap (BitVec 64)) : Except (Fault Panic) (TrapProcess × Heap (BitVec 64)) := do
  let (userspaceTrapframe, h) ← src.alloc Panic.outOfFreePages h
  let (kernelspaceTrapframe, h) ← src.alloc Panic.outOfFreePages h
  let (pageFaultTrapframe, h) ← src.alloc Panic.outOfFreePages h
  let (_, h) ← src.alloc Panic.outOfFreePages h
  let (physKernelStackAddr, h) ← allocPages src (procKernStackSize / kernelPageSize) h
  let (vmaTable, h) ← vmaCreate src h
  let h ← vmaUnmap src fuel vmaTable kernMappingBottom (2 ^ 64 - kernMappingBottom) h
  let h ← vmaMapKernel src fuel vmaTable trapframeAddress kernelPageSize
    (BitVec.ofNat 64 userspaceTrapframe) (vmaRead ||| vmaWrite) h
  let h ← mapPages src fuel vmaTable procKernStackStart physKernelStackAddr h
  let h ← h.store userspaceTrapframe processPtrWord tempProcess
  let h ← h.store kernelspaceTrapframe processPtrWord tempProcess
  return ({
    vmaTable := vmaTable
    trapframe := fun
      | .userspace => userspaceTrapframe
      | .kernelspace => kernelspaceTrapframe
      | .pageFault => pageFaultTrapframe
    physKernelStackAddr := physKernelStackAddr
    trapState := .process
    readingUserspace := false
    lastHart := 2 ^ 64 - 1 }, h)

/-- `hart_stacks_list` : four pages of `pg_alloc` for each hart. -/
structure HartStacks where
  pages : ℕ → List ℕ
  length : ∀ hart, (pages hart).length = 4
  window : ∀ hart, ∀ p ∈ pages hart, WindowPage p

/-- `process_update_context_switch`. -/
def processUpdateContextSwitch (src : KernelPages) (fuel : ℕ) (hartStacks : HartStacks)
    (proc : TrapProcess) (hartId : ℕ) (h : Heap (BitVec 64)) :
    Except (Fault Panic) (TrapProcess × Heap (BitVec 64)) := do
  if proc.lastHart = hartId then return (proc, h)
  let h ← mapPages src fuel proc.vmaTable hartKernStackStart (hartStacks.pages hartId) h
  return ({ proc with lastHart := hartId }, h)

/-! ## Runs of traps -/

/-- A call of `handle_async_trap` that has not ended : `past_proc_state`, and how
`TRAPFRAME_ADDRESS` was translated when it started. -/
structure AsyncCall where
  pastProcState : TrapState
  entry : ℕ → Except (Fault Panic) (Option (ℕ × ℕ))

/-- The memory, the process and the handlers that have not ended. `sync` is
`past_proc_state` of a `handle_sync_trap`. -/
structure TrapRun where
  heap : Heap (BitVec 64)
  proc : TrapProcess
  sync : Option TrapState
  asyncs : List AsyncCall

/-- What happens to the process. -/
inductive TrapEvent
  /-- `handle_sync_trap` starts. -/
  | syncEnter
  /-- `handle_sync_trap` ends, and does not kill the process. -/
  | syncLeave
  /-- `handle_async_trap` starts. -/
  | asyncEnter (code : TrapCode)
  /-- `handle_async_trap` ends. -/
  | asyncLeave
  /-- The process was preempted by the timer, and is switched to again on a hart. -/
  | preempt (hartId : ℕ)
  /-- `kernel_read_user` or `kernel_write_user` sets `reading_userspace`. -/
  | reading (b : Bool)
  /-- Other code changes the memory. -/
  | other (h : Heap (BitVec 64))

namespace TrapRun

variable (src : KernelPages) (fuel : ℕ) (hartStacks : HartStacks)

/-- `TRAPFRAME_ADDRESS` mapped to a frame. -/
def mapFrame (s : TrapRun) (f : FrameKind) : Except (Fault Panic) (Heap (BitVec 64)) :=
  vmaMapKernel src fuel s.proc.vmaTable trapframeAddress kernelPageSize
    (BitVec.ofNat 64 (s.proc.trapframe f)) (vmaRead ||| vmaWrite) s.heap

/-- The events. A handler starts while no `handle_sync_trap` is running, and the timer
preempts the process in the two states where interrupts are enabled. -/
inductive Step (s : TrapRun) : TrapEvent → TrapRun → Prop
  | syncEnter : s.sync = none →
    Step s .syncEnter { s with
      proc := { s.proc with trapState := .uninterruptableTrap }
      sync := some s.proc.trapState }
  | syncLeave {past : TrapState} : s.sync = some past →
    Step s .syncLeave { s with proc := { s.proc with trapState := past }, sync := none }
  | asyncEnter {code : TrapCode} {f : FrameKind} {st : TrapState} {h : Heap (BitVec 64)} :
    s.sync = none → asyncEnter s.proc.trapState code s.proc.readingUserspace = .ok (f, st) →
    s.mapFrame src fuel f = .ok h →
    Step s (.asyncEnter code) { s with
      heap := h
      proc := { s.proc with trapState := st }
      asyncs := ⟨s.proc.trapState, fun k =>
        translate s.heap s.proc.vmaTable (trapframeAddress + k)⟩ :: s.asyncs }
  | asyncLeave {c : AsyncCall} {rest : List AsyncCall} {f : FrameKind} {st : TrapState}
    {h : Heap (BitVec 64)} : s.sync = none → s.asyncs = c :: rest →
    asyncLeave c.pastProcState = .ok (f, st) → s.mapFrame src fuel f = .ok h →
    Step s .asyncLeave { s with
      heap := h
      proc := { s.proc with trapState := st }
      asyncs := rest }
  | preempt {hartId : ℕ} {proc : TrapProcess} {h : Heap (BitVec 64)} : s.sync = none →
    s.proc.trapState = .process ∨ s.proc.trapState = .interruptableTrap →
    processUpdateContextSwitch src fuel hartStacks s.proc hartId s.heap = .ok (proc, h) →
    Step s (.preempt hartId) { s with heap := h, proc := proc }
  | reading {b : Bool} : s.sync = none → s.proc.trapState = .interruptableTrap →
    Step s (.reading b) { s with proc := { s.proc with readingUserspace := b } }
  | other {h : Heap (BitVec 64)} : SameTable s.proc.vmaTable s.heap h →
    Step s (.other h) { s with heap := h }

/-- A process as `new_blank_process` makes it. -/
def Built (s : TrapRun) : Prop :=
  ∃ tempProcess h, newBlankProcessMaps src fuel tempProcess h = .ok (s.proc, s.heap) ∧
    s.sync = none ∧ s.asyncs = []

/-- The frame of a state is mapped. -/
def FrameMapped (s : TrapRun) (st : TrapState) : Prop :=
  ∃ f, st.frame = some f ∧
    PageMapped s.heap s.proc.vmaTable trapframeAddress (s.proc.trapframe f)

/-- The pages of the kernel stack are mapped. -/
def StackMapped (s : TrapRun) : Prop :=
  s.proc.physKernelStackAddr.length = 4 ∧ ∀ i (hi : i < s.proc.physKernelStackAddr.length),
    PageMapped s.heap s.proc.vmaTable (procKernStackStart + 4096 * i)
      s.proc.physKernelStackAddr[i]

/-- What holds along the runs. -/
structure Inv (s : TrapRun) : Prop where
  table : TopTable s.heap s.proc.vmaTable
  window : ∀ f, WindowPage (s.proc.trapframe f)
  frame : s.FrameMapped (s.sync.getD s.proc.trapState)
  stack : s.StackMapped
  asyncs : ∀ c ∈ s.asyncs, ∃ f, c.pastProcState.frame = some f ∧ ∀ k, k < 4096 →
    c.entry k = .ok (some (s.proc.trapframe f - kernelVmaStart + k, kernelPageFlags.toNat))

end TrapRun

/-! ## What the loops do -/

section Loops

variable {src : KernelPages} {root : ℕ}

/-- Pages that `pg_alloc` returned : distinct, not in use before, and blank. -/
structure NewPages (h : Heap (BitVec 64)) (pages : List ℕ) (h' : Heap (BitVec 64)) : Prop where
  grown : Grown h h'
  nodup : pages.Nodup
  window : ∀ p ∈ pages, WindowPage p
  free : ∀ p ∈ pages, h.len p = 0
  len : ∀ p ∈ pages, h'.len p = 512
  cell : ∀ p ∈ pages, ∀ j, h'.cell p j = 0
  only : ∀ q, q ∉ pages → h'.len q = h.len q

theorem NewPages.nil (h : Heap (BitVec 64)) : NewPages h [] h :=
  ⟨Grown.refl h, List.nodup_nil, by simp, by simp, by simp, by simp, fun _ _ => rfl⟩

theorem NewPages.append {h h' h'' : Heap (BitVec 64)} {ps qs : List ℕ} (hp : NewPages h ps h')
    (hq : NewPages h' qs h'') : NewPages h (ps ++ qs) h'' where
  grown := hp.grown.trans hq.grown
  nodup := List.nodup_append.mpr ⟨hp.nodup, hq.nodup, fun p hps q hqs he => by
    have hlen := hp.len p hps
    rw [he, hq.free q hqs] at hlen
    cases hlen⟩
  window p hps := (List.mem_append.mp hps).elim (hp.window p) (hq.window p)
  free p hps := (List.mem_append.mp hps).elim (hp.free p) fun h => hp.grown.free (hq.free p h)
  len p hps := by
    rcases List.mem_append.mp hps with hps | hqs
    · rw [(hq.grown p (by rw [hp.len p hps]; decide)).1, hp.len p hps]
    · exact hq.len p hqs
  cell p hps j := by
    rcases List.mem_append.mp hps with hps | hqs
    · rw [(hq.grown p (by rw [hp.len p hps]; decide)).2, hp.cell p hps]
    · exact hq.cell p hqs j
  only q hnot := by
    rw [List.mem_append, not_or] at hnot
    rw [hq.only q hnot.2, hp.only q hnot.1]

theorem KernelPages.alloc_ok {h h' : Heap (BitVec 64)} {p : ℕ}
    (ha : src.alloc Panic.outOfFreePages h = .ok (p, h')) : NewPages h [p] h' := by
  obtain ⟨hnext, rfl⟩ := Source.alloc_eq_ok.mp ha
  have hlt := src.lt hnext
  refine ⟨fun q hq => ?_, List.nodup_singleton p, fun q hq => ?_, fun q hq => ?_, fun q hq => ?_,
    fun q hq j => ?_, fun q hq => Heap.len_push_of_ne _ _ fun he => hq (by simp [he])⟩
  · have hne : q ≠ p := fun he => hq (he ▸ src.fresh hnext)
    exact ⟨Heap.len_push_of_ne _ _ hne, fun j => Heap.cell_push_of_ne _ _ _ hne⟩
  all_goals obtain rfl := List.mem_singleton.mp hq
  · exact ⟨src.dvd hnext, src.window hnext, by omega⟩
  · exact src.fresh hnext
  · exact Heap.len_push_self _ _ _
  · exact Heap.cell_push_self _ _ _ _

theorem allocPages_ok : ∀ {n : ℕ} {h h' : Heap (BitVec 64)} {pages : List ℕ},
    allocPages src n h = .ok (pages, h') → pages.length = n ∧ NewPages h pages h'
  | 0, h, h', pages, hp => by
    cases hp
    exact ⟨rfl, NewPages.nil h⟩
  | n + 1, h, h', pages, hp => by
    obtain ⟨⟨p, h1⟩, ha, hp⟩ := bind_eq_ok.mp hp
    obtain ⟨⟨ps, h2⟩, hps, hp⟩ := bind_eq_ok.mp hp
    cases hp
    obtain ⟨hlen, hblank⟩ := allocPages_ok hps
    exact ⟨by rw [List.length_cons, hlen], (KernelPages.alloc_ok ha).append hblank⟩

/-- A page in use that is not part of the table. -/
def Foreign (root p : ℕ) (h : Heap (BitVec 64)) : Prop :=
  h.len p = 512 ∧ ¬IsTable h root p

/-- A page that is not part of the table stays so, with its contents. -/
def Kept (root p : ℕ) (h h' : Heap (BitVec 64)) : Prop :=
  Foreign root p h' ∧ ∀ j, h'.cell p j = h.cell p j

theorem Kept.trans {h h' h'' : Heap (BitVec 64)} {p : ℕ} (hk : Kept root p h h')
    (hk' : Kept root p h' h'') : Kept root p h h'' :=
  ⟨hk'.1, fun j => (hk'.2 j).trans (hk.2 j)⟩

theorem Foreign.of_rangeMapped {h h' : Heap (BitVec 64)} {p va size : ℕ} {phys flags : BitVec 64}
    (hf : Foreign root p h) (hr : RangeMapped h root va size phys flags h') :
    Kept root p h h' := by
  obtain ⟨hlen, hcell, hne⟩ := hr.foreign p (by rw [hf.1]; decide) hf.2
  exact ⟨⟨by rw [hlen]; exact hf.1, hne⟩, hcell⟩

/-- Nothing is allocated at address 0. -/
theorem Foreign.null_mapPage {h h' : Heap (BitVec 64)} {q va : ℕ} {phys flags : BitVec 64}
    {fuel size : ℕ} (hq : Foreign root q h) (ht : TableOk h root) (hnull : h.len 0 = 0)
    (hmap : vmaMapKernel src fuel root va size phys flags h = .ok h') : h'.len 0 = 0 := by
  obtain ⟨pg, hinv, -⟩ := ht
  have hapart := hinv.tablesApart hnull (by rw [hq.1]; decide) hq.2
  have hcall : (MapCall.mapKernel va size phys flags).run src fuel root h = .ok h' := hmap
  obtain ⟨T', -, hapart'⟩ := hapart.mapCall IsTable.root hcall
  exact hapart'.null

/-- Pages mapped in a row. Other pages stay mapped. -/
theorem mapPages_ok {fuel : ℕ} : ∀ {pages : List ℕ} {va : ℕ} {h h' : Heap (BitVec 64)},
    TopTable h root → 4096 ∣ va → kernMappingBottom ≤ va →
    va + 4096 * pages.length ≤ 0xfffffffffffff000 → (∀ p ∈ pages, WindowPage p) →
    mapPages src fuel root va pages h = .ok h' →
    TopTable h' root ∧
      (∀ i (hi : i < pages.length), PageMapped h' root (va + 4096 * i) pages[i]) ∧
      (∀ va' p', TopPage va' → va' < va ∨ va + 4096 * pages.length ≤ va' →
        PageMapped h root va' p' → PageMapped h' root va' p') ∧
      ∀ p, Foreign root p h → Kept root p h h' ∧ (h.len 0 = 0 → h'.len 0 = 0)
  | [], va, h, h', ht, _, _, _, _, hmap => by
    cases hmap
    exact ⟨ht, fun i hi => absurd hi (Nat.not_lt_zero i), fun _ _ _ _ hm => hm,
      fun _ hf => ⟨⟨hf, fun _ => rfl⟩, fun hnull => hnull⟩⟩
  | p :: ps, va, h, h', ht, hdvd, hge, hle, hwin, hmap => by
    obtain ⟨h1, hpage, hmap⟩ := bind_eq_ok.mp hmap
    simp only [List.length_cons] at hle
    have hva : TopPage va := ⟨hdvd, hge, by omega⟩
    obtain ⟨ht1, hm1, hr1⟩ := ht.mapPage fuel hva (hwin p List.mem_cons_self) hpage
    rw [kernelPageSize] at hmap
    obtain ⟨ht', hrest, hkeep, hfor⟩ := mapPages_ok ht1 (by omega) (by omega) (by omega)
      (fun q hq => hwin q (List.mem_cons_of_mem _ hq)) hmap
    refine ⟨ht', fun i hi => ?_, fun va' p' hva' hout hm => ?_, fun q hq => ?_⟩
    · cases i with
      | zero => exact hkeep va p hva (Or.inl (by omega)) hm1
      | succ i =>
        have := hrest i (by simpa using hi)
        rwa [show va + 4096 + 4096 * i = va + 4096 * (i + 1) by omega] at this
    · simp only [List.length_cons] at hout
      exact hkeep va' p' hva' (by omega) (hm.of_rangeMapped hva hva' (by omega) hr1)
    · have hk1 := hq.of_rangeMapped hr1
      obtain ⟨hk2, hnull2⟩ := hfor q hk1.1
      exact ⟨hk1.trans hk2, fun hnull => hnull2 (hq.null_mapPage ht.ok hnull hpage)⟩

end Loops

/-! ## The invariant -/

section Invariant

variable {src : KernelPages} {fuel : ℕ} {hartStacks : HartStacks}

theorem topPage_trapframe : TopPage trapframeAddress :=
  ⟨by decide, by decide, by decide⟩

theorem topPage_stack {i : ℕ} (hi : i < 4) : TopPage (procKernStackStart + 4096 * i) := by
  unfold procKernStackStart
  exact ⟨by omega, by unfold kernMappingBottom; omega, by omega⟩

/-- The table of a new process, with the top of the address space unmapped. -/
theorem topTable_of_create (fuel : ℕ) {h h1 : Heap (BitVec 64)} {root : ℕ}
    (hcreate : vmaCreate src h = .ok (root, h1)) :
    vmaUnmap src fuel root kernMappingBottom (2 ^ 64 - kernMappingBottom) h1 =
      .error (.panic .outOfFreePages) ∧ Exhausted src h1 ∨
    ∃ h2, vmaUnmap src fuel root kernMappingBottom (2 ^ 64 - kernMappingBottom) h1 = .ok h2 ∧
      TopTable h2 root ∧
      (∀ p, h.len p = 512 → Kept root p h h2 ∧ (h.len 0 = 0 → h2.len 0 = 0)) ∧
      h2.objs.length ≤ h.objs.length + 3 := by
  rcases vmaCreate_spec src h with
    ⟨-, hpanic⟩ | ⟨root', h1', hok, hinv, hc, hpin, hfresh, hlen, hobjs⟩
  · rw [hpanic] at hcreate
    cases hcreate
  rw [hok] at hcreate
  cases hcreate
  have hnone : blockTable h1 root (normalVirtAddr kernMappingBottom) = 0 := by
    rw [hinv.blockTable_eq (by decide)]
    rfl
  have hrange : PageRange kernMappingBottom (2 ^ 64 - kernMappingBottom) :=
    ⟨by decide, by decide, by decide, by decide⟩
  have hnot : NotPinned h1 root (normalVirtAddr kernMappingBottom) (2 ^ 64 - kernMappingBottom) :=
    ⟨fun _ => hpin _, fun hne => absurd hnone hne⟩
  have hshape : Shape h1 root (normalVirtAddr kernMappingBottom) (2 ^ 64 - kernMappingBottom) 0 0 :=
    ⟨Or.inr (Or.inl (by decide)), fun hne => absurd hnone hne, fun _ => Or.inl rfl,
      ⟨Or.inl rfl, by decide, by decide⟩, Or.inl rfl⟩
  refine (TableOk.replaceSection src fuel ⟨_, hinv, hc⟩ hrange hnot hshape).imp_right ?_
  rintro ⟨h2, hok', ht, hr, hgrow⟩
  refine ⟨h2, hok', ⟨ht, hr.inside 0xc000 (by decide)⟩, fun p hp => ?_, by omega⟩
  have hne : p ≠ root := by
    rintro rfl
    rw [hfresh] at hp
    cases hp
  have hf1 : Foreign root p h1 := by
    refine ⟨by rw [(hlen p hne).1, hp], fun htable => ?_⟩
    obtain ⟨π, hπ⟩ := hinv.of_isTable htable
    unfold rootOnly at hπ
    split_ifs at hπ
    exact hne (Option.some.inj hπ).symm
  have hk := hf1.of_rangeMapped hr
  refine ⟨⟨hk.1, fun j => (hk.2 j).trans ((hlen p hne).2 j)⟩, fun hnull => ?_⟩
  have hroot : root ≠ 0 := (hinv.window hinv.root).pos
  have hapart := hinv.tablesApart (by rw [(hlen 0 hroot.symm).1, hnull])
    (by rw [hf1.1]; decide) hf1.2
  have hcall : (MapCall.unmap kernMappingBottom (2 ^ 64 - kernMappingBottom)).run src fuel root h1 =
      .ok h2 := hok'
  obtain ⟨T', -, hapart'⟩ := hapart.mapCall IsTable.root hcall
  exact hapart'.null

/-- Memory that is not part of the table is changed. -/
theorem TopTable.sameTable {h h' : Heap (BitVec 64)} {root : ℕ} (ht : TopTable h root)
    (hsame : SameTable root h h') :
    TopTable h' root ∧ ∀ va q, PageMapped h root va q → PageMapped h' root va q := by
  obtain ⟨hok, hx, -⟩ := ht.ok.sameTable hsame
  exact ⟨⟨hok, by rw [hx, ht.guard]⟩, fun va q hm k hk => by rw [hx, hm k hk]⟩

/-- A word of a page that is not part of the table is written. -/
theorem Foreign.store {h h' : Heap (BitVec 64)} {root p i : ℕ} {v : BitVec 64}
    (hf : Foreign root p h) (hs : (h.store p i v : Except (Fault Panic) _) = .ok h') :
    h' = h.set p i v ∧ SameTable root h h' := by
  unfold Heap.store at hs
  split_ifs at hs
  cases hs
  exact ⟨rfl, fun q hq => ⟨rfl, fun j => Heap.cell_set_of_base_ne _ _ _ _ fun he =>
    hf.2 (by rw [← he]; exact hq)⟩⟩

theorem Foreign.of_sameTable {h h' : Heap (BitVec 64)} {root p : ℕ} (hf : Foreign root p h)
    (ht : TableOk h root) (hsame : SameTable root h h') (hlen : h.len p = h'.len p) :
    Foreign root p h' :=
  ⟨by rw [← hlen]; exact hf.1, fun hp => hf.2 ((ht.sameTable hsame).2.2 p hp)⟩

/-- The pages of a process, other than its table and its descriptors. -/
def TrapProcess.pages (proc : TrapProcess) : List ℕ :=
  proc.trapframe .userspace :: proc.trapframe .kernelspace :: proc.trapframe .pageFault ::
    proc.physKernelStackAddr

theorem TrapProcess.trapframe_mem (proc : TrapProcess) : ∀ f, proc.trapframe f ∈ proc.pages
  | .userspace => List.mem_cons_self
  | .kernelspace => List.mem_cons_of_mem _ List.mem_cons_self
  | .pageFault => List.mem_cons_of_mem _ (List.mem_cons_of_mem _ List.mem_cons_self)

/-- What `new_blank_process` does to the pages. -/
structure NewProcess (tempProcess : BitVec 64) (h : Heap (BitVec 64)) (proc : TrapProcess)
    (h' : Heap (BitVec 64)) : Prop where
  table : TopTable h' proc.vmaTable
  state : proc.trapState = .process
  frame : PageMapped h' proc.vmaTable trapframeAddress (proc.trapframe .userspace)
  stack_length : proc.physKernelStackAddr.length = 4
  stack : ∀ i (hi : i < proc.physKernelStackAddr.length),
    PageMapped h' proc.vmaTable (procKernStackStart + 4096 * i) proc.physKernelStackAddr[i]
  nodup : proc.pages.Nodup
  window : ∀ p ∈ proc.pages, WindowPage p
  free : ∀ p ∈ proc.pages, h.len p = 0
  foreign : ∀ p ∈ proc.pages, Foreign proc.vmaTable p h'
  null : h.len 0 = 0 → h'.len 0 = 0
  /-- The pointer to the process is written to two of the three frames. -/
  ptr : ∀ f, h'.cell (proc.trapframe f) processPtrWord =
    if f = .pageFault then 0 else tempProcess

theorem newBlankProcessMaps_spec {tempProcess : BitVec 64} {h h' : Heap (BitVec 64)}
    {proc : TrapProcess} (hnew : newBlankProcessMaps src fuel tempProcess h = .ok (proc, h')) :
    NewProcess tempProcess h proc h' := by
  unfold newBlankProcessMaps at hnew
  obtain ⟨⟨user, h1⟩, huser, hnew⟩ := bind_eq_ok.mp hnew
  obtain ⟨⟨kern, h2⟩, hkern, hnew⟩ := bind_eq_ok.mp hnew
  obtain ⟨⟨fault, h3⟩, hfault, hnew⟩ := bind_eq_ok.mp hnew
  obtain ⟨⟨fds, h4⟩, hfds, hnew⟩ := bind_eq_ok.mp hnew
  obtain ⟨⟨pages, h5⟩, hpages, hnew⟩ := bind_eq_ok.mp hnew
  obtain ⟨⟨root, h6⟩, hcreate, hnew⟩ := bind_eq_ok.mp hnew
  obtain ⟨h7, hunmap, hnew⟩ := bind_eq_ok.mp hnew
  obtain ⟨h8, hframe, hnew⟩ := bind_eq_ok.mp hnew
  obtain ⟨h9, hstack, hnew⟩ := bind_eq_ok.mp hnew
  obtain ⟨h10, hstore1, hnew⟩ := bind_eq_ok.mp hnew
  obtain ⟨h11, hstore2, hnew⟩ := bind_eq_ok.mp hnew
  obtain ⟨rfl, rfl⟩ := Prod.mk.inj (Except.ok.inj hnew)
  -- the pages of the process
  obtain ⟨hlen4, hstackNew⟩ := allocPages_ok hpages
  have hlen4 : pages.length = 4 := hlen4
  have hnewPages : NewPages h (user :: kern :: fault :: fds :: pages) h5 :=
    (KernelPages.alloc_ok huser).append ((KernelPages.alloc_ok hkern).append
      ((KernelPages.alloc_ok hfault).append ((KernelPages.alloc_ok hfds).append hstackNew)))
  have hsub : (user :: kern :: fault :: pages).Sublist (user :: kern :: fault :: fds :: pages) :=
    (((List.sublist_cons_self fds pages).cons_cons fault).cons_cons kern).cons_cons user
  have hnodup := hnewPages.nodup.sublist hsub
  have hwin : ∀ p ∈ user :: kern :: fault :: pages, WindowPage p := fun p hp =>
    hnewPages.window p (hsub.subset hp)
  have hlive : ∀ p ∈ user :: kern :: fault :: pages, h5.len p = 512 := fun p hp =>
    hnewPages.len p (hsub.subset hp)
  have huser : user ∈ user :: kern :: fault :: pages := List.mem_cons_self
  have hkern : kern ∈ user :: kern :: fault :: pages := List.mem_cons_of_mem _ List.mem_cons_self
  obtain ⟨ht7, hkeep7⟩ : TopTable h7 root ∧
      ∀ p, h5.len p = 512 → Kept root p h5 h7 ∧ (h5.len 0 = 0 → h7.len 0 = 0) := by
    rcases topTable_of_create fuel hcreate with ⟨hpanic, -⟩ | ⟨h7', hok, ht, hkeep, -⟩
    · rw [hpanic] at hunmap
      cases hunmap
    · rw [hok] at hunmap
      cases hunmap
      exact ⟨ht, hkeep⟩
  -- the mappings
  obtain ⟨ht8, hm8, hr8⟩ := ht7.mapPage fuel topPage_trapframe (hwin user huser) hframe
  obtain ⟨ht9, hm9, hkeep9, hfor9⟩ := mapPages_ok ht8 (by decide) (by decide)
    (by rw [hlen4]; decide) (fun p hp => hwin p (by simp [hp])) hstack
  have hm9' := hkeep9 _ _ topPage_trapframe (Or.inr (by rw [hlen4]; decide)) hm8
  have hkept : ∀ p ∈ user :: kern :: fault :: pages, Kept root p h5 h9 := fun p hp => by
    have hk7 := (hkeep7 p (hlive p hp)).1
    have hk8 := hk7.1.of_rangeMapped hr8
    exact hk7.trans (hk8.trans (hfor9 p hk8.1).1)
  have hnull9 : h.len 0 = 0 → h9.len 0 = 0 := fun hnull => by
    have h0 : (0 : ℕ) ∉ user :: kern :: fault :: fds :: pages := fun hmem =>
      (hnewPages.window 0 hmem).pos rfl
    obtain ⟨hk7, hnull7⟩ := hkeep7 user (hlive user huser)
    have hk8 := hk7.1.of_rangeMapped hr8
    exact (hfor9 user hk8.1).2
      (hk7.1.null_mapPage ht7.ok (hnull7 (by rw [hnewPages.only 0 h0, hnull])) hframe)
  -- the words written to the frames
  obtain ⟨rfl, hsame1⟩ := (hkept user huser).1.store hstore1
  obtain ⟨ht10, hkeep10⟩ := ht9.sameTable hsame1
  have hfor10 : ∀ p ∈ user :: kern :: fault :: pages, Foreign root p _ := fun p hp =>
    (hkept p hp).1.of_sameTable ht9.ok hsame1 rfl
  obtain ⟨rfl, hsame2⟩ := (hfor10 kern hkern).store hstore2
  obtain ⟨ht11, hkeep11⟩ := ht10.sameTable hsame2
  refine ⟨ht11, rfl, hkeep11 _ _ (hkeep10 _ _ hm9'), hlen4,
    fun i hi => hkeep11 _ _ (hkeep10 _ _ (hm9 i hi)), hnodup, hwin,
    fun p hp => hnewPages.free p (hsub.subset hp),
    fun p hp => (hfor10 p hp).of_sameTable ht10.ok hsame2 rfl, hnull9, fun f => ?_⟩
  have hne : user ≠ kern ∧ user ≠ fault ∧ kern ≠ fault := by
    simp only [List.nodup_cons, List.mem_cons, not_or] at hnodup
    exact ⟨hnodup.1.1, hnodup.1.2.1, hnodup.2.1.1⟩
  cases f with
  | userspace =>
    change (Heap.set _ _ _ _).cell user _ = tempProcess
    rw [Heap.cell_set_of_base_ne _ _ _ _ hne.1, Heap.cell_set_self]
  | kernelspace =>
    change (Heap.set _ _ _ _).cell kern _ = tempProcess
    rw [Heap.cell_set_self]
  | pageFault =>
    change (Heap.set _ _ _ _).cell fault _ = 0
    have hfault : fault ∈ user :: kern :: fault :: pages := by simp
    rw [Heap.cell_set_of_base_ne _ _ _ _ hne.2.2.symm,
      Heap.cell_set_of_base_ne _ _ _ _ hne.2.1.symm, (hkept fault hfault).2,
      hnewPages.cell fault (hsub.subset hfault)]

/-- A new process meets the invariant. -/
theorem TrapRun.Built.inv : ∀ {s : TrapRun}, TrapRun.Built src fuel s → s.Inv := by
  rintro ⟨heap, proc, sync, asyncs⟩ ⟨tempProcess, h, hnew, rfl, rfl⟩
  have hspec := newBlankProcessMaps_spec hnew
  refine ⟨hspec.table, fun f => hspec.window _ (proc.trapframe_mem f),
    ⟨.userspace, ?_, hspec.frame⟩, ⟨hspec.stack_length, hspec.stack⟩,
    fun c hc => absurd hc List.not_mem_nil⟩
  change proc.trapState.frame = _
  rw [hspec.state]
  rfl

/-- A frame mapped at `TRAPFRAME_ADDRESS`. -/
theorem TrapRun.Inv.mapFrame {s : TrapRun} (hi : s.Inv) {f : FrameKind} {h : Heap (BitVec 64)}
    (hmap : s.mapFrame src fuel f = .ok h) :
    TopTable h s.proc.vmaTable ∧
      PageMapped h s.proc.vmaTable trapframeAddress (s.proc.trapframe f) ∧
      ∀ i (hi : i < s.proc.physKernelStackAddr.length), PageMapped h s.proc.vmaTable
        (procKernStackStart + 4096 * i) s.proc.physKernelStackAddr[i] := by
  obtain ⟨ht, hm, hr⟩ := hi.table.mapPage fuel topPage_trapframe (hi.window f) hmap
  refine ⟨ht, hm, fun i hi' => (hi.stack.2 i hi').of_rangeMapped topPage_trapframe
    (topPage_stack ?_) ?_ hr⟩
  · have := hi.stack.1
    omega
  · have := hi.stack.1
    unfold procKernStackStart trapframeAddress
    omega

/-- A switch to the process on another hart. -/
theorem TrapRun.Inv.preempt {s : TrapRun} (hi : s.Inv) {hartId : ℕ} {proc : TrapProcess}
    {h : Heap (BitVec 64)}
    (hsw : processUpdateContextSwitch src fuel hartStacks s.proc hartId s.heap = .ok (proc, h)) :
    TrapRun.Inv { s with heap := h, proc := proc } := by
  unfold processUpdateContextSwitch at hsw
  split_ifs at hsw
  · cases hsw
    exact hi
  obtain ⟨h1, hmap, hsw⟩ := bind_eq_ok.mp hsw
  cases hsw
  have hlen := hartStacks.length hartId
  have hstack := hi.stack.1
  obtain ⟨ht, -, hkeep, -⟩ := mapPages_ok hi.table (by decide) (by decide)
    (by rw [hlen]; decide) (hartStacks.window hartId) hmap
  obtain ⟨f, hf, hm⟩ := hi.frame
  refine ⟨ht, hi.window, ⟨f, hf, hkeep _ _ topPage_trapframe (Or.inr ?_) hm⟩,
    ⟨hstack, fun i hi' => hkeep _ _ (topPage_stack ?_) (Or.inr ?_) (hi.stack.2 i hi')⟩,
    hi.asyncs⟩
  · rw [hlen]
    decide
  · rw [← hstack]
    exact hi'
  · rw [hlen]
    unfold procKernStackStart hartKernStackStart
    omega

/-- Every event keeps the invariant. -/
theorem TrapRun.Step.inv {s s' : TrapRun} {e : TrapEvent} (hi : s.Inv)
    (hs : TrapRun.Step src fuel hartStacks s e s') : s'.Inv := by
  obtain ⟨ht, hwin, hframe, hstack, hasyncs⟩ := hi
  cases hs with
  | syncEnter hsync =>
    rw [hsync] at hframe
    exact ⟨ht, hwin, hframe, hstack, hasyncs⟩
  | syncLeave hsync =>
    rw [hsync] at hframe
    exact ⟨ht, hwin, hframe, hstack, hasyncs⟩
  | asyncEnter hsync hent hmap =>
    obtain ⟨ht', hm, hstack'⟩ := TrapRun.Inv.mapFrame ⟨ht, hwin, hframe, hstack, hasyncs⟩ hmap
    rw [hsync] at hframe
    obtain ⟨f0, hf0, hm0⟩ := hframe
    refine ⟨ht', hwin, ?_, ⟨hstack.1, hstack'⟩, fun c hc => ?_⟩
    · dsimp only
      rw [hsync]
      exact ⟨_, asyncEnter_frame hent, hm⟩
    · rcases List.mem_cons.mp hc with rfl | hc
      · exact ⟨f0, hf0, hm0⟩
      · exact hasyncs c hc
  | asyncLeave hsync hlist hlea hmap =>
    obtain ⟨ht', hm, hstack'⟩ := TrapRun.Inv.mapFrame ⟨ht, hwin, hframe, hstack, hasyncs⟩ hmap
    obtain ⟨rfl, hf⟩ := asyncLeave_frame hlea
    refine ⟨ht', hwin, ?_, ⟨hstack.1, hstack'⟩, fun c hc => hasyncs c ?_⟩
    · dsimp only
      rw [hsync]
      exact ⟨_, hf, hm⟩
    · rw [hlist]
      exact List.mem_cons_of_mem _ hc
  | preempt hsync hst hsw =>
    exact TrapRun.Inv.preempt ⟨ht, hwin, hframe, hstack, hasyncs⟩ hsw
  | reading hsync hst => exact ⟨ht, hwin, hframe, hstack, hasyncs⟩
  | other hsame =>
    obtain ⟨ht', hkeep⟩ := ht.sameTable hsame
    obtain ⟨f, hf, hm⟩ := hframe
    exact ⟨ht', hwin, ⟨f, hf, hkeep _ _ hm⟩, ⟨hstack.1, fun i hi => hkeep _ _ (hstack.2 i hi)⟩,
      hasyncs⟩

end Invariant

/-! ## A process is built -/

section Built

variable {h : Heap (BitVec 64)} {fuel root : ℕ}

theorem firstFitPages_next (hn : h.objs.length < 64) : firstFitPages.next h ≠ none :=
  Source.firstFit_ne_none (by decide) (by decide) (by unfold kernelVmaStart; omega)

theorem not_exhausted_firstFit (hn : h.objs.length < 63) : ¬Exhausted firstFitPages h := by
  rintro (⟨h', hobjs, hnone⟩ | ⟨h0, h', q, -, -, hobjs, hnone⟩)
  · exact firstFitPages_next (by rw [hobjs]; omega) hnone
  · exact firstFitPages_next (by rw [hobjs, List.length_cons]; omega) hnone

theorem firstFit_alloc (hn : h.objs.length < 63) : ∃ p h',
    firstFitPages.alloc Panic.outOfFreePages h = .ok (p, h') ∧
      h'.objs.length = h.objs.length + 1 := by
  rcases firstFitPages.alloc_eq Panic.outOfFreePages h with ⟨hnone, -⟩ | ⟨p, -, halloc⟩
  · exact absurd hnone (firstFitPages_next (by omega))
  · exact ⟨p, _, halloc, rfl⟩

theorem firstFit_allocPages : ∀ {n : ℕ} {h : Heap (BitVec 64)}, h.objs.length + n < 63 →
    ∃ pages h', allocPages firstFitPages n h = .ok (pages, h') ∧
      h'.objs.length = h.objs.length + n
  | 0, h, _ => ⟨[], h, rfl, rfl⟩
  | n + 1, h, hn => by
    obtain ⟨p, h1, halloc, hlen1⟩ := firstFit_alloc (h := h) (by omega)
    obtain ⟨ps, h2, hpages, hlen2⟩ := firstFit_allocPages (n := n) (h := h1) (by omega)
    refine ⟨p :: ps, h2, ?_, by omega⟩
    rw [allocPages, halloc, ok_bind]
    dsimp only
    rw [hpages]
    rfl

theorem firstFit_mapPage (fuel : ℕ) {va p : ℕ} (ht : TopTable h root) (hva : TopPage va)
    (hp : WindowPage p) (hn : h.objs.length < 63) :
    ∃ h', vmaMapKernel firstFitPages fuel root va kernelPageSize
      (BitVec.ofNat 64 p) (vmaRead ||| vmaWrite) h = .ok h' ∧
      h'.objs.length ≤ h.objs.length + 2 := by
  rcases ht.ok.replaceSection firstFitPages fuel hva.range (ht.notPinned hva) (ht.shape hva hp)
    with ⟨-, hex⟩ | ⟨h', hok, -, -, hlen⟩
  · exact absurd hex (not_exhausted_firstFit hn)
  · exact ⟨h', hok, hlen⟩

theorem firstFit_mapPages (fuel : ℕ) : ∀ {pages : List ℕ} {va : ℕ} {h : Heap (BitVec 64)},
    TopTable h root → 4096 ∣ va → kernMappingBottom ≤ va →
    va + 4096 * pages.length ≤ 0xfffffffffffff000 →
    (∀ p ∈ pages, WindowPage p) → h.objs.length + 2 * pages.length < 63 →
    ∃ h', mapPages firstFitPages fuel root va pages h = .ok h' ∧
      h'.objs.length ≤ h.objs.length + 2 * pages.length
  | [], va, h, _, _, _, _, _, _ => ⟨h, rfl, Nat.le_refl _⟩
  | p :: ps, va, h, ht, hdvd, hge, hle, hwin, hn => by
    simp only [List.length_cons] at hle hn
    have hva : TopPage va := ⟨hdvd, hge, by omega⟩
    obtain ⟨h1, hmap, hlen⟩ := firstFit_mapPage fuel ht hva (hwin p List.mem_cons_self)
      (by omega)
    obtain ⟨ht1, -, -⟩ := ht.mapPage fuel hva (hwin p List.mem_cons_self) hmap
    obtain ⟨h2, hrest, hlen2⟩ := firstFit_mapPages fuel ht1 (show 4096 ∣ va + 4096 by omega)
      (by omega) (by omega) (fun q hq => hwin q (List.mem_cons_of_mem _ hq)) (by omega)
    refine ⟨h2, ?_, by rw [List.length_cons]; omega⟩
    rw [mapPages, hmap, ok_bind]
    exact hrest

/-- `new_blank_process` returns where pages are left. -/
theorem newBlankProcessMaps_ok (fuel : ℕ) (tempProcess : BitVec 64) (hn : h.objs.length < 16) :
    ∃ r, newBlankProcessMaps firstFitPages fuel tempProcess h = .ok r ∧
      r.2.objs.length ≤ h.objs.length + 21 := by
  obtain ⟨user, h1, huser, hn1⟩ := firstFit_alloc (h := h) (by omega)
  obtain ⟨kern, h2, hkern, hn2⟩ := firstFit_alloc (h := h1) (by omega)
  obtain ⟨fault, h3, hfault, hn3⟩ := firstFit_alloc (h := h2) (by omega)
  obtain ⟨fds, h4, hfds, hn4⟩ := firstFit_alloc (h := h3) (by omega)
  obtain ⟨pages, h5, hpages, hn5⟩ := firstFit_allocPages (n := 4) (h := h4) (by omega)
  obtain ⟨hlen, hstackNew⟩ := allocPages_ok hpages
  have hnewPages : NewPages h (user :: kern :: fault :: fds :: pages) h5 :=
    (KernelPages.alloc_ok huser).append ((KernelPages.alloc_ok hkern).append
      ((KernelPages.alloc_ok hfault).append ((KernelPages.alloc_ok hfds).append hstackNew)))
  have hpwin := hstackNew.window
  have huwin := hnewPages.window user (by simp)
  obtain ⟨root, h6, hcreate, -⟩ := (vmaCreate_spec firstFitPages h5).resolve_left
    fun hnone => firstFitPages_next (by omega) hnone.1
  have hn6 : h6.objs.length < 63 := by
    rcases vmaCreate_spec firstFitPages h5 with ⟨-, hpanic⟩ | ⟨_, _, hok, -, -, -, -, -, hobjs⟩
    · rw [hpanic] at hcreate
      cases hcreate
    · rw [hok] at hcreate
      cases hcreate
      omega
  obtain ⟨h7, hunmap, ht7, hfor, hn7⟩ := (topTable_of_create fuel hcreate).resolve_left
    fun hex => not_exhausted_firstFit hn6 hex.2
  have hu7 := (hfor user (hnewPages.len user (by simp))).1.1
  have hk7 := (hfor kern (hnewPages.len kern (by simp))).1.1
  obtain ⟨h8, hframe, hn8⟩ := firstFit_mapPage fuel ht7 topPage_trapframe huwin (by omega)
  obtain ⟨ht8, hm8, hr8⟩ := ht7.mapPage fuel topPage_trapframe huwin hframe
  obtain ⟨h9, hstack, hn9⟩ := firstFit_mapPages fuel ht8
    (show 4096 ∣ procKernStackStart by decide) (by decide) (by rw [hlen]; decide) hpwin (by omega)
  obtain ⟨-, -, -, hfor9⟩ := mapPages_ok ht8 (by decide) (by decide)
    (by rw [hlen]; decide) hpwin hstack
  have hu9 := (hfor9 user (hu7.of_rangeMapped hr8).1).1.1.1
  have hk9 := (hfor9 kern (hk7.of_rangeMapped hr8).1).1.1.1
  unfold newBlankProcessMaps
  simp only [huser, hkern, hfault, hfds, ok_bind]
  rw [show procKernStackSize / kernelPageSize = 4 from rfl, hpages, ok_bind]
  dsimp only
  rw [hcreate, ok_bind]
  dsimp only
  rw [hunmap, ok_bind, hframe, ok_bind, hstack, ok_bind,
    Heap.store_eq_ok (by rw [hu9]; decide), ok_bind,
    Heap.store_eq_ok (by rw [Heap.len_set, hk9]; decide), ok_bind]
  have hlen4 : pages.length = 4 := hlen
  exact ⟨_, rfl, by dsimp only [Heap.objs_set]; omega⟩

/-- The stack of a single hart. -/
def oneHartStack : HartStacks where
  pages _ := [0xffffffc000100000, 0xffffffc000101000, 0xffffffc000102000, 0xffffffc000103000]
  length _ := rfl
  window _ := by
    have hpage : ∀ i, i < 4 → WindowPage (0xffffffc000100000 + 4096 * i) := fun i hi =>
      ⟨by omega, by unfold kernelVmaStart; omega, by omega⟩
    intro p hp
    simp only [List.mem_cons, List.not_mem_nil, or_false] at hp
    rcases hp with rfl | rfl | rfl | rfl
    · exact hpage 0 (by decide)
    · exact hpage 1 (by decide)
    · exact hpage 2 (by decide)
    · exact hpage 3 (by decide)

end Built

end Toastium
