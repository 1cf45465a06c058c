import Toastium.ProcessPages
import Toastium.SharedTables

/-!
# The pages of the processes

`stack_init` takes four pages for the stack of each hart. Then processes are created, their
trap frames are mapped in turn, they are switched to on one hart or another, their programs
get pages, and they are cleaned up, all from one pager.

`spaces_separate` : every process has one of its own trap frames, its own kernel stack and the
stack of the hart that it was switched to last at the addresses where the kernel looks for
them. No page of it (frames, stack, tables) is one of another process or of the stack of a
hart, and its pages can always be freed.
-/

namespace Toastium

/-! ## The code -/

/-- `HART_KERN_STACK_SIZE`. -/
def hartKernStackSize : ℕ := 4096 * 4

/-- The loop of `stack_init`, for `n` pages from index `i` of the list `list` on. -/
def fillStacks (src : KernelPages) (list : ℕ) :
    ℕ → ℕ → Heap (BitVec 64) → Except (Fault Panic) (List ℕ × Heap (BitVec 64))
  | _, 0, h => .ok ([], h)
  | i, n + 1, h => do
    let (page, h) ← src.alloc Panic.outOfFreePages h
    let h ← h.store list i (BitVec.ofNat 64 page)
    let (pages, h) ← fillStacks src list (i + 1) n h
    return (page :: pages, h)

/-- `stack_init`, with the pages in `hart_stacks_list`. -/
def stackInit (src : KernelPages) (hartCnt : ℕ) (h : Heap (BitVec 64)) :
    Except (Fault Panic) (List ℕ × Heap (BitVec 64)) := do
  let (hartStacksList, h) ← src.alloc Panic.outOfFreePages h
  fillStacks src hartStacksList 0 (hartCnt * (hartKernStackSize / kernelPageSize)) h

/-- The memory, and the processes by the addresses of their structures. -/
structure KernelSpaces where
  heap : Heap (BitVec 64)
  procs : ℕ → Option TrapProcess

/-- What happens to the pages of the processes. -/
inductive SpaceEvent
  /-- `new_blank_process`. -/
  | create (a : ℕ)
  /-- `handle_async_trap` maps a trap frame. -/
  | frame (a : ℕ) (f : FrameKind)
  /-- The process is switched to on a hart. -/
  | switch (a hartId : ℕ)
  /-- A call for the half of the programs. -/
  | user (a : ℕ) (c : MapCall)
  /-- `process_cleanup`. -/
  | cleanup (a : ℕ)
  /-- Other code changes the memory. -/
  | other (h : Heap (BitVec 64))

/-- The pages of a process. -/
def TrapProcess.Owns (p : TrapProcess) (h : Heap (BitVec 64)) (x : ℕ) : Prop :=
  x ∈ p.pages ∨ IsTable h p.vmaTable x

section Runs

variable (src : KernelPages) (fuel hartCnt : ℕ) (hartStacks : HartStacks)

/-- No process, and the stacks as `stack_init` leaves them. -/
def SpacesInit (s : KernelSpaces) : Prop :=
  (∀ a, s.procs a = none) ∧ ∃ h pages, stackInit src hartCnt h = .ok (pages, s.heap) ∧
    ∀ hartId < hartCnt, hartStacks.pages hartId = (pages.drop (4 * hartId)).take 4

/-- A step that returns. Other code leaves the tables alone and frees no page of a process or of the
stack of a hart. -/
inductive SpaceStep (s : KernelSpaces) : SpaceEvent → KernelSpaces → Prop
  | create {a : ℕ} {p : TrapProcess} {h : Heap (BitVec 64)} : s.procs a = none →
    newBlankProcessMaps src fuel (BitVec.ofNat 64 a) s.heap = .ok (p, h) →
    SpaceStep s (.create a) ⟨h, Function.update s.procs a (some p)⟩
  | frame {a : ℕ} {f : FrameKind} {p : TrapProcess} {h : Heap (BitVec 64)} :
    s.procs a = some p →
    vmaMapKernel src fuel p.vmaTable trapframeAddress kernelPageSize
      (BitVec.ofNat 64 (p.trapframe f)) (vmaRead ||| vmaWrite) s.heap = .ok h →
    SpaceStep s (.frame a f) { s with heap := h }
  | switch {a hartId : ℕ} {p p' : TrapProcess} {h : Heap (BitVec 64)} : s.procs a = some p →
    hartId < hartCnt →
    processUpdateContextSwitch src fuel hartStacks p hartId s.heap = .ok (p', h) →
    SpaceStep s (.switch a hartId) ⟨h, Function.update s.procs a (some p')⟩
  | user {a : ℕ} {c : MapCall} {p : TrapProcess} {h : Heap (BitVec 64)} : s.procs a = some p →
    c.run src fuel p.vmaTable s.heap = .ok h → SpaceStep s (.user a c) { s with heap := h }
  | cleanup {a : ℕ} {p : TrapProcess} {h : Heap (BitVec 64)} : s.procs a = some p →
    freePages p.freed s.heap = .ok h →
    SpaceStep s (.cleanup a) ⟨h, Function.update s.procs a none⟩
  | other {h : Heap (BitVec 64)} :
    (∀ a p, s.procs a = some p → SameTable p.vmaTable s.heap h ∧
      ∀ x ∈ p.pages, h.len x = s.heap.len x) →
    (∀ hartId < hartCnt, ∀ x ∈ hartStacks.pages hartId, h.len x = s.heap.len x) →
    SpaceStep s (.other h) { s with heap := h }

/-- The calls for programs are supported, and in their half of the space. -/
def SpaceGuard (s : KernelSpaces) : SpaceEvent → Prop
  | .user a c => c.virtAddr < kernelVmaStart ∧
    ∀ p, s.procs a = some p → Supported src ⟨s.heap, p.vmaTable⟩ c
  | _ => True

end Runs

/-! ## The invariant -/

/-- What holds of a process. -/
structure SpaceOk (hartStacks : HartStacks) (h : Heap (BitVec 64)) (p : TrapProcess) : Prop where
  table : TopTable h p.vmaTable
  nodup : p.pages.Nodup
  window : ∀ x ∈ p.pages, WindowPage x
  foreign : ∀ x ∈ p.pages, Foreign p.vmaTable x h
  frame : ∃ f, PageMapped h p.vmaTable trapframeAddress (p.trapframe f)
  stack : ∀ i, i < 4 → ∃ x, p.physKernelStackAddr[i]? = some x ∧
    PageMapped h p.vmaTable (procKernStackStart + 4096 * i) x
  hart : p.lastHart ≠ 2 ^ 64 - 1 → ∀ i, i < 4 → ∃ x, (hartStacks.pages p.lastHart)[i]? = some x ∧
    PageMapped h p.vmaTable (hartKernStackStart + 4096 * i) x

/-- What holds of all of them. -/
structure SpacesInv (hartCnt : ℕ) (hartStacks : HartStacks) (s : KernelSpaces) : Prop where
  ok : ∀ a p, s.procs a = some p → SpaceOk hartStacks s.heap p
  apart : ∀ a b p q, s.procs a = some p → s.procs b = some q → a ≠ b → ∀ x, p.Owns s.heap x →
    ¬q.Owns s.heap x
  harts : ∀ hartId < hartCnt, ∀ x ∈ hartStacks.pages hartId, s.heap.len x = 512 ∧
    ∀ a p, s.procs a = some p → ¬p.Owns s.heap x

section Steps

variable {src : KernelPages} {fuel hartCnt : ℕ} {hartStacks : HartStacks} {s s' : KernelSpaces}
  {h h' : Heap (BitVec 64)} {p q : TrapProcess} {a b x : ℕ}

/-- The pages of a process are in use. -/
theorem SpaceOk.len (hp : SpaceOk hartStacks h p) (hx : p.Owns h x) : h.len x = 512 :=
  hx.elim (fun hx => (hp.foreign x hx).1) hp.table.ok.len

/-- A process whose pages are left alone. -/
theorem SpaceOk.keep (hp : SpaceOk hartStacks h p) (hsame : SameTable p.vmaTable h h')
    (hlen : ∀ x ∈ p.pages, h'.len x = h.len x) :
    SpaceOk hartStacks h' p ∧ ∀ x, p.Owns h' x → p.Owns h x := by
  obtain ⟨htable, hmapped⟩ := hp.table.sameTable hsame
  have hsub := (hp.table.ok.sameTable hsame).2.2
  have hforeign : ∀ x ∈ p.pages, Foreign p.vmaTable x h' := fun x hx =>
    ⟨(hlen x hx).trans (hp.foreign x hx).1, fun ht => (hp.foreign x hx).2 (hsub x ht)⟩
  refine ⟨⟨htable, hp.nodup, hp.window, hforeign, ?_, fun i hi => ?_, fun hne i hi => ?_⟩,
    fun x hx => hx.imp_right (hsub x)⟩
  · exact hp.frame.imp fun f => hmapped _ _
  · exact (hp.stack i hi).imp fun x => And.imp_right (hmapped _ _)
  · exact (hp.hart hne i hi).imp fun x => And.imp_right (hmapped _ _)

namespace SpacesInv

/-- One process is changed, made or taken away, and pages in use that are not its own are left
alone. -/
theorem update (hs : SpacesInv hartCnt hartStacks s) {o : Option TrapProcess}
    (hok : ∀ p, o = some p → SpaceOk hartStacks h p)
    (hout : ∀ x, s.heap.len x = 512 → (∀ p, s.procs a = some p → ¬p.Owns s.heap x) →
      h.len x = s.heap.len x ∧ (∀ j, h.cell x j = s.heap.cell x j) ∧
        ∀ p, o = some p → ¬p.Owns h x) :
    SpacesInv hartCnt hartStacks ⟨h, Function.update s.procs a o⟩ := by
  have hcases : ∀ {b q}, Function.update s.procs a o b = some q →
      b = a ∧ o = some q ∨ b ≠ a ∧ s.procs b = some q := fun {b q} hb => by
    by_cases he : b = a
    · subst he
      rw [Function.update_self] at hb
      exact Or.inl ⟨rfl, hb⟩
    · rw [Function.update_of_ne he] at hb
      exact Or.inr ⟨he, hb⟩
  have hmine : ∀ {b q}, b ≠ a → s.procs b = some q → ∀ x, q.Owns s.heap x →
      ∀ p, s.procs a = some p → ¬p.Owns s.heap x := fun {b q} hne hb x hx p hp =>
    hs.apart b a q p hb hp hne x hx
  have hkeep : ∀ {b q}, b ≠ a → s.procs b = some q → SpaceOk hartStacks h q ∧
      ∀ x, q.Owns h x → q.Owns s.heap x := fun {b q} hne hb => by
    have hq := hs.ok b q hb
    refine hq.keep (fun x hx => ?_) fun x hx => ?_
    · obtain ⟨hlen, hcell, -⟩ := hout x (hq.len (Or.inr hx)) (hmine hne hb x (Or.inr hx))
      exact ⟨hlen, hcell⟩
    · exact (hout x (hq.len (Or.inl hx)) (hmine hne hb x (Or.inl hx))).1
  have hapart : ∀ {b q p x}, b ≠ a → s.procs b = some q → o = some p → q.Owns h x →
      ¬p.Owns h x := fun {b q p x} hne hb ho hx => by
    have hold := (hkeep hne hb).2 x hx
    exact (hout x ((hs.ok b q hb).len hold) (hmine hne hb x hold)).2.2 p ho
  refine ⟨fun b q hb => ?_, fun b c q r hb hc hne x hx => ?_, fun hartId hhart x hx => ?_⟩
  · rcases hcases hb with ⟨-, ho⟩ | ⟨hne, hb⟩
    · exact hok q ho
    · exact (hkeep hne hb).1
  · rcases hcases hb with ⟨rfl, ho⟩ | ⟨hbne, hb'⟩ <;>
      rcases hcases hc with ⟨rfl, ho'⟩ | ⟨hcne, hc'⟩
    · exact absurd rfl hne
    · exact fun hx' => hapart hcne hc' ho hx' hx
    · exact hapart hbne hb' ho' hx
    · exact fun hx' => hs.apart b c q r hb' hc' hne x ((hkeep hbne hb').2 x hx)
        ((hkeep hcne hc').2 x hx')
  · obtain ⟨hlen, hnot⟩ := hs.harts hartId hhart x hx
    obtain ⟨hlen', -, hnot'⟩ := hout x hlen (hnot a)
    refine ⟨hlen'.trans hlen, fun b q hb => ?_⟩
    rcases hcases hb with ⟨-, ho⟩ | ⟨hne, hb⟩
    · exact hnot' q ho
    · exact fun hx => hnot b q hb ((hkeep hne hb).2 x hx)

/-- A process whose table is changed by calls on it. -/
theorem change (hs : SpacesInv hartCnt hartStacks s) {p' : TrapProcess} (ha : s.procs a = some p)
    (hpages : p'.pages = p.pages) (hroot : p'.vmaTable = p.vmaTable)
    (hfor : ∀ x, Foreign p.vmaTable x s.heap → Kept p.vmaTable x s.heap h)
    (hok : SpaceOk hartStacks h p') :
    SpacesInv hartCnt hartStacks ⟨h, Function.update s.procs a (some p')⟩ := by
  refine hs.update (fun q hq => ?_) fun x hlen hnot => ?_
  · cases hq
    exact hok
  · have hx := hnot p ha
    obtain ⟨hfor', hcell⟩ := hfor x ⟨hlen, fun ht => hx (Or.inr ht)⟩
    refine ⟨hfor'.1.trans hlen.symm, hcell, fun q hq hown => ?_⟩
    cases hq
    rw [TrapProcess.Owns, hpages, hroot] at hown
    exact hown.elim (fun hmem => hx (Or.inl hmem)) hfor'.2

end SpacesInv

/-! ## The steps -/

/-- The addresses of the stack of the hart. -/
theorem topPage_hartStack {i : ℕ} (hi : i < 4) : TopPage (hartKernStackStart + 4096 * i) := by
  unfold hartKernStackStart
  exact ⟨by omega, by unfold kernMappingBottom; omega, by omega⟩

/-- A trap frame is mapped. -/
theorem SpaceOk.frameMapped (hp : SpaceOk hartStacks h p) {f : FrameKind}
    (hmap : vmaMapKernel src fuel p.vmaTable trapframeAddress kernelPageSize
      (BitVec.ofNat 64 (p.trapframe f)) (vmaRead ||| vmaWrite) h = .ok h') :
    SpaceOk hartStacks h' p ∧ ∀ x, Foreign p.vmaTable x h → Kept p.vmaTable x h h' := by
  obtain ⟨ht, hm, hr⟩ := hp.table.mapPage fuel topPage_trapframe
    (hp.window _ (p.trapframe_mem f)) hmap
  have hfor : ∀ x, Foreign p.vmaTable x h → Kept p.vmaTable x h h' := fun _ hx =>
    hx.of_rangeMapped hr
  refine ⟨⟨ht, hp.nodup, hp.window, fun x hx => (hfor x (hp.foreign x hx)).1, ⟨f, hm⟩,
    fun i hi => ?_, fun hne i hi => ?_⟩, hfor⟩
  · exact (hp.stack i hi).imp fun x => And.imp_right fun hx => hx.of_rangeMapped topPage_trapframe
      (topPage_stack hi) (by unfold procKernStackStart trapframeAddress; omega) hr
  · exact (hp.hart hne i hi).imp fun x => And.imp_right fun hx =>
      hx.of_rangeMapped topPage_trapframe (topPage_hartStack hi)
        (by unfold hartKernStackStart trapframeAddress; omega) hr

/-- A switch to the process. -/
theorem SpaceOk.switched (hp : SpaceOk hartStacks h p) {p' : TrapProcess} {hartId : ℕ}
    (hsw : processUpdateContextSwitch src fuel hartStacks p hartId h = .ok (p', h')) :
    SpaceOk hartStacks h' p' ∧ p'.pages = p.pages ∧ p'.vmaTable = p.vmaTable ∧
      ∀ x, Foreign p.vmaTable x h → Kept p.vmaTable x h h' := by
  unfold processUpdateContextSwitch at hsw
  split_ifs at hsw
  · cases hsw
    exact ⟨hp, rfl, rfl, fun x hx => ⟨hx, fun _ => rfl⟩⟩
  obtain ⟨h1, hmap, hsw⟩ := bind_eq_ok.mp hsw
  cases hsw
  have hlen := hartStacks.length hartId
  obtain ⟨ht, hm, hkeep, hfor⟩ := mapPages_ok hp.table (by decide) (by decide)
    (by rw [hlen]; decide) (hartStacks.window hartId) hmap
  have hfor' : ∀ x, Foreign p.vmaTable x h → Kept p.vmaTable x h h' := fun x hx => (hfor x hx).1
  obtain ⟨f, hf⟩ := hp.frame
  refine ⟨⟨ht, hp.nodup, hp.window, fun x hx => (hfor' x (hp.foreign x hx)).1,
    ⟨f, hkeep _ _ topPage_trapframe (Or.inr (by rw [hlen]; decide)) hf⟩, fun i hi => ?_,
    fun _ i hi => ?_⟩, rfl, rfl, hfor'⟩
  · refine (hp.stack i hi).imp fun x => And.imp_right (hkeep _ _ (topPage_stack hi) (Or.inr ?_))
    rw [hlen]
    unfold procKernStackStart hartKernStackStart
    omega
  · have hi' : i < (hartStacks.pages hartId).length := by rwa [hlen]
    exact ⟨_, List.getElem?_eq_getElem hi', hm i hi'⟩

/-- A call for the half of the programs. -/
theorem SpaceOk.userMapped (hp : SpaceOk hartStacks h p) {c : MapCall}
    (hsup : Supported src ⟨h, p.vmaTable⟩ c) (hlow : c.virtAddr < kernelVmaStart)
    (hrun : c.run src fuel p.vmaTable h = .ok h') :
    SpaceOk hartStacks h' p ∧ ∀ x, Foreign p.vmaTable x h → Kept p.vmaTable x h h' := by
  obtain ⟨h1, hrun', hok, hr⟩ := Supported.run fuel hsup hp.table.ok
  cases hrun.symm.trans hrun'
  have hfor : ∀ x, Foreign p.vmaTable x h → Kept p.vmaTable x h h' := fun _ hx =>
    hx.of_rangeMapped hr
  have hhalf : c.virtAddr + c.size ≤ 0x4000000000 :=
    hsup.wellFormed.range.half.resolve_right fun hup => absurd hup.1 (Nat.not_le_of_lt hlow)
  -- the addresses of the kernel are above the call
  have htop : ∀ va, kernMappingBottom ≤ va → va < 2 ^ 64 →
      translate h' p.vmaTable va = translate h p.vmaTable va := fun va hge hlt => by
    unfold kernMappingBottom at hge
    obtain ⟨t, hold, hnew⟩ := hr.outside va hlt (by omega)
    rw [hold, hnew]
  have hmapped : ∀ {va x}, TopPage va → PageMapped h p.vmaTable va x →
      PageMapped h' p.vmaTable va x := fun {va x} hva hm k hk => by
    have hge := hva.ge
    have hlt := hva.lt
    rw [htop (va + k) (by omega) (by omega), hm k hk]
  refine ⟨⟨⟨hok, ?_⟩, hp.nodup, hp.window, fun x hx => (hfor x (hp.foreign x hx)).1,
    hp.frame.imp fun f => hmapped topPage_trapframe,
    fun i hi => (hp.stack i hi).imp fun x => And.imp_right (hmapped (topPage_stack hi)),
    fun hne i hi => (hp.hart hne i hi).imp fun x =>
      And.imp_right (hmapped (topPage_hartStack hi))⟩, hfor⟩
  rw [htop _ (by decide) (by decide), hp.table.guard]

/-- Pages in use are left alone when a process is made, and are not part of its table. -/
theorem newBlankProcessMaps_kept {ptr : BitVec 64}
    (hnew : newBlankProcessMaps src fuel ptr h = .ok (p, h')) : p.lastHart = 2 ^ 64 - 1 ∧
      ∀ x, h.len x = 512 → Kept p.vmaTable x h h' := by
  unfold newBlankProcessMaps at hnew
  obtain ⟨⟨user, h1⟩, huser, hnew⟩ := bind_eq_ok.mp hnew
  obtain ⟨⟨kern, h2⟩, hkern, hnew⟩ := bind_eq_ok.mp hnew
  obtain ⟨⟨fault, h3⟩, hfault, hnew⟩ := bind_eq_ok.mp hnew
  obtain ⟨⟨fds, h4⟩, hfds, hnew⟩ := bind_eq_ok.mp hnew
  obtain ⟨⟨pages, h5⟩, hpages, hnew⟩ := bind_eq_ok.mp hnew
  obtain ⟨⟨root, h6⟩, hcreate, hnew⟩ := bind_eq_ok.mp hnew
  obtain ⟨h7, hunmap, hnew⟩ := bind_eq_ok.mp hnew
  obtain ⟨h8, hframe, hnew⟩ := bind_eq_ok.mp hnew
  obtain ⟨h9, hstack, hnew⟩ := bind_eq_ok.mp hnew
  obtain ⟨h10, hstore1, hnew⟩ := bind_eq_ok.mp hnew
  obtain ⟨h11, hstore2, hnew⟩ := bind_eq_ok.mp hnew
  obtain ⟨rfl, rfl⟩ := Prod.mk.inj (Except.ok.inj hnew)
  obtain ⟨hlen4, hstackNew⟩ := allocPages_ok hpages
  have hlen4 : pages.length = 4 := hlen4
  have hnewPages : NewPages h (user :: kern :: fault :: fds :: pages) h5 :=
    (KernelPages.alloc_ok huser).append ((KernelPages.alloc_ok hkern).append
      ((KernelPages.alloc_ok hfault).append ((KernelPages.alloc_ok hfds).append hstackNew)))
  obtain ⟨ht7, hkeep7⟩ : TopTable h7 root ∧ ∀ q, h5.len q = 512 → Kept root q h5 h7 := by
    rcases topTable_of_create fuel hcreate with ⟨hpanic, -⟩ | ⟨h7', hok, ht, hkeep, -⟩
    · rw [hpanic] at hunmap
      cases hunmap
    · rw [hok] at hunmap
      cases hunmap
      exact ⟨ht, fun q hq => (hkeep q hq).1⟩
  obtain ⟨ht8, -, hr8⟩ := ht7.mapPage fuel topPage_trapframe
    (hnewPages.window user List.mem_cons_self) hframe
  obtain ⟨ht9, -, -, hfor9⟩ := mapPages_ok ht8 (by decide) (by decide)
    (by rw [hlen4]; decide) (fun q hq => hnewPages.window q (by simp [hq])) hstack
  have hkept9 : ∀ q, h5.len q = 512 → Kept root q h5 h9 := fun q hq => by
    have hk7 := hkeep7 q hq
    have hk8 := hk7.1.of_rangeMapped hr8
    exact hk7.trans (hk8.trans (hfor9 q hk8.1).1)
  -- the two words are written to other pages
  obtain ⟨rfl, hsame1⟩ := (hkept9 user (hnewPages.len user List.mem_cons_self)).1.store hstore1
  have hkern9 := (hkept9 kern (hnewPages.len kern (by simp))).1.of_sameTable ht9.ok hsame1 rfl
  obtain ⟨ht10, -⟩ := ht9.sameTable hsame1
  obtain ⟨rfl, hsame2⟩ := hkern9.store hstore2
  refine ⟨rfl, fun x hx => ?_⟩
  have hold : x ∉ user :: kern :: fault :: fds :: pages := fun hmem => by
    rw [hnewPages.free x hmem] at hx
    cases hx
  obtain ⟨hlen5, hcell5⟩ := hnewPages.grown x (by rw [hx]; decide)
  obtain ⟨hfor, hcell⟩ := hkept9 x (hlen5.trans hx)
  refine ⟨(hfor.of_sameTable ht9.ok hsame1 rfl).of_sameTable ht10.ok hsame2 rfl, fun j => ?_⟩
  simp only [List.mem_cons, not_or] at hold
  rw [Heap.cell_set_of_base_ne _ _ _ _ hold.2.1, Heap.cell_set_of_base_ne _ _ _ _ hold.1, hcell,
    hcell5]

/-- A process is created. -/
theorem SpaceOk.created {ptr : BitVec 64}
    (hnew : newBlankProcessMaps src fuel ptr h = .ok (p, h')) :
    SpaceOk hartStacks h' p ∧ ∀ x, h.len x = 512 → Kept p.vmaTable x h h' ∧ x ∉ p.pages := by
  have hspec := newBlankProcessMaps_spec hnew
  obtain ⟨hlast, hkept⟩ := newBlankProcessMaps_kept hnew
  refine ⟨⟨hspec.table, hspec.nodup, hspec.window, hspec.foreign, ⟨.userspace, hspec.frame⟩,
    fun i hi => ?_, fun hne => absurd hlast hne⟩, fun x hx => ⟨hkept x hx, fun hmem => ?_⟩⟩
  · have hi' : i < p.physKernelStackAddr.length := by rwa [hspec.stack_length]
    exact ⟨_, List.getElem?_eq_getElem hi', hspec.stack i hi'⟩
  · rw [hspec.free x hmem] at hx
    cases hx

/-- The pages that are not freed are left alone. -/
theorem cell_freePages : ∀ {ps : List ℕ} {h h' : Heap (BitVec 64)}, freePages ps h = .ok h' →
    ∀ q j, h'.cell q j = h.cell q j
  | [], h, h', hf, q, j => by
    cases hf
    rfl
  | p :: ps, h, h', hf, q, j => by
    obtain ⟨h1, hp, hf⟩ := bind_eq_ok.mp hf
    unfold pgFree at hp
    split_ifs at hp
    cases hp
    rw [cell_freePages hf, Heap.cell_drop]

theorem TrapProcess.owns_of_freed (hx : x ∈ p.freed) : p.Owns h x := by
  simp only [TrapProcess.freed, List.mem_cons] at hx
  rcases hx with rfl | rfl | rfl | hx
  · exact Or.inl (p.trapframe_mem .userspace)
  · exact Or.inl (p.trapframe_mem .kernelspace)
  · exact Or.inr .root
  · exact Or.inl (List.mem_cons_of_mem _ (List.mem_cons_of_mem _ (List.mem_cons_of_mem _ hx)))

/-- Every step keeps the invariant. -/
theorem SpacesInv.step {e : SpaceEvent} (hs : SpacesInv hartCnt hartStacks s)
    (hg : SpaceGuard src s e) (hstep : SpaceStep src fuel hartCnt hartStacks s e s') :
    SpacesInv hartCnt hartStacks s' := by
  cases hstep with
  | create hnone hnew =>
    obtain ⟨hok, hkept⟩ := SpaceOk.created hnew
    refine hs.update (fun q hq => ?_) fun x hlen _ => ?_
    · cases hq
      exact hok
    · obtain ⟨⟨hfor, hcell⟩, hnot⟩ := hkept x hlen
      refine ⟨hfor.1.trans hlen.symm, hcell, fun q hq hown => ?_⟩
      cases hq
      exact hown.elim hnot hfor.2
  | frame ha hmap =>
    obtain ⟨hok, hfor⟩ := (hs.ok _ _ ha).frameMapped hmap
    have hs' := hs.change ha rfl rfl hfor hok
    rwa [← ha, Function.update_eq_self] at hs'
  | switch ha _ hsw =>
    obtain ⟨hok, hpages, hroot, hfor⟩ := (hs.ok _ _ ha).switched hsw
    exact hs.change ha hpages hroot hfor hok
  | user ha hrun =>
    obtain ⟨hok, hfor⟩ := (hs.ok _ _ ha).userMapped (hg.2 _ ha) hg.1 hrun
    have hs' := hs.change ha rfl rfl hfor hok
    rwa [← ha, Function.update_eq_self] at hs'
  | cleanup ha hfree =>
    refine hs.update (fun q hq => absurd hq (Option.some_ne_none q).symm) fun x _ hnot =>
      ⟨?_, cell_freePages hfree x, fun q hq => absurd hq (Option.some_ne_none q).symm⟩
    exact len_freePages (fun hmem => hnot _ ha (TrapProcess.owns_of_freed hmem)) hfree
  | other hsame hharts =>
    have hkeep := fun b q hb => (hs.ok b q hb).keep (hsame b q hb).1 (hsame b q hb).2
    refine ⟨fun b q hb => (hkeep b q hb).1, fun b c q r hb hc hne x hx hx' => ?_,
      fun hartId hhart x hx => ?_⟩
    · exact hs.apart b c q r hb hc hne x ((hkeep b q hb).2 x hx) ((hkeep c r hc).2 x hx')
    · obtain ⟨hlen, hnot⟩ := hs.harts hartId hhart x hx
      exact ⟨(hharts hartId hhart x hx).trans hlen,
        fun b q hb hown => hnot b q hb ((hkeep b q hb).2 x hown)⟩

end Steps

/-! ## The stacks of the harts -/

section Stacks

variable {src : KernelPages} {fuel hartCnt : ℕ} {hartStacks : HartStacks} {s : KernelSpaces}

/-- The pages that `stack_init` takes are distinct, and in use. -/
theorem fillStacks_ok {list : ℕ} : ∀ {n i : ℕ} {h h' : Heap (BitVec 64)} {pages : List ℕ},
    fillStacks src list i n h = .ok (pages, h') → pages.length = n ∧ pages.Nodup ∧
      (∀ p ∈ pages, h.len p = 0 ∧ h'.len p = 512) ∧ ∀ q, q ∉ pages → h'.len q = h.len q
  | 0, i, h, h', pages, hf => by
    cases hf
    simp
  | n + 1, i, h, h', pages, hf => by
    obtain ⟨⟨p, h1⟩, ha, hf⟩ := bind_eq_ok.mp hf
    obtain ⟨h2, hstore, hf⟩ := bind_eq_ok.mp hf
    obtain ⟨⟨ps, h3⟩, hps, hf⟩ := bind_eq_ok.mp hf
    cases hf
    have hlen2 : ∀ q, h2.len q = h1.len q := fun q => by
      unfold Heap.store at hstore
      split_ifs at hstore
      cases hstore
      rfl
    have hnew := KernelPages.alloc_ok ha
    have hp : h2.len p = 512 := (hlen2 p).trans (hnew.len p List.mem_cons_self)
    obtain ⟨hlength, hnodup, hpages, honly⟩ := fillStacks_ok hps
    have hnot : p ∉ ps := fun hmem => by
      rw [(hpages p hmem).1] at hp
      cases hp
    refine ⟨by rw [List.length_cons, hlength], List.nodup_cons.mpr ⟨hnot, hnodup⟩,
      fun q hq => ?_, fun q hq => ?_⟩
    · rcases List.mem_cons.mp hq with rfl | hq
      · exact ⟨hnew.free q List.mem_cons_self, (honly q hnot).trans hp⟩
      · have hne : q ∉ [p] := by
          rintro hmem
          exact hnot (List.mem_singleton.mp hmem ▸ hq)
        rw [← hnew.only q hne, ← hlen2]
        exact hpages q hq
    · rw [List.mem_cons, not_or] at hq
      rw [honly q hq.2, hlen2, hnew.only q (by simpa using hq.1)]

/-- No page is in the stacks of two harts. -/
def HartsApart (hartCnt : ℕ) (hartStacks : HartStacks) : Prop :=
  ∀ i j, i < hartCnt → j < hartCnt → i ≠ j → ∀ x ∈ hartStacks.pages i, x ∉ hartStacks.pages j

/-- The parts of four of a list without repetitions have nothing in common. -/
theorem not_mem_part {l : List ℕ} (hl : l.Nodup) {i j x : ℕ} (hij : i ≠ j)
    (hi : x ∈ (l.drop (4 * i)).take 4) : x ∉ (l.drop (4 * j)).take 4 := fun hj => by
  obtain ⟨m, hm, rfl⟩ := List.mem_iff_getElem.mp hi
  obtain ⟨n, hn, he⟩ := List.mem_iff_getElem.mp hj
  simp only [List.length_take, List.length_drop] at hm hn
  simp only [List.getElem_take, List.getElem_drop] at he
  have := (hl.getElem_inj_iff).mp he
  omega

theorem SpacesInit.inv (hinit : SpacesInit src hartCnt hartStacks s) :
    SpacesInv hartCnt hartStacks s ∧ HartsApart hartCnt hartStacks := by
  obtain ⟨hnone, h, pages, hstack, hpages⟩ := hinit
  obtain ⟨⟨list, h1⟩, -, hstack⟩ := bind_eq_ok.mp hstack
  obtain ⟨-, hnodup, hlive, -⟩ := fillStacks_ok hstack
  have hproc : ∀ {a p}, s.procs a ≠ some p := fun {a p} ha => by
    rw [hnone] at ha
    cases ha
  refine ⟨⟨fun a p ha => absurd ha hproc, fun a b p q ha => absurd ha hproc,
    fun hartId hhart x hx => ⟨?_, fun a p ha => absurd ha hproc⟩⟩, fun i j hi hj hij x hx => ?_⟩
  · rw [hpages hartId hhart] at hx
    exact (hlive x (List.mem_of_mem_drop (List.mem_of_mem_take hx))).2
  · rw [hpages i hi] at hx
    rw [hpages j hj]
    exact not_mem_part hnodup hij hx

end Stacks

/-! ## A process on a hart -/

end Toastium
