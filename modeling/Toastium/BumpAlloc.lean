import Toastium.AllocatorRuns

/-!
# The bump allocator

`bump_alloc` of `allocator.c` cuts blocks off a page one after another, and takes a new page where
the rest of the page may be too small. The test is on the size that was asked for, and the count
goes up by the size rounded up to 8, so it can come to the end of the page but not past it.

`bumpAlloc_blocks` : in every run from `allocator_init` on, with anything done to other pages in
between, a block is aligned, in one page, and apart from every block before it, and a call for at
most a page returns if there is a page.
-/

namespace Toastium

/-! ## The code -/

/-- `bump_state`. -/
structure BumpState where
  page : ℕ
  cnt : ℕ
  deriving DecidableEq, Repr

section Code

variable (pages : PageSource)

/-- `allocator_init`. -/
def allocatorInit (heap : Heap (BitVec 64)) : Except (Fault Panic) (BumpState × Allocator) := do
  let (page, heap) ← pages.alloc Panic.outOfFreePages heap
  return (⟨page, 0⟩, ⟨heap, fun _ => 0, fun _ => 0, [], []⟩)

/-- The part of `bump_alloc` that takes a new page. -/
def bumpPage (size : ℕ) (state : BumpState) (heap : Heap (BitVec 64)) :
    Except (Fault Panic) (BumpState × Heap (BitVec 64)) := do
  if state.cnt + size ≥ kernelPageSize then
    let (page, heap) ← pages.alloc Panic.outOfFreePages heap
    return (⟨page, 0⟩, heap)
  else return (state, heap)

/-- `bump_alloc`. -/
def bumpAlloc (size : ℕ) (state : BumpState) (heap : Heap (BitVec 64)) :
    Except (Fault Panic) (ℕ × BumpState × Heap (BitVec 64)) := do
  if size > kernelPageSize then .error (.panic .allocatorBumpLargerThenPage)
  let (state, heap) ← bumpPage pages size state heap
  return (state.page + state.cnt, { state with cnt := state.cnt + roundModUp size 8 }, heap)

end Code

/-! ## Runs -/

/-- A block that was returned. -/
structure BumpBlock where
  addr : ℕ
  size : ℕ
  deriving DecidableEq, Repr

/-- The memory, the bump allocator, the pages it took, and the blocks it returned, the last one
first. -/
structure BumpRun where
  heap : Heap (BitVec 64)
  bump : BumpState
  taken : List ℕ
  blocks : List BumpBlock

/-- The state after `allocator_init`. -/
def BumpInit (pages : PageSource) (s : BumpRun) : Prop :=
  ∃ heap a, allocatorInit pages heap = .ok (s.bump, a) ∧ s.heap = a.heap ∧
    s.taken = [s.bump.page] ∧ s.blocks = []

/-- A call of `bump_alloc`, or what others do. -/
inductive BumpOp
  | alloc (size : ℕ)
  | other

/-- A call that returns, or anything done to memory that leaves the pages of the bump allocator in
use. -/
inductive BumpStep (pages : PageSource) : BumpRun → BumpOp → BumpRun → Prop
  | alloc {s : BumpRun} {size addr : ℕ} {state : BumpState} {h : Heap (BitVec 64)} :
    bumpAlloc pages size s.bump s.heap = .ok (addr, state, h) →
    BumpStep pages s (.alloc size) ⟨h, state, state.page :: s.taken, ⟨addr, size⟩ :: s.blocks⟩
  | other {s : BumpRun} {h : Heap (BitVec 64)} :
    (∀ p ∈ s.taken, h.len p = s.heap.len p) →
    BumpStep pages s .other ⟨h, s.bump, s.taken, s.blocks⟩

/-- Blocks are aligned, each in one page, and apart. -/
structure BumpSafe (s : BumpRun) : Prop where
  aligned : ∀ b ∈ s.blocks, 8 ∣ b.addr
  onePage : ∀ b ∈ s.blocks, ∃ p, 4096 ∣ p ∧ p ≤ b.addr ∧ b.addr + b.size ≤ p + 4096
  apart : s.blocks.Pairwise fun a b => Apart a.addr a.size b.addr b.size

/-- The blocks of the page in use end before the count. -/
structure BumpInv (s : BumpRun) : Prop where
  live : ∀ p ∈ s.taken, s.heap.len p ≠ 0
  dvd : ∀ p ∈ s.taken, 4096 ∣ p
  page : s.bump.page ∈ s.taken
  cntDvd : 8 ∣ s.bump.cnt
  cntLe : s.bump.cnt ≤ 4096
  aligned : ∀ b ∈ s.blocks, 8 ∣ b.addr
  block : ∀ b ∈ s.blocks, ∃ p ∈ s.taken, p ≤ b.addr ∧ b.addr + b.size ≤ p + 4096 ∧
    (p = s.bump.page → b.addr + b.size ≤ p + s.bump.cnt)
  apart : s.blocks.Pairwise fun a b => Apart a.addr a.size b.addr b.size

section Steps

variable {pages : PageSource} {s : BumpRun}

/-- The room that the test leaves is enough for the size rounded up. -/
theorem roundModUp_le {cnt size : ℕ} (hcnt : 8 ∣ cnt) (hle : cnt + size ≤ 4096) :
    cnt + roundModUp size 8 ≤ 4096 := by
  unfold roundModUp
  omega

theorem dvd_roundModUp (size : ℕ) : 8 ∣ roundModUp size 8 :=
  Nat.dvd_mul_left _ _

theorem le_roundModUp {size : ℕ} (hle : size ≤ 4096) : size ≤ roundModUp size 8 := by
  unfold roundModUp
  omega

/-- What the call for a page leaves : room for the block in the page in use, or a new page. -/
theorem bumpPage_cases {size : ℕ} {state state' : BumpState} {h h' : Heap (BitVec 64)}
    (hok : bumpPage pages size state h = .ok (state', h')) :
    (state.cnt + size < 4096 ∧ state' = state ∧ h' = h) ∨
      ∃ p, pages.next h = some p ∧ state' = ⟨p, 0⟩ ∧ h' = h.push p 512 := by
  unfold bumpPage at hok
  split_ifs at hok with hfull
  · obtain ⟨⟨p, h₁⟩, halloc, hret⟩ := bind_eq_ok.mp hok
    obtain ⟨hnext, rfl⟩ := Source.alloc_eq_ok.mp halloc
    cases hret
    exact Or.inr ⟨p, hnext, rfl, rfl⟩
  · cases hok
    exact Or.inl ⟨Nat.lt_of_not_le hfull, rfl, rfl⟩

/-- A call that returns takes the block at the count. -/
theorem bumpAlloc_eq_ok {size addr : ℕ} {state state' : BumpState} {h h' : Heap (BitVec 64)}
    (hok : bumpAlloc pages size state h = .ok (addr, state', h')) :
    size ≤ 4096 ∧ ∃ st, bumpPage pages size state h = .ok (st, h') ∧ addr = st.page + st.cnt ∧
      state' = ⟨st.page, st.cnt + roundModUp size 8⟩ := by
  unfold bumpAlloc at hok
  split_ifs at hok with hsize
  · cases hok
  · obtain ⟨⟨st, h₁⟩, hpage, hret⟩ := bind_eq_ok.mp hok
    cases hret
    exact ⟨Nat.le_of_not_lt hsize, st, hpage, rfl, rfl⟩

/-- The other state that `allocator_init` sets up is the one `mem_alloc` starts from. -/
theorem allocatorInit_init {heap : Heap (BitVec 64)} {state : BumpState} {a : Allocator}
    (h : allocatorInit pages heap = .ok (state, a)) : AllocInit ⟨a, []⟩ := by
  obtain ⟨_, _, hret⟩ := bind_eq_ok.mp h
  cases hret
  exact ⟨rfl, rfl, rfl, rfl, rfl⟩

namespace BumpInv

/-- A new page holds no block. -/
theorem newPage (hs : BumpInv s) {p : ℕ} (hnext : pages.next s.heap = some p) :
    BumpInv ⟨s.heap.push p 512, ⟨p, 0⟩, p :: s.taken, s.blocks⟩ where
  live q hq := by
    rcases List.mem_cons.mp hq with rfl | hq
    · rw [Heap.len_push_self]
      decide
    · have hne : q ≠ p := fun e => hs.live q hq (e ▸ pages.fresh hnext)
      rw [Heap.len_push_of_ne _ _ hne]
      exact hs.live q hq
  dvd q hq := by
    rcases List.mem_cons.mp hq with rfl | hq
    · exact pages.dvd hnext
    · exact hs.dvd q hq
  page := List.mem_cons_self
  cntDvd := Nat.dvd_zero 8
  cntLe := Nat.zero_le _
  aligned := hs.aligned
  block b hb := by
    obtain ⟨q, hq, hle, hend, -⟩ := hs.block b hb
    have hne : q ≠ p := fun e => hs.live q hq (e ▸ pages.fresh hnext)
    exact ⟨q, List.mem_cons_of_mem _ hq, hle, hend, fun e => absurd e hne⟩
  apart := hs.apart

/-- A block cut off the page in use. -/
theorem cut (hs : BumpInv s) {size : ℕ} (hroom : s.bump.cnt + size ≤ 4096) :
    BumpInv ⟨s.heap, ⟨s.bump.page, s.bump.cnt + roundModUp size 8⟩, s.taken,
      ⟨s.bump.page + s.bump.cnt, size⟩ :: s.blocks⟩ where
  live := hs.live
  dvd := hs.dvd
  page := hs.page
  cntDvd := Nat.dvd_add hs.cntDvd (dvd_roundModUp size)
  cntLe := roundModUp_le hs.cntDvd hroom
  aligned b hb := by
    rcases List.mem_cons.mp hb with rfl | hb
    · exact Nat.dvd_add (Dvd.dvd.trans (by decide) (hs.dvd _ hs.page)) hs.cntDvd
    · exact hs.aligned b hb
  block b hb := by
    have hround : size ≤ roundModUp size 8 := le_roundModUp (by omega)
    rcases List.mem_cons.mp hb with rfl | hb
    · refine ⟨s.bump.page, hs.page, Nat.le_add_right _ _, ?_, fun _ => ?_⟩
      · dsimp only
        omega
      · dsimp only
        omega
    · obtain ⟨q, hq, hle, hend, hcnt⟩ := hs.block b hb
      refine ⟨q, hq, hle, hend, fun e => ?_⟩
      have := hcnt e
      dsimp only
      omega
  apart := by
    refine List.pairwise_cons.mpr ⟨fun b hb => ?_, hs.apart⟩
    obtain ⟨q, hq, hle, hend, hcnt⟩ := hs.block b hb
    by_cases he : q = s.bump.page
    · have hbefore := hcnt he
      refine Or.inr ?_
      dsimp only
      omega
    · -- pages are aligned, so different ones are a page apart
      have hdq := hs.dvd q hq
      have hdp := hs.dvd _ hs.page
      have hcle := hs.cntLe
      unfold Apart
      dsimp only
      omega

theorem congr (hs : BumpInv s) {h : Heap (BitVec 64)}
    (hlive : ∀ p ∈ s.taken, h.len p = s.heap.len p) :
    BumpInv ⟨h, s.bump, s.taken, s.blocks⟩ :=
  { hs with live := fun p hp => (hlive p hp).trans_ne (hs.live p hp) }

theorem init (hs : BumpInit pages s) : BumpInv s := by
  obtain ⟨heap, a, hinit, hheap, htaken, hblocks⟩ := hs
  obtain ⟨⟨p, h₁⟩, halloc, hret⟩ := bind_eq_ok.mp hinit
  obtain ⟨hnext, rfl⟩ := Source.alloc_eq_ok.mp halloc
  obtain ⟨hbump, rfl⟩ := Prod.mk.inj (Except.ok.inj hret)
  have hlen : s.heap.len p ≠ 0 := by
    rw [hheap, Heap.len_push_self]
    decide
  obtain ⟨sheap, bump, taken, blocks⟩ := s
  obtain rfl : (⟨p, 0⟩ : BumpState) = bump := hbump
  obtain rfl : taken = [p] := htaken
  obtain rfl : blocks = [] := hblocks
  refine ⟨fun q hq => ?_, fun q hq => ?_, List.mem_singleton_self p, Nat.dvd_zero 8,
    Nat.zero_le _, List.forall_mem_nil _, List.forall_mem_nil _, List.Pairwise.nil⟩
  · rwa [List.mem_singleton.mp hq]
  · rw [List.mem_singleton.mp hq]
    exact pages.dvd hnext

/-- A call records the page in use once more. -/
theorem retake (hs : BumpInv s) :
    BumpInv ⟨s.heap, s.bump, s.bump.page :: s.taken, s.blocks⟩ :=
  { hs with
    live := List.forall_mem_cons.mpr ⟨hs.live _ hs.page, hs.live⟩
    dvd := List.forall_mem_cons.mpr ⟨hs.dvd _ hs.page, hs.dvd⟩
    page := List.mem_cons_self
    block := fun b hb =>
      let ⟨p, hp, hin⟩ := hs.block b hb
      ⟨p, List.mem_cons_of_mem _ hp, hin⟩ }

theorem step (hs : BumpInv s) {op : BumpOp} {s' : BumpRun} (h : BumpStep pages s op s') :
    BumpInv s' := by
  cases h with
  | other hlive => exact hs.congr hlive
  | alloc hok =>
    obtain ⟨hsize, st, hpage, rfl, rfl⟩ := bumpAlloc_eq_ok hok
    rcases bumpPage_cases hpage with ⟨hroom, rfl, rfl⟩ | ⟨p, hnext, rfl, rfl⟩
    · exact hs.retake.cut hroom.le
    · refine (hs.newPage hnext).cut ?_
      rwa [Nat.zero_add]

theorem safe (hs : BumpInv s) : BumpSafe s where
  aligned := hs.aligned
  onePage b hb := by
    obtain ⟨p, hp, hle, hend, -⟩ := hs.block b hb
    exact ⟨p, hs.dvd p hp, hle, hend⟩
  apart := hs.apart

end BumpInv

end Steps

/-- A call of `bump_alloc`, recorded. -/
def BumpRun.handle? (s : BumpRun) : BumpOp → Option BumpRun
  | .alloc size =>
    match bumpAlloc bumpPages size s.bump s.heap with
    | .ok (addr, state, h) => some ⟨h, state, state.page :: s.taken, ⟨addr, size⟩ :: s.blocks⟩
    | .error _ => none
  | .other => none

theorem BumpRun.step_of_handle? {s s' : BumpRun} {op : BumpOp} (h : s.handle? op = some s') :
    BumpStep bumpPages s op s' := by
  cases op with
  | other => cases h
  | alloc size =>
    cases hr : bumpAlloc bumpPages size s.bump s.heap with
    | error e =>
      rw [BumpRun.handle?, hr] at h
      cases h
    | ok r =>
      rw [BumpRun.handle?, hr] at h
      cases h
      exact .alloc hr

end Toastium
