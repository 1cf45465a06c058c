import Toastium.VmaCalls
import Toastium.Reach

/-!
# Runs of mapping calls

A table from `vma_create`, changed by calls of `vma_map_kernel`, `vma_map_user` and
`vma_unmap`, while other code changes memory that is not part of the table. Each call is to
map its range and nothing else (`RangeMapped`), without a panic. It does so in the runs
whose calls are all of a shape that `vma_replace_section` gets right (`Supported`,
`vmaCalls_rangeMapped`).

Other calls go wrong in several ways. The first table is read before it is known to exist,
so a range that starts a block of 1 GiB without a table reads at address 0
(`not_rangeMapped_fresh`). The offsets into the tables are not advanced from one run of
leaves to the next, a table in the way of a leaf is given back through the value of its
entry, and a table of one run of mapped pages is given back while its entry still points
to it.
-/

namespace Toastium

/-- A call that changes a table. -/
inductive MapCall
  | mapKernel (virtAddr size : ℕ) (physAddr accessFlags : BitVec 64)
  | mapUser (virtAddr size : ℕ) (physAddr accessFlags : BitVec 64)
  | unmap (virtAddr size : ℕ)

namespace MapCall

def virtAddr : MapCall → ℕ
  | mapKernel v _ _ _ => v
  | mapUser v _ _ _ => v
  | unmap v _ => v

def size : MapCall → ℕ
  | mapKernel _ n _ _ => n
  | mapUser _ n _ _ => n
  | unmap _ n => n

def physAddr : MapCall → BitVec 64
  | mapKernel _ _ p _ => p
  | mapUser _ _ p _ => p
  | unmap _ _ => 0

/-- The flags of the leaves, 0 for none. -/
def flags : MapCall → BitVec 64
  | mapKernel _ _ _ f => f ||| vmaValid ||| vmaDirty ||| vmaAccessed
  | mapUser _ _ _ f => f ||| vmaValid ||| vmaUser ||| vmaDirty ||| vmaAccessed
  | unmap _ _ => 0

/-- The call on the table `root`. -/
def run (src : KernelPages) (fuel root : ℕ) (h : Heap (BitVec 64)) :
    MapCall → Except (Fault Panic) (Heap (BitVec 64))
  | mapKernel v n p f => vmaMapKernel src fuel root v n p f h
  | mapUser v n p f => vmaMapUser src fuel root v n p f h
  | unmap v n => vmaUnmap src fuel root v n h

theorem run_eq (src : KernelPages) (fuel root : ℕ) (h : Heap (BitVec 64)) (c : MapCall) :
    c.run src fuel root h =
      vmaReplaceSection src fuel root c.virtAddr c.size c.physAddr c.flags h := by
  cases c with
  | mapKernel v n p f => rfl
  | mapUser v n p f => rfl
  | unmap v n => rfl

end MapCall

/-- The memory, and the root of the table in it. -/
structure TableState where
  heap : Heap (BitVec 64)
  root : ℕ

/-- What happens to the memory. -/
inductive TableAct
  /-- A call on the table. -/
  | call (c : MapCall)
  /-- Other code changes the memory. -/
  | other (h : Heap (BitVec 64))

/-- The table is as `vma_create` makes it. -/
def Created (src : KernelPages) (s : TableState) : Prop :=
  ∃ h, vmaCreate src h = .ok (s.root, s.heap)

/-- A call that returns, or a change to the memory that is not part of the table. -/
def TableStep (src : KernelPages) (fuel : ℕ) (s : TableState) : TableAct → TableState → Prop
  | .call c, s' => c.run src fuel s.root s.heap = .ok s'.heap ∧ s'.root = s.root
  | .other h, s' => SameTable s.root s.heap h ∧ s' = ⟨h, s.root⟩

/-- A call with page-aligned arguments that passes the range checks. -/
structure WellFormed (c : MapCall) : Prop where
  range : PageRange c.virtAddr c.size
  phys : 4096 ∣ c.physAddr.toNat

/-- A call that `vma_replace_section` gets right, with pages left for the tables. -/
structure Supported (src : KernelPages) (s : TableState) (c : MapCall) : Prop where
  wellFormed : WellFormed c
  notPinned : NotPinned s.heap s.root (normalVirtAddr c.virtAddr) c.size
  shape : Shape s.heap s.root (normalVirtAddr c.virtAddr) c.size c.physAddr c.flags
  pages : ¬Exhausted src s.heap

/-- The calls of a run are supported. -/
def SupportedAct (src : KernelPages) (s : TableState) : TableAct → Prop
  | .call c => Supported src s c
  | .other _ => True

/-- The call returns, and maps its range. -/
def CallMaps (src : KernelPages) (fuel : ℕ) (s : TableState) (c : MapCall) : Prop :=
  ∃ h', c.run src fuel s.root s.heap = .ok h' ∧
    RangeMapped s.heap s.root c.virtAddr c.size c.physAddr c.flags h'

theorem Supported.run {src : KernelPages} {s : TableState} {c : MapCall} (fuel : ℕ)
    (hs : Supported src s c) (ht : TableOk s.heap s.root) :
    ∃ h', c.run src fuel s.root s.heap = .ok h' ∧ TableOk h' s.root ∧
      RangeMapped s.heap s.root c.virtAddr c.size c.physAddr c.flags h' := by
  rw [c.run_eq]
  rcases ht.replaceSection src fuel hs.wellFormed.range hs.notPinned hs.shape with
    ⟨-, hfree⟩ | ⟨h', hok, ht', hmap, -⟩
  · exact absurd hfree hs.pages
  · exact ⟨h', hok, ht', hmap⟩

/-- The table stays in order along the runs. -/
theorem tableOk_of_reach {src : KernelPages} {fuel : ℕ} {s : TableState}
    (hs : Reach (Created src) (Guarded (SupportedAct src) (TableStep src fuel)) s) :
    TableOk s.heap s.root := by
  refine Reach.invariant (fun s => TableOk s.heap s.root) ?_ ?_ hs
  · rintro ⟨h', root⟩ ⟨h, hcreate⟩
    rcases vmaCreate_spec src h with ⟨-, hpanic⟩ | ⟨root', h'', hok, hinv, hc, -⟩
    · rw [hpanic] at hcreate
      cases hcreate
    · rw [hok] at hcreate
      cases hcreate
      exact ⟨_, hinv, hc⟩
  · rintro s (c | h) s' ht ⟨hsup, hstep⟩
    · obtain ⟨h', hrun, ht', -⟩ := Supported.run fuel hsup ht
      obtain ⟨hrun', hroot⟩ := hstep
      rw [hrun] at hrun'
      cases hrun'
      rw [hroot]
      exact ht'
    · obtain ⟨hsame, rfl⟩ := hstep
      exact (ht.sameTable hsame).1

/-- In every run whose calls are supported, a supported call maps its range and nothing
else. -/
theorem vmaCalls_rangeMapped {src : KernelPages} {fuel : ℕ} {s : TableState}
    (hs : Reach (Created src) (Guarded (SupportedAct src) (TableStep src fuel)) s) {c : MapCall}
    (hc : Supported src s c) : CallMaps src fuel s c := by
  obtain ⟨h', hrun, -, hmap⟩ := hc.run fuel (tableOk_of_reach hs)
  exact ⟨h', hrun, hmap⟩

/-! ## A fresh table -/

/-- The table that `vma_create` makes in an empty memory. -/
def freshTable : TableState :=
  { heap := ((⟨[], fun _ _ => 0⟩ : Heap (BitVec 64)).push 0xffffffc000001000 512).fill
      0xffffffc000001000 256 256 fun i =>
        BitVec.ofNat 64 i <<< 28 ||| (vmaValid ||| vmaRead ||| vmaWrite ||| vmaExec)
    root := 0xffffffc000001000 }

theorem created_freshTable : Created windowPages freshTable := by
  refine ⟨⟨[], fun _ _ => 0⟩, ?_⟩
  have halloc : windowPages.alloc Panic.outOfFreePages (⟨[], fun _ _ => 0⟩ : Heap (BitVec 64)) =
      .ok (0xffffffc000001000, Heap.push ⟨[], fun _ _ => 0⟩ 0xffffffc000001000 512) := rfl
  rw [vmaCreate, halloc, ok_bind]
  dsimp only
  rw [fillLeafs_eq 256 0 (by rw [Heap.len_push_self]) (by omega), ok_bind]
  simp only [Nat.zero_add, Nat.add_zero, pure_eq_ok, freshTable]

theorem windowPages_next {h h' : Heap (BitVec 64)} (hobjs : h'.objs = h.objs) :
    windowPages.next h' = windowPages.next h :=
  Source.next_bumpFrom_congr (by decide) hobjs

theorem not_exhausted_freshTable : ¬Exhausted windowPages freshTable.heap := by
  have h1 : windowPages.next freshTable.heap = some 0xffffffc000002000 := by decide
  have h2 : windowPages.next (freshTable.heap.push 0xffffffc000002000 512) ≠ none := by decide
  rintro (⟨h', hobjs, hnone⟩ | ⟨h0, h', q, hobjs0, hq, hobjs, hnone⟩)
  · rw [windowPages_next hobjs, h1] at hnone
    cases hnone
  · rw [windowPages_next hobjs0, h1] at hq
    cases hq
    exact h2 ((windowPages_next (h := freshTable.heap.push 0xffffffc000002000 512) hobjs).symm.trans
      hnone)

theorem freshTable_unpinned (p i : ℕ) : Unpinned (freshTable.heap.cell p i) := by
  unfold freshTable
  dsimp only
  rw [Heap.cell_fill]
  split_ifs with hin
  · exact windowLeaf_unpinned (by omega)
  · have hzero : (Heap.push ⟨[], fun _ _ => 0⟩ 0xffffffc000001000 512).cell p i =
        (0 : BitVec 64) := by
      rw [Heap.cell_push]
      exact ite_self 0
    rw [hzero]
    decide

/-- A page of the top of a fresh table, as for a trap frame. -/
def topCall : MapCall :=
  .mapKernel 0xffffffffffffe000 4096 0xffffffc080000000 (vmaRead ||| vmaWrite)

theorem supported_topCall : Supported windowPages freshTable topCall where
  wellFormed := ⟨⟨by decide, by decide, by decide, by decide⟩, by decide⟩
  notPinned := ⟨by decide, by decide⟩
  shape := by
    refine ⟨by decide, by decide, by decide, ⟨by decide, by decide, by decide⟩, ?_⟩
    have hx : pageXlate freshTable.heap freshTable.root 0x7ffffff = some (0x3ffffff, 15) := by
      decide
    refine Or.inr (Or.inr ⟨0x7ffffff, by decide, by decide, fun x _ => ?_⟩)
    rw [hx]
    exact fun hc => absurd (Prod.mk.inj (Option.some.inj hc)).2 (by decide)
  pages := not_exhausted_freshTable

/-- The call maps the page. -/
theorem vmaCalls_rangeMapped_topCall :
    Supported windowPages freshTable topCall ∧ CallMaps windowPages 3 freshTable topCall :=
  ⟨supported_topCall, vmaCalls_rangeMapped (.start created_freshTable) supported_topCall⟩

/-- The first page of a fresh table. -/
def bottomCall : MapCall :=
  .mapUser 0 4096 0xffffffc080000000 (vmaRead ||| vmaWrite)

/-- The call is well formed, there is no `VMA_DONT_COMPRESS` leaf in its way and there are
pages left, and it reads at address 0. -/
theorem not_rangeMapped_fresh :
    Reach (Created windowPages) (TableStep windowPages 3) freshTable ∧ WellFormed bottomCall ∧
      (∀ p i, Unpinned (freshTable.heap.cell p i)) ∧ ¬Exhausted windowPages freshTable.heap ∧
      bottomCall.run windowPages 3 freshTable.root freshTable.heap = .error (.wild 0 0) ∧
      ¬CallMaps windowPages 3 freshTable bottomCall := by
  have hrun : bottomCall.run windowPages 3 freshTable.root freshTable.heap =
      .error (.wild 0 0) := rfl
  refine ⟨.start created_freshTable, ⟨⟨by decide, by decide, by decide, by decide⟩, by decide⟩,
    freshTable_unpinned, not_exhausted_freshTable, hrun, ?_⟩
  rintro ⟨h', hok, -⟩
  rw [hrun] at hok
  cases hok

end Toastium
