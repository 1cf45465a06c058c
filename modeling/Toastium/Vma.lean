import Toastium.Pte

/-!
# Virtual memory areas

`vma_create`, `vma_map_kernel`, `vma_map_user` and `vma_unmap` of `virtual_memory.c`. They
change a page table of three levels through `vma_replace_section` : `countRuns` cuts the
range into up to five runs of leaves (4 KiB, 2 MiB, 1 GiB, 2 MiB, 4 KiB), and
`replaceRuns` writes them. A leaf in the way of smaller ones is expanded to a table
(`expandLeaf`), a table in the way of a leaf is given back (`destroyBranch`), and a table
that one entry can stand for is replaced by it (`shrinkBranch`).

`sv39Walk` is the walk of the machine, level by level, and `translate` the translation of
a virtual address.

The `sfence.vma` instructions at the end of `vma_replace_section` are in `MmuRuns`.
-/

namespace Toastium

/-- `ppn0_jmp_size`. -/
def ppn0JmpSize : ℕ := 4096

/-- `ppn1_jmp_size`. -/
def ppn1JmpSize : ℕ := 4096 * 512

/-- `ppn2_jmp_size`. -/
def ppn2JmpSize : ℕ := 4096 * 512 * 512

/-! ## Tables -/

/-- `*a`, for a pointer to a word. -/
def loadAddr (h : Heap (BitVec 64)) (a : ℕ) : Except (Fault Panic) (BitVec 64) :=
  if a % 8 = 0 then h.load (a / 4096 * 4096) (a % 4096 / 8) else .error (.wild a 0)

/-- `pg_free`. -/
def pgFree (p : ℕ) (h : Heap (BitVec 64)) : Except (Fault Panic) (Heap (BitVec 64)) :=
  if h.len p = 0 then .error (.panic .doubleFreePage) else .ok (h.drop p)

/-- A loop that writes `leaf k`, … to the entries of a table from `idx + k` on. -/
def fillLeafs (table idx : ℕ) (leaf : ℕ → BitVec 64) :
    ℕ → ℕ → Heap (BitVec 64) → Except (Fault Panic) (Heap (BitVec 64))
  | 0, _, h => .ok h
  | n + 1, k, h => do
    let h ← h.store table (idx + k) (leaf k)
    fillLeafs table idx leaf n (k + 1) h

/-- `expand_leaf` of `&table[idx]`. -/
def expandLeaf (src : KernelPages) (table idx branchJmpSize : ℕ) (h : Heap (BitVec 64)) :
    Except (Fault Panic) (ℕ × Heap (BitVec 64)) := do
  let (newBranch, h) ← src.alloc Panic.outOfFreePages h
  let leaf ← h.load table idx
  let physicalLocation := getPhysLeafLoc leaf
  let flags := getLeafFlags leaf
  if flags &&& vmaDontCompress ≠ 0 then .error (.panic .attemptToExpandNonCompressLeaf)
  let h ← h.store table idx (createBranch newBranch)
  if (← h.load table idx) = 0 then return (newBranch, h)
  let h ← fillLeafs newBranch 0 (fun i =>
    createLeaf (physicalLocation + BitVec.ofNat 64 (i * (branchJmpSize / 512))) flags) 512 0 h
  return (newBranch, h)

/-- `destroy_branch`, to the depth `fuel`. -/
def destroyBranch : ℕ → ℕ → Heap (BitVec 64) → Except (Fault Panic) (Heap (BitVec 64))
  | 0, _, _ => .error .fuel
  | fuel + 1, branchLoc, h => do
    let physicalLoc := getBranchLoc (← loadAddr h branchLoc)
    if physicalLoc = 0 then return h
    let h ← (List.range 512).foldlM (fun h i => do
      let entry ← h.load physicalLoc i
      destroyBranch fuel entry.toNat h) h
    pgFree physicalLoc h

/-- The test of `shrink_branch` for entry `i` of a table whose first entry is `first`. -/
def sameRun (leafJmpSize : ℕ) (first : BitVec 64) (i : ℕ) (e : BitVec 64) : Bool :=
  if first = 0 then e == 0
  else getPhysLeafLoc e == getPhysLeafLoc first + BitVec.ofNat 64 (leafJmpSize * i) &&
    getLeafFlags e == getLeafFlags first && getLeafFlags e &&& vmaDontCompress == 0

/-- `shrink_branch` of `&table[idx]`. The leaf that is created for a table of one run is
not stored. -/
def shrinkBranch (table idx branchJmpSize : ℕ) (h : Heap (BitVec 64)) :
    Except (Fault Panic) (Heap (BitVec 64)) := do
  let branchLeafs := getBranchLoc (← h.load table idx)
  if branchLeafs = 0 then return h
  let first ← h.load branchLeafs 0
  let canShrink ← (List.range 512).foldlM (fun can i => do
    let e ← h.load branchLeafs i
    return can && sameRun (branchJmpSize / 512) first i e) true
  if canShrink then
    if first = 0 then
      let h ← h.store table idx 0
      pgFree branchLeafs h
    else pgFree branchLeafs h
  else return h

/-! ## `vma_replace_section` -/

/-- The lengths of the five runs. -/
structure Runs where
  prePpn0Cnt : ℕ
  prePpn1Cnt : ℕ
  ppn2Cnt : ℕ
  postPpn1Cnt : ℕ
  postPpn0Cnt : ℕ
  deriving DecidableEq, Repr

/-- `highest_reached_ppn` at `cur_virt_addr`. -/
def highestReached (cur highest : ℕ) : ℕ :=
  if cur % ppn2JmpSize = 0 ∧ highest < 2 then 2
  else if cur % ppn2JmpSize = 0 ∧ highest < 1 then 1 else highest

/-- The loop that cuts the range into runs, at most `fuel` times. -/
def countRuns : ℕ → ℕ → ℕ → ℕ → Runs → Except (Fault Panic) Runs
  | 0, left, _, _, r => if left = 0 then .ok r else .error .fuel
  | fuel + 1, left, cur, highest, r =>
    if left = 0 then .ok r
    else if cur % ppn2JmpSize = 0 ∧ left ≥ ppn2JmpSize then
      countRuns fuel (left - ppn2JmpSize) (cur + ppn2JmpSize) (highestReached cur highest)
        { r with ppn2Cnt := r.ppn2Cnt + 1 }
    else if cur % ppn1JmpSize = 0 ∧ left ≥ ppn1JmpSize then
      countRuns fuel (left - ppn1JmpSize) (cur + ppn1JmpSize) (highestReached cur highest)
        (if highestReached cur highest > 1 then { r with postPpn1Cnt := r.postPpn1Cnt + 1 }
        else { r with prePpn1Cnt := r.prePpn1Cnt + 1 })
    else if cur % ppn0JmpSize = 0 ∧ left ≥ ppn0JmpSize then
      countRuns fuel (left - ppn0JmpSize) (cur + ppn0JmpSize) (highestReached cur highest)
        (if highestReached cur highest > 0 then { r with postPpn0Cnt := r.postPpn0Cnt + 1 }
        else { r with prePpn0Cnt := r.prePpn0Cnt + 1 })
    else .error (.panic .badSizeLeftMapping)

/-- The table of `table[idx]`, expanded if there is none and one is needed. -/
def fetchTable (src : KernelPages) (table idx branchJmpSize : ℕ) (needed : Bool)
    (h : Heap (BitVec 64)) : Except (Fault Panic) (ℕ × Heap (BitVec 64)) := do
  let e ← h.load table idx
  if getBranchLoc e = 0 ∧ needed = true then expandLeaf src table idx branchJmpSize h
  else return (getBranchLoc e, h)

/-- A loop that writes `leaf k`, … to the entries of a table from `idx + k` on, and gives
back the tables that were there. -/
def replaceLeafs (fuel table idx : ℕ) (leaf : ℕ → BitVec 64) :
    ℕ → ℕ → Heap (BitVec 64) → Except (Fault Panic) (Heap (BitVec 64))
  | 0, _, h => .ok h
  | n + 1, k, h => do
    let old ← h.load table (idx + k)
    let h ← if getBranchLoc old ≠ 0 then destroyBranch fuel old.toNat h else pure h
    let h ← h.store table (idx + k) (leaf k)
    replaceLeafs fuel table idx leaf n (k + 1) h

/-- The part of `vma_replace_section` that writes the runs. -/
def replaceRuns (src : KernelPages) (fuel root virt : ℕ) (physAddr accessFlags : BitVec 64)
    (r : Runs) (h : Heap (BitVec 64)) : Except (Fault Panic) (Heap (BitVec 64)) := do
  let leaf := fun offset => createLeaf (physAddr + BitVec.ofNat 64 offset) accessFlags
  let ppn2Offset := virt / ppn2JmpSize
  let ppn1Offset := virt % ppn2JmpSize / ppn1JmpSize
  let ppn0Offset := virt % ppn1JmpSize / ppn0JmpSize
  let (prePpn1Table, h) ← fetchTable src root ppn2Offset ppn2JmpSize
    (r.prePpn1Cnt > 0 || r.prePpn0Cnt > 0) h
  let (prePpn0Table, h) ← fetchTable src prePpn1Table ppn1Offset ppn1JmpSize
    (r.prePpn0Cnt > 0) h
  let h ← fillLeafs prePpn0Table ppn0Offset (fun k => leaf (ppn0JmpSize * k)) r.prePpn0Cnt 0 h
  let offset := ppn0JmpSize * r.prePpn0Cnt
  let h ← shrinkBranch prePpn1Table ppn1Offset ppn1JmpSize h
  -- `cur_ppn1_offset` is still the one of the first run
  let h ← replaceLeafs fuel prePpn1Table ppn1Offset (fun k => leaf (offset + ppn1JmpSize * k))
    r.prePpn1Cnt 0 h
  let offset := offset + ppn1JmpSize * r.prePpn1Cnt
  let h ← shrinkBranch root ppn2Offset ppn2JmpSize h
  let h ← replaceLeafs fuel root ppn2Offset (fun k => leaf (offset + ppn2JmpSize * k))
    r.ppn2Cnt 0 h
  let offset := offset + ppn2JmpSize * r.ppn2Cnt
  let ppn2Offset := ppn2Offset + r.ppn2Cnt
  let (postPpn1Table, h) ← fetchTable src root ppn2Offset ppn2JmpSize
    (r.postPpn1Cnt > 0 || r.postPpn0Cnt > 0) h
  let h ← replaceLeafs fuel postPpn1Table 0 (fun k => leaf (offset + ppn1JmpSize * k))
    r.postPpn1Cnt 0 h
  let offset := offset + ppn1JmpSize * r.postPpn1Cnt
  let h ← if r.postPpn0Cnt > 0 then do
      let (postPpn0Table, h) ← fetchTable src postPpn1Table r.postPpn1Cnt ppn1JmpSize
        (r.postPpn0Cnt > 0) h
      let h ← fillLeafs postPpn0Table 0 (fun k => leaf (offset + ppn0JmpSize * k))
        r.postPpn0Cnt 0 h
      shrinkBranch postPpn1Table r.postPpn1Cnt ppn1JmpSize h
    else pure h
  shrinkBranch root ppn2Offset ppn2JmpSize h

/-- `normal_virt_addr`, where the upper half of the address space follows the lower one. -/
def normalVirtAddr (virtAddr : ℕ) : ℕ :=
  if virtAddr ≥ kernelVmaStart then virtAddr - (kernelVmaStart - 0x4000000000) else virtAddr

/-- `vma_replace_section`. -/
def vmaReplaceSection (src : KernelPages) (fuel root virtAddr size : ℕ)
    (physAddr accessFlags : BitVec 64) (h : Heap (BitVec 64)) :
    Except (Fault Panic) (Heap (BitVec 64)) := do
  if size > ppn2JmpSize * 256 then .error (.panic .vmaMappingLargerThenMaxSize)
  if normalVirtAddr virtAddr > 0x4000000000 - size ∧ virtAddr < kernelVmaStart then
    .error (.panic .vmaMappingPastMaxUserspace)
  if normalVirtAddr virtAddr > 0x8000000000 - size ∧ virtAddr ≥ kernelVmaStart then
    .error (.panic .vmaMappingPastMaxKernelspace)
  let runs ← countRuns (size / ppn0JmpSize + 1) size (normalVirtAddr virtAddr) 0 ⟨0, 0, 0, 0, 0⟩
  replaceRuns src fuel root (normalVirtAddr virtAddr) physAddr accessFlags runs h

/-- `vma_map_kernel`. -/
def vmaMapKernel (src : KernelPages) (fuel root virtAddr size : ℕ)
    (physAddr accessFlags : BitVec 64) (h : Heap (BitVec 64)) :
    Except (Fault Panic) (Heap (BitVec 64)) :=
  vmaReplaceSection src fuel root virtAddr size physAddr
    (accessFlags ||| vmaValid ||| vmaDirty ||| vmaAccessed) h

/-- `vma_map_user`. -/
def vmaMapUser (src : KernelPages) (fuel root virtAddr size : ℕ)
    (physAddr accessFlags : BitVec 64) (h : Heap (BitVec 64)) :
    Except (Fault Panic) (Heap (BitVec 64)) :=
  vmaReplaceSection src fuel root virtAddr size physAddr
    (accessFlags ||| vmaValid ||| vmaUser ||| vmaDirty ||| vmaAccessed) h

/-- `vma_unmap`. -/
def vmaUnmap (src : KernelPages) (fuel root virtAddr size : ℕ) (h : Heap (BitVec 64)) :
    Except (Fault Panic) (Heap (BitVec 64)) :=
  vmaReplaceSection src fuel root virtAddr size 0 0 h

/-- `vma_create`. -/
def vmaCreate (src : KernelPages) (h : Heap (BitVec 64)) :
    Except (Fault Panic) (ℕ × Heap (BitVec 64)) := do
  let (newPageAddr, h) ← src.alloc Panic.outOfFreePages h
  let accessMask := vmaValid ||| vmaRead ||| vmaWrite ||| vmaExec
  let h ← fillLeafs newPageAddr 256 (fun i => BitVec.ofNat 64 i <<< 28 ||| accessMask) 256 0 h
  return (newPageAddr, h)

/-! ## The walk of the machine -/

/-- The sv39 walk for the page `vpn`, from a table of level `l` on : the physical page and
the flags of the leaf it ends at, if it does not end in a page fault. -/
def sv39Walk (h : Heap (BitVec 64)) (vpn : ℕ) :
    ℕ → ℕ → Except (Fault Panic) (Option (ℕ × ℕ))
  | l, page => do
    let pte ← h.load page (vpn / 512 ^ l % 512)
    let flags := pteFlags pte
    if pte.toNat ≥ 2 ^ 54 ∨ flags.testBit 0 = false ∨
        flags.testBit 1 = false ∧ flags.testBit 2 = true then return none
    if flags.testBit 1 ∨ flags.testBit 3 then
      return if ptePpn pte % 512 ^ l = 0 then some (ptePpn pte + vpn % 512 ^ l, flags) else none
    match l with
    | 0 => return none
    | l + 1 => sv39Walk h vpn l ((ptePpn pte * 4096 + kernelVmaStart) % 2 ^ 64)

/-- The physical address and the flags of a virtual address, for the table `root`. -/
def translate (h : Heap (BitVec 64)) (root virtAddr : ℕ) :
    Except (Fault Panic) (Option (ℕ × ℕ)) := do
  if 0x4000000000 ≤ virtAddr ∧ virtAddr < kernelVmaStart then return none
  let leaf ← sv39Walk h (virtAddr % 2 ^ 39 / 4096) 2 root
  return leaf.map fun (ppn, flags) => (ppn * 4096 + virtAddr % 4096, flags)

end Toastium
