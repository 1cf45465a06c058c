import Toastium.DeviceTree
import Toastium.Regions

/-!
# The memory regions of the device tree

`find_memory_regions` of `pager.c` collects the free regions from the children of the root
whose names start with `memory`, and the reserved ones from the children of
`/reserved-memory`. It asks `device_tree_prefix_get_child` for one child after another, and
both loops end at the first child that has no child whose name starts with `reg`. Properties
are children as well, and have none.

`findMemoryRegions_iff` : every region is recorded exactly when no node with a `reg` property
comes after such a child. A `/reserved-memory` node with any property before its nodes is
read as empty.
-/

namespace Toastium

/-! ## The code -/

/-- `flip_u64`. -/
def flipU64 (input : BitVec 64) : BitVec 64 :=
  (0x00000000000000FF &&& input) <<< (8 * 7) |||
  (0x000000000000FF00 &&& input) <<< (8 * 5) |||
  (0x0000000000FF0000 &&& input) <<< (8 * 3) |||
  (0x00000000FF000000 &&& input) <<< (8 * 1) |||
  (0x000000FF00000000 &&& input) >>> (8 * 1) |||
  (0x0000FF0000000000 &&& input) >>> (8 * 3) |||
  (0x00FF000000000000 &&& input) >>> (8 * 5) |||
  (0xFF00000000000000 &&& input) >>> (8 * 7)

/-- `endian_type`, as `init_endian_conversion` leaves it on a little-endian machine. -/
def endianType : ℕ := 1

/-- `big_endian_u64_to_host`. -/
def bigEndianU64ToHost (bigEndian : BitVec 64) : BitVec 64 :=
  if endianType = 0 then bigEndian else flipU64 bigEndian

section Code

variable (dtb : ℕ → BitVec 8) (mem : ℕ → DeviceInfo)

/-- The region in the value of a property. -/
def regionAt (value : ℕ) : MemoryRegion where
  start := bigEndianU64ToHost (loadU64 dtb value) + BitVec.ofNat 64 kernelVmaStart
  size := bigEndianU64ToHost (loadU64 dtb (value + 8))

/-- A loop of `find_memory_regions`, over the children of `parent` from number `memIter` on, at
most `fuel` times. The regions are written to an array of 32 entries. -/
def collectRegions (limit parent : ℕ) (pre : List (BitVec 8)) :
    ℕ → ℕ → List MemoryRegion → Except (Fault Panic) (List MemoryRegion)
  | 0, _, _ => .error .fuel
  | fuel + 1, memIter, regions => do
    let memory ← deviceTreePrefixGetChild dtb mem limit parent pre memIter
    if memory = 0 then return regions
    let memoryReg ← deviceTreePrefixGetChild dtb mem limit memory (bytesOf ['r', 'e', 'g']) 0
    if memoryReg = 0 then return regions
    if maxMemoryRegions ≤ regions.length then .error (.wild 0 regions.length)
    collectRegions limit parent pre fuel (memIter + 1)
      (regions ++ [regionAt dtb (mem memoryReg).value])

/-- `"memory"`. -/
def memoryName : List (BitVec 8) :=
  bytesOf ['m', 'e', 'm', 'o', 'r', 'y']

/-- `"reserved-memory"`. -/
def reservedMemoryName : List (BitVec 8) :=
  bytesOf ['r', 'e', 's', 'e', 'r', 'v', 'e', 'd', '-', 'm', 'e', 'm', 'o', 'r', 'y']

/-- `memory_region_list`. -/
structure MemoryRegionList where
  reserved : List MemoryRegion
  free : List MemoryRegion
  deriving DecidableEq, Repr

/-- `find_memory_regions`, for a list that is empty, as `pager_init` calls it. -/
def findMemoryRegions (fuel device : ℕ) : Except (Fault Panic) MemoryRegionList := do
  let free ← collectRegions dtb mem fuel device memoryName fuel 0 []
  let rootReservedMemory ← deviceTreePrefixGetChild dtb mem fuel device reservedMemoryName 0
  if rootReservedMemory = 0 then .error (.panic .noReservedMemory)
  let reserved ← collectRegions dtb mem fuel rootReservedMemory [] fuel 0 []
  return ⟨reserved, free⟩

end Code

section Spec

variable (dtb : ℕ → BitVec 8) (mem : ℕ → DeviceInfo) (kids : ℕ → List ℕ)

/-- A node, not a property, of this name. -/
structure IsNode (d : ℕ) (name : List (BitVec 8)) : Prop where
  node : (mem d).isLeaf = false
  named : BytesAt dtb (mem d).name (name ++ [0])

/-- The `reg` property of a node, a property of exactly this name. -/
def regProperty (n : ℕ) : Option ℕ :=
  (kids n).find? fun d => (mem d).isLeaf && strStartsWith dtb (mem d).name
    (bytesOf ['r', 'e', 'g'] ++ [0])

/-- Two big-endian cells. -/
def twoCells (p : ℕ) : BitVec 64 :=
  BitVec.ofNat 64 (dtbReadInt dtb p * 2 ^ 32 + dtbReadInt dtb (p + 4))

/-- The region of a node : two cells of address and two of size, of its `reg` property. The
start is where the kernel maps it. -/
def nodeRegion (n : ℕ) : MemoryRegion :=
  let value := (mem ((regProperty dtb mem kids n).getD 0)).value
  ⟨twoCells dtb value + BitVec.ofNat 64 kernelVmaStart, twoCells dtb (value + 8)⟩

/-- The devices of `l` that have a `reg` property. -/
def withReg (l : List ℕ) : List ℕ :=
  l.filter fun n => (regProperty dtb mem kids n).isSome

/-- The first child whose name starts with `reg`, NULL if there is none. -/
def regChild (d : ℕ) : ℕ :=
  (startingWith dtb mem (bytesOf ['r', 'e', 'g']) (kids d)).headD 0

/-- The devices of `l` up to the first without a child whose name starts with `reg`. -/
def collected (l : List ℕ) : List ℕ :=
  l.takeWhile fun d => regChild dtb mem kids d ≠ 0

/-- The regions in the first `reg` children of these devices. -/
def collectedRegions (l : List ℕ) : List MemoryRegion :=
  (collected dtb mem kids l).map fun d => regionAt dtb (mem (regChild dtb mem kids d)).value

/-- What is recorded for the nodes `nodes` among the children of `parent` : the region of each,
in order, and each of them is a child that the loop comes to. -/
structure Records (fuel parent : ℕ) (pre : List (BitVec 8)) (nodes : List ℕ)
    (regions : List MemoryRegion) : Prop where
  eq_map : regions = nodes.map (nodeRegion dtb mem kids)
  reached : ∀ n ∈ nodes, ∃ i < regions.length,
    deviceTreePrefixGetChild dtb mem fuel parent pre i = .ok n

/-- `find_memory_regions` records one free region for each child of the root whose name starts
with `memory` and that has a `reg` property, and one reserved region for each child of
`reserved` that has one. -/
def FindsRegions (fuel root reserved : ℕ) : Prop :=
  ∃ r, findMemoryRegions dtb mem fuel root = .ok r ∧
    Records dtb mem kids fuel root memoryName
      (withReg dtb mem kids (startingWith dtb mem memoryName (kids root))) r.free ∧
    ∃ parent, deviceTreePrefixGetChild dtb mem fuel root reservedMemoryName 0 = .ok parent ∧
      Records dtb mem kids fuel parent [] (withReg dtb mem kids (kids reserved)) r.reserved

/-- Of the devices `cands`, those up to the first without a child whose name starts with `reg`
are the nodes `nodes`, and the first such child of each holds the region of the node. -/
structure CollectsAll (cands nodes : List ℕ) : Prop where
  reached : ∀ n ∈ nodes, n ∈ collected dtb mem kids cands
  regs : ∀ d ∈ collected dtb mem kids cands, d ∈ nodes ∧
    regionAt dtb (mem (regChild dtb mem kids d)).value = nodeRegion dtb mem kids d

end Spec

/-! ## Cells -/

theorem getLsbD_flipU64 (x : BitVec 64) {i : ℕ} (hi : i < 64) :
    (flipU64 x).getLsbD i = x.getLsbD (8 * (7 - i / 8) + i % 8) := by
  unfold flipU64
  interval_cases i <;> simp

/-- The word of eight bytes, the highest last, is flipped to the word of the bytes. -/
theorem flipU64_bytes (b : Fin 8 → BitVec 8) :
    flipU64 (b 7 ++ b 6 ++ b 5 ++ b 4 ++ b 3 ++ b 2 ++ b 1 ++ b 0) =
      b 0 ++ b 1 ++ b 2 ++ b 3 ++ b 4 ++ b 5 ++ b 6 ++ b 7 := by
  refine BitVec.eq_of_getLsbD_eq fun i hi => ?_
  have hrev := getLsbD_bytes (fun j => b (7 - j)) hi
  have hbyte : (8 * (7 - i / 8) + i % 8) / 8 = 7 - i / 8 := by omega
  have hbit : (8 * (7 - i / 8) + i % 8) % 8 = i % 8 := by omega
  rw [getLsbD_flipU64 _ hi, getLsbD_bytes b (by omega)]
  refine Eq.trans ?_ hrev.symm
  simp only [hbit]
  congr 2
  ext
  simp only [hbyte]
  rw [Fin.sub_val_of_le]
  · rfl
  · change i / 8 ≤ 7
    omega

theorem toNat_append_eq_add {w v : ℕ} (x : BitVec w) (y : BitVec v) :
    (x ++ y).toNat = x.toNat * 2 ^ v + y.toNat := by
  rw [BitVec.toNat_append, ← Nat.shiftLeft_add_eq_or_of_lt y.isLt, Nat.shiftLeft_eq]

/-- A big-endian word of a property is its two cells. -/
theorem bigEndianU64ToHost_loadU64 (dtb : ℕ → BitVec 8) (p : ℕ) :
    bigEndianU64ToHost (loadU64 dtb p) = twoCells dtb p := by
  have hflip := flipU64_bytes fun i => dtb (p + i)
  have hload : bigEndianU64ToHost (loadU64 dtb p) = dtb p ++ dtb (p + 1) ++ dtb (p + 2) ++
      dtb (p + 3) ++ dtb (p + 4) ++ dtb (p + 5) ++ dtb (p + 6) ++ dtb (p + 7) := hflip
  rw [hload]
  apply BitVec.eq_of_toNat_eq
  have := (dtb p).isLt
  have := (dtb (p + 1)).isLt
  have := (dtb (p + 2)).isLt
  have := (dtb (p + 3)).isLt
  have := (dtb (p + 4)).isLt
  have := (dtb (p + 5)).isLt
  have := (dtb (p + 6)).isLt
  have := (dtb (p + 7)).isLt
  simp only [toNat_append_eq_add]
  rw [twoCells, dtbReadInt_eq, dtbReadInt_eq, BitVec.toNat_ofNat, Nat.mod_eq_of_lt]
  · simp only [Nat.add_assoc, Nat.reduceAdd]
    ring
  · simp only [Nat.add_assoc, Nat.reduceAdd]
    omega

theorem regionAt_eq (dtb : ℕ → BitVec 8) (value : ℕ) :
    regionAt dtb value =
      ⟨twoCells dtb value + BitVec.ofNat 64 kernelVmaStart, twoCells dtb (value + 8)⟩ := by
  rw [regionAt, bigEndianU64ToHost_loadU64, bigEndianU64ToHost_loadU64]

/-! ## Children -/

section Children

variable {dtb : ℕ → BitVec 8} {mem : ℕ → DeviceInfo} {kids : ℕ → List ℕ} {devices : List ℕ}

theorem DeviceTree.regChild (ht : DeviceTree mem devices kids) {fuel d : ℕ}
    (hd : d ∈ devices) (hfuel : (kids d).length < fuel) :
    deviceTreePrefixGetChild dtb mem fuel d (bytesOf ['r', 'e', 'g']) 0 =
      .ok (regChild dtb mem kids d) := by
  rw [ht.prefixGetChild hd hfuel, Toastium.regChild, List.headD_eq_head?_getD,
    List.head?_eq_getElem?]

/-- The loop records the first `reg` child of each candidate, up to the first that has none, if
there is room for them. -/
theorem DeviceTree.collectRegions (ht : DeviceTree mem devices kids) {limit parent : ℕ}
    (hparent : parent ∈ devices) (hlimit : ∀ d ∈ devices, (kids d).length < limit)
    (pre : List (BitVec 8)) :
    ∀ {l : List ℕ} {fuel i : ℕ} {regions : List MemoryRegion},
      (startingWith dtb mem pre (kids parent)).drop i = l → l.length < fuel →
      regions.length ≤ maxMemoryRegions →
      collectRegions dtb mem limit parent pre fuel i regions =
        if regions.length + (collected dtb mem kids l).length ≤ maxMemoryRegions then
          .ok (regions ++ collectedRegions dtb mem kids l)
        else .error (.wild 0 maxMemoryRegions)
  | [], fuel + 1, i, regions, hl, _, hroom => by
    have hchild : (startingWith dtb mem pre (kids parent))[i]? = none :=
      List.getElem?_eq_none (List.drop_eq_nil_iff.1 hl)
    rw [Toastium.collectRegions, ht.prefixGetChild hparent (hlimit _ hparent), hchild, ok_bind,
      Option.getD_none, if_pos rfl]
    simp only [collectedRegions, collected, List.takeWhile_nil, List.length_nil, Nat.add_zero,
      if_pos hroom, List.map_nil, List.append_nil]
    rfl
  | d :: l, fuel + 1, i, regions, hl, hfuel, hroom => by
    have hchild : (startingWith dtb mem pre (kids parent))[i]? = some d := by
      rw [← List.head?_drop, hl, List.head?_cons]
    have hkid : d ∈ kids parent := List.mem_of_mem_filter (List.mem_of_getElem? hchild)
    have hd := ht.mem_of_kid parent hparent d hkid
    have hne := (ht.siblings parent hparent).ne_zero d hkid
    rw [List.length_cons] at hfuel
    rw [Toastium.collectRegions, ht.prefixGetChild hparent (hlimit _ hparent), hchild, ok_bind,
      Option.getD_some, if_neg hne, ht.regChild hd (hlimit d hd), ok_bind]
    by_cases hreg : Toastium.regChild dtb mem kids d = 0
    · have hnil : collected dtb mem kids (d :: l) = [] := by
        simp only [collected, List.takeWhile_cons, hreg, ne_eq, not_true_eq_false, decide_false,
          Bool.false_eq_true, if_false]
      rw [if_pos hreg, collectedRegions, hnil, List.length_nil, Nat.add_zero, if_pos hroom,
        List.map_nil, List.append_nil]
      rfl
    · have hcons : collected dtb mem kids (d :: l) = d :: collected dtb mem kids l := by
        simp only [collected, List.takeWhile_cons, hreg, ne_eq, not_false_eq_true, decide_true,
          if_true]
      rw [if_neg hreg, collectedRegions, hcons, List.length_cons]
      by_cases hfull : maxMemoryRegions ≤ regions.length
      · rw [if_pos hfull, if_neg (by omega), show regions.length = maxMemoryRegions by omega]
        rfl
      · have hdrop : (startingWith dtb mem pre (kids parent)).drop (i + 1) = l := by
          rw [← List.tail_drop, hl, List.tail_cons]
        rw [if_neg hfull]
        refine (ht.collectRegions hparent hlimit pre hdrop (by omega)
          (by rw [List.length_append, List.length_singleton]; omega)).trans ?_
        rw [collectedRegions, List.length_append, List.length_singleton, List.append_assoc,
          List.singleton_append, List.map_cons, Nat.add_assoc, Nat.add_comm 1]

/-- Nodes that are all collected are collected in order. -/
theorem sublist_collected {cands nodes : List ℕ} (hnodup : cands.Nodup)
    (hnodes : nodes = withReg dtb mem kids cands ∨ ∀ n ∈ nodes, n ∉ cands)
    (hreached : ∀ n ∈ nodes, n ∈ collected dtb mem kids cands) :
    nodes.Sublist (collected dtb mem kids cands) := by
  have hpre : collected dtb mem kids cands <+: cands := List.takeWhile_prefix _
  rcases hnodes with rfl | hapart
  · obtain ⟨rest, hrest⟩ := hpre
    rw [← hrest, List.nodup_append] at hnodup
    have hnil : withReg dtb mem kids rest = [] := by
      refine List.eq_nil_iff_forall_not_mem.2 fun n hn => ?_
      have hmem : n ∈ withReg dtb mem kids cands := by
        rw [← hrest, withReg, List.filter_append]
        exact List.mem_append_right _ hn
      exact hnodup.2.2 n (hreached n hmem) n (List.mem_of_mem_filter hn) rfl
    have hsplit : withReg dtb mem kids cands =
        withReg dtb mem kids (collected dtb mem kids cands) := by
      conv_lhs => rw [← hrest, withReg, List.filter_append]
      exact (congrArg _ hnil).trans (List.append_nil _)
    rw [hsplit]
    exact List.filter_sublist
  · have hnil : nodes = [] := List.eq_nil_iff_forall_not_mem.2 fun n hn =>
      hapart n hn (hpre.subset (hreached n hn))
    rw [hnil]
    exact List.nil_sublist _

/-- The regions of the nodes are recorded exactly when the loop collects the nodes. -/
theorem DeviceTree.records_iff (ht : DeviceTree mem devices kids) {fuel parent : ℕ}
    (hparent : parent ∈ devices) (hfuel : ∀ d ∈ devices, (kids d).length < fuel)
    {pre : List (BitVec 8)} {nodes : List ℕ}
    (hnodes : nodes = withReg dtb mem kids (startingWith dtb mem pre (kids parent)) ∨
      ∀ n ∈ nodes, n ∉ startingWith dtb mem pre (kids parent)) :
    Records dtb mem kids fuel parent pre nodes
      (collectedRegions dtb mem kids (startingWith dtb mem pre (kids parent))) ↔
      CollectsAll dtb mem kids (startingWith dtb mem pre (kids parent)) nodes := by
  have hnodup : (startingWith dtb mem pre (kids parent)).Nodup :=
    (ht.nodup parent hparent).filter _
  have hpre : collected dtb mem kids (startingWith dtb mem pre (kids parent)) <+:
      startingWith dtb mem pre (kids parent) := List.takeWhile_prefix _
  have hchild : ∀ i, deviceTreePrefixGetChild dtb mem fuel parent pre i =
      .ok ((startingWith dtb mem pre (kids parent))[i]?.getD 0) :=
    ht.prefixGetChild hparent (hfuel parent hparent) pre
  generalize startingWith dtb mem pre (kids parent) = cands at *
  have hnodup' : (collected dtb mem kids cands).Nodup := hnodup.sublist hpre.sublist
  have hget : ∀ i (hi : i < (collected dtb mem kids cands).length),
      deviceTreePrefixGetChild dtb mem fuel parent pre i =
        .ok (collected dtb mem kids cands)[i] := fun i hi => by
    rw [hchild, List.getElem?_eq_getElem (hi.trans_le hpre.length_le), Option.getD_some,
      hpre.getElem hi]
  constructor
  · rintro ⟨heq, hreached⟩
    have hmem : ∀ n ∈ nodes, n ∈ collected dtb mem kids cands := fun n hn => by
      obtain ⟨i, hi, hn⟩ := hreached n hn
      rw [collectedRegions, List.length_map] at hi
      rw [hget i hi] at hn
      exact Except.ok.inj hn ▸ List.getElem_mem hi
    have hlength := congrArg List.length heq
    rw [collectedRegions, List.length_map, List.length_map] at hlength
    obtain rfl := (sublist_collected hnodup hnodes hmem).eq_of_length hlength.symm
    exact ⟨hmem, fun d hd => ⟨hd, List.map_inj_left.1 heq d hd⟩⟩
  · rintro ⟨hreached, hregs⟩
    have hsub := sublist_collected hnodup hnodes hreached
    obtain rfl := hsub.eq_of_length_le
      (hnodup'.subperm fun d hd => (hregs d hd).1).length_le
    refine ⟨List.map_congr_left fun d hd => (hregs d hd).2, fun n hn => ?_⟩
    obtain ⟨i, hi, rfl⟩ := List.getElem_of_mem hn
    exact ⟨i, by rwa [collectedRegions, List.length_map], hget i hi⟩

/-- Nodes that are collected are as many as the devices that are collected. -/
theorem CollectsAll.length_le {cands nodes : List ℕ} (h : CollectsAll dtb mem kids cands nodes)
    (hnodup : cands.Nodup) : (collected dtb mem kids cands).length ≤ nodes.length :=
  ((hnodup.sublist (List.takeWhile_sublist _)).subperm fun d hd => (h.regs d hd).1).length_le

/-- The loop over all children. -/
theorem DeviceTree.collectRegions_all (ht : DeviceTree mem devices kids) {fuel parent : ℕ}
    (hparent : parent ∈ devices) (hfuel : ∀ d ∈ devices, (kids d).length < fuel)
    (pre : List (BitVec 8)) :
    Toastium.collectRegions dtb mem fuel parent pre fuel 0 [] =
      if (collected dtb mem kids (startingWith dtb mem pre (kids parent))).length ≤
          maxMemoryRegions then
        .ok (collectedRegions dtb mem kids (startingWith dtb mem pre (kids parent)))
      else .error (.wild 0 maxMemoryRegions) := by
  have hlt : (startingWith dtb mem pre (kids parent)).length < fuel :=
    (List.length_filter_le _ _).trans_lt (hfuel parent hparent)
  have hroom : ([] : List MemoryRegion).length ≤ maxMemoryRegions := Nat.zero_le _
  have hloop := ht.collectRegions hparent hfuel pre List.drop_zero hlt hroom
  rwa [List.length_nil, Nat.zero_add, List.nil_append] at hloop

/-- Both loops record what they collect, if there is room for it. -/
theorem DeviceTree.findMemoryRegions (ht : DeviceTree mem devices kids) {fuel root parent : ℕ}
    (hroot : root ∈ devices) (hfuel : ∀ d ∈ devices, (kids d).length < fuel)
    (hparent : parent ∈ kids root)
    (hget : deviceTreePrefixGetChild dtb mem fuel root reservedMemoryName 0 = .ok parent) :
    findMemoryRegions dtb mem fuel root =
      if (collected dtb mem kids (startingWith dtb mem memoryName (kids root))).length ≤
          maxMemoryRegions ∧
        (collected dtb mem kids (startingWith dtb mem [] (kids parent))).length ≤
          maxMemoryRegions then
        .ok ⟨collectedRegions dtb mem kids (startingWith dtb mem [] (kids parent)),
          collectedRegions dtb mem kids (startingWith dtb mem memoryName (kids root))⟩
      else .error (.wild 0 maxMemoryRegions) := by
  have hdev := ht.mem_of_kid root hroot parent hparent
  have hne := (ht.siblings root hroot).ne_zero parent hparent
  rw [Toastium.findMemoryRegions, ht.collectRegions_all hroot hfuel]
  by_cases hfree : (collected dtb mem kids (startingWith dtb mem memoryName (kids root))).length ≤
      maxMemoryRegions
  · rw [if_pos hfree, ok_bind, hget, ok_bind, if_neg hne, ht.collectRegions_all hdev hfuel]
    by_cases hroom : (collected dtb mem kids (startingWith dtb mem [] (kids parent))).length ≤
        maxMemoryRegions
    · rw [if_pos hroom, if_pos ⟨hfree, hroom⟩]
      rfl
    · rw [if_neg hroom, if_neg fun h => hroom h.2]
      rfl
  · rw [if_neg hfree, if_neg fun h => hfree h.1]
    rfl

end Children

/-! ## Both loops -/

/-- `find_memory_regions` records the regions of all memory nodes and of all nodes of
`/reserved-memory` exactly when, among the children of the root whose names start with `memory`
and among the children of the first whose name starts with `reserved-memory`, those up to the
first without a `reg` child are all nodes with a `reg` property, and none comes later. -/
theorem findMemoryRegions_iff {dtb : ℕ → BitVec 8} {mem : ℕ → DeviceInfo} {kids : ℕ → List ℕ}
    {devices : List ℕ} (ht : DeviceTree mem devices kids) {fuel root reserved : ℕ}
    (hroot : root ∈ devices) (hfuel : ∀ d ∈ devices, (kids d).length < fuel)
    (hreserved : reserved ∈ kids root) (hnode : IsNode dtb mem reserved reservedMemoryName)
    (hfree : (withReg dtb mem kids (startingWith dtb mem memoryName (kids root))).length ≤
      maxMemoryRegions)
    (hroom : (withReg dtb mem kids (kids reserved)).length ≤ maxMemoryRegions) :
    FindsRegions dtb mem kids fuel root reserved ↔
      CollectsAll dtb mem kids (startingWith dtb mem memoryName (kids root))
          (withReg dtb mem kids (startingWith dtb mem memoryName (kids root))) ∧
        CollectsAll dtb mem kids
          (kids ((startingWith dtb mem reservedMemoryName (kids root)).headD 0))
          (withReg dtb mem kids (kids reserved)) := by
  have hmatch : reserved ∈ startingWith dtb mem reservedMemoryName (kids root) :=
    List.mem_filter.2 ⟨hreserved, strStartsWith_iff.2 (bytesAt_append.1 hnode.named).1⟩
  obtain ⟨parent, others, hparents⟩ := List.exists_cons_of_ne_nil (List.ne_nil_of_mem hmatch)
  have hkid : parent ∈ kids root := by
    refine List.mem_of_mem_filter (?_ : parent ∈ startingWith dtb mem reservedMemoryName _)
    rw [hparents]
    exact List.mem_cons_self
  have hparent := ht.mem_of_kid root hroot parent hkid
  have hget : deviceTreePrefixGetChild dtb mem fuel root reservedMemoryName 0 = .ok parent := by
    rw [ht.prefixGetChild hroot (hfuel root hroot), hparents]
    rfl
  have hall : startingWith dtb mem [] (kids parent) = kids parent :=
    List.filter_eq_self.2 fun _ _ => rfl
  -- the loop runs over another node than `/reserved-memory` if that one comes first
  have hnodes : withReg dtb mem kids (kids reserved) =
        withReg dtb mem kids (startingWith dtb mem [] (kids parent)) ∨
      ∀ n ∈ withReg dtb mem kids (kids reserved), n ∉ startingWith dtb mem [] (kids parent) := by
    rw [hall]
    rcases eq_or_ne parent reserved with rfl | hother
    · exact .inl rfl
    · exact .inr fun n hn hn' => hother <| ht.parent parent hparent reserved
        (ht.mem_of_kid root hroot reserved hreserved) n hn' (List.mem_of_mem_filter hn)
  have hiff := ht.records_iff hparent hfuel hnodes
  have hiff' := ht.records_iff hroot hfuel (.inl (Eq.refl
    (withReg dtb mem kids (startingWith dtb mem memoryName (kids root)))))
  have hnodup : (kids parent).Nodup := ht.nodup parent hparent
  have hnodup' : (startingWith dtb mem memoryName (kids root)).Nodup :=
    (ht.nodup root hroot).filter _
  rw [hparents, List.headD_cons, ← hall]
  unfold FindsRegions
  rw [ht.findMemoryRegions hroot hfuel hkid hget, hget]
  constructor
  · rintro ⟨r, hr, hrec, p, hp, hrec'⟩
    obtain rfl := Except.ok.inj hp
    split_ifs at hr with hfits
    obtain rfl := Except.ok.inj hr
    exact ⟨hiff'.1 hrec, hiff.1 hrec'⟩
  · rintro ⟨hcoll, hcoll'⟩
    rw [if_pos ⟨(hcoll.length_le hnodup').trans hfree,
      (hcoll'.length_le (hall.symm ▸ hnodup)).trans hroom⟩]
    exact ⟨_, rfl, hiff'.2 hcoll, parent, rfl, hiff.2 hcoll'⟩

/-! ### A `/reserved-memory` node with a property -/

/-- Names and values of a device tree. -/
def cellsBytes : List (BitVec 8) :=
  bytesOf ['r', 'e', 'g'] ++ [0] ++
  bytesOf ['#', 's', 'i', 'z', 'e', '-', 'c', 'e', 'l', 'l', 's'] ++ [0] ++
  memoryName ++ [0, 0] ++ reservedMemoryName ++ [0] ++ bytesOf ['f', 'w'] ++ [0, 0] ++
  wordBytes 0 ++ wordBytes 0x80000000 ++ wordBytes 0 ++ wordBytes 0x8000000 ++
  wordBytes 0 ++ wordBytes 0x80000000 ++ wordBytes 0 ++ wordBytes 0x40000

/-- A device tree with a memory node and with a `/reserved-memory` node that has a property and
a node, each of these nodes with a `reg` property. -/
def cellsMem : ℕ → DeviceInfo
  | 48 => ⟨96, 0, 3, false, 0, 0⟩
  | 96 => ⟨144, 192, 16, false, 0, 0⟩
  | 144 => ⟨0, 0, 0, true, 44, 16⟩
  | 192 => ⟨240, 0, 24, false, 0, 0⟩
  | 240 => ⟨0, 288, 4, true, 0, 4⟩
  | 288 => ⟨336, 0, 40, false, 0, 0⟩
  | 336 => ⟨0, 0, 0, true, 60, 16⟩
  | _ => ⟨0, 0, 0, false, 0, 0⟩

/-- The children of its devices. -/
def cellsKids : ℕ → List ℕ
  | 48 => [96, 192]
  | 96 => [144]
  | 192 => [240, 288]
  | 288 => [336]
  | _ => []

/-- Its bytes. -/
def cellsDtb (p : ℕ) : BitVec 8 :=
  cellsBytes.getD p 0

/-- The node is not recorded, as the property before it ends the loop. -/
theorem not_findsRegions_cells : ¬FindsRegions cellsDtb cellsMem cellsKids 3 48 192 := by
  have hrun : findMemoryRegions cellsDtb cellsMem 3 48 =
      .ok ⟨[], [⟨0xffffffc080000000, 0x8000000⟩]⟩ := by decide +kernel
  have hnodes : withReg cellsDtb cellsMem cellsKids (cellsKids 192) = [288] := by decide
  rintro ⟨r, hr, -, parent, -, hrec⟩
  obtain rfl := Except.ok.inj (hrun.symm.trans hr)
  have heq := hrec.eq_map
  rw [hnodes] at heq
  exact absurd heq (List.cons_ne_nil _ _).symm

theorem findMemoryRegions_iff_cells :
    FindsRegions cellsDtb cellsMem cellsKids 3 48 192 ↔
      CollectsAll cellsDtb cellsMem cellsKids
          (startingWith cellsDtb cellsMem memoryName (cellsKids 48))
          (withReg cellsDtb cellsMem cellsKids
            (startingWith cellsDtb cellsMem memoryName (cellsKids 48))) ∧
        CollectsAll cellsDtb cellsMem cellsKids
          (cellsKids ((startingWith cellsDtb cellsMem reservedMemoryName (cellsKids 48)).headD 0))
          (withReg cellsDtb cellsMem cellsKids (cellsKids 192)) :=
  have htree : DeviceTree cellsMem [48, 96, 144, 192, 240, 288, 336] cellsKids :=
    ⟨by decide, by decide, by decide, by decide, by decide⟩
  findMemoryRegions_iff htree (by decide) (by decide) (by decide)
    ⟨rfl, by unfold BytesAt; decide⟩ (by decide) (by decide)

end Toastium
