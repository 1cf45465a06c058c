import Toastium.VmaSpec

/-!
# The calls of `virtual_memory.c`

`vma_replace_section` as a whole, on a call whose range is of one of three shapes
(`Shape`). `countRuns` cuts such a range as the three lemmas of the previous module need
it, so the call maps the range (`vmaReplaceSection_spec`). The table that `vma_create`
makes is the tree with a root only (`vmaCreate_spec`), and `translate` is read off the tree
(`TableInv.translate_eq`).
-/

namespace Toastium

/-! ## The runs of a range -/

theorem countRuns_zero (fuel cur highest : ℕ) (r : Runs) :
    countRuns fuel 0 cur highest r = .ok r := by
  cases fuel with
  | zero => rfl
  | succ fuel => rfl

theorem countRuns_ppn1 {left cur : ℕ} (fuel highest : ℕ) (r : Runs)
    (h2 : cur % ppn2JmpSize = 0 → left < ppn2JmpSize) (h1 : cur % ppn1JmpSize = 0)
    (hleft : ppn1JmpSize ≤ left) :
    countRuns (fuel + 1) left cur highest r =
      countRuns fuel (left - ppn1JmpSize) (cur + ppn1JmpSize) (highestReached cur highest)
        (if highestReached cur highest > 1 then { r with postPpn1Cnt := r.postPpn1Cnt + 1 }
        else { r with prePpn1Cnt := r.prePpn1Cnt + 1 }) := by
  have hpos : 0 < ppn1JmpSize := by decide
  rw [countRuns, if_neg (by omega), if_neg (fun hc => by have := h2 hc.1; omega),
    if_pos ⟨h1, hleft⟩]

theorem countRuns_ppn0 {left cur : ℕ} (fuel highest : ℕ) (r : Runs)
    (h1 : cur % ppn1JmpSize = 0 → left < ppn1JmpSize) (h0 : cur % ppn0JmpSize = 0)
    (hleft : ppn0JmpSize ≤ left) :
    countRuns (fuel + 1) left cur highest r =
      countRuns fuel (left - ppn0JmpSize) (cur + ppn0JmpSize) (highestReached cur highest)
        (if highestReached cur highest > 0 then { r with postPpn0Cnt := r.postPpn0Cnt + 1 }
        else { r with prePpn0Cnt := r.prePpn0Cnt + 1 }) := by
  unfold ppn1JmpSize at h1
  have h2 : ¬(cur % ppn2JmpSize = 0 ∧ left ≥ ppn2JmpSize) := by
    unfold ppn2JmpSize
    omega
  have h1' : ¬(cur % ppn1JmpSize = 0 ∧ left ≥ ppn1JmpSize) := by
    unfold ppn1JmpSize
    omega
  rw [countRuns, if_neg (by unfold ppn0JmpSize at hleft; omega), if_neg h2, if_neg h1',
    if_pos ⟨h0, hleft⟩]

theorem highestReached_of_ne {cur : ℕ} (highest : ℕ) (h : cur % ppn2JmpSize ≠ 0) :
    highestReached cur highest = highest := by
  rw [highestReached, if_neg fun hc => h hc.1, if_neg fun hc => h hc.1]

theorem highestReached_two (cur : ℕ) : highestReached cur 2 = 2 := by
  rw [highestReached, if_neg (by omega), if_neg (by omega)]

/-- 4 KiB runs in one block of 2 MiB. -/
theorem countRuns_low : ∀ {n cur : ℕ} (fuel : ℕ) (r : Runs), n ≤ fuel →
    (0 < n → cur % ppn0JmpSize = 0 ∧ cur % ppn2JmpSize ≠ 0) →
    cur % ppn1JmpSize + ppn0JmpSize * n ≤ ppn1JmpSize → ppn0JmpSize * n < ppn1JmpSize →
    countRuns fuel (ppn0JmpSize * n) cur 0 r = .ok { r with prePpn0Cnt := r.prePpn0Cnt + n }
  | 0, cur, fuel, r, _, _, _, _ => by rw [Nat.mul_zero, countRuns_zero, Nat.add_zero]
  | n + 1, cur, fuel + 1, r, hfuel, hcur, hle, hlt => by
    obtain ⟨h0, h2⟩ := hcur (Nat.succ_pos n)
    rw [countRuns_ppn0 fuel 0 r (fun _ => hlt) h0 (Nat.le_mul_of_pos_right _ (Nat.succ_pos n)),
      highestReached_of_ne 0 h2, if_neg (lt_irrefl 0), Nat.mul_succ, Nat.add_sub_cancel]
    rw [@countRuns_low n (cur + ppn0JmpSize) fuel _ (by omega)
      (fun _ => by unfold ppn0JmpSize ppn1JmpSize ppn2JmpSize at *; omega)
      (by unfold ppn0JmpSize ppn1JmpSize at *; omega)
      (by unfold ppn0JmpSize ppn1JmpSize at *; omega)]
    dsimp only
    rw [Nat.add_assoc, Nat.add_comm 1]

/-- 2 MiB runs in one block of 1 GiB. -/
theorem countRuns_mid : ∀ {m cur : ℕ} (fuel : ℕ) (r : Runs), m ≤ fuel →
    (0 < m → cur % ppn1JmpSize = 0 ∧ cur % ppn2JmpSize ≠ 0) →
    cur % ppn2JmpSize + ppn1JmpSize * m ≤ ppn2JmpSize →
    countRuns fuel (ppn1JmpSize * m) cur 0 r = .ok { r with prePpn1Cnt := r.prePpn1Cnt + m }
  | 0, cur, fuel, r, _, _, _ => by rw [Nat.mul_zero, countRuns_zero, Nat.add_zero]
  | m + 1, cur, fuel + 1, r, hfuel, hcur, hle => by
    obtain ⟨h1, h2⟩ := hcur (Nat.succ_pos m)
    rw [countRuns_ppn1 fuel 0 r (fun hc => absurd hc h2) h1
        (Nat.le_mul_of_pos_right _ (Nat.succ_pos m)),
      highestReached_of_ne 0 h2, if_neg (by decide), Nat.mul_succ, Nat.add_sub_cancel]
    rw [@countRuns_mid m (cur + ppn1JmpSize) fuel _ (by omega)
      (fun _ => by unfold ppn1JmpSize ppn2JmpSize at *; omega)
      (by unfold ppn1JmpSize ppn2JmpSize at *; omega)]
    dsimp only
    rw [Nat.add_assoc, Nat.add_comm 1]

/-- 4 KiB runs, once the start of a block of 1 GiB is passed. -/
theorem countRuns_postLow : ∀ {n cur highest : ℕ} (fuel : ℕ) (r : Runs), n ≤ fuel →
    (0 < n → cur % ppn0JmpSize = 0 ∧ highestReached cur highest = 2) →
    cur % ppn1JmpSize + ppn0JmpSize * n < ppn1JmpSize →
    countRuns fuel (ppn0JmpSize * n) cur highest r =
      .ok { r with postPpn0Cnt := r.postPpn0Cnt + n }
  | 0, cur, highest, fuel, r, _, _, _ => by rw [Nat.mul_zero, countRuns_zero, Nat.add_zero]
  | n + 1, cur, highest, fuel + 1, r, hfuel, hcur, hle => by
    obtain ⟨h0, h2⟩ := hcur (Nat.succ_pos n)
    rw [countRuns_ppn0 fuel highest r (fun _ => (Nat.le_add_left _ _).trans_lt hle) h0
        (Nat.le_mul_of_pos_right _ (Nat.succ_pos n)),
      h2, if_pos (by decide), Nat.mul_succ, Nat.add_sub_cancel]
    rw [@countRuns_postLow n (cur + ppn0JmpSize) 2 fuel _ (by omega)
      (fun _ => ⟨by unfold ppn0JmpSize at *; omega, highestReached_two _⟩)
      (by unfold ppn0JmpSize ppn1JmpSize at *; omega)]
    dsimp only
    rw [Nat.add_assoc, Nat.add_comm 1]

/-- 2 MiB runs and then 4 KiB runs, from the start of a block of 1 GiB on. -/
theorem countRuns_post {n : ℕ} : ∀ {m cur highest : ℕ} (fuel : ℕ) (r : Runs), m + n ≤ fuel →
    (0 < m + n → cur % ppn1JmpSize = 0 ∧ highestReached cur highest = 2) →
    cur % ppn2JmpSize + (ppn1JmpSize * m + ppn0JmpSize * n) < ppn2JmpSize →
    ppn0JmpSize * n < ppn1JmpSize →
    countRuns fuel (ppn1JmpSize * m + ppn0JmpSize * n) cur highest r = .ok { r with
      postPpn1Cnt := r.postPpn1Cnt + m
      postPpn0Cnt := r.postPpn0Cnt + n }
  | 0, cur, highest, fuel, r, hfuel, hcur, hle, hn => by
    have hcur0 : 0 < n → cur % ppn0JmpSize = 0 ∧ highestReached cur highest = 2 := fun hpos => by
      obtain ⟨h1, h2⟩ := hcur (by omega)
      exact ⟨by unfold ppn0JmpSize ppn1JmpSize at *; omega, h2⟩
    have hle0 : cur % ppn1JmpSize + ppn0JmpSize * n < ppn1JmpSize := by
      rcases Nat.eq_zero_or_pos n with rfl | hpos
      · exact Nat.mod_lt _ (by decide)
      · rw [(hcur (by omega)).1]
        omega
    rw [Nat.mul_zero, Nat.zero_add, countRuns_postLow fuel r (by omega) hcur0 hle0, Nat.add_zero]
  | m + 1, cur, highest, 0, r, hfuel, _, _, _ => absurd hfuel (by omega)
  | m + 1, cur, highest, fuel + 1, r, hfuel, hcur, hle, hn => by
    obtain ⟨h1, h2⟩ := hcur (by omega)
    rw [countRuns_ppn1 fuel highest r (fun _ => by omega) h1
        (by rw [Nat.mul_succ]; omega), h2, if_pos (by decide),
      show ppn1JmpSize * (m + 1) + ppn0JmpSize * n - ppn1JmpSize =
        ppn1JmpSize * m + ppn0JmpSize * n by rw [Nat.mul_succ]; omega]
    rw [@countRuns_post n m (cur + ppn1JmpSize) 2 fuel _ (by omega)
      (fun _ => ⟨by rw [Nat.add_mod_right, h1], highestReached_two _⟩)
      (by unfold ppn0JmpSize ppn1JmpSize ppn2JmpSize at *; omega) hn]
    dsimp only
    rw [Nat.add_assoc, Nat.add_comm 1]

section Runs

variable {virt size : ℕ}

theorem runs_low (hvirt : 4096 ∣ virt) (hsize : 4096 ∣ size) (h2 : virt % ppn2JmpSize ≠ 0)
    (hle : virt % ppn1JmpSize + size ≤ ppn1JmpSize) (hlt : size < ppn1JmpSize) :
    countRuns (size / ppn0JmpSize + 1) size virt 0 ⟨0, 0, 0, 0, 0⟩ =
      .ok ⟨size / 4096, 0, 0, 0, 0⟩ := by
  have hmul : ppn0JmpSize * (size / 4096) = size := Nat.mul_div_cancel' hsize
  have := @countRuns_low (size / 4096) virt (size / ppn0JmpSize + 1) ⟨0, 0, 0, 0, 0⟩
    (Nat.le_succ _) (fun _ => ⟨Nat.mod_eq_zero_of_dvd hvirt, h2⟩) (by rw [hmul]; exact hle)
    (by rw [hmul]; exact hlt)
  rw [hmul] at this
  rw [this, Nat.zero_add]

theorem runs_mid (h2 : virt % ppn2JmpSize ≠ 0) (h1 : virt % ppn1JmpSize = 0)
    (hsize : size % ppn1JmpSize = 0) (hle : virt % ppn2JmpSize + size ≤ ppn2JmpSize) :
    countRuns (size / ppn0JmpSize + 1) size virt 0 ⟨0, 0, 0, 0, 0⟩ =
      .ok ⟨0, size / ppn1JmpSize, 0, 0, 0⟩ := by
  have hmul : ppn1JmpSize * (size / ppn1JmpSize) = size :=
    Nat.mul_div_cancel' (Nat.dvd_of_mod_eq_zero hsize)
  have := @countRuns_mid (size / ppn1JmpSize) virt (size / ppn0JmpSize + 1) ⟨0, 0, 0, 0, 0⟩
    (by unfold ppn0JmpSize ppn1JmpSize; omega) (fun _ => ⟨h1, h2⟩) (by rw [hmul]; exact hle)
  rw [hmul] at this
  rw [this, Nat.zero_add]

theorem runs_post (hsize : 4096 ∣ size) (h2 : virt % ppn2JmpSize = 0) (hlt : size < ppn2JmpSize) :
    countRuns (size / ppn0JmpSize + 1) size virt 0 ⟨0, 0, 0, 0, 0⟩ =
      .ok ⟨0, 0, 0, size / ppn1JmpSize, size % ppn1JmpSize / 4096⟩ := by
  have hmul : ppn1JmpSize * (size / ppn1JmpSize) + ppn0JmpSize * (size % ppn1JmpSize / 4096) =
      size := by
    unfold ppn0JmpSize ppn1JmpSize
    omega
  have h1 : virt % ppn1JmpSize = 0 := by
    unfold ppn1JmpSize ppn2JmpSize at *
    omega
  have := @countRuns_post (size % ppn1JmpSize / 4096) (size / ppn1JmpSize) virt 0
    (size / ppn0JmpSize + 1) ⟨0, 0, 0, 0, 0⟩ (by unfold ppn0JmpSize ppn1JmpSize; omega)
    (fun _ => ⟨h1, if_pos ⟨h2, by decide⟩⟩) (by rw [hmul, h2, Nat.zero_add]; exact hlt)
    (by unfold ppn0JmpSize ppn1JmpSize; omega)
  rw [hmul] at this
  rw [this, Nat.zero_add, Nat.zero_add]

end Runs

/-! ## Ranges and tables -/

/-- A range of pages that passes the range checks. -/
structure PageRange (virtAddr size : ℕ) : Prop where
  virtDvd : 4096 ∣ virtAddr
  sizeDvd : 4096 ∣ size
  pos : 0 < size
  half : virtAddr + size ≤ 0x4000000000 ∨
    kernelVmaStart ≤ virtAddr ∧ virtAddr + size ≤ 2 ^ 64

theorem PageRange.normal {virtAddr size : ℕ} (hr : PageRange virtAddr size) :
    4096 ∣ normalVirtAddr virtAddr ∧ normalVirtAddr virtAddr + size ≤ 2 ^ 39 := by
  have hvirt := hr.virtDvd
  have hhalf := hr.half
  unfold normalVirtAddr kernelVmaStart at *
  split_ifs with hk
  · omega
  · omega

/-- The page and the flags of a page number, nothing where the walk ends in a fault. -/
def pageXlate (h : Heap (BitVec 64)) (root vpn : ℕ) : Option (ℕ × ℕ) :=
  match sv39Walk h vpn 2 root with
  | .ok leaf => leaf
  | .error _ => none

/-- The table of the block of 1 GiB with the address `virt`, 0 if it has none. -/
def blockTable (h : Heap (BitVec 64)) (root virt : ℕ) : ℕ :=
  getBranchLoc (h.cell root (virt / ppn2JmpSize))

/-- The entry of a table of 2 MiB leaves for the address `virt`. -/
def midEntry (h : Heap (BitVec 64)) (table virt : ℕ) : BitVec 64 :=
  h.cell table (virt % ppn2JmpSize / ppn1JmpSize)

/-- No `VMA_DONT_COMPRESS` leaf has to be expanded for the range. -/
structure NotPinned (h : Heap (BitVec 64)) (root virt size : ℕ) : Prop where
  block : blockTable h root virt = 0 → Unpinned (h.cell root (virt / ppn2JmpSize))
  last : blockTable h root virt ≠ 0 → size % ppn1JmpSize ≠ 0 →
    getBranchLoc (midEntry h (blockTable h root virt) (virt + size - ppn0JmpSize)) = 0 →
    Unpinned (midEntry h (blockTable h root virt) (virt + size - ppn0JmpSize))

/-- A range and a table for which `vma_replace_section` works : less than 1 GiB from the
start of a block of 1 GiB with a table on, or a part of a block of 2 MiB, or whole blocks
of 2 MiB in one block of 1 GiB. The 2 MiB leaves are aligned and replace no tables, and no
table becomes one run of mapped pages. -/
structure Shape (h : Heap (BitVec 64)) (root virt size : ℕ) (phys flags : BitVec 64) :
    Prop where
  place : virt % ppn2JmpSize = 0 ∧ size < ppn2JmpSize ∧ blockTable h root virt ≠ 0 ∨
    virt % ppn2JmpSize ≠ 0 ∧ virt % ppn1JmpSize + size ≤ ppn1JmpSize ∧ size < ppn1JmpSize ∨
    virt % ppn2JmpSize ≠ 0 ∧ virt % ppn1JmpSize = 0 ∧ size % ppn1JmpSize = 0 ∧
      virt % ppn2JmpSize + size ≤ ppn2JmpSize
  free : blockTable h root virt ≠ 0 → ∀ j, j < size / ppn1JmpSize →
    getBranchLoc (midEntry h (blockTable h root virt) (virt + ppn1JmpSize * j)) = 0
  aligned : ppn1JmpSize ≤ size → flags = 0 ∨ ppn1JmpSize ∣ (windowOffset phys).toNat
  args : LeafArgs phys flags size
  gap : Gap (pageXlate h root) (if size % ppn1JmpSize = 0 then 1 else 0) (virt / 4096)
    (size / 4096) ((windowOffset phys).toNat / 4096) flags

section Calls

variable {src : KernelPages} {h : Heap (BitVec 64)} {root : ℕ} {pg : List ℕ → Option ℕ}
  {phys flags : BitVec 64} {virt size : ℕ}

theorem TableInv.pageXlate_eq (ht : TableInv h root pg) :
    pageXlate h root = fun vpn => xlate h pg vpn 2 [] root := by
  funext vpn
  rw [pageXlate, ht.walk_eq vpn 2 ht.root rfl]

theorem TableInv.blockTable_eq (ht : TableInv h root pg) (hv : virt < 2 ^ 39) :
    blockTable h root virt = (pg [virt / ppn2JmpSize]).getD 0 :=
  ht.getBranchLoc_eq ht.root (by unfold ppn2JmpSize; omega)

theorem TableInv.blockTable_some (ht : TableInv h root pg) (hv : virt < 2 ^ 39) {t1 : ℕ}
    (ht1 : pg [virt / ppn2JmpSize] = some t1) :
    blockTable h root virt = t1 ∧ blockTable h root virt ≠ 0 := by
  rw [ht.blockTable_eq hv, ht1, Option.getD_some]
  exact ⟨rfl, (ht.window ht1).pos⟩

theorem TableInv.none_of_getD (ht : TableInv h root pg) {π : List ℕ} (hπ : (pg π).getD 0 = 0) :
    pg π = none := by
  cases hp : pg π with
  | none => rfl
  | some p =>
    rw [hp, Option.getD_some] at hπ
    exact absurd hπ (ht.window hp).pos

theorem TableInv.midEntry_eq (ht : TableInv h root pg) {t1 : ℕ} (j : ℕ)
    (ht1 : pg [virt / ppn2JmpSize] = some t1) :
    getBranchLoc (midEntry h t1 j) =
      (pg [j % ppn2JmpSize / ppn1JmpSize, virt / ppn2JmpSize]).getD 0 :=
  ht.getBranchLoc_eq ht1 (by unfold ppn2JmpSize ppn1JmpSize; omega)

/-! ## `vma_replace_section` -/

theorem vmaReplaceSection_eq (src : KernelPages) (fuel root : ℕ) (phys flags : BitVec 64)
    (h : Heap (BitVec 64)) {virtAddr size : ℕ} (hr : PageRange virtAddr size) {runs : Runs}
    (hcount : countRuns (size / ppn0JmpSize + 1) size (normalVirtAddr virtAddr) 0 ⟨0, 0, 0, 0, 0⟩ =
      .ok runs) :
    vmaReplaceSection src fuel root virtAddr size phys flags h =
      replaceRuns src fuel root (normalVirtAddr virtAddr) phys flags runs h := by
  have hhalf := hr.half
  have hpos := hr.pos
  have h1 : ¬size > ppn2JmpSize * 256 := by
    unfold ppn2JmpSize kernelVmaStart at *
    omega
  have h2 : ¬(normalVirtAddr virtAddr > 0x4000000000 - size ∧ virtAddr < kernelVmaStart) := by
    rintro ⟨hgt, hlt⟩
    rw [normalVirtAddr, if_neg (by omega)] at hgt
    omega
  have h3 : ¬(normalVirtAddr virtAddr > 0x8000000000 - size ∧ virtAddr ≥ kernelVmaStart) := by
    rintro ⟨hgt, hge⟩
    rw [normalVirtAddr, if_pos hge] at hgt
    unfold kernelVmaStart at *
    omega
  unfold vmaReplaceSection
  simp only [if_neg h1, if_neg h2, if_neg h3, hcount, ok_bind]

/-- The outcomes of a call : the range is mapped, or `pg_alloc` ran out of pages. -/
def Maps (src : KernelPages) (h : Heap (BitVec 64)) (root : ℕ) (pg : List ℕ → Option ℕ)
    (virt size : ℕ) (phys flags : BitVec 64) (x : Except (Fault Panic) (Heap (BitVec 64))) :
    Prop :=
  x = .error (.panic .outOfFreePages) ∧ Exhausted src h ∨
  ∃ h' pg', x = .ok h' ∧ Mapped h root pg (virt / 4096) (size / 4096)
    ((windowOffset phys).toNat / 4096) flags.toNat h' pg'

/-- The part of a block of 2 MiB. -/
theorem maps_low {fuel : ℕ} (ht : TableInv h root pg) (hc : Compact h pg) (hv : virt < 2 ^ 39)
    (hdvd : 4096 ∣ size) (hpos : 0 < size)
    (hle : virt % ppn1JmpSize + size ≤ ppn1JmpSize) (hlt : size < ppn1JmpSize)
    (hp : NotPinned h root virt size) (ha : LeafArgs phys flags size)
    (hgap : Gap (pageXlate h root) 0 (virt / 4096) (size / 4096)
      ((windowOffset phys).toNat / 4096) flags) :
    Maps src h root pg virt size phys flags
      (replaceRuns src fuel root virt phys flags ⟨size / 4096, 0, 0, 0, 0⟩ h) := by
  have hsize : 4096 * (size / 4096) = size := Nat.mul_div_cancel' hdvd
  have hmid : (virt + size - ppn0JmpSize) % ppn2JmpSize / ppn1JmpSize =
      virt % ppn2JmpSize / ppn1JmpSize := by
    unfold ppn0JmpSize ppn1JmpSize ppn2JmpSize at *
    omega
  have hmod : size % ppn1JmpSize ≠ 0 := by
    rw [Nat.mod_eq_of_lt hlt]
    omega
  rw [ht.pageXlate_eq] at hgap
  refine replaceRuns_low ht hc hv (by omega) (by unfold ppn0JmpSize ppn1JmpSize at *; omega)
    (by rw [hsize]; exact ha) (fun hnone => ?_) (fun t1 ht1 hnone => ?_) hgap
  · exact hp.block (by rw [ht.blockTable_eq hv, hnone, Option.getD_none])
  · obtain ⟨htable, hne⟩ := ht.blockTable_some hv ht1
    have hlast := hp.last hne hmod
    rw [htable, ht.midEntry_eq _ ht1, hmid, hnone, midEntry, hmid] at hlast
    exact hlast rfl

/-- Blocks of 2 MiB. -/
theorem maps_mid {fuel : ℕ} (ht : TableInv h root pg) (hc : Compact h pg) (hv : virt < 2 ^ 39)
    (hpos : 0 < size) (hvirt : virt % ppn1JmpSize = 0) (hmod : size % ppn1JmpSize = 0)
    (hle : virt % ppn2JmpSize + size ≤ ppn2JmpSize) (hp : NotPinned h root virt size)
    (hs : Shape h root virt size phys flags) :
    Maps src h root pg virt size phys flags
      (replaceRuns src fuel root virt phys flags ⟨0, size / ppn1JmpSize, 0, 0, 0⟩ h) := by
  obtain ⟨m, rfl⟩ : ppn1JmpSize ∣ size := Nat.dvd_of_mod_eq_zero hmod
  have hm : 0 < m := Nat.pos_of_mul_pos_left hpos
  have hcount : ppn1JmpSize * m / 4096 = 512 * m := by unfold ppn1JmpSize; omega
  have hgap := hs.gap
  rw [if_pos hmod, ht.pageXlate_eq, hcount] at hgap
  unfold Maps
  rw [Nat.mul_div_cancel_left _ (by decide), hcount]
  refine replaceRuns_mid ht hc hv hm hvirt (by unfold ppn1JmpSize ppn2JmpSize at *; omega) hs.args
    ((hs.aligned (Nat.le_mul_of_pos_right _ hm)).imp_right fun hd => ?_) (fun hnone => ?_)
    (fun j hge hlt => ?_) hgap
  · unfold ppn1JmpSize at hd
    omega
  · exact hp.block (by rw [ht.blockTable_eq hv, hnone, Option.getD_none])
  · cases ht1 : pg [virt / ppn2JmpSize] with
    | none => exact ht.none_below ht1 j
    | some t1 =>
      obtain ⟨htable, hne⟩ := ht.blockTable_some hv ht1
      have hfree := hs.free hne (j - virt % ppn2JmpSize / ppn1JmpSize)
        (by rw [Nat.mul_div_cancel_left _ (by decide)]; omega)
      rw [htable, ht.midEntry_eq _ ht1, show (virt + ppn1JmpSize *
        (j - virt % ppn2JmpSize / ppn1JmpSize)) % ppn2JmpSize / ppn1JmpSize = j by
          unfold ppn1JmpSize ppn2JmpSize at *; omega] at hfree
      exact ht.none_of_getD hfree

/-- From the start of a block of 1 GiB on. -/
theorem maps_post {fuel : ℕ} (ht : TableInv h root pg) (hc : Compact h pg) (hv : virt < 2 ^ 39)
    (hdvd : 4096 ∣ size) (hpos : 0 < size) (hvirt : virt % ppn2JmpSize = 0)
    (hlt : size < ppn2JmpSize) (htable : blockTable h root virt ≠ 0)
    (hp : NotPinned h root virt size) (hs : Shape h root virt size phys flags) :
    Maps src h root pg virt size phys flags (replaceRuns src fuel root virt phys flags
      ⟨0, 0, 0, size / ppn1JmpSize, size % ppn1JmpSize / 4096⟩ h) := by
  have hm : size / ppn1JmpSize < 512 := by unfold ppn1JmpSize ppn2JmpSize at *; omega
  have hsplit : size = ppn1JmpSize * (size / ppn1JmpSize) + 4096 * (size % ppn1JmpSize / 4096) := by
    unfold ppn1JmpSize
    omega
  have hcount : size / 4096 = 512 * (size / ppn1JmpSize) + size % ppn1JmpSize / 4096 := by
    unfold ppn1JmpSize
    omega
  have hal : 0 < size / ppn1JmpSize → flags = 0 ∨ 512 ∣ (windowOffset phys).toNat / 4096 :=
    fun hm => (hs.aligned (by unfold ppn1JmpSize at *; omega)).imp_right fun hd => by
      unfold ppn1JmpSize at hd
      omega
  have ha := hs.args
  have hgap := hs.gap
  rw [ht.pageXlate_eq, hcount] at hgap
  cases ht1 : pg [virt / ppn2JmpSize] with
  | none => exact absurd (by rw [ht.blockTable_eq hv, ht1, Option.getD_none]) htable
  | some t1 =>
    obtain ⟨ht1', -⟩ := ht.blockTable_some hv ht1
    have hnone : ∀ j, j < size / ppn1JmpSize → pg [j, virt / ppn2JmpSize] = none := fun j hj => by
      have hfree := hs.free htable j hj
      have hj' : (virt + ppn1JmpSize * j) % ppn2JmpSize / ppn1JmpSize = j := by
        unfold ppn1JmpSize ppn2JmpSize at *
        omega
      rw [ht1', ht.midEntry_eq _ ht1, hj'] at hfree
      exact ht.none_of_getD hfree
    unfold Maps
    rw [hcount]
    rcases Nat.eq_zero_or_pos (size % ppn1JmpSize) with hmod | hmod
    · rw [hmod, Nat.zero_div, Nat.add_zero]
      rw [if_pos hmod, hmod, Nat.zero_div, Nat.add_zero] at hgap
      rw [hmod, Nat.zero_div, Nat.mul_zero, Nat.add_zero] at hsplit
      rw [hsplit] at ha
      exact Or.inr (replaceRuns_postMid ht hc hv hvirt ht1 hm hal hnone
        (by unfold ppn1JmpSize at *; omega) ha hgap)
    · have hmid : (virt + size - ppn0JmpSize) % ppn2JmpSize / ppn1JmpSize = size / ppn1JmpSize := by
        unfold ppn0JmpSize ppn1JmpSize ppn2JmpSize at *
        omega
      rw [if_neg hmod.ne'] at hgap
      rw [hsplit] at ha
      refine replaceRuns_postLow ht hc hv hvirt ht1 hm hal hnone
        (by unfold ppn1JmpSize; omega) (by unfold ppn1JmpSize at *; omega) ha (fun he => ?_) hgap
      have hlast := hp.last htable hmod.ne'
      rw [ht1', ht.midEntry_eq _ ht1, hmid, he, midEntry, hmid] at hlast
      exact hlast rfl

/-- `vma_replace_section` maps the range. -/
theorem vmaReplaceSection_spec (src : KernelPages) (fuel : ℕ) {virtAddr : ℕ}
    (ht : TableInv h root pg) (hc : Compact h pg) (hr : PageRange virtAddr size)
    (hp : NotPinned h root (normalVirtAddr virtAddr) size)
    (hs : Shape h root (normalVirtAddr virtAddr) size phys flags) :
    Maps src h root pg (normalVirtAddr virtAddr) size phys flags
      (vmaReplaceSection src fuel root virtAddr size phys flags h) := by
  obtain ⟨hvdvd, hle⟩ := hr.normal
  have hdvd := hr.sizeDvd
  have hpos := hr.pos
  have hv : normalVirtAddr virtAddr < 2 ^ 39 := by omega
  rcases hs.place with ⟨hvirt, hlt, htable⟩ | ⟨hvirt, hin, hlt⟩ | ⟨hvirt, h1, hmod, hin⟩
  · rw [vmaReplaceSection_eq src fuel root phys flags h hr (runs_post hdvd hvirt hlt)]
    exact maps_post ht hc hv hdvd hpos hvirt hlt htable hp hs
  · have hgap := hs.gap
    rw [if_neg (by rw [Nat.mod_eq_of_lt hlt]; omega)] at hgap
    rw [vmaReplaceSection_eq src fuel root phys flags h hr (runs_low hvdvd hdvd hvirt hin hlt)]
    exact maps_low ht hc hv hdvd hpos hin hlt hp hs.args hgap
  · rw [vmaReplaceSection_eq src fuel root phys flags h hr (runs_mid hvirt h1 hmod hin)]
    exact maps_mid ht hc hv hpos h1 hmod hin hp hs

/-! ## The translation of addresses -/

theorem TableInv.translate_eq (ht : TableInv h root pg) (va : ℕ) :
    translate h root va = .ok (if 0x4000000000 ≤ va ∧ va < kernelVmaStart then none
      else (xlate h pg (va % 2 ^ 39 / 4096) 2 [] root).map fun t =>
        (t.1 * 4096 + va % 4096, t.2)) := by
  unfold translate
  by_cases hgap : 0x4000000000 ≤ va ∧ va < kernelVmaStart
  · simp only [if_pos hgap]
    rfl
  · simp only [if_neg hgap, ht.walk_eq _ 2 ht.root rfl, ok_bind]
    rfl

/-- The bits of an address that are translated. -/
theorem mod_eq_normal {va : ℕ} (hva : va < 2 ^ 64)
    (hgap : ¬(0x4000000000 ≤ va ∧ va < kernelVmaStart)) : va % 2 ^ 39 = normalVirtAddr va := by
  unfold normalVirtAddr kernelVmaStart at *
  split_ifs with hk
  · omega
  · omega

section Addresses

variable {virtAddr ppn f : ℕ} {h' : Heap (BitVec 64)} {pg' : List ℕ → Option ℕ}

theorem Mapped.translate_in {off : ℕ} (hr : PageRange virtAddr size) (hoff : 4096 ∣ off)
    (hm : Mapped h root pg (normalVirtAddr virtAddr / 4096) (size / 4096) (off / 4096) f h' pg')
    {k : ℕ} (hk : k < size) : translate h' root (virtAddr + k) =
      .ok (if f = 0 then none else some (off + k, f)) := by
  obtain ⟨hdvd, hle⟩ := hr.normal
  have hvirt := hr.virtDvd
  have hhalf := hr.half
  have hsize := hr.sizeDvd
  have hgap : ¬(0x4000000000 ≤ virtAddr + k ∧ virtAddr + k < kernelVmaStart) := by omega
  have hnormal : (virtAddr + k) % 2 ^ 39 = normalVirtAddr virtAddr + k := by
    rw [mod_eq_normal (by unfold kernelVmaStart at *; omega) hgap]
    unfold normalVirtAddr kernelVmaStart at *
    split_ifs <;> omega
  rw [hm.inv.translate_eq, if_neg hgap, hnormal, hm.xlate _ (by omega), remap, if_pos (by omega)]
  split_ifs with hf
  · rfl
  · simp only [Option.map_some, Except.ok.injEq, Option.some.injEq, Prod.mk.injEq, and_true]
    omega

theorem Mapped.translate_out (ht : TableInv h root pg) (hr : PageRange virtAddr size)
    (hm : Mapped h root pg (normalVirtAddr virtAddr / 4096) (size / 4096) ppn f h' pg') {va : ℕ}
    (hva : va < 2 ^ 64) (hout : ¬(virtAddr ≤ va ∧ va < virtAddr + size)) :
    translate h' root va = translate h root va := by
  obtain ⟨hdvd, hle⟩ := hr.normal
  have hhalf := hr.half
  have hsize := hr.sizeDvd
  rw [hm.inv.translate_eq, ht.translate_eq]
  by_cases hgap : 0x4000000000 ≤ va ∧ va < kernelVmaStart
  · rw [if_pos hgap, if_pos hgap]
  · have hnot : ¬(normalVirtAddr virtAddr / 4096 ≤ va % 2 ^ 39 / 4096 ∧
        va % 2 ^ 39 / 4096 < normalVirtAddr virtAddr / 4096 + size / 4096) := by
      rw [mod_eq_normal hva hgap]
      unfold normalVirtAddr kernelVmaStart at *
      split_ifs at * <;> omega
    rw [if_neg hgap, if_neg hgap, hm.xlate _ (by omega), remap, if_neg hnot]

end Addresses

/-! ## `vma_create` -/

/-- The leaf of `vma_create` for the block `i` of the window. -/
theorem windowLeaf_fields {i : ℕ} (hi : i < 256) :
    (BitVec.ofNat 64 i <<< 28 ||| (vmaValid ||| vmaRead ||| vmaWrite ||| vmaExec)).toNat < 2 ^ 54 ∧
    ptePpn (BitVec.ofNat 64 i <<< 28 ||| (vmaValid ||| vmaRead ||| vmaWrite ||| vmaExec)) =
      i * 2 ^ 18 ∧
    pteFlags (BitVec.ofNat 64 i <<< 28 ||| (vmaValid ||| vmaRead ||| vmaWrite ||| vmaExec)) =
      15 := by
  have htoNat : (BitVec.ofNat 64 i <<< 28 |||
      (vmaValid ||| vmaRead ||| vmaWrite ||| vmaExec)).toNat = i * 2 ^ 18 * 2 ^ 10 + 15 := by
    rw [BitVec.toNat_or, BitVec.toNat_shiftLeft, Nat.shiftLeft_eq, BitVec.toNat_ofNat,
      Nat.mod_eq_of_lt (by omega), Nat.mod_eq_of_lt (by omega), ← Nat.shiftLeft_eq,
      show (vmaValid ||| vmaRead ||| vmaWrite ||| vmaExec).toNat = 15 from rfl,
      ← Nat.shiftLeft_add_eq_or_of_lt (by decide), Nat.shiftLeft_eq]
    omega
  exact leaf_fields htoNat (by omega) (by decide)

theorem windowLeaf_ok {i : ℕ} (hi : i < 256) :
    LeafOk 2 (BitVec.ofNat 64 i <<< 28 ||| (vmaValid ||| vmaRead ||| vmaWrite ||| vmaExec)) := by
  obtain ⟨hlt, hppn, hflags⟩ := windowLeaf_fields hi
  refine Or.inr ⟨hlt, ?_, ?_⟩
  · rw [hflags]
    decide
  · rw [hppn]
    exact Nat.dvd_mul_left _ _

theorem windowLeaf_unpinned {i : ℕ} (hi : i < 256) :
    Unpinned (BitVec.ofNat 64 i <<< 28 ||| (vmaValid ||| vmaRead ||| vmaWrite ||| vmaExec)) := by
  have hflags : getLeafFlags (BitVec.ofNat 64 i <<< 28 |||
      (vmaValid ||| vmaRead ||| vmaWrite ||| vmaExec)) = 15 :=
    BitVec.eq_of_toNat_eq (by rw [getLeafFlags_toNat, (windowLeaf_fields hi).2.2]; rfl)
  rw [Unpinned, hflags]
  decide

/-- The tree of a root only. -/
def rootOnly (root : ℕ) (π : List ℕ) : Option ℕ :=
  if π = [] then some root else none

/-- `vma_create` makes a root without other tables. -/
theorem vmaCreate_spec (src : KernelPages) (h : Heap (BitVec 64)) :
    src.next h = none ∧ vmaCreate src h = .error (.panic .outOfFreePages) ∨
    ∃ root h', vmaCreate src h = .ok (root, h') ∧ TableInv h' root (rootOnly root) ∧
      Compact h' (rootOnly root) ∧ (∀ i, Unpinned (h'.cell root i)) ∧ h.len root = 0 ∧
      (∀ p, p ≠ root → h'.len p = h.len p ∧ ∀ j, h'.cell p j = h.cell p j) ∧
      h'.objs.length = h.objs.length + 1 := by
  unfold vmaCreate
  rcases src.alloc_eq Panic.outOfFreePages h with ⟨hnone, halloc⟩ | ⟨root, hnext, halloc⟩
  · left
    exact ⟨hnone, by rw [halloc, error_bind]⟩
  right
  have hwin : WindowPage root := ⟨src.dvd hnext, src.window hnext, by
    have := src.lt hnext
    omega⟩
  have hroot : ∀ {π p}, rootOnly root π = some p → π = [] ∧ p = root := fun {π p} hp => by
    unfold rootOnly at hp
    split_ifs at hp with hπ
    exact ⟨hπ, (Option.some.inj hp).symm⟩
  rw [halloc, ok_bind]
  dsimp only
  rw [fillLeafs_eq 256 0 (by rw [Heap.len_push_self]) (by omega), ok_bind]
  refine ⟨root, _, rfl, ⟨rfl, fun hp hp' => ?_, fun hp => ?_, fun hp => ?_, fun hp => ?_,
    fun hq => ?_, fun {π p i} hp hi => ?_⟩, fun π q hπ hq => ?_, fun i => ?_, src.fresh hnext,
    fun p hp => ⟨Heap.len_push_of_ne _ _ hp, fun j => ?_⟩, rfl⟩
  · rw [(hroot hp).1, (hroot hp').1]
  · rw [(hroot hp).2]
    exact hwin
  · rw [(hroot hp).2, Heap.len_fill, Heap.len_push_self]
  · rw [(hroot hp).1]
    exact Nat.zero_le _
  · cases (hroot hq).1
  · obtain ⟨rfl, rfl⟩ := hroot hp
    change LeafOk 2 _
    rw [Heap.cell_fill]
    split_ifs with hin
    · rw [Nat.zero_add]
      exact windowLeaf_ok (by omega)
    · rw [Heap.cell_push_self]
      exact LeafOk.zero 2
  · rw [(hroot hq).1] at hπ
    cases hπ
  · rw [Heap.cell_fill]
    split_ifs with hin
    · rw [Nat.zero_add]
      exact windowLeaf_unpinned (by omega)
    · rw [Heap.cell_push_self]
      decide
  · rw [Heap.cell_fill_of_base_ne _ _ _ _ _ hp, Heap.cell_push_of_ne _ _ _ hp]

/-! ## Tables and the rest of the memory -/

/-- The pages of the table. -/
inductive IsTable (h : Heap (BitVec 64)) (root : ℕ) : ℕ → Prop
  | root : IsTable h root root
  | entry {p i : ℕ} : IsTable h root p → i < 512 → getBranchLoc (h.cell p i) ≠ 0 →
    IsTable h root (getBranchLoc (h.cell p i))

/-- The memory holds a table that the calls keep in order. -/
def TableOk (h : Heap (BitVec 64)) (root : ℕ) : Prop :=
  ∃ pg, TableInv h root pg ∧ Compact h pg

/-- The pages of the table are the same in both memories. -/
def SameTable (root : ℕ) (h h' : Heap (BitVec 64)) : Prop :=
  ∀ p, IsTable h root p → h'.len p = h.len p ∧ ∀ j, h'.cell p j = h.cell p j

/-- What a call is to do : the range is mapped, and nothing else changes. -/
structure RangeMapped (h : Heap (BitVec 64)) (root virtAddr size : ℕ) (phys flags : BitVec 64)
    (h' : Heap (BitVec 64)) : Prop where
  foreign : ∀ p, h.len p ≠ 0 → ¬IsTable h root p →
    h'.len p = h.len p ∧ (∀ j, h'.cell p j = h.cell p j) ∧ ¬IsTable h' root p
  inside : ∀ k, k < size → translate h' root (virtAddr + k) =
    .ok (if flags = 0 then none else some ((windowOffset phys).toNat + k, flags.toNat))
  outside : ∀ va, va < 2 ^ 64 → ¬(virtAddr ≤ va ∧ va < virtAddr + size) →
    ∃ t, translate h root va = .ok t ∧ translate h' root va = .ok t

theorem TableInv.isTable (ht : TableInv h root pg) : ∀ {π : List ℕ} {p : ℕ}, pg π = some p →
    IsTable h root p
  | [], p, hp => by
    rw [ht.root] at hp
    cases hp
    exact IsTable.root
  | i :: π, q, hq => by
    obtain ⟨hi, p, hp⟩ := ht.parent hq
    have hloc := ht.getBranchLoc_eq hp hi
    rw [hq, Option.getD_some] at hloc
    have := (ht.isTable hp).entry hi (by rw [hloc]; exact (ht.window hq).pos)
    rwa [hloc] at this

theorem TableInv.of_isTable (ht : TableInv h root pg) {p : ℕ} (hp : IsTable h root p) :
    ∃ π, pg π = some p := by
  induction hp with
  | root => exact ⟨[], ht.root⟩
  | @entry p i _ hi hloc ih =>
    obtain ⟨π, hπ⟩ := ih
    rw [ht.getBranchLoc_eq hπ hi] at hloc ⊢
    cases hq : pg (i :: π) with
    | none =>
      rw [hq] at hloc
      exact absurd rfl hloc
    | some q => exact ⟨i :: π, hq⟩

theorem TableOk.sameTable {h' : Heap (BitVec 64)} (ht : TableOk h root)
    (hsame : SameTable root h h') :
    TableOk h' root ∧ (∀ va, translate h' root va = translate h root va) ∧
      ∀ p, IsTable h' root p → IsTable h root p := by
  obtain ⟨pg, hinv, hc⟩ := ht
  have hpage : ∀ {π p}, pg π = some p → h'.len p = h.len p ∧ ∀ j, h'.cell p j = h.cell p j :=
    fun hp => hsame _ (hinv.isTable hp)
  have hinv' : TableInv h' root pg := {
    root := hinv.root
    inj := hinv.inj
    window := hinv.window
    len := fun hp => by rw [(hpage hp).1, hinv.len hp]
    depth := hinv.depth
    parent := hinv.parent
    entry := fun hp hi => by
      rw [(hpage hp).2]
      exact hinv.entry hp hi }
  have hagree : AgreeOff h h' pg pg [] fun _ => False :=
    ⟨fun _ _ => rfl, fun π p j hp _ _ => (hpage hp).2 j⟩
  refine ⟨⟨pg, hinv', fun π q hπ hq hone => hc π q hπ hq (hone.congr fun j => ?_)⟩, fun va => ?_,
    fun p hp => ?_⟩
  · rw [(hpage hq).2]
  · rw [hinv'.translate_eq, hinv.translate_eq,
      hinv.xlate_agree hagree (by omega) fun _ hf => hf.elim]
  · obtain ⟨π, hπ⟩ := hinv'.of_isTable hp
    exact hinv.isTable hπ

/-- `vma_replace_section` on a table in order. -/
theorem TableOk.replaceSection (src : KernelPages) (fuel : ℕ) {virtAddr : ℕ}
    (ht : TableOk h root) (hr : PageRange virtAddr size)
    (hp : NotPinned h root (normalVirtAddr virtAddr) size)
    (hs : Shape h root (normalVirtAddr virtAddr) size phys flags) :
    vmaReplaceSection src fuel root virtAddr size phys flags h =
      .error (.panic .outOfFreePages) ∧ Exhausted src h ∨
    ∃ h', vmaReplaceSection src fuel root virtAddr size phys flags h = .ok h' ∧
      TableOk h' root ∧ RangeMapped h root virtAddr size phys flags h' ∧
      h'.objs.length ≤ h.objs.length + 2 := by
  obtain ⟨pg, hinv, hc⟩ := ht
  refine (vmaReplaceSection_spec src fuel hinv hc hr hp hs).imp_right ?_
  rintro ⟨h', pg', hok, hm⟩
  refine ⟨h', hok, ⟨pg', hm.inv, hm.compact⟩, ⟨fun p hlen hne => ?_, fun k hk => ?_,
    fun va hva hout => ?_⟩, hm.grows⟩
  · obtain ⟨hlen', hcell, hpg⟩ := hm.foreign p hlen fun π hπ => hne (hinv.isTable hπ)
    refine ⟨hlen', hcell, fun hp => ?_⟩
    obtain ⟨π, hπ⟩ := hm.inv.of_isTable hp
    exact hpg π hπ
  · rw [hm.translate_in hr hs.args.dvd hk]
    by_cases hf : flags = 0
    · rw [if_pos hf, if_pos (by rw [hf]; rfl)]
    · have hne : flags.toNat ≠ 0 := fun h0 => hf (BitVec.eq_of_toNat_eq h0)
      rw [if_neg hf, if_neg hne]
  · exact ⟨_, hinv.translate_eq va, by rw [hm.translate_out hinv hr hva hout, hinv.translate_eq va]⟩

end Calls

end Toastium
