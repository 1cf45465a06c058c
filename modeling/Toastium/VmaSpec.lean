import Toastium.VmaSteps

/-!
# What `vma_replace_section` does to the tree

The runs that `vma_replace_section` writes where it should : 4 KiB leaves within one block
of 2 MiB (`replaceRuns_low`), 2 MiB leaves within one block of 1 GiB (`replaceRuns_mid`),
and 2 MiB leaves followed by 4 KiB leaves from the start of a block of 1 GiB on
(`replaceRuns_post`). Each maps the range (`Mapped`), or ends with the panic of `pg_alloc`.
-/

namespace Toastium

variable {src : KernelPages} {h : Heap (BitVec 64)} {root : ℕ} {pg : List ℕ → Option ℕ}
  {phys flags : BitVec 64}

/-- The table maps the range, and is as it was elsewhere. -/
structure Mapped (h : Heap (BitVec 64)) (root : ℕ) (pg : List ℕ → Option ℕ)
    (start count ppn f : ℕ) (h' : Heap (BitVec 64)) (pg' : List ℕ → Option ℕ) : Prop where
  inv : TableInv h' root pg'
  compact : Compact h' pg'
  grows : h'.objs.length ≤ h.objs.length + 2
  foreign : ∀ r, h.len r ≠ 0 → (∀ π, pg π ≠ some r) →
    h'.len r = h.len r ∧ (∀ j, h'.cell r j = h.cell r j) ∧ ∀ π, pg' π ≠ some r
  xlate : ∀ vpn, vpn < 2 ^ 27 → xlate h' pg' vpn 2 [] root =
    remap (fun v => xlate h pg v 2 [] root) start count ppn f vpn

/-- `pg_alloc` has no page left for a table, or none for a second one. -/
def Exhausted (src : KernelPages) (h : Heap (BitVec 64)) : Prop :=
  (∃ h', h'.objs = h.objs ∧ src.next h' = none) ∨
    ∃ h0 h' q, h0.objs = h.objs ∧ src.next h0 = some q ∧ h'.objs = (q, 512) :: h.objs ∧
      src.next h' = none

/-- The nodes on the way to a table of 4 KiB leaves. -/
def Along (i i2 : ℕ) (π : List ℕ) : Prop :=
  π = [] ∨ π = [i2] ∨ π = [i, i2]

/-- A table that is not needed is not expanded. -/
theorem fetchTable_false (src : KernelPages) {π : List ℕ} {i p : ℕ} (ht : TableInv h root pg)
    (hp : pg π = some p) (hi : i < 512) (size : ℕ) :
    fetchTable src p i size false h = .ok ((pg (i :: π)).getD 0, h) := by
  unfold fetchTable
  rw [Heap.load_eq_ok (by rw [ht.len hp]; exact hi), ok_bind, if_neg (by simp),
    ht.getBranchLoc_eq hp hi]
  rfl

/-- `shrink_branch` where it has nothing to do. -/
theorem shrinkBranch_keep {π : List ℕ} {i p size : ℕ} (ht : TableInv h root pg)
    (hp : pg π = some p) (hi : i < 512) (hπ : π.length ≤ 1)
    (hsize : size = 4096 * 512 ^ (2 - π.length))
    (hrun : ∀ q, pg (i :: π) = some q → ¬OneRun h (1 - π.length) q) :
    shrinkBranch p i size h = .ok h := by
  cases hq : pg (i :: π) with
  | none =>
    unfold shrinkBranch
    rw [Heap.load_eq_ok (by rw [ht.len hp]; exact hi), ok_bind, ht.getBranchLoc_eq hp hi, hq]
    rfl
  | some q => exact (shrinkBranch_eq ht hp hπ hsize hq).1 (hrun q hq)

/-- At most one page was taken for a table. -/
theorem fetched_grow {h' : Heap (BitVec 64)} {a b c : Prop} {q : ℕ}
    (hnew : a ∧ h' = h ∧ b ∨ (src.next h = some q ∧ h'.objs = (q, 512) :: h.objs) ∧ c) :
    h'.objs.length ≤ h.objs.length + 1 := by
  rcases hnew with ⟨-, rfl, -⟩ | ⟨⟨-, hobjs⟩, -⟩
  · exact Nat.le_succ _
  · rw [hobjs, List.length_cons]

/-- A run of 4 KiB leaves in the table of entry `i` of `t1`. -/
theorem lowRun_spec (src : KernelPages) (T : ℕ → Option (ℕ × ℕ)) (start m ppn i0 off : ℕ)
    {n i i2 t1 size : ℕ} {leaf : ℕ → BitVec 64} (ht : TableInv h root pg)
    (ht1 : pg [i2] = some t1) (hi : i < 512)
    (hpin : pg [i, i2] = none → Unpinned (h.cell t1 i)) (hn : 0 < n) (hle : i0 + n ≤ 512)
    (ha : LeafArgs phys flags size) (hoff : off + 4096 * n ≤ size) (hoff4 : 4096 ∣ off)
    (hleaf : leaf = fun k => createLeaf (phys + BitVec.ofNat 64 (off + ppn0JmpSize * k)) flags)
    (hstart : start + m = (i2 * 512 + i) * 512 + i0)
    (hppn : ((windowOffset phys).toNat + off) / 4096 = ppn + m)
    (hT : ∀ vpn, vpn < 2 ^ 27 →
      xlate h pg vpn 2 [] root = remap T start m ppn flags.toNat vpn)
    (hgap : Gap T 0 start (m + n) ppn flags) :
    src.next h = none ∧
      fetchTable src t1 i ppn1JmpSize true h = .error (.panic .outOfFreePages) ∨
    ∃ t0 h1 h2 h3 pg3, fetchTable src t1 i ppn1JmpSize true h = .ok (t0, h1) ∧
      fillLeafs t0 i0 leaf n 0 h1 = .ok h2 ∧ shrinkBranch t1 i ppn1JmpSize h2 = .ok h3 ∧
      TableInv h3 root pg3 ∧ pg3 [i2] = some t1 ∧ Moves (Along i i2) h pg h3 pg3 ∧
      h3.objs.length ≤ h.objs.length + 1 ∧
      (∀ vpn, vpn < 2 ^ 27 →
        xlate h3 pg3 vpn 2 [] root = remap T start (m + n) ppn flags.toNat vpn) ∧
      (∀ q, pg3 [i, i2] = some q → ¬OneRun h3 0 q) ∧
      (pg3 [i, i2] ≠ none ∨ h3.cell t1 i = 0) := by
  have hi2 : i2 < 512 := (ht.parent ht1).1
  have hlen : 2 - [i, i2].length = 0 := rfl
  rcases fetchTable_spec src (S := Along i i2) ht ht1 hi le_rfl (show ppn1JmpSize = _ from rfl)
    hpin (Or.inr (Or.inl rfl)) (Or.inr (Or.inr rfl)) with
    hpanic | ⟨t0, h1, pg1, hfetch, hinv1, ht1', ht0, hmoves1, hx1, hnew⟩
  · exact Or.inl hpanic
  right
  have hgrow := fetched_grow hnew
  -- the leaves are written to a table without tables below it
  obtain ⟨hinv2, hx2⟩ := writeRun_spec (i := i0) (n := n) hinv1 ht0
    (fun j _ _ => hinv1.none_of_length le_rfl) hle ha (by simpa using hoff) hoff4
    fun _ => Or.inr (by simp)
  have hfill : fillLeafs t0 i0 leaf n 0 h1 = .ok (h1.fill t0 i0 n fun k => createLeaf
      (phys + BitVec.ofNat 64 (off + 4096 * 512 ^ (2 - [i, i2].length) * k)) flags) := by
    rw [fillLeafs_eq n 0 (hinv1.len ht0) (by omega), hleaf]
    simp only [hlen, Nat.add_zero, Nat.zero_add, pow_zero, Nat.mul_one, ppn0JmpSize]
  have hmoves2 := hinv1.fill_moves (S := Along i i2) (i := i0) ht0 (Or.inr (Or.inr rfl)) n
    fun k => createLeaf (phys + BitVec.ofNat 64 (off + 4096 * 512 ^ (2 - [i, i2].length) * k)) flags
  have hgrow2 : (h1.fill t0 i0 n fun k => createLeaf (phys + BitVec.ofNat 64
      (off + 4096 * 512 ^ (2 - [i, i2].length) * k)) flags).objs.length ≤ h.objs.length + 1 := hgrow
  generalize h1.fill t0 i0 n (fun k => createLeaf
    (phys + BitVec.ofNat 64 (off + 4096 * 512 ^ (2 - [i, i2].length) * k)) flags) = h2 at *
  have hT2 : ∀ vpn, vpn < 2 ^ 27 →
      xlate h2 pg1 vpn 2 [] root = remap T start (m + n) ppn flags.toNat vpn := fun vpn hv => by
    rw [hx2 vpn hv, hppn, hlen, pow_zero, Nat.mul_one, Nat.mul_one,
      show pathNum [i, i2] * 512 + i0 = start + m by rw [hstart]; simp [pathNum],
      ← remap_append]
    unfold remap
    simp only [hx1 vpn hv, hT vpn hv]
    rfl
  have hrun : ∀ q, pg1 [i, i2] = some q → OneRun h2 0 q → h2.cell q 0 = 0 := fun q hq hone =>
    hgap.not_mappedRun hinv2 hq (by simp) hT2 (by omega) (by
      simp only [Under, pathNum, List.length_cons, List.length_nil]
      omega) (by omega) hone
  obtain ⟨h3, pg3, hshrink, hinv3, ht1'', hmoves3, hgrow3, hx3, -, hcases, hone3⟩ :=
    shrinkBranch_spec (S := Along i i2) hinv2 ht1' hi le_rfl (show ppn1JmpSize = _ from rfl)
      (Or.inr (Or.inl rfl)) hrun
  refine ⟨t0, h1, h2, h3, pg3, hfetch, hfill, hshrink, hinv3, ht1'',
    (hmoves1.trans hmoves2).trans hmoves3, hgrow3.trans hgrow2,
    fun vpn hv => by rw [hx3 vpn hv, hT2 vpn hv], hone3, ?_⟩
  rcases hcases with ⟨-, rfl⟩ | ⟨-, hz⟩
  · left
    rw [ht0]
    exact Option.some_ne_none t0
  · exact Or.inr hz

/-- The last step, `shrink_branch` of the entry of the root. -/
theorem finish_spec {start count ppn f i i2 : ℕ} {h3 : Heap (BitVec 64)}
    {pg3 : List ℕ → Option ℕ} (hc : Compact h pg) (hi2 : i2 < 512)
    (ht : TableInv h3 root pg3) (hm : Moves (Along i i2) h pg h3 pg3)
    (hgrow : h3.objs.length ≤ h.objs.length + 2)
    (hx : ∀ vpn, vpn < 2 ^ 27 → xlate h3 pg3 vpn 2 [] root =
      remap (fun v => xlate h pg v 2 [] root) start count ppn f vpn)
    (hlow : ∀ q, pg3 [i, i2] = some q → ¬OneRun h3 0 q)
    (hrun : ∀ q, pg3 [i2] = some q → OneRun h3 1 q → h3.cell q 0 = 0) :
    ∃ h4 pg4, shrinkBranch root i2 ppn2JmpSize h3 = .ok h4 ∧
      Mapped h root pg start count ppn f h4 pg4 := by
  obtain ⟨h4, pg4, hshrink, hinv4, -, hmoves4, hgrow4, hx4, -, -, hone4⟩ :=
    shrinkBranch_spec (S := (· = [])) ht ht.root hi2 (Nat.zero_le _)
      (show ppn2JmpSize = _ from rfl) rfl hrun
  have hm4 := hm.trans (hmoves4.mono fun π hπ => Or.inl hπ)
  refine ⟨h4, pg4, hshrink, hinv4, hc.of_moves hm4 fun π q hS hπ hq => ?_, hgrow4.trans hgrow,
    hm4.foreign,
    fun vpn hv => by rw [hx4 vpn hv, hx vpn hv]⟩
  rcases hS with rfl | rfl | rfl
  · exact absurd hπ (by simp)
  · exact hone4 q hq
  · obtain ⟨hq', hcell⟩ := hmoves4.nodes _ q (by simp) hq
    exact fun hone => hlow q hq' (hone.congr fun j => (hcell j).symm)

/-- `shrink_branch` finds nothing to shrink a second time. -/
theorem Mapped.shrinkBranch_keep {start count ppn f i2 : ℕ} {h' : Heap (BitVec 64)}
    {pg' : List ℕ → Option ℕ} (hm : Mapped h root pg start count ppn f h' pg') (hi2 : i2 < 512) :
    shrinkBranch root i2 ppn2JmpSize h' = .ok h' :=
  Toastium.shrinkBranch_keep hm.inv hm.inv.root hi2 (Nat.zero_le _)
    (show ppn2JmpSize = _ from rfl) fun q hq => hm.compact [i2] q le_rfl hq

/-- The entry of a table that is a branch or 0 keeps the table from being a run of mapped
pages. -/
theorem OneRun.zero_of_entry {i i2 q : ℕ} (ht : TableInv h root pg) (hq : pg [i2] = some q)
    (hi : i < 512) (he : pg [i, i2] ≠ none ∨ h.cell q i = 0) (hone : OneRun h 1 q) :
    h.cell q 0 = 0 := by
  by_contra h0
  obtain ⟨base, f, -, hrun⟩ := hone.mapped ht hq le_rfl h0
  obtain ⟨hnone, hne, -⟩ := hrun i hi
  rcases he with he | he
  · exact he hnone
  · exact hne he

/-- `vma_replace_section` with a run of 4 KiB leaves only, in one block of 2 MiB. -/
theorem replaceRuns_low {fuel virt n : ℕ} (ht : TableInv h root pg) (hc : Compact h pg)
    (hv : virt < 2 ^ 39) (hn : 0 < n) (hle : virt % ppn1JmpSize / ppn0JmpSize + n ≤ 512)
    (ha : LeafArgs phys flags (4096 * n))
    (hpin2 : pg [virt / ppn2JmpSize] = none → Unpinned (h.cell root (virt / ppn2JmpSize)))
    (hpin1 : ∀ t1, pg [virt / ppn2JmpSize] = some t1 →
      pg [virt % ppn2JmpSize / ppn1JmpSize, virt / ppn2JmpSize] = none →
      Unpinned (h.cell t1 (virt % ppn2JmpSize / ppn1JmpSize)))
    (hgap : Gap (fun v => xlate h pg v 2 [] root) 0 (virt / 4096) n
      ((windowOffset phys).toNat / 4096) flags) :
    replaceRuns src fuel root virt phys flags ⟨n, 0, 0, 0, 0⟩ h =
      .error (.panic .outOfFreePages) ∧ Exhausted src h ∨
    ∃ h' pg', replaceRuns src fuel root virt phys flags ⟨n, 0, 0, 0, 0⟩ h = .ok h' ∧
      Mapped h root pg (virt / 4096) n ((windowOffset phys).toNat / 4096) flags.toNat h' pg' := by
  have hi2 : virt / ppn2JmpSize < 512 := by unfold ppn2JmpSize; omega
  have hi1 : virt % ppn2JmpSize / ppn1JmpSize < 512 := by unfold ppn2JmpSize ppn1JmpSize; omega
  have hneeded : (decide (0 > 0) || decide (n > 0)) = true := by simpa using hn
  have hneeded' : decide (n > 0) = true := by simpa using hn
  rcases fetchTable_spec src (S := Along (virt % ppn2JmpSize / ppn1JmpSize) (virt / ppn2JmpSize))
    ht ht.root hi2 (Nat.zero_le _) (show ppn2JmpSize = _ from rfl) hpin2 (Or.inl rfl)
    (Or.inr (Or.inl rfl)) with
    ⟨hnone, hpanic⟩ | ⟨t1, h1, pg1, hfetch, hinv1, -, ht1, hmoves1, hx1, hnew⟩
  · left
    exact ⟨by rw [replaceRuns, hneeded, hpanic, error_bind], Or.inl ⟨h, rfl, hnone⟩⟩
  have hpin : pg1 [virt % ppn2JmpSize / ppn1JmpSize, virt / ppn2JmpSize] = none →
      Unpinned (h1.cell t1 (virt % ppn2JmpSize / ppn1JmpSize)) := fun hnone => by
    rcases hnew with ⟨hold, rfl, rfl⟩ | hnew
    · exact hpin1 t1 hold hnone
    · exact (hnew.2 _ hi1).2
  rcases lowRun_spec src (fun v => xlate h pg v 2 [] root) (virt / 4096) 0
    ((windowOffset phys).toNat / 4096) (virt % ppn1JmpSize / ppn0JmpSize) 0 hinv1 ht1 hi1 hpin hn
    hle ha (by omega) (by omega)
    (show (fun k => createLeaf (phys + BitVec.ofNat 64 (ppn0JmpSize * k)) flags) = _ by
      simp only [Nat.zero_add])
    (by unfold ppn2JmpSize ppn1JmpSize ppn0JmpSize; omega) (by rw [Nat.add_zero, Nat.add_zero])
    (fun vpn hv => by rw [hx1 vpn hv, remap_zero]) (by rw [Nat.zero_add]; exact hgap) with
    ⟨hnone, hpanic⟩ |
    ⟨t0, h2, h3, h4, pg4, hfetch2, hfill, hshrink, hinv4, ht1', hmoves4, hgrow4, hx4, hone4, he⟩
  · left
    constructor
    · rw [replaceRuns, hneeded, hfetch, ok_bind]
      dsimp only
      rw [hneeded', hpanic, error_bind]
    · rcases hnew with ⟨-, rfl, -⟩ | ⟨⟨hnext, hobjs⟩, -⟩
      · exact Or.inl ⟨h1, rfl, hnone⟩
      · exact Or.inr ⟨h, h1, t1, rfl, hnext, hobjs, hnone⟩
  right
  rw [Nat.zero_add] at hx4
  have hgrow : h1.objs.length ≤ h.objs.length + 1 := fetched_grow hnew
  obtain ⟨h5, pg5, hshrink5, hmap⟩ := finish_spec hc hi2 hinv4 (hmoves1.trans hmoves4)
    (by omega) hx4 hone4
    fun q hq hone => by
      rw [ht1'] at hq
      cases hq
      exact hone.zero_of_entry hinv4 ht1' hi1 he
  have hkeep := hmap.shrinkBranch_keep hi2
  have hpost := fetchTable_false src hmap.inv hmap.inv.root hi2 ppn2JmpSize
  have heq : replaceRuns src fuel root virt phys flags ⟨n, 0, 0, 0, 0⟩ h = .ok h5 := by
    rw [replaceRuns, hneeded, hfetch, ok_bind]
    dsimp only
    rw [hneeded', hfetch2, ok_bind]
    dsimp only
    rw [hfill, ok_bind, hshrink, ok_bind, replaceLeafs, ok_bind, hshrink5, ok_bind, replaceLeafs,
      ok_bind, Nat.add_zero, show (decide (0 > 0) || decide (0 > 0)) = false from rfl, hpost,
      ok_bind]
    dsimp only
    rw [replaceLeafs, ok_bind, if_neg (lt_irrefl 0), pure_eq_ok, ok_bind, hkeep]
  exact ⟨h5, pg5, heq, hmap⟩

/-- A run of 2 MiB leaves in the table `t1`, where there are no tables. -/
theorem midRun_spec (fuel off : ℕ) {i i2 m t1 size : ℕ} {leaf : ℕ → BitVec 64}
    (ht : TableInv h root pg) (ht1 : pg [i2] = some t1)
    (hnone : ∀ j, i ≤ j → j < i + m → pg [j, i2] = none) (hle : i + m ≤ 512)
    (ha : LeafArgs phys flags size) (hoff : off + ppn1JmpSize * m ≤ size) (hoff4 : 4096 ∣ off)
    (hal : 0 < m → flags = 0 ∨ 512 ∣ ((windowOffset phys).toNat + off) / 4096)
    (hleaf : leaf = fun k => createLeaf (phys + BitVec.ofNat 64 (off + ppn1JmpSize * k)) flags) :
    ∃ h', replaceLeafs fuel t1 i leaf m 0 h = .ok h' ∧ TableInv h' root pg ∧ h'.objs = h.objs ∧
      (∀ S : List ℕ → Prop, S [i2] → Moves S h pg h' pg) ∧
      (∀ j, j < i ∨ i + m ≤ j → h'.cell t1 j = h.cell t1 j) ∧
      ∀ vpn, vpn < 2 ^ 27 → xlate h' pg vpn 2 [] root =
        remap (fun v => xlate h pg v 2 [] root) ((i2 * 512 + i) * 512) (512 * m)
          (((windowOffset phys).toNat + off) / 4096) flags.toNat vpn := by
  have hlen : 2 - [i2].length = 1 := rfl
  obtain ⟨hinv, hx⟩ := writeRun_spec (i := i) (n := m) ht ht1 hnone hle ha
    (by rw [hlen, pow_one]; exact hoff) hoff4 (by rw [hlen, pow_one]; exact hal)
  refine ⟨_, ?_, hinv, rfl, fun S hS => ht.fill_moves ht1 hS _ _, fun j hj => ?_, fun vpn hv => ?_⟩
  · rw [replaceLeafs_eq m 0 (ht.len ht1) (by omega) fun j h1 h2 => by
      rw [ht.getBranchLoc_eq ht1 (by omega), hnone j (by omega) (by omega), Option.getD_none],
      hleaf]
    simp only [hlen, pow_one, Nat.add_zero, Nat.zero_add, ppn1JmpSize]
  · rw [Heap.cell_fill, if_neg (by omega)]
  · rw [hx vpn hv, hlen, pow_one, Nat.mul_comm m]
    simp only [pathNum, Nat.zero_mul, Nat.zero_add]

/-- `vma_replace_section` with a run of 2 MiB leaves only, in one block of 1 GiB. -/
theorem replaceRuns_mid {fuel virt m : ℕ} (ht : TableInv h root pg) (hc : Compact h pg)
    (hv : virt < 2 ^ 39) (hm : 0 < m) (hvirt : virt % ppn1JmpSize = 0)
    (hle : virt % ppn2JmpSize / ppn1JmpSize + m ≤ 512)
    (ha : LeafArgs phys flags (ppn1JmpSize * m))
    (hal : flags = 0 ∨ 512 ∣ (windowOffset phys).toNat / 4096)
    (hpin2 : pg [virt / ppn2JmpSize] = none → Unpinned (h.cell root (virt / ppn2JmpSize)))
    (hnone : ∀ j, virt % ppn2JmpSize / ppn1JmpSize ≤ j →
      j < virt % ppn2JmpSize / ppn1JmpSize + m → pg [j, virt / ppn2JmpSize] = none)
    (hgap : Gap (fun v => xlate h pg v 2 [] root) 1 (virt / 4096) (512 * m)
      ((windowOffset phys).toNat / 4096) flags) :
    replaceRuns src fuel root virt phys flags ⟨0, m, 0, 0, 0⟩ h =
      .error (.panic .outOfFreePages) ∧ Exhausted src h ∨
    ∃ h' pg', replaceRuns src fuel root virt phys flags ⟨0, m, 0, 0, 0⟩ h = .ok h' ∧
      Mapped h root pg (virt / 4096) (512 * m) ((windowOffset phys).toNat / 4096) flags.toNat
        h' pg' := by
  have hi2 : virt / ppn2JmpSize < 512 := by unfold ppn2JmpSize; omega
  have hi1 : virt % ppn2JmpSize / ppn1JmpSize < 512 := by omega
  have hneeded : (decide (m > 0) || decide (0 > 0)) = true := by simpa using hm
  rcases fetchTable_spec src (S := Along (virt % ppn2JmpSize / ppn1JmpSize) (virt / ppn2JmpSize))
    ht ht.root hi2 (Nat.zero_le _) (show ppn2JmpSize = _ from rfl) hpin2 (Or.inl rfl)
    (Or.inr (Or.inl rfl)) with
    ⟨hnone, hpanic⟩ | ⟨t1, h1, pg1, hfetch, hinv1, -, ht1, hmoves1, hx1, hnew⟩
  · left
    exact ⟨by rw [replaceRuns, hneeded, hpanic, error_bind], Or.inl ⟨h, rfl, hnone⟩⟩
  right
  have hnone1 : ∀ j, virt % ppn2JmpSize / ppn1JmpSize ≤ j →
      j < virt % ppn2JmpSize / ppn1JmpSize + m → pg1 [j, virt / ppn2JmpSize] = none :=
    fun j hge hlt => by
      rcases hnew with ⟨-, -, rfl⟩ | hnew
      · exact hnone j hge hlt
      · exact (hnew.2 j (by omega)).1
  have hentry := hnone1 _ le_rfl (by omega)
  have hgrow := fetched_grow hnew
  obtain ⟨h2, hreplace, hinv2, hobjs2, hmoves2, -, hx2⟩ := midRun_spec fuel 0 hinv1 ht1 hnone1 hle
    ha (by omega) (by omega) (fun _ => by rwa [Nat.add_zero])
    (show (fun k => createLeaf (phys + BitVec.ofNat 64 (ppn0JmpSize * 0 + ppn1JmpSize * k)) flags) =
      _ by simp only [Nat.mul_zero])
  have hT2 : ∀ vpn, vpn < 2 ^ 27 → xlate h2 pg1 vpn 2 [] root =
      remap (fun v => xlate h pg v 2 [] root) (virt / 4096) (512 * m)
        ((windowOffset phys).toNat / 4096) flags.toNat vpn := fun vpn hv' => by
    rw [hx2 vpn hv', Nat.add_zero, show (virt / ppn2JmpSize * 512 +
      virt % ppn2JmpSize / ppn1JmpSize) * 512 = virt / 4096 by
        unfold ppn2JmpSize ppn1JmpSize at *; omega]
    unfold remap
    simp only [hx1 vpn hv']
  obtain ⟨h5, pg5, hshrink5, hmap⟩ := finish_spec hc hi2 hinv2
    (hmoves1.trans (hmoves2 _ (Or.inr (Or.inl rfl)))) (by rw [hobjs2]; omega) hT2
    (fun q hq => by rw [hentry] at hq; cases hq)
    fun q hq hone => hgap.not_mappedRun hinv2 hq le_rfl hT2 (by omega) (by
      simp only [Under, pathNum, List.length_cons, List.length_nil]
      unfold ppn2JmpSize ppn1JmpSize at *
      omega) (by unfold ppn2JmpSize ppn1JmpSize at *; omega) hone
  have hkeep1 := shrinkBranch_keep hinv1 ht1 hi1 le_rfl (show ppn1JmpSize = _ from rfl)
    fun q hq => by rw [hentry] at hq; cases hq
  have hkeep := hmap.shrinkBranch_keep hi2
  have hpre := fetchTable_false src hinv1 ht1 hi1 ppn1JmpSize
  have hpost := fetchTable_false src hmap.inv hmap.inv.root hi2 ppn2JmpSize
  have heq : replaceRuns src fuel root virt phys flags ⟨0, m, 0, 0, 0⟩ h = .ok h5 := by
    rw [replaceRuns, hneeded, hfetch, ok_bind]
    dsimp only
    rw [show decide (0 > 0) = false from rfl, hpre, ok_bind]
    dsimp only
    rw [fillLeafs, ok_bind, hkeep1, ok_bind, hreplace, ok_bind, hshrink5, ok_bind, replaceLeafs,
      ok_bind, Nat.add_zero, Bool.or_false, hpost, ok_bind]
    dsimp only
    rw [replaceLeafs, ok_bind, if_neg (lt_irrefl 0), pure_eq_ok, ok_bind, hkeep]
  exact ⟨h5, pg5, heq, hmap⟩

/-- The table of an entry that has one. -/
theorem fetchTable_some (src : KernelPages) {π : List ℕ} {i p q : ℕ} (ht : TableInv h root pg)
    (hp : pg π = some p) (hq : pg (i :: π) = some q) (size : ℕ) (needed : Bool) :
    fetchTable src p i size needed h = .ok (q, h) := by
  unfold fetchTable
  rw [Heap.load_eq_ok (by rw [ht.len hp]; exact (ht.parent hq).1), ok_bind,
    ht.getBranchLoc_eq hp (ht.parent hq).1, hq, Option.getD_some,
    if_neg fun hc => (ht.window hq).pos hc.1]
  rfl

section Post

variable {fuel virt m n t1 : ℕ}

/-- With nothing to write before it, `vma_replace_section` comes to the second table of 2 MiB
leaves. -/
theorem replaceRuns_skip (src : KernelPages) (fuel : ℕ) (phys flags : BitVec 64) (m n : ℕ)
    (ht : TableInv h root pg) (hc : Compact h pg) (hvirt : virt % ppn2JmpSize = 0)
    (ht1 : pg [virt / ppn2JmpSize] = some t1) :
    replaceRuns src fuel root virt phys flags ⟨0, 0, 0, m, n⟩ h = (do
      let h ← replaceLeafs fuel t1 0 (fun k =>
        createLeaf (phys + BitVec.ofNat 64 (0 + ppn1JmpSize * k)) flags) m 0 h
      let h ← if n > 0 then do
          let (t0, h) ← fetchTable src t1 m ppn1JmpSize (n > 0) h
          let h ← fillLeafs t0 0 (fun k => createLeaf
            (phys + BitVec.ofNat 64 (ppn1JmpSize * m + ppn0JmpSize * k)) flags) n 0 h
          shrinkBranch t1 m ppn1JmpSize h
        else pure h
      shrinkBranch root (virt / ppn2JmpSize) ppn2JmpSize h) := by
  have hone1 : ∀ q, pg [virt / ppn2JmpSize] = some q → ¬OneRun h 1 q := fun q hq =>
    hc [virt / ppn2JmpSize] q le_rfl hq
  have hone0 : ∀ q, pg [0, virt / ppn2JmpSize] = some q → ¬OneRun h 0 q := fun q hq =>
    hc [0, virt / ppn2JmpSize] q (by simp) hq
  have hkeep1 := shrinkBranch_keep ht ht1 (by decide) le_rfl (show ppn1JmpSize = _ from rfl) hone0
  have hkeep2 := shrinkBranch_keep ht ht.root (ht.parent ht1).1 (Nat.zero_le _)
    (show ppn2JmpSize = _ from rfl) hone1
  rw [replaceRuns, fetchTable_some src ht ht.root ht1, ok_bind]
  dsimp only
  rw [hvirt, Nat.zero_div, show decide (0 > 0) = false from rfl,
    fetchTable_false src ht ht1 (by decide) ppn1JmpSize, ok_bind]
  dsimp only
  rw [fillLeafs, ok_bind, hkeep1, ok_bind, replaceLeafs, ok_bind, hkeep2, ok_bind, replaceLeafs,
    ok_bind, Nat.add_zero, fetchTable_some src ht ht.root ht1, ok_bind]
  simp only [Nat.mul_zero, Nat.zero_add]

variable (ht : TableInv h root pg) (hc : Compact h pg) (hv : virt < 2 ^ 39)
  (hvirt : virt % ppn2JmpSize = 0) (ht1 : pg [virt / ppn2JmpSize] = some t1) (hm : m < 512)
  (hal : 0 < m → flags = 0 ∨ 512 ∣ (windowOffset phys).toNat / 4096)
  (hnone : ∀ j, j < m → pg [j, virt / ppn2JmpSize] = none)

include ht hc hv hvirt ht1 hm hal hnone

omit hc hv in
/-- The run of 2 MiB leaves that starts the block. -/
theorem midRun_post {size : ℕ} (ha : LeafArgs phys flags size) (hsize : ppn1JmpSize * m ≤ size) :
    ∃ h', replaceLeafs fuel t1 0 (fun k => createLeaf
        (phys + BitVec.ofNat 64 (0 + ppn1JmpSize * k)) flags) m 0 h = .ok h' ∧
      TableInv h' root pg ∧ h'.objs = h.objs ∧
      (∀ S : List ℕ → Prop, S [virt / ppn2JmpSize] → Moves S h pg h' pg) ∧
      h'.cell t1 m = h.cell t1 m ∧
      ∀ vpn, vpn < 2 ^ 27 → xlate h' pg vpn 2 [] root =
        remap (fun v => xlate h pg v 2 [] root) (virt / 4096) (512 * m)
          ((windowOffset phys).toNat / 4096) flags.toNat vpn := by
  have hstart : (virt / ppn2JmpSize * 512 + 0) * 512 = virt / 4096 := by
    unfold ppn2JmpSize at *
    omega
  have hnone' : ∀ j, 0 ≤ j → j < 0 + m → pg [j, virt / ppn2JmpSize] = none := fun j _ hj =>
    hnone j (by omega)
  obtain ⟨h2, hreplace, hinv2, hobjs2, hmoves2, hcell2, hx2⟩ := midRun_spec fuel 0 ht ht1 hnone'
    (by omega) ha (by omega) (by omega) (fun hpos => by rw [Nat.add_zero]; exact hal hpos) rfl
  rw [hstart, Nat.add_zero] at hx2
  exact ⟨h2, hreplace, hinv2, hobjs2, hmoves2, hcell2 m (by omega), hx2⟩

/-- `vma_replace_section` with 2 MiB leaves from the start of a block of 1 GiB on. -/
theorem replaceRuns_postMid (hpos : 0 < m) (ha : LeafArgs phys flags (ppn1JmpSize * m))
    (hgap : Gap (fun v => xlate h pg v 2 [] root) 1 (virt / 4096) (512 * m)
      ((windowOffset phys).toNat / 4096) flags) :
    ∃ h' pg', replaceRuns src fuel root virt phys flags ⟨0, 0, 0, m, 0⟩ h = .ok h' ∧
      Mapped h root pg (virt / 4096) (512 * m) ((windowOffset phys).toNat / 4096) flags.toNat
        h' pg' := by
  have hi2 : virt / ppn2JmpSize < 512 := by unfold ppn2JmpSize; omega
  obtain ⟨h2, hreplace, hinv2, hobjs2, hmoves2, -, hx2⟩ :=
    midRun_post ht hvirt ht1 hm hal hnone ha le_rfl
  obtain ⟨h5, pg5, hshrink5, hmap⟩ := finish_spec hc hi2 hinv2
    (hmoves2 (Along 0 (virt / ppn2JmpSize)) (Or.inr (Or.inl rfl))) (by rw [hobjs2]; omega) hx2
    (fun q hq => by rw [hnone 0 hpos] at hq; cases hq)
    fun q hq hone => hgap.not_mappedRun hinv2 hq le_rfl hx2 (by omega) (by
      simp only [Under, pathNum, List.length_cons, List.length_nil]
      unfold ppn2JmpSize at *
      omega) (by unfold ppn2JmpSize at *; omega) hone
  refine ⟨h5, pg5, ?_, hmap⟩
  rw [replaceRuns_skip src fuel phys flags m 0 ht hc hvirt ht1, hreplace, ok_bind,
    if_neg (lt_irrefl 0), pure_eq_ok, ok_bind]
  exact hshrink5

/-- `vma_replace_section` with 2 MiB leaves from the start of a block of 1 GiB on, and 4 KiB
leaves after them. -/
theorem replaceRuns_postLow (hn : n < 512) (hpos : 0 < n)
    (ha : LeafArgs phys flags (ppn1JmpSize * m + 4096 * n))
    (hpin : pg [m, virt / ppn2JmpSize] = none → Unpinned (h.cell t1 m))
    (hgap : Gap (fun v => xlate h pg v 2 [] root) 0 (virt / 4096) (512 * m + n)
      ((windowOffset phys).toNat / 4096) flags) :
    replaceRuns src fuel root virt phys flags ⟨0, 0, 0, m, n⟩ h =
      .error (.panic .outOfFreePages) ∧ Exhausted src h ∨
    ∃ h' pg', replaceRuns src fuel root virt phys flags ⟨0, 0, 0, m, n⟩ h = .ok h' ∧
      Mapped h root pg (virt / 4096) (512 * m + n) ((windowOffset phys).toNat / 4096)
        flags.toNat h' pg' := by
  have hi2 : virt / ppn2JmpSize < 512 := by unfold ppn2JmpSize; omega
  obtain ⟨h2, hreplace, hinv2, hobjs2, hmoves2, hcell2, hx2⟩ :=
    midRun_post ht hvirt ht1 hm hal hnone ha (by omega)
  rcases lowRun_spec src (fun v => xlate h pg v 2 [] root) (virt / 4096) (512 * m)
    ((windowOffset phys).toNat / 4096) 0 (ppn1JmpSize * m) hinv2 ht1 hm
    (fun he => by rw [hcell2]; exact hpin he) hpos (by omega) ha (by omega)
    (by unfold ppn1JmpSize; omega) rfl (by unfold ppn2JmpSize at *; omega)
    (by unfold ppn1JmpSize; omega) hx2 hgap with
    ⟨hfree, hpanic⟩ |
    ⟨t0, h3, h4, h5, pg5, hfetch, hfill, hshrink, hinv5, ht1', hmoves5, hgrow5, hx5, hone5, he⟩
  · left
    refine ⟨?_, Or.inl ⟨h2, hobjs2, hfree⟩⟩
    rw [replaceRuns_skip src fuel phys flags m n ht hc hvirt ht1, hreplace, ok_bind, if_pos hpos,
      show decide (n > 0) = true by simpa using hpos, hpanic, error_bind]
  right
  obtain ⟨h6, pg6, hshrink6, hmap⟩ := finish_spec hc hi2 hinv5
    ((hmoves2 (Along m (virt / ppn2JmpSize)) (Or.inr (Or.inl rfl))).trans hmoves5)
    (by rw [hobjs2] at hgrow5; omega) hx5 hone5
    fun q hq hone => by
      rw [ht1'] at hq
      cases hq
      exact hone.zero_of_entry hinv5 ht1' hm he
  refine ⟨h6, pg6, ?_, hmap⟩
  rw [replaceRuns_skip src fuel phys flags m n ht hc hvirt ht1, hreplace, ok_bind, if_pos hpos,
    show decide (n > 0) = true by simpa using hpos, hfetch, ok_bind]
  dsimp only
  rw [hfill, ok_bind, hshrink, ok_bind, hshrink6]

end Post

end Toastium
