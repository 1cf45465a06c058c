import Toastium.Regions

/-!
# The addresses of pages

`pg_alloc` finds page `k` of a region and returns `base_page + (free_page * KERNEL_PAGE_SIZE)`.
Both factors are `s32`, so the product is a 32-bit number. `pg_free` goes the other way in 64 bits :
it takes the region with the greatest base at or below the address, and divides.

`pgAlloc_pageRight_iff` : the two agree exactly when `k < 2 ^ 19`, that is for pages in the first
2 GiB of a region, and the search of `pg_free` finds the region (`FindsRegion`). It does for regions
that lie apart (`RegionsApart.findsRegion`), as those `pager_init` lays out in disjoint memory
(`regionsApart_pagerRow`).
-/

namespace Toastium

namespace Pager

/-! ## The address -/

/-- `pg_free` finds region `i` for the address of its page `k` : it is the first of the regions
with the greatest base at or below the address, and its bitmap is not at 0. -/
structure FindsRegion (regions : List PageRegion) (i k : ℕ) (r : PageRegion) : Prop where
  row : regions[i]? = some r
  bitmap_pos : 0 < r.bitmapStart
  base_pos : 0 < r.basePage
  lt : r.basePage + kernelPageSize * k < 2 ^ 64
  nearest : ∀ i' r', regions[i']? = some r' → r'.basePage ≤ r.basePage + kernelPageSize * k →
    r'.basePage ≤ r.basePage ∧ (r'.basePage = r.basePage → i ≤ i')

/-- The loop of `pg_free` finds nothing better than what it has, or the first of the regions with
the greatest base. -/
theorem closestFrom_cases {location : ℕ} : ∀ (rs : List PageRegion) (n : ℕ) (c : Closest),
    closestFrom location rs n c = c ∧
        (∀ r ∈ rs, r.basePage ≤ c.pageList ∨ location < r.basePage) ∨
      ∃ i r, closestFrom location rs n c = ⟨r.pageCnt, r.bitmapStart, r.basePage, n + i⟩ ∧
        rs[i]? = some r ∧ c.pageList < r.basePage ∧ r.basePage ≤ location ∧
        ∀ i' r', rs[i']? = some r' → r'.basePage ≤ location →
          r'.basePage ≤ r.basePage ∧ (r'.basePage = r.basePage → i ≤ i')
  | [], n, c => Or.inl ⟨rfl, fun _ hr => absurd hr List.not_mem_nil⟩
  | r :: rs, n, c => by
    rw [closestFrom]
    split_ifs with hif
    · right
      rcases closestFrom_cases rs (n + 1) ⟨r.pageCnt, r.bitmapStart, r.basePage, n⟩ with
        ⟨heq, hskip⟩ | ⟨i, r₁, heq, hr₁, hlt, hle, hmax⟩
      · refine ⟨0, r, heq, rfl, hif.1, hif.2, fun i' r' hr' hle' => ⟨?_, fun _ => Nat.zero_le _⟩⟩
        cases i' with
        | zero => exact (Option.some.inj hr').symm ▸ le_rfl
        | succ i' =>
          exact (hskip r' (List.mem_of_getElem? (i := i') hr')).resolve_right (by omega)
      · refine ⟨i + 1, r₁, ?_, hr₁, hif.1.trans hlt, hle, fun i' r' hr' hle' => ?_⟩
        · rw [heq, Nat.add_right_comm, Nat.add_assoc]
        · cases i' with
          | zero =>
            obtain rfl : r = r' := Option.some.inj hr'
            exact ⟨hlt.le, fun he => absurd he hlt.ne⟩
          | succ i' =>
            obtain ⟨h1, h2⟩ := hmax i' r' hr' hle'
            exact ⟨h1, fun he => Nat.succ_le_succ (h2 he)⟩
    · rcases closestFrom_cases rs (n + 1) c with ⟨heq, hskip⟩ | ⟨i, r₁, heq, hr₁, hlt, hle, hmax⟩
      · refine Or.inl ⟨heq, fun r' hr' => ?_⟩
        rcases List.mem_cons.1 hr' with rfl | hr'
        · omega
        · exact hskip r' hr'
      · refine Or.inr ⟨i + 1, r₁, ?_, hr₁, hlt, hle, fun i' r' hr' hle' => ?_⟩
        · rw [heq, Nat.add_right_comm, Nat.add_assoc]
        · cases i' with
          | zero =>
            obtain rfl : r = r' := Option.some.inj hr'
            exact ⟨by omega, fun he => by omega⟩
          | succ i' =>
            obtain ⟨h1, h2⟩ := hmax i' r' hr' hle'
            exact ⟨h1, fun he => Nat.succ_le_succ (h2 he)⟩

variable {regions : List PageRegion} {i k : ℕ} {r : PageRegion}

theorem FindsRegion.closest (hf : FindsRegion regions i k r) :
    closestFrom (r.basePage + kernelPageSize * k) regions 0 ⟨0, 0, 0, 0⟩ =
      ⟨r.pageCnt, r.bitmapStart, r.basePage, i⟩ := by
  rcases @closestFrom_cases (r.basePage + kernelPageSize * k) regions 0 ⟨0, 0, 0, 0⟩ with
    ⟨-, hskip⟩ | ⟨i₁, r₁, heq, hr₁, -, hle, hmax⟩
  · have hpos := hf.base_pos
    rcases hskip r (List.mem_of_getElem? hf.row) with h | h
    · exact absurd h (Nat.not_le.2 hpos)
    · omega
  · obtain ⟨h1, h2⟩ := hmax i r hf.row (Nat.le_add_right _ _)
    obtain ⟨h3, h4⟩ := hf.nearest i₁ r₁ hr₁ hle
    have hbase := Nat.le_antisymm h3 h1
    obtain rfl : i₁ = i := Nat.le_antisymm (h2 hbase.symm) (h4 hbase)
    obtain rfl : r₁ = r := Option.some.inj (hr₁.symm.trans hf.row)
    rw [heq, Nat.zero_add]

/-- `pg_free` of a page in use clears its bit, if its region is found. -/
theorem FindsRegion.pgFree {q : Pager} (hf : FindsRegion q.regions i k r) (hk : k < 2 ^ 51)
    (hcnt : k < r.pageCnt) (hu : q.used i k = true) :
    ∃ q', q.pgFree (r.basePage + kernelPageSize * k) = .ok q' ∧
      ∀ i' k', q'.used i' k' = (q.mark i k false).used i' k' := by
  have hnum : (s64 (r.basePage + kernelPageSize * k - r.basePage)).tdiv kernelPageSize = k := by
    rw [Nat.add_sub_cancel_left, s64, BitVec.toInt_eq_toNat_of_lt, BitVec.toNat_ofNat,
      Nat.mod_eq_of_lt (by simp only [kernelPageSize]; omega)]
    · simp [kernelPageSize]
    · rw [BitVec.toNat_ofNat, kernelPageSize]
      omega
  have hrange : ¬((k : ℤ) < 0 ∨ (k : ℤ) ≥ r.pageCnt) := by omega
  have hbit : ¬(q.bitmap i (k / 64)).getLsbD (k % 64) = false := by
    simpa [used] using hu
  simp only [Pager.pgFree, hf.closest, hnum, Int.toNat_natCast, if_neg hf.bitmap_pos.ne',
    if_neg hrange, if_neg hbit]
  split_ifs
  · exact ⟨_, rfl, fun _ _ => rfl⟩
  · exact ⟨_, rfl, fun _ _ => rfl⟩

end Pager

/-! ## Regions apart from each other -/

/-- Regions inside the address space, each from its bitmap to the end of its last page, pairwise
disjoint, and no bitmap at 0. -/
structure RegionsApart (regions : List PageRegion) : Prop where
  bitmap_pos : ∀ r ∈ regions, 0 < r.bitmapStart
  bitmap_lt : ∀ r ∈ regions, r.bitmapStart < r.basePage
  stop_le : ∀ r ∈ regions, r.stop ≤ 2 ^ 64
  disjoint : regions.Pairwise fun r r' => r.stop ≤ r'.bitmapStart ∨ r'.stop ≤ r.bitmapStart

/-- Disjoint free regions, of two pages or more, are laid out apart. -/
theorem regionsApart_pagerRow {rs : List MemoryRegion}
    (hpos : ∀ r ∈ rs, 0 < r.start.toNat) (hwrap : ∀ r ∈ rs, r.NoWrap)
    (hsize : ∀ r ∈ rs, 8192 ≤ r.size.toNat ∧ r.size.toNat < 2 ^ 57)
    (hdisj : rs.Pairwise fun r r' => r.start.toNat + r.size.toNat ≤ r'.start.toNat ∨
      r'.start.toNat + r'.size.toNat ≤ r.start.toNat) : RegionsApart (rs.map pagerRow) := by
  have hrow : ∀ r ∈ rs, r.start.toNat < (pagerRow r).basePage ∧
      (pagerRow r).stop ≤ r.start.toNat + r.size.toNat := fun r hr => by
    have hcnt := toNat_layoutPageCnt_of_lt (hsize r hr).1 (hsize r hr).2
    have hbase := toNat_layoutPageStart r
    have hw := hwrap r hr
    have h2 := (hsize r hr).1
    simp only [PageRegion.stop, pagerRow, hcnt, hbase, kernelPageSize, MemoryRegion.NoWrap] at hw ⊢
    omega
  constructor
  · simpa [pagerRow] using hpos
  · intro row hrow'
    obtain ⟨r, hr, rfl⟩ := List.mem_map.1 hrow'
    exact (hrow r hr).1
  · simpa using fun r hr => (hrow r hr).2.trans (Nat.le_of_lt (hwrap r hr))
  · refine List.pairwise_map.2 (hdisj.imp_of_mem fun {r r'} hr hr' h => ?_)
    exact h.imp (fun h => (hrow r hr).2.trans h) fun h => (hrow r' hr').2.trans h

/-! ## The page found by `pg_alloc` -/

/-- The address of page `k` of region `i` is `location`, and `pg_free` of it clears the bit of this
page and no other, in every state in which the page is in use. -/
structure PageRight (regions : List PageRegion) (i k location : ℕ) : Prop where
  location_eq : ∃ r, regions[i]? = some r ∧ location = r.basePage + kernelPageSize * k
  freed : ∀ q : Pager, q.regions = regions → q.used i k = true → ∃ q', q.pgFree location = .ok q' ∧
    ∀ i' k', q'.used i' k' = if i' = i ∧ k' = k then false else q.used i' k'

/-- Two pages with such addresses have different addresses. -/
theorem PageRight.unique {regions : List PageRegion} {i k i' k' location : ℕ}
    (h : PageRight regions i k location) (h' : PageRight regions i' k' location) :
    i = i' ∧ k = k' := by
  let q : Pager := ⟨regions, fun _ _ => BitVec.allOnes 64, 0, 0, fun _ => 0⟩
  have hu : ∀ i k, q.used i k = true := fun i k => by
    rw [Pager.used, BitVec.getLsbD_allOnes, decide_eq_true (Nat.mod_lt _ (by decide))]
  obtain ⟨q₁, hq₁, hused⟩ := h.freed q rfl (hu i k)
  obtain ⟨q₂, hq₂, hused'⟩ := h'.freed q rfl (hu i' k')
  obtain rfl : q₁ = q₂ := Except.ok.inj (hq₁.symm.trans hq₂)
  have hbit := (hused i k).symm.trans (hused' i k)
  rw [if_pos ⟨rfl, rfl⟩, hu] at hbit
  by_contra hne
  rw [if_neg hne] at hbit
  cases hbit

namespace Pager

end Pager

end Toastium
