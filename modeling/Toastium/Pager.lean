import Toastium.Reach
import Toastium.Layout
import Toastium.Word
import Mathlib.Data.Finset.Basic
import Mathlib.Data.List.Basic
import Mathlib.Tactic

/-!
# The page allocator

`pg_alloc` and `pg_free` of `pager.c`. The region table `pager_bitmap_list` has one row
per memory region: the number of pages, the address of the bitmap, the address of the
first page. A set bit marks a page in use. Only whole bitmap words are searched, so the
usable pages of a region of `cnt` pages are the first `64 · ⌊cnt / 64⌋`.

The search starts at a hint, the pair `last_free_bitmap`, `last_free_page_num`, which
`pg_alloc` moves to the page it found and `pg_free` lowers to the page it frees.
`PagerInv.hint` is the invariant that carries the search : a usable page before the
hint, in whole words, is in use. `pgAlloc_least_free` concludes that over every run
`pg_alloc` hands out the least free page, and panics exactly when there is none.

The bitmaps are kept apart from the page memory `mem`, so a page owner cannot write them.
-/

namespace Toastium

/-! ## The code -/

/-- A row of `pager_bitmap_list`. -/
structure PageRegion where
  /-- Number of pages. -/
  pageCnt : ℕ
  /-- Address of the bitmap. -/
  bitmapStart : ℕ
  /-- Address of the first page. -/
  basePage : ℕ
  deriving DecidableEq, Repr

/-- The state of the page allocator. `bitmap i j` is word `j` of region `i`'s bitmap,
`mem` the word at an address of page memory. -/
structure Pager where
  regions : List PageRegion
  bitmap : ℕ → ℕ → BitVec 64
  lastFreeBitmap : ℕ
  lastFreePageNum : ℕ
  mem : ℕ → BitVec 64

/-- A page `pg_alloc` returns : its region, its index there, and the address. -/
structure PageGrant where
  region : ℕ
  page : ℕ
  location : ℕ
  deriving DecidableEq, Repr

namespace Pager

/-- The inner loop of `pg_alloc` : the first word from `pageStart` on with a clear bit. -/
def freeWord (p : Pager) (i : ℕ) (r : PageRegion) (pageStart : ℕ) : Option ℕ :=
  (List.range' pageStart (r.pageCnt / 64 - pageStart)).find? fun j =>
    p.bitmap i j != BitVec.allOnes 64

/-- The word the inner loop starts at, for region `i`. -/
def pageStart (p : Pager) (i : ℕ) : ℕ :=
  if i = p.lastFreeBitmap then p.lastFreePageNum / 64 else 0

/-- The two loops of `pg_alloc` : region and index of the page found. -/
def findFree (p : Pager) : Option (ℕ × ℕ) :=
  (List.range' p.lastFreeBitmap (p.regions.length - p.lastFreeBitmap)).findSome? fun i => do
    let r ← p.regions[i]?
    let j ← p.freeWord i r (p.pageStart i)
    return (i, j * 64 + firstClear (p.bitmap i j))

/-- `base_page + (free_page * KERNEL_PAGE_SIZE)`. Both factors are `s32`, so the product
is a 32-bit signed integer that is then extended to 64 bits. -/
def pageLocation (basePage freePage : ℕ) : ℕ :=
  (BitVec.ofNat 64 basePage +
    (BitVec.ofNat 32 freePage * BitVec.ofNat 32 kernelPageSize).signExtend 64).toNat

/-- The page at `location` blanked out. -/
def blankPage (mem : ℕ → BitVec 64) (location : ℕ) : ℕ → BitVec 64 :=
  fun a => if location ≤ a ∧ a < location + kernelPageSize then 0 else mem a

/-- Word `j` of region `i`'s bitmap replaced. -/
def setWord (bitmap : ℕ → ℕ → BitVec 64) (i j : ℕ) (w : BitVec 64) : ℕ → ℕ → BitVec 64 :=
  fun i' j' => if i' = i ∧ j' = j then w else bitmap i' j'

/-- `pg_alloc`. -/
def pgAlloc (p : Pager) : Except Panic (PageGrant × Pager) :=
  match p.findFree with
  | none => .error .outOfFreePages
  | some (i, freePage) =>
    let location := pageLocation ((p.regions[i]?).elim 0 PageRegion.basePage) freePage
    .ok (⟨i, freePage, location⟩,
      { p with
        lastFreeBitmap := i
        lastFreePageNum := freePage
        bitmap := setWord p.bitmap i (freePage / 64)
          (setBit (p.bitmap i (freePage / 64)) (freePage % 64))
        mem := blankPage p.mem location })

/-- The `closest_*` locals of `pg_free`. -/
structure Closest where
  pageCnt : ℕ
  bitmap : ℕ
  pageList : ℕ
  num : ℕ
  deriving DecidableEq, Repr

/-- The loop of `pg_free` over the regions from number `i` on. -/
def closestFrom (location : ℕ) : List PageRegion → ℕ → Closest → Closest
  | [], _, c => c
  | r :: rs, i, c =>
    closestFrom location rs (i + 1)
      (if r.basePage > c.pageList ∧ location ≥ r.basePage then
        ⟨r.pageCnt, r.bitmapStart, r.basePage, i⟩
      else c)

/-- A 64-bit value read as `s64`. -/
def s64 (x : ℕ) : ℤ :=
  (BitVec.ofNat 64 x).toInt

/-- `pg_free`. -/
def pgFree (p : Pager) (location : ℕ) : Except Panic Pager :=
  let c := closestFrom location p.regions 0 ⟨0, 0, 0, 0⟩
  let pageNum : ℤ := (s64 (location - c.pageList)).tdiv kernelPageSize
  if c.bitmap = 0 then .error .pageRemoveNoOverride
  else if pageNum < 0 ∨ pageNum ≥ c.pageCnt then .error .attemptRemovePageOutOfRange
  else
    let k := pageNum.toNat
    if (p.bitmap c.num (k / 64)).getLsbD (k % 64) = false then .error .doubleFreePage
    else
      let p' := { p with bitmap := setWord p.bitmap c.num (k / 64)
                          (clearBit (p.bitmap c.num (k / 64)) (k % 64)) }
      if p.lastFreeBitmap > c.num ∨ (p.lastFreePageNum > k ∧ p.lastFreeBitmap = c.num) then
        .ok { p' with lastFreeBitmap := c.num, lastFreePageNum := k }
      else .ok p'

/-! ## Pages by region and index -/

/-- The bit of page `k` of region `i`. -/
def used (p : Pager) (i k : ℕ) : Bool :=
  (p.bitmap i (k / 64)).getLsbD (k % 64)

/-- Page `k` of region `i` lies in a bitmap word that is searched. -/
def Usable (p : Pager) (i k : ℕ) : Prop :=
  ∃ r, p.regions[i]? = some r ∧ k < 64 * (r.pageCnt / 64)

/-- Page `k` of region `i` lies before the hint, in whole words. -/
def BeforeHint (p : Pager) (i k : ℕ) : Prop :=
  i < p.lastFreeBitmap ∨ i = p.lastFreeBitmap ∧ k / 64 < p.lastFreePageNum / 64

/-! ## The search -/

variable {p : Pager} {i j k : ℕ} {r : PageRegion}

theorem freeWord_eq_some {start : ℕ} (h : p.freeWord i r start = some j) :
    p.bitmap i j ≠ BitVec.allOnes 64 ∧ start ≤ j ∧ j < r.pageCnt / 64 ∧
      ∀ j', start ≤ j' → j' < j → p.bitmap i j' = BitVec.allOnes 64 := by
  obtain ⟨hne, hmem, hall⟩ := List.find?_range'_eq_some.1 h
  rw [List.mem_range'_1] at hmem
  refine ⟨by simpa using hne, hmem.1, by omega, fun j' h1 h2 => ?_⟩
  simpa using hall j' h1 h2

theorem freeWord_eq_none {start : ℕ} (h : p.freeWord i r start = none) :
    ∀ j', start ≤ j' → j' < r.pageCnt / 64 → p.bitmap i j' = BitVec.allOnes 64 := by
  intro j' h1 h2
  have := List.find?_range'_eq_none.1 h j' h1 (by omega)
  simpa using this

/-- A page in a word of all ones is in use. -/
theorem used_of_allOnes (h : p.bitmap i (k / 64) = BitVec.allOnes 64) : p.used i k = true :=
  eq_allOnes_iff.1 h _ (Nat.mod_lt _ (by decide))

/-- The regions the outer loop passed over hold no free usable page. -/
def Passed (p : Pager) (i : ℕ) : Prop :=
  ∀ k, p.Usable i k → p.used i k = true

/-- Every usable page before the hint is in use. -/
def HintFull (p : Pager) : Prop :=
  ∀ i k, p.Usable i k → p.BeforeHint i k → p.used i k = true

theorem used_of_lt_pageStart (hp : p.HintFull) (hu : p.Usable i k)
    (hk : k / 64 < p.pageStart i) : p.used i k = true := by
  unfold pageStart at hk
  split_ifs at hk with h
  · exact hp i k hu (Or.inr ⟨h, hk⟩)
  · omega

/-- A region without a free word from its start on holds no free usable page. -/
theorem passed_of_freeWord_none (hp : p.HintFull)
    (h : ∀ r, p.regions[i]? = some r → p.freeWord i r (p.pageStart i) = none) : p.Passed i := by
  intro k hu
  obtain ⟨r, hr, hk⟩ := hu
  rcases Nat.lt_or_ge (k / 64) (p.pageStart i) with hlt | hge
  · exact used_of_lt_pageStart hp ⟨r, hr, hk⟩ hlt
  · exact used_of_allOnes (freeWord_eq_none (h r hr) _ hge (by omega))

theorem findFree_eq_some (h : p.findFree = some (i, k)) :
    (∃ r j, p.regions[i]? = some r ∧ p.freeWord i r (p.pageStart i) = some j ∧
      k = j * 64 + firstClear (p.bitmap i j)) ∧ p.lastFreeBitmap ≤ i ∧
    ∀ i', p.lastFreeBitmap ≤ i' → i' < i →
      ∀ r, p.regions[i']? = some r → p.freeWord i' r (p.pageStart i') = none := by
  obtain ⟨l₁, a, l₂, hl, ha, hnone⟩ := List.findSome?_eq_some_iff.1 h
  obtain ⟨n, hn, rfl, hcons⟩ := List.range'_eq_append_iff.1 hl
  obtain rfl : p.lastFreeBitmap + n * 1 = a := by
    rw [eq_comm, List.range'_eq_cons_iff] at hcons
    exact hcons.1
  simp only [Option.bind_eq_bind, Option.bind_eq_some_iff, Option.pure_def, Option.some.injEq,
    Prod.mk.injEq] at ha
  obtain ⟨r, hr, j, hj, hi, hk⟩ := ha
  subst hi
  refine ⟨⟨r, j, hr, hj, hk.symm⟩, by omega, fun i' h1 h2 r' hr' => ?_⟩
  have h0 := hnone i' (List.mem_range'_1.2 ⟨h1, by omega⟩)
  by_contra hne
  obtain ⟨j', hj'⟩ := Option.ne_none_iff_exists'.1 hne
  simp [hr', hj'] at h0

/-- The search finds a free usable page, and it is the least one. -/
theorem findFree_least (hp : p.HintFull) (h : p.findFree = some (i, k)) :
    p.Usable i k ∧ p.used i k = false ∧
      (∀ i' k', p.Usable i' k' → p.used i' k' = false → i < i' ∨ i = i' ∧ k ≤ k') := by
  obtain ⟨⟨r, j, hr, hj, rfl⟩, -, hnone⟩ := findFree_eq_some h
  obtain ⟨hne, -, hcnt, hall⟩ := freeWord_eq_some hj
  have hlt := firstClear_lt hne
  have hdiv : (j * 64 + firstClear (p.bitmap i j)) / 64 = j := by omega
  have hmod : (j * 64 + firstClear (p.bitmap i j)) % 64 = firstClear (p.bitmap i j) := by omega
  refine ⟨⟨r, hr, by omega⟩, ?_, fun i' k' hu hfree => ?_⟩
  · rw [used, hdiv, hmod]
    exact getLsbD_firstClear hne
  · by_contra hcon
    rw [not_or, not_and] at hcon
    obtain ⟨h1, h2⟩ := hcon
    have hin : p.used i' k' = true := by
      rcases Nat.lt_or_ge i' i with hlt' | hge
      · rcases Nat.lt_or_ge i' p.lastFreeBitmap with hb | hb
        · exact hp i' k' hu (Or.inl hb)
        · exact passed_of_freeWord_none hp (hnone i' hb hlt') k' hu
      · obtain rfl : i = i' := by omega
        have hk := h2 rfl
        rcases Nat.lt_or_ge (k' / 64) (p.pageStart i) with hs | hs
        · exact used_of_lt_pageStart hp hu hs
        · rcases Nat.lt_or_ge (k' / 64) j with hw | hw
          · exact used_of_allOnes (hall _ hs hw)
          · obtain rfl : k' / 64 = j := by omega
            exact getLsbD_of_lt_firstClear (Nat.mod_lt _ (by decide)) (by omega)
    simp [hin] at hfree

/-- Page `k` of region `i` set in use or free in the bitmaps. -/
def mark (p : Pager) (i k : ℕ) (b : Bool) : Pager :=
  { p with
    bitmap := setWord p.bitmap i (k / 64)
      (if b then setBit (p.bitmap i (k / 64)) (k % 64)
        else clearBit (p.bitmap i (k / 64)) (k % 64)) }

theorem used_mark (p : Pager) (i k : ℕ) (b : Bool) (i' k' : ℕ) :
    (p.mark i k b).used i' k' = if i' = i ∧ k' = k then b else p.used i' k' := by
  have hm : k' % 64 < 64 := Nat.mod_lt _ (by decide)
  by_cases hw : i' = i ∧ k' / 64 = k / 64
  · obtain ⟨rfl, hd⟩ := hw
    by_cases hk : k' = k
    · subst hk
      cases b <;> simp [used, mark, setWord, getLsbD_setBit hm, getLsbD_clearBit hm]
    · have hk' : k' % 64 ≠ k % 64 := by omega
      cases b <;> simp [used, mark, setWord, hd, getLsbD_setBit hm, getLsbD_clearBit hm, hk, hk']
  · have hne : ¬(i' = i ∧ k' = k) := by
      rintro ⟨rfl, rfl⟩
      exact hw ⟨rfl, rfl⟩
    simp [used, mark, setWord, hw, hne]

/-- `pg_alloc` marks the page it found and moves the hint there. -/
theorem pgAlloc_eq_ok {g : PageGrant} {p' : Pager} (h : p.pgAlloc = .ok (g, p')) :
    p.findFree = some (g.region, g.page) ∧ p'.regions = p.regions ∧
      p'.lastFreeBitmap = g.region ∧ p'.lastFreePageNum = g.page ∧
      ∀ i k, p'.used i k = (p.mark g.region g.page true).used i k := by
  unfold pgAlloc at h
  split at h
  · cases h
  · next i k hf =>
    simp only [Except.ok.injEq, Prod.mk.injEq] at h
    obtain ⟨rfl, rfl⟩ := h
    exact ⟨hf, rfl, rfl, rfl, fun _ _ => rfl⟩

end Pager

/-! ## The region of an address -/

/-- The end of the region's last page. -/
def PageRegion.stop (r : PageRegion) : ℕ :=
  r.basePage + kernelPageSize * r.pageCnt

/-- A region table the pager can run on : the bitmap of a region is at a non-null address
below the first page, the pages end inside the address space, and the regions, each from
its bitmap to the end of its last page, are pairwise disjoint. -/
structure PageTableWf (regions : List PageRegion) : Prop where
  pageCnt_lt : ∀ r ∈ regions, r.pageCnt < 2 ^ 31
  bitmap_pos : ∀ r ∈ regions, 0 < r.bitmapStart
  bitmap_lt : ∀ r ∈ regions, r.bitmapStart < r.basePage
  stop_le : ∀ r ∈ regions, r.stop ≤ 2 ^ 64
  disjoint : regions.Pairwise fun r r' => r.stop ≤ r'.bitmapStart ∨ r'.stop ≤ r.bitmapStart

namespace Pager

variable {p : Pager} {i k : ℕ} {r : PageRegion} {location : ℕ}

/-- A region whose base is above `location`, or below the one already found, is passed
over. -/
theorem closestFrom_keep {c : Closest} :
    ∀ (rs : List PageRegion) (n : ℕ),
      (∀ r' ∈ rs, r'.basePage ≤ c.pageList ∨ location < r'.basePage) →
      closestFrom location rs n c = c
  | [], _, _ => rfl
  | r' :: rs, n, h => by
    have hr : ¬(r'.basePage > c.pageList ∧ location ≥ r'.basePage) := by
      have := h r' (by simp)
      omega
    rw [closestFrom, if_neg hr]
    exact closestFrom_keep rs (n + 1) fun r'' h'' => h r'' (by simp [h''])

/-- The loop of `pg_free` finds the region with the greatest base at or below `location`. -/
theorem closestFrom_eq (hloc : r.basePage ≤ location) :
    ∀ (rs : List PageRegion) (n i : ℕ) (c : Closest), rs[i]? = some r →
      c.pageList < r.basePage →
      (∀ i' r', rs[i']? = some r' → i' ≠ i → r'.basePage < r.basePage ∨ location < r'.basePage) →
      closestFrom location rs n c = ⟨r.pageCnt, r.bitmapStart, r.basePage, n + i⟩
  | [], _, _, _, h, _, _ => by simp at h
  | r' :: rs, n, 0, c, h, hc, hall => by
    obtain rfl : r' = r := by simpa using h
    rw [closestFrom, if_pos ⟨hc, hloc⟩, closestFrom_keep, Nat.add_zero]
    intro r'' hr''
    obtain ⟨i', hi'⟩ := List.mem_iff_getElem?.1 hr''
    rcases hall (i' + 1) r'' (by simpa using hi') (by omega) with h' | h'
    · exact Or.inl (Nat.le_of_lt h')
    · exact Or.inr h'
  | r' :: rs, n, i + 1, c, h, hc, hall => by
    rw [closestFrom, closestFrom_eq hloc rs (n + 1) i _ (by simpa using h), Nat.add_right_comm,
      Nat.add_assoc]
    · have h0 := hall 0 r' (by simp) (by omega)
      split_ifs with hif
      · change r'.basePage < r.basePage
        omega
      · exact hc
    · intro i' r'' hi' hne
      exact hall (i' + 1) r'' (by simpa using hi') (by omega)

/-- A page of region `i` lies in no other region, so its address leads back to region `i`. -/
theorem closest_page (hwf : PageTableWf p.regions) (hr : p.regions[i]? = some r)
    (hk : k < r.pageCnt) :
    closestFrom (r.basePage + kernelPageSize * k) p.regions 0 ⟨0, 0, 0, 0⟩ =
      ⟨r.pageCnt, r.bitmapStart, r.basePage, i⟩ := by
  have hmem := List.mem_of_getElem? hr
  have hpos : 0 < r.basePage := (hwf.bitmap_pos r hmem).trans (hwf.bitmap_lt r hmem)
  rw [closestFrom_eq (Nat.le_add_right _ _) p.regions 0 i _ hr hpos, Nat.zero_add]
  intro i' r' hr' hne
  have hlt' := hwf.bitmap_lt r' (List.mem_of_getElem? hr')
  have hlt := hwf.bitmap_lt r hmem
  have hdisj : r.stop ≤ r'.bitmapStart ∨ r'.stop ≤ r.bitmapStart := by
    obtain ⟨hi, rfl⟩ := List.getElem?_eq_some_iff.1 hr
    obtain ⟨hi', rfl⟩ := List.getElem?_eq_some_iff.1 hr'
    rcases Nat.lt_or_gt_of_ne hne with h | h
    · exact (List.pairwise_iff_getElem.1 hwf.disjoint i' i hi' hi h).symm
    · exact List.pairwise_iff_getElem.1 hwf.disjoint i i' hi hi' h
  simp only [PageRegion.stop, kernelPageSize] at hdisj ⊢
  omega

/-- `pg_free` of a page in use clears its bit and lowers the hint to it if it was above. -/
theorem pgFree_page (hwf : PageTableWf p.regions) (hr : p.regions[i]? = some r)
    (hk : k < r.pageCnt) (hu : p.used i k = true) :
    p.pgFree (r.basePage + kernelPageSize * k) =
      .ok (if p.lastFreeBitmap > i ∨ (p.lastFreePageNum > k ∧ p.lastFreeBitmap = i) then
        { p.mark i k false with lastFreeBitmap := i, lastFreePageNum := k }
      else p.mark i k false) := by
  have hmem := List.mem_of_getElem? hr
  have hcnt := hwf.pageCnt_lt r hmem
  have hnum : (s64 (r.basePage + kernelPageSize * k - r.basePage)).tdiv kernelPageSize = k := by
    have hlt : kernelPageSize * k < 2 ^ 63 := by
      simp only [kernelPageSize]
      omega
    rw [Nat.add_sub_cancel_left, s64, BitVec.toInt_eq_toNat_of_lt, BitVec.toNat_ofNat,
      Nat.mod_eq_of_lt (by omega)]
    · simp [kernelPageSize]
    · rw [BitVec.toNat_ofNat, Nat.mod_eq_of_lt (by omega)]
      omega
  have hbm : r.bitmapStart ≠ 0 := (hwf.bitmap_pos r hmem).ne'
  have hrange : ¬((k : ℤ) < 0 ∨ (k : ℤ) ≥ r.pageCnt) := by omega
  have hbit : ¬(p.bitmap i (k / 64)).getLsbD (k % 64) = false := by
    simpa [used] using hu
  simp only [pgFree, closest_page hwf hr hk, hnum, Int.toNat_natCast, if_neg hbm, if_neg hrange,
    if_neg hbit]
  split_ifs <;> rfl

end Pager

/-! ## Runs -/

/-- The pager, with the pages handed out and not freed since. -/
structure PagerRun where
  pager : Pager
  owned : Finset (ℕ × ℕ)

/-- A call of `pg_alloc`, or of `pg_free` on page `k` of region `i`. -/
inductive PagerOp
  | alloc
  | free (i k : ℕ)

/-- Zeroed bitmaps, the hint at zero, no page handed out. -/
def PagerInit (regions : List PageRegion) (s : PagerRun) : Prop :=
  s.pager.regions = regions ∧ s.pager.bitmap = (fun _ _ => 0) ∧ s.pager.lastFreeBitmap = 0 ∧
    s.pager.lastFreePageNum = 0 ∧ s.owned = ∅

/-- A call that returns. `pg_free` is given the address of a page handed out before. -/
inductive PagerStep : PagerRun → PagerOp → PagerRun → Prop
  | alloc {s : PagerRun} {g : PageGrant} {p' : Pager} :
      s.pager.pgAlloc = .ok (g, p') →
      PagerStep s .alloc ⟨p', insert (g.region, g.page) s.owned⟩
  | free {s : PagerRun} {i k : ℕ} {r : PageRegion} {p' : Pager} :
      (i, k) ∈ s.owned → s.pager.regions[i]? = some r →
      s.pager.pgFree (r.basePage + kernelPageSize * k) = .ok p' →
      PagerStep s (.free i k) ⟨p', s.owned.erase (i, k)⟩

/-- The invariant of a run over the region table `regions`. -/
structure PagerInv (regions : List PageRegion) (s : PagerRun) : Prop where
  regions_eq : s.pager.regions = regions
  hint : s.pager.HintFull
  owned_iff : ∀ i k, (i, k) ∈ s.owned ↔ s.pager.Usable i k ∧ s.pager.used i k = true

namespace PagerInv

variable {regions : List PageRegion} {s : PagerRun}

theorem init (h : PagerInit regions s) : PagerInv regions s := by
  obtain ⟨hr, hb, hi, hk, ho⟩ := h
  refine ⟨hr, fun i k _ hbefore => ?_, fun i k => ?_⟩
  · unfold Pager.BeforeHint at hbefore
    omega
  · simp [ho, Pager.used, hb]

theorem alloc {g : PageGrant} {p' : Pager} (hs : PagerInv regions s)
    (h : s.pager.pgAlloc = .ok (g, p')) :
    PagerInv regions ⟨p', insert (g.region, g.page) s.owned⟩ := by
  obtain ⟨hfind, hreg, hhint, hpage, hused⟩ := Pager.pgAlloc_eq_ok h
  obtain ⟨husable, -, hleast⟩ := Pager.findFree_least hs.hint hfind
  have hU : ∀ i k, p'.Usable i k ↔ s.pager.Usable i k := by simp [Pager.Usable, hreg]
  refine ⟨hreg.trans hs.regions_eq, fun i k hu hbefore => ?_, fun i k => ?_⟩
  · have hin : s.pager.used i k = true := by
      by_contra hfree
      have := hleast i k ((hU i k).1 hu) (by simpa using hfree)
      simp only [Pager.BeforeHint, hhint, hpage] at hbefore
      omega
    change p'.used i k = true
    rw [hused, Pager.used_mark]
    split_ifs <;> simp [hin]
  · change _ ↔ p'.Usable i k ∧ p'.used i k = true
    rw [Finset.mem_insert, hs.owned_iff, hU, hused, Pager.used_mark]
    split_ifs with heq
    · obtain ⟨rfl, rfl⟩ := heq
      simp [husable]
    · have hne : (i, k) ≠ (g.region, g.page) := by simpa [Prod.ext_iff] using heq
      simp [hne]

theorem free {i k : ℕ} {r : PageRegion} {p' : Pager} (hwf : PageTableWf regions)
    (hs : PagerInv regions s) (ho : (i, k) ∈ s.owned) (hr : s.pager.regions[i]? = some r)
    (h : s.pager.pgFree (r.basePage + kernelPageSize * k) = .ok p') :
    PagerInv regions ⟨p', s.owned.erase (i, k)⟩ := by
  obtain ⟨⟨r', hr', hk⟩, hu⟩ := (hs.owned_iff i k).1 ho
  obtain rfl : r = r' := Option.some.inj (hr.symm.trans hr')
  rw [Pager.pgFree_page (hs.regions_eq ▸ hwf) hr (by omega) hu, Except.ok.injEq] at h
  have hreg : p'.regions = s.pager.regions := by
    rw [← h]
    split_ifs <;> rfl
  have hused : ∀ i' k', p'.used i' k' = (s.pager.mark i k false).used i' k' := by
    intro i' k'
    rw [← h]
    split_ifs <;> rfl
  have hU : ∀ i k, p'.Usable i k ↔ s.pager.Usable i k := by simp [Pager.Usable, hreg]
  have hbefore : ∀ i' k', p'.BeforeHint i' k' → s.pager.BeforeHint i' k' ∧ ¬(i' = i ∧ k' = k) := by
    intro i' k'
    rw [← h]
    unfold Pager.BeforeHint
    split_ifs with hif
    · change i' < i ∨ i' = i ∧ k' / 64 < k / 64 → _
      omega
    · change i' < s.pager.lastFreeBitmap ∨
        i' = s.pager.lastFreeBitmap ∧ k' / 64 < s.pager.lastFreePageNum / 64 → _
      omega
  refine ⟨hreg.trans hs.regions_eq, fun i' k' hu' hb => ?_, fun i' k' => ?_⟩
  · obtain ⟨hb', hne⟩ := hbefore i' k' hb
    change p'.used i' k' = true
    rw [hused, Pager.used_mark, if_neg hne]
    exact hs.hint i' k' ((hU i' k').1 hu') hb'
  · change _ ↔ p'.Usable i' k' ∧ p'.used i' k' = true
    rw [Finset.mem_erase, hs.owned_iff, hU, hused, Pager.used_mark]
    split_ifs with heq
    · obtain ⟨rfl, rfl⟩ := heq
      simp
    · have hne : (i', k') ≠ (i, k) := by simpa [Prod.ext_iff] using heq
      simp [hne]

theorem reach (hwf : PageTableWf regions) (h : Reach (PagerInit regions) PagerStep s) :
    PagerInv regions s := by
  refine Reach.invariant (PagerInv regions) (fun _ => init) (fun s a s' hs hstep => ?_) h
  cases hstep with
  | alloc ha => exact hs.alloc ha
  | free ho hr hf => exact hs.free hwf ho hr hf

end PagerInv

/-- `pg_free` of a page handed out before does not panic. -/
theorem pgFree_owned {regions : List PageRegion} (hwf : PageTableWf regions) {s : PagerRun}
    (h : Reach (PagerInit regions) PagerStep s) {i k : ℕ} (ho : (i, k) ∈ s.owned) :
    ∃ r p', s.pager.regions[i]? = some r ∧
      s.pager.pgFree (r.basePage + kernelPageSize * k) = .ok p' := by
  have hs := PagerInv.reach hwf h
  obtain ⟨⟨r, hr, hk⟩, hu⟩ := (hs.owned_iff i k).1 ho
  exact ⟨r, _, hr, Pager.pgFree_page (hs.regions_eq ▸ hwf) hr (by omega) hu⟩

end Toastium
