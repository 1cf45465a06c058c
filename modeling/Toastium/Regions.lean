import Toastium.Pager

/-!
# Memory regions of the pager

`remove_reserved_memory_regions` subtracts the reserved regions from the free ones, in
place, in an array of 32 entries. Of its four cases only the complete overlap is right.
The start of a free region is overwritten before the size is corrected by it, the size is
corrected by `start − reserved start` instead of `end − reserved start`, and a region
split in two is visited again. `removeReserved_correct` : the result covers exactly the
free addresses that are not reserved when, for every free region, each reserved region
up to the first that swallows it ends exactly where the free region starts (`Spared`).
For one free and one reserved region, both nonempty, `Spared` is necessary as well.

`pager_init` then lays out each free region as a bitmap at its start followed by pages
from the next page boundary on (`pagerRow`). `layoutSound_iff` says exactly when the
bitmap and the pages are disjoint and inside the region.
-/

namespace Toastium

/-- `memory_region`. -/
structure MemoryRegion where
  start : BitVec 64
  size : BitVec 64
  deriving DecidableEq, Repr

namespace MemoryRegion

/-- `start + size`, in 64 bits. -/
def stop (r : MemoryRegion) : BitVec 64 :=
  r.start + r.size

/-- The end of the region does not wrap. -/
def NoWrap (r : MemoryRegion) : Prop :=
  r.start.toNat + r.size.toNat < 2 ^ 64

/-- Address `a` is in the region. -/
def Contains (r : MemoryRegion) (a : ℕ) : Prop :=
  r.start.toNat ≤ a ∧ a < r.start.toNat + r.size.toNat

/-- The test for a complete overlap : `r` starts no later and ends no earlier than `f`. -/
def Swallows (r f : MemoryRegion) : Prop :=
  r.start ≤ f.start ∧ r.stop ≥ f.stop

instance (r f : MemoryRegion) : Decidable (r.Swallows f) :=
  inferInstanceAs (Decidable (_ ∧ _))

theorem NoWrap.toNat_stop {r : MemoryRegion} (h : r.NoWrap) :
    r.stop.toNat = r.start.toNat + r.size.toNat := by
  rw [stop, BitVec.toNat_add, Nat.mod_eq_of_lt h]

/-- A swallowed region is inside. -/
theorem Swallows.contains {r f : MemoryRegion} (h : r.Swallows f) (hr : r.NoWrap)
    (hf : f.NoWrap) {a : ℕ} (ha : f.Contains a) : r.Contains a := by
  obtain ⟨h1, h2⟩ := h
  rw [BitVec.le_def] at h1
  rw [ge_iff_le, BitVec.le_def, hr.toNat_stop, hf.toNat_stop] at h2
  unfold Contains at *
  omega

end MemoryRegion

/-- The addresses a list of regions covers. -/
def Covers (l : List MemoryRegion) (a : ℕ) : Prop :=
  ∃ r ∈ l, r.Contains a

/-! ## `remove_reserved_memory_regions` -/

/-- `MAX_MEMORY_REGIONS`, the length of the array of free regions. -/
def maxMemoryRegions : ℕ := 32

/-- Entry `j` overwritten with the last entry, and the last entry dropped. -/
def swapRemove {α : Type*} (l : List α) (j : ℕ) (x : α) : List α :=
  (l.set j (l.getLastD x)).dropLast

/-- The inner loop from index `j` on, for one reserved region. A region that is removed or
split is followed by another visit of the same index. `none` : the array is full when a
region is split, or the fuel is used up. -/
def trimFrom (res : MemoryRegion) : ℕ → ℕ → List MemoryRegion → Option (List MemoryRegion)
  | 0, _, _ => none
  | fuel + 1, j, free =>
    match free[j]? with
    | none => some free
    | some f =>
      if res.start ≤ f.start ∧ res.stop ≥ f.stop then
        trimFrom res fuel j (swapRemove free j f)
      else if res.start ≤ f.start ∧ res.stop < f.stop then
        let f' := { f with start := res.stop }
        trimFrom res fuel (j + 1) (free.set j { f' with size := f'.size - (res.stop - f'.start) })
      else if res.start > f.start ∧ res.stop ≥ f.stop then
        trimFrom res fuel (j + 1) (free.set j { f with size := f.size - (f.start - res.start) })
      else if free.length < maxMemoryRegions then
        trimFrom res fuel j
          (free.set j { f with size := f.size - (f.stop - res.start) } ++
            [⟨res.stop, f.stop - res.stop⟩])
      else none

/-- `remove_reserved_memory_regions`. A region is split at most once per reserved region
and then visited twice more, so three visits per free region are enough. -/
def removeReserved (free : List MemoryRegion) : List MemoryRegion → Option (List MemoryRegion)
  | [] => some free
  | res :: reserved => do
    let free' ← trimFrom res (3 * free.length + 1) 0 free
    removeReserved free' reserved

/-- What the function is for : it returns, and covers the free addresses that are not
reserved. -/
def RemovesReserved (free reserved : List MemoryRegion) : Prop :=
  ∃ out, removeReserved free reserved = some out ∧
    ∀ a, Covers out a ↔ Covers free a ∧ ¬Covers reserved a

/-- Every reserved region up to the first that swallows `f` ends where `f` starts. -/
def Spared (f : MemoryRegion) : List MemoryRegion → Prop
  | [] => True
  | res :: reserved => res.Swallows f ∨ res.stop = f.start ∧ Spared f reserved

/-! ### Three visits per region are enough -/

/-- How often an entry is visited, with what becomes of it. -/
def visits (res f : MemoryRegion) : ℕ :=
  if res.start > f.start ∧ res.stop < f.stop then 3 else 1

theorem swapRemove_append {α : Type*} (pre post : List α) (x : α) :
    ∃ post', swapRemove (pre ++ x :: post) pre.length x = pre ++ post' ∧ post'.Perm post := by
  rcases List.eq_nil_or_concat post with rfl | ⟨post', y, rfl⟩
  · exact ⟨[], by simp [swapRemove], List.Perm.refl _⟩
  · refine ⟨y :: post', ?_, ?_⟩
    · have hl : pre ++ x :: post'.concat y = (pre ++ x :: post') ++ [y] := by simp
      rw [swapRemove, hl, List.getLastD_concat, List.set_append_left _ _ (by simp),
        List.dropLast_concat]
      simp
    · simpa using (List.perm_append_singleton y post').symm

/-- Enough fuel : one unit per visit of an entry from `j` on, and one to leave the loop. -/
theorem trimFrom_fuel (res : MemoryRegion) (hres : res.NoWrap) :
    ∀ (fuel : ℕ) (pre todo : List MemoryRegion), (todo.map (visits res)).sum < fuel →
      trimFrom res fuel pre.length (pre ++ todo) =
        trimFrom res (fuel + 1) pre.length (pre ++ todo)
  | 0, _, _, h => by omega
  | fuel + 1, pre, [], h => by simp [trimFrom]
  | fuel + 1, pre, f :: post, h => by
    have hget : (pre ++ f :: post)[pre.length]? = some f := by simp
    have hset : ∀ y, (pre ++ f :: post).set pre.length y = (pre ++ [y]) ++ post := by simp
    have hpos : 1 ≤ visits res f := by
      unfold visits
      split_ifs <;> omega
    simp only [List.map_cons, List.sum_cons] at h
    obtain ⟨post', hswap, hperm⟩ := swapRemove_append pre post f
    have hnext : ∀ y, trimFrom res fuel (pre.length + 1) ((pre ++ [y]) ++ post) =
        trimFrom res (fuel + 1) (pre.length + 1) ((pre ++ [y]) ++ post) := fun y => by
      simpa using trimFrom_fuel res hres fuel (pre ++ [y]) post (by omega)
    rw [trimFrom, trimFrom, hget]
    simp only [hswap, hset]
    split_ifs with h1 h2 h3 h4
    · exact trimFrom_fuel res hres fuel pre post' (by rw [(hperm.map _).sum_eq]; omega)
    · exact hnext _
    · exact hnext _
    · have hv : visits res f = 3 := by
        rw [visits, if_pos]
        bv_omega
      set f₁ : MemoryRegion := { f with size := f.size - (f.stop - res.start) }
      set f₂ : MemoryRegion := ⟨res.stop, f.stop - res.stop⟩
      have hle : res.start ≤ res.stop := by
        rw [BitVec.le_def, hres.toNat_stop]
        omega
      have hv₁ : visits res f₁ = 1 := by
        have hstop : f₁.stop = res.start := by
          simp only [f₁, MemoryRegion.stop]
          bv_omega
        rw [visits, hstop, if_neg]
        bv_omega
      have hv₂ : visits res f₂ = 1 := by
        rw [visits, if_neg]
        simp only [f₂]
        bv_omega
      have := trimFrom_fuel res hres fuel pre (f₁ :: post ++ [f₂]) (by simp; omega)
      simpa using this
    · rfl

/-! ### Regions that are spared -/

variable {res : MemoryRegion}

/-- A pass over regions that are swallowed, or start where the reserved region ends,
removes the former and leaves the latter as they are. -/
theorem trimFrom_spared (hres : res.NoWrap) :
    ∀ (fuel : ℕ) (pre todo : List MemoryRegion), todo.length < fuel →
      (∀ f ∈ todo, res.Swallows f ∨ res.stop = f.start) →
      ∃ out, trimFrom res fuel pre.length (pre ++ todo) = some (pre ++ out) ∧
        out.Perm (todo.filter fun f => ¬res.Swallows f)
  | 0, _, _, h, _ => by omega
  | fuel + 1, pre, [], _, _ => ⟨[], by simp [trimFrom], List.Perm.refl _⟩
  | fuel + 1, pre, f :: post, hfuel, h => by
    have hget : (pre ++ f :: post)[pre.length]? = some f := by simp
    simp only [List.length_cons] at hfuel
    by_cases hs : res.Swallows f
    · obtain ⟨post', hswap, hperm⟩ := swapRemove_append pre post f
      obtain ⟨out, hout, hfilter⟩ := trimFrom_spared hres fuel pre post'
        (by rw [hperm.length_eq]; omega) fun f' hf' => h f' (by simp [hperm.mem_iff.1 hf'])
      refine ⟨out, ?_, ?_⟩
      · have hif : res.start ≤ f.start ∧ res.stop ≥ f.stop := hs
        rw [trimFrom, hget]
        simp only [if_pos hif, hswap]
        exact hout
      · rw [List.filter_cons_of_neg (by simpa using hs)]
        exact hfilter.trans (hperm.filter _)
    · have hstop : res.stop = f.start := (h f (by simp)).resolve_left hs
      have hle : res.start ≤ f.start := by
        rw [← hstop, BitVec.le_def, hres.toNat_stop]
        omega
      have h1 : ¬(res.start ≤ f.start ∧ res.stop ≥ f.stop) := hs
      have h2 : res.start ≤ f.start ∧ res.stop < f.stop := by bv_omega
      have hf : (⟨res.stop, f.size - (res.stop - res.stop)⟩ : MemoryRegion) = f := by
        rw [BitVec.sub_self, BitVec.sub_zero, hstop]
      obtain ⟨out, hout, hfilter⟩ := trimFrom_spared hres fuel (pre ++ [f]) post (by omega)
        fun f' hf' => h f' (by simp [hf'])
      refine ⟨f :: out, ?_, ?_⟩
      · rw [trimFrom, hget]
        simp only [if_neg h1, if_pos h2, hf]
        simpa using hout
      · rw [List.filter_cons_of_pos (by simpa using hs)]
        exact hfilter.cons f

/-- A region that starts where the reserved region ends holds no reserved address. -/
theorem not_contains_of_stop_eq {f : MemoryRegion} (hres : res.NoWrap) (h : res.stop = f.start)
    {a : ℕ} (ha : f.Contains a) : ¬res.Contains a := by
  have hs := congrArg BitVec.toNat h
  rw [hres.toNat_stop] at hs
  unfold MemoryRegion.Contains at *
  omega

theorem removesReserved_of_spared :
    ∀ (reserved free : List MemoryRegion), (∀ f ∈ free, f.NoWrap) →
      (∀ r ∈ reserved, r.NoWrap) → (∀ f ∈ free, Spared f reserved) →
      RemovesReserved free reserved
  | [], free, _, _, _ => ⟨free, rfl, fun a => by simp [Covers]⟩
  | res :: reserved, free, hf, hr, hsp => by
    have hres := hr res (by simp)
    have hcase : ∀ f ∈ free, res.Swallows f ∨ res.stop = f.start := fun f h =>
      (hsp f h).imp_right And.left
    obtain ⟨out, hout, hperm⟩ := trimFrom_spared hres (3 * free.length + 1) [] free (by omega) hcase
    have hmem : ∀ f, f ∈ out ↔ f ∈ free ∧ ¬res.Swallows f := by
      intro f
      simp [hperm.mem_iff]
    have hsp' : ∀ f ∈ out, Spared f reserved := fun f h =>
      ((hsp f ((hmem f).1 h).1).resolve_left ((hmem f).1 h).2).2
    obtain ⟨final, hfinal, hcov⟩ := removesReserved_of_spared reserved out
      (fun f h => hf f ((hmem f).1 h).1) (fun r h => hr r (by simp [h])) hsp'
    refine ⟨final, ?_, fun a => ?_⟩
    · have hpass : trimFrom res (3 * free.length + 1) 0 free = some out := by simpa using hout
      rw [removeReserved, hpass]
      exact hfinal
    · rw [hcov]
      constructor
      · rintro ⟨⟨f, hfo, ha⟩, hna⟩
        obtain ⟨hff, hns⟩ := (hmem f).1 hfo
        refine ⟨⟨f, hff, ha⟩, ?_⟩
        rintro ⟨r, hrm, hra⟩
        rcases List.mem_cons.1 hrm with rfl | hrm
        · exact not_contains_of_stop_eq hres ((hcase f hff).resolve_left hns) ha hra
        · exact hna ⟨r, hrm, hra⟩
      · rintro ⟨⟨f, hff, ha⟩, hna⟩
        refine ⟨⟨f, (hmem f).2 ⟨hff, fun hs => hna ?_⟩, ha⟩, ?_⟩
        · exact ⟨res, by simp, hs.contains hres (hf f hff) ha⟩
        · rintro ⟨r, hrm, hra⟩
          exact hna ⟨r, by simp [hrm], hra⟩

/-! ### One free and one reserved region -/

section Pair

variable {f : MemoryRegion}

/-- The reserved region starts no later and ends earlier : the free region keeps its size
and is moved to the end of the reserved one. -/
theorem removeReserved_touching_start (h1 : res.start ≤ f.start) (h2 : res.stop < f.stop) :
    removeReserved [f] [res] = some [⟨res.stop, f.size⟩] := by
  simp [removeReserved, trimFrom, h1, h2]

/-- The reserved region starts later and ends no earlier : the free region grows. -/
theorem removeReserved_touching_end (h1 : res.start > f.start) (h2 : res.stop ≥ f.stop) :
    removeReserved [f] [res] = some [⟨f.start, f.size - (f.start - res.start)⟩] := by
  have hs : ¬res.start ≤ f.start := by bv_omega
  simp [removeReserved, trimFrom, hs, h1, h2]

/-- The reserved region is inside : the part before it is visited again and grows. -/
theorem removeReserved_inside (hres : res.NoWrap) (h1 : res.start > f.start)
    (h2 : res.stop < f.stop) :
    removeReserved [f] [res] =
      some [⟨f.start, res.start - f.start + (res.start - f.start)⟩,
        ⟨res.stop, f.stop - res.stop⟩] := by
  have hs : ¬res.start ≤ f.start := by bv_omega
  have hs' : ¬f.stop ≤ res.stop := by bv_omega
  have hle : res.start ≤ res.stop := by
    rw [BitVec.le_def, hres.toNat_stop]
    omega
  have hsize : f.size - (f.stop - res.start) = res.start - f.start := by
    rw [MemoryRegion.stop]
    bv_omega
  have hstop₁ : MemoryRegion.stop ⟨f.start, res.start - f.start⟩ = res.start := by
    rw [MemoryRegion.stop]
    bv_omega
  have hstop₂ : MemoryRegion.stop ⟨res.stop, f.stop - res.stop⟩ = f.stop := by
    rw [MemoryRegion.stop]
    bv_omega
  have hgrow : res.start - f.start - (f.start - res.start) =
      res.start - f.start + (res.start - f.start) := by bv_omega
  simp [removeReserved, trimFrom, maxMemoryRegions, hs, hs', h1, h2, hle, hsize, hstop₁, hstop₂,
    hgrow]

/-- With one nonempty free and one nonempty reserved region, the function does its work
exactly when the free region is swallowed or starts where the reserved one ends. -/
theorem removesReserved_pair_iff (hf : f.NoWrap) (hres : res.NoWrap) (hf0 : 0 < f.size.toNat)
    (hres0 : 0 < res.size.toNat) : RemovesReserved [f] [res] ↔ Spared f [res] := by
  constructor
  · rintro ⟨out, hout, hcov⟩
    simp only [Covers, List.mem_singleton, exists_eq_left] at hcov
    simp only [Spared, and_true]
    by_contra hnot
    rw [not_or] at hnot
    obtain ⟨hs, hne⟩ := hnot
    have hfs := hf.toNat_stop
    have hrs := hres.toNat_stop
    by_cases h1 : res.start ≤ f.start
    · have h2 : res.stop < f.stop := by
        have : ¬(res.start ≤ f.start ∧ res.stop ≥ f.stop) := hs
        bv_omega
      rw [removeReserved_touching_start h1 h2, Option.some.injEq] at hout
      subst hout
      simp only [List.mem_singleton, exists_eq_left, MemoryRegion.Contains] at hcov
      have hb := hcov res.stop.toNat
      have he := hcov f.stop.toNat
      bv_omega
    · have h1' : res.start > f.start := by bv_omega
      by_cases h2 : res.stop ≥ f.stop
      · rw [removeReserved_touching_end h1' h2, Option.some.injEq] at hout
        subst hout
        simp only [List.mem_singleton, exists_eq_left, MemoryRegion.Contains] at hcov
        have he := hcov f.stop.toNat
        have hw := hcov (f.start.toNat + (f.size - (f.start - res.start)).toNat)
        bv_omega
      · rw [removeReserved_inside hres h1' (by bv_omega), Option.some.injEq] at hout
        subst hout
        simp only [List.mem_cons, List.not_mem_nil, or_false, exists_eq_or_imp, exists_eq_left,
          MemoryRegion.Contains] at hcov
        have ha := hcov res.start.toNat
        have hw := hcov (f.start.toNat + (res.start - f.start + (res.start - f.start)).toNat)
        bv_omega
  · intro h
    exact removesReserved_of_spared [res] [f] (by simpa using hf) (by simpa using hres)
      (by simpa using h)

end Pair

/-- The function removes the reserved addresses, and only these, if every free region is
spared. With one nonempty region of each kind that is necessary, too. -/
theorem removeReserved_correct (free reserved : List MemoryRegion) (hfree : ∀ f ∈ free, f.NoWrap)
    (hreserved : ∀ r ∈ reserved, r.NoWrap) :
    ((∀ f ∈ free, Spared f reserved) → RemovesReserved free reserved) ∧
    ∀ f res, free = [f] → reserved = [res] → 0 < f.size.toNat → 0 < res.size.toNat →
      (RemovesReserved free reserved ↔ ∀ f ∈ free, Spared f reserved) := by
  refine ⟨removesReserved_of_spared reserved free hfree hreserved, ?_⟩
  rintro f res rfl rfl hf hres
  rw [List.forall_mem_singleton]
  exact removesReserved_pair_iff (hfree f List.mem_cons_self) (hreserved res List.mem_cons_self)
    hf hres

/-- A reserved region that swallows one free region and touches the start of the next. -/
theorem removeReserved_correct_swallow_touch :
    RemovesReserved [⟨0x1000, 0x1000⟩, ⟨0x3000, 0x1000⟩] [⟨0x800, 0x2800⟩] := by
  refine (removeReserved_correct _ _ ?_ ?_).1 ?_ <;>
    simp [MemoryRegion.NoWrap, Spared, MemoryRegion.Swallows, MemoryRegion.stop]

/-- A reserved region far below a free one moves the free region down to it. -/
theorem not_removesReserved_below :
    ¬RemovesReserved [⟨0x1000, 0x2000⟩] [⟨0, 0x800⟩] := by
  rintro ⟨out, hout, hcov⟩
  rw [removeReserved_touching_start (by decide) (by decide), Option.some.injEq] at hout
  subst hout
  have h := hcov 0x800
  simp [Covers, MemoryRegion.Contains, MemoryRegion.stop] at h

/-! ## The layout of a free region -/

/-- `page_offset`, the pages taken off the count for the bitmap. An `s32`. -/
def pageOffset (pageCnt : BitVec 64) : BitVec 32 :=
  (pageCnt / 8#64 / 4096#64 + 2#64).setWidth 32

/-- The page count `pager_init` records. -/
def layoutPageCnt (r : MemoryRegion) : BitVec 64 :=
  r.size / 4096#64 - (pageOffset (r.size / 4096#64)).signExtend 64

/-- The address of the first page `pager_init` records. -/
def layoutPageStart (r : MemoryRegion) : BitVec 64 :=
  (r.start / 4096#64 + 1#64) * 4096#64

/-- The row of `pager_bitmap_list` for a free region. -/
def pagerRow (r : MemoryRegion) : PageRegion :=
  ⟨(layoutPageCnt r).toNat, r.start.toNat, (layoutPageStart r).toNat⟩

/-- Address `a` is in the bitmap of the region. -/
def PageRegion.InBitmap (row : PageRegion) (a : ℕ) : Prop :=
  row.bitmapStart ≤ a ∧ a < row.bitmapStart + 8 * ((row.pageCnt + 63) / 64)

/-- Address `a` is in page `k` of the region. -/
def PageRegion.InPage (row : PageRegion) (k a : ℕ) : Prop :=
  row.basePage + kernelPageSize * k ≤ a ∧ a < row.basePage + kernelPageSize * (k + 1)

/-- The bitmap and the pages of a free region are disjoint and inside the region. -/
def LayoutSound (r : MemoryRegion) : Prop :=
  (∀ k a, k < (pagerRow r).pageCnt → (pagerRow r).InBitmap a → ¬(pagerRow r).InPage k a) ∧
    (∀ a, (pagerRow r).InBitmap a → r.Contains a) ∧
    ∀ k a, k < (pagerRow r).pageCnt → (pagerRow r).InPage k a → r.Contains a

/-- A region of at least two pages, with either no page left after the deduction, or a
bitmap that fits between its start and the next page boundary. -/
def LayoutFits (r : MemoryRegion) : Prop :=
  8192 ≤ r.size.toNat ∧ (r.size.toNat < 12288 ∨ r.start.toNat < 2 ^ 64 - 4096 ∧
    r.size.toNat / 4096 - r.size.toNat / 2 ^ 27 - 2 ≤ 64 * ((4096 - r.start.toNat % 4096) / 8))

theorem toNat_layoutPageStart (r : MemoryRegion) :
    (layoutPageStart r).toNat = (r.start.toNat / 4096 + 1) * 4096 % 2 ^ 64 := by
  have := r.start.isLt
  simp only [layoutPageStart, BitVec.toNat_mul, BitVec.toNat_add, BitVec.toNat_udiv,
    BitVec.toNat_ofNat, Nat.reducePow, Nat.reduceMod]
  omega

theorem toNat_layoutPageCnt (r : MemoryRegion) :
    (layoutPageCnt r).toNat =
      (2 ^ 64 - ((r.size.toNat / 2 ^ 27 + 2) % 2 ^ 32 +
        if 2 ^ 31 ≤ (r.size.toNat / 2 ^ 27 + 2) % 2 ^ 32 then 2 ^ 64 - 2 ^ 32 else 0) +
        r.size.toNat / 4096) % 2 ^ 64 := by
  have hx : (r.size / 4096#64 / 8#64 / 4096#64 + 2#64).toNat = r.size.toNat / 2 ^ 27 + 2 := by
    have := r.size.isLt
    simp only [BitVec.toNat_add, BitVec.toNat_udiv, BitVec.toNat_ofNat, Nat.reducePow,
      Nat.reduceMod]
    omega
  rw [layoutPageCnt, BitVec.toNat_sub, pageOffset, BitVec.toNat_signExtend, BitVec.msb_eq_decide,
    BitVec.toNat_setWidth, BitVec.toNat_setWidth, hx]
  simp only [BitVec.toNat_udiv, BitVec.toNat_ofNat, decide_eq_true_eq, Nat.reducePow,
    Nat.reduceMod, Nat.reduceSub]
  have hlt := Nat.mod_lt (r.size.toNat / 134217728 + 2) (show 4294967296 > 0 by decide)
  generalize (r.size.toNat / 134217728 + 2) % 4294967296 = x at hlt ⊢
  rw [Nat.mod_eq_of_lt (a := x) (by omega)]

/-- The recorded count, for a region below `2 ^ 57` bytes and of at least two pages. -/
theorem toNat_layoutPageCnt_of_lt {r : MemoryRegion} (h2 : 8192 ≤ r.size.toNat)
    (hlt : r.size.toNat < 2 ^ 57) :
    (layoutPageCnt r).toNat = r.size.toNat / 4096 - r.size.toNat / 2 ^ 27 - 2 := by
  have hx : (r.size.toNat / 2 ^ 27 + 2) % 2 ^ 32 = r.size.toNat / 2 ^ 27 + 2 :=
    Nat.mod_eq_of_lt (by omega)
  have hsum : 2 ^ 64 - (r.size.toNat / 2 ^ 27 + 2) + r.size.toNat / 4096 =
      r.size.toNat / 4096 - r.size.toNat / 2 ^ 27 - 2 + 2 ^ 64 := by omega
  rw [toNat_layoutPageCnt, hx, if_neg (by omega), Nat.add_zero, hsum, Nat.add_mod_right,
    Nat.mod_eq_of_lt (by omega)]

/-- A region too small for the deduction, or too large for it, records a huge count. -/
theorem le_toNat_layoutPageCnt {r : MemoryRegion}
    (h : r.size.toNat < 8192 ∨ 2 ^ 57 ≤ r.size.toNat) : 2 ^ 44 ≤ (layoutPageCnt r).toNat := by
  have hsize := r.size.isLt
  have hx := Nat.mod_lt (r.size.toNat / 2 ^ 27 + 2) (show 2 ^ 32 > 0 by decide)
  have hsmall : r.size.toNat < 8192 → (r.size.toNat / 2 ^ 27 + 2) % 2 ^ 32 = 2 := by omega
  rw [toNat_layoutPageCnt]
  generalize (r.size.toNat / 2 ^ 27 + 2) % 2 ^ 32 = x at hx hsmall ⊢
  split_ifs with hneg
  · rw [Nat.mod_eq_of_lt (by omega)]
    omega
  · rcases h with h | h
    · rw [hsmall h, Nat.mod_eq_of_lt (by omega)]
      omega
    · have hsum : 2 ^ 64 - (x + 0) + r.size.toNat / 4096 = r.size.toNat / 4096 - x + 2 ^ 64 := by
        omega
      rw [hsum, Nat.add_mod_right, Nat.mod_eq_of_lt (by omega)]
      omega

/-- Bitmap and pages of a free region are disjoint and inside it exactly when the region
fits its layout. -/
theorem layoutSound_iff (r : MemoryRegion) : LayoutSound r ↔ LayoutFits r := by
  have hbase := toNat_layoutPageStart r
  have hstart := r.start.isLt
  have hsize := r.size.isLt
  simp only [LayoutSound, pagerRow, PageRegion.InBitmap, PageRegion.InPage, MemoryRegion.Contains,
    LayoutFits, kernelPageSize]
  constructor
  · rintro ⟨hdisj, hbm, hpages⟩
    by_cases hn : r.size.toNat < 8192 ∨ 2 ^ 57 ≤ r.size.toNat
    · exfalso
      have hcnt := le_toNat_layoutPageCnt hn
      have h0 := hdisj 0 (layoutPageStart r).toNat (by omega)
      have hp := hpages 0 (layoutPageStart r).toNat (by omega)
      omega
    · have hcnt := toNat_layoutPageCnt_of_lt (r := r) (by omega) (by omega)
      refine ⟨by omega, ?_⟩
      by_contra hcon
      have h0 := hdisj 0 (layoutPageStart r).toNat (by omega)
      have hp := hpages 0 (layoutPageStart r).toNat (by omega)
      omega
  · rintro ⟨h2, hfit⟩
    have hlt : r.size.toNat < 2 ^ 57 := by omega
    have hcnt := toNat_layoutPageCnt_of_lt h2 hlt
    refine ⟨fun k a hk hb hp => ?_, fun a hb => ?_, fun k a hk hp => ?_⟩
    · omega
    · omega
    · omega

/-- 128 MiB that start 8 bytes before a page boundary : the second word of the bitmap is
the first word of page 0. -/
theorem not_layoutSound_unaligned : ¬LayoutSound ⟨0x80000FF8#64, 0x8000000#64⟩ := by
  intro ⟨hdisj, _, _⟩
  have hcnt : (pagerRow ⟨0x80000FF8#64, 0x8000000#64⟩).pageCnt = 32765 := by decide +kernel
  have hbase : (pagerRow ⟨0x80000FF8#64, 0x8000000#64⟩).basePage = 0x80001000 := by
    decide +kernel
  refine hdisj 0 0x80001000 (by rw [hcnt]; decide) ⟨by decide, ?_⟩ ?_
  · rw [hcnt]
    decide
  · rw [PageRegion.InPage, hbase, kernelPageSize]
    omega

end Toastium
