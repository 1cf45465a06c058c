import Toastium.AllocatorRuns

/-!
# The hint of `mem_alloc`

`lowest_free_entry` of a class is the number that `mem_alloc` starts its search at : the
slots of a class are numbered on from one data page to the next, a page having the number
that `mem_alloc` wrote to its header (`globalNum`). A slot is free if no live block is
there (`FreeSlot`).

The walk of `mem_alloc` stands on the row of its hint only if that is the first data page
of the class (`hintWord_iff`), and `mem_free` finds the word of a block only if the block is
on the first data page (`freeWord_iff`). From a hint on a later page, `mem_alloc` counts the
pages on from the page of the hint while it walks from an earlier one, so it raises the hint
too far and gives new pages too high a number.

`allocator_hintsBelowFree` : in every run where the hint of each `mem_alloc` is on the first
data page, and each block given to `mem_free` is on a data page with the number 0, no hint is
above a free slot, `mem_alloc` takes the free slot of the lowest number, and it creates a data
page only if no slot is free.
-/

namespace Toastium

open Allocator

/-- Slot `n` of the data page `d` of class `c` is not in use. -/
structure FreeSlot (s : AllocRun) (c d n : ℕ) : Prop where
  page : d ∈ s.alloc.dataPages
  compressed : (s.alloc.heap.cell d 2).toNat = c
  lt : n < maxCntPerPage (2 ^ c)
  free : ∀ b ∈ s.live, b.grant.location ≠ d + 2 ^ c * n + 64

/-- The number of slot `n` of the data page `d` among the slots of class `c`. -/
def globalNum (s : AllocRun) (c d n : ℕ) : ℕ :=
  maxCntPerPage (2 ^ c) * (s.alloc.heap.cell d 1).toNat + n

/-- No hint is above a free slot. -/
def HintsBelowFree (s : AllocRun) : Prop :=
  ∀ c d n, FreeSlot s c d n → s.alloc.lowestFreeEntry c ≤ globalNum s c d n

/-- The block `g` that `mem_alloc` returned was the free slot of class `c` with the lowest
number, and there is no new data page, or there was no free slot. -/
def TakesLowest (s : AllocRun) (c : ℕ) (g : BlockGrant) (s' : Allocator) : Prop :=
  (∃ d n, FreeSlot s c d n ∧ g.location = d + 2 ^ c * n + 64 ∧
    (∀ d' n', FreeSlot s c d' n' → globalNum s c d n ≤ globalNum s c d' n') ∧
    s'.dataPages ⊆ s.alloc.dataPages) ∨
  ∀ d n, ¬FreeSlot s c d n

/-- The hint of `mem_alloc` is a slot of the first data page. A block given to `mem_free` is
on a data page with the number 0. -/
def HintOnFirstPage (s : AllocRun) : AllocOp → Prop
  | .alloc size => s.alloc.lowestFreeEntry (compressedSize size) <
      maxCntPerPage (2 ^ compressedSize size)
  | .free location => s.alloc.heap.cell (headerPage location) 1 = 0#64

/-! ## Where the walks stand -/

/-- The number of blocks on a data page of a class, and the row size that the hint and
`mem_free` use. -/
theorem classCnt_rowSize : ∀ c < 12, (classCnt c, dataPageRowSize (classCnt c)) ∈
    [(4032, 505), (2016, 257), (1008, 129), (504, 65), (252, 33), (126, 17), (63, 9), (31, 9),
      (15, 9), (7, 9), (3, 9), (1, 9)] := by
  decide

/-- The word of the index pages that `mem_alloc` starts at is the first of the row of its hint
if and only if this is the first row. -/
theorem hintWord_iff {c : ℕ} (hc : c < 12) (low : ℕ) :
    510 * hintIdxEntry low (classCnt c) + hintIdxEntry low (classCnt c) % maxIdxPageBitmapEntrys =
      (classCnt c + 1) * (low / classCnt c) ↔ low < classCnt c := by
  rw [← Nat.div_eq_zero_iff_lt (classCnt_pos hc), hintIdxEntry, maxIdxPageBitmapEntrys]
  have hmem := classCnt_rowSize c hc
  generalize low / classCnt c = num
  generalize dataPageRowSize (classCnt c) = size at *
  generalize classCnt c = cnt at *
  have hle := Nat.div_mul_le_self (num * size) 511
  have hlt := Nat.lt_div_mul_add (a := num * size) (b := 511) (by decide)
  generalize num * size / 511 = k at *
  simp only [List.mem_cons, Prod.mk.injEq, List.not_mem_nil, or_false] at hmem
  rcases hmem with h | h | h | h | h | h | h | h | h | h | h | h <;>
    obtain ⟨rfl, rfl⟩ := h <;> omega

/-- The word of the index pages that `mem_free` computes for block `n` of data page `num` is
the one of its bit if and only if this is the first data page. -/
theorem freeWord_iff {c : ℕ} (hc : c < 12) {n : ℕ} (hn : n < classCnt c) (num e : ℕ)
    (he : e = n / 64 + num * dataPageRowSize (classCnt c) + 1) :
    510 * (e / maxIdxPageBitmapEntrys) + e % maxIdxPageBitmapEntrys =
      (classCnt c + 1) * num + 1 + n / 64 ↔ num = 0 := by
  rw [maxIdxPageBitmapEntrys]
  have hmem := classCnt_rowSize c hc
  generalize dataPageRowSize (classCnt c) = size at *
  generalize classCnt c = cnt at *
  simp only [List.mem_cons, Prod.mk.injEq, List.not_mem_nil, or_false] at hmem
  rcases hmem with h | h | h | h | h | h | h | h | h | h | h | h <;>
    obtain ⟨rfl, rfl⟩ := h <;> omega

/-! ## The invariant -/

variable {src : PageSource} {s : AllocRun} {ps : ℕ → List ℕ} {rows : ℕ → List Row}
  {role : ℕ → Option PageRole}

theorem usedAt_iff {c k n : ℕ} {r : Row} (hr : (rows c)[k]? = some r) :
    UsedAt rows c k n r.dataPage ↔ r.used n = true := by
  simp [UsedAt, hr]

/-- The first block that is not marked has the lowest number of those. -/
theorem Allocator.FirstFree.le_of_free {rows' : ℕ → List Row} {c j n num : ℕ}
    (h : FirstFree rows rows' c 0 j n num) (hn : n < classCnt c) {k m : ℕ} {r : Row}
    (hr : (rows c)[k]? = some r) (hm : m < classCnt c) (hu : r.used m = false) :
    classCnt c * j + n ≤ classCnt c * k + m := by
  rcases Nat.lt_trichotomy k j with hk | rfl | hk
  · rw [h.full k r (Nat.zero_le _) hk hr m hm] at hu
    cases hu
  · have hle : n ≤ m := by
      by_contra hlt
      obtain ⟨r', hr', hu'⟩ := h.first m (Nat.not_le.mp hlt)
      rw [hr] at hr'
      cases hr'
      rw [hu] at hu'
      cases hu'
    omega
  · have := Nat.mul_le_mul_left (classCnt c) (Nat.succ_le_of_lt hk)
    rw [Nat.mul_succ] at this
    omega

/-- The data pages are numbered in the order of the rows, and no hint is above a block that is
not marked. -/
structure HintInv (s : AllocRun) (ps : ℕ → List ℕ) (rows : ℕ → List Row)
    (role : ℕ → Option PageRole) : Prop extends LiveInv s ps rows role where
  class_lt : ∀ (c k : ℕ) (r : Row), (rows c)[k]? = some r → c < 12
  num : ∀ (c k : ℕ) (r : Row), (rows c)[k]? = some r → r.num = BitVec.ofNat 64 k
  hint : ∀ (c k : ℕ) (r : Row) (n : ℕ), (rows c)[k]? = some r → n < classCnt c →
    r.used n = false →
    s.alloc.lowestFreeEntry c ≤ classCnt c * k + n

namespace HintInv

/-- The number of a slot of row `k`. -/
theorem globalNum_eq (h : HintInv s ps rows role) {c k : ℕ} {r : Row}
    (hr : (rows c)[k]? = some r) (n : ℕ) :
    globalNum s c r.dataPage n = classCnt c * k + n := by
  have hlen := length_rows_le h.inv c
  have hlt := (List.getElem?_eq_some_iff.mp hr).1
  rw [globalNum, (h.inv.ok c).num r (List.mem_of_getElem? hr), h.num c k r hr,
    BitVec.toNat_ofNat, Nat.mod_eq_of_lt (by omega)]
  rfl

/-- The rows of class `c` are on the data pages whose header has the class. -/
theorem compressed_row (h : HintInv s ps rows role) {c k : ℕ} {r : Row}
    (hr : (rows c)[k]? = some r) : (s.alloc.heap.cell r.dataPage 2).toNat = c := by
  have hc := h.class_lt c k r hr
  rw [(h.inv.ok c).compressed r (List.mem_of_getElem? hr), BitVec.toNat_ofNat,
    Nat.mod_eq_of_lt (by omega)]

/-- A free slot is a block of a row that is not marked. -/
theorem exists_row (h : HintInv s ps rows role) {c d n : ℕ} (hs : FreeSlot s c d n) :
    ∃ (k : ℕ) (r : Row), (rows c)[k]? = some r ∧ r.dataPage = d ∧ r.used n = false := by
  obtain ⟨c', k, hrole⟩ := (h.inv.dataPages d).mp hs.page
  have hget := (h.inv.data c' k d).mpr hrole
  rw [List.getElem?_map, Option.map_eq_some_iff] at hget
  obtain ⟨r, hr, rfl⟩ := hget
  obtain rfl : c' = c := (h.compressed_row hr).symm.trans hs.compressed
  refine ⟨k, r, hr, rfl, Bool.eq_false_iff.mpr fun hu => ?_⟩
  obtain ⟨b, hb, -, hloc⟩ := h.live c' k n r.dataPage ((usedAt_iff hr).mpr hu) hs.lt
  exact hs.free b hb hloc

theorem hintsBelowFree (h : HintInv s ps rows role) : HintsBelowFree s := by
  intro c d n hs
  obtain ⟨k, r, hr, rfl, hu⟩ := h.exists_row hs
  rw [h.globalNum_eq hr]
  exact h.hint c k r n hr hs.lt hu

/-- With the hint on the first data page, `mem_alloc` starts at the first index page. -/
theorem hintIdxEntry_eq_zero {size : ℕ} (hcond : HintOnFirstPage s (.alloc size)) :
    s.alloc.lowestFreeEntry (compressedSize size) / classCnt (compressedSize size) = 0 ∧
      hintIdxEntry (s.alloc.lowestFreeEntry (compressedSize size))
        (classCnt (compressedSize size)) = 0 := by
  have hzero : s.alloc.lowestFreeEntry (compressedSize size) /
      classCnt (compressedSize size) = 0 := Nat.div_eq_of_lt hcond
  exact ⟨hzero, by rw [hintIdxEntry, hzero, Nat.zero_mul, Nat.zero_div]⟩

/-- A data page of the class is that of a row. -/
theorem mem_dataPages (h : HintInv s ps rows role) {c k : ℕ} {r : Row}
    (hr : (rows c)[k]? = some r) : r.dataPage ∈ s.alloc.dataPages := by
  refine (h.inv.dataPages _).mpr ⟨c, k, (h.inv.data c k _).mp ?_⟩
  rw [List.getElem?_map, hr]
  rfl

/-- No data page is new if every row is an old one. -/
theorem dataPages_subset (h : HintInv s ps rows role) {a : Allocator} {ps' : ℕ → List ℕ}
    {rows' : ℕ → List Row} {role' : ℕ → Option PageRole} (ha : AllocInv a ps' rows' role')
    (hold : ∀ c k r', (rows' c)[k]? = some r' → OldRow rows c k r') :
    a.dataPages ⊆ s.alloc.dataPages := by
  intro p hp
  obtain ⟨c, k, hrole⟩ := (ha.dataPages p).mp hp
  have hget := (ha.data c k p).mpr hrole
  rw [List.getElem?_map, Option.map_eq_some_iff] at hget
  obtain ⟨r', hr', rfl⟩ := hget
  obtain ⟨r, hr, hd, -⟩ := hold c k r' hr'
  rw [hd]
  exact h.mem_dataPages hr

/-- `mem_alloc` takes the first block that is not marked. -/
theorem takesLowest (h : HintInv s ps rows role) {fuel size : ℕ} {g : BlockGrant} {a : Allocator}
    (hcond : HintOnFirstPage s (.alloc size))
    (hok : s.alloc.memAlloc src fuel size = .ok (g, a)) :
    TakesLowest s (compressedSize size) g a := by
  obtain ⟨-, hhint⟩ := hintIdxEntry_eq_zero hcond
  obtain ⟨-, ps', rows', role', j, n, d, h', hmark, hplace, hfirst, -⟩ :=
    h.toLiveInv.memAlloc hhint hok
  have hnew : UsedAt rows' (compressedSize size) j n d :=
    (hmark.used _ _ _ _).mpr (Or.inr ⟨rfl, rfl, rfl, rfl⟩)
  have hnodup := (List.nodup_cons.mp h'.nodup).1
  have hlen := hmark.length (compressedSize size)
  rw [if_pos rfl] at hlen
  generalize compressedSize size = c at *
  rcases Nat.eq_or_lt_of_le hmark.le with hj | hj
  · -- every row was full
    refine Or.inr fun d' n' hs => ?_
    obtain ⟨k, r, hr, -, hu⟩ := h.exists_row hs
    have hlt := (List.getElem?_eq_some_iff.mp hr).1
    rw [hfirst.full k r (Nat.zero_le _) (by omega) hr n' hs.lt] at hu
    cases hu
  · have hold : ∀ c' k r', (rows' c')[k]? = some r' → OldRow rows c' k r' := fun c' k r' hr' => by
      rcases hfirst.rows c' k r' hr' with hold | ⟨rfl, hk, -⟩
      · exact hold
      · have hlt := (List.getElem?_eq_some_iff.mp hr').1
        omega
    obtain ⟨r', hr', rfl, -⟩ := hnew
    obtain ⟨r, hr, hd, -⟩ := hold c j r' hr'
    rw [hd] at hplace
    refine Or.inl ⟨r.dataPage, n, ⟨h.mem_dataPages hr, h.compressed_row hr, hplace.lt,
      fun b hb he => hnodup ?_⟩, hplace.location, fun d' n' hs => ?_,
      h.dataPages_subset h'.inv hold⟩
    · exact List.mem_map.mpr ⟨b, hb, he.trans hplace.location.symm⟩
    · rw [h.globalNum_eq hr]
      obtain ⟨k, r0, hr0, rfl, hu⟩ := h.exists_row hs
      rw [h.globalNum_eq hr0]
      exact hfirst.le_of_free hplace.lt hr0 hs.lt hu

/-- `mem_alloc` keeps the invariant. -/
theorem memAlloc (h : HintInv s ps rows role) {fuel size : ℕ} {g : BlockGrant} {a : Allocator}
    (hcond : HintOnFirstPage s (.alloc size))
    (hok : s.alloc.memAlloc src fuel size = .ok (g, a)) :
    ∃ ps' rows' role', HintInv ⟨a, ⟨g, size⟩ :: s.live⟩ ps' rows' role' := by
  obtain ⟨hzero, hhint⟩ := hintIdxEntry_eq_zero hcond
  obtain ⟨hc, ps', rows', role', j, n, d, h', hmark, hplace, hfirst, hlow⟩ :=
    h.toLiveInv.memAlloc hhint hok
  rw [hzero, Nat.zero_add] at hlow
  rw [hzero] at hfirst
  -- a block of an old row that is not marked was not marked before
  have hfree : ∀ {c k : ℕ} {r r' : Row} {m : ℕ}, (rows c)[k]? = some r →
      (rows' c)[k]? = some r' → r'.dataPage = r.dataPage → r'.used m = false →
      r.used m = false := fun hr hr' hd hu => Bool.eq_false_iff.mpr fun ht => by
    have := (hmark.used _ _ _ _).mpr (Or.inl ((usedAt_iff hr).mpr ht))
    rw [← hd, usedAt_iff hr', hu] at this
    cases this
  refine ⟨ps', rows', role', h', fun c k r' hr' => ?_, fun c k r' hr' => ?_,
    fun c k r' m hr' hm hu => ?_⟩
  · rcases hfirst.rows c k r' hr' with ⟨r, hr, -⟩ | ⟨rfl, -⟩
    · exact h.class_lt c k r hr
    · exact hc
  · rcases hfirst.rows c k r' hr' with ⟨r, hr, -, hnum⟩ | ⟨rfl, rfl, hnum⟩
    · rw [hnum, h.num c k r hr]
    · rw [hnum, Nat.zero_add, Nat.sub_zero]
  · change a.lowestFreeEntry c ≤ _
    rcases hfirst.rows c k r' hr' with ⟨r, hr, hd, -⟩ | ⟨rfl, rfl, -⟩
    · have hold := hfree hr hr' hd hu
      have hle := h.hint c k r m hr hm hold
      by_cases hcc : c = compressedSize size
      · subst hcc
        rw [hlow, Function.update_self]
        exact max_le hle (hfirst.le_of_free hplace.lt hr hm hold)
      · rwa [hlow, Function.update_of_ne hcc]
    · -- the new data page, whose first block is the one that was marked
      have hlen := hmark.length (compressedSize size)
      have hlt := (List.getElem?_eq_some_iff.mp hr').1
      have hj := hmark.le
      rw [if_pos rfl] at hlen
      obtain rfl : j = (rows (compressedSize size)).length := by omega
      have hn : n = 0 := by
        by_contra hne
        obtain ⟨r, hr, -⟩ := hfirst.first 0 (Nat.pos_of_ne_zero hne)
        rw [List.getElem?_eq_none le_rfl] at hr
        cases hr
      have hle : s.alloc.lowestFreeEntry (compressedSize size) ≤
          classCnt (compressedSize size) * (rows (compressedSize size)).length := by
        rcases Nat.eq_zero_or_pos (rows (compressedSize size)).length with hz | hpos
        · rw [h.lowest _ (List.length_eq_zero_iff.mp hz)]
          exact Nat.zero_le _
        · exact hcond.le.trans (Nat.le_mul_of_pos_right _ hpos)
      rw [hlow, Function.update_self, hn]
      exact max_le (hle.trans (Nat.le_add_right _ _)) (Nat.le_add_right _ _)

/-- `mem_free` of a block of the first row keeps the invariant. -/
theorem memFree (h : HintInv s ps rows role) {b : Block} (hb : b ∈ s.live)
    (hnum : s.alloc.heap.cell (headerPage b.grant.location) 1 = 0#64) {a : Allocator}
    (hok : s.alloc.memFree b.grant.location = .ok a) :
    ∃ rows', HintInv ⟨a, s.live.filter fun b' => b'.grant.location ≠ b.grant.location⟩
      ps rows' role := by
  obtain ⟨n, d, hu, hp⟩ := h.row_eq_zero hb hnum
  obtain ⟨rows', h', hused, -, hold, hlow⟩ := (h.toLiveInv.memFree hb hu hp).2 _ hok
  refine ⟨rows', h', fun c k r' hr' => ?_, fun c k r' hr' => ?_, fun c k r' m hr' hm hfree => ?_⟩
  · obtain ⟨r, hr, -⟩ := hold c k r' hr'
    exact h.class_lt c k r hr
  · obtain ⟨r, hr, -, hn⟩ := hold c k r' hr'
    rw [hn, h.num c k r hr]
  · obtain ⟨r, hr, hd, -⟩ := hold c k r' hr'
    have hle := lowest_le_of_update hlow c
    change a.lowestFreeEntry c ≤ _
    cases hru : r.used m with
    | false => exact hle.trans (h.hint c k r m hr hm hru)
    | true =>
      -- the block that was freed
      have hnot : ¬UsedAt rows' c k m r.dataPage := by
        rw [← hd, usedAt_iff hr', hfree]
        exact Bool.false_ne_true
      rw [hused, usedAt_iff hr, not_and_not_right] at hnot
      obtain ⟨rfl, rfl, rfl⟩ := hnot hru
      rw [hlow, Function.update_self]
      exact (Nat.min_le_right _ _).trans (Nat.le_add_left _ _)

/-- One call keeps the invariant. -/
theorem step {s' : AllocRun} {op : AllocOp} (h : HintInv s ps rows role)
    (hstep : Guarded HintOnFirstPage (AllocStep src) s op s') :
    ∃ ps' rows' role', HintInv s' ps' rows' role' := by
  obtain ⟨a, live⟩ := s'
  cases op with
  | alloc size =>
    obtain ⟨hcond, -, -, fuel, g, hok, rfl⟩ := hstep
    exact h.memAlloc hcond hok
  | free location =>
    obtain ⟨hcond, ⟨b, hb, rfl⟩, hok, rfl⟩ := hstep
    obtain ⟨rows', h'⟩ := h.memFree hb hcond hok
    exact ⟨ps, rows', role, h'⟩

end HintInv

/-- In every run where the hint of each `mem_alloc` is on the first data page, and that frees
blocks of data pages with the number 0 only, no hint is above a free slot, and `mem_alloc` takes
the free slot of the lowest number, or creates a data page when no slot is free. -/
theorem allocator_hintsBelowFree (src : PageSource) {s : AllocRun}
    (h : Reach AllocInit (Guarded HintOnFirstPage (AllocStep src)) s) :
    HintsBelowFree s ∧ ∀ fuel size g a, HintOnFirstPage s (.alloc size) →
      s.alloc.memAlloc src fuel size = .ok (g, a) → TakesLowest s (compressedSize size) g a := by
  obtain ⟨ps, rows, role, hinv⟩ := h.invariant
    (fun s => ∃ ps rows role, HintInv s ps rows role)
    (fun s hs => ⟨_, _, _, hs.liveInv, fun c k r hr => by simp at hr,
      fun c k r hr => by simp at hr, fun c k r n hr => by simp at hr⟩)
    (fun s op s' ⟨ps, rows, role, hs⟩ hstep => hs.step hstep)
  exact ⟨hinv.hintsBelowFree, fun fuel size g a => hinv.takesLowest⟩

instance (s : AllocRun) : (op : AllocOp) → Decidable (HintOnFirstPage s op)
  | .alloc _ => inferInstanceAs (Decidable (_ < _))
  | .free _ => inferInstanceAs (Decidable (_ = _))

/-- Three blocks of 1000 bytes, the second of them freed and handed out again. -/
theorem allocator_hintsBelowFree_freed : ∃ s : AllocRun,
    s.live.map Block.size = [1020, 1000, 1000] ∧ HintsBelowFree s := by
  obtain ⟨s, hrun, hs⟩ : ∃ s, [AllocOp.alloc 1000, .alloc 1000, .alloc 1000, .free 13376,
      .alloc 1020].foldlM (fun s op => if HintOnFirstPage s op then s.handle? op else none)
        allocStart = some s ∧ decide (s.live.map Block.size = [1020, 1000, 1000]) = true :=
    (Option.any_eq_true _ _).mp (by decide +kernel)
  refine ⟨s, of_decide_eq_true hs, (allocator_hintsBelowFree bumpPages (Reach.of_foldlM
    (fun s a s' h => ?_) (Reach.start allocStart_init) hrun)).1⟩
  split_ifs at h with hc
  exact ⟨hc, AllocRun.step_of_handle? h⟩

/-- The fifth block of 1024 bytes is the second one of its data page, and the hint it leaves
behind is on a page after it. -/
theorem not_hintsBelowFree_fifthBlock :
    ∃ s, Reach AllocInit (AllocStep bumpPages) s ∧ ¬HintsBelowFree s := by
  obtain ⟨s, hrun, hs⟩ : ∃ s, [AllocOp.alloc 1024, .alloc 1024, .alloc 1024, .alloc 1024,
      .alloc 1024].foldlM AllocRun.handle? allocStart = some s ∧
      decide (∃ d ∈ s.alloc.dataPages, (s.alloc.heap.cell d 2).toNat = 10 ∧
        (∀ b ∈ s.live, b.grant.location ≠ d + 2 ^ 10 * 2 + 64) ∧
        globalNum s 10 d 2 < s.alloc.lowestFreeEntry 10) = true :=
    (Option.any_eq_true _ _).mp (by decide +kernel)
  obtain ⟨d, hd, hc, hfree, hlt⟩ := of_decide_eq_true hs
  refine ⟨s, Reach.of_foldlM (fun _ _ _ => AllocRun.step_of_handle?)
    (Reach.start allocStart_init) hrun, fun hle => ?_⟩
  exact absurd (hle 10 d 2 ⟨hd, hc, by decide, hfree⟩) (Nat.not_le.mpr hlt)

end Toastium
