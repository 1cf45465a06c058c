import Toastium.AllocatorSteps

/-!
# Runs of the allocator

Sequences of `mem_alloc` and of `mem_free` of live blocks, from `allocator_init` on. The
invariant `LiveInv` says that the marked blocks of the rows are the live ones. Live blocks
then do not overlap, and keep off the headers and the index pages (`LiveInv.blocksSafe`).

The hint of `mem_alloc` and `mem_free` take a row of an index page to be shorter than
`mem_alloc` makes it, so both are right about the first row of a class only.

`allocator_blocksSafe` : the blocks are safe in every run where the hint of each
`mem_alloc` leads to the first index page, and each block given to `mem_free` is on a data
page with the number 0. `allocator_freesItsBit` : `mem_free` finds the bit that `mem_alloc`
set, in every run where each `mem_alloc` is called with fewer live blocks of its class than
one data page has.
-/

namespace Toastium

/-- A live block, and the size it was asked for with. -/
structure Block where
  grant : BlockGrant
  size : ℕ
  deriving DecidableEq, Repr

/-- The allocator and the live blocks. -/
structure AllocRun where
  alloc : Allocator
  live : List Block

/-- A call to the allocator. -/
inductive AllocOp
  | alloc (size : ℕ)
  | free (location : ℕ)

/-- The state after `allocator_init`. -/
def AllocInit (s : AllocRun) : Prop :=
  s.alloc.rootIdxPage = (fun _ => 0) ∧ s.alloc.lowestFreeEntry = (fun _ => 0) ∧
    s.alloc.idxPages = [] ∧ s.alloc.dataPages = [] ∧ s.live = []

/-- A call that returns. -/
def AllocStep (src : PageSource) (s : AllocRun) : AllocOp → AllocRun → Prop
  | .alloc size, s' => 1 ≤ size ∧ size ≤ 2048 ∧ ∃ fuel g,
      s.alloc.memAlloc src fuel size = .ok (g, s'.alloc) ∧ s'.live = ⟨g, size⟩ :: s.live
  | .free location, s' => (∃ b ∈ s.live, b.grant.location = location) ∧
      s.alloc.memFree location = .ok s'.alloc ∧
      s'.live = s.live.filter fun b => b.grant.location ≠ location

/-- The ranges of `n` bytes from `a` on and of `m` bytes from `b` on do not overlap. -/
def Apart (a n b m : ℕ) : Prop :=
  a + n ≤ b ∨ b + m ≤ a

/-- Live blocks do not overlap each other, the headers of data pages, or index pages. -/
structure BlocksSafe (s : AllocRun) : Prop where
  blocks : s.live.Pairwise fun a b => Apart a.grant.location a.size b.grant.location b.size
  headers : ∀ b ∈ s.live, ∀ p ∈ s.alloc.dataPages, Apart b.grant.location b.size p 64
  idxPages : ∀ b ∈ s.live, ∀ p ∈ s.alloc.idxPages, Apart b.grant.location b.size p 4096

/-- `mem_free` of the block returns, and what it does is to clear the bit that `mem_alloc`
set : the index page, the entry and the bit it computes are those of the block. -/
structure FreesItsBit (s : Allocator) (g : BlockGrant) : Prop where
  freeBit : s.freeBit g.location = .ok (g.idxPage, g.idxEntry, g.bit)
  isSet : (s.heap.cell g.idxPage g.idxEntry).getLsbD g.bit = true
  memFree : ∃ s', s.memFree g.location = .ok s' ∧ s'.heap =
    s.heap.set g.idxPage g.idxEntry (clearBit (s.heap.cell g.idxPage g.idxEntry) g.bit)

/-! ## The invariant -/

/-- The marked blocks of the rows are the live ones. -/
structure LiveInv (s : AllocRun) (ps : ℕ → List ℕ) (rows : ℕ → List Row)
    (role : ℕ → Option PageRole) : Prop where
  inv : AllocInv s.alloc ps rows role
  lowest : ∀ c, rows c = [] → s.alloc.lowestFreeEntry c = 0
  block : ∀ b ∈ s.live, compressedSize b.size < 12 ∧ ∃ j n d,
    UsedAt rows (compressedSize b.size) j n d ∧
      Allocator.PlacedAt ps (compressedSize b.size) j n d b.grant
  nodup : (s.live.map fun b => b.grant.location).Nodup
  live : ∀ c j n d, UsedAt rows c j n d → n < classCnt c →
    ∃ b ∈ s.live, compressedSize b.size = c ∧ b.grant.location = d + 2 ^ c * n + 64

open Allocator

variable {src : PageSource} {s : AllocRun} {ps : ℕ → List ℕ} {rows : ℕ → List Row}
  {role : ℕ → Option PageRole}

theorem UsedAt.role_eq {a : Allocator} (h : AllocInv a ps rows role) {c j n d : ℕ}
    (hu : UsedAt rows c j n d) : role d = some (.data c j) := by
  obtain ⟨r, hr, rfl, -⟩ := hu
  exact (h.data c j _).mp (by rw [List.getElem?_map, hr]; rfl)

/-- Marked blocks of one address are one block. -/
theorem UsedAt.unique {a : Allocator} (h : AllocInv a ps rows role) {c j n d c' j' n' d' : ℕ}
    (hu : UsedAt rows c j n d) (hn : n < classCnt c) (hu' : UsedAt rows c' j' n' d')
    (hn' : n' < classCnt c') (he : d + 2 ^ c * n + 64 = d' + 2 ^ c' * n' + 64) :
    c = c' ∧ j = j' ∧ n = n' ∧ d = d' := by
  have hd := (h.page d _ (hu.role_eq h)).dvd
  have hd' := (h.page d' _ (hu'.role_eq h)).dvd
  have hle := block_le hn
  have hle' := block_le hn'
  have hpos : 0 < 2 ^ c := by positivity
  have hpos' : 0 < 2 ^ c' := by positivity
  obtain rfl : d = d' := by omega
  have hrole := (hu.role_eq h).symm.trans (hu'.role_eq h)
  simp only [Option.some.injEq, PageRole.data.injEq] at hrole
  obtain ⟨rfl, rfl⟩ := hrole
  exact ⟨rfl, rfl, Nat.eq_of_mul_eq_mul_left hpos (by omega), rfl⟩

theorem Allocator.PlacedAt.mono {ps' : ℕ → List ℕ} (h : Extends ps ps') {c j n d : ℕ}
    {g : BlockGrant} (hp : PlacedAt ps c j n d g) : PlacedAt ps' c j n d g :=
  ⟨hp.lt, hp.location, h.getElem? hp.idxPage, hp.idxEntry, hp.bit⟩

/-- A block is on its page, after the header. -/
theorem Allocator.PlacedAt.range {c j n d size : ℕ} {g : BlockGrant} (hp : PlacedAt ps c j n d g)
    (hsize : size ≤ 2 ^ c) : d + 64 ≤ g.location ∧ g.location + size ≤ d + 4096 := by
  have hle := block_le hp.lt
  have hloc := hp.location
  omega

/-- The hint of `mem_free` is not higher. -/
theorem lowest_le_of_update {low low' : ℕ → ℕ} {c n : ℕ}
    (h : low' = Function.update low c (min (low c) n)) (c' : ℕ) : low' c' ≤ low c' := by
  rw [h]
  by_cases hc : c' = c
  · subst hc
    rw [Function.update_self]
    exact Nat.min_le_left _ _
  · rw [Function.update_of_ne hc]

namespace LiveInv

/-- The blocks are safe. -/
theorem blocksSafe (h : LiveInv s ps rows role) : BlocksSafe s := by
  have hpage : ∀ b ∈ s.live, ∃ c j d, role d = some (.data c j) ∧ 4096 ∣ d ∧
      d + 64 ≤ b.grant.location ∧ b.grant.location + b.size ≤ d + 4096 := fun b hb => by
    obtain ⟨-, j, n, d, hu, hpl⟩ := h.block b hb
    have hrole := hu.role_eq h.inv
    exact ⟨_, j, d, hrole, (h.inv.page d _ hrole).dvd, hpl.range (compressedSize_le b.size)⟩
  refine ⟨?_, fun b hb p hp => ?_, fun b hb p hp => ?_⟩
  · refine (List.pairwise_map.mp h.nodup).imp_of_mem fun {a b} ha hb hne => ?_
    obtain ⟨-, j, n, d, hu, hpl⟩ := h.block a ha
    obtain ⟨-, j', n', d', hu', hpl'⟩ := h.block b hb
    have hsize := compressedSize_le a.size
    have hsize' := compressedSize_le b.size
    unfold Apart
    by_cases hdd : d = d'
    · -- on one page, the blocks have one class and different numbers
      subst hdd
      have hloc := hpl.location
      have hloc' := hpl'.location
      have hrole := (hu.role_eq h.inv).symm.trans (hu'.role_eq h.inv)
      simp only [Option.some.injEq, PageRole.data.injEq] at hrole
      rw [← hrole.1] at hloc' hsize'
      rcases Nat.lt_trichotomy n n' with hn | rfl | hn
      · have := Nat.mul_le_mul_left (2 ^ compressedSize a.size) (Nat.succ_le_of_lt hn)
        rw [Nat.mul_succ] at this
        omega
      · exact absurd (hloc.trans hloc'.symm) hne
      · have := Nat.mul_le_mul_left (2 ^ compressedSize a.size) (Nat.succ_le_of_lt hn)
        rw [Nat.mul_succ] at this
        omega
    · have hrange := hpl.range hsize
      have hrange' := hpl'.range hsize'
      have hd := (h.inv.page d _ (hu.role_eq h.inv)).dvd
      have hd' := (h.inv.page d' _ (hu'.role_eq h.inv)).dvd
      omega
  · obtain ⟨c, j, d, -, hd, hrange⟩ := hpage b hb
    obtain ⟨c', i, hrole⟩ := (h.inv.dataPages p).mp hp
    have hp := (h.inv.page p _ hrole).dvd
    unfold Apart
    omega
  · obtain ⟨c, j, d, hdata, hd, hrange⟩ := hpage b hb
    obtain ⟨c', i, hrole⟩ := (h.inv.idxPages p).mp hp
    have hp := (h.inv.page p _ hrole).dvd
    have hne : d ≠ p := by
      rintro rfl
      rw [hdata] at hrole
      cases hrole
    unfold Apart
    omega

/-- `mem_alloc` from the first index page on. -/
theorem memAlloc (h : LiveInv s ps rows role) {fuel size : ℕ} {g : BlockGrant} {a : Allocator}
    (hhint : hintIdxEntry (s.alloc.lowestFreeEntry (compressedSize size))
      (classCnt (compressedSize size)) = 0)
    (hok : s.alloc.memAlloc src fuel size = .ok (g, a)) :
    compressedSize size < 12 ∧ ∃ ps' rows' role' j n d,
      LiveInv ⟨a, ⟨g, size⟩ :: s.live⟩ ps' rows' role' ∧
      Marked rows rows' (compressedSize size) j n d ∧
      PlacedAt ps' (compressedSize size) j n d g ∧
      FirstFree rows rows' (compressedSize size) 0 j n
        (s.alloc.lowestFreeEntry (compressedSize size) / classCnt (compressedSize size)) ∧
      a.lowestFreeEntry = Function.update s.alloc.lowestFreeEntry (compressedSize size)
        (max (s.alloc.lowestFreeEntry (compressedSize size)) (classCnt (compressedSize size) *
          (s.alloc.lowestFreeEntry (compressedSize size) / classCnt (compressedSize size) + j)
            + n)) := by
  obtain ⟨hc, ps', rows', role', j, n, d, hinv, hext, hmark, hplace, hfirst, hlow⟩ :=
    memAlloc_spec h.inv rfl (h.lowest _) hhint hok
  have hnew : UsedAt rows' (compressedSize size) j n d :=
    (hmark.used _ _ _ _).mpr (Or.inr ⟨rfl, rfl, rfl, rfl⟩)
  refine ⟨hc, ps', rows', role', j, n, d, ⟨hinv, fun c' hnil => ?_, fun b hb => ?_, ?_,
    fun c' j' n' d' hu hn => ?_⟩, hmark, hplace, hfirst, hlow⟩
  · have hlen := hmark.length c'
    rw [hnil] at hlen
    by_cases hcc : c' = compressedSize size
    · rw [if_pos hcc] at hlen
      simp only [List.length_nil] at hlen
      omega
    · rw [if_neg hcc] at hlen
      simp only [hlow, Function.update_of_ne hcc]
      exact h.lowest c' (List.length_eq_zero_iff.mp hlen.symm)
  · rcases List.mem_cons.mp hb with rfl | hb
    · exact ⟨hc, j, n, d, hnew, hplace⟩
    · obtain ⟨hcb, j', n', d', hu, hp⟩ := h.block b hb
      exact ⟨hcb, j', n', d', (hmark.used _ _ _ _).mpr (Or.inl hu), hp.mono hext⟩
  · refine List.nodup_cons.mpr ⟨fun hmem => ?_, h.nodup⟩
    obtain ⟨b, hb, heq⟩ := List.mem_map.mp hmem
    obtain ⟨-, j', n', d', hu, hp⟩ := h.block b hb
    obtain ⟨hc', rfl, rfl, rfl⟩ := UsedAt.unique hinv ((hmark.used _ _ _ _).mpr (Or.inl hu)) hp.lt
      hnew hplace.lt (by rw [← hp.location, ← hplace.location]; exact heq)
    rw [hc'] at hu
    exact hmark.free hu
  · rcases (hmark.used _ _ _ _).mp hu with hu | ⟨rfl, rfl, rfl, rfl⟩
    · obtain ⟨b, hb, hcb, hloc⟩ := h.live c' j' n' d' hu hn
      exact ⟨b, List.mem_cons_of_mem _ hb, hcb, hloc⟩
    · exact ⟨_, List.mem_cons_self, rfl, hplace.location⟩

/-- A live block on a data page with the number 0 is in the first row. -/
theorem row_eq_zero (h : LiveInv s ps rows role) {b : Block} (hb : b ∈ s.live)
    (hnum : s.alloc.heap.cell (headerPage b.grant.location) 1 = 0#64) :
    ∃ n d, UsedAt rows (compressedSize b.size) 0 n d ∧
      PlacedAt ps (compressedSize b.size) 0 n d b.grant := by
  obtain ⟨-, j, n, d, ⟨r, hr, rfl, hu⟩, hp⟩ := h.block b hb
  have hok := h.inv.ok (compressedSize b.size)
  rw [headerPage_block (pageOk_row h.inv hr).dvd hp, hok.num r (List.mem_of_getElem? hr)] at hnum
  obtain rfl := (hok.num_eq_zero j r hr).mp hnum
  exact ⟨n, r.dataPage, ⟨r, hr, rfl, hu⟩, hp⟩

/-- `mem_free` of a live block of the first row. -/
theorem memFree (h : LiveInv s ps rows role) {b : Block} (hb : b ∈ s.live) {n d : ℕ}
    (hu : UsedAt rows (compressedSize b.size) 0 n d)
    (hp : PlacedAt ps (compressedSize b.size) 0 n d b.grant) :
    FreesItsBit s.alloc b.grant ∧ ∀ a, s.alloc.memFree b.grant.location = .ok a →
      ∃ rows', LiveInv ⟨a, s.live.filter fun b' => b'.grant.location ≠ b.grant.location⟩
        ps rows' role ∧
        (∀ c j' n' d', UsedAt rows' c j' n' d' ↔
          UsedAt rows c j' n' d' ∧ ¬(c = compressedSize b.size ∧ j' = 0 ∧ n' = n)) ∧
        (∀ c, (rows' c).length = (rows c).length) ∧
        (∀ c k r', (rows' c)[k]? = some r' → OldRow rows c k r') ∧
        a.lowestFreeEntry = Function.update s.alloc.lowestFreeEntry (compressedSize b.size)
          (min (s.alloc.lowestFreeEntry (compressedSize b.size)) n) := by
  have hc := (h.block b hb).1
  obtain ⟨hset, a', rows', hfree, hheap, hinv, hused, hlen, hold, hlow⟩ :=
    memFree_spec h.inv hc hu hp
  obtain ⟨r, hr, rfl, -⟩ := id hu
  refine ⟨⟨freeBit_block h.inv hc hr hp, hset, a', hfree, hheap⟩, fun a ha => ?_⟩
  obtain rfl : a' = a := Except.ok.inj (hfree.symm.trans ha)
  refine ⟨rows', ⟨hinv, fun c' hnil => ?_, fun b' hb' => ?_, ?_, fun c' j' n' d' hu' hn' => ?_⟩,
    hused, hlen, hold, hlow⟩
  · have hl := hlen c'
    rw [hnil] at hl
    have hle := lowest_le_of_update hlow c'
    rw [h.lowest c' (List.length_eq_zero_iff.mp hl.symm)] at hle
    exact Nat.le_zero.mp hle
  · obtain ⟨hb', hne⟩ := List.mem_filter.mp hb'
    obtain ⟨hc', j', n', d', hu', hp'⟩ := h.block b' hb'
    refine ⟨hc', j', n', d', (hused _ _ _ _).mpr ⟨hu', ?_⟩, hp'⟩
    rintro ⟨hcc, rfl, rfl⟩
    obtain ⟨r', hr', rfl, -⟩ := hu'
    rw [hcc, hr] at hr'
    cases hr'
    refine of_decide_eq_true hne ?_
    rw [hp'.location, hp.location, hcc]
  · exact h.nodup.sublist (List.filter_sublist.map _)
  · obtain ⟨hu', hne⟩ := (hused _ _ _ _).mp hu'
    obtain ⟨b', hb', hcb, hloc⟩ := h.live c' j' n' d' hu' hn'
    refine ⟨b', List.mem_filter.mpr ⟨hb', decide_eq_true fun he => hne ?_⟩, hcb, hloc⟩
    obtain ⟨rfl, rfl, rfl, -⟩ := UsedAt.unique h.inv hu' hn' hu hp.lt
      (by rw [← hloc, ← hp.location, he])
    exact ⟨rfl, rfl, rfl⟩

/-- A full row has as many live blocks as a data page has. -/
theorem classCnt_le_length (h : LiveInv s ps rows role) {c j : ℕ} {r : Row}
    (hr : (rows c)[j]? = some r) (hfull : ∀ m, m < classCnt c → r.used m = true) :
    classCnt c ≤ (s.live.filter fun b => compressedSize b.size = c).length := by
  have hnodup : ((List.range (classCnt c)).map fun m => r.dataPage + 2 ^ c * m + 64).Nodup := by
    refine List.nodup_range.map fun m m' he => ?_
    have hpos : 0 < 2 ^ c := by positivity
    exact Nat.eq_of_mul_eq_mul_left hpos (by omega)
  have hsub : ((List.range (classCnt c)).map fun m => r.dataPage + 2 ^ c * m + 64) ⊆
      (s.live.filter fun b => compressedSize b.size = c).map fun b => b.grant.location := by
    intro l hl
    obtain ⟨m, hm, rfl⟩ := List.mem_map.mp hl
    rw [List.mem_range] at hm
    obtain ⟨b, hb, hc, hloc⟩ := h.live c j m _ ⟨r, hr, rfl, hfull m hm⟩ hm
    exact List.mem_map.mpr ⟨b, List.mem_filter.mpr ⟨hb, decide_eq_true hc⟩, hloc⟩
  have hle := (List.subperm_of_subset hnodup hsub).length_le
  rwa [List.length_map, List.length_map, List.length_range] at hle

end LiveInv

/-- Nothing is allocated by `allocator_init`. -/
theorem AllocInit.liveInv (h : AllocInit s) :
    LiveInv s (fun _ => []) (fun _ => []) (fun _ => none) := by
  obtain ⟨hroot, hlow, hidx, hdata, hlive⟩ := h
  have hnone : ∀ c j n d, ¬UsedAt (fun _ => []) c j n d := fun c j n d hu => by
    obtain ⟨r, hr, -⟩ := hu
    simp at hr
  refine ⟨⟨?_, ?_, ?_, ?_, ?_, fun c => ⟨⟨?_, ?_, ?_, ?_, ?_⟩, ?_, fun m => ?_, ?_, ?_, ?_, ?_⟩⟩,
    fun c _ => by rw [hlow], ?_, ?_, fun c j n d hu => absurd hu (hnone c j n d)⟩
  all_goals simp [Labelled, Listed, hidx, hdata, hroot, hlive, slot, rowsWord]

/-! ## Safe runs -/

/-- The hint of `mem_alloc` leads to the first index page : the entry of the hint, counted in
rows of `(ROUND_MOD_UP(cnt, 64) / 8) + 1` words, is on it. A block given to `mem_free` is on
a data page with the number 0. -/
def FirstIdxPage (s : AllocRun) : AllocOp → Prop
  | .alloc size =>
    s.alloc.lowestFreeEntry (compressedSize size) / maxCntPerPage (2 ^ compressedSize size) *
      dataPageRowSize (maxCntPerPage (2 ^ compressedSize size)) < maxIdxPageBitmapEntrys
  | .free location => s.alloc.heap.cell (headerPage location) 1 = 0#64

/-- One call keeps the invariant. -/
theorem LiveInv.step {s' : AllocRun} {op : AllocOp} (h : LiveInv s ps rows role)
    (hstep : Guarded FirstIdxPage (AllocStep src) s op s') :
    ∃ ps' rows' role', LiveInv s' ps' rows' role' := by
  obtain ⟨a, live⟩ := s'
  cases op with
  | alloc size =>
    obtain ⟨hcond, -, -, fuel, g, hok, rfl⟩ := hstep
    obtain ⟨-, ps', rows', role', -, -, -, h', -⟩ :=
      h.memAlloc (Nat.div_eq_of_lt hcond) hok
    exact ⟨ps', rows', role', h'⟩
  | free location =>
    obtain ⟨hcond, ⟨b, hb, rfl⟩, hok, rfl⟩ := hstep
    obtain ⟨n, d, hu, hp⟩ := h.row_eq_zero hb hcond
    obtain ⟨rows', h', -⟩ := (h.memFree hb hu hp).2 _ hok
    exact ⟨ps, rows', role, h'⟩

/-- In every run whose hints lead to the first index page, and that frees blocks of data
pages with the number 0 only, live blocks do not overlap each other, the headers of the data
pages, or the index pages. -/
theorem allocator_blocksSafe (src : PageSource) {s : AllocRun}
    (h : Reach AllocInit (Guarded FirstIdxPage (AllocStep src)) s) : BlocksSafe s := by
  obtain ⟨ps, rows, role, hinv⟩ := h.invariant
    (fun s => ∃ ps rows role, LiveInv s ps rows role)
    (fun s hs => ⟨_, _, _, hs.liveInv⟩)
    (fun s op s' ⟨ps, rows, role, hs⟩ hstep => hs.step hstep)
  exact hinv.blocksSafe

/-- There are fewer live blocks of the class than blocks on a data page. -/
def RoomOnFirstPage (s : AllocRun) : AllocOp → Prop
  | .alloc size => (s.live.filter fun b => compressedSize b.size = compressedSize size).length <
      maxCntPerPage (2 ^ compressedSize size)
  | .free _ => True

/-- Every class has one data page at most. -/
structure OneRowInv (s : AllocRun) (ps : ℕ → List ℕ) (rows : ℕ → List Row)
    (role : ℕ → Option PageRole) : Prop extends LiveInv s ps rows role where
  length : ∀ c, (rows c).length ≤ 1
  hint : ∀ c, s.alloc.lowestFreeEntry c / classCnt c = 0

theorem OneRowInv.row_eq_zero (h : OneRowInv s ps rows role) {b : Block} (hb : b ∈ s.live) :
    ∃ n d, UsedAt rows (compressedSize b.size) 0 n d ∧
      PlacedAt ps (compressedSize b.size) 0 n d b.grant := by
  obtain ⟨-, j, n, d, ⟨r, hr, hd⟩, hp⟩ := h.block b hb
  have hlt := (List.getElem?_eq_some_iff.mp hr).1
  have hlen := h.length (compressedSize b.size)
  obtain rfl : j = 0 := by omega
  exact ⟨n, d, ⟨r, hr, hd⟩, hp⟩

/-- One call keeps the invariant. -/
theorem OneRowInv.step {s' : AllocRun} {op : AllocOp} (h : OneRowInv s ps rows role)
    (hstep : Guarded RoomOnFirstPage (AllocStep src) s op s') :
    ∃ ps' rows' role', OneRowInv s' ps' rows' role' := by
  obtain ⟨a, live⟩ := s'
  cases op with
  | alloc size =>
    obtain ⟨hroom, -, -, fuel, g, hok, rfl⟩ := hstep
    have hhint : hintIdxEntry (s.alloc.lowestFreeEntry (compressedSize size))
        (classCnt (compressedSize size)) = 0 := by
      rw [hintIdxEntry, h.hint, Nat.zero_mul, Nat.zero_div]
    obtain ⟨hc, ps', rows', role', j, n, d, h', hmark, hplace, hfirst, hlow⟩ :=
      h.toLiveInv.memAlloc hhint hok
    have hlen := h.length (compressedSize size)
    have hle := hmark.le
    -- the first row is not full
    obtain rfl : j = 0 := by
      by_contra hj
      obtain ⟨r, hr⟩ : ∃ r, (rows (compressedSize size))[0]? = some r :=
        ⟨_, List.getElem?_eq_getElem (by omega)⟩
      have := h.classCnt_le_length hr (hfirst.full 0 r le_rfl (by omega) hr)
      exact absurd hroom (Nat.not_lt.mpr this)
    refine ⟨ps', rows', role', h', fun c => ?_, fun c => ?_⟩
    · rw [hmark.length]
      have := h.length c
      split_ifs <;> omega
    · change a.lowestFreeEntry c / classCnt c = 0
      by_cases hcc : c = compressedSize size
      · have hlt := (Nat.div_eq_zero_iff.mp (h.hint (compressedSize size))).resolve_left
          (classCnt_pos hc).ne'
        rw [hcc, hlow, Function.update_self, h.hint, Nat.add_zero, Nat.mul_zero, Nat.zero_add]
        exact Nat.div_eq_of_lt (max_lt hlt hplace.lt)
      · rw [hlow, Function.update_of_ne hcc]
        exact h.hint c
  | free location =>
    obtain ⟨-, ⟨b, hb, rfl⟩, hok, rfl⟩ := hstep
    obtain ⟨n, d, hu, hp⟩ := h.row_eq_zero hb
    obtain ⟨rows', h', -, hlen, -, hlow⟩ := (h.toLiveInv.memFree hb hu hp).2 _ hok
    refine ⟨ps, rows', role, h', fun c => by rw [hlen]; exact h.length c, fun c => ?_⟩
    exact Nat.le_zero.mp ((Nat.div_le_div_right (lowest_le_of_update hlow c)).trans (h.hint c).le)

/-- In every run where each `mem_alloc` is called with fewer live blocks of its class than a
data page has, `mem_free` of a live block returns and clears the bit that `mem_alloc` set. -/
theorem allocator_freesItsBit (src : PageSource) {s : AllocRun}
    (h : Reach AllocInit (Guarded RoomOnFirstPage (AllocStep src)) s) :
    ∀ b ∈ s.live, FreesItsBit s.alloc b.grant := by
  obtain ⟨ps, rows, role, hinv⟩ := h.invariant
    (fun s => ∃ ps rows role, OneRowInv s ps rows role)
    (fun s hs => ⟨_, _, _, hs.liveInv, fun c => Nat.zero_le _,
      fun c => by rw [hs.2.1, Nat.zero_div]⟩)
    (fun s op s' ⟨ps, rows, role, hs⟩ hstep => hs.step hstep)
  intro b hb
  obtain ⟨n, d, hu, hp⟩ := hinv.row_eq_zero hb
  exact (hinv.toLiveInv.memFree hb hu hp).1

/-! ## Runs that are computed -/

/-- A call, with the pages handed out in the order of their addresses. -/
def AllocRun.handle? (s : AllocRun) : AllocOp → Option AllocRun
  | .alloc size =>
    if 1 ≤ size ∧ size ≤ 2048 then
      match s.alloc.memAlloc bumpPages 100 size with
      | .ok (g, a) => some ⟨a, ⟨g, size⟩ :: s.live⟩
      | .error _ => none
    else none
  | .free location =>
    if ∃ b ∈ s.live, b.grant.location = location then
      match s.alloc.memFree location with
      | .ok a => some ⟨a, s.live.filter fun b => b.grant.location ≠ location⟩
      | .error _ => none
    else none

theorem AllocRun.step_of_handle? {s s' : AllocRun} {op : AllocOp} (h : s.handle? op = some s') :
    AllocStep bumpPages s op s' := by
  cases op with
  | alloc size =>
    dsimp only [AllocRun.handle?] at h
    split_ifs at h with hsize
    cases hr : s.alloc.memAlloc bumpPages 100 size with
    | error e =>
      rw [hr] at h
      cases h
    | ok r =>
      rw [hr] at h
      cases h
      exact ⟨hsize.1, hsize.2, 100, r.1, hr, rfl⟩
  | free location =>
    dsimp only [AllocRun.handle?] at h
    split_ifs at h with hlive
    cases hr : s.alloc.memFree location with
    | error e =>
      rw [hr] at h
      cases h
    | ok a =>
      rw [hr] at h
      cases h
      exact ⟨hlive, hr, rfl⟩

/-- The allocator after `allocator_init`, with the page it takes for `bump_alloc`. -/
def allocStart : AllocRun :=
  ⟨⟨(Heap.mk [] fun _ _ => 0).push 4096 512, fun _ => 0, fun _ => 0, [], []⟩, []⟩

theorem allocStart_init : AllocInit allocStart := ⟨rfl, rfl, rfl, rfl, rfl⟩

instance (s : AllocRun) : (op : AllocOp) → Decidable (FirstIdxPage s op)
  | .alloc _ => inferInstanceAs (Decidable (_ < _))
  | .free _ => inferInstanceAs (Decidable (_ = _))

instance (s : AllocRun) : (op : AllocOp) → Decidable (RoomOnFirstPage s op)
  | .alloc _ => inferInstanceAs (Decidable (_ < _))
  | .free _ => inferInstanceAs (Decidable True)

/-- Blocks of two data pages and a small one, and the first of them freed and handed out
again. -/
theorem allocator_blocksSafe_twoRows : ∃ s : AllocRun, s.live.map Block.size = [1100, 2000, 24] ∧
    BlocksSafe s := by
  obtain ⟨s, hrun, hs⟩ : ∃ s, [AllocOp.alloc 2048, .alloc 24, .alloc 2000, .free 12352,
      .alloc 1100].foldlM (fun s op => if FirstIdxPage s op then s.handle? op else none)
        allocStart = some s ∧ decide (s.live.map Block.size = [1100, 2000, 24]) = true :=
    (Option.any_eq_true _ _).mp (by decide +kernel)
  refine ⟨s, of_decide_eq_true hs, allocator_blocksSafe bumpPages (Reach.of_foldlM
    (fun s a s' h => ?_) (Reach.start allocStart_init) hrun)⟩
  split_ifs at h with hc
  exact ⟨hc, AllocRun.step_of_handle? h⟩

/-- A block handed out a second time, while it is live : a block of another row is freed, and
the bit that is cleared is not its own. -/
theorem not_blocksSafe_secondRow :
    ∃ s, Reach AllocInit (AllocStep bumpPages) s ∧ ¬BlocksSafe s := by
  obtain ⟨s, hrun, hs⟩ : ∃ s, [AllocOp.alloc 2048, .alloc 2048, .free 12352, .alloc 2048,
      .alloc 2048, .alloc 2048, .alloc 2048, .alloc 2048, .alloc 2048, .alloc 2048, .alloc 2048,
      .alloc 2048, .free 20544, .alloc 2048].foldlM AllocRun.handle? allocStart = some s ∧
      decide (¬s.live.Pairwise fun a b =>
        a.grant.location + a.size ≤ b.grant.location ∨
          b.grant.location + b.size ≤ a.grant.location) = true :=
    (Option.any_eq_true _ _).mp (by decide +kernel)
  exact ⟨s, Reach.of_foldlM (fun _ _ _ => AllocRun.step_of_handle?)
    (Reach.start allocStart_init) hrun, fun hsafe => of_decide_eq_true hs hsafe.blocks⟩

/-- Blocks of two classes, one of them freed and handed out again. -/
theorem allocator_freesItsBit_oneRow : ∃ s : AllocRun, s.live.map Block.size = [1100, 24, 20] ∧
    ∀ b ∈ s.live, FreesItsBit s.alloc b.grant := by
  obtain ⟨s, hrun, hs⟩ : ∃ s, [AllocOp.alloc 2048, .alloc 20, .alloc 24, .free 12352,
      .alloc 1100].foldlM (fun s op => if RoomOnFirstPage s op then s.handle? op else none)
        allocStart = some s ∧ decide (s.live.map Block.size = [1100, 24, 20]) = true :=
    (Option.any_eq_true _ _).mp (by decide +kernel)
  refine ⟨s, of_decide_eq_true hs, allocator_freesItsBit bumpPages (Reach.of_foldlM
    (fun s a s' h => ?_) (Reach.start allocStart_init) hrun)⟩
  split_ifs at h with hc
  exact ⟨hc, AllocRun.step_of_handle? h⟩

/-- The second block of 2048 bytes is on a second data page, and `mem_free` of it panics. -/
theorem not_freesItsBit_secondRow : ∃ s, Reach AllocInit (AllocStep bumpPages) s ∧
    ∃ b ∈ s.live, ¬FreesItsBit s.alloc b.grant := by
  obtain ⟨s, hrun, hs⟩ : ∃ s,
      [AllocOp.alloc 2048, .alloc 2048].foldlM AllocRun.handle? allocStart = some s ∧
      decide (∃ b ∈ s.live, (s.alloc.memFree b.grant.location).isOk = false) = true :=
    (Option.any_eq_true _ _).mp (by decide +kernel)
  obtain ⟨b, hb, hpanic⟩ := of_decide_eq_true hs
  refine ⟨s, Reach.of_foldlM (fun _ _ _ => AllocRun.step_of_handle?)
    (Reach.start allocStart_init) hrun, b, hb, fun hfree => ?_⟩
  obtain ⟨s', hs', -⟩ := hfree.memFree
  rw [hs'] at hpanic
  cases hpanic

end Toastium
