import Toastium.FileRead
import Toastium.InodeRoots
import Toastium.ListItems

/-!
# Data put into a blank file

`inode_file_debug_inject_data` copies its argument into pages, and inserts them into the deepest
tree of the file. The last page gets `size % 4096` bytes, so a last page that is full gets none.
The tree has 16 levels of 4 bits, and the bound that `radix_insert` checks its key against is
`1 << 64`, which is `1 << 0` on the target, so it takes key 0 only.

`injectData_correct_iff` : the call does not panic, and the bytes are read back, exactly when there
are less than 4096 of them, or 4096 that are all 0.
-/

namespace Toastium

/-! ## The code -/

section Code

/-- `page_cnt`. -/
def injectPageCnt (size : ℕ) : ℕ :=
  roundModUp size 4096 / 4096

/-- The copy of a full page, word by word. -/
def copyWords (page : ℕ) (src : ℕ → BitVec 8) :
    ℕ → ℕ → Heap (BitVec 8) → Except (Fault Panic) (Heap (BitVec 8))
  | 0, _, h => .ok h
  | n + 1, j, h => do
    let h ← memcpyFrom page (8 * j) (fun b => src (8 * j + b)) 8 0 h
    copyWords page src n (j + 1) h

/-- The copy of page `i`. -/
def injectPage (src : ℕ → BitVec 8) (size i page : ℕ) (h : Heap (BitVec 8)) :
    Except (Fault Panic) (Heap (BitVec 8)) :=
  if i ≠ injectPageCnt size - 1 then copyWords page (fun b => src (4096 * i + b)) 512 0 h
  else memcpyFrom page 0 (fun b => src (4096 * i + b)) (size % 4096) 0 h

variable (nodeSrc : NodeSource inodeFileRadixLevelDepth) (pageSrc : BytePageSource)

/-- `radix_insert` on the target, where a shift is by the lowest 6 bits of what it is by. -/
def radixInsertRv64 (h : Heap (BitVec 64)) (addr key childAddr depth : ℕ) :
    Except (Fault Panic) (BitVec 64 × Heap (BitVec 64)) :=
  if key ≥ 2 ^ (inodeFileRadixLevelDepth * depth % 64) then
    .error (.panic .addrKeyLargerThenRadix)
  else radixInsert nodeSrc h addr key childAddr depth

/-- The loop of `inode_file_debug_inject_data`, `m` passes from `i` on. -/
def injectPages (src : ℕ → BitVec 8) (size : ℕ) :
    ℕ → ℕ → OpenFile → Except (Fault Panic) OpenFile
  | 0, _, f => .ok f
  | m + 1, i, f => do
    let (page, pages) ← pageSrc.alloc Panic.outOfFreePages f.pages
    let pages ← injectPage src size i page pages
    let (oldAddr, nodes) ← radixInsertRv64 nodeSrc f.nodes
      (f.radixRoots (inodeFileRadixMaxDepth - 1)) i page inodeFileRadixMaxDepth
    if oldAddr ≠ 0 then .error (.panic .inodeFileDebugInjectDataAlreadyContents)
    else injectPages src size m (i + 1) { f with nodes := nodes, pages := pages }

/-- `inode_file_debug_inject_data` of the bytes at `src`. -/
def inodeFileDebugInjectData (src : ℕ → BitVec 8) (size : ℕ) (f : OpenFile) :
    Except (Fault Panic) OpenFile :=
  if f.type ≠ .file then .error (.panic .inodeFileDebugInjectDataOnNonFile)
  else do
    let f ← injectPages nodeSrc pageSrc src size (injectPageCnt size) 0 f
    return { f with size := size }

end Code

/-- The bytes are put into the file, and a read from its start to `dest` gives them back. -/
def InjectCorrect (nodeSrc : NodeSource inodeFileRadixLevelDepth) (pageSrc : BytePageSource)
    (src : ℕ → BitVec 8) (size dest : ℕ) (f : OpenFile) : Prop :=
  ∃ f' f'', inodeFileDebugInjectData nodeSrc pageSrc src size f = .ok f' ∧ f'.size = size ∧
    fileDescriptorRead nodeSrc pageSrc f' dest size = .ok (size, f'') ∧
    ∀ i < size, f''.pages.cell dest i = src i

variable {nodeSrc : NodeSource inodeFileRadixLevelDepth} {pageSrc : BytePageSource}
  {f : OpenFile} {src : ℕ → BitVec 8} {size dest : ℕ}

/-! ## A blank file -/

/-- The trees that `find_page_start` uses are not as deep. -/
theorem radixInsertRv64_eq {depth : ℕ} (hd : depth < inodeFileRadixMaxDepth)
    (h : Heap (BitVec 64)) (addr key childAddr : ℕ) :
    radixInsertRv64 nodeSrc h addr key childAddr depth =
      radixInsert nodeSrc h addr key childAddr depth := by
  have hmod : inodeFileRadixLevelDepth * depth % 64 = inodeFileRadixLevelDepth * depth :=
    Nat.mod_eq_of_lt (by unfold inodeFileRadixLevelDepth inodeFileRadixMaxDepth at *; omega)
  rw [radixInsertRv64, hmod]
  by_cases hk : key ≥ 2 ^ (inodeFileRadixLevelDepth * depth)
  · rw [if_pos hk, radixInsert, if_pos hk]
    rfl
  · rw [if_neg hk]

/-- The deepest tree takes key 0 only. -/
theorem radixInsertRv64_max {h h' : Heap (BitVec 64)} {addr key childAddr : ℕ} {old : BitVec 64}
    (hok : radixInsertRv64 nodeSrc h addr key childAddr inodeFileRadixMaxDepth = .ok (old, h')) :
    key = 0 := by
  by_contra hk
  have hge : key ≥ 2 ^ (inodeFileRadixLevelDepth * inodeFileRadixMaxDepth % 64) :=
    Nat.pos_of_ne_zero hk
  rw [radixInsertRv64, if_pos hge] at hok
  cases hok

/-- The passes keep the nodes and the roots that are there. -/
theorem createRoots_grown : ∀ {m i cur : ℕ} {roots roots' : ℕ → ℕ} {h h' : Heap (BitVec 64)},
    createRoots nodeSrc m i cur roots h = .ok (roots', h') →
      Grown h h' ∧ ∀ k < i, roots' k = roots k
  | 0, _, _, _, _, h, _, hok => by
    cases hok
    exact ⟨Grown.refl h, fun _ _ => rfl⟩
  | m + 1, i, cur, roots, roots', h, h', hok => by
    obtain ⟨b, hnext, hok⟩ := createRoots_step hok
    have hfree := nodeSrc.fresh hnext
    obtain ⟨hg, hroots⟩ := createRoots_grown hok
    have hset : Grown h ((h.push b (2 ^ inodeFileRadixLevelDepth)).set b 0
        (BitVec.ofNat 64 cur)) := by
      intro q hq
      have hne : q ≠ b := fun he => hq (he ▸ hfree)
      obtain ⟨hlen, hcell⟩ := Grown.push hfree (2 ^ inodeFileRadixLevelDepth) q hq
      refine ⟨hlen, fun j => ?_⟩
      rw [Heap.cell_set_of_base_ne _ _ _ _ hne, hcell]
    refine ⟨hset.trans hg, fun k hk => ?_⟩
    rw [hroots k (Nat.lt_succ_of_lt hk), Function.update_of_ne hk.ne]

/-- A blank file has no page 0. -/
theorem BlankFile.cell_zero (hf : BlankFile nodeSrc f) : f.nodes.cell (f.radixRoots 0) 0 = 0 := by
  obtain ⟨nodes, pages, hf⟩ := hf
  obtain ⟨⟨roots, h'⟩, hroots, hf⟩ := bind_eq_ok.mp hf
  cases hf
  obtain ⟨b, hnext, hok⟩ := createRoots_step hroots
  obtain ⟨hg, hkeep⟩ := createRoots_grown hok
  have hb : roots 0 = b := by rw [hkeep 0 Nat.zero_lt_one, Function.update_self]
  obtain ⟨-, hcell⟩ := hg b (by rw [Heap.len_set, Heap.len_push_self]; decide)
  change h'.cell (roots 0) 0 = 0
  rw [hb, hcell, Heap.cell_set_self]
  rfl

theorem BlankFile.type_eq (hf : BlankFile nodeSrc f) : f.type = .file ∧ f.seekPos = 0 := by
  obtain ⟨nodes, pages, hf⟩ := hf
  obtain ⟨⟨roots, h'⟩, -, hf⟩ := bind_eq_ok.mp hf
  cases hf
  exact ⟨rfl, rfl⟩

theorem FileTree.root_len (hf : FileTree f) {i : ℕ} (hi : i < inodeFileRadixMaxDepth) :
    f.nodes.len (f.radixRoots i) = 16 := by
  obtain ⟨nodes, ht, hroots⟩ := hf
  exact ht.len (hroots i hi)

/-- The way to page 0 is along the roots. -/
theorem FileTree.descend_zero (hf : FileTree f) : ∀ {j : ℕ}, j < inodeFileRadixMaxDepth →
    radixDescend nodeSrc 0 j (f.radixRoots j) f.nodes = .ok (f.radixRoots 0, f.nodes)
  | 0, _ => rfl
  | j + 1, hj => by
    have hj' := Nat.lt_of_succ_lt hj
    have hidx : radixIdx 0 (j + 1) inodeFileRadixLevelDepth = 0 := by
      rw [radixIdx, Nat.zero_div, Nat.zero_mod]
    have hlen := hf.root_len hj
    obtain ⟨nodes, ht, hroots⟩ := id hf
    have hcell : f.nodes.cell (f.radixRoots (j + 1)) 0 = nodeWord (nodes j 0) := by
      rw [ht.child (hroots _ hj) (i := 0) (by decide), Nat.zero_mul]
    rw [RadixTree.radixDescend_of_ne nodeSrc (by rw [hidx, hlen]; decide)
      (by rw [hidx, hcell]; exact ht.nodeWord_ne_zero (hroots j hj')), hidx, hcell,
      ht.nodeWord_some (hroots j hj')]
    exact hf.descend_zero hj'

theorem FileTree.root_zero (hf : FileTree f) : 0 < f.nodes.len (f.radixRoots 0) := by
  rw [hf.root_len (by decide)]
  decide

/-- Page 0 is looked up in the smallest tree. -/
theorem page_zero (hlen : 0 < f.nodes.len (f.radixRoots 0)) :
    f.page 0 = (f.nodes.cell (f.radixRoots 0) 0).toNat := by
  have hlevel : radixLevel 0 = 0 := rfl
  have hidx : radixIdx 0 0 inodeFileRadixLevelDepth = 0 := rfl
  rw [OpenFile.page, OpenFile.getPage, hlevel, radixGet, hidx, Heap.load_eq_ok hlen, ok_bind]
  by_cases h0 : f.nodes.cell (f.radixRoots 0) 0 = 0
  · rw [if_pos h0, h0]
    rfl
  · rw [if_neg h0]
    rfl

/-- The insertion of page 0 into the deepest tree. -/
theorem FileTree.insert_zero (hf : FileTree f) (nodeSrc : NodeSource inodeFileRadixLevelDepth)
    (page : ℕ) :
    radixInsertRv64 nodeSrc f.nodes (f.radixRoots (inodeFileRadixMaxDepth - 1)) 0 page
      inodeFileRadixMaxDepth = .ok (f.nodes.cell (f.radixRoots 0) 0,
        f.nodes.set (f.radixRoots 0) 0 (BitVec.ofNat 64 page)) := by
  have hidx : radixIdx 0 0 inodeFileRadixLevelDepth = 0 := rfl
  have hlen := hf.root_zero
  rw [radixInsertRv64, if_neg (by decide), radixInsert, if_neg (by decide),
    hf.descend_zero (by decide)]
  simp only [ok_bind, pure_eq_ok, hidx, Heap.load_eq_ok hlen, Heap.store_eq_ok hlen]

/-! ## The pages -/

theorem injectPageCnt_of_le (hpos : 0 < size) (hle : size ≤ 4096) : injectPageCnt size = 1 := by
  unfold injectPageCnt roundModUp
  omega

/-- Only page 0 can be put into a file. -/
theorem injectPages_key {m i : ℕ} {f f' : OpenFile}
    (hok : injectPages nodeSrc pageSrc src size (m + 1) i f = .ok f') :
    i = 0 ∧ ∃ f₁, injectPages nodeSrc pageSrc src size m (i + 1) f₁ = .ok f' := by
  rw [injectPages] at hok
  obtain ⟨⟨page, pages⟩, -, hok⟩ := bind_eq_ok.mp hok
  obtain ⟨pages', -, hok⟩ := bind_eq_ok.mp hok
  obtain ⟨⟨old, nodes⟩, hins, hok⟩ := bind_eq_ok.mp hok
  refine ⟨radixInsertRv64_max hins, ?_⟩
  dsimp only at hok
  by_cases hold : old ≠ 0
  · rw [if_pos hold] at hok
    cases hok
  · rw [if_neg hold] at hok
    exact ⟨_, hok⟩

/-- Two pages are too many. -/
theorem injectPages_two {m : ℕ} {f f' : OpenFile} :
    injectPages nodeSrc pageSrc src size (m + 2) 0 f ≠ .ok f' := by
  intro hok
  obtain ⟨-, f₁, hok⟩ := injectPages_key hok
  exact absurd (injectPages_key hok).1 (by decide)

/-- A blank file after its one page is put into it. -/
def injectedFile (f : OpenFile) (page : ℕ) (src : ℕ → BitVec 8) (size : ℕ) : OpenFile :=
  { f with
    nodes := f.nodes.set (f.radixRoots 0) 0 (BitVec.ofNat 64 page)
    pages := (f.pages.push page 4096).fill page 0 (size % 4096) src
    size := size }

section OnePage

variable {page : ℕ} (hblank : BlankFile nodeSrc f) (hpage : pageSrc.next f.pages = some page)
  (src)
include hblank hpage

theorem injectData_one (hpos : 0 < size) (hle : size ≤ 4096) :
    inodeFileDebugInjectData nodeSrc pageSrc src size f = .ok (injectedFile f page src size) := by
  have hcopy : injectPage src size 0 page (f.pages.push page 4096) =
      .ok ((f.pages.push page 4096).fill page 0 (size % 4096) src) := by
    have hlast : ¬(0 ≠ injectPageCnt size - 1) := by
      rw [injectPageCnt_of_le hpos hle]
      exact not_not.2 rfl
    have hmem := @memcpyFrom_eq page 0 src (size % 4096) 0
      (f.pages.push page 4096) (by rw [Heap.len_push_self]; omega)
    simp only [Nat.zero_add] at hmem
    rw [injectPage, if_neg hlast]
    simp only [Nat.mul_zero, Nat.zero_add, hmem]
  have hinsert := (FileTree.init hblank).insert_zero nodeSrc page
  rw [inodeFileDebugInjectData, if_neg (not_not.2 hblank.type_eq.1), injectPageCnt_of_le hpos hle,
    injectPages, Source.alloc_eq_ok.2 ⟨hpage, rfl⟩, ok_bind]
  simp only [hcopy, hinsert, ok_bind, if_neg (not_not.2 hblank.cell_zero)]
  rfl

theorem injectedFile_page (size : ℕ) : (injectedFile f page src size).page 0 = page := by
  have hlt := pageSrc.lt hpage
  rw [page_zero (f := injectedFile f page src size) (FileTree.init hblank).root_zero]
  change ((f.nodes.set (f.radixRoots 0) 0 (BitVec.ofNat 64 page)).cell
    (f.radixRoots 0) 0).toNat = page
  rw [Heap.cell_set_self, BitVec.toNat_ofNat, Nat.mod_eq_of_lt (by omega)]

/-- The last page gets `size % 4096` bytes. -/
theorem injectedFile_byte {o : ℕ} (ho : o < 4096) :
    (injectedFile f page src size).byte o = if o < size % 4096 then src o else 0 := by
  rw [OpenFile.byte, Nat.div_eq_of_lt ho, Nat.mod_eq_of_lt ho,
    injectedFile_page src hblank hpage size]
  change ((f.pages.push page 4096).fill page 0 (size % 4096) src).cell page o = _
  rw [Heap.cell_fill, Heap.cell_push_self]
  simp only [true_and, Nat.zero_le, Nat.zero_add, Nat.sub_zero]

/-- The read of the file. -/
theorem injectedFile_read (hpos : 0 < size) (hle : size ≤ 4096) (hroom : size ≤ f.pages.len dest) :
    ∃ f', fileDescriptorRead nodeSrc pageSrc (injectedFile f page src size) dest size =
        .ok (size, f') ∧
      ∀ i < size, f'.pages.cell dest i = if i < size % 4096 then src i else 0 := by
  obtain ⟨htype, hseek⟩ := hblank.type_eq
  have hpage0 := injectedFile_page src hblank hpage size
  have hdest : page ≠ dest := by
    rintro rfl
    have hfree := pageSrc.fresh hpage
    omega
  have hmin : min size ((injectedFile f page src size).size -
      (injectedFile f page src size).seekPos) = size := by
    change min size (size - f.seekPos) = size
    omega
  have hseek' : (injectedFile f page src size).seekPos = 0 := hseek
  have hlen : ∀ q, (injectedFile f page src size).pages.len q =
      if q = page then 4096 else f.pages.len q := fun q => by
    change (f.pages.push page 4096).len q = _
    rw [Heap.len_push]
  obtain ⟨h, hrun, -, -, hcell⟩ := @fileDescriptorRead_eq nodeSrc pageSrc
    (injectedFile f page src size) dest size htype (by change size < _; omega)
    (fun i hi => by
      rw [hmin] at hi
      have hdiv : i / 4096 = 0 := Nat.div_eq_of_lt (by omega)
      rw [hseek', Nat.zero_add, Readable, hdiv, hpage0, hlen, if_pos rfl]
      exact ⟨⟨(pageSrc.pos hpage).ne', Nat.mod_lt _ (by decide)⟩, hdest⟩)
    (by rw [hmin, hlen, if_neg hdest.symm]; exact hroom)
  rw [hmin] at hrun hcell
  refine ⟨_, hrun, fun i hi => ?_⟩
  rw [hcell, if_pos hi, hseek', Nat.zero_add,
    injectedFile_byte src hblank hpage (Nat.lt_of_lt_of_le hi hle)]

end OnePage

/-- A file without page 0 cannot be read. -/
theorem fileDescriptorRead_of_page_zero (htype : f.type = .file) (hseek : f.seekPos = 0)
    (hpage : f.page 0 = 0) (hpos : 0 < f.size) (hsize : f.size < 2 ^ 64) (r : ℕ × OpenFile) :
    fileDescriptorRead nodeSrc pageSrc f dest f.size ≠ .ok r := by
  obtain ⟨e, hfind, -⟩ := @findPageStart_of_eq nodeSrc pageSrc f 0 hpos hpage
  have hmin : min f.size (f.size - f.seekPos) = f.size := by omega
  rw [fileDescriptorRead_pos htype hsize (by rw [hmin]; exact hpos.ne'), hmin, hseek, readFrom,
    dif_pos hpos, hfind]
  intro hok
  cases hok

/-! ## Any size -/

theorem injectCorrect_zero (hblank : BlankFile nodeSrc f) :
    InjectCorrect nodeSrc pageSrc src 0 dest f := by
  obtain ⟨htype, hseek⟩ := hblank.type_eq
  refine ⟨{ f with size := 0 }, { f with size := 0 }, ?_, rfl, ?_,
    fun i hi => absurd hi (Nat.not_lt_zero i)⟩
  · rw [inodeFileDebugInjectData, if_neg (not_not.2 htype)]
    rfl
  · exact fileDescriptorRead_zero (f := { f with size := 0 }) htype (by decide : 0 < 2 ^ 64)
      (Nat.zero_min _)

/-- More than one page : the second key is too large, or the number of pages wraps around to 0. -/
theorem not_injectCorrect_of_lt (hblank : BlankFile nodeSrc f) (hgt : 4096 < size)
    (hsize : size < 2 ^ 64) : ¬InjectCorrect nodeSrc pageSrc src size dest f := by
  obtain ⟨htype, hseek⟩ := hblank.type_eq
  rintro ⟨f', f'', hinject, -, hread, -⟩
  rw [inodeFileDebugInjectData, if_neg (not_not.2 htype)] at hinject
  obtain ⟨f₁, hpages, hret⟩ := bind_eq_ok.1 hinject
  cases hret
  have hcnt : injectPageCnt size = 0 ∨ 2 ≤ injectPageCnt size := by
    unfold injectPageCnt roundModUp
    omega
  rcases hcnt with hcnt | hcnt
  · rw [hcnt] at hpages
    cases hpages
    have hpage : OpenFile.page { f with size := size } 0 = 0 := by
      rw [page_zero (f := { f with size := size }) (FileTree.init hblank).root_zero]
      exact congrArg BitVec.toNat hblank.cell_zero
    exact fileDescriptorRead_of_page_zero (f := { f with size := size }) htype hseek hpage
      (by change 0 < size; omega) hsize _ hread
  · obtain ⟨m, hm⟩ := Nat.exists_eq_add_of_le' hcnt
    rw [hm] at hpages
    exact injectPages_two hpages

/-- One page : its bytes are read back if those that are not copied are 0. -/
theorem injectCorrect_iff_of_le (hblank : BlankFile nodeSrc f) (hpos : 0 < size)
    (hle : size ≤ 4096) (hroom : size ≤ f.pages.len dest) (hnext : pageSrc.next f.pages ≠ none) :
    InjectCorrect nodeSrc pageSrc src size dest f ↔
      ∀ i < size, (if i < size % 4096 then src i else 0) = src i := by
  obtain ⟨page, hpage⟩ := Option.ne_none_iff_exists'.1 hnext
  have hinject := injectData_one src hblank hpage hpos hle
  obtain ⟨f'', hread, hcell⟩ := injectedFile_read src hblank hpage hpos hle hroom
  constructor
  · rintro ⟨f₁, f₂, hinject', -, hread', hsrc⟩ i hi
    rw [hinject] at hinject'
    cases hinject'
    rw [hread] at hread'
    cases hread'
    rw [← hcell i hi, hsrc i hi]
  · intro hsame
    exact ⟨_, f'', hinject, rfl, hread, fun i hi => (hcell i hi).trans (hsame i hi)⟩

/-- The call does not panic, and the bytes are read back, exactly when there are less than 4096 of
them, or 4096 that are all 0. -/
theorem injectData_correct_iff (hblank : BlankFile nodeSrc f) (hsize : size < 2 ^ 64)
    (hroom : size ≤ f.pages.len dest) (hnext : pageSrc.next f.pages ≠ none) :
    InjectCorrect nodeSrc pageSrc src size dest f ↔
      size < 4096 ∨ size = 4096 ∧ ∀ i < 4096, src i = 0 := by
  rcases Nat.eq_zero_or_pos size with rfl | hpos
  · exact iff_of_true (injectCorrect_zero hblank) (Or.inl (by decide))
  rcases Nat.lt_or_ge 4096 size with hgt | hle
  · exact iff_of_false (not_injectCorrect_of_lt hblank hgt hsize) (by omega)
  rw [injectCorrect_iff_of_le hblank hpos hle hroom hnext]
  rcases Nat.eq_or_lt_of_le hle with rfl | hlt
  · simp only [Nat.mod_self, Nat.not_lt_zero, if_false, lt_irrefl, false_or, true_and, eq_comm]
  · refine iff_of_true (fun i hi => if_pos ?_) (Or.inl hlt)
    rwa [Nat.mod_eq_of_lt hlt]

/-- A blank file, with a buffer of one page to read to. -/
theorem exists_blankFile : ∃ f, BlankFile bumpRadixNodes f ∧
    f.pages = Heap.push ⟨[], fun _ _ => 0⟩ 4096 4096 := by
  obtain ⟨f, hrun⟩ : ∃ f, createBlankInodeFile bumpRadixNodes ⟨[], fun _ _ => 0⟩
    (Heap.push ⟨[], fun _ _ => 0⟩ 4096 4096) = .ok f := exists_eq_ok (by decide +kernel)
  refine ⟨f, ⟨_, _, hrun⟩, ?_⟩
  obtain ⟨⟨roots, h'⟩, -, hret⟩ := bind_eq_ok.1 hrun
  cases hret
  rfl

/-- The 150 bytes of a program. -/
theorem injectData_correct_program : ∃ f, BlankFile bumpRadixNodes f ∧
    InjectCorrect bumpRadixNodes bumpBytePages (fun i => BitVec.ofNat 8 (i + 1)) 150 4096 f := by
  obtain ⟨f, hblank, hpages⟩ := exists_blankFile
  exact ⟨f, hblank, (injectData_correct_iff hblank (by decide) (by rw [hpages]; decide)
    (by rw [hpages]; decide)).2 (Or.inl (by decide))⟩

/-- Of a full page no byte is copied, and a second page is not taken. -/
theorem not_injectData_correct_page : ∃ f, BlankFile bumpRadixNodes f ∧
    ¬InjectCorrect bumpRadixNodes bumpBytePages (fun _ => 1) 4096 4096 f ∧
    ¬InjectCorrect bumpRadixNodes bumpBytePages (fun _ => 1) 4097 4096 f := by
  obtain ⟨f, hblank, hpages⟩ := exists_blankFile
  refine ⟨f, hblank, fun hc => ?_, not_injectCorrect_of_lt hblank (by decide) (by decide)⟩
  rw [injectCorrect_iff_of_le hblank (by decide) le_rfl (by rw [hpages]; decide)
    (by rw [hpages]; decide)] at hc
  exact absurd (hc 0 (by decide)) (by decide)

end Toastium
