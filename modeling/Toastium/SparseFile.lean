import Toastium.InjectData
import Toastium.SparseArray

/-!
# Files as arrays in pages

What a file stands for is an array of bytes in pages of 4096 (`OpenFile.sparse`). A write puts
its bytes there, if the pages that it lacks are at or past the size, and then records a size that
counts the bytes twice; else it panics. A read takes its bytes if their pages are there, and
panics else.

`fileDescriptorWrite_sparse`, `fileDescriptorRead_sparse` : this is what the calls do, for every
file whose pages are in the tree of its roots (`FileOk`), as long as memory lasts, and objects
that are not of the file are left alone (`OthersKept`).
-/

namespace Toastium

open RadixTree

/-! ## What a file stands for -/

/-- The file as an array in pages. Bytes without a page are 0. -/
def OpenFile.sparse (f : OpenFile) : SparseArray (BitVec 8) where
  present k := 4096 * k < 2 ^ 64 ∧ f.page k ≠ 0
  value n := if n < 2 ^ 64 ∧ f.page (n / 4096) ≠ 0 then f.byte n else 0
  size := f.size

theorem OpenFile.sparse_value (f : OpenFile) (n : ℕ) : f.sparse.value n =
    if n < 2 ^ 64 ∧ f.page (n / 4096) ≠ 0 then f.pages.cell (f.page (n / 4096)) (n % 4096) else 0 :=
  rfl

/-- What a write does to it. The size that is recorded counts the bytes twice. -/
def SparseArray.fileWrite (a : SparseArray (BitVec 8)) (p : ℕ) (src : List (BitVec 8)) :
    SparseArray (BitVec 8) :=
  { a.store 4096 p src with size := max a.size ((p + 2 * src.length) % 2 ^ 64) }

/-- What `inode_file_debug_inject_data` does to it, of 4096 bytes at most. Of 4096 it puts none
there. -/
def SparseArray.fileInject (a : SparseArray (BitVec 8)) (src : List (BitVec 8)) :
    SparseArray (BitVec 8) where
  present k := a.present k ∨ k = 0 ∧ src ≠ []
  value := patch (src.take (src.length % 4096)) 0 a.value
  size := src.length

/-- The page of a page number, in the tree with the given nodes. -/
def OpenFile.pageOf (f : OpenFile) (nodes : ℕ → ℕ → Option ℕ) (k : ℕ) : ℕ :=
  (radixValue f.nodes inodeFileRadixLevelDepth nodes k).toNat

/-- The pages of the file are in the one tree of its roots, and are distinct objects. -/
structure FileOk (f : OpenFile) (nodes : ℕ → ℕ → Option ℕ) : Prop where
  tree : RadixTree f.nodes inodeFileRadixLevelDepth 15 nodes
  roots : ∀ i < inodeFileRadixMaxDepth, nodes i 0 = some (f.radixRoots i)
  lt : ∀ k, f.pageOf nodes k ≠ 0 → 4096 * k < 2 ^ 64
  len : ∀ k, f.pageOf nodes k ≠ 0 → f.pages.len (f.pageOf nodes k) = 4096
  inj : ∀ j k, f.pageOf nodes j = f.pageOf nodes k → f.pageOf nodes k ≠ 0 → j = k

/-- Objects that are not of the file are left alone, and do not come to be of it. -/
structure OthersKept (f : OpenFile) (nodes : ℕ → ℕ → Option ℕ) (f' : OpenFile)
    (nodes' : ℕ → ℕ → Option ℕ) : Prop where
  node : KeepsOthers f.nodes nodes f'.nodes nodes'
  page : ∀ q, f.pages.len q ≠ 0 → (∀ k, f.pageOf nodes k ≠ q) →
    f'.pages.len q = f.pages.len q ∧ (∀ i, f'.pages.cell q i = f.pages.cell q i) ∧
      ∀ k, f'.pageOf nodes' k ≠ q

theorem OthersKept.refl {f : OpenFile} {nodes : ℕ → ℕ → Option ℕ} :
    OthersKept f nodes f nodes :=
  ⟨KeepsOthers.refl, fun _ _ hq => ⟨rfl, fun _ => rfl, hq⟩⟩

theorem OthersKept.trans {f f' f'' : OpenFile} {nodes nodes' nodes'' : ℕ → ℕ → Option ℕ}
    (h : OthersKept f nodes f' nodes') (h' : OthersKept f' nodes' f'' nodes'') :
    OthersKept f nodes f'' nodes'' := by
  refine ⟨h.node.trans h'.node, fun q hlive hq => ?_⟩
  obtain ⟨hlen, hcell, hq'⟩ := h.page q hlive hq
  obtain ⟨hlen', hcell', hq''⟩ := h'.page q (by rwa [hlen]) hq'
  exact ⟨hlen'.trans hlen, fun i => (hcell' i).trans (hcell i), hq''⟩

section Calls

variable {nodeSrc : NodeSource inodeFileRadixLevelDepth} {pageSrc : BytePageSource}
  {f : OpenFile} {nodes : ℕ → ℕ → Option ℕ} {offset : ℕ}

namespace FileOk

/-- What the lookup of an offset returns. -/
theorem getPage (hf : FileOk f nodes) (ho : offset < 2 ^ 64) :
    f.getPage (offset / 4096) = .ok (f.pageOf nodes (offset / 4096)) := by
  obtain ⟨hl, hk⟩ := radixLevel_fits ho
  rw [sixteen_pow] at hk
  exact hf.tree.get (RadixTree.pre_zero (hf.roots _ hl) hk)

theorem page (hf : FileOk f nodes) (ho : offset < 2 ^ 64) :
    f.page (offset / 4096) = f.pageOf nodes (offset / 4096) := by
  rw [OpenFile.page, hf.getPage ho]

theorem page_eq (hf : FileOk f nodes) {k : ℕ} (hk : 4096 * k < 2 ^ 64) :
    f.page k = f.pageOf nodes k := by
  have := hf.page hk
  rwa [Nat.mul_div_cancel_left k (by decide)] at this

theorem present_iff (hf : FileOk f nodes) (ho : offset < 2 ^ 64) :
    f.sparse.present (offset / 4096) ↔ f.pageOf nodes (offset / 4096) ≠ 0 := by
  rw [← hf.page ho]
  exact and_iff_right (by omega)

/-- The pages are changed within the objects. -/
theorem setPages (hf : FileOk f nodes) {h : Heap (BitVec 8)} (hlen : ∀ q, h.len q = f.pages.len q) :
    FileOk { f with pages := h } nodes :=
  ⟨hf.tree, hf.roots, hf.lt, fun k hk => (hlen _).trans (hf.len k hk), hf.inj⟩

/-- The file in a memory in which its nodes and its pages are the same. -/
theorem kept (hf : FileOk f nodes) {h : Heap (BitVec 64)} {g : Heap (BitVec 8)}
    (hnode : ∀ {j p a}, nodes j p = some a →
      h.len a = f.nodes.len a ∧ ∀ i, h.cell a i = f.nodes.cell a i)
    (hpage : ∀ k, f.pageOf nodes k ≠ 0 → g.len (f.pageOf nodes k) = f.pages.len (f.pageOf nodes k) ∧
      ∀ i, g.cell (f.pageOf nodes k) i = f.pages.cell (f.pageOf nodes k) i) :
    (∀ k, OpenFile.pageOf { f with nodes := h, pages := g } nodes k = f.pageOf nodes k) ∧
      FileOk { f with nodes := h, pages := g } nodes ∧
      OpenFile.sparse { f with nodes := h, pages := g } = f.sparse := by
  have hof : ∀ k, OpenFile.pageOf { f with nodes := h, pages := g } nodes k = f.pageOf nodes k :=
    fun k => by
      rw [OpenFile.pageOf, value_kept fun ha => (hnode ha).2]
      rfl
  have hok : FileOk { f with nodes := h, pages := g } nodes := by
    refine ⟨hf.tree.kept hnode, hf.roots, fun k hk => ?_, fun k hk => ?_, fun i j he hj => ?_⟩
    · rw [hof] at hk
      exact hf.lt k hk
    · rw [hof] at hk ⊢
      exact (hpage k hk).1.trans (hf.len k hk)
    · rw [hof] at hj
      rw [hof, hof] at he
      exact hf.inj i j he hj
  have hpg : ∀ {k}, 4096 * k < 2 ^ 64 →
      OpenFile.page { f with nodes := h, pages := g } k = f.page k := fun {k} hk => by
    rw [hok.page_eq hk, hof, hf.page_eq hk]
  refine ⟨hof, hok, SparseArray.ext (funext fun k => propext ?_) (funext fun n => ?_) rfl⟩
  · refine and_congr_right fun hk => ?_
    rw [hpg hk]
  · rw [OpenFile.sparse_value, OpenFile.sparse_value]
    by_cases hn : n < 2 ^ 64
    · rw [hpg (by omega)]
      refine if_ctx_congr Iff.rfl (fun hp => ?_) fun _ => rfl
      rw [hf.page hn] at hp ⊢
      exact (hpage _ hp.2).2 _
    · rw [if_neg fun h => hn h.1, if_neg fun h => hn h.1]

end FileOk

/-- The position does not matter. -/
theorem FileOk.seek (hf : FileOk f nodes) (p : ℕ) : FileOk { f with seekPos := p } nodes :=
  ⟨hf.tree, hf.roots, hf.lt, hf.len, hf.inj⟩

/-! ## Two files -/

/-- Two files of a memory have no node and no page in common. -/
structure FilesApart (f : OpenFile) (nodes : ℕ → ℕ → Option ℕ) (g : OpenFile)
    (nodes' : ℕ → ℕ → Option ℕ) : Prop where
  node : ∀ {j p j' p' a}, nodes j p = some a → nodes' j' p' ≠ some a
  page : ∀ k l, g.pageOf nodes' l ≠ 0 → f.pageOf nodes k ≠ g.pageOf nodes' l

theorem FilesApart.symm {g : OpenFile} {nodes' : ℕ → ℕ → Option ℕ}
    (h : FilesApart f nodes g nodes') : FilesApart g nodes' f nodes :=
  ⟨fun ha hb => h.node hb ha, fun k l hl he => h.page l k (he ▸ hl) he.symm⟩

/-- What is done to one of them leaves the other alone. -/
theorem FilesApart.kept {f' g : OpenFile} {nodes' μ : ℕ → ℕ → Option ℕ}
    (hapart : FilesApart f nodes g μ) (hg : FileOk g μ) (hnodes : g.nodes = f.nodes)
    (hpages : g.pages = f.pages) (hothers : OthersKept f nodes f' nodes') :
    (∀ k, OpenFile.pageOf { g with nodes := f'.nodes, pages := f'.pages } μ k = g.pageOf μ k) ∧
      FileOk { g with nodes := f'.nodes, pages := f'.pages } μ ∧
      OpenFile.sparse { g with nodes := f'.nodes, pages := f'.pages } = g.sparse ∧
      FilesApart f' nodes' { g with nodes := f'.nodes, pages := f'.pages } μ := by
  have hnode : ∀ {j p a}, μ j p = some a → f'.nodes.len a = g.nodes.len a ∧
      (∀ i, f'.nodes.cell a i = g.nodes.cell a i) ∧ ∀ j' p', nodes' j' p' ≠ some a :=
    fun {j p a} ha => by
      have hlive : f.nodes.len a ≠ 0 := by
        rw [← hnodes, hg.tree.len ha]
        decide
      rw [hnodes]
      exact hothers.node a hlive fun j' p' hb => hapart.node hb ha
  have hpage : ∀ k, g.pageOf μ k ≠ 0 → f'.pages.len (g.pageOf μ k) = g.pages.len (g.pageOf μ k) ∧
      (∀ i, f'.pages.cell (g.pageOf μ k) i = g.pages.cell (g.pageOf μ k) i) ∧
        ∀ l, f'.pageOf nodes' l ≠ g.pageOf μ k := fun k hk => by
    have hlive : f.pages.len (g.pageOf μ k) ≠ 0 := by
      rw [← hpages, hg.len k hk]
      decide
    rw [hpages]
    exact hothers.page _ hlive fun l => hapart.page l k hk
  obtain ⟨hof, hok, hsparse⟩ := hg.kept (h := f'.nodes) (g := f'.pages)
    (fun ha => ⟨(hnode ha).1, (hnode ha).2.1⟩) fun k hk => ⟨(hpage k hk).1, (hpage k hk).2.1⟩
  refine ⟨hof, hok, hsparse, fun hb ha => (hnode ha).2.2 _ _ hb, fun k l hl => ?_⟩
  rw [hof] at hl ⊢
  exact (hpage l hl).2.2 k

/-! ## A page of a write -/

theorem findPageStart_present (hf : FileOk f nodes) (ho : offset < 2 ^ 64)
    (hp : f.pageOf nodes (offset / 4096) ≠ 0) :
    findPageStart nodeSrc pageSrc f offset = .ok (f.pageOf nodes (offset / 4096), f) := by
  rw [findPageStart, hf.getPage ho, ok_bind, if_pos hp]
  rfl

theorem findPageStart_absent (hf : FileOk f nodes) (ho : offset < 2 ^ 64)
    (hp : f.pageOf nodes (offset / 4096) = 0) (hlt : offset < f.size) :
    findPageStart nodeSrc pageSrc f offset = .error (.panic .readWriteOutOfBoundsFileDesc) := by
  rw [findPageStart, hf.getPage ho, ok_bind, if_neg (not_not.mpr hp), if_neg (by omega)]

/-- A new page, inserted through a root. -/
theorem FileOk.newPage (hf : FileOk f nodes) (nodeSrc : NodeSource inodeFileRadixLevelDepth)
    {l k : ℕ} (hl : l < inodeFileRadixMaxDepth) (hk : k < 16 ^ (l + 1)) (hlt : 4096 * k < 2 ^ 64)
    {p : ℕ} (hnext : pageSrc.next f.pages = some p) :
    radixInsert nodeSrc f.nodes (f.radixRoots l) k p (l + 1) = .error (.panic .outOfFreePages) ∨
    ∃ h nodes', radixInsert nodeSrc f.nodes (f.radixRoots l) k p (l + 1) =
        .ok (radixValue f.nodes inodeFileRadixLevelDepth nodes k, h) ∧
      FileOk { f with nodes := h, pages := f.pages.push p 4096 } nodes' ∧ p ≠ 0 ∧
      (∀ j, OpenFile.pageOf { f with nodes := h, pages := f.pages.push p 4096 } nodes' j =
        if j = k then p else f.pageOf nodes j) ∧
      (∀ j, f.pageOf nodes j ≠ 0 → f.pageOf nodes j ≠ p) ∧
      OthersKept f nodes { f with nodes := h, pages := f.pages.push p 4096 } nodes' := by
  rw [sixteen_pow] at hk
  refine (hf.tree.insert_keeps nodeSrc (hf.roots _ hl) hk p).imp And.right ?_
  rintro ⟨h, nodes', hok, ht, hnode, hvalue, hothers⟩
  have hp := pageSrc.lt hnext
  have hfree := pageSrc.fresh hnext
  have hpage : ∀ j, OpenFile.pageOf { f with nodes := h, pages := f.pages.push p 4096 } nodes' j =
      if j = k then p else f.pageOf nodes j := fun j => by
    rw [OpenFile.pageOf, hvalue, Function.update_apply]
    split_ifs
    · rw [BitVec.toNat_ofNat, Nat.mod_eq_of_lt (by omega)]
    · rfl
  have hne : ∀ j, f.pageOf nodes j ≠ 0 → f.pageOf nodes j ≠ p := fun j hj he => by
    have := hf.len j hj
    rw [he, hfree] at this
    cases this
  refine ⟨h, nodes', hok, ⟨ht, fun i hi => hnode (hf.roots i hi), fun j hj => ?_,
    fun j hj => ?_, fun i j he hj => ?_⟩, (pageSrc.pos hnext).ne', hpage, hne, hothers,
    fun q hlive hq => ?_⟩
  · rw [hpage] at hj
    split_ifs at hj with hjk
    · rwa [hjk]
    · exact hf.lt j hj
  · rw [hpage] at hj ⊢
    split_ifs at hj ⊢ with hjk
    · exact Heap.len_push_self _ _ _
    · exact (Heap.len_push_of_ne _ _ (hne j hj)).trans (hf.len j hj)
  · rw [hpage] at hj
    rw [hpage, hpage] at he
    split_ifs at he hj with hi hj'
    · rw [hi, hj']
    · exact absurd he.symm (hne j hj)
    · exact absurd he (hne i (he ▸ hj))
    · exact hf.inj i j he hj
  · have hqp : q ≠ p := fun he => hlive (he ▸ hfree)
    refine ⟨Heap.len_push_of_ne _ _ hqp, fun i => Heap.cell_push_of_ne _ _ _ hqp, fun k => ?_⟩
    rw [hpage]
    split_ifs
    · exact hqp.symm
    · exact hq k

/-- A page that is made. -/
theorem findPageStart_new (hf : FileOk f nodes) (ho : offset < 2 ^ 64)
    (hp : f.pageOf nodes (offset / 4096) = 0) (hsize : f.size ≤ offset) :
    findPageStart nodeSrc pageSrc f offset = .error (.panic .outOfFreePages) ∨
      ∃ h nodes' p, findPageStart nodeSrc pageSrc f offset =
          .ok (p, { f with nodes := h, pages := f.pages.push p 4096 }) ∧
        FileOk { f with nodes := h, pages := f.pages.push p 4096 } nodes' ∧ p ≠ 0 ∧
        (∀ j, OpenFile.pageOf { f with nodes := h, pages := f.pages.push p 4096 } nodes' j =
          if j = offset / 4096 then p else f.pageOf nodes j) ∧
        (∀ j, f.pageOf nodes j ≠ 0 → f.pageOf nodes j ≠ p) ∧
        OthersKept f nodes { f with nodes := h, pages := f.pages.push p 4096 } nodes' := by
  obtain ⟨hl, hk⟩ := radixLevel_fits ho
  simp only [findPageStart, hf.getPage ho, ok_bind, if_neg (not_not.mpr hp), if_pos hsize]
  rcases pageSrc.alloc_eq Panic.outOfFreePages f.pages with ⟨-, halloc⟩ | ⟨p, hnext, halloc⟩
  · exact Or.inl (by rw [halloc, error_bind])
  rcases hf.newPage nodeSrc hl hk (by omega) hnext with herr | ⟨h, nodes', hok, hnew⟩
  · exact Or.inl (by simp only [halloc, ok_bind, herr, error_bind])
  · exact Or.inr ⟨h, nodes', p, by simp only [halloc, hok, ok_bind, pure_eq_ok], hnew⟩

/-- A page that is made is blank. -/
theorem sparse_new (hf : FileOk f nodes) (ho : offset < 2 ^ 64)
    (hp : f.pageOf nodes (offset / 4096) = 0) {h : Heap (BitVec 64)} {p : ℕ}
    {nodes' : ℕ → ℕ → Option ℕ}
    (hf' : FileOk { f with nodes := h, pages := f.pages.push p 4096 } nodes') (hp0 : p ≠ 0)
    (hpage : ∀ j, OpenFile.pageOf { f with nodes := h, pages := f.pages.push p 4096 } nodes' j =
      if j = offset / 4096 then p else f.pageOf nodes j)
    (hne : ∀ j, f.pageOf nodes j ≠ 0 → f.pageOf nodes j ≠ p) :
    OpenFile.sparse { f with nodes := h, pages := f.pages.push p 4096 } =
      { f.sparse with present := fun k => f.sparse.present k ∨ k = offset / 4096 } := by
  have hpage' : ∀ {k}, 4096 * k < 2 ^ 64 →
      OpenFile.page { f with nodes := h, pages := f.pages.push p 4096 } k =
        if k = offset / 4096 then p else f.page k := fun {k} hk => by
    rw [hf'.page_eq hk, hpage, hf.page_eq hk]
  refine SparseArray.ext (funext fun k => propext ?_) (funext fun k => ?_) rfl
  · change _ ∧ OpenFile.page _ k ≠ 0 ↔ (_ ∧ f.page k ≠ 0) ∨ k = _
    constructor
    · rintro ⟨hk, hpk⟩
      rw [hpage' hk] at hpk
      split_ifs at hpk with hk0
      · exact Or.inr hk0
      · exact Or.inl ⟨hk, hpk⟩
    · intro hor
      have hk : 4096 * k < 2 ^ 64 := by
        rcases hor with ⟨hk, -⟩ | rfl
        · exact hk
        · omega
      refine ⟨hk, ?_⟩
      rw [hpage' hk]
      split_ifs with hk0
      · exact hp0
      · exact (hor.resolve_right hk0).2
  · change _ = f.sparse.value k
    rw [OpenFile.sparse_value, OpenFile.sparse_value]
    by_cases hk : k < 2 ^ 64
    · rw [hpage' (by omega)]
      by_cases hk0 : k / 4096 = offset / 4096
      · have h0 : f.page (k / 4096) = 0 := by rw [hk0, hf.page ho, hp]
        simp [hk0, ← h0]
      · rw [if_neg hk0]
        split_ifs with hk1
        · rw [Heap.cell_push_of_ne _ _ _ ?_]
          rw [hf.page hk]
          exact hne _ (hf.page hk ▸ hk1.2)
        · rfl
    · rw [if_neg (fun h => hk h.1), if_neg (fun h => hk h.1)]

/-- Bytes written to a page that is there. -/
theorem sparse_patch (hf : FileOk f nodes) {bs : List (BitVec 8)}
    (hend : offset % 4096 + bs.length ≤ 4096) (hlt : offset + bs.length < 2 ^ 64)
    (hp : f.pageOf nodes (offset / 4096) ≠ 0) {g : Heap (BitVec 8)}
    (hother : ∀ q, q ≠ f.pageOf nodes (offset / 4096) → g.cell q = f.pages.cell q)
    (hcell : g.cell (f.pageOf nodes (offset / 4096)) =
      patch bs (offset % 4096) (f.pages.cell (f.pageOf nodes (offset / 4096)))) :
    OpenFile.sparse { f with pages := g } =
      { f.sparse with value := patch bs offset f.sparse.value } := by
  have ho : offset < 2 ^ 64 := by omega
  refine SparseArray.ext rfl (funext fun n => ?_) rfl
  change (if n < 2 ^ 64 ∧ f.page (n / 4096) ≠ 0 then g.cell (f.page (n / 4096)) (n % 4096)
    else 0) = patch bs offset f.sparse.value n
  have hvalue := f.sparse_value n
  by_cases hn : n < 2 ^ 64
  · by_cases hdiv : n / 4096 = offset / 4096
    · rw [hdiv, hf.page ho, if_pos ⟨hn, hp⟩] at hvalue
      rw [hdiv, hf.page ho, if_pos ⟨hn, hp⟩, hcell]
      unfold patch
      rw [hvalue]
      by_cases hle : offset ≤ n
      · rw [if_pos (by omega), if_pos hle, show n % 4096 - offset % 4096 = n - offset by omega]
      · rw [if_neg (by omega), if_neg hle]
    · rw [patch_of_notMem _ _ (by omega), hvalue]
      split_ifs with hn'
      · rw [hother]
        intro he
        rw [hf.page hn] at he hn'
        exact hdiv (hf.inj _ _ he hp)
      · rfl
  · rw [patch_of_notMem _ _ (by omega), hvalue, if_neg (fun h => hn h.1),
      if_neg (fun h => hn h.1)]

/-- The `for` loop, on a page that is there. -/
theorem writePage_sparse (hf : FileOk f nodes) {bs : List (BitVec 8)}
    (hend : offset % 4096 + bs.length ≤ 4096) (hlt : offset + bs.length < 2 ^ 64)
    (hp : f.pageOf nodes (offset / 4096) ≠ 0) :
    ∃ g, writePage (f.pageOf nodes (offset / 4096)) bs offset f.pages = .ok g ∧
      FileOk { f with pages := g } nodes ∧
      OpenFile.sparse { f with pages := g } =
        { f.sparse with value := patch bs offset f.sparse.value } ∧
      OthersKept f nodes { f with pages := g } nodes := by
  obtain ⟨g, hw, hlen, hother, hcell⟩ := writePage_eq bs offset (hf.len _ hp) hend hlt
  refine ⟨g, hw, hf.setPages hlen, sparse_patch hf hend hlt hp hother hcell, KeepsOthers.refl,
    fun q _ hq => ⟨hlen q, fun i => ?_, hq⟩⟩
  rw [hother q (hq _).symm]

/-- The first page of a write. -/
theorem writeFirst_sparse (hf : FileOk f nodes) {bs : List (BitVec 8)} (hpos : 0 < bs.length)
    (hend : offset % 4096 + bs.length ≤ 4096) (hlt : offset + bs.length < 2 ^ 64) :
    (¬(f.sparse.present (offset / 4096) ∨ f.size ≤ offset) ∧
      findPageStart nodeSrc pageSrc f offset = .error (.panic .readWriteOutOfBoundsFileDesc)) ∨
    (f.sparse.present (offset / 4096) ∨ f.size ≤ offset) ∧
      (findPageStart nodeSrc pageSrc f offset = .error (.panic .outOfFreePages) ∨
      ∃ h g₁ g p nodes', findPageStart nodeSrc pageSrc f offset =
          .ok (p, { f with nodes := h, pages := g₁ }) ∧
        writePage p bs offset g₁ = .ok g ∧
        FileOk { f with nodes := h, pages := g } nodes' ∧
        OpenFile.sparse { f with nodes := h, pages := g } = f.sparse.store 4096 offset bs ∧
        OthersKept f nodes { f with nodes := h, pages := g } nodes') := by
  have ho : offset < 2 ^ 64 := by omega
  have hpresent := hf.present_iff ho
  have htouch : ∀ k, SparseArray.Touches 4096 offset bs.length k ↔ k = offset / 4096 := fun k =>
    SparseArray.touches_page hpos hend
  by_cases h0 : f.pageOf nodes (offset / 4096) = 0
  · by_cases hsize : f.size ≤ offset
    · refine Or.inr ⟨Or.inr hsize, (findPageStart_new hf ho h0 hsize).imp_right ?_⟩
      rintro ⟨h, nodes', p, hfind, hf', hp0, hpage, hne, hothers⟩
      have hpageOf := hpage (offset / 4096)
      rw [if_pos rfl] at hpageOf
      obtain ⟨g, hw, hok, hsparse, hothers'⟩ := writePage_sparse hf' hend hlt
        (by rw [hpageOf]; exact hp0)
      rw [hpageOf] at hw
      refine ⟨h, _, g, p, nodes', hfind, hw, hok, ?_, hothers.trans hothers'⟩
      rw [sparse_new hf ho h0 hf' hp0 hpage hne] at hsparse
      refine hsparse.trans ?_
      simp only [SparseArray.store, htouch]
    · refine Or.inl ⟨?_, findPageStart_absent hf ho h0 (by omega)⟩
      rw [hpresent]
      exact fun hor => hor.elim (fun h => h h0) hsize
  · obtain ⟨g, hw, hok, hsparse, hothers⟩ := writePage_sparse hf hend hlt h0
    refine Or.inr ⟨Or.inl (hpresent.mpr h0), Or.inr ⟨f.nodes, f.pages, g, _, nodes,
      findPageStart_present hf ho h0, hw, hok, hsparse.trans ?_, hothers⟩⟩
    refine SparseArray.ext (funext fun k => propext ?_) rfl rfl
    change f.sparse.present k ↔ f.sparse.present k ∨ SparseArray.Touches 4096 offset bs.length k
    rw [htouch]
    exact ⟨Or.inl, fun hor => hor.elim id fun he => he ▸ hpresent.mpr h0⟩

/-! ## The calls -/

/-- The `while` loop of a write. -/
theorem writeFrom_sparse (src : List (BitVec 8)) (offset : ℕ) {f : OpenFile}
    {nodes : ℕ → ℕ → Option ℕ} (hf : FileOk f nodes) (hlt : offset + src.length < 2 ^ 64) :
    writeFrom nodeSrc pageSrc src offset f = .error (.panic .outOfFreePages) ∨
    (¬f.sparse.CanStore 4096 offset src.length ∧
      writeFrom nodeSrc pageSrc src offset f = .error (.panic .readWriteOutOfBoundsFileDesc)) ∨
    f.sparse.CanStore 4096 offset src.length ∧
      ∃ h g nodes', writeFrom nodeSrc pageSrc src offset f =
          .ok (offset + src.length, { f with nodes := h, pages := g }) ∧
        FileOk { f with nodes := h, pages := g } nodes' ∧
        OpenFile.sparse { f with nodes := h, pages := g } = f.sparse.store 4096 offset src ∧
        OthersKept f nodes { f with nodes := h, pages := g } nodes' := by
  rw [writeFrom]
  by_cases hpos : 0 < src.length
  · rw [dif_pos hpos]
    have hn := pageEnd_pos hpos offset
    have hn1 : pageEnd src.length offset ≤ src.length := Nat.min_le_left _ _
    have hn2 : pageEnd src.length offset ≤ 4096 - offset % 4096 := Nat.min_le_right _ _
    have hrest : src.length - pageEnd src.length offset = 0 ∨
        offset % 4096 + pageEnd src.length offset = 4096 := by
      unfold pageEnd
      omega
    generalize hne : pageEnd src.length offset = n at *
    have htake : (src.take n).length = n := by rw [List.length_take]; omega
    have hdrop : (src.drop n).length = src.length - n := List.length_drop
    have hmod : (offset + n) % 2 ^ 64 = offset + n := Nat.mod_eq_of_lt (by omega)
    have hcan := SparseArray.canStore_add (P := 4096) (p := offset) (n := src.length - n)
      (a := f.sparse) htake hn (by omega) hrest
    rw [show n + (src.length - n) = src.length by omega] at hcan
    have hstore := SparseArray.store_append (P := 4096) (p := offset) (a := f.sparse)
      (src.take n) (src.drop n)
    rw [List.take_append_drop, htake] at hstore
    rcases @writeFirst_sparse nodeSrc pageSrc f nodes offset hf (src.take n)
      (by omega) (by omega) (by omega) with
      ⟨hnot, hfind⟩ | ⟨hfirst, hfind | ⟨h, g₁, g, p, nodes', hfind, hw, hok, hsparse, hothers⟩⟩
    · exact Or.inr (Or.inl ⟨fun hc => hnot (hcan.mp hc).1, by rw [hfind, error_bind]⟩)
    · exact Or.inl (by rw [hfind, error_bind])
    · rw [hfind, ok_bind]
      simp only [hw, ok_bind, hmod]
      rcases writeFrom_sparse (src.drop n) (offset + n) hok (by omega) with
        hrun | ⟨hnot, hrun⟩ | ⟨hc, h', g', nodes'', hrun, hok', hsparse', hothers'⟩
      · exact Or.inl hrun
      · rw [hsparse, hdrop] at hnot
        exact Or.inr (Or.inl ⟨fun hc => hnot (hcan.mp hc).2, hrun⟩)
      · rw [hsparse, hdrop] at hc
        rw [hsparse, ← hstore] at hsparse'
        refine Or.inr (Or.inr ⟨hcan.mpr ⟨hfirst, hc⟩, h', g', nodes'', ?_, hok', hsparse',
          hothers.trans hothers'⟩)
        rw [hrun, hdrop, show offset + n + (src.length - n) = offset + src.length by omega]
  · rw [dif_neg hpos]
    obtain rfl : src = [] := List.length_eq_zero_iff.mp (by omega)
    exact Or.inr (Or.inr ⟨SparseArray.canStore_zero, f.nodes, f.pages, nodes, rfl, hf,
      SparseArray.store_nil.symm, OthersKept.refl⟩)
termination_by src.length
decreasing_by
  rw [List.length_drop]
  omega

/-- `file_descriptor_write`, where the range does not wrap around. -/
theorem fileDescriptorWrite_sparse (hf : FileOk f nodes) (htype : f.type = .file)
    {src : List (BitVec 8)} (hlt : f.seekPos + src.length < 2 ^ 64) :
    fileDescriptorWrite nodeSrc pageSrc f src = .error (.panic .outOfFreePages) ∨
    (¬f.sparse.CanStore 4096 f.seekPos src.length ∧
      fileDescriptorWrite nodeSrc pageSrc f src =
        .error (.panic .readWriteOutOfBoundsFileDesc)) ∨
    f.sparse.CanStore 4096 f.seekPos src.length ∧
      ∃ f' nodes', fileDescriptorWrite nodeSrc pageSrc f src = .ok (src.length, f') ∧
        f'.type = .file ∧ f'.radixRoots = f.radixRoots ∧
        f'.seekPos = f.seekPos + src.length ∧ FileOk f' nodes' ∧
        f'.sparse = f.sparse.fileWrite f.seekPos src ∧ OthersKept f nodes f' nodes' := by
  simp only [fileDescriptorWrite, htype]
  rcases @writeFrom_sparse nodeSrc pageSrc src f.seekPos f nodes hf hlt with
    hfrom | ⟨hnot, hfrom⟩ | ⟨hc, h, g, nodes', hfrom, hok, hsparse, hothers⟩
  · exact Or.inl (by rw [hfrom, error_bind])
  · exact Or.inr (Or.inl ⟨hnot, by rw [hfrom, error_bind]⟩)
  · have hsize : (if f.size > (src.length + (f.seekPos + src.length)) % 2 ^ 64 then f.size
        else (src.length + (f.seekPos + src.length)) % 2 ^ 64) =
        max f.size ((f.seekPos + 2 * src.length) % 2 ^ 64) := by
      rw [show src.length + (f.seekPos + src.length) = f.seekPos + 2 * src.length by omega]
      split_ifs <;> omega
    refine Or.inr (Or.inr ⟨hc, { f with
      nodes := h
      pages := g
      seekPos := f.seekPos + src.length
      size := max f.size ((f.seekPos + 2 * src.length) % 2 ^ 64) }, nodes', ?_, htype, rfl, rfl,
      ⟨hok.tree, hok.roots, hok.lt, hok.len, hok.inj⟩, ?_, ⟨hothers.node, hothers.page⟩⟩)
    · simp only [hfrom, ok_bind, pure_eq_ok, hsize]
    · exact SparseArray.ext (congrArg SparseArray.present hsparse :)
        (congrArg SparseArray.value hsparse :) rfl

/-- The `while` loop of a read that comes to a page that is missing. -/
theorem readFrom_absent {dest : ℕ} (sizeLeft offset destOffset : ℕ) {f : OpenFile}
    {nodes : ℕ → ℕ → Option ℕ} (hf : FileOk f nodes) (hin : offset + sizeLeft ≤ f.size)
    (hsize : f.size < 2 ^ 64) (hdest : ∀ k, f.pageOf nodes k ≠ dest)
    (hroom : destOffset + sizeLeft ≤ f.pages.len dest) (hwrap : destOffset + sizeLeft < 2 ^ 64)
    (hnot : ¬f.sparse.CanLoad 4096 offset sizeLeft) :
    readFrom nodeSrc pageSrc dest sizeLeft offset destOffset f =
      .error (.panic .readWriteOutOfBoundsFileDesc) := by
  rw [readFrom]
  by_cases hpos : 0 < sizeLeft
  · rw [dif_pos hpos]
    have hn := pageEnd_pos hpos offset
    have hn1 : pageEnd sizeLeft offset ≤ sizeLeft := Nat.min_le_left _ _
    have hn2 : pageEnd sizeLeft offset ≤ 4096 - offset % 4096 := Nat.min_le_right _ _
    generalize hne : pageEnd sizeLeft offset = n at *
    have ho : offset < 2 ^ 64 := by omega
    have hcan := SparseArray.canLoad_add (P := 4096) (p := offset) (n := sizeLeft - n)
      (a := f.sparse) hn (by omega)
    rw [show n + (sizeLeft - n) = sizeLeft by omega, hf.present_iff ho] at hcan
    by_cases h0 : f.pageOf nodes (offset / 4096) = 0
    · rw [findPageStart_absent hf ho h0 (by omega), error_bind]
    · obtain ⟨g, hread, hobjs, hother, -⟩ := readPage_eq (hdest (offset / 4096)) n offset destOffset
        (h := f.pages) (by rw [hf.len _ h0]; omega) (by omega) (by omega) (by omega) (by omega)
      have hlen := len_of_objs hobjs
      rw [findPageStart_present hf ho h0, ok_bind]
      simp only [hread, ok_bind, Nat.mod_eq_of_lt (show offset + n < 2 ^ 64 by omega),
        Nat.mod_eq_of_lt (show destOffset + n < 2 ^ 64 by omega)]
      exact readFrom_absent (sizeLeft - n) (offset + n) (destOffset + n)
        (f := { f with pages := g }) (hf.setPages hlen) (by change offset + n + _ ≤ f.size; omega)
        hsize hdest (by change _ ≤ g.len dest; rw [hlen]; omega) (by omega)
        fun hc => hnot (hcan.mpr ⟨h0, hc⟩)
  · obtain rfl : sizeLeft = 0 := by omega
    exact absurd SparseArray.canLoad_zero hnot
termination_by sizeLeft
decreasing_by omega

/-- `file_descriptor_read`, to a buffer that has room and is not a page of the file. -/
theorem fileDescriptorRead_sparse (hf : FileOk f nodes) (htype : f.type = .file)
    (hsize : f.size < 2 ^ 64) {dest size : ℕ} (hdest : ∀ k, f.pageOf nodes k ≠ dest)
    (hroom : min size (f.size - f.seekPos) ≤ f.pages.len dest) :
    (¬f.sparse.CanLoad 4096 f.seekPos (min size (f.size - f.seekPos)) ∧
      fileDescriptorRead nodeSrc pageSrc f dest size =
        .error (.panic .readWriteOutOfBoundsFileDesc)) ∨
    f.sparse.CanLoad 4096 f.seekPos (min size (f.size - f.seekPos)) ∧
      ∃ g, fileDescriptorRead nodeSrc pageSrc f dest size =
          .ok (min size (f.size - f.seekPos), { f with
            pages := g
            seekPos := f.seekPos + min size (f.size - f.seekPos) }) ∧
        g.objs = f.pages.objs ∧ (∀ q, q ≠ dest → g.cell q = f.pages.cell q) ∧
        ∀ i < min size (f.size - f.seekPos),
          g.cell dest i = f.sparse.value (f.seekPos + i) := by
  by_cases hc : f.sparse.CanLoad 4096 f.seekPos (min size (f.size - f.seekPos))
  · -- a byte of the range is on a page that is there
    have hthere : ∀ i < min size (f.size - f.seekPos), f.seekPos + i < 2 ^ 64 ∧
        f.pageOf nodes ((f.seekPos + i) / 4096) ≠ 0 := fun i hi => by
      have ho : f.seekPos + i < 2 ^ 64 := by omega
      refine ⟨ho, (hf.present_iff ho).mp (hc _ ?_)⟩
      unfold SparseArray.Touches
      omega
    obtain ⟨g, hrun, hobjs, hother, hcell⟩ := @fileDescriptorRead_eq nodeSrc pageSrc f dest size
      htype hsize (fun i hi => by
        obtain ⟨ho, hp⟩ := hthere i hi
        rw [Readable, hf.page ho, hf.len _ hp]
        exact ⟨⟨hp, Nat.mod_lt _ (by decide)⟩, hdest _⟩) hroom
    refine Or.inr ⟨hc, g, hrun, hobjs, hother, fun i hi => ?_⟩
    obtain ⟨ho, hp⟩ := hthere i hi
    rw [hcell, if_pos hi, OpenFile.sparse_value, if_pos ⟨ho, by rwa [hf.page ho]⟩]
    rfl
  · have hpos : min size (f.size - f.seekPos) ≠ 0 := fun h0 => hc (h0 ▸ SparseArray.canLoad_zero)
    refine Or.inl ⟨hc, ?_⟩
    rw [fileDescriptorRead_pos htype hsize hpos, readFrom_absent _ _ _ hf (by omega) hsize hdest
      (by omega) (by omega) hc, error_bind]

/-- Cells that are filled from the start of `src`. -/
theorem cell_fill_take (h : Heap (BitVec 8)) (p : ℕ) (src : ℕ → BitVec 8) {m n : ℕ} (hmn : m ≤ n) :
    (h.fill p 0 m src).cell p = patch ((slice src 0 n).take m) 0 (h.cell p) := by
  have htake : (slice src 0 n).take m = slice src 0 m := by
    obtain ⟨k, rfl⟩ := Nat.exists_eq_add_of_le hmn
    rw [slice_append, List.take_left' length_slice]
  rw [htake]
  funext i
  rw [Heap.cell_fill, patch_slice]
  simp

/-- Nothing is injected. -/
theorem SparseArray.fileInject_nil (a : SparseArray (BitVec 8)) :
    a.fileInject [] = { a with size := 0 } := by
  refine SparseArray.ext (funext fun k => propext ?_) (patch_nil 0 a.value) rfl
  change a.present k ∨ k = 0 ∧ [] ≠ [] ↔ a.present k
  simp

/-- The only page is copied byte by byte, and not at all if it is full. -/
theorem injectPage_one {src : ℕ → BitVec 8} {size p : ℕ} {h : Heap (BitVec 8)}
    (hcnt : injectPageCnt size = 1) (hlen : size % 4096 ≤ h.len p) :
    injectPage src size 0 p h = .ok (h.fill p 0 (size % 4096) src) := by
  have hmem := @memcpyFrom_eq p 0 src (size % 4096) 0 h (by omega)
  simp only [Nat.zero_add] at hmem
  rw [injectPage, hcnt, if_neg (by decide)]
  simp only [Nat.mul_zero, Nat.zero_add, hmem]

/-- Page 0, filled from its start. -/
theorem sparse_fill (hf : FileOk f nodes) {p : ℕ} (hp : f.pageOf nodes 0 = p) (hp0 : p ≠ 0)
    (src : ℕ → BitVec 8) (size : ℕ) :
    OpenFile.sparse { f with pages := f.pages.fill p 0 (size % 4096) src } = { f.sparse with
      value := patch ((slice src 0 size).take (size % 4096)) 0 f.sparse.value } := by
  subst hp
  have hlen : ((slice src 0 size).take (size % 4096)).length < 4096 :=
    (List.length_take_le _ _).trans_lt (Nat.mod_lt _ (by decide))
  refine @sparse_patch f nodes 0 hf _ (by omega) (by omega) hp0 _ (fun q hq => ?_)
    (cell_fill_take _ _ _ (Nat.mod_le _ _))
  funext i
  rw [Heap.cell_fill, if_neg fun hin => hq hin.1]

/-- `inode_file_debug_inject_data` takes one page at most, and only if the file has no page 0. -/
theorem injectData_sparse (hf : FileOk f nodes) {src : ℕ → BitVec 8} {size : ℕ}
    (hsize : size + 4095 < 2 ^ 64) {f' : OpenFile}
    (hrun : inodeFileDebugInjectData nodeSrc pageSrc src size f = .ok f') :
    size ≤ 4096 ∧ (size = 0 ∨ ¬f.sparse.present 0) ∧ ∃ nodes', f'.type = f.type ∧
      f'.radixRoots = f.radixRoots ∧ f'.size = size ∧ FileOk f' nodes' ∧
      f'.sparse = f.sparse.fileInject (slice src 0 size) ∧ OthersKept f nodes f' nodes' := by
  unfold inodeFileDebugInjectData at hrun
  split_ifs at hrun
  obtain ⟨f₁, hpages, hrun⟩ := bind_eq_ok.mp hrun
  cases hrun
  rcases Nat.eq_zero_or_pos size with rfl | hpos
  · cases hpages
    refine ⟨Nat.zero_le _, Or.inl rfl, nodes, rfl, rfl, rfl,
      ⟨hf.tree, hf.roots, hf.lt, hf.len, hf.inj⟩, ?_, ⟨KeepsOthers.refl, OthersKept.refl.page⟩⟩
    exact (SparseArray.fileInject_nil f.sparse).symm
  have hle : size ≤ 4096 := by
    by_contra hgt
    obtain ⟨m, hm⟩ : ∃ m, injectPageCnt size = m + 2 :=
      ⟨injectPageCnt size - 2, by unfold injectPageCnt roundModUp; omega⟩
    rw [hm] at hpages
    exact injectPages_two hpages
  have hcnt := injectPageCnt_of_le hpos hle
  rw [hcnt, injectPages] at hpages
  obtain ⟨⟨p, pages⟩, halloc, hpages⟩ := bind_eq_ok.mp hpages
  obtain ⟨hnext, rfl⟩ := Source.alloc_eq_ok.mp halloc
  have hcopy := @injectPage_one src size p (f.pages.push p 4096) hcnt
    (by rw [Heap.len_push_self]; omega)
  have hins : radixInsertRv64 nodeSrc f.nodes (f.radixRoots (inodeFileRadixMaxDepth - 1)) 0 p
      inodeFileRadixMaxDepth = radixInsert nodeSrc f.nodes (f.radixRoots 15) 0 p (15 + 1) := by
    rw [radixInsertRv64, if_neg (by decide)]
    rfl
  simp only [hcopy, ok_bind, hins] at hpages
  rcases hf.newPage nodeSrc (l := 15) (k := 0) (by decide) (by decide) (by decide) hnext with
    herr | ⟨h, nodes', hok, hf', hp0, hpage, hne, hothers⟩
  · rw [herr, error_bind] at hpages
    cases hpages
  rw [hok] at hpages
  simp only [ok_bind] at hpages
  split_ifs at hpages with hold
  cases hpages
  have h0 : f.pageOf nodes (0 / 4096) = 0 := by
    rw [OpenFile.pageOf, not_not.mp hold]
    rfl
  have hpageOf : OpenFile.pageOf { f with nodes := h, pages := f.pages.push p 4096 } nodes' 0 = p :=
    (hpage 0).trans (if_pos rfl)
  have hblank := @sparse_new f nodes 0 hf (by decide) h0 h p nodes' hf' hp0 hpage hne
  have hsparse := sparse_fill hf' hpageOf hp0 src size
  rw [hblank] at hsparse
  have hok' := hf'.setPages (h := (f.pages.push p 4096).fill p 0 (size % 4096) src) fun _ => rfl
  refine ⟨hle, Or.inr fun hp => (@FileOk.present_iff f nodes 0 hf (by decide)).mp hp h0, nodes',
    rfl, rfl, rfl, ⟨hok'.tree, hok'.roots, hok'.lt, hok'.len, hok'.inj⟩, ?_, ?_⟩
  · refine SparseArray.ext ((congrArg SparseArray.present hsparse :).trans
      (funext fun k => propext ?_)) ((congrArg SparseArray.value hsparse :).trans ?_)
      (length_slice (g := src) (s := 0)).symm
    · change f.sparse.present k ∨ k = 0 ↔ f.sparse.present k ∨ k = 0 ∧ slice src 0 size ≠ []
      have hne : slice src 0 size ≠ [] := List.ne_nil_of_length_pos (by rwa [length_slice])
      simp [hne]
    · change patch _ 0 f.sparse.value = patch _ 0 f.sparse.value
      rw [length_slice]
  · refine hothers.trans ⟨KeepsOthers.refl, fun q hlive hq => ⟨rfl, fun i => ?_, hq⟩⟩
    rw [Heap.cell_fill, if_neg fun hin => hq 0 (hpageOf.trans hin.1.symm)]

end Calls

end Toastium
