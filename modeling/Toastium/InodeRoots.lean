import Toastium.File
import Toastium.RadixMap

/-!
# The roots of a file

A file has 16 radix trees, one for each depth, and finds a page in the smallest tree its
number fits in. The trees are one : `create_blank_inode_file` makes each root the first child
of the next (`FileTree`), so the tree of depth 16 contains the others at its left edge. An
insertion through one root is an insertion into that tree, and is seen through all roots
(`inodeRoots_agree`). The level that `find_page_start` reads off the leading zeros of
`page_num + 1` is one that the page number fits in (`radixLevel_fits`).
-/

namespace Toastium

/-! ## The code -/

/-- `INODE_FILE_RADIX_MAX_DEPTH`. -/
def inodeFileRadixMaxDepth : ℕ := 16

variable (nodeSrc : NodeSource inodeFileRadixLevelDepth) (pageSrc : BytePageSource)

/-- The loop of `create_blank_inode_file`, `m` passes from `i` on. -/
def createRoots : ℕ → ℕ → ℕ → (ℕ → ℕ) → Heap (BitVec 64) →
    Except (Fault Panic) ((ℕ → ℕ) × Heap (BitVec 64))
  | 0, _, _, radixRoots, h => .ok (radixRoots, h)
  | m + 1, i, curRadix, radixRoots, h => do
    let (newRadix, h) ← radixCreate nodeSrc h
    let (_, h) ← radixInsert nodeSrc h newRadix 0 curRadix 1
    createRoots m (i + 1) newRadix (Function.update radixRoots i newRadix) h

/-- `create_blank_inode_file`, and a descriptor at its start. -/
def createBlankInodeFile (nodes : Heap (BitVec 64)) (pages : Heap (BitVec 8)) :
    Except (Fault Panic) OpenFile := do
  let (radixRoots, nodes) ←
    createRoots nodeSrc inodeFileRadixMaxDepth 0 0 (fun _ => 0) nodes
  return ⟨.file, 0, radixRoots, 0, nodes, pages⟩

/-- An insertion at a level, of a page number that the level holds. -/
structure RootInsert where
  level : ℕ
  pageNum : ℕ
  childAddr : BitVec 64

/-- A file from `create_blank_inode_file`. -/
def BlankFile (f : OpenFile) : Prop :=
  ∃ nodes pages, createBlankInodeFile nodeSrc nodes pages = .ok f

/-- A `radix_insert` into one of the roots that returns. -/
def RootStep (f : OpenFile) (c : RootInsert) (f' : OpenFile) : Prop :=
  c.level + 1 < inodeFileRadixMaxDepth ∧ c.pageNum < 16 ^ (c.level + 1) ∧
    ∃ old h, radixInsert nodeSrc f.nodes (f.radixRoots c.level) c.pageNum c.childAddr.toNat
      (c.level + 1) = .ok (old, h) ∧ f' = { f with nodes := h }

/-! ## The level of a page -/

/-- The level from the leading zeros of `page_num + 1`. -/
theorem radixLevel_eq_clz {pageNum : ℕ} (h : pageNum + 1 < 2 ^ 64) :
    radixLevel pageNum =
      (63 - (BitVec.ofNat 64 (pageNum + 1)).clz.toNat) / inodeFileRadixLevelDepth := by
  have hval : (BitVec.ofNat 64 (pageNum + 1)).toNat = pageNum + 1 := by
    rw [BitVec.toNat_ofNat, Nat.mod_eq_of_lt h]
  have hne : BitVec.ofNat 64 (pageNum + 1) ≠ 0#64 := fun h0 => by
    rw [h0] at hval
    cases hval
  have hlow := BitVec.two_pow_sub_clz_le_toNat_of_ne_zero (by decide) hne
  have hhigh := BitVec.toNat_lt_two_pow_sub_clz (x := BitVec.ofNat 64 (pageNum + 1))
  have hclz : (BitVec.ofNat 64 (pageNum + 1)).clz.toNat < 64 :=
    BitVec.lt_def.mp (BitVec.clz_lt_iff_ne_zero.mpr hne)
  rw [hval] at hlow hhigh
  unfold radixLevel
  congr 1
  rw [Nat.log2_eq_iff (Nat.succ_ne_zero _)]
  refine ⟨hlow, ?_⟩
  rwa [show 63 - (BitVec.ofNat 64 (pageNum + 1)).clz.toNat + 1 =
    64 - (BitVec.ofNat 64 (pageNum + 1)).clz.toNat by omega]

theorem sixteen_pow (n : ℕ) : 16 ^ n = 2 ^ (inodeFileRadixLevelDepth * n) := by
  rw [pow_mul]
  rfl

/-- A page number fits in its level, and every offset has a level. -/
theorem radixLevel_fits {offset : ℕ} (h : offset < 2 ^ 64) :
    radixLevel (offset / 4096) < inodeFileRadixMaxDepth ∧
      offset / 4096 < 16 ^ (radixLevel (offset / 4096) + 1) := by
  have hpage : offset / 4096 + 1 ≤ 2 ^ 52 := by omega
  have hne : offset / 4096 + 1 ≠ 0 := Nat.succ_ne_zero _
  have hlog : Nat.log2 (offset / 4096 + 1) < 53 :=
    (Nat.log2_lt hne).mpr (hpage.trans_lt (by decide))
  have hlt := Nat.lt_log2_self (n := offset / 4096 + 1)
  unfold radixLevel inodeFileRadixLevelDepth inodeFileRadixMaxDepth
  refine ⟨by omega, ?_⟩
  rw [sixteen_pow, inodeFileRadixLevelDepth]
  have hle : 2 ^ (Nat.log2 (offset / 4096 + 1) + 1) ≤
      2 ^ (4 * (Nat.log2 (offset / 4096 + 1) / 4 + 1)) :=
    Nat.pow_le_pow_right (by decide) (by omega)
  omega

/-! ## One tree -/

variable {nodeSrc pageSrc}

/-- The roots are the nodes at the left edge of one tree. -/
def FileTree (f : OpenFile) : Prop :=
  ∃ nodes, RadixTree f.nodes inodeFileRadixLevelDepth 15 nodes ∧
    ∀ i < inodeFileRadixMaxDepth, nodes i 0 = some (f.radixRoots i)

/-- `radix_insert` under key 0 of a tree of depth 1. -/
theorem radixInsert_one {h : Heap (BitVec 64)} {a : ℕ} (hlen : 0 < h.len a) (v : ℕ) :
    radixInsert nodeSrc h a 0 v 1 = .ok (h.cell a 0, h.set a 0 (BitVec.ofNat 64 v)) := by
  have hidx : radixIdx 0 0 inodeFileRadixLevelDepth = 0 := rfl
  unfold radixInsert
  rw [if_neg (by decide), Nat.sub_self]
  simp only [radixDescend, hidx, pure_eq_ok, ok_bind, Heap.load_eq_ok hlen, Heap.store_eq_ok hlen]

/-- A pass of the loop of `create_blank_inode_file`. -/
theorem createRoots_step {m i curRadix : ℕ} {radixRoots roots : ℕ → ℕ}
    {h h' : Heap (BitVec 64)}
    (hok : createRoots nodeSrc (m + 1) i curRadix radixRoots h = .ok (roots, h')) :
    ∃ b, nodeSrc.next h = some b ∧ createRoots nodeSrc m (i + 1) b
      (Function.update radixRoots i b)
      ((h.push b (2 ^ inodeFileRadixLevelDepth)).set b 0 (BitVec.ofNat 64 curRadix)) =
        .ok (roots, h') := by
  rw [createRoots] at hok
  obtain ⟨⟨b, h1⟩, hcreate, hok⟩ := bind_eq_ok.mp hok
  obtain ⟨hnext, rfl⟩ := Source.alloc_eq_ok.mp hcreate
  have hlen : 0 < (h.push b (2 ^ inodeFileRadixLevelDepth)).len b := by
    rw [Heap.len_push_self]
    decide
  simp only [radixInsert_one hlen, ok_bind] at hok
  exact ⟨b, hnext, hok⟩

/-- The later passes : each root is put above the ones before. -/
theorem createRoots_tree : ∀ {m top : ℕ} {radixRoots roots : ℕ → ℕ} {h h' : Heap (BitVec 64)}
    {nodes : ℕ → ℕ → Option ℕ}, RadixTree h inodeFileRadixLevelDepth top nodes →
    (∀ i ≤ top, nodes i 0 = some (radixRoots i)) →
    createRoots nodeSrc m (top + 1) (radixRoots top) radixRoots h = .ok (roots, h') →
    ∃ nodes', RadixTree h' inodeFileRadixLevelDepth (top + m) nodes' ∧
      (∀ i ≤ top + m, nodes' i 0 = some (roots i)) ∧
      radixValue h' inodeFileRadixLevelDepth nodes' = radixValue h inodeFileRadixLevelDepth nodes ∧
      RadixTree.KeepsOthers h nodes h' nodes'
  | 0, top, radixRoots, roots, h, h', nodes, ht, hroots, hok => by
    cases hok
    exact ⟨nodes, ht, hroots, rfl, RadixTree.KeepsOthers.refl⟩
  | m + 1, top, radixRoots, roots, h, h', nodes, ht, hroots, hok => by
    obtain ⟨b, hnext, hok⟩ := createRoots_step hok
    have hlt : b < 2 ^ 64 := by
      have := nodeSrc.lt hnext
      omega
    have ht1 := ht.raise (hroots top le_rfl) (nodeSrc.fresh hnext) (nodeSrc.pos hnext) hlt
    have hnone : nodes (top + 1) 0 = none := by
      cases hc : nodes (top + 1) 0 with
      | none => rfl
      | some c => exact absurd (ht.le_top hc) (Nat.not_succ_le_self _)
    have hroots1 : ∀ i ≤ top + 1, addNode nodes (top + 1) 0 b i 0 =
        some (Function.update radixRoots (top + 1) b i) := fun i hi => by
      rcases Nat.lt_or_ge top i with hi' | hi'
      · obtain rfl : i = top + 1 := by omega
        rw [addNode_self, Function.update_self]
      · rw [addNode_of_some hnone (hroots i hi'), Function.update_of_ne (by omega)]
    rw [← Function.update_self (top + 1) b radixRoots] at hok
    obtain ⟨nodes', ht', hroots', hvalue', hothers'⟩ :=
      createRoots_tree ht1 hroots1 (by simpa using hok)
    rw [show top + 1 + m = top + (m + 1) by omega] at ht' hroots'
    exact ⟨nodes', ht', hroots', hvalue'.trans (ht.value_raise (nodeSrc.fresh hnext) _),
      ((RadixTree.KeepsOthers.push (nodeSrc.fresh hnext) _ _ _).trans
        (RadixTree.KeepsOthers.set (addNode_self _ _ _) _ _)).trans hothers'⟩

/-- The roots of a blank file are a tree without values, of new nodes. -/
theorem createRoots_blank {roots : ℕ → ℕ} {h h' : Heap (BitVec 64)}
    (hroots : createRoots nodeSrc inodeFileRadixMaxDepth 0 0 (fun _ => 0) h = .ok (roots, h')) :
    ∃ nodes, RadixTree h' inodeFileRadixLevelDepth 15 nodes ∧
      (∀ i < inodeFileRadixMaxDepth, nodes i 0 = some (roots i)) ∧
      (∀ k, radixValue h' inodeFileRadixLevelDepth nodes k = 0) ∧
      RadixTree.KeepsOthers h (fun _ _ => none) h' nodes := by
  obtain ⟨b, hnext, hok⟩ := createRoots_step hroots
  have hlt : b < 2 ^ 64 := by
    have := nodeSrc.lt hnext
    omega
  have hfree := nodeSrc.fresh hnext
  have ht := (RadixTree.single (s := inodeFileRadixLevelDepth) hfree
    (nodeSrc.pos hnext) hlt 0).setValue (addNode_self 0 0 b) 0 (BitVec.ofNat 64 0)
  have hroot : ∀ i ≤ 0, addNode (fun _ _ => none) 0 0 b i 0 =
      some (Function.update (fun _ => 0) 0 b i) := fun i hi => by
    rw [Nat.le_zero.mp hi, addNode_self, Function.update_self]
  obtain ⟨nodes', ht', hroots', hvalue, hothers⟩ :=
    createRoots_tree ht hroot (by rwa [Function.update_self])
  refine ⟨nodes', ht', fun i hi => hroots' i (Nat.le_of_lt_succ hi), fun k => ?_,
    ((RadixTree.KeepsOthers.push hfree _ 0 0).trans
      (RadixTree.KeepsOthers.set (addNode_self _ _ _) _ _)).trans hothers⟩
  rw [hvalue]
  cases hc : addNode (fun _ _ => none) 0 0 b 0 (radixPre k 0 inodeFileRadixLevelDepth) with
  | none => exact radixValue_none hc
  | some c =>
    rcases addNode_cases hc with ⟨-, -, rfl⟩ | hc'
    · rw [radixValue_some hc, Heap.cell_set, Heap.cell_push_self]
      exact ite_self 0
    · cases hc'

theorem FileTree.init {f : OpenFile} (h : BlankFile nodeSrc f) : FileTree f := by
  obtain ⟨nodes, pages, h⟩ := h
  obtain ⟨⟨roots, h'⟩, hroots, h⟩ := bind_eq_ok.mp h
  cases h
  obtain ⟨nodes', ht, hroots', -, -⟩ := createRoots_blank hroots
  exact ⟨nodes', ht, hroots'⟩

namespace FileTree

variable {f f' : OpenFile}

/-- The size, the pages and the position do not matter. -/
theorem congr (hf : FileTree f) (hnodes : f'.nodes = f.nodes)
    (hroots : f'.radixRoots = f.radixRoots) : FileTree f' := by
  unfold FileTree
  rw [hnodes, hroots]
  exact hf

/-- `radix_insert` through a root. -/
theorem insert (hf : FileTree f) (nodeSrc : NodeSource inodeFileRadixLevelDepth) {level k : ℕ}
    (hl : level < inodeFileRadixMaxDepth)
    (hk : k < 16 ^ (level + 1)) (v : ℕ) :
    radixInsert nodeSrc f.nodes (f.radixRoots level) k v (level + 1) =
      .error (.panic .outOfFreePages) ∨
    ∃ old h, radixInsert nodeSrc f.nodes (f.radixRoots level) k v (level + 1) = .ok (old, h) ∧
      FileTree { f with nodes := h } := by
  obtain ⟨nodes, ht, hroots⟩ := hf
  rw [sixteen_pow] at hk
  rcases ht.insert nodeSrc (hroots level hl) hk v with ⟨-, herr⟩ | ⟨h, nodes', hok, ht', hnode, -⟩
  · exact Or.inl herr
  · exact Or.inr ⟨_, h, hok, nodes', ht', fun i hi => hnode (hroots i hi)⟩

/-- A lookup through every root that holds the key returns the one value of the key. -/
theorem get (hf : FileTree f) (k : ℕ) : ∃ v, ∀ level < inodeFileRadixMaxDepth,
    k < 16 ^ (level + 1) →
      radixGet f.nodes k inodeFileRadixLevelDepth (level + 1) (f.radixRoots level) = .ok v := by
  obtain ⟨nodes, ht, hroots⟩ := hf
  refine ⟨(radixValue f.nodes inodeFileRadixLevelDepth nodes k).toNat, fun level hl hk => ?_⟩
  rw [sixteen_pow] at hk
  exact ht.get (RadixTree.pre_zero (hroots level hl) hk)

theorem step (hf : FileTree f) {c : RootInsert} (h : RootStep nodeSrc f c f') : FileTree f' := by
  obtain ⟨hl, hk, old, h, hok, rfl⟩ := h
  rcases hf.insert nodeSrc (Nat.lt_of_succ_lt hl) hk c.childAddr.toNat with
    herr | ⟨old', h', hok', hf'⟩
  · rw [herr] at hok
    cases hok
  · rw [hok'] at hok
    cases hok
    exact hf'

/-- `find_page_start` looks the page up in a tree that holds it, and stops only when
no memory is left or the page is missing below the size. -/
theorem findPageStart (hf : FileTree f) {offset : ℕ} (ho : offset < 2 ^ 64)
    {e : Fault Panic} (h : findPageStart nodeSrc pageSrc f offset = .error e) :
    e = .panic .outOfFreePages ∨ e = .panic .readWriteOutOfBoundsFileDesc := by
  obtain ⟨hl, hk⟩ := radixLevel_fits ho
  obtain ⟨v, hget⟩ := hf.get (offset / 4096)
  simp only [Toastium.findPageStart, OpenFile.getPage, hget _ hl hk, ok_bind] at h
  split_ifs at h with h0 hsize
  · cases h
  · rcases pageSrc.alloc_eq Panic.outOfFreePages f.pages with ⟨-, halloc⟩ | ⟨p, -, halloc⟩
    · rw [halloc] at h
      exact Or.inl (Except.error.inj h).symm
    · rw [halloc] at h
      rcases hf.insert nodeSrc hl hk p with herr | ⟨old, h', hok, -⟩
      · simp only [ok_bind, herr] at h
        exact Or.inl (Except.error.inj h).symm
      · simp only [ok_bind, hok] at h
        cases h
  · exact Or.inr (Except.error.inj h).symm

end FileTree

/-! ## Every run -/

/-- A page is found, or not, through all the roots whose tree holds its number. -/
def RootsAgree (f : OpenFile) : Prop :=
  ∀ k level level', level < inodeFileRadixMaxDepth → level' < inodeFileRadixMaxDepth →
    k < 16 ^ (level + 1) → k < 16 ^ (level' + 1) →
    ∃ v, radixGet f.nodes k inodeFileRadixLevelDepth (level + 1) (f.radixRoots level) = .ok v ∧
      radixGet f.nodes k inodeFileRadixLevelDepth (level' + 1) (f.radixRoots level') = .ok v

/-- The level of an offset is that of the leading zeros and holds the page number, and
`find_page_start` does not go past the roots or their trees, whatever the size and the
pages of the file. -/
structure LevelHolds (nodeSrc : NodeSource inodeFileRadixLevelDepth) (pageSrc : BytePageSource)
    (f : OpenFile) (offset : ℕ) : Prop where
  level : radixLevel (offset / 4096) =
    (63 - (BitVec.ofNat 64 (offset / 4096 + 1)).clz.toNat) / inodeFileRadixLevelDepth
  level_lt : radixLevel (offset / 4096) < inodeFileRadixMaxDepth
  page_lt : offset / 4096 < 16 ^ (radixLevel (offset / 4096) + 1)
  find : ∀ size pages e,
    findPageStart nodeSrc pageSrc { f with size := size, pages := pages } offset = .error e →
      e = .panic .outOfFreePages ∨ e = .panic .readWriteOutOfBoundsFileDesc

/-- In every run of insertions the roots agree, and the level of every offset is right. -/
theorem inodeRoots_agree (pageSrc : BytePageSource) {f : OpenFile}
    (h : Reach (BlankFile nodeSrc) (RootStep nodeSrc) f) :
    RootsAgree f ∧ ∀ offset < 2 ^ 64, LevelHolds nodeSrc pageSrc f offset := by
  have hf : FileTree f := Reach.invariant FileTree (fun _ => FileTree.init)
    (fun _ _ _ hf hstep => hf.step hstep) h
  refine ⟨fun k level level' hl hl' hk hk' => ?_, fun offset ho => ?_⟩
  · obtain ⟨v, hget⟩ := hf.get k
    exact ⟨v, hget level hl hk, hget level' hl' hk'⟩
  · obtain ⟨hl, hk⟩ := radixLevel_fits ho
    refine ⟨radixLevel_eq_clz (by omega), hl, hk, fun size pages e he => ?_⟩
    have hf' : FileTree { f with size := size, pages := pages } := hf.congr rfl rfl
    exact hf'.findPageStart ho he

/-- A blank file, and page 5 inserted at level 2. -/
def insertFive : Except (Fault Panic) (OpenFile × OpenFile) := do
  let f ← createBlankInodeFile bumpRadixNodes ⟨[], fun _ _ => 0⟩ ⟨[], fun _ _ => 0⟩
  let (_, h) ← radixInsert bumpRadixNodes f.nodes (f.radixRoots 2) 5 (0x5000#64).toNat 3
  return (f, { f with nodes := h })

theorem inodeRoots_agree_insertFive : ∃ f f', insertFive = .ok (f, f') ∧ RootsAgree f' ∧
    LevelHolds bumpRadixNodes bumpBytePages f' 0x5000 := by
  obtain ⟨⟨f, f'⟩, hrun⟩ : ∃ r, insertFive = .ok r := exists_eq_ok (by decide +kernel)
  refine ⟨f, f', hrun, ?_⟩
  obtain ⟨f0, hblank, hrun⟩ := bind_eq_ok.mp hrun
  obtain ⟨⟨old, h⟩, hins, hrun⟩ := bind_eq_ok.mp hrun
  cases hrun
  have hreach := Reach.next (Reach.start (show BlankFile bumpRadixNodes f from ⟨_, _, hblank⟩))
    (show RootStep bumpRadixNodes f ⟨2, 5, 0x5000⟩ _ from
      ⟨by decide, by decide, old, h, hins, rfl⟩)
  obtain ⟨hagree, hlevel⟩ := inodeRoots_agree bumpBytePages hreach
  exact ⟨hagree, hlevel _ (by decide)⟩

end Toastium
