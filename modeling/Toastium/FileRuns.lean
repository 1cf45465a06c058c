import Toastium.FileStore

/-!
# Runs of the file system

Every call of the kernel on files is a step of the store, with the same label (`FilesInv.step`).
So every run of the kernel is a run of the store.

`files_refine` : what is read through a descriptor is what was last written there, through this
or any other descriptor of the file, and nothing that is done to one file, or by other code, is
seen in another. `fileCalls_decided` : a read and a write return if the store can do them. A read
that lacks a page of its range panics, and so does a write that lacks one below the size.
`inodes_counted` : `link_refs` counts the names and the descriptors of an inode. No name is ever
taken away, so a release comes to no count of 0, and no inode is freed.
-/

namespace Toastium

variable {env : FsEnv} {src : PageSource} {s s' : Vfs}

/-! ## Every call is a step of the store -/

/-- The counts of the inodes are right, all names lead to a file, and what is open has a name. -/
structure RefsInv (s : Vfs) : Prop where
  count : ∀ x i, s.inodes x = some i → i.linkRefs.toNat = s.stored.refs x
  names : ∀ x, (holders s.stored.name x).Finite
  descs : ∀ x, (holders s.stored.opened x).Finite
  named : ∀ n x, s.stored.name n = some x → s.inodes x ≠ none
  opened : ∀ fd x, s.stored.opened fd = some x → ∃ n, s.stored.name n = some x

namespace StoredFiles

variable {a : StoredFiles} {fd : ℕ} {d : FileDescriptor}

theorem opened_eq (h : a.desc fd = some d) : a.opened fd = some d.file := by
  rw [opened, h]
  rfl

theorem opened_update (a : StoredFiles) (fd : ℕ) (o : Option FileDescriptor) :
    opened { a with desc := Function.update a.desc fd o } =
      Function.update a.opened fd (o.map FileDescriptor.file) := by
  funext q
  by_cases hq : q = fd <;> simp [opened, hq]

/-- A descriptor that is moved stays with its file. -/
theorem opened_move (h : a.desc fd = some d) (p : BitVec 64) :
    opened { a with desc := Function.update a.desc fd (some { d with seekPos := p }) } =
      a.opened := by
  rw [opened_update]
  exact Function.update_eq_self_iff.mpr (opened_eq h).symm

section Refs

variable {n x : ℕ} (hnames : ∀ x, (holders a.name x).Finite)
  (hdescs : ∀ x, (holders a.opened x).Finite)

include hnames in
/-- One name more. -/
theorem refs_name (hn : a.name n = none) (y : ℕ) :
    refs { a with name := Function.update a.name n (some x) } y =
      if y = x then a.refs x + 1 else a.refs y := by
  change (holders (Function.update a.name n (some x)) y).ncard + (holders a.opened y).ncard = _
  have hne : a.name n ≠ some y := by simp [hn]
  split_ifs with hy
  · subst hy
    rw [ncard_holders_set hne (hnames y), refs]
    omega
  · rw [holders_update_of_ne hne fun he => hy (Option.some.inj he).symm]
    rfl

include hdescs in
/-- One descriptor more. -/
theorem refs_desc (hfd : a.desc fd = none) (p : BitVec 64) (y : ℕ) :
    refs { a with desc := Function.update a.desc fd (some ⟨x, p⟩) } y =
      if y = x then a.refs x + 1 else a.refs y := by
  rw [refs, opened_update]
  change (holders a.name y).ncard + (holders (Function.update a.opened fd (some x)) y).ncard = _
  have hne : a.opened fd ≠ some y := by simp [opened, hfd]
  split_ifs with hy
  · subst hy
    rw [ncard_holders_set hne (hdescs y), refs]
    omega
  · rw [holders_update_of_ne hne fun he => hy (Option.some.inj he).symm]
    rfl

include hdescs in
/-- One descriptor less. -/
theorem refs_release (hfd : a.desc fd = some d) (y : ℕ) :
    refs { a with desc := Function.update a.desc fd none } y + (if y = d.file then 1 else 0) =
      a.refs y := by
  rw [refs, opened_update]
  change (holders a.name y).ncard + (holders (Function.update a.opened fd none) y).ncard + _ = _
  have hopen := opened_eq hfd
  split_ifs with hy
  · subst hy
    have := ncard_holders_clear hopen (Option.some_ne_none d.file).symm (hdescs d.file)
    rw [refs]
    omega
  · rw [holders_update_of_ne (by rw [hopen]; exact fun he => hy (Option.some.inj he).symm)
      (Option.some_ne_none y).symm]
    rfl

end Refs

end StoredFiles

namespace RefsInv

variable {x : ℕ} {i : Inode}

/-- Nothing that is counted is changed. -/
theorem congr (h : RefsInv s) (hname : s'.stored.name = s.stored.name)
    (hopened : s'.stored.opened = s.stored.opened)
    (hinodes : ∀ x, (s'.inodes x).map Inode.linkRefs = (s.inodes x).map Inode.linkRefs) :
    RefsInv s' := by
  have hrefs : s'.stored.refs = s.stored.refs := by
    funext x
    rw [StoredFiles.refs, hname, hopened]
    rfl
  refine ⟨fun x i hi => ?_, ?_, ?_, fun n x hn => ?_, ?_⟩
  · have hx := hinodes x
    rw [hi] at hx
    cases hj : s.inodes x with
    | none =>
      rw [hj] at hx
      cases hx
    | some j =>
      rw [hj] at hx
      rw [hrefs, ← h.count x j hj]
      exact congrArg BitVec.toNat (Option.some.inj hx)
  · rw [hname]
    exact h.names
  · rw [hopened]
    exact h.descs
  · rw [hname] at hn
    have hx := hinodes x
    intro h0
    rw [h0] at hx
    exact h.named n x hn (Option.map_eq_none_iff.mp hx.symm)
  · rw [hname, hopened]
    exact h.opened

/-- An inode is changed, and its count is not. -/
theorem set (h : RefsInv s) (hi : s.inodes x = some i) {i' : Inode}
    (hinodes : s'.inodes = Function.update s.inodes x (some i'))
    (hlink : i'.linkRefs = i.linkRefs) (hname : s'.stored.name = s.stored.name)
    (hopened : s'.stored.opened = s.stored.opened) : RefsInv s' := by
  refine h.congr hname hopened fun y => ?_
  rw [hinodes]
  by_cases hy : y = x
  · simp [hy, hi, hlink]
  · rw [Function.update_of_ne hy]

/-- The count of one inode is changed, with the names and descriptors of its file. -/
theorem update (h : RefsInv s) {i' : Inode}
    (hinodes : s'.inodes = Function.update s.inodes x (some i'))
    (hcount : i'.linkRefs.toNat = s'.stored.refs x)
    (hother : ∀ y, y ≠ x → s'.stored.refs y = s.stored.refs y)
    (hnames : ∀ y, (holders s'.stored.name y).Finite)
    (hdescs : ∀ y, (holders s'.stored.opened y).Finite)
    (hnamed : ∀ n y, s'.stored.name n = some y → y = x ∨ s.stored.name n = some y)
    (hopened : ∀ fd y, s'.stored.opened fd = some y → ∃ n, s'.stored.name n = some y) :
    RefsInv s' := by
  refine ⟨fun y j hj => ?_, hnames, hdescs, fun n y hn => ?_, hopened⟩
  · rcases update_some_cases (hinodes ▸ hj) with ⟨rfl, rfl⟩ | ⟨hyx, hj⟩
    · exact hcount
    · rw [hother y hyx]
      exact h.count y j hj
  · rw [hinodes]
    by_cases hyx : y = x
    · simp [hyx]
    · rw [Function.update_of_ne hyx]
      exact h.named n y ((hnamed n y hn).resolve_left hyx)

/-- One inode is referred to once more. -/
theorem more (h : RefsInv s) (hi : s.inodes x = some i) (hlow : i.linkRefs.toNat + 1 < 2 ^ 32)
    (hinodes : s'.inodes = Function.update s.inodes x
      (some { i with linkRefs := i.linkRefs + 1 }))
    (hrefs : ∀ y, s'.stored.refs y = if y = x then s.stored.refs x + 1 else s.stored.refs y)
    (hnames : ∀ y, (holders s'.stored.name y).Finite)
    (hdescs : ∀ y, (holders s'.stored.opened y).Finite)
    (hnamed : ∀ n y, s'.stored.name n = some y → y = x ∨ s.stored.name n = some y)
    (hopened : ∀ fd y, s'.stored.opened fd = some y → ∃ n, s'.stored.name n = some y) :
    RefsInv s' := by
  refine h.update hinodes ?_ (fun y hy => ?_) hnames hdescs hnamed hopened
  · rw [hrefs, if_pos rfl, ← h.count x i hi, BitVec.toNat_add]
    exact Nat.mod_eq_of_lt hlow
  · rw [hrefs, if_neg hy]

/-- A new file has no names and no descriptors. -/
theorem create (h : RefsInv s) (hx : s.inodes x = none) {i' : Inode}
    (hinodes : s'.inodes = Function.update s.inodes x (some i')) (hi' : i'.linkRefs = 0)
    (hname : s'.stored.name = s.stored.name) (hdesc : s'.stored.desc = s.stored.desc) :
    RefsInv s' := by
  have hopened : s'.stored.opened = s.stored.opened := by
    funext fd
    rw [StoredFiles.opened, hdesc]
    rfl
  have hrefs : s'.stored.refs = s.stored.refs := by
    funext y
    rw [StoredFiles.refs, hname, hopened]
    rfl
  have hnone : ∀ n, s.stored.name n ≠ some x := fun n hn => h.named n x hn hx
  refine h.update hinodes ?_ (fun y _ => congrFun hrefs y) (hname ▸ h.names) (hopened ▸ h.descs)
    (fun n y hn => Or.inr (hname ▸ hn)) (by rw [hopened, hname]; exact h.opened)
  rw [hi', hrefs, StoredFiles.refs, holders_eq_empty hnone, holders_eq_empty fun fd hfd =>
    (h.opened fd x hfd).elim hnone]
  simp

/-- A name is added. -/
theorem name (h : RefsInv s) {n : ℕ} (hn : s.stored.name n = none) (hi : s.inodes x = some i)
    (hlow : i.linkRefs.toNat + 1 < 2 ^ 32)
    (hinodes : s'.inodes = Function.update s.inodes x
      (some { i with linkRefs := i.linkRefs + 1 }))
    (hstored : s'.stored = { s.stored with name := Function.update s.stored.name n (some x) }) :
    RefsInv s' := by
  refine h.more hi hlow hinodes (fun y => ?_) (fun y => ?_) ?_ (fun m y hm => ?_) fun fd y hfd => ?_
  · rw [hstored]
    exact StoredFiles.refs_name h.names hn y
  · rw [hstored]
    exact holders_update_finite (h.names y) n _
  · rw [hstored]
    exact h.descs
  · rw [hstored] at hm
    rcases update_some_cases hm with ⟨-, rfl⟩ | ⟨-, hm⟩
    · exact Or.inl rfl
    · exact Or.inr hm
  · rw [hstored] at hfd ⊢
    obtain ⟨m, hm⟩ := h.opened fd y hfd
    refine ⟨m, ?_⟩
    have hmn : m ≠ n := fun he => by
      rw [he, hn] at hm
      cases hm
    exact (Function.update_of_ne hmn _ _).trans hm

/-- A descriptor is opened. -/
theorem open_ (h : RefsInv s) {n fd : ℕ} (hn : s.stored.name n = some x)
    (hfd : s.stored.desc fd = none) (hi : s.inodes x = some i)
    (hlow : i.linkRefs.toNat + 1 < 2 ^ 32)
    (hinodes : s'.inodes = Function.update s.inodes x
      (some { i with linkRefs := i.linkRefs + 1 }))
    (hstored : s'.stored =
      { s.stored with desc := Function.update s.stored.desc fd (some ⟨x, 0⟩) }) :
    RefsInv s' := by
  have hopened := StoredFiles.opened_update s.stored fd (some ⟨x, 0⟩)
  refine h.more hi hlow hinodes (fun y => ?_) (by rw [hstored]; exact h.names) (fun y => ?_)
    (fun m y hm => ?_) fun fd' y hfd' => ?_
  · rw [hstored]
    exact StoredFiles.refs_desc h.descs hfd 0 y
  · rw [hstored, hopened]
    exact holders_update_finite (h.descs y) fd _
  · rw [hstored] at hm
    exact Or.inr hm
  · rw [hstored, hopened] at hfd'
    rw [hstored]
    rcases update_some_cases hfd' with ⟨-, rfl⟩ | ⟨-, hfd'⟩
    · exact ⟨n, hn⟩
    · exact h.opened fd' y hfd'

/-- What is open has a name, so that the count is not 0 when it is released. -/
theorem two_le (h : RefsInv s) {fd : ℕ} {d : FileDescriptor} (hfd : s.stored.desc fd = some d)
    (hi : s.inodes d.file = some i) : 2 ≤ i.linkRefs.toNat := by
  obtain ⟨n, hn⟩ := h.opened fd d.file (StoredFiles.opened_eq hfd)
  have h1 := (Set.ncard_pos (h.names d.file)).mpr ⟨n, hn⟩
  have h2 := (Set.ncard_pos (h.descs d.file)).mpr ⟨fd, StoredFiles.opened_eq hfd⟩
  rw [h.count d.file i hi, StoredFiles.refs]
  omega

/-- A descriptor is released. -/
theorem release (h : RefsInv s) {fd : ℕ} {d : FileDescriptor} (hfd : s.stored.desc fd = some d)
    (hi : s.inodes d.file = some i)
    (hinodes : s'.inodes = Function.update s.inodes d.file
      (some { i with linkRefs := i.linkRefs - 1 }))
    (hstored : s'.stored = { s.stored with desc := Function.update s.stored.desc fd none }) :
    RefsInv s' := by
  have hrefs := StoredFiles.refs_release h.descs hfd
  have hopened := StoredFiles.opened_update s.stored fd none
  have hpos := h.two_le hfd hi
  refine h.update hinodes ?_ (fun y hy => ?_) (by rw [hstored]; exact h.names) (fun y => ?_)
    (fun m y hm => ?_) fun fd' y hfd' => ?_
  · have := hrefs d.file
    rw [if_pos rfl, ← h.count d.file i hi] at this
    rw [hstored, BitVec.toNat_sub_of_le (BitVec.le_def.mpr (by simp; omega))]
    exact (Nat.eq_sub_of_add_eq this).symm
  · have := hrefs y
    rw [if_neg hy] at this
    rw [hstored]
    exact this
  · rw [hstored, hopened]
    exact holders_update_finite (h.descs y) fd _
  · rw [hstored] at hm
    exact Or.inr hm
  · rw [hstored, hopened] at hfd'
    rw [hstored]
    by_cases hq : fd' = fd
    · simp [hq] at hfd'
    · rw [Function.update_of_ne hq] at hfd'
      exact h.opened fd' y hfd'

end RefsInv

namespace StoreInv

variable {N : ℕ → ℕ → ℕ → Option ℕ} {x : ℕ} {i : Inode}

/-- What was done to a file through a descriptor is kept in its inode. -/
theorem write (h : StoreInv s N) (hi : s.inodes x = some i) {p : ℕ} {f : OpenFile}
    {ν : ℕ → ℕ → Option ℕ} (htype : f.type = .file) (hroots : f.radixRoots = i.radixRoots)
    (hsize : f.size < 2 ^ 64) (hok : FileOk f ν)
    (hothers : OthersKept { s.fileOf i with seekPos := p } (N x) f ν)
    (hinodes : s'.inodes = Function.update s.inodes x
      (some { i with size := BitVec.ofNat 64 f.size }))
    (hnodes : s'.nodes = f.nodes) (hbytes : s'.bytes = f.pages) :
    StoreInv s' (Function.update N x ν) ∧
      s'.stored.file = Function.update s.stored.file x (some f.sparse) := by
  have hfile : s'.fileOf { i with size := BitVec.ofNat 64 f.size } = { f with seekPos := 0 } := by
    rw [Vfs.fileOf, hnodes, hbytes, h.type x i hi, ← htype, ← hroots]
    simp only [BitVec.toNat_ofNat, Nat.mod_eq_of_lt hsize]
  have hok' : FileOk (s'.fileOf { i with size := BitVec.ofNat 64 f.size }) ν := by
    rw [hfile]
    exact hok.seek 0
  have hchange := h.change hi hinodes (h.type x i hi) hok'
    (by rw [hfile]; exact ⟨hothers.node, hothers.page⟩)
  rw [hfile] at hchange
  exact hchange

/-- The count does not matter for the file. -/
theorem setLinkRefs (h : StoreInv s N) (hi : s.inodes x = some i) (r : BitVec 32)
    (hinodes : s'.inodes = Function.update s.inodes x (some { i with linkRefs := r }))
    (hnodes : s'.nodes = s.nodes) (hbytes : s'.bytes = s.bytes) :
    StoreInv s' (Function.update N x (N x)) ∧ s'.stored.file = s.stored.file := by
  have hfile : s'.fileOf { i with linkRefs := r } = s.fileOf i := by
    rw [Vfs.fileOf, hnodes, hbytes]
    rfl
  have hok : FileOk (s'.fileOf { i with linkRefs := r }) (N x) := by
    rw [hfile]
    exact h.ok x i hi
  obtain ⟨hinv, hstored⟩ := h.change hi hinodes (h.type x i hi) hok
    (by rw [hfile]; exact OthersKept.refl)
  rw [hfile, Function.update_eq_self_iff.mpr (stored_file hi).symm] at hstored
  exact ⟨hinv, hstored⟩

/-- A buffer is not a page of a file. -/
theorem ne_buffer (h : StoreInv s N) (hi : s.inodes x = some i) {p n : ℕ} (hbuf : s.Buffer p n)
    (k : ℕ) : (s.fileOf i).pageOf (N x) k ≠ p := fun he => by
  have hf := h.ok x i hi
  have hk : (s.fileOf i).pageOf (N x) k ≠ 0 := he ▸ hbuf.pos
  exact hbuf.apart ⟨x, i, k, hi, hf.lt k hk, (hf.page_eq (hf.lt k hk)).trans he, hbuf.pos⟩

end StoreInv

/-- A file without pages. -/
theorem FileOk.sparse_blank {f : OpenFile} {ν : ℕ → ℕ → Option ℕ} (hf : FileOk f ν)
    (h0 : ∀ k, f.pageOf ν k = 0) (hsize : f.size = 0) : f.sparse = .blank := by
  refine SparseArray.ext (funext fun k => ?_) (funext fun n => ?_) hsize
  · refine eq_false ?_
    rintro ⟨hk, hp⟩
    rw [hf.page_eq hk, h0] at hp
    exact hp rfl
  · rw [OpenFile.sparse_value, if_neg]
    · rfl
    · rintro ⟨hn, hp⟩
      rw [hf.page hn, h0] at hp
      exact hp rfl

/-- The state of the files between calls. -/
structure FilesInv (s : Vfs) : Prop where
  files : ∃ N, StoreInv s N
  refs : RefsInv s

namespace FilesInv

/-- `create_blank_inode_file`. -/
theorem create (h : FilesInv s) {x : ℕ} (hlt : x < 2 ^ 64) (hx : s.inodes x = none)
    (hrun : s.createBlankInodeFile env x = .ok s') :
    FilesInv s' ∧ StoreStep s.stored (.create x) s'.stored := by
  obtain ⟨N, hN⟩ := h.files
  obtain ⟨⟨roots, nodes⟩, hroots, hrun⟩ := bind_eq_ok.mp hrun
  obtain ⟨hinodes, hfile, hname, hdescs⟩ :
      s'.inodes = Function.update s.inodes x (some ⟨0, .file, 0, roots⟩) ∧
      s'.fileOf ⟨0, .file, 0, roots⟩ = ⟨.file, 0, roots, 0, nodes, s.bytes⟩ ∧
      s'.stored.name = s.stored.name ∧ s'.stored.desc = s.stored.desc := by
    cases hrun
    exact ⟨rfl, rfl, rfl, rfl⟩
  obtain ⟨ν, htree, hroot, hvalue, hothers⟩ := createRoots_blank hroots
  have h0 : ∀ k, OpenFile.pageOf ⟨.file, 0, roots, 0, nodes, s.bytes⟩ ν k = 0 := fun k => by
    rw [OpenFile.pageOf, hvalue]
    rfl
  have hok : FileOk ⟨.file, 0, roots, 0, nodes, s.bytes⟩ ν :=
    ⟨htree, hroot, fun k hk => absurd (h0 k) hk, fun k hk => absurd (h0 k) hk,
      fun _ j _ hj => absurd (h0 j) hj⟩
  have hnone : ∀ k, OpenFile.pageOf ⟨.file, 0, fun _ => 0, 0, s.nodes, s.bytes⟩
      (fun _ _ => none) k = 0 := fun k => by
    rw [OpenFile.pageOf, radixValue_none rfl]
    rfl
  have hkept : OthersKept ⟨.file, 0, fun _ => 0, 0, s.nodes, s.bytes⟩ (fun _ _ => none)
      ⟨.file, 0, roots, 0, nodes, s.bytes⟩ ν :=
    ⟨hothers, fun q _ hq => ⟨rfl, fun _ => rfl, fun k he =>
      hq 0 ((hnone 0).trans ((h0 k).symm.trans he))⟩⟩
  have hblank := hok.sparse_blank h0 rfl
  rw [← hfile] at hok hkept hblank
  have hapart : ∀ y j, s.inodes y = some j → y ≠ x →
      FilesApart ⟨.file, 0, fun _ => 0, 0, s.nodes, s.bytes⟩ (fun _ _ => none) (s.fileOf j) (N y) :=
    fun y j _ _ => ⟨fun ha => absurd ha (Option.some_ne_none _).symm,
      fun k l hl he => hl (he.symm.trans (hnone k))⟩
  obtain ⟨hinv, hstored⟩ := hN.update hinodes hlt rfl hok rfl rfl hapart hkept
  have heq : s'.stored =
      { s.stored with file := Function.update s.stored.file x (some .blank) } :=
    StoredFiles.ext (by rw [hstored, hblank]) hname hdescs
  refine ⟨⟨⟨_, hinv⟩, h.refs.create hx hinodes rfl hname hdescs⟩, ?_⟩
  rw [heq]
  exact .create (by simp [Vfs.stored, hx])

/-- `inode_file_debug_inject_data`. -/
theorem inject (h : FilesInv s) {x : ℕ} {bytes : ℕ → BitVec 8} {size : BitVec 64}
    (hsize : size.toNat + 4095 < 2 ^ 64)
    (hrun : s.inodeFileDebugInjectData env bytes size x = .ok s') :
    FilesInv s' ∧ StoreStep s.stored (.inject x (slice bytes 0 size.toNat)) s'.stored := by
  obtain ⟨N, hN⟩ := h.files
  obtain ⟨i, hi, hrun⟩ := bind_eq_ok.mp hrun
  obtain ⟨f, hf, hrun⟩ := bind_eq_ok.mp hrun
  rw [inode_eq_ok] at hi
  obtain ⟨hinodes, hnodes, hbytes, hname, hdescs⟩ :
      s'.inodes = Function.update s.inodes x (some { i with size := BitVec.ofNat 64 f.size }) ∧
      s'.nodes = f.nodes ∧ s'.bytes = f.pages ∧ s'.stored.name = s.stored.name ∧
      s'.stored.desc = s.stored.desc := by
    cases hrun
    exact ⟨rfl, rfl, rfl, rfl, rfl⟩
  obtain ⟨hle, hzero, ν, htype, hroots, hfsize, hok, hsparse, hothers⟩ :=
    injectData_sparse (hN.ok x i hi) hsize hf
  obtain ⟨hinv, hstored⟩ := hN.write (p := 0) hi (htype.trans (hN.type x i hi)) hroots (by omega)
    hok hothers hinodes hnodes hbytes
  have heq : s'.stored = { s.stored with
      file := Function.update s.stored.file x
        (some ((s.fileOf i).sparse.fileInject (slice bytes 0 size.toNat))) } :=
    StoredFiles.ext (by rw [hstored, hsparse]) hname hdescs
  refine ⟨⟨⟨_, hinv⟩, h.refs.set hi hinodes rfl hname (by rw [heq]; rfl)⟩, ?_⟩
  rw [heq]
  refine .inject (StoreInv.stored_file hi) (by rwa [length_slice]) (hzero.imp_left fun h0 => ?_)
  rw [h0]
  rfl

/-- `create_dentry`, of a name for a file. -/
theorem name (h : FilesInv s) {n parent : ℕ} {block : Dentry} {name : List (BitVec 8)}
    {file : BitVec 64} (hfile : file ≠ 0) (hlow : s.CountsLow) (hn : s.dentries.entries n = none)
    (hparent : parent = 0 ∨ s.dentries.entries parent ≠ none)
    (hrun : s.createDentry src n block parent name file = .ok s') :
    FilesInv s' ∧ StoreStep s.stored (.name n file.toNat) s'.stored := by
  obtain ⟨N, hN⟩ := h.files
  unfold Vfs.createDentry at hrun
  rw [if_neg hfile] at hrun
  obtain ⟨s₁, hinc, hrun⟩ := bind_eq_ok.mp hrun
  obtain ⟨i, hi, hinc⟩ := bind_eq_ok.mp hinc
  cases hinc
  obtain ⟨dentries, hcreate, hrun⟩ := bind_eq_ok.mp hrun
  rw [inode_eq_ok] at hi
  have htargets := createDentry_targets hn hparent hcreate
  rw [if_neg hfile] at htargets
  have hnone : s.stored.name n = none := by
    change s.dentries.targets n = none
    rw [Dentries.targets, hn]
    rfl
  obtain ⟨hinodes, hnodes, hbytes, hname, hdescs⟩ :
      s'.inodes = Function.update s.inodes file.toNat
        (some { i with linkRefs := i.linkRefs + 1 }) ∧
      s'.nodes = s.nodes ∧ s'.bytes = s.bytes ∧ s'.stored.name = dentries.targets ∧
      s'.stored.desc = s.stored.desc := by
    cases hrun
    exact ⟨rfl, rfl, rfl, rfl, rfl⟩
  obtain ⟨hinv, hstored⟩ := hN.setLinkRefs hi (i.linkRefs + 1) hinodes hnodes hbytes
  have heq : s'.stored =
      { s.stored with name := Function.update s.stored.name n (some file.toNat) } :=
    StoredFiles.ext hstored (hname.trans htargets) hdescs
  refine ⟨⟨⟨_, hinv⟩, h.refs.name hnone hi (hlow _ i hi) hinodes heq⟩, ?_⟩
  rw [heq]
  exact .name (by rw [StoreInv.stored_file hi]; exact Option.some_ne_none _) hnone

/-- Code that leaves the files alone. -/
theorem other (h : FilesInv s) (hleaves : s.LeavesFiles s') :
    FilesInv s' ∧ StoreStep s.stored .other s'.stored := by
  obtain ⟨N, hN⟩ := h.files
  obtain ⟨hinv, hstored⟩ := hN.kept hleaves.inodes hleaves.nodes hleaves.bytes
  have heq : s'.stored = s.stored := StoredFiles.ext hstored hleaves.targets hleaves.descs
  refine ⟨⟨⟨N, hinv⟩, h.refs.congr (by rw [heq]) (by rw [heq]) fun x => by
    rw [hleaves.inodes]⟩, ?_⟩
  rw [heq]
  exact .other

/-- `create_dentry`, of a folder. -/
theorem folder (h : FilesInv s) {n parent : ℕ} {block : Dentry} {name : List (BitVec 8)}
    (hn : s.dentries.entries n = none) (hparent : parent = 0 ∨ s.dentries.entries parent ≠ none)
    (hrun : s.createDentry src n block parent name 0 = .ok s') :
    FilesInv s' ∧ StoreStep s.stored .other s'.stored := by
  obtain ⟨N, hN⟩ := h.files
  unfold Vfs.createDentry at hrun
  rw [if_pos rfl, pure_eq_ok, ok_bind] at hrun
  obtain ⟨dentries, hcreate, hrun⟩ := bind_eq_ok.mp hrun
  have htargets := createDentry_targets hn hparent hcreate
  rw [if_pos rfl, Function.update_eq_self_iff.mpr (by rw [Dentries.targets, hn]; rfl)] at htargets
  cases hrun
  exact h.other ⟨rfl, rfl, htargets, rfl, fun _ _ => ⟨rfl, fun _ => rfl⟩⟩

/-- `file_open_path`, of a path that leads to a file. -/
theorem opened (henv : env.Sound) (h : FilesInv s) {proc : ℕ} {path fd : BitVec 64}
    {d : FileDescriptor} (hlow : s.CountsLow) (hrun : s.fileOpenPath env proc path = .ok (fd, s'))
    (h0 : fd ≠ 0) (hd : s'.descs fd.toNat = some d) :
    FilesInv s' ∧ StoreStep s.stored (.opened fd.toNat d.file) s'.stored := by
  obtain ⟨N, hN⟩ := h.files
  rcases fileOpenPath_cases henv hrun with ⟨hzero, -⟩ | ⟨n, x, i, hn, hi, -, hfree, hs'⟩
  · exact absurd hzero h0
  obtain ⟨hinodes, hdescs, hnodes, hbytes, hname⟩ :
      s'.inodes = Function.update s.inodes x (some { i with linkRefs := i.linkRefs + 1 }) ∧
      s'.descs = Function.update s.descs fd.toNat (some ⟨x, 0⟩) ∧
      s'.nodes = s.nodes ∧ s'.bytes = s.bytes ∧ s'.stored.name = s.stored.name := by
    rw [hs']
    exact ⟨rfl, rfl, rfl, rfl, rfl⟩
  rw [hdescs, Function.update_self] at hd
  obtain rfl := Option.some.inj hd
  obtain ⟨hinv, hstored⟩ := hN.setLinkRefs hi (i.linkRefs + 1) hinodes hnodes hbytes
  have heq : s'.stored =
      { s.stored with desc := Function.update s.stored.desc fd.toNat (some ⟨x, 0⟩) } :=
    StoredFiles.ext hstored hname hdescs
  refine ⟨⟨⟨_, hinv⟩, h.refs.open_ hn hfree hi (hlow _ i hi) hinodes heq⟩, ?_⟩
  rw [heq]
  exact .opened hn hfree

/-- The position of a descriptor is set, and what is not of the files. -/
theorem move (h : FilesInv s) {fd : ℕ} {d : FileDescriptor} {p : BitVec 64}
    (hd : s.descs fd = some d) (hinodes : s'.inodes = s.inodes)
    (htargets : s'.dentries.targets = s.dentries.targets) (hnodes : s'.nodes = s.nodes)
    (hbytes : ∀ q, s.FilePage q →
      s'.bytes.len q = s.bytes.len q ∧ ∀ i, s'.bytes.cell q i = s.bytes.cell q i)
    (hdescs : s'.descs = Function.update s.descs fd (some { d with seekPos := p })) :
    FilesInv s' ∧ s'.stored = { s.stored with
      desc := Function.update s.stored.desc fd (some { d with seekPos := p }) } := by
  obtain ⟨N, hN⟩ := h.files
  obtain ⟨hinv, hstored⟩ := hN.kept hinodes hnodes hbytes
  have heq : s'.stored = { s.stored with
      desc := Function.update s.stored.desc fd (some { d with seekPos := p }) } :=
    StoredFiles.ext hstored htargets hdescs
  refine ⟨⟨⟨N, hinv⟩, h.refs.congr htargets ?_ fun x => by rw [hinodes]⟩, heq⟩
  rw [heq]
  exact StoredFiles.opened_move hd p

/-- `file_descriptor_seek`. -/
theorem seek (h : FilesInv s) {fd p : BitVec 64} (hrun : s.fileDescriptorSeek fd p = .ok s') :
    FilesInv s' ∧ StoreStep s.stored (.seek fd.toNat p) s'.stored := by
  obtain ⟨s₁, hset, hrun⟩ := bind_eq_ok.mp hrun
  obtain ⟨d, hd, hset⟩ := bind_eq_ok.mp hset
  have hd' : s.descs fd.toNat = some d := desc_eq_ok.mp hd
  have hmove : FilesInv s' ∧ s'.stored = { s.stored with
      desc := Function.update s.stored.desc fd.toNat (some { d with seekPos := p }) } := by
    cases hset
    cases hrun
    exact h.move hd' rfl rfl rfl (fun _ _ => ⟨rfl, fun _ => rfl⟩) rfl
  refine ⟨hmove.1, ?_⟩
  rw [hmove.2]
  exact .seek hd'

/-- `file_descriptor_read`, and when it panics. -/
theorem read_cases (h : FilesInv s) (env : FsEnv) {fd dest size : BitVec 64} {d : FileDescriptor}
    {v : SparseArray (BitVec 8)} (hd : s.stored.desc fd.toNat = some d)
    (hv : s.stored.file d.file = some v) (hbuf : s.Buffer dest.toNat size.toNat) :
    (¬v.CanLoad 4096 d.seekPos.toNat (min size.toNat (v.size - d.seekPos.toNat)) ∧
      s.fileDescriptorRead env fd dest size =
        .error (.panic .readWriteOutOfBoundsFileDesc)) ∨
    v.CanLoad 4096 d.seekPos.toNat (min size.toNat (v.size - d.seekPos.toNat)) ∧
      ∃ n s', s.fileDescriptorRead env fd dest size = .ok (n, s') ∧ FilesInv s' ∧
        slice (s'.bytes.cell dest.toNat) 0 n.toNat =
          StoredFiles.readAt v d.seekPos.toNat size.toNat ∧
        ∃ p : BitVec 64, p.toNat =
            d.seekPos.toNat + min size.toNat (v.size - d.seekPos.toNat) ∧
          s'.stored = { s.stored with
            desc := Function.update s.stored.desc fd.toNat (some { d with seekPos := p }) } := by
  obtain ⟨N, hN⟩ := h.files
  obtain ⟨i, hi, rfl⟩ := Option.map_eq_some_iff.mp hv
  have hsize : i.size.toNat < 2 ^ 64 := i.size.isLt
  have hseek : d.seekPos.toNat < 2 ^ 64 := d.seekPos.isLt
  have hread := @fileDescriptorRead_sparse (env.alloc false).nodes (env.alloc false).bytePages
    { s.fileOf i with seekPos := d.seekPos.toNat } (N d.file)
    ((hN.ok d.file i hi).seek d.seekPos.toNat) (hN.type d.file i hi) hsize dest.toNat size.toNat
    (hN.ne_buffer hi hbuf) ((Nat.min_le_left _ _).trans hbuf.room)
  rw [Vfs.fileDescriptorRead_eq (openFile_eq hd hi)]
  generalize hm : min size.toNat (i.size.toNat - d.seekPos.toNat) = m
  have hmin : min size.toNat ((s.fileOf i).sparse.size - d.seekPos.toNat) = m := hm
  have hmlt : m < 2 ^ 64 := by omega
  change (¬(s.fileOf i).sparse.CanLoad 4096 d.seekPos.toNat
      (min size.toNat (i.size.toNat - d.seekPos.toNat)) ∧ _) ∨
    (s.fileOf i).sparse.CanLoad 4096 d.seekPos.toNat
      (min size.toNat (i.size.toNat - d.seekPos.toNat)) ∧ _ at hread
  rw [hm] at hread
  rw [hmin]
  rcases hread with ⟨hnot, hrun⟩ | ⟨hcan, g, hrun, hobjs, hother, hcell⟩
  · exact Or.inl ⟨hnot, by rw [hrun]; rfl⟩
  change _ = Except.ok (min size.toNat (i.size.toNat - d.seekPos.toNat), { s.fileOf i with
    pages := g
    seekPos := d.seekPos.toNat + min size.toNat (i.size.toNat - d.seekPos.toNat) }) at hrun
  change ∀ j < min size.toNat (i.size.toNat - d.seekPos.toNat),
    g.cell dest.toNat j = (s.fileOf i).sparse.value (d.seekPos.toNat + j) at hcell
  rw [hm] at hrun hcell
  obtain ⟨s', hset, hinodes, hdescs, hnodes, hbytes, hdentries⟩ :=
    setOpenFile_ok (s := s.irqDisable) hd hi { s.fileOf i with
      pages := g, seekPos := d.seekPos.toNat + m }
  have hsame : (some { i with size := BitVec.ofNat 64 i.size.toNat } : Option Inode) = some i := by
    rw [BitVec.ofNat_toNat, BitVec.setWidth_eq]
  have hp : (BitVec.ofNat 64 (d.seekPos.toNat + m)).toNat = d.seekPos.toNat + m := by
    rw [BitVec.toNat_ofNat, Nat.mod_eq_of_lt (by omega)]
  obtain ⟨hinv, hstored⟩ := h.move hd
    (hinodes.trans (Function.update_eq_self_iff.mpr (hsame.trans hi.symm))) (by rw [hdentries]; rfl)
    hnodes (fun q hq => by
      rw [hbytes]
      exact ⟨len_of_objs hobjs q, fun c => congrFun (hother q fun he => hbuf.apart (he ▸ hq)) c⟩)
    hdescs
  refine Or.inr ⟨hcan, BitVec.ofNat 64 m, s', ?_, hinv, ?_, _, hp, hstored⟩
  · rw [hrun, ok_bind, hset]
    rfl
  · rw [BitVec.toNat_ofNat, Nat.mod_eq_of_lt hmlt, hbytes, StoredFiles.readAt, hmin]
    exact slice_shift fun j hj => by rw [Nat.zero_add]; exact hcell j hj

/-- `file_descriptor_write`, and when it panics. -/
theorem write_cases (h : FilesInv s) (env : FsEnv) {fd buf size : BitVec 64} {d : FileDescriptor}
    {v : SparseArray (BitVec 8)} (hd : s.stored.desc fd.toNat = some d)
    (hv : s.stored.file d.file = some v) (hbuf : s.Buffer buf.toNat size.toNat)
    (hfit : d.seekPos.toNat + size.toNat < 2 ^ 64) :
    s.fileDescriptorWrite env fd buf size = .error (.panic .outOfFreePages) ∨
    (¬v.CanStore 4096 d.seekPos.toNat size.toNat ∧
      s.fileDescriptorWrite env fd buf size =
        .error (.panic .readWriteOutOfBoundsFileDesc)) ∨
    v.CanStore 4096 d.seekPos.toNat size.toNat ∧
      ∃ s', s.fileDescriptorWrite env fd buf size = .ok (size, s') ∧ FilesInv s' ∧
        ∃ p : BitVec 64, p.toNat = d.seekPos.toNat + size.toNat ∧ s'.stored = { s.stored with
          file := Function.update s.stored.file d.file (some (v.fileWrite d.seekPos.toNat
            (slice (s.bytes.cell buf.toNat) 0 size.toNat)))
          desc := Function.update s.stored.desc fd.toNat (some { d with seekPos := p }) } := by
  obtain ⟨N, hN⟩ := h.files
  obtain ⟨i, hi, rfl⟩ := Option.map_eq_some_iff.mp hv
  have hopen : s.irqDisable.openFile fd.toNat =
      .ok { s.fileOf i with seekPos := d.seekPos.toNat } := openFile_eq hd hi
  have hload := loadBytes_eq s.irqDisable.bytes buf.toNat size.toNat 0
    (by rw [Nat.zero_add]; exact hbuf.room)
  have hrun : s.fileDescriptorWrite env fd buf size =
      (Toastium.fileDescriptorWrite (env.alloc false).nodes (env.alloc false).bytePages
        { s.fileOf i with seekPos := d.seekPos.toNat }
        (slice (s.bytes.cell buf.toNat) 0 size.toNat) >>= fun r =>
          s.irqDisable.setOpenFile fd.toNat r.2 >>= fun s' => .ok (BitVec.ofNat 64 r.1, s')) := by
    simp only [Vfs.fileDescriptorWrite, hopen, hload, ok_bind]
    rfl
  have hwrite := @fileDescriptorWrite_sparse (env.alloc false).nodes (env.alloc false).bytePages
    { s.fileOf i with seekPos := d.seekPos.toNat } (N d.file)
    ((hN.ok d.file i hi).seek d.seekPos.toNat) (hN.type d.file i hi)
    (slice (s.bytes.cell buf.toNat) 0 size.toNat) (by rw [length_slice]; exact hfit)
  rw [length_slice] at hwrite
  rw [hrun]
  rcases hwrite with herr | ⟨hnot, herr⟩ |
    ⟨hcan, f, ν, hok, htype, hroots, hseek, hf, hsparse, hothers⟩
  · exact Or.inl (by rw [herr]; rfl)
  · exact Or.inr (Or.inl ⟨hnot, by rw [herr]; rfl⟩)
  obtain ⟨s', hset, hinodes, hdescs, hnodes, hbytes, hdentries⟩ :=
    setOpenFile_ok (s := s.irqDisable) hd hi f
  have hsize : f.size < 2 ^ 64 := by
    have hfs : f.size = max i.size.toNat ((d.seekPos.toNat +
      2 * (slice (s.bytes.cell buf.toNat) 0 size.toNat).length) % 2 ^ 64) :=
        congrArg SparseArray.size hsparse
    have := i.size.isLt
    omega
  have hfseek : f.seekPos = d.seekPos.toNat + size.toNat := hseek
  obtain ⟨hinv, hstored⟩ := hN.write hi htype hroots hsize hf hothers hinodes hnodes hbytes
  have hp : (BitVec.ofNat 64 f.seekPos).toNat = d.seekPos.toNat + size.toNat := by
    rw [hfseek, BitVec.toNat_ofNat, Nat.mod_eq_of_lt hfit]
  have heq : s'.stored = { s.stored with
      file := Function.update s.stored.file d.file (some ((s.fileOf i).sparse.fileWrite
        d.seekPos.toNat (slice (s.bytes.cell buf.toNat) 0 size.toNat)))
      desc := Function.update s.stored.desc fd.toNat
        (some { d with seekPos := BitVec.ofNat 64 f.seekPos }) } :=
    StoredFiles.ext (by rw [hstored, hsparse]; rfl) (congrArg Dentries.targets hdentries) hdescs
  have hrefs : RefsInv s' := h.refs.set hi hinodes rfl (by rw [heq])
    (by rw [heq]; exact StoredFiles.opened_move hd _)
  refine Or.inr (Or.inr ⟨hcan, s', ?_, ⟨⟨_, hinv⟩, hrefs⟩, _, hp, heq⟩)
  rw [hok, ok_bind, hset, ok_bind, BitVec.ofNat_toNat, BitVec.setWidth_eq]

/-- `release_file_descriptor`. The inode is not freed. -/
theorem release (henv : env.Sound) (h : FilesInv s) {fd : BitVec 64}
    (hpage : ¬s.FilePage fd.toNat) (hrun : s.releaseFileDescriptor env 0 0 fd = .ok s') :
    FilesInv s' ∧ StoreStep s.stored (.release fd.toNat) s'.stored := by
  obtain ⟨N, hN⟩ := h.files
  obtain ⟨d, hd, hrun⟩ := bind_eq_ok.mp hrun
  have hd' : s.stored.desc fd.toNat = some d := desc_eq_ok.mp hd
  rw [if_neg (by simp)] at hrun
  obtain ⟨n, hn⟩ := h.refs.opened fd.toNat d.file (StoredFiles.opened_eq hd')
  obtain ⟨i, hi⟩ := Option.ne_none_iff_exists'.1 (h.refs.named n d.file hn)
  have hx : (BitVec.ofNat 64 d.file).toNat = d.file := by
    rw [BitVec.toNat_ofNat, Nat.mod_eq_of_lt (hN.lt d.file i hi)]
  have htwo := h.refs.two_le hd' hi
  have hne : i.linkRefs - 1 ≠ 0 := fun h0 => by
    have h1 := congrArg BitVec.toNat h0
    rw [BitVec.toNat_sub_of_le (BitVec.le_def.mpr (by simp; omega))] at h1
    have hone : (1 : BitVec 32).toNat = 1 := rfl
    have hzero : (0 : BitVec 32).toNat = 0 := rfl
    omega
  obtain ⟨s₁, hdec, hrun⟩ := bind_eq_ok.mp hrun
  obtain ⟨s₂, hfree, hrun⟩ := bind_eq_ok.mp hrun
  have hin : s.irqDisable.inode d.file = .ok i := inode_eq_ok.mpr hi
  rw [Vfs.inodeDecOpenCnt, hx, hin, ok_bind] at hdec
  simp only [hne, false_and, if_false] at hdec
  cases hdec
  obtain ⟨bytes, hbytes, hfree⟩ := bind_eq_ok.mp hfree
  obtain ⟨hinodes, hnodes, hb, hname, hdesc⟩ :
      s'.inodes = Function.update s.inodes d.file
        (some { i with linkRefs := i.linkRefs - 1 }) ∧
      s'.nodes = s.nodes ∧ s'.bytes = bytes ∧ s'.stored.name = s.stored.name ∧
      s'.stored.desc = Function.update s.stored.desc fd.toNat none := by
    cases hfree
    cases hrun
    exact ⟨rfl, rfl, rfl, rfl, rfl⟩
  -- the memory is given back first, then the count is set
  have hkept : StoreInv { s with bytes := bytes } N ∧
      (Vfs.stored { s with bytes := bytes }).file = s.stored.file :=
    hN.kept rfl rfl fun q hq => henv.free hbytes q fun he => hpage (he ▸ hq)
  obtain ⟨hinv, hstored⟩ := hkept.1.setLinkRefs hi (i.linkRefs - 1) hinodes hnodes hb
  have heq : s'.stored = { s.stored with
      desc := Function.update s.stored.desc fd.toNat none } :=
    StoredFiles.ext (hstored.trans hkept.2) hname hdesc
  refine ⟨⟨⟨_, hinv⟩, h.refs.release hd' hi hinodes heq⟩, ?_⟩
  rw [heq]
  exact .release hd'

end FilesInv

/-- One step of the kernel is one step of the store. -/
theorem FilesInv.step (henv : env.Sound) (h : FilesInv s) {e : VfsEvent}
    (hstep : VfsStep env src s e s') : FilesInv s' ∧ StoreStep s.stored e s'.stored := by
  cases hstep with
  | create hlt hx hrun => exact h.create hlt hx hrun
  | inject hsize hrun => exact h.inject hsize hrun
  | folder hn hparent hrun => exact h.folder hn hparent hrun
  | name hfile hlow hn hparent hrun => exact h.name hfile hlow hn hparent hrun
  | opened hlow hrun h0 hd => exact h.opened henv hlow hrun h0 hd
  | notOpened hrun =>
    rcases fileOpenPath_cases henv hrun with ⟨-, rfl⟩ | ⟨-, -, -, -, -, hne, -⟩
    · exact h.other ⟨rfl, rfl, rfl, rfl, fun _ _ => ⟨rfl, fun _ => rfl⟩⟩
    · exact absurd rfl hne
  | seek hrun => exact h.seek hrun
  | @read _ fd dest size n hbuf hrun =>
    obtain ⟨f, hopen, -⟩ := bind_eq_ok.mp hrun
    obtain ⟨d, v, hd, hv⟩ := stored_of_openFile hopen
    rcases h.read_cases env hd hv hbuf with
      ⟨-, herr⟩ | ⟨hcan, n', s'', hok, hinv, hbytes, p, hp, hstored⟩
    · rw [herr] at hrun
      cases hrun
    · rw [hok] at hrun
      cases hrun
      refine ⟨hinv, ?_⟩
      rw [hbytes, hstored]
      exact .read hd hv hcan hp
  | @write _ fd buf size n hbuf hfit hrun =>
    obtain ⟨f, hopen, -⟩ := bind_eq_ok.mp hrun
    obtain ⟨d, v, hd, hv⟩ : ∃ d v, s.stored.desc fd.toNat = some d ∧
        s.stored.file d.file = some v := stored_of_openFile hopen
    rcases h.write_cases env hd hv hbuf (hfit d hd) with
      herr | ⟨-, herr⟩ | ⟨hcan, s'', hok, hinv, p, hp, hstored⟩
    · rw [herr] at hrun
      cases hrun
    · rw [herr] at hrun
      cases hrun
    · rw [hok] at hrun
      cases hrun
      refine ⟨hinv, ?_⟩
      rw [hstored]
      exact .write hd hv (by rwa [length_slice]) (by rwa [length_slice])
  | release hpage hrun => exact h.release henv hpage hrun
  | other hleaves => exact h.other hleaves

/-! ## Every run -/

/-- No files, no names, no descriptors. -/
structure NoFiles (s : Vfs) : Prop where
  inodes : ∀ x, s.inodes x = none
  entries : ∀ n, s.dentries.entries n = none
  descs : ∀ fd, s.descs fd = none

theorem NoFiles.inv (h : NoFiles s) : FilesInv s := by
  have hname : ∀ n, s.stored.name n = none := fun n => by
    change (s.dentries.entries n).bind _ = none
    rw [h.entries]
    rfl
  have hopened : ∀ fd, s.stored.opened fd = none := fun fd => by
    change (s.descs fd).map _ = none
    rw [h.descs]
    rfl
  have hno : ∀ {x i}, s.inodes x ≠ some i := fun {x i} hi => by
    rw [h.inodes] at hi
    cases hi
  refine ⟨⟨fun _ _ _ => none, fun _ _ hi => absurd hi hno, fun _ _ hi => absurd hi hno,
    fun _ _ hi => absurd hi hno, fun _ _ _ _ hi => absurd hi hno⟩,
    fun _ _ hi => absurd hi hno, fun x => ?_, fun x => ?_, fun n x hn => ?_, fun fd x hfd => ?_⟩
  · rw [holders_eq_empty fun n => by simp [hname]]
    exact Set.finite_empty
  · rw [holders_eq_empty fun fd => by simp [hopened]]
    exact Set.finite_empty
  · rw [hname] at hn
    cases hn
  · rw [hopened] at hfd
    cases hfd

theorem FilesInv.path (henv : env.Sound) {l : List VfsEvent} (h : FilesInv s)
    (hrun : Path (VfsStep env src) s l s') : FilesInv s' ∧ Path StoreStep s.stored l s'.stored := by
  induction hrun with
  | nil s => exact ⟨h, .nil _⟩
  | cons hstep _ ih =>
    obtain ⟨hinv, hs⟩ := h.step henv hstep
    exact ⟨(ih hinv).1, .cons hs (ih hinv).2⟩

theorem NoFiles.stored (h : NoFiles s) :
    s.stored = ⟨fun _ => none, fun _ => none, fun _ => none⟩ := by
  refine StoredFiles.ext (funext fun x => ?_) (funext fun n => ?_) (funext h.descs)
  · change (s.inodes x).map _ = none
    rw [h.inodes]
    rfl
  · change (s.dentries.entries n).bind _ = none
    rw [h.entries]
    rfl

/-- Every run of the kernel from no files on is a run of the store from the empty store on. -/
theorem files_refine (henv : env.Sound) {s₀ : Vfs} (h₀ : NoFiles s₀) {l : List VfsEvent}
    (hrun : Path (VfsStep env src) s₀ l s) :
    Path StoreStep ⟨fun _ => none, fun _ => none, fun _ => none⟩ l s.stored := by
  rw [← h₀.stored]
  exact (h₀.inv.path henv hrun).2

/-- What a read and a write of `size` bytes do : what the store does, and if it can not they
panic. A write may find no memory. -/
structure CallsDecided (env : FsEnv) (s : Vfs) (fd buf size : BitVec 64) (d : FileDescriptor)
    (v : SparseArray (BitVec 8)) : Prop where
  read : v.CanLoad 4096 d.seekPos.toNat (min size.toNat (v.size - d.seekPos.toNat)) →
    ∃ n s', s.fileDescriptorRead env fd buf size = .ok (n, s') ∧ StoreStep s.stored
      (.read fd.toNat size.toNat (StoredFiles.readAt v d.seekPos.toNat size.toNat)) s'.stored
  readPanic : ¬v.CanLoad 4096 d.seekPos.toNat (min size.toNat (v.size - d.seekPos.toNat)) →
    s.fileDescriptorRead env fd buf size = .error (.panic .readWriteOutOfBoundsFileDesc)
  write : d.seekPos.toNat + size.toNat < 2 ^ 64 → v.CanStore 4096 d.seekPos.toNat size.toNat →
    s.fileDescriptorWrite env fd buf size = .error (.panic .outOfFreePages) ∨
    ∃ s', s.fileDescriptorWrite env fd buf size = .ok (size, s') ∧ StoreStep s.stored
      (.write fd.toNat (slice (s.bytes.cell buf.toNat) 0 size.toNat)) s'.stored
  writePanic : d.seekPos.toNat + size.toNat < 2 ^ 64 →
    ¬v.CanStore 4096 d.seekPos.toNat size.toNat →
    s.fileDescriptorWrite env fd buf size = .error (.panic .outOfFreePages) ∨
    s.fileDescriptorWrite env fd buf size = .error (.panic .readWriteOutOfBoundsFileDesc)

/-- In every run, a read or a write through an open descriptor does what the store does, and
panics only if the store can not, or if no memory is left. -/
theorem fileCalls_decided (henv : env.Sound) {s₀ : Vfs} (h₀ : NoFiles s₀) {l : List VfsEvent}
    (hrun : Path (VfsStep env src) s₀ l s) {fd buf size : BitVec 64} {d : FileDescriptor}
    {v : SparseArray (BitVec 8)} (hd : s.descs fd.toNat = some d)
    (hv : s.stored.file d.file = some v) (hbuf : s.Buffer buf.toNat size.toNat) :
    CallsDecided env s fd buf size d v := by
  have h := (h₀.inv.path henv hrun).1
  have hread := h.read_cases env hd hv hbuf
  refine ⟨fun hcan => ?_, fun hnot => ?_, fun hfit hcan => ?_, fun hfit hnot => ?_⟩
  · obtain ⟨-, n, s', hok, -, -, p, hp, hstored⟩ := hread.resolve_left fun hl => hl.1 hcan
    refine ⟨n, s', hok, ?_⟩
    rw [hstored]
    exact .read hd hv hcan hp
  · exact (hread.resolve_right fun hr => hnot hr.1).2
  · refine (h.write_cases env hd hv hbuf hfit).imp_right fun hw => ?_
    obtain ⟨-, s', hok, -, p, hp, hstored⟩ := hw.resolve_left fun hl => hl.1 hcan
    refine ⟨s', hok, ?_⟩
    rw [hstored]
    exact .write hd hv (by rwa [length_slice]) (by rwa [length_slice])
  · exact (h.write_cases env hd hv hbuf hfit).imp_right
      fun hw => (hw.resolve_right fun hr => hnot hr.1).2

/-- The counts of the inodes in a state. -/
structure CountsRight (s : Vfs) : Prop where
  count : ∀ x i, s.inodes x = some i → i.linkRefs.toNat =
    {n | ∃ d, s.dentries.entries n = some d ∧ d.type = .other ∧ d.inode.toNat = x}.ncard +
      {fd | ∃ d, s.descs fd = some d ∧ d.file = x}.ncard
  named : ∀ n d, s.dentries.entries n = some d → d.type = .other → s.inodes d.inode.toNat ≠ none
  opened : ∀ fd d, s.descs fd = some d → s.inodes d.file ≠ none

/-- In every run the `link_refs` of an inode is the number of the dentries that name it and of
the descriptors that are open on it, and none of them is left without its inode. -/
theorem inodes_counted (henv : env.Sound) {s₀ : Vfs} (h₀ : NoFiles s₀) {l : List VfsEvent}
    (hrun : Path (VfsStep env src) s₀ l s) : CountsRight s := by
  have h := (h₀.inv.path henv hrun).1.refs
  have hname : ∀ {n d}, s.dentries.entries n = some d → d.type = .other →
      s.stored.name n = some d.inode.toNat := fun {n d} hn htype => by
    change (s.dentries.entries n).bind _ = _
    rw [hn]
    exact if_pos htype
  refine ⟨fun x i hi => ?_, fun n d hn htype => h.named n _ (hname hn htype), fun fd d hd => ?_⟩
  · rw [h.count x i hi, StoredFiles.refs]
    congr 2
    · ext n
      constructor
      · intro hn
        obtain ⟨d, hd, htarget⟩ := Option.bind_eq_some_iff.mp hn
        unfold Dentry.target at htarget
        split_ifs at htarget with htype
        exact ⟨d, hd, htype, Option.some.inj htarget⟩
      · rintro ⟨d, hd, htype, rfl⟩
        exact hname hd htype
    · ext fd
      exact Option.map_eq_some_iff
  · obtain ⟨n, hn⟩ := h.opened fd d.file (StoredFiles.opened_eq hd)
    exact h.named n d.file hn

/-! ### One file -/

/-- A descriptor at `0x5000`, and memory that is handed out in order and not taken back. -/
def oneDescEnv : FsEnv :=
  { bumpEnv with
    alloc := fun _ => { bumpAllocators with
      descriptor := fun descs =>
        if descs 0x5000 = none then .ok 0x5000 else .error (.panic .outOfFreePages) }
    fuel := 1 }

/-- No files. The process is in the directory at `1024`, and there are 8 bytes at `0x9000`. -/
def noFilesVfs : Vfs :=
  { oneFileVfs 0 with
    procs := fun _ => ⟨0x7000, 1, 1024⟩
    descs := fun _ => none
    inodes := fun _ => none
    nodes := ⟨[], fun _ _ => 0⟩
    bytes := (Heap.mk [] fun _ _ => 0).push 0x9000 8 }

theorem oneDescEnv_sound : oneDescEnv.Sound := by
  refine ⟨fun {_ descs fd} h => ?_, fun {_ _ _ _} h q _ => ?_⟩
  · change (if descs 0x5000 = none then Except.ok 0x5000
      else Except.error (Fault.panic Panic.outOfFreePages)) = Except.ok fd at h
    split_ifs at h with hfree
    cases h
    exact ⟨by decide, by decide, hfree⟩
  · cases h
    exact ⟨rfl, fun _ => rfl⟩

theorem noFilesVfs_noFiles : NoFiles noFilesVfs :=
  ⟨fun _ => rfl, fun _ => rfl, fun _ => rfl⟩

/-- The root, -/
def oneRoot : Except (Fault Panic) Dentries :=
  createDentry bumpPages 512 zeroBlock 0 [] 0 noFilesVfs.dentries

/-- and the file at `256` in it. -/
def oneName : Except (Fault Panic) Dentries :=
  createDentry bumpPages 1024 zeroBlock 512 (bytesOf ['a']) 256 (getOk oneRoot)

theorem oneRoot_eq : oneRoot = .ok (getOk oneRoot) := rfl

theorem oneName_eq : oneName = .ok (getOk oneName) := rfl

theorem countsLow_one {s : Vfs} {i : Inode}
    (hinodes : s.inodes = Function.update (fun _ => none) 256 (some i))
    (hi : i.linkRefs.toNat ≤ 1) : s.CountsLow := fun x j hj => by
  rcases update_some_cases (hinodes ▸ hj) with ⟨-, rfl⟩ | ⟨-, hj⟩
  · omega
  · cases hj

/-- A run : a file is made, put into the root, and opened. -/
theorem noFilesVfs_run : ∃ s, Path (VfsStep oneDescEnv bumpPages) noFilesVfs
    [.create 256, .other, .name 1024 256, .opened 0x5000 256] s ∧
    s.descs 0x5000 = some ⟨256, 0⟩ ∧ s.bytes = noFilesVfs.bytes := by
  obtain ⟨s₁, h₁⟩ : ∃ s, noFilesVfs.createBlankInodeFile oneDescEnv 256 = .ok s :=
    exists_eq_ok (by decide +kernel)
  obtain ⟨⟨roots, nodes⟩, -, hs₁⟩ := bind_eq_ok.mp h₁
  obtain ⟨hi₁, hdentries, hprocs, hdescs, hbytes⟩ :
      s₁.inodes = Function.update (fun _ => none) 256 (some ⟨0, .file, 0, roots⟩) ∧
      s₁.dentries = noFilesVfs.dentries ∧ s₁.procs = noFilesVfs.procs ∧
      s₁.descs = noFilesVfs.descs ∧ s₁.bytes = noFilesVfs.bytes := by
    cases hs₁
    exact ⟨rfl, rfl, rfl, rfl, rfl⟩
  have hroot : s₁.createDentry bumpPages 512 zeroBlock 0 [] 0 =
      .ok { s₁ with dentries := getOk oneRoot } := by
    rw [Vfs.createDentry, if_pos rfl, pure_eq_ok, ok_bind]
    dsimp only
    rw [hdentries]
    change (oneRoot >>= _) = _
    rw [oneRoot_eq]
    rfl
  have hinc : Vfs.inodeIncLink 256 { s₁ with dentries := getOk oneRoot } = .ok { s₁ with
      dentries := getOk oneRoot
      inodes := Function.update s₁.inodes 256 (some ⟨1, .file, 0, roots⟩) } := by
    have hin : Vfs.inode { s₁ with dentries := getOk oneRoot } 256 = .ok ⟨0, .file, 0, roots⟩ :=
      inode_eq_ok.mpr ((congrFun hi₁ 256).trans (Function.update_self _ _ _))
    rw [Vfs.inodeIncLink, hin]
    rfl
  have hname : Vfs.createDentry bumpPages 1024 zeroBlock 512 (bytesOf ['a']) 256
      { s₁ with dentries := getOk oneRoot } = .ok { s₁ with
        dentries := getOk oneName
        inodes := Function.update s₁.inodes 256 (some ⟨1, .file, 0, roots⟩) } := by
    rw [Vfs.createDentry, if_neg (by decide)]
    change (Vfs.inodeIncLink 256 _ >>= _) = _
    rw [hinc, ok_bind]
    change (oneName >>= _) = _
    rw [oneName_eq, ok_bind]
    rfl
  have hpath : dentryGetPath (getOk oneName) oneDescEnv.fuel (s₁.procs 0).workingDir
      (slice (s₁.bytes.cell (0x9000 : BitVec 64).toNat) 0
        (s₁.bytes.len (0x9000 : BitVec 64).toNat)) = .ok 1024 := by
    rw [hprocs, hbytes]
    rfl
  obtain ⟨d, hd, htype, hinode⟩ : ∃ d, (getOk oneName).entries 1024 = some d ∧ d.type = .other ∧
      d.inode = 256 := ⟨_, rfl, rfl, rfl⟩
  have hfree : (oneDescEnv.alloc false).descriptor s₁.descs = .ok 0x5000 := by
    rw [hdescs]
    rfl
  obtain ⟨s₄, hopen, hdescs₄, hbytes₄⟩ := fileOpenPath_ok (s := { s₁ with
    dentries := getOk oneName
    inodes := Function.update s₁.inodes 256 (some ⟨1, .file, 0, roots⟩) })
    (i := ⟨1, .file, 0, roots⟩) hpath (by decide) hd htype (by rw [hinode]; decide)
    (by
      rw [hinode]
      change Function.update s₁.inodes 256 (some ⟨1, .file, 0, roots⟩) 256 = _
      exact Function.update_self _ _ _) hfree
  rw [hinode] at hdescs₄
  refine ⟨s₄, .cons (.create (by decide) rfl h₁) (.cons (.folder ?_ (Or.inl rfl) hroot)
    (.cons (@VfsStep.name _ _ _ _ _ 512 _ _ 256 (by decide) ?_ ?_ (Or.inr ?_) hname) (.cons
      (@VfsStep.opened _ _ _ _ 0 0x9000 0x5000 ⟨256, 0⟩ ?_ hopen (by decide) ?_) (.nil _)))),
    ?_, hbytes₄.trans hbytes⟩
  · rw [hdentries]
    rfl
  · exact countsLow_one hi₁ (Nat.zero_le _)
  · rfl
  · have hlive : ((getOk oneRoot).entries 512).isSome = true := rfl
    exact Option.isSome_iff_ne_none.1 hlive
  · exact countsLow_one (by rw [hi₁, Function.update_idem]) le_rfl
  · rw [hdescs₄]
    exact Function.update_self _ _ _
  · rw [hdescs₄]
    exact Function.update_self _ _ _

theorem files_refine_oneFile : ∃ s : Vfs, s.bytes = noFilesVfs.bytes ∧
    Path StoreStep ⟨fun _ => none, fun _ => none, fun _ => none⟩
      [.create 256, .other, .name 1024 256, .opened 0x5000 256] s.stored := by
  obtain ⟨s, hrun, -, hbytes⟩ := noFilesVfs_run
  exact ⟨s, hbytes, files_refine oneDescEnv_sound noFilesVfs_noFiles hrun⟩

theorem inodes_counted_oneFile : ∃ s : Vfs, s.descs 0x5000 = some ⟨256, 0⟩ ∧ CountsRight s := by
  obtain ⟨s, hrun, hdesc, -⟩ := noFilesVfs_run
  exact ⟨s, hdesc, inodes_counted oneDescEnv_sound noFilesVfs_noFiles hrun⟩

/-- The file of the run is blank. -/
theorem stored_oneFile {a : StoredFiles}
    (h : Path StoreStep ⟨fun _ => none, fun _ => none, fun _ => none⟩
      [.create 256, .other, .name 1024 256, .opened 0x5000 256] a) :
    a.file = Function.update (fun _ => none) 256 (some .blank) := by
  obtain _ | ⟨⟨-⟩, h⟩ := h
  obtain _ | ⟨⟨-⟩, h⟩ := h
  obtain _ | ⟨⟨-⟩, h⟩ := h
  obtain _ | ⟨⟨-⟩, h⟩ := h
  cases h
  rfl

/-- A read and a write of three bytes. -/
theorem fileCalls_decided_oneFile : ∃ s : Vfs, s.descs 0x5000 = some ⟨256, 0⟩ ∧
    CallsDecided oneDescEnv s 0x5000 0x9000 3 ⟨256, 0⟩ .blank := by
  obtain ⟨s, hrun, hdesc, hbytes⟩ := noFilesVfs_run
  have hfile := stored_oneFile
    (noFilesVfs_noFiles.stored ▸ (noFilesVfs_noFiles.inv.path oneDescEnv_sound hrun).2)
  refine ⟨s, hdesc, fileCalls_decided oneDescEnv_sound noFilesVfs_noFiles hrun hdesc
    (by rw [hfile]; exact Function.update_self _ _ _) ⟨by decide, ?_, ?_⟩⟩
  · rw [hbytes]
    decide
  · rintro ⟨x, i, k, hi, hk, hpage, h0⟩
    have hx : s.stored.file x = some (s.fileOf i).sparse := StoreInv.stored_file hi
    rw [hfile] at hx
    rcases update_some_cases hx with ⟨-, hblank⟩ | ⟨-, hx⟩
    · have hpresent : (s.fileOf i).sparse.present k := ⟨hk, hpage ▸ h0⟩
      rw [hblank] at hpresent
      exact hpresent
    · cases hx

end Toastium
