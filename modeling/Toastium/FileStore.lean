import Toastium.FileIrq
import Toastium.Holders
import Toastium.SparseFile

/-!
# The file system as a store

The kernel runs the calls of `inode.c`, `dentry.c` and `file_descriptor.c` in any order, and
other code in between (`VfsStep`). What they keep is a store of files : arrays in pages, names
for them, and descriptors with a position (`StoredFiles`, `StoreStep`). A file is opened through
a name only. `open_refs` of an inode and `virt_mapped_loc` of a descriptor are 0 from the start
and never changed.

The memory of the nodes and of the pages is one for all files. `StoreInv` says that each file has
its own, and every call is one change of one file in it (`StoreInv.update`).
-/

namespace Toastium

/-! ## The code -/

/-- The file that a dentry names. -/
def Dentry.target (d : Dentry) : Option ℕ :=
  if d.type = .other then some d.inode.toNat else none

/-- The files that the dentries name. -/
def Dentries.targets (s : Dentries) (n : ℕ) : Option ℕ :=
  (s.entries n).bind Dentry.target

namespace Vfs

variable (env : FsEnv)

/-- `inode_inc_link`. -/
def inodeIncLink (file : ℕ) (s : Vfs) : Except (Fault Panic) Vfs := do
  let i ← s.inode file
  return s.setInode file { i with linkRefs := i.linkRefs + 1 }

/-- `create_blank_inode_file`, where `mem_alloc` returns `file`. -/
def createBlankInodeFile (file : ℕ) (s : Vfs) : Except (Fault Panic) Vfs := do
  let (radixRoots, nodes) ← createRoots (env.alloc s.sie).nodes inodeFileRadixMaxDepth 0 0
    (fun _ => 0) s.nodes
  return { s.setInode file ⟨0, .file, 0, radixRoots⟩ with nodes := nodes }

/-- The file of an inode, from its start. -/
def fileOf (s : Vfs) (i : Inode) : OpenFile :=
  ⟨i.type, i.size.toNat, i.radixRoots, 0, s.nodes, s.bytes⟩

/-- `inode_file_debug_inject_data` of the bytes at `src`. -/
def inodeFileDebugInjectData (src : ℕ → BitVec 8) (size : BitVec 64) (file : ℕ) (s : Vfs) :
    Except (Fault Panic) Vfs := do
  let i ← s.inode file
  let f ← Toastium.inodeFileDebugInjectData (env.alloc s.sie).nodes (env.alloc s.sie).bytePages
    src size.toNat (s.fileOf i)
  return { s.setInode file { i with size := BitVec.ofNat 64 f.size } with
    nodes := f.nodes, bytes := f.pages }

/-- `create_dentry`, where `mem_alloc` returns `n` with the block `block`. -/
def createDentry (src : PageSource) (n : ℕ) (block : Dentry) (parent : ℕ)
    (name : List (BitVec 8)) (file : BitVec 64) (s : Vfs) : Except (Fault Panic) Vfs := do
  let s ← if file = 0 then pure s else s.inodeIncLink file.toNat
  let dentries ← Toastium.createDentry src n block parent name file s.dentries
  return { s with dentries := dentries }

/-- The page of a file. -/
def FilePage (s : Vfs) (q : ℕ) : Prop :=
  ∃ x i k, s.inodes x = some i ∧ 4096 * k < 2 ^ 64 ∧ (s.fileOf i).page k = q ∧ q ≠ 0

/-- A buffer of `n` bytes, that is no page of a file. -/
structure Buffer (s : Vfs) (p n : ℕ) : Prop where
  pos : p ≠ 0
  room : n ≤ s.bytes.len p
  apart : ¬s.FilePage p

/-- No count of an inode is at its end. -/
def CountsLow (s : Vfs) : Prop :=
  ∀ x i, s.inodes x = some i → i.linkRefs.toNat + 1 < 2 ^ 32

/-- What other code leaves alone. -/
structure LeavesFiles (s s' : Vfs) : Prop where
  inodes : s'.inodes = s.inodes
  descs : s'.descs = s.descs
  targets : s'.dentries.targets = s.dentries.targets
  nodes : s'.nodes = s.nodes
  bytes : ∀ q, s.FilePage q →
    s'.bytes.len q = s.bytes.len q ∧ ∀ i, s'.bytes.cell q i = s.bytes.cell q i

end Vfs

/-- `mem_alloc` returns memory that is not in use, and `mem_free` leaves other memory alone. -/
structure FsEnv.Sound (env : FsEnv) : Prop where
  descriptor : ∀ {sie descs fd}, (env.alloc sie).descriptor descs = .ok fd →
    0 < fd ∧ fd < 2 ^ 64 ∧ descs fd = none
  free : ∀ {sie p h h'}, (env.alloc sie).memFree p h = .ok h' → ∀ q, q ≠ p →
    h'.len q = h.len q ∧ ∀ i, h'.cell q i = h.cell q i

/-- What the kernel does to files, with the memory that it gets and the bytes that it moves. -/
inductive VfsEvent
  | create (file : ℕ)
  | inject (file : ℕ) (bytes : List (BitVec 8))
  | name (n file : ℕ)
  | opened (fd file : ℕ)
  | seek (fd : ℕ) (seekPos : BitVec 64)
  | read (fd size : ℕ) (bytes : List (BitVec 8))
  | write (fd : ℕ) (bytes : List (BitVec 8))
  | release (fd : ℕ)
  | other

/-- One call, or other code. -/
inductive VfsStep (env : FsEnv) (src : PageSource) : Vfs → VfsEvent → Vfs → Prop
  | create {s s' : Vfs} {file : ℕ} : file < 2 ^ 64 → s.inodes file = none →
    s.createBlankInodeFile env file = .ok s' → VfsStep env src s (.create file) s'
  | inject {s s' : Vfs} {file : ℕ} {bytes : ℕ → BitVec 8} {size : BitVec 64} :
    size.toNat + 4095 < 2 ^ 64 → s.inodeFileDebugInjectData env bytes size file = .ok s' →
    VfsStep env src s (.inject file (slice bytes 0 size.toNat)) s'
  | folder {s s' : Vfs} {n parent : ℕ} {block : Dentry} {name : List (BitVec 8)} :
    s.dentries.entries n = none → (parent = 0 ∨ s.dentries.entries parent ≠ none) →
    s.createDentry src n block parent name 0 = .ok s' → VfsStep env src s .other s'
  | name {s s' : Vfs} {n parent : ℕ} {block : Dentry} {name : List (BitVec 8)}
      {file : BitVec 64} : file ≠ 0 → s.CountsLow →
    s.dentries.entries n = none → (parent = 0 ∨ s.dentries.entries parent ≠ none) →
    s.createDentry src n block parent name file = .ok s' →
    VfsStep env src s (.name n file.toNat) s'
  | opened {s s' : Vfs} {proc : ℕ} {path fd : BitVec 64} {d : FileDescriptor} : s.CountsLow →
    s.fileOpenPath env proc path = .ok (fd, s') → fd ≠ 0 → s'.descs fd.toNat = some d →
    VfsStep env src s (.opened fd.toNat d.file) s'
  | notOpened {s s' : Vfs} {proc : ℕ} {path : BitVec 64} :
    s.fileOpenPath env proc path = .ok (0, s') → VfsStep env src s .other s'
  | seek {s s' : Vfs} {fd seekPos : BitVec 64} : s.fileDescriptorSeek fd seekPos = .ok s' →
    VfsStep env src s (.seek fd.toNat seekPos) s'
  | read {s s' : Vfs} {fd dest size n : BitVec 64} : s.Buffer dest.toNat size.toNat →
    s.fileDescriptorRead env fd dest size = .ok (n, s') →
    VfsStep env src s (.read fd.toNat size.toNat (slice (s'.bytes.cell dest.toNat) 0 n.toNat)) s'
  | write {s s' : Vfs} {fd buf size n : BitVec 64} : s.Buffer buf.toNat size.toNat →
    (∀ d, s.descs fd.toNat = some d → d.seekPos.toNat + size.toNat < 2 ^ 64) →
    s.fileDescriptorWrite env fd buf size = .ok (n, s') →
    VfsStep env src s (.write fd.toNat (slice (s.bytes.cell buf.toNat) 0 size.toNat)) s'
  | release {s s' : Vfs} {fd : BitVec 64} : ¬s.FilePage fd.toNat →
    s.releaseFileDescriptor env 0 0 fd = .ok s' → VfsStep env src s (.release fd.toNat) s'
  | other {s s' : Vfs} : s.LeavesFiles s' → VfsStep env src s .other s'

/-! ## The store -/

/-- Files, names for them, and descriptors. -/
@[ext] structure StoredFiles where
  file : ℕ → Option (SparseArray (BitVec 8))
  name : ℕ → Option ℕ
  desc : ℕ → Option FileDescriptor

namespace StoredFiles

/-- The file of a descriptor. -/
def opened (a : StoredFiles) (fd : ℕ) : Option ℕ :=
  (a.desc fd).map FileDescriptor.file

/-- The names and the descriptors of a file. -/
noncomputable def refs (a : StoredFiles) (x : ℕ) : ℕ :=
  (holders a.name x).ncard + (holders a.opened x).ncard

/-- What is read from a position on. -/
def readAt (v : SparseArray (BitVec 8)) (p size : ℕ) : List (BitVec 8) :=
  slice v.value p (min size (v.size - p))

end StoredFiles

/-- A file of size 0 without pages. -/
def SparseArray.blank : SparseArray (BitVec 8) :=
  ⟨fun _ => False, fun _ => 0, 0⟩

/-- What can be done to the store. -/
inductive StoreStep : StoredFiles → VfsEvent → StoredFiles → Prop
  | create {a : StoredFiles} {x : ℕ} : a.file x = none →
    StoreStep a (.create x) { a with file := Function.update a.file x (some .blank) }
  | inject {a : StoredFiles} {x : ℕ} {v : SparseArray (BitVec 8)} {bytes : List (BitVec 8)} :
    a.file x = some v → bytes.length ≤ 4096 → (bytes = [] ∨ ¬v.present 0) →
    StoreStep a (.inject x bytes)
      { a with file := Function.update a.file x (some (v.fileInject bytes)) }
  | name {a : StoredFiles} {n x : ℕ} : a.file x ≠ none → a.name n = none →
    StoreStep a (.name n x) { a with name := Function.update a.name n (some x) }
  | opened {a : StoredFiles} {fd n x : ℕ} : a.name n = some x → a.desc fd = none →
    StoreStep a (.opened fd x) { a with desc := Function.update a.desc fd (some ⟨x, 0⟩) }
  | seek {a : StoredFiles} {fd : ℕ} {d : FileDescriptor} {p : BitVec 64} : a.desc fd = some d →
    StoreStep a (.seek fd p)
      { a with desc := Function.update a.desc fd (some { d with seekPos := p }) }
  | read {a : StoredFiles} {fd size : ℕ} {d : FileDescriptor} {v : SparseArray (BitVec 8)}
      {p : BitVec 64} : a.desc fd = some d → a.file d.file = some v →
    v.CanLoad 4096 d.seekPos.toNat (min size (v.size - d.seekPos.toNat)) →
    p.toNat = d.seekPos.toNat + min size (v.size - d.seekPos.toNat) →
    StoreStep a (.read fd size (StoredFiles.readAt v d.seekPos.toNat size))
      { a with desc := Function.update a.desc fd (some { d with seekPos := p }) }
  | write {a : StoredFiles} {fd : ℕ} {d : FileDescriptor} {v : SparseArray (BitVec 8)}
      {p : BitVec 64} {bytes : List (BitVec 8)} : a.desc fd = some d → a.file d.file = some v →
    v.CanStore 4096 d.seekPos.toNat bytes.length →
    p.toNat = d.seekPos.toNat + bytes.length →
    StoreStep a (.write fd bytes)
      { a with
        file := Function.update a.file d.file (some (v.fileWrite d.seekPos.toNat bytes))
        desc := Function.update a.desc fd (some { d with seekPos := p }) }
  | release {a : StoredFiles} {fd : ℕ} {d : FileDescriptor} : a.desc fd = some d →
    StoreStep a (.release fd) { a with desc := Function.update a.desc fd none }
  | other {a : StoredFiles} : StoreStep a .other a

/-- The store that a state holds. -/
def Vfs.stored (s : Vfs) : StoredFiles where
  file x := (s.inodes x).map fun i => (s.fileOf i).sparse
  name := s.dentries.targets
  desc := s.descs

/-! ## The files of a state -/

variable {env : FsEnv} {src : PageSource} {s s' : Vfs}

/-- Each file has pages and nodes of its own. -/
structure StoreInv (s : Vfs) (N : ℕ → ℕ → ℕ → Option ℕ) : Prop where
  lt : ∀ x i, s.inodes x = some i → x < 2 ^ 64
  type : ∀ x i, s.inodes x = some i → i.type = .file
  ok : ∀ x i, s.inodes x = some i → FileOk (s.fileOf i) (N x)
  apart : ∀ x i y j, s.inodes x = some i → s.inodes y = some j → x ≠ y →
    FilesApart (s.fileOf i) (N x) (s.fileOf j) (N y)

namespace StoreInv

variable {N : ℕ → ℕ → ℕ → Option ℕ} {x : ℕ} {i i' : Inode} {ν' : ℕ → ℕ → Option ℕ}

theorem stored_file (hi : s.inodes x = some i) : s.stored.file x = some (s.fileOf i).sparse := by
  simp [Vfs.stored, hi]

/-- One file is changed, or is new. `f` is what was in its place, if nothing an empty file. -/
theorem update (h : StoreInv s N) {f : OpenFile} {ν : ℕ → ℕ → Option ℕ}
    (hinodes : s'.inodes = Function.update s.inodes x (some i')) (hlt : x < 2 ^ 64)
    (htype : i'.type = .file) (hok : FileOk (s'.fileOf i') ν') (hnodes : f.nodes = s.nodes)
    (hpages : f.pages = s.bytes)
    (hapart : ∀ y j, s.inodes y = some j → y ≠ x → FilesApart f ν (s.fileOf j) (N y))
    (hothers : OthersKept f ν (s'.fileOf i') ν') :
    StoreInv s' (Function.update N x ν') ∧
      s'.stored.file = Function.update s.stored.file x (some (s'.fileOf i').sparse) := by
  have hkept := fun y j (hj : s.inodes y = some j) hyx =>
    (hapart y j hj hyx).kept (h.ok y j hj) hnodes.symm hpages.symm hothers
  have hold : ∀ {y j}, s'.inodes y = some j → (y = x ∧ j = i') ∨ (y ≠ x ∧ s.inodes y = some j) :=
    fun {y j} hj => update_some_cases (hinodes ▸ hj)
  refine ⟨⟨fun y j hj => ?_, fun y j hj => ?_, fun y j hj => ?_, fun y j z k hj hk hne => ?_⟩,
    funext fun y => ?_⟩
  · rcases hold hj with ⟨rfl, rfl⟩ | ⟨-, hj⟩
    · exact hlt
    · exact h.lt y j hj
  · rcases hold hj with ⟨rfl, rfl⟩ | ⟨-, hj⟩
    · exact htype
    · exact h.type y j hj
  · rcases hold hj with ⟨rfl, rfl⟩ | ⟨hyx, hj⟩
    · rw [Function.update_self]
      exact hok
    · rw [Function.update_of_ne hyx]
      exact (hkept y j hj hyx).2.1
  · rcases hold hj with ⟨rfl, rfl⟩ | ⟨hyx, hj⟩ <;> rcases hold hk with ⟨rfl, rfl⟩ | ⟨hzx, hk⟩
    · exact absurd rfl hne
    · rw [Function.update_self, Function.update_of_ne hzx]
      exact (hkept z k hk hzx).2.2.2
    · rw [Function.update_self, Function.update_of_ne hyx]
      exact (hkept y j hj hyx).2.2.2.symm
    · rw [Function.update_of_ne hyx, Function.update_of_ne hzx]
      have hap := h.apart y j z k hj hk hne
      refine ⟨hap.node, fun p q hq => ?_⟩
      have hp := (hkept y j hj hyx).1 p
      have hq' := (hkept z k hk hzx).1 q
      have := hap.page p q (hq' ▸ hq)
      rw [← hp, ← hq'] at this
      exact this
  · by_cases hyx : y = x
    · subst hyx
      rw [Function.update_self]
      exact stored_file (by rw [hinodes, Function.update_self])
    · rw [Function.update_of_ne hyx]
      have hy : s'.inodes y = s.inodes y := by rw [hinodes, Function.update_of_ne hyx]
      cases hj : s.inodes y with
      | none => simp [Vfs.stored, hy, hj]
      | some j =>
        rw [stored_file hj, stored_file (hy.trans hj)]
        exact congrArg some (hkept y j hj hyx).2.2.1

/-- A file that is there is changed. -/
theorem change (h : StoreInv s N) (hi : s.inodes x = some i)
    (hinodes : s'.inodes = Function.update s.inodes x (some i')) (htype : i'.type = .file)
    (hok : FileOk (s'.fileOf i') ν') (hothers : OthersKept (s.fileOf i) (N x) (s'.fileOf i') ν') :
    StoreInv s' (Function.update N x ν') ∧
      s'.stored.file = Function.update s.stored.file x (some (s'.fileOf i').sparse) :=
  h.update hinodes (h.lt x i hi) htype hok rfl rfl
    (fun y j hj hyx => h.apart x i y j hi hj hyx.symm) hothers

/-- The pages of the files are the same. -/
theorem kept (h : StoreInv s N) (hinodes : s'.inodes = s.inodes) (hnodes : s'.nodes = s.nodes)
    (hbytes : ∀ q, s.FilePage q →
      s'.bytes.len q = s.bytes.len q ∧ ∀ i, s'.bytes.cell q i = s.bytes.cell q i) :
    StoreInv s' N ∧ s'.stored.file = s.stored.file := by
  have hkept : ∀ {y j}, s.inodes y = some j →
      (∀ k, (s'.fileOf j).pageOf (N y) k = (s.fileOf j).pageOf (N y) k) ∧
        FileOk (s'.fileOf j) (N y) ∧
        (s'.fileOf j).sparse = (s.fileOf j).sparse := fun {y j} hj => by
    have hf := h.ok y j hj
    refine hf.kept (h := s'.nodes) (g := s'.bytes) (fun _ => ?_) fun k hk => hbytes _ ?_
    · rw [hnodes]
      exact ⟨rfl, fun _ => rfl⟩
    · exact ⟨y, j, k, hj, hf.lt k hk, hf.page_eq (hf.lt k hk), hk⟩
  refine ⟨⟨fun y j hj => ?_, fun y j hj => ?_, fun y j hj => ?_, fun y j z k hj hk hne => ?_⟩,
    funext fun y => ?_⟩
  · exact h.lt y j (hinodes ▸ hj)
  · exact h.type y j (hinodes ▸ hj)
  · exact (hkept (hinodes ▸ hj)).2.1
  · rw [hinodes] at hj hk
    have hap := h.apart y j z k hj hk hne
    refine ⟨hap.node, fun p q hq => ?_⟩
    rw [(hkept hk).1] at hq ⊢
    rw [(hkept hj).1]
    exact hap.page p q hq
  · cases hj : s.inodes y with
    | none => simp [Vfs.stored, hinodes, hj]
    | some j =>
      rw [stored_file hj, stored_file ((congrFun hinodes y).trans hj), (hkept hj).2.2]

end StoreInv

/-! ## The calls -/

section Names

variable {d d' : Dentries} {n parent : ℕ} {block : Dentry} {name : List (BitVec 8)}
  {file : BitVec 64}

theorem newDentry_target {pages pages' : Heap (BitVec 64)} {e : Dentry}
    (h : newDentry src block name file pages = .ok (e, pages')) :
    e.target = if file = 0 then none else some file.toNat := by
  unfold newDentry at h
  split_ifs at h ⊢ with hfile
  · obtain ⟨⟨p, pages₂⟩, -, h⟩ := bind_eq_ok.1 h
    obtain ⟨⟨folder, pages₁⟩, hfolder, h⟩ := bind_eq_ok.1 h
    cases hfolder
    obtain ⟨name', -, h⟩ := bind_eq_ok.1 h
    cases h
    rfl
  · obtain ⟨⟨folder, pages₁⟩, hfolder, h⟩ := bind_eq_ok.1 h
    cases hfolder
    obtain ⟨name', -, h⟩ := bind_eq_ok.1 h
    cases h
    rfl

/-- The new dentry names the file, the others name what they did. -/
theorem createDentry_targets (hn : d.entries n = none)
    (hparent : parent = 0 ∨ d.entries parent ≠ none)
    (h : createDentry src n block parent name file d = .ok d') :
    d'.targets = Function.update d.targets n (if file = 0 then none else some file.toNat) := by
  funext q
  by_cases hpos : parent = 0
  · subst hpos
    unfold createDentry at h
    simp only [ne_eq, not_true_eq_false, if_false, pure_eq_ok, ok_bind] at h
    obtain ⟨⟨e, pages⟩, hnew, h⟩ := bind_eq_ok.1 h
    cases h
    by_cases hq : q = n
    · rw [hq, Function.update_self, Dentries.targets]
      change Option.bind (Function.update d.entries n (some e) n) _ = _
      rw [Function.update_self]
      exact newDentry_target hnew
    · rw [Function.update_of_ne hq, Dentries.targets, Dentries.targets]
      change Option.bind (Function.update d.entries n (some e) q) _ = _
      rw [Function.update_of_ne hq]
  · obtain ⟨dp, hdp⟩ := Option.ne_none_iff_exists'.1 (hparent.resolve_left hpos)
    have hne : n ≠ parent := by
      rintro rfl
      rw [hn] at hdp
      cases hdp
    obtain ⟨e, pages, hnew, -, -, hentries⟩ := createDentry_cases hpos hdp hne h
    rw [Dentries.targets, hentries]
    by_cases hq : q = n
    · rw [hq, Function.update_self, createdEntries, Function.update_of_ne hne, Function.update_self]
      exact (newDentry_target hnew :)
    · rw [Function.update_of_ne hq, Dentries.targets, createdEntries]
      by_cases hqp : q = parent
      · rw [hqp, Function.update_self, hdp]
        rfl
      · rw [Function.update_of_ne hqp, Function.update_of_ne hq]

end Names

section Calls

variable {x : ℕ} {i : Inode}

theorem inode_eq_ok : s.inode x = .ok i ↔ s.inodes x = some i := by
  unfold Vfs.inode
  cases s.inodes x <;> simp

theorem desc_eq_ok {fd : ℕ} {d : FileDescriptor} : s.desc fd = .ok d ↔ s.descs fd = some d := by
  unfold Vfs.desc
  cases s.descs fd <;> simp

theorem entry_eq_ok {d : Dentries} {n : ℕ} {e : Dentry} :
    d.entry n = .ok e ↔ d.entries n = some e := by
  unfold Dentries.entry
  cases d.entries n <;> simp

/-- A path that is opened leads to a name, and the descriptor is new. -/
theorem fileOpenPath_cases (henv : env.Sound) {proc : ℕ} {path fd : BitVec 64}
    (h : s.fileOpenPath env proc path = .ok (fd, s')) : (fd = 0 ∧ s' = s.irqDisable) ∨
    ∃ n x i, s.dentries.targets n = some x ∧ s.inodes x = some i ∧ fd ≠ 0 ∧
      s.descs fd.toNat = none ∧ s' = { s with
        sie := true
        inodes := Function.update s.inodes x (some { i with linkRefs := i.linkRefs + 1 })
        descs := Function.update s.descs fd.toNat (some ⟨x, 0⟩) } := by
  obtain ⟨n, -, h⟩ := bind_eq_ok.mp h
  split_ifs at h
  · cases h
    exact Or.inl ⟨rfl, rfl⟩
  obtain ⟨d, hd, h⟩ := bind_eq_ok.mp h
  split_ifs at h with htype hinode
  · cases h
    exact Or.inl ⟨rfl, rfl⟩
  · cases h
    exact Or.inl ⟨rfl, rfl⟩
  obtain ⟨⟨fd', s₁⟩, hopen, h⟩ := bind_eq_ok.mp h
  obtain ⟨i, hi, hopen⟩ := bind_eq_ok.mp hopen
  rw [if_neg hinode] at hopen
  obtain ⟨a, halloc, hopen⟩ := bind_eq_ok.mp hopen
  obtain ⟨hpos, hlt, hfree⟩ := henv.descriptor halloc
  have ha : (BitVec.ofNat 64 a).toNat = a := by rw [BitVec.toNat_ofNat, Nat.mod_eq_of_lt hlt]
  cases hopen
  cases h
  have hentry : s.dentries.entries n = some d := entry_eq_ok.mp hd
  refine Or.inr ⟨n, d.inode.toNat, i, ?_, inode_eq_ok.mp hi, fun h0 => ?_, ?_, ?_⟩
  · rw [Dentries.targets, hentry]
    exact if_pos (not_not.mp htype)
  · rw [h0] at ha
    exact hpos.ne ha
  · rw [ha]
    exact hfree
  · rw [ha]
    rfl

/-- A path that leads to a file is opened if there is memory. -/
theorem fileOpenPath_ok {proc n a : ℕ} {path : BitVec 64} {d : Dentry}
    (hpath : dentryGetPath s.dentries env.fuel (s.procs proc).workingDir
      (slice (s.bytes.cell path.toNat) 0 (s.bytes.len path.toNat)) = .ok n) (hn : n ≠ 0)
    (hd : s.dentries.entries n = some d) (htype : d.type = .other) (hinode : d.inode ≠ 0)
    (hi : s.inodes d.inode.toNat = some i)
    (ha : (env.alloc false).descriptor s.descs = .ok a) :
    ∃ s', s.fileOpenPath env proc path = .ok (BitVec.ofNat 64 a, s') ∧
      s'.descs = Function.update s.descs a (some ⟨d.inode.toNat, 0⟩) ∧ s'.bytes = s.bytes := by
  have hpath' : dentryGetPath s.irqDisable.dentries env.fuel (s.irqDisable.procs proc).workingDir
      (slice (s.irqDisable.bytes.cell path.toNat) 0 (s.irqDisable.bytes.len path.toNat)) =
        .ok n := hpath
  have hd' : s.irqDisable.dentries.entry n = .ok d := entry_eq_ok.mpr hd
  have hi' : s.irqDisable.inode d.inode.toNat = .ok i := inode_eq_ok.mpr hi
  have ha' : (env.alloc (s.irqDisable.setInode d.inode.toNat
      { i with linkRefs := i.linkRefs + 1 }).sie).descriptor (s.irqDisable.setInode d.inode.toNat
        { i with linkRefs := i.linkRefs + 1 }).descs = .ok a := ha
  simp only [Vfs.fileOpenPath, hpath', hd', ok_bind, if_neg hn, if_neg (not_not.mpr htype),
    if_neg hinode, Vfs.fileDescriptorOpen, hi', ha', pure_eq_ok]
  exact ⟨_, rfl, rfl, rfl⟩

/-- The file of an open descriptor, at its position. -/
theorem openFile_eq {fd : ℕ} {d : FileDescriptor} (hd : s.descs fd = some d)
    (hi : s.inodes d.file = some i) :
    s.openFile fd = .ok { s.fileOf i with seekPos := d.seekPos.toNat } := by
  rw [Vfs.openFile, desc_eq_ok.mpr hd, ok_bind, inode_eq_ok.mpr hi]
  rfl

/-- A file that is opened is one of the store. -/
theorem stored_of_openFile {fd : ℕ} {f : OpenFile} (h : s.openFile fd = .ok f) :
    ∃ d v, s.stored.desc fd = some d ∧ s.stored.file d.file = some v := by
  obtain ⟨d, i, hd, hi, -⟩ := Vfs.openFile_cases h
  exact ⟨d, _, desc_eq_ok.mp hd, StoreInv.stored_file (inode_eq_ok.mp hi)⟩

/-- What is set of a descriptor and its file. -/
theorem setOpenFile_ok {fd : ℕ} {d : FileDescriptor} (hd : s.descs fd = some d)
    (hi : s.inodes d.file = some i) (f : OpenFile) : ∃ s', s.setOpenFile fd f = .ok s' ∧
      s'.inodes =
        Function.update s.inodes d.file (some { i with size := BitVec.ofNat 64 f.size }) ∧
      s'.descs =
        Function.update s.descs fd (some { d with seekPos := BitVec.ofNat 64 f.seekPos }) ∧
      s'.nodes = f.nodes ∧ s'.bytes = f.pages ∧ s'.dentries = s.dentries := by
  rw [Vfs.setOpenFile, desc_eq_ok.mpr hd, ok_bind, inode_eq_ok.mpr hi]
  exact ⟨_, rfl, rfl, rfl, rfl, rfl, rfl⟩

theorem loadBytes_eq (h : Heap (BitVec 8)) (p : ℕ) : ∀ n i, i + n ≤ h.len p →
    Vfs.loadBytes h p n i = .ok (slice (h.cell p) i n)
  | 0, _, _ => rfl
  | n + 1, i, hle => by
    rw [Vfs.loadBytes, Heap.load_eq_ok (by omega), ok_bind, loadBytes_eq h p n (i + 1) (by omega),
      ok_bind, slice_succ]
    rfl

end Calls

end Toastium
