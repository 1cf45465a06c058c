import Toastium.KernelList
import Toastium.Strings

/-!
# Directory entries

A `dentry` is a folder, with the list of its children, or a file. `create_dentry` appends to the
list of the parent, and `dentry_get_path` of `dentry.c` walks from a dentry along a path, one
`get_child` for each component.

A dentry has the 64 words of its block : the list is at word 33, the parent at word 38, and the
words from 39 on are what was there before. An inode is not the section of a list.

`NameTree` is the tree that the calls of `create_dentry` build, with what a path stands for in
it. `DentryTree.holds` : the dentries hold that tree, as far as `get_child` looks at it, in every
state that `init_dentry` and `create_dentry` lead to.
-/

namespace Toastium

/-! ## The code : dentries -/

/-- `DENTRY_TYPES`. -/
inductive DentryType
  | folder
  | other
  deriving DecidableEq, Repr

/-- `list`. -/
structure KernelList where
  firstSection : BitVec 64
  sectionSize : BitVec 64
  itemCnt : BitVec 64
  itemSize : BitVec 64
  deriving DecidableEq, Repr

/-- `dentry`, in its block. The list is also the union with the inode. -/
structure Dentry where
  name : List (BitVec 8)
  type : DentryType
  children : KernelList
  openRefs : BitVec 32
  linkRefs : BitVec 32
  parent : BitVec 64
  slack : ℕ → BitVec 64

namespace Dentry

/-- `inode`, the first word of the union. -/
def inode (d : Dentry) : BitVec 64 :=
  d.children.firstSection

/-- A word of the block, behind the name and the type. -/
def word (d : Dentry) (i : ℕ) : BitVec 64 :=
  match i with
  | 33 => d.children.firstSection
  | 34 => d.children.sectionSize
  | 35 => d.children.itemCnt
  | 36 => d.children.itemSize
  | 37 => d.linkRefs ++ d.openRefs
  | 38 => d.parent
  | i => d.slack i

/-- What is `k` lists behind the list, read as a list. -/
def listAt (d : Dentry) (k : ℕ) : ListHeader :=
  ⟨(d.word (33 + 4 * k)).toNat, (d.word (35 + 4 * k)).toNat, (d.word (36 + 4 * k)).toNat⟩

/-- `list_iter_create`, for the children. -/
def listIterCreate (d : Dentry) : ListIter :=
  ⟨0, 0, d.children.firstSection.toNat, ((d.children.sectionSize - 8) / d.children.itemSize).toNat⟩

end Dentry

/-- The dentries, the sections of their lists, and `root_dentry_folder`. -/
structure Dentries where
  pages : Heap (BitVec 64)
  entries : ℕ → Option Dentry
  root : ℕ

namespace Dentries

/-- `*dentry`. -/
def entry (s : Dentries) (n : ℕ) : Except (Fault Panic) Dentry :=
  match s.entries n with
  | some d => .ok d
  | none => .error (.wild n 0)

/-- `*dentry = d`. -/
def setEntry (s : Dentries) (n : ℕ) (d : Dentry) : Dentries :=
  { s with entries := Function.update s.entries n (some d) }

/-- `link_refs += 1`, as in `dentry_inc_link`. -/
def incLink (s : Dentries) (n : ℕ) : Except (Fault Panic) Dentries := do
  let d ← s.entry n
  return s.setEntry n { d with linkRefs := d.linkRefs + 1 }

end Dentries

/-- The loop of `get_child`, at most `fuel` times. -/
def getChildFrom (s : Dentries) (item : Dentry) (childName : List (BitVec 8)) :
    ℕ → ListIter → Except (Fault Panic) ℕ
  | 0, _ => .error .fuel
  | fuel + 1, iter =>
    if iter.curUpto < (item.listAt iter.curList).itemCnt then do
      let (sect, word, iter) ← listIterNext item.listAt s.pages iter
      let child ← s.pages.load sect word
      let d ← s.entry child.toNat
      if strcmp d.name childName = 0 then return child.toNat
      getChildFrom s item childName fuel iter
    else .ok 0

/-- `"."`. -/
def dotName : List (BitVec 8) :=
  bytesOf ['.']

/-- `".."`. -/
def dotDotName : List (BitVec 8) :=
  bytesOf ['.', '.']

/-- `get_child`. -/
def getChild (s : Dentries) (fuel item : ℕ) (childName : List (BitVec 8)) :
    Except (Fault Panic) ℕ := do
  if strcmp childName dotName = 0 then return item
  let d ← s.entry item
  if strcmp childName dotDotName = 0 then return d.parent.toNat
  getChildFrom s d childName fuel d.listIterCreate

/-- `insert_child`. -/
def insertChild (src : PageSource) (folder dentryItem : ℕ) (s : Dentries) :
    Except (Fault Panic) Dentries := do
  let s ← s.incLink dentryItem
  let d ← s.entry folder
  let pages ← listAppend src s.pages d.children.firstSection.toNat d.children.itemCnt.toNat
    (BitVec.ofNat 64 dentryItem)
  return { s with pages := pages }.setEntry folder
    { d with children := { d.children with itemCnt := d.children.itemCnt + 1 } }

/-- The dentry that `create_dentry` writes over `block`. A folder if `file` is NULL. -/
def newDentry (src : PageSource) (block : Dentry) (name : List (BitVec 8)) (file : BitVec 64)
    (pages : Heap (BitVec 64)) : Except (Fault Panic) (Dentry × Heap (BitVec 64)) := do
  let folder := { block with linkRefs := 0, openRefs := 0 }
  let (folder, pages) ←
    if file = 0 then do
      let (section₀, pages) ← src.alloc .outOfFreePages pages
      pure ({ folder with
        type := .folder, children := ⟨BitVec.ofNat 64 section₀, 4096, 0, 8⟩ }, pages)
    else pure ({ folder with
      type := .other, children := { folder.children with firstSection := file } }, pages)
  let name ← strscpy (name ++ [0]) 256
  return ({ folder with name := name }, pages)

/-- `create_dentry`, where `mem_alloc` returns `folder` with the block `block`. -/
def createDentry (src : PageSource) (folder : ℕ) (block : Dentry) (parent : ℕ)
    (name : List (BitVec 8)) (file : BitVec 64) (s : Dentries) : Except (Fault Panic) Dentries := do
  let s ← if parent ≠ 0 then s.incLink parent else pure s
  let (d, pages) ← newDentry src block name file s.pages
  let s := { s with pages := pages }.setEntry folder d
  if parent ≠ 0 then insertChild src parent folder s else return s

/-- The name of the example file. -/
def exampleName : List (BitVec 8) :=
  bytesOf ['e', 'x', 'a', 'm', 'p', 'l', 'e', '.', 't', 'x', 't']

/-- `init_dentry`, where `mem_alloc` returns `folder` and `example`, and the file of the example
is `file`. -/
def initDentry (src : PageSource) (folder example₀ : ℕ) (block block' : Dentry)
    (file : BitVec 64) (s : Dentries) : Except (Fault Panic) Dentries := do
  let s ← createDentry src folder block 0 [] 0 s
  let d ← s.entry folder
  let s := { s.setEntry folder { d with linkRefs := 100 } with root := folder }
  createDentry src example₀ block' folder exampleName file s

/-! ## The code : paths -/

/-- `'/'`. -/
def slash : BitVec 8 :=
  0x2f

/-- The loop of `dentry_get_path` from `curChar` on, at most `fuel` times. `filename` is a copy
of what is left of the path. -/
def getPathFrom (s : Dentries) : ℕ → ℕ → List (BitVec 8) → Except (Fault Panic) ℕ
  | 0, _, _ => .error .fuel
  | _ + 1, _, [] => .error (.wild 0 0)
  | fuel + 1, curNode, c :: rest =>
    if c = 0 then .ok curNode
    else do
      let nextSlash ← strchr slash (c :: rest)
      let nameSize ← match nextSlash with
        | some i => pure i
        | none => strlen (c :: rest)
      if nameSize > 256 then return 0
      let filename ← strscpy (c :: rest) 257
      let curNode ← getChild s fuel curNode filename
      if curNode = 0 then return 0
      getPathFrom s fuel curNode ((c :: rest).drop (nameSize + 1))

/-- `dentry_get_path`. The memory from `path` on is `path`, as far as it can be read. -/
def dentryGetPath (s : Dentries) (fuel cwd : ℕ) (path : List (BitVec 8)) :
    Except (Fault Panic) ℕ :=
  match path with
  | [] => .error (.wild 0 0)
  | c :: rest => if c = slash then getPathFrom s fuel s.root rest else getPathFrom s fuel cwd path

/-! ## Names -/

/-- The tree of names that the calls build : what a path should resolve to. -/
structure NameTree where
  root : ℕ
  name : ℕ → List (BitVec 8)
  up : ℕ → ℕ
  kids : ℕ → List ℕ

namespace NameTree

/-- A new dentry `n` in the folder `parent`. A name has at most 255 bytes. -/
def add (t : NameTree) (n parent : ℕ) (name : List (BitVec 8)) : NameTree where
  root := t.root
  name := Function.update t.name n (name.take 255)
  up := Function.update t.up n parent
  kids := Function.update (Function.update t.kids parent (t.kids parent ++ [n])) n []

/-- The root alone. -/
def single (root : ℕ) : NameTree :=
  ⟨root, fun _ => [], fun _ => 0, fun _ => []⟩

/-- One component. -/
def child (t : NameTree) (n : ℕ) (c : List (BitVec 8)) : ℕ :=
  if c = dotName then n
  else if c = dotDotName then t.up n
  else ((t.kids n).find? fun m => t.name m = c).getD 0

/-- One component after another, NULL if one is missing or longer than 256 bytes. -/
def resolveFrom (t : NameTree) : ℕ → List (List (BitVec 8)) → ℕ
  | n, [] => n
  | n, c :: cs =>
    if c.length > 256 ∨ t.child n c = 0 then 0 else t.resolveFrom (t.child n c) cs

/-- Where a path starts, and what is left of it. -/
def start (t : NameTree) (cwd : ℕ) : List (BitVec 8) → ℕ × List (BitVec 8)
  | [] => (cwd, [])
  | c :: rest => if c = slash then (t.root, rest) else (cwd, c :: rest)

/-- What a path stands for : its components are what is between slashes. -/
def resolve (t : NameTree) (cwd : ℕ) (path : List (BitVec 8)) : ℕ :=
  t.resolveFrom (t.start cwd path).1 ((path.splitOn slash).filter (· ≠ []))

end NameTree

/-! ## Trees that are built -/

/-- Where `mem_alloc` may put a dentry. -/
structure FreeBlock (s : Dentries) (n : ℕ) : Prop where
  pos : 0 < n
  lt : n < 2 ^ 64
  free : s.entries n = none

/-- The inodes are not sections of lists. -/
def InodesApart (s : Dentries) : Prop :=
  ∀ n d, s.entries n = some d → d.type = .other → s.pages.len d.inode.toNat = 0

/-- The dentries after `init_dentry` and any calls of `create_dentry`, and the tree of their
names. -/
inductive DentryTree (src : PageSource) : Dentries → NameTree → Prop
  | init {s s' : Dentries} {folder example₀ : ℕ} {block block' : Dentry} {file : BitVec 64} :
    (∀ n, s.entries n = none) → s.pages.len 0 = 0 → FreeBlock s folder → FreeBlock s example₀ →
    folder ≠ example₀ → file ≠ 0 →
    initDentry src folder example₀ block block' file s = .ok s' → InodesApart s' →
    DentryTree src s' ((NameTree.single folder).add example₀ folder exampleName)
  | create {s s' : Dentries} {t : NameTree} {n parent : ℕ} {block d : Dentry}
      {name : List (BitVec 8)} {file : BitVec 64} :
    DentryTree src s t → FreeBlock s n → s.entries parent = some d → d.type = .folder →
    0 ∉ name → createDentry src n block parent name file s = .ok s' → InodesApart s' →
    DentryTree src s' (t.add n parent name)

/-- The list of a folder with the children `kids` : the first one can be found. -/
structure FolderList (pages : Heap (BitVec 64)) (l : KernelList) (kids : List ℕ) : Prop where
  cnt : l.itemCnt.toNat = kids.length
  len : pages.len l.firstSection.toNat = 512
  link : pages.cell l.firstSection.toNat 0 = 0
  first : ∀ c ∈ kids.head?, pages.cell l.firstSection.toNat 1 = BitVec.ofNat 64 c

/-- The dentries hold the tree. -/
structure HoldsTree (s : Dentries) (t : NameTree) : Prop where
  root : t.root = s.root
  root_ne : s.entries s.root ≠ none
  null : s.entries 0 = none
  page_null : s.pages.len 0 = 0
  lt : ∀ n, s.entries n ≠ none → n < 2 ^ 64
  kids : ∀ n, ∀ c ∈ t.kids n, s.entries c ≠ none
  nodup : ∀ n, (t.kids n).Nodup
  name : ∀ n d, s.entries n = some d → d.name = t.name n
  list : ∀ n d, s.entries n = some d → d.type = .folder → FolderList s.pages d.children (t.kids n)
  apart : ∀ n d n' d', s.entries n = some d → s.entries n' = some d' → d.type = .folder →
    d'.type = .folder → d.children.firstSection = d'.children.firstSection → n = n'
  inodes : InodesApart s

section Create

variable {src : PageSource} {s s' : Dentries} {t : NameTree} {n parent : ℕ} {block : Dentry}
  {name : List (BitVec 8)} {file : BitVec 64}

/-- What a new dentry is. -/
theorem newDentry_cases {pages pages' : Heap (BitVec 64)} {d : Dentry} (hname : 0 ∉ name)
    (h : newDentry src block name file pages = .ok (d, pages')) :
    d.name = name.take 255 ∧
      (d.type = .folder ∧ (∃ p, src.next pages = some p ∧ pages' = pages.push p 512 ∧
          d.children = ⟨BitVec.ofNat 64 p, 4096, 0, 8⟩) ∨
        file ≠ 0 ∧ d.type = .other ∧ pages' = pages) := by
  unfold newDentry at h
  rw [strscpy_eq hname] at h
  split_ifs at h with hfile
  · obtain ⟨⟨p, h₂⟩, halloc, h⟩ := bind_eq_ok.1 h
    obtain ⟨hnext, rfl⟩ := Source.alloc_eq_ok.1 halloc
    cases h
    exact ⟨rfl, .inl ⟨rfl, p, hnext, rfl, rfl⟩⟩
  · cases h
    exact ⟨rfl, .inr ⟨hfile, rfl, rfl⟩⟩

theorem entry_eq {d : Dentry} (h : s.entries n = some d) : s.entry n = .ok d := by
  rw [Dentries.entry, h]

theorem incLink_eq {d : Dentry} (h : s.entries n = some d) :
    s.incLink n = .ok (s.setEntry n { d with linkRefs := d.linkRefs + 1 }) := by
  rw [Dentries.incLink, entry_eq h]
  rfl

theorem insertChild_cases {d dp : Dentry} (hparent : s.entries parent = some dp)
    (hn : s.entries n = some d) (hne : n ≠ parent) (h : insertChild src parent n s = .ok s') :
    listAppend src s.pages dp.children.firstSection.toNat dp.children.itemCnt.toNat
        (BitVec.ofNat 64 n) = .ok s'.pages ∧ s'.root = s.root ∧
      s'.entries = Function.update (Function.update s.entries n
        (some { d with linkRefs := d.linkRefs + 1 })) parent (some { dp with
          children := { dp.children with itemCnt := dp.children.itemCnt + 1 } }) := by
  have hentry : (s.setEntry n { d with linkRefs := d.linkRefs + 1 }).entry parent = .ok dp :=
    entry_eq ((Function.update_of_ne hne.symm _ _).trans hparent)
  unfold insertChild at h
  rw [incLink_eq hn, ok_bind, hentry, ok_bind] at h
  obtain ⟨pages, happ, h⟩ := bind_eq_ok.1 h
  cases h
  exact ⟨happ, rfl, rfl⟩

/-- The dentries with the new one `d` in the folder `dp` at `parent`. -/
def createdEntries (s : Dentries) (n parent : ℕ) (d dp : Dentry) : ℕ → Option Dentry :=
  Function.update (Function.update s.entries n (some { d with linkRefs := d.linkRefs + 1 })) parent
    (some { dp with
      linkRefs := dp.linkRefs + 1
      children := { dp.children with itemCnt := dp.children.itemCnt + 1 } })

/-- What `create_dentry` in the folder `dp` changes. -/
theorem createDentry_cases {dp : Dentry} (hpos : parent ≠ 0) (hparent : s.entries parent = some dp)
    (hne : n ≠ parent) (h : createDentry src n block parent name file s = .ok s') :
    ∃ d pages, newDentry src block name file s.pages = .ok (d, pages) ∧
      listAppend src pages dp.children.firstSection.toNat dp.children.itemCnt.toNat
        (BitVec.ofNat 64 n) = .ok s'.pages ∧ s'.root = s.root ∧
      s'.entries = createdEntries s n parent d dp := by
  unfold createDentry at h
  rw [if_pos hpos, incLink_eq hparent, ok_bind] at h
  obtain ⟨⟨d, pages⟩, hd, h⟩ := bind_eq_ok.1 h
  dsimp only at h
  rw [if_pos hpos] at h
  have hentry : (Function.update (Function.update s.entries parent
      (some { dp with linkRefs := dp.linkRefs + 1 })) n (some d)) parent =
      some { dp with linkRefs := dp.linkRefs + 1 } := by
    rw [Function.update_of_ne hne.symm, Function.update_self]
  obtain ⟨happ, hroot, hentries⟩ := insertChild_cases hentry (Function.update_self _ _ _) hne h
  refine ⟨d, pages, hd, happ, hroot, hentries.trans ?_⟩
  funext q
  simp only [createdEntries, Dentries.setEntry, Function.update_apply]
  split_ifs <;> rfl

theorem createdEntries_ne_none {d dp : Dentry} (hparent : s.entries parent ≠ none) (q : ℕ) :
    createdEntries s n parent d dp q ≠ none ↔ q = n ∨ s.entries q ≠ none := by
  simp only [createdEntries, Function.update_apply]
  split_ifs with hq hq'
  · simp [hq, hparent]
  · simp [hq']
  · simp [hq']

/-- A dentry is the folder, the new one or another that was there. -/
theorem createdEntries_cases {d dp d' : Dentry} {q : ℕ}
    (hq : createdEntries s n parent d dp q = some d') :
    (q = parent ∧ d' = { dp with
      linkRefs := dp.linkRefs + 1
      children := { dp.children with itemCnt := dp.children.itemCnt + 1 } }) ∨
    (q = n ∧ d' = { d with linkRefs := d.linkRefs + 1 }) ∨
    (q ≠ parent ∧ q ≠ n ∧ s.entries q = some d') := by
  rcases update_some_cases hq with hq | ⟨hqp, hq⟩
  · exact .inl hq
  rcases update_some_cases hq with hq | ⟨hqn, hq⟩
  · exact .inr (.inl hq)
  · exact .inr (.inr ⟨hqp, hqn, hq⟩)

/-- A folder that was there keeps its section. -/
theorem createdEntries_folder {d dp d' : Dentry} {q : ℕ}
    (hparent : s.entries parent = some dp) (hfolder : dp.type = .folder)
    (hq : createdEntries s n parent d dp q = some d') (htype : d'.type = .folder) (hqn : q ≠ n) :
    ∃ d₀, s.entries q = some d₀ ∧ d₀.type = .folder ∧
      d'.children.firstSection = d₀.children.firstSection := by
  rcases createdEntries_cases hq with ⟨rfl, rfl⟩ | ⟨rfl, -⟩ | ⟨-, -, hq⟩
  · exact ⟨dp, hparent, hfolder, rfl⟩
  · exact absurd rfl hqn
  · exact ⟨d', hq, htype, rfl⟩

/-- The fields of a folder's list after an item is appended. -/
theorem FolderList.append {pages pages' : Heap (BitVec 64)} {l : KernelList} {kids : List ℕ}
    (hl : FolderList pages l kids) (hlt : kids.length + 1 < 2 ^ 64)
    (happ : Appended pages pages' l.firstSection.toNat l.itemCnt.toNat (BitVec.ofNat 64 n)) :
    FolderList pages' { l with itemCnt := l.itemCnt + 1 } (kids ++ [n]) := by
  have hused : pages.len l.firstSection.toNat ≠ 0 := by
    rw [hl.len]
    decide
  refine ⟨?_, (happ.len _ hused).trans hl.len, ?_, fun c hc => ?_⟩
  · change (l.itemCnt + 1).toNat = _
    rw [BitVec.toNat_add, hl.cnt, List.length_append, List.length_singleton]
    exact Nat.mod_eq_of_lt hlt
  · rw [happ.cell _ _ hused fun _ => by omega, hl.link]
  · cases kids with
    | nil =>
      have hcnt : l.itemCnt.toNat = 0 := hl.cnt
      obtain rfl : n = c := by simpa using hc
      have hitem := happ.item (by rw [hcnt]; decide)
      rwa [hcnt] at hitem
    | cons k kids =>
      have hcnt : l.itemCnt.toNat = kids.length + 1 := hl.cnt
      rw [happ.cell _ _ hused fun _ => by omega]
      exact hl.first c hc

/-- The list of another folder stays. -/
theorem FolderList.of_appended {pages pages' : Heap (BitVec 64)} {l : KernelList} {kids : List ℕ}
    {first cnt : ℕ} {v : BitVec 64} (hl : FolderList pages l kids)
    (hne : l.firstSection.toNat ≠ first) (happ : Appended pages pages' first cnt v) :
    FolderList pages' l kids := by
  have hused : pages.len l.firstSection.toNat ≠ 0 := by
    rw [hl.len]
    decide
  refine ⟨hl.cnt, (happ.len _ hused).trans hl.len, ?_, fun c hc => ?_⟩
  · rw [happ.cell _ _ hused fun e => absurd e hne, hl.link]
  · rw [happ.cell _ _ hused fun e => absurd e hne, hl.first c hc]

theorem FolderList.grown {pages pages' : Heap (BitVec 64)} {l : KernelList} {kids : List ℕ}
    (hl : FolderList pages l kids) (hgrown : Grown pages pages') : FolderList pages' l kids := by
  obtain ⟨hlen, hcell⟩ := hgrown l.firstSection.toNat (by rw [hl.len]; decide)
  exact ⟨hl.cnt, hlen.trans hl.len, (hcell 0).trans hl.link,
    fun c hc => (hcell 1).trans (hl.first c hc)⟩

/-- The list of a new folder. -/
theorem FolderList.push {pages : Heap (BitVec 64)} {p : ℕ} (hlt : p < 2 ^ 64) :
    FolderList (pages.push p 512) ⟨BitVec.ofNat 64 p, 4096, 0, 8⟩ [] := by
  have hp : (BitVec.ofNat 64 p).toNat = p := by
    rw [BitVec.toNat_ofNat, Nat.mod_eq_of_lt hlt]
  refine ⟨rfl, ?_, ?_, fun c hc => absurd hc (by simp)⟩
  · rw [hp, Heap.len_push_self]
  · rw [hp, Heap.cell_push_self]

/-- Addresses of dentries are distinct words, so there is room for one more. -/
theorem HoldsTree.length_lt (ht : HoldsTree s t) (hn : FreeBlock s n) (q : ℕ) :
    (t.kids q).length + 1 < 2 ^ 64 := by
  have hsub : (n :: t.kids q).toFinset ⊆ Finset.Ioo 0 (2 ^ 64) := fun c hc => by
    rw [Finset.mem_Ioo]
    rcases List.mem_cons.1 (List.mem_toFinset.1 hc) with rfl | hc
    · exact ⟨hn.pos, hn.lt⟩
    · have hlive := ht.kids q c hc
      exact ⟨Nat.pos_of_ne_zero fun e => hlive (e ▸ ht.null), ht.lt c hlive⟩
  have hnodup : (n :: t.kids q).Nodup :=
    List.nodup_cons.2 ⟨fun h => ht.kids q n h hn.free, ht.nodup q⟩
  have hcard := Finset.card_le_card hsub
  rw [List.toFinset_card_of_nodup hnodup, Nat.card_Ioo, List.length_cons] at hcard
  omega

theorem NameTree.kids_add (q : ℕ) :
    (t.add n parent name).kids q =
      if q = n then [] else if q = parent then t.kids parent ++ [n] else t.kids q := by
  simp only [NameTree.add, Function.update_apply]

/-- The children in the new tree are dentries, -/
theorem HoldsTree.kids_add (ht : HoldsTree s t) {q c : ℕ}
    (hc : c ∈ (t.add n parent name).kids q) : c = n ∨ s.entries c ≠ none := by
  rw [NameTree.kids_add] at hc
  split_ifs at hc with h1 h2
  · cases hc
  · rcases List.mem_append.1 hc with hc | hc
    · exact .inr (ht.kids parent c hc)
    · exact .inl (List.mem_singleton.1 hc)
  · exact .inr (ht.kids q c hc)

/-- each of them once. -/
theorem HoldsTree.nodup_add (ht : HoldsTree s t) (hn : FreeBlock s n) (q : ℕ) :
    ((t.add n parent name).kids q).Nodup := by
  rw [NameTree.kids_add]
  split_ifs
  · exact List.nodup_nil
  · refine List.nodup_append.2 ⟨ht.nodup parent, List.nodup_singleton n, fun c hc m hm e => ?_⟩
    rw [List.mem_singleton] at hm
    exact ht.kids parent c hc (e.trans hm ▸ hn.free)
  · exact ht.nodup q

/-- A new dentry does not change the pages in use. -/
theorem newDentry_grown {pages pages' : Heap (BitVec 64)} {d : Dentry} (hname : 0 ∉ name)
    (h : newDentry src block name file pages = .ok (d, pages')) :
    Grown pages pages' ∧ (pages.len 0 = 0 → pages'.len 0 = 0) := by
  obtain ⟨-, ⟨-, p, hnext, rfl, -⟩ | ⟨-, -, rfl⟩⟩ := newDentry_cases hname h
  · exact ⟨Grown.push (src.fresh hnext) 512,
      fun h0 => by rwa [Heap.len_push_of_ne _ _ (src.pos hnext).ne]⟩
  · exact ⟨Grown.refl _, id⟩

/-- The section of a new folder was not in use. -/
theorem newDentry_section {pages pages' : Heap (BitVec 64)} {d : Dentry} (hname : 0 ∉ name)
    (h : newDentry src block name file pages = .ok (d, pages')) (htype : d.type = .folder) :
    pages.len d.children.firstSection.toNat = 0 ∧ FolderList pages' d.children [] := by
  obtain ⟨-, ⟨-, p, hnext, rfl, hd⟩ | ⟨-, hother, -⟩⟩ := newDentry_cases hname h
  · have hlt : p < 2 ^ 64 := by
      have := src.lt hnext
      omega
    have hp : (BitVec.ofNat 64 p).toNat = p := by
      rw [BitVec.toNat_ofNat, Nat.mod_eq_of_lt hlt]
    rw [hd]
    exact ⟨(congrArg _ hp).trans (src.fresh hnext), FolderList.push hlt⟩
  · rw [htype] at hother
    cases hother

/-- A dentry is created in a folder. -/
theorem HoldsTree.create (ht : HoldsTree s t) (hn : FreeBlock s n) {dp : Dentry}
    (hparent : s.entries parent = some dp) (hfolder : dp.type = .folder) (hname : 0 ∉ name)
    (h : createDentry src n block parent name file s = .ok s') (hinodes : InodesApart s') :
    HoldsTree s' (t.add n parent name) := by
  have hlive : s.entries parent ≠ none := by
    rw [hparent]
    exact Option.some_ne_none dp
  have hpos : parent ≠ 0 := fun e => hlive (e ▸ ht.null)
  have hne : n ≠ parent := fun e => hlive (e ▸ hn.free)
  obtain ⟨d, pages, hnew, happ, hroot, hentries⟩ := createDentry_cases hpos hparent hne h
  obtain ⟨hdname, -⟩ := newDentry_cases hname hnew
  obtain ⟨hgrown, hnull⟩ := newDentry_grown hname hnew
  have hlist := (ht.list parent dp hparent hfolder).grown hgrown
  have happ := listAppend_spec hlist.len hlist.link happ
  have hlive' : ∀ q, s'.entries q ≠ none ↔ q = n ∨ s.entries q ≠ none := fun q => by
    rw [hentries]
    exact createdEntries_ne_none hlive q
  have hcases := @createdEntries_cases s n parent d dp
  rw [← hentries] at hcases
  have hold := @createdEntries_folder s n parent d dp
  rw [← hentries] at hold
  -- the section of a new folder is not that of another
  have hapart : ∀ q d', s'.entries q = some d' → d'.type = .folder → q ≠ n → d.type = .folder →
      d'.children.firstSection ≠ d.children.firstSection := fun q d' hq htype hqn hd he => by
    obtain ⟨d₀, hd₀, hfolder₀, hsect⟩ := hold hparent hfolder hq htype hqn
    have hlen := (ht.list q d₀ hd₀ hfolder₀).len
    rw [← hsect, he, (newDentry_section hname hnew hd).1] at hlen
    cases hlen
  refine ⟨ht.root.trans hroot.symm, ?_, ?_, happ.null (hnull ht.page_null), ?_,
    fun q c hc => (hlive' c).2 (ht.kids_add hc), ht.nodup_add hn, ?_, ?_, ?_, hinodes⟩
  · rw [hroot, hlive']
    exact .inr ht.root_ne
  · by_contra h0
    rcases (hlive' 0).1 h0 with h0 | h0
    · exact hn.pos.ne h0
    · exact h0 ht.null
  · intro q hq
    rcases (hlive' q).1 hq with rfl | hq
    · exact hn.lt
    · exact ht.lt q hq
  · intro q d' hq
    change d'.name = Function.update t.name n (name.take 255) q
    rcases hcases hq with ⟨rfl, rfl⟩ | ⟨rfl, rfl⟩ | ⟨-, hqn, hq⟩
    · rw [Function.update_of_ne hne.symm]
      exact ht.name q dp hparent
    · rw [Function.update_self]
      exact hdname
    · rw [Function.update_of_ne hqn]
      exact ht.name q d' hq
  · intro q d' hq htype
    rw [NameTree.kids_add]
    rcases hcases hq with ⟨rfl, rfl⟩ | ⟨rfl, rfl⟩ | ⟨hqp, hqn, hq₀⟩
    · rw [if_neg hne.symm, if_pos rfl]
      exact hlist.append (ht.length_lt hn q) happ
    · have hparent' : s'.entries parent = some _ := (congrFun hentries parent).trans
        (Function.update_self _ _ _)
      rw [if_pos rfl]
      refine (newDentry_section hname hnew htype).2.of_appended (fun e => ?_) happ
      exact hapart parent _ hparent' hfolder hne.symm htype (BitVec.eq_of_toNat_eq e.symm)
    · rw [if_neg hqn, if_neg hqp]
      refine ((ht.list q d' hq₀ htype).grown hgrown).of_appended (fun e => hqp ?_) happ
      exact ht.apart q d' parent dp hq₀ hparent htype hfolder (BitVec.eq_of_toNat_eq e)
  · intro q d₁ q' d₂ hq hq' h1 h2 he
    have hnode : ∀ {q d'}, s'.entries q = some d' → q = n →
        d' = { d with linkRefs := d.linkRefs + 1 } := fun hq hqn => by
      rcases hcases hq with ⟨hqp, -⟩ | ⟨-, hd⟩ | ⟨-, hqn', -⟩
      · exact absurd (hqn.symm.trans hqp) hne
      · exact hd
      · exact absurd hqn hqn'
    by_cases hqn : q = n <;> by_cases hqn' : q' = n
    · rw [hqn, hqn']
    · obtain rfl := hnode hq hqn
      exact absurd he.symm (hapart q' d₂ hq' h2 hqn' h1)
    · obtain rfl := hnode hq' hqn'
      exact absurd he (hapart q d₁ hq h1 hqn h2)
    · obtain ⟨d₁', hd₁, hf₁, hs₁⟩ := hold hparent hfolder hq h1 hqn
      obtain ⟨d₂', hd₂, hf₂, hs₂⟩ := hold hparent hfolder hq' h2 hqn'
      exact ht.apart q d₁' q' d₂' hd₁ hd₂ hf₁ hf₂ (hs₁.symm.trans (he.trans hs₂))

/-- The root alone. -/
theorem holdsTree_single {d : Dentry} {p : ℕ} (hnone : ∀ q, s.entries q = none)
    (hnull : s.pages.len 0 = 0) (hn : FreeBlock s n) (hnext : src.next s.pages = some p)
    (hdname : d.name = []) (hdtype : d.type = .folder)
    (hd : d.children = ⟨BitVec.ofNat 64 p, 4096, 0, 8⟩) :
    HoldsTree ⟨s.pages.push p 512, Function.update s.entries n (some d), n⟩
      (NameTree.single n) := by
  have hlt : p < 2 ^ 64 := by
    have := src.lt hnext
    omega
  have hentry : ∀ q d', Function.update s.entries n (some d) q = some d' → q = n ∧ d' = d :=
    fun q d' hq => by
      refine (update_some_cases hq).resolve_right fun ⟨_, hq⟩ => ?_
      rw [hnone] at hq
      cases hq
  refine ⟨rfl, ?_, ?_, ?_, fun q hq => ?_, fun q c hc => absurd hc List.not_mem_nil,
    fun _ => List.nodup_nil, fun q d' hq => ?_, fun q d' hq _ => ?_, ?_, fun q d' hq htype => ?_⟩
  · change Function.update s.entries n (some d) n ≠ none
    rw [Function.update_self]
    exact Option.some_ne_none d
  · exact (Function.update_of_ne hn.pos.ne _ _).trans (hnone 0)
  · exact (Heap.len_push_of_ne _ _ (src.pos hnext).ne).trans hnull
  · obtain ⟨d', hd'⟩ := Option.ne_none_iff_exists'.1 hq
    rw [(hentry q d' hd').1]
    exact hn.lt
  · rw [(hentry q d' hq).2]
    exact hdname
  · rw [(hentry q d' hq).2, hd]
    exact FolderList.push hlt
  · intro q d₁ q' d₂ hq hq' _ _ _
    rw [(hentry q d₁ hq).1, (hentry q' d₂ hq').1]
  · rw [(hentry q d' hq).2, hdtype] at htype
    cases htype

theorem HoldsTree.init {folder example₀ : ℕ} {block' : Dentry} (hnone : ∀ q, s.entries q = none)
    (hnull : s.pages.len 0 = 0) (hfolder : FreeBlock s folder) (hexample : FreeBlock s example₀)
    (hne : folder ≠ example₀)
    (h : initDentry src folder example₀ block block' file s = .ok s') (hinodes : InodesApart s') :
    HoldsTree s' ((NameTree.single folder).add example₀ folder exampleName) := by
  obtain ⟨s₁, hroot, h⟩ := bind_eq_ok.1 h
  unfold createDentry at hroot
  simp only [ne_eq, not_true_eq_false, if_false, pure_eq_ok, ok_bind] at hroot
  obtain ⟨⟨d, pages⟩, hnew, hroot⟩ := bind_eq_ok.1 hroot
  obtain ⟨hname, hcases⟩ := newDentry_cases List.not_mem_nil hnew
  rcases hcases with ⟨htype, p, hnext, rfl, hd⟩ | ⟨hfile, -⟩
  · cases hroot
    rw [entry_eq (Function.update_self folder (some d) s.entries), ok_bind] at h
    have hsingle := holdsTree_single (d := { d with linkRefs := 100 }) hnone hnull hfolder hnext
      hname htype hd
    have hfree : FreeBlock ⟨s.pages.push p 512, Function.update s.entries folder
        (some { d with linkRefs := 100 }), folder⟩ example₀ :=
      ⟨hexample.pos, hexample.lt, (Function.update_of_ne hne.symm _ _).trans (hnone _)⟩
    dsimp only [Dentries.setEntry] at h
    rw [Function.update_idem] at h
    exact hsingle.create hfree (Function.update_self _ _ _) htype (by decide) h hinodes
  · exact absurd rfl hfile

/-- Trees that are built are held. -/
theorem DentryTree.holds {s : Dentries} {t : NameTree} (h : DentryTree src s t) :
    HoldsTree s t := by
  induction h with
  | init hnone hnull hfolder hexample hne _ hrun hinodes =>
    exact HoldsTree.init hnone hnull hfolder hexample hne hrun hinodes
  | create _ hn hparent htype hname hrun hinodes ih =>
    exact ih.create hn hparent htype hname hrun hinodes

end Create

end Toastium
