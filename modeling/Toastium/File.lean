import Toastium.Reach
import Toastium.Radix

/-!
# Writing to a file

`file_descriptor_write` copies page by page. `find_page_start` looks the page of an offset
up in one of the inode's 16 radix trees, and allocates it if the offset is at or past the
recorded size. After the copy, `seek_pos` is the end of the written range, and the size
becomes the maximum of the old size and `size + seek_pos`, which counts the written bytes
twice.

`writeCorrect_iff` : on a file without holes, a write of `n` bytes at `p` does what it
should exactly when `n = 0`, or the range is inside the file and `p + 2n` does not exceed
the size either. `fileWrite_correct_iff` carries this through every run.
-/

namespace Toastium

/-! ## The code -/

/-- `inode_type`. -/
inductive InodeType
  | file
  | socket
  | pipe
  | folder
  deriving DecidableEq, Repr

/-- `INODE_FILE_RADIX_LEVEL_DEPTH`. -/
def inodeFileRadixLevelDepth : ℕ := 4

/-- A file descriptor with its inode, the nodes of the radix trees and the file's pages. -/
structure OpenFile where
  type : InodeType
  size : ℕ
  radixRoots : ℕ → ℕ
  seekPos : ℕ
  nodes : Heap (BitVec 64)
  pages : Heap (BitVec 8)

/-- `pg_alloc`, for a page that is used as bytes. -/
abbrev BytePageSource := Source (BitVec 8) 4096 4096

/-- `radix_level` of `find_page_start`. `63 - clz(n)` is the binary logarithm. -/
def radixLevel (pageNum : ℕ) : ℕ :=
  Nat.log2 (pageNum + 1) / inodeFileRadixLevelDepth

/-- The `radix_get` of `find_page_start`. -/
def OpenFile.getPage (f : OpenFile) (pageNum : ℕ) : Except (Fault Panic) ℕ :=
  radixGet f.nodes pageNum inodeFileRadixLevelDepth (radixLevel pageNum + 1)
    (f.radixRoots (radixLevel pageNum))

variable (nodeSrc : NodeSource inodeFileRadixLevelDepth) (pageSrc : BytePageSource)

/-- `find_page_start`. Its loop ends after one pass, as `pg_alloc` does not return NULL. -/
def findPageStart (f : OpenFile) (offset : ℕ) : Except (Fault Panic) (ℕ × OpenFile) := do
  let pageNum := offset / 4096
  let pageLocation ← f.getPage pageNum
  if pageLocation ≠ 0 then return (pageLocation, f)
  if offset ≥ f.size then
    let (pageLocation, pages) ← pageSrc.alloc Panic.outOfFreePages f.pages
    let (_, nodes) ← radixInsert nodeSrc f.nodes (f.radixRoots (radixLevel pageNum)) pageNum
      pageLocation (radixLevel pageNum + 1)
    return (pageLocation, { f with pages := pages, nodes := nodes })
  else .error (.panic .readWriteOutOfBoundsFileDesc)

/-- The `for` loop of `file_descriptor_write`, over the bytes of one page. -/
def writePage (pageStart : ℕ) : List (BitVec 8) → ℕ → Heap (BitVec 8) →
    Except (Fault Panic) (Heap (BitVec 8))
  | [], _, h => .ok h
  | b :: bs, offset, h => do
    let h ← h.store pageStart (offset % 4096) b
    writePage pageStart bs ((offset + 1) % 2 ^ 64) h

/-- `page_end`, the number of bytes written to the page of `offset`. -/
def pageEnd (sizeLeft offset : ℕ) : ℕ :=
  min sizeLeft (4096 - offset % 4096)

theorem pageEnd_pos {sizeLeft : ℕ} (h : 0 < sizeLeft) (offset : ℕ) :
    0 < pageEnd sizeLeft offset := by
  unfold pageEnd
  have := Nat.mod_lt offset (show 0 < 4096 by decide)
  omega

/-- The `while` loop of `file_descriptor_write`. Returns the offset it ends at. -/
def writeFrom (src : List (BitVec 8)) (offset : ℕ) (f : OpenFile) :
    Except (Fault Panic) (ℕ × OpenFile) :=
  if _hpos : 0 < src.length then do
    let (pageStart, f) ← findPageStart nodeSrc pageSrc f offset
    let n := pageEnd src.length offset
    let pages ← writePage pageStart (src.take n) offset f.pages
    writeFrom (src.drop n) ((offset + n) % 2 ^ 64) { f with pages := pages }
  else .ok (offset, f)
termination_by src.length
decreasing_by
  have := pageEnd_pos _hpos offset
  rw [List.length_drop]
  omega

/-- `file_descriptor_write`. -/
def fileDescriptorWrite (f : OpenFile) (src : List (BitVec 8)) :
    Except (Fault Panic) (ℕ × OpenFile) :=
  match f.type with
  | .socket => .error (.panic .attemptWriteToSocket)
  | .pipe => .error (.panic .attemptWriteToPipe)
  | .folder => .error (.panic .attemptWriteToFolder)
  | .file => do
    let (offset, f) ← writeFrom nodeSrc pageSrc src f.seekPos f
    let grown := (src.length + offset) % 2 ^ 64
    return (src.length,
      { f with seekPos := offset, size := if f.size > grown then f.size else grown })

/-- `file_descriptor_seek`. -/
def fileDescriptorSeek (f : OpenFile) (seekPos : ℕ) : OpenFile :=
  { f with seekPos := seekPos }

/-! ## The file as an array of bytes -/

/-- The page of a page number, 0 if there is none. -/
def OpenFile.page (f : OpenFile) (pageNum : ℕ) : ℕ :=
  match f.getPage pageNum with
  | .ok p => p
  | .error _ => 0

/-- Byte `k` of the file. -/
def OpenFile.byte (f : OpenFile) (k : ℕ) : BitVec 8 :=
  f.pages.cell (f.page (k / 4096)) (k % 4096)

/-- All pages below the size are present, each for one page number. -/
structure NoHoles (f : OpenFile) : Prop where
  size_lt : f.size < 2 ^ 64
  getPage : ∀ k, 4096 * k < f.size → f.getPage k = .ok (f.page k)
  page_ne : ∀ k, 4096 * k < f.size → f.page k ≠ 0
  len : ∀ k, 4096 * k < f.size → f.pages.len (f.page k) = 4096
  inj : ∀ j k, 4096 * j < f.size → 4096 * k < f.size → f.page j = f.page k → j = k

/-- All pages below the size are present. -/
structure PagesPresent (f : OpenFile) : Prop where
  size_lt : f.size < 2 ^ 64
  getPage : ∀ k, 4096 * k < f.size → f.getPage k = .ok (f.page k)
  page_ne : ∀ k, 4096 * k < f.size → f.page k ≠ 0
  len : ∀ k, 4096 * k < f.size → f.pages.len (f.page k) = 4096

theorem NoHoles.present {f : OpenFile} (hf : NoHoles f) : PagesPresent f :=
  ⟨hf.size_lt, hf.getPage, hf.page_ne, hf.len⟩

/-- The write of `src` at `seek_pos` does not panic and does what a write should. -/
def WriteCorrect (f : OpenFile) (src : List (BitVec 8)) : Prop :=
  ∃ f', fileDescriptorWrite nodeSrc pageSrc f src = .ok (src.length, f') ∧
    f'.size = max f.size (f.seekPos + src.length) ∧
    (∀ i, i < src.length → f'.byte (f.seekPos + i) = src.getD i 0) ∧
    (∀ k < f.size, k < f.seekPos ∨ f.seekPos + src.length ≤ k → f'.byte k = f.byte k) ∧
    NoHoles f' ∧ f'.seekPos = f.seekPos + src.length

/-- The written range is empty, or it is in the file and the doubled range ends in it. -/
def WriteFits (f : OpenFile) (src : List (BitVec 8)) : Prop :=
  src = [] ∨ f.seekPos + src.length ≤ f.size ∧
    (f.seekPos + 2 * src.length) % 2 ^ 64 ≤ f.size

/-! ## What a write does -/

/-- The bytes of one page. -/
theorem writePage_eq {page : ℕ} : ∀ (bs : List (BitVec 8)) (offset : ℕ) {h : Heap (BitVec 8)},
    h.len page = 4096 → offset % 4096 + bs.length ≤ 4096 → offset + bs.length < 2 ^ 64 →
    ∃ h', writePage page bs offset h = .ok h' ∧ (∀ q, h'.len q = h.len q) ∧
      (∀ q, q ≠ page → h'.cell q = h.cell q) ∧
      h'.cell page = patch bs (offset % 4096) (h.cell page)
  | [], offset, h, _, _, _ => ⟨h, rfl, fun _ => rfl, fun _ _ => rfl, by rw [patch_nil]⟩
  | b :: bs, offset, h, hlen, hpage, hwrap => by
    rw [List.length_cons] at hpage hwrap
    have hstore : (h.store page (offset % 4096) b : Except (Fault Panic) _) = .ok _ :=
      Heap.store_eq_ok (by rw [hlen]; omega)
    have hmod : (offset + 1) % 2 ^ 64 = offset + 1 := Nat.mod_eq_of_lt (by omega)
    have hset : (h.set page (offset % 4096) b).cell page =
        Function.update (h.cell page) (offset % 4096) b := by
      funext i
      simp [Heap.cell_set, Function.update_apply]
    obtain ⟨h', hw, hlen', hother, hcell⟩ := writePage_eq bs (offset + 1)
      (h := h.set page (offset % 4096) b) hlen (by omega) (by omega)
    refine ⟨h', ?_, hlen', fun q hq => ?_, ?_⟩
    · rw [writePage, hstore, ok_bind, hmod, hw]
    · rw [hother q hq]
      funext i
      rw [Heap.cell_set_of_base_ne _ _ _ _ hq]
    · rw [hcell, hset, patch_cons]
      cases bs with
      | nil => rw [patch_nil, patch_nil]
      | cons c bs =>
        rw [List.length_cons] at hpage
        rw [show (offset + 1) % 4096 = offset % 4096 + 1 by omega]

theorem NoHoles.setPages {f : OpenFile} (hf : NoHoles f) {h : Heap (BitVec 8)}
    (hlen : ∀ q, h.len q = f.pages.len q) : NoHoles { f with pages := h } where
  size_lt := hf.size_lt
  getPage := hf.getPage
  page_ne := hf.page_ne
  len k hk := (hlen _).trans (hf.len k hk)
  inj := hf.inj

variable {nodeSrc pageSrc}

/-- Below the size, `find_page_start` finds the page. -/
theorem findPageStart_eq {f : OpenFile} (hf : PagesPresent f) {offset : ℕ} (h : offset < f.size) :
    findPageStart nodeSrc pageSrc f offset = .ok (f.page (offset / 4096), f) := by
  have hk : 4096 * (offset / 4096) < f.size := by omega
  rw [findPageStart, hf.getPage _ hk, ok_bind, if_pos (hf.page_ne _ hk)]
  rfl

/-- The bytes of one page, seen in the file. -/
theorem byte_of_writePage {f : OpenFile} (hf : NoHoles f) {bs : List (BitVec 8)} {offset : ℕ}
    {h : Heap (BitVec 8)} (hlt : offset < f.size) (hpage : offset % 4096 + bs.length ≤ 4096)
    (hother : ∀ q, q ≠ f.page (offset / 4096) → h.cell q = f.pages.cell q)
    (hcell : h.cell (f.page (offset / 4096)) =
      patch bs (offset % 4096) (f.pages.cell (f.page (offset / 4096)))) {k : ℕ} (hk : k < f.size) :
    OpenFile.byte { f with pages := h } k = patch bs offset f.byte k := by
  change h.cell (f.page (k / 4096)) (k % 4096) = _
  by_cases hdiv : k / 4096 = offset / 4096
  · rw [hdiv, hcell]
    unfold patch OpenFile.byte
    rw [hdiv]
    by_cases hle : offset ≤ k
    · rw [if_pos (by omega), if_pos hle, show k % 4096 - offset % 4096 = k - offset by omega]
    · rw [if_neg (by omega), if_neg hle]
  · have hne : f.page (k / 4096) ≠ f.page (offset / 4096) := fun e =>
      hdiv (hf.inj _ _ (by omega) (by omega) e)
    rw [hother _ hne, patch_of_notMem _ _ (by omega)]
    rfl

/-- The `while` loop, on a range inside a file without holes. -/
theorem writeFrom_eq (src : List (BitVec 8)) (offset : ℕ) {f : OpenFile} (hf : NoHoles f)
    (hin : offset + src.length ≤ f.size) :
    ∃ h, writeFrom nodeSrc pageSrc src offset f =
        .ok (offset + src.length, { f with pages := h }) ∧
      (∀ q, h.len q = f.pages.len q) ∧
      ∀ k < f.size, OpenFile.byte { f with pages := h } k = patch src offset f.byte k := by
  rw [writeFrom]
  by_cases hpos : 0 < src.length
  · have hsize := hf.size_lt
    have hn := pageEnd_pos hpos offset
    have hn1 : pageEnd src.length offset ≤ src.length := Nat.min_le_left _ _
    have hn2 : pageEnd src.length offset ≤ 4096 - offset % 4096 := Nat.min_le_right _ _
    generalize hne : pageEnd src.length offset = n at *
    have htake : (src.take n).length = n := by rw [List.length_take]; omega
    have hmod : (offset + n) % 2 ^ 64 = offset + n := Nat.mod_eq_of_lt (by omega)
    obtain ⟨h1, hw, hlen1, hother, hcell⟩ := writePage_eq (src.take n) offset
      (hf.len (offset / 4096) (by omega)) (by omega) (by omega)
    have hdrop : (src.drop n).length = src.length - n := List.length_drop
    have hf1 := hf.setPages hlen1
    obtain ⟨h2, hrest, hlen2, hbyte⟩ := writeFrom_eq (src.drop n) (offset + n) hf1
      (by change offset + n + _ ≤ f.size; omega)
    refine ⟨h2, ?_, fun q => (hlen2 q).trans (hlen1 q), fun k hk => ?_⟩
    · rw [dif_pos hpos, findPageStart_eq hf.present (by omega), ok_bind]
      simp only [hw, ok_bind, hmod, hrest, hdrop]
      rw [show offset + n + (src.length - n) = offset + src.length by omega]
    · rw [hbyte k hk, patch_congr _ _ (byte_of_writePage hf (by omega) (by omega) hother hcell hk)]
      conv_rhs => rw [← List.take_append_drop n src, patch_append, htake]
  · rw [dif_neg hpos]
    obtain rfl : src = [] := List.length_eq_zero_iff.mp (by omega)
    exact ⟨f.pages, rfl, fun _ => rfl, fun k _ => by rw [patch_nil]⟩
termination_by src.length
decreasing_by
  rw [List.length_drop]
  omega

theorem findPageStart_size {f f' : OpenFile} {offset p : ℕ}
    (h : findPageStart nodeSrc pageSrc f offset = .ok (p, f')) : f'.size = f.size := by
  obtain ⟨q, -, h⟩ := bind_eq_ok.mp h
  split_ifs at h with hq hoff
  · cases h
    rfl
  · obtain ⟨⟨p', pages⟩, -, h⟩ := bind_eq_ok.mp h
    obtain ⟨⟨old, nodes⟩, -, h⟩ := bind_eq_ok.mp h
    cases h
    rfl

/-- The `while` loop ends after as many bytes, wherever they go. -/
theorem writeFrom_offset (src : List (BitVec 8)) {offset o : ℕ} {f f' : OpenFile}
    (hoff : offset < 2 ^ 64) (h : writeFrom nodeSrc pageSrc src offset f = .ok (o, f')) :
    o = (offset + src.length) % 2 ^ 64 ∧ f'.size = f.size := by
  rw [writeFrom] at h
  by_cases hpos : 0 < src.length
  · have hn := pageEnd_pos hpos offset
    have hn1 : pageEnd src.length offset ≤ src.length := Nat.min_le_left _ _
    rw [dif_pos hpos] at h
    obtain ⟨⟨p, f1⟩, hfind, h⟩ := bind_eq_ok.mp h
    obtain ⟨pages, -, h⟩ := bind_eq_ok.mp h
    obtain ⟨ho, hsize⟩ := writeFrom_offset (src.drop (pageEnd src.length offset))
      (Nat.mod_lt _ (by decide)) h
    have hsize1 : f'.size = f1.size := hsize
    refine ⟨?_, hsize1.trans (findPageStart_size hfind)⟩
    rw [ho, List.length_drop, Nat.mod_add_mod]
    congr 1
    omega
  · rw [dif_neg hpos] at h
    cases h
    exact ⟨by rw [Nat.eq_zero_of_not_pos hpos, Nat.add_zero, Nat.mod_eq_of_lt hoff], rfl⟩
termination_by src.length
decreasing_by
  rw [List.length_drop]
  omega

/-- A write that fits goes to the pages of the file and moves the descriptor. -/
theorem fileDescriptorWrite_fits {f : OpenFile} (hf : NoHoles f) (htype : f.type = .file)
    (hseek : f.seekPos ≤ f.size) {src : List (BitVec 8)} (hfit : WriteFits f src) :
    f.seekPos + src.length ≤ f.size ∧
    ∃ h, fileDescriptorWrite nodeSrc pageSrc f src =
        .ok (src.length, { f with pages := h, seekPos := f.seekPos + src.length }) ∧
      (∀ q, h.len q = f.pages.len q) ∧
      ∀ k < f.size, OpenFile.byte { f with pages := h } k = patch src f.seekPos f.byte k := by
  have hsize := hf.size_lt
  have hin : f.seekPos + src.length ≤ f.size := by
    rcases hfit with rfl | ⟨hin, -⟩
    · exact hseek
    · exact hin
  have hgrown : (src.length + (f.seekPos + src.length)) % 2 ^ 64 ≤ f.size := by
    rcases hfit with rfl | ⟨-, hd⟩
    · simp only [List.length_nil]
      omega
    · rwa [show src.length + (f.seekPos + src.length) = f.seekPos + 2 * src.length by omega]
  have hmax : (if f.size > (src.length + (f.seekPos + src.length)) % 2 ^ 64 then f.size
      else (src.length + (f.seekPos + src.length)) % 2 ^ 64) = f.size := by
    split_ifs <;> omega
  obtain ⟨h, hfrom, hlen, hbyte⟩ := @writeFrom_eq nodeSrc pageSrc src f.seekPos f
    hf hin
  refine ⟨hin, h, ?_, hlen, hbyte⟩
  simp only [fileDescriptorWrite, htype, hfrom, ok_bind, pure_eq_ok, hmax]

theorem NoHoles.setSeek {f : OpenFile} (hf : NoHoles f) (q : ℕ) :
    NoHoles { f with seekPos := q } :=
  ⟨hf.size_lt, hf.getPage, hf.page_ne, hf.len, hf.inj⟩

/-- On a file without holes a write is right exactly when it fits. -/
theorem writeCorrect_iff {f : OpenFile} (hf : NoHoles f) (htype : f.type = .file)
    (hseek : f.seekPos ≤ f.size) {src : List (BitVec 8)} (hsrc : src.length < 2 ^ 64) :
    WriteCorrect nodeSrc pageSrc f src ↔ WriteFits f src := by
  have hsize := hf.size_lt
  constructor
  · rintro ⟨f', hw, hs, -, -, -, hpos⟩
    simp only [fileDescriptorWrite, htype] at hw
    obtain ⟨⟨o, f1⟩, hfrom, hw⟩ := bind_eq_ok.mp hw
    obtain ⟨ho, hs1⟩ := writeFrom_offset src (by omega) hfrom
    cases hw
    simp only [hs1] at hs hpos
    unfold WriteFits
    by_cases hnil : src = []
    · exact Or.inl hnil
    · have hlen : 0 < src.length := List.length_pos_iff.mpr hnil
      refine Or.inr ?_
      have hdouble : (src.length + o) % 2 ^ 64 = (f.seekPos + 2 * src.length) % 2 ^ 64 := by
        rw [hpos]
        congr 1
        omega
      rw [hdouble] at hs
      split_ifs at hs with hgt
      · omega
      · have : o < 2 ^ 64 := ho ▸ Nat.mod_lt _ (by decide)
        omega
  · intro hfit
    obtain ⟨hin, h, hw, hlen, hbyte⟩ :=
      @fileDescriptorWrite_fits nodeSrc pageSrc f hf htype hseek src hfit
    refine ⟨_, hw, (max_eq_left hin).symm, fun i hi => ?_, fun k hk hout => ?_,
      (hf.setPages hlen).setSeek _, rfl⟩
    · have hb := hbyte (f.seekPos + i) (by omega)
      rw [patch_of_mem _ _ hi] at hb
      rw [List.getD_eq_getElem?_getD, List.getElem?_eq_getElem hi]
      exact hb
    · have hb := hbyte k hk
      rw [patch_of_notMem _ _ hout] at hb
      exact hb

/-! ## Runs -/

/-- A call on the descriptor. -/
inductive FileCall
  | seek (seekPos : ℕ)
  | write (src : List (BitVec 8))

variable (nodeSrc pageSrc)

/-- What a call that returns does. A seek goes to a position not beyond the size. -/
inductive FileStep : OpenFile → FileCall → OpenFile → Prop
  | seek {f : OpenFile} {q : ℕ} : q ≤ f.size → FileStep f (.seek q) (fileDescriptorSeek f q)
  | write {f f' : OpenFile} {src : List (BitVec 8)} {n : ℕ} : src.length < 2 ^ 64 →
      fileDescriptorWrite nodeSrc pageSrc f src = .ok (n, f') → FileStep f (.write src) f'

/-- A file without holes, with the descriptor at a position not beyond the size. -/
structure FileReady (f : OpenFile) : Prop where
  noHoles : NoHoles f
  type : f.type = .file
  seek : f.seekPos ≤ f.size

/-- The condition on a call : a write fits. -/
def CallFits (f : OpenFile) : FileCall → Prop
  | .seek _ => True
  | .write src => WriteFits f src

variable {nodeSrc pageSrc}

/-- The writes of a run that fit keep the file without holes. -/
theorem FileReady.reach {f : OpenFile}
    (hr : Reach FileReady (Guarded CallFits (FileStep nodeSrc pageSrc)) f) : FileReady f := by
  refine Reach.invariant FileReady (fun _ h => h) ?_ hr
  rintro f a f' hf ⟨hfit, hstep⟩
  cases hstep with
  | seek hq => exact ⟨hf.noHoles.setSeek _, hf.type, hq⟩
  | write _ hw =>
    obtain ⟨hin, h, hw', hlen, -⟩ := @fileDescriptorWrite_fits nodeSrc pageSrc f
      hf.noHoles hf.type hf.seek _ hfit
    cases Except.ok.inj (hw.symm.trans hw')
    exact ⟨(hf.noHoles.setPages hlen).setSeek _, hf.type, hin⟩

/-- In every run whose writes fit, the file has no holes, and the next write is right
exactly when it fits. -/
theorem fileWrite_correct_iff {f : OpenFile}
    (hr : Reach FileReady (Guarded CallFits (FileStep nodeSrc pageSrc)) f) :
    FileReady f ∧ ∀ src : List (BitVec 8), src.length < 2 ^ 64 →
      (WriteCorrect nodeSrc pageSrc f src ↔ WriteFits f src) := by
  have hf := FileReady.reach hr
  exact ⟨hf, fun src hsrc => writeCorrect_iff hf.noHoles hf.type hf.seek hsrc⟩

/-- Nodes and pages handed out in the order of their addresses. -/
def bumpNodes : NodeSource inodeFileRadixLevelDepth :=
  Source.bump _ _ _ (by decide)

@[inherit_doc bumpNodes]
def bumpBytePages : BytePageSource :=
  Source.bump _ _ _ pageBytes_pos

/-- A file of one page, at `0x2000`, whose radix tree of level 0 is the node at `0x1000`. -/
def fileOnePage : OpenFile where
  type := .file
  size := 4096
  radixRoots := fun _ => 0x1000
  seekPos := 0
  nodes := ((Heap.mk [] fun _ _ => 0).push 0x1000 16).set 0x1000 0 0x2000#64
  pages := (Heap.mk [] fun _ _ => 0).push 0x2000 4096

theorem fileOnePage_ready : FileReady fileOnePage := by
  have hk : ∀ k, 4096 * k < fileOnePage.size → k = 0 := by
    intro k hk
    have : 4096 * k < 4096 := hk
    omega
  refine ⟨⟨by decide, ?_, ?_, ?_, ?_⟩, rfl, by decide⟩
  · intro k h
    obtain rfl := hk k h
    rfl
  · intro k h
    obtain rfl := hk k h
    decide
  · intro k h
    obtain rfl := hk k h
    rfl
  · intro j k hj hk' _
    rw [hk j hj, hk k hk']

theorem fileWrite_correct_iff_fileOnePage :
    FileReady fileOnePage ∧ WriteFits fileOnePage [0x41#8] ∧
      WriteCorrect bumpNodes bumpBytePages fileOnePage [0x41#8] := by
  have hfit : WriteFits fileOnePage [0x41#8] := Or.inr ⟨by decide, by decide⟩
  exact ⟨fileOnePage_ready, hfit,
    ((fileWrite_correct_iff (Reach.start fileOnePage_ready)).2 _ (by decide)).mpr hfit⟩

/-- An empty file, with the radix tree of level 0 at `0x1000`. -/
def fileEmpty : OpenFile where
  type := .file
  size := 0
  radixRoots := fun _ => 0x1000
  seekPos := 0
  nodes := (Heap.mk [] fun _ _ => 0).push 0x1000 16
  pages := Heap.mk [] fun _ _ => 0

theorem fileEmpty_ready : FileReady fileEmpty := by
  have hk : ∀ k, ¬4096 * k < fileEmpty.size := fun k => Nat.not_lt_zero _
  exact ⟨⟨by decide, fun k h => absurd h (hk k), fun k h => absurd h (hk k),
    fun k h => absurd h (hk k), fun j _ h => absurd h (hk j)⟩, rfl, by decide⟩

theorem fileEmpty_write : ∃ f', f'.size = 2 ∧
    fileDescriptorWrite bumpNodes bumpBytePages fileEmpty [0x41#8] = .ok (1, f') := by
  have hfrom : ∃ f', f'.size = 0 ∧
      writeFrom bumpNodes bumpBytePages [0x41#8] 0 fileEmpty = .ok (1, f') := by
    rw [writeFrom, dif_pos (by decide)]
    exact ⟨_, rfl, (writeFrom.eq_1 _ _ [] 1 _).trans (dif_neg (by decide))⟩
  obtain ⟨f', hsize, hfrom⟩ := hfrom
  refine ⟨{ f' with seekPos := 1, size := 2 }, rfl, ?_⟩
  change (writeFrom _ _ [0x41#8] 0 fileEmpty >>= _) = _
  rw [hfrom, ok_bind]
  simp only [hsize]
  rfl

/-- One byte written to an empty file makes it a file of two bytes. -/
theorem not_writeCorrect_fileEmpty :
    FileReady fileEmpty ∧ ¬WriteCorrect bumpNodes bumpBytePages fileEmpty [0x41#8] := by
  refine ⟨fileEmpty_ready, ?_⟩
  rintro ⟨f', hw, hsize, -⟩
  obtain ⟨f'', hsize', hw'⟩ := fileEmpty_write
  cases Except.ok.inj (hw.symm.trans hw')
  rw [hsize'] at hsize
  exact absurd hsize (by decide)

end Toastium
