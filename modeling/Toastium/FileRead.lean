import Toastium.File

/-!
# Reading from a file

`file_descriptor_read` copies page by page, as the write does, to a buffer `dest`. The number of
bytes is the minimum of what is asked for and `size - seek_pos`, which wraps around if the
descriptor is beyond the end of the file; then nothing is read.

`fileDescriptorRead_correct` : if all pages of the file are present, a read gives the bytes of
the file from `seek_pos` on, moves the descriptor behind them, and changes nothing else.
`readFrom_cases` : otherwise the copy ends at the first byte that has no page, or at the end of a
buffer of one page.

The buffer is an object of the heap that holds the pages of the file.
-/

namespace Toastium

/-! ## The code -/

section Code

variable (nodeSrc : NodeSource inodeFileRadixLevelDepth) (pageSrc : BytePageSource)

/-- The `for` loop of `file_descriptor_read`, over `n` bytes of one page. -/
def readPage (pageStart dest : ℕ) : ℕ → ℕ → ℕ → Heap (BitVec 8) →
    Except (Fault Panic) (Heap (BitVec 8))
  | 0, _, _, h => .ok h
  | n + 1, offset, destOffset, h => do
    let b ← h.load pageStart (offset % 4096)
    let h ← h.store dest destOffset b
    readPage pageStart dest n ((offset + 1) % 2 ^ 64) ((destOffset + 1) % 2 ^ 64) h

/-- The `while` loop of `file_descriptor_read`. Returns the offset it ends at. -/
def readFrom (dest sizeLeft offset destOffset : ℕ) (f : OpenFile) :
    Except (Fault Panic) (ℕ × OpenFile) :=
  if _hpos : 0 < sizeLeft then do
    let (pageStart, f) ← findPageStart nodeSrc pageSrc f offset
    let n := pageEnd sizeLeft offset
    let pages ← readPage pageStart dest n offset destOffset f.pages
    readFrom dest (sizeLeft - n) ((offset + n) % 2 ^ 64) ((destOffset + n) % 2 ^ 64)
      { f with pages := pages }
  else .ok (offset, f)
termination_by sizeLeft
decreasing_by
  have := pageEnd_pos _hpos offset
  omega

/-- `read_size` of `file_descriptor_read`, with the difference as it is computed. -/
def readSize (f : OpenFile) (size : ℕ) : ℕ :=
  min size ((2 ^ 64 + f.size - f.seekPos) % 2 ^ 64)

/-- `file_descriptor_read`. The panics say "write" in the source too. -/
def fileDescriptorRead (f : OpenFile) (dest size : ℕ) : Except (Fault Panic) (ℕ × OpenFile) :=
  match f.type with
  | .socket => .error (.panic .attemptWriteToSocket)
  | .pipe => .error (.panic .attemptWriteToPipe)
  | .folder => .error (.panic .attemptWriteToFolder)
  | .file =>
    if f.seekPos > f.size then .ok (0, f)
    else if readSize f size = 0 then .ok (0, f)
    else do
      let (offset, f') ← readFrom nodeSrc pageSrc dest (readSize f size) f.seekPos 0 f
      return (readSize f size, { f' with seekPos := offset })

end Code

/-! ## The bytes read -/

/-- The values of `g` at the `n` places from `s` on. -/
def slice {α : Type*} (g : ℕ → α) (s n : ℕ) : List α :=
  (List.range' s n).map g

section Slice

variable {α : Type*} {g g' : ℕ → α} {s n : ℕ}

@[simp] theorem slice_zero : slice g s 0 = [] := rfl

@[simp] theorem length_slice : (slice g s n).length = n := by
  simp [slice]

theorem slice_succ : slice g s (n + 1) = g s :: slice g (s + 1) n := rfl

theorem slice_append (m : ℕ) : slice g s (m + n) = slice g s m ++ slice g (s + m) n := by
  rw [slice, slice, slice, ← List.map_append, List.range'_append_1]

theorem getElem?_slice {i : ℕ} (hi : i < n) : (slice g s n)[i]? = some (g (s + i)) := by
  rw [slice, List.getElem?_map, List.getElem?_range' hi, Option.map_some, Nat.one_mul]

theorem slice_congr (h : ∀ i, s ≤ i → i < s + n → g i = g' i) : slice g s n = slice g' s n :=
  List.map_congr_left fun i hi => h i (List.mem_range'_1.mp hi).1 (List.mem_range'_1.mp hi).2

/-- The same values at another place. -/
theorem slice_shift {t : ℕ} (h : ∀ i < n, g (s + i) = g' (t + i)) : slice g s n = slice g' t n := by
  refine List.ext_getElem? fun i => ?_
  rcases Nat.lt_or_ge i n with hi | hi
  · rw [getElem?_slice hi, getElem?_slice hi, h i hi]
  · rw [List.getElem?_eq_none (by rw [length_slice]; exact hi),
      List.getElem?_eq_none (by rw [length_slice]; exact hi)]

theorem patch_slice (d : ℕ) (old : ℕ → α) (i : ℕ) :
    patch (slice g s n) d old i = if d ≤ i ∧ i < d + n then g (s + (i - d)) else old i := by
  by_cases hi : d ≤ i ∧ i < d + n
  · rw [if_pos hi, patch, if_pos hi.1, getElem?_slice (by omega), Option.getD_some]
  · rw [if_neg hi, patch_of_notMem _ _ (by rw [length_slice]; omega)]

end Slice

/-- What a read should do : the bytes from `seek_pos` on up to the end of the file, at most
`size` of them, are in `dest`, the descriptor is behind them, and all else is as it was. -/
def ReadCorrect (nodeSrc : NodeSource inodeFileRadixLevelDepth) (pageSrc : BytePageSource)
    (f : OpenFile) (dest size : ℕ) : Prop :=
  ∃ h, fileDescriptorRead nodeSrc pageSrc f dest size =
      .ok (min size (f.size - f.seekPos),
        { f with pages := h, seekPos := f.seekPos + min size (f.size - f.seekPos) }) ∧
    h.objs = f.pages.objs ∧ (∀ q, q ≠ dest → h.cell q = f.pages.cell q) ∧
    (∀ i, h.cell dest i =
      if i < min size (f.size - f.seekPos) then f.byte (f.seekPos + i) else f.pages.cell dest i) ∧
    ∀ k < f.size, OpenFile.byte { f with pages := h } k = f.byte k

/-- The buffer is not a page of the file. -/
def BufferApart (f : OpenFile) (dest : ℕ) : Prop :=
  ∀ k, 4096 * k < f.size → f.page k ≠ dest

/-! ## What a read does -/

/-- Byte `o` of the file has a page. -/
def Readable (f : OpenFile) (o : ℕ) : Prop :=
  f.page (o / 4096) ≠ 0 ∧ o % 4096 < f.pages.len (f.page (o / 4096))

theorem PagesPresent.readable {f : OpenFile} (hf : PagesPresent f) {o : ℕ} (ho : o < f.size) :
    Readable f o :=
  ⟨hf.page_ne _ (by omega), by rw [hf.len _ (by omega)]; omega⟩

/-- `find_page_start` of a page that is there. -/
theorem findPageStart_of_ne (nodeSrc : NodeSource inodeFileRadixLevelDepth)
    (pageSrc : BytePageSource) {f : OpenFile} {offset : ℕ} (h : f.page (offset / 4096) ≠ 0) :
    findPageStart nodeSrc pageSrc f offset = .ok (f.page (offset / 4096), f) := by
  unfold findPageStart
  unfold OpenFile.page at *
  cases hg : f.getPage (offset / 4096) with
  | error e =>
    rw [hg] at h
    exact absurd rfl h
  | ok p =>
    simp only [hg, ok_bind] at h ⊢
    rw [if_pos h]
    rfl

/-- The bytes of one page. -/
theorem readPage_eq {page dest : ℕ} (hne : page ≠ dest) :
    ∀ (n offset destOffset : ℕ) {h : Heap (BitVec 8)}, offset % 4096 + n ≤ h.len page →
      offset % 4096 + n ≤ 4096 → offset + n < 2 ^ 64 → destOffset + n ≤ h.len dest →
      destOffset + n < 2 ^ 64 →
      ∃ h', readPage page dest n offset destOffset h = .ok h' ∧ h'.objs = h.objs ∧
        (∀ q, q ≠ dest → h'.cell q = h.cell q) ∧
        h'.cell dest =
          patch (slice (h.cell page) (offset % 4096) n) destOffset (h.cell dest)
  | 0, offset, destOffset, h, _, _, _, _, _ =>
    ⟨h, rfl, rfl, fun _ _ => rfl, by rw [slice_zero, patch_nil]⟩
  | n + 1, offset, destOffset, h, hlen, hpage, hwrap, hroom, hwrap' => by
    have hload : (h.load page (offset % 4096) : Except (Fault Panic) _) = .ok _ :=
      Heap.load_eq_ok (by omega)
    have hstore : (h.store dest destOffset (h.cell page (offset % 4096)) :
        Except (Fault Panic) _) = .ok _ := Heap.store_eq_ok (by omega)
    have hother : ∀ q, q ≠ dest →
        (h.set dest destOffset (h.cell page (offset % 4096))).cell q = h.cell q := by
      intro q hq
      funext i
      rw [Heap.cell_set_of_base_ne _ _ _ _ hq]
    have hdest : (h.set dest destOffset (h.cell page (offset % 4096))).cell dest =
        Function.update (h.cell dest) destOffset (h.cell page (offset % 4096)) := by
      funext i
      simp [Heap.cell_set, Function.update_apply]
    obtain ⟨h', hrun, hobjs, hother', hcell⟩ := readPage_eq hne n (offset + 1) (destOffset + 1)
      (h := h.set dest destOffset (h.cell page (offset % 4096)))
      (by rw [Heap.len_set]; omega) (by omega) (by omega) (by rw [Heap.len_set]; omega) (by omega)
    refine ⟨h', ?_, hobjs, fun q hq => (hother' q hq).trans (hother q hq), ?_⟩
    · rw [readPage, hload, ok_bind, hstore, ok_bind, Nat.mod_eq_of_lt (by omega),
        Nat.mod_eq_of_lt (by omega), hrun]
    · rw [hcell, hdest, hother page hne, slice_succ, patch_cons]
      cases n with
      | zero => rw [slice_zero, slice_zero]
      | succ n => rw [show (offset + 1) % 4096 = offset % 4096 + 1 by omega]

theorem len_of_objs {α : Type*} {h h' : Heap α} (hobjs : h'.objs = h.objs) (p : ℕ) :
    h'.len p = h.len p := by
  rw [Heap.len, Heap.len, hobjs]

theorem Readable.setPages {f : OpenFile} {o : ℕ} (ho : Readable f o) {h : Heap (BitVec 8)}
    (hobjs : h.objs = f.pages.objs) : Readable { f with pages := h } o :=
  ⟨ho.1, by rw [len_of_objs hobjs]; exact ho.2⟩

/-- A byte of the file that is not in the buffer. -/
theorem byte_setPages {f : OpenFile} {dest k : ℕ} (hdest : f.page (k / 4096) ≠ dest)
    {h : Heap (BitVec 8)} (hother : ∀ q, q ≠ dest → h.cell q = f.pages.cell q) :
    OpenFile.byte { f with pages := h } k = f.byte k := by
  change h.cell (f.page (k / 4096)) (k % 4096) = f.pages.cell (f.page (k / 4096)) (k % 4096)
  rw [hother _ hdest]

variable {nodeSrc : NodeSource inodeFileRadixLevelDepth} {pageSrc : BytePageSource}

/-- The `while` loop, on a range that has its pages. -/
theorem readFrom_eq {dest : ℕ} (sizeLeft offset destOffset : ℕ) {f : OpenFile}
    (hread : ∀ o, offset ≤ o → o < offset + sizeLeft →
      Readable f o ∧ f.page (o / 4096) ≠ dest)
    (hlt : offset + sizeLeft < 2 ^ 64) (hroom : destOffset + sizeLeft ≤ f.pages.len dest)
    (hwrap : destOffset + sizeLeft < 2 ^ 64) :
    ∃ h, readFrom nodeSrc pageSrc dest sizeLeft offset destOffset f =
        .ok (offset + sizeLeft, { f with pages := h }) ∧
      h.objs = f.pages.objs ∧ (∀ q, q ≠ dest → h.cell q = f.pages.cell q) ∧
      h.cell dest = patch (slice f.byte offset sizeLeft) destOffset (f.pages.cell dest) := by
  rw [readFrom]
  by_cases hpos : 0 < sizeLeft
  · have hn := pageEnd_pos hpos offset
    have hn1 : pageEnd sizeLeft offset ≤ sizeLeft := Nat.min_le_left _ _
    have hn2 : pageEnd sizeLeft offset ≤ 4096 - offset % 4096 := Nat.min_le_right _ _
    generalize hne : pageEnd sizeLeft offset = n at *
    obtain ⟨⟨hpage, -⟩, hdest⟩ := hread offset le_rfl (by omega)
    have hlast := (hread (offset + n - 1) (by omega) (by omega)).1.2
    rw [show (offset + n - 1) / 4096 = offset / 4096 by omega] at hlast
    obtain ⟨h1, hrun1, hobjs1, hother1, hcell1⟩ := readPage_eq hdest n offset destOffset
      (h := f.pages) (by omega) (by omega) (by omega) (by omega) (by omega)
    have hlen1 := len_of_objs hobjs1 dest
    obtain ⟨h2, hrun2, hobjs2, hother2, hcell2⟩ := readFrom_eq (sizeLeft - n) (offset + n)
      (destOffset + n) (f := { f with pages := h1 })
      (fun o ho ho' => ⟨(hread o (by omega) (by omega)).1.setPages hobjs1,
        (hread o (by omega) (by omega)).2⟩) (by omega)
      (by change destOffset + n + (sizeLeft - n) ≤ h1.len dest; omega) (by omega)
    refine ⟨h2, ?_, hobjs2.trans hobjs1, fun q hq => (hother2 q hq).trans (hother1 q hq), ?_⟩
    · rw [dif_pos hpos, findPageStart_of_ne nodeSrc pageSrc hpage, ok_bind]
      simp only [hrun1, ok_bind, Nat.mod_eq_of_lt (show offset + n < 2 ^ 64 by omega),
        Nat.mod_eq_of_lt (show destOffset + n < 2 ^ 64 by omega), hrun2]
      rw [show offset + n + (sizeLeft - n) = offset + sizeLeft by omega]
    · -- the bytes of the first page, followed by those of the others
      have hfirst : slice f.byte offset n =
          slice (f.pages.cell (f.page (offset / 4096))) (offset % 4096) n :=
        slice_shift fun i hi => by
          rw [OpenFile.byte, show (offset + i) / 4096 = offset / 4096 by omega,
            show (offset + i) % 4096 = offset % 4096 + i by omega]
      have hrest : slice (OpenFile.byte { f with pages := h1 }) (offset + n) (sizeLeft - n) =
          slice f.byte (offset + n) (sizeLeft - n) :=
        slice_congr fun i hi hi' => byte_setPages (hread i (by omega) (by omega)).2 hother1
      rw [hcell2, hrest]
      change patch _ _ (h1.cell dest) = _
      rw [hcell1, ← hfirst]
      conv_rhs => rw [show sizeLeft = n + (sizeLeft - n) by omega, slice_append, patch_append,
        length_slice]
  · rw [dif_neg hpos]
    obtain rfl : sizeLeft = 0 := by omega
    exact ⟨f.pages, rfl, rfl, fun _ _ => rfl, by rw [slice_zero, patch_nil]⟩
termination_by sizeLeft
decreasing_by omega

/-! ## Reads that fail -/

theorem radixGet_within (h : Heap (BitVec 64)) (key : ℕ) : ∀ (depth addr : ℕ),
    ErrorWithin 4096 (radixGet h key inodeFileRadixLevelDepth depth addr)
  | 0, addr => ErrorWithin.ok addr
  | depth + 1, addr => by
    have hidx : radixIdx key depth inodeFileRadixLevelDepth < 4096 :=
      (Nat.mod_lt _ (by decide)).trans (by decide)
    refine (ErrorWithin.load h addr hidx).bind fun next _ => ?_
    split_ifs
    · exact ErrorWithin.ok _
    · exact radixGet_within h key depth _

/-- `find_page_start` of a hole in the file. -/
theorem findPageStart_of_eq (nodeSrc : NodeSource inodeFileRadixLevelDepth)
    (pageSrc : BytePageSource) {f : OpenFile} {offset : ℕ} (hlt : offset < f.size)
    (h : f.page (offset / 4096) = 0) :
    ∃ e, findPageStart nodeSrc pageSrc f offset = .error e ∧ e.Within 4096 := by
  have hget := radixGet_within f.nodes (offset / 4096) (radixLevel (offset / 4096) + 1)
    (f.radixRoots (radixLevel (offset / 4096)))
  unfold OpenFile.page at h
  change ErrorWithin 4096 (f.getPage (offset / 4096)) at hget
  cases hg : f.getPage (offset / 4096) with
  | error e =>
    refine ⟨e, ?_, hget e hg⟩
    rw [findPageStart, hg, error_bind]
  | ok p =>
    rw [hg] at h
    obtain rfl : p = 0 := h
    refine ⟨.panic .readWriteOutOfBoundsFileDesc, ?_, trivial⟩
    rw [findPageStart, hg, ok_bind, if_neg (not_not.mpr rfl), if_neg (Nat.not_le.mpr hlt)]

/-- How the `for` loop ends : all bytes are copied, or it is at the end of the buffer, or at the
end of the page. -/
theorem readPage_cases {page dest : ℕ} : ∀ (n offset destOffset : ℕ) {h : Heap (BitVec 8)},
    h.len dest = 4096 → offset % 4096 + n ≤ 4096 → offset + n < 2 ^ 64 → destOffset ≤ 4096 →
    (∃ h', readPage page dest n offset destOffset h = .ok h' ∧ h'.objs = h.objs ∧
      destOffset + n ≤ 4096 ∧ ∀ j < n, offset % 4096 + j < h.len page) ∨
    (∃ m < n, destOffset + m = 4096 ∧ (∀ j ≤ m, offset % 4096 + j < h.len page) ∧
      readPage page dest n offset destOffset h = .error (.wild dest 4096)) ∨
    ∃ m < n, destOffset + m ≤ 4096 ∧ h.len page ≤ offset % 4096 + m ∧
      readPage page dest n offset destOffset h = .error (.wild page (offset % 4096 + m))
  | 0, offset, destOffset, h, _, _, _, hd =>
    Or.inl ⟨h, rfl, rfl, hd, fun j hj => absurd hj (Nat.not_lt_zero j)⟩
  | n + 1, offset, destOffset, h, hlen, hpage, hwrap, hd => by
    rw [readPage]
    rcases Nat.lt_or_ge (offset % 4096) (h.len page) with hload | hload
    · rw [Heap.load_eq_ok hload, ok_bind]
      rcases Nat.lt_or_ge destOffset 4096 with hstore | hstore
      · rw [Heap.store_eq_ok (by omega), ok_bind, Nat.mod_eq_of_lt (by omega),
          Nat.mod_eq_of_lt (by omega)]
        rcases Nat.eq_zero_or_pos n with rfl | hn
        · refine Or.inl ⟨_, rfl, rfl, hstore, fun j hj => ?_⟩
          obtain rfl : j = 0 := by omega
          exact hload
        have hmod : (offset + 1) % 4096 = offset % 4096 + 1 := by omega
        have hcons : ∀ {k : ℕ}, (∀ j < k, (offset + 1) % 4096 + j < h.len page) →
            ∀ j < k + 1, offset % 4096 + j < h.len page := fun hk j hj => by
          rcases j with - | j
          · exact hload
          · have := hk j (by omega)
            omega
        obtain ⟨h', hrun, hobjs, hroom, hread⟩ | ⟨m, hm, hdm, hread, hrun⟩ |
            ⟨m, hm, hdm, hend, hrun⟩ :=
          readPage_cases n (offset + 1) (destOffset + 1)
            (h := h.set dest destOffset (h.cell page (offset % 4096))) hlen (by omega) (by omega)
            (by omega)
        · exact Or.inl ⟨h', hrun, hobjs, by omega, hcons hread⟩
        · exact Or.inr (Or.inl ⟨m + 1, by omega, by omega,
            fun j hj => hcons (fun j' hj' => hread j' (Nat.le_of_lt_succ hj')) j (by omega), hrun⟩)
        · rw [Heap.len_set] at hend
          refine Or.inr (Or.inr ⟨m + 1, by omega, by omega, by omega, ?_⟩)
          rw [hrun, hmod, Nat.add_assoc, Nat.add_comm 1 m]
      · obtain rfl : destOffset = 4096 := by omega
        refine Or.inr (Or.inl ⟨0, Nat.succ_pos n, rfl, fun j hj => ?_, ?_⟩)
        · obtain rfl : j = 0 := by omega
          exact hload
        · rw [Heap.store, if_neg (by omega), error_bind]
    · rw [Heap.load_eq_wild hload, error_bind]
      exact Or.inr (Or.inr ⟨0, Nat.succ_pos n, hd, hload, rfl⟩)

/-- How the `while` loop ends, on a range inside the file : all bytes are copied, or it is at the
end of the buffer, or at a byte that has no page. -/
theorem readFrom_cases {dest : ℕ} (sizeLeft offset destOffset : ℕ) {f : OpenFile}
    (hlen : f.pages.len dest = 4096) (hin : offset + sizeLeft ≤ f.size) (hsize : f.size < 2 ^ 64)
    (hd : destOffset ≤ 4096) :
    (∃ h, readFrom nodeSrc pageSrc dest sizeLeft offset destOffset f =
        .ok (offset + sizeLeft, { f with pages := h }) ∧ h.objs = f.pages.objs ∧
      destOffset + sizeLeft ≤ 4096 ∧ ∀ j < sizeLeft, Readable f (offset + j)) ∨
    (∃ m < sizeLeft, destOffset + m = 4096 ∧ (∀ j ≤ m, Readable f (offset + j)) ∧
      readFrom nodeSrc pageSrc dest sizeLeft offset destOffset f = .error (.wild dest 4096)) ∨
    ∃ m < sizeLeft, destOffset + m ≤ 4096 ∧ ¬Readable f (offset + m) ∧
      ∃ e, readFrom nodeSrc pageSrc dest sizeLeft offset destOffset f = .error e ∧
        e.Within 4096 := by
  rw [readFrom]
  by_cases hpos : 0 < sizeLeft
  · rw [dif_pos hpos]
    have hn := pageEnd_pos hpos offset
    have hn1 : pageEnd sizeLeft offset ≤ sizeLeft := Nat.min_le_left _ _
    have hn2 : pageEnd sizeLeft offset ≤ 4096 - offset % 4096 := Nat.min_le_right _ _
    generalize pageEnd sizeLeft offset = n at *
    by_cases hpage : f.page (offset / 4096) = 0
    · obtain ⟨e, he, hw⟩ := findPageStart_of_eq nodeSrc pageSrc (by omega) hpage
      refine Or.inr (Or.inr ⟨0, hpos, hd, fun hr => hr.1 hpage, e, ?_, hw⟩)
      rw [he, error_bind]
    -- the bytes of the first page
    have hfirst : ∀ {j : ℕ}, j < n → (Readable f (offset + j) ↔
        offset % 4096 + j < f.pages.len (f.page (offset / 4096))) := fun {j} hj => by
      rw [Readable, show (offset + j) / 4096 = offset / 4096 by omega,
        show (offset + j) % 4096 = offset % 4096 + j by omega]
      exact and_iff_right hpage
    rw [findPageStart_of_ne nodeSrc pageSrc hpage, ok_bind]
    dsimp only
    obtain ⟨h1, hrun, hobjs, hroom, hread⟩ | ⟨m, hm, hdm, hread, hrun⟩ | ⟨m, hm, hdm, hend, hrun⟩ :=
      @readPage_cases (f.page (offset / 4096)) dest n offset destOffset f.pages hlen (by omega)
        (by omega) hd
    · rw [hrun, ok_bind, Nat.mod_eq_of_lt (by omega), Nat.mod_eq_of_lt (by omega)]
      have hset : ∀ o, Readable { f with pages := h1 } o ↔ Readable f o := fun o => by
        rw [Readable, Readable, len_of_objs hobjs]
        rfl
      have hcons : ∀ {k : ℕ}, (∀ j < k, Readable f (offset + n + j)) →
          ∀ j < n + k, Readable f (offset + j) := fun hk j hj => by
        rcases Nat.lt_or_ge j n with hjn | hjn
        · exact (hfirst hjn).2 (hread j hjn)
        · have := hk (j - n) (by omega)
          rwa [show offset + n + (j - n) = offset + j by omega] at this
      obtain ⟨h2, hrun2, hobjs2, hroom2, hread2⟩ | ⟨m, hm, hdm, hread2, hrun2⟩ |
          ⟨m, hm, hdm, hend, e, hrun2, hw⟩ :=
        readFrom_cases (sizeLeft - n) (offset + n) (destOffset + n) (f := { f with pages := h1 })
          ((len_of_objs hobjs dest).trans hlen) (by change _ ≤ f.size; omega) hsize (by omega)
      · refine Or.inl ⟨h2, ?_, hobjs2.trans hobjs, by omega, fun j hj => ?_⟩
        · rw [hrun2, show offset + n + (sizeLeft - n) = offset + sizeLeft by omega]
        · exact hcons (fun j hj => (hset _).1 (hread2 j hj)) j (by omega)
      · refine Or.inr (Or.inl ⟨n + m, by omega, by omega, fun j hj => ?_, hrun2⟩)
        exact hcons (fun j hj => (hset _).1 (hread2 j (Nat.le_of_lt_succ hj))) j (by omega)
      · refine Or.inr (Or.inr ⟨n + m, by omega, by omega, fun hr => hend ?_, e, hrun2, hw⟩)
        rw [hset, Nat.add_assoc]
        exact hr
    · rw [hrun, error_bind]
      exact Or.inr (Or.inl ⟨m, by omega, hdm, fun j hj => (hfirst (by omega)).2 (hread j hj), rfl⟩)
    · rw [hrun, error_bind]
      refine Or.inr (Or.inr ⟨m, by omega, hdm, fun hr => ?_, _, rfl, ?_⟩)
      · have := (hfirst hm).1 hr
        omega
      · change _ < 4096
        omega
  · rw [dif_neg hpos]
    obtain rfl : sizeLeft = 0 := by omega
    exact Or.inl ⟨f.pages, rfl, rfl, hd, fun j hj => absurd hj (Nat.not_lt_zero j)⟩
termination_by sizeLeft
decreasing_by omega

theorem fileDescriptorRead_of_file {f : OpenFile} (htype : f.type = .file) (dest size : ℕ) :
    fileDescriptorRead nodeSrc pageSrc f dest size =
      if f.seekPos > f.size then .ok (0, f)
      else if readSize f size = 0 then .ok (0, f)
      else do
        let (offset, f') ← readFrom nodeSrc pageSrc dest (readSize f size) f.seekPos 0 f
        return (readSize f size, { f' with seekPos := offset }) := by
  rw [fileDescriptorRead, htype]

theorem readSize_eq {f : OpenFile} (hsize : f.size < 2 ^ 64) (hle : f.seekPos ≤ f.size)
    (size : ℕ) : readSize f size = min size (f.size - f.seekPos) := by
  rw [readSize]
  congr 1
  omega

/-- Nothing is read if the descriptor is at the end, or beyond it, or `size` is 0. -/
theorem fileDescriptorRead_zero {f : OpenFile} (htype : f.type = .file) (hsize : f.size < 2 ^ 64)
    {dest size : ℕ} (hzero : min size (f.size - f.seekPos) = 0) :
    fileDescriptorRead nodeSrc pageSrc f dest size = .ok (0, f) := by
  rw [fileDescriptorRead_of_file htype]
  by_cases hgt : f.seekPos > f.size
  · rw [if_pos hgt]
  · rw [if_neg hgt, if_pos ((readSize_eq hsize (by omega) size).trans hzero)]

theorem fileDescriptorRead_pos {f : OpenFile} (htype : f.type = .file) (hsize : f.size < 2 ^ 64)
    {dest size : ℕ} (hpos : min size (f.size - f.seekPos) ≠ 0) :
    fileDescriptorRead nodeSrc pageSrc f dest size = (do
      let (offset, f') ← readFrom nodeSrc pageSrc dest (min size (f.size - f.seekPos)) f.seekPos 0 f
      return (min size (f.size - f.seekPos), { f' with seekPos := offset })) := by
  rw [fileDescriptorRead_of_file htype, readSize_eq hsize (by omega), if_neg (by omega),
    if_neg hpos]

/-- A read of bytes that have their pages, to a buffer that has room for them. -/
theorem fileDescriptorRead_eq {f : OpenFile} {dest size : ℕ} (htype : f.type = .file)
    (hsize : f.size < 2 ^ 64) (hread : ∀ i < min size (f.size - f.seekPos),
      Readable f (f.seekPos + i) ∧ f.page ((f.seekPos + i) / 4096) ≠ dest)
    (hroom : min size (f.size - f.seekPos) ≤ f.pages.len dest) :
    ∃ h, fileDescriptorRead nodeSrc pageSrc f dest size =
        .ok (min size (f.size - f.seekPos),
          { f with pages := h, seekPos := f.seekPos + min size (f.size - f.seekPos) }) ∧
      h.objs = f.pages.objs ∧ (∀ q, q ≠ dest → h.cell q = f.pages.cell q) ∧
      ∀ i, h.cell dest i =
        if i < min size (f.size - f.seekPos) then f.byte (f.seekPos + i)
        else f.pages.cell dest i := by
  by_cases hzero : min size (f.size - f.seekPos) = 0
  · refine ⟨f.pages, ?_, rfl, fun _ _ => rfl, fun i => ?_⟩
    · rw [fileDescriptorRead_zero htype hsize hzero, hzero, Nat.add_zero]
    · rw [hzero, if_neg (Nat.not_lt_zero i)]
  · obtain ⟨h, hrun, hobjs, hother, hcell⟩ := @readFrom_eq nodeSrc pageSrc dest
      (min size (f.size - f.seekPos)) f.seekPos 0 f
      (fun o ho ho' => by
        have := hread (o - f.seekPos) (by omega)
        rwa [show f.seekPos + (o - f.seekPos) = o by omega] at this)
      (by omega) (by omega) (by omega)
    refine ⟨h, ?_, hobjs, hother, fun i => ?_⟩
    · rw [fileDescriptorRead_pos htype hsize hzero, hrun, ok_bind]
      rfl
    · rw [hcell, patch_slice]
      simp only [Nat.zero_le, true_and, Nat.zero_add, Nat.sub_zero]

/-- How a read to a buffer of one page ends : all bytes are copied, or it is at the end of the
buffer, or at a byte that has no page. -/
theorem fileDescriptorRead_cases {f : OpenFile} {dest : ℕ} (htype : f.type = .file)
    (hsize : f.size < 2 ^ 64) (hlen : f.pages.len dest = 4096) (size : ℕ) :
    (∃ h, fileDescriptorRead nodeSrc pageSrc f dest size =
        .ok (min size (f.size - f.seekPos),
          { f with pages := h, seekPos := f.seekPos + min size (f.size - f.seekPos) }) ∧
      h.objs = f.pages.objs ∧ min size (f.size - f.seekPos) ≤ 4096 ∧
      ∀ j < min size (f.size - f.seekPos), Readable f (f.seekPos + j)) ∨
    (4096 < min size (f.size - f.seekPos) ∧ (∀ j ≤ 4096, Readable f (f.seekPos + j)) ∧
      fileDescriptorRead nodeSrc pageSrc f dest size = .error (.wild dest 4096)) ∨
    ∃ j < min size (f.size - f.seekPos), j ≤ 4096 ∧ ¬Readable f (f.seekPos + j) ∧
      ∃ e, fileDescriptorRead nodeSrc pageSrc f dest size = .error e ∧ e.Within 4096 := by
  by_cases hzero : min size (f.size - f.seekPos) = 0
  · rw [fileDescriptorRead_zero htype hsize hzero, hzero, Nat.add_zero]
    exact Or.inl ⟨f.pages, rfl, rfl, by omega, fun j hj => absurd hj (Nat.not_lt_zero j)⟩
  · rw [fileDescriptorRead_pos htype hsize hzero]
    obtain ⟨h, hrun, hobjs, hroom, hread⟩ | ⟨m, hm, hdm, hread, hrun⟩ |
        ⟨m, hm, hdm, hend, e, hrun, hw⟩ :=
      @readFrom_cases nodeSrc pageSrc dest (min size (f.size - f.seekPos)) f.seekPos 0 f hlen
        (by omega) hsize (by omega)
    · rw [hrun, ok_bind]
      exact Or.inl ⟨h, rfl, hobjs, by omega, hread⟩
    · rw [hrun, error_bind]
      exact Or.inr (Or.inl ⟨by omega, fun j hj => hread j (by omega), rfl⟩)
    · rw [hrun, error_bind]
      exact Or.inr (Or.inr ⟨m, hm, by omega, hend, e, rfl, hw⟩)

/-- The `for` loop does not get past the end of the page. -/
theorem readPage_past {page dest : ℕ} : ∀ (n offset destOffset : ℕ) {h : Heap (BitVec 8)},
    0 < n → offset % 4096 + n ≤ 4096 → offset + n < 2 ^ 64 → h.len page < offset % 4096 + n →
    ∃ e, readPage page dest n offset destOffset h = .error e
  | n + 1, offset, destOffset, h, _, hpage, hwrap, hpast => by
    rw [readPage]
    rcases Nat.lt_or_ge (offset % 4096) (h.len page) with hload | hload
    · rw [Heap.load_eq_ok hload, ok_bind]
      cases hst : (h.store dest destOffset (h.cell page (offset % 4096)) :
          Except (Fault Panic) (Heap (BitVec 8))) with
      | error e => exact ⟨e, rfl⟩
      | ok h1 =>
        rw [ok_bind, Nat.mod_eq_of_lt (by omega)]
        have hlen : h1.len page = h.len page := by
          unfold Heap.store at hst
          split_ifs at hst
          cases hst
          rfl
        refine readPage_past n (offset + 1) _ (by omega) (by omega) (by omega) ?_
        rw [hlen]
        omega
    · rw [Heap.load_eq_wild hload]
      exact ⟨_, rfl⟩

/-- A read of bytes of one page, of which one cannot be read. -/
theorem fileDescriptorRead_unreadable {f : OpenFile} {dest size : ℕ} (htype : f.type = .file)
    (hsize : f.size < 2 ^ 64) (hpage : f.seekPos % 4096 + min size (f.size - f.seekPos) ≤ 4096)
    (h : ∃ i < min size (f.size - f.seekPos), ¬Readable f (f.seekPos + i)) :
    ∃ e, fileDescriptorRead nodeSrc pageSrc f dest size = .error e := by
  obtain ⟨i, hi, hread⟩ := h
  have hend : pageEnd (min size (f.size - f.seekPos)) f.seekPos =
      min size (f.size - f.seekPos) := Nat.min_eq_left (by omega)
  rw [fileDescriptorRead_pos htype hsize (by omega), readFrom, dif_pos (by omega), hend]
  by_cases h0 : f.page (f.seekPos / 4096) = 0
  · obtain ⟨e, he, -⟩ := findPageStart_of_eq nodeSrc pageSrc (by omega) h0
    rw [he]
    exact ⟨e, rfl⟩
  · have hlen : f.pages.len (f.page (f.seekPos / 4096)) ≤ f.seekPos % 4096 + i := by
      by_contra hlt
      apply hread
      rw [Readable, show (f.seekPos + i) / 4096 = f.seekPos / 4096 by omega,
        show (f.seekPos + i) % 4096 = f.seekPos % 4096 + i by omega]
      exact ⟨h0, by omega⟩
    obtain ⟨e, he⟩ := @readPage_past (f.page (f.seekPos / 4096)) dest
      (min size (f.size - f.seekPos)) f.seekPos 0 f.pages (by omega) hpage (by omega) (by omega)
    rw [findPageStart_of_ne nodeSrc pageSrc h0, ok_bind]
    simp only [he]
    exact ⟨e, rfl⟩

/-- A read of a file with all its pages, to a buffer that has room for the bytes. -/
theorem fileDescriptorRead_correct {f : OpenFile} {dest size : ℕ} (hf : PagesPresent f)
    (htype : f.type = .file) (hdest : BufferApart f dest)
    (hroom : min size (f.size - f.seekPos) ≤ f.pages.len dest) :
    ReadCorrect nodeSrc pageSrc f dest size := by
  obtain ⟨h, hrun, hobjs, hother, hcell⟩ := @fileDescriptorRead_eq nodeSrc pageSrc f dest size htype
    hf.size_lt (fun i hi => ⟨hf.readable (by omega), hdest _ (by omega)⟩) hroom
  exact ⟨h, hrun, hobjs, hother, hcell, fun k hk => byte_setPages (hdest _ (by omega)) hother⟩

/-- The file of one page, with the descriptor 96 bytes before its end, and a buffer of one page
at `0x3000`. -/
def readOnePage : OpenFile :=
  { fileOnePage with seekPos := 4000, pages := fileOnePage.pages.push 0x3000 4096 }

theorem readOnePage_present : PagesPresent readOnePage := by
  have hf := fileOnePage_ready.noHoles
  refine ⟨hf.size_lt, hf.getPage, hf.page_ne, fun k hk => ?_⟩
  have hlt : 4096 * k < 4096 := hk
  obtain rfl : k = 0 := by omega
  decide

theorem fileDescriptorRead_correct_readOnePage :
    PagesPresent readOnePage ∧ ReadCorrect bumpNodes bumpBytePages readOnePage 0x3000 200 := by
  refine ⟨readOnePage_present, fileDescriptorRead_correct readOnePage_present rfl ?_ (by decide)⟩
  intro k hk
  have hlt : 4096 * k < 4096 := hk
  obtain rfl : k = 0 := by omega
  decide

end Toastium
