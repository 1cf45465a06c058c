import Toastium.AllocatorInv

/-!
# What `mem_alloc` and `mem_free` do to the rows

`mem_alloc` moves along the array of the index pages with a page and an entry of it, which
can be one past the last of the page (`Cursor`). `confirmIdxPage_spec` brings it back to a
page, with a new page linked if there is none. From the first row on, `findBlock` finds the
first row with a free block, creates one if all rows are full, and marks the block
(`findBlock_spec`). `memAlloc_spec` is what `mem_alloc` does if its hint leads to the first
index page, and `memFree_spec` what `mem_free` does to a block of the first row, where it
finds the very bit that `mem_alloc` set.
-/

namespace Toastium

/-! ## Marks -/

namespace Row

/-- Block `n` of the row is marked as used. -/
def used (r : Row) (n : ℕ) : Bool :=
  (r.bits (n / 64)).getLsbD (n % 64)

/-- The row with block `n` marked. -/
def mark (r : Row) (n : ℕ) : Row :=
  { r with bits := Function.update r.bits (n / 64) (setBit (r.bits (n / 64)) (n % 64)) }

/-- The row with block `n` no longer marked. -/
def unmark (r : Row) (n : ℕ) : Row :=
  { r with bits := Function.update r.bits (n / 64) (clearBit (r.bits (n / 64)) (n % 64)) }

theorem used_mark (r : Row) (n m : ℕ) : (r.mark n).used m = (r.used m || decide (m = n)) := by
  unfold used mark
  by_cases hw : m / 64 = n / 64
  · have hiff : m % 64 = n % 64 ↔ m = n := by omega
    simp only [hw, Function.update_self]
    rw [getLsbD_setBit (by omega), decide_eq_decide.mpr hiff]
  · have hne : m ≠ n := fun e => hw (by rw [e])
    simp only [Function.update_of_ne hw, hne, decide_false, Bool.or_false]

theorem used_unmark (r : Row) (n m : ℕ) :
    (r.unmark n).used m = (r.used m && decide (m ≠ n)) := by
  unfold used unmark
  by_cases hw : m / 64 = n / 64
  · have hiff : m % 64 ≠ n % 64 ↔ m ≠ n := by omega
    simp only [hw, Function.update_self]
    rw [getLsbD_clearBit (by omega), decide_eq_decide.mpr hiff]
  · have hne : m ≠ n := fun e => hw (by rw [e])
    simp [Function.update_of_ne hw, hne]

end Row

/-- Block `n` of row `j` of class `c`, on the data page `d`, is marked as used. -/
def UsedAt (rows : ℕ → List Row) (c j n d : ℕ) : Prop :=
  ∃ r, (rows c)[j]? = some r ∧ r.dataPage = d ∧ r.used n = true

/-- Row `j` of class `c` replaced by a row of the same data page. -/
theorem usedAt_set {rows : ℕ → List Row} {c j : ℕ} {r r' : Row} (hr : (rows c)[j]? = some r)
    (hd : r'.dataPage = r.dataPage) (c' j' n' d' : ℕ) :
    UsedAt (Function.update rows c ((rows c).set j r')) c' j' n' d' ↔
      if c' = c ∧ j' = j then r.dataPage = d' ∧ r'.used n' = true else UsedAt rows c' j' n' d' := by
  have hlt := (List.getElem?_eq_some_iff.mp hr).1
  unfold UsedAt
  by_cases hc : c' = c
  · subst hc
    rw [Function.update_self]
    by_cases hj : j' = j
    · subst hj
      simp [List.getElem?_set_self hlt, hd]
    · simp [List.getElem?_set_ne (fun e => hj e.symm), hj]
  · simp [hc]

/-- A block marked. -/
theorem usedAt_mark {rows : ℕ → List Row} {c j : ℕ} {r : Row} (hr : (rows c)[j]? = some r)
    (n c' j' n' d' : ℕ) :
    UsedAt (Function.update rows c ((rows c).set j (r.mark n))) c' j' n' d' ↔
      UsedAt rows c' j' n' d' ∨ c' = c ∧ j' = j ∧ n' = n ∧ d' = r.dataPage := by
  rw [usedAt_set hr (show (r.mark n).dataPage = r.dataPage from rfl), Row.used_mark]
  split_ifs with h
  · obtain ⟨rfl, rfl⟩ := h
    have hu : UsedAt rows c' j' n' d' ↔ r.dataPage = d' ∧ r.used n' = true := by
      simp [UsedAt, hr]
    rw [hu]
    simp only [Bool.or_eq_true, decide_eq_true_eq, true_and, eq_comm (a := d')]
    tauto
  · simp only [← and_assoc, h, false_and, or_false]

/-- A block no longer marked. -/
theorem usedAt_unmark {rows : ℕ → List Row} {c j : ℕ} {r : Row} (hr : (rows c)[j]? = some r)
    (n c' j' n' d' : ℕ) :
    UsedAt (Function.update rows c ((rows c).set j (r.unmark n))) c' j' n' d' ↔
      UsedAt rows c' j' n' d' ∧ ¬(c' = c ∧ j' = j ∧ n' = n) := by
  rw [usedAt_set hr (show (r.unmark n).dataPage = r.dataPage from rfl), Row.used_unmark]
  split_ifs with h
  · obtain ⟨rfl, rfl⟩ := h
    simp [UsedAt, hr, and_assoc]
  · simp only [← and_assoc, h, false_and, not_false_eq_true, and_true]

/-- A new row has no block marked. -/
theorem usedAt_concat (rows : ℕ → List Row) (c d : ℕ) (num : BitVec 64) (c' j' n' d' : ℕ) :
    UsedAt (Function.update rows c (rows c ++ [⟨d, num, fun _ => 0⟩])) c' j' n' d' ↔
      UsedAt rows c' j' n' d' := by
  unfold UsedAt
  by_cases hc : c' = c
  · subst hc
    rw [Function.update_self]
    constructor
    · rintro ⟨r, hr, hd, hu⟩
      rcases getElem?_concat_iff.mp hr with hr | ⟨-, rfl⟩
      · exact ⟨r, hr, hd, hu⟩
      · simp [Row.used] at hu
    · rintro ⟨r, hr, hd, hu⟩
      exact ⟨r, getElem?_concat_iff.mpr (Or.inl hr), hd, hu⟩
  · rw [Function.update_of_ne hc]

/-! ## The cursor of `mem_alloc` -/

/-- The page and the entry at which `mem_alloc` is, when it is at word `m` of the array of
the index pages : after the last word of a page, it is still on that page. -/
def Cursor (ps : List ℕ) (m page entry : ℕ) : Prop :=
  ps[m / 510]? = some page ∧ entry = m % 510 + 1 ∨
    0 < m ∧ m % 510 = 0 ∧ ps[m / 510 - 1]? = some page ∧ entry = 511

theorem cursor_succ {ps : List ℕ} {m page : ℕ} (h : ps[m / 510]? = some page) :
    Cursor ps (m + 1) page (m % 510 + 1 + 1) := by
  by_cases hm : m % 510 = 509
  · refine Or.inr ⟨by omega, by omega, ?_, by omega⟩
    rw [show (m + 1) / 510 - 1 = m / 510 by omega, h]
  · refine Or.inl ⟨?_, by omega⟩
    rw [show (m + 1) / 510 = m / 510 by omega, h]

/-- More index pages. -/
def Extends (ps ps' : ℕ → List ℕ) : Prop :=
  ∀ c, ps c <+: ps' c

theorem Extends.refl (ps : ℕ → List ℕ) : Extends ps ps := fun _ => List.prefix_rfl

theorem Extends.trans {ps ps' ps'' : ℕ → List ℕ} (h : Extends ps ps') (h' : Extends ps' ps'') :
    Extends ps ps'' := fun c => (h c).trans (h' c)

theorem Extends.getElem? {ps ps' : ℕ → List ℕ} (h : Extends ps ps') {c i p : ℕ}
    (hp : (ps c)[i]? = some p) : (ps' c)[i]? = some p := by
  obtain ⟨t, ht⟩ := h c
  rw [← ht, List.getElem?_append_left (List.getElem?_eq_some_iff.mp hp).1, hp]

theorem extends_update (ps : ℕ → List ℕ) {c : ℕ} {l : List ℕ} (h : ps c <+: l) :
    Extends ps (Function.update ps c l) := by
  intro c'
  by_cases hc : c' = c
  · subst hc
    rwa [Function.update_self]
  · rw [Function.update_of_ne hc]

namespace Allocator

variable {src : PageSource} {s s' : Allocator} {ps : ℕ → List ℕ} {rows : ℕ → List Row}
  {role : ℕ → Option PageRole}

theorem newIdxPage_eq_ok {q : ℕ} (h : s.newIdxPage src = .ok (q, s')) :
    src.next s.heap = some q ∧
      s' = { s with heap := s.heap.push q 512, idxPages := q :: s.idxPages } := by
  obtain ⟨⟨p, heap⟩, halloc, hret⟩ := bind_eq_ok.mp h
  obtain ⟨hq, rfl⟩ := Source.alloc_eq_ok.mp halloc
  simp only [pure_eq_ok, Except.ok.injEq, Prod.mk.injEq] at hret
  obtain ⟨rfl, rfl⟩ := hret
  exact ⟨hq, rfl⟩

theorem newDataPage_eq_ok {d : ℕ} (h : s.newDataPage src = .ok (d, s')) :
    src.next s.heap = some d ∧
      s' = { s with heap := s.heap.push d 512, dataPages := d :: s.dataPages } := by
  obtain ⟨⟨p, heap⟩, halloc, hret⟩ := bind_eq_ok.mp h
  obtain ⟨hq, rfl⟩ := Source.alloc_eq_ok.mp halloc
  simp only [pure_eq_ok, Except.ok.injEq, Prod.mk.injEq] at hret
  obtain ⟨rfl, rfl⟩ := hret
  exact ⟨hq, rfl⟩

theorem store_eq_ok {p i : ℕ} {v : BitVec 64} (hi : i < s.heap.len p) :
    s.store p i v = .ok { s with heap := s.heap.set p i v } := by
  rw [store, Heap.store_eq_ok hi]
  rfl

theorem createDataPage_eq_ok {page entry pow2 compressed num : ℕ} (hlen : s.heap.len page = 512)
    (hentry : entry < 512) (h : s.createDataPage src page entry pow2 compressed num = .ok s') :
    ∃ d, src.next s.heap = some d ∧ s' = { s with
      heap := (((((s.heap.push d 512).set page entry (BitVec.ofNat 64 d)).set d 0
        (BitVec.ofNat 64 pow2)).set d 1 (BitVec.ofNat 64 num)).set d 2
        (BitVec.ofNat 64 compressed))
      dataPages := d :: s.dataPages } := by
  obtain ⟨⟨d, s1⟩, hnew, hstores⟩ := bind_eq_ok.mp h
  obtain ⟨hd, rfl⟩ := newDataPage_eq_ok hnew
  have hlt := src.lt hd
  have hne : page ≠ d := by
    rintro rfl
    have := src.fresh hd
    omega
  have hlen' : (s.heap.push d 512).len page = 512 := by rw [Heap.len_push_of_ne _ _ hne, hlen]
  have hlend : (s.heap.push d 512).len d = 512 := Heap.len_push_self _ _ _
  have htoNat : (BitVec.ofNat 64 d).toNat = d := by
    rw [BitVec.toNat_ofNat, Nat.mod_eq_of_lt (by omega)]
  dsimp only at hstores
  rw [store_eq_ok (by simp only [hlen']; exact hentry), ok_bind,
    Heap.load_set_self (by simp only [hlen']; exact hentry), ok_bind, htoNat,
    store_eq_ok (by simp only [Heap.len_set, hlend]; omega), ok_bind,
    store_eq_ok (by simp only [Heap.len_set, hlend]; omega), ok_bind,
    store_eq_ok (by simp only [Heap.len_set, hlend]; omega)] at hstores
  cases hstores
  exact ⟨d, hd, rfl⟩

/-- `confirm_idx_page` brings the cursor to the page of its word. -/
theorem confirmIdxPage_spec (hs : AllocInv s ps rows role) {c m page entry page' entry' : ℕ}
    (hcur : Cursor (ps c) m page entry)
    (h : s.confirmIdxPage src page entry = .ok ((page', entry'), s')) :
    ∃ ps' role', AllocInv s' ps' rows role' ∧ Extends ps ps' ∧
      s'.lowestFreeEntry = s.lowestFreeEntry ∧
      (ps' c)[m / 510]? = some page' ∧ entry' = m % 510 + 1 := by
  unfold confirmIdxPage at h
  rcases hcur with ⟨hp, rfl⟩ | ⟨hm, hmod, hp, rfl⟩
  · rw [if_neg (by unfold maxIdxPageBitmapEntrys; omega)] at h
    cases h
    exact ⟨ps, role, hs, Extends.refl ps, rfl, hp, rfl⟩
  rw [if_pos (by decide)] at h
  have hchain := (hs.ok c).chain
  have hlen : s.heap.len page = 512 := hchain.len page (List.mem_of_getElem? hp)
  have hload : (s.heap.load page 0 : Except (Fault Panic) _) = .ok (s.heap.cell page 0) :=
    Heap.load_eq_ok (by omega)
  unfold linkIdxPage at h
  rw [hload, ok_bind] at h
  by_cases hz : s.heap.cell page 0 = 0
  · -- the last page : a new one is linked to it
    have hlast := (hchain.link_eq_zero_iff hp).mp hz
    have hget : (ps c).getLast? = some page := by
      rw [List.getLast?_eq_getElem?, hlast, Nat.add_sub_cancel, hp]
    rw [if_pos hz] at h
    obtain ⟨s1, hlink, hnext⟩ := bind_eq_ok.mp h
    obtain ⟨⟨q, s2⟩, hnew, hstore⟩ := bind_eq_ok.mp hlink
    obtain ⟨hq, rfl⟩ := newIdxPage_eq_ok hnew
    have hqlt := src.lt hq
    have hlen' : (s.heap.push q 512).len page = 512 := by
      rw [Heap.len_push_of_ne _ _ (hs.idx_ne_fresh (List.mem_of_getElem? hp) (src.fresh hq)), hlen]
    dsimp only at hstore
    rw [store_eq_ok (by simp only [hlen']; omega)] at hstore
    cases hstore
    dsimp only at hnext
    rw [Heap.load_set_self (by omega), ok_bind] at hnext
    cases hnext
    refine ⟨_, _, hs.link hget hq, extends_update ps (List.prefix_append _ _), rfl, ?_, by omega⟩
    rw [Function.update_self, BitVec.toNat_ofNat, Nat.mod_eq_of_lt (by omega),
      List.getElem?_append_right (by omega), show m / 510 - (ps c).length = 0 by omega]
    rfl
  · rw [if_neg hz, pure_eq_ok, ok_bind, hload, ok_bind] at h
    cases h
    refine ⟨ps, role, hs, Extends.refl ps, rfl, ?_, by omega⟩
    have hlink := hchain.link _ page hp
    have hne : (ps c).length ≠ m / 510 - 1 + 1 := fun e => hz ((hchain.link_eq_zero_iff hp).mpr e)
    have hlt := (List.getElem?_eq_some_iff.mp hp).1
    rw [show m / 510 - 1 + 1 = m / 510 by omega] at hlink
    rw [hlink, List.getElem?_eq_getElem (by omega), Option.getD_some]

/-- The word at the cursor. -/
theorem load_slot (hs : AllocInv s ps rows role) {c m page : ℕ}
    (hp : (ps c)[m / 510]? = some page) :
    (s.heap.load page (m % 510 + 1) : Except (Fault Panic) _) =
      .ok (rowsWord (rows c) (classCnt c + 1) m) := by
  have hok := hs.ok c
  rw [Heap.load_eq_ok (by rw [hok.chain.len page (List.mem_of_getElem? hp)]; omega), ← hok.word m,
    slot, hp, Option.elim_some]

/-- The row that `fetch_and_confirm_data_page` finds or creates. -/
def NewRow (rows rows' : ℕ → List Row) (c i num : ℕ) : Prop :=
  i < (rows c).length ∧ rows' = rows ∨
    i = (rows c).length ∧
      ∃ d, rows' = Function.update rows c (rows c ++ [⟨d, BitVec.ofNat 64 num, fun _ => 0⟩])

/-- `fetch_and_confirm_data_page` at the first word of row `i`. -/
theorem fetchAndConfirmDataPage_spec (hs : AllocInv s ps rows role) {c i page num d : ℕ}
    (hi : i ≤ (rows c).length)
    (hp : (ps c)[(classCnt c + 1) * i / 510]? = some page)
    (hnum : i = (rows c).length → (BitVec.ofNat 64 num = 0#64 ↔ (rows c).length = 0))
    (h : s.fetchAndConfirmDataPage src page ((classCnt c + 1) * i % 510 + 1) (2 ^ c) c num =
      .ok (d, s')) :
    ∃ rows' role' r, AllocInv s' ps rows' role' ∧ NewRow rows rows' c i num ∧
      s'.lowestFreeEntry = s.lowestFreeEntry ∧ (rows' c)[i]? = some r ∧ r.dataPage = d := by
  unfold fetchAndConfirmDataPage at h
  have hload := load_slot hs hp
  rw [hload, ok_bind, rowsWord_dataPage (Nat.succ_pos _)] at h
  rcases Nat.lt_or_ge i (rows c).length with hlt | hge
  · have hr : (rows c)[i]? = some (rows c)[i] := List.getElem?_eq_getElem hlt
    obtain ⟨k, hk⟩ := hs.role_of_mem_rows (List.mem_of_getElem? hr)
    have hpage := hs.page _ _ hk
    have hpos := hpage.pos
    have hle := hpage.lt
    have htoNat : (BitVec.ofNat 64 (rows c)[i].dataPage).toNat = (rows c)[i].dataPage := by
      rw [BitVec.toNat_ofNat, Nat.mod_eq_of_lt (by omega)]
    have hne : BitVec.ofNat 64 (rows c)[i].dataPage ≠ 0 := fun e => by
      rw [e] at htoNat
      simp only [BitVec.ofNat_eq_ofNat, BitVec.toNat_ofNat] at htoNat
      omega
    rw [hr, Option.elim_some, if_neg hne, pure_eq_ok, ok_bind] at h
    dsimp only at h
    rw [hload, ok_bind, rowsWord_dataPage (Nat.succ_pos _), hr, Option.elim_some, htoNat] at h
    cases h
    exact ⟨rows, role, _, hs, Or.inl ⟨hlt, rfl⟩, rfl, hr, rfl⟩
  · obtain rfl : i = (rows c).length := by omega
    rw [List.getElem?_eq_none le_rfl, Option.elim_none, if_pos rfl] at h
    obtain ⟨s1, hcreate, hret⟩ := bind_eq_ok.mp h
    have hlen := (hs.ok c).chain.len page (List.mem_of_getElem? hp)
    obtain ⟨q, hq, rfl⟩ := createDataPage_eq_ok hlen (by omega) hcreate
    have hqlt := src.lt hq
    have htoNat : (BitVec.ofNat 64 q).toNat = q := by
      rw [BitVec.toNat_ofNat, Nat.mod_eq_of_lt (by omega)]
    have hinv := hs.addRow (c := c) rfl hp hq (hnum rfl)
    dsimp only at hret
    rw [load_slot hinv hp, ok_bind, rowsWord_dataPage (Nat.succ_pos _), Function.update_self,
      List.getElem?_concat_length, Option.elim_some, htoNat] at hret
    cases hret
    refine ⟨_, _, ⟨d, BitVec.ofNat 64 num, fun _ => 0⟩, hinv, Or.inr ⟨rfl, d, rfl⟩, rfl, ?_, rfl⟩
    rw [Function.update_self, List.getElem?_concat_length]

/-- Where the loop over the bitmap words of row `i` ends : after the row, if every block from
word `w` on is used, or at the word of a free block, which is then marked. -/
def Scanned (ps : ℕ → List ℕ) (rows : ℕ → List Row) (c i w : ℕ) (r : Row) (page entry : ℕ)
    (found : Option ℕ) (rows' : ℕ → List Row) : Prop :=
  (found = none ∧ rows' = rows ∧ (∀ n, w * 64 ≤ n → n < classCnt c → r.used n = true) ∧
    Cursor (ps c) ((classCnt c + 1) * (i + 1)) page entry) ∨
  (∃ n, found = some n ∧ n < classCnt c ∧ r.used n = false ∧
    rows' = Function.update rows c ((rows c).set i (r.mark n)) ∧
    (ps c)[((classCnt c + 1) * i + 1 + n / 64) / 510]? = some page ∧
    entry = ((classCnt c + 1) * i + 1 + n / 64) % 510 + 1)

/-- A word is passed over if every block of it is used. -/
theorem Scanned.pass {ps : ℕ → List ℕ} {rows rows' : ℕ → List Row} {c i w : ℕ} {r : Row}
    {page entry : ℕ} {found : Option ℕ} (h : Scanned ps rows c i (w + 1) r page entry found rows')
    (hfull : ∀ n, n / 64 = w → n < classCnt c → r.used n = true)
    (hfirst : ∀ n, found = some n → ∀ b, (w + 1) * 64 ≤ b → b < n → r.used b = true) :
    Scanned ps rows c i w r page entry found rows' ∧
      ∀ n, found = some n → ∀ b, w * 64 ≤ b → b < n → r.used b = true := by
  constructor
  · refine h.imp_left fun ⟨hf, hrows, hused, hcur⟩ => ⟨hf, hrows, fun n hn hlt => ?_, hcur⟩
    rcases Nat.lt_or_ge n ((w + 1) * 64) with hlt' | hge
    · exact hfull n (by omega) hlt
    · exact hused n hge hlt
  · intro n hn b hle hlt
    rcases Nat.lt_or_ge b ((w + 1) * 64) with hlt' | hge
    · obtain ⟨hnone, -⟩ | ⟨n', hsome, hn', -⟩ := h
      · rw [hnone] at hn
        cases hn
      · rw [hsome] at hn
        cases hn
        exact hfull b (by omega) (by omega)
    · exact hfirst n hn b hge hlt

/-- The loop over the bitmap words of row `i`, from word `w` on. -/
theorem findBit_spec {c i : ℕ} {r : Row} : ∀ (m w : ℕ) {s s' : Allocator} {ps : ℕ → List ℕ}
    {role : ℕ → Option PageRole} {page entry page' entry' : ℕ} {found : Option ℕ},
    AllocInv s ps rows role → (rows c)[i]? = some r → w + m = classCnt c →
    Cursor (ps c) ((classCnt c + 1) * i + 1 + w) page entry →
    s.findBit src (classCnt c) m w page entry = .ok ((page', entry', found), s') →
    ∃ ps' rows' role', AllocInv s' ps' rows' role' ∧ Extends ps ps' ∧
      s'.lowestFreeEntry = s.lowestFreeEntry ∧ Scanned ps' rows c i w r page' entry' found rows' ∧
      ∀ n, found = some n → ∀ b, w * 64 ≤ b → b < n → r.used b = true
  | 0, w, s, s', ps, role, page, entry, page', entry', found, hs, hr, hm, hcur, h => by
    cases h
    refine ⟨ps, rows, role, hs, Extends.refl ps, rfl, Or.inl ⟨rfl, rfl, fun n hn hlt => ?_, ?_⟩,
      fun n hn => nomatch hn⟩
    · omega
    · have hrow : (classCnt c + 1) * (i + 1) = (classCnt c + 1) * i + 1 + w := by
        rw [Nat.mul_succ]
        omega
      rw [hrow]
      exact hcur
  | m + 1, w, s, s', ps, role, page, entry, page', entry', found, hs, hr, hm, hcur, h => by
    unfold findBit at h
    obtain ⟨⟨⟨page1, entry1⟩, s1⟩, hconfirm, hrest⟩ := bind_eq_ok.mp h
    obtain ⟨ps1, role1, hs1, hext1, hlow1, hp1, rfl⟩ := confirmIdxPage_spec hs hcur hconfirm
    dsimp only at hrest
    rw [load_slot hs1 hp1, ok_bind, rowsWord_bits hr (by omega)] at hrest
    have hpass : (∀ n, n / 64 = w → n < classCnt c → r.used n = true) →
        s1.findBit src (classCnt c) m (w + 1) page1
          (((classCnt c + 1) * i + 1 + w) % 510 + 1 + 1) = .ok ((page', entry', found), s') →
        ∃ ps' rows' role', AllocInv s' ps' rows' role' ∧ Extends ps ps' ∧
          s'.lowestFreeEntry = s.lowestFreeEntry ∧
          Scanned ps' rows c i w r page' entry' found rows' ∧
          ∀ n, found = some n → ∀ b, w * 64 ≤ b → b < n → r.used b = true := fun hfull hnext => by
      obtain ⟨ps2, rows2, role2, hs2, hext2, hlow2, hres, hfirst⟩ :=
        findBit_spec m (w + 1) hs1 hr (by omega) (cursor_succ hp1) hnext
      exact ⟨ps2, rows2, role2, hs2, hext1.trans hext2, hlow2.trans hlow1, hres.pass hfull hfirst⟩
    by_cases hones : r.bits w = BitVec.allOnes 64
    · rw [if_pos hones] at hrest
      refine hpass (fun n hn _ => ?_) hrest
      rw [Row.used, hn]
      exact eq_allOnes_iff.mp hones _ (by omega)
    rw [if_neg hones] at hrest
    have hbit := firstClear_lt hones
    by_cases hge : w * 64 + firstClear (r.bits w) ≥ classCnt c
    · rw [if_pos hge] at hrest
      refine hpass (fun n hn hlt => ?_) hrest
      rw [Row.used, hn]
      exact getLsbD_of_lt_firstClear (by omega) (by omega)
    rw [if_neg hge, getLsbD_firstClear hones, if_neg Bool.false_ne_true,
      store_eq_ok (by rw [(hs1.ok c).chain.len page1 (List.mem_of_getElem? hp1)]; omega),
      ok_bind] at hrest
    cases hrest
    have hdiv : (w * 64 + firstClear (r.bits w)) / 64 = w := by omega
    have hmod : (w * 64 + firstClear (r.bits w)) % 64 = firstClear (r.bits w) := by omega
    have hinv := hs1.setWord hr (w := w) (by omega) rfl hp1
      (setBit (r.bits w) (firstClear (r.bits w)))
    refine ⟨ps1, _, role1, hinv, hext1, hlow1, Or.inr ⟨_, rfl, by omega, ?_, ?_, ?_, ?_⟩,
      fun n hn b hle hlt => ?_⟩
    · rw [Row.used, hdiv, hmod, getLsbD_firstClear hones]
    · rw [Row.mark, hdiv, hmod]
    · rw [hdiv, hp1]
    · rw [hdiv]
    · cases hn
      rw [Row.used, show b / 64 = w by omega]
      exact getLsbD_of_lt_firstClear (by omega) (by omega)

/-- What `mem_alloc` returned for block `n` of row `j` of class `c`, on data page `d`. -/
structure PlacedAt (ps : ℕ → List ℕ) (c j n d : ℕ) (g : BlockGrant) : Prop where
  lt : n < classCnt c
  location : g.location = d + 2 ^ c * n + 64
  idxPage : (ps c)[((classCnt c + 1) * j + 1 + n / 64) / 510]? = some g.idxPage
  idxEntry : g.idxEntry = ((classCnt c + 1) * j + 1 + n / 64) % 510 + 1
  bit : g.bit = n % 64

/-- Block `n` of row `j` of class `c` was free, and is the only one marked since. Rows are
added up to row `j` only. -/
structure Marked (rows rows' : ℕ → List Row) (c j n d : ℕ) : Prop where
  le : j ≤ (rows c).length
  free : ¬UsedAt rows c j n d
  used : ∀ c' j' n' d', UsedAt rows' c' j' n' d' ↔
    UsedAt rows c' j' n' d' ∨ c' = c ∧ j' = j ∧ n' = n ∧ d' = d
  length : ∀ c', (rows' c').length =
    if c' = c then max (rows c).length (j + 1) else (rows c').length

theorem NewRow.marked {rows rows1 : ℕ → List Row} {c i num n : ℕ} {r : Row}
    (h : NewRow rows rows1 c i num) (hr : (rows1 c)[i]? = some r) (hn : r.used n = false) :
    Marked rows (Function.update rows1 c ((rows1 c).set i (r.mark n))) c i n r.dataPage := by
  have hlt := (List.getElem?_eq_some_iff.mp hr).1
  have hu : ∀ c' j' n' d', UsedAt rows1 c' j' n' d' ↔ UsedAt rows c' j' n' d' := by
    rcases h with ⟨-, rfl⟩ | ⟨-, d, rfl⟩
    · exact fun _ _ _ _ => Iff.rfl
    · exact usedAt_concat rows c d _
  refine ⟨h.elim (fun h => h.1.le) fun h => h.1.le, fun hused => ?_, fun c' j' n' d' => ?_,
    fun c' => ?_⟩
  · obtain ⟨r', hr', -, hu'⟩ := (hu _ _ _ _).mpr hused
    rw [hr] at hr'
    cases hr'
    rw [hn] at hu'
    cases hu'
  · rw [usedAt_mark hr, hu]
  · by_cases hc : c' = c
    · subst hc
      rw [Function.update_self, List.length_set, if_pos rfl]
      rcases h with ⟨hi, rfl⟩ | ⟨hi, d, rfl⟩
      · omega
      · simp [hi]
    · rw [Function.update_of_ne hc, if_neg hc]
      rcases h with ⟨-, rfl⟩ | ⟨-, d, rfl⟩
      · rfl
      · rw [Function.update_of_ne hc]

/-- Row `k` of class `c` was there before, with the same data page and number. -/
def OldRow (rows : ℕ → List Row) (c k : ℕ) (r' : Row) : Prop :=
  ∃ r, (rows c)[k]? = some r ∧ r'.dataPage = r.dataPage ∧ r'.num = r.num

/-- Block `n` of row `j` was the first free one of class `c` from row `i` on. A row that was
added is the last one, and its number is `num` if the rows are counted on from `num`. -/
structure FirstFree (rows rows' : ℕ → List Row) (c i j n num : ℕ) : Prop where
  le : i ≤ j
  full : ∀ k r, i ≤ k → k < j → (rows c)[k]? = some r → ∀ m, m < classCnt c → r.used m = true
  first : ∀ m, m < n → ∃ r, (rows c)[j]? = some r ∧ r.used m = true
  rows : ∀ c' k r', (rows' c')[k]? = some r' → OldRow rows c' k r' ∨
    c' = c ∧ k = (rows c).length ∧ r'.num = BitVec.ofNat 64 (num + ((rows c).length - i))

theorem oldRow_set {rows : ℕ → List Row} {c i : ℕ} {r : Row} (hr : (rows c)[i]? = some r)
    (r' : Row) (hd : r'.dataPage = r.dataPage) (hnum : r'.num = r.num) {c' k : ℕ} {r'' : Row}
    (hk : (Function.update rows c ((rows c).set i r') c')[k]? = some r'') :
    OldRow rows c' k r'' := by
  have hlt := (List.getElem?_eq_some_iff.mp hr).1
  by_cases hc : c' = c
  · subst hc
    rw [Function.update_self] at hk
    by_cases hik : i = k
    · subst hik
      rw [List.getElem?_set_self hlt] at hk
      cases hk
      exact ⟨r, hr, hd, hnum⟩
    · rw [List.getElem?_set_ne hik] at hk
      exact ⟨r'', hk, rfl, rfl⟩
  · rw [Function.update_of_ne hc] at hk
    exact ⟨r'', hk, rfl, rfl⟩

/-- The first free block of row `i` marked. -/
theorem NewRow.firstFree {rows rows1 : ℕ → List Row} {c i num n : ℕ} {r : Row}
    (h : NewRow rows rows1 c i num) (hr : (rows1 c)[i]? = some r)
    (hfirst : ∀ b, b < n → r.used b = true) :
    FirstFree rows (Function.update rows1 c ((rows1 c).set i (r.mark n))) c i i n num := by
  refine ⟨le_rfl, fun k _ hk hlt => absurd hk (by omega), fun m hm => ?_, fun c' k r' hk => ?_⟩
  · obtain ⟨-, rfl⟩ | ⟨rfl, d, rfl⟩ := h
    · exact ⟨r, hr, hfirst m hm⟩
    · rw [Function.update_self, List.getElem?_concat_length] at hr
      cases hr
      have := hfirst m hm
      simp [Row.used] at this
  · obtain ⟨r1, hr1, hd, hnum⟩ := oldRow_set hr (r.mark n) rfl rfl hk
    obtain ⟨-, rfl⟩ | ⟨rfl, d, rfl⟩ := h
    · exact Or.inl ⟨r1, hr1, hd, hnum⟩
    · by_cases hc : c' = c
      · subst hc
        rw [Function.update_self] at hr1
        rcases getElem?_concat_iff.mp hr1 with hr1 | ⟨rfl, rfl⟩
        · exact Or.inl ⟨r1, hr1, hd, hnum⟩
        · exact Or.inr ⟨rfl, rfl, by rw [hnum, Nat.sub_self, Nat.add_zero]⟩
      · rw [Function.update_of_ne hc] at hr1
        exact Or.inl ⟨r1, hr1, hd, hnum⟩

/-- The loop over the rows of class `c`, from row `i` on : the first one with a free block. -/
theorem findBlock_spec {c : ℕ} (hc : 0 < classCnt c) : ∀ (fuel i num : ℕ) {s s' : Allocator}
    {ps : ℕ → List ℕ} {rows : ℕ → List Row} {role : ℕ → Option PageRole} {page entry : ℕ}
    {g : BlockGrant},
    AllocInv s ps rows role → i ≤ (rows c).length →
    (BitVec.ofNat 64 (num + ((rows c).length - i)) = 0#64 ↔ (rows c).length = 0) →
    Cursor (ps c) ((classCnt c + 1) * i) page entry →
    s.findBlock src (2 ^ c) c (classCnt c) fuel num page entry = .ok (g, s') →
    ∃ ps' rows' role' j n d, AllocInv s' ps' rows' role' ∧ Extends ps ps' ∧
      Marked rows rows' c j n d ∧ PlacedAt ps' c j n d g ∧
      FirstFree rows rows' c i j n num ∧ s'.lowestFreeEntry = Function.update s.lowestFreeEntry c
        (max (s.lowestFreeEntry c) (classCnt c * (num + (j - i)) + n))
  | 0, i, num, s, s', ps, rows, role, page, entry, g, hs, hi, hnum, hcur, h => by
    cases h
  | fuel + 1, i, num, s, s', ps, rows, role, page, entry, g, hs, hi, hnum, hcur, h => by
    unfold findBlock at h
    obtain ⟨⟨⟨page1, entry1⟩, s1⟩, hconfirm, h⟩ := bind_eq_ok.mp h
    obtain ⟨ps1, role1, hs1, hext1, hlow1, hp1, rfl⟩ := confirmIdxPage_spec hs hcur hconfirm
    obtain ⟨⟨d, s2⟩, hfetch, h⟩ := bind_eq_ok.mp h
    have hnum' : i = (rows c).length → (BitVec.ofNat 64 num = 0#64 ↔ (rows c).length = 0) := by
      rintro rfl
      simpa using hnum
    obtain ⟨rows2, role2, r, hs2, hnew, hlow2, hr, rfl⟩ :=
      fetchAndConfirmDataPage_spec hs1 hi hp1 hnum' hfetch
    obtain ⟨⟨⟨page3, entry3, found⟩, s3⟩, hfind, h⟩ := bind_eq_ok.mp h
    obtain ⟨ps3, rows3, role3, hs3, hext3, hlow3, hscan, hbelow⟩ :=
      findBit_spec (classCnt c) 0 hs2 hr (by omega) (cursor_succ hp1) hfind
    rcases hscan with ⟨rfl, rfl, hfull, hcur3⟩ | ⟨n, rfl, hn, hfree, rfl, hp3, rfl⟩
    · -- the row is full, so it is an old one
      rcases hnew with ⟨hlt, rfl⟩ | ⟨rfl, d, rfl⟩
      · have hnum3 : BitVec.ofNat 64 (num + 1 + ((rows3 c).length - (i + 1))) = 0#64 ↔
            (rows3 c).length = 0 := by
          rw [show num + 1 + ((rows3 c).length - (i + 1)) = num + ((rows3 c).length - i) by omega]
          exact hnum
        obtain ⟨ps4, rows4, role4, j, n, d, hs4, hext4, hmark, hplace, hfirst, hlow4⟩ :=
          findBlock_spec hc fuel (i + 1) (num + 1) hs3 hlt hnum3 hcur3 h
        have hij := hfirst.le
        refine ⟨ps4, rows4, role4, j, n, d, hs4, (hext1.trans hext3).trans hext4, hmark, hplace,
          ⟨by omega, fun k r' hk hkj hr' m hm => ?_, hfirst.first, fun c' k r' hk => ?_⟩, ?_⟩
        · rcases Nat.eq_or_lt_of_le hk with rfl | hlt'
          · rw [hr] at hr'
            cases hr'
            exact hfull m (by omega) hm
          · exact hfirst.full k r' hlt' hkj hr' m hm
        · rw [show num + ((rows3 c).length - i) = num + 1 + ((rows3 c).length - (i + 1)) by omega]
          exact hfirst.rows c' k r' hk
        · rw [hlow4, hlow3, hlow2, hlow1, show num + 1 + (j - (i + 1)) = num + (j - i) by omega]
      · rw [Function.update_self, List.getElem?_concat_length] at hr
        cases hr
        have := hfull 0 (by omega) hc
        simp [Row.used] at this
    · cases h
      refine ⟨ps3, _, role3, i, n, r.dataPage, ?_, hext1.trans hext3, hnew.marked hr hfree,
        ⟨hn, rfl, hp3, rfl, rfl⟩, hnew.firstFree hr fun b => hbelow n rfl b (by omega), ?_⟩
      · exact ⟨hs3.idx, hs3.data, hs3.idxPages, hs3.dataPages, hs3.page, hs3.ok⟩
      · rw [Nat.sub_self, Nat.add_zero, ← hlow1, ← hlow2, ← hlow3]
        rfl

/-! ## `mem_alloc` -/

theorem compressedSize_le (size : ℕ) : size ≤ 2 ^ compressedSize size := by
  unfold compressedSize
  split_ifs with h
  · exact Nat.lt_log2_self.le
  · exact (not_not.mp h).ge

theorem classCnt_pos {c : ℕ} (hc : c < 12) : 0 < classCnt c := by
  have : 2 ^ c ≤ 2 ^ 11 := Nat.pow_le_pow_right (by decide) (by omega)
  exact Nat.div_pos (by unfold kernelPageSize; omega) (by positivity)

/-- The blocks of a data page end with the page. -/
theorem block_le {c n : ℕ} (hn : n < classCnt c) : 2 ^ c * n + 2 ^ c ≤ 4032 := by
  calc 2 ^ c * n + 2 ^ c = 2 ^ c * (n + 1) := (Nat.mul_succ _ _).symm
    _ ≤ 2 ^ c * classCnt c := Nat.mul_le_mul_left _ hn
    _ ≤ 4032 := Nat.mul_div_le _ _

/-- There are not more rows than pages. -/
theorem length_rows_le (hs : AllocInv s ps rows role) (c : ℕ) : (rows c).length ≤ 2 ^ 52 := by
  have hinj : ∀ i (hi : i < (rows c).length) j (hj : j < (rows c).length),
      (rows c)[i].dataPage / 4096 = (rows c)[j].dataPage / 4096 → i = j := by
    intro i hi j hj heq
    have hrole : ∀ k (hk : k < (rows c).length), role (rows c)[k].dataPage = some (.data c k) :=
      fun k hk => (hs.data c k _).mp (by rw [List.getElem?_map, List.getElem?_eq_getElem hk]; rfl)
    have hdvdi := (hs.page _ _ (hrole i hi)).dvd
    have hdvdj := (hs.page _ _ (hrole j hj)).dvd
    have he : (rows c)[i].dataPage = (rows c)[j].dataPage := by omega
    have hr := hrole i hi
    rw [he, hrole j hj] at hr
    simpa using hr.symm
  have hlt : ∀ i (hi : i < (rows c).length), (rows c)[i].dataPage / 4096 < 2 ^ 52 := by
    intro i hi
    obtain ⟨k, hk⟩ := hs.role_of_mem_rows (List.getElem_mem hi)
    have := (hs.page _ _ hk).lt
    omega
  have hcard := Fintype.card_le_of_injective
    (fun i : Fin (rows c).length => (⟨(rows c)[i.1].dataPage / 4096, hlt i.1 i.2⟩ : Fin (2 ^ 52)))
    fun i j he => Fin.ext (hinj i.1 i.2 j.1 j.2 (Fin.mk.inj he))
  rwa [Fintype.card_fin, Fintype.card_fin] at hcard

/-- The first index page of a class is there after `mem_alloc` confirmed it. -/
theorem rootPage_spec (hs : AllocInv s ps rows role) {c : ℕ} (h : s.rootPage src c = .ok s') :
    ∃ ps' role', AllocInv s' ps' rows role' ∧ Extends ps ps' ∧
      s'.lowestFreeEntry = s.lowestFreeEntry ∧ (ps' c)[0]? = some (s'.rootIdxPage c) := by
  unfold rootPage at h
  have hroot := (hs.ok c).root
  by_cases hz : s.rootIdxPage c = 0
  · have hnil : ps c = [] := by
      cases hp : (ps c)[0]? with
      | none => simpa using hp
      | some p =>
        have := (hs.ok c).chain.pos p (List.mem_of_getElem? hp)
        rw [hp, Option.getD_some] at hroot
        omega
    rw [if_pos hz] at h
    obtain ⟨⟨q, s1⟩, hnew, hret⟩ := bind_eq_ok.mp h
    obtain ⟨hq, rfl⟩ := newIdxPage_eq_ok hnew
    cases hret
    refine ⟨_, _, hs.root hnil hq, extends_update ps (by rw [hnil]; exact List.nil_prefix), rfl, ?_⟩
    simp
  · rw [if_neg hz] at h
    cases h
    refine ⟨ps, role, hs, Extends.refl ps, rfl, ?_⟩
    cases hp : (ps c)[0]? with
    | none =>
      rw [hp, Option.getD_none] at hroot
      exact absurd hroot hz
    | some p =>
      rw [hp, Option.getD_some] at hroot
      rw [hroot]

/-- `mem_alloc` from the first index page on takes the first free block of the class. -/
theorem memAlloc_spec (hs : AllocInv s ps rows role) {fuel size c : ℕ} {g : BlockGrant}
    (hc : c = compressedSize size) (hlow : rows c = [] → s.lowestFreeEntry c = 0)
    (hhint : hintIdxEntry (s.lowestFreeEntry c) (classCnt c) = 0)
    (h : s.memAlloc src fuel size = .ok (g, s')) :
    c < 12 ∧ ∃ ps' rows' role' j n d, AllocInv s' ps' rows' role' ∧ Extends ps ps' ∧
      Marked rows rows' c j n d ∧ PlacedAt ps' c j n d g ∧
      FirstFree rows rows' c 0 j n (s.lowestFreeEntry c / classCnt c) ∧
      s'.lowestFreeEntry = Function.update s.lowestFreeEntry c
        (max (s.lowestFreeEntry c) (classCnt c * (s.lowestFreeEntry c / classCnt c + j) + n)) := by
  unfold memAlloc at h
  rw [← hc] at h
  by_cases h0 : size = 0
  · rw [if_pos h0] at h
    cases h
  rw [if_neg h0] at h
  by_cases hpow : 2 ^ c ≥ kernelPageSize
  · simp only [if_pos hpow, error_bind, reduceCtorEq] at h
  simp only [if_neg hpow] at h
  have hc12 : c < 12 := by
    by_contra hge
    have : 2 ^ 12 ≤ 2 ^ c := Nat.pow_le_pow_right (by decide) (by omega)
    exact hpow (by unfold kernelPageSize; omega)
  refine ⟨hc12, ?_⟩
  obtain ⟨s1, hrootPage, h⟩ := bind_eq_ok.mp h
  obtain ⟨ps1, role1, hs1, hext1, hlow1, hroot⟩ := rootPage_spec hs hrootPage
  rw [hlow1, show maxCntPerPage (2 ^ c) = classCnt c from rfl, hhint] at h
  obtain ⟨⟨page, s2⟩, hskip, h⟩ := bind_eq_ok.mp h
  cases hskip
  have hbase : s1.lowestFreeEntry c / classCnt c < 511 := by
    have hlt : s.lowestFreeEntry c / classCnt c * dataPageRowSize (classCnt c) < 511 :=
      (Nat.div_eq_zero_iff.mp hhint).resolve_left (by decide)
    have : 1 ≤ dataPageRowSize (classCnt c) := Nat.succ_pos _
    rw [hlow1]
    nlinarith
  have hnum : BitVec.ofNat 64 (s1.lowestFreeEntry c / classCnt c + ((rows c).length - 0)) = 0#64 ↔
      (rows c).length = 0 := by
    have hlen := length_rows_le hs c
    rw [← BitVec.toNat_inj, BitVec.toNat_ofNat, BitVec.toNat_ofNat,
      Nat.mod_eq_of_lt (by omega), Nat.zero_mod]
    constructor
    · intro hz
      have : 0 ≤ s1.lowestFreeEntry c / classCnt c := Nat.zero_le _
      omega
    · intro hz
      rw [hlow1, hlow (List.length_eq_zero_iff.mp hz), Nat.zero_div, hz]
  obtain ⟨ps', rows', role', j, n, d, hs', hext, hmark, hplace, hfirst, hlow'⟩ :=
    findBlock_spec (classCnt_pos hc12) fuel 0 _ hs1 (Nat.zero_le _) hnum
      (Or.inl ⟨by rw [Nat.mul_zero, Nat.zero_div, hroot], rfl⟩) h
  exact ⟨ps', rows', role', j, n, d, hs', hext1.trans hext, hmark, hplace, hlow1 ▸ hfirst,
    by rw [hlow', hlow1, Nat.sub_zero]⟩

/-! ## `mem_free` -/

variable {c j n d : ℕ} {g : BlockGrant}

theorem headerPage_block (hdvd : 4096 ∣ d) (hplace : PlacedAt ps c j n d g) :
    headerPage g.location = d := by
  have hle := block_le hplace.lt
  have hpos : 0 < 2 ^ c := by positivity
  rw [headerPage, hplace.location, kernelPageSize]
  omega

theorem pageEntryNum_block (hdvd : 4096 ∣ d) (hplace : PlacedAt ps c j n d g) :
    pageEntryNum g.location (2 ^ c) = n := by
  have hle := block_le hplace.lt
  have hpos : 0 < 2 ^ c := by positivity
  rw [pageEntryNum, headerPage_block hdvd hplace, hplace.location,
    show d + 2 ^ c * n + 64 - d + (2 ^ 64 - 64) = 2 ^ c * n + 2 ^ 64 by omega,
    Nat.add_mod_right, Nat.mod_eq_of_lt (by omega), Nat.mul_div_cancel_left _ hpos]

/-- The data page of a row. -/
theorem pageOk_row (hs : AllocInv s ps rows role) {r : Row} (hr : (rows c)[j]? = some r) :
    PageOk s.heap r.dataPage := by
  obtain ⟨k, hk⟩ := hs.role_of_mem_rows (List.mem_of_getElem? hr)
  exact hs.page _ _ hk

/-- The header that `mem_free` reads is the one of the row of the block. -/
theorem pageHeader_block (hs : AllocInv s ps rows role) (hc : c < 12) {r : Row}
    (hr : (rows c)[j]? = some r) (hplace : PlacedAt ps c j n r.dataPage g) :
    s.pageHeader g.location = .ok ⟨2 ^ c, r.num.toNat, c⟩ := by
  have hpage := pageOk_row hs hr
  have hlen := hpage.len
  have hmem := List.mem_of_getElem? hr
  have hok := hs.ok c
  have hpow : 2 ^ c < 2 ^ 64 := Nat.pow_lt_pow_right (by decide) (by omega)
  unfold pageHeader
  rw [headerPage_block hpage.dvd hplace, Heap.load_eq_ok (by omega), ok_bind,
    Heap.load_eq_ok (by omega), ok_bind, Heap.load_eq_ok (by omega), ok_bind, hok.size r hmem,
    hok.num r hmem, hok.compressed r hmem, BitVec.toNat_ofNat, BitVec.toNat_ofNat,
    Nat.mod_eq_of_lt hpow, Nat.mod_eq_of_lt (by omega)]
  rfl

/-- For a block of the first row, `mem_free` computes the bit that `mem_alloc` set. -/
theorem freeBit_block (hs : AllocInv s ps rows role) (hc : c < 12) {r : Row}
    (hr : (rows c)[0]? = some r) (hplace : PlacedAt ps c 0 n r.dataPage g) :
    s.freeBit g.location = .ok (g.idxPage, g.idxEntry, g.bit) := by
  have hok := hs.ok c
  have hnum : r.num = 0#64 := (hok.num_eq_zero 0 r hr).mpr rfl
  have hword : n / 64 < 64 := by
    have := block_le hplace.lt
    have : 1 ≤ 2 ^ c := Nat.one_le_two_pow
    have : n ≤ 2 ^ c * n := Nat.le_mul_of_pos_left _ (by omega)
    omega
  have hentry : ∀ m, m = 0 →
      bitmapEntryNum g.location ⟨2 ^ c, m, c⟩ = n / 64 + 1 := fun m hm => by
    rw [bitmapEntryNum, pageEntryNum_block (pageOk_row hs hr).dvd hplace, hm, Nat.zero_mul]
  have hidx := hplace.idxPage
  rw [Nat.mul_zero, show (0 + 1 + n / 64) / 510 = 0 by omega] at hidx
  have hroot : s.rootIdxPage c = g.idxPage := by rw [hok.root, hidx, Option.getD_some]
  have hpos : 0 < g.idxPage := hok.chain.pos _ (List.mem_of_getElem? hidx)
  unfold freeBit
  rw [pageHeader_block hs hc hr hplace, ok_bind, if_neg (by simp only; omega)]
  simp only [hroot, if_neg hpos.ne', hnum, BitVec.toNat_zero, hentry 0 rfl, pure_eq_ok]
  rw [show (n / 64 + 1) / maxIdxPageBitmapEntrys = 0 by unfold maxIdxPageBitmapEntrys; omega,
    idxTable, ok_bind, hplace.idxEntry, hplace.bit,
    pageEntryNum_block (pageOk_row hs hr).dvd hplace,
    show (n / 64 + 1) % maxIdxPageBitmapEntrys = n / 64 + 1 by
      unfold maxIdxPageBitmapEntrys; omega,
    show ((classCnt c + 1) * 0 + 1 + n / 64) % 510 = n / 64 + 1 by omega]

/-- The bitmap word of a block. -/
theorem cell_block (hs : AllocInv s ps rows role) {r : Row} (hr : (rows c)[j]? = some r)
    (hplace : PlacedAt ps c j n d g) :
    g.idxEntry < s.heap.len g.idxPage ∧ s.heap.cell g.idxPage g.idxEntry = r.bits (n / 64) := by
  have hidx := hplace.idxPage
  have hlt := hplace.lt
  have hlen : g.idxEntry < s.heap.len g.idxPage := by
    rw [(hs.ok c).chain.len _ (List.mem_of_getElem? hidx), hplace.idxEntry]
    omega
  have hload := load_slot hs hidx
  rw [rowsWord_bits hr (by omega), ← hplace.idxEntry, Heap.load_eq_ok hlen] at hload
  exact ⟨hlen, Except.ok.inj hload⟩

theorem memFree_eq_ok (hs : AllocInv s ps rows role) (hc : c < 12) {r : Row}
    (hr : (rows c)[0]? = some r) (hu : r.used n = true)
    (hplace : PlacedAt ps c 0 n r.dataPage g) :
    s.memFree g.location = .ok (setLowest
      { s with heap := s.heap.set g.idxPage g.idxEntry (clearBit (r.bits (n / 64)) g.bit) } c
      (min (s.lowestFreeEntry c) n)) := by
  obtain ⟨hlen, hcell⟩ := cell_block hs hr hplace
  have hbit : (r.bits (n / 64)).getLsbD g.bit = true := by rw [hplace.bit]; exact hu
  have hnum : r.num = 0#64 := ((hs.ok c).num_eq_zero 0 r hr).mpr rfl
  unfold memFree
  rw [pageHeader_block hs hc hr hplace, ok_bind, freeBit_block hs hc hr hplace, ok_bind]
  simp only [Heap.load_eq_ok hlen, hcell, ok_bind, hbit, Bool.true_eq_false, if_false,
    store_eq_ok hlen, pure_eq_ok, hnum, BitVec.toNat_zero, Nat.mul_zero, Nat.zero_add,
    pageEntryNum_block (pageOk_row hs hr).dvd hplace]

/-- `mem_free` of a block of the first row takes back its mark, and nothing else. -/
theorem memFree_spec (hs : AllocInv s ps rows role) (hc : c < 12) (hused : UsedAt rows c 0 n d)
    (hplace : PlacedAt ps c 0 n d g) :
    (s.heap.cell g.idxPage g.idxEntry).getLsbD g.bit = true ∧
      ∃ s' rows', s.memFree g.location = .ok s' ∧
      s'.heap = s.heap.set g.idxPage g.idxEntry
        (clearBit (s.heap.cell g.idxPage g.idxEntry) g.bit) ∧
      AllocInv s' ps rows' role ∧
      (∀ c' j' n' d', UsedAt rows' c' j' n' d' ↔
        UsedAt rows c' j' n' d' ∧ ¬(c' = c ∧ j' = 0 ∧ n' = n)) ∧
      (∀ c', (rows' c').length = (rows c').length) ∧
      (∀ c' k r', (rows' c')[k]? = some r' → OldRow rows c' k r') ∧
      s'.lowestFreeEntry = Function.update s.lowestFreeEntry c (min (s.lowestFreeEntry c) n) := by
  obtain ⟨r, hr, rfl, hu⟩ := hused
  have hlt := hplace.lt
  obtain ⟨-, hcell⟩ := cell_block hs hr hplace
  have hinv := hs.setWord hr (w := n / 64) (by omega) rfl hplace.idxPage
    (clearBit (r.bits (n / 64)) g.bit)
  rw [← hplace.idxEntry] at hinv
  refine ⟨by rw [hcell, hplace.bit]; exact hu, _,
    Function.update rows c ((rows c).set 0 (r.unmark n)), memFree_eq_ok hs hc hr hu hplace,
    by rw [hcell]; rfl, ?_, usedAt_unmark hr n, fun c' => ?_,
    fun c' k r' => oldRow_set hr (r.unmark n) rfl rfl, rfl⟩
  · rw [Row.unmark, ← hplace.bit]
    exact ⟨hinv.idx, hinv.data, hinv.idxPages, hinv.dataPages, hinv.page, hinv.ok⟩
  · by_cases hcc : c' = c
    · subst hcc
      rw [Function.update_self, List.length_set]
    · rw [Function.update_of_ne hcc]

end Allocator

end Toastium
