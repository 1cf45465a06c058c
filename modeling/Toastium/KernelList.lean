import Toastium.Layout

/-!
# Lists

`list.c` : a list of 8-byte items in sections of 511, one page each. `list_get` adds a page
where a section is missing, but does not link it, so what is appended behind the first section
is lost. `list_iter_next` does not advance the index, but the pointer to the list, and follows
the link of the section each time.
-/

namespace Toastium

/-! ## The code -/

namespace Kernel

/-- The entries of a list section of 8-byte items. -/
def sectionMaxCnt : ℕ := 511

end Kernel

/-- The walk of `list_get` over `n` sections. A section that is missing is allocated, but not
linked. -/
def listWalk (pages : PageSource) : ℕ → ℕ → Heap (BitVec 64) →
    Except (Fault Panic) (ℕ × Heap (BitVec 64))
  | 0, sect, h => .ok (sect, h)
  | n + 1, sect, h => do
    let next ← h.load sect 0
    if next = 0 then
      let (page, h) ← pages.alloc .outOfFreePages h
      listWalk pages n page h
    else listWalk pages n next.toNat h

/-- `list_get`, for 8-byte items : the section and the word of an item. -/
def listGet (pages : PageSource) (h : Heap (BitVec 64)) (firstSection itemCnt itemIdx : ℕ) :
    Except (Fault Panic) (ℕ × ℕ × Heap (BitVec 64)) := do
  if itemIdx > itemCnt then .error (.panic .attemptRemoveListItemOutBounds)
  let (sect, h) ← listWalk pages (itemIdx / Kernel.sectionMaxCnt) firstSection h
  return (sect, 1 + itemIdx % Kernel.sectionMaxCnt, h)

/-- `list_append` of the 8 bytes at `src`. -/
def listAppend (pages : PageSource) (h : Heap (BitVec 64)) (firstSection itemCnt : ℕ)
    (src : BitVec 64) : Except (Fault Panic) (Heap (BitVec 64)) := do
  let (sect, word, h) ← listGet pages h firstSection itemCnt itemCnt
  h.store sect word src

/-- `list_remove` : the item that is copied is number `item_size - 1`. -/
def listRemoveItem (pages : PageSource) (h : Heap (BitVec 64)) (firstSection itemCnt itemIdx : ℕ) :
    Except (Fault Panic) (Heap (BitVec 64)) := do
  let (lastSect, lastWord, h) ← listGet pages h firstSection itemCnt (8 - 1)
  let (sect, word, h) ← listGet pages h firstSection itemCnt itemIdx
  h.store sect word (← h.load lastSect lastWord)

/-- `list_iter`. `cur_list` is `curList` lists behind the list that is walked. -/
structure ListIter where
  curList : ℕ
  curUpto : ℕ
  sectionUpto : ℕ
  maxIterPerSection : ℕ

/-- `list`, without the size of its sections. -/
structure ListHeader where
  firstSection : ℕ
  itemCnt : ℕ
  itemSize : ℕ

/-- `list_iter_next` : the section and the word of an item. What the pointer to the list comes
to is `listAt`. -/
def listIterNext (listAt : ℕ → ListHeader) (h : Heap (BitVec 64)) (iter : ListIter) :
    Except (Fault Panic) (ℕ × ℕ × ListIter) := do
  let curSectionIdx := iter.curUpto % iter.maxIterPerSection
  let list := listAt iter.curList
  let isNextSection := iter.curUpto % iter.maxIterPerSection = 0
  let sectionUpto ←
    if isNextSection then (do return (← h.load iter.sectionUpto 0).toNat)
    else pure iter.sectionUpto
  return (list.firstSection, 1 + list.itemSize * curSectionIdx / 8,
    { iter with curList := iter.curList + 1, sectionUpto := sectionUpto })

/-! ## Appending -/

section Append

variable {pages : PageSource}

theorem listAppend_of_lt {h : Heap (BitVec 64)} {first n : ℕ} (hlen : h.len first = 512)
    (hn : n < Kernel.sectionMaxCnt) (v : BitVec 64) :
    listAppend pages h first n v = .ok (h.set first (1 + n) v) := by
  have hstore : 1 + n < h.len first := by
    rw [hlen]
    unfold Kernel.sectionMaxCnt at hn
    omega
  simp only [listAppend, listGet, if_neg (lt_irrefl n), Nat.div_eq_of_lt hn, Nat.mod_eq_of_lt hn,
    listWalk, pure_eq_ok, ok_bind, Heap.store_eq_ok hstore]

/-- An item of the second section goes to a page that is not linked. -/
theorem listAppend_max {h h' : Heap (BitVec 64)} {first : ℕ} {v : BitVec 64}
    (hlen : h.len first = 512) (hlink : h.cell first 0 = 0)
    (happ : listAppend pages h first Kernel.sectionMaxCnt v = .ok h') : h'.cell first 0 = 0 := by
  have hload : 0 < h.len first := by omega
  simp only [listAppend, listGet, if_neg (lt_irrefl Kernel.sectionMaxCnt),
    Nat.div_self (show 0 < Kernel.sectionMaxCnt by decide), listWalk, pure_eq_ok, ok_bind,
    Heap.load_eq_ok hload, if_pos hlink] at happ
  rcases pages.alloc_eq Panic.outOfFreePages h with ⟨-, halloc⟩ | ⟨page, hnext, halloc⟩
  · rw [halloc] at happ
    cases happ
  · have hne : first ≠ page := by
      rintro rfl
      rw [pages.fresh hnext] at hlen
      cases hlen
    have hstore : 1 + Kernel.sectionMaxCnt % Kernel.sectionMaxCnt < (h.push page 512).len page := by
      rw [Heap.len_push_self]
      decide
    simp only [halloc, ok_bind, Heap.store_eq_ok hstore] at happ
    cases happ
    rw [Heap.cell_set_of_base_ne _ _ _ _ hne, Heap.cell_push_of_ne _ _ _ hne, hlink]

/-- The sections that a walk adds are not linked. -/
theorem listWalk_grown : ∀ {m sect sect' : ℕ} {h h' : Heap (BitVec 64)}, h.len sect = 512 →
    h.cell sect 0 = 0 → listWalk pages m sect h = .ok (sect', h') →
    Grown h h' ∧ (h.len 0 = 0 → h'.len 0 = 0) ∧ (m ≠ 0 → h.len sect' = 0)
  | 0, sect, sect', h, h', _, _, hwalk => by
    cases hwalk
    exact ⟨Grown.refl h, id, fun h0 => absurd rfl h0⟩
  | m + 1, sect, sect', h, h', hlen, hlink, hwalk => by
    rw [listWalk, Heap.load_eq_ok (by omega), ok_bind, if_pos hlink] at hwalk
    obtain ⟨⟨page, h₁⟩, halloc, hwalk⟩ := bind_eq_ok.1 hwalk
    obtain ⟨hnext, rfl⟩ := Source.alloc_eq_ok.1 halloc
    have hfree := pages.fresh hnext
    have hpush := Grown.push hfree 512
    obtain ⟨hgrown, hnull, hsect⟩ := listWalk_grown (Heap.len_push_self h page 512)
      (Heap.cell_push_self h page 512 0) hwalk
    refine ⟨hpush.trans hgrown, fun h0 => hnull ?_, fun _ => ?_⟩
    · rwa [Heap.len_push_of_ne _ _ (pages.pos hnext).ne]
    · rcases eq_or_ne m 0 with rfl | hm
      · cases hwalk
        exact hfree
      · exact hpush.free (hsect hm)

/-- What is appended is written to the first section, or to a page that is not in use. -/
structure Appended (h h' : Heap (BitVec 64)) (first n : ℕ) (v : BitVec 64) : Prop where
  len : ∀ p, h.len p ≠ 0 → h'.len p = h.len p
  null : h.len 0 = 0 → h'.len 0 = 0
  cell : ∀ p i, h.len p ≠ 0 → (p = first → i ≠ 1 + n) → h'.cell p i = h.cell p i
  item : n < Kernel.sectionMaxCnt → h'.cell first (1 + n) = v

theorem listAppend_spec {h h' : Heap (BitVec 64)} {first n : ℕ} {v : BitVec 64}
    (hlen : h.len first = 512) (hlink : h.cell first 0 = 0)
    (happ : listAppend pages h first n v = .ok h') : Appended h h' first n v := by
  rcases Nat.lt_or_ge n Kernel.sectionMaxCnt with hn | hn
  · rw [listAppend_of_lt hlen hn] at happ
    cases happ
    refine ⟨fun _ _ => rfl, id, fun p i _ hi => ?_, fun _ => Heap.cell_set_self _ _ _ _⟩
    rw [Heap.cell_set, if_neg]
    exact fun e => hi e.1 e.2
  · unfold listAppend listGet at happ
    rw [if_neg (lt_irrefl n)] at happ
    obtain ⟨⟨sect, word, h₁⟩, hget, hstore⟩ := bind_eq_ok.1 happ
    obtain ⟨⟨sect', h₂⟩, hwalk, hget⟩ := bind_eq_ok.1 hget
    cases hget
    obtain ⟨hgrown, hnull, hfree⟩ := listWalk_grown hlen hlink hwalk
    have hfree := hfree (Nat.div_pos hn (by decide)).ne'
    dsimp only [Heap.store] at hstore
    split_ifs at hstore
    cases hstore
    refine ⟨fun p hp => (hgrown p hp).1, hnull, fun p i hp _ => ?_, fun hlt => absurd hlt hn.not_gt⟩
    have hne : p ≠ sect := by
      rintro rfl
      exact hp hfree
    rw [Heap.cell_set_of_base_ne _ _ _ _ hne]
    exact (hgrown p hp).2 i

end Append

end Toastium
