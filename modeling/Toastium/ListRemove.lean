import Toastium.ListItems

/-!
# Items removed from a list

`list_remove` copies the last item over the one that is removed. It looks the last item up as number
`item_size - 1`, not `item_cnt - 1`. `listRemove_correct_iff` : it does what it should exactly when
this number is not beyond the end of the list, and the item there is the same as the last one,
unless the last one is the item to remove or the item to remove is in no section.

The items are those that `list_get` returns. In a section that is missing they are 0.
-/

namespace Toastium

namespace ItemList

/-! ## The code -/

/-- The bytes at an item, for `memcpy`. -/
def loadItem (h : Heap (BitVec 8)) (sect offset n : ℕ) : Except (Fault Panic) (ℕ → BitVec 8) :=
  if offset + n ≤ h.len sect then .ok fun b => h.cell sect (offset + b)
  else .error (.wild sect offset)

/-- `list_remove`. The two items are the same or apart, so the bytes that `memcpy` copies are those
before the call. -/
def remove (pages : BytePageSource) (l : ItemList) (itemIdx : ℕ) (h : Heap (BitVec 8)) :
    Except (Fault Panic) (ItemList × Heap (BitVec 8)) := do
  if itemIdx ≥ l.itemCnt then .error (.panic .attemptRemoveListItemOutBounds)
  let (lastSect, lastOffset, h) ← l.get pages (l.itemSize - 1) h
  let (sect, offset, h) ← l.get pages itemIdx h
  let src ← loadItem h lastSect lastOffset l.itemSize
  let h ← memcpyFrom sect offset src l.itemSize 0 h
  return ({ l with itemCnt := l.itemCnt - 1 }, h)

/-! ## The items of a list -/

variable {pages : BytePageSource} {h h' : Heap (BitVec 8)} {l : ItemList} {sections : List ℕ}
  {i k : ℕ}

/-- The sections of a list, different from each other. -/
structure Sections (h : Heap (BitVec 8)) (l : ItemList) (sections : List ℕ) : Prop where
  size : l.sectionSize = kernelPageSize
  pos : 1 ≤ l.itemSize
  le : l.itemSize ≤ 4088
  chain : SectionChain h l.firstSection sections
  nodup : (l.firstSection :: sections).Nodup

/-- `list_get` returns item `k`, and it is `x`. -/
def ItemAt (pages : BytePageSource) (h : Heap (BitVec 8)) (l : ItemList) (k : ℕ)
    (x : ℕ → BitVec 8) : Prop :=
  ∃ sect offset h', l.get pages k h = .ok (sect, offset, h') ∧
    ∀ b < l.itemSize, h'.cell sect (offset + b) = x b

/-- The bytes of item `k`, 0 where its section is missing. -/
def itemBytes (h : Heap (BitVec 8)) (l : ItemList) (sections : List ℕ) (k b : ℕ) : BitVec 8 :=
  match (l.firstSection :: sections)[k / l.sectionMaxCnt]? with
  | some sect => h.cell sect (8 + l.itemSize * (k % l.sectionMaxCnt) + b)
  | none => 0

/-- A removal as it should be : the last item comes to the place of the one that is removed, and the
others stay where they are. -/
def RemoveCorrect (pages : BytePageSource) (h : Heap (BitVec 8)) (l : ItemList) (i : ℕ) : Prop :=
  ∃ h', l.remove pages i h = .ok ({ l with itemCnt := l.itemCnt - 1 }, h') ∧
    ∀ k < l.itemCnt - 1, ∀ x, ItemAt pages h l (if k = i then l.itemCnt - 1 else k) x →
      ItemAt pages h' { l with itemCnt := l.itemCnt - 1 } k x

theorem get_of_walk (hk : k ≤ l.itemCnt) {sect : ℕ}
    (hwalk : walk pages (k / l.sectionMaxCnt) l.firstSection h = .ok (sect, h')) :
    l.get pages k h = .ok (sect, 8 + l.itemSize * (k % l.sectionMaxCnt), h') := by
  rw [get, if_neg (Nat.not_lt.2 hk), hwalk]
  rfl

/-- A lookup : the item is in its section, or in a page that was not in use. -/
theorem get_cases (hl : Sections h l sections) {N : ℕ}
    (hN : sections.length < l.itemCnt / l.sectionMaxCnt → pages.Ample N)
    (hobjs : h.objs.length + k / l.sectionMaxCnt ≤ N) (hk : k ≤ l.itemCnt) :
    ∃ sect h', l.get pages k h = .ok (sect, 8 + l.itemSize * (k % l.sectionMaxCnt), h') ∧
      Grown h h' ∧ h'.len sect = kernelPageSize ∧
      h'.objs.length ≤ h.objs.length + k / l.sectionMaxCnt ∧
      (∀ b, h'.cell sect (8 + l.itemSize * (k % l.sectionMaxCnt) + b) =
        itemBytes h l sections k b) ∧
      ((l.firstSection :: sections)[k / l.sectionMaxCnt]? = some sect ∧ h' = h ∨
        (l.firstSection :: sections)[k / l.sectionMaxCnt]? = none ∧ h.len sect = 0) := by
  rcases Nat.lt_or_ge sections.length (k / l.sectionMaxCnt) with hn | hn
  · have hN' := hN (hn.trans_le (Nat.div_le_div_right hk))
    obtain ⟨sect, h', hwalk⟩ := hl.chain.walk_ok hN' (n := k / l.sectionMaxCnt) hobjs
    obtain ⟨hg, hfree, hlen, hz, hobjs'⟩ := hl.chain.walk_missing hn hwalk
    have hnone : (l.firstSection :: sections)[k / l.sectionMaxCnt]? = none :=
      List.getElem?_eq_none hn
    refine ⟨sect, h', get_of_walk hk hwalk, hg, hlen, hobjs', fun b => ?_, Or.inr ⟨hnone, hfree⟩⟩
    rw [hz, itemBytes, hnone]
  · obtain ⟨q, hq, hwalk⟩ := @SectionChain.walk_linked pages h _ _ _ hl.chain hn
    refine ⟨q, h, get_of_walk hk hwalk, Grown.refl h, hl.chain.len q (List.mem_of_getElem? hq),
      Nat.le_add_right _ _, fun b => ?_, Or.inl ⟨hq, rfl⟩⟩
    rw [itemBytes, hq]

theorem itemAt_iff (hl : Sections h l sections) {N : ℕ}
    (hN : sections.length < l.itemCnt / l.sectionMaxCnt → pages.Ample N)
    (hobjs : h.objs.length + k / l.sectionMaxCnt ≤ N) (hk : k ≤ l.itemCnt) {x : ℕ → BitVec 8} :
    ItemAt pages h l k x ↔ ∀ b < l.itemSize, itemBytes h l sections k b = x b := by
  obtain ⟨sect, h', hget, -, -, -, hbytes, -⟩ := get_cases hl hN hobjs hk
  constructor
  · rintro ⟨sect', offset, h₁, hget', hx⟩ b hb
    rw [hget] at hget'
    cases hget'
    rw [← hbytes, hx b hb]
  · intro hx
    exact ⟨sect, _, h', hget, fun b hb => (hbytes b).trans (hx b hb)⟩

/-- Pages that a lookup takes do not change the items. -/
theorem Sections.grown (hl : Sections h l sections) (hg : Grown h h') : Sections h' l sections := by
  refine ⟨hl.size, hl.pos, hl.le, hl.chain.congr fun q hq => ?_, hl.nodup⟩
  obtain ⟨hlen, hcell⟩ := hg q (by rw [hl.chain.len q hq]; decide)
  exact ⟨hlen, sectionLink_congr fun j _ => hcell j⟩

theorem itemBytes_grown (hl : Sections h l sections) (hg : Grown h h') (k b : ℕ) :
    itemBytes h' l sections k b = itemBytes h l sections k b := by
  unfold itemBytes
  cases hq : (l.firstSection :: sections)[k / l.sectionMaxCnt]? with
  | none => rfl
  | some q =>
    exact (hg q (by rw [hl.chain.len q (List.mem_of_getElem? hq)]; decide)).2 _

theorem Sections.offset_le (hl : Sections h l sections) (k : ℕ) :
    8 + l.itemSize * (k % l.sectionMaxCnt) + l.itemSize ≤ kernelPageSize := by
  rw [sectionMaxCnt, hl.size]
  exact itemOffset_le hl.pos hl.le k

/-- Writing an item does not change the links, -/
theorem Sections.fill (hl : Sections h l sections) (sect k : ℕ) (src : ℕ → BitVec 8) :
    Sections (h.fill sect (8 + l.itemSize * (k % l.sectionMaxCnt)) l.itemSize src) l sections :=
  ⟨hl.size, hl.pos, hl.le, hl.chain.congr fun _ _ => ⟨rfl, sectionLink_fill _ (by omega)⟩,
    hl.nodup⟩

/-- nor the items in other places. -/
theorem itemBytes_fill_of_ne (hl : Sections h l sections) {sect : ℕ} (src : ℕ → BitVec 8) {b : ℕ}
    (hb : b < l.itemSize)
    (hsect : sect ∈ l.firstSection :: sections →
      (l.firstSection :: sections)[i / l.sectionMaxCnt]? = some sect ∧ k ≠ i) :
    itemBytes (h.fill sect (8 + l.itemSize * (i % l.sectionMaxCnt)) l.itemSize src) l sections k b =
      itemBytes h l sections k b := by
  unfold itemBytes
  cases hq : (l.firstSection :: sections)[k / l.sectionMaxCnt]? with
  | none => rfl
  | some q =>
    simp only [Heap.cell_fill]
    refine if_neg ?_
    rintro ⟨rfl, hle, hlt⟩
    obtain ⟨hi, hne⟩ := hsect (List.mem_of_getElem? hq)
    -- two items of one section
    have hdiv : k / l.sectionMaxCnt = i / l.sectionMaxCnt := by
      obtain ⟨hk, hkq⟩ := List.getElem?_eq_some_iff.1 hq
      obtain ⟨hi', hiq⟩ := List.getElem?_eq_some_iff.1 hi
      exact (hl.nodup.getElem_inj_iff).1 (hkq.trans hiq.symm)
    have hmod : k % l.sectionMaxCnt ≠ i % l.sectionMaxCnt := fun hmod => hne (by
      rw [← Nat.div_add_mod k l.sectionMaxCnt, hdiv, hmod, Nat.div_add_mod])
    rcases Nat.lt_or_gt_of_ne hmod with hlt' | hgt'
    · have := Nat.mul_le_mul_left l.itemSize (Nat.succ_le_of_lt hlt')
      rw [Nat.mul_succ] at this
      omega
    · have := Nat.mul_le_mul_left l.itemSize (Nat.succ_le_of_lt hgt')
      rw [Nat.mul_succ] at this
      omega

/-- What a removal does to the items. -/
theorem remove_ok (hl : Sections h l sections) {N : ℕ}
    (hN : sections.length < l.itemCnt / l.sectionMaxCnt → pages.Ample N)
    (hobjs : h.objs.length + 2 * (l.itemCnt / l.sectionMaxCnt) ≤ N)
    (hsize : l.itemSize ≤ l.itemCnt + 1) (hi : i < l.itemCnt) :
    ∃ h', l.remove pages i h = .ok ({ l with itemCnt := l.itemCnt - 1 }, h') ∧
      Sections h' l sections ∧
      h'.objs.length ≤ h.objs.length + 2 * (l.itemCnt / l.sectionMaxCnt) ∧
      (∀ k b, b < l.itemSize → (k ≠ i ∨ sections.length < i / l.sectionMaxCnt) →
        itemBytes h' l sections k b = itemBytes h l sections k b) ∧
      (i / l.sectionMaxCnt ≤ sections.length → ∀ b < l.itemSize,
        itemBytes h' l sections i b = itemBytes h l sections (l.itemSize - 1) b) := by
  have hdivLast : (l.itemSize - 1) / l.sectionMaxCnt ≤ l.itemCnt / l.sectionMaxCnt :=
    Nat.div_le_div_right (by omega)
  have hdivI : i / l.sectionMaxCnt ≤ l.itemCnt / l.sectionMaxCnt := Nat.div_le_div_right hi.le
  obtain ⟨sect₁, h₁, hget₁, hg₁, hlen₁, hobjs₁, hbytes₁, -⟩ :=
    get_cases (k := l.itemSize - 1) hl hN (by omega) (by omega)
  have hl₁ := hl.grown hg₁
  obtain ⟨sect₂, h₂, hget₂, hg₂, hlen₂, hobjs₂, -, hcase⟩ :=
    get_cases (k := i) hl₁ hN (by omega) hi.le
  have hl₂ := hl₁.grown hg₂
  obtain ⟨hlen₁', hcell₁'⟩ := hg₂ sect₁ (by rw [hlen₁]; decide)
  have hsrc : ∀ b, h₂.cell sect₁ (8 + l.itemSize * ((l.itemSize - 1) % l.sectionMaxCnt) + b) =
      itemBytes h l sections (l.itemSize - 1) b := fun b => (hcell₁' _).trans (hbytes₁ b)
  have hload : loadItem h₂ sect₁ (8 + l.itemSize * ((l.itemSize - 1) % l.sectionMaxCnt))
      l.itemSize = .ok (itemBytes h l sections (l.itemSize - 1)) := by
    rw [loadItem, if_pos (by rw [hlen₁', hlen₁]; exact hl.offset_le _)]
    exact congrArg Except.ok (funext hsrc)
  have hcopy := @memcpyFrom_eq sect₂ (8 + l.itemSize * (i % l.sectionMaxCnt))
    (itemBytes h l sections (l.itemSize - 1)) l.itemSize 0 h₂
    (by rw [hlen₂]; exact hl.offset_le _)
  simp only [Nat.zero_add, Nat.add_zero] at hcopy
  refine ⟨_, ?_, hl₂.fill sect₂ i (itemBytes h l sections (l.itemSize - 1)), ?_,
    fun k b hb hk => ?_, fun hreal b hb => ?_⟩
  · rw [remove, if_neg (Nat.not_le.2 hi), hget₁]
    simp only [ok_bind, hget₂, hload, hcopy, pure_eq_ok]
  · change h₂.objs.length ≤ _
    omega
  · rw [itemBytes_fill_of_ne hl₂ _ hb, itemBytes_grown hl₁ hg₂, itemBytes_grown hl hg₁]
    intro hmem
    rcases hcase with ⟨hsome, -⟩ | ⟨-, hfree⟩
    · refine ⟨hsome, hk.resolve_right fun hlt => ?_⟩
      have hlt' := (List.getElem?_eq_some_iff.1 hsome).1
      rw [List.length_cons] at hlt'
      omega
    · rw [hl₁.chain.len sect₂ hmem] at hfree
      cases hfree
  · rcases hcase with ⟨hsome, -⟩ | ⟨hnone, -⟩
    · rw [itemBytes, hsome]
      simp only
      rw [Heap.cell_fill, if_pos ⟨rfl, Nat.le_add_right _ _, by omega⟩, Nat.add_sub_cancel_left]
    · have hge := List.getElem?_eq_none_iff.1 hnone
      rw [List.length_cons] at hge
      omega

/-- A removal does what it should exactly when item `item_size - 1` is not beyond the end, and is
the same as the last item, unless the last item is removed or the item is in no section. -/
theorem listRemove_correct_iff (hl : Sections h l sections) {N : ℕ}
    (hN : sections.length < l.itemCnt / l.sectionMaxCnt → pages.Ample N)
    (hobjs : h.objs.length + 3 * (l.itemCnt / l.sectionMaxCnt) ≤ N) (hi : i < l.itemCnt) :
    RemoveCorrect pages h l i ↔ l.itemSize ≤ l.itemCnt + 1 ∧
      (i + 1 < l.itemCnt → i / l.sectionMaxCnt ≤ sections.length → ∀ b < l.itemSize,
        itemBytes h l sections (l.itemSize - 1) b = itemBytes h l sections (l.itemCnt - 1) b) := by
  have hdiv : ∀ k ≤ l.itemCnt, k / l.sectionMaxCnt ≤ l.itemCnt / l.sectionMaxCnt := fun k hk =>
    Nat.div_le_div_right hk
  have hitem : ∀ k ≤ l.itemCnt, ∀ x, ItemAt pages h l k x ↔
      ∀ b < l.itemSize, itemBytes h l sections k b = x b := fun k hk x =>
    itemAt_iff hl hN (by have := hdiv k hk; omega) hk
  have hitem' : ∀ {h'}, Sections h' l sections →
      h'.objs.length ≤ h.objs.length + 2 * (l.itemCnt / l.sectionMaxCnt) → ∀ k < l.itemCnt - 1,
      ∀ x, ItemAt pages h' { l with itemCnt := l.itemCnt - 1 } k x ↔
        ∀ b < l.itemSize, itemBytes h' l sections k b = x b := fun hl' hobjs' k hk x => by
    have hl'' : Sections _ { l with itemCnt := l.itemCnt - 1 } sections :=
      ⟨hl'.size, hl'.pos, hl'.le, hl'.chain, hl'.nodup⟩
    have hle := hdiv k (by omega)
    have hdiv' := hdiv (l.itemCnt - 1) (Nat.sub_le _ _)
    refine itemAt_iff hl'' (fun hlt => hN (Nat.lt_of_lt_of_le hlt hdiv')) ?_ hk.le
    change _ + k / l.sectionMaxCnt ≤ N
    omega
  constructor
  · rintro ⟨h', hrun, hitems⟩
    have hsize : l.itemSize ≤ l.itemCnt + 1 := by
      by_contra hgt
      rw [remove, if_neg (Nat.not_le.2 hi), get, if_pos (by omega)] at hrun
      cases hrun
    refine ⟨hsize, fun hlt hreal b hb => ?_⟩
    obtain ⟨h'', hrun', hl', hobjs', -, hcopied⟩ := remove_ok hl hN (by omega) hsize hi
    rw [hrun] at hrun'
    obtain rfl : h' = h'' := (Prod.mk.inj (Except.ok.inj hrun')).2
    have hlast := hitems i (by omega) (itemBytes h l sections (l.itemCnt - 1))
    rw [if_pos rfl, hitem' hl' hobjs' i (by omega)] at hlast
    rw [← hcopied hreal b hb]
    exact hlast ((hitem _ (Nat.sub_le _ _) _).2 fun _ _ => rfl) b hb
  · rintro ⟨hsize, hsame⟩
    obtain ⟨h', hrun, hl', hobjs', hother, hcopied⟩ := remove_ok hl hN (by omega) hsize hi
    refine ⟨h', hrun, fun k hk x hx => (hitem' hl' hobjs' k hk x).2 fun b hb => ?_⟩
    by_cases hki : k = i
    · subst hki
      rw [if_pos rfl, hitem _ (Nat.sub_le _ _)] at hx
      rcases Nat.lt_or_ge sections.length (k / l.sectionMaxCnt) with hmiss | hreal
      · -- the two items are in no section
        have hmiss' : sections.length < (l.itemCnt - 1) / l.sectionMaxCnt :=
          hmiss.trans_le (Nat.div_le_div_right hk.le)
        rw [hother k b hb (Or.inr hmiss), ← hx b hb, itemBytes, itemBytes,
          List.getElem?_eq_none hmiss, List.getElem?_eq_none hmiss']
      · rw [hcopied hreal b hb, hsame (by omega) hreal b hb, hx b hb]
    · rw [if_neg hki, hitem k (by omega)] at hx
      rw [hother k b hb (Or.inl hki), hx b hb]

/-- A page of 8 different pointers. -/
def pointersHeap : Heap (BitVec 8) :=
  (Heap.push ⟨[], fun _ _ => 0⟩ 4096 4096).fill 4096 8 64 fun b => BitVec.ofNat 8 (b / 8)

theorem pointersHeap_sections (itemCnt : ℕ) :
    Sections pointersHeap ⟨4096, kernelPageSize, itemCnt, 8⟩ [] :=
  ⟨rfl, show 1 ≤ 8 by decide, show 8 ≤ 4088 by decide,
    ⟨Heap.len_push_self _ _ _, (sectionLink_fill _ le_rfl).trans (sectionLink_push _ _)⟩,
    List.nodup_singleton _⟩

/-- Of 8 pointers, number 7 is the last. -/
theorem listRemove_correct_eight :
    RemoveCorrect firstFitBytePages pointersHeap ⟨4096, kernelPageSize, 8, 8⟩ 2 :=
  (listRemove_correct_iff (N := 1) (pointersHeap_sections 8) (fun hlt => by cases hlt) (by decide)
    (by decide)).2 ⟨by decide, fun _ _ _ _ => rfl⟩

/-- Of one pointer, there is no number 7. -/
theorem not_listRemove_correct_one : Sections pointersHeap ⟨4096, kernelPageSize, 1, 8⟩ [] ∧
    remove firstFitBytePages ⟨4096, kernelPageSize, 1, 8⟩ 0 pointersHeap =
      .error (.panic .attemptRemoveListItemOutBounds) ∧
    ¬RemoveCorrect firstFitBytePages pointersHeap ⟨4096, kernelPageSize, 1, 8⟩ 0 := by
  have hpanic : remove firstFitBytePages ⟨4096, kernelPageSize, 1, 8⟩ 0 pointersHeap =
      .error (.panic .attemptRemoveListItemOutBounds) := rfl
  refine ⟨pointersHeap_sections 1, hpanic, ?_⟩
  rintro ⟨h', hrun, -⟩
  rw [hpanic] at hrun
  cases hrun

end ItemList

end Toastium
