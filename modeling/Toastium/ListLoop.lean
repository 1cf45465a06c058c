import Toastium.KernelList
import Toastium.ListRemove

/-!
# The loop over a list

The callers of `list_iter_create` call `list_iter_next` while `cur_upto` is below `item_cnt` of
`cur_list`. `list_iter_next` adds 1 to `cur_list` instead of `cur_upto` : the next step is about the
32 bytes behind the header of the list, and follows the link of a section every time.
`listIter_correct_iff` : the loop goes over the items exactly when what is behind the header reads
like headers of lists that start at the items, with a linked section for each.

`listAt` says which header `cur_list` points to, after so many steps behind the list itself.
-/

namespace Toastium

namespace ItemList

/-! ## The code -/

section Code

variable (listAt : ℕ → ItemList)

/-- `list_iter_create`. -/
def iterCreate (l : ItemList) : ListIter :=
  ⟨0, 0, l.firstSection, l.sectionMaxCnt⟩

/-- `list_iter_next` : the address of an item. -/
def iterNext (h : Heap (BitVec 8)) (iter : ListIter) : Except (Fault Panic) (ℕ × ListIter) := do
  let curSectionIdx := iter.curUpto % iter.maxIterPerSection
  let list := listAt iter.curList
  let ret := list.firstSection + 8 + list.itemSize * curSectionIdx
  let isNextSection := iter.curUpto % iter.maxIterPerSection = 0
  -- the link is read in every step
  let nextSection ← loadLink h iter.sectionUpto
  let sectionUpto := if isNextSection then nextSection else iter.sectionUpto
  return (ret, { iter with curList := iter.curList + 1, sectionUpto := sectionUpto })

/-- The loop of the callers, at most `fuel` times : what `list_iter_next` returns in each step. -/
def iterLoop (h : Heap (BitVec 8)) : ℕ → ListIter → Except (Fault Panic) (List ℕ)
  | 0, _ => .error .fuel
  | fuel + 1, iter => do
    if iter.curUpto < (listAt iter.curList).itemCnt then
      let (ret, iter) ← iterNext listAt h iter
      let rets ← iterLoop h fuel iter
      return ret :: rets
    else return []

end Code

/-- The loop ends after as many steps as there are items, and goes over the pointers that `list_get`
returns. -/
def IterCorrect (pages : BytePageSource) (listAt : ℕ → ItemList) (h : Heap (BitVec 8)) : Prop :=
  ∃ fuel rets, iterLoop listAt h fuel (iterCreate (listAt 0)) = .ok rets ∧
    rets.length = (listAt 0).itemCnt ∧
    ∀ i (hi : i < rets.length), ∃ sect offset h',
      (listAt 0).get pages i h = .ok (sect, offset, h') ∧ rets[i] = sect + offset

/-! ## The steps -/

variable {pages : BytePageSource} {h : Heap (BitVec 8)} {listAt : ℕ → ItemList} {sections : List ℕ}
  {p : ℕ}

/-- The section that many links behind `p`, 0 behind the last. -/
def sectionFrom (p : ℕ) (sections : List ℕ) (k : ℕ) : ℕ :=
  (p :: sections)[k]?.getD 0

theorem sectionFrom_missing {k : ℕ} (hk : sections.length < k) : sectionFrom p sections k = 0 := by
  rw [sectionFrom, List.getElem?_eq_none hk, Option.getD_none]

/-- The address of an item, in a list with the section linked. -/
def itemAddr (l : ItemList) (sections : List ℕ) (k : ℕ) : ℕ :=
  sectionFrom l.firstSection sections (k / l.sectionMaxCnt) + 8 + l.itemSize * (k % l.sectionMaxCnt)

theorem loadLink_sectionFrom : ∀ {k p : ℕ} {sections : List ℕ}, SectionChain h p sections →
    k ≤ sections.length →
      loadLink h (sectionFrom p sections k) = .ok (sectionFrom p sections (k + 1))
  | 0, p, [], hc, _ => by
    rw [sectionFrom, List.getElem?_cons_zero, Option.getD_some, hc.loadLink, hc.2]
    rfl
  | 0, p, q :: sections, hc, _ => by
    rw [sectionFrom, List.getElem?_cons_zero, Option.getD_some, hc.loadLink, hc.2.1]
    rfl
  | k + 1, p, q :: sections, hc, hk =>
    loadLink_sectionFrom (k := k) hc.2.2.2 (Nat.le_of_succ_le_succ hk)

/-- `cur_upto` stays 0. -/
theorem iterNext_linked (hc : SectionChain h p sections) {k : ℕ} (hk : k ≤ sections.length)
    (m : ℕ) :
    iterNext listAt h ⟨k, 0, sectionFrom p sections k, m⟩ =
      .ok ((listAt k).firstSection + 8, ⟨k + 1, 0, sectionFrom p sections (k + 1), m⟩) := by
  rw [iterNext, loadLink_sectionFrom hc hk, ok_bind]
  simp only [Nat.zero_mod, Nat.mul_zero, Nat.add_zero, if_true]
  rfl

/-- Behind the last section, `list_iter_next` reads the link of a section at 0. -/
theorem iterNext_missing (h0 : h.len 0 = 0) {k : ℕ} (hk : sections.length < k) (m : ℕ) :
    iterNext listAt h ⟨k, 0, sectionFrom p sections k, m⟩ = .error (.wild 0 0) := by
  rw [iterNext, sectionFrom_missing hk]
  simp only [loadLink, h0]
  rfl

theorem iterLoop_stop {iter : ListIter} (hcnt : (listAt iter.curList).itemCnt = 0) (fuel : ℕ) :
    iterLoop listAt h (fuel + 1) iter = .ok [] := by
  rw [iterLoop, hcnt, if_neg (Nat.not_lt_zero _)]
  rfl

theorem iterLoop_step {k : ℕ} (hcnt : (listAt k).itemCnt ≠ 0) (fuel sect m : ℕ) :
    iterLoop listAt h (fuel + 1) ⟨k, 0, sect, m⟩ =
      iterNext listAt h ⟨k, 0, sect, m⟩ >>= fun x =>
        iterLoop listAt h fuel x.2 >>= fun rets => .ok (x.1 :: rets) := by
  rw [iterLoop, if_pos (Nat.pos_of_ne_zero hcnt)]
  rfl

/-- What the steps return : the loop reads the first section of each header. -/
def firstItems (listAt : ℕ → ItemList) (k n : ℕ) : List ℕ :=
  (List.range' k n).map fun j => (listAt j).firstSection + 8

@[simp] theorem length_firstItems (k n : ℕ) : (firstItems listAt k n).length = n := by
  simp [firstItems]

theorem getElem_firstItems {k n i : ℕ} (hi : i < (firstItems listAt k n).length) :
    (firstItems listAt k n)[i] = (listAt (k + i)).firstSection + 8 := by
  simp [firstItems]

/-- The loop makes `n` steps where there are headers with items and sections for them. -/
theorem iterLoop_eq_ok (hc : SectionChain h p sections) (m : ℕ) : ∀ {n k : ℕ},
    (∀ j, k ≤ j → j < k + n → (listAt j).itemCnt ≠ 0 ∧ j ≤ sections.length) →
      (listAt (k + n)).itemCnt = 0 →
        iterLoop listAt h (n + 1) ⟨k, 0, sectionFrom p sections k, m⟩ = .ok (firstItems listAt k n)
  | 0, k, _, hend => @iterLoop_stop h listAt ⟨k, 0, _, m⟩ hend 0
  | n + 1, k, hall, hend => by
    obtain ⟨hcnt, hk⟩ := hall k le_rfl (by omega)
    have hrest := iterLoop_eq_ok hc m (n := n) (k := k + 1)
      (fun j hj hj' => hall j (by omega) (by omega)) (by rwa [Nat.add_right_comm])
    rw [iterLoop_step hcnt, iterNext_linked hc hk, ok_bind, hrest]
    rfl

/-- A loop that ends made all its steps like that, by induction on what is left of it. -/
theorem iterLoop_inv (hc : SectionChain h p sections) (h0 : h.len 0 = 0) (m : ℕ) :
    ∀ {fuel k : ℕ} {rets : List ℕ},
      iterLoop listAt h fuel ⟨k, 0, sectionFrom p sections k, m⟩ = .ok rets →
        ∃ n, rets = firstItems listAt k n ∧
          (∀ j, k ≤ j → j < k + n → (listAt j).itemCnt ≠ 0 ∧ j ≤ sections.length) ∧
          (listAt (k + n)).itemCnt = 0
  | fuel + 1, k, rets, hrun => by
    by_cases hcnt : (listAt k).itemCnt = 0
    · rw [iterLoop_stop hcnt] at hrun
      cases hrun
      exact ⟨0, rfl, fun j hj hj' => absurd hj' hj.not_gt, hcnt⟩
    rw [iterLoop_step hcnt] at hrun
    rcases Nat.lt_or_ge sections.length k with hk | hk
    · rw [iterNext_missing h0 hk] at hrun
      cases hrun
    rw [iterNext_linked hc hk, ok_bind] at hrun
    obtain ⟨rets', hrun', hret⟩ := bind_eq_ok.1 hrun
    cases hret
    obtain ⟨n, rfl, hall, hend⟩ := iterLoop_inv hc h0 m hrun'
    refine ⟨n + 1, rfl, fun j hj hj' => ?_, by rwa [Nat.add_right_comm] at hend⟩
    rcases Nat.eq_or_lt_of_le hj with rfl | hlt
    · exact ⟨hcnt, hk⟩
    · exact hall j hlt (by omega)

/-! ## The loop -/

/-- The address of an item is what `list_get` returns. -/
theorem get_linked {l : ItemList} (hl : Sections h l sections) {k : ℕ} (hk : k ≤ l.itemCnt)
    (hreal : k ≤ sections.length) :
    ∃ sect, l.get pages k h = .ok (sect, 8 + l.itemSize * (k % l.sectionMaxCnt), h) ∧
      sect + (8 + l.itemSize * (k % l.sectionMaxCnt)) = l.itemAddr sections k := by
  obtain ⟨q, hq, hwalk⟩ := @SectionChain.walk_linked pages h _ _ _ hl.chain
    ((Nat.div_le_self k l.sectionMaxCnt).trans hreal)
  refine ⟨q, get_of_walk hk hwalk, ?_⟩
  rw [itemAddr, sectionFrom, hq, Option.getD_some, Nat.add_assoc]

/-- The loop goes over the items exactly when the headers behind the list start at the items, up to
one without items, and there are sections for the links that it follows. -/
theorem listIter_correct_iff (hl : Sections h (listAt 0) sections) (h0 : h.len 0 = 0) :
    IterCorrect pages listAt h ↔
      (∀ k < (listAt 0).itemCnt, (listAt k).itemCnt ≠ 0 ∧ k ≤ sections.length ∧
        (listAt k).firstSection + 8 = (listAt 0).itemAddr sections k) ∧
      (listAt (listAt 0).itemCnt).itemCnt = 0 := by
  constructor
  · rintro ⟨fuel, rets, hrun, hlen, hptr⟩
    obtain ⟨n, rfl, hall, hend⟩ := iterLoop_inv hl.chain h0 _ hrun
    rw [length_firstItems] at hlen
    rw [Nat.zero_add] at hall hend
    subst hlen
    refine ⟨fun k hk => ?_, hend⟩
    obtain ⟨hcnt, hreal⟩ := hall k (Nat.zero_le k) hk
    obtain ⟨sect, offset, h', hget, hret⟩ := hptr k (by rwa [length_firstItems])
    obtain ⟨sect', hget', haddr⟩ := @get_linked pages h sections _ hl k hk.le hreal
    rw [hget] at hget'
    cases hget'
    rw [getElem_firstItems, Nat.zero_add] at hret
    exact ⟨hcnt, hreal, hret.trans haddr⟩
  · rintro ⟨hall, hend⟩
    have hrun := iterLoop_eq_ok (n := (listAt 0).itemCnt) (k := 0) hl.chain
      (listAt 0).sectionMaxCnt (fun j _ hj => ⟨(hall j (by omega)).1, (hall j (by omega)).2.1⟩)
      (by rwa [Nat.zero_add])
    refine ⟨_, _, hrun, length_firstItems _ _, fun k hk => ?_⟩
    rw [length_firstItems] at hk
    obtain ⟨-, hreal, haddr⟩ := hall k hk
    obtain ⟨sect, hget, haddr'⟩ := @get_linked pages h sections _ hl k hk.le hreal
    refine ⟨sect, _, h, hget, ?_⟩
    rw [getElem_firstItems, Nat.zero_add, haddr, haddr']

/-- The loop over one pointer, with nothing behind the header. -/
theorem listIter_correct_one : IterCorrect firstFitBytePages
    (fun k => if k = 0 then ⟨4096, kernelPageSize, 1, 8⟩ else ⟨0, 0, 0, 0⟩) pointersHeap :=
  (listIter_correct_iff (pointersHeap_sections 1) rfl).2
    ⟨fun k hk => by obtain rfl : k = 0 := Nat.lt_one_iff.1 hk; decide, rfl⟩

/-- Of two pointers, the loop goes over the first. -/
theorem not_listIter_correct_two : Sections pointersHeap ⟨4096, kernelPageSize, 2, 8⟩ [] ∧
    ¬IterCorrect firstFitBytePages
      (fun k => if k = 0 then ⟨4096, kernelPageSize, 2, 8⟩ else ⟨0, 0, 0, 0⟩) pointersHeap := by
  refine ⟨pointersHeap_sections 2, ?_⟩
  rintro ⟨fuel, rets, hrun, hlen, -⟩
  match fuel with
  | 0 | 1 => cases hrun
  | fuel + 2 =>
    cases hrun
    cases hlen

end ItemList

end Toastium
