import Toastium.Reach
import Toastium.File

/-!
# Lists of items of any size

`list.c`, for items of `item_size` bytes. A section is a page : a link of 8 bytes, and then as many
items as fit. `list_get` goes along the links to the section of an item. Where a link is 0 it takes
a new page and goes on there, but does not write the link, so the page is lost.

`SectionChain` is a chain of linked sections, and `SectionChain.walk_linked`,
`SectionChain.walk_missing` say where `list_get` comes to. `listAppends_correct_iff` : after any
number of appends, with anything done to the memory of others in between, the items are there,
the pages of the list are linked, and `list_delete` frees them and no others, exactly when the items
fit the first section.
-/

namespace Toastium

/-! ## The code -/

/-- `list`. -/
structure ItemList where
  firstSection : ℕ
  sectionSize : ℕ
  itemCnt : ℕ
  itemSize : ℕ
  deriving DecidableEq, Repr

/-- `memcpy` of the bytes `src`, `n` of them from number `i` on. The loop over words, for aligned
arguments, writes the same bytes. -/
def memcpyFrom (dst offset : ℕ) (src : ℕ → BitVec 8) :
    ℕ → ℕ → Heap (BitVec 8) → Except (Fault Panic) (Heap (BitVec 8))
  | 0, _, h => .ok h
  | n + 1, i, h => do
    let h ← h.store dst (offset + i) (src i)
    memcpyFrom dst offset src n (i + 1) h

/-- The link of a section. -/
def sectionLink (h : Heap (BitVec 8)) (sect : ℕ) : ℕ :=
  (loadU64 (h.cell sect) 0).toNat

/-- `*section`. -/
def loadLink (h : Heap (BitVec 8)) (sect : ℕ) : Except (Fault Panic) ℕ :=
  if 8 ≤ h.len sect then .ok (sectionLink h sect) else .error (.wild sect 0)

/-- `pg_free`. -/
def freePage (p : ℕ) (h : Heap (BitVec 8)) : Except (Fault Panic) (Heap (BitVec 8)) :=
  if h.len p = 0 then .error (.panic .doubleFreePage) else .ok (h.drop p)

namespace ItemList

section Code

variable (pages : BytePageSource)

/-- `list_create`. -/
def create (itemSize : ℕ) (h : Heap (BitVec 8)) :
    Except (Fault Panic) (ItemList × Heap (BitVec 8)) := do
  let (page, h) ← pages.alloc Panic.outOfFreePages h
  return (⟨page, kernelPageSize, 0, itemSize⟩, h)

/-- The loop of `list_get` over the sections. -/
def walk : ℕ → ℕ → Heap (BitVec 8) → Except (Fault Panic) (ℕ × Heap (BitVec 8))
  | 0, sect, h => .ok (sect, h)
  | n + 1, sect, h => do
    let next ← loadLink h sect
    if next = 0 then
      let (page, h) ← pages.alloc Panic.outOfFreePages h
      walk n page h
    else walk n next h

/-- `section_max_cnt` : the items that fit a section. -/
def sectionMaxCnt (l : ItemList) : ℕ :=
  (l.sectionSize - 8) / l.itemSize

/-- `list_get` : the section of an item, and the offset of the item in it. -/
def get (l : ItemList) (itemIdx : ℕ) (h : Heap (BitVec 8)) :
    Except (Fault Panic) (ℕ × ℕ × Heap (BitVec 8)) := do
  if itemIdx > l.itemCnt then .error (.panic .attemptRemoveListItemOutBounds)
  let (sect, h) ← walk pages (itemIdx / l.sectionMaxCnt) l.firstSection h
  return (sect, 8 + l.itemSize * (itemIdx % l.sectionMaxCnt), h)

/-- `list_append` of the bytes at `src`. -/
def append (l : ItemList) (src : ℕ → BitVec 8) (h : Heap (BitVec 8)) :
    Except (Fault Panic) (ItemList × Heap (BitVec 8)) := do
  let (sect, offset, h) ← l.get pages l.itemCnt h
  let h ← memcpyFrom sect offset src l.itemSize 0 h
  return ({ l with itemCnt := l.itemCnt + 1 }, h)

/-- The loop of `list_delete`, at most `fuel` times. -/
def deleteFrom : ℕ → ℕ → Heap (BitVec 8) → Except (Fault Panic) (Heap (BitVec 8))
  | 0, _, _ => .error .fuel
  | fuel + 1, sect, h => do
    let nextSection ← loadLink h sect
    let h ← freePage sect h
    if nextSection = 0 then return h
    deleteFrom fuel nextSection h

/-- `list_delete`. -/
def delete (l : ItemList) (fuel : ℕ) (h : Heap (BitVec 8)) :
    Except (Fault Panic) (Heap (BitVec 8)) :=
  deleteFrom fuel l.firstSection h

end Code

end ItemList

/-! ## Sections -/

section Sections

variable {pages : BytePageSource} {h h' : Heap (BitVec 8)}

theorem memcpyFrom_eq {dst offset : ℕ} {src : ℕ → BitVec 8} : ∀ (n i : ℕ) {h : Heap (BitVec 8)},
    offset + i + n ≤ h.len dst →
      memcpyFrom dst offset src n i h = .ok (h.fill dst (offset + i) n fun k => src (i + k))
  | 0, i, h, _ => by rw [memcpyFrom, Heap.fill_zero]
  | n + 1, i, h, hle => by
    rw [memcpyFrom, Heap.store_eq_ok (by omega), ok_bind,
      memcpyFrom_eq n (i + 1) (h := h.set dst (offset + i) (src i)) (by rw [Heap.len_set]; omega),
      ← Heap.fill_succ h (fun k => src (i + k))]
    simp only [Nat.add_zero, Nat.add_assoc, Nat.add_comm 1]

theorem loadU64_congr {mem mem' : ℕ → BitVec 8} {p : ℕ}
    (heq : ∀ i < 8, mem' (p + i) = mem (p + i)) : loadU64 mem' p = loadU64 mem p := by
  unfold loadU64
  rw [heq 1 (by decide), heq 2 (by decide), heq 3 (by decide), heq 4 (by decide),
    heq 5 (by decide), heq 6 (by decide), heq 7 (by decide),
    show mem' p = mem p from heq 0 (by decide)]

/-- The link is not part of an item. -/
theorem sectionLink_fill {sect offset n p : ℕ} (f : ℕ → BitVec 8) (h8 : 8 ≤ offset) :
    sectionLink (h.fill sect offset n f) p = sectionLink h p := by
  refine congrArg BitVec.toNat (loadU64_congr fun i hi => ?_)
  rw [Heap.cell_fill, if_neg (by omega)]

theorem sectionLink_congr {p : ℕ} (heq : ∀ i < 8, h'.cell p i = h.cell p i) :
    sectionLink h' p = sectionLink h p := by
  refine congrArg BitVec.toNat (loadU64_congr fun i hi => ?_)
  rw [Nat.zero_add, heq i hi]

theorem sectionLink_push (p n : ℕ) : sectionLink (h.push p n) p = 0 := by
  unfold sectionLink loadU64
  simp only [Heap.cell_push_self]
  rfl

/-- The sections `sections` follow the section `p`, and the last of them has no link. -/
def SectionChain (h : Heap (BitVec 8)) : ℕ → List ℕ → Prop
  | p, [] => h.len p = kernelPageSize ∧ sectionLink h p = 0
  | p, q :: sections => h.len p = kernelPageSize ∧ sectionLink h p = q ∧ q ≠ 0 ∧
    SectionChain h q sections

namespace SectionChain

theorem len : ∀ {p : ℕ} {sections : List ℕ}, SectionChain h p sections →
    ∀ q ∈ p :: sections, h.len q = kernelPageSize
  | p, [], hc, q, hq => by
    rw [List.mem_singleton.1 hq]
    exact hc.1
  | p, q' :: sections, ⟨hlen, _, _, hc⟩, q, hq => by
    rcases List.mem_cons.1 hq with rfl | hq
    · exact hlen
    · exact hc.len q hq

/-- A chain is in the memory of its sections. -/
theorem congr : ∀ {p : ℕ} {sections : List ℕ}, SectionChain h p sections →
    (∀ q ∈ p :: sections, h'.len q = h.len q ∧ sectionLink h' q = sectionLink h q) →
      SectionChain h' p sections
  | p, [], ⟨hlen, hlink⟩, heq => by
    obtain ⟨hlen', hlink'⟩ := heq p List.mem_cons_self
    exact ⟨hlen'.trans hlen, hlink'.trans hlink⟩
  | p, q :: sections, ⟨hlen, hlink, hq, hc⟩, heq => by
    obtain ⟨hlen', hlink'⟩ := heq p List.mem_cons_self
    exact ⟨hlen'.trans hlen, hlink'.trans hlink, hq,
      hc.congr fun q' hq' => heq q' (List.mem_cons_of_mem _ hq')⟩

/-- There is one chain from a section. -/
theorem unique : ∀ {p : ℕ} {s s' : List ℕ}, SectionChain h p s → SectionChain h p s' → s = s'
  | _, [], [], _, _ => rfl
  | _, [], q :: s, ⟨_, hlink⟩, ⟨_, hlink', hq, _⟩ => absurd (hlink'.symm.trans hlink) hq
  | _, q :: s, [], ⟨_, hlink', hq, _⟩, ⟨_, hlink⟩ => absurd (hlink'.symm.trans hlink) hq
  | _, q :: s, q' :: s', ⟨_, hlink, _, hc⟩, ⟨_, hlink', _, hc'⟩ => by
    obtain rfl : q = q' := hlink.symm.trans hlink'
    rw [hc.unique hc']

theorem loadLink {p : ℕ} {sections : List ℕ} (hc : SectionChain h p sections) :
    Toastium.loadLink h p = .ok (sectionLink h p) := by
  refine if_pos ?_
  rw [hc.len p List.mem_cons_self]
  decide

/-- The walk stays in the chain as far as it reaches. -/
theorem walk_linked : ∀ {n p : ℕ} {sections : List ℕ}, SectionChain h p sections →
    n ≤ sections.length →
      ∃ q, (p :: sections)[n]? = some q ∧ ItemList.walk pages n p h = .ok (q, h)
  | 0, p, sections, _, _ => ⟨p, rfl, rfl⟩
  | n + 1, p, q :: sections, hc, hn => by
    obtain ⟨q', hq', hwalk⟩ := walk_linked hc.2.2.2 (Nat.le_of_succ_le_succ hn)
    refine ⟨q', hq', ?_⟩
    rw [ItemList.walk, hc.loadLink, ok_bind, hc.2.1, if_neg hc.2.2.1, hwalk]

/-- Behind the chain, the walk ends at a page that was not in use, and the pages it took are
empty. -/
theorem walk_missing : ∀ {n p : ℕ} {sections : List ℕ} {q : ℕ} {h h' : Heap (BitVec 8)},
    SectionChain h p sections → sections.length < n → ItemList.walk pages n p h = .ok (q, h') →
      Grown h h' ∧ h.len q = 0 ∧ h'.len q = kernelPageSize ∧ (∀ j, h'.cell q j = 0) ∧
        h'.objs.length ≤ h.objs.length + n
  | n + 1, p, q' :: sections, q, h, h', hc, hn, hwalk => by
    rw [ItemList.walk, hc.loadLink, ok_bind, hc.2.1, if_neg hc.2.2.1] at hwalk
    obtain ⟨hg, hfree, hlen, hz, hobjs⟩ := walk_missing hc.2.2.2 (Nat.lt_of_succ_lt_succ hn) hwalk
    exact ⟨hg, hfree, hlen, hz, by omega⟩
  | n + 1, p, [], q, h, h', hc, hn, hwalk => by
    rw [ItemList.walk, hc.loadLink, ok_bind, hc.2, if_pos rfl] at hwalk
    obtain ⟨⟨page, h₁⟩, halloc, hwalk⟩ := bind_eq_ok.1 hwalk
    obtain ⟨hnext, rfl⟩ := Source.alloc_eq_ok.1 halloc
    have hfree := pages.fresh hnext
    have hpush := Grown.push hfree 4096
    have hobjs : (h.push page 4096).objs.length = h.objs.length + 1 := rfl
    cases n with
    | zero =>
      cases hwalk
      exact ⟨hpush, hfree, h.len_push_self _ _, fun j => h.cell_push_self _ _ j, hobjs.le⟩
    | succ n =>
      have hc' : SectionChain (h.push page 4096) page [] :=
        ⟨h.len_push_self _ _, sectionLink_push _ _⟩
      obtain ⟨hg, hfree', hlen, hz, hobjs'⟩ := walk_missing hc' (Nat.succ_pos n) hwalk
      exact ⟨hpush.trans hg, hpush.free hfree', hlen, hz, by omega⟩

/-- A walk ends at a section. -/
theorem walk_len {n p q : ℕ} {sections : List ℕ} (hc : SectionChain h p sections)
    (hwalk : ItemList.walk pages n p h = .ok (q, h')) :
    h'.len q = kernelPageSize ∧ h'.objs.length ≤ h.objs.length + n := by
  rcases Nat.lt_or_ge sections.length n with hn | hn
  · obtain ⟨-, -, hlen, -, hobjs⟩ := hc.walk_missing hn hwalk
    exact ⟨hlen, hobjs⟩
  · obtain ⟨q', hq', hwalk'⟩ := @walk_linked pages h n p sections hc hn
    rw [hwalk] at hwalk'
    cases hwalk'
    exact ⟨hc.len q (List.mem_of_getElem? hq'), Nat.le_add_right _ _⟩

/-- A walk returns if there are pages for the sections that it may miss. -/
theorem walk_ok {N : ℕ} (hN : pages.Ample N) : ∀ {n p : ℕ} {sections : List ℕ}
    {h : Heap (BitVec 8)}, SectionChain h p sections → h.objs.length + n ≤ N →
      ∃ q h', ItemList.walk pages n p h = .ok (q, h')
  | 0, p, _, h, _, _ => ⟨p, h, rfl⟩
  | n + 1, p, q :: sections, h, hc, hn => by
    rw [ItemList.walk, hc.loadLink, ok_bind, hc.2.1, if_neg hc.2.2.1]
    exact hc.2.2.2.walk_ok hN (by omega)
  | n + 1, p, [], h, hc, hn => by
    rw [ItemList.walk, hc.loadLink, ok_bind, hc.2, if_pos rfl]
    rcases pages.alloc_eq Panic.outOfFreePages h with ⟨hnone, -⟩ | ⟨page, -, halloc⟩
    · exact absurd hnone (hN h (by omega))
    have hc' : SectionChain (h.push page 4096) page [] :=
      ⟨h.len_push_self _ _, sectionLink_push _ _⟩
    have hobjs : (h.push page 4096).objs.length = h.objs.length + 1 := rfl
    rw [halloc, ok_bind]
    exact hc'.walk_ok hN (by omega)

end SectionChain

end Sections

/-- An item is inside its section, behind the link. -/
theorem itemOffset_le {itemSize : ℕ} (hpos : 1 ≤ itemSize) (hle : itemSize ≤ 4088) (k : ℕ) :
    8 + itemSize * (k % (4088 / itemSize)) + itemSize ≤ kernelPageSize := by
  have hmax : 0 < 4088 / itemSize := Nat.div_pos hle hpos
  have hmul : itemSize * (4088 / itemSize) ≤ 4088 := Nat.mul_div_le _ _
  have hoffset := Nat.mul_le_mul_left itemSize (Nat.succ_le_of_lt (Nat.mod_lt k hmax))
  rw [Nat.mul_succ] at hoffset
  unfold kernelPageSize
  omega

/-! ## Every run of appends -/

section Runs

variable {pages : BytePageSource} {itemSize : ℕ}

/-- A list, the memory, the pages that the list obtained, and the items that were appended. -/
structure ListRun where
  list : ItemList
  heap : Heap (BitVec 8)
  owned : ℕ → Prop
  items : List (ℕ → BitVec 8)

/-- `list_create`. -/
def ListInit (pages : BytePageSource) (itemSize : ℕ) (s : ListRun) : Prop :=
  ∃ h, ItemList.create pages itemSize h = .ok (s.list, s.heap) ∧
    (∀ q, s.owned q ↔ h.len q = 0 ∧ s.heap.len q ≠ 0) ∧ s.items = []

/-- A call of `list_append`, or anything done to memory that is not the list's. -/
inductive ListStep (pages : BytePageSource) : ListRun → Unit → ListRun → Prop
  | append {s : ListRun} {src : ℕ → BitVec 8} {l : ItemList} {h : Heap (BitVec 8)} :
    s.list.append pages src s.heap = .ok (l, h) →
    ListStep pages s () ⟨l, h, fun q => s.owned q ∨ s.heap.len q = 0 ∧ h.len q ≠ 0,
      s.items ++ [src]⟩
  | other {s : ListRun} {h : Heap (BitVec 8)} :
    (∀ q, s.owned q → h.len q = s.heap.len q ∧ h.cell q = s.heap.cell q) →
    ListStep pages s () ⟨s.list, h, s.owned, s.items⟩

/-- The items are where `list_get` says, the pages of the list are linked, and `list_delete` frees
them and no others. -/
structure ListRun.Correct (pages : BytePageSource) (s : ListRun) : Prop where
  item : ∀ i (hi : i < s.items.length), ∃ sect offset h,
    s.list.get pages i s.heap = .ok (sect, offset, h) ∧
      ∀ b < s.list.itemSize, h.cell sect (offset + b) = s.items[i] b
  linked : ∃ sections, SectionChain s.heap s.list.firstSection sections ∧
    ∀ q, q ∈ s.list.firstSection :: sections ↔ s.owned q
  deleted : ∃ fuel h, s.list.delete fuel s.heap = .ok h ∧
    ∀ q, (s.owned q → h.len q = 0) ∧ (¬s.owned q → h.len q = s.heap.len q)

/-- The first section is not linked to another, and holds the items that fit it. -/
structure ListInv (itemSize : ℕ) (s : ListRun) : Prop where
  sectionSize : s.list.sectionSize = kernelPageSize
  size : s.list.itemSize = itemSize
  cnt : s.list.itemCnt = s.items.length
  first : s.owned s.list.firstSection
  chain : SectionChain s.heap s.list.firstSection []
  item : ∀ i (hi : i < s.items.length), i < 4088 / itemSize → ∀ b < itemSize,
    s.heap.cell s.list.firstSection (8 + itemSize * i + b) = s.items[i] b
  live : ∀ q, s.owned q → s.heap.len q ≠ 0
  only : s.items.length ≤ 4088 / itemSize → ∀ q, s.owned q → q = s.list.firstSection
  more : 4088 / itemSize < s.items.length → ∃ q, s.owned q ∧ q ≠ s.list.firstSection

namespace ListInv

variable {s s' : ListRun}

theorem sectionMaxCnt (hs : ListInv itemSize s) : s.list.sectionMaxCnt = 4088 / itemSize := by
  rw [ItemList.sectionMaxCnt, hs.sectionSize, hs.size]
  rfl

theorem init (h : ListInit pages itemSize s) : ListInv itemSize s := by
  obtain ⟨h₀, hcreate, howned, hitems⟩ := h
  obtain ⟨⟨page, h₁⟩, halloc, hret⟩ := bind_eq_ok.1 hcreate
  obtain ⟨hnext, rfl⟩ := Source.alloc_eq_ok.1 halloc
  obtain ⟨hlist, hheap⟩ := Prod.mk.inj (Except.ok.inj hret)
  have hlen : ∀ q, s.heap.len q = if q = page then 4096 else h₀.len q := fun q => by
    rw [← hheap, Heap.len_push]
  have howned' : ∀ q, s.owned q ↔ q = page := fun q => by
    rw [howned, hlen]
    have hfree := pages.fresh hnext
    constructor
    · rintro ⟨h0, hne⟩
      by_contra hq
      exact hne (by rw [if_neg hq, h0])
    · rintro rfl
      exact ⟨hfree, by rw [if_pos rfl]; decide⟩
  refine ⟨by rw [← hlist], by rw [← hlist], by rw [← hlist, hitems]; rfl, ?_, ?_, ?_, ?_, ?_, ?_⟩
  · rw [← hlist, howned']
  · rw [← hlist, ← hheap]
    exact ⟨Heap.len_push_self _ _ _, sectionLink_push _ _⟩
  · intro i hi
    rw [hitems] at hi
    exact absurd hi (Nat.not_lt_zero i)
  · intro q hq
    exact ((howned q).1 hq).2
  · intro _ q hq
    rw [(howned' q).1 hq, ← hlist]
  · intro hlt
    rw [hitems] at hlt
    exact absurd hlt (Nat.not_lt_zero _)

theorem other {h : Heap (BitVec 8)} (hs : ListInv itemSize s)
    (heq : ∀ q, s.owned q → h.len q = s.heap.len q ∧ h.cell q = s.heap.cell q) :
    ListInv itemSize ⟨s.list, h, s.owned, s.items⟩ := by
  obtain ⟨hlen, hcell⟩ := heq _ hs.first
  refine ⟨hs.sectionSize, hs.size, hs.cnt, hs.first, hs.chain.congr fun q hq => ?_,
    fun i hi hmax b hb => ?_, fun q hq => ?_, hs.only, hs.more⟩
  · rw [List.mem_singleton.1 hq]
    exact ⟨hlen, sectionLink_congr fun i _ => congrFun hcell i⟩
  · rw [show h.cell s.list.firstSection = _ from hcell, hs.item i hi hmax b hb]
  · rw [show h.len q = _ from (heq q hq).1]
    exact hs.live q hq

/-- The list after an append, by what the append did to the first section and to the pages. -/
theorem appended {src : ℕ → BitVec 8} {h : Heap (BitVec 8)} (hs : ListInv itemSize s)
    (hchain : SectionChain h s.list.firstSection [])
    (hold : ∀ i < s.items.length, i < 4088 / itemSize → ∀ b < itemSize,
      h.cell s.list.firstSection (8 + itemSize * i + b) =
        s.heap.cell s.list.firstSection (8 + itemSize * i + b))
    (hnew : s.items.length < 4088 / itemSize → ∀ b < itemSize,
      h.cell s.list.firstSection (8 + itemSize * s.items.length + b) = src b)
    (hlive : ∀ q, s.heap.len q ≠ 0 → h.len q ≠ 0)
    (hsame : s.items.length < 4088 / itemSize → ∀ q, h.len q = s.heap.len q)
    (hmore : 4088 / itemSize ≤ s.items.length → ∃ q, s.heap.len q = 0 ∧ h.len q ≠ 0) :
    ListInv itemSize ⟨{ s.list with itemCnt := s.list.itemCnt + 1 }, h,
      fun q => s.owned q ∨ s.heap.len q = 0 ∧ h.len q ≠ 0, s.items ++ [src]⟩ := by
  have hlen : (s.items ++ [src]).length = s.items.length + 1 := List.length_append
  refine ⟨hs.sectionSize, hs.size, ?_, Or.inl hs.first, hchain, fun i hi hmax b hb => ?_,
    fun q hq => ?_, fun hle q hq => ?_, fun hlt => ?_⟩
  · rw [hlen]
    exact congrArg (· + 1) hs.cnt
  · simp only at hi ⊢
    rcases Nat.lt_or_ge i s.items.length with hlt | hge
    · rw [List.getElem_append_left hlt, hold i hlt hmax b hb, hs.item i hlt hmax b hb]
    · obtain rfl : i = s.items.length := by omega
      rw [List.getElem_concat_length rfl]
      exact hnew hmax b hb
  · exact hq.elim (fun hq => hlive q (hs.live q hq)) fun hq => hq.2
  · rw [show (s.items ++ [src]).length = _ from hlen] at hle
    rcases hq with hq | ⟨h0, hne⟩
    · exact hs.only (Nat.le_of_succ_le hle) q hq
    · exact absurd ((hsame hle q).trans h0) hne
  · rw [show (s.items ++ [src]).length = _ from hlen] at hlt
    obtain ⟨q, h0, hne⟩ := hmore (Nat.le_of_lt_succ hlt)
    refine ⟨q, Or.inr ⟨h0, hne⟩, ?_⟩
    rintro rfl
    exact hs.live _ hs.first h0

/-- An append to the first section, or to a page that is lost. -/
theorem append (hpos : 1 ≤ itemSize) (hle : itemSize ≤ 4088) {src : ℕ → BitVec 8} {l : ItemList}
    {h : Heap (BitVec 8)} (hs : ListInv itemSize s)
    (happ : s.list.append pages src s.heap = .ok (l, h)) :
    ListInv itemSize ⟨l, h, fun q => s.owned q ∨ s.heap.len q = 0 ∧ h.len q ≠ 0,
      s.items ++ [src]⟩ := by
  have hmax : 0 < 4088 / itemSize := Nat.div_pos hle hpos
  have hfirst : s.heap.len s.list.firstSection = kernelPageSize := hs.chain.1
  unfold ItemList.append ItemList.get at happ
  rw [if_neg (lt_irrefl _), hs.sectionMaxCnt] at happ
  obtain ⟨⟨sect, offset, h₁⟩, hget, happ'⟩ := bind_eq_ok.1 happ
  obtain ⟨⟨sect', h₂⟩, hwalk, hret⟩ := bind_eq_ok.1 hget
  obtain ⟨h₃, hcopy, hret'⟩ := bind_eq_ok.1 happ'
  cases hret
  cases hret'
  have hoffset := itemOffset_le hpos hle s.items.length
  rw [hs.cnt] at hwalk
  rw [hs.cnt, hs.size] at hcopy
  rcases Nat.lt_or_ge s.items.length (4088 / itemSize) with hn | hn
  · -- the item goes to the first section
    rw [Nat.div_eq_of_lt hn, ItemList.walk] at hwalk
    cases hwalk
    rw [Nat.mod_eq_of_lt hn] at hcopy hoffset
    rw [memcpyFrom_eq _ _ (by omega)] at hcopy
    cases hcopy
    refine hs.appended ?_ (fun i hi _ b hb => ?_) (fun _ b hb => ?_) (fun _ hq => hq)
      (fun _ _ => rfl) fun hge => absurd hn hge.not_gt
    · exact hs.chain.congr fun q _ => ⟨rfl, sectionLink_fill _ (by omega)⟩
    · have hlt : itemSize * i + itemSize ≤ itemSize * s.items.length := by
        rw [← Nat.mul_succ]
        exact Nat.mul_le_mul_left _ hi
      rw [Heap.cell_fill, if_neg (by omega)]
    · rw [Heap.cell_fill, if_pos ⟨rfl, by omega, by omega⟩]
      exact congrArg src (by omega)
  · -- the item goes to a page that no link leads to
    obtain ⟨hg, hfree, hlen, -, -⟩ := hs.chain.walk_missing (Nat.div_pos hn hmax) hwalk
    rw [memcpyFrom_eq _ _ (by omega)] at hcopy
    cases hcopy
    have hlive : s.heap.len s.list.firstSection ≠ 0 := by
      rw [hfirst]
      decide
    have hne : s.list.firstSection ≠ sect := by
      rintro rfl
      exact hlive hfree
    obtain ⟨hflen, hfcell⟩ := hg s.list.firstSection hlive
    refine hs.appended ?_ (fun i hi _ b hb => ?_) (fun hlt => absurd hlt hn.not_gt)
      (fun q hq => ?_) (fun hlt => absurd hlt hn.not_gt) fun _ => ⟨sect, hfree, ?_⟩
    · refine hs.chain.congr fun q hq => ?_
      rw [List.mem_singleton.1 hq]
      exact ⟨hflen, (sectionLink_fill _ (by omega)).trans (sectionLink_congr fun i _ => hfcell i)⟩
    · rw [Heap.cell_fill_of_base_ne _ _ _ _ _ hne, hfcell]
    · rw [Heap.len_fill, (hg q hq).1]
      exact hq
    · rw [Heap.len_fill, hlen]
      decide

/-- In every state of every run, by the number of items. -/
theorem reach (hpos : 1 ≤ itemSize) (hle : itemSize ≤ 4088)
    (h : Reach (ListInit pages itemSize) (ListStep pages) s) : ListInv itemSize s := by
  refine Reach.invariant (ListInv itemSize) (fun _ => init) (fun s c s' hs hstep => ?_) h
  cases hstep with
  | append happ => exact hs.append hpos hle happ
  | other heq => exact hs.other heq

/-- The items that fit the first section. -/
theorem correct (hs : ListInv itemSize s) (hn : s.items.length ≤ 4088 / itemSize) :
    s.Correct pages := by
  have hfirst : s.heap.len s.list.firstSection = 4096 := hs.chain.1
  refine ⟨fun i hi => ?_, ⟨[], hs.chain, fun q => ?_⟩, 1, s.heap.drop s.list.firstSection, ?_,
    fun q => ⟨fun hq => ?_, fun hq => ?_⟩⟩
  · have hlt : i < 4088 / itemSize := by omega
    refine ⟨s.list.firstSection, 8 + itemSize * i, s.heap, ?_, fun b hb => ?_⟩
    · rw [ItemList.get, if_neg (by rw [hs.cnt]; omega), hs.sectionMaxCnt, hs.size,
        Nat.div_eq_of_lt hlt, Nat.mod_eq_of_lt hlt]
      rfl
    · exact hs.item i hi hlt b (hs.size ▸ hb)
  · rw [List.mem_singleton]
    exact ⟨fun hq => hq ▸ hs.first, hs.only hn q⟩
  · rw [ItemList.delete, ItemList.deleteFrom, hs.chain.loadLink, ok_bind, hs.chain.2, freePage,
      if_neg (by omega)]
    rfl
  · rw [hs.only hn q hq, Heap.len_drop_self]
  · refine Heap.len_drop_of_ne _ ?_
    rintro rfl
    exact hq hs.first

end ListInv

theorem ListInv.not_correct {s : ListRun} (hs : ListInv itemSize s)
    (hn : 4088 / itemSize < s.items.length) : ¬s.Correct pages := by
  intro hc
  obtain ⟨q, hq, hne⟩ := hs.more hn
  obtain ⟨sections, hchain, hmem⟩ := hc.linked
  rw [hchain.unique hs.chain] at hmem
  exact hne (List.mem_singleton.1 ((hmem q).2 hq))

/-- In every run, the items are there, the pages are linked, and `list_delete` frees them and no
others, exactly as long as the items fit the first section. -/
theorem listAppends_correct_iff {s : ListRun} (hpos : 1 ≤ itemSize) (hle : itemSize ≤ 4088)
    (h : Reach (ListInit pages itemSize) (ListStep pages) s) :
    s.Correct pages ↔ s.items.length ≤ 4088 / itemSize := by
  have hs := ListInv.reach hpos hle h
  exact ⟨fun hc => Nat.le_of_not_lt fun hn => hs.not_correct hn hc, hs.correct⟩

/-- An append returns if there are pages for the sections that it misses. -/
theorem ListInv.append_ok {s : ListRun} {N : ℕ} (hN : pages.Ample N) (hpos : 1 ≤ itemSize)
    (hle : itemSize ≤ 4088) (hs : ListInv itemSize s)
    (hobjs : s.heap.objs.length + s.items.length ≤ N) (src : ℕ → BitVec 8) :
    ∃ l h, s.list.append pages src s.heap = .ok (l, h) ∧
      h.objs.length ≤ s.heap.objs.length + s.items.length := by
  have hdiv : s.items.length / (4088 / itemSize) ≤ s.items.length := Nat.div_le_self _ _
  obtain ⟨q, h, hwalk⟩ := hs.chain.walk_ok hN (n := s.items.length / (4088 / itemSize)) (by omega)
  obtain ⟨hlen, hle'⟩ := hs.chain.walk_len hwalk
  have hoffset := itemOffset_le hpos hle s.items.length
  have happ : s.list.append pages src s.heap = .ok ({ s.list with itemCnt := s.list.itemCnt + 1 },
      h.fill q (8 + itemSize * (s.items.length % (4088 / itemSize)) + 0) itemSize
        fun k => src (0 + k)) := by
    rw [ItemList.append, ItemList.get, if_neg (lt_irrefl _), hs.sectionMaxCnt, hs.cnt, hs.size,
      hwalk]
    simp only [ok_bind, pure_eq_ok]
    rw [memcpyFrom_eq _ _ (by omega), ok_bind, ← hs.size]
  refine ⟨_, _, happ, ?_⟩
  change h.objs.length ≤ _
  omega

/-- Any number of items can be appended, if there are pages enough. -/
theorem ListInv.reach_items {N : ℕ} (hN : pages.Ample N) (hpos : 1 ≤ itemSize)
    (hle : itemSize ≤ 4088) (src : ℕ → BitVec 8) : ∀ n, n * n + 1 ≤ N →
      ∃ s, Reach (ListInit pages itemSize) (ListStep pages) s ∧ s.items.length = n ∧
        s.heap.objs.length ≤ n * n + 1
  | 0, hn => by
    rcases pages.alloc_eq Panic.outOfFreePages (⟨[], fun _ _ => 0⟩ : Heap (BitVec 8)) with
      ⟨hnone, -⟩ | ⟨page, -, halloc⟩
    · exact absurd hnone (hN _ (Nat.lt_of_lt_of_le Nat.zero_lt_one hn))
    · refine ⟨⟨⟨page, kernelPageSize, 0, itemSize⟩, Heap.push ⟨[], fun _ _ => 0⟩ page 4096,
        fun q => (⟨[], fun _ _ => 0⟩ : Heap (BitVec 8)).len q = 0 ∧
          (Heap.push ⟨[], fun _ _ => 0⟩ page 4096 : Heap (BitVec 8)).len q ≠ 0, []⟩,
        Reach.start ⟨⟨[], fun _ _ => 0⟩, ?_, fun q => Iff.rfl, rfl⟩, rfl, le_rfl⟩
      rw [ItemList.create, halloc]
      rfl
  | n + 1, hn => by
    have hsq : (n + 1) * (n + 1) = n * n + n + n + 1 := by ring
    obtain ⟨s, hreach, hlen, hobjs⟩ := reach_items hN hpos hle src n (by omega)
    have hs := ListInv.reach hpos hle hreach
    obtain ⟨l, h, happ, hobjs'⟩ := hs.append_ok hN hpos hle (by omega) src
    refine ⟨_, hreach.next (ListStep.append happ), ?_, ?_⟩
    · rw [List.length_append, hlen]
      rfl
    · simp only
      omega

/-- Pages handed out from the first free one on. -/
def firstFitBytePages : BytePageSource :=
  Source.firstFit (BitVec 8) 4096 4096 4096 pageBytes_pos (dvd_refl _)

theorem firstFitBytePages_ample : firstFitBytePages.Ample (2 ^ 20) := fun h hlt =>
  Source.firstFit_ne_none (by decide) (by decide) (by omega)

/-- 511 pointers fit the first section. -/
theorem listAppends_correct_pointers : ∃ s, s.items.length = 511 ∧
    ListRun.Correct firstFitBytePages s := by
  obtain ⟨s, hreach, hlen, -⟩ := @ListInv.reach_items firstFitBytePages 8 _
    firstFitBytePages_ample (by decide) (by decide) (fun _ => 1) 511 (by decide)
  exact ⟨s, hlen, (listAppends_correct_iff (by decide) (by decide) hreach).2 (by rw [hlen])⟩

/-- One more pointer does not. -/
theorem not_listAppends_correct_section : ∃ s,
    Reach (ListInit firstFitBytePages 8) (ListStep firstFitBytePages) s ∧ s.items.length = 512 ∧
      ¬s.Correct firstFitBytePages := by
  obtain ⟨s, hreach, hlen, -⟩ := @ListInv.reach_items firstFitBytePages 8 _
    firstFitBytePages_ample (by decide) (by decide) (fun _ => 1) 512 (by decide)
  have hs := ListInv.reach (by decide) (by decide) hreach
  exact ⟨s, hreach, hlen, hs.not_correct (by rw [hlen]; decide)⟩

end Runs

end Toastium
