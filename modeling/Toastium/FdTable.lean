import Toastium.Reach
import Toastium.Layout
import Toastium.Chain

/-!
# Local file descriptors

The file descriptors of a process are in chained pages of 512 words, the first at
`file_desc_pg`. `fd_insert_local` and `fd_remove_local` keep the descriptor of local id
`n` in word `n % 511 + 1` of page `n / 511`, word 0 being the link, so an id is an index
into the array of `Chain.slot`. `fd_get_local` reads one word further on.

`fdGetLocal_correct_iff` : over every run, insertions return ids that are not open and no
insertion or removal leaves the table, while `fd_get_local` is right exactly for the ids
whose page does not exist and for those, not last on their page, that agree with the next
id.
-/

namespace Toastium

/-! ## The code -/

/-- `page_cnt`, the entries of a table page after the link. -/
def fdPageCnt : ℕ := 511

/-- `fd_get_local`. -/
def fdGetLocal (h : Heap (BitVec 64)) (fileDescPg localId : ℕ) :
    Except (Fault Panic) (BitVec 64) := do
  match ← walk h (localId / fdPageCnt) fileDescPg with
  | none => return 0
  | some curPage => h.load curPage (localId % fdPageCnt + 2)

/-- The `for` loop of `fd_insert_local` : the first entry from `i` on that is 0, among
`m` entries. -/
def fdFindFree (h : Heap (BitVec 64)) (page : ℕ) : ℕ → ℕ → Except (Fault Panic) (Option ℕ)
  | 0, _ => .ok none
  | m + 1, i => do
    if (← h.load page (i + 1)) = 0 then return some i
    fdFindFree h page m (i + 1)

/-- The `while` loop of `fd_insert_local`, at most `fuel` times. -/
def fdInsertFrom (src : PageSource) (fd : BitVec 64) :
    ℕ → Heap (BitVec 64) → ℕ → ℕ → Except (Fault Panic) (ℕ × Heap (BitVec 64))
  | 0, _, _, _ => .error .fuel
  | fuel + 1, h, page, pageNum => do
    match ← fdFindFree h page fdPageCnt 0 with
    | some i =>
      let h ← h.store page (i + 1) fd
      return (pageNum * fdPageCnt + i, h)
    | none =>
      let h ← if (← h.load page 0) = 0 then do
          let (newPage, h) ← src.alloc .outOfFreePages h
          h.store page 0 (BitVec.ofNat 64 newPage)
        else pure h
      let next ← h.load page 0
      fdInsertFrom src fd fuel h next.toNat (pageNum + 1)

/-- `fd_insert_local`. -/
def fdInsertLocal (src : PageSource) (fuel : ℕ) (h : Heap (BitVec 64)) (fileDescPg : ℕ)
    (fd : BitVec 64) : Except (Fault Panic) (ℕ × Heap (BitVec 64)) :=
  fdInsertFrom src fd fuel h fileDescPg 0

/-- `fd_remove_local`. -/
def fdRemoveLocal (h : Heap (BitVec 64)) (fileDescPg localId : ℕ) :
    Except (Fault Panic) (Heap (BitVec 64)) := do
  match ← walk h (localId / fdPageCnt) fileDescPg with
  | none => return h
  | some curPage =>
    if (← h.load curPage (localId % fdPageCnt + 1)) = 0 then return h
    h.store curPage (localId % fdPageCnt + 1) 0

/-! ## Runs -/

/-- The memory, the process's `file_desc_pg`, and the descriptors that were inserted and
not removed since, under the ids the insertions returned. -/
structure FdState where
  heap : Heap (BitVec 64)
  fileDescPg : ℕ
  opened : ℕ → Option (BitVec 64)

/-- A call on the table. -/
inductive FdCall
  | insert (fd : BitVec 64)
  | remove (localId : ℕ)

/-- What a call that returns does. -/
inductive FdStep (src : PageSource) : FdState → FdCall → FdState → Prop
  | insert {s : FdState} {fd : BitVec 64} {fuel localId : ℕ} {h : Heap (BitVec 64)} : fd ≠ 0 →
      fdInsertLocal src fuel s.heap s.fileDescPg fd = .ok (localId, h) →
      FdStep src s (.insert fd)
        { s with heap := h, opened := Function.update s.opened localId (some fd) }
  | remove {s : FdState} {localId : ℕ} {h : Heap (BitVec 64)} :
      fdRemoveLocal s.heap s.fileDescPg localId = .ok h →
      FdStep src s (.remove localId)
        { s with heap := h, opened := Function.update s.opened localId none }

/-- A new process : `file_desc_pg` is a fresh page. -/
def FdInit (src : PageSource) (s : FdState) : Prop :=
  (∃ h, src.alloc Panic.outOfFreePages h = .ok (s.fileDescPg, s.heap)) ∧ s.opened = fun _ => none

/-- `fd_get_local` returns the descriptor that is open under the id, or NULL. -/
def FdGetCorrect (s : FdState) (localId : ℕ) : Prop :=
  fdGetLocal s.heap s.fileDescPg localId = .ok ((s.opened localId).getD 0)

/-! ## The table is an array -/

/-- The pages `ps` hold the open descriptors. -/
structure FdPages (s : FdState) (ps : List ℕ) : Prop where
  chain : Chain s.heap 512 ps
  head : ps[0]? = some s.fileDescPg
  slot : ∀ localId, slot s.heap ps fdPageCnt localId = (s.opened localId).getD 0
  ne_null : ∀ localId, s.opened localId ≠ some 0

/-- Pointers that are not NULL are told apart from each other and from none. -/
theorem getD_zero_inj {a b : Option (BitVec 64)} (ha : a ≠ some 0) (hb : b ≠ some 0)
    (h : a.getD 0 = b.getD 0) : a = b := by
  cases a with
  | none =>
    cases b with
    | none => rfl
    | some y => exact absurd (congrArg some (Eq.symm h)) hb
  | some x =>
    cases b with
    | none => exact absurd (congrArg some h) ha
    | some y => exact congrArg some h

theorem fdPage_div_mod {i j : ℕ} (hj : j < fdPageCnt) :
    (i * fdPageCnt + j) / fdPageCnt = i ∧ (i * fdPageCnt + j) % fdPageCnt = j := by
  unfold fdPageCnt at *
  omega

/-- The `for` loop stops at an entry that is 0, or has seen none. -/
theorem fdFindFree_cases {h : Heap (BitVec 64)} {page : ℕ} (hlen : h.len page = 512) :
    ∀ m i, i + m ≤ fdPageCnt →
      (∃ j < i + m, h.cell page (j + 1) = 0 ∧ fdFindFree h page m i = .ok (some j)) ∨
      (∀ j, i ≤ j → j < i + m → h.cell page (j + 1) ≠ 0) ∧ fdFindFree h page m i = .ok none
  | 0, i, _ => Or.inr ⟨fun j h1 h2 => by omega, rfl⟩
  | m + 1, i, him => by
    have hload : (h.load page (i + 1) : Except (Fault Panic) _) = .ok (h.cell page (i + 1)) :=
      Heap.load_eq_ok (by unfold fdPageCnt at him; omega)
    by_cases hz : h.cell page (i + 1) = 0
    · exact Or.inl ⟨i, by omega, hz, by simp [fdFindFree, hload, hz]⟩
    · have hnext : fdFindFree h page (m + 1) i = fdFindFree h page m (i + 1) := by
        rw [fdFindFree, hload, ok_bind, if_neg hz]
      rw [hnext]
      rcases fdFindFree_cases hlen m (i + 1) (by omega) with ⟨j, hj, hcell, hr⟩ | ⟨hall, hr⟩
      · exact Or.inl ⟨j, by omega, hcell, hr⟩
      · refine Or.inr ⟨fun j h1 h2 => ?_, hr⟩
        rcases h1.eq_or_lt with rfl | h1
        · exact hz
        · exact hall j h1 (by omega)

namespace FdPages

variable {s : FdState} {ps : List ℕ}

theorem length_pos (hs : FdPages s ps) : 0 < ps.length :=
  (List.getElem?_eq_some_iff.mp hs.head).1

/-- A descriptor written to a free entry. -/
theorem set (hs : FdPages s ps) (localId : ℕ) {p : ℕ} (hp : ps[localId / fdPageCnt]? = some p)
    (fd : Option (BitVec 64)) (hfd : fd ≠ some 0) :
    FdPages { s with heap := s.heap.set p (localId % fdPageCnt + 1) (fd.getD 0),
                     opened := Function.update s.opened localId fd } ps where
  chain := hs.chain.set p _ (by omega)
  head := hs.head
  slot m := by
    change _ = (Function.update s.opened localId fd m).getD 0
    rw [hs.chain.slot_set hp, Function.update_apply, hs.slot]
    split_ifs <;> rfl
  ne_null m := by
    change Function.update s.opened localId fd m ≠ some 0
    rw [Function.update_apply]
    split_ifs
    · exact hfd
    · exact hs.ne_null m

/-- An entry that is 0 belongs to an id that is not open. -/
theorem opened_eq_none (hs : FdPages s ps) {localId p : ℕ}
    (hp : ps[localId / fdPageCnt]? = some p)
    (hz : s.heap.cell p (localId % fdPageCnt + 1) = 0) : s.opened localId = none := by
  have hslot := hs.slot localId
  rw [Toastium.slot, hp, Option.elim_some, hz] at hslot
  exact getD_zero_inj (hs.ne_null localId) (by simp) hslot.symm

/-- A fresh page linked to the last one. -/
theorem append (hs : FdPages s ps) {src : PageSource} {l q : ℕ} (hlast : ps.getLast? = some l)
    (hq : src.next s.heap = some q) :
    FdPages { s with heap := (s.heap.push q 512).set l 0 (BitVec.ofNat 64 q) } (ps ++ [q]) where
  chain := hs.chain.append hlast (src.fresh hq) (by decide) (src.pos hq) (by
    have := src.lt hq
    omega)
  head := by
    rw [List.getElem?_append_left hs.length_pos]
    exact hs.head
  slot m := by
    rw [hs.chain.slot_append (src.fresh hq) (by decide)]
    exact hs.slot m
  ne_null := hs.ne_null

end FdPages

/-- What an insertion of `fd` into the table of `s` returns : an id that was not open, and
a table with `fd` under it. -/
def FdInserts (s : FdState) (fd : BitVec 64) (r : ℕ × Heap (BitVec 64)) : Prop :=
  s.opened r.1 = none ∧ ∃ ps, FdPages
    { s with heap := r.2, opened := Function.update s.opened r.1 (some fd) } ps

theorem fdInsertFrom_found {src : PageSource} {fd : BitVec 64} (hfd : fd ≠ 0) {s : FdState}
    {ps : List ℕ} (hs : FdPages s ps) {i p j : ℕ} (hp : ps[i]? = some p) (hj : j < fdPageCnt)
    (hz : s.heap.cell p (j + 1) = 0) (hfind : fdFindFree s.heap p fdPageCnt 0 = .ok (some j))
    (fuel : ℕ) :
    ∃ r, fdInsertFrom src fd (fuel + 1) s.heap p i = .ok r ∧ FdInserts s fd r := by
  have hlen := hs.chain.len p (List.mem_of_getElem? hp)
  obtain ⟨hdiv, hmod⟩ := fdPage_div_mod (i := i) hj
  refine ⟨(i * fdPageCnt + j, s.heap.set p (j + 1) fd), ?_, ?_, ps, ?_⟩
  · have hstore : (s.heap.store p (j + 1) fd : Except (Fault Panic) _) = .ok _ :=
      Heap.store_eq_ok (by unfold fdPageCnt at hj; omega)
    simp [fdInsertFrom, hfind, hstore]
  · exact hs.opened_eq_none (by rw [hdiv, hp]) (by rw [hmod]; exact hz)
  · have hset := hs.set (i * fdPageCnt + j) (by rw [hdiv, hp]) (some fd)
      (by simpa using hfd)
    rwa [hmod] at hset

/-- The `while` loop, from page `i` of the table on. -/
theorem fdInsertFrom_spec (src : PageSource) {fd : BitVec 64} (hfd : fd ≠ 0) {s : FdState}
    {ps : List ℕ} (hs : FdPages s ps) :
    ∀ fuel i p, ps[i]? = some p →
      (fdInsertFrom src fd fuel s.heap p i = .error .fuel ∧ fuel ≤ ps.length - i) ∨
      fdInsertFrom src fd fuel s.heap p i = .error (.panic .outOfFreePages) ∨
      ∃ r, fdInsertFrom src fd fuel s.heap p i = .ok r ∧ FdInserts s fd r
  | 0, i, p, hp => Or.inl ⟨rfl, Nat.zero_le _⟩
  | fuel + 1, i, p, hp => by
    have hlen := hs.chain.len p (List.mem_of_getElem? hp)
    have hload : (s.heap.load p 0 : Except (Fault Panic) _) = .ok (s.heap.cell p 0) :=
      Heap.load_eq_ok (by omega)
    rcases fdFindFree_cases hlen fdPageCnt 0 (by omega) with ⟨j, hj, hz, hfind⟩ | ⟨-, hfind⟩
    · exact Or.inr (Or.inr (fdInsertFrom_found hfd hs hp (by omega) hz hfind fuel))
    by_cases hl : s.heap.cell p 0 = 0
    · -- the last page is full : the next one is new, and its first entry is free
      have hlast := (hs.chain.link_eq_zero_iff hp).mp hl
      rcases src.alloc_eq Panic.outOfFreePages s.heap with ⟨-, halloc⟩ | ⟨q, hq, halloc⟩
      · exact Or.inr (Or.inl (by simp [fdInsertFrom, hfind, hload, hl, halloc]))
      have hpq : p ≠ q := by
        rintro rfl
        have := src.fresh hq
        omega
      have hgl : ps.getLast? = some p := by
        rw [List.getLast?_eq_getElem?, hlast]
        exact hp
      have hs' := hs.append hgl hq
      have hstep : fdInsertFrom src fd (fuel + 1) s.heap p i =
          fdInsertFrom src fd fuel ((s.heap.push q 512).set p 0 (BitVec.ofNat 64 q)) q (i + 1) := by
        have hlen' : 0 < (s.heap.push q 512).len p := by
          rw [Heap.len_push_of_ne _ _ hpq, hlen]
          decide
        have hq' : q < 2 ^ 64 := by
          have := src.lt hq
          omega
        simp only [fdInsertFrom, hfind, hload, hl, halloc, ok_bind, if_true,
          Heap.store_eq_ok hlen', Heap.load_set_self hlen', BitVec.toNat_ofNat,
          Nat.mod_eq_of_lt hq']
      rw [hstep]
      have hq0 : (ps ++ [q])[i + 1]? = some q := by
        rw [← hlast, List.getElem?_append_right le_rfl]
        simp
      cases fuel with
      | zero => exact Or.inl ⟨rfl, by omega⟩
      | succ fuel =>
        refine Or.inr (Or.inr ?_)
        have hzero : ∀ j, ((s.heap.push q 512).set p 0 (BitVec.ofNat 64 q)).cell q j = 0 := by
          intro j
          rw [Heap.cell_set_of_base_ne _ _ _ _ hpq.symm, Heap.cell_push_self]
        have hlenq : ((s.heap.push q 512).set p 0 (BitVec.ofNat 64 q)).len q = 512 := by simp
        rcases fdFindFree_cases hlenq fdPageCnt 0 (by omega) with ⟨j, hj, hz, hfind'⟩ | ⟨hall, -⟩
        · exact fdInsertFrom_found hfd hs' hq0 (by omega) hz hfind' fuel
        · exact absurd (hzero 1) (hall 0 le_rfl (by decide))
    · have hne : ps.length ≠ i + 1 := fun e => hl ((hs.chain.link_eq_zero_iff hp).mpr e)
      have hlt : i + 1 < ps.length := by
        have := (List.getElem?_eq_some_iff.mp hp).1
        omega
      have hnext := List.getElem?_eq_getElem hlt
      have hlink := hs.chain.link i p hp
      rw [hnext, Option.getD_some] at hlink
      have hstep : fdInsertFrom src fd (fuel + 1) s.heap p i =
          fdInsertFrom src fd fuel s.heap ps[i + 1] (i + 1) := by
        simp only [fdInsertFrom, hfind, hload, ok_bind, if_neg hl, pure_eq_ok, hlink]
      rw [hstep]
      rcases fdInsertFrom_spec src hfd hs fuel (i + 1) _ hnext with ⟨hf, hle⟩ | h
      · exact Or.inl ⟨hf, by omega⟩
      · exact Or.inr h

/-! ## Every run -/

theorem FdPages.walk_eq {s : FdState} {ps : List ℕ} (hs : FdPages s ps) (m : ℕ) :
    (walk s.heap m s.fileDescPg : Except (Fault Panic) _) = .ok ps[m]? := by
  rw [hs.chain.walk_eq (by decide) m hs.head, Nat.zero_add]

/-- An id whose page does not exist is not open. -/
theorem FdPages.opened_of_length_le {s : FdState} {ps : List ℕ} (hs : FdPages s ps) {localId : ℕ}
    (hle : ps.length ≤ localId / fdPageCnt) : s.opened localId = none := by
  have hslot := hs.slot localId
  rw [Toastium.slot, List.getElem?_eq_none hle, Option.elim_none] at hslot
  exact getD_zero_inj (hs.ne_null localId) (by simp) hslot.symm

/-- `fd_remove_local` returns, with the id closed. -/
theorem fdRemoveLocal_spec {s : FdState} {ps : List ℕ} (hs : FdPages s ps) (localId : ℕ) :
    ∃ h, fdRemoveLocal s.heap s.fileDescPg localId = .ok h ∧
      FdPages { s with heap := h, opened := Function.update s.opened localId none } ps := by
  cases hp : ps[localId / fdPageCnt]? with
  | none =>
    have hnone := hs.opened_of_length_le (List.getElem?_eq_none_iff.mp hp)
    refine ⟨s.heap, by simp [fdRemoveLocal, hs.walk_eq, hp], ?_⟩
    rwa [← hnone, Function.update_eq_self]
  | some p =>
    have hlt : localId % fdPageCnt + 1 < s.heap.len p := by
      rw [hs.chain.len p (List.mem_of_getElem? hp)]
      have := Nat.mod_lt localId (show 0 < fdPageCnt by decide)
      unfold fdPageCnt at *
      omega
    by_cases hz : s.heap.cell p (localId % fdPageCnt + 1) = 0
    · have hnone := hs.opened_eq_none hp hz
      refine ⟨s.heap, ?_, ?_⟩
      · simp only [fdRemoveLocal, hs.walk_eq, hp, ok_bind, Heap.load_eq_ok hlt, if_pos hz,
          pure_eq_ok]
      · rwa [← hnone, Function.update_eq_self]
    · refine ⟨s.heap.set p (localId % fdPageCnt + 1) 0, ?_, hs.set localId hp none (by simp)⟩
      simp only [fdRemoveLocal, hs.walk_eq, hp, ok_bind, Heap.load_eq_ok hlt, if_neg hz,
        Heap.store_eq_ok hlt]

/-- In every run the table holds the open descriptors. -/
theorem FdPages.reach {src : PageSource} {s : FdState} (h : Reach (FdInit src) (FdStep src) s) :
    ∃ ps, FdPages s ps := by
  refine Reach.invariant (fun s => ∃ ps, FdPages s ps) ?_ ?_ h
  · rintro ⟨heap, pg, opened⟩ ⟨⟨h, halloc⟩, hnone⟩
    obtain ⟨hnext, hpush⟩ := Source.alloc_eq_ok.mp halloc
    simp only at hnone hnext hpush
    subst hnone hpush
    have hlt := src.lt hnext
    refine ⟨[pg], Chain.single (by simp) (src.pos hnext) (by omega) (by simp), rfl, ?_, ?_⟩
    · intro m
      unfold Toastium.slot
      cases hm : m / fdPageCnt with
      | zero => simp
      | succ k => simp
    · intro m
      simp
  · rintro s a s' ⟨ps, hs⟩ hstep
    cases hstep with
    | insert hfd hins =>
      rcases fdInsertFrom_spec src hfd hs _ 0 _ hs.head with ⟨hf, -⟩ | hf | ⟨r, hr, hinserts⟩
      · exact absurd (hins.symm.trans hf) (by simp)
      · exact absurd (hins.symm.trans hf) (by simp)
      · obtain rfl := Except.ok.inj (hins.symm.trans hr)
        exact hinserts.2
    | remove hrem =>
      obtain ⟨h, hr, hs'⟩ := fdRemoveLocal_spec hs _
      obtain rfl := Except.ok.inj (hrem.symm.trans hr)
      exact ⟨ps, hs'⟩

/-- `fd_get_local` reads the entry of the next id. -/
theorem fdGetCorrect_iff {s : FdState} {ps : List ℕ} (hs : FdPages s ps) (localId : ℕ) :
    FdGetCorrect s localId ↔ ps.length ≤ localId / fdPageCnt ∨
      localId % fdPageCnt ≠ 510 ∧ s.opened localId = s.opened (localId + 1) := by
  unfold FdGetCorrect fdGetLocal
  rw [hs.walk_eq, ok_bind]
  cases hp : ps[localId / fdPageCnt]? with
  | none =>
    have hle := List.getElem?_eq_none_iff.mp hp
    rw [hs.opened_of_length_le hle]
    exact iff_of_true rfl (Or.inl hle)
  | some p =>
    have hlt := (List.getElem?_eq_some_iff.mp hp).1
    have hlen := hs.chain.len p (List.mem_of_getElem? hp)
    have hmod := Nat.mod_lt localId (show 0 < fdPageCnt by decide)
    simp only [Nat.not_le.mpr hlt, false_or]
    by_cases hl : localId % fdPageCnt = 510
    · rw [Heap.load_eq_wild (by omega)]
      simp [hl]
    · have hnext : (localId + 1) / fdPageCnt = localId / fdPageCnt ∧
          (localId + 1) % fdPageCnt = localId % fdPageCnt + 1 := by
        unfold fdPageCnt at *
        omega
      have hslot := hs.slot (localId + 1)
      rw [Toastium.slot, hnext.1, hnext.2, hp, Option.elim_some] at hslot
      rw [Heap.load_eq_ok (by unfold fdPageCnt at *; omega), hslot, Except.ok.injEq]
      have h1 := hs.ne_null localId
      have h2 := hs.ne_null (localId + 1)
      constructor
      · intro he
        refine ⟨hl, ?_⟩
        exact getD_zero_inj h1 h2 he.symm
      · rintro ⟨-, he⟩
        rw [he]

/-- Over every run of insertions and removals : an insertion returns an id that is not
open unless the kernel is out of pages, a removal returns, neither leaves the table, and
`fd_get_local` is right exactly for an id beyond the chained pages or one that is not the
last of its page and has the same descriptor open as the next id. -/
theorem fdGetLocal_correct_iff (src : PageSource) {s : FdState}
    (hr : Reach (FdInit src) (FdStep src) s) :
    (∀ fd, fd ≠ 0 → ∃ n, ∀ fuel ≥ n,
      fdInsertLocal src fuel s.heap s.fileDescPg fd = .error (.panic .outOfFreePages) ∨
      ∃ localId h, fdInsertLocal src fuel s.heap s.fileDescPg fd = .ok (localId, h) ∧
        s.opened localId = none) ∧
    (∀ localId, ∃ h, fdRemoveLocal s.heap s.fileDescPg localId = .ok h) ∧
    ∃ ps, Chain s.heap 512 ps ∧ ps[0]? = some s.fileDescPg ∧
      ∀ localId, FdGetCorrect s localId ↔ ps.length ≤ localId / fdPageCnt ∨
        localId % fdPageCnt ≠ 510 ∧ s.opened localId = s.opened (localId + 1) := by
  obtain ⟨ps, hs⟩ := FdPages.reach hr
  refine ⟨fun fd hfd => ⟨ps.length + 1, fun fuel hfuel => ?_⟩, fun localId => ?_,
    ps, hs.chain, hs.head, fdGetCorrect_iff hs⟩
  · rcases fdInsertFrom_spec src hfd hs fuel 0 _ hs.head with ⟨-, hle⟩ | hpanic | ⟨r, hr, hins⟩
    · omega
    · exact Or.inl hpanic
    · exact Or.inr ⟨r.1, r.2, hr, hins.1⟩
  · obtain ⟨h, hrem, -⟩ := fdRemoveLocal_spec hs localId
    exact ⟨h, hrem⟩

/-- The table of a process with descriptor `0xAB0` inserted first. -/
def fdOne : FdState where
  heap := ((Heap.mk [] fun _ _ => 0).push 4096 512).set 4096 1 0xAB0#64
  fileDescPg := 4096
  opened := Function.update (fun _ => none) 0 (some 0xAB0#64)

theorem fdOne_reach : Reach (FdInit bumpPages) (FdStep bumpPages) fdOne := by
  refine Reach.next (s := ⟨(Heap.mk [] fun _ _ => 0).push 4096 512, 4096, fun _ => none⟩)
    (a := .insert 0xAB0#64) (Reach.start ⟨⟨Heap.mk [] fun _ _ => 0, rfl⟩, rfl⟩) ?_
  exact @FdStep.insert _ _ _ 1 _ _ (by decide) rfl

theorem fdGetLocal_correct_iff_fdOne :
    Reach (FdInit bumpPages) (FdStep bumpPages) fdOne ∧
    ∃ ps, Chain fdOne.heap 512 ps ∧ ps[0]? = some fdOne.fileDescPg ∧
      ∀ localId, FdGetCorrect fdOne localId ↔ ps.length ≤ localId / fdPageCnt ∨
        localId % fdPageCnt ≠ 510 ∧ fdOne.opened localId = fdOne.opened (localId + 1) :=
  ⟨fdOne_reach, (fdGetLocal_correct_iff _ fdOne_reach).2.2⟩

/-- After the first insertion, which returns id 0, `fd_get_local(0)` is NULL. -/
theorem not_fdGetCorrect_fdOne :
    Reach (FdInit bumpPages) (FdStep bumpPages) fdOne ∧
    fdOne.opened 0 = some 0xAB0#64 ∧ fdGetLocal fdOne.heap fdOne.fileDescPg 0 = .ok 0 ∧
    ¬FdGetCorrect fdOne 0 := by
  have hget : fdGetLocal fdOne.heap fdOne.fileDescPg 0 = .ok 0 := rfl
  refine ⟨fdOne_reach, rfl, hget, fun h => ?_⟩
  have heq : (0 : BitVec 64) = 0xAB0#64 := Except.ok.inj (hget.symm.trans h)
  exact absurd heq (by decide)

end Toastium
