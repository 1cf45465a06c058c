import Toastium.Allocator

/-!
# The index pages as rows

What the index pages of a size class hold, as `mem_alloc` lays it out : row `i` is the
address of data page `i` followed by its bitmap words, and the rows follow each other in
the array of the chained pages (`rowsWord`), 510 words a page. `AllocInv` ties the memory
to a list of rows for each class and gives every page one role, so that no two uses of
pages meet. The lemmas below say how the four ways in which `mem_alloc` and `mem_free`
write to memory change the rows : a page linked (`AllocInv.link`, `AllocInv.root`), a data
page created (`AllocInv.addRow`), and a bitmap word written (`AllocInv.setWord`).
-/

namespace Toastium

/-- The number of blocks on a data page of class `c`. -/
def classCnt (c : ℕ) : ℕ :=
  maxCntPerPage (2 ^ c)

/-- The row of a data page : its address, the number in its header, and its bitmap. -/
structure Row where
  dataPage : ℕ
  num : BitVec 64
  bits : ℕ → BitVec 64

/-- The array of words that rows of `k` words each make up. -/
def rowsWord (rows : List Row) (k m : ℕ) : BitVec 64 :=
  (rows[m / k]?).elim 0 fun r =>
    if m % k = 0 then BitVec.ofNat 64 r.dataPage else r.bits (m % k - 1)

theorem rowsWord_concat (rows : List Row) {k : ℕ} (hk : 0 < k) (d : ℕ) (num : BitVec 64) (m : ℕ) :
    rowsWord (rows ++ [⟨d, num, fun _ => 0⟩]) k m =
      if m = k * rows.length then BitVec.ofNat 64 d else rowsWord rows k m := by
  have hm := Nat.div_add_mod m k
  have hmk := Nat.mod_lt m hk
  unfold rowsWord
  rcases Nat.lt_trichotomy (m / k) rows.length with hlt | heq | hgt
  · rw [List.getElem?_append_left hlt, if_neg]
    rintro rfl
    rw [Nat.mul_div_cancel_left _ hk] at hlt
    exact lt_irrefl _ hlt
  · rw [heq, List.getElem?_concat_length, Option.elim_some, List.getElem?_eq_none le_rfl,
      Option.elim_none]
    rw [heq] at hm
    by_cases h0 : m % k = 0
    · rw [if_pos h0, if_pos (by omega)]
    · rw [if_neg h0, if_neg (by omega)]
  · rw [List.getElem?_eq_none (by simp only [List.length_append, List.length_singleton]; omega),
      List.getElem?_eq_none hgt.le, if_neg]
    rintro rfl
    rw [Nat.mul_div_cancel_left _ hk] at hgt
    exact lt_irrefl _ hgt

theorem div_mod_row {k i w : ℕ} (hw : w + 1 < k) :
    (k * i + 1 + w) / k = i ∧ (k * i + 1 + w) % k = w + 1 := by
  rw [Nat.add_assoc, Nat.add_comm 1 w]
  exact ⟨by rw [Nat.mul_add_div (by omega), Nat.div_eq_of_lt hw, Nat.add_zero],
    by rw [Nat.mul_add_mod, Nat.mod_eq_of_lt hw]⟩

theorem rowsWord_set {rows : List Row} {k i w : ℕ} {r : Row} (hr : rows[i]? = some r)
    (hw : w + 1 < k) (v : BitVec 64) (m : ℕ) :
    rowsWord (rows.set i { r with bits := Function.update r.bits w v }) k m =
      if m = k * i + 1 + w then v else rowsWord rows k m := by
  have hlt := (List.getElem?_eq_some_iff.mp hr).1
  obtain ⟨hdiv, hmod⟩ := div_mod_row (i := i) hw
  unfold rowsWord
  by_cases hi : m / k = i
  · rw [hi, List.getElem?_set_self hlt, hr, Option.elim_some, Option.elim_some]
    by_cases h0 : m % k = 0
    · rw [if_pos h0, if_pos h0, if_neg]
      rintro rfl
      omega
    · rw [if_neg h0, if_neg h0]
      by_cases hm : m = k * i + 1 + w
      · rw [if_pos hm, hm, hmod, Nat.add_sub_cancel]
        exact Function.update_self _ _ _
      · rw [if_neg hm]
        refine Function.update_of_ne (fun he => ?_) _ _
        have := Nat.div_add_mod m k
        rw [hi] at this
        omega
  · rw [List.getElem?_set_ne (fun e => hi e.symm), if_neg]
    rintro rfl
    exact hi hdiv

/-- The word `w` of the bitmap of row `i`. -/
theorem rowsWord_bits {rows : List Row} {k i w : ℕ} {r : Row} (hr : rows[i]? = some r)
    (hw : w + 1 < k) : rowsWord rows k (k * i + 1 + w) = r.bits w := by
  obtain ⟨hdiv, hmod⟩ := div_mod_row (i := i) hw
  rw [rowsWord, hdiv, hr, Option.elim_some, hmod, if_neg (by omega), Nat.add_sub_cancel]

/-- The first word of row `i`. -/
theorem rowsWord_dataPage {rows : List Row} {k : ℕ} (hk : 0 < k) (i : ℕ) :
    rowsWord rows k (k * i) = (rows[i]?).elim 0 fun r => BitVec.ofNat 64 r.dataPage := by
  rw [rowsWord, Nat.mul_div_cancel_left _ hk, Nat.mul_mod_right]
  rfl

/-- What a page is used for : index page `i` of class `c`, or data page `i` of class `c`. -/
inductive PageRole
  | idx (c i : ℕ)
  | data (c i : ℕ)

/-- The pages of the lists `ls` are those with the roles `f`. -/
def Labelled (ls : ℕ → List ℕ) (role : ℕ → Option PageRole) (f : ℕ → ℕ → PageRole) : Prop :=
  ∀ c i p, (ls c)[i]? = some p ↔ role p = some (f c i)

theorem getElem?_concat_iff {α : Type*} {l : List α} {q p : α} {i : ℕ} :
    (l ++ [q])[i]? = some p ↔ l[i]? = some p ∨ i = l.length ∧ p = q := by
  rcases Nat.lt_trichotomy i l.length with hi | hi | hi
  · rw [List.getElem?_append_left hi]
    simp [hi.ne]
  · subst hi
    simp [eq_comm]
  · rw [List.getElem?_append_right hi.le, List.getElem?_eq_none hi.le,
      List.getElem?_eq_none (by simp only [List.length_singleton]; omega)]
    simp [hi.ne']

namespace Labelled

variable {ls : ℕ → List ℕ} {role : ℕ → Option PageRole} {f : ℕ → ℕ → PageRole} {q : ℕ}

/-- A fresh page added to the list of class `c`. -/
theorem concat (h : Labelled ls role f) (hf : ∀ c i c' i', f c i = f c' i' → c = c' ∧ i = i')
    (hq : role q = none) (c : ℕ) :
    Labelled (Function.update ls c (ls c ++ [q]))
      (Function.update role q (some (f c (ls c).length))) f := by
  intro c' i p
  have hold : ∀ c i, (ls c)[i]? ≠ some q := fun c i hi => by
    rw [(h c i q).mp hi] at hq
    cases hq
  by_cases hp : p = q
  · subst hp
    rw [Function.update_self, Option.some.injEq]
    by_cases hc : c' = c
    · subst hc
      rw [Function.update_self, getElem?_concat_iff]
      simp only [hold, false_or, and_true]
      exact ⟨fun e => by rw [e], fun e => (hf _ _ _ _ e).2.symm⟩
    · rw [Function.update_of_ne hc]
      exact iff_of_false (hold c' i) fun e => hc (hf _ _ _ _ e).1.symm
  · rw [Function.update_of_ne hp, ← h c' i p]
    by_cases hc : c' = c
    · subst hc
      rw [Function.update_self, getElem?_concat_iff]
      simp [hp]
    · rw [Function.update_of_ne hc]

/-- A fresh page gets another role. -/
theorem other (h : Labelled ls role f) (hq : role q = none) {ρ : PageRole}
    (hρ : ∀ c i, f c i ≠ ρ) : Labelled ls (Function.update role q (some ρ)) f := by
  intro c i p
  by_cases hp : p = q
  · subst hp
    rw [Function.update_self, Option.some.injEq]
    refine iff_of_false (fun hi => ?_) fun e => hρ c i e.symm
    rw [(h c i p).mp hi] at hq
    cases hq
  · rw [Function.update_of_ne hp]
    exact h c i p

end Labelled

/-- The pages of a list are those with one of the roles `f`. -/
def Listed (l : List ℕ) (role : ℕ → Option PageRole) (f : ℕ → ℕ → PageRole) : Prop :=
  ∀ p, p ∈ l ↔ ∃ c i, role p = some (f c i)

namespace Listed

variable {l : List ℕ} {role : ℕ → Option PageRole} {f : ℕ → ℕ → PageRole} {q : ℕ}

theorem cons (h : Listed l role f) (c i : ℕ) :
    Listed (q :: l) (Function.update role q (some (f c i))) f := by
  intro p
  by_cases hp : p = q
  · subst hp
    rw [Function.update_self]
    exact iff_of_true List.mem_cons_self ⟨c, i, rfl⟩
  · rw [Function.update_of_ne hp, ← h p, List.mem_cons]
    simp [hp]

theorem other (h : Listed l role f) (hq : role q = none) {ρ : PageRole}
    (hρ : ∀ c i, f c i ≠ ρ) : Listed l (Function.update role q (some ρ)) f := by
  intro p
  by_cases hp : p = q
  · subst hp
    rw [Function.update_self, h p, hq]
    refine iff_of_false (by simp) ?_
    rintro ⟨c, i, e⟩
    exact hρ c i (Option.some.inj e).symm
  · rw [Function.update_of_ne hp]
    exact h p

end Listed

/-- The memory of class `c` holds the index pages `ps` and the rows `rows`. -/
structure ClassOk (h : Heap (BitVec 64)) (c root : ℕ) (ps : List ℕ) (rows : List Row) : Prop where
  chain : Chain h 512 ps
  root : root = (ps[0]?).getD 0
  word : ∀ m, slot h ps 510 m = rowsWord rows (classCnt c + 1) m
  size : ∀ r ∈ rows, h.cell r.dataPage 0 = BitVec.ofNat 64 (2 ^ c)
  num : ∀ r ∈ rows, h.cell r.dataPage 1 = r.num
  compressed : ∀ r ∈ rows, h.cell r.dataPage 2 = BitVec.ofNat 64 c
  num_eq_zero : ∀ (i : ℕ) (r : Row), rows[i]? = some r → (r.num = 0#64 ↔ i = 0)

/-- A page that was allocated. -/
structure PageOk (h : Heap (BitVec 64)) (p : ℕ) : Prop where
  len : h.len p = 512
  dvd : 4096 ∣ p
  pos : 0 < p
  lt : p + 4096 ≤ 2 ^ 64

/-- The memory holds the index pages `ps c` and the rows `rows c` of every class `c`, and
every page has one role. -/
structure AllocInv (s : Allocator) (ps : ℕ → List ℕ) (rows : ℕ → List Row)
    (role : ℕ → Option PageRole) : Prop where
  idx : Labelled ps role .idx
  data : Labelled (fun c => (rows c).map Row.dataPage) role .data
  idxPages : Listed s.idxPages role .idx
  dataPages : Listed s.dataPages role .data
  page : ∀ p ρ, role p = some ρ → PageOk s.heap p
  ok : ∀ c, ClassOk s.heap c (s.rootIdxPage c) (ps c) (rows c)

/-- The header of the data page of a row. -/
structure HeaderOk (h : Heap (BitVec 64)) (c : ℕ) (r : Row) : Prop where
  size : h.cell r.dataPage 0 = BitVec.ofNat 64 (2 ^ c)
  num : h.cell r.dataPage 1 = r.num
  compressed : h.cell r.dataPage 2 = BitVec.ofNat 64 c

theorem HeaderOk.congr {h h' : Heap (BitVec 64)} {c : ℕ} {r : Row} (hr : HeaderOk h c r)
    (hcell : h'.cell r.dataPage = h.cell r.dataPage) : HeaderOk h' c r :=
  ⟨by rw [hcell, hr.size], by rw [hcell, hr.num], by rw [hcell, hr.compressed]⟩

theorem ClassOk.header {h : Heap (BitVec 64)} {c root : ℕ} {ps : List ℕ} {rows : List Row}
    (hc : ClassOk h c root ps rows) {r : Row} (hr : r ∈ rows) : HeaderOk h c r :=
  ⟨hc.size r hr, hc.num r hr, hc.compressed r hr⟩

theorem ClassOk.of_headers {h : Heap (BitVec 64)} {c root : ℕ} {ps : List ℕ} {rows : List Row}
    (hchain : Chain h 512 ps) (hroot : root = (ps[0]?).getD 0)
    (hword : ∀ m, slot h ps 510 m = rowsWord rows (classCnt c + 1) m)
    (hheader : ∀ r ∈ rows, HeaderOk h c r)
    (hnum : ∀ (i : ℕ) (r : Row), rows[i]? = some r → (r.num = 0#64 ↔ i = 0)) :
    ClassOk h c root ps rows :=
  ⟨hchain, hroot, hword, fun r hr => (hheader r hr).size, fun r hr => (hheader r hr).num,
    fun r hr => (hheader r hr).compressed, hnum⟩

theorem ClassOk.congr {h h' : Heap (BitVec 64)} {c root : ℕ} {ps : List ℕ} {rows : List Row}
    (hc : ClassOk h c root ps rows) (hlen : ∀ p ∈ ps, h'.len p = h.len p)
    (hps : ∀ p ∈ ps, h'.cell p = h.cell p)
    (hrows : ∀ r ∈ rows, h'.cell r.dataPage = h.cell r.dataPage) :
    ClassOk h' c root ps rows :=
  .of_headers (hc.chain.congr hlen fun p hp => by rw [hps p hp]) hc.root
    (fun m => by rw [slot_congr hps, hc.word]) (fun r hr => (hc.header hr).congr (hrows r hr))
    hc.num_eq_zero

namespace AllocInv

variable {s : Allocator} {ps : ℕ → List ℕ} {rows : ℕ → List Row} {role : ℕ → Option PageRole}

theorem role_of_mem_idx (hs : AllocInv s ps rows role) {c p : ℕ} (hp : p ∈ ps c) :
    ∃ i, role p = some (.idx c i) := by
  obtain ⟨i, hi⟩ := List.mem_iff_getElem?.mp hp
  exact ⟨i, (hs.idx c i p).mp hi⟩

theorem role_of_mem_rows (hs : AllocInv s ps rows role) {c : ℕ} {r : Row} (hr : r ∈ rows c) :
    ∃ i, role r.dataPage = some (.data c i) := by
  obtain ⟨i, hi⟩ := List.mem_iff_getElem?.mp hr
  exact ⟨i, (hs.data c i _).mp (by rw [List.getElem?_map, hi]; rfl)⟩

/-- A fresh page has no role. -/
theorem role_fresh (hs : AllocInv s ps rows role) {q : ℕ} (hq : s.heap.len q = 0) :
    role q = none := by
  cases hr : role q with
  | none => rfl
  | some ρ =>
    have := (hs.page q ρ hr).len
    omega

/-- A page of one class is not a page of another, and index pages are not data pages. -/
theorem idx_ne_idx (hs : AllocInv s ps rows role) {c c' p p' : ℕ} (hp : p ∈ ps c)
    (hp' : p' ∈ ps c') (hc : c' ≠ c) : p' ≠ p := by
  rintro rfl
  obtain ⟨i, hi⟩ := hs.role_of_mem_idx hp
  obtain ⟨j, hj⟩ := hs.role_of_mem_idx hp'
  rw [hi] at hj
  simp only [Option.some.injEq, PageRole.idx.injEq] at hj
  exact hc hj.1.symm

theorem data_ne_idx (hs : AllocInv s ps rows role) {c c' p : ℕ} {r : Row} (hp : p ∈ ps c)
    (hr : r ∈ rows c') : r.dataPage ≠ p := by
  rintro rfl
  obtain ⟨i, hi⟩ := hs.role_of_mem_idx hp
  obtain ⟨j, hj⟩ := hs.role_of_mem_rows hr
  rw [hi] at hj
  simp at hj

theorem idx_ne_fresh (hs : AllocInv s ps rows role) {c p q : ℕ} (hp : p ∈ ps c)
    (hq : s.heap.len q = 0) : p ≠ q := by
  rintro rfl
  obtain ⟨i, hi⟩ := hs.role_of_mem_idx hp
  rw [hs.role_fresh hq] at hi
  cases hi

theorem data_ne_fresh (hs : AllocInv s ps rows role) {c q : ℕ} {r : Row} (hr : r ∈ rows c)
    (hq : s.heap.len q = 0) : r.dataPage ≠ q := by
  rintro rfl
  obtain ⟨i, hi⟩ := hs.role_of_mem_rows hr
  rw [hs.role_fresh hq] at hi
  cases hi

/-- The pages after a fresh one was allocated and words were written. -/
theorem page_push (hs : AllocInv s ps rows role) {src : PageSource} {q : ℕ}
    (hq : src.next s.heap = some q) {h' : Heap (BitVec 64)} (ρ : PageRole)
    (hlen : ∀ p, h'.len p = (s.heap.push q 512).len p) :
    ∀ p ρ', Function.update role q (some ρ) p = some ρ' → PageOk h' p := by
  intro p ρ' hp
  by_cases hpq : p = q
  · subst hpq
    exact ⟨(hlen p).trans (Heap.len_push_self _ _ _), src.dvd hq, src.pos hq, src.lt hq⟩
  · rw [Function.update_of_ne hpq] at hp
    obtain ⟨h1, h2, h3, h4⟩ := hs.page p ρ' hp
    exact ⟨by rw [hlen, Heap.len_push_of_ne _ _ hpq, h1], h2, h3, h4⟩

/-- Another index page linked to the last one of class `c`. -/
theorem link (hs : AllocInv s ps rows role) {src : PageSource} {c l q : ℕ}
    (hlast : (ps c).getLast? = some l) (hq : src.next s.heap = some q) :
    AllocInv { s with heap := (s.heap.push q 512).set l 0 (BitVec.ofNat 64 q),
                      idxPages := q :: s.idxPages }
      (Function.update ps c (ps c ++ [q])) rows
      (Function.update role q (some (.idx c (ps c).length))) := by
  have hfresh := src.fresh hq
  have hrole := hs.role_fresh hfresh
  have hl : l ∈ ps c := List.mem_of_getLast? hlast
  have hdata : ∀ c', ∀ r ∈ rows c',
      ((s.heap.push q 512).set l 0 (BitVec.ofNat 64 q)).cell r.dataPage =
        s.heap.cell r.dataPage := fun c' r hr => by
    funext i
    rw [Heap.cell_set_of_base_ne _ _ _ _ (hs.data_ne_idx hl hr),
      Heap.cell_push_of_ne _ _ _ (hs.data_ne_fresh hr hfresh)]
  refine ⟨hs.idx.concat (by simp) hrole c, hs.data.other hrole (by simp), hs.idxPages.cons _ _,
    hs.dataPages.other hrole (by simp), hs.page_push hq _ fun _ => rfl, fun c' => ?_⟩
  by_cases hc : c' = c
  · subst hc
    have hok := hs.ok c'
    have hpos : 0 < (ps c').length := List.length_pos_of_mem hl
    have hlt := src.lt hq
    simp only [Function.update_self]
    exact .of_headers (hok.chain.append hlast hfresh (by decide) (src.pos hq) (by omega))
      (by rw [List.getElem?_append_left hpos]; exact hok.root)
      (fun m => by rw [hok.chain.slot_append hfresh (by decide)]; exact hok.word m)
      (fun r hr => (hok.header hr).congr (hdata c' r hr)) hok.num_eq_zero
  · simp only [Function.update_of_ne hc]
    refine (hs.ok c').congr (fun p hp => ?_) (fun p hp => ?_) fun r hr => hdata c' r hr
    · rw [Heap.len_set, Heap.len_push_of_ne _ _ (hs.idx_ne_fresh hp hfresh)]
    · funext i
      rw [Heap.cell_set_of_base_ne _ _ _ _ (hs.idx_ne_idx hl hp hc),
        Heap.cell_push_of_ne _ _ _ (hs.idx_ne_fresh hp hfresh)]

/-- The first index page of class `c`. -/
theorem root (hs : AllocInv s ps rows role) {src : PageSource} {c q : ℕ} (hnil : ps c = [])
    (hq : src.next s.heap = some q) :
    AllocInv { s with heap := s.heap.push q 512, idxPages := q :: s.idxPages,
                      rootIdxPage := Function.update s.rootIdxPage c q }
      (Function.update ps c [q]) rows (Function.update role q (some (.idx c 0))) := by
  have hfresh := src.fresh hq
  have hrole := hs.role_fresh hfresh
  have hdata : ∀ c', ∀ r ∈ rows c',
      (s.heap.push q 512).cell r.dataPage = s.heap.cell r.dataPage := fun c' r hr => by
    funext i
    rw [Heap.cell_push_of_ne _ _ _ (hs.data_ne_fresh hr hfresh)]
  have hidx := hs.idx.concat (q := q) (by simp) hrole c
  rw [hnil] at hidx
  refine ⟨hidx, hs.data.other hrole (by simp), hs.idxPages.cons _ _,
    hs.dataPages.other hrole (by simp), hs.page_push hq _ fun _ => rfl, fun c' => ?_⟩
  by_cases hc : c' = c
  · subst hc
    have hok := hs.ok c'
    have hlt := src.lt hq
    simp only [Function.update_self]
    refine .of_headers (Chain.single (Heap.len_push_self _ _ _) (src.pos hq) (by omega)
      (Heap.cell_push_self _ _ _ _)) rfl (fun m => ?_)
      (fun r hr => (hok.header hr).congr (hdata c' r hr)) hok.num_eq_zero
    rw [← hok.word m, hnil]
    unfold slot
    cases m / 510 with
    | zero => simp
    | succ n => simp
  · simp only [Function.update_of_ne hc]
    refine (hs.ok c').congr (fun p hp => ?_) (fun p hp => ?_) fun r hr => hdata c' r hr
    · rw [Heap.len_push_of_ne _ _ (hs.idx_ne_fresh hp hfresh)]
    · funext i
      rw [Heap.cell_push_of_ne _ _ _ (hs.idx_ne_fresh hp hfresh)]

/-- A data page created for a new row of class `c`. -/
theorem addRow (hs : AllocInv s ps rows role) {src : PageSource} {c page d L : ℕ}
    {num : BitVec 64} (hL : L = (classCnt c + 1) * (rows c).length)
    (hpage : (ps c)[L / 510]? = some page) (hd : src.next s.heap = some d)
    (hnum : num = 0#64 ↔ (rows c).length = 0) :
    AllocInv { s with
      heap := (((((s.heap.push d 512).set page (L % 510 + 1) (BitVec.ofNat 64 d)).set d 0
        (BitVec.ofNat 64 (2 ^ c))).set d 1 num).set d 2 (BitVec.ofNat 64 c))
      dataPages := d :: s.dataPages }
      ps (Function.update rows c (rows c ++ [⟨d, num, fun _ => 0⟩]))
      (Function.update role d (some (.data c (rows c).length))) := by
  have hfresh := src.fresh hd
  have hrole := hs.role_fresh hfresh
  have hmem : page ∈ ps c := List.mem_of_getElem? hpage
  have hdpage : page ≠ d := hs.idx_ne_fresh hmem hfresh
  have hcell : ∀ p i, p ≠ d →
      (((((s.heap.push d 512).set page (L % 510 + 1) (BitVec.ofNat 64 d)).set d 0
        (BitVec.ofNat 64 (2 ^ c))).set d 1 num).set d 2 (BitVec.ofNat 64 c)).cell p i =
      (s.heap.set page (L % 510 + 1) (BitVec.ofNat 64 d)).cell p i := fun p i hp => by
    simp only [Heap.cell_set, Heap.cell_push, hp, false_and, if_false]
  have hdata : ∀ c', ∀ r ∈ rows c',
      (((((s.heap.push d 512).set page (L % 510 + 1) (BitVec.ofNat 64 d)).set d 0
        (BitVec.ofNat 64 (2 ^ c))).set d 1 num).set d 2 (BitVec.ofNat 64 c)).cell r.dataPage =
        s.heap.cell r.dataPage := fun c' r hr => by
    funext i
    rw [hcell _ _ (hs.data_ne_fresh hr hfresh),
      Heap.cell_set_of_base_ne _ _ _ _ (hs.data_ne_idx hmem hr)]
  have hlab : Labelled (fun c' => (Function.update rows c (rows c ++ [⟨d, num, fun _ => 0⟩]) c').map
      Row.dataPage) (Function.update role d (some (.data c (rows c).length))) .data := by
    have := hs.data.concat (q := d) (by simp) hrole c
    rw [List.length_map] at this
    convert this using 1
    funext c'
    by_cases hc : c' = c
    · subst hc
      simp
    · simp [Function.update_of_ne hc]
  refine ⟨hs.idx.other hrole (by simp), hlab, hs.idxPages.other hrole (by simp),
    hs.dataPages.cons _ _, hs.page_push hd _ fun _ => rfl, fun c' => ?_⟩
  by_cases hc : c' = c
  · subst hc
    have hok := hs.ok c'
    have hne : ∀ p ∈ ps c', p ≠ d := fun p hp => hs.idx_ne_fresh hp hfresh
    simp only [Function.update_self]
    refine .of_headers (hok.chain.congr (fun p hp => ?_) (fun p hp => ?_)) hok.root
      (fun m => ?_) (fun r hr => ?_) fun i r hi => ?_
    · exact Heap.len_push_of_ne _ _ (hne p hp)
    · rw [hcell p 0 (hne p hp), Heap.cell_set_of_index_ne _ _ _ _ (by omega)]
    · rw [slot_congr (h := s.heap.set page (L % 510 + 1) (BitVec.ofNat 64 d))
          (fun p hp => funext fun i => hcell p i (hne p hp)),
        hok.chain.slot_set hpage, hok.word, rowsWord_concat _ (Nat.succ_pos _), hL]
    · rcases List.mem_append.mp hr with hr | hr
      · exact (hok.header hr).congr (hdata c' r hr)
      · rw [List.mem_singleton.mp hr]
        exact ⟨by simp [Heap.cell_set], by simp [Heap.cell_set], by simp⟩
    · rcases getElem?_concat_iff.mp hi with hi | ⟨rfl, rfl⟩
      · exact hok.num_eq_zero i r hi
      · exact hnum
  · simp only [Function.update_of_ne hc]
    refine (hs.ok c').congr (fun p hp => ?_) (fun p hp => ?_) fun r hr => hdata c' r hr
    · exact Heap.len_push_of_ne _ _ (hs.idx_ne_fresh hp hfresh)
    · funext i
      rw [hcell p i (hs.idx_ne_fresh hp hfresh),
        Heap.cell_set_of_base_ne _ _ _ _ (hs.idx_ne_idx hmem hp hc)]

/-- A word of a bitmap written. -/
theorem setWord (hs : AllocInv s ps rows role) {c i w page L : ℕ} {r : Row}
    (hr : (rows c)[i]? = some r) (hw : w < classCnt c) (hL : L = (classCnt c + 1) * i + 1 + w)
    (hpage : (ps c)[L / 510]? = some page) (v : BitVec 64) :
    AllocInv { s with heap := s.heap.set page (L % 510 + 1) v } ps
      (Function.update rows c ((rows c).set i { r with bits := Function.update r.bits w v }))
      role := by
  have hmem : page ∈ ps c := List.mem_of_getElem? hpage
  have hlt := (List.getElem?_eq_some_iff.mp hr).1
  have hdata : ∀ c', ∀ r ∈ rows c', (s.heap.set page (L % 510 + 1) v).cell r.dataPage =
      s.heap.cell r.dataPage := fun c' r hr => by
    funext i
    rw [Heap.cell_set_of_base_ne _ _ _ _ (hs.data_ne_idx hmem hr)]
  have hmap : ((rows c).set i { r with bits := Function.update r.bits w v }).map Row.dataPage =
      (rows c).map Row.dataPage := by
    refine List.ext_getElem? fun j => ?_
    rw [List.getElem?_map, List.getElem?_map]
    by_cases hj : i = j
    · subst hj
      rw [List.getElem?_set_self hlt, hr]
      rfl
    · rw [List.getElem?_set_ne hj]
  have hlab : (fun c' => (Function.update rows c ((rows c).set i
      { r with bits := Function.update r.bits w v }) c').map Row.dataPage) =
      fun c' => (rows c').map Row.dataPage := by
    funext c'
    by_cases hc : c' = c
    · subst hc
      rw [Function.update_self, hmap]
    · rw [Function.update_of_ne hc]
  refine ⟨hs.idx, hlab ▸ hs.data, hs.idxPages, hs.dataPages, fun p ρ hp => ?_, fun c' => ?_⟩
  · obtain ⟨h1, h2, h3, h4⟩ := hs.page p ρ hp
    exact ⟨h1, h2, h3, h4⟩
  by_cases hc : c' = c
  · subst hc
    have hok := hs.ok c'
    have hcases : ∀ x ∈ (rows c').set i { r with bits := Function.update r.bits w v },
        x ∈ rows c' ∨ x = { r with bits := Function.update r.bits w v } := fun x hx =>
      (List.mem_or_eq_of_mem_set hx)
    have hrmem : r ∈ rows c' := List.mem_of_getElem? hr
    simp only [Function.update_self]
    refine .of_headers (hok.chain.set page v (by omega)) hok.root (fun m => ?_) (fun x hx => ?_)
      fun j x hj => ?_
    · rw [hok.chain.slot_set hpage, hok.word, rowsWord_set hr (by omega), hL]
    · rcases hcases x hx with hx | rfl
      · exact (hok.header hx).congr (hdata c' x hx)
      · obtain ⟨h1, h2, h3⟩ := (hok.header hrmem).congr (hdata c' r hrmem)
        exact ⟨h1, h2, h3⟩
    · by_cases hij : i = j
      · subst hij
        rw [List.getElem?_set_self hlt] at hj
        cases hj
        exact hok.num_eq_zero i r hr
      · rw [List.getElem?_set_ne hij] at hj
        exact hok.num_eq_zero j x hj
  · simp only [Function.update_of_ne hc]
    refine (hs.ok c').congr (fun p hp => rfl) (fun p hp => ?_) fun r hr => hdata c' r hr
    funext i
    rw [Heap.cell_set_of_base_ne _ _ _ _ (hs.idx_ne_idx hmem hp hc)]

end AllocInv

end Toastium
