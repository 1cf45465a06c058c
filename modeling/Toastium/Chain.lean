import Toastium.Heap

/-!
# Chained pages

Pages of `n` words, each with the address of the next page in its word 0, and 0 there in
the last page. `Chain h n ps` says that `ps` are the pages of such a chain, in order.
`Chain.append` links a fresh page to the end. A chain of pages with `k` numbered words
each, from word 1 on, is a growing array : `slot` is its word `m`.
-/

namespace Toastium

/-- The pages `ps` are chained through their words 0. -/
structure Chain (h : Heap (BitVec 64)) (n : ℕ) (ps : List ℕ) : Prop where
  nodup : ps.Nodup
  len : ∀ p ∈ ps, h.len p = n
  pos : ∀ p ∈ ps, 0 < p
  lt : ∀ p ∈ ps, p < 2 ^ 64
  link : ∀ i p, ps[i]? = some p → (h.cell p 0).toNat = (ps[i + 1]?).getD 0

/-- Word `m` of the array that the chained pages hold, `k` words a page. -/
def slot (h : Heap (BitVec 64)) (ps : List ℕ) (k m : ℕ) : BitVec 64 :=
  (ps[m / k]?).elim 0 fun p => h.cell p (m % k + 1)

/-- The page `m` links after page `p`, if there are as many. -/
def walk {π : Type*} (h : Heap (BitVec 64)) : ℕ → ℕ → Except (Fault π) (Option ℕ)
  | 0, p => .ok (some p)
  | m + 1, p => do
    let q ← h.load p 0
    if q = 0 then return none
    walk h m q.toNat

/-- The array depends on the cells of the pages only. -/
theorem slot_congr {h h' : Heap (BitVec 64)} {ps : List ℕ}
    (hcell : ∀ p ∈ ps, h'.cell p = h.cell p) (k m : ℕ) : slot h' ps k m = slot h ps k m := by
  unfold slot
  cases hp : ps[m / k]? with
  | none => rfl
  | some p => rw [Option.elim_some, Option.elim_some, hcell p (List.mem_of_getElem? hp)]

namespace Chain

variable {h : Heap (BitVec 64)} {n : ℕ} {ps : List ℕ}

/-- A page that is alone. -/
theorem single {p : ℕ} (hlen : h.len p = n) (hpos : 0 < p) (hlt : p < 2 ^ 64)
    (hz : h.cell p 0 = 0) : Chain h n [p] where
  nodup := List.nodup_singleton p
  len := by simpa using hlen
  pos := by simpa using hpos
  lt := by simpa using hlt
  link := by
    intro i q hq
    cases i with
    | zero =>
      obtain rfl : p = q := by simpa using hq
      simp [hz]
    | succ i => simp at hq

/-- A chain depends on the links and sizes of its pages only. -/
theorem congr {h' : Heap (BitVec 64)} (hc : Chain h n ps) (hlen : ∀ p ∈ ps, h'.len p = h.len p)
    (hlink : ∀ p ∈ ps, h'.cell p 0 = h.cell p 0) : Chain h' n ps where
  nodup := hc.nodup
  len p hp := (hlen p hp).trans (hc.len p hp)
  pos := hc.pos
  lt := hc.lt
  link i p hp := by
    rw [hlink p (List.mem_of_getElem? hp)]
    exact hc.link i p hp

/-- A word other than the link is written. -/
theorem set (hc : Chain h n ps) (p : ℕ) {i : ℕ} (v : BitVec 64) (hi : i ≠ 0) :
    Chain (h.set p i v) n ps :=
  hc.congr (fun _ _ => rfl) fun q _ => h.cell_set_of_index_ne p q v hi.symm

/-- The link is 0 exactly on the last page. -/
theorem link_eq_zero_iff (hc : Chain h n ps) {i p : ℕ} (hp : ps[i]? = some p) :
    h.cell p 0 = 0 ↔ ps.length = i + 1 := by
  have hlt : i < ps.length := (List.getElem?_eq_some_iff.mp hp).1
  rw [← BitVec.toNat_inj, hc.link i p hp]
  change _ = 0 ↔ _
  cases hn : ps[i + 1]? with
  | none =>
    have := List.getElem?_eq_none_iff.mp hn
    simp only [Option.getD_none, true_iff]
    omega
  | some q =>
    have hq := hc.pos q (List.mem_of_getElem? hn)
    have := (List.getElem?_eq_some_iff.mp hn).1
    simp only [Option.getD_some]
    omega

/-- `walk` follows the list of pages. -/
theorem walk_eq {π : Type*} (hc : Chain h n ps) (hn : 0 < n) :
    ∀ (m : ℕ) {i p : ℕ}, ps[i]? = some p →
      (walk h m p : Except (Fault π) (Option ℕ)) = .ok ps[i + m]?
  | 0, i, p, hp => by rw [walk, Nat.add_zero, hp]
  | m + 1, i, p, hp => by
    have hload : (h.load p 0 : Except (Fault π) (BitVec 64)) = .ok (h.cell p 0) :=
      Heap.load_eq_ok (by rw [hc.len p (List.mem_of_getElem? hp)]; exact hn)
    rw [walk, hload, ok_bind]
    split_ifs with hz
    · have hlen := (hc.link_eq_zero_iff hp).mp hz
      rw [List.getElem?_eq_none (by omega)]
      rfl
    · have hlink := hc.link i p hp
      cases hq : ps[i + 1]? with
      | none =>
        rw [hq, Option.getD_none] at hlink
        exact absurd (BitVec.eq_of_toNat_eq (by simpa using hlink)) hz
      | some q =>
        rw [hq, Option.getD_some] at hlink
        rw [hlink, walk_eq hc hn m hq, Nat.add_right_comm]
        rfl

/-- A fresh page linked to the end. -/
theorem append (hc : Chain h n ps) {l q : ℕ} (hlast : ps.getLast? = some l) (hfresh : h.len q = 0)
    (hn : 0 < n) (hpos : 0 < q) (hlt : q < 2 ^ 64) :
    Chain ((h.push q n).set l 0 (BitVec.ofNat 64 q)) n (ps ++ [q]) := by
  have hq : q ∉ ps := fun hmem => by
    have := hc.len q hmem
    omega
  have hne : ∀ p ∈ ps, p ≠ q := fun p hp => ne_of_mem_of_not_mem hp hq
  have hlmem : l ∈ ps := List.mem_of_getLast? hlast
  refine ⟨?_, ?_, ?_, ?_, ?_⟩
  · rw [List.nodup_append]
    refine ⟨hc.nodup, List.nodup_singleton q, ?_⟩
    intro a ha b hb
    rw [List.mem_singleton.mp hb]
    exact hne a ha
  · intro p hp
    rw [Heap.len_set, Heap.len_push]
    split_ifs with hpq
    · rfl
    · exact hc.len p ((List.mem_append.mp hp).resolve_right (by simpa using hpq))
  · intro p hp
    rcases List.mem_append.mp hp with hp | hp
    · exact hc.pos p hp
    · rw [List.mem_singleton.mp hp]
      exact hpos
  · intro p hp
    rcases List.mem_append.mp hp with hp | hp
    · exact hc.lt p hp
    · rw [List.mem_singleton.mp hp]
      exact hlt
  · intro i p hp
    rw [List.getLast?_eq_getElem?] at hlast
    have hlen : ps.length ≠ 0 := by
      intro h0
      rw [List.length_eq_zero_iff.mp h0] at hlast
      simp at hlast
    rcases Nat.lt_trichotomy (i + 1) ps.length with hi | hi | hi
    · rw [List.getElem?_append_left (by omega)] at hp
      have hpl : p ≠ l := by
        rintro rfl
        have := (List.getElem?_inj (by omega) hc.nodup).mp (hp.trans hlast.symm)
        omega
      rw [List.getElem?_append_left hi, Heap.cell_set_of_base_ne _ _ _ _ hpl,
        Heap.cell_push_of_ne _ _ _ (hne p (List.mem_of_getElem? hp))]
      exact hc.link i p hp
    · rw [List.getElem?_append_left (by omega)] at hp
      obtain rfl : p = l := by
        rw [show i = ps.length - 1 by omega, hlast] at hp
        exact (Option.some.inj hp).symm
      rw [Heap.cell_set_self, BitVec.toNat_ofNat, Nat.mod_eq_of_lt hlt, hi,
        List.getElem?_append_right le_rfl]
      simp
    · have hi' : i = ps.length := by
        have := (List.getElem?_eq_some_iff.mp hp).1
        simp only [List.length_append, List.length_singleton] at this
        omega
      subst hi'
      obtain rfl : q = p := by simpa using hp
      rw [Heap.cell_set_of_base_ne _ _ _ _ (hne l hlmem).symm, Heap.cell_push_self,
        List.getElem?_eq_none (by simp)]
      rfl

/-- Word `m` of the array is written. -/
theorem slot_set (hc : Chain h n ps) {k m p : ℕ} (hp : ps[m / k]? = some p) (v : BitVec 64)
    (m' : ℕ) :
    slot (h.set p (m % k + 1) v) ps k m' = if m' = m then v else slot h ps k m' := by
  split_ifs with hm
  · rw [slot, hm, hp, Option.elim_some, Heap.cell_set_self]
  · unfold slot
    cases hq : ps[m' / k]? with
    | none => rfl
    | some q =>
      rw [Option.elim_some, Option.elim_some, Heap.cell_set, if_neg]
      rintro ⟨rfl, hmod⟩
      have hdiv : m' / k = m / k :=
        (List.getElem?_inj (List.getElem?_eq_some_iff.mp hq).1 hc.nodup).mp (hq.trans hp.symm)
      apply hm
      rw [← Nat.div_add_mod m' k, ← Nat.div_add_mod m k, hdiv, Nat.succ.inj hmod]

/-- A fresh page at the end leaves the array as it is. -/
theorem slot_append (hc : Chain h n ps) {q : ℕ} (hfresh : h.len q = 0) (hn : 0 < n)
    (l k m : ℕ) :
    slot ((h.push q n).set l 0 (BitVec.ofNat 64 q)) (ps ++ [q]) k m = slot h ps k m := by
  have hq : ∀ p ∈ ps, p ≠ q := fun p hp e => by
    have := hc.len p hp
    rw [e] at this
    omega
  unfold slot
  rcases Nat.lt_or_ge (m / k) ps.length with hlt | hge
  · rw [List.getElem?_append_left hlt, List.getElem?_eq_getElem hlt, Option.elim_some,
      Option.elim_some, Heap.cell_set_of_index_ne _ _ _ _ (by omega),
      Heap.cell_push_of_ne _ _ _ (hq _ (List.getElem_mem hlt))]
  · rw [List.getElem?_append_right hge, List.getElem?_eq_none hge]
    cases hm : m / k - ps.length with
    | zero =>
      rw [List.getElem?_cons_zero, Option.elim_some, Option.elim_none,
        Heap.cell_set_of_index_ne _ _ _ _ (by omega), Heap.cell_push_self]
    | succ j => rfl

end Chain

end Toastium
