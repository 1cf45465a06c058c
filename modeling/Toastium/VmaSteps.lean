import Toastium.PageTree

/-!
# What the steps of `vma_replace_section` do to the tree

The loops that write leaves, `expand_leaf` and `shrink_branch`, on a table with the nodes
`pg`. Each keeps `TableInv`, leaves pages that are not part of the table as they are, and
changes the translation as it should : `expand_leaf` and `shrink_branch` not at all
(`fetchTable_spec`, `shrinkBranch_spec`), and a run of leaves on its range only
(`writeRun_spec`, with `remap`).

`shrink_branch` frees a table of one run of mapped pages without storing the leaf that is
to replace it. A table is not of that kind if a page of it, that the call does not map,
is not mapped in line with the call (`not_mappedRun`).
-/

namespace Toastium

variable {h h' : Heap (BitVec 64)} {root : ℕ} {pg pg' : List ℕ → Option ℕ}

/-! ## Loops -/

theorem fillLeafs_eq {table idx : ℕ} {leaf : ℕ → BitVec 64} : ∀ (n k : ℕ) {h : Heap (BitVec 64)},
    h.len table = 512 → idx + k + n ≤ 512 →
    fillLeafs table idx leaf n k h = .ok (h.fill table (idx + k) n fun j => leaf (k + j))
  | 0, k, h, hlen, hle => by rw [fillLeafs, Heap.fill_zero]
  | n + 1, k, h, hlen, hle => by
    rw [fillLeafs, Heap.store_eq_ok (by omega), ok_bind,
      fillLeafs_eq n (k + 1) (h := h.set table (idx + k) (leaf k)) hlen (by omega),
      ← Heap.fill_succ h (fun j => leaf (k + j))]
    simp only [Nat.add_zero, Nat.add_assoc, Nat.add_comm 1]

/-- Where there are no tables, none is given back. -/
theorem replaceLeafs_eq {fuel table idx : ℕ} {leaf : ℕ → BitVec 64} :
    ∀ (n k : ℕ) {h : Heap (BitVec 64)}, h.len table = 512 → idx + k + n ≤ 512 →
    (∀ j, idx + k ≤ j → j < idx + k + n → getBranchLoc (h.cell table j) = 0) →
    replaceLeafs fuel table idx leaf n k h =
      .ok (h.fill table (idx + k) n fun j => leaf (k + j))
  | 0, k, h, hlen, hle, hn => by rw [replaceLeafs, Heap.fill_zero]
  | n + 1, k, h, hlen, hle, hn => by
    have hn' : ∀ j, idx + (k + 1) ≤ j → j < idx + (k + 1) + n →
        getBranchLoc ((h.set table (idx + k) (leaf k)).cell table j) = 0 := fun j h1 h2 => by
      rw [Heap.cell_set_of_index_ne _ _ _ _ (by omega)]
      exact hn j (by omega) (by omega)
    rw [replaceLeafs, Heap.load_eq_ok (by omega), ok_bind,
      if_neg (not_not.mpr (hn _ le_rfl (by omega))), pure_eq_ok, ok_bind]
    dsimp only
    rw [Heap.store_eq_ok (by omega), ok_bind,
      replaceLeafs_eq n (k + 1) (h := h.set table (idx + k) (leaf k)) hlen (by omega) hn',
      ← Heap.fill_succ h (fun j => leaf (k + j))]
    simp only [Nat.add_zero, Nat.add_assoc, Nat.add_comm 1]

/-! ## What stays as it is -/

/-- Pages that are not part of the table, and nodes that are not in `S`, stay as they are. -/
structure Moves (S : List ℕ → Prop) (h : Heap (BitVec 64)) (pg : List ℕ → Option ℕ)
    (h' : Heap (BitVec 64)) (pg' : List ℕ → Option ℕ) : Prop where
  foreign : ∀ r, h.len r ≠ 0 → (∀ π, pg π ≠ some r) →
    h'.len r = h.len r ∧ (∀ j, h'.cell r j = h.cell r j) ∧ ∀ π, pg' π ≠ some r
  nodes : ∀ π r, ¬S π → pg' π = some r → pg π = some r ∧ ∀ j, h'.cell r j = h.cell r j

theorem Moves.refl (S : List ℕ → Prop) (h : Heap (BitVec 64)) (pg : List ℕ → Option ℕ) :
    Moves S h pg h pg :=
  ⟨fun _ _ hn => ⟨rfl, fun _ => rfl, hn⟩, fun _ _ _ hr => ⟨hr, fun _ => rfl⟩⟩

theorem Moves.trans {S : List ℕ → Prop} {h'' : Heap (BitVec 64)} {pg'' : List ℕ → Option ℕ}
    (h1 : Moves S h pg h' pg') (h2 : Moves S h' pg' h'' pg'') : Moves S h pg h'' pg'' := by
  refine ⟨fun r hr hn => ?_, fun π r hS hr => ?_⟩
  · obtain ⟨hlen, hcell, hn'⟩ := h1.foreign r hr hn
    obtain ⟨hlen', hcell', hn''⟩ := h2.foreign r (by rw [hlen]; exact hr) hn'
    exact ⟨hlen'.trans hlen, fun j => (hcell' j).trans (hcell j), hn''⟩
  · obtain ⟨hr', hcell'⟩ := h2.nodes π r hS hr
    obtain ⟨hr, hcell⟩ := h1.nodes π r hS hr'
    exact ⟨hr, fun j => (hcell' j).trans (hcell j)⟩

theorem Moves.mono {S S' : List ℕ → Prop} (hm : Moves S h pg h' pg') (hS : ∀ π, S π → S' π) :
    Moves S' h pg h' pg' :=
  ⟨hm.foreign, fun π r hπ hr => hm.nodes π r (fun hc => hπ (hS π hc)) hr⟩

section Moves

variable {S : List ℕ → Prop} {π : List ℕ} {i p q : ℕ}

theorem TableInv.fill_moves (ht : TableInv h root pg) (hp : pg π = some p) (hS : S π) (n : ℕ)
    (f : ℕ → BitVec 64) : Moves S h pg (h.fill p i n f) pg := by
  refine ⟨fun r _ hn => ⟨rfl, fun j => ?_, hn⟩, fun π' r hS' hr => ⟨hr, fun j => ?_⟩⟩
  · exact Heap.cell_fill_of_base_ne _ _ _ _ _ fun he => hn π (by rw [he, hp])
  · exact ht.fill_cell hp f hr fun hin => hS' (by rw [hin.1]; exact hS)

theorem TableInv.expand_moves (ht : TableInv h root pg) (hp : pg π = some p) (hq : h.len q = 0)
    (hS : S π) (hSi : S (i :: π)) (leaf : ℕ → BitVec 64) :
    Moves S h pg (expanded h p i q leaf) (Function.update pg (i :: π) (some q)) := by
  refine ⟨fun r hr hn => ?_, fun π' r hS' hr => ?_⟩
  · have hrq : r ≠ q := fun he => hr (by rw [he, hq])
    have hrp : r ≠ p := fun he => hn π (by rw [he, hp])
    refine ⟨Heap.len_push_of_ne _ _ hrq, fun j =>
      expanded_cell_of_ne h leaf hrq fun hj => hrp hj.1, fun π' => ?_⟩
    by_cases he : π' = i :: π
    · rw [he, Function.update_self]
      exact fun hc => hrq (Option.some.inj hc).symm
    · rw [Function.update_of_ne he]
      exact hn π'
  · have he : π' ≠ i :: π := fun he => hS' (by rw [he]; exact hSi)
    rw [Function.update_of_ne he] at hr
    refine ⟨hr, fun j => expanded_cell_of_ne h leaf (ht.ne_fresh hr hq) ?_⟩
    rintro ⟨rfl, -⟩
    exact hS' (by rw [ht.inj hr hp]; exact hS)

theorem TableInv.shrink_moves (ht : TableInv h root pg) (hp : pg π = some p)
    (hq : pg (i :: π) = some q) (hS : S π) :
    Moves S h pg ((h.set p i 0).drop q) (Function.update pg (i :: π) none) := by
  refine ⟨fun r _ hn => ?_, fun π' r hS' hr => ?_⟩
  · have hrq : r ≠ q := fun he => hn (i :: π) (by rw [he, hq])
    have hrp : r ≠ p := fun he => hn π (by rw [he, hp])
    exact ⟨Heap.len_drop_of_ne _ hrq, fun j => Heap.cell_set_of_base_ne _ _ _ _ hrp,
      fun π' hr => hn π' (of_update_none hr).2⟩
  · obtain ⟨-, hr⟩ := of_update_none hr
    refine ⟨hr, fun j => Heap.cell_set_of_base_ne _ _ _ _ ?_⟩
    rintro rfl
    exact hS' (by rw [ht.inj hr hp]; exact hS)

end Moves

/-! ## `expand_leaf` -/

/-- The leaf of an entry may be expanded. -/
def Unpinned (e : BitVec 64) : Prop :=
  getLeafFlags e &&& vmaDontCompress = 0

instance (e : BitVec 64) : Decidable (Unpinned e) :=
  inferInstanceAs (Decidable (_ = _))

theorem createBranch_ne_zero {q : ℕ} (hq : WindowPage q) : createBranch q ≠ 0 := fun he => by
  have := hq.pteFlags_createBranch
  rw [he] at this
  exact absurd this (by decide)

theorem expandLeaf_eq (src : KernelPages) (size : ℕ) {table idx : ℕ} (hlen : h.len table = 512)
    (hidx : idx < 512) (hpin : Unpinned (h.cell table idx)) :
    src.next h = none ∧ expandLeaf src table idx size h = .error (.panic .outOfFreePages) ∨
      ∃ q, src.next h = some q ∧ h.len q = 0 ∧ WindowPage q ∧ expandLeaf src table idx size h =
        .ok (q, TableInv.expanded h table idx q fun i => createLeaf
          (getPhysLeafLoc (h.cell table idx) + BitVec.ofNat 64 (i * (size / 512)))
          (getLeafFlags (h.cell table idx))) := by
  unfold expandLeaf
  rcases src.alloc_eq Panic.outOfFreePages h with ⟨hnone, halloc⟩ | ⟨q, hnext, halloc⟩
  · left
    exact ⟨hnone, by rw [halloc, error_bind]⟩
  · right
    have hfresh := src.fresh hnext
    have hwin : WindowPage q := ⟨src.dvd hnext, src.window hnext, by
      have := src.lt hnext
      omega⟩
    have hne : table ≠ q := by
      rintro rfl
      omega
    have hlen' : (h.push q 512).len table = 512 := by rw [Heap.len_push_of_ne _ _ hne, hlen]
    refine ⟨q, hnext, hfresh, hwin, ?_⟩
    rw [halloc, ok_bind]
    dsimp only
    unfold Unpinned at hpin
    rw [Heap.load_eq_ok (by omega), ok_bind, Heap.cell_push_of_ne _ _ _ hne,
      if_neg (not_not.mpr hpin), Heap.store_eq_ok (by omega), ok_bind,
      Heap.load_set_self (by omega), ok_bind, if_neg (createBranch_ne_zero hwin),
      fillLeafs_eq 512 0 (by rw [Heap.len_set, Heap.len_push_self]) (by omega), ok_bind]
    simp only [Nat.zero_add]
    rfl

theorem Unpinned.of_flags_eq {e e' : BitVec 64} (h : Unpinned e) (hf : pteFlags e' = pteFlags e) :
    Unpinned e' := by
  have : getLeafFlags e' = getLeafFlags e := by
    refine BitVec.eq_of_toNat_eq ?_
    rw [getLeafFlags_toNat, getLeafFlags_toNat, hf]
  unfold Unpinned at *
  rw [this, h]

/-- The leaves of a leaf that may be expanded may be expanded. -/
theorem LeafOk.split_unpinned {l : ℕ} {e : BitVec 64} (hl : l ≤ 1) (h : LeafOk (l + 1) e) {i : ℕ}
    (hi : i < 512) (hpin : Unpinned e) :
    Unpinned (createLeaf (getPhysLeafLoc e + BitVec.ofNat 64 (i * (4096 * 512 ^ l)))
      (getLeafFlags e)) := by
  refine hpin.of_flags_eq ?_
  have hx := (h.split hl hi).2 (i * 512 ^ l)
    (by rw [Nat.mul_div_cancel _ (by positivity), Nat.mod_eq_of_lt hi])
  unfold leafXlate at hx
  split_ifs at hx with h1 h2
  · rw [h1, h2]
  · exact (Prod.mk.inj (Option.some.inj hx)).2

section Steps

variable {S : List ℕ → Prop} {π : List ℕ} {i p q size : ℕ}

/-- The table of an entry, expanded if there was none. The translation stays as it is. -/
theorem fetchTable_spec (src : KernelPages) (ht : TableInv h root pg) (hp : pg π = some p)
    (hi : i < 512) (hπ : π.length ≤ 1) (hsize : size = 4096 * 512 ^ (2 - π.length))
    (hpin : pg (i :: π) = none → Unpinned (h.cell p i)) (hS : S π) (hSi : S (i :: π)) :
    src.next h = none ∧ fetchTable src p i size true h = .error (.panic .outOfFreePages) ∨
    ∃ q h' pg', fetchTable src p i size true h = .ok (q, h') ∧ TableInv h' root pg' ∧
      pg' π = some p ∧ pg' (i :: π) = some q ∧ Moves S h pg h' pg' ∧
      (∀ vpn, vpn < 2 ^ 27 → xlate h' pg' vpn 2 [] root = xlate h pg vpn 2 [] root) ∧
      (pg (i :: π) = some q ∧ h' = h ∧ pg' = pg ∨
        (src.next h = some q ∧ h'.objs = (q, 512) :: h.objs) ∧
        ∀ j, j < 512 → pg' (j :: i :: π) = none ∧ Unpinned (h'.cell q j)) := by
  unfold fetchTable
  rw [Heap.load_eq_ok (by rw [ht.len hp]; exact hi), ok_bind, ht.getBranchLoc_eq hp hi]
  cases hq : pg (i :: π) with
  | some q =>
    rw [Option.getD_some, if_neg fun hc => (ht.window hq).pos hc.1]
    exact Or.inr ⟨q, h, pg, rfl, ht, hp, hq, Moves.refl _ _ _, fun _ _ => rfl,
      Or.inl ⟨rfl, rfl, rfl⟩⟩
  | none =>
    rw [Option.getD_none, if_pos ⟨rfl, rfl⟩]
    rcases expandLeaf_eq src size (ht.len hp) hi (hpin hq) with
      hpanic | ⟨q, hnext, hfresh, hwin, hok⟩
    · exact Or.inl hpanic
    right
    have hleaf := ht.leaf_of_none hp hi hq
    have hdiv : size / 512 = 4096 * 512 ^ (1 - π.length) := by
      rw [hsize, show 2 - π.length = 1 - π.length + 1 by omega, pow_succ, ← Nat.mul_assoc,
        Nat.mul_div_cancel _ (by decide)]
    rw [show 2 - π.length = 1 - π.length + 1 by omega] at hleaf
    rw [hdiv] at hok
    have hsplit := fun j (hj : j < 512) => hleaf.split (by omega) hj
    refine ⟨q, _, _, hok, ht.expand hp hi hπ hq hfresh hwin fun j hj => (hsplit j hj).1, ?_,
      Function.update_self _ _ _, ht.expand_moves hp hfresh hS hSi _, fun vpn hv => ?_,
      Or.inr ⟨⟨hnext, rfl⟩, fun j hj => ⟨?_, ?_⟩⟩⟩
    · rw [Function.update_of_ne List.ne_cons_self, hp]
    · refine ht.expand_xlate hp hi hπ hq hfresh hwin (fun j hj => ?_) hv
      rw [show 2 - π.length = 1 - π.length + 1 by omega]
      exact hsplit j hj
    · rw [Function.update_of_ne (by simp), ht.none_below hq]
    · rw [TableInv.expanded_cell_new _ _ hj]
      exact hleaf.split_unpinned (by omega) hj (hpin hq)

/-- The entries of a table of level `l` are one run. -/
def OneRun (h : Heap (BitVec 64)) (l q : ℕ) : Prop :=
  ∀ j, j < 512 → sameRun (4096 * 512 ^ l) (h.cell q 0) j (h.cell q j) = true

theorem oneRun_loop (size : ℕ) (first : BitVec 64) (hlen : h.len q = 512) :
    ∀ (js : List ℕ) (b : Bool), (∀ j ∈ js, j < 512) →
    js.foldlM (m := Except (Fault Panic)) (fun can i => do
      let e ← h.load q i
      return can && sameRun size first i e) b =
    .ok (b && js.all fun j => sameRun size first j (h.cell q j))
  | [], b, _ => by simp
  | j :: js, b, hjs => by
    have hj : j < h.len q := by rw [hlen]; exact hjs j List.mem_cons_self
    rw [List.foldlM_cons, Heap.load_eq_ok hj, ok_bind, pure_eq_ok, ok_bind,
      oneRun_loop size first hlen js _ fun j' hj' => hjs j' (List.mem_cons_of_mem _ hj'),
      List.all_cons, Bool.and_assoc]

/-- `shrink_branch` of an entry with a table below it. -/
theorem shrinkBranch_of_branch {table idx l : ℕ} (hlen : idx < h.len table)
    (hq : getBranchLoc (h.cell table idx) = q) (h0 : q ≠ 0) (hlenq : h.len q = 512) :
    (¬OneRun h l q → shrinkBranch table idx (4096 * 512 ^ (l + 1)) h = .ok h) ∧
    (OneRun h l q → h.cell q 0 = 0 →
      shrinkBranch table idx (4096 * 512 ^ (l + 1)) h = .ok ((h.set table idx 0).drop q)) ∧
    (OneRun h l q → h.cell q 0 ≠ 0 →
      shrinkBranch table idx (4096 * 512 ^ (l + 1)) h = .ok (h.drop q)) := by
  have hdiv : 4096 * 512 ^ (l + 1) / 512 = 4096 * 512 ^ l := by
    rw [pow_succ, ← Nat.mul_assoc, Nat.mul_div_cancel _ (by decide)]
  have hloop := oneRun_loop (4096 * 512 ^ l) (h.cell q 0) hlenq (List.range 512) true
    fun j hj => List.mem_range.mp hj
  unfold shrinkBranch
  rw [Heap.load_eq_ok hlen, ok_bind, hq, if_neg h0, Heap.load_eq_ok (by omega), ok_bind, hdiv,
    hloop, ok_bind, Bool.true_and]
  have hiff : ((List.range 512).all fun j =>
      sameRun (4096 * 512 ^ l) (h.cell q 0) j (h.cell q j)) = true ↔ OneRun h l q := by
    rw [List.all_eq_true]
    exact ⟨fun hall j hj => hall j (List.mem_range.mpr hj),
      fun hone j hj => hone j (List.mem_range.mp hj)⟩
  refine ⟨fun hone => ?_, fun hone hz => ?_, fun hone hz => ?_⟩
  · rw [if_neg (by rw [hiff]; exact hone)]
    rfl
  · rw [if_pos (hiff.mpr hone), if_pos hz, Heap.store_eq_ok hlen, ok_bind, pgFree, if_neg]
    rw [Heap.len_set, hlenq]
    decide
  · rw [if_pos (hiff.mpr hone), if_neg hz, pgFree, if_neg]
    rw [hlenq]
    decide

/-- `shrink_branch` of an entry of a page table, with a table below it. -/
theorem shrinkBranch_eq (ht : TableInv h root pg) (hp : pg π = some p) (hπ : π.length ≤ 1)
    (hsize : size = 4096 * 512 ^ (2 - π.length)) (hq : pg (i :: π) = some q) :
    (¬OneRun h (1 - π.length) q → shrinkBranch p i size h = .ok h) ∧
    (OneRun h (1 - π.length) q → h.cell q 0 = 0 →
      shrinkBranch p i size h = .ok ((h.set p i 0).drop q)) := by
  have hi := (ht.parent hq).1
  have hlenp : i < h.len p := by rw [ht.len hp]; exact hi
  have hloc : getBranchLoc (h.cell p i) = q := by
    rw [ht.getBranchLoc_eq hp hi, hq, Option.getD_some]
  obtain ⟨hkeep, hfree, -⟩ := shrinkBranch_of_branch (l := 1 - π.length) hlenp hloc
    (ht.window hq).pos (ht.len hq)
  rw [hsize, show 2 - π.length = 1 - π.length + 1 by omega]
  exact ⟨hkeep, hfree⟩

/-- `shrink_branch` of an entry whose table is not a run of mapped pages. -/
theorem shrinkBranch_spec (ht : TableInv h root pg) (hp : pg π = some p) (hi : i < 512)
    (hπ : π.length ≤ 1) (hsize : size = 4096 * 512 ^ (2 - π.length)) (hS : S π)
    (hrun : ∀ q, pg (i :: π) = some q → OneRun h (1 - π.length) q → h.cell q 0 = 0) :
    ∃ h' pg', shrinkBranch p i size h = .ok h' ∧ TableInv h' root pg' ∧ pg' π = some p ∧
      Moves S h pg h' pg' ∧ h'.objs.length ≤ h.objs.length ∧
      (∀ vpn, vpn < 2 ^ 27 → xlate h' pg' vpn 2 [] root = xlate h pg vpn 2 [] root) ∧
      (∀ π', π' ≠ i :: π → pg' π' = pg π') ∧
      (h' = h ∧ pg' = pg ∨ pg' (i :: π) = none ∧ h'.cell p i = 0) ∧
      ∀ q, pg' (i :: π) = some q → ¬OneRun h' (1 - π.length) q := by
  cases hq : pg (i :: π) with
  | none =>
    refine ⟨h, pg, ?_, ht, hp, Moves.refl _ _ _, le_rfl, fun _ _ => rfl, fun _ _ => rfl,
      Or.inl ⟨rfl, rfl⟩, fun q hq' => ?_⟩
    · unfold shrinkBranch
      rw [Heap.load_eq_ok (by rw [ht.len hp]; exact hi), ok_bind, ht.getBranchLoc_eq hp hi, hq]
      rfl
    · rw [hq] at hq'
      cases hq'
  | some q =>
    obtain ⟨hkeep, hfree⟩ := shrinkBranch_eq ht hp hπ hsize hq
    by_cases hone : OneRun h (1 - π.length) q
    · have hzero := hrun q hq hone
      have hz : ∀ j, j < 512 → h.cell q j = 0 := fun j hj => by
        have := hone j hj
        rwa [hzero, sameRun, if_pos rfl, beq_iff_eq] at this
      refine ⟨_, _, hfree hone hzero, ht.shrink hp hq hz, ?_, ht.shrink_moves hp hq hS,
        List.length_filter_le _ _, fun vpn hv => ht.shrink_xlate hp hq hz hv,
        fun π' hne => Function.update_of_ne hne _ _,
        Or.inr ⟨Function.update_self _ _ _, ?_⟩, fun q' hq' => ?_⟩
      · rw [Function.update_of_ne List.ne_cons_self, hp]
      · rw [Heap.cell_drop, Heap.cell_set_self]
      · rw [Function.update_self] at hq'
        cases hq'
    · refine ⟨h, pg, hkeep hone, ht, hp, Moves.refl _ _ _, le_rfl, fun _ _ => rfl, fun _ _ => rfl,
        Or.inl ⟨rfl, rfl⟩, fun q' hq' => ?_⟩
      rw [hq] at hq'
      cases hq'
      exact hone

end Steps

/-! ## Runs of mapped pages -/

/-- A table of one run of mapped pages. -/
theorem OneRun.mapped {π : List ℕ} {q : ℕ} (ht : TableInv h root pg) (hq : pg π = some q)
    (hπ : 1 ≤ π.length) (hone : OneRun h (2 - π.length) q) (h0 : h.cell q 0 ≠ 0) :
    ∃ base f, (BitVec.ofNat 64 f &&& vmaDontCompress = 0) ∧ ∀ j, j < 512 →
      pg (j :: π) = none ∧ h.cell q j ≠ 0 ∧
      ptePpn (h.cell q j) = base + j * 512 ^ (2 - π.length) ∧ pteFlags (h.cell q j) = f := by
  have hl : 2 - π.length ≤ 1 := by omega
  have hsame : ∀ j, j < 512 →
      getPhysLeafLoc (h.cell q j) = getPhysLeafLoc (h.cell q 0) +
        BitVec.ofNat 64 (4096 * 512 ^ (2 - π.length) * j) ∧
      pteFlags (h.cell q j) = pteFlags (h.cell q 0) ∧
      getLeafFlags (h.cell q j) &&& vmaDontCompress = 0 := fun j hj => by
    have := hone j hj
    rw [sameRun, if_neg h0] at this
    simp only [Bool.and_eq_true, beq_iff_eq] at this
    obtain ⟨⟨hphys, hflags⟩, hpin⟩ := this
    refine ⟨hphys, ?_, hpin⟩
    rw [← getLeafFlags_toNat, hflags, getLeafFlags_toNat]
  -- a branch has the location 0, so the first two entries are not both branches
  have hbranch : ∀ e : BitVec 64, pteFlags e = 1 → getPhysLeafLoc e = 0 := fun e he => by
    rw [getPhysLeafLoc, if_pos]
    rw [BitVec.le_def, and_mask_toNat, he]
    decide
  have hne : pteFlags (h.cell q 0) ≠ 1 := fun h1 => by
    obtain ⟨hphys, hflags, -⟩ := hsame 1 (by decide)
    rw [hbranch _ h1, hbranch _ (hflags.trans h1)] at hphys
    have : 2 - π.length = 0 ∨ 2 - π.length = 1 := by omega
    rcases this with hl | hl
    · rw [hl] at hphys
      exact absurd hphys (by decide)
    · rw [hl] at hphys
      exact absurd hphys (by decide)
  have hleaf : ∀ j, j < 512 → pg (j :: π) = none := fun j hj => by
    cases hr : pg (j :: π) with
    | none => rfl
    | some r =>
      have hflags := (ht.window hr).pteFlags_createBranch
      rw [← ht.branch_of_some hq hr, (hsame j hj).2.1] at hflags
      exact absurd hflags hne
  have hok : ∀ j, j < 512 → h.cell q j ≠ 0 ∧ LeafFlags (pteFlags (h.cell q j)) := fun j hj => by
    have hflags0 : LeafFlags (pteFlags (h.cell q 0)) :=
      ((ht.leaf_of_none hq (by decide) (hleaf 0 (by decide))).resolve_left h0).2.1
    have hflags : LeafFlags (pteFlags (h.cell q j)) := by rw [(hsame j hj).2.1]; exact hflags0
    refine ⟨fun he => ?_, hflags⟩
    rw [he] at hflags
    exact absurd hflags (by decide)
  refine ⟨ptePpn (h.cell q 0), pteFlags (h.cell q 0), ?_, fun j hj => ⟨hleaf j hj, (hok j hj).1, ?_,
    (hsame j hj).2.1⟩⟩
  · rw [← getLeafFlags_toNat, BitVec.ofNat_toNat, BitVec.setWidth_eq]
    exact (hsame 0 (by decide)).2.2
  · have hoff := getPhysLeafLoc_offset (hok j hj).2.one_lt 0
    rw [BitVec.add_zero, (hsame j hj).1,
      getPhysLeafLoc_offset (hok 0 (by decide)).2.one_lt] at hoff
    have hlt : ptePpn (h.cell q 0) < 2 ^ 44 := Nat.mod_lt _ (by decide)
    have hltj : ptePpn (h.cell q j) < 2 ^ 44 := Nat.mod_lt _ (by decide)
    have : 2 - π.length = 0 ∨ 2 - π.length = 1 := by omega
    rcases this with hl | hl
    · rw [hl] at hoff ⊢
      omega
    · rw [hl] at hoff ⊢
      omega

/-- Such a table maps the pages below it to one run of pages, with the same flags. -/
theorem OneRun.xlate_eq {π : List ℕ} {q : ℕ} (ht : TableInv h root pg) (hq : pg π = some q)
    (hπ : 1 ≤ π.length) (hone : OneRun h (2 - π.length) q) (h0 : h.cell q 0 ≠ 0) :
    ∃ base f, (BitVec.ofNat 64 f &&& vmaDontCompress = 0) ∧ ∀ vpn, Under π vpn →
      xlate h pg vpn 2 [] root = some (base + vpn % 512 ^ (3 - π.length), f) := by
  obtain ⟨base, f, hf, hrun⟩ := hone.mapped ht hq hπ h0
  refine ⟨base, f, hf, fun vpn hu => ?_⟩
  have hidx : vpn / 512 ^ (2 - π.length) % 512 < 512 := Nat.mod_lt _ (by decide)
  obtain ⟨-, hne, hppn, hflags⟩ := hrun _ hidx
  have hnone : pg (vpn / 512 ^ (2 - π.length) % 512 :: π) = none := (hrun _ hidx).1
  have hmod : vpn % 512 ^ (3 - π.length) =
      vpn / 512 ^ (2 - π.length) % 512 * 512 ^ (2 - π.length) + vpn % 512 ^ (2 - π.length) := by
    have := ht.depth hq
    rw [show 3 - π.length = 2 - π.length + 1 by omega, pow_succ, Nat.mod_mul, Nat.mul_comm,
      Nat.add_comm]
  rw [ht.xlate_of_under hq hu, xlate_leaf hnone, leafXlate, if_neg hne, hppn, hflags, hmod,
    Nat.add_assoc]

/-! ## A range mapped -/

/-- The translation with `count` pages from `start` on mapped to the pages from `ppn` on, with
the flags `f`, or to nothing if there are no flags. -/
def remap (T : ℕ → Option (ℕ × ℕ)) (start count ppn f : ℕ) : ℕ → Option (ℕ × ℕ) := fun vpn =>
  if start ≤ vpn ∧ vpn < start + count then
    if f = 0 then none else some (ppn + (vpn - start), f)
  else T vpn

theorem remap_append (T : ℕ → Option (ℕ × ℕ)) (start m n ppn f : ℕ) :
    remap (remap T start m ppn f) (start + m) n (ppn + m) f = remap T start (m + n) ppn f := by
  funext vpn
  unfold remap
  by_cases h1 : start + m ≤ vpn ∧ vpn < start + m + n
  · rw [if_pos h1, if_pos (show start ≤ vpn ∧ vpn < start + (m + n) by omega),
      show ppn + m + (vpn - (start + m)) = ppn + (vpn - start) by omega]
  · rw [if_neg h1]
    by_cases h2 : start ≤ vpn ∧ vpn < start + m
    · rw [if_pos h2, if_pos (show start ≤ vpn ∧ vpn < start + (m + n) by omega)]
    · rw [if_neg h2, if_neg (by omega)]

theorem remap_zero (T : ℕ → Option (ℕ × ℕ)) (start ppn f : ℕ) : remap T start 0 ppn f = T := by
  funext vpn
  exact if_neg (by omega)

/-- A physical range of `size` bytes, and flags of a leaf, or none. -/
structure LeafArgs (phys flags : BitVec 64) (size : ℕ) : Prop where
  flags : flags = 0 ∨ flags.toNat < 2 ^ 10 ∧ LeafFlags flags.toNat
  dvd : 4096 ∣ (windowOffset phys).toNat
  le : (windowOffset phys).toNat + size ≤ 2 ^ 56

namespace LeafArgs

variable {phys flags : BitVec 64} {size : ℕ}

theorem offset (ha : LeafArgs phys flags size) {off : ℕ} (hoff : off ≤ size) :
    (windowOffset (phys + BitVec.ofNat 64 off)).toNat = (windowOffset phys).toNat + off := by
  have hle := ha.le
  have : windowOffset (phys + BitVec.ofNat 64 off) = windowOffset phys + BitVec.ofNat 64 off := by
    unfold windowOffset
    rw [BitVec.sub_eq_add_neg, BitVec.add_assoc, BitVec.add_comm (BitVec.ofNat 64 off),
      ← BitVec.add_assoc, ← BitVec.sub_eq_add_neg]
  rw [this, BitVec.toNat_add, BitVec.toNat_ofNat, Nat.add_mod_mod, Nat.mod_eq_of_lt (by omega)]

/-- The leaf for the offset `off` of the range. -/
theorem leaf (ha : LeafArgs phys flags size) (l : ℕ) {off : ℕ} (hoff : off < size)
    (hal : flags = 0 ∨ 512 ^ l ∣ ((windowOffset phys).toNat + off) / 4096) :
    LeafOk l (createLeaf (phys + BitVec.ofNat 64 off) flags) ∧
      ∀ vpn, leafXlate l (createLeaf (phys + BitVec.ofNat 64 off) flags) vpn =
        if flags.toNat = 0 then none
        else some (((windowOffset phys).toNat + off) / 4096 + vpn % 512 ^ l, flags.toNat) := by
  rcases ha.flags with rfl | ⟨hf, hflags⟩
  · exact ⟨Or.inl rfl, fun _ => rfl⟩
  have hle := ha.le
  have hpos := hflags.one_lt
  have h0 : flags ≠ 0 := by
    rintro rfl
    exact absurd hpos (by decide)
  obtain ⟨hne, hlt, hppn, hfl⟩ := @createLeaf_fields (phys + BitVec.ofNat 64 off) flags hf hflags.1
    (by rw [ha.offset hoff.le]; omega)
  rw [ha.offset hoff.le] at hppn
  refine ⟨Or.inr ⟨hlt, by rw [hfl]; exact hflags, ?_⟩, fun vpn => ?_⟩
  · rw [hppn]
    exact hal.resolve_left h0
  · rw [leafXlate, if_neg hne, if_neg (by omega), hppn, hfl]

end LeafArgs

/-- A run of leaves of the table `p` maps its range. -/
theorem writeRun_spec {π : List ℕ} {i p n off size : ℕ} {phys flags : BitVec 64}
    (ht : TableInv h root pg) (hp : pg π = some p)
    (hn : ∀ j, i ≤ j → j < i + n → pg (j :: π) = none) (hle : i + n ≤ 512)
    (ha : LeafArgs phys flags size) (hoff : off + 4096 * 512 ^ (2 - π.length) * n ≤ size)
    (hoff4 : 4096 ∣ off)
    (hal : 0 < n → flags = 0 ∨
      512 ^ (2 - π.length) ∣ ((windowOffset phys).toNat + off) / 4096) :
    TableInv (h.fill p i n fun k =>
      createLeaf (phys + BitVec.ofNat 64 (off + 4096 * 512 ^ (2 - π.length) * k)) flags) root pg ∧
    ∀ vpn, vpn < 2 ^ 27 →
      xlate (h.fill p i n fun k => createLeaf
        (phys + BitVec.ofNat 64 (off + 4096 * 512 ^ (2 - π.length) * k)) flags) pg vpn 2 [] root =
      remap (fun vpn => xlate h pg vpn 2 [] root) ((pathNum π * 512 + i) * 512 ^ (2 - π.length))
        (n * 512 ^ (2 - π.length)) (((windowOffset phys).toNat + off) / 4096) flags.toNat vpn := by
  have hdepth := ht.depth hp
  have hpos : 0 < 512 ^ (2 - π.length) := by positivity
  have hdvd := ha.dvd
  have hppn : ∀ k, ((windowOffset phys).toNat + (off + 4096 * 512 ^ (2 - π.length) * k)) / 4096 =
      ((windowOffset phys).toNat + off) / 4096 + 512 ^ (2 - π.length) * k := fun k => by
    rw [← Nat.add_assoc, Nat.mul_assoc, Nat.add_mul_div_left _ _ (by decide)]
  have hleaf : ∀ k, k < n →
      LeafOk (2 - π.length) (createLeaf
        (phys + BitVec.ofNat 64 (off + 4096 * 512 ^ (2 - π.length) * k)) flags) ∧
      ∀ vpn, leafXlate (2 - π.length) (createLeaf
        (phys + BitVec.ofNat 64 (off + 4096 * 512 ^ (2 - π.length) * k)) flags) vpn =
        if flags.toNat = 0 then none
        else some (((windowOffset phys).toNat + off) / 4096 + 512 ^ (2 - π.length) * k +
          vpn % 512 ^ (2 - π.length), flags.toNat) := fun k hk => by
    have hlt : 4096 * 512 ^ (2 - π.length) * k < 4096 * 512 ^ (2 - π.length) * n :=
      Nat.mul_lt_mul_of_pos_left hk (by positivity)
    have hin : off + 4096 * 512 ^ (2 - π.length) * k < size := by omega
    obtain ⟨hok, hx⟩ := ha.leaf (2 - π.length) hin ((hal (by omega)).imp_right fun hd => by
      rw [hppn]
      exact Nat.dvd_add hd (Nat.dvd_mul_right _ _))
    rw [hppn] at hx
    exact ⟨hok, hx⟩
  refine ⟨ht.fill hp hn fun k hk => (hleaf k hk).1, fun vpn hv => ?_⟩
  have hrange : (Under π vpn ∧ i ≤ vpn / 512 ^ (2 - π.length) % 512 ∧
      vpn / 512 ^ (2 - π.length) % 512 < i + n) ↔
      (pathNum π * 512 + i) * 512 ^ (2 - π.length) ≤ vpn ∧
        vpn < (pathNum π * 512 + i) * 512 ^ (2 - π.length) + n * 512 ^ (2 - π.length) := by
    rw [Under, show 3 - π.length = 2 - π.length + 1 by omega, pow_succ,
      ← Nat.div_div_eq_div_mul, ← Nat.add_mul, ← Nat.le_div_iff_mul_le hpos,
      ← Nat.div_lt_iff_lt_mul hpos]
    omega
  rw [ht.fill_xlate hp hn (fun k hk => (hleaf k hk).1) hle hv, remap]
  by_cases hin : Under π vpn ∧ i ≤ vpn / 512 ^ (2 - π.length) % 512 ∧
      vpn / 512 ^ (2 - π.length) % 512 < i + n
  · rw [if_pos hin, if_pos (hrange.mp hin), (hleaf _ (by omega)).2]
    -- the offset of the page in the range, from its place in the table
    have hvpn : vpn - (pathNum π * 512 + i) * 512 ^ (2 - π.length) =
        512 ^ (2 - π.length) * (vpn / 512 ^ (2 - π.length) % 512 - i) +
          vpn % 512 ^ (2 - π.length) := by
      have hu : vpn / 512 ^ (2 - π.length) / 512 = pathNum π := by
        have := hin.1
        rwa [Under, show 3 - π.length = 2 - π.length + 1 by omega, pow_succ,
          ← Nat.div_div_eq_div_mul] at this
      have hx : vpn / 512 ^ (2 - π.length) =
          pathNum π * 512 + i + (vpn / 512 ^ (2 - π.length) % 512 - i) := by omega
      have hsplit := Nat.div_add_mod vpn (512 ^ (2 - π.length))
      rw [hx, Nat.mul_add, Nat.mul_comm _ (pathNum π * 512 + i)] at hsplit
      omega
    rw [hvpn, Nat.add_assoc]
  · rw [if_neg hin, if_neg (fun hc => hin (hrange.mpr hc))]

/-- After `count` pages from `start` on are mapped to the pages from `ppn` on, the block of
`512 ^ (l + 1)` pages with the last of them is not one run of mapped pages : a leaf of the
block is not to be merged with others, or a page of it is not mapped in line. -/
def Gap (T : ℕ → Option (ℕ × ℕ)) (l start count ppn : ℕ) (flags : BitVec 64) : Prop :=
  flags = 0 ∨ flags &&& vmaDontCompress ≠ 0 ∨
    ∃ g, g / 512 ^ (l + 1) = (start + count - 1) / 512 ^ (l + 1) ∧
      ¬(start ≤ g ∧ g < start + count) ∧
      ∀ x, x + start = ppn + g → T g ≠ some (x, flags.toNat)

/-- The table of such a block is not a run of mapped pages. -/
theorem Gap.not_mappedRun {T : ℕ → Option (ℕ × ℕ)} {start count ppn q : ℕ} {flags : BitVec 64}
    {π : List ℕ} (ht : TableInv h root pg) (hq : pg π = some q) (hπ : 1 ≤ π.length)
    (hT : ∀ vpn, vpn < 2 ^ 27 →
      xlate h pg vpn 2 [] root = remap T start count ppn flags.toNat vpn)
    (hcount : 0 < count) (hu : Under π (start + count - 1)) (hlt : start + count ≤ 2 ^ 27)
    (hgap : Gap T (2 - π.length) start count ppn flags) (hone : OneRun h (2 - π.length) q) :
    h.cell q 0 = 0 := by
  by_contra h0
  obtain ⟨base, f, hf, hrun⟩ := hone.xlate_eq ht hq hπ h0
  have hlast := hrun _ hu
  rw [hT _ (by omega), remap, if_pos (by omega)] at hlast
  split_ifs at hlast with hz
  obtain ⟨hbase, rfl⟩ := Prod.mk.inj (Option.some.inj hlast)
  rcases hgap with rfl | hpin | ⟨g, hg, hout, hne⟩
  · exact hz rfl
  · rw [BitVec.ofNat_toNat, BitVec.setWidth_eq] at hf
    exact hpin hf
  · have hdepth := ht.depth hq
    rw [show 2 - π.length + 1 = 3 - π.length by omega] at hg
    have hg27 : g < 2 ^ 27 := by
      have : 3 - π.length = 1 ∨ 3 - π.length = 2 := by omega
      rcases this with hk | hk
      · rw [hk] at hg
        omega
      · rw [hk] at hg
        omega
    have hxg := hrun g (hg.trans hu)
    rw [hT g hg27, remap, if_neg hout] at hxg
    refine hne _ ?_ hxg
    have h1 := Nat.div_add_mod g (512 ^ (3 - π.length))
    have h2 := Nat.div_add_mod (start + count - 1) (512 ^ (3 - π.length))
    rw [hg] at h1
    omega

/-! ## Tables that do not shrink -/

/-- No table is one run, so that `shrink_branch` leaves it alone. -/
def Compact (h : Heap (BitVec 64)) (pg : List ℕ → Option ℕ) : Prop :=
  ∀ π q, 1 ≤ π.length → pg π = some q → ¬OneRun h (2 - π.length) q

theorem OneRun.congr {l q : ℕ} (hone : OneRun h l q) (hcell : ∀ j, h'.cell q j = h.cell q j) :
    OneRun h' l q := fun j hj => by
  rw [hcell, hcell]
  exact hone j hj

theorem Compact.of_moves {S : List ℕ → Prop} (hc : Compact h pg) (hm : Moves S h pg h' pg')
    (hS : ∀ π q, S π → 1 ≤ π.length → pg' π = some q → ¬OneRun h' (2 - π.length) q) :
    Compact h' pg' := fun π q hπ hq hone => by
  by_cases hSπ : S π
  · exact hS π q hSπ hπ hq hone
  · obtain ⟨hq', hcell⟩ := hm.nodes π q hSπ hq
    exact hc π q hπ hq' (hone.congr fun j => (hcell j).symm)

end Toastium
