import Toastium.VmaSteps

/-!
# One entry of a page table

`expand_leaf` and `shrink_branch` on a single entry, for entries of any kind : leaves that the
machine faults on, tables shared by entries, entries that are no leaf and no table.

`expandLeaf_sameBelow` : a leaf cut into 512 entries, or 0 into 512 zeros, is walked as before.
`shrinkBranch_sound_iff` : a table given back was walked as it is now, and is not referred to,
exactly when it is not a run of mapped pages. For such a run the code computes the leaf that is to
replace the table, but does not store it, and frees the table all the same. An empty table is given
back correctly if no other entry refers to it.
-/

namespace Toastium

/-! ## The walk at one entry -/

/-- What the walk makes of an entry of level `l` that does not point to a table. -/
def walkLeaf (l : ℕ) (e : BitVec 64) (vpn : ℕ) : Option (ℕ × ℕ) :=
  if e.toNat ≥ 2 ^ 54 ∨ (pteFlags e).testBit 0 = false ∨
      (pteFlags e).testBit 1 = false ∧ (pteFlags e).testBit 2 = true then none
  else if ptePpn e % 512 ^ l = 0 then some (ptePpn e + vpn % 512 ^ l, pteFlags e) else none

/-- Flags that do not make an entry a pointer to a table. -/
def NotPointer (f : ℕ) : Prop :=
  f.testBit 0 = false ∨ f.testBit 1 = true ∨ f.testBit 2 = true ∨ f.testBit 3 = true

/-- An entry that is valid, with the right to read, to write or to execute. -/
def IsLeaf (e : BitVec 64) : Prop :=
  (pteFlags e).testBit 0 = true ∧ ((pteFlags e).testBit 1 = true ∨
    (pteFlags e).testBit 2 = true ∨ (pteFlags e).testBit 3 = true)

theorem IsLeaf.one_lt {e : BitVec 64} (he : IsLeaf e) : 1 < pteFlags e := by
  obtain ⟨-, h⟩ := he
  by_contra hle
  obtain h0 | h1 : pteFlags e = 0 ∨ pteFlags e = 1 := by omega
  · rw [h0] at h
    exact absurd h (by decide)
  · rw [h1] at h
    exact absurd h (by decide)

section Walk

variable {h h' : Heap (BitVec 64)} {vpn l page : ℕ}

theorem sv39Walk_notPointer (hlen : h.len page = 512)
    (he : NotPointer (pteFlags (h.cell page (vpn / 512 ^ l % 512)))) :
    sv39Walk h vpn l page = .ok (walkLeaf l (h.cell page (vpn / 512 ^ l % 512)) vpn) := by
  have hi : vpn / 512 ^ l % 512 < 512 := Nat.mod_lt _ (by decide)
  unfold sv39Walk walkLeaf
  rw [Heap.load_eq_ok (by omega), ok_bind]
  generalize h.cell page (vpn / 512 ^ l % 512) = e at he
  dsimp only
  by_cases hfault : e.toNat ≥ 2 ^ 54 ∨ (pteFlags e).testBit 0 = false ∨
      (pteFlags e).testBit 1 = false ∧ (pteFlags e).testBit 2 = true
  · rw [if_pos hfault, if_pos hfault]
    rfl
  · rw [if_neg hfault, if_neg hfault, if_pos]
    · rfl
    simp only [not_or, not_and, Bool.not_eq_false, Bool.not_eq_true] at hfault
    obtain ⟨-, hv, hw⟩ := hfault
    rcases he with he | he | he | he
    · rw [hv] at he
      cases he
    · exact Or.inl he
    · left
      by_contra hr
      rw [hw (Bool.eq_false_of_not_eq_true hr)] at he
      cases he
    · exact Or.inr he

theorem sv39Walk_pointer (hlen : h.len page = 512)
    (he : getBranchLoc (h.cell page (vpn / 512 ^ (l + 1) % 512)) ≠ 0) :
    sv39Walk h vpn (l + 1) page =
      if (h.cell page (vpn / 512 ^ (l + 1) % 512)).toNat ≥ 2 ^ 54 then .ok none
      else sv39Walk h vpn l (getBranchLoc (h.cell page (vpn / 512 ^ (l + 1) % 512))) := by
  have hi : vpn / 512 ^ (l + 1) % 512 < 512 := Nat.mod_lt _ (by decide)
  rw [sv39Walk, Heap.load_eq_ok (by omega), ok_bind]
  generalize h.cell page (vpn / 512 ^ (l + 1) % 512) = e at he
  have hflags : pteFlags e = 1 := by
    by_contra hne
    exact he (getBranchLoc_eq_zero hne)
  have hloc : getBranchLoc e = (ptePpn e * 4096 + kernelVmaStart) % 2 ^ 64 := by
    rw [← window_toNat, getBranchLoc, if_neg]
    rw [not_not]
    refine BitVec.eq_of_toNat_eq ?_
    rw [and_mask_toNat, hflags]
    rfl
  dsimp only
  rw [hflags, hloc]
  by_cases hbig : e.toNat ≥ 2 ^ 54
  · rw [if_pos (Or.inl hbig), if_pos hbig]
    rfl
  · rw [if_neg, if_neg (by decide), if_neg hbig]
    rintro (hge | hv | ⟨-, hw⟩)
    · exact hbig hge
    · exact absurd hv (by decide)
    · exact absurd hw (by decide)

/-- Below entry `idx` of the table, of level `l`, each page is translated as before. -/
def SameBelow (h h' : Heap (BitVec 64)) (l table idx : ℕ) : Prop :=
  ∀ vpn, vpn / 512 ^ l % 512 = idx → sv39Walk h' vpn l table = sv39Walk h vpn l table

end Walk

/-! ## A leaf expanded -/

section Expand

variable {h : Heap (BitVec 64)} {table idx l : ℕ}

/-- An entry of level `l` that may be expanded : 0, or an aligned leaf that is not pinned. -/
def Expandable (l : ℕ) (e : BitVec 64) : Prop :=
  e = 0 ∨ e.toNat < 2 ^ 54 ∧ IsLeaf e ∧ (pteFlags e).testBit 8 = false ∧ 512 ^ l ∣ ptePpn e

theorem unpinned_of_testBit {e : BitVec 64} (he : (pteFlags e).testBit 8 = false) :
    Unpinned e := by
  refine BitVec.eq_of_getLsbD_eq fun i hi => ?_
  rw [BitVec.getLsbD_and]
  by_cases h8 : i = 8
  · rw [h8, ← BitVec.testBit_toNat, getLeafFlags_toNat, he]
    rfl
  · have : vmaDontCompress.getLsbD i = false := by
      rw [show vmaDontCompress = BitVec.twoPow 64 8 from rfl, BitVec.getLsbD_twoPow,
        decide_eq_false (p := 8 = i) (fun he => h8 he.symm), Bool.and_false]
    rw [this, Bool.and_false]
    exact BitVec.getLsbD_zero.symm

theorem Expandable.unpinned {e : BitVec 64} (he : Expandable l e) : Unpinned e := by
  rcases he with rfl | ⟨-, -, h8, -⟩
  · decide
  · exact unpinned_of_testBit h8

theorem Expandable.notPointer {e : BitVec 64} (he : Expandable l e) : NotPointer (pteFlags e) := by
  rcases he with rfl | ⟨-, hleaf, -⟩
  · exact Or.inl (by decide)
  · exact Or.inr hleaf.2

theorem createLeaf_of_zero (phys : BitVec 64) : createLeaf phys (getLeafFlags 0) = 0 :=
  if_pos (by decide)

/-- Entry `i` of the table made of an entry is walked as that entry was. -/
theorem Expandable.split {e : BitVec 64} (hl : l ≤ 1) (he : Expandable (l + 1) e) {i : ℕ}
    (hi : i < 512) :
    NotPointer (pteFlags (createLeaf (getPhysLeafLoc e + BitVec.ofNat 64 (i * (4096 * 512 ^ l)))
      (getLeafFlags e))) ∧
    ∀ vpn, vpn / 512 ^ l % 512 = i →
      walkLeaf l (createLeaf (getPhysLeafLoc e + BitVec.ofNat 64 (i * (4096 * 512 ^ l)))
        (getLeafFlags e)) vpn = walkLeaf (l + 1) e vpn := by
  rcases he with rfl | ⟨hlt, hleaf, -, hdvd⟩
  · rw [createLeaf_of_zero]
    exact ⟨Or.inl (by decide), fun _ _ => rfl⟩
  obtain ⟨-, hlt', hppn, hflags⟩ := split_fields hl hleaf.1 hleaf.one_lt hdvd hi
  refine ⟨by rw [hflags]; exact Or.inr hleaf.2, fun vpn hvpn => ?_⟩
  have hdvd' : 512 ^ l ∣ ptePpn e + i * 512 ^ l :=
    Nat.dvd_add ((pow_dvd_pow 512 (Nat.le_succ l)).trans hdvd) (Nat.dvd_mul_left _ _)
  unfold walkLeaf
  rw [hflags, hppn, if_pos (Nat.mod_eq_zero_of_dvd hdvd'), if_pos (Nat.mod_eq_zero_of_dvd hdvd),
    vpn_mod_succ hvpn, Nat.add_assoc]
  refine if_congr (or_congr_left ?_) rfl rfl
  exact iff_of_false (Nat.not_le.2 hlt') (Nat.not_le.2 hlt)

/-- `expand_leaf` puts a fresh table in the place of the entry, with 512 leaves or 512 zeros in it,
and every page below the entry is translated as before. It changes nothing else. -/
theorem expandLeaf_sameBelow (src : KernelPages) (hl : l ≤ 1) (hlen : h.len table = 512)
    (hidx : idx < 512) (he : Expandable (l + 1) (h.cell table idx)) :
    src.next h = none ∧
      expandLeaf src table idx (4096 * 512 ^ (l + 1)) h = .error (.panic .outOfFreePages) ∨
    ∃ q h', expandLeaf src table idx (4096 * 512 ^ (l + 1)) h = .ok (q, h') ∧
      h.len q = 0 ∧ h'.len q = 512 ∧ h'.cell table idx = createBranch q ∧
      SameBelow h h' (l + 1) table idx ∧
      ((∀ j < 512, IsLeaf (h'.cell q j)) ∨ ∀ j < 512, h'.cell q j = 0) ∧
      ∀ r j, r ≠ q → ¬(r = table ∧ j = idx) → h'.cell r j = h.cell r j := by
  rcases expandLeaf_eq src (4096 * 512 ^ (l + 1)) hlen hidx he.unpinned with
    hnone | ⟨q, -, hfresh, hwin, hrun⟩
  · exact Or.inl hnone
  right
  have hdiv : 4096 * 512 ^ (l + 1) / 512 = 4096 * 512 ^ l := by
    rw [pow_succ, ← Nat.mul_assoc, Nat.mul_div_cancel _ (by decide)]
  rw [hdiv] at hrun
  obtain ⟨leaf, hleaf⟩ : ∃ f, f = fun i => createLeaf (getPhysLeafLoc (h.cell table idx) +
    BitVec.ofNat 64 (i * (4096 * 512 ^ l))) (getLeafFlags (h.cell table idx)) := ⟨_, rfl⟩
  rw [← hleaf] at hrun
  have hne : table ≠ q := by
    rintro rfl
    omega
  have hself := TableInv.expanded_cell_self (i := idx) h leaf hne
  have hnew := fun j (hj : j < 512) =>
    (TableInv.expanded_cell_new (p := table) (i := idx) (q := q) h leaf hj).trans (congrFun hleaf j)
  have hother := fun r j (hr : r ≠ q) (hj : ¬(r = table ∧ j = idx)) =>
    TableInv.expanded_cell_of_ne h leaf hr hj
  have hlenq : (TableInv.expanded h table idx q leaf).len q = 512 := h.len_push_self q 512
  have hlent : (TableInv.expanded h table idx q leaf).len table = 512 :=
    (h.len_push_of_ne 512 hne).trans hlen
  generalize TableInv.expanded h table idx q leaf = h' at *
  refine ⟨q, h', hrun, hfresh, hlenq, hself, fun vpn hvpn => ?_, ?_, hother⟩
  · have hj : vpn / 512 ^ l % 512 < 512 := Nat.mod_lt _ (by decide)
    obtain ⟨hnp, hsame⟩ := he.split hl hj
    rw [sv39Walk_branch hlent hwin (by rw [hvpn]; exact hself),
      sv39Walk_notPointer hlenq (by rw [hnew _ hj]; exact hnp), hnew _ hj, hsame vpn rfl,
      sv39Walk_notPointer hlen (by rw [hvpn]; exact he.notPointer), hvpn]
  · rcases he with h0 | ⟨-, hleaf', -, hdvd⟩
    · right
      intro j hj
      rw [hnew j hj, h0, createLeaf_of_zero]
    · left
      intro j hj
      obtain ⟨-, -, -, hflags⟩ := split_fields hl hleaf'.1 hleaf'.one_lt hdvd hj
      rw [hnew j hj]
      unfold IsLeaf
      rw [hflags]
      exact hleaf'

/-- A run of 512 pages that may be read and written. -/
theorem expandLeaf_sameBelow_megapage : ∃ q h',
    expandLeaf windowPages 0xffffffc000001000 3 (4096 * 512 ^ 1)
      ⟨[(0xffffffc000001000, 512)], fun _ _ => 0x80007⟩ = .ok (q, h') ∧
    SameBelow ⟨[(0xffffffc000001000, 512)], fun _ _ => 0x80007⟩ h' 1 0xffffffc000001000 3 := by
  have hlen : (⟨[(0xffffffc000001000, 512)], fun _ _ => 0x80007⟩ : Heap (BitVec 64)).len
      0xffffffc000001000 = 512 := by decide
  have he : Expandable (0 + 1) 0x80007 :=
    Or.inr ⟨by decide, ⟨by decide, Or.inl (by decide)⟩, by decide, by decide⟩
  rcases expandLeaf_sameBelow windowPages (Nat.zero_le 1) hlen (show 3 < 512 by decide) he with
    ⟨hnone, -⟩ | ⟨q, h', hrun, -, -, -, hsame, -⟩
  · exact absurd hnone (by decide)
  · exact ⟨q, h', hrun, hsame⟩

end Expand

/-! ## A table given back -/

section Shrink

variable {h : Heap (BitVec 64)} {table idx q l : ℕ}

/-- `shrink_branch` of entry `idx`, of level `l + 1`, is right : the pages below the entry are
translated as before, and if the table at `q` was freed, no entry of the tables `T` refers to it. -/
structure ShrinkSound (T : ℕ → Prop) (h h' : Heap (BitVec 64)) (l table idx q : ℕ) : Prop where
  same : SameBelow h h' (l + 1) table idx
  freed : h'.len q = 0 → ∀ t i, T t → i < 512 → getBranchLoc (h'.cell t i) ≠ q

/-- A run that starts with 0 is empty. -/
theorem OneRun.empty (hone : OneRun h l q) (hz : h.cell q 0 = 0) {j : ℕ} (hj : j < 512) :
    h.cell q j = 0 := by
  have := hone j hj
  rwa [hz, sameRun, if_pos rfl, beq_iff_eq] at this

/-- Nothing is mapped through an empty table, and nothing through an entry that is 0. -/
theorem sameBelow_empty (hlen : h.len table = 512) (hq : getBranchLoc (h.cell table idx) = q)
    (h0 : q ≠ 0) (hlenq : h.len q = 512) (hz : ∀ j < 512, h.cell q j = 0) (hne : table ≠ q) :
    SameBelow h ((h.set table idx 0).drop q) (l + 1) table idx := by
  intro vpn hvpn
  have hj : vpn / 512 ^ l % 512 < 512 := Nat.mod_lt _ (by decide)
  have hlen' : ((h.set table idx 0).drop q).len table = 512 := by
    rw [Heap.len_drop_of_ne _ hne, Heap.len_set, hlen]
  have hcell : ((h.set table idx 0).drop q).cell table (vpn / 512 ^ (l + 1) % 512) = 0 := by
    rw [Heap.cell_drop, hvpn, Heap.cell_set_self]
  rw [sv39Walk_notPointer hlen' (by rw [hcell]; exact Or.inl (by decide)), hcell,
    sv39Walk_pointer hlen (by rw [hvpn, hq]; exact h0), hvpn, hq]
  split_ifs
  · rfl
  · rw [sv39Walk_notPointer hlenq (by rw [hz _ hj]; exact Or.inl (by decide)), hz _ hj]
    rfl

/-- `shrink_branch` is right exactly when the table is not one run, or is empty and no other entry
refers to it. -/
theorem shrinkBranch_sound_iff {T : ℕ → Prop} (hT : T table) (hlen : h.len table = 512)
    (hidx : idx < 512) (hq : getBranchLoc (h.cell table idx) = q) (h0 : q ≠ 0)
    (hlenq : h.len q = 512) :
    ∃ h', shrinkBranch table idx (4096 * 512 ^ (l + 1)) h = .ok h' ∧
      (ShrinkSound T h h' l table idx q ↔ ¬OneRun h l q ∨ (∀ j < 512, h.cell q j = 0) ∧
        ∀ t i, T t → i < 512 → getBranchLoc (h.cell t i) = q → t = table ∧ i = idx) := by
  obtain ⟨hkeep, hempty, hmapped⟩ := shrinkBranch_of_branch (l := l) (by omega) hq h0 hlenq
  by_cases hone : OneRun h l q
  · by_cases hz : h.cell q 0 = 0
    · have hall : ∀ j < 512, h.cell q j = 0 := fun j hj => hone.empty hz hj
      have hne : table ≠ q := fun he => by
        rw [he, hall idx hidx] at hq
        exact h0 hq.symm
      refine ⟨_, hempty hone hz, fun hsound => Or.inr ⟨hall, fun t i ht hi hloc => ?_⟩, ?_⟩
      · by_contra hother
        refine hsound.freed (Heap.len_drop_self _ _) t i ht hi ?_
        rw [Heap.cell_drop, Heap.cell_set, if_neg hother, hloc]
      · rintro (hno | ⟨-, honly⟩)
        · exact absurd hone hno
        · refine ⟨sameBelow_empty hlen hq h0 hlenq hall hne, fun _ t i ht hi hloc => ?_⟩
          rw [Heap.cell_drop, Heap.cell_set] at hloc
          split_ifs at hloc with he
          · exact h0 hloc.symm
          · exact he (honly t i ht hi hloc)
    · refine ⟨_, hmapped hone hz, fun hsound => ?_, ?_⟩
      · exact absurd hq (hsound.freed (Heap.len_drop_self _ _) table idx hT hidx)
      · rintro (hno | ⟨hall, -⟩)
        · exact absurd hone hno
        · exact absurd (hall 0 (by decide)) hz
  · refine ⟨h, hkeep hone, fun _ => Or.inl hone, fun _ => ⟨fun _ _ => rfl, fun hfree => ?_⟩⟩
    rw [hlenq] at hfree
    cases hfree

/-- A table at the first page of the window, and in its first entry a table of `leaf`. -/
def twoTables (leaf : ℕ → BitVec 64) : Heap (BitVec 64) where
  objs := [(0xffffffc000001000, 512), (0xffffffc000002000, 512)]
  cell p i := if p = 0xffffffc000002000 then leaf i
    else if i = 0 then createBranch 0xffffffc000002000 else 0

/-- A table of two pages that do not follow each other stays. -/
theorem shrinkBranch_sound_twoPages : ∃ h', shrinkBranch 0xffffffc000001000 0 (4096 * 512 ^ 1)
      (twoTables fun i => if i < 2 then 0x7 else 0) = .ok h' ∧
    ShrinkSound (fun t => t = 0xffffffc000001000) (twoTables fun i => if i < 2 then 0x7 else 0) h' 0
      0xffffffc000001000 0 0xffffffc000002000 := by
  obtain ⟨h', hrun, hiff⟩ := shrinkBranch_sound_iff (l := 0)
    (T := fun t => t = 0xffffffc000001000) (h := twoTables fun i => if i < 2 then 0x7 else 0) rfl
    (by decide) (by decide : 0 < 512) (by decide : _ = 0xffffffc000002000) (by decide) (by decide)
  refine ⟨h', hrun, hiff.2 (Or.inl fun hone => ?_)⟩
  exact absurd (hone 1 (by decide)) (by decide)

/-- 512 pages that follow each other : their table is freed, and the entry still refers to it. -/
theorem not_shrinkBranch_sound_run : ∃ h', shrinkBranch 0xffffffc000001000 0 (4096 * 512 ^ 1)
      (twoTables fun i => createLeaf (BitVec.ofNat 64 (kernelVmaStart + 4096 * i)) 7) = .ok h' ∧
    h'.len 0xffffffc000002000 = 0 ∧
      getBranchLoc (h'.cell 0xffffffc000001000 0) = 0xffffffc000002000 := by
  refine ⟨_, (shrinkBranch_of_branch (l := 0) (by decide) (by decide : _ = 0xffffffc000002000)
    (by decide) (by decide)).2.2 ?_ (by decide), Heap.len_drop_self _ _, by decide⟩
  unfold OneRun
  decide +kernel

end Shrink

end Toastium
