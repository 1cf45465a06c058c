import Toastium.VmaRuns

/-!
# The pages that mapping calls free

A mapping call can leave the table in disorder (`VmaRuns`), with entries that point to pages that
were given back, and such a page can be allocated again for another table. What is freed is still
a page of a table (`TablesApart.mapCall`) : the branches are those that `expand_leaf` made, no leaf
looks like a branch, and `destroy_branch` of a branch faults. So a page in use that is not one of
the tables stays in use, whatever is mapped.
-/

namespace Toastium

/-- The pages `T` hold tables : their branches lead to pages of `T`. The page `keep`, which is in
use, is not one of them. Pages of `T` can have been freed. -/
structure TablesApart (T : ℕ → Prop) (keep : ℕ) (h : Heap (BitVec 64)) : Prop where
  null : h.len 0 = 0
  live : h.len keep ≠ 0
  apart : ¬T keep
  len : ∀ p, T p → h.len p ≤ 512
  entry : ∀ p, T p → ∀ i < 512, pteFlags (h.cell p i) = 1 →
    getBranchLoc (h.cell p i) ≠ 0 ∧ T (getBranchLoc (h.cell p i))

section TablesApart

variable {T : ℕ → Prop} {keep : ℕ} {h h' : Heap (BitVec 64)} {src : KernelPages}
  {table idx : ℕ}

/-- An entry is written. -/
theorem TablesApart.store {v : BitVec 64} (ht : TablesApart T keep h)
    (hv : pteFlags v = 1 → getBranchLoc v ≠ 0 ∧ T (getBranchLoc v))
    (hs : (h.store table idx v : Except (Fault Panic) _) = .ok h') : TablesApart T keep h' := by
  unfold Heap.store at hs
  split_ifs at hs
  cases hs
  refine ⟨ht.null, ht.live, ht.apart, ht.len, fun q hq i hi hflags => ?_⟩
  rw [Heap.cell_set] at hflags ⊢
  split_ifs at hflags ⊢ with hat
  · exact hv hflags
  · exact ht.entry q hq i hi hflags

/-- A page other than `keep` is freed. -/
theorem TablesApart.free {p : ℕ} (ht : TablesApart T keep h) (hp : p ≠ keep)
    (hf : pgFree p h = .ok h') : TablesApart T keep h' := by
  have hdrop : h' = h.drop p := by
    unfold pgFree at hf
    split_ifs at hf
    exact (Except.ok.inj hf).symm
  subst hdrop
  have hle : ∀ q, (h.drop p).len q ≤ h.len q := fun q => by
    by_cases hq : q = p
    · rw [hq, Heap.len_drop_self]
      exact Nat.zero_le _
    · rw [Heap.len_drop_of_ne _ hq]
  refine ⟨Nat.le_zero.mp ((hle 0).trans_eq ht.null), ?_, ht.apart,
    fun q hq => (hle q).trans (ht.len q hq), ht.entry⟩
  rw [Heap.len_drop_of_ne _ hp.symm]
  exact ht.live

/-- A page is allocated for a table. -/
theorem TablesApart.alloc {p : ℕ} (ht : TablesApart T keep h)
    (ha : src.alloc Panic.outOfFreePages h = .ok (p, h')) :
    TablesApart (fun q => T q ∨ q = p) keep h' ∧ WindowPage p := by
  obtain ⟨hnext, rfl⟩ := Source.alloc_eq_ok.mp ha
  have hlt := src.lt hnext
  have hwin : WindowPage p := ⟨src.dvd hnext, src.window hnext, by omega⟩
  have hkeep : keep ≠ p := fun he => ht.live (he ▸ src.fresh hnext)
  refine ⟨⟨?_, ?_, ?_, fun q hq => ?_, fun q hq i hi hflags => ?_⟩, hwin⟩
  · rw [Heap.len_push_of_ne _ _ hwin.pos.symm, ht.null]
  · rw [Heap.len_push_of_ne _ _ hkeep]
    exact ht.live
  · rintro (hT | he)
    · exact ht.apart hT
    · exact hkeep he
  · rw [Heap.len_push]
    split_ifs with he
    · exact Nat.le_refl _
    · exact ht.len q (hq.resolve_right he)
  · rw [Heap.cell_push] at hflags ⊢
    split_ifs at hflags ⊢ with he
    · exact absurd hflags (by decide)
    · obtain ⟨hne, hT⟩ := ht.entry q (hq.resolve_right he) i hi hflags
      exact ⟨hne, Or.inl hT⟩

/-- An entry that is read. -/
theorem TablesApart.load {e : BitVec 64} (ht : TablesApart T keep h) (hp : T table)
    (hl : (h.load table idx : Except (Fault Panic) _) = .ok e) :
    pteFlags e = 1 → getBranchLoc e ≠ 0 ∧ T (getBranchLoc e) := by
  unfold Heap.load at hl
  split_ifs at hl with hidx
  cases hl
  exact ht.entry table hp idx (hidx.trans_le (ht.len table hp))

/-- Nothing is read at address 0. -/
theorem TablesApart.load_null {e : BitVec 64} (ht : TablesApart T keep h)
    (hl : (h.load 0 idx : Except (Fault Panic) _) = .ok e) : False := by
  unfold Heap.load at hl
  rw [ht.null, if_neg (Nat.not_lt_zero _)] at hl
  cases hl

theorem TablesApart.branch {e : BitVec 64} (ht : TablesApart T keep h) (hp : T table)
    (hl : (h.load table idx : Except (Fault Panic) _) = .ok e) :
    T (getBranchLoc e) ∨ getBranchLoc e = 0 ∧ pteFlags e ≠ 1 := by
  by_cases hflags : pteFlags e = 1
  · exact Or.inl (ht.load hp hl hflags).2
  · exact Or.inr ⟨getBranchLoc_eq_zero hflags, hflags⟩

/-- Leaves are written. -/
theorem TablesApart.fillLeafs {leaf : ℕ → BitVec 64} (hleaf : ∀ k, pteFlags (leaf k) ≠ 1) :
    ∀ {n k : ℕ} {h h' : Heap (BitVec 64)}, TablesApart T keep h → T table ∨ table = 0 →
      fillLeafs table idx leaf n k h = .ok h' → TablesApart T keep h'
  | 0, k, h, h', ht, _, hf => by
    cases hf
    exact ht
  | n + 1, k, h, h', ht, hp, hf => by
    obtain ⟨h1, hs, hf⟩ := bind_eq_ok.mp hf
    rcases hp with hp | rfl
    · exact TablesApart.fillLeafs hleaf (ht.store (fun he => absurd he (hleaf k)) hs)
        (Or.inl hp) hf
    · unfold Heap.store at hs
      rw [ht.null, if_neg (Nat.not_lt_zero _)] at hs
      cases hs

/-- The flags of a leaf with more than the valid flag. -/
theorem pteFlags_createLeaf_ne_one {phys flags : BitVec 64}
    (hf : flags ≠ 0 → pteFlags (flags ||| vmaValid) ≠ 1) :
    pteFlags (createLeaf phys flags) ≠ 1 := by
  unfold createLeaf
  split_ifs with h0
  · decide
  · intro he
    apply hf h0
    rw [← and_mask_toNat] at he ⊢
    have hmask : (windowOffset phys / 4096) <<< 10 &&& 1023 = 0#64 := by
      refine BitVec.eq_of_getLsbD_eq fun i hi => ?_
      have h1023 : (1023 : BitVec 64).getLsbD i = decide (i < 10) := by
        revert i
        decide
      rw [BitVec.getLsbD_and, BitVec.getLsbD_shiftLeft, h1023]
      by_cases hi10 : i < 10
      · simp [hi10]
      · simp [hi10]
    rwa [BitVec.or_assoc, BitVec.and_or_distrib_right, hmask, BitVec.zero_or] at he

/-- The flags of an entry that is not a branch, with the valid flag. -/
theorem pteFlags_getLeafFlags {e : BitVec 64} (he : pteFlags e ≠ 1) (h0 : getLeafFlags e ≠ 0) :
    pteFlags (getLeafFlags e ||| vmaValid) ≠ 1 := by
  intro h1
  have hflags := getLeafFlags_toNat e
  have hlt : pteFlags e < 2 ^ 10 := Nat.mod_lt _ (by decide)
  have hor : (getLeafFlags e ||| vmaValid).toNat = pteFlags e ||| 1 := by
    rw [BitVec.toNat_or, hflags]
    rfl
  have hle : pteFlags e ≤ pteFlags e ||| 1 := Nat.left_le_or
  rw [pteFlags, hor, Nat.mod_eq_of_lt (Nat.or_lt_two_pow hlt (by decide))] at h1
  have hne : pteFlags e ≠ 0 := fun hz => h0 (BitVec.eq_of_toNat_eq (hflags.trans hz))
  omega

/-- A leaf is expanded to a table. -/
theorem TablesApart.expandLeaf {t size : ℕ} (ht : TablesApart T keep h)
    (hleaf : ∀ e, (h.load table idx : Except (Fault Panic) _) = .ok e → pteFlags e ≠ 1)
    (hx : expandLeaf src table idx size h = .ok (t, h')) :
    ∃ T', (∀ p, T p → T' p) ∧ T' t ∧ TablesApart T' keep h' := by
  unfold Toastium.expandLeaf at hx
  obtain ⟨⟨newBranch, h1⟩, halloc, hx⟩ := bind_eq_ok.mp hx
  obtain ⟨ht1, hwin⟩ := ht.alloc halloc
  obtain ⟨leaf, hload, hx⟩ := bind_eq_ok.mp hx
  dsimp only at hx
  split_ifs at hx
  · cases hx
  obtain ⟨-, -, hx⟩ := bind_eq_ok.mp hx
  obtain ⟨h2, hstore, hx⟩ := bind_eq_ok.mp hx
  have ht2 := ht1.store
    (fun _ => by rw [hwin.getBranchLoc_createBranch]; exact ⟨hwin.pos, Or.inr rfl⟩) hstore
  refine ⟨fun q => T q ∨ q = newBranch, fun _ => Or.inl, ?_⟩
  obtain ⟨e, -, hx⟩ := bind_eq_ok.mp hx
  split_ifs at hx
  · cases hx
    exact ⟨Or.inr rfl, ht2⟩
  obtain ⟨h3, hfill, hx⟩ := bind_eq_ok.mp hx
  cases hx
  refine ⟨Or.inr rfl, TablesApart.fillLeafs (fun k => ?_) ht2 (Or.inl (Or.inr rfl)) hfill⟩
  -- the new page can be one that was freed while an entry still pointed to it
  have hflags : pteFlags leaf ≠ 1 := by
    obtain ⟨-, rfl⟩ := Source.alloc_eq_ok.mp halloc
    unfold Heap.load at hload
    split_ifs at hload with hidx
    cases hload
    rw [Heap.cell_push]
    split_ifs with he
    · decide
    · rw [Heap.len_push_of_ne _ _ he] at hidx
      exact hleaf _ (Heap.load_eq_ok hidx)
  exact pteFlags_createLeaf_ne_one (pteFlags_getLeafFlags hflags)

/-- The table of an entry. -/
theorem TablesApart.fetchTable {t size : ℕ} {needed : Bool} (ht : TablesApart T keep h)
    (hp : T table ∨ table = 0) (hx : fetchTable src table idx size needed h = .ok (t, h')) :
    ∃ T', (∀ p, T p → T' p) ∧ (T' t ∨ t = 0) ∧ TablesApart T' keep h' := by
  obtain ⟨e, hload, hx⟩ := bind_eq_ok.mp hx
  obtain hp : T table := hp.resolve_right fun h0 => ht.load_null (h0 ▸ hload)
  split_ifs at hx with hneeded
  · have hleaf : ∀ e', (h.load table idx : Except (Fault Panic) _) = .ok e' → pteFlags e' ≠ 1 := by
      intro e' hload' hflags
      cases Except.ok.inj (hload.symm.trans hload')
      exact (ht.load hp hload hflags).1 hneeded.1
    obtain ⟨T', hT, ht', hapart⟩ := ht.expandLeaf hleaf hx
    exact ⟨T', hT, Or.inl ht', hapart⟩
  · cases hx
    exact ⟨T, fun _ hT => hT, (ht.branch hp hload).imp_right And.left, ht⟩

/-- An empty table, or one that a leaf could stand for, is given back. -/
theorem TablesApart.shrinkBranch {size : ℕ} (ht : TablesApart T keep h)
    (hp : T table ∨ table = 0) (hx : shrinkBranch table idx size h = .ok h') :
    TablesApart T keep h' := by
  obtain ⟨e, hload, hx⟩ := bind_eq_ok.mp hx
  obtain hp : T table := hp.resolve_right fun h0 => ht.load_null (h0 ▸ hload)
  dsimp only at hx
  split_ifs at hx with hzero
  · cases hx
    exact ht
  obtain ⟨-, -, hx⟩ := bind_eq_ok.mp hx
  obtain ⟨first, -, hx⟩ := bind_eq_ok.mp hx
  obtain ⟨can, -, hx⟩ := bind_eq_ok.mp hx
  have hbranch : T (getBranchLoc e) := (ht.branch hp hload).resolve_right fun h0 => hzero h0.1
  have hne : getBranchLoc e ≠ keep := fun he => ht.apart (he ▸ hbranch)
  split_ifs at hx
  · obtain ⟨h1, hstore, hx⟩ := bind_eq_ok.mp hx
    exact (ht.store (fun he => absurd he (by decide)) hstore).free hne hx
  · exact ht.free hne hx
  · cases hx
    exact ht

/-- A branch has the value 1 modulo 8, so `destroy_branch` of the value faults. -/
theorem destroyBranch_branch {e : BitVec 64} {fuel : ℕ} (he : getBranchLoc e ≠ 0)
    (hx : destroyBranch fuel e.toNat h = .ok h') : False := by
  have hflags : pteFlags e = 1 := by
    by_contra hne
    exact he (getBranchLoc_eq_zero hne)
  cases fuel with
  | zero => cases hx
  | succ fuel =>
    obtain ⟨v, hload, -⟩ := bind_eq_ok.mp hx
    unfold pteFlags at hflags
    rw [loadAddr, if_neg (by omega)] at hload
    cases hload

/-- Leaves are written where there are no tables. -/
theorem TablesApart.replaceLeafs {fuel : ℕ} {leaf : ℕ → BitVec 64}
    (hleaf : ∀ k, pteFlags (leaf k) ≠ 1) :
    ∀ {n k : ℕ} {h h' : Heap (BitVec 64)}, TablesApart T keep h → T table ∨ table = 0 →
      replaceLeafs fuel table idx leaf n k h = .ok h' → TablesApart T keep h'
  | 0, k, h, h', ht, _, hx => by
    cases hx
    exact ht
  | n + 1, k, h, h', ht, hp, hx => by
    obtain ⟨old, hload, hx⟩ := bind_eq_ok.mp hx
    obtain hp : T table := hp.resolve_right fun h0 => ht.load_null (h0 ▸ hload)
    dsimp only at hx
    split_ifs at hx with hbranch
    · obtain ⟨h1, hold, -⟩ := bind_eq_ok.mp hx
      exact (destroyBranch_branch hbranch hold).elim
    · rw [pure_eq_ok, ok_bind] at hx
      obtain ⟨h2, hstore, hx⟩ := bind_eq_ok.mp hx
      exact TablesApart.replaceLeafs hleaf
        (ht.store (fun he => absurd he (hleaf k)) hstore) (Or.inl hp) hx

/-- The runs of a call. -/
theorem TablesApart.replaceRuns {fuel root virt : ℕ} {phys flags : BitVec 64} {r : Runs}
    (ht : TablesApart T keep h) (hroot : T root)
    (hflags : ∀ p, pteFlags (createLeaf p flags) ≠ 1)
    (hx : replaceRuns src fuel root virt phys flags r h = .ok h') :
    ∃ T', (∀ p, T p → T' p) ∧ TablesApart T' keep h' := by
  unfold Toastium.replaceRuns at hx
  -- the two tables of the first runs
  obtain ⟨⟨pre1, h1⟩, hpre1, hx⟩ := bind_eq_ok.mp hx
  obtain ⟨T1, hT1, hp1, ht1⟩ := ht.fetchTable (Or.inl hroot) hpre1
  obtain ⟨⟨pre0, h2⟩, hpre0, hx⟩ := bind_eq_ok.mp hx
  obtain ⟨T2, hT2, hp0, ht2⟩ := ht1.fetchTable hp1 hpre0
  have hp1 : T2 pre1 ∨ pre1 = 0 := hp1.imp_left (hT2 pre1)
  have hr2 : T2 root ∨ root = 0 := Or.inl (hT2 root (hT1 root hroot))
  obtain ⟨h3, hfill, hx⟩ := bind_eq_ok.mp hx
  obtain ⟨h4, hshrink1, hx⟩ := bind_eq_ok.mp hx
  obtain ⟨h5, hleafs1, hx⟩ := bind_eq_ok.mp hx
  obtain ⟨h6, hshrink2, hx⟩ := bind_eq_ok.mp hx
  obtain ⟨h7, hleafs2, hx⟩ := bind_eq_ok.mp hx
  have ht3 := TablesApart.fillLeafs (fun _ => hflags _) ht2 hp0 hfill
  have ht4 := ht3.shrinkBranch hp1 hshrink1
  have ht5 := TablesApart.replaceLeafs (fun _ => hflags _) ht4 hp1 hleafs1
  have ht6 := ht5.shrinkBranch hr2 hshrink2
  have ht7 := TablesApart.replaceLeafs (fun _ => hflags _) ht6 hr2 hleafs2
  -- the two tables of the last runs
  obtain ⟨⟨post1, h8⟩, hpost1, hx⟩ := bind_eq_ok.mp hx
  obtain ⟨T8, hT8, hq1, ht8⟩ := ht7.fetchTable hr2 hpost1
  obtain ⟨h9, hleafs3, hx⟩ := bind_eq_ok.mp hx
  have ht9 := TablesApart.replaceLeafs (fun _ => hflags _) ht8 hq1 hleafs3
  have hr8 : T8 root := hT8 root (hT2 root (hT1 root hroot))
  have hT : ∀ p, T p → T8 p := fun p hp => hT8 p (hT2 p (hT1 p hp))
  dsimp only at hx
  split_ifs at hx
  · obtain ⟨⟨post0, h10⟩, hpost0, hx⟩ := bind_eq_ok.mp hx
    obtain ⟨T10, hT10, hq0, ht10⟩ := ht9.fetchTable hq1 hpost0
    obtain ⟨h11, hfill', hx⟩ := bind_eq_ok.mp hx
    obtain ⟨h12, hshrink3, hx⟩ := bind_eq_ok.mp hx
    have ht11 := TablesApart.fillLeafs (fun _ => hflags _) ht10 hq0 hfill'
    have ht12 := ht11.shrinkBranch (hq1.imp_left (hT10 post1)) hshrink3
    exact ⟨T10, fun p hp => hT10 p (hT p hp), ht12.shrinkBranch (Or.inl (hT10 root hr8)) hx⟩
  · rw [pure_eq_ok, ok_bind] at hx
    exact ⟨T8, hT, ht9.shrinkBranch (Or.inl hr8) hx⟩

/-- The leaves of a call are not branches : they have the flags `VMA_DIRTY` and `VMA_ACCESSED`. -/
theorem MapCall.flags_ne_one (c : MapCall) (p : BitVec 64) :
    pteFlags (createLeaf p c.flags) ≠ 1 := by
  refine pteFlags_createLeaf_ne_one fun h0 => ?_
  have hne : ∀ e : BitVec 64, e.getLsbD 7 = true → pteFlags e ≠ 1 := by
    intro e he h1
    rw [← and_mask_toNat] at h1
    have hone : e &&& 1023 = 1 := BitVec.eq_of_toNat_eq h1
    have hbit : (e &&& 1023).getLsbD 7 = (1 : BitVec 64).getLsbD 7 := by rw [hone]
    rw [BitVec.getLsbD_and, he] at hbit
    exact absurd hbit (by decide)
  cases c with
  | mapKernel v n p f => exact hne _ (by simp [MapCall.flags, vmaDirty])
  | mapUser v n p f => exact hne _ (by simp [MapCall.flags, vmaDirty])
  | unmap v n => exact absurd rfl h0

/-- A call frees tables only. -/
theorem TablesApart.mapCall {fuel root : ℕ} {c : MapCall} (ht : TablesApart T keep h)
    (hroot : T root) (hx : c.run src fuel root h = .ok h') :
    ∃ T', (∀ p, T p → T' p) ∧ TablesApart T' keep h' := by
  rw [MapCall.run_eq] at hx
  unfold vmaReplaceSection at hx
  -- three tests on the range
  simp only [error_bind] at hx
  split_ifs at hx
  obtain ⟨runs, -, hx⟩ := bind_eq_ok.mp hx
  exact ht.replaceRuns hroot c.flags_ne_one hx

/-- A table in order, and a page in use that is not part of it. -/
theorem TableInv.tablesApart {root : ℕ} {pg : List ℕ → Option ℕ} (ht : TableInv h root pg)
    (hnull : h.len 0 = 0) (hlive : h.len keep ≠ 0) (hapart : ¬IsTable h root keep) :
    TablesApart (IsTable h root) keep h := by
  refine ⟨hnull, hlive, hapart, fun p hp => ?_, fun p hp i hi hflags => ?_⟩
  · obtain ⟨π, hπ⟩ := ht.of_isTable hp
    rw [ht.len hπ]
  · obtain ⟨π, hπ⟩ := ht.of_isTable hp
    have hentry := ht.entry hπ hi
    cases hq : pg (i :: π) with
    | none =>
      rw [hq] at hentry
      exact absurd hflags (LeafOk.flags_ne_one hentry)
    | some q =>
      have hne : getBranchLoc (h.cell p i) ≠ 0 := by
        rw [ht.getBranchLoc_eq hπ hi, hq, Option.getD_some]
        exact (ht.window hq).pos
      exact ⟨hne, hp.entry hi hne⟩

end TablesApart

end Toastium
