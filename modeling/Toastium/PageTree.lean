import Toastium.Vma

/-!
# Page tables as trees

The tables of a page table are the nodes of a tree. A node is named by the path of entries
that leads to it from the root, the last entry first, and `pg` gives the pages of the
nodes. `TableInv` says that the memory holds such a tree : the nodes have different pages,
an entry with a node below it points to the page of that node, and every other entry is a
leaf.

`xlate` is the translation that a tree gives, and `TableInv.walk_eq` says that it is the
one of the sv39 walk. The three ways in which the code changes a table are the lemmas
`TableInv.fill` (leaves written), `TableInv.expand` (a leaf cut into a table of leaves) and
`TableInv.shrink` (an empty table given back), with what they do to the translation.
-/

namespace Toastium

/-! ## The tree -/

/-- The number of a path : the page numbers below it, divided by how many there are. -/
def pathNum : List ℕ → ℕ
  | [] => 0
  | i :: π => pathNum π * 512 + i

/-- The entry of a table of level `l`, with the page of the node below it. -/
def EntryOk (l : ℕ) : Option ℕ → BitVec 64 → Prop
  | some q, e => e = createBranch q
  | none, e => LeafOk l e

/-- The memory holds a page table with the nodes `pg`. -/
structure TableInv (h : Heap (BitVec 64)) (root : ℕ) (pg : List ℕ → Option ℕ) : Prop where
  root : pg [] = some root
  inj : ∀ {π π' p}, pg π = some p → pg π' = some p → π = π'
  window : ∀ {π p}, pg π = some p → WindowPage p
  len : ∀ {π p}, pg π = some p → h.len p = 512
  depth : ∀ {π p}, pg π = some p → π.length ≤ 2
  parent : ∀ {i π q}, pg (i :: π) = some q → i < 512 ∧ ∃ p, pg π = some p
  entry : ∀ {π p i}, pg π = some p → i < 512 →
    EntryOk (2 - π.length) (pg (i :: π)) (h.cell p i)

/-- The translation of the page `vpn`, from a node of level `l` on. -/
def xlate (h : Heap (BitVec 64)) (pg : List ℕ → Option ℕ) (vpn : ℕ) :
    ℕ → List ℕ → ℕ → Option (ℕ × ℕ)
  | 0, _, p => leafXlate 0 (h.cell p (vpn / 512 ^ 0 % 512)) vpn
  | l + 1, π, p =>
    match pg (vpn / 512 ^ (l + 1) % 512 :: π) with
    | some q => xlate h pg vpn l (vpn / 512 ^ (l + 1) % 512 :: π) q
    | none => leafXlate (l + 1) (h.cell p (vpn / 512 ^ (l + 1) % 512)) vpn

/-- The walk ends at a leaf. -/
theorem sv39Walk_leaf {h : Heap (BitVec 64)} {vpn l page : ℕ} (hlen : h.len page = 512)
    (he : LeafOk l (h.cell page (vpn / 512 ^ l % 512))) :
    sv39Walk h vpn l page = .ok (leafXlate l (h.cell page (vpn / 512 ^ l % 512)) vpn) := by
  have hi : vpn / 512 ^ l % 512 < 512 := Nat.mod_lt _ (by decide)
  unfold sv39Walk
  rw [Heap.load_eq_ok (by omega), ok_bind]
  generalize h.cell page (vpn / 512 ^ l % 512) = e at he
  rcases he with rfl | ⟨hlt, ⟨hv, hrx, hwr⟩, hdvd⟩
  · rfl
  have h0 : e ≠ 0 := by
    rintro rfl
    exact absurd hv (by decide)
  have hfault : ¬(e.toNat ≥ 2 ^ 54 ∨ (pteFlags e).testBit 0 = false ∨
      (pteFlags e).testBit 1 = false ∧ (pteFlags e).testBit 2 = true) := by
    rintro (hge | hv' | ⟨h1, h2⟩)
    · omega
    · rw [hv] at hv'
      cases hv'
    · rw [hwr h2] at h1
      cases h1
  dsimp only
  rw [if_neg hfault, if_pos hrx, if_pos (Nat.mod_eq_zero_of_dvd hdvd), leafXlate, if_neg h0]
  rfl

/-- The walk goes on in the table that an entry points to. -/
theorem sv39Walk_branch {h : Heap (BitVec 64)} {vpn l page q : ℕ} (hlen : h.len page = 512)
    (hq : WindowPage q) (he : h.cell page (vpn / 512 ^ (l + 1) % 512) = createBranch q) :
    sv39Walk h vpn (l + 1) page = sv39Walk h vpn l q := by
  have hi : vpn / 512 ^ (l + 1) % 512 < 512 := Nat.mod_lt _ (by decide)
  have hlt : (createBranch q).toNat < 2 ^ 54 := by
    have := hq.lt
    rw [hq.createBranch_toNat]
    unfold kernelVmaStart
    omega
  rw [sv39Walk, Heap.load_eq_ok (by omega), ok_bind, he]
  dsimp only
  rw [hq.pteFlags_createBranch, hq.ptePpn_createBranch, Nat.mod_eq_of_lt hq.lt]
  have hfault : ¬((createBranch q).toNat ≥ 2 ^ 54 ∨ (1 : ℕ).testBit 0 = false ∨
      (1 : ℕ).testBit 1 = false ∧ (1 : ℕ).testBit 2 = true) := by
    rintro (hge | hv | ⟨-, hw⟩)
    · omega
    · exact absurd hv (by decide)
    · exact absurd hw (by decide)
  rw [if_neg hfault, if_neg (by decide)]

namespace TableInv

variable {h h' : Heap (BitVec 64)} {root : ℕ} {pg pg' : List ℕ → Option ℕ}

/-- The nodes of the last level have none below. -/
theorem none_of_length (ht : TableInv h root pg) {i : ℕ} {π : List ℕ} (hπ : 2 ≤ π.length) :
    pg (i :: π) = none := by
  cases hq : pg (i :: π) with
  | none => rfl
  | some q =>
    have := ht.depth hq
    simp only [List.length_cons] at this
    omega

theorem leaf_of_none (ht : TableInv h root pg) {i p : ℕ} {π : List ℕ} (hp : pg π = some p)
    (hi : i < 512) (hn : pg (i :: π) = none) : LeafOk (2 - π.length) (h.cell p i) := by
  have := ht.entry hp hi
  rwa [hn] at this

theorem branch_of_some (ht : TableInv h root pg) {i p q : ℕ} {π : List ℕ} (hp : pg π = some p)
    (hq : pg (i :: π) = some q) : h.cell p i = createBranch q := by
  have := ht.entry hp (ht.parent hq).1
  rwa [hq] at this

/-- The pointer that `get_branch_loc` reads off an entry. -/
theorem getBranchLoc_eq (ht : TableInv h root pg) {i p : ℕ} {π : List ℕ} (hp : pg π = some p)
    (hi : i < 512) : getBranchLoc (h.cell p i) = (pg (i :: π)).getD 0 := by
  cases hq : pg (i :: π) with
  | none => rw [(ht.leaf_of_none hp hi hq).getBranchLoc, Option.getD_none]
  | some q =>
    rw [ht.branch_of_some hp hq, (ht.window hq).getBranchLoc_createBranch, Option.getD_some]

/-- The sv39 walk gives the translation of the tree. -/
theorem walk_eq (ht : TableInv h root pg) (vpn : ℕ) : ∀ (l : ℕ) {π : List ℕ} {p : ℕ},
    pg π = some p → π.length + l = 2 →
    sv39Walk h vpn l p = .ok (xlate h pg vpn l π p)
  | 0, π, p, hp, hl => by
    have hi : vpn / 512 ^ 0 % 512 < 512 := Nat.mod_lt _ (by decide)
    have hleaf := ht.leaf_of_none hp hi (ht.none_of_length (by omega))
    rw [show 2 - π.length = 0 by omega] at hleaf
    exact sv39Walk_leaf (ht.len hp) hleaf
  | l + 1, π, p, hp, hl => by
    have hi : vpn / 512 ^ (l + 1) % 512 < 512 := Nat.mod_lt _ (by decide)
    unfold xlate
    cases hq : pg (vpn / 512 ^ (l + 1) % 512 :: π) with
    | none =>
      have hleaf := ht.leaf_of_none hp hi hq
      rw [show 2 - π.length = l + 1 by omega] at hleaf
      exact sv39Walk_leaf (ht.len hp) hleaf
    | some q =>
      rw [sv39Walk_branch (ht.len hp) (ht.window hq) (ht.branch_of_some hp hq)]
      exact walk_eq ht vpn l hq (by simp only [List.length_cons]; omega)

end TableInv

/-! ## What a change to an entry does to the translation -/

/-- The page `vpn` is below the node `π`. -/
def Under (π : List ℕ) (vpn : ℕ) : Prop :=
  vpn / 512 ^ (3 - π.length) = pathNum π

instance (π : List ℕ) (vpn : ℕ) : Decidable (Under π vpn) :=
  inferInstanceAs (Decidable (_ = _))

theorem Under.cons_iff {i vpn : ℕ} {π : List ℕ} (hi : i < 512) (hπ : π.length ≤ 2) :
    Under (i :: π) vpn ↔ Under π vpn ∧ vpn / 512 ^ (2 - π.length) % 512 = i := by
  unfold Under
  rw [show pathNum (i :: π) = pathNum π * 512 + i from rfl,
    show 3 - (i :: π).length = 2 - π.length by simp only [List.length_cons]; omega,
    show 3 - π.length = 2 - π.length + 1 by omega, pow_succ, ← Nat.div_div_eq_div_mul]
  omega

theorem under_nil {vpn : ℕ} (hv : vpn < 2 ^ 27) : Under [] vpn := by
  have : vpn / 512 ^ 3 = 0 := Nat.div_eq_of_lt hv
  exact this

/-- The translation of a page depends on the nodes above it only. -/
theorem TableInv.xlate_of_under {h : Heap (BitVec 64)} {root : ℕ} {pg : List ℕ → Option ℕ}
    (ht : TableInv h root pg) {vpn : ℕ} : ∀ {π : List ℕ} {p : ℕ}, pg π = some p → Under π vpn →
    xlate h pg vpn 2 [] root = xlate h pg vpn (2 - π.length) π p
  | [], p, hp, _ => by
    rw [ht.root] at hp
    cases hp
    rfl
  | i :: π, q, hq, hu => by
    obtain ⟨hi, p, hp⟩ := ht.parent hq
    have hlen := ht.depth hq
    simp only [List.length_cons] at hlen
    obtain ⟨hu', hidx⟩ := (Under.cons_iff hi (by omega)).mp hu
    rw [xlate_of_under ht hp hu', show 2 - π.length = 2 - (i :: π).length + 1 by
      simp only [List.length_cons]; omega]
    rw [show 2 - π.length = 2 - (i :: π).length + 1 by simp only [List.length_cons]; omega] at hidx
    rw [xlate, hidx, hq]

/-- The two trees agree but for the entries `I` of the node `π`, and what is below them. -/
structure AgreeOff (h h' : Heap (BitVec 64)) (pg pg' : List ℕ → Option ℕ) (π : List ℕ)
    (I : ℕ → Prop) : Prop where
  node : ∀ π', (∀ i, I i → ¬(i :: π) <:+ π') → pg' π' = pg π'
  cell : ∀ π' p j, pg π' = some p → (∀ i, I i → ¬(i :: π) <:+ π') → ¬(π' = π ∧ I j) →
    h'.cell p j = h.cell p j

/-- Pages that are not below these entries are translated as before. -/
theorem AgreeOff.xlate_eq {h h' : Heap (BitVec 64)} {pg pg' : List ℕ → Option ℕ} {π : List ℕ}
    {I : ℕ → Prop} (ha : AgreeOff h h' pg pg' π I) {vpn : ℕ}
    (hv : ∀ i, I i → ¬Under (i :: π) vpn) : ∀ (l : ℕ) {π' : List ℕ} {p : ℕ},
    pg π' = some p → (∀ i, I i → ¬(i :: π) <:+ π') → π'.length + l = 2 → Under π' vpn →
    xlate h' pg' vpn l π' p = xlate h pg vpn l π' p := by
  -- the entry the walk reads at a node is not one of those that changed
  have hentry : ∀ {l : ℕ} {π' : List ℕ}, π'.length + l = 2 → Under π' vpn →
      Under (vpn / 512 ^ l % 512 :: π') vpn := fun {l π'} hl hu => by
    refine (Under.cons_iff (Nat.mod_lt _ (by decide)) (by omega)).mpr ⟨hu, ?_⟩
    rw [show 2 - π'.length = l by omega]
  have hcell : ∀ {l : ℕ} {π' : List ℕ}, π'.length + l = 2 → Under π' vpn →
      ¬(π' = π ∧ I (vpn / 512 ^ l % 512)) := fun {l π'} hl hu => by
    rintro ⟨rfl, hI⟩
    exact hv _ hI (hentry hl hu)
  intro l
  induction l with
  | zero =>
    intro π' p hp hoff hl hu
    unfold xlate
    rw [ha.cell π' p _ hp hoff (hcell hl hu)]
  | succ l ih =>
    intro π' p hp hoff hl hu
    have hoff' : ∀ i, I i → ¬(i :: π) <:+ vpn / 512 ^ (l + 1) % 512 :: π' := fun i hi hsuf => by
      rcases List.suffix_cons_iff.mp hsuf with he | hsuf
      · obtain ⟨rfl, rfl⟩ := List.cons.inj he
        exact hcell hl hu ⟨rfl, hi⟩
      · exact hoff i hi hsuf
    unfold xlate
    rw [ha.node _ hoff']
    cases hq : pg (vpn / 512 ^ (l + 1) % 512 :: π') with
    | none =>
      dsimp only
      rw [ha.cell π' p _ hp hoff (hcell hl hu)]
    | some q =>
      exact ih hq hoff' (by simp only [List.length_cons]; omega) (hentry hl hu)

theorem xlate_leaf {h : Heap (BitVec 64)} {pg : List ℕ → Option ℕ} {vpn : ℕ} :
    ∀ {l : ℕ} {π : List ℕ} {p : ℕ}, pg (vpn / 512 ^ l % 512 :: π) = none →
    xlate h pg vpn l π p = leafXlate l (h.cell p (vpn / 512 ^ l % 512)) vpn
  | 0, _, _, _ => rfl
  | l + 1, π, p, hn => by rw [xlate, hn]

namespace TableInv

variable {h h' : Heap (BitVec 64)} {root : ℕ} {pg pg' : List ℕ → Option ℕ} {π : List ℕ}
  {i p q : ℕ}

/-- The translation of the pages below a leaf. -/
theorem xlate_entry (ht : TableInv h root pg) (hp : pg π = some p) (hi : i < 512)
    (hn : pg (i :: π) = none) {vpn : ℕ} (hu : Under (i :: π) vpn) :
    xlate h pg vpn 2 [] root = leafXlate (2 - π.length) (h.cell p i) vpn := by
  obtain ⟨hu', hidx⟩ := (Under.cons_iff hi (ht.depth hp)).mp hu
  rw [ht.xlate_of_under hp hu', xlate_leaf (by rw [hidx]; exact hn), hidx]

/-- The translation of the pages below a node without nodes below it. -/
theorem xlate_last (ht : TableInv h root pg) (hp : pg π = some p)
    (hn : ∀ j, pg (j :: π) = none) {vpn : ℕ} (hu : Under π vpn) :
    xlate h pg vpn 2 [] root =
      leafXlate (2 - π.length) (h.cell p (vpn / 512 ^ (2 - π.length) % 512)) vpn := by
  rw [ht.xlate_of_under hp hu, xlate_leaf (hn _)]

/-- Pages that are not below the entries changed are translated as before. -/
theorem xlate_agree (ht : TableInv h root pg) {I : ℕ → Prop} (ha : AgreeOff h h' pg pg' π I)
    {vpn : ℕ} (hv : vpn < 2 ^ 27) (hoff : ∀ i, I i → ¬Under (i :: π) vpn) :
    xlate h' pg' vpn 2 [] root = xlate h pg vpn 2 [] root :=
  ha.xlate_eq hoff 2 ht.root (fun i _ hsuf => by simp at hsuf) rfl (under_nil hv)

theorem of_update_none {π' : List ℕ} {r : ℕ}
    (hr : Function.update pg (i :: π) none π' = some r) : π' ≠ i :: π ∧ pg π' = some r := by
  by_cases he : π' = i :: π
  · rw [he, Function.update_self] at hr
    cases hr
  · rw [Function.update_of_ne he] at hr
    exact ⟨he, hr⟩

/-! ## Leaves written -/

theorem fill_cell (ht : TableInv h root pg) (hp : pg π = some p) {n : ℕ} (f : ℕ → BitVec 64)
    {π' : List ℕ} {r j : ℕ} (hr : pg π' = some r) (hj : ¬(π' = π ∧ i ≤ j ∧ j < i + n)) :
    (h.fill p i n f).cell r j = h.cell r j := by
  rw [Heap.cell_fill, if_neg]
  rintro ⟨rfl, hj'⟩
  exact hj ⟨ht.inj hr hp, hj'⟩

/-- Leaves written to entries without nodes below them. -/
theorem fill (ht : TableInv h root pg) (hp : pg π = some p) {n : ℕ} {f : ℕ → BitVec 64}
    (hn : ∀ j, i ≤ j → j < i + n → pg (j :: π) = none)
    (hf : ∀ k, k < n → LeafOk (2 - π.length) (f k)) : TableInv (h.fill p i n f) root pg where
  root := ht.root
  inj := ht.inj
  window := ht.window
  len := ht.len
  depth := ht.depth
  parent := ht.parent
  entry := by
    intro π' r j hr hj
    by_cases hin : π' = π ∧ i ≤ j ∧ j < i + n
    · obtain ⟨rfl, hle, hlt⟩ := hin
      rw [hp] at hr
      cases hr
      rw [hn j hle hlt, Heap.cell_fill, if_pos ⟨rfl, hle, hlt⟩]
      exact hf _ (by omega)
    · rw [ht.fill_cell hp f hr hin]
      exact ht.entry hr hj

theorem fill_xlate (ht : TableInv h root pg) (hp : pg π = some p) {n : ℕ} {f : ℕ → BitVec 64}
    (hn : ∀ j, i ≤ j → j < i + n → pg (j :: π) = none)
    (hf : ∀ k, k < n → LeafOk (2 - π.length) (f k)) (hle : i + n ≤ 512) {vpn : ℕ}
    (hv : vpn < 2 ^ 27) :
    xlate (h.fill p i n f) pg vpn 2 [] root =
      if Under π vpn ∧ i ≤ vpn / 512 ^ (2 - π.length) % 512 ∧
          vpn / 512 ^ (2 - π.length) % 512 < i + n then
        leafXlate (2 - π.length) (f (vpn / 512 ^ (2 - π.length) % 512 - i)) vpn
      else xlate h pg vpn 2 [] root := by
  split_ifs with hin
  · obtain ⟨hu, hge, hlt⟩ := hin
    have hu' : Under (vpn / 512 ^ (2 - π.length) % 512 :: π) vpn :=
      (Under.cons_iff (by omega) (ht.depth hp)).mpr ⟨hu, rfl⟩
    rw [(ht.fill hp hn hf).xlate_entry hp (by omega) (hn _ hge hlt) hu', Heap.cell_fill,
      if_pos ⟨rfl, hge, hlt⟩]
  · have ha : AgreeOff h (h.fill p i n f) pg pg π fun j => i ≤ j ∧ j < i + n :=
      ⟨fun _ _ => rfl, fun π' r j hr _ hj => ht.fill_cell hp f hr hj⟩
    refine ht.xlate_agree ha hv fun j hj hu => hin ?_
    obtain ⟨hu', hidx⟩ := (Under.cons_iff (by omega) (ht.depth hp)).mp hu
    exact ⟨hu', by omega, by omega⟩

/-! ## A leaf expanded -/

/-- The memory after the entry `i` of the table `p` was expanded to the table `q`. -/
def expanded (h : Heap (BitVec 64)) (p i q : ℕ) (leaf : ℕ → BitVec 64) : Heap (BitVec 64) :=
  ((h.push q 512).set p i (createBranch q)).fill q 0 512 leaf

theorem expanded_cell_of_ne (h : Heap (BitVec 64)) (leaf : ℕ → BitVec 64) {r j : ℕ} (hr : r ≠ q)
    (hj : ¬(r = p ∧ j = i)) : (expanded h p i q leaf).cell r j = h.cell r j := by
  rw [expanded, Heap.cell_fill_of_base_ne _ _ _ _ _ hr, Heap.cell_set, if_neg hj,
    Heap.cell_push_of_ne _ _ _ hr]

theorem expanded_cell_self (h : Heap (BitVec 64)) (leaf : ℕ → BitVec 64) (hp : p ≠ q) :
    (expanded h p i q leaf).cell p i = createBranch q := by
  rw [expanded, Heap.cell_fill_of_base_ne _ _ _ _ _ hp, Heap.cell_set_self]

theorem expanded_cell_new (h : Heap (BitVec 64)) (leaf : ℕ → BitVec 64) {j : ℕ} (hj : j < 512) :
    (expanded h p i q leaf).cell q j = leaf j := by
  rw [expanded, Heap.cell_fill, if_pos ⟨rfl, Nat.zero_le _, by omega⟩, Nat.sub_zero]

theorem ne_fresh (ht : TableInv h root pg) {π' : List ℕ} {r : ℕ} (hr : pg π' = some r)
    (hq : h.len q = 0) : r ≠ q := by
  rintro rfl
  have := ht.len hr
  omega

theorem none_below (ht : TableInv h root pg) (hn : pg (i :: π) = none) (j : ℕ) :
    pg (j :: i :: π) = none := by
  cases hr : pg (j :: i :: π) with
  | none => rfl
  | some r =>
    obtain ⟨-, p', hp'⟩ := ht.parent hr
    rw [hn] at hp'
    cases hp'

/-- A leaf expanded to a table of leaves, on a fresh page. -/
theorem expand (ht : TableInv h root pg) (hp : pg π = some p) (hi : i < 512) (hπ : π.length ≤ 1)
    (hn : pg (i :: π) = none) (hq : h.len q = 0) (hw : WindowPage q) {leaf : ℕ → BitVec 64}
    (hleaf : ∀ j, j < 512 → LeafOk (1 - π.length) (leaf j)) :
    TableInv (expanded h p i q leaf) root (Function.update pg (i :: π) (some q)) where
  root := by rw [Function.update_of_ne (by simp), ht.root]
  inj := by
    intro π₁ π₂ r h1 h2
    rcases update_some_cases h1 with ⟨rfl, rfl⟩ | ⟨-, h1⟩ <;>
      rcases update_some_cases h2 with ⟨rfl, hr⟩ | ⟨-, h2⟩
    · rfl
    · exact absurd rfl (ht.ne_fresh h2 hq)
    · exact absurd hr (ht.ne_fresh h1 hq)
    · exact ht.inj h1 h2
  window := by
    intro π' r hr
    rcases update_some_cases hr with ⟨-, rfl⟩ | ⟨-, hr⟩
    · exact hw
    · exact ht.window hr
  len := by
    intro π' r hr
    rcases update_some_cases hr with ⟨-, rfl⟩ | ⟨-, hr⟩
    · exact Heap.len_push_self _ _ _
    · exact (Heap.len_push_of_ne _ _ (ht.ne_fresh hr hq)).trans (ht.len hr)
  depth := by
    intro π' r hr
    rcases update_some_cases hr with ⟨rfl, -⟩ | ⟨-, hr⟩
    · rw [List.length_cons]
      omega
    · exact ht.depth hr
  parent := by
    intro j π' r hr
    rcases update_some_cases hr with ⟨he, -⟩ | ⟨-, hr'⟩
    · obtain ⟨rfl, rfl⟩ := List.cons.inj he
      refine ⟨hi, p, ?_⟩
      rw [Function.update_of_ne (List.ne_cons_self), hp]
    · obtain ⟨hj, p', hp'⟩ := ht.parent hr'
      refine ⟨hj, p', ?_⟩
      rw [Function.update_of_ne, hp']
      rintro rfl
      rw [hn] at hp'
      cases hp'
  entry := by
    intro π' r j hr hj
    rcases update_some_cases hr with ⟨rfl, rfl⟩ | ⟨-, hr'⟩
    · rw [Function.update_of_ne (by simp), ht.none_below hn, expanded_cell_new h leaf hj,
        List.length_cons, show 2 - (π.length + 1) = 1 - π.length by omega]
      exact hleaf j hj
    · have hrq := ht.ne_fresh hr' hq
      by_cases hpi : r = p ∧ j = i
      · obtain ⟨rfl, rfl⟩ := hpi
        obtain rfl := ht.inj hr' hp
        rw [Function.update_self, expanded_cell_self h leaf hrq]
        rfl
      · rw [expanded_cell_of_ne h leaf hrq hpi, Function.update_of_ne]
        · exact ht.entry hr' hj
        · intro hc
          obtain ⟨rfl, rfl⟩ := List.cons.inj hc
          rw [hp] at hr'
          cases hr'
          exact hpi ⟨rfl, rfl⟩

theorem expand_agree (ht : TableInv h root pg) (hp : pg π = some p) (hq : h.len q = 0)
    (leaf : ℕ → BitVec 64) :
    AgreeOff h (expanded h p i q leaf) pg (Function.update pg (i :: π) (some q)) π (· = i) where
  node π' hoff := Function.update_of_ne (fun he => hoff i rfl (by rw [he])) _ _
  cell π' r j hr _ hj := by
    refine expanded_cell_of_ne h leaf (ht.ne_fresh hr hq) ?_
    rintro ⟨rfl, rfl⟩
    exact hj ⟨ht.inj hr hp, rfl⟩

/-- If the leaves are those of the leaf that was expanded, the translation is as before. -/
theorem expand_xlate (ht : TableInv h root pg) (hp : pg π = some p) (hi : i < 512)
    (hπ : π.length ≤ 1) (hn : pg (i :: π) = none) (hq : h.len q = 0) (hw : WindowPage q)
    {leaf : ℕ → BitVec 64} (hleaf : ∀ j, j < 512 → LeafOk (1 - π.length) (leaf j) ∧
      ∀ vpn, vpn / 512 ^ (1 - π.length) % 512 = j →
        leafXlate (1 - π.length) (leaf j) vpn = leafXlate (2 - π.length) (h.cell p i) vpn)
    {vpn : ℕ} (hv : vpn < 2 ^ 27) :
    xlate (expanded h p i q leaf) (Function.update pg (i :: π) (some q)) vpn 2 [] root =
      xlate h pg vpn 2 [] root := by
  by_cases hu : Under (i :: π) vpn
  · have ht' := ht.expand hp hi hπ hn hq hw fun j hj => (hleaf j hj).1
    have hidx : vpn / 512 ^ (1 - π.length) % 512 < 512 := Nat.mod_lt _ (by decide)
    have hlen : 2 - (i :: π).length = 1 - π.length := by simp only [List.length_cons]; omega
    rw [ht'.xlate_last (Function.update_self _ _ _) (fun j => by
        rw [Function.update_of_ne (by simp), ht.none_below hn]) hu, hlen,
      expanded_cell_new h leaf hidx, (hleaf _ hidx).2 vpn rfl, ht.xlate_entry hp hi hn hu]
  · exact ht.xlate_agree (ht.expand_agree hp hq leaf) hv fun j hj => by rw [hj]; exact hu

/-! ## An empty table given back -/

/-- The nodes below an empty table. -/
theorem none_of_zero (ht : TableInv h root pg) (hq : pg π = some q)
    (hz : ∀ j, j < 512 → h.cell q j = 0) (j : ℕ) : pg (j :: π) = none := by
  cases hr : pg (j :: π) with
  | none => rfl
  | some r =>
    have hbranch := ht.branch_of_some hq hr
    have hflags := (ht.window hr).pteFlags_createBranch
    rw [← hbranch, hz j (ht.parent hr).1] at hflags
    exact absurd hflags (by decide)

theorem shrink (ht : TableInv h root pg) (hp : pg π = some p) (hq : pg (i :: π) = some q)
    (hz : ∀ j, j < 512 → h.cell q j = 0) :
    TableInv ((h.set p i 0).drop q) root (Function.update pg (i :: π) none) where
  root := by rw [Function.update_of_ne (by simp), ht.root]
  inj := by
    intro π₁ π₂ r h1 h2
    exact ht.inj (of_update_none h1).2 (of_update_none h2).2
  window hr := ht.window (of_update_none hr).2
  len := by
    intro π' r hr
    obtain ⟨hne, hr⟩ := of_update_none hr
    rw [Heap.len_drop_of_ne, Heap.len_set, ht.len hr]
    rintro rfl
    exact hne (ht.inj hr hq)
  depth hr := ht.depth (of_update_none hr).2
  parent := by
    intro j π' r hr
    obtain ⟨hne, hr⟩ := of_update_none hr
    obtain ⟨hj, p', hp'⟩ := ht.parent hr
    refine ⟨hj, p', ?_⟩
    rw [Function.update_of_ne, hp']
    rintro rfl
    rw [ht.none_of_zero hq hz] at hr
    cases hr
  entry := by
    intro π' r j hr hj
    obtain ⟨-, hr'⟩ := of_update_none hr
    rw [Heap.cell_drop]
    by_cases hpi : r = p ∧ j = i
    · obtain ⟨rfl, rfl⟩ := hpi
      obtain rfl := ht.inj hr' hp
      rw [Function.update_self, Heap.cell_set_self]
      exact LeafOk.zero _
    · rw [Heap.cell_set, if_neg hpi, Function.update_of_ne]
      · exact ht.entry hr' hj
      · intro hc
        obtain ⟨rfl, rfl⟩ := List.cons.inj hc
        rw [hp] at hr'
        cases hr'
        exact hpi ⟨rfl, rfl⟩

theorem shrink_xlate (ht : TableInv h root pg) (hp : pg π = some p) (hq : pg (i :: π) = some q)
    (hz : ∀ j, j < 512 → h.cell q j = 0) {vpn : ℕ} (hv : vpn < 2 ^ 27) :
    xlate ((h.set p i 0).drop q) (Function.update pg (i :: π) none) vpn 2 [] root =
      xlate h pg vpn 2 [] root := by
  by_cases hu : Under (i :: π) vpn
  · have hidx : vpn / 512 ^ (2 - (i :: π).length) % 512 < 512 := Nat.mod_lt _ (by decide)
    rw [ht.xlate_last hq (ht.none_of_zero hq hz) hu, hz _ hidx,
      (ht.shrink hp hq hz).xlate_entry (by rw [Function.update_of_ne List.ne_cons_self, hp])
        (ht.parent hq).1 (Function.update_self _ _ _) hu, Heap.cell_drop, Heap.cell_set_self]
    rfl
  · have ha : AgreeOff h ((h.set p i 0).drop q) pg (Function.update pg (i :: π) none) π
        (· = i) := by
      refine ⟨fun π' hoff => Function.update_of_ne (fun he => hoff i rfl (by rw [he])) _ _,
        fun π' r j hr _ hj => ?_⟩
      rw [Heap.cell_drop, Heap.cell_set, if_neg]
      rintro ⟨rfl, rfl⟩
      exact hj ⟨ht.inj hr hp, rfl⟩
    exact ht.xlate_agree ha hv fun j hj => by rw [hj]; exact hu

end TableInv

end Toastium
