import Toastium.Reach
import Toastium.Radix

/-!
# Radix trees as maps

The nodes of a radix tree are known by their height and by the bits of the keys below them :
`nodes j p` is the node at height `j` for the keys with `k / 2 ^ (s · (j + 1)) = p`. `RadixTree`
says that the cells of the inner nodes are the addresses of the nodes one height below, and
that a node has all its ancestors. The value of a key is in the node at height 0, and
`radix_get` reads it from every node on the path of the key (`RadixTree.get`).

Creating a missing node changes no value (`RadixTree.grow`), and a write to a node at
height 0 changes the value of one key (`RadixTree.setValue`). `radix_insert` and
`radix_remove` are made of these, so in every run the tree is a map (`radix_refines`).
-/

namespace Toastium

/-! ## Keys -/

section Keys

variable (k j s : ℕ)

/-- The bits of a key that tell the node at a height on its path from the other nodes there. -/
def radixPre (key height depthSize : ℕ) : ℕ :=
  key / 2 ^ ((height + 1) * depthSize)

theorem radixIdx_lt : radixIdx k j s < 2 ^ s :=
  Nat.mod_lt _ (by positivity)

theorem radixPre_div : radixPre k j s / 2 ^ s = radixPre k (j + 1) s := by
  rw [radixPre, radixPre, Nat.div_div_eq_div_mul, ← pow_add, ← Nat.succ_mul]

theorem radixPre_eq :
    radixPre k j s = radixPre k (j + 1) s * 2 ^ s + radixIdx k (j + 1) s := by
  rw [← radixPre_div, radixIdx, ← radixPre, Nat.div_add_mod']

theorem radixPre_idx_zero : radixPre k 0 s * 2 ^ s + radixIdx k 0 s = k := by
  rw [radixPre, radixIdx, Nat.zero_mul, pow_zero, Nat.div_one, Nat.zero_add, Nat.one_mul,
    Nat.div_add_mod']

variable {k j s}

theorem radixPre_eq_zero (h : k < 2 ^ (s * (j + 1))) : radixPre k j s = 0 := by
  rw [radixPre, Nat.mul_comm]
  exact Nat.div_eq_of_lt h

theorem child_div {p i : ℕ} (hi : i < 2 ^ s) : (p * 2 ^ s + i) / 2 ^ s = p := by
  rw [Nat.mul_comm, Nat.mul_add_div (by positivity), Nat.div_eq_of_lt hi, Nat.add_zero]

/-- Two children of nodes at one height are the same child of the same node. -/
theorem child_inj {p q i i' : ℕ} (hi : i < 2 ^ s) (hi' : i' < 2 ^ s)
    (h : p * 2 ^ s + i = q * 2 ^ s + i') : p = q ∧ i = i' := by
  obtain rfl : p = q := by
    rw [← child_div (p := p) hi, h, child_div hi']
  exact ⟨rfl, Nat.add_left_cancel h⟩

end Keys

/-! ## The tree -/

variable {h h' : Heap (BitVec 64)} {s top : ℕ} {nodes nodes' : ℕ → ℕ → Option ℕ}

/-- The address of a node in a cell, 0 if there is no node. -/
def nodeWord (o : Option ℕ) : BitVec 64 :=
  BitVec.ofNat 64 (o.getD 0)

/-- The nodes with `b` at height `j` for the prefix `q`. -/
def addNode (nodes : ℕ → ℕ → Option ℕ) (j q b : ℕ) : ℕ → ℕ → Option ℕ :=
  fun j' q' => if j' = j ∧ q' = q then some b else nodes j' q'

theorem addNode_self (j q b : ℕ) : addNode nodes j q b j q = some b :=
  if_pos ⟨rfl, rfl⟩

theorem addNode_of_some {j q b j' q' a : ℕ} (hq : nodes j q = none)
    (ha : nodes j' q' = some a) : addNode nodes j q b j' q' = some a := by
  rw [addNode, if_neg, ha]
  rintro ⟨rfl, rfl⟩
  rw [hq] at ha
  cases ha

theorem addNode_cases {j q b j' q' a : ℕ} (ha : addNode nodes j q b j' q' = some a) :
    (j' = j ∧ q' = q ∧ a = b) ∨ nodes j' q' = some a := by
  unfold addNode at ha
  split_ifs at ha with hc
  · exact Or.inl ⟨hc.1, hc.2, (Option.some.inj ha).symm⟩
  · exact Or.inr ha

/-- Every node is an object of its own. -/
structure Placed (h : Heap (BitVec 64)) (s : ℕ) (nodes : ℕ → ℕ → Option ℕ) : Prop where
  len : ∀ {j p a}, nodes j p = some a → h.len a = 2 ^ s
  pos : ∀ {j p a}, nodes j p = some a → 0 < a
  lt : ∀ {j p a}, nodes j p = some a → a < 2 ^ 64
  inj : ∀ {j p j' p' a}, nodes j p = some a → nodes j' p' = some a → j = j' ∧ p = p'

theorem Placed.ne_of_free (hp : Placed h s nodes) {j p a b : ℕ} (ha : nodes j p = some a)
    (hfree : h.len b = 0) : a ≠ b := by
  rintro rfl
  rw [hp.len ha] at hfree
  exact absurd hfree (by positivity)

theorem Placed.set (hp : Placed h s nodes) (a i : ℕ) (v : BitVec 64) :
    Placed (h.set a i v) s nodes :=
  ⟨hp.len, hp.pos, hp.lt, hp.inj⟩

/-- A new object as a node. -/
theorem Placed.push (hp : Placed h s nodes) {b : ℕ} (hfree : h.len b = 0) (hpos : 0 < b)
    (hlt : b < 2 ^ 64) (j q : ℕ) : Placed (h.push b (2 ^ s)) s (addNode nodes j q b) := by
  refine ⟨fun hc => ?_, fun hc => ?_, fun hc => ?_, fun hc hc' => ?_⟩
  · rcases addNode_cases hc with ⟨-, -, rfl⟩ | hc
    · exact Heap.len_push_self _ _ _
    · rw [Heap.len_push_of_ne _ _ (hp.ne_of_free hc hfree), hp.len hc]
  · rcases addNode_cases hc with ⟨-, -, rfl⟩ | hc
    · exact hpos
    · exact hp.pos hc
  · rcases addNode_cases hc with ⟨-, -, rfl⟩ | hc
    · exact hlt
    · exact hp.lt hc
  · rcases addNode_cases hc with ⟨h1, h2, he⟩ | hc <;>
      rcases addNode_cases hc' with ⟨h1', h2', he'⟩ | hc'
    · exact ⟨h1.trans h1'.symm, h2.trans h2'.symm⟩
    · exact absurd he (hp.ne_of_free hc' hfree)
    · exact absurd he' (hp.ne_of_free hc hfree)
    · exact hp.inj hc hc'

/-- The nodes of a tree with its root at height `top`. -/
structure RadixTree (h : Heap (BitVec 64)) (s top : ℕ) (nodes : ℕ → ℕ → Option ℕ) : Prop
    extends Placed h s nodes where
  child : ∀ {j p a i}, nodes (j + 1) p = some a → i < 2 ^ s →
    h.cell a i = nodeWord (nodes j (p * 2 ^ s + i))
  parent : ∀ {j p a}, nodes j p = some a → j < top → ∃ b, nodes (j + 1) (p / 2 ^ s) = some b
  le_top : ∀ {j p a}, nodes j p = some a → j ≤ top
  top_eq : ∀ {p a}, nodes top p = some a → p = 0

/-- The value of a key. -/
def radixValue (h : Heap (BitVec 64)) (s : ℕ) (nodes : ℕ → ℕ → Option ℕ) (k : ℕ) : BitVec 64 :=
  match nodes 0 (radixPre k 0 s) with
  | some a => h.cell a (radixIdx k 0 s)
  | none => 0

theorem radixValue_some {k a : ℕ} (ha : nodes 0 (radixPre k 0 s) = some a) :
    radixValue h s nodes k = h.cell a (radixIdx k 0 s) := by
  simp only [radixValue, ha]

theorem radixValue_none {k : ℕ} (hn : nodes 0 (radixPre k 0 s) = none) :
    radixValue h s nodes k = 0 := by
  simp only [radixValue, hn]

namespace RadixTree

theorem nodeWord_some (ht : RadixTree h s top nodes) {j p a : ℕ} (ha : nodes j p = some a) :
    (nodeWord (nodes j p)).toNat = a := by
  rw [ha, nodeWord, Option.getD_some, BitVec.toNat_ofNat, Nat.mod_eq_of_lt (ht.lt ha)]

theorem nodeWord_ne_zero (ht : RadixTree h s top nodes) {j p a : ℕ} (ha : nodes j p = some a) :
    nodeWord (nodes j p) ≠ 0 := by
  intro h0
  have hpos := ht.pos ha
  rw [← ht.nodeWord_some ha, h0] at hpos
  exact absurd hpos (by decide)

/-- The cell of a node on the path of a key leads to the next node of the path. -/
theorem cell_eq (ht : RadixTree h s top nodes) {k j a : ℕ}
    (ha : nodes (j + 1) (radixPre k (j + 1) s) = some a) :
    h.cell a (radixIdx k (j + 1) s) = nodeWord (nodes j (radixPre k j s)) := by
  rw [ht.child ha (radixIdx_lt _ _ _), ← radixPre_eq]

/-- A node has its ancestors. -/
theorem ancestor (ht : RadixTree h s top nodes) {k : ℕ} :
    ∀ {j a : ℕ}, nodes 0 (radixPre k 0 s) = some a → j ≤ top →
      ∃ b, nodes j (radixPre k j s) = some b
  | 0, a, ha, _ => ⟨a, ha⟩
  | j + 1, a, ha, hj => by
    obtain ⟨b, hb⟩ := ht.ancestor ha (Nat.le_of_succ_le hj)
    rw [← radixPre_div]
    exact ht.parent hb hj

/-- A key has no value when a node of its path is missing. -/
theorem value_eq_zero (ht : RadixTree h s top nodes) {k j : ℕ} (hj : j ≤ top)
    (hn : nodes j (radixPre k j s) = none) : radixValue h s nodes k = 0 := by
  cases h0 : nodes 0 (radixPre k 0 s) with
  | none => exact radixValue_none h0
  | some a =>
    obtain ⟨b, hb⟩ := ht.ancestor h0 hj
    rw [hn] at hb
    cases hb

/-- `radix_get` from any node on the path of the key. -/
theorem get (ht : RadixTree h s top nodes) {k : ℕ} :
    ∀ {j a : ℕ}, nodes j (radixPre k j s) = some a →
      radixGet h k s (j + 1) a = .ok (radixValue h s nodes k).toNat
  | 0, a, ha => by
    have hidx : radixIdx k 0 s < h.len a := ht.len ha ▸ radixIdx_lt _ _ _
    rw [radixGet, Heap.load_eq_ok hidx, ok_bind, ← radixValue_some ha]
    split_ifs with h0
    · rw [h0]
      rfl
    · rfl
  | j + 1, a, ha => by
    have hidx : radixIdx k (j + 1) s < h.len a := ht.len ha ▸ radixIdx_lt _ _ _
    rw [radixGet, Heap.load_eq_ok hidx, ok_bind, ht.cell_eq ha]
    cases hb : nodes j (radixPre k j s) with
    | none =>
      have hj := Nat.le_of_succ_le (ht.le_top ha)
      rw [if_pos (by rfl), ht.value_eq_zero hj hb]
      rfl
    | some b =>
      rw [← hb, if_neg (ht.nodeWord_ne_zero hb), ht.nodeWord_some hb]
      exact ht.get hb

/-! ### A new node -/

/-- The heap with a new node, and its address in a cell of its parent. -/
theorem grow (ht : RadixTree h s top nodes) {j p a i b : ℕ} (ha : nodes (j + 1) p = some a)
    (hi : i < 2 ^ s) (hq : nodes j (p * 2 ^ s + i) = none) (hfree : h.len b = 0) (hpos : 0 < b)
    (hlt : b < 2 ^ 64) :
    RadixTree ((h.push b (2 ^ s)).set a i (BitVec.ofNat 64 b)) s top
      (addNode nodes j (p * 2 ^ s + i) b) := by
  have hne : ∀ {j' p' c}, nodes j' p' = some c → c ≠ b := fun hc => ht.ne_of_free hc hfree
  have hj : j < top := ht.le_top ha
  refine ⟨(ht.push hfree hpos hlt _ _).set _ _ _, fun {j' p' c i'} hc hi' => ?_,
    fun hc hlt' => ?_, fun hc => ?_, fun hc => ?_⟩
  · rcases addNode_cases hc with ⟨h1, h2, rfl⟩ | hold
    · -- the new node is empty, and had no descendants
      rw [Heap.cell_set_of_base_ne _ _ _ _ (hne ha).symm, Heap.cell_push_self, addNode,
        if_neg (by omega)]
      cases hd : nodes j' (p' * 2 ^ s + i') with
      | none => rfl
      | some d =>
        obtain ⟨e, he⟩ := ht.parent hd (by omega)
        rw [child_div hi', h1, h2, hq] at he
        cases he
    · rw [Heap.cell_set, Heap.cell_push_of_ne _ _ _ (hne hold)]
      split_ifs with hcell
      · obtain ⟨hj', hp'⟩ := ht.inj hold (hcell.1 ▸ ha)
        obtain rfl := Nat.succ.inj hj'
        rw [hp', hcell.2, addNode_self, nodeWord, Option.getD_some]
      · rw [ht.child hold hi', addNode, if_neg]
        rintro ⟨rfl, hq'⟩
        obtain ⟨hp', rfl⟩ := child_inj hi' hi hq'
        rw [hp', ha] at hold
        exact hcell ⟨(Option.some.inj hold).symm, rfl⟩
  · rcases addNode_cases hc with ⟨rfl, rfl, -⟩ | hc
    · rw [child_div hi]
      exact ⟨a, addNode_of_some hq ha⟩
    · obtain ⟨d, hd⟩ := ht.parent hc hlt'
      exact ⟨d, addNode_of_some hq hd⟩
  · rcases addNode_cases hc with ⟨rfl, -, -⟩ | hc
    · exact hj.le
    · exact ht.le_top hc
  · rcases addNode_cases hc with ⟨h1, -, -⟩ | hc
    · omega
    · exact ht.top_eq hc

/-- The values after a new node are as before. -/
theorem value_grow (ht : RadixTree h s top nodes) {j p a i b : ℕ} (ha : nodes (j + 1) p = some a)
    (hq : nodes j (p * 2 ^ s + i) = none) (hfree : h.len b = 0) (k : ℕ) :
    radixValue ((h.push b (2 ^ s)).set a i (BitVec.ofNat 64 b)) s
      (addNode nodes j (p * 2 ^ s + i) b) k = radixValue h s nodes k := by
  have hne : ∀ {j' p' c}, nodes j' p' = some c → c ≠ b := fun hc => ht.ne_of_free hc hfree
  cases h0 : nodes 0 (radixPre k 0 s) with
  | some c =>
    have hca : c ≠ a := fun he => by
      have := (ht.inj h0 (he ▸ ha)).1
      omega
    rw [radixValue_some h0, radixValue_some (addNode_of_some hq h0),
      Heap.cell_set_of_base_ne _ _ _ _ hca, Heap.cell_push_of_ne _ _ _ (hne h0)]
  | none =>
    rw [radixValue_none h0]
    cases h1 : addNode nodes j (p * 2 ^ s + i) b 0 (radixPre k 0 s) with
    | none => exact radixValue_none h1
    | some c =>
      rcases addNode_cases h1 with ⟨-, -, rfl⟩ | h1'
      · rw [radixValue_some h1, Heap.cell_set_of_base_ne _ _ _ _ (hne ha).symm,
          Heap.cell_push_self]
      · rw [h0] at h1'
        cases h1'

/-! ### A value written -/

theorem setValue (ht : RadixTree h s top nodes) {q a : ℕ} (ha : nodes 0 q = some a) (i : ℕ)
    (v : BitVec 64) : RadixTree (h.set a i v) s top nodes := by
  refine ⟨ht.set _ _ _, fun {j p c i'} hc hi => ?_, ht.parent, ht.le_top, ht.top_eq⟩
  have hne : c ≠ a := fun he => by
    have := (ht.inj hc (he ▸ ha)).1
    omega
  rw [Heap.cell_set_of_base_ne _ _ _ _ hne, ht.child hc hi]

theorem value_setValue (ht : RadixTree h s top nodes) {k a : ℕ}
    (ha : nodes 0 (radixPre k 0 s) = some a) (v : BitVec 64) :
    radixValue (h.set a (radixIdx k 0 s) v) s nodes =
      Function.update (radixValue h s nodes) k v := by
  funext k'
  by_cases hk : k' = k
  · subst hk
    rw [Function.update_self, radixValue_some ha, Heap.cell_set_self]
  · rw [Function.update_of_ne hk]
    cases hb : nodes 0 (radixPre k' 0 s) with
    | none => rw [radixValue_none hb, radixValue_none hb]
    | some b =>
      rw [radixValue_some hb, radixValue_some hb, Heap.cell_set, if_neg]
      rintro ⟨rfl, hidx⟩
      apply hk
      rw [← radixPre_idx_zero k s, ← radixPre_idx_zero k' s, (ht.inj hb ha).2, hidx]

/-! ### The operations -/

/-- The nodes of a tree are still there, and the values are the same. -/
structure Extends (s : ℕ) (h : Heap (BitVec 64)) (nodes : ℕ → ℕ → Option ℕ)
    (h' : Heap (BitVec 64)) (nodes' : ℕ → ℕ → Option ℕ) : Prop where
  node : ∀ {j p a}, nodes j p = some a → nodes' j p = some a
  value : radixValue h' s nodes' = radixValue h s nodes

theorem Extends.refl : Extends s h nodes h nodes :=
  ⟨id, rfl⟩

theorem Extends.trans {h'' : Heap (BitVec 64)} {nodes'' : ℕ → ℕ → Option ℕ}
    (h1 : Extends s h nodes h' nodes') (h2 : Extends s h' nodes' h'' nodes'') :
    Extends s h nodes h'' nodes'' :=
  ⟨fun hc => h2.node (h1.node hc), h2.value.trans h1.value⟩

/-- Objects that are not nodes are left alone, and do not become nodes. -/
def KeepsOthers (h : Heap (BitVec 64)) (nodes : ℕ → ℕ → Option ℕ) (h' : Heap (BitVec 64))
    (nodes' : ℕ → ℕ → Option ℕ) : Prop :=
  ∀ q, h.len q ≠ 0 → (∀ j p, nodes j p ≠ some q) →
    h'.len q = h.len q ∧ (∀ i, h'.cell q i = h.cell q i) ∧ ∀ j p, nodes' j p ≠ some q

/-- A heap in which the nodes of a tree are the same holds the tree. -/
theorem kept (ht : RadixTree h s top nodes) (hsame : ∀ {j p a}, nodes j p = some a →
    h'.len a = h.len a ∧ ∀ i, h'.cell a i = h.cell a i) : RadixTree h' s top nodes :=
  ⟨⟨fun ha => (hsame ha).1.trans (ht.len ha), ht.pos, ht.lt, ht.inj⟩,
    fun ha hi => ((hsame ha).2 _).trans (ht.child ha hi), ht.parent, ht.le_top, ht.top_eq⟩

theorem value_kept (hsame : ∀ {j p a}, nodes j p = some a → ∀ i, h'.cell a i = h.cell a i) :
    radixValue h' s nodes = radixValue h s nodes := by
  funext k
  cases ha : nodes 0 (radixPre k 0 s) with
  | none => rw [radixValue_none ha, radixValue_none ha]
  | some a => rw [radixValue_some ha, radixValue_some ha, hsame ha]

theorem KeepsOthers.refl : KeepsOthers h nodes h nodes :=
  fun _ _ hq => ⟨rfl, fun _ => rfl, hq⟩

theorem KeepsOthers.trans {h'' : Heap (BitVec 64)} {nodes'' : ℕ → ℕ → Option ℕ}
    (h1 : KeepsOthers h nodes h' nodes') (h2 : KeepsOthers h' nodes' h'' nodes'') :
    KeepsOthers h nodes h'' nodes'' := fun q hlive hq => by
  obtain ⟨hlen1, hcell1, hq1⟩ := h1 q hlive hq
  obtain ⟨hlen2, hcell2, hq2⟩ := h2 q (by rwa [hlen1]) hq1
  exact ⟨hlen2.trans hlen1, fun i => (hcell2 i).trans (hcell1 i), hq2⟩

theorem KeepsOthers.set {j p a : ℕ} (ha : nodes j p = some a) (i : ℕ) (v : BitVec 64) :
    KeepsOthers h nodes (h.set a i v) nodes := fun q _ hq => by
  have hne : q ≠ a := fun he => hq j p (he ▸ ha)
  exact ⟨rfl, fun i' => Heap.cell_set_of_base_ne _ _ _ _ hne, hq⟩

/-- A new node. -/
theorem KeepsOthers.push {b : ℕ} (hfree : h.len b = 0) (n j q : ℕ) :
    KeepsOthers h nodes (h.push b n) (addNode nodes j q b) := fun q' hlive hq => by
  have hne : q' ≠ b := fun he => hlive (he ▸ hfree)
  refine ⟨Heap.len_push_of_ne _ _ hne, fun i => Heap.cell_push_of_ne _ _ _ hne, fun j' p' ha => ?_⟩
  rcases addNode_cases ha with ⟨-, -, he⟩ | ha
  · exact hne he
  · exact hq j' p' ha

/-- The allocator failed, with fewer than `n` objects more than in `h`. -/
def OutOfNodes (nodeSrc : NodeSource s) (h : Heap (BitVec 64)) (n : ℕ) : Prop :=
  ∃ hf, nodeSrc.next hf = none ∧ hf.objs.length < h.objs.length + n

theorem radixDescend_of_ne (nodeSrc : NodeSource s) {k j a : ℕ}
    (hidx : radixIdx k (j + 1) s < h.len a) (hne : h.cell a (radixIdx k (j + 1) s) ≠ 0) :
    radixDescend nodeSrc k (j + 1) a h =
      radixDescend nodeSrc k j (h.cell a (radixIdx k (j + 1) s)).toNat h := by
  simp only [radixDescend, Heap.load_eq_ok hidx, ok_bind, if_neg hne, pure_eq_ok]

theorem radixDescend_of_eq (nodeSrc : NodeSource s) {k j a : ℕ}
    (hidx : radixIdx k (j + 1) s < h.len a) (h0 : h.cell a (radixIdx k (j + 1) s) = 0) :
    radixDescend nodeSrc k (j + 1) a h = (do
      let (newNode, h) ← nodeSrc.alloc .outOfFreePages h
      let h ← h.store a (radixIdx k (j + 1) s) (BitVec.ofNat 64 newNode)
      let next ← h.load a (radixIdx k (j + 1) s)
      radixDescend nodeSrc k j next.toNat h) := by
  simp only [radixDescend, Heap.load_eq_ok hidx, ok_bind, if_pos h0]

/-- The next node of the path, created if it is missing. -/
theorem nextNode (ht : RadixTree h s top nodes) (nodeSrc : NodeSource s) {k j a : ℕ}
    (ha : nodes (j + 1) (radixPre k (j + 1) s) = some a) :
    (∃ b, nodes j (radixPre k j s) = some b) ∨
      (nodes j (radixPre k j s) = none ∧ nodeSrc.next h = none) ∨
      ∃ b nodes', nodes j (radixPre k j s) = none ∧ nodeSrc.next h = some b ∧
        RadixTree ((h.push b (2 ^ s)).set a (radixIdx k (j + 1) s) (BitVec.ofNat 64 b)) s top
          nodes' ∧
        Extends s h nodes
          ((h.push b (2 ^ s)).set a (radixIdx k (j + 1) s) (BitVec.ofNat 64 b)) nodes' ∧
        KeepsOthers h nodes
          ((h.push b (2 ^ s)).set a (radixIdx k (j + 1) s) (BitVec.ofNat 64 b)) nodes' ∧
        nodes' j (radixPre k j s) = some b := by
  cases hn : nodes j (radixPre k j s) with
  | some b => exact Or.inl ⟨b, rfl⟩
  | none =>
    rw [radixPre_eq] at hn
    cases hb : nodeSrc.next h with
    | none => exact Or.inr (Or.inl ⟨rfl, rfl⟩)
    | some b =>
      have hlt : b < 2 ^ 64 := by
        have := nodeSrc.lt hb
        omega
      have hfree := nodeSrc.fresh hb
      refine Or.inr (Or.inr ⟨b, addNode nodes j (radixPre k j s) b, rfl, rfl, ?_, ⟨?_, ?_⟩,
        ?_, addNode_self _ _ _⟩)
      · rw [radixPre_eq k j s]
        exact ht.grow ha (radixIdx_lt _ _ _) hn hfree (nodeSrc.pos hb) hlt
      · rw [radixPre_eq k j s]
        exact addNode_of_some hn
      · rw [radixPre_eq k j s]
        exact funext (ht.value_grow ha hn hfree)
      · rw [radixPre_eq k j s]
        exact (KeepsOthers.push hfree _ _ _).trans (KeepsOthers.set (addNode_of_some hn ha) _ _)

/-- The loop of `radix_insert`. -/
theorem descend (nodeSrc : NodeSource s) {k : ℕ} :
    ∀ {j a : ℕ} {h : Heap (BitVec 64)} {nodes : ℕ → ℕ → Option ℕ},
    RadixTree h s top nodes → nodes j (radixPre k j s) = some a →
      (OutOfNodes nodeSrc h j ∧
        radixDescend nodeSrc k j a h = .error (.panic .outOfFreePages)) ∨
      ∃ leaf h' nodes', radixDescend nodeSrc k j a h = .ok (leaf, h') ∧
        RadixTree h' s top nodes' ∧ Extends s h nodes h' nodes' ∧
        KeepsOthers h nodes h' nodes' ∧ nodes' 0 (radixPre k 0 s) = some leaf
  | 0, a, h, nodes, ht, ha =>
    Or.inr ⟨a, h, nodes, rfl, ht, Extends.refl, KeepsOthers.refl, ha⟩
  | j + 1, a, h, nodes, ht, ha => by
    have hidx : radixIdx k (j + 1) s < h.len a := ht.len ha ▸ radixIdx_lt _ _ _
    rcases ht.nextNode nodeSrc ha with
      ⟨b, hb⟩ | ⟨hb, hnext⟩ | ⟨b, nodes1, hb, hnext, ht1, hext, hkeep, hb1⟩
    · rw [radixDescend_of_ne nodeSrc hidx (ht.cell_eq ha ▸ ht.nodeWord_ne_zero hb), ht.cell_eq ha,
        ht.nodeWord_some hb]
      rcases descend nodeSrc ht hb with ⟨⟨hf, hfnone, hflt⟩, herr⟩ | hok
      · exact Or.inl ⟨⟨hf, hfnone, by omega⟩, herr⟩
      · exact Or.inr hok
    · refine Or.inl ⟨⟨h, hnext, by omega⟩, ?_⟩
      rw [radixDescend_of_eq nodeSrc hidx (by rw [ht.cell_eq ha, hb]; rfl), Source.alloc, hnext]
      rfl
    · rw [radixDescend_of_eq nodeSrc hidx (by rw [ht.cell_eq ha, hb]; rfl), Source.alloc, hnext]
      have hidx1 : radixIdx k (j + 1) s < (h.push b (2 ^ s)).len a := by
        rwa [Heap.len_push_of_ne _ _ (ht.ne_of_free ha (nodeSrc.fresh hnext))]
      have hb64 : (BitVec.ofNat 64 b).toNat = b :=
        BitVec.toNat_ofNat _ _ ▸ Nat.mod_eq_of_lt (ht1.lt hb1)
      simp only [ok_bind, Heap.store_eq_ok hidx1, Heap.load_set_self hidx1, hb64]
      rcases descend nodeSrc ht1 hb1 with
        ⟨⟨hf, hfnone, hflt⟩, herr⟩ | ⟨leaf, h2, nodes2, hok, ht2, hext2, hkeep2, hleaf⟩
      · refine Or.inl ⟨⟨hf, hfnone, ?_⟩, herr⟩
        rw [Heap.objs_set, Heap.objs_push, List.length_cons] at hflt
        omega
      · exact Or.inr ⟨leaf, h2, nodes2, hok, ht2, hext.trans hext2, hkeep.trans hkeep2, hleaf⟩

theorem pre_zero {k j a : ℕ} (ha : nodes j 0 = some a) (hk : k < 2 ^ (s * (j + 1))) :
    nodes j (radixPre k j s) = some a := by
  rwa [radixPre_eq_zero hk]

/-- `radix_insert` from a node at the left edge of the tree, and what it leaves alone. -/
theorem insert_keeps (ht : RadixTree h s top nodes) (nodeSrc : NodeSource s) {k j a : ℕ}
    (ha : nodes j 0 = some a) (hk : k < 2 ^ (s * (j + 1))) (v : ℕ) :
    (OutOfNodes nodeSrc h j ∧
      radixInsert nodeSrc h a k v (j + 1) = .error (.panic .outOfFreePages)) ∨
    ∃ h' nodes', radixInsert nodeSrc h a k v (j + 1) = .ok (radixValue h s nodes k, h') ∧
      RadixTree h' s top nodes' ∧ (∀ {j p a}, nodes j p = some a → nodes' j p = some a) ∧
      radixValue h' s nodes' = Function.update (radixValue h s nodes) k (BitVec.ofNat 64 v) ∧
      KeepsOthers h nodes h' nodes' := by
  unfold radixInsert
  rw [if_neg (Nat.not_le.mpr hk), Nat.add_sub_cancel]
  rcases descend nodeSrc ht (pre_zero ha hk) with
    ⟨hout, herr⟩ | ⟨leaf, h1, nodes1, hok, ht1, hext, hkeep, hleaf⟩
  · refine Or.inl ⟨hout, ?_⟩
    rw [herr]
    rfl
  · have hidx : radixIdx k 0 s < h1.len leaf := ht1.len hleaf ▸ radixIdx_lt _ _ _
    refine Or.inr ⟨h1.set leaf (radixIdx k 0 s) (BitVec.ofNat 64 v), nodes1, ?_,
      ht1.setValue hleaf _ _, hext.node, ?_, hkeep.trans (KeepsOthers.set hleaf _ _)⟩
    · simp only [hok, pure_eq_ok, ok_bind, Heap.load_eq_ok hidx, Heap.store_eq_ok hidx]
      rw [← radixValue_some hleaf, hext.value]
    · rw [ht1.value_setValue hleaf, hext.value]

/-- `radix_insert` from a node at the left edge of the tree. -/
theorem insert (ht : RadixTree h s top nodes) (nodeSrc : NodeSource s) {k j a : ℕ}
    (ha : nodes j 0 = some a) (hk : k < 2 ^ (s * (j + 1))) (v : ℕ) :
    (OutOfNodes nodeSrc h j ∧
      radixInsert nodeSrc h a k v (j + 1) = .error (.panic .outOfFreePages)) ∨
    ∃ h' nodes', radixInsert nodeSrc h a k v (j + 1) = .ok (radixValue h s nodes k, h') ∧
      RadixTree h' s top nodes' ∧ (∀ {j p a}, nodes j p = some a → nodes' j p = some a) ∧
      radixValue h' s nodes' =
        Function.update (radixValue h s nodes) k (BitVec.ofNat 64 v) := by
  refine (ht.insert_keeps nodeSrc ha hk v).imp_right ?_
  rintro ⟨h', nodes', hok, ht', hnode, hvalue, -⟩
  exact ⟨h', nodes', hok, ht', hnode, hvalue⟩

/-- The loop of `radix_remove`. -/
theorem find (ht : RadixTree h s top nodes) {k : ℕ} :
    ∀ {j a : ℕ}, nodes j (radixPre k j s) = some a →
      radixFind h k s j a = .ok (nodes 0 (radixPre k 0 s))
  | 0, a, ha => by
    rw [ha]
    rfl
  | j + 1, a, ha => by
    have hidx : radixIdx k (j + 1) s < h.len a := ht.len ha ▸ radixIdx_lt _ _ _
    rw [radixFind, Heap.load_eq_ok hidx, ok_bind, ht.cell_eq ha]
    cases hb : nodes j (radixPre k j s) with
    | none =>
      rw [if_pos (by rfl), pure_eq_ok]
      cases h0 : nodes 0 (radixPre k 0 s) with
      | none => rfl
      | some c =>
        obtain ⟨b, hb'⟩ := ht.ancestor h0 (Nat.le_of_succ_le (ht.le_top ha))
        rw [hb] at hb'
        cases hb'
    | some b =>
      rw [← hb, if_neg (ht.nodeWord_ne_zero hb), ht.nodeWord_some hb]
      exact ht.find hb

/-- `radix_remove` from a node at the left edge of the tree. -/
theorem remove (ht : RadixTree h s top nodes) {k j a : ℕ} (ha : nodes j 0 = some a)
    (hk : k < 2 ^ (s * (j + 1))) :
    ∃ h', radixRemove h a k (j + 1) s = .ok ((radixValue h s nodes k).setWidth 8, h') ∧
      RadixTree h' s top nodes ∧
      radixValue h' s nodes = Function.update (radixValue h s nodes) k 0 := by
  unfold radixRemove
  rw [Nat.add_sub_cancel, ht.find (pre_zero ha hk), ok_bind]
  cases h0 : nodes 0 (radixPre k 0 s) with
  | none =>
    refine ⟨h, ?_, ht, ?_⟩
    · rw [radixValue_none h0]
      rfl
    · rw [← radixValue_none (h := h) h0, Function.update_eq_self]
  | some leaf =>
    have hidx : radixIdx k 0 s < h.len leaf := ht.len h0 ▸ radixIdx_lt _ _ _
    refine ⟨h.set leaf (radixIdx k 0 s) 0, ?_, ht.setValue h0 _ _, ht.value_setValue h0 _⟩
    simp only [pure_eq_ok, ok_bind, Heap.load_eq_ok hidx, Heap.store_eq_ok hidx,
      radixValue_some h0]

/-- The tree of one empty node. -/
theorem single {a : ℕ} (hfree : h.len a = 0) (hpos : 0 < a) (hlt : a < 2 ^ 64) (top : ℕ) :
    RadixTree (h.push a (2 ^ s)) s top (addNode (fun _ _ => none) top 0 a) := by
  have hone : ∀ {j p b}, addNode (fun _ _ => none) top 0 a j p = some b →
      j = top ∧ p = 0 ∧ b = a := fun hb => by
    rcases addNode_cases hb with hb | hb
    · exact hb
    · cases hb
  have hempty : Placed h s fun _ _ => none := ⟨nofun, nofun, nofun, nofun⟩
  refine ⟨hempty.push hfree hpos hlt top 0, fun {j p b i} hb _ => ?_, fun hb hj => ?_,
    fun hb => ?_, fun hb => ?_⟩
  · obtain ⟨rfl, rfl, rfl⟩ := hone hb
    rw [Heap.cell_push_self, addNode, if_neg (by omega)]
    rfl
  · exact absurd (hone hb).1 hj.ne
  · exact (hone hb).1.le
  · exact (hone hb).2.1

/-- A tree put below a new root, as its first child. -/
theorem raise (ht : RadixTree h s top nodes) {r b : ℕ} (hr : nodes top 0 = some r)
    (hfree : h.len b = 0) (hpos : 0 < b) (hlt : b < 2 ^ 64) :
    RadixTree ((h.push b (2 ^ s)).set b 0 (BitVec.ofNat 64 r)) s (top + 1)
      (addNode nodes (top + 1) 0 b) := by
  have hne : ∀ {j' p' c}, nodes j' p' = some c → c ≠ b := fun hc => ht.ne_of_free hc hfree
  have hnone : ∀ p, nodes (top + 1) p = none := fun p => by
    cases hc : nodes (top + 1) p with
    | none => rfl
    | some c => exact absurd (ht.le_top hc) (Nat.not_succ_le_self _)
  refine ⟨(ht.push hfree hpos hlt _ _).set _ _ _, fun {j' p' c i'} hc hi' => ?_,
    fun {j' p' c} hc hj => ?_, fun hc => ?_, fun hc => ?_⟩
  · rcases addNode_cases hc with ⟨h1, rfl, rfl⟩ | hold
    · obtain rfl : j' = top := Nat.succ.inj h1
      rw [addNode, if_neg (by omega), Nat.zero_mul, Nat.zero_add]
      by_cases hi0 : i' = 0
      · rw [hi0, hr, Heap.cell_set_self]
        rfl
      · rw [Heap.cell_set_of_index_ne _ _ _ _ hi0, Heap.cell_push_self]
        cases hd : nodes j' i' with
        | none => rfl
        | some d => exact absurd (ht.top_eq hd) hi0
    · have hle := ht.le_top hold
      rw [Heap.cell_set_of_base_ne _ _ _ _ (hne hold), Heap.cell_push_of_ne _ _ _ (hne hold),
        ht.child hold hi', addNode, if_neg (by omega)]
  · rcases addNode_cases hc with ⟨rfl, -, -⟩ | hold
    · exact absurd hj (lt_irrefl _)
    · rcases Nat.lt_or_ge j' top with hj' | hj'
      · obtain ⟨d, hd⟩ := ht.parent hold hj'
        exact ⟨d, addNode_of_some (hnone 0) hd⟩
      · obtain rfl : j' = top := by omega
        rw [ht.top_eq hold, Nat.zero_div]
        exact ⟨b, addNode_self _ _ _⟩
  · rcases addNode_cases hc with ⟨rfl, -, -⟩ | hc
    · exact le_rfl
    · exact (ht.le_top hc).trans (Nat.le_succ _)
  · rcases addNode_cases hc with ⟨-, rfl, -⟩ | hc
    · rfl
    · rw [hnone] at hc
      cases hc

theorem value_raise (ht : RadixTree h s top nodes) {b : ℕ} (hfree : h.len b = 0) (v : BitVec 64) :
    radixValue ((h.push b (2 ^ s)).set b 0 v) s (addNode nodes (top + 1) 0 b) =
      radixValue h s nodes := by
  funext k
  have hadd : addNode nodes (top + 1) 0 b 0 (radixPre k 0 s) = nodes 0 (radixPre k 0 s) :=
    if_neg fun h0 => absurd h0.1 (Nat.succ_ne_zero top).symm
  cases hc : nodes 0 (radixPre k 0 s) with
  | none => rw [radixValue_none hc, radixValue_none (hadd.trans hc)]
  | some c =>
    have hne := ht.ne_of_free hc hfree
    rw [radixValue_some hc, radixValue_some (hadd.trans hc),
      Heap.cell_set_of_base_ne _ _ _ _ hne, Heap.cell_push_of_ne _ _ _ hne]

end RadixTree

/-! ## Every run -/

/-- A call on a tree. -/
inductive RadixOp
  | insert (key : ℕ) (childAddr : BitVec 64)
  | remove (key : ℕ)

/-- The memory, and the map that the calls made so far describe, 0 for no value. -/
structure RadixState where
  heap : Heap (BitVec 64)
  map : ℕ → BitVec 64

section Runs

variable (nodeSrc : NodeSource s) (root depth : ℕ)

/-- A tree from `radix_create`. -/
def RadixInit (st : RadixState) : Prop :=
  (∃ h, radixCreate nodeSrc h = .ok (root, st.heap)) ∧ st.map = fun _ => 0

/-- A call with a key below `2 ^ (s · depth)` that returns. -/
inductive RadixStep : RadixState → RadixOp → RadixState → Prop
  | insert {st : RadixState} {k : ℕ} {v old : BitVec 64} {h : Heap (BitVec 64)} :
    k < 2 ^ (s * depth) → radixInsert nodeSrc st.heap root k v.toNat depth = .ok (old, h) →
    RadixStep st (.insert k v) ⟨h, Function.update st.map k v⟩
  | remove {st : RadixState} {k : ℕ} {old : BitVec 8} {h : Heap (BitVec 64)} :
    k < 2 ^ (s * depth) → radixRemove st.heap root k depth s = .ok (old, h) →
    RadixStep st (.remove k) ⟨h, Function.update st.map k 0⟩

/-- The lookups in `h` are those of the map. -/
def LooksUp (s : ℕ) (h : Heap (BitVec 64)) (map : ℕ → BitVec 64) : Prop :=
  ∀ k < 2 ^ (s * depth), radixGet h k s depth root = .ok (map k).toNat

/-- Every call does to the tree what it does to the map : a lookup returns the value of the
key, an insertion returns the old value and changes the one key, unless no node is left to
be allocated, and a removal takes the one key out. -/
structure RadixRefines (st : RadixState) : Prop where
  get : LooksUp root depth s st.heap st.map
  insert : ∀ k < 2 ^ (s * depth), ∀ v : BitVec 64,
    (RadixTree.OutOfNodes nodeSrc st.heap depth ∧
      radixInsert nodeSrc st.heap root k v.toNat depth = .error (.panic .outOfFreePages)) ∨
    ∃ h, radixInsert nodeSrc st.heap root k v.toNat depth = .ok (st.map k, h) ∧
      LooksUp root depth s h (Function.update st.map k v)
  remove : ∀ k < 2 ^ (s * depth), ∃ old h, radixRemove st.heap root k depth s = .ok (old, h) ∧
    LooksUp root depth s h (Function.update st.map k 0)

/-- The memory holds a tree whose values are the map. -/
def RadixHolds (top : ℕ) (st : RadixState) : Prop :=
  ∃ nodes, RadixTree st.heap s top nodes ∧ nodes top 0 = some root ∧
    radixValue st.heap s nodes = st.map

variable {nodeSrc root depth} {st st' : RadixState}

theorem RadixHolds.looksUp (hst : RadixHolds (s := s) root top st) :
    LooksUp root (top + 1) s st.heap st.map := by
  obtain ⟨nodes, ht, hroot, hval⟩ := hst
  intro k hk
  rw [ht.get (RadixTree.pre_zero hroot hk), hval]

theorem RadixHolds.insert (hst : RadixHolds (s := s) root top st) (nodeSrc : NodeSource s) {k : ℕ}
    (hk : k < 2 ^ (s * (top + 1))) (v : BitVec 64) :
    (RadixTree.OutOfNodes nodeSrc st.heap top ∧
      radixInsert nodeSrc st.heap root k v.toNat (top + 1) = .error (.panic .outOfFreePages)) ∨
    ∃ h, radixInsert nodeSrc st.heap root k v.toNat (top + 1) = .ok (st.map k, h) ∧
      RadixHolds (s := s) root top ⟨h, Function.update st.map k v⟩ := by
  obtain ⟨nodes, ht, hroot, hval⟩ := hst
  rcases ht.insert nodeSrc hroot hk v.toNat with hout | ⟨h, nodes', hok, ht', hnode, hval'⟩
  · exact Or.inl hout
  · rw [hval] at hok hval'
    rw [BitVec.ofNat_toNat, BitVec.setWidth_eq] at hval'
    exact Or.inr ⟨h, hok, nodes', ht', hnode hroot, hval'⟩

theorem RadixHolds.remove (hst : RadixHolds (s := s) root top st) {k : ℕ}
    (hk : k < 2 ^ (s * (top + 1))) :
    ∃ h, radixRemove st.heap root k (top + 1) s = .ok ((st.map k).setWidth 8, h) ∧
      RadixHolds (s := s) root top ⟨h, Function.update st.map k 0⟩ := by
  obtain ⟨nodes, ht, hroot, hval⟩ := hst
  obtain ⟨h, hok, ht', hval'⟩ := ht.remove hroot hk
  rw [hval] at hok hval'
  exact ⟨h, hok, nodes, ht', hroot, hval'⟩

theorem RadixHolds.init (h : RadixInit nodeSrc root st) : RadixHolds (s := s) root top st := by
  obtain ⟨⟨h, hcreate⟩, hmap⟩ := h
  obtain ⟨hnext, hheap⟩ := Source.alloc_eq_ok.mp hcreate
  have hlt : root < 2 ^ 64 := by
    have := nodeSrc.lt hnext
    omega
  refine ⟨_, hheap ▸ RadixTree.single (nodeSrc.fresh hnext) (nodeSrc.pos hnext) hlt top,
    addNode_self _ _ _, ?_⟩
  rw [hheap, hmap]
  funext k
  cases h0 : addNode (fun _ _ => none) top 0 root 0 (radixPre k 0 s) with
  | none => exact radixValue_none h0
  | some b =>
    rcases addNode_cases h0 with ⟨-, -, rfl⟩ | hb
    · rw [radixValue_some h0, Heap.cell_push_self]
    · cases hb

theorem RadixHolds.reach
    (h : Reach (RadixInit nodeSrc root) (RadixStep nodeSrc root (top + 1)) st) :
    RadixHolds (s := s) root top st := by
  refine Reach.invariant (RadixHolds root top) (fun _ => RadixHolds.init) ?_ h
  intro st op st' hst hstep
  cases hstep with
  | @insert k v old h hk hins =>
    rcases hst.insert nodeSrc hk v with ⟨-, herr⟩ | ⟨h', hok, hst'⟩
    · rw [herr] at hins
      cases hins
    · rw [hok] at hins
      cases hins
      exact hst'
  | @remove k old h hk hrem =>
    obtain ⟨h', hok, hst'⟩ := hst.remove hk
    rw [hok] at hrem
    cases hrem
    exact hst'

/-- In every run a radix tree is a map : `radix_get` returns the value last inserted under a
key and not removed since, `radix_insert` returns the value before, and a call on one key
leaves the others alone. -/
theorem radix_refines (hd : 1 ≤ depth)
    (h : Reach (RadixInit nodeSrc root) (RadixStep nodeSrc root depth) st) :
    RadixRefines nodeSrc root depth st := by
  obtain ⟨top, rfl⟩ := Nat.exists_eq_add_of_le' hd
  have hst := RadixHolds.reach h
  refine ⟨hst.looksUp, fun k hk v => ?_, fun k hk => ?_⟩
  · rcases hst.insert nodeSrc hk v with ⟨⟨hf, hnone, hlt⟩, herr⟩ | ⟨h', hok, hst'⟩
    · exact Or.inl ⟨⟨hf, hnone, by omega⟩, herr⟩
    · exact Or.inr ⟨h', hok, hst'.looksUp⟩
  · obtain ⟨h', hok, hst'⟩ := hst.remove hk
    exact ⟨_, h', hok, hst'.looksUp⟩

/-- Nodes of 16 words handed out in the order of their addresses. -/
def bumpRadixNodes : NodeSource 4 :=
  (Source.bump (BitVec 64) 16 128 (by decide)).ofDvd (by decide) (by decide)

/-- A run : a tree of depth 2, with one key inserted. -/
theorem reach_inserted : ∃ st : RadixState,
    Reach (RadixInit bumpRadixNodes 128) (RadixStep bumpRadixNodes 128 2) st ∧
      st.map 0x12 = 0x5000 := by
  obtain ⟨⟨old, h⟩, hins⟩ : ∃ r, radixInsert bumpRadixNodes (Heap.push ⟨[], fun _ _ => 0⟩ 128 16)
      128 0x12 (0x5000#64).toNat 2 = .ok r := exists_eq_ok (by decide +kernel)
  have hstart : Reach (RadixInit bumpRadixNodes 128) (RadixStep bumpRadixNodes 128 2)
      ⟨Heap.push ⟨[], fun _ _ => 0⟩ 128 16, fun _ => 0⟩ :=
    Reach.start ⟨⟨⟨[], fun _ _ => 0⟩, rfl⟩, rfl⟩
  exact ⟨_, hstart.next (RadixStep.insert (by decide) hins), rfl⟩

theorem radix_refines_inserted :
    ∃ st, st.map 0x12 = 0x5000 ∧ RadixRefines bumpRadixNodes 128 2 st := by
  obtain ⟨st, hreach, hval⟩ := reach_inserted
  exact ⟨st, hval, radix_refines (by decide) hreach⟩

/-! ## What a removal reports -/

/-- `radix_remove` of a key returns, and not zero exactly if `radix_get` returned a value
before. -/
def RemoveReports (s root depth : ℕ) (h : Heap (BitVec 64)) (k : ℕ) : Prop :=
  ∃ old h' v, radixRemove h root k depth s = .ok (old, h') ∧ radixGet h k s depth root = .ok v ∧
    (old ≠ 0 ↔ v ≠ 0)

/-- The report by the value of the key in the map. -/
theorem RadixHolds.removeReports_iff (hst : RadixHolds (s := s) root top st) {k : ℕ}
    (hk : k < 2 ^ (s * (top + 1))) :
    RemoveReports s root (top + 1) st.heap k ↔
      ((st.map k).setWidth 8 ≠ 0 ↔ (st.map k).toNat ≠ 0) := by
  obtain ⟨h', hrem, -⟩ := hst.remove hk
  constructor
  · rintro ⟨old, h'', v, hok, hget, hiff⟩
    rw [hrem] at hok
    rw [hst.looksUp k hk] at hget
    cases hok
    cases hget
    exact hiff
  · intro hiff
    exact ⟨_, h', _, hrem, hst.looksUp k hk, hiff⟩

/-- In every run, `radix_remove` reports a key rightly if and only if the key has no value or
one whose lowest byte is not zero. -/
theorem radix_remove_reports_iff (hd : 1 ≤ depth)
    (h : Reach (RadixInit nodeSrc root) (RadixStep nodeSrc root depth) st) {k : ℕ}
    (hk : k < 2 ^ (s * depth)) :
    RemoveReports s root depth st.heap k ↔
      st.map k = 0 ∨ (st.map k).setWidth 8 ≠ (0 : BitVec 8) := by
  obtain ⟨top, rfl⟩ := Nat.exists_eq_add_of_le' hd
  rw [(RadixHolds.reach h).removeReports_iff hk]
  have hzero : (st.map k).toNat = 0 ↔ st.map k = 0 := BitVec.toNat_inj (y := 0)
  rw [Ne, Ne, hzero]
  constructor
  · intro hiff
    by_cases h0 : st.map k = 0
    · exact Or.inl h0
    · exact Or.inr (hiff.mpr h0)
  · rintro (h0 | hlow)
    · simp [h0]
    · refine ⟨fun _ h0 => hlow ?_, fun _ => hlow⟩
      rw [h0]
      rfl

/-- The inserted key is at an address whose lowest byte is zero. -/
theorem radix_remove_reports_inserted : ∃ st : RadixState, st.map 0x12 = 0x5000 ∧
    (RemoveReports 4 128 2 st.heap 0x12 ↔
      st.map 0x12 = 0 ∨ (st.map 0x12).setWidth 8 ≠ (0 : BitVec 8)) := by
  obtain ⟨st, hreach, hval⟩ := reach_inserted
  exact ⟨st, hval, radix_remove_reports_iff (by decide) hreach (by decide)⟩

/-- The removal of the value `0x5000` is reported as if the key had none. -/
theorem radix_remove_silent : ∃ st : RadixState,
    Reach (RadixInit bumpRadixNodes 128) (RadixStep bumpRadixNodes 128 2) st ∧
      radixGet st.heap 0x12 4 2 128 = .ok 0x5000 ∧
      (∃ h, radixRemove st.heap 128 0x12 2 4 = .ok (0, h)) ∧
      ¬ RemoveReports 4 128 2 st.heap 0x12 := by
  obtain ⟨st, hreach, hval⟩ := reach_inserted
  have hst := RadixHolds.reach hreach
  obtain ⟨h', hrem, -⟩ := hst.remove (k := 0x12) (by decide)
  have hget := hst.looksUp 0x12 (by decide)
  rw [hval] at hrem hget
  refine ⟨st, hreach, hget, ⟨h', hrem⟩, ?_⟩
  rw [hst.removeReports_iff (by decide), hval]
  decide

end Runs

end Toastium
