import Toastium.RadixMap

/-!
# Walks over a radix tree

`radix_iter` and `radix_delete` go through the slots of a node in order, and through the node in
each slot above the leaves. The depth that is left alone tells them whether a slot holds a node or
a value.

`radixIter_keys` : in every run of insertions and removals, `radix_iter` calls its function once
for each key that has a value, with the value, in the order of the keys. `radixDelete_calls` : if
the values are different from each other and from the nodes, `radix_delete` frees each node below
the root once, and each value if it is told to, and nothing else. It reads no node that was freed,
as that would be an access to no object.

The function does not change the tree while it is walked.
-/

namespace Toastium

/-! ## The code -/

section Code

variable {σ : Type} (heapOf : σ → Heap (BitVec 64))

/-- One pass of the loops below : a slot that is not empty is visited. -/
def visitSlot (visit : BitVec 64 → σ → Except (Fault Panic) σ) (childAddr : BitVec 64) (st : σ) :
    Except (Fault Panic) σ :=
  if childAddr ≠ 0 then visit childAddr st else .ok st

/-- The loop over the slots of a node, `n` of them from `i` on. -/
def forSlots (visit : BitVec 64 → σ → Except (Fault Panic) σ) (addr : ℕ) :
    ℕ → ℕ → σ → Except (Fault Panic) σ
  | 0, _, st => .ok st
  | n + 1, i, st => do
    let childAddr ← (heapOf st).load addr i
    let st ← visitSlot visit childAddr st
    forSlots visit addr n (i + 1) st

/-- `radix_iter`, over a state that `function` changes. -/
def radixIter (h : Heap (BitVec 64)) (depthSize : ℕ)
    (function : BitVec 64 → σ → Except (Fault Panic) σ) : ℕ → ℕ → σ → Except (Fault Panic) σ
  | depth + 2, addr, st =>
    forSlots (fun _ => h) (fun childAddr => radixIter h depthSize function (depth + 1)
      childAddr.toNat) addr (2 ^ depthSize) 0 st
  | _, addr, st => forSlots (fun _ => h) function addr (2 ^ depthSize) 0 st

/-- The memory, and the calls of `mem_free` so far. -/
structure FreeLog where
  heap : Heap (BitVec 64)
  calls : List (BitVec 64)

/-- `mem_free`. -/
def FreeLog.memFree (st : FreeLog) (addr : BitVec 64) : FreeLog :=
  ⟨st.heap.drop addr.toNat, st.calls ++ [addr]⟩

/-- `radix_delete`. -/
def radixDelete (removeLeaves : Bool) (depthSize : ℕ) :
    ℕ → ℕ → FreeLog → Except (Fault Panic) FreeLog
  | depth + 2, addr, st =>
    forSlots FreeLog.heap (fun childAddr st => do
      let st ← radixDelete removeLeaves depthSize (depth + 1) childAddr.toNat st
      return st.memFree childAddr) addr (2 ^ depthSize) 0 st
  | _, addr, st =>
    if removeLeaves then
      forSlots FreeLog.heap (fun childAddr st => .ok (st.memFree childAddr)) addr
        (2 ^ depthSize) 0 st
    else .ok st

end Code

/-! ## The order of the calls -/

section Iter

variable {σ : Type} {h : Heap (BitVec 64)} {s top : ℕ} {nodes : ℕ → ℕ → Option ℕ}
  {function : BitVec 64 → σ → Except (Fault Panic) σ}

/-- The keys with a value among `n` from `lo` on. -/
def valueKeys (map : ℕ → BitVec 64) (lo n : ℕ) : List ℕ :=
  (List.range' lo n).filter fun k => map k ≠ 0

theorem mem_valueKeys {map : ℕ → BitVec 64} {lo n k : ℕ} :
    k ∈ valueKeys map lo n ↔ (lo ≤ k ∧ k < lo + n) ∧ map k ≠ 0 := by
  simp [valueKeys]

theorem valueKeys_add (map : ℕ → BitVec 64) (lo m n : ℕ) :
    valueKeys map lo (m + n) = valueKeys map lo m ++ valueKeys map (lo + m) n := by
  rw [valueKeys, ← List.range'_append_1, List.filter_append]
  rfl

theorem valueKeys_eq_nil {map : ℕ → BitVec 64} {lo n : ℕ}
    (hz : ∀ k, lo ≤ k → k < lo + n → map k = 0) : valueKeys map lo n = [] := by
  rw [valueKeys, List.filter_eq_nil_iff]
  intro k hk
  have hk' := List.mem_range'_1.mp hk
  simp [hz k hk'.1 hk'.2]

theorem valueKeys_one (map : ℕ → BitVec 64) (k : ℕ) :
    valueKeys map k 1 = if map k ≠ 0 then [k] else [] := by
  rw [valueKeys, List.range'_one, List.filter_cons]
  split_ifs with h1 h2 h2
  · rfl
  · exact absurd (of_decide_eq_true h1) h2
  · exact absurd (decide_eq_true h2) h1
  · rfl

theorem valueKeys_flatMap (map : ℕ → BitVec 64) (lo : ℕ) : ∀ n i : ℕ,
    valueKeys map (lo + i) n = (List.range' i n).flatMap fun i => valueKeys map (lo + i) 1
  | 0, _ => rfl
  | n + 1, i => by
    rw [Nat.add_comm n, valueKeys_add, Nat.add_assoc, valueKeys_flatMap map lo n (i + 1),
      Nat.add_comm 1, List.range'_succ, List.flatMap_cons]

theorem pairwise_valueKeys (map : ℕ → BitVec 64) (lo n : ℕ) :
    (valueKeys map lo n).Pairwise (· < ·) :=
  List.Pairwise.filter _ (List.pairwise_lt_range' 1)

/-- The slots are walked in order : slot `i` stands for the `w` keys from `base + w * i` on. -/
theorem forSlots_eq {visit : BitVec 64 → σ → Except (Fault Panic) σ} {map : ℕ → BitVec 64}
    {addr base w len : ℕ} (hlen : h.len addr = len)
    (hvisit : ∀ i < len, ∀ st, visitSlot visit (h.cell addr i) st =
        ((valueKeys map (base + w * i) w).map map).foldlM (fun st v => function v st) st) :
    ∀ (n i : ℕ) (st : σ), i + n ≤ len →
      forSlots (fun _ => h) visit addr n i st =
        ((valueKeys map (base + w * i) (w * n)).map map).foldlM (fun st v => function v st) st
  | 0, i, st, _ => by
    rw [forSlots, Nat.mul_zero]
    rfl
  | n + 1, i, st, hle => by
    rw [forSlots, Heap.load_eq_ok (by omega), ok_bind, hvisit i (by omega), Nat.mul_succ,
      Nat.add_comm (w * n), valueKeys_add, List.map_append, List.foldlM_append]
    refine bind_congr fun st' => ?_
    rw [forSlots_eq hlen hvisit n (i + 1) st' (by omega), Nat.mul_succ, Nat.add_assoc]

/-- The values in the slots of a leaf. -/
theorem value_leaf {p a i : ℕ} (ha : nodes 0 p = some a) (hi : i < 2 ^ s) :
    radixValue h s nodes (2 ^ s * p + i) = h.cell a i := by
  have hpre : radixPre (2 ^ s * p + i) 0 s = p := by
    rw [radixPre, Nat.zero_add, Nat.one_mul, Nat.mul_add_div (by positivity),
      Nat.div_eq_of_lt hi, Nat.add_zero]
  have hidx : radixIdx (2 ^ s * p + i) 0 s = i := by
    rw [radixIdx, Nat.zero_mul, pow_zero, Nat.div_one, Nat.mul_add_mod, Nat.mod_eq_of_lt hi]
  rw [radixValue_some (hpre.symm ▸ ha), hidx]

/-- The keys below a node. -/
theorem RadixTree.iter (ht : RadixTree h s top nodes) : ∀ {j p a : ℕ}, nodes j p = some a →
    ∀ st : σ, radixIter h s function (j + 1) a st =
      ((valueKeys (radixValue h s nodes) (2 ^ (s * (j + 1)) * p) (2 ^ (s * (j + 1)))).map
        (radixValue h s nodes)).foldlM (fun st v => function v st) st
  | 0, p, a, ha, st => by
    have hloop := @forSlots_eq σ h function function (radixValue h s nodes) a (2 ^ s * p) 1 (2 ^ s)
      (ht.len ha) (fun i hi st => ?_) (2 ^ s) 0 st (Nat.zero_add _).le
    · rw [Nat.mul_zero, Nat.add_zero, Nat.one_mul] at hloop
      rw [Nat.zero_add, Nat.mul_one]
      exact hloop
    · -- one key for each slot
      have hval := value_leaf (h := h) ha hi
      rw [Nat.one_mul, visitSlot, valueKeys_one, hval]
      split_ifs
      · rw [List.map_singleton, hval, List.foldlM_cons]
        exact (bind_pure _).symm
      · rfl
  | j + 1, p, a, ha, st => by
    have hpow : 2 ^ (s * (j + 1 + 1)) = 2 ^ (s * (j + 1)) * 2 ^ s := by
      rw [Nat.mul_succ s, pow_add]
    have hloop := @forSlots_eq σ h function (fun c => radixIter h s function (j + 1) c.toNat)
      (radixValue h s nodes) a (2 ^ (s * (j + 1 + 1)) * p) (2 ^ (s * (j + 1))) (2 ^ s) (ht.len ha)
      (fun i hi st => ?_) (2 ^ s) 0 st (Nat.zero_add _).le
    · rw [Nat.mul_zero, Nat.add_zero, ← hpow] at hloop
      exact hloop
    · have hbase : 2 ^ (s * (j + 1 + 1)) * p + 2 ^ (s * (j + 1)) * i =
          2 ^ (s * (j + 1)) * (p * 2 ^ s + i) := by
        rw [hpow]
        ring
      rw [hbase, ht.child ha hi]
      unfold visitSlot
      cases hb : nodes j (p * 2 ^ s + i) with
      | none =>
        -- no node, no values
        have hnil : valueKeys (radixValue h s nodes) (2 ^ (s * (j + 1)) * (p * 2 ^ s + i))
            (2 ^ (s * (j + 1))) = [] := valueKeys_eq_nil fun k hk hk' => by
          refine ht.value_eq_zero (Nat.le_of_succ_le (ht.le_top ha)) (j := j) ?_
          rw [radixPre, Nat.mul_comm (j + 1), Nat.div_eq_of_lt_le (by rwa [Nat.mul_comm])
            (by rw [Nat.succ_mul, Nat.mul_comm]; exact hk'), hb]
        rw [hnil, if_neg (not_not.mpr (by rfl))]
        rfl
      | some b =>
        rw [← hb, if_pos (ht.nodeWord_ne_zero hb)]
        simp only [ht.nodeWord_some hb]
        exact ht.iter hb st

end Iter

section IterRuns

variable {σ : Type} {s root depth : ℕ} {nodeSrc : NodeSource s} {st : RadixState}

/-- In every run, `radix_iter` calls its function once for each key that `radix_get` finds a value
for, with the value, in the order of the keys. -/
theorem radixIter_keys (hd : 1 ≤ depth)
    (h : Reach (RadixInit nodeSrc root) (RadixStep nodeSrc root depth) st) :
    ∃ keys : List ℕ, keys.Pairwise (· < ·) ∧
      (∀ k, k ∈ keys ↔ k < 2 ^ (s * depth) ∧ radixGet st.heap k s depth root ≠ .ok 0) ∧
      (∀ k ∈ keys, radixGet st.heap k s depth root = .ok (st.map k).toNat) ∧
      ∀ (function : BitVec 64 → σ → Except (Fault Panic) σ) (x : σ),
        radixIter st.heap s function depth root x =
          (keys.map st.map).foldlM (fun x v => function v x) x := by
  obtain ⟨top, rfl⟩ := Nat.exists_eq_add_of_le' hd
  have hst := RadixHolds.reach h
  have hget := hst.looksUp
  obtain ⟨nodes, ht, hroot, hval⟩ := hst
  refine ⟨valueKeys st.map 0 (2 ^ (s * (top + 1))), pairwise_valueKeys _ _ _, fun k => ?_,
    fun k hk => hget k ?_, fun function x => ?_⟩
  · rw [mem_valueKeys, Nat.zero_add]
    constructor
    · rintro ⟨⟨-, hk⟩, hne⟩
      refine ⟨hk, ?_⟩
      rw [hget k hk]
      intro h0
      exact hne (BitVec.eq_of_toNat_eq (Except.ok.inj h0))
    · rintro ⟨hk, hne⟩
      refine ⟨⟨Nat.zero_le _, hk⟩, fun h0 => hne ?_⟩
      rw [hget k hk, h0]
      rfl
  · rw [mem_valueKeys, Nat.zero_add] at hk
    exact hk.1.2
  · have hiter := @RadixTree.iter σ _ _ _ _ function ht _ _ _ hroot x
    rw [Nat.mul_zero, hval] at hiter
    exact hiter

theorem radixIter_keys_inserted : ∃ st : RadixState, st.map 0x12 = 0x5000 ∧
    ∃ keys : List ℕ, keys.Pairwise (· < ·) ∧
      (∀ k, k ∈ keys ↔ k < 2 ^ (4 * 2) ∧ radixGet st.heap k 4 2 128 ≠ .ok 0) ∧
      (∀ k ∈ keys, radixGet st.heap k 4 2 128 = .ok (st.map k).toNat) ∧
      ∀ (function : BitVec 64 → List (BitVec 64) → Except (Fault Panic) (List (BitVec 64)))
        (x : List (BitVec 64)), radixIter st.heap 4 function 2 128 x =
          (keys.map st.map).foldlM (fun x v => function v x) x := by
  obtain ⟨st, hreach, hval⟩ := reach_inserted
  exact ⟨st, hval, radixIter_keys (by decide) hreach⟩

end IterRuns

/-! ## What is freed -/

section Delete

variable {h : Heap (BitVec 64)} {s top : ℕ} {nodes : ℕ → ℕ → Option ℕ}

/-- What `radix_delete` frees below a node, in order. -/
def deleteCalls (removeLeaves : Bool) (map : ℕ → BitVec 64) (s : ℕ)
    (nodes : ℕ → ℕ → Option ℕ) : ℕ → ℕ → List (BitVec 64)
  | 0, p => if removeLeaves then (valueKeys map (2 ^ s * p) (2 ^ s)).map map else []
  | j + 1, p => (List.range (2 ^ s)).flatMap fun i =>
    match nodes j (p * 2 ^ s + i) with
    | none => []
    | some b => deleteCalls removeLeaves map s nodes j (p * 2 ^ s + i) ++ [BitVec.ofNat 64 b]

/-- Only what is in `calls` was freed of `h`. -/
structure FreedOf (h : Heap (BitVec 64)) (st : FreeLog) : Prop where
  cell : st.heap.cell = h.cell
  len : ∀ q, (∀ c ∈ st.calls, c.toNat ≠ q) → st.heap.len q = h.len q

theorem FreedOf.memFree {st : FreeLog} (hf : FreedOf h st) (addr : BitVec 64) :
    FreedOf h (st.memFree addr) := by
  refine ⟨hf.cell, fun q hq => ?_⟩
  have hne : q ≠ addr.toNat := fun e => hq addr (List.mem_append_right _ List.mem_cons_self) e.symm
  exact (Heap.len_drop_of_ne _ hne).trans (hf.len q fun c hc => hq c (List.mem_append_left _ hc))

/-- The loop over the slots, if each slot frees what it should. -/
theorem forSlots_delete {visit : BitVec 64 → FreeLog → Except (Fault Panic) FreeLog}
    {addr len : ℕ} {calls : ℕ → List (BitVec 64)} (hlen : h.len addr = len)
    (hvisit : ∀ i < len, ∀ st, FreedOf h st → (st.calls ++ calls i).Nodup →
      ∃ st', visitSlot visit (h.cell addr i) st = .ok st' ∧ FreedOf h st' ∧
        st'.calls = st.calls ++ calls i) :
    ∀ (n i : ℕ) (st : FreeLog), i + n ≤ len → FreedOf h st →
      (st.calls ++ (List.range' i n).flatMap calls ++ [BitVec.ofNat 64 addr]).Nodup →
      addr < 2 ^ 64 →
      ∃ st', forSlots FreeLog.heap visit addr n i st = .ok st' ∧ FreedOf h st' ∧
        st'.calls = st.calls ++ (List.range' i n).flatMap calls
  | 0, i, st, _, hf, _, _ => ⟨st, rfl, hf, (List.append_nil _).symm⟩
  | n + 1, i, st, hle, hf, hnodup, hlt => by
    rw [List.range'_succ, List.flatMap_cons, ← List.append_assoc] at hnodup
    -- the node itself is freed later
    have hlive : st.heap.len addr = h.len addr := hf.len addr fun c hc he => by
      have hmem : BitVec.ofNat 64 addr ∈ st.calls := by
        rw [← he, BitVec.ofNat_toNat, BitVec.setWidth_eq]
        exact hc
      refine (List.nodup_append.mp hnodup).2.2 _ ?_ _ (List.mem_singleton_self _) rfl
      exact List.mem_append_left _ (List.mem_append_left _ hmem)
    obtain ⟨st₁, hrun₁, hf₁, hcalls₁⟩ := hvisit i (by omega) st hf
      (((List.nodup_append.mp hnodup).1).sublist (List.sublist_append_left _ _))
    rw [← hcalls₁] at hnodup
    obtain ⟨st₂, hrun₂, hf₂, hcalls₂⟩ := forSlots_delete hlen hvisit n (i + 1) st₁ (by omega) hf₁
      hnodup hlt
    refine ⟨st₂, ?_, hf₂, ?_⟩
    · rw [forSlots, Heap.load_eq_ok (by omega), ok_bind, hf.cell, hrun₁, ok_bind, hrun₂]
    · rw [hcalls₂, hcalls₁, List.range'_succ, List.flatMap_cons, List.append_assoc]

/-- What is freed below a node. -/
theorem RadixTree.delete (ht : RadixTree h s top nodes) (removeLeaves : Bool) :
    ∀ {j p a : ℕ} {st : FreeLog}, nodes j p = some a → FreedOf h st →
      (st.calls ++ deleteCalls removeLeaves (radixValue h s nodes) s nodes j p ++
        [BitVec.ofNat 64 a]).Nodup →
      ∃ st', radixDelete removeLeaves s (j + 1) a st = .ok st' ∧ FreedOf h st' ∧
        st'.calls = st.calls ++ deleteCalls removeLeaves (radixValue h s nodes) s nodes j p
  | 0, p, a, st, ha, hf, hnodup => by
    cases removeLeaves with
    | false => exact ⟨st, rfl, hf, (List.append_nil _).symm⟩
    | true =>
      have hcalls : deleteCalls true (radixValue h s nodes) s nodes 0 p =
          (List.range' 0 (2 ^ s)).flatMap fun i =>
            (valueKeys (radixValue h s nodes) (2 ^ s * p + i) 1).map (radixValue h s nodes) := by
        rw [deleteCalls, if_pos rfl, ← Nat.add_zero (2 ^ s * p), valueKeys_flatMap,
          List.map_flatMap]
        rfl
      rw [hcalls] at hnodup ⊢
      refine forSlots_delete (ht.len ha) (fun i hi st' hf' hn => ?_) (2 ^ s) 0 st
        (Nat.zero_add _).le hf hnodup (ht.lt ha)
      have hval := value_leaf (h := h) ha hi
      rw [visitSlot, valueKeys_one, hval]
      split_ifs
      · refine ⟨_, rfl, hf'.memFree _, ?_⟩
        rw [List.map_singleton, hval]
        rfl
      · exact ⟨st', rfl, hf', (List.append_nil _).symm⟩
  | j + 1, p, a, st, ha, hf, hnodup => by
    rw [deleteCalls, List.range_eq_range'] at hnodup ⊢
    refine forSlots_delete (ht.len ha) (fun i hi st' hf' hn => ?_) (2 ^ s) 0 st
      (Nat.zero_add _).le hf hnodup (ht.lt ha)
    rw [ht.child ha hi]
    cases hb : nodes j (p * 2 ^ s + i) with
    | none => exact ⟨st', if_neg (not_not.mpr rfl), hf', (List.append_nil _).symm⟩
    | some b =>
      rw [hb] at hn
      rw [← hb, visitSlot, if_pos (ht.nodeWord_ne_zero hb), ht.nodeWord_some hb]
      rw [← List.append_assoc] at hn
      obtain ⟨st₁, hrun, hf₁, hcalls⟩ := ht.delete removeLeaves hb hf' hn
      refine ⟨st₁.memFree (nodeWord (nodes j (p * 2 ^ s + i))), ?_, hf₁.memFree _, ?_⟩
      · rw [hrun]
        rfl
      · rw [hb, ← List.append_assoc, ← hcalls]
        rfl

/-- Node `p'` at height `j'` is below node `p` at height `j`, or is that node. -/
def SubNode (s j' p' j p : ℕ) : Prop :=
  j' ≤ j ∧ p' / 2 ^ (s * (j - j')) = p

theorem subNode_self (s j p : ℕ) : SubNode s j p j p := by
  refine ⟨le_rfl, ?_⟩
  rw [Nat.sub_self, Nat.mul_zero, pow_zero, Nat.div_one]

/-- A node below another is in the subtree of one of its slots. -/
theorem subNode_succ {j' p' j p : ℕ} (hj : j' ≤ j) :
    SubNode s j' p' (j + 1) p ↔ ∃ i < 2 ^ s, SubNode s j' p' j (p * 2 ^ s + i) := by
  have hdiv : p' / 2 ^ (s * (j + 1 - j')) = p' / 2 ^ (s * (j - j')) / 2 ^ s := by
    rw [Nat.div_div_eq_div_mul, ← pow_add, show j + 1 - j' = j - j' + 1 by omega, Nat.mul_succ]
  unfold SubNode
  rw [hdiv]
  constructor
  · rintro ⟨-, rfl⟩
    exact ⟨_, Nat.mod_lt _ (by positivity), hj, (Nat.div_add_mod' _ _).symm⟩
  · rintro ⟨i, hi, -, he⟩
    exact ⟨Nat.le_succ_of_le hj, by rw [he, child_div hi]⟩

/-- A node has its ancestors. -/
theorem RadixTree.subNode (ht : RadixTree h s top nodes) {j' p' b : ℕ}
    (hb : nodes j' p' = some b) : ∀ {j : ℕ}, j' ≤ j → j ≤ top →
      ∃ p a, nodes j p = some a ∧ SubNode s j' p' j p := fun {j} hj htop => by
  induction j, hj using Nat.le_induction with
  | base => exact ⟨p', b, hb, subNode_self s j' p'⟩
  | succ j hj ih =>
    obtain ⟨p, a, ha, hsub⟩ := ih (Nat.le_of_succ_le htop)
    obtain ⟨c, hc⟩ := ht.parent ha htop
    refine ⟨p / 2 ^ s, c, hc, (subNode_succ hj).2 ⟨p % 2 ^ s, Nat.mod_lt _ (by positivity), ?_⟩⟩
    rwa [Nat.div_add_mod']

/-- What is freed for the subtree of a node : a node in it, or a value. -/
def FreedIn (map : ℕ → BitVec 64) (s : ℕ) (nodes : ℕ → ℕ → Option ℕ) (removeLeaves : Bool)
    (n j p : ℕ) (c : BitVec 64) : Prop :=
  (∃ j' p' b, j' < n ∧ nodes j' p' = some b ∧ SubNode s j' p' j p ∧ c = BitVec.ofNat 64 b) ∨
    removeLeaves = true ∧ ∃ k, radixPre k j s = p ∧ map k ≠ 0 ∧ map k = c

theorem subNode_unique {j' p' j p q : ℕ} (h1 : SubNode s j' p' j p) (h2 : SubNode s j' p' j q) :
    p = q :=
  h1.2.symm.trans h2.2

theorem radixPre_succ {k j p : ℕ} :
    radixPre k (j + 1) s = p ↔ ∃ i < 2 ^ s, radixPre k j s = p * 2 ^ s + i := by
  constructor
  · rintro rfl
    exact ⟨_, radixIdx_lt _ _ _, radixPre_eq _ _ _⟩
  · rintro ⟨i, hi, he⟩
    rw [← radixPre_div, he, child_div hi]

/-- What is freed below a node is what is freed for its slots. -/
theorem freedIn_succ {map : ℕ → BitVec 64} {removeLeaves : Bool} {j p : ℕ} {c : BitVec 64} :
    FreedIn map s nodes removeLeaves (j + 1) (j + 1) p c ↔
      ∃ i < 2 ^ s, FreedIn map s nodes removeLeaves (j + 1) j (p * 2 ^ s + i) c := by
  constructor
  · rintro (⟨j', p', b, hlt, hb, hsub, hc⟩ | ⟨hr, k, hk, hne, hc⟩)
    · obtain ⟨i, hi, hsub⟩ := (subNode_succ (Nat.le_of_lt_succ hlt)).1 hsub
      exact ⟨i, hi, Or.inl ⟨j', p', b, hlt, hb, hsub, hc⟩⟩
    · obtain ⟨i, hi, hk⟩ := radixPre_succ.1 hk
      exact ⟨i, hi, Or.inr ⟨hr, k, hk, hne, hc⟩⟩
  · rintro ⟨i, hi, ⟨j', p', b, hlt, hb, hsub, hc⟩ | ⟨hr, k, hk, hne, hc⟩⟩
    · exact Or.inl ⟨j', p', b, hlt, hb, (subNode_succ hsub.1).2 ⟨i, hi, hsub⟩, hc⟩
    · exact Or.inr ⟨hr, k, radixPre_succ.2 ⟨i, hi, hk⟩, hne, hc⟩

/-- Nothing is freed for an empty slot. -/
theorem RadixTree.not_freedIn (ht : RadixTree h s top nodes) {removeLeaves : Bool} {j q : ℕ}
    (hj : j ≤ top) (hq : nodes j q = none) (n : ℕ) (c : BitVec 64) :
    ¬FreedIn (radixValue h s nodes) s nodes removeLeaves n j q c := by
  rintro (⟨j', p', b, -, hb, hsub, -⟩ | ⟨-, k, hk, hne, -⟩)
  · obtain ⟨p, a, ha, hsub'⟩ := ht.subNode hb hsub.1 hj
    rw [subNode_unique hsub hsub', ha] at hq
    cases hq
  · exact hne (ht.value_eq_zero hj (hk.symm ▸ hq))

/-- The node in a slot is freed with what is below it. -/
theorem freedIn_self {map : ℕ → BitVec 64} {removeLeaves : Bool} {j q b : ℕ} {c : BitVec 64}
    (hb : nodes j q = some b) : FreedIn map s nodes removeLeaves (j + 1) j q c ↔
      FreedIn map s nodes removeLeaves j j q c ∨ c = BitVec.ofNat 64 b := by
  constructor
  · rintro (⟨j', p', b', hlt, hb', hsub, hc⟩ | hval)
    · rcases Nat.lt_succ_iff_lt_or_eq.mp hlt with hlt | rfl
      · exact Or.inl (Or.inl ⟨j', p', b', hlt, hb', hsub, hc⟩)
      · right
        rw [← subNode_unique (subNode_self s j' p') hsub, hb'] at hb
        cases hb
        exact hc
    · exact Or.inl (Or.inr hval)
  · rintro ((⟨j', p', b', hlt, hrest⟩ | hval) | hc)
    · exact Or.inl ⟨j', p', b', hlt.trans (Nat.lt_succ_self j), hrest⟩
    · exact Or.inr hval
    · exact Or.inl ⟨j, q, b, Nat.lt_succ_self j, hb, subNode_self s j q, hc⟩

theorem RadixTree.mem_deleteCalls (ht : RadixTree h s top nodes) {removeLeaves : Bool}
    {c : BitVec 64} : ∀ {j p : ℕ}, j ≤ top →
      (c ∈ deleteCalls removeLeaves (radixValue h s nodes) s nodes j p ↔
        FreedIn (radixValue h s nodes) s nodes removeLeaves j j p c)
  | 0, p, _ => by
    have hkey : ∀ k, (2 ^ s * p ≤ k ∧ k < 2 ^ s * p + 2 ^ s) ↔ radixPre k 0 s = p := fun k => by
      rw [radixPre, Nat.zero_add, Nat.one_mul, Nat.div_eq_iff (by positivity), Nat.mul_comm]
      have : 0 < 2 ^ s := by positivity
      omega
    unfold FreedIn
    rw [deleteCalls]
    cases removeLeaves with
    | false => simp
    | true =>
      simp only [if_true, List.mem_map, mem_valueKeys, hkey]
      constructor
      · rintro ⟨k, ⟨hk, hne⟩, hc⟩
        exact Or.inr ⟨trivial, k, hk, hne, hc⟩
      · rintro (⟨j', _, _, hlt, -⟩ | ⟨-, k, hk, hne, hc⟩)
        · exact absurd hlt (Nat.not_lt_zero j')
        · exact ⟨k, ⟨hk, hne⟩, hc⟩
  | j + 1, p, hj => by
    rw [deleteCalls, List.mem_flatMap, freedIn_succ]
    refine exists_congr fun i => ?_
    rw [List.mem_range]
    refine and_congr_right fun _ => ?_
    cases hb : nodes j (p * 2 ^ s + i) with
    | none => simp [ht.not_freedIn (Nat.le_of_succ_le hj) hb]
    | some b =>
      simp only [List.mem_append, List.mem_singleton]
      rw [ht.mem_deleteCalls (Nat.le_of_succ_le hj), freedIn_self hb]

/-- The values are different from each other and from the nodes. -/
structure ValuesApart (map : ℕ → BitVec 64) (nodes : ℕ → ℕ → Option ℕ) : Prop where
  inj : ∀ {k k'}, map k ≠ 0 → map k = map k' → k = k'
  notNode : ∀ {k j p b}, map k ≠ 0 → nodes j p = some b → map k ≠ BitVec.ofNat 64 b

theorem RadixTree.ofNat_inj (ht : RadixTree h s top nodes) {j p j' p' a b : ℕ}
    (ha : nodes j p = some a) (hb : nodes j' p' = some b)
    (he : BitVec.ofNat 64 a = BitVec.ofNat 64 b) : j = j' ∧ p = p' := by
  have hab : a = b := by
    rw [← Nat.mod_eq_of_lt (ht.lt ha), ← Nat.mod_eq_of_lt (ht.lt hb), ← BitVec.toNat_ofNat,
      ← BitVec.toNat_ofNat, he]
  exact ht.inj ha (hab ▸ hb)

/-- What is freed is in the subtree of one node at each height. -/
theorem RadixTree.freedIn_unique (ht : RadixTree h s top nodes) {map : ℕ → BitVec 64}
    (hmap : ValuesApart map nodes) {removeLeaves : Bool} {n j p q : ℕ} {c : BitVec 64}
    (hp : FreedIn map s nodes removeLeaves n j p c)
    (hq : FreedIn map s nodes removeLeaves n j q c) : p = q := by
  rcases hp with ⟨j₁, p₁, b₁, -, hb₁, hsub₁, hc₁⟩ | ⟨-, k₁, hk₁, hne₁, hc₁⟩ <;>
    rcases hq with ⟨j₂, p₂, b₂, -, hb₂, hsub₂, hc₂⟩ | ⟨-, k₂, hk₂, hne₂, hc₂⟩
  · obtain ⟨rfl, rfl⟩ := ht.ofNat_inj hb₁ hb₂ (hc₁.symm.trans hc₂)
    exact subNode_unique hsub₁ hsub₂
  · exact absurd (hc₂.trans hc₁) (hmap.notNode hne₂ hb₁)
  · exact absurd (hc₁.trans hc₂) (hmap.notNode hne₁ hb₂)
  · rw [← hk₁, ← hk₂, hmap.inj hne₁ (hc₁.trans hc₂.symm)]

/-- A node is not in the subtree of a node at its height or lower. -/
theorem RadixTree.not_freedIn_self (ht : RadixTree h s top nodes)
    (hmap : ValuesApart (radixValue h s nodes) nodes) {removeLeaves : Bool} {n j p q a : ℕ}
    (ha : nodes n p = some a) : ¬FreedIn (radixValue h s nodes) s nodes removeLeaves n j q
      (BitVec.ofNat 64 a) := by
  rintro (⟨j', p', b, hlt, hb, -, hc⟩ | ⟨-, k, -, hne, hc⟩)
  · exact hlt.ne (ht.ofNat_inj ha hb hc).1.symm
  · exact hmap.notNode hne ha hc

/-- No value is freed twice. -/
theorem nodup_values {map : ℕ → BitVec 64} (hmap : ValuesApart map nodes) (lo n : ℕ) :
    ((valueKeys map lo n).map map).Nodup := by
  refine List.Nodup.map_on (fun k hk k' _ he => ?_) ((pairwise_valueKeys map lo n).imp ?_)
  · exact hmap.inj (mem_valueKeys.1 hk).2 he
  · exact fun hlt => hlt.ne

/-- Nothing is freed twice below a node. -/
theorem RadixTree.nodup_deleteCalls (ht : RadixTree h s top nodes)
    (hmap : ValuesApart (radixValue h s nodes) nodes) (removeLeaves : Bool) :
    ∀ {j p : ℕ}, j ≤ top →
      (deleteCalls removeLeaves (radixValue h s nodes) s nodes j p).Nodup
  | 0, p, _ => by
    rw [deleteCalls]
    split_ifs
    · exact nodup_values hmap _ _
    · exact List.nodup_nil
  | j + 1, p, hj => by
    have hj' : j ≤ top := Nat.le_of_succ_le hj
    rw [deleteCalls, List.nodup_flatMap]
    refine ⟨fun i _ => ?_, ?_⟩
    · cases hb : nodes j (p * 2 ^ s + i) with
      | none => exact List.nodup_nil
      | some b =>
        refine List.nodup_append.2 ⟨ht.nodup_deleteCalls hmap removeLeaves hj',
          List.nodup_singleton _, fun c hc c' hc' he => ?_⟩
        rw [he, List.mem_singleton.1 hc', ht.mem_deleteCalls hj'] at hc
        exact ht.not_freedIn_self hmap hb hc
    · -- what two slots free is in different subtrees
      have hslot : ∀ i c, c ∈ (match nodes j (p * 2 ^ s + i) with
          | none => []
          | some b => deleteCalls removeLeaves (radixValue h s nodes) s nodes j (p * 2 ^ s + i) ++
              [BitVec.ofNat 64 b]) →
          FreedIn (radixValue h s nodes) s nodes removeLeaves (j + 1) j (p * 2 ^ s + i) c := by
        intro i c hc
        cases hb : nodes j (p * 2 ^ s + i) with
        | none =>
          rw [hb] at hc
          exact absurd hc List.not_mem_nil
        | some b =>
          rw [hb] at hc
          simp only [List.mem_append, List.mem_singleton] at hc
          rwa [freedIn_self hb, ← ht.mem_deleteCalls hj']
      refine List.nodup_range.imp fun {i i'} hne c hc hc' => hne ?_
      exact Nat.add_left_cancel (ht.freedIn_unique hmap (hslot i c hc) (hslot i' c hc'))

/-- Node `a` is below node `addr` of a tree with `depth` levels from `addr` on. -/
inductive NodeBelow (h : Heap (BitVec 64)) (s : ℕ) : ℕ → ℕ → ℕ → Prop
  | child {depth addr i : ℕ} : i < 2 ^ s → h.cell addr i ≠ 0 →
      NodeBelow h s (depth + 2) addr (h.cell addr i).toNat
  | deeper {depth addr i a : ℕ} : i < 2 ^ s → h.cell addr i ≠ 0 →
      NodeBelow h s (depth + 1) (h.cell addr i).toNat a → NodeBelow h s (depth + 2) addr a

/-- The node in a slot. -/
theorem RadixTree.nodeBelow_succ (ht : RadixTree h s top nodes) {j p a b : ℕ}
    (ha : nodes (j + 1) p = some a) : NodeBelow h s (j + 2) a b ↔
      ∃ i < 2 ^ s, ∃ c, nodes j (p * 2 ^ s + i) = some c ∧ (b = c ∨ NodeBelow h s (j + 1) c b) := by
  have hcell : ∀ i < 2 ^ s, h.cell a i ≠ 0 →
      ∃ c, nodes j (p * 2 ^ s + i) = some c ∧ (h.cell a i).toNat = c := by
    intro i hi hne
    rw [ht.child ha hi] at hne ⊢
    cases hb : nodes j (p * 2 ^ s + i) with
    | none =>
      rw [hb] at hne
      exact absurd rfl hne
    | some c => exact ⟨c, rfl, hb ▸ ht.nodeWord_some hb⟩
  constructor
  · rintro (⟨hi, hne⟩ | ⟨hi, hne, hbelow⟩)
    · obtain ⟨c, hc, he⟩ := hcell _ hi hne
      exact ⟨_, hi, c, hc, Or.inl he⟩
    · obtain ⟨c, hc, he⟩ := hcell _ hi hne
      exact ⟨_, hi, c, hc, Or.inr (he ▸ hbelow)⟩
  · rintro ⟨i, hi, c, hc, hb⟩
    have hword := ht.child ha hi
    have hne : h.cell a i ≠ 0 := hword ▸ ht.nodeWord_ne_zero hc
    have hnat : (h.cell a i).toNat = c := hword ▸ ht.nodeWord_some hc
    rcases hb with rfl | hb
    · exact hnat ▸ NodeBelow.child hi hne
    · exact NodeBelow.deeper hi hne (hnat.symm ▸ hb)

/-- The nodes below a node are those of its subtree. -/
theorem RadixTree.nodeBelow_iff (ht : RadixTree h s top nodes) {b : ℕ} : ∀ {j p a : ℕ},
    nodes j p = some a → (NodeBelow h s (j + 1) a b ↔
      ∃ j' p', j' < j ∧ nodes j' p' = some b ∧ SubNode s j' p' j p)
  | 0, p, a, _ => by
    constructor
    · intro hb
      cases hb
    · rintro ⟨j', _, hlt, -⟩
      exact absurd hlt (Nat.not_lt_zero j')
  | j + 1, p, a, ha => by
    rw [ht.nodeBelow_succ ha]
    constructor
    · rintro ⟨i, hi, c, hc, rfl | hb⟩
      · exact ⟨j, _, Nat.lt_succ_self j, hc, (subNode_succ le_rfl).2 ⟨i, hi, subNode_self s j _⟩⟩
      · obtain ⟨j', p', hlt, hb, hsub⟩ := (ht.nodeBelow_iff hc).1 hb
        exact ⟨j', p', hlt.trans (Nat.lt_succ_self j), hb, (subNode_succ hlt.le).2 ⟨i, hi, hsub⟩⟩
    · rintro ⟨j', p', hlt, hb, hsub⟩
      obtain ⟨i, hi, hsub⟩ := (subNode_succ (Nat.le_of_lt_succ hlt)).1 hsub
      have htop : j ≤ top := Nat.le_of_succ_le (ht.le_top ha)
      obtain ⟨q, c, hc, hsub'⟩ := ht.subNode hb (Nat.le_of_lt_succ hlt) htop
      obtain rfl := subNode_unique hsub hsub'
      refine ⟨i, hi, c, hc, ?_⟩
      rcases Nat.lt_succ_iff_lt_or_eq.mp hlt with hlt' | rfl
      · exact Or.inr ((ht.nodeBelow_iff hc).2 ⟨j', p', hlt', hb, hsub⟩)
      · left
        rw [← subNode_unique (subNode_self s j' p') hsub, hb] at hc
        exact Option.some.inj hc

end Delete

section DeleteRuns

variable {s root depth : ℕ} {nodeSrc : NodeSource s} {st : RadixState}

/-- In every run, if the values are different from each other and from the nodes, `radix_delete`
frees each node below the root once, and each value once if it is told to, and nothing else. -/
theorem radixDelete_calls (hd : 1 ≤ depth)
    (h : Reach (RadixInit nodeSrc root) (RadixStep nodeSrc root depth) st)
    (hinj : ∀ k k', st.map k ≠ 0 → st.map k = st.map k' → k = k')
    (hleaf : ∀ k, st.map k ≠ 0 →
      (st.map k).toNat ≠ root ∧ ¬NodeBelow st.heap s depth root (st.map k).toNat)
    (removeLeaves : Bool) :
    ∃ st', radixDelete removeLeaves s depth root ⟨st.heap, []⟩ = .ok st' ∧ st'.calls.Nodup ∧
      ∀ c, c ∈ st'.calls ↔ NodeBelow st.heap s depth root c.toNat ∨
        removeLeaves = true ∧ c ≠ 0 ∧ ∃ k < 2 ^ (s * depth), st.map k = c := by
  obtain ⟨top, rfl⟩ := Nat.exists_eq_add_of_le' hd
  obtain ⟨nodes, ht, hroot, hval⟩ := RadixHolds.reach h
  rw [← hval] at hinj hleaf ⊢
  have hpre : ∀ k, radixPre k top s = 0 ↔ k < 2 ^ (s * (top + 1)) := fun k => by
    rw [radixPre, Nat.div_eq_zero_iff_lt (by positivity), Nat.mul_comm]
  have hsub : ∀ {j p b}, nodes j p = some b → SubNode s j p top 0 := fun hb => by
    obtain ⟨q, a, ha, hsub⟩ := ht.subNode hb (ht.le_top hb) le_rfl
    exact ht.top_eq ha ▸ hsub
  have hmap : ValuesApart (radixValue st.heap s nodes) nodes := by
    refine ⟨hinj _ _, fun {k j p b} hne hb he => ?_⟩
    have hnat : (radixValue st.heap s nodes k).toNat = b := by
      rw [he, BitVec.toNat_ofNat, Nat.mod_eq_of_lt (ht.lt hb)]
    rcases Nat.lt_or_eq_of_le (ht.le_top hb) with hlt | rfl
    · exact (hleaf k hne).2 ((ht.nodeBelow_iff hroot).2 ⟨j, p, hlt, hnat.symm ▸ hb, hsub hb⟩)
    · obtain rfl := ht.top_eq hb
      rw [hroot, Option.some.injEq] at hb
      exact (hleaf k hne).1 (hnat.trans hb.symm)
  have hnodup := List.nodup_append.2 ⟨ht.nodup_deleteCalls hmap removeLeaves (p := 0) le_rfl,
    List.nodup_singleton (BitVec.ofNat 64 root), fun c hc c' hc' he => by
      rw [he, List.mem_singleton.1 hc', ht.mem_deleteCalls le_rfl] at hc
      exact ht.not_freedIn_self hmap hroot hc⟩
  obtain ⟨st', hrun, -, hcalls⟩ := @RadixTree.delete _ _ _ _ ht removeLeaves _ _ _ ⟨st.heap, []⟩
    hroot ⟨rfl, fun _ _ => rfl⟩ hnodup
  refine ⟨st', hrun, ?_, fun c => ?_⟩
  · rw [hcalls]
    exact (List.nodup_append.mp hnodup).1
  · rw [hcalls, List.nil_append, ht.mem_deleteCalls le_rfl, ht.nodeBelow_iff hroot]
    refine or_congr ⟨?_, ?_⟩ (and_congr_right fun _ => ⟨?_, ?_⟩)
    · rintro ⟨j, p, b, hlt, hb, hsub', rfl⟩
      refine ⟨j, p, hlt, ?_, hsub'⟩
      rw [BitVec.toNat_ofNat, Nat.mod_eq_of_lt (ht.lt hb), hb]
    · rintro ⟨j, p, hlt, hb, hsub'⟩
      refine ⟨j, p, _, hlt, hb, hsub', ?_⟩
      rw [BitVec.ofNat_toNat, BitVec.setWidth_eq]
    · rintro ⟨k, hk, hne, rfl⟩
      exact ⟨hne, k, (hpre k).1 hk, rfl⟩
    · rintro ⟨hne, k, hk, rfl⟩
      exact ⟨k, (hpre k).2 hk, hne, rfl⟩

theorem radixDelete_calls_inserted : ∃ st : RadixState, st.map 0x12 = 0x5000 ∧
    ∃ st', radixDelete true 4 2 128 ⟨st.heap, []⟩ = .ok st' ∧ st'.calls.Nodup ∧
      ∀ c, c ∈ st'.calls ↔ NodeBelow st.heap 4 2 128 c.toNat ∨
        true = true ∧ c ≠ 0 ∧ ∃ k < 2 ^ (4 * 2), st.map k = c := by
  obtain ⟨⟨old, h⟩, hins⟩ : ∃ r, radixInsert bumpRadixNodes (Heap.push ⟨[], fun _ _ => 0⟩ 128 16)
      128 0x12 (0x5000#64).toNat 2 = .ok r := exists_eq_ok (by decide +kernel)
  have hstart : Reach (RadixInit bumpRadixNodes 128) (RadixStep bumpRadixNodes 128 2)
      ⟨Heap.push ⟨[], fun _ _ => 0⟩ 128 16, fun _ => 0⟩ :=
    Reach.start ⟨⟨⟨[], fun _ _ => 0⟩, rfl⟩, rfl⟩
  have hreach := hstart.next (RadixStep.insert (v := 0x5000) (by decide) hins)
  have hval : Function.update (fun _ => (0 : BitVec 64)) 0x12 0x5000 0x12 = 0x5000 :=
    Function.update_self _ _ _
  have hone : ∀ {k}, Function.update (fun _ => (0 : BitVec 64)) 0x12 0x5000 k ≠ 0 → k = 0x12 :=
    fun {k} hk => by
      by_contra hk'
      exact hk (Function.update_of_ne hk' _ _)
  change Reach _ _ (RadixState.mk h (Function.update (fun _ => 0) 0x12 0x5000)) at hreach
  generalize Function.update (fun _ => (0 : BitVec 64)) 0x12 0x5000 = map at hreach hval hone
  refine ⟨⟨h, map⟩, hval, radixDelete_calls (by decide) hreach ?_ ?_ true⟩
  · intro k k' hne he
    exact (hone hne).trans (hone fun h0 => hne (he.trans h0)).symm
  · have hslots : ((radixInsert bumpRadixNodes (Heap.push ⟨[], fun _ _ => 0⟩ 128 16) 128 0x12
        (0x5000#64).toNat 2).toOption.map fun r =>
          decide (∀ i < 2 ^ 4, (r.2.cell 128 i).toNat ≠ 0x5000)) = some true := by decide +kernel
    rw [hins] at hslots
    have hslots := of_decide_eq_true (Option.some.inj hslots)
    intro k hne
    obtain rfl := hone hne
    change (map 0x12).toNat ≠ 128 ∧ ¬NodeBelow h 4 2 128 (map 0x12).toNat
    rw [hval]
    refine ⟨by decide, fun hb => ?_⟩
    generalize ha : (0x5000 : BitVec 64).toNat = a at hb
    cases hb with
    | child hi => exact hslots _ hi ha.symm
    | deeper _ _ hb => cases hb

end DeleteRuns

end Toastium
