import Toastium.Dtb

/-!
# Slots of `node_stack` that were not written

`dtb_dump` sets three of the 16 slots of `node_stack` to NULL. The other ones hold what was on
the stack before, until a device or the end of a node is written to them.

The first device of a depth reads the slot of this depth. From depth 3 on it is only written
before if a node at this depth ended without one, so `dtbDump_stack_iff` : the dump of a
well-formed device tree does not depend on the contents of `node_stack` exactly if, on each level
from 2 on (the root is at level 0), the first node has no properties and no nodes in it.
`not_stack_deepDtb` is a device tree with a property at depth 3, which is linked to whatever the
slot points to.
-/

namespace Toastium

/-! ## The code -/

/-- `dtb_dump`, with the contents of `node_stack` at the start. -/
def dtbDumpFrom (stack : ℕ → ℕ) (fuel : ℕ) (dtb : ℕ → BitVec 8) (mem : ℕ → DeviceInfo)
    (outputLocation : ℕ) : Except (Fault Panic) DtbDump := do
  let structOffset := dtbReadInt dtb 8
  let stringsOffset := dtbReadInt dtb 12
  let structSize := dtbReadInt dtb 36
  if dtbReadInt dtb 0 ≠ 0xd00dfeed then .error (.panic .incorrectDtbMagicHeader)
  if dtbReadInt dtb 24 ≠ 16 then .error (.panic .incorrectDtbVersion)
  let st ← dtbLoop dtb stringsOffset fuel (u32 (structOffset + structSize)) fuel structOffset
    ⟨mem, outputLocation, fun d => if d < 3 then 0 else stack d, 0⟩
  if outputLocation = 0 then .error (.panic .invalidDeviceTreeDumpLocation)
  return ⟨st.mem, st.nodeStack 0, st.curLoc⟩

/-- With NULL in all slots it is the dump. -/
theorem dtbDumpFrom_zero (fuel : ℕ) (dtb : ℕ → BitVec 8) (mem : ℕ → DeviceInfo)
    (outputLocation : ℕ) :
    dtbDumpFrom (fun _ => 0) fuel dtb mem outputLocation = dtbDump fuel dtb mem outputLocation := by
  simp only [dtbDumpFrom, dtbDump, ite_self]

/-! ## The nodes of a level -/

namespace DtItems

/-- The items of each node of a level, in the order of their tokens. -/
def nodesAt : DtItems → ℕ → List DtItems
  | nil, _ => []
  | nop rest, k => rest.nodesAt k
  | prop _ _ _ rest, k => rest.nodesAt k
  | node _ _ items rest, 0 => items :: rest.nodesAt 0
  | node _ _ items rest, k + 1 => items.nodesAt k ++ rest.nodesAt (k + 1)

/-- The first node of level `k`, if there is one, has no properties and no nodes in it. -/
def FirstBlank (items : DtItems) (k : ℕ) : Prop :=
  ∀ first ∈ (items.nodesAt k).head?, first.Blank

/-- The number of slots that are written after the items, `t` if there are none. -/
def written : DtItems → ℕ → ℕ → ℕ
  | nil, _, t => t
  | nop rest, d, t => rest.written d t
  | prop _ _ _ rest, d, t => rest.written d t
  | node _ _ items rest, d, t => rest.written d (max (items.written (d + 1) t) (d + 2))

/-- The devices of the items at depth `d` read slots below `t`, and those that were written by
the items before them. -/
def Covered : DtItems → ℕ → ℕ → Prop
  | nil, _, _ => True
  | nop rest, d, t => rest.Covered d t
  | prop _ _ _ rest, d, t => d < t ∧ rest.Covered d t
  | node _ _ items rest, d, t =>
    d < t ∧ items.Covered (d + 1) t ∧ rest.Covered d (max (items.written (d + 1) t) (d + 2))

theorem nodesAt_eq_nil_iff : ∀ {items : DtItems} {k : ℕ}, items.nodesAt k = [] ↔ items.depth ≤ k
  | nil, k => by simp only [nodesAt, depth, Nat.zero_le]
  | nop rest, k => by
    rw [nodesAt, depth]
    exact nodesAt_eq_nil_iff
  | prop _ _ _ rest, k => by
    rw [nodesAt, depth]
    exact nodesAt_eq_nil_iff
  | node _ _ items rest, 0 => by
    rw [nodesAt, depth]
    simp only [reduceCtorEq, false_iff]
    omega
  | node _ _ items rest, k + 1 => by
    rw [nodesAt, depth, List.append_eq_nil_iff, nodesAt_eq_nil_iff, nodesAt_eq_nil_iff]
    omega

theorem firstBlank_of_depth_le {items : DtItems} {k : ℕ} (h : items.depth ≤ k) :
    items.FirstBlank k := by
  intro first hfirst
  rw [nodesAt_eq_nil_iff.2 h] at hfirst
  cases hfirst

section Node

variable {name pad : List (BitVec 8)} {items rest : DtItems} {k : ℕ}

theorem firstBlank_node_zero : (node name pad items rest).FirstBlank 0 ↔ items.Blank := by
  simp only [FirstBlank, nodesAt, List.head?_cons, Option.mem_some_iff, forall_eq']

theorem firstBlank_node_of_lt (h : k < items.depth) :
    (node name pad items rest).FirstBlank (k + 1) ↔ items.FirstBlank k := by
  have hne : items.nodesAt k ≠ [] := fun e => (nodesAt_eq_nil_iff.1 e).not_gt h
  rw [FirstBlank, nodesAt, List.head?_append_of_ne_nil _ hne]
  rfl

theorem firstBlank_node_of_le (h : items.depth ≤ k) :
    (node name pad items rest).FirstBlank (k + 1) ↔ rest.FirstBlank (k + 1) := by
  rw [FirstBlank, nodesAt, nodesAt_eq_nil_iff.2 h, List.nil_append]
  rfl

end Node

/-- The end of a node at depth `d + 1` writes the slot of this depth. -/
theorem written_eq : ∀ (items : DtItems) (d t : ℕ),
    items.written d t = max t (if items.depth = 0 then 0 else d + items.depth + 1)
  | nil, d, t => by simp only [written, depth, if_true, Nat.max_zero]
  | nop rest, d, t => rest.written_eq d t
  | prop _ _ _ rest, d, t => rest.written_eq d t
  | node _ _ items rest, d, t => by
    rw [written, rest.written_eq, items.written_eq, depth]
    split_ifs <;> omega

/-- Slots below `t` were written, and `d` is among them or next : the devices are covered exactly
if the first one at `d` is, and the first node of a level whose slot was not written is blank. -/
theorem covered_iff : ∀ (items : DtItems) {d t : ℕ}, d ≤ t →
    (items.Covered d t ↔
      (items.Blank ∨ d < t) ∧ ∀ k, t ≤ d + k + 1 → items.FirstBlank k)
  | nil, d, t, _ => by
    refine ⟨fun _ => ⟨.inl trivial, fun k _ => firstBlank_of_depth_le (Nat.zero_le k)⟩,
      fun _ => trivial⟩
  | nop rest, d, t, hd => by
    have ih := rest.covered_iff hd
    exact ih
  | prop _ _ _ rest, d, t, hd => by
    have ih := rest.covered_iff hd
    constructor
    · rintro ⟨hlt, hrest⟩
      exact ⟨.inr hlt, (ih.1 hrest).2⟩
    · rintro ⟨hblank, hfirst⟩
      have hlt : d < t := hblank.resolve_left id
      exact ⟨hlt, ih.2 ⟨.inr hlt, hfirst⟩⟩
  | node name pad items rest, d, t, hd => by
    have hwritten : d < max (items.written (d + 1) t) (d + 2) := by omega
    have hslots : ∀ k, max (items.written (d + 1) t) (d + 2) ≤ d + k + 1 ↔
        t ≤ d + k + 1 ∧ items.depth < k := fun k => by
      rw [items.written_eq]
      split_ifs <;> omega
    constructor
    · rintro ⟨hlt, hitems, hrest⟩
      obtain ⟨hblank, hfirst⟩ := (items.covered_iff hlt).1 hitems
      obtain ⟨-, hfirst'⟩ := (rest.covered_iff hwritten.le).1 hrest
      refine ⟨.inr hlt, fun k hk => ?_⟩
      cases k with
      | zero => exact firstBlank_node_zero.2 (hblank.resolve_right (by omega))
      | succ k =>
        rcases Nat.lt_or_ge k items.depth with hdepth | hdepth
        · exact (firstBlank_node_of_lt hdepth).2 (hfirst k (by omega))
        · exact (firstBlank_node_of_le hdepth).2
            (hfirst' _ ((hslots _).2 ⟨hk, Nat.lt_succ_of_le hdepth⟩))
    · rintro ⟨hblank, hfirst⟩
      have hlt : d < t := hblank.resolve_left id
      refine ⟨hlt, (items.covered_iff hlt).2 ⟨?_, fun k hk => ?_⟩,
        (rest.covered_iff hwritten.le).2 ⟨.inr hwritten, fun k hk => ?_⟩⟩
      · rcases Nat.eq_or_lt_of_le (Nat.succ_le_of_lt hlt) with he | hlt'
        · exact .inl (firstBlank_node_zero.1 (hfirst 0 (by omega)))
        · exact .inr hlt'
      · rcases Nat.lt_or_ge k items.depth with hdepth | hdepth
        · exact (firstBlank_node_of_lt hdepth).1 (hfirst (k + 1) (by omega))
        · exact firstBlank_of_depth_le hdepth
      · obtain ⟨hk, hdepth⟩ := (hslots k).1 hk
        obtain ⟨j, rfl⟩ := Nat.exists_eq_succ_of_ne_zero (Nat.ne_zero_of_lt hdepth)
        exact (firstBlank_node_of_le (Nat.le_of_lt_succ hdepth)).1 (hfirst _ hk)

end DtItems

/-! ## Two runs -/

namespace DtbState

/-- `st'` is `st` except for the slots from `t` on, which hold `stack`. -/
structure Unset (stack : ℕ → ℕ) (t : ℕ) (st st' : DtbState) : Prop where
  mem : st'.mem = st.mem
  curLoc : st'.curLoc = st.curLoc
  nodeDepth : st'.nodeDepth = st.nodeDepth
  below : ∀ j < t, st'.nodeStack j = st.nodeStack j
  above : ∀ j, t ≤ j → st'.nodeStack j = stack j

section Unset

variable {stack : ℕ → ℕ} {stringsOffset t : ℕ} {st st' u : DtbState}
  {init : DeviceInfo → DeviceInfo}

/-- A device at a depth whose slot was written. -/
theorem Unset.prop (h : Unset stack t st st') (hd : st.nodeDepth < t)
    (hadd : st.run (.prop init) = .ok u) :
    ∃ u', st'.run (.prop init) = .ok u' ∧ Unset stack t u u' := by
  rw [DtbState.run] at hadd ⊢
  rw [addDevice_links] at hadd
  obtain ⟨m, hlinks, hadd⟩ := bind_eq_ok.mp hadd
  cases hadd
  have hlinks' : st'.links init (st'.nodeStack st'.nodeDepth)
      (st'.nodeStack (st'.nodeDepth - 1)) = .ok m := by
    rw [h.nodeDepth, h.below _ hd, h.below _ (by omega), links, h.mem, h.curLoc, h.nodeDepth]
    exact hlinks
  have hadd' := st'.addDevice_links init
  rw [hlinks', ok_bind] at hadd'
  refine ⟨_, hadd', rfl,
    congrArg (· + deviceInfoSize) h.curLoc, h.nodeDepth, fun j hj => ?_, fun j hj => ?_⟩
  · change Function.update st'.nodeStack st'.nodeDepth st'.curLoc j =
      Function.update st.nodeStack st.nodeDepth st.curLoc j
    rw [h.nodeDepth, h.curLoc]
    rcases eq_or_ne j st.nodeDepth with rfl | hne
    · rw [Function.update_self, Function.update_self]
    · rw [Function.update_of_ne hne, Function.update_of_ne hne, h.below j hj]
  · change Function.update st'.nodeStack st'.nodeDepth st'.curLoc j = _
    rw [h.nodeDepth, Function.update_of_ne (by omega), h.above j hj]

theorem Unset.enter (h : Unset stack t st st') (hd : st.nodeDepth < t)
    (hrun : st.run (.enter init) = .ok u) :
    ∃ u', st'.run (.enter init) = .ok u' ∧ Unset stack t u u' := by
  obtain ⟨v, hv, hrun⟩ := bind_eq_ok.mp hrun
  cases hrun
  obtain ⟨v', hv', h'⟩ := h.prop hd hv
  exact ⟨_, run_enter _ hv', h'.mem, h'.curLoc, congrArg Nat.succ h'.nodeDepth, h'.below, h'.above⟩

/-- The end of a node writes the slot of its items. -/
theorem Unset.leave (h : Unset stack t st st') (hd : st.nodeDepth ≤ t) :
    Unset stack (max t (st.nodeDepth + 1)) st.leave st'.leave := by
  refine ⟨h.mem, h.curLoc, congrArg Nat.pred h.nodeDepth, fun j hj => ?_, fun j hj => ?_⟩
  · change Function.update st'.nodeStack st'.nodeDepth 0 j =
      Function.update st.nodeStack st.nodeDepth 0 j
    rw [h.nodeDepth]
    rcases eq_or_ne j st.nodeDepth with rfl | hne
    · rw [Function.update_self, Function.update_self]
    · rw [Function.update_of_ne hne, Function.update_of_ne hne, h.below j (by omega)]
  · change Function.update st'.nodeStack st'.nodeDepth 0 j = _
    rw [h.nodeDepth, Function.update_of_ne (by omega), h.above j (by omega)]

/-- If the first run does a covered list of items, so does the second, and the runs still differ
in the slots that were not written only. -/
theorem Unset.items : ∀ (items : DtItems) {loc t : ℕ} {st st' u : DtbState},
    Unset stack t st st' → st.nodeDepth ≤ t → items.Covered st.nodeDepth t →
    (items.ops stringsOffset loc).foldlM run st = .ok u →
    ∃ u', (items.ops stringsOffset loc).foldlM run st' = .ok u' ∧
      Unset stack (items.written st.nodeDepth t) u u'
  | .nil, _, _, _, st', _, h, _, _, hrun => by
    cases hrun
    exact ⟨st', rfl, h⟩
  | .nop rest, _, _, _, _, _, h, hd, hcov, hrun => h.items rest hd hcov hrun
  | .prop _ _ _ rest, _, _, st, _, _, h, hd, ⟨hlt, hcov⟩, hrun => by
    obtain ⟨v, hv, hrun⟩ := bind_eq_ok.mp hrun
    obtain ⟨v', hv', h'⟩ := h.prop hlt hv
    rw [← run_prop_depth hv] at hd hcov
    obtain ⟨u', hu', hunset⟩ := h'.items rest hd hcov hrun
    rw [run_prop_depth hv] at hunset
    refine ⟨u', ?_, hunset⟩
    rw [DtItems.ops, List.foldlM_cons, hv', ok_bind, hu']
  | .node _ _ items rest, _, t, st, st', _, h, hd, ⟨hlt, hitems, hrest⟩, hrun => by
    obtain ⟨v, w, hv, hw, hw_depth, hleave, hrun⟩ := run_node_cases hrun
    have hv_depth := run_enter_depth hv
    have hwritten := items.written_eq (st.nodeDepth + 1) t
    obtain ⟨v', hv', h₁⟩ := h.enter hlt hv
    obtain ⟨w', hw', h₂⟩ := h₁.items items (by omega) (by rw [hv_depth]; exact hitems) hw
    rw [hv_depth] at h₂
    have h₃ := h₂.leave (by omega)
    rw [hw_depth] at h₃
    obtain ⟨u', hu', h₄⟩ := h₃.items rest (by omega) (by rw [hleave]; exact hrest) hrun
    rw [hleave] at h₄
    refine ⟨u', ?_, h₄⟩
    rw [run_node, hv', ok_bind, hw', ok_bind, run_leave (by rw [h₂.nodeDepth]; omega), ok_bind, hu']

end Unset

/-! ## A slot that was not written -/

/-- What every operation keeps holds after all of them. -/
theorem run_invariant {Inv : DtbState → Prop}
    (hstep : ∀ (op : DtbOp) (st u : DtbState), Inv st → st.run op = .ok u → Inv u) :
    ∀ {l : List DtbOp} {st u : DtbState}, Inv st → l.foldlM run st = .ok u → Inv u
  | [], _, _, hst, h => by
    cases h
    exact hst
  | op :: _, st, _, hst, h => by
    obtain ⟨v, hv, h⟩ := bind_eq_ok.mp h
    exact run_invariant hstep (hstep op st v hst hv) h

section Marked

variable {stringsOffset last parent p t : ℕ} {m : ℕ → DeviceInfo} {st st' u : DtbState}
  {init : DeviceInfo → DeviceInfo}

/-- `p` is a device that was made before, with a device after it. -/
structure Marked (p : ℕ) (st : DtbState) : Prop where
  pos : 0 < p
  lt : p < st.curLoc
  next : (st.mem p).nextSibling ≠ 0

/-- Of the devices before, only the last one of the depth is linked to a sibling. -/
theorem links_next (h : st.links init last parent = .ok m) (hp : p ≠ st.curLoc) :
    (m p).nextSibling =
      if p = last ∧ p ≠ 0 then st.curLoc else (st.mem p).nextSibling := by
  have hlink : ∀ q, linkSibling (Function.update st.mem st.curLoc (init (st.mem st.curLoc)))
      last st.curLoc q = if q = last ∧ q ≠ 0 then
        { Function.update st.mem st.curLoc (init (st.mem st.curLoc)) q with
          nextSibling := st.curLoc }
      else Function.update st.mem st.curLoc (init (st.mem st.curLoc)) q :=
    linkSibling_apply _ _ _
  have hmem : (linkSibling (Function.update st.mem st.curLoc (init (st.mem st.curLoc))) last
      st.curLoc p).nextSibling =
      if p = last ∧ p ≠ 0 then st.curLoc else (st.mem p).nextSibling := by
    rw [hlink, Function.update_of_ne hp]
    split_ifs <;> rfl
  unfold links at h
  dsimp only at h
  split_ifs at h with hd
  · rcases eq_or_ne parent 0 with rfl | hne
    · rw [linkParent, if_pos rfl] at h
      cases h
    · rw [linkParent_eq _ _ hne] at h
      cases h
      rw [← hmem]
      dsimp only
      split_ifs <;> rfl
  · cases h
    exact hmem

/-- The next device is linked to `p` if the slot of its depth holds `p`, and does not take away
a link. -/
theorem marked_of_prop (hpos : 0 < p) (hlt : p < st.curLoc)
    (h : st.nodeStack st.nodeDepth = p ∨ (st.mem p).nextSibling ≠ 0)
    (hrun : st.run (.prop init) = .ok u) : Marked p u := by
  rw [DtbState.run, addDevice_links] at hrun
  obtain ⟨m, hm, hrun⟩ := bind_eq_ok.mp hrun
  cases hrun
  refine ⟨hpos, Nat.lt_add_right _ hlt, ?_⟩
  change (m p).nextSibling ≠ 0
  rw [links_next hm hlt.ne]
  split_ifs with hlast
  · exact Nat.ne_zero_of_lt hlt
  · exact h.resolve_left fun e => hlast ⟨e.symm, hpos.ne'⟩

theorem marked_of_enter (hpos : 0 < p) (hlt : p < st.curLoc)
    (h : st.nodeStack st.nodeDepth = p ∨ (st.mem p).nextSibling ≠ 0)
    (hrun : st.run (.enter init) = .ok u) : Marked p u := by
  obtain ⟨v, hv, hrun⟩ := bind_eq_ok.mp hrun
  cases hrun
  obtain ⟨hpos, hlt, hnext⟩ := marked_of_prop hpos hlt h hv
  exact ⟨hpos, hlt, hnext⟩

theorem Marked.run (op : DtbOp) (st u : DtbState) (h : Marked p st) (hrun : st.run op = .ok u) :
    Marked p u := by
  cases op with
  | prop init => exact marked_of_prop h.pos h.lt (.inr h.next) hrun
  | enter init => exact marked_of_enter h.pos h.lt (.inr h.next) hrun
  | leave =>
    rw [DtbState.run] at hrun
    split_ifs at hrun
    cases hrun
    exact ⟨h.pos, h.lt, h.next⟩

theorem curLoc_lt_of_prop (hrun : st.run (.prop init) = .ok u) : st.curLoc < u.curLoc := by
  rw [DtbState.run, addDevice_links] at hrun
  obtain ⟨m, -, hrun⟩ := bind_eq_ok.mp hrun
  cases hrun
  exact Nat.lt_add_of_pos_right (by decide)

theorem curLoc_lt_of_enter (hrun : st.run (.enter init) = .ok u) : st.curLoc < u.curLoc := by
  obtain ⟨v, hv, hrun⟩ := bind_eq_ok.mp hrun
  cases hrun
  have hlt : st.curLoc < v.curLoc := curLoc_lt_of_prop (show st.run (.prop init) = .ok v from hv)
  exact hlt

theorem curLoc_le_of_run (op : DtbOp) (st u : DtbState) (h : p ≤ st.curLoc)
    (hrun : st.run op = .ok u) : p ≤ u.curLoc := by
  cases op with
  | prop init => exact h.trans (curLoc_lt_of_prop hrun).le
  | enter init => exact h.trans (curLoc_lt_of_enter hrun).le
  | leave =>
    rw [DtbState.run] at hrun
    split_ifs at hrun
    cases hrun
    exact h

/-- If the slots that were not written hold the device `p`, a list of items that is not covered
links a device to it. -/
theorem Unset.marks : ∀ (items : DtItems) {loc t : ℕ} {st st' u v : DtbState},
    Unset (fun _ => p) t st st' → st.nodeDepth ≤ t → ¬items.Covered st.nodeDepth t → 0 < p →
    p ≤ st.curLoc → (st.nodeDepth = t → p < st.curLoc) →
    (items.ops stringsOffset loc).foldlM DtbState.run st = .ok u →
    (items.ops stringsOffset loc).foldlM DtbState.run st' = .ok v → Marked p v
  | .nil, _, _, _, _, _, _, _, _, hcov, _, _, _, _, _ => absurd trivial hcov
  | .nop rest, _, _, _, _, _, _, h, hd, hcov, hpos, hle, hlt, hrun, hrun' =>
    h.marks rest hd hcov hpos hle hlt hrun hrun'
  | .prop _ _ _ rest, _, t, st, st', _, _, h, hd, hcov, hpos, hle, hlt, hrun, hrun' => by
    obtain ⟨w, hw, hrun⟩ := bind_eq_ok.mp hrun
    obtain ⟨w', hw', hrun'⟩ := bind_eq_ok.mp hrun'
    rcases Nat.eq_or_lt_of_le hd with he | hdt
    · have hslot : st'.nodeStack st'.nodeDepth = p := h.above _ (h.nodeDepth.trans he).ge
      have hmarked : Marked p w' :=
        marked_of_prop hpos (h.curLoc ▸ hlt he) (.inl hslot) hw'
      exact run_invariant Marked.run hmarked hrun'
    · obtain ⟨x, hx, h'⟩ := h.prop hdt hw
      cases hx.symm.trans hw'
      have hw_depth := run_prop_depth hw
      have hw_cur := curLoc_lt_of_prop hw
      refine h'.marks rest (by omega) (fun hrest => hcov ⟨hdt, ?_⟩) hpos (by omega)
        (fun _ => by omega) hrun hrun'
      rwa [hw_depth] at hrest
  | .node _ _ items rest, _, t, st, st', _, _, h, hd, hcov, hpos, hle, hlt, hrun, hrun' => by
    obtain ⟨w, x, hw, hx, hx_depth, hleave, hrun⟩ := run_node_cases hrun
    obtain ⟨w', x', hw', hx', -, -, hrun'⟩ := run_node_cases hrun'
    have hw_depth := run_enter_depth hw
    have hw_cur := curLoc_lt_of_enter hw
    have hx_cur : p + 1 ≤ x.curLoc := run_invariant curLoc_le_of_run (by omega) hx
    have hend : Marked p x' → Marked p x'.leave := fun hm => ⟨hm.pos, hm.lt, hm.next⟩
    have hwritten := items.written_eq (st.nodeDepth + 1) t
    rcases Nat.eq_or_lt_of_le hd with he | hdt
    · have hslot : st'.nodeStack st'.nodeDepth = p := h.above _ (h.nodeDepth.trans he).ge
      have hmarked : Marked p w' :=
        marked_of_enter hpos (h.curLoc ▸ hlt he) (.inl hslot) hw'
      exact run_invariant Marked.run (hend (run_invariant Marked.run hmarked hx')) hrun'
    · obtain ⟨y, hy, h₁⟩ := h.enter hdt hw
      cases hy.symm.trans hw'
      by_cases hitems : items.Covered (st.nodeDepth + 1) t
      · -- the items are linked to slots that were written, so it is a device after the node
        obtain ⟨z, hz, h₂⟩ := h₁.items items (by omega) (by rw [hw_depth]; exact hitems) hx
        cases hz.symm.trans hx'
        rw [hw_depth] at h₂
        have h₃ := h₂.leave (by omega)
        rw [hx_depth] at h₃
        refine h₃.marks rest (by omega) (fun hrest => hcov ⟨hdt, hitems, ?_⟩) hpos
          (Nat.le_of_succ_le hx_cur) (fun _ => hx_cur) hrun hrun'
        rwa [hleave] at hrest
      · have hmarked : Marked p x' := h₁.marks items (by omega) (by rw [hw_depth]; exact hitems)
          hpos (by omega) (fun _ => by omega) hx hx'
        exact run_invariant Marked.run (hend hmarked) hrun'

end Marked

end DtbState

/-! ## The dump -/

section Dump

variable {dtb : ℕ → BitVec 8} {items : DtItems} {stack : ℕ → ℕ} {mem : ℕ → DeviceInfo}
  {outputLocation fuel : ℕ}

theorem unset_init (stack : ℕ → ℕ) (mem : ℕ → DeviceInfo) (outputLocation : ℕ) :
    DtbState.Unset stack 3 ⟨mem, outputLocation, fun _ => 0, 0⟩
      ⟨mem, outputLocation, fun d => if d < 3 then 0 else stack d, 0⟩ :=
  ⟨rfl, rfl, rfl, fun _ hj => if_pos hj, fun _ hj => if_neg (Nat.not_lt.2 hj)⟩

theorem dtbDumpFrom_blob (hblob : DtBlob dtb items) (hout : 0 < outputLocation)
    (hfuel : dtbReadInt dtb 36 ≤ fuel) :
    dtbDumpFrom stack fuel dtb mem outputLocation =
      (items.ops (dtbReadInt dtb 12) (dtbReadInt dtb 8)).foldlM DtbState.run
        ⟨mem, outputLocation, fun d => if d < 3 then 0 else stack d, 0⟩ >>= fun st =>
          .ok ⟨st.mem, st.nodeStack 0, st.curLoc⟩ := by
  simp only [dtbDumpFrom, hblob.magic, hblob.version, hout.ne', ne_eq, not_true_eq_false, if_false,
    pure_eq_ok]
  rw [dtbLoop_blob hblob hfuel rfl]

/-- A dump that is linked to written slots only is the dump with NULL in the other ones. -/
theorem dtbDumpFrom_of_covered (hblob : DtBlob dtb items) (hout : 0 < outputLocation)
    (hfuel : dtbReadInt dtb 36 ≤ fuel) (hcov : items.Covered 0 3) :
    dtbDumpFrom stack fuel dtb mem outputLocation = dtbDump fuel dtb mem outputLocation := by
  obtain ⟨st, hrun, -⟩ := DtbState.run_items (dtbReadInt dtb 12) items (dtbReadInt dtb 8)
    (ready_init mem hout)
  obtain ⟨st', hrun', h⟩ :=
    (unset_init stack mem outputLocation).items items (Nat.zero_le 3) hcov hrun
  have hwritten := items.written_eq 0 3
  have hroot : st'.nodeStack 0 = st.nodeStack 0 := h.below 0 (by
    change 0 < items.written 0 3
    omega)
  rw [← dtbDumpFrom_zero, dtbDumpFrom_blob hblob hout hfuel, dtbDumpFrom_blob hblob hout hfuel,
    hrun', ok_bind, h.mem, hroot, h.curLoc]
  simp only [ite_self, hrun, ok_bind]

/-- The root has no sibling. -/
theorem DtItems.OneRoot.nextSibling {stringsOffset : ℕ} : ∀ {items : DtItems} {loc cur : ℕ},
    items.OneRoot → items.DumpedAt mem stringsOffset loc cur → (mem cur).nextSibling = 0
  | .nop rest, _, _, h, hdumped => by
    have h : rest.OneRoot := h
    exact h.nextSibling hdumped
  | .node _ _ items rest, _, cur, h, ⟨⟨_, _, _, hnext⟩, _, _⟩ => by
    have h : rest.Blank := h
    rw [hnext, DtItems.head, if_pos h.size_eq]

/-- If the other slots hold the root, a dump that is linked to one of them gives it a sibling. -/
theorem dtbDumpFrom_of_not_covered (hblob : DtBlob dtb items) (hout : 0 < outputLocation)
    (hfuel : dtbReadInt dtb 36 ≤ fuel) (hcov : ¬items.Covered 0 3) :
    dtbDumpFrom (fun _ => outputLocation) fuel dtb mem outputLocation ≠
      dtbDump fuel dtb mem outputLocation := by
  intro heq
  obtain ⟨r, hr, -, hdumped⟩ := dtbDump_dumped hblob mem hout hfuel
  obtain ⟨st, hrun, -⟩ := DtbState.run_items (dtbReadInt dtb 12) items (dtbReadInt dtb 8)
    (ready_init mem hout)
  rw [hr, dtbDumpFrom_blob hblob hout hfuel] at heq
  obtain ⟨v, hv, hr⟩ := bind_eq_ok.mp heq
  cases hr
  have hmarked := (unset_init _ mem outputLocation).marks items (Nat.zero_le 3) hcov hout le_rfl
    (fun h => absurd h (by change ¬0 = 3; decide)) hrun hv
  exact hmarked.next (hblob.oneRoot.nextSibling hdumped)

/-- The dump of a well-formed device tree does not depend on what `node_stack` holds at the start
exactly if the first node of each level from 2 on is blank. -/
theorem dtbDump_stack_iff (hblob : DtBlob dtb items) (mem : ℕ → DeviceInfo)
    (hout : 0 < outputLocation) (hfuel : dtbReadInt dtb 36 ≤ fuel) :
    (∀ stack stack' : ℕ → ℕ, dtbDumpFrom stack fuel dtb mem outputLocation =
      dtbDumpFrom stack' fuel dtb mem outputLocation) ↔ ∀ k, 2 ≤ k → items.FirstBlank k := by
  have hcovered : items.Covered 0 3 ↔ ∀ k, 2 ≤ k → items.FirstBlank k := by
    rw [items.covered_iff (Nat.zero_le 3)]
    constructor
    · rintro ⟨-, h⟩ k hk
      exact h k (by omega)
    · intro h
      exact ⟨.inr (by decide), fun k hk => h k (by omega)⟩
  rw [← hcovered]
  constructor
  · intro h
    by_contra hcov
    have heq := h (fun _ => outputLocation) fun _ => 0
    rw [dtbDumpFrom_zero] at heq
    exact dtbDumpFrom_of_not_covered hblob hout hfuel hcov heq
  · intro hcov stack stack'
    rw [dtbDumpFrom_of_covered hblob hout hfuel hcov, dtbDumpFrom_of_covered hblob hout hfuel hcov]

end Dump

theorem dtbDump_stack_sample :
    (∀ stack stack' : ℕ → ℕ,
      dtbDumpFrom stack 36 sampleDtb (fun _ => ⟨0, 0, 0, false, 0, 0⟩) 4096 =
        dtbDumpFrom stack' 36 sampleDtb (fun _ => ⟨0, 0, 0, false, 0, 0⟩) 4096) ↔
      ∀ k, 2 ≤ k → sampleItems.FirstBlank k :=
  dtbDump_stack_iff sampleDtb_blob _ (by decide) (by decide)

/-- Three nodes, each the only one in the one around it, and a property in the last. -/
def deepItems : DtItems :=
  .node [] [0, 0, 0] (.node [] [0, 0, 0] (.node [] [0, 0, 0] (.prop 0 [7] [0, 0, 0] .nil) .nil)
    .nil) .nil

/-- The device tree of `deepItems`. -/
def deepDtb (p : ℕ) : BitVec 8 :=
  ((wordBytes 0xd00dfeed ++ wordBytes 98 ++ wordBytes 40 ++ wordBytes 96 ++ wordBytes 0 ++
    wordBytes 17 ++ wordBytes 16 ++ wordBytes 0 ++ wordBytes 2 ++ wordBytes 56 ++
    deepItems.encode ++ wordBytes 9 ++ [112, 0]).getD p 0)

theorem deepDtb_blob : DtBlob deepDtb deepItems where
  magic := by decide
  version := by decide
  total_lt := by decide
  wf := by simp only [deepItems, DtItems.Wf]; decide
  oneRoot := trivial
  depth_le := by decide
  size := by decide
  fits := by decide
  bytes := by unfold BytesAt; decide

/-- With the root in the slot of depth 3, the property is linked to the root. -/
theorem not_stack_deepDtb : DtBlob deepDtb deepItems ∧
    dtbDumpFrom (fun _ => 4096) 56 deepDtb (fun _ => ⟨0, 0, 0, false, 0, 0⟩) 4096 ≠
      dtbDumpFrom (fun _ => 0) 56 deepDtb (fun _ => ⟨0, 0, 0, false, 0, 0⟩) 4096 := by
  refine ⟨deepDtb_blob, ?_⟩
  rw [dtbDumpFrom_zero]
  refine dtbDumpFrom_of_not_covered deepDtb_blob (by decide) (by decide) ?_
  simp only [deepItems, DtItems.Covered]
  omega

end Toastium
