import Toastium.Dtb
import Toastium.Strings

/-!
# Children of a device

`device_tree_prefix_get_child` of `dtb.c` returns, of the children of a device whose names start
with a prefix, number `iter_num`. A `DeviceTree` is a tree of devices with the list of the
children of each, and the function is an entry of a filtered list there
(`DeviceTree.prefixGetChild`). `dtbDump_deviceTree` : what `dtb_dump` leaves for a well-formed
device tree is one.
-/

namespace Toastium

/-! ## The code -/

section Code

variable (dtb : ℕ → BitVec 8) (mem : ℕ → DeviceInfo)

/-- `str_starts_with`, for a prefix without its zero. -/
def strStartsWith (str : ℕ) : List (BitVec 8) → Bool
  | [] => true
  | c :: pre => if c ≠ dtb str then false else strStartsWith (str + 1) pre

/-- The loop of `device_tree_prefix_get_child` from `curDevice` on, at most `fuel` times. -/
def prefixGetChildFrom (pre : List (BitVec 8)) (iterNum : ℕ) :
    ℕ → ℕ → ℕ → Except (Fault Panic) ℕ
  | 0, _, _ => .error .fuel
  | fuel + 1, curDevice, iterUpto =>
    if curDevice = 0 then .ok 0
    else if strStartsWith dtb (mem curDevice).name pre then
      if iterNum = iterUpto then .ok curDevice
      else prefixGetChildFrom pre iterNum fuel (mem curDevice).nextSibling (iterUpto + 1)
    else prefixGetChildFrom pre iterNum fuel (mem curDevice).nextSibling iterUpto

/-- `device_tree_prefix_get_child`. -/
def deviceTreePrefixGetChild (fuel device : ℕ) (pre : List (BitVec 8)) (iterNum : ℕ) :
    Except (Fault Panic) ℕ :=
  prefixGetChildFrom dtb mem pre iterNum fuel (mem device).firstChild 0

end Code

/-! ## Device trees -/

/-- The devices `l` are linked from `p` on, along `next_sibling`. -/
def Siblings (mem : ℕ → DeviceInfo) : List ℕ → ℕ → Prop
  | [], p => p = 0
  | d :: l, p => p = d ∧ d ≠ 0 ∧ Siblings mem l (mem d).nextSibling

/-- The devices of a tree, with the children of each. A device is the child of one device at
most, and properties have no children. -/
structure DeviceTree (mem : ℕ → DeviceInfo) (devices : List ℕ) (kids : ℕ → List ℕ) : Prop where
  siblings : ∀ d ∈ devices, Siblings mem (kids d) (mem d).firstChild
  mem_of_kid : ∀ d ∈ devices, ∀ c ∈ kids d, c ∈ devices
  nodup : ∀ d ∈ devices, (kids d).Nodup
  parent : ∀ d ∈ devices, ∀ d' ∈ devices, ∀ c ∈ kids d, c ∈ kids d' → d = d'
  leaf : ∀ d ∈ devices, (mem d).isLeaf = true → kids d = []

instance decidableSiblings (mem : ℕ → DeviceInfo) :
    ∀ (l : List ℕ) (p : ℕ), Decidable (Siblings mem l p)
  | [], p => inferInstanceAs (Decidable (p = 0))
  | d :: l, p =>
    have := decidableSiblings mem l (mem d).nextSibling
    inferInstanceAs (Decidable (p = d ∧ d ≠ 0 ∧ Siblings mem l (mem d).nextSibling))

/-- The devices of `l` whose names start with `pre`. -/
def startingWith (dtb : ℕ → BitVec 8) (mem : ℕ → DeviceInfo) (pre : List (BitVec 8))
    (l : List ℕ) : List ℕ :=
  l.filter fun d => strStartsWith dtb (mem d).name pre

section Children

variable {dtb : ℕ → BitVec 8} {mem : ℕ → DeviceInfo} {kids : ℕ → List ℕ} {devices : List ℕ}

/-- A prefix is read from the bytes of a name. -/
theorem strStartsWith_iff : ∀ {pre : List (BitVec 8)} {str : ℕ},
    strStartsWith dtb str pre = true ↔ BytesAt dtb str pre
  | [], str => by simp [strStartsWith, BytesAt]
  | c :: pre, str => by
    rw [strStartsWith, show c :: pre = [c] ++ pre from rfl, bytesAt_append]
    have hhead : BytesAt dtb str [c] ↔ dtb str = c := by simp [BytesAt]
    rw [hhead, List.length_singleton, ← strStartsWith_iff]
    split_ifs with h
    · simp only [false_iff, not_and]
      exact fun e => absurd e.symm h
    · rw [not_not] at h
      simp only [h, true_and]

theorem Siblings.ne_zero : ∀ {l : List ℕ} {p : ℕ}, Siblings mem l p → ∀ d ∈ l, d ≠ 0
  | d :: l, p, ⟨_, hd, hl⟩, c, hc => by
    rcases List.mem_cons.1 hc with rfl | hc
    · exact hd
    · exact hl.ne_zero c hc

/-- The children with the prefix are counted along the siblings. -/
theorem prefixGetChildFrom_eq {pre : List (BitVec 8)} {iterNum : ℕ} :
    ∀ {l : List ℕ} {fuel p upto : ℕ}, Siblings mem l p → l.length < fuel → upto ≤ iterNum →
      prefixGetChildFrom dtb mem pre iterNum fuel p upto =
        .ok ((startingWith dtb mem pre l)[iterNum - upto]?.getD 0)
  | [], fuel + 1, p, upto, hp, _, _ => by
    have hp : p = 0 := hp
    rw [prefixGetChildFrom, if_pos hp]
    rfl
  | d :: l, fuel + 1, p, upto, ⟨hpd, hne, hl⟩, hfuel, hupto => by
    subst hpd
    rw [List.length_cons] at hfuel
    rw [prefixGetChildFrom, if_neg hne, startingWith, List.filter_cons]
    split_ifs with hstr heq
    · rw [heq, Nat.sub_self, List.getElem?_cons_zero]
      rfl
    · rw [prefixGetChildFrom_eq hl (by omega) (by omega),
        show iterNum - upto = iterNum - (upto + 1) + 1 by omega, List.getElem?_cons_succ]
      rfl
    · exact prefixGetChildFrom_eq hl (by omega) hupto

/-- `device_tree_prefix_get_child` returns child number `i` of those with the prefix. -/
theorem DeviceTree.prefixGetChild (ht : DeviceTree mem devices kids) {fuel d : ℕ}
    (hd : d ∈ devices) (hfuel : (kids d).length < fuel) (pre : List (BitVec 8)) (i : ℕ) :
    deviceTreePrefixGetChild dtb mem fuel d pre i =
      .ok ((startingWith dtb mem pre (kids d))[i]?.getD 0) :=
  prefixGetChildFrom_eq (ht.siblings d hd) hfuel (Nat.zero_le i)

end Children

/-! ## The devices of a dump -/

namespace DtItems

/-- The devices of the items themselves, if they are dumped from `cur` on. -/
def tops : DtItems → ℕ → List ℕ
  | nil, _ => []
  | nop rest, cur => rest.tops cur
  | prop _ _ _ rest, cur => cur :: rest.tops (cur + 48)
  | node _ _ items rest, cur => cur :: rest.tops (cur + 48 * (1 + items.size))

/-- All devices of the items. -/
def devices : DtItems → ℕ → List ℕ
  | nil, _ => []
  | nop rest, cur => rest.devices cur
  | prop _ _ _ rest, cur => cur :: rest.devices (cur + 48)
  | node _ _ items rest, cur =>
    cur :: items.devices (cur + 48) ++ rest.devices (cur + 48 * (1 + items.size))

/-- The children of device `d`. -/
def kids : DtItems → ℕ → ℕ → List ℕ
  | nil, _, _ => []
  | nop rest, cur, d => rest.kids cur d
  | prop _ _ _ rest, cur, d => if d = cur then [] else rest.kids (cur + 48) d
  | node _ _ items rest, cur, d =>
    if d = cur then items.tops (cur + 48)
    else if d < cur + 48 * (1 + items.size) then items.kids (cur + 48) d
    else rest.kids (cur + 48 * (1 + items.size)) d

theorem le_of_mem_devices : ∀ (items : DtItems) {cur d : ℕ}, d ∈ items.devices cur →
    cur ≤ d ∧ d < cur + 48 * items.size
  | nop rest, cur, d, h => rest.le_of_mem_devices h
  | prop _ _ _ rest, cur, d, h => by
    rw [size]
    rcases List.mem_cons.1 h with rfl | h
    · omega
    · have := rest.le_of_mem_devices h
      omega
  | node _ _ items rest, cur, d, h => by
    rw [size]
    rcases List.mem_append.1 h with h | h
    · rcases List.mem_cons.1 h with rfl | h
      · omega
      · have := items.le_of_mem_devices h
        omega
    · have := rest.le_of_mem_devices h
      omega

theorem mem_devices_of_mem_tops : ∀ (items : DtItems) {cur d : ℕ}, d ∈ items.tops cur →
    d ∈ items.devices cur
  | nop rest, cur, d, h => rest.mem_devices_of_mem_tops h
  | prop _ _ _ rest, cur, d, h => by
    rcases List.mem_cons.1 h with rfl | h
    · exact List.mem_cons_self
    · exact List.mem_cons_of_mem _ (rest.mem_devices_of_mem_tops h)
  | node _ _ items rest, cur, d, h => by
    rcases List.mem_cons.1 h with rfl | h
    · exact List.mem_append_left _ List.mem_cons_self
    · exact List.mem_append_right _ (rest.mem_devices_of_mem_tops h)

theorem le_of_mem_tops (items : DtItems) {cur d : ℕ} (h : d ∈ items.tops cur) :
    cur ≤ d ∧ d < cur + 48 * items.size :=
  items.le_of_mem_devices (items.mem_devices_of_mem_tops h)

theorem nodup_tops : ∀ (items : DtItems) (cur : ℕ), (items.tops cur).Nodup
  | nil, _ => List.nodup_nil
  | nop rest, cur => rest.nodup_tops cur
  | prop _ _ _ rest, cur => by
    refine List.nodup_cons.2 ⟨fun h => ?_, rest.nodup_tops _⟩
    have := rest.le_of_mem_tops h
    omega
  | node _ _ items rest, cur => by
    refine List.nodup_cons.2 ⟨fun h => ?_, rest.nodup_tops _⟩
    have := rest.le_of_mem_tops h
    omega

/-- A child is a device of the items, after its parent, and none of the items themselves. -/
theorem kids_mem : ∀ (items : DtItems) {cur d c : ℕ}, c ∈ items.kids cur d →
    d ∈ items.devices cur ∧ c ∈ items.devices cur ∧ c ∉ items.tops cur
  | nop rest, cur, d, c, h => rest.kids_mem h
  | prop _ _ _ rest, cur, d, c, h => by
    rw [kids] at h
    split_ifs at h with hd
    · cases h
    · obtain ⟨h1, h2, h3⟩ := rest.kids_mem h
      have := rest.le_of_mem_devices h2
      refine ⟨List.mem_cons_of_mem _ h1, List.mem_cons_of_mem _ h2, ?_⟩
      rw [tops, List.mem_cons, not_or]
      exact ⟨by omega, h3⟩
  | node _ _ items rest, cur, d, c, h => by
    rw [kids] at h
    have hapart : ∀ {c}, c ∈ items.devices (cur + 48) →
        c ∉ cur :: rest.tops (cur + 48 * (1 + items.size)) := fun hc hc' => by
      have := items.le_of_mem_devices hc
      rcases List.mem_cons.1 hc' with rfl | hc'
      · omega
      · have := rest.le_of_mem_tops hc'
        omega
    split_ifs at h with hd hlt
    · have hc := items.mem_devices_of_mem_tops h
      exact ⟨hd ▸ List.mem_append_left _ List.mem_cons_self,
        List.mem_append_left _ (List.mem_cons_of_mem _ hc), hapart hc⟩
    · obtain ⟨h1, h2, -⟩ := items.kids_mem h
      exact ⟨List.mem_append_left _ (List.mem_cons_of_mem _ h1),
        List.mem_append_left _ (List.mem_cons_of_mem _ h2), hapart h2⟩
    · obtain ⟨h1, h2, h3⟩ := rest.kids_mem h
      have := rest.le_of_mem_devices h2
      refine ⟨List.mem_append_right _ h1, List.mem_append_right _ h2, ?_⟩
      rw [tops, List.mem_cons, not_or]
      exact ⟨by omega, h3⟩

theorem nodup_kids : ∀ (items : DtItems) (cur d : ℕ), (items.kids cur d).Nodup
  | nil, _, _ => List.nodup_nil
  | nop rest, cur, d => rest.nodup_kids cur d
  | prop _ _ _ rest, cur, d => by
    rw [kids]
    split_ifs
    · exact List.nodup_nil
    · exact rest.nodup_kids _ _
  | node _ _ items rest, cur, d => by
    rw [kids]
    split_ifs
    · exact items.nodup_tops _
    · exact items.nodup_kids _ _
    · exact rest.nodup_kids _ _

/-- A device is the child of one device at most. -/
theorem eq_of_mem_kids : ∀ (items : DtItems) {cur d d' c : ℕ}, c ∈ items.kids cur d →
    c ∈ items.kids cur d' → d = d'
  | nop rest, cur, d, d', c, h, h' => rest.eq_of_mem_kids h h'
  | prop _ _ _ rest, cur, d, d', c, h, h' => by
    rw [kids] at h h'
    split_ifs at h h' with hd hd' hd'
    · cases h
    · cases h
    · cases h'
    · exact rest.eq_of_mem_kids h h'
  | node _ _ items rest, cur, d, d', c, h, h' => by
    rw [kids] at h h'
    have hitems : ∀ {d}, c ∈ items.kids (cur + 48) d →
        c ∉ items.tops (cur + 48) ∧ c < cur + 48 * (1 + items.size) := fun hc => by
      have := items.le_of_mem_devices (items.kids_mem hc).2.1
      exact ⟨(items.kids_mem hc).2.2, by omega⟩
    have htops : c ∈ items.tops (cur + 48) → c < cur + 48 * (1 + items.size) := fun hc => by
      have := items.le_of_mem_tops hc
      omega
    have hrest : ∀ {d}, c ∈ rest.kids (cur + 48 * (1 + items.size)) d →
        cur + 48 * (1 + items.size) ≤ c := fun hc =>
      (rest.le_of_mem_devices (rest.kids_mem hc).2.1).1
    split_ifs at h h' with hd hd' hlt' hlt hd' hlt' hd' hlt'
    · rw [hd, hd']
    · exact absurd h (hitems h').1
    · exact absurd (htops h) (hrest h').not_gt
    · exact absurd h' (hitems h).1
    · exact items.eq_of_mem_kids h h'
    · exact absurd (hitems h).2 (hrest h').not_gt
    · exact absurd (htops h') (hrest h).not_gt
    · exact absurd (hitems h').2 (hrest h).not_gt
    · exact rest.eq_of_mem_kids h h'

/-- The root is dumped first. -/
theorem OneRoot.head_mem_devices : ∀ {items : DtItems}, items.OneRoot → ∀ cur,
    items.head cur ∈ items.devices cur
  | nop rest, h, cur => by
    have h : rest.OneRoot := h
    exact h.head_mem_devices cur
  | node _ _ items rest, h, cur => by
    rw [head, if_neg (by unfold size; omega)]
    exact List.mem_append_left _ List.mem_cons_self

variable {mem : ℕ → DeviceInfo} {stringsOffset : ℕ}

/-- The items themselves are siblings. -/
theorem DumpedAt.siblings : ∀ (items : DtItems) {loc cur : ℕ}, 0 < cur →
    items.DumpedAt mem stringsOffset loc cur → Siblings mem (items.tops cur) (items.head cur)
  | nil, _, _, _, _ => rfl
  | nop rest, _, _, hcur, h => siblings rest hcur h
  | prop nameOff value pad rest, loc, cur, hcur, ⟨hdev, hrest⟩ => by
    have hhead : (prop nameOff value pad rest).head cur = cur := if_neg (by unfold size; omega)
    refine ⟨hhead, hcur.ne', ?_⟩
    rw [hdev]
    exact siblings rest (by omega) hrest
  | node name pad items rest, loc, cur, hcur, ⟨⟨_, _, _, hnext⟩, _, hrest⟩ => by
    have hhead : (node name pad items rest).head cur = cur := if_neg (by unfold size; omega)
    refine ⟨hhead, hcur.ne', ?_⟩
    rw [hnext]
    exact siblings rest (by omega) hrest

/-- The children of a device are siblings, from its first child on, and properties have none. -/
theorem DumpedAt.kids : ∀ (items : DtItems) {loc cur : ℕ}, 0 < cur →
    items.DumpedAt mem stringsOffset loc cur → ∀ d ∈ items.devices cur,
      Siblings mem (items.kids cur d) (mem d).firstChild ∧
        ((mem d).isLeaf = true → items.kids cur d = [])
  | nop rest, _, _, hcur, h, d, hd => kids rest hcur h d hd
  | prop _ _ _ rest, loc, cur, hcur, ⟨hdev, hrest⟩, d, hd => by
    rw [DtItems.kids]
    split_ifs with heq
    · rw [heq, hdev]
      exact ⟨rfl, fun _ => rfl⟩
    · exact kids rest (by omega) hrest d ((List.mem_cons.1 hd).resolve_left heq)
  | node _ _ items rest, loc, cur, hcur, ⟨⟨hleaf, _, hchild, _⟩, hitems, hrest⟩, d, hd => by
    rw [DtItems.kids]
    split_ifs with heq hlt
    · rw [heq, hchild, hleaf]
      exact ⟨siblings items (by omega) hitems, fun h => absurd h Bool.false_ne_true⟩
    · refine kids items (by omega) hitems d ?_
      refine (List.mem_cons.1 ((List.mem_append.1 hd).resolve_right fun h => ?_)).resolve_left heq
      have := rest.le_of_mem_devices h
      omega
    · refine kids rest (by omega) hrest d ((List.mem_append.1 hd).resolve_left fun h => ?_)
      have := items.le_of_mem_devices ((List.mem_cons.1 h).resolve_left heq)
      omega

/-- Devices in memory are a tree. -/
theorem DumpedAt.deviceTree {items : DtItems} {loc cur : ℕ} (hcur : 0 < cur)
    (h : items.DumpedAt mem stringsOffset loc cur) :
    DeviceTree mem (items.devices cur) (items.kids cur) where
  siblings d hd := (DumpedAt.kids items hcur h d hd).1
  mem_of_kid _ _ _ hc := (items.kids_mem hc).2.1
  nodup d _ := items.nodup_kids cur d
  parent _ _ _ _ _ hc hc' := items.eq_of_mem_kids hc hc'
  leaf d hd := (DumpedAt.kids items hcur h d hd).2

end DtItems

/-- What `dtb_dump` leaves for a well-formed device tree is a tree, and the root is in it. -/
theorem dtbDump_deviceTree {dtb : ℕ → BitVec 8} {items : DtItems} (hblob : DtBlob dtb items)
    (mem : ℕ → DeviceInfo) {outputLocation fuel : ℕ} (hout : 0 < outputLocation)
    (hfuel : dtbReadInt dtb 36 ≤ fuel) :
    ∃ r, dtbDump fuel dtb mem outputLocation = .ok r ∧
      DeviceTree r.mem (items.devices outputLocation) (items.kids outputLocation) ∧
      r.root ∈ items.devices outputLocation := by
  obtain ⟨r, hr, hroot, hdumped⟩ := dtbDump_dumped hblob mem hout hfuel
  refine ⟨r, hr, hdumped.deviceTree hout, ?_⟩
  rw [hroot]
  exact hblob.oneRoot.head_mem_devices outputLocation

end Toastium
