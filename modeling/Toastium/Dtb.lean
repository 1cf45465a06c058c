import Toastium.Layout

/-!
# The device tree

`dtb_dump` of `dtb.c` reads the structure block of a flattened device tree and builds a tree of
`device_info`s, linked through `first_child` and `next_sibling`. The last device of each depth is
kept in `node_stack`, so that the next one can be linked to it.

`DtItems` is what a structure block encodes, a list of properties and nodes with padding and
NOPs as they are in the block. `dtbDump_correct` : for every well-formed block that is nested at
most 13 deep, the dump returns, and the devices list the items of the block.

A pointer into the device tree is its offset there. The devices are written to memory that is
not part of it. Slots of `node_stack` that were not written are NULL.
-/

namespace Toastium

/-! ## The code -/

/-- Arithmetic on `u32`. -/
def u32 (n : ℕ) : ℕ := n % 2 ^ 32

/-- `device_info`. -/
structure DeviceInfo where
  firstChild : ℕ
  nextSibling : ℕ
  name : ℕ
  isLeaf : Bool
  value : ℕ
  valueLen : ℕ
  deriving DecidableEq, Repr

/-- `sizeof(device_info)`. -/
def deviceInfoSize : ℕ := 48

/-- `dtb_read_int`. -/
def dtbReadInt (dtb : ℕ → BitVec 8) (ptr : ℕ) : ℕ :=
  (dtb ptr).toNat <<< 24 ||| (dtb (ptr + 1)).toNat <<< 16 ||| (dtb (ptr + 2)).toNat <<< 8 |||
    (dtb (ptr + 3)).toNat

/-- The variables of `dtb_dump`, with the memory of the devices. -/
structure DtbState where
  mem : ℕ → DeviceInfo
  curLoc : ℕ
  nodeStack : ℕ → ℕ
  nodeDepth : ℕ

/-- The link to a new device from the last one of its depth. -/
def linkSibling (mem : ℕ → DeviceInfo) (last node : ℕ) : ℕ → DeviceInfo :=
  if last ≠ 0 then Function.update mem last { mem last with nextSibling := node } else mem

/-- The link to a new device from its parent, if it is the first child. -/
def linkParent (mem : ℕ → DeviceInfo) (parent node : ℕ) :
    Except (Fault Panic) (ℕ → DeviceInfo) :=
  if parent = 0 then .error (.wild 0 0)
  else if (mem parent).firstChild = 0 then
    .ok (Function.update mem parent { mem parent with firstChild := node })
  else .ok mem

/-- A new device, as it is made for a node and for a property. -/
def DtbState.addDevice (st : DtbState) (init : DeviceInfo → DeviceInfo) :
    Except (Fault Panic) DtbState := do
  let node := st.curLoc
  let mem := Function.update st.mem node (init (st.mem node))
  let mem := linkSibling mem (st.nodeStack st.nodeDepth) node
  let mem ←
    if 0 < st.nodeDepth then linkParent mem (st.nodeStack (st.nodeDepth - 1)) node else pure mem
  return { st with
    mem := mem
    curLoc := node + deviceInfoSize
    nodeStack := Function.update st.nodeStack st.nodeDepth node }

section Code

variable (dtb : ℕ → BitVec 8) (stringsOffset limit : ℕ)

/-- The loop over the name of a node, at most `fuel` times. -/
def nameLength (byteLocation : ℕ) : ℕ → ℕ → Except (Fault Panic) ℕ
  | 0, _ => .error .fuel
  | fuel + 1, offset =>
    if dtb (u32 (byteLocation + offset + 4)) = 0 then .ok offset
    else nameLength byteLocation fuel (offset + 1)

/-- The body of the loop of `dtb_dump`. Returns `byte_location`. -/
def dtbToken (byteLocation : ℕ) (st : DtbState) : Except (Fault Panic) (ℕ × DtbState) :=
  match dtbReadInt dtb byteLocation with
  | 1 => do
    let st ← st.addDevice fun node => { node with
      name := u32 (byteLocation + 4), isLeaf := false, firstChild := 0, nextSibling := 0 }
    let st := { st with nodeDepth := st.nodeDepth + 1 }
    if st.nodeDepth ≥ 14 then .error (.panic .dtbStackDepthToHigh)
    let offset ← nameLength dtb byteLocation limit 0
    return (u32 (byteLocation + (offset + 4) / 4 * 4), st)
  | 2 =>
    if st.nodeDepth = 0 then .error (.panic .dtbStackDepthLessZero)
    else .ok (byteLocation, { st with
      nodeStack := Function.update st.nodeStack st.nodeDepth 0
      nodeDepth := st.nodeDepth - 1 })
  | 4 => .ok (byteLocation, st)
  | 3 => do
    let propSize := dtbReadInt dtb (u32 (byteLocation + 4))
    let nameOffset := dtbReadInt dtb (u32 (byteLocation + 8))
    let st ← st.addDevice fun _ => {
      firstChild := 0
      nextSibling := 0
      name := u32 (stringsOffset + nameOffset)
      isLeaf := true
      value := u32 (byteLocation + 12)
      valueLen := propSize }
    return (u32 (byteLocation + (u32 (propSize + 3) / 4 * 4 + 8)), st)
  | 9 => .ok (byteLocation, st)
  | _ => .error (.panic .dtbUnexpectedCode)

/-- The loop of `dtb_dump` up to the end of the structure block, at most `fuel` times. -/
def dtbLoop (stop : ℕ) : ℕ → ℕ → DtbState → Except (Fault Panic) DtbState
  | 0, _, _ => .error .fuel
  | fuel + 1, byteLocation, st =>
    if byteLocation < stop then do
      let (byteLocation, st) ← dtbToken dtb stringsOffset limit byteLocation st
      dtbLoop stop fuel (u32 (byteLocation + 4)) st
    else .ok st

end Code

/-- `device_info_dump_response`, with the memory of the devices. -/
structure DtbDump where
  mem : ℕ → DeviceInfo
  root : ℕ
  endLoc : ℕ

/-- `dtb_dump`. -/
def dtbDump (fuel : ℕ) (dtb : ℕ → BitVec 8) (mem : ℕ → DeviceInfo) (outputLocation : ℕ) :
    Except (Fault Panic) DtbDump := do
  let structOffset := dtbReadInt dtb 8
  let stringsOffset := dtbReadInt dtb 12
  let structSize := dtbReadInt dtb 36
  if dtbReadInt dtb 0 ≠ 0xd00dfeed then .error (.panic .incorrectDtbMagicHeader)
  if dtbReadInt dtb 24 ≠ 16 then .error (.panic .incorrectDtbVersion)
  let st ← dtbLoop dtb stringsOffset fuel (u32 (structOffset + structSize)) fuel structOffset
    ⟨mem, outputLocation, fun _ => 0, 0⟩
  if outputLocation = 0 then .error (.panic .invalidDeviceTreeDumpLocation)
  return ⟨st.mem, st.nodeStack 0, st.curLoc⟩

/-! ## Structure blocks -/

/-- What a structure block encodes : properties, nodes with their items, and NOPs. -/
inductive DtItems
  | nil
  | nop (rest : DtItems)
  | prop (nameOff : ℕ) (value pad : List (BitVec 8)) (rest : DtItems)
  | node (name pad : List (BitVec 8)) (items rest : DtItems)

/-- A big-endian word. -/
def wordBytes (n : ℕ) : List (BitVec 8) :=
  [BitVec.ofNat 8 (n / 2 ^ 24), BitVec.ofNat 8 (n / 2 ^ 16), BitVec.ofNat 8 (n / 2 ^ 8),
    BitVec.ofNat 8 n]

namespace DtItems

/-- The tokens of the items. -/
def encode : DtItems → List (BitVec 8)
  | nil => []
  | nop rest => wordBytes 4 ++ rest.encode
  | prop nameOff value pad rest =>
    wordBytes 3 ++ wordBytes value.length ++ wordBytes nameOff ++ value ++ pad ++ rest.encode
  | node name pad items rest =>
    wordBytes 1 ++ name ++ [0] ++ pad ++ items.encode ++ wordBytes 2 ++ rest.encode

/-- Names end at their first zero, names and values are padded to words, and the names of
properties are in the device tree, which ends at `total`. -/
def Wf (stringsOffset total : ℕ) : DtItems → Prop
  | nil => True
  | nop rest => rest.Wf stringsOffset total
  | prop nameOff value pad rest =>
    stringsOffset + nameOff < total ∧ value.length + pad.length = (value.length + 3) / 4 * 4 ∧
      rest.Wf stringsOffset total
  | node name pad items rest =>
    0 ∉ name ∧ name.length + 1 + pad.length = (name.length + 4) / 4 * 4 ∧
      items.Wf stringsOffset total ∧ rest.Wf stringsOffset total

/-- How deep the nodes are nested. -/
def depth : DtItems → ℕ
  | nil => 0
  | nop rest => rest.depth
  | prop _ _ _ rest => rest.depth
  | node _ _ items rest => max (items.depth + 1) rest.depth

/-- NOPs only. -/
def Blank : DtItems → Prop
  | nil => True
  | nop rest => rest.Blank
  | prop _ _ _ _ => False
  | node _ _ _ _ => False

/-- One node, and NOPs around it. -/
def OneRoot : DtItems → Prop
  | nil => False
  | nop rest => rest.OneRoot
  | prop _ _ _ _ => False
  | node _ _ _ rest => rest.Blank

/-- The number of devices of the items. -/
def size : DtItems → ℕ
  | nil => 0
  | nop rest => rest.size
  | prop _ _ _ rest => 1 + rest.size
  | node _ _ items rest => 1 + items.size + rest.size

/-- The number of tokens of the items. -/
def tokens : DtItems → ℕ
  | nil => 0
  | nop rest => 1 + rest.tokens
  | prop _ _ _ rest => 1 + rest.tokens
  | node _ _ items rest => 2 + items.tokens + rest.tokens

end DtItems

/-- The bytes at a place. -/
def BytesAt (dtb : ℕ → BitVec 8) (loc : ℕ) (bytes : List (BitVec 8)) : Prop :=
  ∀ i (hi : i < bytes.length), dtb (loc + i) = bytes[i]

/-- A device tree with the items `items`. -/
structure DtBlob (dtb : ℕ → BitVec 8) (items : DtItems) : Prop where
  magic : dtbReadInt dtb 0 = 0xd00dfeed
  version : dtbReadInt dtb 24 = 16
  total_lt : dtbReadInt dtb 4 < 2 ^ 31
  wf : items.Wf (dtbReadInt dtb 12) (dtbReadInt dtb 4)
  oneRoot : items.OneRoot
  depth_le : items.depth ≤ 13
  size : dtbReadInt dtb 36 = (items.encode ++ wordBytes 9).length
  fits : dtbReadInt dtb 8 + dtbReadInt dtb 36 ≤ dtbReadInt dtb 4
  bytes : BytesAt dtb (dtbReadInt dtb 8) (items.encode ++ wordBytes 9)

/-- The devices from `p` on, along `next_sibling`, are the items encoded at `loc`, and the
devices along `first_child` of a node are its items. -/
def ListsItems (mem : ℕ → DeviceInfo) (stringsOffset : ℕ) : DtItems → ℕ → ℕ → Prop
  | .nil, _, p => p = 0
  | .nop rest, loc, p => ListsItems mem stringsOffset rest (loc + 4) p
  | .prop nameOff value pad rest, loc, p => p ≠ 0 ∧
    (mem p).isLeaf = true ∧ (mem p).name = stringsOffset + nameOff ∧
    (mem p).value = loc + 12 ∧ (mem p).valueLen = value.length ∧ (mem p).firstChild = 0 ∧
    ListsItems mem stringsOffset rest (loc + 12 + value.length + pad.length) (mem p).nextSibling
  | .node name pad items rest, loc, p => p ≠ 0 ∧
    (mem p).isLeaf = false ∧ (mem p).name = loc + 4 ∧
    ListsItems mem stringsOffset items (loc + 5 + name.length + pad.length) (mem p).firstChild ∧
    ListsItems mem stringsOffset rest
      (loc + 9 + name.length + pad.length + items.encode.length) (mem p).nextSibling

/-! ## Bytes -/

section Bytes

variable {dtb : ℕ → BitVec 8} {loc : ℕ}

theorem u32_of_lt {n : ℕ} (h : n < 2 ^ 32) : u32 n = n :=
  Nat.mod_eq_of_lt h

theorem dtbReadInt_eq (dtb : ℕ → BitVec 8) (ptr : ℕ) :
    dtbReadInt dtb ptr = (dtb ptr).toNat * 2 ^ 24 + (dtb (ptr + 1)).toNat * 2 ^ 16 +
      (dtb (ptr + 2)).toNat * 2 ^ 8 + (dtb (ptr + 3)).toNat := by
  have hor : ∀ a b i : ℕ, b < 2 ^ i → a * 2 ^ i ||| b = a * 2 ^ i + b := fun a b i hb => by
    rw [← Nat.shiftLeft_eq, Nat.shiftLeft_add_eq_or_of_lt hb]
  have h1 := (dtb (ptr + 1)).isLt
  have h2 := (dtb (ptr + 2)).isLt
  have h3 := (dtb (ptr + 3)).isLt
  simp only [dtbReadInt, Nat.shiftLeft_eq]
  generalize (dtb ptr).toNat = a at *
  generalize (dtb (ptr + 1)).toNat = b at *
  generalize (dtb (ptr + 2)).toNat = c at *
  generalize (dtb (ptr + 3)).toNat = d at *
  rw [hor a (b * 2 ^ 16) 24 (by omega),
    show a * 2 ^ 24 + b * 2 ^ 16 = (a * 2 ^ 8 + b) * 2 ^ 16 by ring,
    hor _ (c * 2 ^ 8) 16 (by omega),
    show (a * 2 ^ 8 + b) * 2 ^ 16 + c * 2 ^ 8 = (a * 2 ^ 16 + b * 2 ^ 8 + c) * 2 ^ 8 by ring,
    hor _ d 8 (by omega)]

theorem bytesAt_append {l m : List (BitVec 8)} :
    BytesAt dtb loc (l ++ m) ↔ BytesAt dtb loc l ∧ BytesAt dtb (loc + l.length) m := by
  constructor
  · intro h
    refine ⟨fun i hi => ?_, fun i hi => ?_⟩
    · rw [h i (by rw [List.length_append]; omega), List.getElem_append_left hi]
    · rw [Nat.add_assoc, h (l.length + i) (by rw [List.length_append]; omega),
        List.getElem_append_right (by omega)]
      simp only [Nat.add_sub_cancel_left]
  · rintro ⟨hl, hm⟩ i hi
    rcases Nat.lt_or_ge i l.length with hlt | hge
    · rw [List.getElem_append_left hlt, hl i hlt]
    · rw [List.getElem_append_right hge, ← hm (i - l.length)
        (by rw [List.length_append] at hi; omega)]
      congr 1
      omega

theorem length_wordBytes (n : ℕ) : (wordBytes n).length = 4 := rfl

/-- A word is read as it was written. -/
theorem BytesAt.readInt {n : ℕ} (h : BytesAt dtb loc (wordBytes n)) (hn : n < 2 ^ 32) :
    dtbReadInt dtb loc = n := by
  have h0 : dtb loc = BitVec.ofNat 8 (n / 2 ^ 24) :=
    h 0 (by rw [length_wordBytes]; decide)
  have h1 : dtb (loc + 1) = BitVec.ofNat 8 (n / 2 ^ 16) := h 1 (by rw [length_wordBytes]; decide)
  have h2 : dtb (loc + 2) = BitVec.ofNat 8 (n / 2 ^ 8) := h 2 (by rw [length_wordBytes]; decide)
  have h3 : dtb (loc + 3) = BitVec.ofNat 8 n := h 3 (by rw [length_wordBytes]; decide)
  rw [dtbReadInt_eq, h0, h1, h2, h3]
  simp only [BitVec.toNat_ofNat]
  omega

/-- The loop over a name ends at its zero. -/
theorem nameLength_eq {stop : ℕ} (hstop : stop < 2 ^ 32) :
    ∀ {name : List (BitVec 8)} {fuel offset : ℕ}, BytesAt dtb (loc + offset + 4) (name ++ [0]) →
      0 ∉ name → loc + offset + 4 + name.length < stop → name.length < fuel →
      nameLength dtb loc fuel offset = .ok (offset + name.length)
  | [], fuel + 1, offset, hb, _, hlt, _ => by
    have h0 : dtb (loc + offset + 4) = 0 := hb 0 (by decide)
    rw [List.length_nil] at hlt
    rw [nameLength, u32_of_lt (by omega), if_pos h0]
    rfl
  | b :: name, fuel + 1, offset, hb, hne, hlt, hfuel => by
    rw [List.length_cons] at hlt hfuel
    have h0 : dtb (loc + offset + 4) = b := hb 0 (by simp)
    have hb0 : b ≠ 0 := fun e => hne (e ▸ List.mem_cons_self)
    have hrest : BytesAt dtb (loc + (offset + 1) + 4) (name ++ [0]) := fun i hi => by
      have := hb (i + 1) (by simpa using hi)
      rw [show loc + (offset + 1) + 4 + i = loc + offset + 4 + (i + 1) by omega, this]
      rfl
    rw [nameLength, u32_of_lt (by omega), if_neg (h0 ▸ hb0),
      nameLength_eq hstop hrest (fun h => hne (List.mem_cons_of_mem _ h)) (by omega) (by omega),
      List.length_cons]
    congr 1
    omega

end Bytes

/-! ## The devices of a list of items -/

namespace DtItems

/-- The first device of the items, if they are dumped from `cur` on. -/
def head (items : DtItems) (cur : ℕ) : ℕ :=
  if items.size = 0 then 0 else cur

/-- The last device of the items, `old` if there is none. -/
def last : DtItems → ℕ → ℕ → ℕ
  | nil, _, old => old
  | nop rest, cur, old => rest.last cur old
  | prop _ _ _ rest, cur, _ => rest.last (cur + 48) cur
  | node _ _ items rest, cur, _ => rest.last (cur + 48 * (1 + items.size)) cur

/-- The devices of the items are in memory from `cur` on, in the order of their tokens. -/
def DumpedAt (mem : ℕ → DeviceInfo) (stringsOffset : ℕ) : DtItems → ℕ → ℕ → Prop
  | nil, _, _ => True
  | nop rest, loc, cur => rest.DumpedAt mem stringsOffset (loc + 4) cur
  | prop nameOff value pad rest, loc, cur =>
    mem cur = ⟨0, rest.head (cur + 48), stringsOffset + nameOff, true, loc + 12, value.length⟩ ∧
      rest.DumpedAt mem stringsOffset (loc + 12 + value.length + pad.length) (cur + 48)
  | node name pad items rest, loc, cur =>
    ((mem cur).isLeaf = false ∧ (mem cur).name = loc + 4 ∧
      (mem cur).firstChild = items.head (cur + 48) ∧
      (mem cur).nextSibling = rest.head (cur + 48 * (1 + items.size))) ∧
    items.DumpedAt mem stringsOffset (loc + 5 + name.length + pad.length) (cur + 48) ∧
    rest.DumpedAt mem stringsOffset (loc + 9 + name.length + pad.length + items.encode.length)
      (cur + 48 * (1 + items.size))

variable {mem mem' : ℕ → DeviceInfo} {stringsOffset : ℕ}

theorem DumpedAt.congr : ∀ {items : DtItems} {loc cur : ℕ},
    items.DumpedAt mem stringsOffset loc cur →
    (∀ p, cur ≤ p → p < cur + 48 * items.size → mem' p = mem p) →
    items.DumpedAt mem' stringsOffset loc cur
  | nil, _, _, _, _ => trivial
  | nop rest, _, _, h, hsame => by
    have h : rest.DumpedAt mem stringsOffset _ _ := h
    exact h.congr hsame
  | prop _ _ _ rest, loc, cur, ⟨hdev, hrest⟩, hsame => by
    unfold size at hsame
    refine ⟨?_, hrest.congr fun p h1 h2 => hsame p (by omega) (by omega)⟩
    rw [hsame cur le_rfl (by omega), hdev]
  | node _ _ items rest, loc, cur, ⟨hdev, hitems, hrest⟩, hsame => by
    unfold size at hsame
    refine ⟨?_, hitems.congr fun p h1 h2 => hsame p (by omega) (by omega),
      hrest.congr fun p h1 h2 => hsame p (by omega) (by omega)⟩
    rwa [hsame cur le_rfl (by omega)]

/-- Devices in memory are listed by their links. -/
theorem DumpedAt.lists : ∀ {items : DtItems} {loc cur : ℕ}, 0 < cur →
    items.DumpedAt mem stringsOffset loc cur →
    ListsItems mem stringsOffset items loc (items.head cur)
  | nil, _, _, _, _ => rfl
  | nop rest, _, _, hcur, h => by
    have h : rest.DumpedAt mem stringsOffset _ _ := h
    have hlists := h.lists hcur
    exact hlists
  | prop nameOff value pad rest, loc, cur, hcur, ⟨hdev, hrest⟩ => by
    have hhead : (prop nameOff value pad rest).head cur = cur := if_neg (by unfold size; omega)
    rw [hhead, ListsItems, hdev]
    exact ⟨hcur.ne', rfl, rfl, rfl, rfl, rfl, hrest.lists (by omega)⟩
  | node name pad items rest, loc, cur, hcur, ⟨⟨hleaf, hname, hchild, hnext⟩, hitems, hrest⟩ => by
    have hhead : (node name pad items rest).head cur = cur := if_neg (by unfold size; omega)
    rw [hhead, ListsItems, hchild, hnext]
    exact ⟨hcur.ne', hleaf, hname, hitems.lists (by omega), hrest.lists (by omega)⟩

end DtItems

/-! ## A new device -/

namespace DtbState

variable {st u : DtbState}

/-- Where the next device is linked to : the last device of its depth, and its parent. -/
structure Ready (st : DtbState) : Prop where
  cur_pos : 0 < st.curLoc
  deep : ∀ j, st.nodeDepth < j → st.nodeStack j = 0
  last_lt : st.nodeStack st.nodeDepth < st.curLoc
  parent : 0 < st.nodeDepth → st.nodeStack (st.nodeDepth - 1) ≠ 0 ∧
    st.nodeStack (st.nodeDepth - 1) < st.curLoc ∧
    st.nodeStack (st.nodeDepth - 1) ≠ st.nodeStack st.nodeDepth

/-- A device that was there before, after `n` devices were added. -/
def linked (st : DtbState) (n p : ℕ) : DeviceInfo :=
  if n = 0 then st.mem p
  else if p = st.nodeStack st.nodeDepth ∧ p ≠ 0 then
    { st.mem p with nextSibling := st.curLoc }
  else if 0 < st.nodeDepth ∧ p = st.nodeStack (st.nodeDepth - 1) ∧ (st.mem p).firstChild = 0 then
    { st.mem p with firstChild := st.curLoc }
  else st.mem p

/-- The state after a new device. -/
def added (st : DtbState) (init : DeviceInfo → DeviceInfo) : DtbState where
  mem p := if p = st.curLoc then init (st.mem p) else st.linked 1 p
  curLoc := st.curLoc + deviceInfoSize
  nodeStack := Function.update st.nodeStack st.nodeDepth st.curLoc
  nodeDepth := st.nodeDepth

theorem linked_of_pos (st : DtbState) {n : ℕ} (hn : n ≠ 0) (p : ℕ) :
    st.linked n p = st.linked 1 p := by
  simp only [linked, if_neg hn, if_neg Nat.one_ne_zero]

theorem linkSibling_apply (mem : ℕ → DeviceInfo) (last node p : ℕ) :
    linkSibling mem last node p =
      if p = last ∧ p ≠ 0 then { mem p with nextSibling := node } else mem p := by
  unfold linkSibling
  split_ifs with h1 h2 h2
  · rw [h2.1, Function.update_self]
  · exact Function.update_of_ne (fun e => h2 ⟨e, e ▸ h1⟩) _ _
  · exact absurd (h2.1 ▸ h2.2) h1
  · rfl

theorem linkParent_eq (mem : ℕ → DeviceInfo) {parent : ℕ} (node : ℕ) (h : parent ≠ 0) :
    linkParent mem parent node = .ok fun p =>
      if p = parent ∧ (mem p).firstChild = 0 then { mem p with firstChild := node }
      else mem p := by
  rw [linkParent, if_neg h]
  split_ifs with h0
  · congr 1
    funext p
    by_cases hp : p = parent
    · rw [hp, Function.update_self, if_pos ⟨rfl, h0⟩]
    · rw [Function.update_of_ne hp, if_neg fun e => hp e.1]
  · congr 1
    funext p
    rw [if_neg]
    rintro ⟨rfl, hp⟩
    exact h0 hp

/-- The memory with a new device that is linked to the devices `last` and `parent`. -/
def links (st : DtbState) (init : DeviceInfo → DeviceInfo) (last parent : ℕ) :
    Except (Fault Panic) (ℕ → DeviceInfo) :=
  let mem := linkSibling (Function.update st.mem st.curLoc (init (st.mem st.curLoc))) last st.curLoc
  if 0 < st.nodeDepth then linkParent mem parent st.curLoc else .ok mem

/-- The last device of the depth and the parent are read from `node_stack`. -/
theorem addDevice_links (st : DtbState) (init : DeviceInfo → DeviceInfo) :
    st.addDevice init =
      st.links init (st.nodeStack st.nodeDepth) (st.nodeStack (st.nodeDepth - 1)) >>= fun mem =>
        .ok { st with
          mem := mem
          curLoc := st.curLoc + deviceInfoSize
          nodeStack := Function.update st.nodeStack st.nodeDepth st.curLoc } := by
  unfold addDevice links
  split_ifs <;> rfl

theorem addDevice_depth {init : DeviceInfo → DeviceInfo} (h : st.addDevice init = .ok u) :
    u.nodeDepth = st.nodeDepth := by
  rw [addDevice_links] at h
  obtain ⟨mem, -, h⟩ := bind_eq_ok.mp h
  cases h
  rfl

theorem addDevice_eq (h : st.Ready) (init : DeviceInfo → DeviceInfo) :
    st.addDevice init = .ok (st.added init) := by
  have hlast := h.last_lt.ne
  have hmem : ∀ p, linkSibling (Function.update st.mem st.curLoc (init (st.mem st.curLoc)))
      (st.nodeStack st.nodeDepth) st.curLoc p =
      if p = st.curLoc then init (st.mem p)
      else if p = st.nodeStack st.nodeDepth ∧ p ≠ 0 then
        { st.mem p with nextSibling := st.curLoc }
      else st.mem p := fun p => by
    rw [linkSibling_apply]
    by_cases hp : p = st.curLoc
    · rw [if_pos hp, hp, Function.update_self, if_neg fun e => hlast e.1.symm]
    · rw [if_neg hp, Function.update_of_ne hp]
  unfold addDevice added
  by_cases hd : 0 < st.nodeDepth
  · obtain ⟨hne, hlt, hsib⟩ := h.parent hd
    simp only [if_pos hd, linkParent_eq _ _ hne, ok_bind, pure_eq_ok]
    congr 2
    funext p
    rw [hmem, linked, if_neg Nat.one_ne_zero]
    by_cases hp : p = st.curLoc
    · rw [if_pos hp, if_neg fun e => hlt.ne (e.1.symm.trans hp), if_pos hp]
    · rw [if_neg hp, if_neg hp]
      by_cases hs : p = st.nodeStack st.nodeDepth ∧ p ≠ 0
      · rw [if_pos hs, if_neg fun e => hsib (e.1.symm.trans hs.1), if_pos hs]
      · rw [if_neg hs, if_neg hs]
        simp only [hd, true_and]
  · simp only [if_neg hd, ok_bind, pure_eq_ok]
    congr 2
    funext p
    rw [hmem, linked, if_neg Nat.one_ne_zero]
    simp only [hd, false_and, if_false]

/-- What was linked to a new device stays as it is : later devices of the same depth are linked
to this one, and its parent has a first child. -/
theorem linked_of_added (h : st.Ready) (hdepth : u.nodeDepth = st.nodeDepth)
    (hlast : u.nodeStack st.nodeDepth = st.curLoc)
    (hparent : 0 < st.nodeDepth →
      u.nodeStack (st.nodeDepth - 1) = st.nodeStack (st.nodeDepth - 1))
    (hmem : ∀ p < st.curLoc, u.mem p = st.linked 1 p) (n : ℕ) {p : ℕ} (hp : p < st.curLoc) :
    u.linked n p = st.linked 1 p := by
  rw [← hmem p hp]
  unfold linked
  rw [hdepth, hlast]
  split_ifs with h0 h1 h2
  · rfl
  · exact absurd h1.1 hp.ne
  · obtain ⟨hd, he, hchild⟩ := h2
    rw [hparent hd] at he
    obtain ⟨-, -, hsib⟩ := h.parent hd
    rw [hmem p hp, linked, if_neg Nat.one_ne_zero, if_neg fun e => hsib (he.symm.trans e.1)]
      at hchild
    split_ifs at hchild with hfirst
    · exact absurd hchild h.cur_pos.ne'
    · exact absurd ⟨hd, he, hchild⟩ hfirst
  · rfl

theorem added_last (st : DtbState) (init : DeviceInfo → DeviceInfo) :
    (st.added init).nodeStack st.nodeDepth = st.curLoc :=
  Function.update_self _ _ _

theorem added_stack (st : DtbState) (init : DeviceInfo → DeviceInfo) {j : ℕ}
    (hj : j ≠ st.nodeDepth) : (st.added init).nodeStack j = st.nodeStack j :=
  Function.update_of_ne hj _ _

theorem Ready.added_deep (h : st.Ready) (init : DeviceInfo → DeviceInfo) {j : ℕ}
    (hj : st.nodeDepth < j) : (st.added init).nodeStack j = 0 :=
  (added_stack st init hj.ne').trans (h.deep j hj)

/-- The next device of the same depth. -/
theorem Ready.added (h : st.Ready) (init : DeviceInfo → DeviceInfo) : (st.added init).Ready where
  cur_pos := Nat.add_pos_left h.cur_pos _
  deep j hj := h.added_deep init hj
  last_lt := by
    change (st.added init).nodeStack st.nodeDepth < _
    rw [added_last]
    exact Nat.lt_add_of_pos_right (by decide)
  parent hd := by
    change 0 < st.nodeDepth at hd
    change (st.added init).nodeStack (st.nodeDepth - 1) ≠ 0 ∧
      (st.added init).nodeStack (st.nodeDepth - 1) < _ ∧
      (st.added init).nodeStack (st.nodeDepth - 1) ≠ (st.added init).nodeStack st.nodeDepth
    obtain ⟨hne, hlt, -⟩ := h.parent hd
    rw [added_last, added_stack st init (by omega)]
    exact ⟨hne, hlt.trans (Nat.lt_add_of_pos_right (by decide)), hlt.ne⟩

/-- The first item of a new node. -/
theorem Ready.enter (h : st.Ready) (init : DeviceInfo → DeviceInfo) :
    ({ st.added init with nodeDepth := st.nodeDepth + 1 } : DtbState).Ready where
  cur_pos := Nat.add_pos_left h.cur_pos _
  deep j hj := by
    change st.nodeDepth + 1 < j at hj
    exact h.added_deep init (by omega)
  last_lt := by
    change (st.added init).nodeStack (st.nodeDepth + 1) < _
    rw [h.added_deep init (Nat.lt_succ_self _)]
    exact Nat.add_pos_left h.cur_pos _
  parent _ := by
    change (st.added init).nodeStack st.nodeDepth ≠ 0 ∧
      (st.added init).nodeStack st.nodeDepth < _ ∧
      (st.added init).nodeStack st.nodeDepth ≠ (st.added init).nodeStack (st.nodeDepth + 1)
    rw [added_last, h.added_deep init (Nat.lt_succ_self _)]
    exact ⟨h.cur_pos.ne', Nat.lt_add_of_pos_right (by decide), h.cur_pos.ne'⟩

/-- The end of a node. -/
def leave (st : DtbState) : DtbState :=
  { st with
    nodeStack := Function.update st.nodeStack st.nodeDepth 0
    nodeDepth := st.nodeDepth - 1 }

/-- The state after the items at `loc`. -/
structure Advanced (stringsOffset : ℕ) (items : DtItems) (loc : ℕ) (st st' : DtbState) : Prop where
  curLoc : st'.curLoc = st.curLoc + 48 * items.size
  depth : st'.nodeDepth = st.nodeDepth
  stack : ∀ j ≠ st.nodeDepth, st'.nodeStack j = st.nodeStack j
  last : st'.nodeStack st.nodeDepth = items.last st.curLoc (st.nodeStack st.nodeDepth)
  dumped : items.DumpedAt st'.mem stringsOffset loc st.curLoc
  frame : ∀ p < st.curLoc, st'.mem p = st.linked items.size p

theorem linked_last {items : DtItems} {p : ℕ} (hpos : p ≠ 0)
    (hlast : u.nodeStack u.nodeDepth = p) (hnext : (u.mem p).nextSibling = 0) :
    u.linked items.size p = { u.mem p with nextSibling := items.head u.curLoc } := by
  unfold linked DtItems.head
  split_ifs with h0 h1
  · rw [← hnext]
  · rfl
  · exact absurd ⟨hlast.symm, hpos⟩ h1
  · exact absurd ⟨hlast.symm, hpos⟩ h1

theorem linked_parent {items : DtItems} {p : ℕ} (hd : 0 < u.nodeDepth)
    (hlast : u.nodeStack u.nodeDepth = 0) (hparent : u.nodeStack (u.nodeDepth - 1) = p)
    (hchild : (u.mem p).firstChild = 0) :
    u.linked items.size p = { u.mem p with firstChild := items.head u.curLoc } := by
  unfold linked DtItems.head
  split_ifs with h0 h1 h2
  · rw [← hchild]
  · exact absurd (h1.1.trans hlast) h1.2
  · rfl
  · exact absurd ⟨hd, hparent.symm, hchild⟩ h2

theorem linked_of_ne {n p : ℕ} (hlast : p ≠ u.nodeStack u.nodeDepth ∨ p = 0)
    (hparent : 0 < u.nodeDepth → p ≠ u.nodeStack (u.nodeDepth - 1)) : u.linked n p = u.mem p := by
  unfold linked
  split_ifs with h0 h1 h2
  · rfl
  · exact absurd h1 (by omega)
  · exact absurd h2.2.1 (hparent h2.1)
  · rfl

namespace Advanced

variable {stringsOffset loc : ℕ} {items rest : DtItems} {st₁ st' : DtbState}

theorem nil (st : DtbState) : Advanced stringsOffset .nil loc st st :=
  ⟨rfl, rfl, fun _ _ => rfl, rfl, trivial, fun _ _ => rfl⟩

theorem nop (h : Advanced stringsOffset rest (loc + 4) st st') :
    Advanced stringsOffset (.nop rest) loc st st' :=
  ⟨h.curLoc, h.depth, h.stack, h.last, h.dumped, h.frame⟩

/-- A property, and the items after it. -/
theorem prop (hst : st.Ready) {nameOff : ℕ} {value pad : List (BitVec 8)}
    (h : Advanced stringsOffset rest (loc + 12 + value.length + pad.length)
      (st.added fun _ => ⟨0, 0, stringsOffset + nameOff, true, loc + 12, value.length⟩) st') :
    Advanced stringsOffset (.prop nameOff value pad rest) loc st st' := by
  have hsize : (DtItems.prop nameOff value pad rest).size ≠ 0 := by
    rw [DtItems.size]
    omega
  refine ⟨?_, h.depth, fun j hj => ?_, ?_, ⟨?_, h.dumped⟩, fun p hp => ?_⟩
  · have hcur : st'.curLoc = st.curLoc + 48 + 48 * rest.size := h.curLoc
    rw [hcur, DtItems.size]
    omega
  · exact (h.stack j hj).trans (added_stack st _ hj)
  · refine h.last.trans ?_
    change rest.last (st.curLoc + 48) ((st.added _).nodeStack st.nodeDepth) = _
    rw [added_last, DtItems.last]
  · rw [h.frame st.curLoc (Nat.lt_add_of_pos_right (by decide)),
      linked_last hst.cur_pos.ne' (added_last st _) (by simp only [added, if_true])]
    simp only [added, if_true, deviceInfoSize]
  · rw [h.frame p (Nat.lt_add_right _ hp), linked_of_pos st hsize]
    exact linked_of_added (u := st.added _) hst rfl (added_last st _)
      (fun hd => added_stack st _ (by omega)) (fun q hq => if_neg hq.ne) _ hp

section Node

variable {init : DeviceInfo → DeviceInfo}

/-- The state after the items of a node and its end. -/
structure Left (items : DtItems) (init : DeviceInfo → DeviceInfo) (st v : DtbState) : Prop where
  curLoc : v.curLoc = st.curLoc + 48 + 48 * items.size
  depth : v.nodeDepth = st.nodeDepth
  last : v.nodeStack st.nodeDepth = st.curLoc
  deep : ∀ j, st.nodeDepth < j → v.nodeStack j = 0
  stack : ∀ j ≠ st.nodeDepth, v.nodeStack j = st.nodeStack j
  node : v.mem st.curLoc =
    { init (st.mem st.curLoc) with firstChild := items.head (st.curLoc + 48) }
  frame : ∀ p < st.curLoc, v.mem p = st.linked 1 p

theorem left (hst : st.Ready) (hchild : (init (st.mem st.curLoc)).firstChild = 0)
    (h : Advanced stringsOffset items loc
      { st.added init with nodeDepth := st.nodeDepth + 1 } st₁) : Left items init st st₁.leave := by
  have hzero := hst.added_deep init (Nat.lt_succ_self _)
  have hdepth : st₁.nodeDepth = st.nodeDepth + 1 := h.depth
  have hpop : st₁.leave.nodeStack (st.nodeDepth + 1) = 0 := by
    rw [leave, hdepth]
    exact Function.update_self _ _ _
  have hkeep : ∀ j ≠ st.nodeDepth + 1, st₁.leave.nodeStack j = (st.added init).nodeStack j :=
    fun j hj => by
      rw [leave, hdepth]
      exact (Function.update_of_ne hj _ _).trans (h.stack j hj)
  refine ⟨h.curLoc, ?_, ?_, fun j hj => ?_, fun j hj => ?_, ?_, fun p hp => ?_⟩
  · rw [leave, hdepth]
    rfl
  · rw [hkeep _ (by omega), added_last]
  · rcases eq_or_ne j (st.nodeDepth + 1) with rfl | hne
    · exact hpop
    · rw [hkeep j hne, hst.added_deep init hj]
  · rcases eq_or_ne j (st.nodeDepth + 1) with rfl | hne
    · rw [hpop, hst.deep _ (Nat.lt_succ_self _)]
    · rw [hkeep j hne, added_stack st init hj]
  · have hmem : (st.added init).mem st.curLoc = init (st.mem st.curLoc) := if_pos rfl
    refine (h.frame st.curLoc (Nat.lt_add_of_pos_right (by decide))).trans ?_
    rw [linked_parent (Nat.succ_pos _) hzero (added_last st init) (by rw [hmem, hchild]), hmem]
    rfl
  · refine (h.frame p (Nat.lt_add_right _ hp)).trans ?_
    rw [linked_of_ne]
    · exact if_neg hp.ne
    · rcases eq_or_ne p 0 with h0 | h0
      · exact .inr h0
      · exact .inl (hzero ▸ h0)
    · intro _
      exact fun e => hp.ne (e.trans (added_last st init))

theorem Left.ready {v : DtbState} (hst : st.Ready) (h : Left items init st v) : v.Ready := by
  have hlt : st.curLoc < v.curLoc := by
    rw [h.curLoc]
    omega
  refine ⟨hst.cur_pos.trans hlt, ?_, ?_, ?_⟩
  · rw [h.depth]
    exact h.deep
  · rw [h.depth, h.last]
    exact hlt
  · rw [h.depth]
    intro hd
    obtain ⟨hne, hparent, -⟩ := hst.parent hd
    rw [h.stack _ (by omega), h.last]
    exact ⟨hne, hparent.trans hlt, hparent.ne⟩

end Node

/-- A node with its items, and the items after it. -/
theorem node (hst : st.Ready) {name pad : List (BitVec 8)} {init : DeviceInfo → DeviceInfo}
    (hinit : ∀ d, init d = { d with
      name := loc + 4, isLeaf := false, firstChild := 0, nextSibling := 0 })
    (hitems : Advanced stringsOffset items (loc + 5 + name.length + pad.length)
      { st.added init with nodeDepth := st.nodeDepth + 1 } st₁)
    (hrest : Advanced stringsOffset rest
      (loc + 9 + name.length + pad.length + items.encode.length) st₁.leave st') :
    Advanced stringsOffset (.node name pad items rest) loc st st' := by
  have hleft := left hst (by rw [hinit]) hitems
  have hlast : st₁.leave.nodeStack st₁.leave.nodeDepth = st.curLoc := by
    rw [hleft.depth, hleft.last]
  have hcur : st₁.leave.curLoc = st.curLoc + 48 * (1 + items.size) := by
    rw [hleft.curLoc]
    omega
  have hparent : ∀ p, st.curLoc < p → 0 < st₁.leave.nodeDepth →
      p ≠ st₁.leave.nodeStack (st₁.leave.nodeDepth - 1) := fun p hp hd => by
    rw [hleft.depth] at hd
    rw [hleft.depth, hleft.stack _ (by omega)]
    exact ((hst.parent hd).2.1.trans hp).ne'
  refine ⟨?_, hrest.depth.trans hleft.depth, fun j hj => ?_, ?_, ⟨?_, ?_, ?_⟩, fun p hp => ?_⟩
  · rw [hrest.curLoc, hcur, DtItems.size]
    omega
  · rw [hrest.stack j (by rw [hleft.depth]; exact hj), hleft.stack j hj]
  · have := hrest.last
    rwa [hcur, hleft.depth, hleft.last] at this
  · rw [hrest.frame st.curLoc (by omega), linked_last hst.cur_pos.ne' hlast
      (by rw [hleft.node, hinit]), hleft.node, hinit, hcur]
    exact ⟨rfl, rfl, rfl, rfl⟩
  · refine DtItems.DumpedAt.congr hitems.dumped fun p h1 h2 => ?_
    change st.curLoc + 48 ≤ p at h1
    change p < st.curLoc + 48 + 48 * items.size at h2
    rw [hrest.frame p (by omega), linked_of_ne (.inl (by omega)) (hparent p (by omega))]
    rfl
  · rw [← hcur]
    exact hrest.dumped
  · rw [hrest.frame p (by omega), linked_of_pos st (by rw [DtItems.size]; omega)]
    exact linked_of_added hst hleft.depth hleft.last
      (fun hd => hleft.stack _ (by omega)) hleft.frame _ hp

end Advanced

end DtbState

/-! ## What the tokens do -/

/-- What a token does to the variables of the loop. -/
inductive DtbOp
  | prop (init : DeviceInfo → DeviceInfo)
  | enter (init : DeviceInfo → DeviceInfo)
  | leave

/-- The variables after a token. -/
def DtbState.run (st : DtbState) : DtbOp → Except (Fault Panic) DtbState
  | .prop init => st.addDevice init
  | .enter init => do
    let st ← st.addDevice init
    return { st with nodeDepth := st.nodeDepth + 1 }
  | .leave => if st.nodeDepth = 0 then .error (.panic .dtbStackDepthLessZero) else .ok st.leave

/-- The device of a node at `loc`. -/
def nodeInit (loc : ℕ) (node : DeviceInfo) : DeviceInfo :=
  { node with name := loc + 4, isLeaf := false, firstChild := 0, nextSibling := 0 }

/-- The operations of the items at `loc`. -/
def DtItems.ops (stringsOffset : ℕ) : DtItems → ℕ → List DtbOp
  | nil, _ => []
  | nop rest, loc => rest.ops stringsOffset (loc + 4)
  | prop nameOff value pad rest, loc =>
    .prop (fun _ => ⟨0, 0, stringsOffset + nameOff, true, loc + 12, value.length⟩) ::
      rest.ops stringsOffset (loc + 12 + value.length + pad.length)
  | node name pad items rest, loc =>
    .enter (nodeInit loc) :: (items.ops stringsOffset (loc + 5 + name.length + pad.length) ++
      .leave :: rest.ops stringsOffset
        (loc + 9 + name.length + pad.length + items.encode.length))

namespace DtbState

variable {stringsOffset : ℕ} {st u : DtbState}

theorem run_enter (init : DeviceInfo → DeviceInfo) (h : st.addDevice init = .ok u) :
    st.run (.enter init) = .ok { u with nodeDepth := u.nodeDepth + 1 } := by
  rw [run, h]
  rfl

theorem run_prop_depth {init : DeviceInfo → DeviceInfo} (h : st.run (.prop init) = .ok u) :
    u.nodeDepth = st.nodeDepth :=
  addDevice_depth h

theorem run_enter_depth {init : DeviceInfo → DeviceInfo} (h : st.run (.enter init) = .ok u) :
    u.nodeDepth = st.nodeDepth + 1 := by
  obtain ⟨v, hv, h⟩ := bind_eq_ok.mp h
  cases h
  exact congrArg Nat.succ (addDevice_depth hv)

theorem run_leave (hd : st.nodeDepth ≠ 0) : st.run .leave = .ok st.leave :=
  if_neg hd

/-- The end of a node goes back to the depth of its parent. -/
theorem run_leave_cases {d : ℕ} (hd : st.nodeDepth = d + 1) (h : st.run .leave = .ok u) :
    u = st.leave ∧ st.leave.nodeDepth = d := by
  rw [run_leave (by omega)] at h
  cases h
  refine ⟨rfl, ?_⟩
  change st.nodeDepth - 1 = d
  omega

/-- The operations of a node, one after the other. -/
theorem run_node {name pad : List (BitVec 8)} {items rest : DtItems} {loc : ℕ} :
    ((DtItems.node name pad items rest).ops stringsOffset loc).foldlM run st =
      st.run (.enter (nodeInit loc)) >>= fun u =>
        (items.ops stringsOffset (loc + 5 + name.length + pad.length)).foldlM run u >>= fun v =>
          v.run .leave >>= (rest.ops stringsOffset
            (loc + 9 + name.length + pad.length + items.encode.length)).foldlM run := by
  rw [DtItems.ops, List.foldlM_cons]
  congr 1
  funext u
  rw [List.foldlM_append]
  rfl

/-- The items are left at the depth at which they were entered. -/
theorem run_depth : ∀ {items : DtItems} {loc : ℕ} {st u : DtbState},
    (items.ops stringsOffset loc).foldlM run st = .ok u → u.nodeDepth = st.nodeDepth
  | .nil, _, _, _, h => by
    cases h
    rfl
  | .nop rest, _, _, _, h => by
    have h : (rest.ops stringsOffset _).foldlM run _ = .ok _ := h
    exact run_depth h
  | .prop _ _ _ _, _, st, _, h => by
    obtain ⟨v, hv, h⟩ := bind_eq_ok.mp h
    exact (run_depth h).trans (run_prop_depth hv)
  | .node _ _ _ _, _, st, _, h => by
    rw [run_node] at h
    obtain ⟨v, hv, h⟩ := bind_eq_ok.mp h
    obtain ⟨w, hw, h⟩ := bind_eq_ok.mp h
    obtain ⟨x, hx, h⟩ := bind_eq_ok.mp h
    have hdepth : w.nodeDepth = st.nodeDepth + 1 := (run_depth hw).trans (run_enter_depth hv)
    obtain ⟨rfl, hleave⟩ := run_leave_cases hdepth hx
    exact (run_depth h).trans hleave

/-- A run over a node : its start, its items, its end, and the items after it. -/
theorem run_node_cases {name pad : List (BitVec 8)} {items rest : DtItems} {loc : ℕ}
    (h : ((DtItems.node name pad items rest).ops stringsOffset loc).foldlM run st = .ok u) :
    ∃ v w, st.run (.enter (nodeInit loc)) = .ok v ∧
      (items.ops stringsOffset (loc + 5 + name.length + pad.length)).foldlM run v = .ok w ∧
      w.nodeDepth = st.nodeDepth + 1 ∧ w.leave.nodeDepth = st.nodeDepth ∧
      (rest.ops stringsOffset
        (loc + 9 + name.length + pad.length + items.encode.length)).foldlM run w.leave = .ok u := by
  rw [run_node] at h
  obtain ⟨v, hv, h⟩ := bind_eq_ok.mp h
  obtain ⟨w, hw, h⟩ := bind_eq_ok.mp h
  obtain ⟨x, hx, h⟩ := bind_eq_ok.mp h
  have hdepth : w.nodeDepth = st.nodeDepth + 1 := (run_depth hw).trans (run_enter_depth hv)
  obtain ⟨rfl, hleave⟩ := run_leave_cases hdepth hx
  exact ⟨v, w, hv, hw, hdepth, hleave, h⟩

/-- The devices of the items are added where the next device may be linked. -/
theorem run_items (stringsOffset : ℕ) : ∀ (items : DtItems) (loc : ℕ) {st : DtbState}, st.Ready →
    ∃ st', (items.ops stringsOffset loc).foldlM run st = .ok st' ∧
      Advanced stringsOffset items loc st st'
  | .nil, _, st, _ => ⟨st, rfl, .nil st⟩
  | .nop rest, _, _, hst => by
    obtain ⟨st', hrun, hadv⟩ := run_items stringsOffset rest _ hst
    exact ⟨st', hrun, hadv.nop⟩
  | .prop _ _ _ rest, _, st, hst => by
    obtain ⟨st', hrun, hadv⟩ := run_items stringsOffset rest _ (hst.added _)
    refine ⟨st', ?_, hadv.prop hst⟩
    rw [DtItems.ops, List.foldlM_cons, run, addDevice_eq hst, ok_bind, hrun]
  | .node name pad items rest, loc, st, hst => by
    obtain ⟨st₁, hrun₁, hadv₁⟩ := run_items stringsOffset items _ (hst.enter (nodeInit loc))
    have hleft : Advanced.Left items (nodeInit loc) st st₁.leave := Advanced.left hst rfl hadv₁
    obtain ⟨st', hrun, hadv⟩ := run_items stringsOffset rest _ (hleft.ready hst)
    refine ⟨st', ?_, .node hst (fun _ => rfl) hadv₁ hadv⟩
    have hpos : st₁.nodeDepth ≠ 0 := by
      rw [hadv₁.depth]
      exact Nat.succ_ne_zero _
    rw [run_node, run_enter _ (addDevice_eq hst _), ok_bind]
    change (items.ops stringsOffset _).foldlM run
      { st.added (nodeInit loc) with nodeDepth := st.nodeDepth + 1 } >>= _ = _
    rw [hrun₁, ok_bind, run_leave hpos, ok_bind, hrun]

end DtbState

/-! ## The loop -/

section Loop

variable {dtb : ℕ → BitVec 8} {stringsOffset total limit stop loc : ℕ} {st u : DtbState}

theorem dtbToken_nop (hread : dtbReadInt dtb loc = 4) :
    dtbToken dtb stringsOffset limit loc st = .ok (loc, st) := by
  simp only [dtbToken, hread]

theorem dtbToken_end (hread : dtbReadInt dtb loc = 9) :
    dtbToken dtb stringsOffset limit loc st = .ok (loc, st) := by
  simp only [dtbToken, hread]

theorem dtbToken_leave (hread : dtbReadInt dtb loc = 2) (hd : 0 < st.nodeDepth) :
    dtbToken dtb stringsOffset limit loc st = .ok (loc, st.leave) := by
  simp only [dtbToken, hread, if_neg hd.ne', DtbState.leave]

theorem dtbToken_prop (stringsOffset limit : ℕ) (st : DtbState) {nameOff : ℕ}
    {value : List (BitVec 8)} (pad : List (BitVec 8))
    (hb : BytesAt dtb loc (wordBytes 3 ++ wordBytes value.length ++ wordBytes nameOff))
    (hname : stringsOffset + nameOff < 2 ^ 31)
    (hpad : value.length + pad.length = (value.length + 3) / 4 * 4)
    (hlt : loc + 12 + value.length + pad.length < 2 ^ 31) :
    dtbToken dtb stringsOffset limit loc st =
      st.run (.prop fun _ => ⟨0, 0, stringsOffset + nameOff, true, loc + 12, value.length⟩) >>=
        fun u => .ok (loc + 8 + value.length + pad.length, u) := by
  obtain ⟨hb, hoff⟩ := bytesAt_append.1 hb
  obtain ⟨htok, hlen⟩ := bytesAt_append.1 hb
  have htok := htok.readInt (by decide)
  have hlen : dtbReadInt dtb (loc + 4) = value.length := hlen.readInt (by omega)
  have hoff : dtbReadInt dtb (loc + 8) = nameOff := hoff.readInt (by omega)
  have hloc : u32 (loc + (u32 (value.length + 3) / 4 * 4 + 8)) =
      loc + 8 + value.length + pad.length := by
    rw [u32_of_lt (n := value.length + 3) (by omega), u32_of_lt (by omega)]
    omega
  simp only [dtbToken, htok]
  rw [u32_of_lt (n := loc + 4) (by omega), u32_of_lt (n := loc + 8) (by omega), hlen, hoff,
    u32_of_lt (n := stringsOffset + nameOff) (by omega), u32_of_lt (n := loc + 12) (by omega), hloc]
  rfl

theorem dtbToken_node (stringsOffset limit : ℕ) {name : List (BitVec 8)} (pad : List (BitVec 8))
    (hb : BytesAt dtb loc (wordBytes 1 ++ name ++ [0])) (hne : 0 ∉ name)
    (hpad : name.length + 1 + pad.length = (name.length + 4) / 4 * 4)
    (hlt : loc + 5 + name.length + pad.length < 2 ^ 31) (hdepth : st.nodeDepth + 1 ≤ 13)
    (hlimit : name.length < limit) :
    dtbToken dtb stringsOffset limit loc st = st.run (.enter (nodeInit loc)) >>= fun u =>
      .ok (loc + 1 + name.length + pad.length, u) := by
  rw [List.append_assoc] at hb
  obtain ⟨htok, hname⟩ := bytesAt_append.1 hb
  have htok := htok.readInt (by decide)
  have hstop : 2 ^ 31 < 2 ^ 32 := by decide
  have hlen : nameLength dtb loc limit 0 = .ok (0 + name.length) :=
    nameLength_eq hstop hname hne (by omega) hlimit
  have hinit : (fun node : DeviceInfo => { node with
      name := u32 (loc + 4), isLeaf := false, firstChild := 0, nextSibling := 0 }) =
      nodeInit loc := by
    rw [u32_of_lt (n := loc + 4) (by omega)]
    rfl
  have hloc : u32 (loc + (0 + name.length + 4) / 4 * 4) = loc + 1 + name.length + pad.length := by
    rw [u32_of_lt (by omega)]
    omega
  simp only [dtbToken, htok]
  rw [hinit, DtbState.run]
  cases hadd : st.addDevice (nodeInit loc) with
  | error e => rfl
  | ok u =>
    have hshallow : ¬ u.nodeDepth + 1 ≥ 14 := by
      rw [DtbState.addDevice_depth hadd]
      omega
    simp only [ok_bind, if_neg hshallow, hlen, pure_eq_ok, hloc]

/-- The loop after one token. -/
theorem dtbLoop_step {loc' next : ℕ} {x : Except (Fault Panic) DtbState} (fuel : ℕ)
    (hlt : loc < stop)
    (htok : dtbToken dtb stringsOffset limit loc st = x >>= fun u => .ok (loc', u))
    (hnext : loc' + 4 = next) (hloc : next < 2 ^ 32) :
    dtbLoop dtb stringsOffset limit stop (fuel + 1) loc st =
      x >>= dtbLoop dtb stringsOffset limit stop fuel next := by
  subst hnext
  rw [dtbLoop, if_pos hlt, htok]
  cases x with
  | error e => rfl
  | ok u =>
    simp only [ok_bind, u32_of_lt hloc]

theorem length_encode_prop (nameOff : ℕ) (value pad : List (BitVec 8)) (rest : DtItems) :
    (DtItems.prop nameOff value pad rest).encode.length =
      12 + value.length + pad.length + rest.encode.length := by
  simp only [DtItems.encode, List.length_append, length_wordBytes]

theorem length_encode_node (name pad : List (BitVec 8)) (items rest : DtItems) :
    (DtItems.node name pad items rest).encode.length =
      9 + name.length + pad.length + items.encode.length + rest.encode.length := by
  simp only [DtItems.encode, List.length_append, length_wordBytes, List.length_singleton]
  omega

theorem bytesAt_prop {nameOff : ℕ} {value pad : List (BitVec 8)} {rest : DtItems}
    (h : BytesAt dtb loc (DtItems.prop nameOff value pad rest).encode) :
    BytesAt dtb loc (wordBytes 3 ++ wordBytes value.length ++ wordBytes nameOff) ∧
      BytesAt dtb (loc + 12 + value.length + pad.length) rest.encode := by
  obtain ⟨h, hrest⟩ := bytesAt_append.1 h
  rw [List.append_assoc] at h
  refine ⟨(bytesAt_append.1 h).1, ?_⟩
  simpa only [List.length_append, length_wordBytes, ← Nat.add_assoc] using hrest

theorem bytesAt_node {name pad : List (BitVec 8)} {items rest : DtItems}
    (h : BytesAt dtb loc (DtItems.node name pad items rest).encode) :
    BytesAt dtb loc (wordBytes 1 ++ name ++ [0]) ∧
      BytesAt dtb (loc + 5 + name.length + pad.length) items.encode ∧
      BytesAt dtb (loc + 5 + name.length + pad.length + items.encode.length) (wordBytes 2) ∧
      BytesAt dtb (loc + 9 + name.length + pad.length + items.encode.length) rest.encode := by
  obtain ⟨h, hrest⟩ := bytesAt_append.1 h
  obtain ⟨h, hend⟩ := bytesAt_append.1 h
  obtain ⟨h, hitems⟩ := bytesAt_append.1 h
  refine ⟨(bytesAt_append.1 h).1, ?_, ?_, ?_⟩
  · convert hitems using 1
    simp only [List.length_append, length_wordBytes, List.length_singleton]
    omega
  · convert hend using 1
    simp only [List.length_append, length_wordBytes, List.length_singleton]
    omega
  · convert hrest using 1
    simp only [List.length_append, length_wordBytes, List.length_singleton]
    omega

/-- The loop reads the items at `loc` and does their operations. -/
theorem dtbLoop_items (hstop : stop < 2 ^ 31) (htotal : total < 2 ^ 31) :
    ∀ {items : DtItems} {loc : ℕ} {st : DtbState}, BytesAt dtb loc items.encode →
      items.Wf stringsOffset total → st.nodeDepth + items.depth ≤ 13 →
      loc + items.encode.length < stop → items.encode.length ≤ limit →
      ∀ fuel, dtbLoop dtb stringsOffset limit stop (fuel + items.tokens) loc st =
        (items.ops stringsOffset loc).foldlM DtbState.run st >>=
          dtbLoop dtb stringsOffset limit stop fuel (loc + items.encode.length)
  | .nil, loc, st, _, _, _, _, _, _ => rfl
  | .nop rest, loc, st, hb, hwf, hdepth, hlt, hlimit, fuel => by
    obtain ⟨hword, hb⟩ := bytesAt_append.1 hb
    rw [length_wordBytes] at hb
    rw [DtItems.encode, List.length_append, length_wordBytes] at hlt hlimit ⊢
    rw [DtItems.tokens, Nat.add_comm 1, ← Nat.add_assoc, dtbLoop_step (x := .ok st) _ (by omega)
      (dtbToken_nop (hword.readInt (by decide))) rfl (by omega), ok_bind, ← Nat.add_assoc]
    exact dtbLoop_items hstop htotal hb hwf hdepth (by omega) (by omega) fuel
  | .prop nameOff value pad rest, loc, st, hb, ⟨hname, hpad, hwf⟩, hdepth, hlt, hlimit, fuel => by
    rw [length_encode_prop] at hlt hlimit ⊢
    obtain ⟨hb, hrest⟩ := bytesAt_prop hb
    have htok := dtbToken_prop stringsOffset limit st pad hb (by omega) hpad (by omega)
    rw [DtItems.tokens, Nat.add_comm 1, ← Nat.add_assoc,
      dtbLoop_step _ (by omega) htok (show _ = loc + 12 + value.length + pad.length by omega)
        (by omega), DtItems.ops, List.foldlM_cons]
    cases hrun : st.run _ with
    | error e => rfl
    | ok u =>
      rw [ok_bind, ok_bind, dtbLoop_items hstop htotal hrest hwf ?_ (by omega) (by omega) fuel]
      · simp only [← Nat.add_assoc]
      · rw [DtbState.run_prop_depth hrun]
        exact hdepth
  | .node name pad items rest, loc, st, hb, ⟨hne, hpad, hwf, hwf'⟩, hdepth, hlt, hlimit, fuel => by
    -- the start of the node, its items one deeper, its end, and the items after it
    rw [length_encode_node] at hlt hlimit ⊢
    rw [DtItems.depth] at hdepth
    obtain ⟨hb, hitems, hend, hrest⟩ := bytesAt_node hb
    have htok := dtbToken_node stringsOffset limit pad hb hne hpad (by omega)
      (show st.nodeDepth + 1 ≤ 13 by omega) (by omega)
    rw [DtItems.tokens, show fuel + (2 + items.tokens + rest.tokens) =
      fuel + rest.tokens + 1 + items.tokens + 1 by omega,
      dtbLoop_step _ (by omega) htok (show _ = loc + 5 + name.length + pad.length by omega)
        (by omega), DtbState.run_node]
    cases hu : st.run (.enter (nodeInit loc)) with
    | error e => rfl
    | ok u =>
      have hentered := DtbState.run_enter_depth hu
      rw [ok_bind, ok_bind, dtbLoop_items hstop htotal hitems hwf (by omega) (by omega) (by omega)]
      cases hv : (items.ops stringsOffset _).foldlM DtbState.run u with
      | error e => rfl
      | ok v =>
        have hleft : v.nodeDepth = st.nodeDepth + 1 := (DtbState.run_depth hv).trans hentered
        have hend : dtbToken dtb stringsOffset limit
            (loc + 5 + name.length + pad.length + items.encode.length) v = .ok (_, v.leave) :=
          dtbToken_leave (hend.readInt (by decide)) (by omega)
        have hnext : loc + 5 + name.length + pad.length + items.encode.length + 4 =
            loc + 9 + name.length + pad.length + items.encode.length := by omega
        rw [ok_bind, ok_bind, DtbState.run_leave (by omega), ok_bind,
          dtbLoop_step (x := .ok v.leave) _ (by omega) hend hnext (by omega), ok_bind,
          dtbLoop_items hstop htotal hrest hwf' ?_ (by omega) (by omega)]
        · simp only [← Nat.add_assoc]
        · change v.nodeDepth - 1 + _ ≤ 13
          omega

end Loop

/-! ## The dump -/

theorem DtItems.tokens_le : ∀ items : DtItems, items.tokens ≤ items.encode.length
  | .nil => le_rfl
  | .nop rest => by
    have := tokens_le rest
    rw [tokens, encode, List.length_append, length_wordBytes]
    omega
  | .prop _ _ _ rest => by
    have := tokens_le rest
    rw [tokens, length_encode_prop]
    omega
  | .node _ _ items rest => by
    have := tokens_le items
    have := tokens_le rest
    rw [tokens, length_encode_node]
    omega

theorem DtItems.Blank.last_eq : ∀ {items : DtItems}, items.Blank → ∀ cur old,
    items.last cur old = old
  | .nil, _, _, _ => rfl
  | .nop rest, h, cur, old => by
    have h : rest.Blank := h
    exact h.last_eq cur old

theorem DtItems.Blank.size_eq : ∀ {items : DtItems}, items.Blank → items.size = 0
  | .nil, _ => rfl
  | .nop rest, h => by
    have h : rest.Blank := h
    exact h.size_eq

/-- The last device of depth 0 is the root. -/
theorem DtItems.OneRoot.last_eq_head : ∀ {items : DtItems}, items.OneRoot → ∀ cur old,
    items.last cur old = items.head cur
  | .nop rest, h, cur, old => by
    have h : rest.OneRoot := h
    exact h.last_eq_head cur old
  | .node name pad items rest, h, cur, old => by
    have hblank : rest.Blank := h
    rw [last, hblank.last_eq, head, if_neg (by rw [size]; omega)]

/-- The loop over a well-formed device tree does the operations of its items. -/
theorem dtbLoop_blob {dtb : ℕ → BitVec 8} {items : DtItems} (hblob : DtBlob dtb items)
    {fuel : ℕ} (hfuel : dtbReadInt dtb 36 ≤ fuel) {st : DtbState} (hst : st.nodeDepth = 0) :
    dtbLoop dtb (dtbReadInt dtb 12) fuel (u32 (dtbReadInt dtb 8 + dtbReadInt dtb 36)) fuel
        (dtbReadInt dtb 8) st =
      (items.ops (dtbReadInt dtb 12) (dtbReadInt dtb 8)).foldlM DtbState.run st := by
  have hfits := hblob.fits
  have htotal := hblob.total_lt
  have hsize := hblob.size
  have htokens := items.tokens_le
  have hdepth := hblob.depth_le
  rw [List.length_append, length_wordBytes] at hsize
  obtain ⟨hitems, hend⟩ := bytesAt_append.1 hblob.bytes
  have hstop : dtbReadInt dtb 8 + dtbReadInt dtb 36 < 2 ^ 31 := by omega
  obtain ⟨k, rfl⟩ : ∃ k, fuel = k + 1 + 1 + items.tokens := ⟨fuel - items.tokens - 2, by omega⟩
  rw [u32_of_lt (hstop.trans (by decide)), dtbLoop_items hstop htotal hitems hblob.wf (by omega)
    (by omega) (by omega)]
  cases (items.ops _ _).foldlM DtbState.run st with
  | error e => rfl
  | ok st' =>
    rw [ok_bind, dtbLoop_step (x := .ok st') _ (by omega)
      (dtbToken_end (hend.readInt (by decide))) rfl (by omega), ok_bind, dtbLoop, if_neg (by omega)]

theorem ready_init (mem : ℕ → DeviceInfo) {outputLocation : ℕ} (hout : 0 < outputLocation) :
    DtbState.Ready ⟨mem, outputLocation, fun _ => 0, 0⟩ :=
  ⟨hout, fun _ _ => rfl, hout, fun h => absurd h (lt_irrefl 0)⟩

/-- The dump of a well-formed device tree returns, with the devices in the order of their
tokens. -/
theorem dtbDump_dumped {dtb : ℕ → BitVec 8} {items : DtItems} (hblob : DtBlob dtb items)
    (mem : ℕ → DeviceInfo) {outputLocation fuel : ℕ} (hout : 0 < outputLocation)
    (hfuel : dtbReadInt dtb 36 ≤ fuel) :
    ∃ r, dtbDump fuel dtb mem outputLocation = .ok r ∧ r.root = items.head outputLocation ∧
      items.DumpedAt r.mem (dtbReadInt dtb 12) (dtbReadInt dtb 8) outputLocation := by
  obtain ⟨st, hrun, hadv⟩ := DtbState.run_items (dtbReadInt dtb 12) items
    (dtbReadInt dtb 8) (ready_init mem hout)
  have hroot : st.nodeStack 0 = items.head outputLocation :=
    hadv.last.trans (hblob.oneRoot.last_eq_head _ _)
  refine ⟨⟨st.mem, st.nodeStack 0, st.curLoc⟩, ?_, hroot, hadv.dumped⟩
  simp only [dtbDump, hblob.magic, hblob.version, hout.ne', ne_eq, not_true_eq_false, if_false,
    pure_eq_ok]
  rw [dtbLoop_blob hblob hfuel rfl, hrun, ok_bind]

/-- The dump of a well-formed device tree returns, and its devices are the items of the
structure block. -/
theorem dtbDump_correct {dtb : ℕ → BitVec 8} {items : DtItems} (hblob : DtBlob dtb items)
    (mem : ℕ → DeviceInfo) {outputLocation fuel : ℕ} (hout : 0 < outputLocation)
    (hfuel : dtbReadInt dtb 36 ≤ fuel) :
    ∃ r, dtbDump fuel dtb mem outputLocation = .ok r ∧
      ListsItems r.mem (dtbReadInt dtb 12) items (dtbReadInt dtb 8) r.root := by
  obtain ⟨r, hr, hroot, hdumped⟩ := dtbDump_dumped hblob mem hout hfuel
  refine ⟨r, hr, ?_⟩
  rw [hroot]
  exact hdumped.lists hout

/-- A device tree with one property and a NOP in its root. -/
def sampleItems : DtItems :=
  .node [] [0, 0, 0] (.prop 0 [7] [0, 0, 0] (.nop .nil)) .nil

/-- The device tree of `sampleItems`. -/
def sampleDtb (p : ℕ) : BitVec 8 :=
  ((wordBytes 0xd00dfeed ++ wordBytes 82 ++ wordBytes 40 ++ wordBytes 80 ++ wordBytes 0 ++
    wordBytes 17 ++ wordBytes 16 ++ wordBytes 0 ++ wordBytes 2 ++ wordBytes 36 ++
    sampleItems.encode ++ wordBytes 9 ++ [112, 0]).getD p 0)

theorem sampleDtb_blob : DtBlob sampleDtb sampleItems where
  magic := by decide
  version := by decide
  total_lt := by decide
  wf := by simp only [sampleItems, DtItems.Wf]; decide
  oneRoot := trivial
  depth_le := by decide
  size := by decide
  fits := by decide
  bytes := by unfold BytesAt; decide

theorem dtbDump_correct_sample :
    ∃ r, dtbDump 36 sampleDtb (fun _ => ⟨0, 0, 0, false, 0, 0⟩) 4096 = .ok r ∧
      ListsItems r.mem (dtbReadInt sampleDtb 12) sampleItems (dtbReadInt sampleDtb 8) r.root :=
  dtbDump_correct sampleDtb_blob _ (by decide) (by decide)

end Toastium
