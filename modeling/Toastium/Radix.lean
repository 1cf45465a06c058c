import Toastium.Layout

/-!
# Radix trees

`radix_get`, `radix_insert`, `radix_remove` and `radix_create` of `radix.c`. A tree of depth
`d` and width `s` has nodes of `2 ^ s` words. The word of a node at height `j` on the path of a
key is picked by the key's bits from `s · j` on, and the word at height 0 is the value, 0 for
none. The shifts of the source stay below 64 for `d · s < 64`.
-/

namespace Toastium

/-- `(key >> (height * depth_size)) & mask`. -/
def radixIdx (key height depthSize : ℕ) : ℕ :=
  key / 2 ^ (height * depthSize) % 2 ^ depthSize

/-- `radix_get`. -/
def radixGet (h : Heap (BitVec 64)) (key depthSize : ℕ) : ℕ → ℕ → Except (Fault Panic) ℕ
  | 0, addr => .ok addr
  | depth + 1, addr => do
    let addr ← h.load addr (radixIdx key depth depthSize)
    if addr = 0 then return 0
    radixGet h key depthSize depth addr.toNat

/-- `mem_alloc` of a zeroed node. -/
abbrev NodeSource (depthSize : ℕ) := Source (BitVec 64) (2 ^ depthSize) 8

variable {depthSize : ℕ} (nodeSrc : NodeSource depthSize)

/-- The loop of `radix_insert` : the leaf node of `key`, with the nodes missing on the
way to it created. -/
def radixDescend (key : ℕ) :
    ℕ → ℕ → Heap (BitVec 64) → Except (Fault Panic) (ℕ × Heap (BitVec 64))
  | 0, addr, h => .ok (addr, h)
  | height + 1, addr, h => do
    let idx := radixIdx key (height + 1) depthSize
    let h ← if (← h.load addr idx) = 0 then do
        let (newNode, h) ← nodeSrc.alloc .outOfFreePages h
        h.store addr idx (BitVec.ofNat 64 newNode)
      else pure h
    let next ← h.load addr idx
    radixDescend key height next.toNat h

/-- `radix_insert`. Returns the old value. -/
def radixInsert (h : Heap (BitVec 64)) (addr key childAddr depth : ℕ) :
    Except (Fault Panic) (BitVec 64 × Heap (BitVec 64)) := do
  if key ≥ 2 ^ (depthSize * depth) then .error (.panic .addrKeyLargerThenRadix)
  let (leaf, h) ← radixDescend nodeSrc key (depth - 1) addr h
  let oldAddr ← h.load leaf (radixIdx key 0 depthSize)
  let h ← h.store leaf (radixIdx key 0 depthSize) (BitVec.ofNat 64 childAddr)
  return (oldAddr, h)

/-- The loop of `radix_remove` : the leaf node of `key`, none if a node on the way to it is
missing. -/
def radixFind (h : Heap (BitVec 64)) (key depthSize : ℕ) :
    ℕ → ℕ → Except (Fault Panic) (Option ℕ)
  | 0, addr => .ok (some addr)
  | height + 1, addr => do
    let next ← h.load addr (radixIdx key (height + 1) depthSize)
    if next = 0 then return none
    radixFind h key depthSize height next.toNat

/-- `radix_remove`. The old value is returned as a `bool8`, its lowest byte. -/
def radixRemove (h : Heap (BitVec 64)) (addr key depth depthSize : ℕ) :
    Except (Fault Panic) (BitVec 8 × Heap (BitVec 64)) := do
  match ← radixFind h key depthSize (depth - 1) addr with
  | none => return (0, h)
  | some leaf =>
    let oldAddr ← h.load leaf (radixIdx key 0 depthSize)
    let h ← h.store leaf (radixIdx key 0 depthSize) 0
    return (oldAddr.setWidth 8, h)

/-- `radix_create`. -/
def radixCreate (h : Heap (BitVec 64)) : Except (Fault Panic) (ℕ × Heap (BitVec 64)) :=
  nodeSrc.alloc .outOfFreePages h

end Toastium
