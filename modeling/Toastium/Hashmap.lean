import Toastium.Layout

/-!
# Hash maps

`hashmap_get`, `hashmap_insert` and `hashmap_remove` of `hashmap.c`. A bucket is a list of
leaves, linked through `next_leaf`. `hashmap_remove` gives the leaf back but does not
unlink it : the variable for the parent's link holds the address of the leaf itself, so
the link that is overwritten is the leaf's own, with its own value. A bucket can
therefore hold leaves that were given back, and two buckets can come to share leaves.

What still holds is `OnlyPairs` : a lookup returns nothing but data that was inserted under
the key.
-/

set_option linter.unusedSectionVars false

namespace Toastium

/-- `builtin_num_hash`. -/
def builtinNumHash (key : ℕ) : ℕ :=
  key * 0x100000001b3 % 2 ^ 64

/-- `builtin_word_hash`, on the bytes before the terminating zero. -/
def builtinWordHash (key : List (BitVec 8)) : ℕ :=
  (key.foldl (fun hash byte => (hash ^^^ byte.setWidth 64) * 0x100000001b3#64)
    0x3e4c3161c5e6354a#64).toNat

/-- `hashmap_leaf`. -/
structure HashmapLeaf (κ : Type*) where
  nextLeaf : ℕ
  key : κ
  data : ℕ

/-- `hashmap`, with the memory of its leaves. `live` are the leaves not given back. -/
structure Hashmap (κ : Type*) where
  len : ℕ
  start : ℕ → ℕ
  leaf : ℕ → Option (HashmapLeaf κ)
  live : List ℕ

namespace Hashmap

variable {κ : Type*} [DecidableEq κ] (hash : κ → ℕ)

/-- The loop of `hashmap_get`, at most `fuel` times. -/
def getFrom (m : Hashmap κ) (key : κ) : ℕ → ℕ → Except (Fault Panic) ℕ
  | 0, _ => .error .fuel
  | fuel + 1, currentLeaf =>
    if currentLeaf = 0 then .ok 0
    else match m.leaf currentLeaf with
      | none => .error (.wild currentLeaf 0)
      | some l => if l.key = key then .ok l.data else m.getFrom key fuel l.nextLeaf

/-- `hashmap_get`. -/
def get (fuel : ℕ) (m : Hashmap κ) (key : κ) : Except (Fault Panic) ℕ :=
  m.getFrom key fuel (m.start (hash key % m.len))

/-- `hashmap_insert`. -/
def insert (src : AddrSource) (m : Hashmap κ) (key : κ) (data : ℕ) :
    Except (Fault Panic) (Hashmap κ) :=
  match src.next m.live with
  | none => .error (.panic .outOfFreePages)
  | some newLeaf =>
    let index := hash key % m.len
    .ok { m with
      leaf := Function.update m.leaf newLeaf (some ⟨m.start index, key, data⟩)
      start := Function.update m.start index newLeaf
      live := newLeaf :: m.live }

/-- The loop of `hashmap_remove`, at most `fuel` times. `parent` is
`current_leaf_parent_ptr`, through which a `next_leaf` is written. -/
def removeFrom (m : Hashmap κ) (key : κ) : ℕ → ℕ → ℕ → Except (Fault Panic) (ℕ × Hashmap κ)
  | 0, _, _ => .error .fuel
  | fuel + 1, parent, currentLeaf =>
    if currentLeaf = 0 then .ok (0, m)
    else match m.leaf currentLeaf with
      | none => .error (.wild currentLeaf 0)
      | some l =>
        if l.key = key then
          .ok (l.data, { m with
            leaf := Function.update m.leaf parent
              ((m.leaf parent).map fun pl => { pl with nextLeaf := l.nextLeaf })
            live := m.live.erase currentLeaf })
        else m.removeFrom key fuel l.nextLeaf l.nextLeaf

/-- `hashmap_remove`. -/
def remove (fuel : ℕ) (m : Hashmap κ) (key : κ) : Except (Fault Panic) (ℕ × Hashmap κ) :=
  let first := m.start (hash key % m.len)
  m.removeFrom key fuel first first

/-- Every leaf in memory, given back or not, holds a key and data related by `P`. -/
def OnlyPairs (m : Hashmap κ) (P : κ → ℕ → Prop) : Prop :=
  ∀ addr l, m.leaf addr = some l → P l.key l.data

namespace OnlyPairs

variable {m m' : Hashmap κ} {P : κ → ℕ → Prop} {key : κ} {r : ℕ}

theorem getFrom (hm : m.OnlyPairs P) :
    ∀ {fuel currentLeaf : ℕ}, m.getFrom key fuel currentLeaf = .ok r → r = 0 ∨ P key r
  | fuel + 1, currentLeaf, h => by
    rw [Hashmap.getFrom] at h
    split_ifs at h
    · exact Or.inl (Except.ok.inj h).symm
    · cases hl : m.leaf currentLeaf with
      | none =>
        rw [hl] at h
        cases h
      | some l =>
        simp only [hl] at h
        split_ifs at h with hk
        · rw [← hk, ← Except.ok.inj h]
          exact Or.inr (hm currentLeaf l hl)
        · exact hm.getFrom h

theorem insert {src : AddrSource} {data : ℕ} (hm : m.OnlyPairs P) (hP : P key data)
    (h : m.insert hash src key data = .ok m') : m'.OnlyPairs P := by
  unfold Hashmap.insert at h
  split at h
  · cases h
  · cases h
    intro addr l hl
    simp only [Function.update_apply] at hl
    split_ifs at hl
    · cases hl
      exact hP
    · exact hm addr l hl

theorem removeFrom (hm : m.OnlyPairs P) :
    ∀ {fuel parent currentLeaf : ℕ}, m.removeFrom key fuel parent currentLeaf = .ok (r, m') →
      m'.OnlyPairs P
  | fuel + 1, parent, currentLeaf, h => by
    rw [Hashmap.removeFrom] at h
    split_ifs at h
    · cases h
      exact hm
    · cases hc : m.leaf currentLeaf with
      | none =>
        rw [hc] at h
        cases h
      | some l =>
        simp only [hc] at h
        split_ifs at h
        · cases h
          intro addr l' hl'
          simp only [Function.update_apply] at hl'
          split_ifs at hl'
          · obtain ⟨pl, hpl, rfl⟩ := Option.map_eq_some_iff.mp hl'
            exact hm parent pl hpl
          · exact hm addr l' hl'
        · exact hm.removeFrom h

theorem mono {Q : κ → ℕ → Prop} (hm : m.OnlyPairs P) (h : ∀ k d, P k d → Q k d) :
    m.OnlyPairs Q :=
  fun addr l hl => h _ _ (hm addr l hl)

end OnlyPairs

end Hashmap

end Toastium
