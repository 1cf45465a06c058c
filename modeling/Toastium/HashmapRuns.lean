import Toastium.Reach
import Toastium.Hashmap

/-!
# Insertions and removals in a hash map

What a hash map should hold is the list of its bindings, the newest first. `Represents` says
that the chain of each bucket is made of the leaves of the bindings with that hash, and that
none of them was given back. `hashmap_insert` keeps this, and a lookup then returns the data of
the newest binding of the key (`Represents.get`).

`hashmap_remove` returns that data too, but leaves the chain as it is (`Represents.remove_some`),
so it is right exactly for a key without a binding : `hashmapRuns_correct_iff`, for both key
types.
-/

set_option linter.unusedSectionVars false

namespace Toastium

namespace Hashmap

/-- The leaf of an insertion, with its key and its data. -/
structure Binding (κ : Type*) where
  leaf : ℕ
  key : κ
  data : ℕ
  deriving DecidableEq

variable {κ : Type*} [DecidableEq κ] {hash : κ → ℕ} {m m' : Hashmap κ} {bs : List (Binding κ)}

/-- The data of the newest binding of a key, 0 if there is none. -/
def dataOf (bs : List (Binding κ)) (key : κ) : ℕ :=
  ((bs.find? fun b => b.key = key).map Binding.data).getD 0

/-- The bindings without the newest one of a key. -/
def unbind (bs : List (Binding κ)) (key : κ) : List (Binding κ) :=
  bs.eraseP fun b => b.key = key

/-- The leaves from `addr` on are those of the bindings. -/
def LeafChain (m : Hashmap κ) : ℕ → List (Binding κ) → Prop
  | addr, [] => addr = 0
  | addr, b :: bs => addr = b.leaf ∧ addr ≠ 0 ∧
    ∃ next, m.leaf addr = some ⟨next, b.key, b.data⟩ ∧ LeafChain m next bs

/-- The bindings in a bucket. -/
def bucket (hash : κ → ℕ) (m : Hashmap κ) (bs : List (Binding κ)) (i : ℕ) : List (Binding κ) :=
  bs.filter fun b => hash b.key % m.len = i

/-- The buckets hold the bindings, and no leaf in them was given back. -/
structure Represents (hash : κ → ℕ) (m : Hashmap κ) (bs : List (Binding κ)) : Prop where
  len_pos : 0 < m.len
  chain : ∀ i < m.len, m.LeafChain (m.start i) (bucket hash m bs i)
  live : ∀ b ∈ bs, b.leaf ∈ m.live

theorem dataOf_cons (b : Binding κ) (bs : List (Binding κ)) (key : κ) :
    dataOf (b :: bs) key = if b.key = key then b.data else dataOf bs key := by
  unfold dataOf
  split_ifs with hb
  · simp [hb]
  · simp [hb]

theorem unbind_cons (b : Binding κ) (bs : List (Binding κ)) (key : κ) :
    unbind (b :: bs) key = if b.key = key then bs else b :: unbind bs key := by
  unfold unbind
  split_ifs with hb
  · simp [hb]
  · simp [hb]

theorem bucket_cons (b : Binding κ) (bs : List (Binding κ)) (i : ℕ) :
    bucket hash m (b :: bs) i =
      if hash b.key % m.len = i then b :: bucket hash m bs i else bucket hash m bs i := by
  unfold bucket
  split_ifs with hb
  · simp [hb]
  · simp [hb]

/-! ## Chains -/

theorem LeafChain.unique : ∀ {addr : ℕ} {l l' : List (Binding κ)},
    m.LeafChain addr l → m.LeafChain addr l' → l = l'
  | _, [], [], _, _ => rfl
  | _, [], b :: l, h, h' => absurd h h'.2.1
  | _, b :: l, [], h, h' => absurd h' h.2.1
  | addr, b :: l, b' :: l', ⟨hb, _, next, hleaf, hl⟩, ⟨hb', _, next', hleaf', hl'⟩ => by
    rw [hleaf] at hleaf'
    obtain ⟨rfl, hkey, hdata⟩ := HashmapLeaf.mk.inj (Option.some.inj hleaf')
    rw [LeafChain.unique hl hl']
    cases b
    cases b'
    subst hb
    cases hb'
    cases hkey
    cases hdata
    rfl

/-- A chain is in the memory of its leaves. -/
theorem LeafChain.congr : ∀ {addr : ℕ} {l : List (Binding κ)}, m.LeafChain addr l →
    (∀ b ∈ l, m'.leaf b.leaf = m.leaf b.leaf) → m'.LeafChain addr l
  | _, [], h, _ => h
  | addr, b :: l, ⟨hb, hne, next, hleaf, hl⟩, hsame => by
    refine ⟨hb, hne, next, ?_, hl.congr fun b' hb' => hsame b' (List.mem_cons_of_mem _ hb')⟩
    rw [hb, hsame b List.mem_cons_self, ← hb, hleaf]

theorem LeafChain.getFrom {key : κ} : ∀ {addr : ℕ} {l : List (Binding κ)}, m.LeafChain addr l →
    m.getFrom key (l.length + 1) addr = .ok (dataOf l key)
  | addr, [], h => by
    rw [Hashmap.getFrom, if_pos (show addr = 0 from h)]
    rfl
  | addr, b :: l, ⟨hb, hne, next, hleaf, hl⟩ => by
    rw [Hashmap.getFrom, if_neg hne, hleaf]
    simp only
    rw [List.length_cons, hl.getFrom, dataOf_cons]
    split_ifs
    · rfl
    · rfl

theorem LeafChain.getFrom_eq {key : κ} {r : ℕ} : ∀ {fuel addr : ℕ} {l : List (Binding κ)},
    m.LeafChain addr l → m.getFrom key fuel addr = .ok r → r = dataOf l key
  | fuel + 1, addr, [], hl, h => by
    rw [Hashmap.getFrom, if_pos (show addr = 0 from hl)] at h
    exact (Except.ok.inj h).symm
  | fuel + 1, addr, b :: l, ⟨_, hne, next, hleaf, hl⟩, h => by
    rw [Hashmap.getFrom, if_neg hne, hleaf] at h
    simp only at h
    rw [dataOf_cons]
    split_ifs at h ⊢ with hk
    · exact (Except.ok.inj h).symm
    · exact hl.getFrom_eq h

/-- A key that is not in the chain is not removed. -/
theorem LeafChain.removeFrom_none {key : κ} : ∀ {addr : ℕ} {l : List (Binding κ)},
    m.LeafChain addr l → (∀ b ∈ l, b.key ≠ key) →
      m.removeFrom key (l.length + 1) addr addr = .ok (0, m)
  | addr, [], h, _ => by rw [Hashmap.removeFrom, if_pos (show addr = 0 from h)]
  | addr, b :: l, ⟨hb, hne, next, hleaf, hl⟩, hnone => by
    rw [Hashmap.removeFrom, if_neg hne, hleaf]
    simp only [if_neg (hnone b List.mem_cons_self)]
    exact hl.removeFrom_none fun b' hb' => hnone b' (List.mem_cons_of_mem _ hb')

theorem LeafChain.removeFrom_none_eq {key : κ} {r : ℕ} : ∀ {fuel addr : ℕ}
    {l : List (Binding κ)}, m.LeafChain addr l → (∀ b ∈ l, b.key ≠ key) →
      m.removeFrom key fuel addr addr = .ok (r, m') → m' = m
  | fuel + 1, addr, [], hl, _, h => by
    rw [Hashmap.removeFrom, if_pos (show addr = 0 from hl)] at h
    cases h
    rfl
  | fuel + 1, addr, b :: l, ⟨_, hne, next, hleaf, hl⟩, hnone, h => by
    rw [Hashmap.removeFrom, if_neg hne, hleaf] at h
    simp only [if_neg (hnone b List.mem_cons_self)] at h
    exact hl.removeFrom_none_eq (fun b' hb' => hnone b' (List.mem_cons_of_mem _ hb')) h

/-- The leaf that is found is given back, and its link is overwritten with itself. -/
theorem LeafChain.removeFrom_some {key : κ} {r : ℕ} : ∀ {fuel addr : ℕ} {l : List (Binding κ)},
    m.LeafChain addr l → (∃ b ∈ l, b.key = key) →
      m.removeFrom key fuel addr addr = .ok (r, m') →
      r = dataOf l key ∧ ∃ leaf, m' = { m with live := m.live.erase leaf }
  | fuel + 1, _, [], _, hsome, _ => by
    obtain ⟨b, hb, -⟩ := hsome
    cases hb
  | fuel + 1, addr, b :: l, ⟨hb, hne, next, hleaf, hl⟩, hsome, h => by
    rw [Hashmap.removeFrom, if_neg hne, hleaf] at h
    simp only at h
    split_ifs at h with hk
    · cases h
      refine ⟨by rw [dataOf_cons, if_pos hk], addr, ?_⟩
      rw [Option.map_some, ← hleaf, Function.update_eq_self]
    · obtain ⟨b', hb', hk'⟩ := hsome
      rcases List.mem_cons.mp hb' with rfl | hb'
      · exact absurd hk' hk
      · obtain ⟨hr, hm⟩ := hl.removeFrom_some ⟨b', hb', hk'⟩ h
        exact ⟨by rw [dataOf_cons, if_neg hk, hr], hm⟩

/-! ## Maps -/

theorem len_insert {src : AddrSource} {key : κ} {data : ℕ}
    (h : m.insert hash src key data = .ok m') : m'.len = m.len := by
  unfold Hashmap.insert at h
  split at h
  · cases h
  · cases h
    rfl

theorem mem_bucket {b : Binding κ} {i : ℕ} :
    b ∈ bucket hash m bs i ↔ b ∈ bs ∧ hash b.key % m.len = i := by
  simp [bucket]

theorem dataOf_bucket (hash : κ → ℕ) (m : Hashmap κ) (key : κ) :
    dataOf (bucket hash m bs (hash key % m.len)) key = dataOf bs key := by
  unfold dataOf bucket
  rw [List.find?_filter]
  congr 3
  funext b
  by_cases hb : b.key = key <;> simp [hb]

theorem dataOf_eq_zero {key : κ} (h : ∀ b ∈ bs, b.key ≠ key) : dataOf bs key = 0 := by
  rw [dataOf, List.find?_eq_none.mpr (by simpa using h)]
  rfl

/-- The data of a key that has a binding is the data of one of them. -/
theorem exists_dataOf_eq {key : κ} : ∀ {bs : List (Binding κ)}, (∃ b ∈ bs, b.key = key) →
    ∃ b ∈ bs, b.key = key ∧ dataOf bs key = b.data
  | b :: bs, ⟨b', hb', hk'⟩ => by
    rw [dataOf_cons]
    split_ifs with hk
    · exact ⟨b, List.mem_cons_self, hk, rfl⟩
    · rcases List.mem_cons.mp hb' with rfl | hb'
      · exact absurd hk' hk
      · obtain ⟨b'', hmem, hkey, hdata⟩ := exists_dataOf_eq ⟨b', hb', hk'⟩
        exact ⟨b'', List.mem_cons_of_mem _ hmem, hkey, hdata⟩

theorem unbind_eq_self {key : κ} (h : ∀ b ∈ bs, b.key ≠ key) : unbind bs key = bs :=
  List.eraseP_of_forall_not (by simpa using h)

namespace Represents

/-- A lookup returns the data of the newest binding. -/
theorem get (h : Represents hash m bs) (key : κ) :
    ∃ fuel, m.get hash fuel key = .ok (dataOf bs key) := by
  have hchain := h.chain _ (Nat.mod_lt (hash key) h.len_pos)
  exact ⟨(bucket hash m bs (hash key % m.len)).length + 1,
    hchain.getFrom.trans (by rw [dataOf_bucket])⟩

/-- The same lookup after leaves were given back. -/
theorem get_eq_of_live {key : κ} {fuel r : ℕ} (h : Represents hash m bs) (live : List ℕ)
    (hget : ({ m with live := live } : Hashmap κ).get hash fuel key = .ok r) :
    r = dataOf bs key := by
  have hchain := h.chain _ (Nat.mod_lt (hash key) h.len_pos)
  have hsame : ({ m with live := live } : Hashmap κ).LeafChain (m.start (hash key % m.len))
      (bucket hash m bs (hash key % m.len)) := hchain.congr fun _ _ => rfl
  rw [hsame.getFrom_eq hget, dataOf_bucket]

theorem get_eq {key : κ} {fuel r : ℕ} (h : Represents hash m bs)
    (hget : m.get hash fuel key = .ok r) : r = dataOf bs key :=
  h.get_eq_of_live m.live hget

/-- The map after an insertion. -/
theorem insert {src : AddrSource} {key : κ} {data : ℕ} (h : Represents hash m bs)
    (hins : m.insert hash src key data = .ok m') :
    Represents hash m' (⟨m'.start (hash key % m.len), key, data⟩ :: bs) := by
  unfold Hashmap.insert at hins
  split at hins
  · cases hins
  · rename_i newLeaf hnext
    cases hins
    have hne : ∀ b ∈ bs, b.leaf ≠ newLeaf := fun b hb e => src.fresh hnext (e ▸ h.live b hb)
    have hold : ∀ i < m.len, LeafChain { m with
        leaf := Function.update m.leaf newLeaf (some ⟨m.start (hash key % m.len), key, data⟩)
        start := Function.update m.start (hash key % m.len) newLeaf
        live := newLeaf :: m.live } (m.start i) (bucket hash m bs i) := fun i hi =>
      (h.chain i hi).congr fun b hb => Function.update_of_ne (hne b (mem_bucket.mp hb).1) _ _
    refine ⟨h.len_pos, fun i hi => ?_, fun b hb => ?_⟩
    · simp only [bucket_cons, Function.update_self]
      split_ifs with hi'
      · subst hi'
        rw [Function.update_self]
        exact ⟨rfl, (src.pos hnext).ne', _, Function.update_self _ _ _, hold _ hi⟩
      · rw [Function.update_of_ne (Ne.symm hi')]
        exact hold i hi
    · rcases List.mem_cons.mp hb with rfl | hb
      · simp only [Function.update_self]
        exact List.mem_cons_self
      · exact List.mem_cons_of_mem _ (h.live b hb)

/-- A key without a binding is not removed. -/
theorem remove_none {key : κ} (h : Represents hash m bs) (hnone : ∀ b ∈ bs, b.key ≠ key) :
    ∃ fuel, m.remove hash fuel key = .ok (0, m) := by
  have hchain := h.chain _ (Nat.mod_lt (hash key) h.len_pos)
  exact ⟨(bucket hash m bs (hash key % m.len)).length + 1,
    hchain.removeFrom_none fun b hb => hnone b (mem_bucket.mp hb).1⟩

theorem remove_none_eq {key : κ} {fuel r : ℕ} (h : Represents hash m bs)
    (hnone : ∀ b ∈ bs, b.key ≠ key) (hrem : m.remove hash fuel key = .ok (r, m')) : m' = m := by
  have hchain := h.chain _ (Nat.mod_lt (hash key) h.len_pos)
  exact hchain.removeFrom_none_eq (fun b hb => hnone b (mem_bucket.mp hb).1) hrem

/-- A key with a binding is given back, and stays where it is. -/
theorem remove_some {key : κ} {fuel r : ℕ} (h : Represents hash m bs)
    (hsome : ∃ b ∈ bs, b.key = key) (hrem : m.remove hash fuel key = .ok (r, m')) :
    r = dataOf bs key ∧ ∃ leaf, m' = { m with live := m.live.erase leaf } := by
  have hchain := h.chain _ (Nat.mod_lt (hash key) h.len_pos)
  obtain ⟨b, hb, hk⟩ := hsome
  rw [← dataOf_bucket hash m]
  exact hchain.removeFrom_some ⟨b, mem_bucket.mpr ⟨hb, by rw [hk]⟩, hk⟩ hrem

end Represents

/-- A removal as it should be : it returns the data of the newest binding of the key, takes
the leaf of this binding out of its bucket and no other, and a lookup then finds the binding
before it, and for any other key what it found before. -/
def RemoveCorrect (hash : κ → ℕ) (m : Hashmap κ) (bs : List (Binding κ)) (key : κ) : Prop :=
  ∃ fuel m', m.remove hash fuel key = .ok (dataOf bs key, m') ∧
    Represents hash m' (unbind bs key) ∧
    (∃ fuel, m'.get hash fuel key = .ok (dataOf (unbind bs key) key)) ∧
    ∀ key' ≠ key, ∃ fuel, m'.get hash fuel key' = .ok (dataOf bs key')

/-- The bucket of a key without its newest binding is shorter by one. -/
theorem length_bucket_unbind (hash : κ → ℕ) (m : Hashmap κ) {key : κ} :
    ∀ {bs : List (Binding κ)}, (∃ b ∈ bs, b.key = key) →
    (bucket hash m (unbind bs key) (hash key % m.len)).length + 1 =
      (bucket hash m bs (hash key % m.len)).length
  | [], h => by
    obtain ⟨b, hb, -⟩ := h
    cases hb
  | b :: bs, h => by
    rw [unbind_cons, bucket_cons]
    by_cases hb : b.key = key
    · rw [if_pos hb, if_pos (by rw [hb]), List.length_cons]
    · have ih : (bucket hash m (unbind bs key) (hash key % m.len)).length + 1 =
          (bucket hash m bs (hash key % m.len)).length := by
        obtain ⟨b', hb', hk⟩ := h
        rcases List.mem_cons.mp hb' with rfl | hb'
        · exact absurd hk hb
        · exact length_bucket_unbind hash m ⟨b', hb', hk⟩
      rw [if_neg hb, bucket_cons]
      split_ifs
      · rw [List.length_cons, List.length_cons, ih]
      · exact ih

/-- A removal is right exactly for a key that has no binding. -/
theorem removeCorrect_iff (h : Represents hash m bs) (key : κ) :
    RemoveCorrect hash m bs key ↔ ∀ b ∈ bs, b.key ≠ key := by
  constructor
  · rintro ⟨fuel, m', hrem, hrep, -, -⟩
    by_contra hsome
    push Not at hsome
    obtain ⟨-, leaf, rfl⟩ := h.remove_some hsome hrem
    have hi := Nat.mod_lt (hash key) h.len_pos
    -- the chain of the bucket is the one from before the removal
    have hchain : m.LeafChain (m.start (hash key % m.len))
        (bucket hash m (unbind bs key) (hash key % m.len)) :=
      (hrep.chain _ hi).congr fun _ _ => rfl
    have hlen := length_bucket_unbind hash m hsome
    rw [hchain.unique (h.chain _ hi)] at hlen
    omega
  · intro hnone
    obtain ⟨fuel, hrem⟩ := h.remove_none hnone
    refine ⟨fuel, m, ?_, ?_, ?_, fun key' _ => h.get key'⟩
    · rw [hrem, dataOf_eq_zero hnone]
    · rwa [unbind_eq_self hnone]
    · rw [unbind_eq_self hnone]
      exact h.get key

end Hashmap

/-! ## Every run -/

/-- `hashmap_types`. -/
inductive HashmapType
  | str
  | number
  deriving DecidableEq

namespace HashmapType

/-- What the keys of a type are compared by : the bytes of a string, or the number. -/
def Key : HashmapType → Type
  | str => { key : List (BitVec 8) // 0 ∉ key }
  | number => ℕ

instance : (t : HashmapType) → DecidableEq t.Key
  | str => inferInstanceAs (DecidableEq { key : List (BitVec 8) // 0 ∉ key })
  | number => inferInstanceAs (DecidableEq ℕ)

/-- The hash function of a type. -/
def hash : (t : HashmapType) → t.Key → ℕ
  | str => fun key => builtinWordHash key.1
  | number => builtinNumHash

end HashmapType

/-- `builtin_word_equal`, on the bytes before the terminating zeros. -/
def builtinWordEqual : List (BitVec 8) → List (BitVec 8) → Bool
  | [], [] => true
  | [], b :: _ => 0 == b
  | a :: _, [] => a == 0
  | a :: as, b :: bs => if a ≠ b then false else builtinWordEqual as bs

/-- Strings are compared by their bytes. -/
theorem builtinWordEqual_iff : ∀ {a b : List (BitVec 8)}, 0 ∉ a → 0 ∉ b →
    (builtinWordEqual a b = true ↔ a = b)
  | [], [], _, _ => by simp [builtinWordEqual]
  | [], b :: _, _, hb => by
    simp only [builtinWordEqual, beq_iff_eq, reduceCtorEq, iff_false]
    exact fun h0 => hb (h0 ▸ List.mem_cons_self)
  | a :: _, [], ha, _ => by
    simp only [builtinWordEqual, beq_iff_eq, reduceCtorEq, iff_false]
    exact fun h0 => ha (h0 ▸ List.mem_cons_self)
  | a :: as, b :: bs, ha, hb => by
    have ih := builtinWordEqual_iff (fun h => ha (List.mem_cons_of_mem _ h))
      (fun h => hb (List.mem_cons_of_mem _ h))
    rw [builtinWordEqual, List.cons.injEq]
    split_ifs with hne
    · simp [hne]
    · rw [ih, not_ne_iff.mp hne, eq_self_iff_true, true_and]

/-- A call on a hash map. -/
inductive HashmapCall (t : HashmapType)
  | insert (key : t.Key) (data : ℕ)
  | remove (key : t.Key)

/-- A hash map, and the bindings that it should hold. -/
structure HashmapState (t : HashmapType) where
  map : Hashmap t.Key
  bindings : List (Hashmap.Binding t.Key)

section Runs

variable {t : HashmapType} (src : AddrSource)

/-- `hashmap_create`, with empty buckets. -/
def HashmapInit (s : HashmapState t) : Prop :=
  0 < s.map.len ∧ (∀ i < s.map.len, s.map.start i = 0) ∧ s.bindings = []

/-- A call that returns. -/
inductive HashmapStep : HashmapState t → HashmapCall t → HashmapState t → Prop
  | insert {s : HashmapState t} {key : t.Key} {data : ℕ} {m : Hashmap t.Key} :
    s.map.insert t.hash src key data = .ok m →
    HashmapStep s (.insert key data)
      ⟨m, ⟨m.start (t.hash key % m.len), key, data⟩ :: s.bindings⟩
  | remove {s : HashmapState t} {key : t.Key} {fuel r : ℕ} {m : Hashmap t.Key} :
    s.map.remove t.hash fuel key = .ok (r, m) →
    HashmapStep s (.remove key) ⟨m, Hashmap.unbind s.bindings key⟩

/-- No key that has a binding is removed. -/
def RemovesUnbound (s : HashmapState t) : HashmapCall t → Prop
  | .insert _ _ => True
  | .remove key => ∀ b ∈ s.bindings, b.key ≠ key

variable {src} {s s' : HashmapState t}

theorem HashmapInit.represents (h : HashmapInit s) :
    Hashmap.Represents t.hash s.map s.bindings := by
  obtain ⟨hpos, hstart, hnil⟩ := h
  refine ⟨hpos, fun i hi => ?_, ?_⟩
  · rw [hnil, hstart i hi]
    rfl
  · rw [hnil]
    exact fun b hb => absurd hb List.not_mem_nil

theorem HashmapStep.represents {c : HashmapCall t}
    (hs : Hashmap.Represents t.hash s.map s.bindings) (hc : RemovesUnbound s c)
    (h : HashmapStep src s c s') : Hashmap.Represents t.hash s'.map s'.bindings := by
  cases h with
  | @insert key data m hins =>
    have hlen : m.len = s.map.len := Hashmap.len_insert hins
    simp only [hlen]
    exact hs.insert hins
  | @remove key fuel r m hrem =>
    simp only [hs.remove_none_eq hc hrem, Hashmap.unbind_eq_self hc]
    exact hs

/-- In every run that removes only keys without a binding, the map holds its bindings, and
the next removal is right exactly if its key has no binding. -/
theorem hashmapRuns_correct_iff
    (h : Reach HashmapInit (Guarded RemovesUnbound (HashmapStep src)) s) :
    Hashmap.Represents t.hash s.map s.bindings ∧ ∀ key,
      Hashmap.RemoveCorrect t.hash s.map s.bindings key ↔ ∀ b ∈ s.bindings, b.key ≠ key := by
  have hs := Reach.invariant (fun s => Hashmap.Represents t.hash s.map s.bindings)
    (fun _ => HashmapInit.represents) (fun _ _ _ hs hstep => hstep.2.represents hs hstep.1) h
  exact ⟨hs, Hashmap.removeCorrect_iff hs⟩

/-- A map of numbers with no binding. -/
def emptyNumbers : HashmapState .number :=
  ⟨⟨512, fun _ => 0, fun _ => none, []⟩, []⟩

theorem emptyNumbers_init : HashmapInit emptyNumbers :=
  ⟨by decide, fun _ _ => rfl, rfl⟩

/-- The map with the number 5 bound to 7. -/
def oneNumber : HashmapState .number :=
  ⟨⟨512, Function.update (fun _ => 0) (builtinNumHash 5 % 512) 64,
    Function.update (fun _ => none) 64 (some ⟨0, (5 : ℕ), 7⟩), [64]⟩, [⟨64, (5 : ℕ), 7⟩]⟩

/-- The call that makes it. -/
def insertFiveNumber : HashmapCall .number :=
  .insert (5 : ℕ) 7

theorem oneNumber_step :
    HashmapStep (AddrSource.bump 64 (by decide)) emptyNumbers insertFiveNumber oneNumber :=
  HashmapStep.insert rfl

theorem insertFiveNumber_unbound : RemovesUnbound emptyNumbers insertFiveNumber :=
  trivial

theorem hashmapRuns_correct_iff_oneNumber : Hashmap.RemoveCorrect HashmapType.number.hash
    oneNumber.map oneNumber.bindings (6 : ℕ) := by
  have hreach : Reach HashmapInit
      (Guarded RemovesUnbound (HashmapStep (AddrSource.bump 64 (by decide)))) oneNumber :=
    Reach.next (Reach.start emptyNumbers_init) ⟨insertFiveNumber_unbound, oneNumber_step⟩
  refine ((hashmapRuns_correct_iff hreach).2 (6 : ℕ)).mpr fun b hb => ?_
  rw [List.mem_singleton.mp hb]
  exact show (5 : ℕ) ≠ 6 by decide

/-- The number 5 is inserted and removed : its leaf was given back, and is still in its
bucket. -/
theorem not_removeCorrect_oneNumber :
    Reach HashmapInit (HashmapStep (AddrSource.bump 64 (by decide))) oneNumber ∧
      ¬Hashmap.RemoveCorrect HashmapType.number.hash oneNumber.map oneNumber.bindings
        (5 : ℕ) := by
  have hs := oneNumber_step.represents emptyNumbers_init.represents insertFiveNumber_unbound
  refine ⟨Reach.next (Reach.start emptyNumbers_init) oneNumber_step, fun hrem => ?_⟩
  exact (Hashmap.removeCorrect_iff hs _).mp hrem _ (List.mem_singleton_self _) rfl

end Runs

end Toastium
