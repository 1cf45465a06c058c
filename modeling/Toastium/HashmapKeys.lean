import Toastium.HashmapRuns

/-!
# Keys in memory

A key of a hash map is a `u64` : a number, or the address of a string. `hashmap_create` picks the
functions that hash keys and compare them, and for strings these are loops over the bytes in memory
up to the terminating zero. The same string can be at several addresses.

`Decodes` relates a map whose keys are addresses to the map of the strings that they lead to. On
strings the loops compute `builtinWordHash` and `builtinWordEqual` (`wordHash_eq`, `wordEqual_eq`),
so a lookup in the one is a lookup in the other (`Decodes.get`). `hashmapKeys_lookup` : after any
insertions a lookup returns the data last inserted under an equal key.

Memory may change between the calls, as long as the strings that were inserted stay as they are.
-/

set_option linter.unusedSectionVars false

namespace Toastium

/-! ## The code -/

section Code

variable (mem : ℕ → BitVec 8)

/-- The loop of `builtin_word_hash`, at most `fuel` times. -/
def wordHashFrom (keyPtr : ℕ) : ℕ → ℕ → BitVec 64 → Except (Fault Panic) (BitVec 64)
  | 0, _, _ => .error .fuel
  | fuel + 1, i, hash =>
    if mem (keyPtr + i) = 0 then .ok hash
    else wordHashFrom keyPtr fuel (i + 1)
      ((hash ^^^ (mem (keyPtr + i)).setWidth 64) * 0x100000001b3#64)

/-- The loop of `builtin_word_equal`, at most `fuel` times. -/
def wordEqualFrom (firstKeyPtr secondKeyPtr : ℕ) : ℕ → ℕ → Except (Fault Panic) Bool
  | 0, _ => .error .fuel
  | fuel + 1, i =>
    if mem (firstKeyPtr + i) ≠ 0 then
      if mem (firstKeyPtr + i) ≠ mem (secondKeyPtr + i) then .ok false
      else wordEqualFrom firstKeyPtr secondKeyPtr fuel (i + 1)
    else .ok (mem (firstKeyPtr + i) == mem (secondKeyPtr + i))

/-- `hash_function` and `equal_function` of a hash map. -/
structure KeyFunctions where
  hashFunction : ℕ → Except (Fault Panic) ℕ
  equalFunction : ℕ → ℕ → Except (Fault Panic) Bool

/-- `hashmap_create`, with loops of at most `fuel` times. -/
def hashmapCreate (fuel : ℕ) : HashmapType → KeyFunctions
  | .str => ⟨fun key => (wordHashFrom mem key fuel 0 0x3e4c3161c5e6354a#64).map BitVec.toNat,
      fun firstKey secondKey => wordEqualFrom mem firstKey secondKey fuel 0⟩
  | .number => ⟨fun key => .ok (builtinNumHash key),
      fun firstKey secondKey => .ok (firstKey == secondKey)⟩

variable (fns : KeyFunctions)

/-- The loop of `hashmap_get`, at most `fuel` times. -/
def hashmapGetFrom (m : Hashmap ℕ) (key : ℕ) : ℕ → ℕ → Except (Fault Panic) ℕ
  | 0, _ => .error .fuel
  | fuel + 1, currentLeaf =>
    if currentLeaf = 0 then .ok 0
    else match m.leaf currentLeaf with
      | none => .error (.wild currentLeaf 0)
      | some l => do
        if ← fns.equalFunction l.key key then return l.data
        hashmapGetFrom m key fuel l.nextLeaf

/-- `hashmap_get`. -/
def hashmapGet (fuel : ℕ) (m : Hashmap ℕ) (key : ℕ) : Except (Fault Panic) ℕ := do
  let hash ← fns.hashFunction key
  hashmapGetFrom fns m key fuel (m.start (hash % m.len))

/-- `hashmap_insert`. -/
def hashmapInsert (src : AddrSource) (m : Hashmap ℕ) (key data : ℕ) :
    Except (Fault Panic) (Hashmap ℕ) := do
  let hash ← fns.hashFunction key
  m.insert (fun _ => hash) src key data

end Code

/-! ## Strings in memory -/

section Strings

variable {mem : ℕ → BitVec 8}

/-- The string `s` is at `p`, with a zero behind it. -/
def StringAt (mem : ℕ → BitVec 8) : ℕ → List (BitVec 8) → Prop
  | p, [] => mem p = 0
  | p, c :: cs => mem p = c ∧ StringAt mem (p + 1) cs

theorem wordHashFrom_eq {p : ℕ} : ∀ {s : List (BitVec 8)} {fuel i : ℕ} {hash : BitVec 64},
    StringAt mem (p + i) s → 0 ∉ s → s.length < fuel →
      wordHashFrom mem p fuel i hash = .ok (s.foldl
        (fun hash byte => (hash ^^^ byte.setWidth 64) * 0x100000001b3#64) hash)
  | [], fuel + 1, i, hash, hs, _, _ => if_pos hs
  | c :: cs, fuel + 1, i, hash, ⟨hc, hs⟩, h0, hlen => by
    obtain ⟨hc0, hcs⟩ := not_or.1 (List.mem_cons.not.1 h0)
    rw [wordHashFrom, if_neg (by rw [hc]; exact fun h => hc0 h.symm), hc,
      wordHashFrom_eq (p := p) (i := i + 1) hs hcs (Nat.lt_of_succ_lt_succ hlen), List.foldl_cons]

theorem wordHashFrom_fuel {p : ℕ} : ∀ {s : List (BitVec 8)} {fuel i : ℕ} {hash : BitVec 64},
    StringAt mem (p + i) s → 0 ∉ s → fuel ≤ s.length →
      wordHashFrom mem p fuel i hash = .error .fuel
  | _, 0, _, _, _, _, _ => rfl
  | c :: cs, fuel + 1, i, hash, ⟨hc, hs⟩, h0, hlen => by
    obtain ⟨hc0, hcs⟩ := not_or.1 (List.mem_cons.not.1 h0)
    rw [wordHashFrom, if_neg (by rw [hc]; exact fun h => hc0 h.symm)]
    exact wordHashFrom_fuel (p := p) (i := i + 1) hs hcs (Nat.le_of_succ_le_succ hlen)

/-- The hash of a string in memory is that of the string. -/
theorem wordHash_eq {p fuel : ℕ} {s : List (BitVec 8)} (hs : StringAt mem p s) (h0 : 0 ∉ s)
    (hfuel : s.length < fuel) :
    (hashmapCreate mem fuel .str).hashFunction p = .ok (builtinWordHash s) := by
  have hloop := @wordHashFrom_eq mem p s fuel 0 0x3e4c3161c5e6354a#64 hs h0 hfuel
  exact congrArg (Except.map BitVec.toNat) hloop

theorem wordEqualFrom_eq {p q : ℕ} : ∀ {s t : List (BitVec 8)} {fuel i : ℕ},
    StringAt mem (p + i) s → StringAt mem (q + i) t → 0 ∉ s → 0 ∉ t → t.length < fuel →
      wordEqualFrom mem p q fuel i = .ok (builtinWordEqual s t)
  | [], [], fuel + 1, i, hs, ht, _, _, _ => by
    rw [wordEqualFrom, show mem (p + i) = 0 from hs, show mem (q + i) = 0 from ht]
    rfl
  | [], c :: cs, fuel + 1, i, hs, ht, _, _, _ => by
    rw [wordEqualFrom, show mem (p + i) = 0 from hs, ht.1]
    rfl
  | c :: cs, [], fuel + 1, i, hs, ht, h0, _, _ => by
    have hc0 : c ≠ 0 := fun h => h0 (h ▸ List.mem_cons_self)
    rw [wordEqualFrom, hs.1, show mem (q + i) = 0 from ht, if_pos hc0, if_pos hc0, builtinWordEqual,
      beq_false_of_ne hc0]
  | c :: cs, d :: ds, fuel + 1, i, hs, ht, h0, h0', hlen => by
    have hc0 : c ≠ 0 := fun h => h0 (h ▸ List.mem_cons_self)
    rw [wordEqualFrom, hs.1, ht.1, if_pos hc0, builtinWordEqual]
    split_ifs
    · rfl
    · exact wordEqualFrom_eq hs.2 ht.2 (fun h => h0 (List.mem_cons_of_mem _ h))
        (fun h => h0' (List.mem_cons_of_mem _ h)) (Nat.lt_of_succ_lt_succ hlen)

/-- Strings in memory are compared by their bytes. -/
theorem wordEqual_eq {p q fuel : ℕ} {s t : List (BitVec 8)} (hs : StringAt mem p s)
    (ht : StringAt mem q t) (h0 : 0 ∉ s) (h0' : 0 ∉ t) (hfuel : t.length < fuel) :
    (hashmapCreate mem fuel .str).equalFunction p q = .ok (decide (s = t)) := by
  have hloop := wordEqualFrom_eq (i := 0) hs ht h0 h0' hfuel
  refine hloop.trans ?_
  rw [Except.ok.injEq, Bool.eq_iff_iff, builtinWordEqual_iff h0 h0', decide_eq_true_iff]

end Strings

/-! ## Keys -/

section Keys

variable {t : HashmapType} {mem : ℕ → BitVec 8}

/-- The `u64` is a key of the type : the number itself, or the address of the string. -/
def KeyAt (mem : ℕ → BitVec 8) : (t : HashmapType) → ℕ → t.Key → Prop
  | .str => fun key k => StringAt mem key k.1
  | .number => fun key k => key = k

/-- The number of bytes of a key in memory. -/
def keyLength : (t : HashmapType) → t.Key → ℕ
  | .str => fun k => k.1.length
  | .number => fun _ => 0

theorem KeyAt.hash {key : ℕ} {k : t.Key} {fuel : ℕ} (hk : KeyAt mem t key k)
    (hfuel : keyLength t k < fuel) :
    (hashmapCreate mem fuel t).hashFunction key = .ok (t.hash k) := by
  cases t with
  | str => exact wordHash_eq hk k.2 hfuel
  | number =>
    obtain rfl : key = k := hk
    rfl

/-- A hash that is returned is that of the key. -/
theorem KeyAt.hash_eq {key : ℕ} {k : t.Key} {fuel hash : ℕ} (hk : KeyAt mem t key k)
    (h : (hashmapCreate mem fuel t).hashFunction key = .ok hash) : hash = t.hash k := by
  by_cases hfuel : keyLength t k < fuel
  · exact Except.ok.inj (h.symm.trans (hk.hash hfuel))
  · cases t with
    | str =>
      have hloop := @wordHashFrom_fuel mem key k.1 fuel 0 0x3e4c3161c5e6354a#64 hk k.2
        (Nat.not_lt.1 hfuel)
      have herr : (hashmapCreate mem fuel .str).hashFunction key = .error .fuel :=
        congrArg (Except.map BitVec.toNat) hloop
      rw [herr] at h
      cases h
    | number =>
      obtain rfl : key = k := hk
      exact (Except.ok.inj h).symm

theorem KeyAt.equal {key key' : ℕ} {k k' : t.Key} {fuel : ℕ} (hk : KeyAt mem t key k)
    (hk' : KeyAt mem t key' k') (hfuel : keyLength t k' < fuel) :
    (hashmapCreate mem fuel t).equalFunction key key' = .ok (decide (k = k')) := by
  cases t with
  | str =>
    refine (wordEqual_eq hk hk' k.2 k'.2 hfuel).trans ?_
    rw [Except.ok.injEq, decide_eq_decide]
    exact Subtype.ext_iff.symm
  | number =>
    obtain rfl : key = k := hk
    obtain rfl : key' = k' := hk'
    rfl

/-! ## The map of the keys -/

/-- The map `m` has the keys of `M`, by `P`. -/
structure Decodes (P : ℕ → t.Key → Prop) (m : Hashmap ℕ) (M : Hashmap t.Key) : Prop where
  len : m.len = M.len
  start : m.start = M.start
  live : m.live = M.live
  leaf : ∀ {addr L}, M.leaf addr = some L →
    ∃ l, m.leaf addr = some l ∧ l.nextLeaf = L.nextLeaf ∧ l.data = L.data ∧ P l.key L.key

variable {P P' : ℕ → t.Key → Prop} {m m' : Hashmap ℕ} {M : Hashmap t.Key} {src : AddrSource}

theorem Decodes.mono (h : Decodes P m M) (hP : ∀ key k, P key k → P' key k) : Decodes P' m M :=
  ⟨h.len, h.start, h.live, fun hL => by
    obtain ⟨l, hl, hnext, hdata, hkey⟩ := h.leaf hL
    exact ⟨l, hl, hnext, hdata, hP _ _ hkey⟩⟩

/-- An insertion. -/
theorem Decodes.insert (h : Decodes P m M) {key : ℕ} {k : t.Key} {data : ℕ} (hk : P key k)
    (hins : m.insert (fun _ => t.hash k) src key data = .ok m') :
    ∃ M', M.insert t.hash src k data = .ok M' ∧ Decodes P m' M' := by
  unfold Hashmap.insert at hins ⊢
  rw [h.live] at hins
  split at hins
  · cases hins
  · cases hins
    refine ⟨_, rfl, h.len, ?_, rfl, fun {addr L} hL => ?_⟩
    · rw [h.start, h.len]
    · simp only [Function.update_apply] at hL ⊢
      split_ifs at hL ⊢
      · cases hL
        exact ⟨_, rfl, by rw [h.start, h.len], rfl, hk⟩
      · exact h.leaf hL

/-- The loop of a lookup. -/
theorem Decodes.getFrom {fns : KeyFunctions} (h : Decodes P m M) {key : ℕ} {k : t.Key}
    (hequal : ∀ {key' k'}, P key' k' → fns.equalFunction key' key = .ok (decide (k' = k))) :
    ∀ {l : List (Hashmap.Binding t.Key)} {fuel addr : ℕ}, M.LeafChain addr l → l.length < fuel →
      hashmapGetFrom fns m key fuel addr = .ok (Hashmap.dataOf l k)
  | [], fuel + 1, addr, hl, _ => if_pos hl
  | b :: l, fuel + 1, addr, ⟨hb, hne, next, hleaf, hl⟩, hlen => by
    obtain ⟨L, hL, hnext, hdata, hkey⟩ := h.leaf hleaf
    rw [hashmapGetFrom, if_neg hne, hL]
    simp only [hequal hkey, ok_bind, hnext]
    rw [h.getFrom hequal hl (Nat.lt_of_succ_lt_succ hlen), Hashmap.dataOf_cons]
    by_cases hbk : b.key = k
    · rw [if_pos (decide_eq_true hbk), if_pos hbk, hdata]
      rfl
    · rw [if_neg (by simpa using hbk), if_neg hbk]

end Keys

/-! ## Every run -/

section Runs

variable {t : HashmapType} {src : AddrSource}

/-- A key that was inserted, at its address, with its data. -/
structure KeyBinding (t : HashmapType) where
  keyPtr : ℕ
  key : t.Key
  data : ℕ

/-- A hash map, the memory of its keys, and the insertions so far, the newest first. -/
structure KeyedMap (t : HashmapType) where
  map : Hashmap ℕ
  mem : ℕ → BitVec 8
  inserted : List (KeyBinding t)

/-- The data last inserted under a key, 0 if there is none. -/
def KeyedMap.lastData (s : KeyedMap t) (key : t.Key) : ℕ :=
  ((s.inserted.find? fun b => b.key = key).map KeyBinding.data).getD 0

/-- A map with buckets, all of them empty. -/
def KeyedInit (s : KeyedMap t) : Prop :=
  0 < s.map.len ∧ (∀ i < s.map.len, s.map.start i = 0) ∧ (∀ addr, s.map.leaf addr = none) ∧
    s.map.live = [] ∧ s.inserted = []

/-- A call of `hashmap_insert` that returns, or a change of memory that leaves the keys inserted as
they are. -/
inductive KeyedStep (src : AddrSource) : KeyedMap t → Unit → KeyedMap t → Prop
  | insert {s : KeyedMap t} {keyPtr data fuel : ℕ} {key : t.Key} {m : Hashmap ℕ} :
    KeyAt s.mem t keyPtr key →
    hashmapInsert (hashmapCreate s.mem fuel t) src s.map keyPtr data = .ok m →
    KeyedStep src s () ⟨m, s.mem, ⟨keyPtr, key, data⟩ :: s.inserted⟩
  | write {s : KeyedMap t} {mem : ℕ → BitVec 8} :
    (∀ b ∈ s.inserted, KeyAt mem t b.keyPtr b.key) →
    KeyedStep src s () ⟨s.map, mem, s.inserted⟩

/-- The buckets hold the insertions, and the addresses in them lead to the keys. -/
structure KeyedInv (s : KeyedMap t) : Prop where
  keyAt : ∀ b ∈ s.inserted, KeyAt s.mem t b.keyPtr b.key
  decodes : ∃ (M : Hashmap t.Key) (bs : List (Hashmap.Binding t.Key)),
    Decodes (fun keyPtr key => ∃ b ∈ s.inserted, b.keyPtr = keyPtr ∧ b.key = key) s.map M ∧
      Hashmap.Represents t.hash M bs ∧
      bs.map (fun b => (b.key, b.data)) = s.inserted.map fun b => (b.key, b.data)

variable {s s' : KeyedMap t}

theorem KeyedInv.init (h : KeyedInit s) : KeyedInv s := by
  obtain ⟨hlen, hstart, hleaf, hlive, hnil⟩ := h
  refine ⟨fun b hb => ?_, ⟨s.map.len, s.map.start, fun _ => none, []⟩, [],
    ⟨rfl, rfl, hlive, fun hL => ?_⟩, ⟨hlen, hstart, fun b hb => ?_⟩, ?_⟩
  · rw [hnil] at hb
    exact absurd hb List.not_mem_nil
  · cases hL
  · exact absurd hb List.not_mem_nil
  · rw [hnil]
    rfl

theorem KeyedInv.step (hs : KeyedInv s) (h : KeyedStep src s () s') : KeyedInv s' := by
  obtain ⟨hkey, M, bs, hdec, hrep, hdata⟩ := hs
  cases h with
  | @insert keyPtr data fuel key m hk hins =>
    unfold hashmapInsert at hins
    obtain ⟨hash, hhash, hins⟩ := bind_eq_ok.1 hins
    obtain rfl := hk.hash_eq hhash
    obtain ⟨M', hM', hdec'⟩ := (hdec.mono fun keyPtr' key' ⟨b, hb, hb'⟩ =>
      ⟨b, List.mem_cons_of_mem _ hb, hb'⟩).insert
        (P := fun keyPtr' key' => ∃ b ∈ (⟨keyPtr, key, data⟩ : KeyBinding t) :: s.inserted,
          b.keyPtr = keyPtr' ∧ b.key = key') ⟨_, List.mem_cons_self, rfl, rfl⟩ hins
    refine ⟨fun b hb => ?_, M', _, hdec', hrep.insert hM', ?_⟩
    · rcases List.mem_cons.1 hb with rfl | hb
      · exact hk
      · exact hkey b hb
    · rw [List.map_cons, List.map_cons, hdata]
  | @write mem hmem => exact ⟨hmem, M, bs, hdec, hrep, hdata⟩

theorem KeyedInv.reach (h : Reach KeyedInit (KeyedStep src) s) : KeyedInv s :=
  Reach.invariant KeyedInv (fun _ => KeyedInv.init) (fun _ _ _ hs hstep => hs.step hstep) h

/-- The newest binding of a key, in a list of bindings of any kind. -/
theorem find?_map_data {β γ : Type*} (l : List γ) (f : γ → β × ℕ) (p : β → Bool) :
    ((l.find? fun b => p (f b).1).map fun b => (f b).2) =
      ((l.map f).find? fun x => p x.1).map Prod.snd := by
  rw [List.find?_map, Option.map_map]
  rfl

/-- In every run, `hashmap_get` returns the data last inserted under an equal key, 0 if there is
none, and `hashmap_insert` returns unless there is no memory for a leaf. -/
theorem hashmapKeys_lookup (h : Reach KeyedInit (KeyedStep src) s) :
    (∀ keyPtr key fuel, KeyAt s.mem t keyPtr key → keyLength t key < fuel →
      s.inserted.length < fuel →
      hashmapGet (hashmapCreate s.mem fuel t) fuel s.map keyPtr = .ok (s.lastData key)) ∧
    ∀ keyPtr key data fuel, KeyAt s.mem t keyPtr key → keyLength t key < fuel →
      src.next s.map.live = none ∨
        ∃ m, hashmapInsert (hashmapCreate s.mem fuel t) src s.map keyPtr data = .ok m := by
  obtain ⟨hkey, M, bs, hdec, hrep, hdata⟩ := KeyedInv.reach h
  refine ⟨fun keyPtr key fuel hk hlen hfuel => ?_, fun keyPtr key data fuel hk hlen => ?_⟩
  · have hi := Nat.mod_lt (t.hash key) hrep.len_pos
    have hcount : bs.length = s.inserted.length := by
      rw [← List.length_map (f := fun b : Hashmap.Binding t.Key => (b.key, b.data)), hdata,
        List.length_map]
    have hbucket := List.length_filter_le (fun b => decide (t.hash b.key % M.len =
      t.hash key % M.len)) bs
    have hlast : Hashmap.dataOf bs key = s.lastData key := by
      have hbs := find?_map_data bs (fun b => (b.key, b.data)) fun k => decide (k = key)
      have hins := find?_map_data s.inserted (fun b => (b.key, b.data)) fun k => decide (k = key)
      rw [hdata, ← hins] at hbs
      exact congrArg (fun o => o.getD 0) hbs
    rw [hashmapGet, hk.hash hlen, ok_bind, hdec.start, hdec.len, hdec.getFrom
      (fun ⟨b, hb, hptr, hbk⟩ => ?_) (hrep.chain _ hi) (by unfold Hashmap.bucket; omega),
      Hashmap.dataOf_bucket, hlast]
    exact hptr ▸ hbk ▸ (hkey b hb).equal hk hlen
  · rw [hashmapInsert, hk.hash hlen, ok_bind, Hashmap.insert]
    cases hn : src.next s.map.live with
    | none => exact Or.inl rfl
    | some p => exact Or.inr ⟨_, rfl⟩

/-- Memory with the string `ab` at 256 and at 512. -/
def abTwice : ℕ → BitVec 8 := fun a =>
  if a = 256 ∨ a = 512 then 97 else if a = 257 ∨ a = 513 then 98 else 0

/-- The string `ab`. -/
def abKey : HashmapType.str.Key :=
  ⟨[97, 98], by decide⟩

theorem abTwice_keyAt {p : ℕ} (hp : p = 256 ∨ p = 512) : KeyAt abTwice .str p abKey := by
  rcases hp with rfl | rfl
  · exact ⟨rfl, rfl, rfl⟩
  · exact ⟨rfl, rfl, rfl⟩

/-- The string `ab` is inserted at one address and found from another. -/
theorem hashmapKeys_lookup_otherAddress : ∃ s : KeyedMap .str,
    s.inserted = [⟨256, abKey, 7⟩] ∧
      hashmapGet (hashmapCreate s.mem 3 .str) 3 s.map 512 = .ok (s.lastData abKey) := by
  have hstart : Reach KeyedInit (KeyedStep (AddrSource.bump 64 (by decide)))
      (⟨⟨4, fun _ => 0, fun _ => none, []⟩, abTwice, []⟩ : KeyedMap .str) :=
    Reach.start ⟨by decide, fun _ _ => rfl, fun _ => rfl, rfl, rfl⟩
  obtain ⟨m, hm⟩ : ∃ m, hashmapInsert (hashmapCreate abTwice 3 .str)
      (AddrSource.bump 64 (by decide)) ⟨4, fun _ => 0, fun _ => none, []⟩ 256 7 = .ok m :=
    exists_eq_ok (by decide +kernel)
  have hreach := hstart.next (KeyedStep.insert (abTwice_keyAt (Or.inl rfl)) hm)
  exact ⟨_, rfl, (hashmapKeys_lookup hreach).1 512 abKey 3 (abTwice_keyAt (Or.inr rfl))
    (by decide) (by decide : 1 < 3)⟩

end Runs

end Toastium
