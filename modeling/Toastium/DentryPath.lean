import Toastium.Dentry

/-!
# Paths

`get_child` compares the first child only, as `list_iter_next` advances the pointer to the list
instead of the index, and then reads the words after the list as if they were one. `..` is a
field that is never written. `dentry_get_path` looks up everything that is left of the path and
not the component, and goes on behind the zero of the path after the last component.

`dentryGetPath_iff` says for which paths it still returns what it should, whatever is behind the
zero : those where the walk ends within the path.
-/

namespace Toastium

/-! ## Children -/

section Children

variable {s : Dentries} {t : NameTree} {d : Dentry} {name : List (BitVec 8)}

/-- Without an item the loop ends. -/
theorem getChildFrom_zero (h0 : d.children.itemCnt.toNat = 0) (fuel : ℕ) :
    getChildFrom s d name (fuel + 1) d.listIterCreate = .ok 0 := by
  have hend : ¬d.listIterCreate.curUpto < (d.listAt d.listIterCreate.curList).itemCnt :=
    (Nat.not_lt.2 h0.le : ¬0 < d.children.itemCnt.toNat)
  rw [getChildFrom, if_neg hend]

/-- The first pass of the loop, with a section and an item there. -/
theorem getChildFrom_first {c : Dentry} (h0 : d.children.itemCnt.toNat ≠ 0)
    (hlen : s.pages.len d.children.firstSection.toNat = 512)
    (hc : s.entries (s.pages.cell d.children.firstSection.toNat 1).toNat = some c) (fuel : ℕ) :
    getChildFrom s d name (fuel + 1) d.listIterCreate =
      if c.name = name then .ok (s.pages.cell d.children.firstSection.toNat 1).toNat
      else getChildFrom s d name fuel { d.listIterCreate with
        curList := 1
        sectionUpto := (s.pages.cell d.children.firstSection.toNat 0).toNat } := by
  have hpos : d.listIterCreate.curUpto < (d.listAt d.listIterCreate.curList).itemCnt :=
    (Nat.pos_of_ne_zero h0 : 0 < d.children.itemCnt.toNat)
  have hnext : listIterNext d.listAt s.pages d.listIterCreate =
      .ok (d.children.firstSection.toNat, 1, { d.listIterCreate with
        curList := 1
        sectionUpto := (s.pages.cell d.children.firstSection.toNat 0).toNat }) := by
    have hload : 0 < s.pages.len d.children.firstSection.toNat := by omega
    simp only [listIterNext, Dentry.listIterCreate, Nat.zero_mod, if_true, Heap.load_eq_ok hload,
      ok_bind, pure_eq_ok, Nat.mul_zero, Nat.zero_div, Nat.add_zero]
    rfl
  have hitem : 1 < s.pages.len d.children.firstSection.toNat := by omega
  rw [getChildFrom, if_pos hpos, hnext, ok_bind]
  dsimp only
  rw [Heap.load_eq_ok hitem, ok_bind, entry_eq hc, ok_bind]
  simp only [strcmp_eq_zero_iff]
  split_ifs <;> rfl

/-- The second pass is behind the list, and its section is NULL. -/
theorem getChildFrom_second (hnull : s.pages.len 0 = 0) (fuel : ℕ) :
    getChildFrom s d name (fuel + 1) { d.listIterCreate with curList := 1, sectionUpto := 0 } =
      if (d.slack 39).toNat = 0 then .ok 0 else .error (.wild 0 0) := by
  have hcnt : (d.listAt 1).itemCnt = (d.slack 39).toNat := rfl
  have hupto : d.listIterCreate.curUpto = 0 := rfl
  have hnext : listIterNext d.listAt s.pages
      { d.listIterCreate with curList := 1, sectionUpto := 0 } = .error (.wild 0 0) := by
    simp only [listIterNext, Dentry.listIterCreate, Nat.zero_mod, if_true,
      Heap.load_eq_wild hnull.le, error_bind]
  rw [getChildFrom]
  dsimp only
  rw [hcnt, hupto]
  by_cases h0 : (d.slack 39).toNat = 0
  · rw [if_pos h0, h0, if_neg (lt_irrefl 0)]
  · rw [if_neg h0, if_pos (Nat.pos_of_ne_zero h0)]
    exact congrArg (· >>= _) hnext

/-- `get_child` on a dentry of the tree : the first child, if it has this name. -/
theorem HoldsTree.getChild (ht : HoldsTree s t) {n : ℕ} (hn : s.entries n = some d) (fuel : ℕ) :
    getChild s (fuel + 2) n name =
      if name = dotName then .ok n
      else if name = dotDotName then .ok d.parent.toNat
      else match d.type, t.kids n with
        | .folder, [] => .ok 0
        | .folder, c :: _ =>
          if t.name c = name then .ok c
          else if (d.slack 39).toNat = 0 then .ok 0 else .error (.wild 0 0)
        | .other, _ =>
          if d.children.itemCnt.toNat = 0 then .ok 0 else .error (.wild d.inode.toNat 0) := by
  unfold Toastium.getChild
  simp only [strcmp_eq_zero_iff, entry_eq hn, ok_bind, pure_eq_ok]
  by_cases hdot : name = dotName
  · rw [if_pos hdot, if_pos hdot]
  rw [if_neg hdot, if_neg hdot]
  by_cases hdd : name = dotDotName
  · rw [if_pos hdd, if_pos hdd]
  rw [if_neg hdd, if_neg hdd]
  cases htype : d.type with
  | other =>
    dsimp only
    by_cases h0 : d.children.itemCnt.toNat = 0
    · rw [if_pos h0, getChildFrom_zero h0]
    · have hpos : d.listIterCreate.curUpto < (d.listAt d.listIterCreate.curList).itemCnt :=
        (Nat.pos_of_ne_zero h0 : 0 < d.children.itemCnt.toNat)
      have hnext : listIterNext d.listAt s.pages d.listIterCreate =
          .error (.wild d.inode.toNat 0) := by
        have hload := Heap.load_eq_wild (π := Panic) (ht.inodes n d hn htype).le
        simp only [listIterNext, Dentry.listIterCreate, Nat.zero_mod, if_true]
        rw [show d.children.firstSection = d.inode from rfl, hload]
        rfl
      rw [if_neg h0, getChildFrom, if_pos hpos, hnext]
      rfl
  | folder =>
    have hl := ht.list n d hn htype
    cases hkids : t.kids n with
    | nil =>
      rw [hkids] at hl
      exact getChildFrom_zero hl.cnt _
    | cons c kids =>
      rw [hkids] at hl
      have hlive := ht.kids n c (by rw [hkids]; exact List.mem_cons_self)
      obtain ⟨dc, hdc⟩ := Option.ne_none_iff_exists'.1 hlive
      have hcell : (s.pages.cell d.children.firstSection.toNat 1).toNat = c := by
        rw [hl.first c rfl, BitVec.toNat_ofNat, Nat.mod_eq_of_lt (ht.lt c hlive)]
      have hcnt : d.children.itemCnt.toNat ≠ 0 := by
        rw [hl.cnt]
        exact Nat.succ_ne_zero _
      dsimp only
      rw [getChildFrom_first hcnt hl.len (by rw [hcell]; exact hdc), hcell, ht.name c dc hdc,
        hl.link]
      exact if_congr Iff.rfl rfl (getChildFrom_second ht.page_null fuel)

end Children

/-! ## Paths -/

/-- What is left of a path, up to the next slash. -/
def component (rest : List (BitVec 8)) : List (BitVec 8) :=
  rest.takeWhile (· ≠ slash)

/-- `get_child` finds nothing of this name : the parent was 0 in the block, or there is no first
child, or it has another name and word 39 of the block is 0. For a file the third word of the
union is 0. -/
def Missing (s : Dentries) (t : NameTree) (n : ℕ) (name : List (BitVec 8)) : Prop :=
  name ≠ dotName ∧ ∃ d, s.entries n = some d ∧
    if name = dotDotName then d.parent.toNat = 0
    else match d.type, t.kids n with
      | .folder, [] => True
      | .folder, c :: _ => t.name c ≠ name ∧ (d.slack 39).toNat = 0
      | .other, _ => d.children.itemCnt.toNat = 0

/-- The first child of a folder has this name. -/
structure FirstChild (s : Dentries) (t : NameTree) (n : ℕ) (name : List (BitVec 8)) (c : ℕ) :
    Prop where
  folder : ∃ d, s.entries n = some d ∧ d.type = .folder
  kid : (t.kids n).head? = some c
  name : t.name c = name

/-- Looking up all that is left of the path, 256 bytes at most, and going on behind the next
slash from what was found, something is missing or too long. -/
inductive EndsEarly (s : Dentries) (t : NameTree) : ℕ → List (BitVec 8) → Prop
  | long {n : ℕ} {rest : List (BitVec 8)} : 256 < (component rest).length → EndsEarly s t n rest
  | missing {n : ℕ} {rest : List (BitVec 8)} : rest ≠ [] → (component rest).length ≤ 256 →
    Missing s t n (rest.take 256) → EndsEarly s t n rest
  | next {n c : ℕ} {rest rest' : List (BitVec 8)} : (component rest).length ≤ 256 →
    FirstChild s t n (rest.take 256) c → rest = component rest ++ slash :: rest' →
    EndsEarly s t c rest' → EndsEarly s t n rest

/-- In the same way the path is used up at a slash, or is empty. -/
inductive UsedUp (s : Dentries) (t : NameTree) : ℕ → List (BitVec 8) → ℕ → Prop
  | nil {n : ℕ} : UsedUp s t n [] n
  | next {n c m : ℕ} {rest rest' : List (BitVec 8)} : (component rest).length ≤ 256 →
    FirstChild s t n (rest.take 256) c → rest = component rest ++ slash :: rest' →
    UsedUp s t c rest' m → UsedUp s t n rest m

/-- The path resolves to what it stands for, whatever is behind its zero. -/
def ResolvesPath (s : Dentries) (t : NameTree) (cwd : ℕ) (path : List (BitVec 8)) : Prop :=
  ∀ (tail : List (BitVec 8)) (fuel : ℕ), path.length + tail.length + 4 ≤ fuel →
    dentryGetPath s fuel cwd (path ++ 0 :: tail) = .ok (t.resolve cwd path)

section Paths

variable {s : Dentries} {t : NameTree} {n c : ℕ} {name rest rest' tail : List (BitVec 8)}

theorem Missing.getChild (ht : HoldsTree s t) (h : Missing s t n name) (fuel : ℕ) :
    getChild s (fuel + 2) n name = .ok 0 := by
  obtain ⟨hdot, d, hn, h⟩ := h
  rw [ht.getChild hn, if_neg hdot]
  by_cases hdd : name = dotDotName
  · rw [if_pos hdd] at h ⊢
    rw [h]
  · rw [if_neg hdd] at h ⊢
    revert h
    cases d.type <;> cases t.kids n <;> dsimp only <;> intro h
    · rfl
    · rw [if_neg h.1, if_pos h.2]
    · rw [if_pos h]
    · rw [if_pos h]

theorem missing_of_getChild (ht : HoldsTree s t) (hn : s.entries n ≠ none) {fuel : ℕ}
    (h : getChild s (fuel + 2) n name = .ok 0) : Missing s t n name := by
  obtain ⟨d, hd⟩ := Option.ne_none_iff_exists'.1 hn
  have hlive : ∀ m, s.entries m ≠ none → m ≠ 0 := fun m hm e => hm (e ▸ ht.null)
  rw [ht.getChild hd] at h
  by_cases hdot : name = dotName
  · rw [if_pos hdot] at h
    exact absurd (Except.ok.inj h) (hlive n hn)
  rw [if_neg hdot] at h
  refine ⟨hdot, d, hd, ?_⟩
  by_cases hdd : name = dotDotName
  · rw [if_pos hdd] at h ⊢
    exact Except.ok.inj h
  · rw [if_neg hdd] at h ⊢
    have hkid := ht.kids n
    revert h hkid
    cases d.type <;> cases t.kids n <;> dsimp only <;> intro h hkid
    · trivial
    · split_ifs at h with hname hslack
      · exact absurd (Except.ok.inj h) (hlive _ (hkid _ List.mem_cons_self))
      · exact ⟨hname, hslack⟩
    · split_ifs at h with h0
      exact h0
    · split_ifs at h with h0
      exact h0

/-- What is left of a path with a slash is none of the two names that `get_child` knows. -/
theorem take_ne_dots (h : slash ∈ rest) : rest.take 256 ≠ dotName ∧ rest.take 256 ≠ dotDotName := by
  have hall : ∀ {name : List (BitVec 8)}, name.length < 256 → rest.take 256 = name → rest = name :=
    fun hlt e => by
      have hlen := congrArg List.length e
      rw [List.length_take] at hlen
      rwa [List.take_of_length_le (by omega)] at e
  refine ⟨fun e => ?_, fun e => ?_⟩
  · rw [hall (by decide) e] at h
    exact absurd h (by decide)
  · rw [hall (by decide) e] at h
    exact absurd h (by decide)

theorem FirstChild.getChild (ht : HoldsTree s t) (h : FirstChild s t n (rest.take 256) c)
    (hslash : slash ∈ rest) (fuel : ℕ) : getChild s (fuel + 2) n (rest.take 256) = .ok c := by
  obtain ⟨d, hd, hfolder⟩ := h.folder
  obtain ⟨hdot, hdd⟩ := take_ne_dots hslash
  obtain ⟨kids, hkids⟩ := List.head?_eq_some_iff.1 h.kid
  rw [ht.getChild hd, if_neg hdot, if_neg hdd, hfolder, hkids]
  exact if_pos h.name

theorem firstChild_of_getChild (ht : HoldsTree s t) (hn : s.entries n ≠ none)
    (hslash : slash ∈ rest) {fuel : ℕ} (hc : c ≠ 0)
    (h : Toastium.getChild s (fuel + 2) n (rest.take 256) = .ok c) :
    FirstChild s t n (rest.take 256) c := by
  obtain ⟨d, hd⟩ := Option.ne_none_iff_exists'.1 hn
  obtain ⟨hdot, hdd⟩ := take_ne_dots hslash
  rw [ht.getChild hd, if_neg hdot, if_neg hdd] at h
  cases htype : d.type with
  | other =>
    rw [htype] at h
    dsimp only at h
    split_ifs at h
    exact absurd (Except.ok.inj h).symm hc
  | folder =>
    rw [htype] at h
    cases hkids : t.kids n with
    | nil =>
      rw [hkids] at h
      exact absurd (Except.ok.inj h).symm hc
    | cons c' kids =>
      rw [hkids] at h
      dsimp only at h
      split_ifs at h with hname
      · obtain rfl := Except.ok.inj h
        exact ⟨⟨d, hd, htype⟩, by rw [hkids]; rfl, hname⟩
      · exact absurd (Except.ok.inj h).symm hc

theorem FirstChild.live (ht : HoldsTree s t) (h : FirstChild s t n name c) :
    s.entries c ≠ none :=
  ht.kids n c (List.mem_of_mem_head? h.kid)

theorem not_mem_of_cut (h : 0 ∉ rest) (hcut : rest = component rest ++ slash :: rest') :
    0 ∉ rest' := fun h0 => h <| by
  rw [hcut]
  exact List.mem_append_right _ (List.mem_cons_of_mem _ h0)

theorem length_of_cut (hcut : rest = component rest ++ slash :: rest') :
    rest.length = (component rest).length + 1 + rest'.length := by
  conv_lhs => rw [hcut, List.length_append, List.length_cons]
  omega

theorem slash_mem_of_cut (hcut : rest = component rest ++ slash :: rest') : slash ∈ rest := by
  rw [hcut]
  exact List.mem_append_right _ List.mem_cons_self

/-- A component is all that is left, or ends at a slash. -/
theorem component_cases : ∀ rest : List (BitVec 8), slash ∉ rest ∧ component rest = rest ∨
    ∃ rest', rest = component rest ++ slash :: rest'
  | [] => .inl ⟨List.not_mem_nil, rfl⟩
  | b :: rest => by
    by_cases hb : b = slash
    · refine .inr ⟨rest, ?_⟩
      rw [component, List.takeWhile_cons, hb, if_neg (by simp)]
      rfl
    · have hcons : component (b :: rest) = b :: component rest := by
        rw [component, List.takeWhile_cons, if_pos (by simpa using hb)]
        rfl
      rw [hcons]
      rcases component_cases rest with ⟨hslash, hall⟩ | ⟨rest', hcut⟩
      · refine .inl ⟨fun h => ?_, by rw [hall]⟩
        rcases List.mem_cons.1 h with h | h
        · exact hb h.symm
        · exact hslash h
      · exact .inr ⟨rest', congrArg (b :: ·) hcut⟩

/-- One pass of the walk. -/
theorem getPathFrom_step (h : 0 ∉ rest) (hne : rest ≠ []) (fuel n : ℕ) :
    getPathFrom s (fuel + 1) n (rest ++ 0 :: tail) =
      if 256 < (component rest).length then .ok 0
      else (Toastium.getChild s fuel n (rest.take 256)).bind fun c =>
        if c = 0 then .ok 0
        else getPathFrom s fuel c
          ((rest ++ 0 :: tail).drop ((component rest).length + 1)) := by
  obtain ⟨b, str, rfl⟩ := List.exists_cons_of_ne_nil hne
  have hb : b ≠ 0 := fun e => h (e ▸ List.mem_cons_self)
  have hchr : strchr slash (b :: (str ++ 0 :: tail)) = _ := strchr_eq h
  have hlen : strlen (b :: (str ++ 0 :: tail)) = _ := strlen_eq h
  have hcopy : strscpy (b :: (str ++ 0 :: tail)) 257 = _ := strscpy_eq h 256
  rw [List.cons_append, getPathFrom, if_neg hb, hchr, ok_bind, hcopy]
  rcases component_cases (b :: str) with ⟨hslash, hall⟩ | ⟨rest', hcut⟩
  · rw [if_neg hslash, hall]
    simp only [hlen, ok_bind]
    rfl
  · rw [if_pos (slash_mem_of_cut hcut)]
    rfl

/-- The walk goes on behind a slash from a first child. -/
theorem getPathFrom_next (ht : HoldsTree s t) (h : 0 ∉ rest) (hlen : (component rest).length ≤ 256)
    (hc : FirstChild s t n (rest.take 256) c) (hcut : rest = component rest ++ slash :: rest')
    (fuel : ℕ) :
    getPathFrom s (fuel + 3) n (rest ++ 0 :: tail) =
      getPathFrom s (fuel + 2) c (rest' ++ 0 :: tail) := by
  have hne : c ≠ 0 := fun e => hc.live ht (e ▸ ht.null)
  have hnil : rest ≠ [] := List.ne_nil_of_mem (slash_mem_of_cut hcut)
  have hsplit : rest ++ 0 :: tail = (component rest ++ [slash]) ++ (rest' ++ 0 :: tail) := by
    conv_lhs => rw [hcut]
    simp only [List.append_assoc, List.cons_append, List.nil_append]
  have hdrop : (rest ++ 0 :: tail).drop ((component rest).length + 1) = rest' ++ 0 :: tail := by
    rw [hsplit, List.drop_left' (by rw [List.length_append, List.length_singleton])]
  rw [getPathFrom_step h hnil, if_neg hlen.not_gt, hc.getChild ht (slash_mem_of_cut hcut)]
  exact (if_neg hne).trans (by rw [hdrop])

theorem EndsEarly.getPath (ht : HoldsTree s t) (he : EndsEarly s t n rest) :
    0 ∉ rest → ∀ {fuel : ℕ}, rest.length + tail.length + 4 ≤ fuel →
      getPathFrom s fuel n (rest ++ 0 :: tail) = .ok 0 := by
  induction he with
  | @long n rest hlong =>
    intro h fuel hfuel
    obtain ⟨fuel, rfl⟩ := Nat.exists_eq_add_of_le' (show 1 ≤ fuel by omega)
    have hnil : rest ≠ [] := by
      rintro rfl
      exact absurd hlong (by decide)
    rw [getPathFrom_step h hnil, if_pos hlong]
  | missing hnil hlen hmissing =>
    intro h fuel hfuel
    obtain ⟨fuel, rfl⟩ := Nat.exists_eq_add_of_le' (show 3 ≤ fuel by omega)
    rw [getPathFrom_step h hnil, if_neg hlen.not_gt, hmissing.getChild ht]
    rfl
  | next hlen hc hcut _ ih =>
    intro h fuel hfuel
    have := length_of_cut hcut
    obtain ⟨fuel, rfl⟩ := Nat.exists_eq_add_of_le' (show 3 ≤ fuel by omega)
    rw [getPathFrom_next ht h hlen hc hcut]
    exact ih (not_mem_of_cut h hcut) (by omega)

theorem UsedUp.getPath (ht : HoldsTree s t) {m : ℕ} (hu : UsedUp s t n rest m) :
    0 ∉ rest → ∀ {fuel : ℕ}, rest.length + tail.length + 4 ≤ fuel →
      getPathFrom s fuel n (rest ++ 0 :: tail) = .ok m := by
  induction hu with
  | nil =>
    intro _ fuel hfuel
    obtain ⟨fuel, rfl⟩ := Nat.exists_eq_add_of_le' (show 1 ≤ fuel by omega)
    rw [List.nil_append, getPathFrom, if_pos rfl]
  | next hlen hc hcut _ ih =>
    intro h fuel hfuel
    have := length_of_cut hcut
    obtain ⟨fuel, rfl⟩ := Nat.exists_eq_add_of_le' (show 3 ≤ fuel by omega)
    rw [getPathFrom_next ht h hlen hc hcut]
    exact ih (not_mem_of_cut h hcut) (by omega)

/-- Behind the zero of the path the walk returns what it found if there is another zero, and
NULL if there is a long name. -/
theorem getPathFrom_tail (s : Dentries) (fuel m : ℕ) :
    getPathFrom s (fuel + 1) m [0] = .ok m ∧
      getPathFrom s (fuel + 1) m (List.replicate 257 1 ++ 0 :: []) = .ok 0 := by
  have hmem : ∀ {b : BitVec 8}, b ∈ List.replicate 257 1 → b = 1 := List.eq_of_mem_replicate
  have hzero : (0 : BitVec 8) ∉ List.replicate 257 1 := fun h => absurd (hmem h) (by decide)
  have hnil : List.replicate 257 (1 : BitVec 8) ≠ [] := fun e => by
    have := congrArg List.length e
    rw [List.length_replicate] at this
    exact absurd this (by decide)
  refine ⟨by rw [getPathFrom, if_pos rfl], ?_⟩
  rw [getPathFrom_step hzero hnil, if_pos]
  rcases component_cases (List.replicate 257 1) with ⟨-, hall⟩ | ⟨_, hcut⟩
  · rw [hall, List.length_replicate]
    decide
  · exact absurd (hmem (slash_mem_of_cut hcut)) (by decide)

/-- Otherwise the walk fails, or goes on behind the zero of the path, and no result is that for
all tails. -/
theorem not_getPathFrom_eq (ht : HoldsTree s t) (m : ℕ) : ∀ {rest : List (BitVec 8)} {n : ℕ},
    s.entries n ≠ none → 0 ∉ rest → ¬EndsEarly s t n rest → (∀ m, ¬UsedUp s t n rest m) →
    ∀ bound, ¬∀ (tail : List (BitVec 8)) (fuel : ℕ), bound + tail.length ≤ fuel →
      getPathFrom s fuel n (rest ++ 0 :: tail) = .ok m := by
  intro rest
  induction hk : rest.length using Nat.strong_induction_on generalizing rest with
  | _ k ih =>
  subst hk
  intro n hn h hearly hused bound hall
  have hnil : rest ≠ [] := by
    rintro rfl
    exact hused n .nil
  have hlen : (component rest).length ≤ 256 := not_lt.1 fun hlong => hearly (.long hlong)
  have hstep : ∀ tail fuel, bound + tail.length ≤ fuel + 3 →
      ∃ c, Toastium.getChild s (fuel + 2) n (rest.take 256) = .ok c ∧
        (if c = 0 then .ok 0
        else getPathFrom s (fuel + 2) c
          ((rest ++ 0 :: tail).drop ((component rest).length + 1))) = .ok m := by
    intro tail fuel hf
    have := hall tail (fuel + 3) hf
    rw [getPathFrom_step h hnil, if_neg hlen.not_gt] at this
    exact bind_eq_ok.1 this
  obtain ⟨c, hget, hfound⟩ := hstep [0] (bound + 300) (by simp)
  have hne : c ≠ 0 := fun h0 => hearly (.missing hnil hlen (missing_of_getChild ht hn (h0 ▸ hget)))
  rw [if_neg hne] at hfound
  rcases component_cases rest with ⟨-, hwhole⟩ | ⟨rest', hcut⟩
  · -- the last component : two tails, two results
    have hdrop : ∀ tail : List (BitVec 8),
        (rest ++ 0 :: tail).drop ((component rest).length + 1) = tail := fun tail => by
      rw [hwhole, ← List.singleton_append, ← List.append_assoc, List.drop_left' (by simp)]
    obtain ⟨c', hget', hlost⟩ := hstep (List.replicate 257 1 ++ 0 :: []) (bound + 300)
      (by rw [List.length_append, List.length_replicate, List.length_singleton]; omega)
    obtain rfl := Except.ok.inj (hget.symm.trans hget')
    rw [if_neg hne, hdrop, (getPathFrom_tail s _ c).2] at hlost
    rw [hdrop, (getPathFrom_tail s _ c).1, ← hlost] at hfound
    exact hne (Except.ok.inj hfound)
  · have hc := firstChild_of_getChild ht hn (slash_mem_of_cut hcut) hne hget
    have hshort : rest'.length < rest.length := by
      have := length_of_cut hcut
      omega
    refine ih _ hshort rfl (hc.live ht) (not_mem_of_cut h hcut)
      (fun he => hearly (.next hlen hc hcut he)) (fun m hu => hused m (.next hlen hc hcut hu))
      (bound + 2) fun tail fuel hfuel => ?_
    obtain ⟨fuel, rfl⟩ := Nat.exists_eq_add_of_le' (show 2 ≤ fuel by omega)
    rw [← getPathFrom_next ht h hlen hc hcut]
    exact hall tail _ (by omega)

theorem NameTree.start_cases (t : NameTree) (cwd : ℕ) (path : List (BitVec 8)) :
    (t.start cwd path).1 = cwd ∧ (t.start cwd path).2 = path ∨
      (t.start cwd path).1 = t.root ∧ path = slash :: (t.start cwd path).2 := by
  cases path with
  | nil => exact .inl ⟨rfl, rfl⟩
  | cons c rest =>
    rw [start]
    split_ifs with hc
    · exact .inr ⟨rfl, by rw [hc]⟩
    · exact .inl ⟨rfl, rfl⟩

theorem dentryGetPath_start (ht : HoldsTree s t) (cwd : ℕ) (path : List (BitVec 8)) (fuel : ℕ) :
    dentryGetPath s fuel cwd (path ++ 0 :: tail) =
      getPathFrom s fuel (t.start cwd path).1 ((t.start cwd path).2 ++ 0 :: tail) := by
  cases path with
  | nil =>
    rw [List.nil_append, dentryGetPath, if_neg (show (0 : BitVec 8) ≠ slash by decide)]
    rfl
  | cons c rest =>
    rw [List.cons_append, dentryGetPath, NameTree.start, ht.root]
    split_ifs <;> rfl

end Paths

/-- `dentry_get_path` returns what a path stands for exactly when the walk ends within the path :
with a name that is missing or too long, and the path stands for nothing, or at a slash, where the
path leads. -/
theorem dentryGetPath_iff {src : PageSource} {s : Dentries} {t : NameTree}
    (h : DentryTree src s t) {cwd : ℕ} (hcwd : s.entries cwd ≠ none) {path : List (BitVec 8)}
    (hpath : 0 ∉ path) :
    ResolvesPath s t cwd path ↔
      (t.resolve cwd path = 0 ∧ EndsEarly s t (t.start cwd path).1 (t.start cwd path).2) ∨
        UsedUp s t (t.start cwd path).1 (t.start cwd path).2 (t.resolve cwd path) := by
  have ht := h.holds
  have hlive : s.entries (t.start cwd path).1 ≠ none := by
    rcases t.start_cases cwd path with ⟨hstart, -⟩ | ⟨hstart, -⟩
    · rw [hstart]
      exact hcwd
    · rw [hstart, ht.root]
      exact ht.root_ne
  obtain ⟨hlen, hzero⟩ : (t.start cwd path).2.length ≤ path.length ∧ 0 ∉ (t.start cwd path).2 := by
    rcases t.start_cases cwd path with ⟨-, hrest⟩ | ⟨-, hrest⟩
    · rw [hrest]
      exact ⟨le_rfl, hpath⟩
    · rw [hrest] at hpath ⊢
      exact ⟨Nat.le_succ _, fun h0 => hpath (List.mem_cons_of_mem _ h0)⟩
  unfold ResolvesPath
  simp only [dentryGetPath_start ht cwd path]
  constructor
  · intro hall
    by_cases hearly : EndsEarly s t (t.start cwd path).1 (t.start cwd path).2
    · have hnull := hall [] _ le_rfl
      rw [hearly.getPath ht hzero (by simpa using hlen)] at hnull
      exact .inl ⟨(Except.ok.inj hnull).symm, hearly⟩
    · by_cases hused : ∃ m, UsedUp s t (t.start cwd path).1 (t.start cwd path).2 m
      · obtain ⟨m, hm⟩ := hused
        have hend := hall [] _ le_rfl
        rw [hm.getPath ht hzero (by simpa using hlen)] at hend
        exact .inr (Except.ok.inj hend ▸ hm)
      · refine absurd (fun tail fuel hf => hall tail fuel ?_) (not_getPathFrom_eq ht _ hlive hzero
          hearly (not_exists.1 hused) (path.length + 4))
        omega
  · rintro (⟨hnull, hearly⟩ | hused) tail fuel hfuel
    · rw [hnull]
      exact hearly.getPath ht hzero (by omega)
    · exact hused.getPath ht hzero (by omega)

/-! ### A second file -/

/-- A block of zeros. -/
def zeroBlock : Dentry :=
  ⟨[], .other, ⟨0, 0, 0, 0⟩, 0, 0, 0, fun _ => 0⟩

/-- The dentries after `init_dentry` at boot. -/
def bootDentries : Except (Fault Panic) Dentries :=
  initDentry bumpPages 512 1024 zeroBlock zeroBlock 256 ⟨⟨[], fun _ _ => 0⟩, fun _ => none, 0⟩

/-- With the file `a` next to the example. -/
def twoFiles : Except (Fault Panic) Dentries := do
  createDentry bumpPages 1536 zeroBlock 512 (bytesOf ['a']) 768 (← bootDentries)

def getOk (x : Except (Fault Panic) Dentries) : Dentries :=
  match x with
  | .ok s => s
  | .error _ => ⟨⟨[], fun _ _ => 0⟩, fun _ => none, 0⟩

theorem bootDentries_eq : bootDentries = .ok (getOk bootDentries) := rfl

theorem twoFiles_eq : twoFiles = .ok (getOk twoFiles) := rfl

theorem bootDentries_none {n : ℕ} (h1 : n ≠ 512) (h2 : n ≠ 1024) :
    (getOk bootDentries).entries n = none :=
  (Function.update_of_ne h1 _ _).trans <| (Function.update_of_ne h2 _ _).trans <|
    (Function.update_of_ne h2 _ _).trans <| (Function.update_of_ne h1 _ _).trans <|
    (Function.update_of_ne h1 _ _).trans (Function.update_of_ne h1 _ _)

theorem twoFiles_none {n : ℕ} (h1 : n ≠ 512) (h2 : n ≠ 1024) (h3 : n ≠ 1536) :
    (getOk twoFiles).entries n = none :=
  (Function.update_of_ne h1 _ _).trans <| (Function.update_of_ne h3 _ _).trans <|
    (Function.update_of_ne h3 _ _).trans <| (Function.update_of_ne h1 _ _).trans
      (bootDentries_none h1 h2)

theorem bootDentries_inodes : InodesApart (getOk bootDentries) := by
  intro n d hn htype
  by_cases h1 : n = 512
  · subst h1
    cases hn
    cases htype
  by_cases h2 : n = 1024
  · subst h2
    cases hn
    rfl
  rw [bootDentries_none h1 h2] at hn
  cases hn

theorem twoFiles_inodes : InodesApart (getOk twoFiles) := by
  intro n d hn htype
  by_cases h1 : n = 512
  · subst h1
    cases hn
    cases htype
  by_cases h2 : n = 1024
  · subst h2
    cases hn
    rfl
  by_cases h3 : n = 1536
  · subst h3
    cases hn
    rfl
  rw [twoFiles_none h1 h2 h3] at hn
  cases hn

/-- The names of `twoFiles`. -/
def twoNames : NameTree :=
  ((NameTree.single 512).add 1024 512 exampleName).add 1536 512 (bytesOf ['a'])

theorem twoFiles_tree : DentryTree bumpPages (getOk twoFiles) twoNames := by
  have hboot : DentryTree bumpPages (getOk bootDentries)
      ((NameTree.single 512).add 1024 512 exampleName) :=
    .init (fun _ => rfl) rfl ⟨by decide, by decide, rfl⟩ ⟨by decide, by decide, rfl⟩ (by decide)
      (show (256 : BitVec 64) ≠ 0 by decide) bootDentries_eq bootDentries_inodes
  have hrun : createDentry bumpPages 1536 zeroBlock 512 (bytesOf ['a']) 768 (getOk bootDentries) =
      .ok (getOk twoFiles) := twoFiles_eq
  exact .create hboot ⟨by decide, by decide, rfl⟩ rfl rfl (by decide) hrun twoFiles_inodes

/-- The second file of the root is not found. -/
theorem not_resolvesPath_twoFiles :
    DentryTree bumpPages (getOk twoFiles) twoNames ∧
      ¬ResolvesPath (getOk twoFiles) twoNames 512 (bytesOf ['/', 'a']) := by
  refine ⟨twoFiles_tree, fun h => ?_⟩
  have hres := h [] 6 le_rfl
  have hrun : dentryGetPath (getOk twoFiles) 6 512 (bytesOf ['/', 'a'] ++ [0]) = .ok 0 := by decide
  rw [hrun] at hres
  exact absurd (Except.ok.inj hres) (by decide)

theorem dentryGetPath_iff_twoFiles :
    ResolvesPath (getOk twoFiles) twoNames 512 (bytesOf ['/', 'a']) ↔
      (twoNames.resolve 512 (bytesOf ['/', 'a']) = 0 ∧
        EndsEarly (getOk twoFiles) twoNames (twoNames.start 512 (bytesOf ['/', 'a'])).1
          (twoNames.start 512 (bytesOf ['/', 'a'])).2) ∨
        UsedUp (getOk twoFiles) twoNames (twoNames.start 512 (bytesOf ['/', 'a'])).1
          (twoNames.start 512 (bytesOf ['/', 'a'])).2
          (twoNames.resolve 512 (bytesOf ['/', 'a'])) :=
  have hlive : ((getOk twoFiles).entries 512).isSome = true := rfl
  dentryGetPath_iff twoFiles_tree (Option.isSome_iff_ne_none.1 hlive) (by decide)

end Toastium
