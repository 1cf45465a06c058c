import Mathlib.Data.BitVec
import Mathlib.Data.List.Basic
import Mathlib.Data.List.MinMax
import Mathlib.Tactic

/-!
# Memory as a heap of objects

A heap of objects, each with a base address and a number of cells. A C expression
`p[i]` is the cell `i` of the object based at `p` : it is an error (`Fault.wild`) to read
or write where no live object has such a cell. `Source` is an allocator of zeroed objects
of one size, of which only the freshness and the alignment of what it returns are known.
-/

namespace Toastium

universe u

/-- How an execution ends without a result. -/
inductive Fault (π : Type*)
  /-- An access to cell `i` of base `p`, which no live object has. -/
  | wild (p i : ℕ)
  /-- A panic of the program. -/
  | panic (e : π)
  /-- A loop that was not run to its end. -/
  | fuel
  deriving DecidableEq, Repr

/-- A computation that returns does so at each of its steps. -/
theorem bind_eq_ok {ε : Type*} {α β : Type u} {x : Except ε α} {f : α → Except ε β} {b : β} :
    (x >>= f) = .ok b ↔ ∃ a, x = .ok a ∧ f a = .ok b := by
  cases x with
  | error e => simp [Bind.bind, Except.bind]
  | ok a => simp [Bind.bind, Except.bind]

@[simp] theorem ok_bind {ε : Type*} {α β : Type u} (a : α) (f : α → Except ε β) :
    (Except.ok a >>= f) = f a := rfl

@[simp] theorem error_bind {ε : Type*} {α β : Type u} (e : ε) (f : α → Except ε β) :
    (Except.error e >>= f) = .error e := rfl

@[simp] theorem pure_eq_ok {ε α : Type*} (a : α) : (pure a : Except ε α) = .ok a := rfl

theorem fst_of_ok {ε α β : Type*} {a a' : α} {b b' : β}
    (h : (Except.ok (a, b) : Except ε (α × β)) = .ok (a', b')) : a' = a :=
  (congrArg Prod.fst (Except.ok.inj h)).symm

theorem exists_eq_ok {ε α : Type*} : ∀ {x : Except ε α}, x.isOk = true → ∃ a, x = .ok a
  | .ok a, _ => ⟨a, rfl⟩

theorem eq_ok_of_toOption {ε α : Type*} {a : α} : ∀ {x : Except ε α}, x.toOption = some a →
    x = .ok a
  | .ok _, rfl => rfl

/-- A value of a map with one key added. -/
theorem update_some_cases {α β : Type*} [DecidableEq α] {f : α → Option β} {a x : α} {v b : β}
    (h : Function.update f a (some v) x = some b) : (x = a ∧ b = v) ∨ (x ≠ a ∧ f x = some b) := by
  rcases eq_or_ne x a with rfl | hne
  · rw [Function.update_self] at h
    exact Or.inl ⟨rfl, (Option.some.inj h).symm⟩
  · rw [Function.update_of_ne hne] at h
    exact Or.inr ⟨hne, h⟩

/-- Live objects, with their numbers of cells, and the contents of the cells. -/
structure Heap (α : Type*) where
  objs : List (ℕ × ℕ)
  cell : ℕ → ℕ → α

namespace Heap

variable {α π : Type*}

/-- The number of cells of the object based at `p`, 0 if there is none. -/
def len (h : Heap α) (p : ℕ) : ℕ :=
  (h.objs.lookup p).getD 0

/-- Cell `i` of `p` overwritten. -/
def set (h : Heap α) (p i : ℕ) (v : α) : Heap α :=
  { h with cell := fun q j => if q = p ∧ j = i then v else h.cell q j }

/-- A zeroed object of `n` cells at `p`. -/
def push [Zero α] (h : Heap α) (p n : ℕ) : Heap α :=
  ⟨(p, n) :: h.objs, fun q j => if q = p then 0 else h.cell q j⟩

/-- The object at `p` given back. -/
def drop (h : Heap α) (p : ℕ) : Heap α :=
  { h with objs := h.objs.filter fun o => o.1 ≠ p }

/-- `p[i]`. -/
def load (h : Heap α) (p i : ℕ) : Except (Fault π) α :=
  if i < h.len p then .ok (h.cell p i) else .error (.wild p i)

/-- `p[i] = v`. -/
def store (h : Heap α) (p i : ℕ) (v : α) : Except (Fault π) (Heap α) :=
  if i < h.len p then .ok (h.set p i v) else .error (.wild p i)

@[simp] theorem len_set (h : Heap α) (p i q : ℕ) (v : α) : (h.set p i v).len q = h.len q := rfl

@[simp] theorem objs_set (h : Heap α) (p i : ℕ) (v : α) : (h.set p i v).objs = h.objs := rfl

@[simp] theorem objs_push [Zero α] (h : Heap α) (p n : ℕ) :
    (h.push p n).objs = (p, n) :: h.objs := rfl

theorem cell_set (h : Heap α) (p i q j : ℕ) (v : α) :
    (h.set p i v).cell q j = if q = p ∧ j = i then v else h.cell q j := rfl

@[simp] theorem cell_set_self (h : Heap α) (p i : ℕ) (v : α) : (h.set p i v).cell p i = v := by
  simp [cell_set]

theorem cell_set_of_base_ne (h : Heap α) {p q : ℕ} (i j : ℕ) (v : α) (hne : q ≠ p) :
    (h.set p i v).cell q j = h.cell q j := by
  simp [cell_set, hne]

theorem cell_set_of_index_ne (h : Heap α) {i j : ℕ} (p q : ℕ) (v : α) (hne : j ≠ i) :
    (h.set p i v).cell q j = h.cell q j := by
  simp [cell_set, hne]

theorem len_push [Zero α] (h : Heap α) (p n q : ℕ) :
    (h.push p n).len q = if q = p then n else h.len q := by
  by_cases hq : q = p
  · subst hq
    simp [push, len]
  · have hb : (q == p) = false := by simp [hq]
    simp [push, len, List.lookup_cons, hq, hb]

@[simp] theorem len_push_self [Zero α] (h : Heap α) (p n : ℕ) : (h.push p n).len p = n := by
  simp [len_push]

theorem cell_push [Zero α] (h : Heap α) (p n q j : ℕ) :
    (h.push p n).cell q j = if q = p then 0 else h.cell q j := rfl

@[simp] theorem cell_push_self [Zero α] (h : Heap α) (p n j : ℕ) : (h.push p n).cell p j = 0 := by
  simp [cell_push]

theorem len_push_of_ne [Zero α] (h : Heap α) {p q : ℕ} (n : ℕ) (hne : q ≠ p) :
    (h.push p n).len q = h.len q := by
  simp [len_push, hne]

theorem cell_push_of_ne [Zero α] (h : Heap α) {p q : ℕ} (n j : ℕ) (hne : q ≠ p) :
    (h.push p n).cell q j = h.cell q j := by
  simp [cell_push, hne]

theorem lookup_filter {p q : ℕ} (hne : q ≠ p) : ∀ l : List (ℕ × ℕ),
    (l.filter fun o => o.1 ≠ p).lookup q = l.lookup q
  | [] => rfl
  | (a, b) :: l => by
    by_cases ha : a = p
    · have hqa : (q == a) = false := by
        rw [beq_eq_false_iff_ne, ha]
        exact hne
      rw [List.filter_cons_of_neg (by simpa using ha), List.lookup_cons, hqa]
      exact lookup_filter hne l
    · rw [List.filter_cons_of_pos (by simpa using ha), List.lookup_cons, List.lookup_cons,
        lookup_filter hne l]

theorem len_drop_of_ne (h : Heap α) {p q : ℕ} (hne : q ≠ p) : (h.drop p).len q = h.len q := by
  rw [len, len, drop, lookup_filter hne]

@[simp] theorem len_drop_self (h : Heap α) (p : ℕ) : (h.drop p).len p = 0 := by
  have hnone : (h.drop p).objs.lookup p = none := by
    rw [List.lookup_eq_none_iff]
    intro o ho
    have hne : o.1 ≠ p := by simpa [drop] using (List.mem_filter.mp ho).2
    simpa using hne.symm
  rw [len, hnone, Option.getD_none]

@[simp] theorem cell_drop (h : Heap α) (p q i : ℕ) : (h.drop p).cell q i = h.cell q i := rfl

theorem load_eq_ok {h : Heap α} {p i : ℕ} (hi : i < h.len p) :
    (h.load p i : Except (Fault π) α) = .ok (h.cell p i) :=
  if_pos hi

theorem store_eq_ok {h : Heap α} {p i : ℕ} {v : α} (hi : i < h.len p) :
    (h.store p i v : Except (Fault π) (Heap α)) = .ok (h.set p i v) :=
  if_pos hi

theorem load_set_self {h : Heap α} {p i : ℕ} (hi : i < h.len p) (v : α) :
    ((h.set p i v).load p i : Except (Fault π) α) = .ok v := by
  rw [load_eq_ok (h := h.set p i v) hi, cell_set_self]

theorem load_eq_wild {h : Heap α} {p i : ℕ} (hi : h.len p ≤ i) :
    (h.load p i : Except (Fault π) α) = .error (.wild p i) :=
  if_neg (Nat.not_lt.mpr hi)

end Heap

section Grown

variable {α : Type*}

/-- The objects in use stay in use, with their contents. -/
def Grown (h h' : Heap α) : Prop :=
  ∀ q, h.len q ≠ 0 → h'.len q = h.len q ∧ ∀ j, h'.cell q j = h.cell q j

theorem Grown.refl (h : Heap α) : Grown h h :=
  fun _ _ => ⟨rfl, fun _ => rfl⟩

theorem Grown.trans {h h' h'' : Heap α} (hg : Grown h h') (hg' : Grown h' h'') :
    Grown h h'' := fun q hq => by
  obtain ⟨hlen, hcell⟩ := hg q hq
  obtain ⟨hlen', hcell'⟩ := hg' q (by rwa [hlen])
  exact ⟨hlen'.trans hlen, fun j => (hcell' j).trans (hcell j)⟩

/-- What is free later was free before. -/
theorem Grown.free {h h' : Heap α} (hg : Grown h h') {q : ℕ} (hq : h'.len q = 0) :
    h.len q = 0 := by
  by_contra hne
  exact hne ((hg q hne).1 ▸ hq)

/-- A fresh object. -/
theorem Grown.push [Zero α] {h : Heap α} {p : ℕ} (hp : h.len p = 0) (n : ℕ) :
    Grown h (h.push p n) := fun q hq => by
  have hne : q ≠ p := fun e => hq (e ▸ hp)
  exact ⟨h.len_push_of_ne n hne, fun j => h.cell_push_of_ne n j hne⟩

end Grown

/-! ## Cells overwritten -/

/-- Cells `i`, … of `p` overwritten by `f 0`, …, `f (n - 1)`. -/
def Heap.fill {α : Type*} (h : Heap α) (p i n : ℕ) (f : ℕ → α) : Heap α :=
  { h with cell := fun q j => if q = p ∧ i ≤ j ∧ j < i + n then f (j - i) else h.cell q j }

namespace Heap

variable {α : Type*} (h : Heap α) (f : ℕ → α)

@[simp] theorem len_fill (p i n q : ℕ) : (h.fill p i n f).len q = h.len q := rfl

theorem cell_fill (p i n q j : ℕ) :
    (h.fill p i n f).cell q j =
      if q = p ∧ i ≤ j ∧ j < i + n then f (j - i) else h.cell q j := rfl

theorem cell_fill_of_base_ne {p q : ℕ} (i n j : ℕ) (hne : q ≠ p) :
    (h.fill p i n f).cell q j = h.cell q j := by
  simp [cell_fill, hne]

@[simp] theorem fill_zero (p i : ℕ) : h.fill p i 0 f = h := by
  unfold fill
  congr 1
  funext q j
  exact if_neg (by omega)

theorem fill_succ (p i n : ℕ) :
    (h.set p i (f 0)).fill p (i + 1) n (fun k => f (k + 1)) = h.fill p i (n + 1) f := by
  simp only [fill, set, mk.injEq, true_and]
  funext q j
  by_cases hq : q = p
  · rcases Nat.lt_trichotomy j i with hj | rfl | hj
    · rw [if_neg (by omega), if_neg (by omega), if_neg (by omega)]
    · rw [if_neg (by omega), if_pos ⟨hq, rfl⟩, if_pos (by omega), Nat.sub_self]
    · by_cases hlt : j < i + 1 + n
      · rw [if_pos ⟨hq, hj, hlt⟩, if_pos (by omega), show j - (i + 1) + 1 = j - i by omega]
      · rw [if_neg (by omega), if_neg (by omega), if_neg (by omega)]
  · simp [hq]

end Heap

/-! ## A range overwritten -/

section Patch

variable {α : Type*}

/-- The contents `g` with the values `l` written from index `s` on. -/
def patch (l : List α) (s : ℕ) (g : ℕ → α) : ℕ → α :=
  fun i => if s ≤ i then (l[i - s]?).getD (g i) else g i

@[simp] theorem patch_nil (s : ℕ) (g : ℕ → α) : patch [] s g = g := by
  funext i
  simp [patch]

theorem patch_cons (a : α) (l : List α) (s : ℕ) (g : ℕ → α) :
    patch (a :: l) s g = patch l (s + 1) (Function.update g s a) := by
  funext i
  unfold patch
  rcases Nat.lt_trichotomy i s with hi | hi | hi
  · rw [if_neg (by omega), if_neg (by omega), Function.update_of_ne (by omega)]
  · subst hi
    simp
  · rw [if_pos (by omega), if_pos (by omega), Function.update_of_ne (by omega),
      show i - s = (i - (s + 1)) + 1 by omega, List.getElem?_cons_succ]

theorem patch_append (l m : List α) (s : ℕ) (g : ℕ → α) :
    patch (l ++ m) s g = patch m (s + l.length) (patch l s g) := by
  induction l generalizing s g with
  | nil => simp
  | cons a l ih =>
    rw [List.cons_append, patch_cons, ih, patch_cons, List.length_cons,
      show s + 1 + l.length = s + (l.length + 1) by omega]

theorem patch_of_mem (l : List α) {s i : ℕ} (g : ℕ → α) (hi : i < l.length) :
    patch l s g (s + i) = l[i] := by
  rw [patch, if_pos (by omega), Nat.add_sub_cancel_left, List.getElem?_eq_getElem hi,
    Option.getD_some]

theorem patch_of_notMem (l : List α) {s i : ℕ} (g : ℕ → α) (hi : i < s ∨ s + l.length ≤ i) :
    patch l s g i = g i := by
  unfold patch
  split_ifs with hs
  · rw [List.getElem?_eq_none (by omega), Option.getD_none]
  · rfl

/-- What is written at `i` depends on the old contents at `i` only. -/
theorem patch_congr (l : List α) (s : ℕ) {g g' : ℕ → α} {i : ℕ} (h : g i = g' i) :
    patch l s g i = patch l s g' i := by
  unfold patch
  rw [h]

end Patch

/-- A load of a `u64`. -/
def loadU64 (mem : ℕ → BitVec 8) (p : ℕ) : BitVec 64 :=
  mem (p + 7) ++ mem (p + 6) ++ mem (p + 5) ++ mem (p + 4) ++ mem (p + 3) ++ mem (p + 2) ++
    mem (p + 1) ++ mem p

/-- Bit `i` of eight bytes, the highest first. -/
theorem getLsbD_bytes (b : Fin 8 → BitVec 8) {i : ℕ} (hi : i < 64) :
    BitVec.getLsbD (w := 64) (b 7 ++ b 6 ++ b 5 ++ b 4 ++ b 3 ++ b 2 ++ b 1 ++ b 0) i =
      (b ⟨i / 8, by omega⟩).getLsbD (i % 8) := by
  change BitVec.getLsbD (w := 8 + 8 + 8 + 8 + 8 + 8 + 8 + 8) _ i = _
  simp only [BitVec.getLsbD_append]
  interval_cases i <;> rfl

/-! ## Allocation -/

/-- An allocator of objects of `cells` cells and `bytes` bytes. Which address it returns
may depend on the heap in any way. -/
structure Source (α : Type*) (cells bytes : ℕ) where
  next : Heap α → Option ℕ
  fresh : ∀ {h p}, next h = some p → h.len p = 0
  pos : ∀ {h p}, next h = some p → 0 < p
  dvd : ∀ {h p}, next h = some p → bytes ∣ p
  lt : ∀ {h p}, next h = some p → p + bytes ≤ 2 ^ 64

namespace Source

variable {α π : Type*} {cells bytes : ℕ}

/-- A zeroed object, or the panic `e` if none is left. -/
def alloc [Zero α] (src : Source α cells bytes) (e : π) (h : Heap α) :
    Except (Fault π) (ℕ × Heap α) :=
  match src.next h with
  | none => .error (.panic e)
  | some p => .ok (p, h.push p cells)

theorem alloc_eq [Zero α] (src : Source α cells bytes) (e : π) (h : Heap α) :
    src.next h = none ∧ src.alloc e h = .error (.panic e) ∨
      ∃ p, src.next h = some p ∧ src.alloc e h = .ok (p, h.push p cells) := by
  unfold alloc
  cases hn : src.next h with
  | none => exact Or.inl ⟨rfl, rfl⟩
  | some p => exact Or.inr ⟨p, rfl, rfl⟩

theorem alloc_eq_ok [Zero α] {src : Source α cells bytes} {e : π} {h h' : Heap α} {p : ℕ} :
    src.alloc e h = .ok (p, h') ↔ src.next h = some p ∧ h' = h.push p cells := by
  unfold alloc
  cases hn : src.next h with
  | none => simp
  | some q =>
    simp only [Except.ok.injEq, Prod.mk.injEq, Option.some.injEq]
    constructor
    · rintro ⟨rfl, rfl⟩
      exact ⟨rfl, rfl⟩
    · rintro ⟨rfl, rfl⟩
      exact ⟨rfl, rfl⟩

/-- There is an object for every heap of less than `N`. -/
def Ample (src : Source α cells bytes) (N : ℕ) : Prop :=
  ∀ h : Heap α, h.objs.length < N → src.next h ≠ none

theorem lookup_eq_none_of_max_lt {q : ℕ} : ∀ l : List (ℕ × ℕ),
    (l.map Prod.fst).foldr max 0 < q → l.lookup q = none
  | [], _ => rfl
  | (a, b) :: l, hq => by
    simp only [List.map_cons, List.foldr_cons, max_lt_iff] at hq
    have hne : (q == a) = false := by
      rw [beq_eq_false_iff_ne]
      exact hq.1.ne'
    rw [List.lookup_cons, hne]
    exact lookup_eq_none_of_max_lt l hq.2

/-- The allocator that returns the first multiple of `bytes` above `start` and above every
base in use. -/
def bumpFrom (α : Type*) (cells bytes start : ℕ) (hb : 0 < bytes) : Source α cells bytes where
  next h :=
    let p := (max start ((h.objs.map Prod.fst).foldr max 0) / bytes + 1) * bytes
    if p + bytes ≤ 2 ^ 64 then some p else none
  fresh := by
    intro h p hp
    simp only [Option.ite_none_right_eq_some, Option.some.injEq] at hp
    obtain ⟨-, rfl⟩ := hp
    have hlt : ∀ n : ℕ, n < (n / bytes + 1) * bytes := fun n => by
      rw [Nat.add_mul, Nat.one_mul]
      exact Nat.lt_div_mul_add hb
    rw [Heap.len, lookup_eq_none_of_max_lt _ ((le_max_right _ _).trans_lt (hlt _)),
      Option.getD_none]
  pos := by
    intro h p hp
    simp only [Option.ite_none_right_eq_some, Option.some.injEq] at hp
    obtain ⟨-, rfl⟩ := hp
    positivity
  dvd := by
    intro h p hp
    simp only [Option.ite_none_right_eq_some, Option.some.injEq] at hp
    obtain ⟨-, rfl⟩ := hp
    exact Dvd.intro_left _ rfl
  lt := by
    intro h p hp
    simp only [Option.ite_none_right_eq_some, Option.some.injEq] at hp
    obtain ⟨hle, rfl⟩ := hp
    exact hle

theorem lt_of_bumpFrom {α : Type*} {cells bytes start : ℕ} {hb : 0 < bytes} {h : Heap α} {p : ℕ}
    (hp : (bumpFrom α cells bytes start hb).next h = some p) : start < p := by
  simp only [bumpFrom, Option.ite_none_right_eq_some, Option.some.injEq] at hp
  obtain ⟨-, rfl⟩ := hp
  rw [Nat.add_mul, Nat.one_mul]
  exact (le_max_left _ _).trans_lt (Nat.lt_div_mul_add hb)

/-- The same allocator, with less said of the alignment. -/
def ofDvd (src : Source α cells bytes) {b : ℕ} (hb : b ∣ bytes) (hpos : 0 < bytes) :
    Source α cells b where
  next := src.next
  fresh := src.fresh
  pos := src.pos
  dvd hp := hb.trans (src.dvd hp)
  lt hp := (Nat.add_le_add_left (Nat.le_of_dvd hpos hb) _).trans (src.lt hp)

theorem next_bumpFrom_congr {α : Type*} {cells bytes start : ℕ} (hb : 0 < bytes)
    {h h' : Heap α} (hobjs : h'.objs = h.objs) :
    (bumpFrom α cells bytes start hb).next h' = (bumpFrom α cells bytes start hb).next h := by
  simp only [bumpFrom, hobjs]

/-- The allocator that returns the first multiple of `bytes` above every base in use. -/
def bump (α : Type*) (cells bytes : ℕ) (hb : 0 < bytes) : Source α cells bytes :=
  bumpFrom α cells bytes 0 hb

/-- The allocator that returns the first free multiple of `bytes` above `start`. -/
def firstFit (α : Type*) (cells bytes start : ℕ) (hb : 0 < bytes) (hs : bytes ∣ start) :
    Source α cells bytes where
  next h := ((List.range (h.objs.length + 1)).map fun i => start + bytes * (i + 1)).find?
    fun p => h.len p = 0 ∧ p + bytes ≤ 2 ^ 64
  fresh := by
    intro h p hp
    have := List.find?_some hp
    exact (of_decide_eq_true this).1
  pos := by
    intro h p hp
    obtain ⟨i, -, rfl⟩ := List.mem_map.mp (List.mem_of_find?_eq_some hp)
    positivity
  dvd := by
    intro h p hp
    obtain ⟨i, -, rfl⟩ := List.mem_map.mp (List.mem_of_find?_eq_some hp)
    exact Nat.dvd_add hs (Nat.dvd_mul_right _ _)
  lt := by
    intro h p hp
    have := List.find?_some hp
    exact (of_decide_eq_true this).2

theorem lt_of_firstFit {α : Type*} {cells bytes start : ℕ} {hb : 0 < bytes} {hs : bytes ∣ start}
    {h : Heap α} {p : ℕ} (hp : (firstFit α cells bytes start hb hs).next h = some p) :
    start < p := by
  obtain ⟨i, -, rfl⟩ := List.mem_map.mp (List.mem_of_find?_eq_some hp)
  exact Nat.lt_add_of_pos_right (Nat.mul_pos hb (Nat.succ_pos i))

theorem mem_of_len_ne_zero {α : Type*} {h : Heap α} {p : ℕ} (hp : h.len p ≠ 0) :
    p ∈ h.objs.map Prod.fst := by
  cases hl : h.objs.lookup p with
  | none =>
    rw [Heap.len, hl] at hp
    exact absurd rfl hp
  | some n =>
    obtain ⟨l1, l2, heq, -⟩ := List.lookup_eq_some_iff.mp hl
    rw [heq]
    simp

/-- There is a free object, as one more is looked at than are in use. -/
theorem firstFit_ne_none {α : Type*} {cells bytes start : ℕ} (hb : 0 < bytes) (hs : bytes ∣ start)
    {h : Heap α} (hle : start + bytes * (h.objs.length + 2) ≤ 2 ^ 64) :
    (firstFit α cells bytes start hb hs).next h ≠ none := by
  intro hnone
  have hused : ∀ i, i < h.objs.length + 1 → start + bytes * (i + 1) ∈ h.objs.map Prod.fst := by
    intro i hi
    have hfail := List.find?_eq_none.mp hnone (start + bytes * (i + 1))
      (List.mem_map.mpr ⟨i, List.mem_range.mpr hi, rfl⟩)
    refine mem_of_len_ne_zero fun h0 => hfail (decide_eq_true ⟨h0, ?_⟩)
    have : bytes * (i + 1) + bytes ≤ bytes * (h.objs.length + 2) := by
      rw [← Nat.mul_succ]
      exact Nat.mul_le_mul_left _ (by omega)
    omega
  have hnodup : ((List.range (h.objs.length + 1)).map fun i => start + bytes * (i + 1)).Nodup := by
    refine List.nodup_range.map fun i j hij => ?_
    have := Nat.eq_of_mul_eq_mul_left hb (Nat.add_left_cancel hij)
    omega
  have hsub := (hnodup.subperm fun p hp => by
    obtain ⟨i, hi, rfl⟩ := List.mem_map.mp hp
    exact hused i (List.mem_range.mp hi)).length_le
  simp only [List.length_map, List.length_range] at hsub
  omega

end Source

/-! ## Accesses to the first cells -/

/-- An access that failed was to one of the first `n` cells of its base. -/
def Fault.Within {π : Type*} (n : ℕ) : Fault π → Prop
  | .wild _ i => i < n
  | _ => True

/-- If the computation ends with a failed access, it was to one of the first `n` cells. -/
def ErrorWithin {π α : Type*} (n : ℕ) (r : Except (Fault π) α) : Prop :=
  ∀ e, r = .error e → e.Within n

namespace ErrorWithin

variable {π : Type*} {α β : Type u} {n : ℕ}

theorem ok (a : α) : ErrorWithin n (.ok a : Except (Fault π) α) :=
  fun _ h => nomatch h

theorem panic (e : π) : ErrorWithin n (.error (.panic e) : Except (Fault π) α) :=
  fun _ h => by cases h; trivial

theorem bind {x : Except (Fault π) α} {f : α → Except (Fault π) β} (hx : ErrorWithin n x)
    (hf : ∀ a, x = .ok a → ErrorWithin n (f a)) : ErrorWithin n (x >>= f) := by
  cases x with
  | error e =>
    intro e' h
    cases h
    exact hx e rfl
  | ok a => exact hf a rfl

theorem load {α : Type*} (h : Heap α) (p : ℕ) {i : ℕ} (hi : i < n) :
    ErrorWithin n (h.load p i : Except (Fault π) α) := fun e he => by
  unfold Heap.load at he
  split_ifs at he
  cases he
  exact hi

theorem store {α : Type*} (h : Heap α) (p : ℕ) {i : ℕ} (v : α) (hi : i < n) :
    ErrorWithin n (h.store p i v : Except (Fault π) (Heap α)) := fun e he => by
  unfold Heap.store at he
  split_ifs at he
  cases he
  exact hi

theorem alloc {α : Type*} [Zero α] {cells bytes : ℕ} (src : Source α cells bytes) (e : π)
    (h : Heap α) : ErrorWithin n (src.alloc e h) := by
  rcases src.alloc_eq e h with ⟨-, ha⟩ | ⟨p, -, ha⟩
  · rw [ha]
    exact panic e
  · rw [ha]
    exact ok _

end ErrorWithin

/-- An allocator of blocks, where only the addresses matter : it returns an address that is
not in use. -/
structure AddrSource where
  next : List ℕ → Option ℕ
  fresh : ∀ {l p}, next l = some p → p ∉ l
  pos : ∀ {l p}, next l = some p → 0 < p

theorem le_foldr_max {a : ℕ} : ∀ {l : List ℕ}, a ∈ l → a ≤ l.foldr max 0
  | b :: l, h => by
    rw [List.foldr_cons]
    rcases List.mem_cons.mp h with rfl | h
    · exact le_max_left _ _
    · exact (le_foldr_max h).trans (le_max_right _ _)

/-- The allocator that returns the address `step` above every one in use. -/
def AddrSource.bump (step : ℕ) (hs : 0 < step) : AddrSource where
  next l := some (l.foldr max 0 + step)
  fresh := by
    intro l p hp hmem
    have := le_foldr_max hmem
    simp only [Option.some.injEq] at hp
    omega
  pos := by
    intro l p hp
    simp only [Option.some.injEq] at hp
    omega

end Toastium
