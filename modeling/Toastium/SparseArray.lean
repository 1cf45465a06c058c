import Toastium.Heap

/-!
# Arrays in pages

An array of which some pages are there, with a size up to which it is meant to be read.
Values are put at a range of places : the missing pages of the range are added
(`SparseArray.store`). Whether they may be is decided page by page, where the range gets to
them : a page that is missing is added only at or past the size (`CanStore`). Values can be
taken from a range if all of its pages are there (`CanLoad`).

`store_append`, `canStore_add`, `canLoad_add` take a range apart at the end of its first page.
-/

namespace Toastium

/-- An array in pages. -/
@[ext] structure SparseArray (α : Type*) where
  present : ℕ → Prop
  value : ℕ → α
  size : ℕ

namespace SparseArray

variable {α : Type*} {P p m n k : ℕ} {a : SparseArray α}

/-- Some of the `n` places from `p` on are on page `k`. -/
def Touches (P p n k : ℕ) : Prop :=
  P * k < p + n ∧ p < P * k + P ∧ 0 < n

/-- The values `l` put at the places from `p` on. -/
def store (P : ℕ) (a : SparseArray α) (p : ℕ) (l : List α) : SparseArray α where
  present k := a.present k ∨ Touches P p l.length k
  value := patch l p a.value
  size := a.size

/-- The pages of the `n` places from `p` on are there, or past the size. -/
def CanStore (P : ℕ) (a : SparseArray α) (p n : ℕ) : Prop :=
  ∀ k, Touches P p n k → a.present k ∨ a.size ≤ max p (P * k)

/-- The pages of the `n` places from `p` on are there. -/
def CanLoad (P : ℕ) (a : SparseArray α) (p n : ℕ) : Prop :=
  ∀ k, Touches P p n k → a.present k

theorem not_touches_zero : ¬Touches P p 0 k := by
  simp [Touches]

theorem touches_add : Touches P p (m + n) k ↔ Touches P p m k ∨ Touches P (p + m) n k := by
  unfold Touches
  rcases Nat.eq_zero_or_pos P with rfl | hP
  · simp
  · omega

/-- A range that ends on its first page. -/
theorem touches_page (hm : 0 < m) (hend : p % P + m ≤ P) : Touches P p m k ↔ k = p / P := by
  have hP : 0 < P := by omega
  have hdiv := Nat.div_add_mod p P
  constructor
  · rintro ⟨hlt, hle, -⟩
    have h1 : k ≤ p / P := by
      have : P * k < P * (p / P + 1) := by
        rw [Nat.mul_succ]
        omega
      exact Nat.lt_succ_iff.mp (Nat.lt_of_mul_lt_mul_left this)
    have h2 : p / P ≤ k := by
      have : P * (p / P) < P * (k + 1) := by
        rw [Nat.mul_succ]
        omega
      exact Nat.lt_succ_iff.mp (Nat.lt_of_mul_lt_mul_left this)
    omega
  · rintro rfl
    have := Nat.mod_lt p hP
    exact ⟨by omega, by omega, hm⟩

@[simp] theorem store_nil : a.store P p [] = a := by
  simp [store, not_touches_zero]

theorem store_append (l l' : List α) :
    a.store P p (l ++ l') = (a.store P p l).store P (p + l.length) l' := by
  ext k
  · simp [store, touches_add, or_assoc]
  · simp [store, patch_append]
  · rfl

theorem canStore_zero : CanStore P a p 0 :=
  fun _ hk => absurd hk not_touches_zero

/-- The first page of a range, and the rest of it. -/
theorem canStore_add {l : List α} (hl : l.length = m) (hm : 0 < m) (hend : p % P + m ≤ P)
    (hrest : n = 0 ∨ p % P + m = P) : CanStore P a p (m + n) ↔
      (a.present (p / P) ∨ a.size ≤ p) ∧ CanStore P (a.store P p l) (p + m) n := by
  have hdiv := Nat.div_add_mod p P
  have hfirst : max p (P * (p / P)) = p := by omega
  -- the pages of the rest are behind the first
  have hnext : ∀ {k}, Touches P (p + m) n k → p + m ≤ P * k := fun {k} hk => by
    obtain ⟨hlt, hle, hn⟩ := hk
    have hPm : p + m = P * (p / P + 1) := by
      rw [Nat.mul_succ]
      omega
    rw [hPm] at hle ⊢
    rw [← Nat.mul_succ] at hle
    exact Nat.mul_le_mul_left P (Nat.lt_succ_iff.mp (Nat.lt_of_mul_lt_mul_left hle))
  constructor
  · intro h
    refine ⟨?_, fun k hk => ?_⟩
    · have := h (p / P) (touches_add.mpr (Or.inl ((touches_page hm hend).mpr rfl)))
      rwa [hfirst] at this
    · have hle := hnext hk
      rcases h k (touches_add.mpr (Or.inr hk)) with hp | hsize
      · exact Or.inl (Or.inl hp)
      · exact Or.inr (hsize.trans (by omega))
  · rintro ⟨hhead, htail⟩ k hk
    have hpage : k = p / P → a.present k ∨ a.size ≤ max p (P * k) := by
      rintro rfl
      rwa [hfirst]
    rcases touches_add.mp hk with hk | hk
    · exact hpage ((touches_page hm hend).mp hk)
    · have hle := hnext hk
      rcases htail k hk with (hp | ht) | hsize
      · exact Or.inl hp
      · rw [hl] at ht
        exact hpage ((touches_page hm hend).mp ht)
      · exact Or.inr (hsize.trans (by omega))

theorem canLoad_zero : CanLoad P a p 0 :=
  fun _ hk => absurd hk not_touches_zero

theorem canLoad_add (hm : 0 < m) (hend : p % P + m ≤ P) :
    CanLoad P a p (m + n) ↔ a.present (p / P) ∧ CanLoad P a (p + m) n := by
  simp only [CanLoad, touches_add, or_imp, forall_and, touches_page hm hend, forall_eq]

end SparseArray

end Toastium
