import Mathlib.Data.Set.Card

/-!
# Who holds a thing

Things are held through keys, each of which holds one at most. The holders of a thing are a set
of keys (`holders`), and a count of them is right as long as it is moved with every key that is
set or cleared : by one if the thing of the key is this one, and not at all else
(`ncard_holders_set`, `ncard_holders_clear`, `holders_update_of_ne`).
-/

namespace Toastium

variable {ι ρ : Type*} {g : ι → Option ρ} {i : ι} {r : ρ} {o : Option ρ}

/-- The keys that hold `r`. -/
def holders (g : ι → Option ρ) (r : ρ) : Set ι :=
  {i | g i = some r}

@[simp] theorem mem_holders : i ∈ holders g r ↔ g i = some r := Iff.rfl

theorem holders_eq_empty (h : ∀ i, g i ≠ some r) : holders g r = ∅ :=
  Set.eq_empty_iff_forall_notMem.mpr h

variable [DecidableEq ι]

/-- A key that comes to hold it. -/
theorem holders_set : holders (Function.update g i (some r)) r = insert i (holders g r) := by
  ext j
  by_cases hj : j = i <;> simp [hj]

/-- A key that holds something else from now on. -/
theorem holders_clear (ho : o ≠ some r) :
    holders (Function.update g i o) r = holders g r \ {i} := by
  ext j
  by_cases hj : j = i <;> simp [hj, ho]

/-- A key that did not hold it, and does not now. -/
theorem holders_update_of_ne (hi : g i ≠ some r) (ho : o ≠ some r) :
    holders (Function.update g i o) r = holders g r := by
  rw [holders_clear ho, Set.sdiff_singleton_eq_self (mem_holders.not.mpr hi)]

theorem ncard_holders_set (hi : g i ≠ some r) (hfin : (holders g r).Finite) :
    (holders (Function.update g i (some r)) r).ncard = (holders g r).ncard + 1 := by
  rw [holders_set, Set.ncard_insert_of_notMem (mem_holders.not.mpr hi) hfin]

theorem ncard_holders_clear (hi : g i = some r) (ho : o ≠ some r) (hfin : (holders g r).Finite) :
    (holders (Function.update g i o) r).ncard + 1 = (holders g r).ncard := by
  rw [holders_clear ho, Set.ncard_sdiff_singleton_add_one (mem_holders.mpr hi) hfin]

theorem holders_update_finite (hfin : (holders g r).Finite) (i : ι) (o : Option ρ) :
    (holders (Function.update g i o) r).Finite := by
  refine (hfin.insert i).subset fun j hj => ?_
  by_cases hji : j = i
  · exact Set.mem_insert_iff.mpr (Or.inl hji)
  · rw [mem_holders, Function.update_of_ne hji] at hj
    exact Set.mem_insert_of_mem i hj

end Toastium
