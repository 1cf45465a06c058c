import Mathlib.Logic.Relation
import Mathlib.Order.Preorder.Finite

/-!
# Runs that do not end

A run over finitely many states that never ends comes back to a state that it has been in. With
`Steps r n` for `n` steps of the relation `r`, `endless_iff_lasso` : from `a` there are runs of
every length exactly if one of them leads to a state on a cycle. `lasso_iff_back` cuts the cycle
at a step that does not increase a given measure, as every cycle has one.
-/

namespace Toastium

open Relation

variable {α : Type*} {r : α → α → Prop} {a b c : α} {m n : ℕ}

/-- `n` steps of `r`. -/
def Steps (r : α → α → Prop) : ℕ → α → α → Prop
  | 0, a, b => a = b
  | n + 1, a, b => ∃ c, r a c ∧ Steps r n c b

/-- From `a` there are runs of every length. -/
def Endless (r : α → α → Prop) (a : α) : Prop :=
  ∀ n, ∃ b, Steps r n a b

/-- A run from `a` leads to a state on a cycle. -/
def Lasso (r : α → α → Prop) (a : α) : Prop :=
  ∃ b, ReflTransGen r a b ∧ TransGen r b b

theorem Steps.reflTransGen : ∀ {n : ℕ} {a : α}, Steps r n a b → ReflTransGen r a b
  | 0, _, h => by
    obtain rfl := h
    exact .refl
  | _ + 1, _, ⟨_, hr, h⟩ => h.reflTransGen.head hr

theorem Steps.transGen (h : Steps r (n + 1) a b) : TransGen r a b := by
  obtain ⟨c, hr, h⟩ := h
  exact .head' hr h.reflTransGen

/-- A run is its first steps, and the steps after them. -/
theorem Steps.split : ∀ {m : ℕ} {a : α}, Steps r (m + n) a b →
    ∃ c, Steps r m a c ∧ Steps r n c b
  | 0, a, h => ⟨a, rfl, by rwa [Nat.zero_add] at h⟩
  | m + 1, a, h => by
    rw [Nat.add_right_comm] at h
    obtain ⟨d, hr, h⟩ := h
    obtain ⟨c, hm, hn⟩ := h.split
    exact ⟨c, ⟨d, hr, hm⟩, hn⟩

section Deterministic

variable (hdet : ∀ a b c, r a b → r a c → b = c)
include hdet

theorem Steps.unique : ∀ {n : ℕ} {a : α}, Steps r n a b → Steps r n a c → b = c
  | 0, _, hb, hc => hb.symm.trans hc
  | _ + 1, a, ⟨d, hd, hb⟩, ⟨e, he, hc⟩ => by
    obtain rfl := hdet a d e hd he
    exact hb.unique hc

/-- The states of a long run are not all different. -/
theorem Endless.lasso (h : Endless r a) (hfin : {b | ReflTransGen r a b}.Finite) :
    Lasso r a := by
  choose f hf using h
  obtain ⟨m, n, hlt, heq⟩ :=
    Set.Finite.exists_lt_map_eq_of_forall_mem (fun n => (hf n).reflTransGen) hfin
  obtain ⟨k, rfl⟩ : ∃ k, n = m + (k + 1) := ⟨n - m - 1, by omega⟩
  obtain ⟨c, hm, hk⟩ := (hf (m + (k + 1))).split
  obtain rfl : c = f m := hm.unique hdet (hf m)
  rw [← heq] at hk
  exact ⟨f m, hm.reflTransGen, hk.transGen⟩

end Deterministic

/-- After a step there still is a cycle ahead. -/
theorem Lasso.next (h : Lasso r a) : ∃ b, r a b ∧ Lasso r b := by
  obtain ⟨c, hac, hcycle⟩ := h
  rcases hac.cases_head with rfl | ⟨b, hr, hbc⟩
  · obtain ⟨b, hr, hba⟩ := TransGen.head'_iff.1 hcycle
    exact ⟨b, hr, a, hba, hcycle⟩
  · exact ⟨b, hr, c, hbc, hcycle⟩

theorem Lasso.endless (h : Lasso r a) : Endless r a := by
  intro n
  induction n generalizing a with
  | zero => exact ⟨a, rfl⟩
  | succ n ih =>
    obtain ⟨b, hr, hb⟩ := h.next
    obtain ⟨c, hc⟩ := ih hb
    exact ⟨c, b, hr, hc⟩

/-- From a state from which finitely many are reached, the runs of a deterministic relation have
no end exactly if they come to a cycle. -/
theorem endless_iff_lasso (hdet : ∀ a b c, r a b → r a c → b = c)
    (hfin : {b | ReflTransGen r a b}.Finite) : Endless r a ↔ Lasso r a :=
  ⟨fun h => h.lasso hdet hfin, Lasso.endless⟩

/-- A run increases the measure `f`, or has a step that does not. -/
theorem lt_or_back (f : α → ℕ) (h : TransGen r a b) :
    f a < f b ∨ ∃ p q, ReflTransGen r a p ∧ r p q ∧ f q ≤ f p ∧ ReflTransGen r q b := by
  induction h with
  | single hr =>
    rcases Nat.lt_or_ge (f a) (f _) with hlt | hge
    · exact .inl hlt
    · exact .inr ⟨a, _, .refl, hr, hge, .refl⟩
  | tail hac hr ih =>
    rename_i c d
    rcases ih with hlt | ⟨p, q, hp, hpq, hle, hq⟩
    · rcases Nat.lt_or_ge (f c) (f d) with hcd | hdc
      · exact .inl (hlt.trans hcd)
      · exact .inr ⟨c, d, hac.to_reflTransGen, hr, hdc, .refl⟩
    · exact .inr ⟨p, q, hp, hpq, hle, hq.tail hr⟩

/-- There is a cycle exactly if a step that does not increase `f` leads back to where it was
taken. -/
theorem lasso_iff_back (f : α → ℕ) : Lasso r a ↔
    ∃ p q, ReflTransGen r a p ∧ r p q ∧ f q ≤ f p ∧ ReflTransGen r q p := by
  constructor
  · rintro ⟨b, hab, hcycle⟩
    obtain ⟨p, q, hp, hpq, hle, hq⟩ := (lt_or_back f hcycle).resolve_left (lt_irrefl _)
    exact ⟨p, q, hab.trans hp, hpq, hle, hq.trans hp⟩
  · rintro ⟨p, q, hp, hpq, -, hqp⟩
    exact ⟨p, hp, .head' hpq hqp⟩

end Toastium
