import Mathlib.Data.List.Sort
import Mathlib.Tactic

/-!
# Null-terminated linked lists

`Linked next p l` says that `l` are the nodes met from `p` along `next`, up to the null
pointer. A node put between two others is `Linked.cons` after a change of one link, which
`Linked.congr` carries over the rest. An insertion into a list sorted by a key keeps it
sorted (`pairwise_orderedInsert`), for any key of a linear preorder.
-/

namespace Toastium

/-- `l` are the nodes from `p` on, in the order of the links. -/
def Linked {π : Type*} [Zero π] (next : π → π) : π → List π → Prop
  | p, [] => p = 0
  | p, q :: l => p = q ∧ q ≠ 0 ∧ Linked next (next q) l

namespace Linked

variable {π : Type*} [Zero π] {next : π → π} {p : π} {l : List π}

/-- A list that starts at the null pointer is empty. -/
theorem eq_nil (h : Linked next 0 l) : l = [] := by
  cases l with
  | nil => rfl
  | cons q l => exact absurd h.1.symm h.2.1

/-- A list that starts at a node has that node for its head. -/
theorem eq_cons (h : Linked next p l) (hp : p ≠ 0) :
    ∃ rest, l = p :: rest ∧ Linked next (next p) rest := by
  cases l with
  | nil => exact absurd h hp
  | cons q rest =>
    obtain ⟨rfl, -, hrest⟩ := h
    exact ⟨rest, rfl, hrest⟩

/-- A node in front of a list. -/
theorem cons (hp : p ≠ 0) (h : Linked next (next p) l) : Linked next p (p :: l) :=
  ⟨rfl, hp, h⟩

/-- No node is the null pointer. -/
theorem ne_zero : ∀ {p : π} {l : List π}, Linked next p l → ∀ q ∈ l, q ≠ 0
  | _, _ :: _, h, q, hq => by
    rcases List.mem_cons.mp hq with rfl | hq
    · exact h.2.1
    · exact ne_zero h.2.2 q hq

/-- A list depends on the links of its own nodes only. -/
theorem congr {next' : π → π} :
    ∀ {p : π} {l : List π}, Linked next p l → (∀ q ∈ l, next' q = next q) → Linked next' p l
  | _, [], h, _ => h
  | _, q :: l, ⟨hpq, hq, h⟩, heq => by
    refine ⟨hpq, hq, ?_⟩
    rw [heq q List.mem_cons_self]
    exact congr h fun r hr => heq r (List.mem_cons_of_mem q hr)

end Linked

/-- An insertion by a key keeps a list sorted by it. -/
theorem pairwise_orderedInsert {α κ : Type*} [LE κ] [DecidableLE κ] [Std.IsLinearPreorder κ]
    (key : α → κ) (a : α) {l : List α} (h : l.Pairwise fun x y => key x ≤ key y) :
    (l.orderedInsert (fun x y => key x ≤ key y) a).Pairwise fun x y => key x ≤ key y := by
  have : Std.Total fun x y => key x ≤ key y := ⟨fun x y => Std.le_total⟩
  have : IsTrans α fun x y => key x ≤ key y := ⟨fun _ _ _ => Std.le_trans⟩
  exact h.orderedInsert a l

end Toastium
