import Toastium.VmaRuns

/-!
# Several tables in one memory

The tables of all processes are in pages of one pager. As long as no two of them share a page
(`Tables`), a call on one table and the creation of another leave the rest as they are, and no page
comes to be shared (`Tables.call`, `Tables.create`).
-/

namespace Toastium

variable {src : KernelPages} {h h' : Heap (BitVec 64)} {R R' : ℕ → Prop} {r root : ℕ}

/-- The tables with the roots `R` are in order, and share no page. -/
structure Tables (h : Heap (BitVec 64)) (R : ℕ → Prop) : Prop where
  ok : ∀ r, R r → TableOk h r
  apart : ∀ r r', R r → R r' → r ≠ r' → ∀ p, IsTable h r p → ¬IsTable h r' p

/-- The pages of a table are in use. -/
theorem TableOk.len (ht : TableOk h r) {p : ℕ} (hp : IsTable h r p) : h.len p = 512 := by
  obtain ⟨pg, hinv, -⟩ := ht
  obtain ⟨π, hπ⟩ := hinv.of_isTable hp
  exact hinv.len hπ

theorem TableOk.len_ne_zero (ht : TableOk h r) {p : ℕ} (hp : IsTable h r p) : h.len p ≠ 0 := by
  rw [ht.len hp]
  exact Nat.succ_ne_zero _

/-- A change to one table, which leaves the other pages in use as they are. -/
theorem TableOk.sameTable_of_foreign (ht : TableOk h r) (hapart : ∀ p, IsTable h r p →
    ¬IsTable h root p) (hforeign : ∀ p, h.len p ≠ 0 → ¬IsTable h root p →
    h'.len p = h.len p ∧ (∀ j, h'.cell p j = h.cell p j) ∧ ¬IsTable h' root p) :
    SameTable r h h' := fun p hp => by
  obtain ⟨hlen, hcell, -⟩ := hforeign p (ht.len_ne_zero hp) (hapart p hp)
  exact ⟨hlen, hcell⟩

namespace Tables

theorem mono (ht : Tables h R) (hsub : ∀ r, R' r → R r) : Tables h R' :=
  ⟨fun r hr => ht.ok r (hsub r hr), fun r r' hr hr' => ht.apart r r' (hsub r hr) (hsub r' hr')⟩

/-- Memory that is not part of the tables is changed. -/
theorem other (ht : Tables h R) (hsame : ∀ r, R r → SameTable r h h') : Tables h' R ∧
    ∀ r, R r → ∀ va, translate h' r va = translate h r va := by
  have hkeep := fun r hr => (ht.ok r hr).sameTable (hsame r hr)
  exact ⟨⟨fun r hr => (hkeep r hr).1, fun r r' hr hr' hne p hp hp' =>
    ht.apart r r' hr hr' hne p ((hkeep r hr).2.2 p hp) ((hkeep r' hr').2.2 p hp')⟩,
    fun r hr => (hkeep r hr).2.1⟩

/-- A call on one of the tables. -/
theorem call {fuel : ℕ} {c : MapCall} (ht : Tables h R) (hroot : R root)
    (hsup : Supported src ⟨h, root⟩ c) (hrun : c.run src fuel root h = .ok h') : Tables h' R ∧
    RangeMapped h root c.virtAddr c.size c.physAddr c.flags h' ∧
    ∀ r, R r → r ≠ root → ∀ va, translate h' r va = translate h r va := by
  obtain ⟨h1, hrun', hok, hmap⟩ := Supported.run fuel hsup (ht.ok root hroot)
  cases hrun.symm.trans hrun'
  have hkeep : ∀ r, R r → r ≠ root → TableOk h' r ∧
      (∀ va, translate h' r va = translate h r va) ∧ ∀ p, IsTable h' r p → IsTable h r p :=
    fun r hr hne => (ht.ok r hr).sameTable ((ht.ok r hr).sameTable_of_foreign
      (ht.apart r root hr hroot hne) hmap.foreign)
  -- a page of another table is not taken for this one
  have hnew : ∀ r, R r → r ≠ root → ∀ p, IsTable h' r p → ¬IsTable h' root p :=
    fun r hr hne p hp => by
      have hold := (hkeep r hr hne).2.2 p hp
      exact (hmap.foreign p ((ht.ok r hr).len_ne_zero hold)
        (ht.apart r root hr hroot hne p hold)).2.2
  refine ⟨⟨fun r hr => ?_, fun r r' hr hr' hne p hp hp' => ?_⟩, hmap,
    fun r hr hne => (hkeep r hr hne).2.1⟩
  · by_cases he : r = root
    · rw [he]
      exact hok
    · exact (hkeep r hr he).1
  · by_cases he : r = root
    · rw [he] at hp hne
      exact hnew r' hr' hne.symm p hp' hp
    · by_cases he' : r' = root
      · rw [he'] at hp'
        exact hnew r hr he p hp hp'
      · exact ht.apart r r' hr hr' hne p ((hkeep r hr he).2.2 p hp)
          ((hkeep r' hr' he').2.2 p hp')

/-- A table is made. -/
theorem create (ht : Tables h R) (hcreate : vmaCreate src h = .ok (root, h')) : ¬R root ∧
    Tables h' (fun r => r = root ∨ R r) ∧
    ∀ r, R r → ∀ va, translate h' r va = translate h r va := by
  rcases vmaCreate_spec src h with ⟨-, hpanic⟩ | ⟨root', h1, hok, hinv, hc, -, hfree, hrest, -⟩
  · rw [hpanic] at hcreate
    cases hcreate
  cases hcreate.symm.trans hok
  have hne : ∀ r, R r → ∀ p, IsTable h r p → p ≠ root := fun r hr p hp he =>
    (ht.ok r hr).len_ne_zero hp (he ▸ hfree)
  have hnot : ¬R root := fun hr => hne root hr root .root rfl
  have honly : ∀ p, IsTable h' root p → p = root := fun p hp => by
    obtain ⟨π, hπ⟩ := hinv.of_isTable hp
    unfold rootOnly at hπ
    split_ifs at hπ
    exact (Option.some.inj hπ).symm
  have hkeep : ∀ r, R r → TableOk h' r ∧
      (∀ va, translate h' r va = translate h r va) ∧ ∀ p, IsTable h' r p → IsTable h r p :=
    fun r hr => (ht.ok r hr).sameTable fun p hp => hrest p (hne r hr p hp)
  refine ⟨hnot, ⟨fun r hr => ?_, fun r r' hr hr' hrr p hp hp' => ?_⟩,
    fun r hr => (hkeep r hr).2.1⟩
  · rcases hr with rfl | hr
    · exact ⟨_, hinv, hc⟩
    · exact (hkeep r hr).1
  · rcases hr with rfl | hr <;> rcases hr' with rfl | hr'
    · exact hrr rfl
    · exact hne r' hr' p ((hkeep r' hr').2.2 p hp') (honly p hp)
    · exact hne r hr p ((hkeep r hr).2.2 p hp) (honly p hp')
    · exact ht.apart r r' hr hr' hrr p ((hkeep r hr).2.2 p hp) ((hkeep r' hr').2.2 p hp')

end Tables

end Toastium
