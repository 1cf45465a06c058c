import Toastium.ProcessTable

/-!
# Address space ids

`vma_swap` gives a process a number from a counter when it has none. When the numbers are used
up, `vma_reset_asid` should take them from all processes before the counter starts again. It
walks `running_list` with `list_iter_next`, which advances the pointer to the list instead of
its position, and returns the address of an item where a process is expected : one word of the
list's first page is overwritten, the walk ends at the padding after the list, and every process
keeps its number.

`asids_distinct` : no two live processes have the same number in the runs in which the counter
starts again only while no other live process has a number.
-/

namespace Toastium

/-! ## The code -/

/-- The processes, their address space ids and the counter of `virtual_memory.c`. -/
structure AsidState where
  table : ProcessTable
  asid : ℕ → BitVec 64
  currentHighestAsid : ℕ
  maxAsid : ℕ

namespace AsidState

/-- `running_list`, and what is after it in `state` : padding, which is zero. -/
def listAt (s : AsidState) : ℕ → ListHeader
  | 0 => ⟨s.table.firstSection, s.table.kernel.itemCnt, 8⟩
  | _ + 1 => ⟨0, 0, 0⟩

/-- `list_iter_create`. -/
def listIterCreate (s : AsidState) : ListIter :=
  ⟨0, 0, s.table.firstSection, Kernel.sectionMaxCnt⟩

/-- `list_iter_next`. -/
def listIterNext (s : AsidState) (h : Heap (BitVec 64)) (iter : ListIter) :
    Except (Fault Panic) (ℕ × ℕ × ListIter) :=
  Toastium.listIterNext s.listAt h iter

/-- The loop of `vma_reset_asid`, at most `fuel` times. `vma_addr_space_id` is 56 bytes into
a process. -/
def resetFrom (s : AsidState) : ℕ → ListIter → Heap (BitVec 64) →
    Except (Fault Panic) (Heap (BitVec 64))
  | 0, _, _ => .error .fuel
  | fuel + 1, iter, h =>
    if iter.curUpto < (s.listAt iter.curList).itemCnt then do
      let (sect, word, iter) ← s.listIterNext h iter
      if sect + 8 * word = 0 then .error (.panic .procAsidLoopInvalid)
      let h ← h.store sect (word + 7) (BitVec.allOnes 64)
      s.resetFrom fuel iter h
    else .ok h

/-- `vma_reset_asid`. -/
def vmaResetAsid (fuel : ℕ) (s : AsidState) : Except (Fault Panic) AsidState := do
  if s.maxAsid = 0 then return { s with currentHighestAsid := 0 }
  let h ← s.resetFrom fuel s.listIterCreate s.table.sections
  return { s with table := { s.table with sections := h }, currentHighestAsid := 0 }

/-- `vma_fetch_asid`. -/
def vmaFetchAsid (fuel : ℕ) (s : AsidState) : Except (Fault Panic) (ℕ × AsidState) := do
  if s.maxAsid = 0 then return (0, ← s.vmaResetAsid fuel)
  if s.currentHighestAsid ≥ s.maxAsid then
    let s ← s.vmaResetAsid fuel
    return (0, { s with currentHighestAsid := 0 })
  else return (s.currentHighestAsid + 1,
    { s with currentHighestAsid := s.currentHighestAsid + 1 })

/-- `vma_swap`, up to the write of `satp`. -/
def vmaSwap (fuel proc : ℕ) (s : AsidState) : Except (Fault Panic) AsidState := do
  if s.asid proc = BitVec.allOnes 64 ∨ s.maxAsid = 0 then
    let (asid, s) ← s.vmaFetchAsid fuel
    return { s with asid := Function.update s.asid proc (BitVec.ofNat 64 asid) }
  else return s

/-- `new_blank_process`. -/
def newBlankProcess (src : ProcessSources) (pages : PageSource) (fuel listIdx : ℕ)
    (padding : BitVec 32) (s : AsidState) : Except (Fault Panic) AsidState := do
  let (proc, t) ← s.table.newBlankProcess src pages fuel listIdx padding
  return { s with table := t, asid := Function.update s.asid proc (BitVec.allOnes 64) }

end AsidState

/-! ## Runs -/

/-- A process is created, killed or cleaned up, or its address space is switched to. -/
inductive AsidEvent
  | table (e : ProcTableEvent)
  | swap (proc : ℕ)

section Runs

variable (src : ProcessSources) (pages : PageSource)

/-- No process, and the counter as `vma_init` leaves it, on hardware with address space ids. -/
def AsidInit (s : AsidState) : Prop :=
  ProcTableInit pages s.table ∧ s.currentHighestAsid = s.maxAsid ∧ 0 < s.maxAsid ∧
    s.maxAsid < 2 ^ 16

/-- A step that returns. -/
inductive AsidStep : AsidState → AsidEvent → AsidState → Prop
  | create {s s' : AsidState} {fuel listIdx : ℕ} {padding : BitVec 32} :
    s.newBlankProcess src pages fuel listIdx padding = .ok s' →
    AsidStep s (.table (.create listIdx padding)) s'
  | table {s : AsidState} {t : ProcessTable} {e : ProcTableEvent} :
    (∀ listIdx padding, e ≠ .create listIdx padding) → ProcTableStep src pages s.table e t →
    AsidStep s (.table e) { s with table := t }
  | swap {s s' : AsidState} {fuel proc : ℕ} : proc ∈ s.table.kernel.live →
    s.vmaSwap fuel proc = .ok s' → AsidStep s (.swap proc) s'

end Runs

/-- No two live processes have the same number. -/
def AsidsDistinct (s : AsidState) : Prop :=
  ∀ p ∈ s.table.kernel.live, ∀ q ∈ s.table.kernel.live, p ≠ q →
    s.asid p = s.asid q → s.asid p = BitVec.allOnes 64

/-- The counter starts again only while no other live process has a number. -/
def RestartsAlone (s : AsidState) : AsidEvent → Prop
  | .table _ => True
  | .swap proc => s.asid proc = BitVec.allOnes 64 → s.maxAsid ≤ s.currentHighestAsid →
    ∀ q ∈ s.table.kernel.live, q ≠ proc → s.asid q = BitVec.allOnes 64

/-! ## The reset -/

namespace AsidState

variable {s s' : AsidState} {fuel : ℕ}

/-- The walk ends after one item, and only the page of the list is written. -/
theorem vmaResetAsid_eq (hmax : 0 < s.maxAsid) (hcnt : 0 < s.table.kernel.itemCnt)
    (hlen : s.table.sections.len s.table.firstSection = 512) :
    s.vmaResetAsid (fuel + 2) = .ok { s with
      table.sections := s.table.sections.set s.table.firstSection 8 (BitVec.allOnes 64)
      currentHighestAsid := 0 } := by
  have hload : 0 < s.table.sections.len s.table.firstSection := by omega
  have hstore : 1 + 7 < s.table.sections.len s.table.firstSection := by omega
  have hnext : s.listIterNext s.table.sections s.listIterCreate = .ok (s.table.firstSection, 1,
      ⟨1, 0, (s.table.sections.cell s.table.firstSection 0).toNat, Kernel.sectionMaxCnt⟩) := by
    simp only [listIterNext, Toastium.listIterNext, listIterCreate, listAt, Nat.zero_mod,
      if_true, Heap.load_eq_ok hload, ok_bind, pure_eq_ok, Nat.mul_zero, Nat.zero_div]
  have hne : s.table.firstSection + 8 * 1 ≠ 0 := by omega
  -- the second pass is at the padding after the list
  have hend : ∀ sectionUpto h,
      s.resetFrom (fuel + 1) ⟨1, 0, sectionUpto, Kernel.sectionMaxCnt⟩ h = .ok h := fun _ _ =>
    if_neg (Nat.lt_irrefl 0)
  have hloop : s.resetFrom (fuel + 2) s.listIterCreate s.table.sections =
      .ok (s.table.sections.set s.table.firstSection 8 (BitVec.allOnes 64)) := by
    have hpos : s.listIterCreate.curUpto < (s.listAt s.listIterCreate.curList).itemCnt := hcnt
    rw [resetFrom, if_pos hpos, hnext]
    simp only [ok_bind, if_neg hne, Heap.store_eq_ok hstore, hend]
  rw [vmaResetAsid, if_neg hmax.ne', hloop]
  rfl

/-- What `vma_fetch_asid` returns and changes. -/
theorem vmaFetchAsid_eq (hmax : 0 < s.maxAsid) {a : ℕ} (h : s.vmaFetchAsid fuel = .ok (a, s')) :
    s'.asid = s.asid ∧ s'.table.kernel = s.table.kernel ∧ s'.maxAsid = s.maxAsid ∧
      s'.currentHighestAsid = a ∧
      (s.maxAsid ≤ s.currentHighestAsid ∧ a = 0 ∨
        s.currentHighestAsid < s.maxAsid ∧ a = s.currentHighestAsid + 1) := by
  unfold vmaFetchAsid at h
  rw [if_neg hmax.ne'] at h
  split_ifs at h with hge
  · obtain ⟨s1, hreset, h⟩ := bind_eq_ok.mp h
    cases h
    unfold vmaResetAsid at hreset
    rw [if_neg hmax.ne'] at hreset
    obtain ⟨heap, -, hreset⟩ := bind_eq_ok.mp hreset
    cases hreset
    exact ⟨rfl, rfl, rfl, rfl, Or.inl ⟨hge, rfl⟩⟩
  · cases h
    exact ⟨rfl, rfl, rfl, rfl, Or.inr ⟨Nat.lt_of_not_le hge, rfl⟩⟩

/-- A process keeps its number, or gets one from the counter. -/
theorem vmaSwap_eq (hmax : 0 < s.maxAsid) {proc : ℕ} (h : s.vmaSwap fuel proc = .ok s') :
    s.asid proc ≠ BitVec.allOnes 64 ∧ s' = s ∨
    s.asid proc = BitVec.allOnes 64 ∧ s'.table.kernel = s.table.kernel ∧
      s'.maxAsid = s.maxAsid ∧
      s'.asid = Function.update s.asid proc (BitVec.ofNat 64 s'.currentHighestAsid) ∧
      (s.maxAsid ≤ s.currentHighestAsid ∧ s'.currentHighestAsid = 0 ∨
        s.currentHighestAsid < s.maxAsid ∧
          s'.currentHighestAsid = s.currentHighestAsid + 1) := by
  unfold vmaSwap at h
  split_ifs at h with hnone
  · obtain ⟨⟨a, s1⟩, hfetch, h⟩ := bind_eq_ok.mp h
    cases h
    obtain ⟨hasid, hkernel, hmax', rfl, hcases⟩ := vmaFetchAsid_eq hmax hfetch
    exact Or.inr ⟨hnone.resolve_right hmax.ne', hkernel, hmax', by rw [hasid], hcases⟩
  · cases h
    exact Or.inl ⟨fun he => hnone (Or.inl he), rfl⟩

end AsidState

/-! ## The invariant -/

/-- Numbers are distinct and not above the counter. -/
structure AsidInv (s : AsidState) : Prop where
  distinct : AsidsDistinct s
  le : ∀ p ∈ s.table.kernel.live, s.asid p ≠ BitVec.allOnes 64 →
    (s.asid p).toNat ≤ s.currentHighestAsid
  counter_le : s.currentHighestAsid ≤ s.maxAsid
  max_pos : 0 < s.maxAsid
  max_lt : s.maxAsid < 2 ^ 16

section Steps

variable {src : ProcessSources} {pages : PageSource} {s s' : AsidState}

/-- Fewer live processes. -/
theorem AsidInv.mono (h : AsidInv s) {t : ProcessTable}
    (hlive : ∀ p ∈ t.kernel.live, p ∈ s.table.kernel.live) : AsidInv { s with table := t } :=
  ⟨fun p hp q hq => h.distinct p (hlive p hp) q (hlive q hq), fun p hp => h.le p (hlive p hp),
    h.counter_le, h.max_pos, h.max_lt⟩

/-- Only a creation makes a process live. -/
theorem ProcTableStep.live_subset {t t' : ProcessTable} {e : ProcTableEvent}
    (hne : ∀ listIdx padding, e ≠ .create listIdx padding) (h : ProcTableStep src pages t e t') :
    ∀ p ∈ t'.kernel.live, p ∈ t.kernel.live := by
  have hcleanup : ∀ {fuel proc : ℕ} {k k' : Kernel}, k.processCleanup fuel proc = .ok k' →
      ∀ p ∈ k'.live, p ∈ k.live := fun hk p hp => by
    obtain ⟨table, itemCnt, r, -, rfl⟩ := Kernel.processCleanup_eq hk
    exact List.mem_of_mem_erase hp
  cases h with
  | create => exact absurd rfl (hne _ _)
  | kill hkill =>
    obtain ⟨proc, -, hkill⟩ := bind_eq_ok.mp hkill
    obtain ⟨k, hkernel, hkill⟩ := bind_eq_ok.mp hkill
    have hlive : ∀ p ∈ k.live, p ∈ t.kernel.live := by
      obtain ⟨proc', _, _, _, ⟨_, rfl⟩ | ⟨_, hk⟩⟩ := Kernel.killProcess_cases hkernel
      · exact fun _ => id
      · exact fun p hp => hcleanup hk p hp
    split_ifs at hkill
    · cases hkill
      exact hlive
    · obtain ⟨heap, -, hkill⟩ := bind_eq_ok.mp hkill
      cases hkill
      exact hlive
  | cleanup _ hclean =>
    obtain ⟨k, hkernel, hclean⟩ := bind_eq_ok.mp hclean
    obtain ⟨heap, -, hclean⟩ := bind_eq_ok.mp hclean
    cases hclean
    exact hcleanup hkernel
  | setRunning => exact fun _ => id

theorem AsidInv.create (h : AsidInv s) {fuel listIdx : ℕ} {padding : BitVec 32}
    (hnew : s.newBlankProcess src pages fuel listIdx padding = .ok s') : AsidInv s' := by
  obtain ⟨⟨proc, t⟩, htable, hnew⟩ := bind_eq_ok.mp hnew
  cases hnew
  obtain ⟨⟨proc', k⟩, hkernel, htable⟩ := bind_eq_ok.mp htable
  obtain ⟨heap, -, htable⟩ := bind_eq_ok.mp htable
  cases htable
  obtain ⟨upto, table, -, hnext, -, rfl⟩ := Kernel.newBlankProcess_cases hkernel
  have hne : ∀ p ∈ s.table.kernel.live, p ≠ proc := fun p hp e => src.proc.fresh hnext (e ▸ hp)
  refine ⟨fun p hp q hq hpq he => ?_, fun p hp hpne => ?_, h.counter_le, h.max_pos, h.max_lt⟩
  · rcases List.mem_cons.mp hp with rfl | hp'
    · exact Function.update_self _ _ _
    · rcases List.mem_cons.mp hq with rfl | hq'
      · exact he.trans (Function.update_self _ _ _)
      · simp only [Function.update_of_ne (hne p hp'), Function.update_of_ne (hne q hq')] at he ⊢
        exact h.distinct p hp' q hq' hpq he
  · rcases List.mem_cons.mp hp with rfl | hp'
    · exact absurd (Function.update_self _ _ _) hpne
    · simp only [Function.update_of_ne (hne p hp')] at hpne ⊢
      exact h.le p hp' hpne

/-- A number from the counter is above those of the other live processes, unless they have
none. -/
theorem AsidInv.lt_fresh (h : AsidInv s) {proc : ℕ} (hc : RestartsAlone s (.swap proc))
    (hnone : s.asid proc = BitVec.allOnes 64)
    (hcases : s.maxAsid ≤ s.currentHighestAsid ∧ s'.currentHighestAsid = 0 ∨
      s.currentHighestAsid < s.maxAsid ∧ s'.currentHighestAsid = s.currentHighestAsid + 1) :
    ∀ q ∈ s.table.kernel.live, q ≠ proc → s.asid q ≠ BitVec.allOnes 64 →
      (s.asid q).toNat < s'.currentHighestAsid := by
  intro q hq hqp hqne
  rcases hcases with ⟨hge, -⟩ | ⟨-, hnext⟩
  · exact absurd (hc hnone hge q hq hqp) hqne
  · rw [hnext]
    exact Nat.lt_succ_of_le (h.le q hq hqne)

theorem AsidInv.swap (h : AsidInv s) {fuel proc : ℕ} (hc : RestartsAlone s (.swap proc))
    (hswap : s.vmaSwap fuel proc = .ok s') : AsidInv s' := by
  rcases AsidState.vmaSwap_eq h.max_pos hswap with ⟨-, rfl⟩ | ⟨hnone, hkernel, hmax, hasid, hcases⟩
  · exact h
  · have hother := h.lt_fresh hc hnone hcases
    have hmaxlt := h.max_lt
    have hle : s'.currentHighestAsid ≤ s.maxAsid := by omega
    have hval : (BitVec.ofNat 64 s'.currentHighestAsid).toNat = s'.currentHighestAsid := by
      rw [BitVec.toNat_ofNat]
      omega
    refine ⟨fun p hp q hq hpq he => ?_, fun p hp hpne => ?_, hmax ▸ hle, hmax ▸ h.max_pos,
      hmax ▸ h.max_lt⟩
    · rw [hkernel] at hp hq
      simp only [hasid, Function.update_apply] at he ⊢
      split_ifs at he ⊢ with h1 h2 h2
      · exact absurd (h1.trans h2.symm) hpq
      · by_contra hne
        have hlt := hother q hq h2 (he ▸ hne)
        rw [← he, hval] at hlt
        exact lt_irrefl _ hlt
      · by_contra hne
        have hlt := hother p hp h1 hne
        rw [he, hval] at hlt
        exact lt_irrefl _ hlt
      · exact h.distinct p hp q hq hpq he
    · rw [hkernel] at hp
      simp only [hasid, Function.update_apply] at hpne ⊢
      split_ifs at hpne ⊢ with h1
      · exact hval.le
      · exact (hother p hp h1 hpne).le

/-- The number given to a process is not one of another live process. -/
theorem AsidInv.fresh (h : AsidInv s) {fuel proc : ℕ} (hc : RestartsAlone s (.swap proc))
    (hswap : s.vmaSwap fuel proc = .ok s') (hnone : s.asid proc = BitVec.allOnes 64) :
    ∀ q ∈ s.table.kernel.live, q ≠ proc → s.asid q ≠ s'.asid proc := by
  rcases AsidState.vmaSwap_eq h.max_pos hswap with ⟨hne, -⟩ | ⟨-, -, -, hasid, hcases⟩
  · exact absurd hnone hne
  · intro q hq hqp he
    have hmaxlt := h.max_lt
    rw [hasid, Function.update_self] at he
    have hval : (BitVec.ofNat 64 s'.currentHighestAsid).toNat = s'.currentHighestAsid := by
      rw [BitVec.toNat_ofNat]
      omega
    have hne : s.asid q ≠ BitVec.allOnes 64 := fun hall => by
      have := congrArg BitVec.toNat (he.symm.trans hall)
      rw [hval, BitVec.toNat_allOnes] at this
      omega
    have hlt := h.lt_fresh hc hnone hcases q hq hqp hne
    rw [he, hval] at hlt
    exact lt_irrefl _ hlt

theorem AsidInit.inv (h : AsidInit pages s) : AsidInv s := by
  obtain ⟨⟨hk, -⟩, hcounter, hpos, hlt⟩ := h
  have hlive : ∀ p, p ∉ s.table.kernel.live := by simp [hk, Kernel.empty]
  exact ⟨fun p hp => absurd hp (hlive p), fun p hp => absurd hp (hlive p), hcounter.le, hpos, hlt⟩

theorem AsidInv.step (h : AsidInv s) {e : AsidEvent} (hc : RestartsAlone s e)
    (hstep : AsidStep src pages s e s') : AsidInv s' := by
  cases hstep with
  | create hnew => exact h.create hnew
  | table hne hstep => exact h.mono (hstep.live_subset hne)
  | swap _ hswap => exact h.swap hc hswap

/-- In every run in which the counter starts again only while no other live process has a
number, no two live processes have the same one, and a fresh one is given only if no other
live process has it. -/
theorem asids_distinct
    (h : Reach (AsidInit pages) (Guarded RestartsAlone (AsidStep src pages)) s) :
    AsidsDistinct s ∧ ∀ fuel proc s', RestartsAlone s (.swap proc) →
      s.vmaSwap fuel proc = .ok s' → s.asid proc = BitVec.allOnes 64 →
      ∀ q ∈ s.table.kernel.live, q ≠ proc → s.asid q ≠ s'.asid proc := by
  have hs := Reach.invariant AsidInv (fun _ => AsidInit.inv)
    (fun _ _ _ hs hstep => hs.step hstep.1 hstep.2) h
  exact ⟨hs.distinct, fun fuel proc s' hc hswap hnone => hs.fresh hc hswap hnone⟩

/-! ### Three processes and two numbers -/

/-- Hardware with the numbers 0 and 1. -/
def asidStart : AsidState :=
  ⟨tableStart, fun _ => 0, 1, 1⟩

theorem asidStart_init : AsidInit bumpPages asidStart :=
  ⟨tableStart_init, rfl, by decide, by decide⟩

/-- A creation or a switch, as a function. -/
def AsidState.handle? (s : AsidState) : AsidEvent → Option AsidState
  | .table (.create listIdx padding) =>
    (s.newBlankProcess bumpProcesses bumpPages 8 listIdx padding).toOption
  | .table _ => none
  | .swap proc =>
    if proc ∈ s.table.kernel.live then (s.vmaSwap 2 proc).toOption else none

theorem AsidState.step_of_handle? {e : AsidEvent} (h : s.handle? e = some s') :
    AsidStep bumpProcesses bumpPages s e s' := by
  unfold AsidState.handle? at h
  split at h
  · exact AsidStep.create (eq_ok_of_toOption h)
  · cases h
  · split_ifs at h with hlive
    exact AsidStep.swap hlive (eq_ok_of_toOption h)

instance (s : AsidState) : (e : AsidEvent) → Decidable (RestartsAlone s e)
  | .table _ => inferInstanceAs (Decidable True)
  | .swap proc => inferInstanceAs (Decidable (s.asid proc = BitVec.allOnes 64 →
    s.maxAsid ≤ s.currentHighestAsid →
    ∀ q ∈ s.table.kernel.live, q ≠ proc → s.asid q = BitVec.allOnes 64))

/-- Two processes get the two numbers. -/
theorem asids_distinct_two :
    ∃ s, s.asid 256 = 0 ∧ s.asid 512 = 1 ∧ AsidsDistinct s := by
  obtain ⟨s, hrun, hs⟩ : ∃ s, [AsidEvent.table (.create 0 0), .table (.create 1 0), .swap 256,
      .swap 512].foldlM (fun s e => if RestartsAlone s e then s.handle? e else none) asidStart =
        some s ∧ decide (s.asid 256 = 0 ∧ s.asid 512 = 1) = true :=
    (Option.any_eq_true _ _).mp (by decide +kernel)
  obtain ⟨h1, h2⟩ := of_decide_eq_true hs
  have hreach : Reach (AsidInit bumpPages)
      (Guarded RestartsAlone (AsidStep bumpProcesses bumpPages)) s :=
    Reach.of_foldlM (fun s e s' h => by
      split_ifs at h with hc
      exact ⟨hc, AsidState.step_of_handle? h⟩) (Reach.start asidStart_init) hrun
  exact ⟨s, h1, h2, (asids_distinct hreach).1⟩

/-- Three processes switched to in turn : the third gets the number of the first. -/
theorem not_asidsDistinct_wrap :
    ∃ s, Reach (AsidInit bumpPages) (AsidStep bumpProcesses bumpPages) s ∧ ¬AsidsDistinct s := by
  obtain ⟨s, hrun, hs⟩ : ∃ s, [AsidEvent.table (.create 0 0), .table (.create 1 0),
      .table (.create 2 0), .swap 256, .swap 512, .swap 768].foldlM AsidState.handle? asidStart =
        some s ∧
      decide (256 ∈ s.table.kernel.live ∧ 768 ∈ s.table.kernel.live ∧ s.asid 256 = s.asid 768 ∧
        s.asid 256 ≠ BitVec.allOnes 64) = true :=
    (Option.any_eq_true _ _).mp (by decide +kernel)
  obtain ⟨h1, h2, he, hne⟩ := of_decide_eq_true hs
  exact ⟨s, Reach.of_foldlM (fun _ _ _ => AsidState.step_of_handle?)
    (Reach.start asidStart_init) hrun, fun hd => hne (hd 256 h1 768 h2 (by decide) he)⟩

end Steps

end Toastium
