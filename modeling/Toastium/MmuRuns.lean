import Toastium.AddressSpace
import Toastium.Asid
import Toastium.SharedTables
import Toastium.Tlb

/-!
# Address spaces on a hart

Processes come and go, `vma_swap` writes `satp`, calls change the tables, and the hart adds what it
finds in the table in `satp` to its buffer at any time, also between the instructions of `vma_swap`
and while a call changes the table. The buffer holds leaves, not pointers to tables.

`tlb_coherent` : the buffer agrees with the tables in the runs in which calls of 2 MiB and more are
made only for processes that have not run, as `new_blank_process` does. `processes_isolated` : each
process has the address space of its own calls.

`vma_replace_section` fences one address of a leaf, which is not enough for the pages that were in
place of a leaf of 2 MiB (`mapCall_coherent_iff`).
-/

namespace Toastium

/-! ## The fences of `vma_replace_section` -/

/-- The addresses that the last five loops of `vma_replace_section` fence. -/
def sfenceAddrs (virtAddr : ℕ) (r : Runs) : List ℕ :=
  let prePpn1 := virtAddr + ppn0JmpSize * r.prePpn0Cnt
  let ppn2 := prePpn1 + ppn1JmpSize * r.prePpn1Cnt
  let postPpn1 := ppn2 + ppn2JmpSize * r.ppn2Cnt
  let postPpn0 := postPpn1 + ppn1JmpSize * r.postPpn1Cnt
  List.flatten [(List.range r.prePpn0Cnt).map (virtAddr + ppn0JmpSize * ·),
    (List.range r.prePpn1Cnt).map (prePpn1 + ppn1JmpSize * ·),
    (List.range r.ppn2Cnt).map (ppn2 + ppn2JmpSize * ·),
    (List.range r.postPpn1Cnt).map (postPpn1 + ppn1JmpSize * ·),
    (List.range r.postPpn0Cnt).map (postPpn0 + ppn0JmpSize * ·)]

/-- The addresses that a call fences, when it returns. -/
def MapCall.sfences (c : MapCall) : List ℕ :=
  match countRuns (c.size / ppn0JmpSize + 1) c.size (normalVirtAddr c.virtAddr) 0
    ⟨0, 0, 0, 0, 0⟩ with
  | .ok r => sfenceAddrs c.virtAddr r
  | .error _ => []

/-- A call that is supported fences the leaves of 2 MiB, and then those of 4 KiB. -/
theorem Supported.sfences_eq {src : KernelPages} {s : TableState} {c : MapCall}
    (hsup : Supported src s c) : c.sfences =
      (List.range (c.size / ppn1JmpSize)).map (c.virtAddr + ppn1JmpSize * ·) ++
      (List.range (c.size % ppn1JmpSize / 4096)).map
        (c.virtAddr + ppn1JmpSize * (c.size / ppn1JmpSize) + ppn0JmpSize * ·) := by
  obtain ⟨hvdvd, -⟩ := hsup.wellFormed.range.normal
  have hdvd := hsup.wellFormed.range.sizeDvd
  unfold MapCall.sfences
  rcases hsup.shape.place with ⟨hvirt, hlt, -⟩ | ⟨hvirt, hin, hlt⟩ | ⟨hvirt, h1, hmod, hin⟩
  · rw [runs_post hdvd hvirt hlt]
    simp only [sfenceAddrs, List.range_zero, List.map_nil, Nat.mul_zero, Nat.add_zero,
      List.flatten_cons, List.flatten_nil, List.nil_append, List.append_nil]
  · rw [runs_low hvdvd hdvd hvirt hin hlt, Nat.div_eq_of_lt hlt, Nat.mod_eq_of_lt hlt]
    simp only [sfenceAddrs, List.range_zero, List.map_nil, Nat.mul_zero, Nat.add_zero,
      List.flatten_cons, List.flatten_nil, List.nil_append, List.append_nil]
  · rw [runs_mid hvirt h1 hmod hin, hmod]
    simp only [sfenceAddrs, List.range_zero, List.map_nil, Nat.mul_zero, Nat.add_zero,
      Nat.zero_div, List.flatten_cons, List.flatten_nil, List.nil_append, List.append_nil]

/-- Of a leaf of 2 MiB the first page is fenced. -/
theorem Supported.fenced_iff {src : KernelPages} {s : TableState} {c : MapCall}
    (hsup : Supported src s c) {va : ℕ} (hlow : c.virtAddr ≤ va)
    (hhigh : va < c.virtAddr + c.size) : (∃ v ∈ c.sfences, v / 4096 = va / 4096) ↔
      ppn1JmpSize * (c.size / ppn1JmpSize) ≤ va - c.virtAddr ∨
        (va - c.virtAddr) % ppn1JmpSize < 4096 := by
  have hvdvd := hsup.wellFormed.range.virtDvd
  have hdvd := hsup.wellFormed.range.sizeDvd
  have hleaf : ∀ m n : ℕ, c.virtAddr + ppn1JmpSize * m + ppn0JmpSize * n =
      c.virtAddr + (2097152 * m + 4096 * n) := fun m n => by
    unfold ppn1JmpSize ppn0JmpSize
    omega
  rw [hsup.sfences_eq]
  simp only [List.mem_append, List.mem_map, List.mem_range, hleaf]
  unfold ppn1JmpSize
  constructor
  · rintro ⟨v, ⟨i, hi, rfl⟩ | ⟨i, hi, rfl⟩, he⟩
    · omega
    · omega
  · intro h
    by_cases hfull : 4096 * 512 * (c.size / (4096 * 512)) ≤ va - c.virtAddr
    · refine ⟨_, Or.inr ⟨(va - c.virtAddr - 2097152 * (c.size / (4096 * 512))) / 4096, ?_, rfl⟩, ?_⟩
      · omega
      · omega
    · exact ⟨_, Or.inl ⟨(va - c.virtAddr) / (4096 * 512), by omega, rfl⟩, by omega⟩

/-! ## The state -/

/-- What the walk of the machine finds for an address. -/
def mmu (h : Heap (BitVec 64)) (root va : ℕ) : Option (ℕ × ℕ) :=
  (translate h root va).toOption.join

/-- The blocks of sv39 : pages of 4 KiB, 2 MiB and 1 GiB. -/
def sv39Blocks : Set (Set ℕ) :=
  {s | ∃ l < 3, ∃ n, s = {va | va < 2 ^ 64 ∧ va / (4096 * 512 ^ l) = n}}

/-- The processes, their tables, and a hart : the id and the table in `satp`, and the translations
that it has cached. -/
structure MmuState where
  procs : AsidState
  heap : Heap (BitVec 64)
  vmaTable : ℕ → ℕ
  satp : ℕ × ℕ
  tlb : Tlb ℕ ℕ (ℕ × ℕ)

/-- The id that the hart reads off a word. It has `max_asid + 1` of them. -/
def AsidState.hartAsid (s : AsidState) (a : BitVec 64) : ℕ :=
  a.toNat % (s.maxAsid + 1)

/-- The id of the fences of `vma_replace_section`. -/
def AsidState.fenceAsid (s : AsidState) (proc : ℕ) : ℕ :=
  s.hartAsid (if s.maxAsid = 0 then 0 else s.asid proc)

/-- `vma_swap` gets a new id for the process. -/
def AsidState.Renews (s : AsidState) (proc : ℕ) : Prop :=
  s.asid proc = BitVec.allOnes 64 ∨ s.maxAsid = 0

/-- `vma_swap` starts the counter again. -/
def AsidState.Restarts (s : AsidState) (proc : ℕ) : Prop :=
  s.Renews proc ∧ (s.maxAsid = 0 ∨ s.maxAsid ≤ s.currentHighestAsid)

instance (s : AsidState) (proc : ℕ) : Decidable (s.Renews proc) :=
  inferInstanceAs (Decidable (_ ∨ _))

instance (s : AsidState) (proc : ℕ) : Decidable (s.Restarts proc) :=
  inferInstanceAs (Decidable (_ ∧ _))

namespace MmuState

/-- The buffer after the fence of `vma_reset_asid`. -/
def resetTlb (s : MmuState) (proc : ℕ) : Tlb ℕ ℕ (ℕ × ℕ) :=
  if s.procs.Restarts proc then ∅ else s.tlb

/-- The buffer after the fences at the end of `vma_swap`. -/
def swapTlb (s : MmuState) (proc a : ℕ) (t : Tlb ℕ ℕ (ℕ × ℕ)) : Tlb ℕ ℕ (ℕ × ℕ) :=
  if s.procs.maxAsid = 0 then ∅ else if s.procs.Renews proc then t.sfenceAsid a else t

/-- The table of a live process, or the one in `satp`. -/
def Owned (s : MmuState) (r : ℕ) : Prop :=
  r = s.satp.2 ∨ ∃ p ∈ s.procs.table.kernel.live, s.vmaTable p = r

/-- The hart adds what it finds in the table in `satp`. -/
def Fetches (s : MmuState) (t t' : Tlb ℕ ℕ (ℕ × ℕ)) : Prop :=
  Tlb.Fills sv39Blocks s.satp.1 (fun va x => mmu s.heap s.satp.2 va = some x) t t'

end MmuState

/-! ## Runs -/

/-- What happens to the processes and the hart. -/
inductive MmuEvent
  | create (proc listIdx : ℕ) (padding : BitVec 32)
  | table (e : ProcTableEvent)
  | swap (proc : ℕ)
  | call (proc : ℕ) (c : MapCall)
  /-- Other code changes the memory. -/
  | other (h : Heap (BitVec 64))
  /-- The hart adds entries and drops others. -/
  | fetch

section Runs

variable (src : ProcessSources) (pages : PageSource) (kp : KernelPages) (fuel : ℕ)

/-- No process, and the counter as `vma_init` leaves it. The hart is on the table of the boot
code. -/
structure MmuInit (s : MmuState) : Prop where
  table : ProcTableInit pages s.procs.table
  counter : s.procs.currentHighestAsid = s.procs.maxAsid
  maxLt : s.procs.maxAsid < 2 ^ 16
  satpLe : s.satp.1 ≤ s.procs.maxAsid
  bootTable : TableOk s.heap s.satp.2
  tlb : s.tlb = ∅

/-- A step that returns. -/
inductive MmuStep : MmuState → MmuEvent → MmuState → Prop
  | create {s : MmuState} {t : ProcessTable} {proc listIdx root : ℕ} {padding : BitVec 32}
    {h : Heap (BitVec 64)} :
    s.procs.table.newBlankProcess src pages fuel listIdx padding = .ok (proc, t) →
    vmaCreate kp s.heap = .ok (root, h) →
    MmuStep s (.create proc listIdx padding) { s with
      procs := { s.procs with
        table := t, asid := Function.update s.procs.asid proc (BitVec.allOnes 64) }
      heap := h
      vmaTable := Function.update s.vmaTable proc root }
  | table {s : MmuState} {t : ProcessTable} {e : ProcTableEvent} :
    (∀ listIdx padding, e ≠ .create listIdx padding) →
    ProcTableStep src pages s.procs.table e t →
    MmuStep s (.table e) { s with procs := { s.procs with table := t } }
  /-- The hart can add entries before `satp` is written and before the fence after it. -/
  | swap {s : MmuState} {procs : AsidState} {proc a : ℕ} {t t' : Tlb ℕ ℕ (ℕ × ℕ)} :
    proc ∈ s.procs.table.kernel.live → s.procs.vmaSwap fuel proc = .ok procs →
    a = procs.hartAsid (procs.asid proc) → s.Fetches (s.resetTlb proc) t →
    MmuState.Fetches { s with satp := (a, s.vmaTable proc) } t t' →
    MmuStep s (.swap proc) { s with
      procs := procs, satp := (a, s.vmaTable proc), tlb := s.swapTlb proc a t' }
  /-- The hart can add entries of either table before the fences. -/
  | call {s : MmuState} {proc : ℕ} {c : MapCall} {h : Heap (BitVec 64)} {t : Tlb ℕ ℕ (ℕ × ℕ)} :
    proc ∈ s.procs.table.kernel.live → c.run kp fuel (s.vmaTable proc) s.heap = .ok h →
    Tlb.Fills sv39Blocks s.satp.1 (fun va x => mmu s.heap s.satp.2 va = some x ∨
      mmu h s.satp.2 va = some x) s.tlb t →
    MmuStep s (.call proc c) { s with
      heap := h, tlb := t.sfences c.sfences (s.procs.fenceAsid proc) }
  | other {s : MmuState} {h : Heap (BitVec 64)} : (∀ r, s.Owned r → SameTable r s.heap h) →
    MmuStep s (.other h) { s with heap := h }
  | fetch {s : MmuState} {t : Tlb ℕ ℕ (ℕ × ℕ)} : s.Fetches s.tlb t →
    MmuStep s .fetch { s with tlb := t }

/-- The counter starts again only while no other live process has a number. A call is supported,
and on less than 2 MiB if its process has run. -/
def MmuGuard (s : MmuState) : MmuEvent → Prop
  | .swap proc => 0 < s.procs.maxAsid → RestartsAlone s.procs (.swap proc)
  | .call proc c => Supported kp ⟨s.heap, s.vmaTable proc⟩ c ∧
    (s.procs.asid proc = BitVec.allOnes 64 ∨ c.size < ppn1JmpSize)
  | _ => True

end Runs

/-! ## The invariant -/

/-- Tables share no page, and the translations cached for a process are those of its table. Without
ids this is known of the table in `satp` only. -/
structure MmuInv (s : MmuState) : Prop where
  tables : Tables s.heap s.Owned
  inj : ∀ p ∈ s.procs.table.kernel.live, ∀ q ∈ s.procs.table.kernel.live,
    s.vmaTable p = s.vmaTable q → p = q
  maxLt : s.procs.maxAsid < 2 ^ 16
  satpLe : s.satp.1 ≤ s.procs.maxAsid
  satpAsid : ∀ p ∈ s.procs.table.kernel.live, s.vmaTable p = s.satp.2 →
    s.procs.asid p = BitVec.ofNat 64 s.satp.1
  running : Tlb.Coherent sv39Blocks s.tlb s.satp.1 (mmu s.heap s.satp.2)
  asids : 0 < s.procs.maxAsid → AsidInv s.procs
  satpTable : 0 < s.procs.maxAsid → ∀ p ∈ s.procs.table.kernel.live,
    s.procs.asid p = BitVec.ofNat 64 s.satp.1 → s.vmaTable p = s.satp.2
  coherent : 0 < s.procs.maxAsid → ∀ p ∈ s.procs.table.kernel.live,
    s.procs.asid p ≠ BitVec.allOnes 64 →
    Tlb.Coherent sv39Blocks s.tlb (s.procs.asid p).toNat (mmu s.heap (s.vmaTable p))

section Steps

variable {src : ProcessSources} {pages : PageSource} {kp : KernelPages} {fuel : ℕ}
  {s s' : MmuState} {h h' : Heap (BitVec 64)} {root va : ℕ}

theorem TableOk.translate_mmu (ht : TableOk h root) (va : ℕ) :
    translate h root va = .ok (mmu h root va) := by
  obtain ⟨pg, hinv, -⟩ := ht
  unfold mmu
  rw [hinv.translate_eq]
  rfl

theorem mmu_congr (heq : translate h' root va = translate h root va) :
    mmu h' root va = mmu h root va := by
  rw [mmu, heq, mmu]

/-- A block has all of a page or nothing of it. -/
theorem mem_block_iff {b : Set ℕ} (hb : b ∈ sv39Blocks) {v : ℕ} (hpage : v / 4096 = va / 4096) :
    v ∈ b ↔ va ∈ b := by
  obtain ⟨l, -, n, rfl⟩ := hb
  refine and_congr (by omega) ?_
  rw [← Nat.div_div_eq_div_mul, ← Nat.div_div_eq_div_mul, hpage]

theorem lt_of_mem_block {b : Set ℕ} (hb : b ∈ sv39Blocks) (hva : va ∈ b) : va < 2 ^ 64 := by
  obtain ⟨l, -, n, rfl⟩ := hb
  exact hva.1

/-- What a call changes is in its range. -/
theorem RangeMapped.changed {c : MapCall}
    (hmap : RangeMapped h root c.virtAddr c.size c.physAddr c.flags h') (hva : va < 2 ^ 64)
    (hne : mmu h' root va ≠ mmu h root va) : c.virtAddr ≤ va ∧ va < c.virtAddr + c.size := by
  by_contra hout
  obtain ⟨x, hx, hx'⟩ := hmap.outside va hva hout
  exact hne (mmu_congr (hx'.trans hx.symm))

/-- A small call fences each block in which it changes an address. -/
theorem RangeMapped.fenced {c : MapCall} (hsup : Supported kp ⟨h, root⟩ c)
    (hmap : RangeMapped h root c.virtAddr c.size c.physAddr c.flags h')
    (hsize : c.size < ppn1JmpSize) {b : Set ℕ} (hb : b ∈ sv39Blocks)
    (hne : ∃ va ∈ b, mmu h root va ≠ none ∧ mmu h' root va ≠ mmu h root va) :
    ∃ va ∈ c.sfences, va ∈ b := by
  obtain ⟨va, hva, -, hne⟩ := hne
  obtain ⟨hlow, hhigh⟩ := hmap.changed (lt_of_mem_block hb hva) hne
  obtain ⟨v, hv, hpage⟩ := (hsup.fenced_iff hlow hhigh).mpr
    (Or.inl (by rw [Nat.div_eq_of_lt hsize]; exact Nat.zero_le _))
  exact ⟨v, hv, (mem_block_iff hb hpage).mpr hva⟩

namespace MmuInv

theorem owned_satp (s : MmuState) : s.Owned s.satp.2 :=
  Or.inl rfl

theorem owned_live {p : ℕ} (hp : p ∈ s.procs.table.kernel.live) : s.Owned (s.vmaTable p) :=
  Or.inr ⟨p, hp, rfl⟩

theorem toNat_satp (hs : MmuInv s) : (BitVec.ofNat 64 s.satp.1).toNat = s.satp.1 := by
  have hle := hs.satpLe
  have hlt := hs.maxLt
  rw [BitVec.toNat_ofNat]
  omega

theorem satp_ne_allOnes (hs : MmuInv s) : BitVec.ofNat 64 s.satp.1 ≠ BitVec.allOnes 64 := by
  intro he
  have hle := hs.satpLe
  have hlt := hs.maxLt
  have := congrArg BitVec.toNat he
  rw [hs.toNat_satp, BitVec.toNat_allOnes] at this
  omega

/-- The fences for the process with the table in `satp` are for the id in `satp`. -/
theorem fenceAsid_satp (hs : MmuInv s) {p : ℕ} (hp : p ∈ s.procs.table.kernel.live)
    (htable : s.vmaTable p = s.satp.2) : s.procs.fenceAsid p = s.satp.1 := by
  have hle := hs.satpLe
  unfold AsidState.fenceAsid AsidState.hartAsid
  split_ifs with hmax
  · rw [hmax, Nat.mod_one]
    omega
  · rw [hs.satpAsid p hp htable, hs.toNat_satp, Nat.mod_eq_of_lt (by omega)]

/-- The fences for a process with a number are for this number. -/
theorem fenceAsid_number (hs : MmuInv s) (hmax : 0 < s.procs.maxAsid) {p : ℕ}
    (hp : p ∈ s.procs.table.kernel.live) (hne : s.procs.asid p ≠ BitVec.allOnes 64) :
    s.procs.fenceAsid p = (s.procs.asid p).toNat := by
  have hle := (hs.asids hmax).le p hp hne
  have hcounter := (hs.asids hmax).counter_le
  rw [AsidState.fenceAsid, if_neg hmax.ne', AsidState.hartAsid, Nat.mod_eq_of_lt (by omega)]

/-- The number in `satp` is that of the process with the table in `satp` only. -/
theorem satpTable_of_toNat (hs : MmuInv s) (hmax : 0 < s.procs.maxAsid) {p : ℕ}
    (hp : p ∈ s.procs.table.kernel.live) (he : s.satp.1 = (s.procs.asid p).toNat) :
    s.vmaTable p = s.satp.2 :=
  hs.satpTable hmax p hp (BitVec.eq_of_toNat_eq (by rw [hs.toNat_satp, he]))

/-! ### Steps -/

theorem fetch (hs : MmuInv s) {t : Tlb ℕ ℕ (ℕ × ℕ)} (hf : s.Fetches s.tlb t) :
    MmuInv { s with tlb := t } where
  tables := hs.tables
  inj := hs.inj
  maxLt := hs.maxLt
  satpLe := hs.satpLe
  satpAsid := hs.satpAsid
  running := hs.running.fills hf fun _ _ _ hx => hx
  asids := hs.asids
  satpTable := hs.satpTable
  coherent := fun hmax p hp hne => (hs.coherent hmax p hp hne).fills hf fun he va x hx => by
    rw [hs.satpTable_of_toNat hmax hp he]
    exact hx

theorem other (hs : MmuInv s) (hsame : ∀ r, s.Owned r → SameTable r s.heap h) :
    MmuInv { s with heap := h } := by
  obtain ⟨htables, htrans⟩ := hs.tables.other hsame
  exact {
    tables := htables
    inj := hs.inj
    maxLt := hs.maxLt
    satpLe := hs.satpLe
    satpAsid := hs.satpAsid
    running := hs.running.congr fun va => mmu_congr (htrans _ (owned_satp s) va)
    asids := hs.asids
    satpTable := hs.satpTable
    coherent := fun hmax p hp hne => (hs.coherent hmax p hp hne).congr fun va =>
      mmu_congr (htrans _ (owned_live hp) va) }

/-- Processes end, or change in other ways. -/
theorem table (hs : MmuInv s) {t : ProcessTable}
    (hlive : ∀ p ∈ t.kernel.live, p ∈ s.procs.table.kernel.live) :
    MmuInv { s with procs := { s.procs with table := t } } where
  tables := hs.tables.mono fun _ hr => hr.imp_right fun ⟨p, hp, he⟩ => ⟨p, hlive p hp, he⟩
  inj := fun p hp q hq => hs.inj p (hlive p hp) q (hlive q hq)
  maxLt := hs.maxLt
  satpLe := hs.satpLe
  satpAsid := fun p hp => hs.satpAsid p (hlive p hp)
  running := hs.running
  asids := fun hmax => (hs.asids hmax).mono hlive
  satpTable := fun hmax p hp => hs.satpTable hmax p (hlive p hp)
  coherent := fun hmax p hp => hs.coherent hmax p (hlive p hp)

/-- A call, which fences the pages that it changes if its process has a number. -/
theorem call (hs : MmuInv s) {proc : ℕ} {c : MapCall} {t : Tlb ℕ ℕ (ℕ × ℕ)}
    (hp : proc ∈ s.procs.table.kernel.live) (hguard : MmuGuard kp s (.call proc c))
    (hrun : c.run kp fuel (s.vmaTable proc) s.heap = .ok h)
    (hf : Tlb.Fills sv39Blocks s.satp.1 (fun va x => mmu s.heap s.satp.2 va = some x ∨
      mmu h s.satp.2 va = some x) s.tlb t) :
    MmuInv { s with heap := h, tlb := t.sfences c.sfences (s.procs.fenceAsid proc) } := by
  obtain ⟨hsup, hsmall⟩ := hguard
  obtain ⟨htables, hmap, htrans⟩ := hs.tables.call (owned_live hp) hsup hrun
  have hkeep : ∀ r a, s.Owned r → Tlb.Coherent sv39Blocks s.tlb a (mmu s.heap r) →
      (s.satp.1 = a → r = s.satp.2) →
      (r = s.vmaTable proc → s.procs.fenceAsid proc = a ∧ c.size < ppn1JmpSize) →
      Tlb.Coherent sv39Blocks (t.sfences c.sfences (s.procs.fenceAsid proc)) a (mmu h r) := by
    intro r a hr hcoh hsatp hfence
    refine hcoh.sfences hf (fun he va x hx => ?_) fun b hb hne => ?_
    · rw [hsatp he]
      exact hx
    · by_cases htable : r = s.vmaTable proc
      · obtain ⟨ha, hsize⟩ := hfence htable
        rw [htable] at hne
        exact ⟨ha, hmap.fenced hsup hsize hb hne⟩
      · obtain ⟨va, -, -, hne⟩ := hne
        exact absurd (mmu_congr (htrans r hr htable va)) hne
  exact {
    tables := htables
    inj := hs.inj
    maxLt := hs.maxLt
    satpLe := hs.satpLe
    satpAsid := hs.satpAsid
    running := hkeep _ _ (owned_satp s) hs.running (fun _ => rfl) fun he =>
      ⟨hs.fenceAsid_satp hp he.symm, hsmall.resolve_left fun hnone =>
        hs.satp_ne_allOnes ((hs.satpAsid proc hp he.symm).symm.trans hnone)⟩
    asids := hs.asids
    satpTable := hs.satpTable
    coherent := fun hmax q hq hne => hkeep _ _ (owned_live hq) (hs.coherent hmax q hq hne)
      (fun he => hs.satpTable_of_toNat hmax hq he) fun he => by
        obtain rfl := hs.inj q hq proc hp he
        exact ⟨hs.fenceAsid_number hmax hq hne, hsmall.resolve_left hne⟩ }

/-- A new process is not one of the live ones. -/
theorem newBlankProcess_live {t t' : ProcessTable} {proc listIdx : ℕ} {padding : BitVec 32}
    (hnew : t.newBlankProcess src pages fuel listIdx padding = .ok (proc, t')) :
    t'.kernel.live = proc :: t.kernel.live ∧ proc ∉ t.kernel.live := by
  obtain ⟨⟨proc', k⟩, hkernel, hnew⟩ := bind_eq_ok.mp hnew
  obtain ⟨sections, -, hnew⟩ := bind_eq_ok.mp hnew
  cases hnew
  obtain ⟨upto, table, -, hnext, -, rfl⟩ := Kernel.newBlankProcess_cases hkernel
  exact ⟨rfl, src.proc.fresh hnext⟩

theorem create (hs : MmuInv s) {t : ProcessTable} {proc listIdx : ℕ} {padding : BitVec 32}
    (hnew : s.procs.table.newBlankProcess src pages fuel listIdx padding = .ok (proc, t))
    (hcreate : vmaCreate kp s.heap = .ok (root, h)) : MmuInv { s with
      procs := { s.procs with
        table := t, asid := Function.update s.procs.asid proc (BitVec.allOnes 64) }
      heap := h
      vmaTable := Function.update s.vmaTable proc root } := by
  obtain ⟨hlive, hfresh⟩ := newBlankProcess_live hnew
  obtain ⟨hroot, htables, htrans⟩ := hs.tables.create hcreate
  have hmem : ∀ {p}, p ∈ t.kernel.live → p = proc ∨ p ≠ proc ∧ p ∈ s.procs.table.kernel.live :=
    fun {p} hp => by
      rw [hlive] at hp
      rcases List.mem_cons.mp hp with rfl | hp
      · exact Or.inl rfl
      · exact Or.inr ⟨fun he => hfresh (he ▸ hp), hp⟩
  have hasid : s.procs.newBlankProcess src pages fuel listIdx padding = .ok { s.procs with
      table := t, asid := Function.update s.procs.asid proc (BitVec.allOnes 64) } := by
    rw [AsidState.newBlankProcess, hnew]
    rfl
  -- the new table is not one of those that were there
  have hne : ∀ r, s.Owned r → root ≠ r := fun r hr he => hroot (he ▸ hr)
  refine ⟨htables.mono fun r hr => ?_, fun p hp q hq he => ?_, hs.maxLt, hs.satpLe,
    fun p hp he => ?_, hs.running.congr fun va => mmu_congr (htrans _ (owned_satp s) va),
    fun hmax => (hs.asids hmax).create hasid, fun hmax p hp he => ?_, fun hmax p hp hnum => ?_⟩
  · rcases hr with he | ⟨p, hp, rfl⟩
    · exact Or.inr (Or.inl he)
    · rcases hmem hp with rfl | ⟨hpne, hp⟩
      · exact Or.inl (Function.update_self ..)
      · exact Or.inr (Or.inr ⟨p, hp, (Function.update_of_ne hpne ..).symm⟩)
  · rcases hmem hp with rfl | ⟨hpne, hp'⟩ <;> rcases hmem hq with rfl | ⟨hqne, hq'⟩
    · rfl
    · simp only [Function.update_self, Function.update_of_ne hqne] at he
      exact absurd he (hne _ (owned_live hq'))
    · simp only [Function.update_self, Function.update_of_ne hpne] at he
      exact absurd he.symm (hne _ (owned_live hp'))
    · simp only [Function.update_of_ne hpne, Function.update_of_ne hqne] at he
      exact hs.inj p hp' q hq' he
  · rcases hmem hp with rfl | ⟨hpne, hp⟩
    · simp only [Function.update_self] at he
      exact absurd he (hne _ (owned_satp s))
    · simp only [Function.update_of_ne hpne] at he ⊢
      exact hs.satpAsid p hp he
  · rcases hmem hp with rfl | ⟨hpne, hp⟩
    · simp only [Function.update_self] at he
      exact absurd he.symm hs.satp_ne_allOnes
    · simp only [Function.update_of_ne hpne] at he ⊢
      exact hs.satpTable hmax p hp he
  · rcases hmem hp with rfl | ⟨hpne, hp⟩
    · exact absurd (Function.update_self ..) hnum
    · simp only [Function.update_of_ne hpne] at hnum ⊢
      exact (hs.coherent hmax p hp hnum).congr fun va => mmu_congr (htrans _ (owned_live hp) va)

end MmuInv

/-! ### `vma_swap` -/

/-- Without ids every process has the number 0. -/
theorem AsidState.vmaSwap_zero {s s' : AsidState} {proc : ℕ} (hmax : s.maxAsid = 0)
    (h : s.vmaSwap fuel proc = .ok s') : s'.table.kernel = s.table.kernel ∧ s'.maxAsid = 0 ∧
      s'.asid = Function.update s.asid proc 0 := by
  unfold AsidState.vmaSwap AsidState.vmaFetchAsid AsidState.vmaResetAsid at h
  rw [if_pos (Or.inr hmax), if_pos hmax, if_pos hmax] at h
  cases h
  exact ⟨rfl, hmax, rfl⟩

/-- What `vma_swap` changes, with ids. -/
theorem AsidState.vmaSwap_number {s s' : AsidState} {proc : ℕ} (hs : AsidInv s)
    (hlive : proc ∈ s.table.kernel.live) (hc : RestartsAlone s (.swap proc))
    (h : s.vmaSwap fuel proc = .ok s') : s'.table.kernel = s.table.kernel ∧
      s'.maxAsid = s.maxAsid ∧ (∀ q, q ≠ proc → s'.asid q = s.asid q) ∧
      s'.asid proc ≠ BitVec.allOnes 64 ∧ s'.hartAsid (s'.asid proc) = (s'.asid proc).toNat ∧
      (¬s.Renews proc → s' = s) := by
  have hs' := hs.swap hc h
  have hrest : s'.table.kernel = s.table.kernel ∧ s'.maxAsid = s.maxAsid ∧
      (∀ q, q ≠ proc → s'.asid q = s.asid q) ∧ s'.asid proc ≠ BitVec.allOnes 64 ∧
      (¬s.Renews proc → s' = s) := by
    rcases AsidState.vmaSwap_eq hs.max_pos h with
      ⟨hne, rfl⟩ | ⟨hnone, hkernel, hmax, hasid, -⟩
    · exact ⟨rfl, rfl, fun _ _ => rfl, hne, fun _ => rfl⟩
    · refine ⟨hkernel, hmax, fun q hq => ?_, fun he => ?_, fun hnot => absurd (Or.inl hnone) hnot⟩
      · rw [hasid, Function.update_of_ne hq]
      · rw [hasid, Function.update_self] at he
        have hle := hs'.counter_le
        have hlt := hs'.max_lt
        have := congrArg BitVec.toNat he
        rw [BitVec.toNat_ofNat, BitVec.toNat_allOnes] at this
        omega
  obtain ⟨hkernel, hmax, hother, hnum, hkeep⟩ := hrest
  have hle := hs'.le proc (hkernel ▸ hlive) hnum
  have hcounter := hs'.counter_le
  exact ⟨hkernel, hmax, hother, hnum, Nat.mod_eq_of_lt (by omega), hkeep⟩

namespace MmuInv

/-- `vma_swap` without ids : the whole buffer is emptied. -/
theorem swap_zero (hs : MmuInv s) {procs : AsidState} {proc a : ℕ} {t : Tlb ℕ ℕ (ℕ × ℕ)}
    (hmax : s.procs.maxAsid = 0) (hp : proc ∈ s.procs.table.kernel.live)
    (hswap : s.procs.vmaSwap fuel proc = .ok procs) (ha : a = procs.hartAsid (procs.asid proc)) :
    MmuInv { s with
      procs := procs, satp := (a, s.vmaTable proc), tlb := s.swapTlb proc a t } := by
  obtain ⟨hkernel, hmax', hasid⟩ := AsidState.vmaSwap_zero hmax hswap
  have ha0 : a = 0 := by
    rw [ha, AsidState.hartAsid, hmax', Nat.mod_one]
  have hempty : s.swapTlb proc a t = ∅ := if_pos hmax
  refine ⟨hs.tables.mono fun r hr => ?_, fun p hp q hq => ?_, ?_, ?_, fun q hq he => ?_, ?_,
    fun hpos => ?_, fun hpos => ?_, fun hpos => ?_⟩
  · rcases hr with rfl | ⟨q, hq, he⟩
    · exact owned_live hp
    · exact Or.inr ⟨q, hkernel ▸ hq, he⟩
  · exact hs.inj p (hkernel ▸ hp) q (hkernel ▸ hq)
  · exact hmax' ▸ (by decide)
  · exact ha0 ▸ Nat.zero_le _
  · obtain rfl := hs.inj q (hkernel ▸ hq) proc hp he
    change procs.asid q = BitVec.ofNat 64 a
    rw [hasid, Function.update_self, ha0]
    rfl
  · change Tlb.Coherent sv39Blocks (s.swapTlb proc a t) _ _
    rw [hempty]
    exact Tlb.coherent_empty _ _ _
  · exact absurd hmax' hpos.ne'
  · exact absurd hmax' hpos.ne'
  · exact absurd hmax' hpos.ne'

/-- `vma_swap` with ids : a process that gets a number has no entries. -/
theorem swap_number (hs : MmuInv s) {procs : AsidState} {proc a : ℕ} {t t' : Tlb ℕ ℕ (ℕ × ℕ)}
    (hmax : 0 < s.procs.maxAsid) (hp : proc ∈ s.procs.table.kernel.live)
    (hc : RestartsAlone s.procs (.swap proc)) (hswap : s.procs.vmaSwap fuel proc = .ok procs)
    (ha : a = procs.hartAsid (procs.asid proc)) (hf : s.Fetches (s.resetTlb proc) t)
    (hf' : MmuState.Fetches { s with satp := (a, s.vmaTable proc) } t t') :
    MmuInv { s with
      procs := procs, satp := (a, s.vmaTable proc), tlb := s.swapTlb proc a t' } := by
  have hinv := (hs.asids hmax).swap hc hswap
  obtain ⟨hkernel, hmax', hother, hnum, hhart, hkeep⟩ :=
    AsidState.vmaSwap_number (hs.asids hmax) hp hc hswap
  rw [hhart] at ha
  have hofNat : procs.asid proc = BitVec.ofNat 64 a := by
    rw [ha, BitVec.ofNat_toNat, BitVec.setWidth_eq]
  have hdistinct : ∀ q ∈ s.procs.table.kernel.live, procs.asid q = procs.asid proc → q = proc :=
    fun q hq he => by
      by_contra hne
      exact hnum (he ▸ hinv.distinct q (hkernel ▸ hq) proc (hkernel ▸ hp) hne he)
  have hsub : s.resetTlb proc ⊆ s.tlb := by
    unfold MmuState.resetTlb
    split_ifs
    · exact Set.empty_subset _
    · exact Set.Subset.rfl
  have hcoh : ∀ q ∈ s.procs.table.kernel.live, procs.asid q ≠ BitVec.allOnes 64 →
      Tlb.Coherent sv39Blocks (s.swapTlb proc a t') (procs.asid q).toNat
        (mmu s.heap (s.vmaTable q)) := by
    intro q hq hqnum
    unfold MmuState.swapTlb
    rw [if_neg hmax.ne']
    split_ifs with hren
    · by_cases he : q = proc
      · rw [he, ← ha]
        exact Tlb.coherent_sfenceAsid _ _ _ _
      · rw [hother q he] at hqnum ⊢
        have hold := ((hs.coherent hmax q hq hqnum).mono hsub).fills hf fun hsatp va x hx => by
          rw [hs.satpTable_of_toNat hmax hq hsatp]
          exact hx
        refine (hold.fills hf' fun hnew => ?_).sfenceAsid a
        refine absurd (hdistinct q hq (BitVec.eq_of_toNat_eq ?_)) he
        rw [hother q he, ← ha]
        exact hnew.symm
    · have hsame := hkeep hren
      rw [hsame] at hqnum ⊢
      have hold := ((hs.coherent hmax q hq hqnum).mono hsub).fills hf fun hsatp va x hx => by
        rw [hs.satpTable_of_toNat hmax hq hsatp]
        exact hx
      refine hold.fills hf' fun hnew va x hx => ?_
      rw [hdistinct q hq (BitVec.eq_of_toNat_eq (by rw [← ha, hsame]; exact hnew.symm))]
      exact hx
  refine ⟨hs.tables.mono fun r hr => ?_, fun p hp q hq => ?_, ?_, ?_, fun q hq he => ?_, ?_,
    fun _ => hinv, fun _ q hq he => ?_, fun _ q hq hqnum => ?_⟩
  · rcases hr with rfl | ⟨q, hq, he⟩
    · exact owned_live hp
    · exact Or.inr ⟨q, hkernel ▸ hq, he⟩
  · exact hs.inj p (hkernel ▸ hp) q (hkernel ▸ hq)
  · exact hinv.max_lt
  · exact ha ▸ (hinv.le proc (hkernel ▸ hp) hnum).trans hinv.counter_le
  · obtain rfl := hs.inj q (hkernel ▸ hq) proc hp he
    exact hofNat
  · have hrun := hcoh proc hp hnum
    rw [← ha] at hrun
    exact hrun
  · exact congrArg s.vmaTable (hdistinct q (hkernel ▸ hq) (he.trans hofNat.symm))
  · exact hcoh q (hkernel ▸ hq) hqnum

theorem init (h : MmuInit pages s) : MmuInv s := by
  have hkernel := h.table.1
  have hlive : ∀ p, p ∉ s.procs.table.kernel.live := by
    simp [hkernel, Kernel.empty]
  have howned : ∀ r, s.Owned r → r = s.satp.2 := by
    rintro r (rfl | ⟨p, hp, -⟩)
    · rfl
    · exact absurd hp (hlive p)
  refine ⟨⟨fun r hr => howned r hr ▸ h.bootTable, fun r r' hr hr' hne => ?_⟩,
    fun p hp => absurd hp (hlive p), h.maxLt, h.satpLe, fun p hp => absurd hp (hlive p), ?_,
    fun hmax => ?_, fun _ p hp => absurd hp (hlive p), fun _ p hp => absurd hp (hlive p)⟩
  · exact absurd ((howned r hr).trans (howned r' hr').symm) hne
  · rw [h.tlb]
    exact Tlb.coherent_empty _ _ _
  · exact @AsidInit.inv pages _ ⟨h.table, h.counter, hmax, h.maxLt⟩

/-- What a step does. -/
theorem step (hs : MmuInv s) {e : MmuEvent} (hguard : MmuGuard kp s e)
    (hstep : MmuStep src pages kp fuel s e s') : MmuInv s' := by
  cases hstep with
  | create hnew hcreate => exact hs.create hnew hcreate
  | table hne hstep => exact hs.table (hstep.live_subset hne)
  | swap hp hswap ha hf hf' =>
    rcases Nat.eq_zero_or_pos s.procs.maxAsid with hmax | hmax
    · exact hs.swap_zero hmax hp hswap ha
    · exact hs.swap_number hmax hp (hguard hmax) hswap ha hf hf'
  | call hp hrun hf => exact hs.call hp hguard hrun hf
  | other hsame => exact hs.other hsame
  | fetch hf => exact hs.fetch hf

end MmuInv

/-- In every run whose calls are supported, and of less than 2 MiB on processes with a number, in
which the counter starts again only while no other live process has one : what the hart has cached
under the id in `satp` is what the table in `satp` says, and what it has cached under the number of
a live process is what the table of this process says. -/
theorem tlb_coherent
    (h : Reach (MmuInit pages) (Guarded (MmuGuard kp) (MmuStep src pages kp fuel)) s) :
    (∀ e ∈ s.tlb, e.asid = s.satp.1 → ∀ va ∈ e.block,
      translate s.heap s.satp.2 va = .ok (some (e.val va))) ∧
    ∀ p ∈ s.procs.table.kernel.live, 0 < s.procs.maxAsid → s.procs.asid p ≠ BitVec.allOnes 64 →
      ∀ e ∈ s.tlb, e.asid = (s.procs.asid p).toNat → ∀ va ∈ e.block,
        translate s.heap (s.vmaTable p) va = .ok (some (e.val va)) := by
  have hs := Reach.invariant MmuInv (fun _ => MmuInv.init)
    (fun _ _ _ hs hstep => hs.step hstep.1 hstep.2) h
  refine ⟨fun e he hasid va hva => ?_, fun p hp hmax hnum e he hasid va hva => ?_⟩
  · rw [(hs.tables.ok _ (MmuInv.owned_satp s)).translate_mmu,
      (hs.running e he hasid).2 va hva]
  · rw [(hs.tables.ok _ (MmuInv.owned_live hp)).translate_mmu,
      (hs.coherent hmax p hp hnum e he hasid).2 va hva]

/-! ## What the processes see -/

/-- The address spaces of the processes, after a step. -/
def spacesStep (m : ℕ → AddressSpace) : MmuEvent → ℕ → AddressSpace
  | .create proc _ _ => Function.update m proc AddressSpace.window
  | .call proc c => Function.update m proc ((m proc).apply c)
  | _ => m

/-- The tables of the live processes translate like their address spaces. -/
def SpacesOk (s : MmuState) (m : ℕ → AddressSpace) : Prop :=
  ∀ p ∈ s.procs.table.kernel.live, Translates ⟨s.heap, s.vmaTable p⟩ (m p)

theorem SpacesOk.step {m : ℕ → AddressSpace} (hm : SpacesOk s m) (hs : MmuInv s) {e : MmuEvent}
    (hguard : MmuGuard kp s e) (hstep : MmuStep src pages kp fuel s e s') :
    SpacesOk s' (spacesStep m e) := by
  cases hstep with
  | @create t proc listIdx root padding h hnew hcreate =>
    intro p hp
    obtain ⟨hlive, hfresh⟩ := MmuInv.newBlankProcess_live hnew
    obtain ⟨-, -, htrans⟩ := hs.tables.create hcreate
    simp only [hlive] at hp
    rcases List.mem_cons.mp hp with rfl | hp
    · simp only [spacesStep, Function.update_self]
      exact created_translates ⟨_, hcreate⟩
    · have hne : p ≠ proc := fun he => hfresh (he ▸ hp)
      simp only [spacesStep, Function.update_of_ne hne]
      exact fun va hva => (htrans _ (MmuInv.owned_live hp) va).trans (hm p hp va hva)
  | table hne hstep => exact fun p hp => hm p (hstep.live_subset hne p hp)
  | @swap procs proc a t t' hp hswap ha hf hf' =>
    have hkernel : procs.table.kernel = s.procs.table.kernel := by
      rcases Nat.eq_zero_or_pos s.procs.maxAsid with hmax | hmax
      · exact (AsidState.vmaSwap_zero hmax hswap).1
      · exact (AsidState.vmaSwap_number (hs.asids hmax) hp (hguard hmax) hswap).1
    exact fun q hq => hm q (hkernel ▸ hq)
  | @call proc c h' t hp hrun hf =>
    intro q hq
    obtain ⟨-, -, htrans⟩ := hs.tables.call (MmuInv.owned_live hp) hguard.1 hrun
    by_cases he : q = proc
    · subst he
      simp only [spacesStep, Function.update_self]
      have htable := hs.tables.ok _ (MmuInv.owned_live hp)
      have hcall : Guarded (SupportedAct kp) (TableStep kp fuel) ⟨s.heap, s.vmaTable q⟩ (.call c)
          ⟨h', s.vmaTable q⟩ := ⟨hguard.1, hrun, rfl⟩
      exact ((hm q hp).step htable hcall).2
    · simp only [spacesStep, Function.update_of_ne he]
      have hne : s.vmaTable q ≠ s.vmaTable proc := fun h => he (hs.inj q hq proc hp h)
      exact fun va hva => (htrans _ (MmuInv.owned_live hq) hne va).trans (hm q hq va hva)
  | other hsame =>
    obtain ⟨-, htrans⟩ := hs.tables.other hsame
    exact fun p hp va hva => (htrans _ (MmuInv.owned_live hp) va).trans (hm p hp va hva)
  | fetch hf => exact hm

theorem SpacesOk.path {m : ℕ → AddressSpace} {es : List MmuEvent}
    (h : Path (Guarded (MmuGuard kp) (MmuStep src pages kp fuel)) s es s') (hm : SpacesOk s m)
    (hs : MmuInv s) : SpacesOk s' (es.foldl spacesStep m) ∧ MmuInv s' := by
  induction h generalizing m with
  | nil => exact ⟨hm, hs⟩
  | cons hstep _ ih => exact ih (hm.step hs hstep.1 hstep.2) (hs.step hstep.1 hstep.2)

/-- In these runs the table of each live process translates like the address space that the calls
for this process give, whatever is done for others. A hart with this table in `satp` uses, from its
buffer or from the table, the translations of this address space. -/
theorem processes_isolated {es : List MmuEvent} (hinit : MmuInit pages s)
    (h : Path (Guarded (MmuGuard kp) (MmuStep src pages kp fuel)) s es s') (m : ℕ → AddressSpace)
    {p : ℕ} (hp : p ∈ s'.procs.table.kernel.live) :
    (∀ va < 2 ^ 64, translate s'.heap (s'.vmaTable p) va = .ok (es.foldl spacesStep m p va)) ∧
    (s'.satp.2 = s'.vmaTable p → ∀ e ∈ s'.tlb, e.asid = s'.satp.1 → ∀ va ∈ e.block,
      es.foldl spacesStep m p va = some (e.val va)) := by
  have hnone : SpacesOk s m := fun q hq => by
    rw [hinit.table.1] at hq
    cases hq
  obtain ⟨hspaces, hs⟩ := SpacesOk.path h hnone (MmuInv.init hinit)
  refine ⟨hspaces p hp, fun hsatp e he hasid va hva => ?_⟩
  obtain ⟨hblock, hval⟩ := hs.running e he hasid
  have htrans := hspaces p hp va (lt_of_mem_block hblock hva)
  rw [(hs.tables.ok _ (MmuInv.owned_live hp)).translate_mmu, ← hsatp, hval va hva] at htrans
  exact (Except.ok.inj htrans).symm

end Steps

/-! ### A process that runs -/

/-- A hart on the table of the boot code, with the ids 0 and 1. -/
def mmuStart : MmuState :=
  ⟨asidStart, freshTable.heap, fun _ => 0, (1, freshTable.root), ∅⟩

theorem mmuStart_init : MmuInit bumpPages mmuStart where
  table := asidStart_init.1
  counter := rfl
  maxLt := by decide
  satpLe := by decide
  bootTable := @tableOk_of_reach windowPages 8 freshTable (.start created_freshTable)
  tlb := rfl

/-- The first process is created and switched to, and the hart caches a page of the window. -/
theorem mmuStart_run : ∃ s, Path (Guarded (MmuGuard windowPages)
      (MmuStep bumpProcesses bumpPages windowPages 8)) mmuStart
      [.create 256 0 0, .swap 256, .fetch] s ∧
    256 ∈ s.procs.table.kernel.live ∧ s.satp.2 = s.vmaTable 256 ∧
    ∃ e ∈ s.tlb, e.asid = s.satp.1 ∧ 0xffffffc080000000 ∈ e.block := by
  obtain ⟨⟨proc, t⟩, hnew, ht⟩ : ∃ r : ℕ × ProcessTable,
      (tableStart.newBlankProcess bumpProcesses bumpPages 8 0 0).toOption = some r ∧
      (decide (r.1 = 256 ∧ 256 ∈ r.2.kernel.live ∧ ∀ q ∈ r.2.kernel.live, q = 256) &&
        (AsidState.vmaSwap 8 256 ⟨r.2, Function.update (fun _ => 0) 256 (BitVec.allOnes 64),
          1, 1⟩).isOk) = true :=
    (Option.any_eq_true _ _).mp (by decide +kernel)
  obtain ⟨hfacts, hswap⟩ := (Bool.and_eq_true _ _).mp ht
  obtain ⟨rfl, hlive, honly⟩ := of_decide_eq_true hfacts
  obtain ⟨procs, hswap⟩ := exists_eq_ok hswap
  rcases vmaCreate_spec windowPages freshTable.heap with ⟨hnone, -⟩ | ⟨root, h, hcreate, -⟩
  · exact absurd hnone (by decide)
  have hkernel : procs.table.kernel = t.kernel := by
    rcases AsidState.vmaSwap_eq (Nat.zero_lt_one : 0 < 1) hswap with ⟨-, rfl⟩ | ⟨-, hkernel, -⟩
    · rfl
    · exact hkernel
  let s1 : MmuState := { mmuStart with
    procs := ⟨t, Function.update (fun _ => 0) 256 (BitVec.allOnes 64), 1, 1⟩
    heap := h
    vmaTable := Function.update (fun _ => 0) 256 root }
  let a := procs.hartAsid (procs.asid 256)
  let s2 : MmuState := { s1 with
    procs := procs, satp := (a, s1.vmaTable 256), tlb := s1.swapTlb 256 a ∅ }
  let e : TlbEntry ℕ ℕ (ℕ × ℕ) :=
    ⟨a, {va | va < 2 ^ 64 ∧ va / (4096 * 512 ^ 0) = 0xffffffc080000}, fun va =>
      (va - kernelVmaStart, 15)⟩
  have hroot : s1.vmaTable 256 = root :=
    Function.update_self 256 root (fun _ : ℕ => 0)
  have hfetch : s2.Fetches s2.tlb {e} := by
    intro e' he'
    rw [Set.mem_singleton_iff.mp he']
    refine Or.inr ⟨rfl, ⟨0, by decide, _, rfl⟩, fun va hva => ?_⟩
    change mmu h (s1.vmaTable 256) va = some (va - kernelVmaStart, 15)
    have htrans := created_translates (s := ⟨h, root⟩) ⟨_, hcreate⟩ va hva.1
    have hle : kernelVmaStart ≤ va := by
      have := hva.2
      unfold kernelVmaStart
      omega
    rw [hroot, mmu, htrans, AddressSpace.window, if_pos hle]
    rfl
  have hdrop : ∀ (s : MmuState) (t : Tlb ℕ ℕ (ℕ × ℕ)), s.Fetches t ∅ := fun _ _ _ he => he.elim
  have hpath : Path (Guarded (MmuGuard windowPages)
      (MmuStep bumpProcesses bumpPages windowPages 8)) s1 [.swap 256, .fetch]
      { s2 with tlb := {e} } :=
    .cons ⟨fun _ _ _ q hq hne => absurd (honly q hq) hne,
      .swap hlive hswap rfl (hdrop _ _) (hdrop _ _)⟩ (.cons ⟨trivial, .fetch hfetch⟩ (.nil _))
  refine ⟨{ s2 with tlb := {e} }, .cons ⟨trivial, .create (eq_ok_of_toOption hnew) hcreate⟩ hpath,
    ?_, rfl, e, rfl, rfl, by decide, by decide⟩
  change 256 ∈ procs.table.kernel.live
  rw [hkernel]
  exact hlive

/-- The hart has cached what the table of the process says. -/
theorem tlb_coherent_first : ∃ s : MmuState, ∃ e ∈ s.tlb, 0xffffffc080000000 ∈ e.block ∧
    translate s.heap s.satp.2 0xffffffc080000000 = .ok (some (e.val 0xffffffc080000000)) := by
  obtain ⟨s, hpath, -, -, e, he, hasid, hmem⟩ := mmuStart_run
  have hreach := (Reach.start mmuStart_init).path hpath
  exact ⟨s, e, he, hmem, (tlb_coherent hreach).1 e he hasid _ hmem⟩

/-- The process has the window of the kernel, in its table and in the buffer of the hart. -/
theorem processes_isolated_first : ∃ s : MmuState, ∃ e ∈ s.tlb,
    e.val 0xffffffc080000000 = (0x80000000, 15) ∧
    translate s.heap (s.vmaTable 256) 0xffffffc080000000 = .ok (some (0x80000000, 15)) := by
  obtain ⟨s, hpath, hlive, hsatp, e, he, hasid, hmem⟩ := mmuStart_run
  have hwindow : [MmuEvent.create 256 0 0, .swap 256, .fetch].foldl spacesStep
      (fun _ _ => none) 256 0xffffffc080000000 = some (0x80000000, 15) := rfl
  obtain ⟨htable, htlb⟩ := processes_isolated mmuStart_init hpath (fun _ _ => none) hlive
  refine ⟨s, e, he, ?_, ?_⟩
  · have hval := htlb hsatp e he hasid _ hmem
    rw [hwindow] at hval
    exact (Option.some.inj hval).symm
  · rw [htable _ (by decide), hwindow]

end Toastium
