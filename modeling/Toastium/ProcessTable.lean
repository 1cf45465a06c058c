import Toastium.HashmapRuns
import Toastium.KillPaths

/-!
# The process table

The processes are in a hash map under their ids, and in `running_list`, a list of 8-byte items
in pages, where a process should know its place as `list_idx`. `list_append` copies the item
from where it is told to : `new_blank_process` passes the process itself instead of the address
of a pointer to it, so the item becomes the first 8 bytes of the process, its id and 4 bytes
that were never written. `list_idx` is never written either. `process_cleanup` leaves the
process in the hash map, replaces the wrong item of the list, and takes the address of an item
for a process.

`processTable_ok_iff` : the table is right as long as no process is cleaned up, and the bytes
that were never written happen to be the ones that should have been; every other step that
returns ends this.
-/

namespace Toastium

/-! ## `process.c` -/

/-- The kernel's processes, with the pages of `running_list`. -/
structure ProcessTable where
  kernel : Kernel
  sections : Heap (BitVec 64)
  firstSection : ℕ

namespace ProcessTable

/-- The first 8 bytes of a process structure : the id, and 4 bytes of padding. -/
def firstBytes (processId : ℕ) (padding : BitVec 32) : BitVec 64 :=
  padding ++ BitVec.ofNat 32 processId

variable (src : ProcessSources) (pages : PageSource)

/-- `new_blank_process`. `listIdx` and `padding` are what the bytes that it does not write
happen to be. -/
def newBlankProcess (fuel listIdx : ℕ) (padding : BitVec 32) (t : ProcessTable) :
    Except (Fault Panic) (ℕ × ProcessTable) := do
  let (proc, k) ← t.kernel.newBlankProcess src fuel listIdx
  let h ← listAppend pages t.sections t.firstSection t.kernel.itemCnt
    (firstBytes (k.procs proc).processId padding)
  return (proc, { t with kernel := k, sections := h })

/-- The pages of the list after `process_cleanup`. The `list_idx` of the process moved is
written 144 bytes after its item. -/
def cleanupList (listIdx : ℕ) (t : ProcessTable) : Except (Fault Panic) (Heap (BitVec 64)) := do
  let highestIdx := t.kernel.itemCnt - 1
  let h ← listRemoveItem pages t.sections t.firstSection t.kernel.itemCnt listIdx
  if highestIdx ≠ listIdx then
    let (sect, word, h) ← listGet pages h t.firstSection highestIdx listIdx
    h.store sect (word + 18) (BitVec.ofNat 64 highestIdx)
  else return h

/-- `process_cleanup`. -/
def processCleanup (fuel proc : ℕ) (t : ProcessTable) : Except (Fault Panic) ProcessTable := do
  let k ← t.kernel.processCleanup fuel proc
  let h ← t.cleanupList pages (t.kernel.procs proc).listIdx
  return { t with kernel := k, sections := h }

/-- `kill_process`. -/
def killProcess (fuel processId : ℕ) (t : ProcessTable) : Except (Fault Panic) ProcessTable := do
  let proc ← t.kernel.processFromId fuel processId
  let k ← t.kernel.killProcess fuel processId
  if (t.kernel.procs proc).running then return { t with kernel := k }
  let h ← t.cleanupList pages (t.kernel.procs proc).listIdx
  return { t with kernel := k, sections := h }

/-- The section `n` sections after `sect`. -/
def sectionAt (h : Heap (BitVec 64)) : ℕ → ℕ → Option ℕ
  | 0, sect => some sect
  | n + 1, sect => if h.cell sect 0 = 0 then none else sectionAt h n (h.cell sect 0).toNat

/-- The item number `i` of the list. -/
def item (t : ProcessTable) (i : ℕ) : Option ℕ :=
  (sectionAt t.sections (i / Kernel.sectionMaxCnt) t.firstSection).map fun sect =>
    (t.sections.cell sect (1 + i % Kernel.sectionMaxCnt)).toNat

end ProcessTable

/-- The list holds the live processes, each once and at its `list_idx`, and the hash map finds
them, and them only, by their ids. -/
structure ProcTableOk (t : ProcessTable) : Prop where
  item_live : ∀ i < t.kernel.itemCnt, ∃ p ∈ t.kernel.live, t.item i = some p
  item_inj : ∀ i < t.kernel.itemCnt, ∀ j < t.kernel.itemCnt, t.item i = t.item j → i = j
  listIdx : ∀ p ∈ t.kernel.live, (t.kernel.procs p).listIdx < t.kernel.itemCnt ∧
    t.item (t.kernel.procs p).listIdx = some p
  fromId : ∀ p ∈ t.kernel.live,
    ∃ fuel, t.kernel.processFromId fuel (t.kernel.procs p).processId = .ok p
  fromId_none : ∀ id < 2 ^ 32, (∀ p ∈ t.kernel.live, (t.kernel.procs p).processId ≠ id) →
    ∃ fuel, t.kernel.processFromId fuel id = .ok 0

/-! ## Runs -/

/-- What happens to the table. A context switch sets the `running` flag of a process. -/
inductive ProcTableEvent
  | create (listIdx : ℕ) (padding : BitVec 32)
  | kill (processId : ℕ)
  | cleanup (proc : ℕ)
  | setRunning (proc : ℕ) (running : Bool)

section Runs

variable (src : ProcessSources) (pages : PageSource)

/-- `processes_init`, before the first process. -/
def ProcTableInit (t : ProcessTable) : Prop :=
  t.kernel = Kernel.empty ∧
    ∃ h, pages.alloc Panic.outOfFreePages h = .ok (t.firstSection, t.sections)

/-- A step that returns. -/
inductive ProcTableStep : ProcessTable → ProcTableEvent → ProcessTable → Prop
  | create {t t' : ProcessTable} {fuel listIdx proc : ℕ} {padding : BitVec 32} :
    t.newBlankProcess src pages fuel listIdx padding = .ok (proc, t') →
    ProcTableStep t (.create listIdx padding) t'
  | kill {t t' : ProcessTable} {fuel processId : ℕ} :
    t.killProcess pages fuel processId = .ok t' → ProcTableStep t (.kill processId) t'
  | cleanup {t t' : ProcessTable} {fuel proc : ℕ} : proc ∈ t.kernel.live →
    t.processCleanup pages fuel proc = .ok t' → ProcTableStep t (.cleanup proc) t'
  | setRunning {t : ProcessTable} {proc : ℕ} {running : Bool} :
    ProcTableStep t (.setRunning proc running)
      { t with kernel := t.kernel.modify proc fun p => { p with running := running } }

/-- The bytes that were not written happen to be right, and no process is cleaned up. -/
def Coincides (t : ProcessTable) : ProcTableEvent → Prop
  | .create listIdx padding =>
    src.proc.next t.kernel.live =
        some (ProcessTable.firstBytes t.kernel.processUpto padding).toNat ∧
      listIdx = t.kernel.itemCnt ∧ t.kernel.itemCnt < Kernel.sectionMaxCnt ∧
      t.kernel.processUpto < 2 ^ 32
  | .kill processId => ∃ fuel proc, t.kernel.processFromId fuel processId = .ok proc ∧
    (t.kernel.procs proc).running = true
  | .cleanup _ => False
  | .setRunning _ _ => True

end Runs

/-! ## The invariant -/

/-- The bindings of the hash map are the live processes. -/
structure BindsLive (k : Kernel) (bs : List (Hashmap.Binding ℕ)) : Prop where
  represents : k.processHashmap.Represents builtinNumHash bs
  live : ∀ b ∈ bs, b.data ∈ k.live ∧ (k.procs b.data).processId = b.key
  bound : ∀ p ∈ k.live, ∃ b ∈ bs, b.key = (k.procs p).processId

/-- Live processes are found by their ids, which are below `process_upto`. -/
structure IdsInv (k : Kernel) : Prop where
  binds : ∃ bs, BindsLive k bs
  inj : ∀ p ∈ k.live, ∀ q ∈ k.live, (k.procs p).processId = (k.procs q).processId → p = q
  lt : ∀ p ∈ k.live, (k.procs p).processId < k.processUpto
  upto_le : k.processUpto ≤ 2 ^ 32
  nodup : k.live.Nodup
  pos : ∀ p ∈ k.live, 0 < p

/-- The first section of the list holds the live processes at their places. -/
structure ItemsInv (t : ProcessTable) : Prop where
  cnt_le : t.kernel.itemCnt ≤ Kernel.sectionMaxCnt
  len : t.sections.len t.firstSection = 512
  link : t.sections.cell t.firstSection 0 = 0
  live : ∀ i < t.kernel.itemCnt, ∃ p ∈ t.kernel.live,
    (t.sections.cell t.firstSection (1 + i)).toNat = p ∧ (t.kernel.procs p).listIdx = i
  listIdx : ∀ p ∈ t.kernel.live, (t.kernel.procs p).listIdx < t.kernel.itemCnt ∧
    (t.sections.cell t.firstSection (1 + (t.kernel.procs p).listIdx)).toNat = p

/-- The invariant of the runs in which every step coincides. -/
structure ProcTableInv (t : ProcessTable) : Prop where
  ids : IdsInv t.kernel
  items : ItemsInv t

theorem ProcessTable.item_of_lt (t : ProcessTable) {i : ℕ} (hi : i < Kernel.sectionMaxCnt) :
    t.item i = some (t.sections.cell t.firstSection (1 + i)).toNat := by
  rw [item, Nat.div_eq_of_lt hi, Nat.mod_eq_of_lt hi]
  rfl

/-- The second section is missing. -/
theorem ProcessTable.item_max {t : ProcessTable} (h : t.sections.cell t.firstSection 0 = 0) :
    t.item Kernel.sectionMaxCnt = none := by
  rw [item, Nat.div_self (by decide), sectionAt, if_pos h]
  rfl

namespace IdsInv

variable {k : Kernel}

/-- What `process_from_id` returns. -/
theorem fromId (h : IdsInv k) (id : ℕ) : ∃ r, (∃ fuel, k.processFromId fuel id = .ok r) ∧
    (∀ fuel r', k.processFromId fuel id = .ok r' → r' = r) ∧
    ((r ∈ k.live ∧ (k.procs r).processId = id) ∨
      r = 0 ∧ ∀ p ∈ k.live, (k.procs p).processId ≠ id) := by
  obtain ⟨bs, hbs⟩ := h.binds
  refine ⟨Hashmap.dataOf bs id, hbs.represents.get id, fun fuel r' => hbs.represents.get_eq, ?_⟩
  by_cases hb : ∃ b ∈ bs, b.key = id
  · obtain ⟨b, hmem, hkey, hdata⟩ := Hashmap.exists_dataOf_eq hb
    rw [hdata, ← hkey]
    exact Or.inl (hbs.live b hmem)
  · push Not at hb
    refine Or.inr ⟨Hashmap.dataOf_eq_zero hb, fun p hp he => ?_⟩
    obtain ⟨b, hmem, hkey⟩ := hbs.bound p hp
    exact hb b hmem (hkey.trans he)

/-- A live process is found by its id. -/
theorem fromId_live (h : IdsInv k) {p : ℕ} (hp : p ∈ k.live) :
    (∃ fuel, k.processFromId fuel (k.procs p).processId = .ok p) ∧
      ∀ fuel r, k.processFromId fuel (k.procs p).processId = .ok r → r = p := by
  obtain ⟨r, hr, huniq, ⟨hlive, hid⟩ | ⟨-, hnone⟩⟩ := h.fromId (k.procs p).processId
  · obtain rfl := h.inj r hlive p hp hid
    exact ⟨hr, huniq⟩
  · exact absurd rfl (hnone p hp)

/-- `process_upto` is free. -/
theorem freeUpto (h : IdsInv k) {fuel m u : ℕ}
    (hu : k.freeUpto fuel m k.processUpto = .ok u) : u = k.processUpto := by
  cases m with
  | zero => cases hu
  | succ m =>
    obtain ⟨r, hr, hu⟩ := bind_eq_ok.mp hu
    obtain ⟨r', -, huniq, ⟨hlive, hid⟩ | ⟨h0, -⟩⟩ := h.fromId k.processUpto
    · exact absurd hid (h.lt r' hlive).ne
    · rw [if_pos ((huniq fuel r hr).trans h0)] at hu
      exact (Except.ok.inj hu).symm

end IdsInv

theorem ProcTableInv.ok {t : ProcessTable} (h : ProcTableInv t) : ProcTableOk t := by
  have hlt : ∀ {i}, i < t.kernel.itemCnt → i < Kernel.sectionMaxCnt := fun hi =>
    hi.trans_le h.items.cnt_le
  refine ⟨fun i hi => ?_, fun i hi j hj he => ?_, fun p hp => ?_,
    fun p hp => (h.ids.fromId_live hp).1, fun id _ hnone => ?_⟩
  · obtain ⟨p, hp, hcell, -⟩ := h.items.live i hi
    exact ⟨p, hp, by rw [t.item_of_lt (hlt hi), hcell]⟩
  · obtain ⟨p, -, hcell, hidx⟩ := h.items.live i hi
    obtain ⟨q, -, hcell', hidx'⟩ := h.items.live j hj
    rw [t.item_of_lt (hlt hi), t.item_of_lt (hlt hj), hcell, hcell'] at he
    rw [← hidx, ← hidx', Option.some.inj he]
  · obtain ⟨hidx, hcell⟩ := h.items.listIdx p hp
    exact ⟨hidx, by rw [t.item_of_lt (hlt hidx), hcell]⟩
  · obtain ⟨r, hr, -, ⟨hlive, hid⟩ | ⟨rfl, -⟩⟩ := h.ids.fromId id
    · exact absurd hid (hnone r hlive)
    · exact hr

/-! ## The steps -/

section Steps

variable {src : ProcessSources} {pages : PageSource} {t t' : ProcessTable}

/-- The types and flags of the processes, the queue and the records do not matter. -/
theorem ProcTableInv.congr (h : ProcTableInv t) {k : Kernel} (hlive : k.live = t.kernel.live)
    (htable : k.processHashmap = t.kernel.processHashmap)
    (hupto : k.processUpto = t.kernel.processUpto) (hcnt : k.itemCnt = t.kernel.itemCnt)
    (hid : ∀ p, (k.procs p).processId = (t.kernel.procs p).processId)
    (hidx : ∀ p, (k.procs p).listIdx = (t.kernel.procs p).listIdx) :
    ProcTableInv { t with kernel := k } := by
  obtain ⟨⟨⟨bs, hbs⟩, hinj, hlt, hle, hnodup, hpos⟩, hitems⟩ := h
  refine ⟨⟨⟨bs, ?_, ?_, ?_⟩, ?_, ?_, ?_, ?_, ?_⟩, ?_, hitems.len, hitems.link, ?_, ?_⟩
  · rw [htable]
    exact hbs.represents
  · simpa only [hlive, hid] using hbs.live
  · simpa only [hlive, hid] using hbs.bound
  · simpa only [hlive, hid] using hinj
  · simpa only [hlive, hid, hupto] using hlt
  · rwa [hupto]
  · rwa [hlive]
  · rwa [hlive]
  · simpa only [hcnt] using hitems.cnt_le
  · simpa only [hcnt, hlive, hidx] using hitems.live
  · simpa only [hcnt, hlive, hidx] using hitems.listIdx

theorem ProcTableInv.modify (h : ProcTableInv t) (killed : List ℕ) (p : ℕ) (f : Process → Process)
    (hid : ∀ x, (f x).processId = x.processId) (hidx : ∀ x, (f x).listIdx = x.listIdx) :
    ProcTableInv { t with kernel := { t.kernel with killed := killed }.modify p f } := by
  refine h.congr rfl rfl rfl rfl (fun q => ?_) fun q => ?_
  · rw [Kernel.procs_modify]
    split_ifs with hq
    · rw [hid, hq]
    · rfl
  · rw [Kernel.procs_modify]
    split_ifs with hq
    · rw [hidx, hq]
    · rfl

/-- After `process_cleanup` the process is still found by its id. -/
theorem ProcTableInv.cleanup_not_ok (h : ProcTableInv t) {k k' : Kernel} {fuel proc : ℕ}
    (hp : proc ∈ t.kernel.live) (hcleanup : k.processCleanup fuel proc = .ok k')
    (hprocs : k.procs = t.kernel.procs) (hlive : k.live = t.kernel.live)
    (htable : k.processHashmap = t.kernel.processHashmap) (hk : t'.kernel = k') :
    ¬ProcTableOk t' := by
  intro hok
  obtain ⟨bs, hbs⟩ := h.ids.binds
  obtain ⟨table, itemCnt, r, hrem, rfl⟩ := Kernel.processCleanup_eq hcleanup
  rw [hprocs, htable] at hrem
  obtain ⟨b, hb, hkey⟩ := hbs.bound proc hp
  obtain ⟨-, leaf, rfl⟩ := hbs.represents.remove_some ⟨b, hb, hkey⟩ hrem
  -- no live process has the id, and the lookup should return NULL
  have hnone : ∀ p ∈ t'.kernel.live,
      (t'.kernel.procs p).processId ≠ (t.kernel.procs proc).processId := by
    intro p hp' he
    rw [hk] at hp' he
    simp only [hprocs, hlive] at hp' he
    obtain rfl := h.ids.inj p (List.mem_of_mem_erase hp') proc hp he
    exact h.ids.nodup.not_mem_erase hp'
  have hlt := (h.ids.lt proc hp).trans_le h.ids.upto_le
  obtain ⟨fuel', hget⟩ := hok.fromId_none _ hlt hnone
  rw [hk] at hget
  have hzero := hbs.represents.get_eq_of_live _ hget
  obtain ⟨b', hb', hkey', hdata⟩ := Hashmap.exists_dataOf_eq ⟨b, hb, hkey⟩
  rw [hdata] at hzero
  exact absurd hzero (h.ids.pos _ (hbs.live b' hb').1).ne

/-! ### Creation -/

/-- What a creation changes. -/
theorem ProcTableInv.create_cases (h : ProcTableInv t) {fuel listIdx proc : ℕ} {padding : BitVec 32}
    (hnew : t.newBlankProcess src pages fuel listIdx padding = .ok (proc, t')) :
    src.proc.next t.kernel.live = some proc ∧
    listAppend pages t.sections t.firstSection t.kernel.itemCnt
      (ProcessTable.firstBytes t.kernel.processUpto padding) = .ok t'.sections ∧
    t'.firstSection = t.firstSection ∧
    ∃ table, t.kernel.processHashmap.insert builtinNumHash src.leaf t.kernel.processUpto proc =
        .ok table ∧
      t'.kernel = { t.kernel with
        procs := Function.update t.kernel.procs proc
          ⟨t.kernel.processUpto % 2 ^ 32, 0, false, .normal, listIdx⟩
        live := proc :: t.kernel.live
        processHashmap := table
        processUpto := t.kernel.processUpto + 1
        itemCnt := t.kernel.itemCnt + 1 } := by
  obtain ⟨⟨proc', k⟩, hkernel, hnew⟩ := bind_eq_ok.mp hnew
  obtain ⟨heap, happ, hnew⟩ := bind_eq_ok.mp hnew
  cases hnew
  obtain ⟨upto, table, hupto, hnext, hins, rfl⟩ := Kernel.newBlankProcess_cases hkernel
  obtain rfl := h.ids.freeUpto hupto
  have hbytes : ProcessTable.firstBytes (t.kernel.processUpto % 2 ^ 32) padding =
      ProcessTable.firstBytes t.kernel.processUpto padding := by
    unfold ProcessTable.firstBytes
    congr 1
    exact BitVec.eq_of_toNat_eq (by simp)
  simp only [Function.update_self, hbytes] at happ
  exact ⟨hnext, happ, rfl, table, hins, rfl⟩

/-- The hash map after a creation. -/
theorem IdsInv.create {k : Kernel} (h : IdsInv k) {proc listIdx : ℕ} {table : Hashmap ℕ}
    (hnext : src.proc.next k.live = some proc) (hlt : k.processUpto < 2 ^ 32)
    (hins : k.processHashmap.insert builtinNumHash src.leaf k.processUpto proc = .ok table) :
    IdsInv { k with
      procs := Function.update k.procs proc ⟨k.processUpto % 2 ^ 32, 0, false, .normal, listIdx⟩
      live := proc :: k.live
      processHashmap := table
      processUpto := k.processUpto + 1
      itemCnt := k.itemCnt + 1 } := by
  have hne : ∀ p ∈ k.live, p ≠ proc := fun p hp e => src.proc.fresh hnext (e ▸ hp)
  have hmod : k.processUpto % 2 ^ 32 = k.processUpto := Nat.mod_eq_of_lt hlt
  obtain ⟨bs, hbs⟩ := h.binds
  refine ⟨⟨_, hbs.represents.insert hins, fun b hb => ?_, fun p hp => ?_⟩, fun p hp q hq he => ?_,
    fun p hp => ?_, hlt, List.nodup_cons.mpr ⟨src.proc.fresh hnext, h.nodup⟩, fun p hp => ?_⟩
  · rcases List.mem_cons.mp hb with rfl | hb
    · simp only [Function.update_self, hmod, and_true]
      exact List.mem_cons_self
    · obtain ⟨hlive, hid⟩ := hbs.live b hb
      simp only [Function.update_of_ne (hne _ hlive)]
      exact ⟨List.mem_cons_of_mem _ hlive, hid⟩
  · rcases List.mem_cons.mp hp with rfl | hp
    · simp only [Function.update_self, hmod]
      exact ⟨_, List.mem_cons_self, rfl⟩
    · simp only [Function.update_of_ne (hne p hp)]
      obtain ⟨b, hb, hkey⟩ := hbs.bound p hp
      exact ⟨b, List.mem_cons_of_mem _ hb, hkey⟩
  · rcases List.mem_cons.mp hp with rfl | hp' <;> rcases List.mem_cons.mp hq with rfl | hq'
    · rfl
    · simp only [Function.update_self, Function.update_of_ne (hne q hq'), hmod] at he
      exact absurd he.symm (h.lt q hq').ne
    · simp only [Function.update_self, Function.update_of_ne (hne p hp'), hmod] at he
      exact absurd he (h.lt p hp').ne
    · simp only [Function.update_of_ne (hne p hp'), Function.update_of_ne (hne q hq')] at he
      exact h.inj p hp' q hq' he
  · rcases List.mem_cons.mp hp with rfl | hp
    · simp only [Function.update_self, hmod]
      exact Nat.lt_succ_self _
    · simp only [Function.update_of_ne (hne p hp)]
      exact (h.lt p hp).trans (Nat.lt_succ_self _)
  · rcases List.mem_cons.mp hp with rfl | hp
    · exact src.proc.pos hnext
    · exact h.pos p hp

/-- A creation whose bytes coincide. -/
theorem ProcTableInv.create (h : ProcTableInv t) {fuel listIdx proc : ℕ} {padding : BitVec 32}
    (hnew : t.newBlankProcess src pages fuel listIdx padding = .ok (proc, t'))
    (hc : Coincides src t (.create listIdx padding)) : ProcTableInv t' := by
  obtain ⟨hnext, happ, hfirst, table, hins, hk⟩ := h.create_cases hnew
  obtain ⟨hbytes, rfl, hcnt, hupto⟩ := hc
  rw [hnext, Option.some.injEq] at hbytes
  rw [listAppend_of_lt h.items.len hcnt, Except.ok.injEq] at happ
  have hne : ∀ p ∈ t.kernel.live, p ≠ proc := fun p hp e => src.proc.fresh hnext (e ▸ hp)
  refine ⟨hk ▸ h.ids.create hnext hupto hins, ?_, ?_, ?_, fun i hi => ?_, fun p hp => ?_⟩
  · rw [hk]
    exact hcnt
  · rw [hfirst, ← happ]
    exact h.items.len
  · rw [hfirst, ← happ, Heap.cell_set_of_index_ne _ _ _ _ (by omega), h.items.link]
  · rw [hk] at hi ⊢
    rw [hfirst, ← happ]
    rcases Nat.lt_succ_iff_lt_or_eq.mp hi with hi | rfl
    · obtain ⟨p, hp, hcell, hidx⟩ := h.items.live i hi
      refine ⟨p, List.mem_cons_of_mem _ hp, ?_, ?_⟩
      · rw [Heap.cell_set_of_index_ne _ _ _ _ (by omega), hcell]
      · simp only [Function.update_of_ne (hne p hp)]
        exact hidx
    · refine ⟨proc, List.mem_cons_self, ?_, ?_⟩
      · rw [Heap.cell_set_self, hbytes]
      · simp only [Function.update_self]
  · rw [hk] at hp ⊢
    rw [hfirst, ← happ]
    rcases List.mem_cons.mp hp with rfl | hp
    · simp only [Function.update_self, Heap.cell_set_self]
      exact ⟨Nat.lt_succ_self _, hbytes.symm⟩
    · obtain ⟨hidx, hcell⟩ := h.items.listIdx p hp
      simp only [Function.update_of_ne (hne p hp)]
      rw [Heap.cell_set_of_index_ne _ _ _ _ (by omega)]
      exact ⟨hidx.trans (Nat.lt_succ_self _), hcell⟩

/-- The bytes coincide in a creation after which the table is right. -/
theorem ProcTableInv.coincides_of_create (h : ProcTableInv t) {fuel listIdx proc : ℕ}
    {padding : BitVec 32}
    (hnew : t.newBlankProcess src pages fuel listIdx padding = .ok (proc, t'))
    (hok : ProcTableOk t') : Coincides src t (.create listIdx padding) := by
  obtain ⟨hnext, happ, hfirst, table, hins, hk⟩ := h.create_cases hnew
  have hfresh := src.proc.fresh hnext
  have hproc : proc ∈ t'.kernel.live := by
    rw [hk]
    exact List.mem_cons_self
  have hcnt' : t'.kernel.itemCnt = t.kernel.itemCnt + 1 := by rw [hk]
  -- the list ends at its first section
  have hcnt : t.kernel.itemCnt < Kernel.sectionMaxCnt := by
    rcases h.items.cnt_le.lt_or_eq with hlt | heq
    · exact hlt
    · rw [heq] at happ
      have hlink := listAppend_max h.items.len h.items.link happ
      obtain ⟨p, -, hitem⟩ := hok.item_live Kernel.sectionMaxCnt (by omega)
      rw [ProcessTable.item_max (hfirst ▸ hlink)] at hitem
      cases hitem
  rw [listAppend_of_lt h.items.len hcnt, Except.ok.injEq] at happ
  have hidx : (t'.kernel.procs proc).listIdx = listIdx := by
    rw [hk]
    simp only [Function.update_self]
  obtain ⟨hlt, hitem⟩ := hok.listIdx proc hproc
  rw [hidx, hcnt'] at hlt
  rw [hidx, t'.item_of_lt (by omega), Option.some.injEq, hfirst, ← happ] at hitem
  obtain rfl : listIdx = t.kernel.itemCnt := by
    by_contra hne
    rw [Heap.cell_set_of_index_ne _ _ _ _ (by omega)] at hitem
    obtain ⟨p, hp, hcell, -⟩ := h.items.live listIdx (by omega)
    exact hfresh (hitem ▸ hcell ▸ hp)
  rw [Heap.cell_set_self] at hitem
  refine ⟨by rw [hnext, hitem], rfl, hcnt, ?_⟩
  -- the id has 32 bits, and the hash map has the process under `process_upto`
  by_contra hupto
  obtain ⟨bs, hbs⟩ := h.ids.binds
  obtain ⟨fuel', hget⟩ := hok.fromId proc hproc
  have heq : t.kernel.processUpto = 2 ^ 32 := le_antisymm h.ids.upto_le (by omega)
  rw [hk] at hget
  simp only [Function.update_self, heq, Nat.mod_self] at hget
  have hdata := (hbs.represents.insert hins).get_eq hget
  rw [Hashmap.dataOf_cons, if_neg (show t.kernel.processUpto ≠ 0 by omega)] at hdata
  have hfrom := hbs.represents.get 0
  rw [← hdata] at hfrom
  obtain ⟨r, -, huniq, ⟨hlive, -⟩ | ⟨h0, -⟩⟩ := h.ids.fromId 0
  · obtain ⟨fuel0, hfrom⟩ := hfrom
    exact hfresh (huniq fuel0 proc hfrom ▸ hlive)
  · obtain ⟨fuel0, hfrom⟩ := hfrom
    exact absurd ((huniq fuel0 proc hfrom).trans h0) (src.proc.pos hnext).ne'

/-- A kill marks a running process as dead, and otherwise is a cleanup. -/
theorem ProcTableInv.kill (h : ProcTableInv t) {fuel processId : ℕ}
    (hkill : t.killProcess pages fuel processId = .ok t') :
    (Coincides src t (.kill processId) → ProcTableInv t') ∧
      (ProcTableOk t' → Coincides src t (.kill processId)) := by
  obtain ⟨proc, hproc, hkill⟩ := bind_eq_ok.mp hkill
  obtain ⟨k, hkernel, hkill⟩ := bind_eq_ok.mp hkill
  obtain ⟨proc', hproc', h0, -, hcases⟩ := Kernel.killProcess_cases hkernel
  obtain rfl : proc = proc' := Except.ok.inj (hproc.symm.trans hproc')
  obtain ⟨r, -, huniq, hr⟩ := h.ids.fromId processId
  obtain rfl := huniq fuel proc hproc
  rcases hcases with ⟨hrun, rfl⟩ | ⟨hrun, hcleanup⟩
  · rw [if_pos hrun] at hkill
    cases hkill
    exact ⟨fun _ => h.modify _ _ _ (fun _ => rfl) fun _ => rfl,
      fun _ => ⟨fuel, proc, hproc, hrun⟩⟩
  · rw [hrun, if_neg (by decide)] at hkill
    obtain ⟨heap, -, hkill⟩ := bind_eq_ok.mp hkill
    cases hkill
    constructor
    · rintro ⟨fuel', proc', hproc', hrun'⟩
      rw [huniq fuel' proc' hproc', hrun] at hrun'
      cases hrun'
    · intro hok
      obtain ⟨hlive, -⟩ := hr.resolve_right fun hnone => h0 hnone.1
      exact absurd hok (h.cleanup_not_ok hlive hcleanup rfl rfl rfl rfl)

/-- A step from a table of the invariant ends in a right table exactly if it coincides, and
then keeps the invariant. -/
theorem ProcTableInv.step (h : ProcTableInv t) {e : ProcTableEvent}
    (hstep : ProcTableStep src pages t e t') :
    (Coincides src t e → ProcTableInv t') ∧ (ProcTableOk t' → Coincides src t e) := by
  cases hstep with
  | create hnew => exact ⟨h.create hnew, h.coincides_of_create hnew⟩
  | kill hkill => exact h.kill hkill
  | cleanup hlive hcleanup =>
    refine ⟨False.elim, fun hok => ?_⟩
    obtain ⟨k, hkernel, hcleanup⟩ := bind_eq_ok.mp hcleanup
    obtain ⟨heap, -, hcleanup⟩ := bind_eq_ok.mp hcleanup
    cases hcleanup
    exact absurd hok (h.cleanup_not_ok hlive hkernel rfl rfl rfl rfl)
  | setRunning => exact ⟨fun _ => h.modify _ _ _ (fun _ => rfl) fun _ => rfl, fun _ => trivial⟩

theorem ProcTableInit.inv (h : ProcTableInit pages t) : ProcTableInv t := by
  obtain ⟨hk, heap, halloc⟩ := h
  obtain ⟨-, hsections⟩ := Source.alloc_eq_ok.mp halloc
  have hlive : ∀ p, p ∉ t.kernel.live := by simp [hk, Kernel.empty]
  refine ⟨⟨⟨[], ?_, by simp, fun p hp => absurd hp (hlive p)⟩, fun p hp => absurd hp (hlive p),
    fun p hp => absurd hp (hlive p), by rw [hk]; decide, by rw [hk]; exact List.nodup_nil,
    fun p hp => absurd hp (hlive p)⟩, by rw [hk]; decide, ?_, ?_, fun i hi => ?_,
    fun p hp => absurd hp (hlive p)⟩
  · rw [hk]
    exact ⟨by decide, fun i _ => rfl, by simp⟩
  · rw [hsections, Heap.len_push_self]
  · rw [hsections, Heap.cell_push_self]
  · rw [hk] at hi
    exact absurd hi (Nat.not_lt_zero i)

/-- In every run in which the bytes that were not written happen to be right and no process is
cleaned up, the table is right, and the next step keeps it right exactly if it is such a step
too. -/
theorem processTable_ok_iff
    (h : Reach (ProcTableInit pages) (Guarded (Coincides src) (ProcTableStep src pages)) t) :
    ProcTableOk t ∧
      ∀ e t', ProcTableStep src pages t e t' → (ProcTableOk t' ↔ Coincides src t e) := by
  have ht := Reach.invariant ProcTableInv (fun _ => ProcTableInit.inv)
    (fun _ _ _ ht hstep => (ht.step hstep.2).1 hstep.1) h
  exact ⟨ht.ok, fun e t' hstep =>
    ⟨(ht.step hstep).2, fun hc => ((ht.step hstep).1 hc).ok⟩⟩

/-- The table after `processes_init`, with the list at `0x1000`. -/
def tableStart : ProcessTable :=
  ⟨Kernel.empty, Heap.push ⟨[], fun _ _ => 0⟩ 4096 512, 4096⟩

theorem tableStart_init : ProcTableInit bumpPages tableStart :=
  ⟨rfl, ⟨[], fun _ _ => 0⟩, rfl⟩

/-- The first process, with 0 in the bytes that were not written. -/
theorem tableStart_create :
    ∃ t', ProcTableStep bumpProcesses bumpPages tableStart (.create 0 0) t' := by
  obtain ⟨⟨proc, t'⟩, hnew⟩ : ∃ r, tableStart.newBlankProcess bumpProcesses bumpPages 2 0 0 =
      .ok r := exists_eq_ok (by decide +kernel)
  exact ⟨t', ProcTableStep.create hnew⟩

theorem not_coincides_create : ¬Coincides bumpProcesses tableStart (.create 0 0) := by
  rintro ⟨hbytes, -⟩
  exact absurd hbytes (by decide)

theorem processTable_ok_iff_create : ProcTableOk tableStart ∧
    ∃ t', ProcTableStep bumpProcesses bumpPages tableStart (.create 0 0) t' ∧ ¬ProcTableOk t' := by
  obtain ⟨t', hstep⟩ := tableStart_create
  obtain ⟨hok, hiff⟩ := @processTable_ok_iff bumpProcesses _ _ (Reach.start tableStart_init)
  exact ⟨hok, t', hstep, fun hok' => not_coincides_create ((hiff _ _ hstep).mp hok')⟩

/-- The first process : its item in the list is its id 0, not its address. -/
theorem not_procTableOk_create :
    ∃ t, Reach (ProcTableInit bumpPages) (ProcTableStep bumpProcesses bumpPages) t ∧
      ¬ProcTableOk t := by
  obtain ⟨t', hstep⟩ := tableStart_create
  exact ⟨t', Reach.next (Reach.start tableStart_init) hstep, fun hok =>
    not_coincides_create ((tableStart_init.inv.step hstep).2 hok)⟩

end Steps

end Toastium
