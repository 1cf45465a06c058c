import Toastium.Linked
import Toastium.Reach
import Toastium.Layout

/-!
# The list of boot drivers

`append_driver` and `fetch_driver` of `driver_manager.c`, on the entries in memory. An
insertion has a case of its own for the empty list, for the head, and a loop for the rest;
an entry goes before those of its own stage. The list is `List.orderedInsert` by stage
(`appendDriver_eq`), for any memory of entries.

`driver_list_correct` : in every run, the list is sorted by stage and holds exactly the
entries appended and not fetched, a fetch takes an entry of minimal stage if there is one
to take, and the stages fetched since the last append do not decrease.
-/

namespace Toastium

/-- `driver_boot_stage_entry`. The type of `stage` is an enumeration, an unsigned int. -/
structure DriverBootStageEntry where
  stage : BitVec 32
  nextEntry : ℕ
  deriving DecidableEq, Repr

/-- The entries in memory and `root_entry`. -/
structure Drivers where
  mem : ℕ → DriverBootStageEntry
  rootEntry : ℕ

/-- `entry->next_entry = next`. -/
def setNextEntry (mem : ℕ → DriverBootStageEntry) (entry next : ℕ) : ℕ → DriverBootStageEntry :=
  Function.update mem entry { mem entry with nextEntry := next }

/-- The loop of `append_driver`, from `cur_entry` on. -/
def appendDriverLoop (newEntry : ℕ) :
    ℕ → (ℕ → DriverBootStageEntry) → ℕ → Except (Fault Panic) (ℕ → DriverBootStageEntry)
  | 0, _, _ => .error .fuel
  | fuel + 1, mem, curEntry =>
    if (mem curEntry).nextEntry = 0 then .ok (setNextEntry mem curEntry newEntry)
    else if (mem newEntry).stage ≤ (mem (mem curEntry).nextEntry).stage then
      .ok (setNextEntry (setNextEntry mem newEntry (mem curEntry).nextEntry) curEntry newEntry)
    else appendDriverLoop newEntry fuel mem (mem curEntry).nextEntry

/-- `append_driver` after its first statement, which clears the link of the entry. -/
def appendDriverCleared (fuel newEntry : ℕ) (s : Drivers) : Except (Fault Panic) Drivers :=
  if s.rootEntry = 0 then .ok { s with rootEntry := newEntry }
  else if (s.mem newEntry).stage ≤ (s.mem s.rootEntry).stage then
    .ok ⟨setNextEntry s.mem newEntry s.rootEntry, newEntry⟩
  else (appendDriverLoop newEntry fuel s.mem s.rootEntry).map fun mem => { s with mem := mem }

/-- `append_driver`. -/
def appendDriver (fuel newEntry : ℕ) (s : Drivers) : Except (Fault Panic) Drivers :=
  appendDriverCleared fuel newEntry { s with mem := setNextEntry s.mem newEntry 0 }

/-- `fetch_driver`, with the entry it returns. -/
def fetchDriver (curStage : BitVec 32) (s : Drivers) : ℕ × Drivers :=
  if s.rootEntry = 0 then (0, s)
  else if curStage < (s.mem s.rootEntry).stage then (0, s)
  else (s.rootEntry, { s with rootEntry := (s.mem s.rootEntry).nextEntry })

section Entries

variable {mem : ℕ → DriverBootStageEntry} {entry next : ℕ}

@[simp] theorem stage_setNextEntry (p : ℕ) :
    (setNextEntry mem entry next p).stage = (mem p).stage := by
  rcases eq_or_ne p entry with rfl | hp
  · simp [setNextEntry]
  · simp [setNextEntry, hp]

@[simp] theorem nextEntry_setNextEntry :
    (setNextEntry mem entry next entry).nextEntry = next := by
  simp [setNextEntry]

theorem setNextEntry_of_ne {p : ℕ} (hp : p ≠ entry) : setNextEntry mem entry next p = mem p :=
  Function.update_of_ne hp _ _

end Entries

namespace Drivers

/-- `l` are the entries of the list, in order. -/
def Holds (s : Drivers) (l : List ℕ) : Prop :=
  Linked (fun p => (s.mem p).nextEntry) s.rootEntry l

/-- An entry goes no later than the first one of a stage that is not lower. -/
def insert (mem : ℕ → DriverBootStageEntry) (entry : ℕ) (l : List ℕ) : List ℕ :=
  l.orderedInsert (fun p q => (mem p).stage ≤ (mem q).stage) entry

theorem mem_insert {mem : ℕ → DriverBootStageEntry} {entry p : ℕ} {l : List ℕ} :
    p ∈ insert mem entry l ↔ p = entry ∨ p ∈ l :=
  List.mem_orderedInsert _

/-- The place of an entry depends on the stages only. -/
theorem insert_congr {mem mem' : ℕ → DriverBootStageEntry} (entry : ℕ)
    (h : ∀ p, (mem' p).stage = (mem p).stage) (l : List ℕ) :
    insert mem' entry l = insert mem entry l := by
  unfold insert
  simp only [h]

end Drivers

open Drivers

/-- The loop puts the entry into the list behind `curEntry`. -/
theorem appendDriverLoop_eq {newEntry : ℕ} (h0 : newEntry ≠ 0) :
    ∀ {fuel : ℕ} {mem : ℕ → DriverBootStageEntry} {cur : ℕ} {rest : List ℕ},
      Linked (fun p => (mem p).nextEntry) (mem cur).nextEntry rest → (cur :: rest).Nodup →
      newEntry ∉ cur :: rest → (mem newEntry).nextEntry = 0 → rest.length < fuel →
      ∃ mem', appendDriverLoop newEntry fuel mem cur = .ok mem' ∧
        Linked (fun p => (mem' p).nextEntry) (mem' cur).nextEntry (insert mem newEntry rest) ∧
        (∀ p, (mem' p).stage = (mem p).stage) ∧
        ∀ p, p ≠ newEntry → p ∉ cur :: rest → mem' p = mem p
  | 0, _, _, _, _, _, _, _, hfuel => absurd hfuel (Nat.not_lt_zero _)
  | fuel + 1, mem, cur, rest, hlink, hnd, hnew, hz, hfuel => by
    obtain ⟨hnc, hnr⟩ := not_or.mp (List.mem_cons.not.mp hnew)
    obtain ⟨hcr, hnd'⟩ := List.nodup_cons.mp hnd
    rw [appendDriverLoop]
    split_ifs with hnext hle
    · -- the tail of the list
      rw [hnext] at hlink
      obtain rfl := hlink.eq_nil
      refine ⟨_, rfl, ?_, stage_setNextEntry, fun p _ hp => setNextEntry_of_ne (by simpa using hp)⟩
      rw [nextEntry_setNextEntry]
      refine Linked.cons h0 ?_
      rw [setNextEntry_of_ne hnc, hz]
      rfl
    · -- before `next_entry`
      obtain ⟨rest', rfl, hrest⟩ := hlink.eq_cons hnext
      have hne : cur ≠ newEntry := Ne.symm hnc
      refine ⟨_, rfl, ?_, fun p => by simp, fun p hpn hp => ?_⟩
      · have hins : insert mem newEntry ((mem cur).nextEntry :: rest') =
            newEntry :: (mem cur).nextEntry :: rest' := List.orderedInsert_cons_of_le _ _ hle
        rw [hins, nextEntry_setNextEntry]
        refine Linked.cons h0 ?_
        rw [setNextEntry_of_ne hnc, nextEntry_setNextEntry]
        refine hlink.congr fun q hq => ?_
        rw [setNextEntry_of_ne (ne_of_mem_of_not_mem hq hcr),
          setNextEntry_of_ne (ne_of_mem_of_not_mem hq hnr)]
      · rw [setNextEntry_of_ne (List.ne_of_not_mem_cons hp), setNextEntry_of_ne hpn]
    · -- further down
      obtain ⟨rest', rfl, hrest⟩ := hlink.eq_cons hnext
      obtain ⟨mem', hrun, hlink', hstage, hframe⟩ :=
        appendDriverLoop_eq h0 hrest hnd' hnr hz (Nat.lt_of_succ_lt_succ hfuel)
      have hcur : mem' cur = mem cur := hframe cur (Ne.symm hnc) hcr
      refine ⟨mem', hrun, ?_, hstage, fun p hpn hp =>
        hframe p hpn fun h => hp (List.mem_cons_of_mem cur h)⟩
      have hins : insert mem newEntry ((mem cur).nextEntry :: rest') =
          (mem cur).nextEntry :: insert mem newEntry rest' :=
        List.orderedInsert_of_not_le _ _ hle
      rw [hins, hcur]
      exact Linked.cons hnext hlink'

/-- More fuel does not change a loop that has ended. -/
theorem appendDriverLoop_mono {newEntry : ℕ} {mem' : ℕ → DriverBootStageEntry} (k : ℕ) :
    ∀ {fuel : ℕ} {mem : ℕ → DriverBootStageEntry} {cur : ℕ},
      appendDriverLoop newEntry fuel mem cur = .ok mem' →
      appendDriverLoop newEntry (fuel + k) mem cur = .ok mem'
  | fuel + 1, mem, cur, h => by
    rw [Nat.add_right_comm, appendDriverLoop]
    rw [appendDriverLoop] at h
    split_ifs at h ⊢
    · exact h
    · exact h
    · exact appendDriverLoop_mono k h

/-- More fuel does not change an append that has returned. -/
theorem appendDriver_mono {newEntry fuel : ℕ} {s s' : Drivers} (k : ℕ)
    (h : appendDriver fuel newEntry s = .ok s') : appendDriver (fuel + k) newEntry s = .ok s' := by
  unfold appendDriver appendDriverCleared at h ⊢
  split_ifs at h ⊢
  · exact h
  · exact h
  · cases hloop : appendDriverLoop newEntry fuel (setNextEntry s.mem newEntry 0) s.rootEntry with
    | error e =>
      rw [hloop] at h
      cases h
    | ok mem =>
      rw [hloop] at h
      rw [appendDriverLoop_mono k hloop]
      exact h

/-- `append_driver` inserts the entry by its stage and changes no stage. -/
theorem appendDriver_eq {s : Drivers} {l : List ℕ} {newEntry fuel : ℕ} (hl : s.Holds l)
    (hnd : l.Nodup) (h0 : newEntry ≠ 0) (hnew : newEntry ∉ l) (hfuel : l.length < fuel) :
    ∃ s', appendDriver fuel newEntry s = .ok s' ∧ s'.Holds (insert s.mem newEntry l) ∧
      ∀ p, (s'.mem p).stage = (s.mem p).stage := by
  -- the link of the new entry is cleared first
  set c : Drivers := { s with mem := setNextEntry s.mem newEntry 0 }
  have hstage : ∀ p, (c.mem p).stage = (s.mem p).stage := stage_setNextEntry
  have hcl : c.Holds l := hl.congr fun q hq => by
    change (setNextEntry s.mem newEntry 0 q).nextEntry = _
    rw [setNextEntry_of_ne (ne_of_mem_of_not_mem hq hnew)]
  have hz : (c.mem newEntry).nextEntry = 0 := nextEntry_setNextEntry
  rw [← insert_congr newEntry hstage]
  change ∃ s', appendDriverCleared fuel newEntry c = .ok s' ∧ _
  unfold appendDriverCleared
  split_ifs with hroot hle
  · -- the empty list
    have hcl' : Linked (fun p => (c.mem p).nextEntry) 0 l := hroot ▸ hcl
    obtain rfl := hcl'.eq_nil
    refine ⟨_, rfl, Linked.cons h0 ?_, hstage⟩
    change Linked _ (c.mem newEntry).nextEntry []
    rw [hz]
    rfl
  · -- the head of the list
    obtain ⟨rest, rfl, hrest⟩ := Linked.eq_cons hcl hroot
    refine ⟨_, rfl, ?_, fun p => (stage_setNextEntry p).trans (hstage p)⟩
    have hins : insert c.mem newEntry (c.rootEntry :: rest) = newEntry :: c.rootEntry :: rest :=
      List.orderedInsert_cons_of_le _ _ hle
    rw [hins]
    refine Linked.cons h0 ?_
    change Linked _ (setNextEntry c.mem newEntry c.rootEntry newEntry).nextEntry _
    rw [nextEntry_setNextEntry]
    refine Linked.congr hcl fun q hq => ?_
    change (setNextEntry c.mem newEntry c.rootEntry q).nextEntry = _
    rw [setNextEntry_of_ne (ne_of_mem_of_not_mem hq hnew)]
  · -- behind the head
    obtain ⟨rest, rfl, hrest⟩ := Linked.eq_cons hcl hroot
    obtain ⟨mem', hrun, hlink, hst, -⟩ := appendDriverLoop_eq h0 hrest hnd hnew hz
      ((Nat.lt_succ_self _).trans hfuel)
    rw [hrun]
    refine ⟨_, rfl, ?_, fun p => (hst p).trans (hstage p)⟩
    have hins : insert c.mem newEntry (c.rootEntry :: rest) =
        c.rootEntry :: insert c.mem newEntry rest := List.orderedInsert_of_not_le _ _ hle
    rw [hins]
    exact Linked.cons hroot hlink

/-- `fetch_driver` on the head of a list. -/
theorem fetchDriver_cons {s : Drivers} {p : ℕ} {l : List ℕ} (hl : s.Holds (p :: l))
    (curStage : BitVec 32) :
    fetchDriver curStage s =
      if curStage < (s.mem p).stage then (0, s)
      else (p, { s with rootEntry := (s.mem p).nextEntry }) := by
  obtain ⟨hp, h0, -⟩ := hl
  rw [fetchDriver, hp, if_neg h0]

/-- A run : the list, the stage of each entry appended and not fetched, and the stages
fetched since the last append. -/
structure DriverRun where
  drivers : Drivers
  pending : ℕ → Option (BitVec 32)
  fetched : List (BitVec 32)

/-- The calls. The owner of an entry gives it a stage and leaves any link in it before it
is appended. -/
inductive DriverCall
  | append (entry : ℕ) (stage : BitVec 32) (link : ℕ)
  | fetch (curStage : BitVec 32)

/-- An entry as its owner fills it. -/
def Drivers.filled (s : Drivers) (entry : ℕ) (stage : BitVec 32) (link : ℕ) : Drivers :=
  { s with mem := Function.update s.mem entry ⟨stage, link⟩ }

/-- A fetch in a run. -/
def DriverRun.fetch (s : DriverRun) (curStage : BitVec 32) : DriverRun :=
  match fetchDriver curStage s.drivers with
  | (0, d) => { s with drivers := d }
  | (p + 1, d) =>
    ⟨d, Function.update s.pending (p + 1) none, s.fetched ++ [(s.drivers.mem (p + 1)).stage]⟩

/-- `init_drivers` : any entries in memory, none in the list. -/
def DriverInit (s : DriverRun) : Prop :=
  s.drivers.rootEntry = 0 ∧ (∀ e, s.pending e = none) ∧ s.fetched = []

/-- An entry that is not in the list is appended, or a stage is fetched. -/
inductive DriverStep : DriverRun → DriverCall → DriverRun → Prop
  | append {s : DriverRun} {entry : ℕ} {stage : BitVec 32} {link fuel : ℕ} {d : Drivers} :
    entry ≠ 0 → s.pending entry = none →
      appendDriver fuel entry (s.drivers.filled entry stage link) = .ok d →
      DriverStep s (.append entry stage link) ⟨d, Function.update s.pending entry (some stage), []⟩
  | fetch {s : DriverRun} {curStage : BitVec 32} :
    DriverStep s (.fetch curStage) (s.fetch curStage)

/-- What a run keeps, for the entries `l` of the list. -/
structure DriverInv (s : DriverRun) (l : List ℕ) : Prop where
  holds : s.drivers.Holds l
  nodup : l.Nodup
  pending : ∀ e v, s.pending e = some v ↔ e ∈ l ∧ (s.drivers.mem e).stage = v
  sorted : l.Pairwise fun p q => (s.drivers.mem p).stage ≤ (s.drivers.mem q).stage
  behind : ∀ v ∈ s.fetched, ∀ e ∈ l, v ≤ (s.drivers.mem e).stage
  fetched : s.fetched.Pairwise (· ≤ ·)

namespace DriverInv

variable {s : DriverRun} {l : List ℕ}

/-- An entry that may be appended is none of the list. -/
theorem not_mem (h : DriverInv s l) {entry : ℕ} (hnone : s.pending entry = none) : entry ∉ l := by
  intro hmem
  rw [(h.pending entry _).mpr ⟨hmem, rfl⟩] at hnone
  cases hnone

/-- The list and its stages do not depend on an entry outside of it. -/
theorem filled (h : DriverInv s l) {entry : ℕ} (hne : entry ∉ l) (stage : BitVec 32) (link : ℕ) :
    (s.drivers.filled entry stage link).Holds l ∧
      ∀ p ∈ l, (s.drivers.filled entry stage link).mem p = s.drivers.mem p := by
  have hmem : ∀ p ∈ l, (s.drivers.filled entry stage link).mem p = s.drivers.mem p := fun p hp =>
    Function.update_of_ne (ne_of_mem_of_not_mem hp hne) _ _
  exact ⟨Linked.congr h.holds fun p hp => by rw [hmem p hp], hmem⟩

/-- One append. -/
theorem append (h : DriverInv s l) {entry : ℕ} {stage : BitVec 32} {link fuel : ℕ} {d : Drivers}
    (h0 : entry ≠ 0) (hnone : s.pending entry = none)
    (hrun : appendDriver fuel entry (s.drivers.filled entry stage link) = .ok d) :
    ∃ l', DriverInv ⟨d, Function.update s.pending entry (some stage), []⟩ l' := by
  have hne := h.not_mem hnone
  obtain ⟨hfl, hsame⟩ := h.filled hne stage link
  obtain ⟨d', hd', hl', hst⟩ := appendDriver_eq hfl h.nodup h0 hne
    (Nat.lt_of_lt_of_le (Nat.lt_succ_self _) (Nat.le_add_left (l.length + 1) fuel))
  rw [appendDriver_mono _ hrun] at hd'
  obtain rfl := Except.ok.inj hd'
  -- the stages after the append
  have hentry : (d.mem entry).stage = stage := by
    rw [hst]
    simp [Drivers.filled]
  have hold : ∀ p ∈ l, (d.mem p).stage = (s.drivers.mem p).stage := fun p hp => by
    rw [hst, hsame p hp]
  refine ⟨_, hl', ?_, fun e v => ?_, ?_, by simp, List.Pairwise.nil⟩
  · exact (List.perm_orderedInsert _ entry l).nodup_iff.mpr (List.nodup_cons.mpr ⟨hne, h.nodup⟩)
  · rw [mem_insert]
    change Function.update s.pending entry (some stage) e = some v ↔ _ ∧ (d.mem e).stage = v
    rcases eq_or_ne e entry with rfl | he
    · simp [hentry]
    · rw [Function.update_of_ne he, h.pending e v]
      constructor
      · rintro ⟨hmem, hv⟩
        exact ⟨Or.inr hmem, (hold e hmem).trans hv⟩
      · rintro ⟨hmem, hv⟩
        have hmem := hmem.resolve_left he
        exact ⟨hmem, (hold e hmem).symm.trans hv⟩
  · rw [← insert_congr entry hst]
    refine pairwise_orderedInsert (fun p => (d.mem p).stage) entry (h.sorted.imp_of_mem ?_)
    intro p q hp hq hpq
    rwa [hold p hp, hold q hq]

/-- One fetch. -/
theorem fetch (h : DriverInv s l) (curStage : BitVec 32) :
    ∃ l', DriverInv (s.fetch curStage) l' := by
  unfold DriverRun.fetch
  cases l with
  | nil =>
    have hroot : s.drivers.rootEntry = 0 := h.holds
    rw [fetchDriver, if_pos hroot]
    exact ⟨[], h⟩
  | cons p l =>
    rw [fetchDriver_cons h.holds]
    split_ifs with hlt
    · exact ⟨p :: l, h⟩
    · obtain ⟨-, h0, hrest⟩ := h.holds
      obtain ⟨q, rfl⟩ := Nat.exists_eq_succ_of_ne_zero h0
      obtain ⟨hql, hnd⟩ := List.nodup_cons.mp h.nodup
      obtain ⟨hmin, hsorted⟩ := List.pairwise_cons.mp h.sorted
      refine ⟨l, hrest, hnd, fun e v => ?_, hsorted, fun v hv e he => ?_, ?_⟩
      · change Function.update s.pending (q + 1) none e = some v ↔ _
        rcases eq_or_ne e (q + 1) with rfl | he
        · simp [hql]
        · rw [Function.update_of_ne he, h.pending e v, List.mem_cons]
          simp only [Nat.succ_eq_add_one, he, false_or]
      · rcases List.mem_append.mp hv with hv | hv
        · exact h.behind v hv e (List.mem_cons_of_mem _ he)
        · rw [List.mem_singleton.mp hv]
          exact hmin e he
      · refine List.pairwise_append.mpr ⟨h.fetched, List.pairwise_singleton _ _, ?_⟩
        intro v hv w hw
        rw [List.mem_singleton.mp hw]
        exact h.behind v hv _ List.mem_cons_self

end DriverInv

/-- The invariant holds of every run. -/
theorem DriverInv.reach {s : DriverRun} (h : Reach DriverInit DriverStep s) :
    ∃ l, DriverInv s l := by
  refine h.invariant (fun s => ∃ l, DriverInv s l) ?_ ?_
  · rintro s ⟨hroot, hnone, hf⟩
    refine ⟨[], hroot, List.nodup_nil, fun e v => by simp [hnone e], List.Pairwise.nil, ?_, ?_⟩
    · simp [hf]
    · rw [hf]
      exact List.Pairwise.nil
  · rintro s a s' ⟨l, hl⟩ hstep
    cases hstep with
    | append h0 hnone hrun => exact hl.append h0 hnone hrun
    | fetch => exact hl.fetch _

/-- What the list of drivers promises, in a state of a run. -/
structure DriverRun.Correct (s : DriverRun) : Prop where
  /-- The list is sorted and has exactly the pending entries, each once, with the stage it
  was appended with. -/
  list : ∃ l, s.drivers.Holds l ∧ l.Nodup ∧
    (∀ e v, s.pending e = some v ↔ e ∈ l ∧ (s.drivers.mem e).stage = v) ∧
    l.Pairwise fun p q => (s.drivers.mem p).stage ≤ (s.drivers.mem q).stage
  /-- A fetch that has an entry to take takes one of minimal stage out of the list. -/
  fetch_min : ∀ curStage e v, s.pending e = some v → v ≤ curStage →
    ∃ p w d, fetchDriver curStage s.drivers = (p, d) ∧ s.pending p = some w ∧ w ≤ curStage ∧
      (∀ e' v', s.pending e' = some v' → w ≤ v') ∧ d.mem = s.drivers.mem ∧
      ∀ l, s.drivers.Holds l → ∃ l', l = p :: l' ∧ d.Holds l'
  /-- Any other fetch returns NULL and changes nothing. -/
  fetch_null : ∀ curStage, (∀ e v, s.pending e = some v → curStage < v) →
    fetchDriver curStage s.drivers = (0, s.drivers)
  /-- The stages fetched since the last append do not decrease. -/
  fetched : s.fetched.Pairwise (· ≤ ·)
  /-- An append of an entry that is not in the list returns. -/
  append_returns : ∀ entry stage link, entry ≠ 0 → s.pending entry = none →
    ∃ fuel d, appendDriver fuel entry (s.drivers.filled entry stage link) = .ok d

/-- The list of drivers in every run of appends and fetches. -/
theorem driver_list_correct {s : DriverRun} (h : Reach DriverInit DriverStep s) : s.Correct := by
  obtain ⟨l, hl⟩ := DriverInv.reach h
  refine ⟨⟨l, hl.holds, hl.nodup, hl.pending, hl.sorted⟩, ?_, ?_, hl.fetched, ?_⟩
  · intro curStage e v he hv
    obtain ⟨hmem, rfl⟩ := (hl.pending e v).mp he
    cases l with
    | nil => cases hmem
    | cons p l =>
      obtain ⟨hmin, -⟩ := List.pairwise_cons.mp hl.sorted
      have hfirst : ∀ q ∈ p :: l, (s.drivers.mem p).stage ≤ (s.drivers.mem q).stage := by
        intro q hq
        rcases List.mem_cons.mp hq with rfl | hq
        · exact Std.le_refl _
        · exact hmin q hq
      have hle : (s.drivers.mem p).stage ≤ curStage := Std.le_trans (hfirst e hmem) hv
      obtain ⟨hroot, h0, hrest⟩ := hl.holds
      refine ⟨p, _, { s.drivers with rootEntry := (s.drivers.mem p).nextEntry }, ?_,
        (hl.pending p _).mpr ⟨List.mem_cons_self, rfl⟩, hle, ?_, rfl, ?_⟩
      · rw [fetchDriver_cons hl.holds, if_neg (Std.not_lt.mpr hle)]
      · intro e' v' he'
        obtain ⟨hmem', rfl⟩ := (hl.pending e' v').mp he'
        exact hfirst e' hmem'
      · intro l2 hl2
        have hl2' : Linked (fun q => (s.drivers.mem q).nextEntry) p l2 := hroot ▸ hl2
        exact hl2'.eq_cons h0
  · intro curStage hlt
    cases l with
    | nil =>
      have hroot : s.drivers.rootEntry = 0 := hl.holds
      rw [fetchDriver, if_pos hroot]
    | cons p l =>
      rw [fetchDriver_cons hl.holds, if_pos]
      exact hlt p _ ((hl.pending p _).mpr ⟨List.mem_cons_self, rfl⟩)
  · intro entry stage link h0 hnone
    have hne := hl.not_mem hnone
    obtain ⟨d, hd, -⟩ := appendDriver_eq (hl.filled hne stage link).1 hl.nodup h0 hne
      (Nat.lt_succ_self _)
    exact ⟨_, d, hd⟩

/-- Two appends, the second in front of the first, and a fetch that takes it. -/
theorem driver_list_correct_run : ∃ s : DriverRun, s.fetched = [1] ∧
    s.pending 8 = some 2 ∧ s.Correct := by
  have start : Reach DriverInit DriverStep ⟨⟨fun _ => ⟨0, 0⟩, 0⟩, fun _ => none, []⟩ :=
    .start ⟨rfl, fun _ => rfl, rfl⟩
  have first := start.next (@DriverStep.append _ 8 2 0 1 _ (by decide) rfl rfl)
  have second := first.next (@DriverStep.append _ 16 1 0 1 _ (by decide) rfl rfl)
  exact ⟨_, rfl, rfl, driver_list_correct (second.next (@DriverStep.fetch _ 5))⟩

end Toastium
