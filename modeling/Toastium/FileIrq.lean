import Toastium.FsRead

/-!
# Interrupts after a call on a file descriptor

The functions of `file_descriptor.c` disable interrupts when they start, and each is to enable
them before it returns. `file_descriptor_read` and `file_descriptor_write` have the
`irq_enable` behind a switch of which every case returns or panics, and `file_open_path` behind
the returns for a path without a file. `fdCall_enabled_iff` : which calls return with interrupts
enabled.
-/

namespace Toastium

namespace Vfs

section Release

variable (env : FsEnv)

/-- `mem_free` of an inode. -/
def cleanupFile (file : BitVec 64) (s : Vfs) : Except (Fault Panic) Vfs := do
  let s ← s.memFree env file
  return { s with inodes := Function.update s.inodes file.toNat none }

/-- `inode_dec_open_cnt`, of an inode with the given `open_refs`. -/
def inodeDecOpenCnt (openRefs : BitVec 32) (file : BitVec 64) (s : Vfs) :
    Except (Fault Panic) Vfs := do
  let i ← s.inode file.toNat
  let linkRefs := i.linkRefs - 1
  let s := s.setInode file.toNat { i with linkRefs := linkRefs }
  if linkRefs = 0 ∧ openRefs = 0 then s.cleanupFile env file else return s

/-- `release_file_descriptor`, of a descriptor with the given `virt_mapped_loc`, whose inode has
the given `open_refs`. -/
def releaseFileDescriptor (virtMappedLoc : BitVec 64) (openRefs : BitVec 32) (desc : BitVec 64)
    (s : Vfs) : Except (Fault Panic) Vfs := do
  let s := s.irqDisable
  let d ← s.desc desc.toNat
  if virtMappedLoc ≠ 0 then .error (.panic .releaseMappedFileDescriptorNotSupported)
  else do
    let s ← s.inodeDecOpenCnt env openRefs (BitVec.ofNat 64 d.file)
    let s ← s.memFree env desc
    return { s with descs := Function.update s.descs desc.toNat none }.irqEnable

end Release

/-- `file_descriptor_seek`. -/
def fileDescriptorSeek (fd seekPos : BitVec 64) (s : Vfs) : Except (Fault Panic) Vfs := do
  let s ← s.irqDisable.setSeekPos fd seekPos
  return s.irqEnable

end Vfs

/-- A call on a file descriptor. -/
inductive FdIrqCall
  | read (fd dest size : BitVec 64)
  | write (fd src size : BitVec 64)
  | openPath (proc : ℕ) (path : BitVec 64)
  | seek (fd seekPos : BitVec 64)
  | release (virtMappedLoc : BitVec 64) (openRefs : BitVec 32) (fd : BitVec 64)

/-- The state in which the call returns. -/
def FdIrqCall.run (env : FsEnv) (s : Vfs) : FdIrqCall → Except (Fault Panic) Vfs
  | .read fd dest size => (s.fileDescriptorRead env fd dest size).map Prod.snd
  | .write fd src size => (s.fileDescriptorWrite env fd src size).map Prod.snd
  | .openPath proc path => (s.fileOpenPath env proc path).map Prod.snd
  | .seek fd seekPos => s.fileDescriptorSeek fd seekPos
  | .release virtMappedLoc openRefs fd =>
    s.releaseFileDescriptor env virtMappedLoc openRefs fd

/-- The path in the array at `path` leads to an entry that is no folder and has an inode. -/
def Vfs.LeadsToFile (env : FsEnv) (s : Vfs) (proc : ℕ) (path : BitVec 64) : Prop :=
  ∃ dentry d, dentryGetPath s.dentries env.fuel (s.procs proc).workingDir
      (slice (s.bytes.cell path.toNat) 0 (s.bytes.len path.toNat)) = .ok dentry ∧
    dentry ≠ 0 ∧ s.dentries.entry dentry = .ok d ∧ d.type = .other ∧ d.inode ≠ 0

/-- The calls that enable interrupts again. -/
def FdIrqCall.Enables (env : FsEnv) (s : Vfs) : FdIrqCall → Prop
  | .read .. => False
  | .write .. => False
  | .openPath proc path => s.LeadsToFile env proc path
  | .seek .. => True
  | .release .. => True

section Sie

variable {env : FsEnv} {s s' : Vfs}

theorem Vfs.setOpenFile_sie {fd : ℕ} {f : OpenFile} (h : s.setOpenFile fd f = .ok s') :
    s'.sie = s.sie := by
  obtain ⟨d, -, h⟩ := bind_eq_ok.mp h
  obtain ⟨i, -, h⟩ := bind_eq_ok.mp h
  cases h
  rfl

/-- A read that returns does so in its switch. -/
theorem Vfs.fileDescriptorRead_sie {fd dest size r : BitVec 64}
    (h : s.fileDescriptorRead env fd dest size = .ok (r, s')) : s'.sie = false := by
  obtain ⟨f, -, h⟩ := bind_eq_ok.mp h
  obtain ⟨⟨n, f'⟩, -, h⟩ := bind_eq_ok.mp h
  obtain ⟨s₁, hset, h⟩ := bind_eq_ok.mp h
  cases h
  exact setOpenFile_sie hset

/-- A write that returns does so in its switch. -/
theorem Vfs.fileDescriptorWrite_sie {fd src size r : BitVec 64}
    (h : s.fileDescriptorWrite env fd src size = .ok (r, s')) : s'.sie = false := by
  obtain ⟨f, -, h⟩ := bind_eq_ok.mp h
  obtain ⟨bytes, -, h⟩ := bind_eq_ok.mp h
  obtain ⟨⟨n, f'⟩, -, h⟩ := bind_eq_ok.mp h
  obtain ⟨s₁, hset, h⟩ := bind_eq_ok.mp h
  cases h
  exact setOpenFile_sie hset

/-- A path is opened up to its end, or given up before. -/
theorem Vfs.fileOpenPath_sie {proc : ℕ} {path r : BitVec 64}
    (h : s.fileOpenPath env proc path = .ok (r, s')) :
    s'.sie = true ↔ s.LeadsToFile env proc path := by
  obtain ⟨dentry, hpath, h⟩ := bind_eq_ok.mp h
  have hno : (dentry = 0 ∨
      ∃ d, s.dentries.entry dentry = .ok d ∧ (d.type ≠ .other ∨ d.inode = 0)) →
      ¬s.LeadsToFile env proc path := by
    rintro hstop ⟨dentry', d, hpath', h0, hd, htype, hinode⟩
    obtain rfl : dentry = dentry' := Except.ok.inj (hpath.symm.trans hpath')
    rcases hstop with rfl | ⟨d', hd', hstop⟩
    · exact h0 rfl
    · obtain rfl : d' = d := Except.ok.inj (hd'.symm.trans hd)
      exact hstop.elim (fun hne => hne htype) hinode
  split_ifs at h with h0
  · cases h
    exact iff_of_false Bool.false_ne_true (hno (Or.inl h0))
  obtain ⟨d, hd, h⟩ := bind_eq_ok.mp h
  split_ifs at h with htype hinode
  · cases h
    exact iff_of_false Bool.false_ne_true (hno (Or.inr ⟨d, hd, Or.inl htype⟩))
  · cases h
    exact iff_of_false Bool.false_ne_true (hno (Or.inr ⟨d, hd, Or.inr hinode⟩))
  · obtain ⟨⟨desc, s₁⟩, -, h⟩ := bind_eq_ok.mp h
    cases h
    exact iff_of_true rfl ⟨dentry, d, hpath, h0, hd, not_not.mp htype, hinode⟩

theorem Vfs.fileDescriptorSeek_sie {fd seekPos : BitVec 64}
    (h : s.fileDescriptorSeek fd seekPos = .ok s') : s'.sie = true := by
  obtain ⟨s₁, -, h⟩ := bind_eq_ok.mp h
  cases h
  rfl

theorem Vfs.releaseFileDescriptor_sie {virtMappedLoc desc : BitVec 64} {openRefs : BitVec 32}
    (h : s.releaseFileDescriptor env virtMappedLoc openRefs desc = .ok s') : s'.sie = true := by
  obtain ⟨d, -, h⟩ := bind_eq_ok.mp h
  split_ifs at h
  obtain ⟨s₁, -, h⟩ := bind_eq_ok.mp h
  obtain ⟨s₂, -, h⟩ := bind_eq_ok.mp h
  cases h
  rfl

theorem exists_of_map_snd {α : Type} {x : Except (Fault Panic) (α × Vfs)}
    (h : x.map Prod.snd = .ok s') : ∃ r, x = .ok (r, s') := by
  cases x with
  | error e => cases h
  | ok r =>
    cases h
    exact ⟨r.1, rfl⟩

/-- A call that returns has enabled interrupts again if and only if it is a seek, a release, or
opens a path that leads to a file. -/
theorem fdCall_enabled_iff {c : FdIrqCall} (h : c.run env s = .ok s') :
    s'.sie = true ↔ c.Enables env s := by
  cases c with
  | read fd dest size =>
    obtain ⟨r, h⟩ := exists_of_map_snd h
    rw [Vfs.fileDescriptorRead_sie h]
    exact iff_of_false Bool.false_ne_true id
  | write fd src size =>
    obtain ⟨r, h⟩ := exists_of_map_snd h
    rw [Vfs.fileDescriptorWrite_sie h]
    exact iff_of_false Bool.false_ne_true id
  | openPath proc path =>
    obtain ⟨r, h⟩ := exists_of_map_snd h
    exact Vfs.fileOpenPath_sie h
  | seek fd seekPos => exact iff_of_true (Vfs.fileDescriptorSeek_sie h) trivial
  | release virtMappedLoc openRefs fd =>
    exact iff_of_true (Vfs.releaseFileDescriptor_sie h) trivial

/-- A seek of the open file. -/
theorem fdCall_enabled_seek :
    ∃ s', (FdIrqCall.seek 0x5000 7).run bumpEnv (oneFileVfs 100) = .ok s' ∧
      (s'.sie = true ↔ (FdIrqCall.seek 0x5000 7).Enables bumpEnv (oneFileVfs 100)) :=
  ⟨_, rfl, fdCall_enabled_iff rfl⟩

/-- A read of no bytes returns, with interrupts disabled. -/
theorem fdCall_disabled : (oneFileVfs 100).sie = true ∧
    ∃ s', (FdIrqCall.read 0x5000 0x2000 0).run bumpEnv (oneFileVfs 100) = .ok s' ∧
      s'.sie = false :=
  ⟨rfl, _, rfl, rfl⟩

end Sie

end Toastium
