import Toastium.FsRead

/-!
# The page of `syscall_fs_read` and `syscall_fs_write`

Both calls copy through one page. `size` is signed, and what is left of it after the pieces of
4096 bytes is converted to an unsigned length, which is enormous for a `size` between -4096
and 0.

`bouncePage_within_iff` : the calls access nothing beyond the 4096 bytes of the page, except
where such a size is read from a file with more than 4096 bytes left. A write with such a size is
stopped by the check of `kernel_read_user`, as its range wraps around, and the other negative
sizes by the end of the file, which comes before all pieces are read.
-/

namespace Toastium

/-- A read with a size between -4096 and 0, of a file that has more than 4096 bytes left, with
their pages. -/
def ReadsPast (env : FsEnv) (trap : TrapData) (s : Vfs) : Prop :=
  ∃ fd f p, fdGetLocal s.tables (s.procs trap.processPtr).fileDescPg trap.arg1Reg.toNat = .ok fd ∧
    fd ≠ 0 ∧ s.openFile fd.toNat = .ok f ∧ f.type = .file ∧
    (env.alloc false).bytePages.next s.bytes = some p ∧
    -4096 < trap.arg3Reg.toInt ∧ trap.arg3Reg.toInt < 0 ∧ f.seekPos + 4096 < f.size ∧
    ∀ j ≤ 4096, Readable (withPage f p) (f.seekPos + j)

/-! ## Sizes -/

section Sizes

variable {size : BitVec 64}

theorem msb_eq_true (h : size.toInt < 0) : size.msb = true := by
  rw [BitVec.msb_eq_toInt, decide_eq_true h]

theorem toInt_eq_sub (h : size.toInt < 0) : size.toInt = (size.toNat : ℤ) - 2 ^ 64 := by
  rw [BitVec.toInt_eq_msb_cond, if_pos (msb_eq_true h)]
  rfl

theorem toNat_neg_size (h : size.toInt < 0) : ((-size).toNat : ℤ) = -size.toInt := by
  have heq := toInt_eq_sub h
  have := size.isLt
  have hmin := BitVec.le_toInt (x := size)
  rw [BitVec.toNat_neg]
  omega

/-- A small negative size has no pieces, and all of it is left. -/
theorem sdiv_small (h : size.toInt < 0) (hlt : -4096 < size.toInt) :
    (size.sdiv 4096).toNat = 0 ∧ size.srem 4096 = size := by
  have hneg := toNat_neg_size h
  have h4096 : (4096 : BitVec 64).msb = false := by decide
  have hsmall : (-size).toNat < (4096 : BitVec 64).toNat := by
    rw [toNat_piece]
    omega
  have hdiv : (-size).udiv 4096 = 0 := BitVec.eq_of_toNat_eq (by
    change (-size).toNat / (4096 : BitVec 64).toNat = 0
    exact Nat.div_eq_of_lt hsmall)
  have hmod : -size % 4096 = -size := BitVec.eq_of_toNat_eq (by
    change (-size).toNat % (4096 : BitVec 64).toNat = _
    exact Nat.mod_eq_of_lt hsmall)
  constructor
  · rw [BitVec.sdiv_eq, msb_eq_true h, h4096]
    simp only
    rw [hdiv]
    rfl
  · rw [BitVec.srem_eq, msb_eq_true h, h4096]
    simp only
    rw [hmod, BitVec.neg_neg]

/-- The other negative sizes have more pieces than a file can. -/
theorem sdiv_large (hle : size.toInt ≤ -4096) : 2 ^ 52 < (size.sdiv 4096).toNat := by
  have h : size.toInt < 0 := by omega
  have hneg := toNat_neg_size h
  have h4096 : (4096 : BitVec 64).msb = false := by decide
  have hdiv : ((-size).udiv 4096).toNat = (-size).toNat / 4096 := rfl
  have hmin := BitVec.le_toInt (x := size)
  rw [BitVec.sdiv_eq, msb_eq_true h, h4096]
  simp only
  rw [BitVec.toNat_neg, hdiv]
  omega

theorem toNat_small (h : size.toInt < 0) (hlt : -4096 < size.toInt) :
    2 ^ 64 - 4096 < size.toNat := by
  have heq := toInt_eq_sub h
  omega

/-- What is left of a size is less than a page, or an address of the kernel. -/
theorem srem_cases (size : BitVec 64) :
    (size.srem 4096).toNat ≤ 4096 ∨ kernelVmaStart ≤ (size.srem 4096).toNat := by
  rcases lt_or_ge size.toInt 0 with h | h
  · have h4096 : (4096 : BitVec 64).msb = false := by decide
    have hmod : (-size % 4096).toNat = (-size).toNat % 4096 := rfl
    rw [BitVec.srem_eq, msb_eq_true h, h4096]
    simp only
    rw [BitVec.toNat_neg, hmod, kernelVmaStart]
    omega
  · rw [srem_piece h]
    omega

end Sizes

/-! ## Reads -/

namespace Vfs

variable {env : FsEnv} {fd page : BitVec 64} {s : Vfs}

theorem inode_within (s : Vfs) (file : ℕ) : ErrorWithin 4096 (s.inode file) := fun e he => by
  unfold inode at he
  split at he
  · cases he
  · cases he
    exact Nat.succ_pos _

theorem desc_within (s : Vfs) (fd : ℕ) : ErrorWithin 4096 (s.desc fd) := fun e he => by
  unfold desc at he
  split at he
  · cases he
  · cases he
    exact Nat.succ_pos _

theorem openFile_within (s : Vfs) (fd : ℕ) : ErrorWithin 4096 (s.openFile fd) :=
  (desc_within s fd).bind fun d _ => (inode_within s d.file).bind fun _ _ => ErrorWithin.ok _

theorem setOpenFile_within (s : Vfs) (fd : ℕ) (f : OpenFile) :
    ErrorWithin 4096 (s.setOpenFile fd f) :=
  (desc_within s fd).bind fun d _ => (inode_within s d.file).bind fun _ _ => ErrorWithin.ok _

/-- How a `file_descriptor_read` to a page ends. -/
theorem fileDescriptorRead_page (env : FsEnv) (fd : BitVec 64)
    (hlen : s.bytes.len page.toNat = 4096) (n : BitVec 64) :
    (∃ e, s.fileDescriptorRead env fd page n = .error e ∧ e.Within 4096) ∨
    (∃ f cnt s', s.openFile fd.toNat = .ok f ∧ cnt = min n.toNat (f.size - f.seekPos) ∧
      cnt ≤ 4096 ∧ s.fileDescriptorRead env fd page n = .ok (BitVec.ofNat 64 cnt, s') ∧
      s'.openFile fd.toNat = .ok { f with seekPos := f.seekPos + cnt, pages := s'.bytes } ∧
      s'.bytes.objs = s.bytes.objs) ∨
    ∃ f, s.openFile fd.toNat = .ok f ∧ f.type = .file ∧
      4096 < min n.toNat (f.size - f.seekPos) ∧ (∀ j ≤ 4096, Readable f (f.seekPos + j)) ∧
      s.fileDescriptorRead env fd page n = .error (.wild page.toNat 4096) := by
  cases hopen : s.openFile fd.toNat with
  | error e =>
    refine Or.inl ⟨e, ?_, openFile_within s _ e hopen⟩
    change (s.openFile fd.toNat >>= fun f => _) = _
    rw [hopen, error_bind]
  | ok f =>
    rw [fileDescriptorRead_eq hopen]
    by_cases htype : f.type = .file
    · obtain ⟨d, i, -, -, hf⟩ := openFile_cases hopen
      have hsize : f.size < 2 ^ 64 := by
        rw [hf]
        exact i.size.isLt
      have hseek : f.seekPos < 2 ^ 64 := by
        rw [hf]
        exact d.seekPos.isLt
      have hlen' : f.pages.len page.toNat = 4096 := by
        rw [hf]
        exact hlen
      obtain ⟨h', hrun, hobjs, hroom, -⟩ | ⟨hlt, hread, hrun⟩ | ⟨j, -, -, -, e, hrun, hw⟩ :=
        @fileDescriptorRead_cases (env.alloc false).nodes (env.alloc false).bytePages f
          page.toNat htype hsize hlen' n.toNat
      · right
        left
        obtain ⟨s', hset, hopen', hbytes, -⟩ := setOpenFile_eq (s := s.irqDisable) hopen
          { f with pages := h', seekPos := f.seekPos + min n.toNat (f.size - f.seekPos) } rfl rfl
          hsize (by change f.seekPos + min n.toNat (f.size - f.seekPos) < 2 ^ 64; omega)
        refine ⟨f, _, s', rfl, rfl, hroom, ?_, ?_, ?_⟩
        · rw [hrun, ok_bind, hset, ok_bind]
        · rw [hopen', hbytes]
        · rw [hbytes, hobjs, hf]
      · exact Or.inr (Or.inr ⟨f, rfl, htype, hlt, hread, by rw [hrun, error_bind]⟩)
      · exact Or.inl ⟨e, by rw [hrun, error_bind], hw⟩
    · left
      unfold Toastium.fileDescriptorRead
      cases hty : f.type with
      | file => exact absurd hty htype
      | socket => exact ⟨_, rfl, trivial⟩
      | pipe => exact ⟨_, rfl, trivial⟩
      | folder => exact ⟨_, rfl, trivial⟩

/-- A `file_descriptor_read` that goes past the page. -/
theorem fileDescriptorRead_past (env : FsEnv) {f : OpenFile} {n : BitVec 64}
    (hlen : s.bytes.len page.toNat = 4096) (hopen : s.openFile fd.toNat = .ok f)
    (htype : f.type = .file) (hlt : 4096 < min n.toNat (f.size - f.seekPos))
    (hread : ∀ j ≤ 4096, Readable f (f.seekPos + j)) :
    s.fileDescriptorRead env fd page n = .error (.wild page.toNat 4096) := by
  obtain ⟨d, i, -, -, hf⟩ := openFile_cases hopen
  have hsize : f.size < 2 ^ 64 := by
    rw [hf]
    exact i.size.isLt
  have hlen' : f.pages.len page.toNat = 4096 := by
    rw [hf]
    exact hlen
  rw [fileDescriptorRead_eq hopen]
  obtain ⟨h', -, -, hroom, -⟩ | ⟨-, -, hrun⟩ | ⟨j, -, hj, hnot, -⟩ :=
    @fileDescriptorRead_cases (env.alloc false).nodes (env.alloc false).bytePages f
      page.toNat htype hsize hlen' n.toNat
  · exact absurd hlt (Nat.not_lt.mpr hroom)
  · rw [hrun, error_bind]
  · exact absurd (hread j hj) hnot

/-- `kernel_write_user` of at most a page. -/
theorem kernelWriteUser_within {dest size src : BitVec 64} (hsize : size.toNat ≤ 4096) :
    ErrorWithin 4096 (s.kernelWriteUser dest size src) := by
  unfold kernelWriteUser
  split_ifs
  · exact ErrorWithin.ok _
  · exact (copyToUser_within _ _ _ (by omega)).bind fun _ _ => ErrorWithin.ok _

theorem kernelWriteUser_bytes {dest size src : BitVec 64} {done : Bool} {s' : Vfs}
    (h : s.kernelWriteUser dest size src = .ok (done, s')) :
    s'.bytes = s.bytes ∧ ∀ fd, s'.openFile fd = s.openFile fd := by
  unfold kernelWriteUser at h
  split_ifs at h
  · cases h
    exact ⟨rfl, fun _ => rfl⟩
  · obtain ⟨⟨b, user⟩, -, h⟩ := bind_eq_ok.mp h
    cases h
    exact ⟨rfl, fun _ => rfl⟩

end Vfs

section Reads

variable {env : FsEnv} {fd page : BitVec 64}

/-- How the loop over whole pieces ends. It runs to its end only if there are bytes for all
pieces. -/
theorem readPages_cases (env : FsEnv) (fd page : BitVec 64) (proc n : ℕ) :
    ∀ (curAddr readSize : BitVec 64) {s : Vfs}, s.bytes.len page.toNat = 4096 →
      (∃ e, readPages (fsServices env) fd page proc n curAddr readSize s = .error e ∧
        e.Within 4096) ∨
      ∃ whole addr cnt s', readPages (fsServices env) fd page proc n curAddr readSize s =
          .ok (whole, addr, cnt, s') ∧ s'.bytes.objs = s.bytes.objs ∧
        (whole = true → n = 0 ∧ s' = s ∨
          ∃ f, s.openFile fd.toNat = .ok f ∧ f.seekPos + 4096 * n ≤ f.size) := by
  induction n with
  | zero =>
    intro curAddr readSize s _
    exact Or.inr ⟨true, curAddr, readSize, s, rfl, rfl, fun _ => Or.inl ⟨rfl, rfl⟩⟩
  | succ n ih =>
    intro curAddr readSize s hlen
    rw [readPages]
    change (∃ e, (s.fileDescriptorRead env fd page 4096 >>= _) = _ ∧ _) ∨
      ∃ whole addr cnt s', (s.fileDescriptorRead env fd page 4096 >>= _) = _ ∧ _
    obtain ⟨e, hrun, hw⟩ | ⟨f, cnt, s₁, hopen, hcnt, hle, hrun, hopen₁, hobjs₁⟩ |
        ⟨f, -, -, hlt, -⟩ :=
      Vfs.fileDescriptorRead_page env fd hlen 4096
    · exact Or.inl ⟨e, by rw [hrun, error_bind], hw⟩
    · rw [hrun, ok_bind]
      have htoNat : (BitVec.ofNat 64 cnt).toNat = cnt := Nat.mod_eq_of_lt (by omega)
      rw [toNat_piece] at hcnt
      by_cases hshort : cnt < 4096
      · right
        refine ⟨false, curAddr, readSize + BitVec.ofNat 64 cnt, s₁, ?_, hobjs₁,
          fun h => absurd h Bool.false_ne_true⟩
        simp only [htoNat, hshort, if_true, pure_eq_ok]
      · have hleft : f.seekPos + 4096 ≤ f.size := by omega
        obtain rfl : cnt = 4096 := by omega
        simp only [htoNat, hshort, if_false]
        change (∃ e, (s₁.kernelWriteUser curAddr 4096 page >>= _) = _ ∧ _) ∨
          ∃ whole addr cnt s', (s₁.kernelWriteUser curAddr 4096 page >>= _) = _ ∧ _
        cases hwrite : s₁.kernelWriteUser curAddr 4096 page with
        | error e =>
          exact Or.inl ⟨e, rfl, Vfs.kernelWriteUser_within toNat_piece.le e hwrite⟩
        | ok r =>
          obtain ⟨done, s₂⟩ := r
          obtain ⟨hbytes, hopen₂⟩ := Vfs.kernelWriteUser_bytes hwrite
          rw [ok_bind]
          obtain ⟨e, hrest, hw⟩ | ⟨whole, addr, rest, s', hrest, hobjs, hend⟩ :=
            ih (curAddr + 4096) (readSize + BitVec.ofNat 64 4096) (s := s₂)
              (by rw [hbytes, len_of_objs hobjs₁, hlen])
          · exact Or.inl ⟨e, hrest, hw⟩
          · refine Or.inr ⟨whole, addr, rest, s', hrest, ?_, fun hwhole => Or.inr ⟨f, hopen, ?_⟩⟩
            · rw [hobjs, hbytes, hobjs₁]
            · rcases hend hwhole with ⟨rfl, -⟩ | ⟨f', hopen', hle'⟩
              · exact hleft
              · rw [hopen₂, hopen₁] at hopen'
                cases hopen'
                rw [Nat.mul_succ, Nat.add_comm (4096 * n), ← Nat.add_assoc]
                exact hle'
    · exact absurd (hlt.trans_le (Nat.min_le_left _ _)) (lt_irrefl _)

/-- A rest of at most a page. -/
theorem readRest_within {size curAddr readSize : BitVec 64} {s : Vfs}
    (hlen : s.bytes.len page.toNat = 4096) (hsize : (size.srem 4096).toNat ≤ 4096) :
    ErrorWithin 4096 (readRest env fd page size curAddr readSize s) := by
  unfold readRest
  split_ifs
  · exact ErrorWithin.ok _
  · obtain ⟨e, hrun, hw⟩ | ⟨f, cnt, s₁, -, -, hle, hrun, -⟩ | ⟨f, -, -, hlt, -⟩ :=
      Vfs.fileDescriptorRead_page env fd hlen (size.srem 4096)
    · rw [hrun, error_bind]
      intro e' he'
      cases he'
      exact hw
    · rw [hrun, ok_bind]
      have htoNat : (BitVec.ofNat 64 cnt).toNat = cnt := Nat.mod_eq_of_lt (by omega)
      exact (Vfs.kernelWriteUser_within (by rw [htoNat]; exact hle)).bind
        fun _ _ => ErrorWithin.ok _
    · have := hlt.trans_le (Nat.min_le_left _ _)
      omega

/-- `fd_get_local` reads words of pages. -/
theorem fdGetLocal_within (h : Heap (BitVec 64)) (fileDescPg localId : ℕ) :
    ErrorWithin 4096 (fdGetLocal h fileDescPg localId) := by
  have hwalk : ∀ n p, ErrorWithin 4096 (walk h n p : Except (Fault Panic) _) := by
    intro n
    induction n with
    | zero => exact fun p => ErrorWithin.ok _
    | succ n ih =>
      intro p
      refine (ErrorWithin.load h p (by decide)).bind fun q _ => ?_
      split_ifs
      · exact ErrorWithin.ok _
      · exact ih _
  refine (hwalk _ _).bind fun r _ => ?_
  cases r with
  | none => exact ErrorWithin.ok _
  | some curPage => exact ErrorWithin.load h curPage (by unfold fdPageCnt; omega)

theorem pgAlloc_within (env : FsEnv) (s : Vfs) : ErrorWithin 4096 (s.pgAlloc env) :=
  (ErrorWithin.alloc _ _ _).bind fun _ _ => ErrorWithin.ok _

theorem pgFree_within (hfree : ∀ p h, ErrorWithin 4096 ((env.alloc false).pgFree p h)) (s : Vfs) :
    ErrorWithin 4096 (s.irqDisable.pgFree env page) :=
  (hfree _ _).bind fun _ _ => ErrorWithin.ok _

/-- The file after `pg_alloc`. -/
theorem openFile_withPage {s : Vfs} {f : OpenFile} (hopen : s.openFile fd.toNat = .ok f) (p : ℕ) :
    (Vfs.irqEnable { s.irqDisable with bytes := s.bytes.push p 4096 }).openFile fd.toNat =
      .ok (withPage f p) := by
  obtain ⟨d, i, hd, hi, rfl⟩ := Vfs.openFile_cases hopen
  change (s.desc fd.toNat >>= fun d => _) = _
  rw [hd, ok_bind]
  change (s.inode d.file >>= fun i => _) = _
  rw [hi, ok_bind]
  rfl

theorem openFile_of_withPage {s : Vfs} {f : OpenFile} {p : ℕ}
    (hopen : (Vfs.irqEnable { s.irqDisable with bytes := s.bytes.push p 4096 }).openFile fd.toNat =
      .ok f) : ∃ f₀, s.openFile fd.toNat = .ok f₀ ∧ f = withPage f₀ p := by
  cases hs : s.openFile fd.toNat with
  | ok f₀ =>
    rw [openFile_withPage hs] at hopen
    cases hopen
    exact ⟨f₀, rfl, rfl⟩
  | error e =>
    obtain ⟨d, i, hd, hi, -⟩ := Vfs.openFile_cases hopen
    have hd' : s.desc fd.toNat = .ok d := hd
    have hi' : s.inode d.file = .ok i := hi
    rw [Vfs.openFile, hd', ok_bind, hi', ok_bind] at hs
    cases hs

/-- What is left of a size that is no small negative one is less than a page, if all its pieces
are there. -/
theorem srem_le {size : BitVec 64} (hsize : ¬(-4096 < size.toInt ∧ size.toInt < 0))
    (hpieces : (size.sdiv 4096).toNat < 2 ^ 52) : (size.srem 4096).toNat ≤ 4096 := by
  have hpos : 0 ≤ size.toInt := by
    by_contra hneg
    have hlarge : 2 ^ 52 < (size.sdiv 4096).toNat := sdiv_large (by omega)
    omega
  rw [srem_piece hpos]
  omega

/-- The call after `pg_alloc`, where it does not read past the page. -/
theorem syscallFsRead_of_page_within
    (hfree : ∀ p h, ErrorWithin 4096 ((env.alloc false).pgFree p h)) {trap : TrapData} {s : Vfs}
    {p : ℕ} (hp : (env.alloc false).bytePages.next s.bytes = some p)
    (hfd : fdGetLocal s.tables (s.procs trap.processPtr).fileDescPg trap.arg1Reg.toNat = .ok fd)
    (hne : fd ≠ 0) (hpast : ¬ReadsPast env trap s) :
    ErrorWithin 4096 (syscallFsRead (fsServices env) trap s) := by
  have hlt := (env.alloc false).bytePages.lt hp
  have htoNat : (BitVec.ofNat 64 p).toNat = p := Nat.mod_eq_of_lt (by omega)
  have hlen : (s.bytes.push p 4096).len (BitVec.ofNat 64 p).toNat = 4096 := by
    rw [htoNat]
    exact Heap.len_push_self _ _ _
  rw [syscallFsRead_of_page hfd hne hp]
  obtain ⟨e, hloop, hw⟩ | ⟨whole, addr, cnt, s', hloop, hobjs, hend⟩ :=
    readPages_cases env fd (BitVec.ofNat 64 p) trap.processPtr (trap.arg3Reg.sdiv 4096).toNat
      trap.arg2Reg 0#64 (s := Vfs.irqEnable { s.irqDisable with bytes := s.bytes.push p 4096 }) hlen
  · rw [hloop, error_bind]
    intro e' he'
    cases he'
    exact hw
  · rw [hloop, ok_bind]
    refine ErrorWithin.bind ?_ fun r _ =>
      (pgFree_within hfree r.2).bind fun _ _ => ErrorWithin.ok _
    cases whole with
    | false => exact ErrorWithin.ok _
    | true =>
      have hlen' : s'.bytes.len (BitVec.ofNat 64 p).toNat = 4096 := (len_of_objs hobjs _).trans hlen
      change ErrorWithin 4096 (readRest env fd (BitVec.ofNat 64 p) trap.arg3Reg addr cnt s')
      by_cases hsmall : -4096 < trap.arg3Reg.toInt ∧ trap.arg3Reg.toInt < 0
      · obtain ⟨hzero, hrem⟩ := sdiv_small hsmall.2 hsmall.1
        rw [hzero] at hloop
        cases hloop
        rw [readRest, hrem]
        split_ifs
        · exact ErrorWithin.ok _
        obtain ⟨e, hrun, hw⟩ | ⟨f, cnt, s₁, -, -, hle, hrun, -⟩ |
            ⟨f, hopen, htype, hleft, hread, -⟩ :=
          Vfs.fileDescriptorRead_page env fd hlen' trap.arg3Reg
        · rw [hrun, error_bind]
          intro e' he'
          cases he'
          exact hw
        · rw [hrun, ok_bind]
          have hcnt : (BitVec.ofNat 64 cnt).toNat = cnt := Nat.mod_eq_of_lt (by omega)
          exact (Vfs.kernelWriteUser_within (by rw [hcnt]; exact hle)).bind
            fun _ _ => ErrorWithin.ok _
        · obtain ⟨f₀, hopen₀, rfl⟩ := openFile_of_withPage hopen
          have hleft' : 4096 < f₀.size - f₀.seekPos := hleft.trans_le (Nat.min_le_right _ _)
          exact absurd ⟨fd, f₀, p, hfd, hne, hopen₀, htype, hp, hsmall.1, hsmall.2, by omega, hread⟩
            hpast
      · refine readRest_within hlen' (srem_le hsmall ?_)
        rcases hend rfl with ⟨hzero, -⟩ | ⟨f, hopen, hle⟩
        · omega
        · obtain ⟨d, i, -, -, hf⟩ := Vfs.openFile_cases hopen
          have hsize : f.size < 2 ^ 64 := by
            rw [hf]
            exact i.size.isLt
          omega

/-- The read accesses nothing beyond the page exactly if the size is no small negative one, or
the file ends before. -/
theorem syscallFsRead_within_iff
    (hfree : ∀ p h, ErrorWithin 4096 ((env.alloc false).pgFree p h)) (trap : TrapData) (s : Vfs) :
    ErrorWithin 4096 (syscallFsRead (fsServices env) trap s) ↔ ¬ReadsPast env trap s := by
  constructor
  · rintro hw ⟨fd, f, p, hfd, hne, hopen, htype, hp, hlo, hneg, hleft, hread⟩
    have hlt := (env.alloc false).bytePages.lt hp
    have htoNat : (BitVec.ofNat 64 p).toNat = p := Nat.mod_eq_of_lt (by omega)
    obtain ⟨hzero, hrem⟩ := sdiv_small hneg hlo
    have hsize := toNat_small hneg hlo
    have hne' : trap.arg3Reg ≠ 0 := fun e => by
      rw [e] at hneg
      exact absurd hneg (by decide)
    have hlen : (s.bytes.push p 4096).len (BitVec.ofNat 64 p).toNat = 4096 := by
      rw [htoNat]
      exact Heap.len_push_self _ _ _
    have hmin : 4096 < min trap.arg3Reg.toNat (f.size - f.seekPos) :=
      lt_min (by omega) (Nat.lt_sub_of_add_lt (by rw [Nat.add_comm]; exact hleft))
    have hrun := Vfs.fileDescriptorRead_past env
      (s := Vfs.irqEnable { s.irqDisable with bytes := s.bytes.push p 4096 })
      hlen (openFile_withPage hopen p) htype hmin hread
    rw [syscallFsRead_of_page hfd hne hp, hzero, readPages, ok_bind] at hw
    change ErrorWithin 4096 (readRest env fd (BitVec.ofNat 64 p) trap.arg3Reg _ _ _ >>= _) at hw
    rw [readRest, hrem, if_neg hne', hrun, error_bind] at hw
    exact absurd (hw _ rfl) (lt_irrefl 4096)
  · intro hpast
    have hget := fdGetLocal_within s.tables (s.procs trap.processPtr).fileDescPg
      trap.arg1Reg.toNat
    cases hfd : fdGetLocal s.tables (s.procs trap.processPtr).fileDescPg trap.arg1Reg.toNat with
    | error e =>
      intro e' he'
      change (fdGetLocal _ _ _ >>= _) = _ at he'
      rw [hfd, error_bind] at he'
      cases he'
      exact hget e hfd
    | ok fd =>
      by_cases hne : fd = 0
      · intro e' he'
        change (fdGetLocal _ _ _ >>= _) = _ at he'
        rw [hfd, ok_bind, if_pos hne] at he'
        cases he'
      · cases hp : (env.alloc false).bytePages.next s.bytes with
        | none =>
          intro e' he'
          change (fdGetLocal _ _ _ >>= _) = _ at he'
          rw [hfd, ok_bind, if_neg hne] at he'
          have halloc : (fsServices env).pgAlloc ((fsServices env).irqDisable s) = _ :=
            pgAlloc_eq_panic (s := s.irqDisable) hp
          rw [halloc, error_bind] at he'
          cases he'
          trivial
        | some p => exact syscallFsRead_of_page_within hfree hp hfd hne hpast

end Reads

/-! ## Writes -/

section Writes

theorem radixInsert_within (nodeSrc : NodeSource inodeFileRadixLevelDepth) (h : Heap (BitVec 64))
    (addr key childAddr depth : ℕ) :
    ErrorWithin 4096 (radixInsert nodeSrc h addr key childAddr depth) := by
  have hidx : ∀ height, radixIdx key height inodeFileRadixLevelDepth < 4096 := fun height =>
    (Nat.mod_lt _ (by decide)).trans (by decide)
  have hdescend : ∀ height addr h, ErrorWithin 4096 (radixDescend nodeSrc key height addr h) := by
    intro height
    induction height with
    | zero => exact fun _ _ => ErrorWithin.ok _
    | succ height ih =>
      intro addr h
      refine (ErrorWithin.load h addr (hidx _)).bind fun next _ => ?_
      split_ifs
      · refine (ErrorWithin.alloc _ _ _).bind fun r _ => ?_
        exact (ErrorWithin.store _ addr _ (hidx _)).bind fun h' _ =>
          (ErrorWithin.load h' addr (hidx _)).bind fun next _ => ih _ _
      · exact (ErrorWithin.load h addr (hidx _)).bind fun next _ => ih _ _
  unfold radixInsert
  split_ifs
  · exact ErrorWithin.panic _
  · refine (hdescend _ _ _).bind fun r _ => ?_
    exact (ErrorWithin.load _ _ (hidx 0)).bind fun old _ =>
      (ErrorWithin.store _ _ _ (hidx 0)).bind fun h' _ => ErrorWithin.ok _

variable {nodeSrc : NodeSource inodeFileRadixLevelDepth} {pageSrc : BytePageSource}

theorem findPageStart_within (f : OpenFile) (offset : ℕ) :
    ErrorWithin 4096 (findPageStart nodeSrc pageSrc f offset) := by
  refine (radixGet_within _ _ _ _).bind fun p _ => ?_
  split_ifs
  · exact ErrorWithin.ok _
  · exact (ErrorWithin.alloc _ _ _).bind fun r _ =>
      (radixInsert_within _ _ _ _ _ _).bind fun _ _ => ErrorWithin.ok _
  · exact ErrorWithin.panic _

theorem writePage_within (page : ℕ) : ∀ (bs : List (BitVec 8)) (offset : ℕ) (h : Heap (BitVec 8)),
    ErrorWithin 4096 (writePage page bs offset h)
  | [], _, _ => ErrorWithin.ok _
  | b :: bs, offset, h => (ErrorWithin.store h page b (Nat.mod_lt _ (by decide))).bind
      fun h' _ => writePage_within page bs _ h'

theorem writeFrom_within (src : List (BitVec 8)) (offset : ℕ) (f : OpenFile) :
    ErrorWithin 4096 (writeFrom nodeSrc pageSrc src offset f) := by
  rw [writeFrom]
  by_cases hpos : 0 < src.length
  · have hn := pageEnd_pos hpos offset
    rw [dif_pos hpos]
    refine (findPageStart_within f offset).bind fun r _ => ?_
    exact (writePage_within _ _ _ _).bind fun pages _ =>
      writeFrom_within (src.drop (pageEnd src.length offset)) _ _
  · rw [dif_neg hpos]
    exact ErrorWithin.ok _
termination_by src.length
decreasing_by
  rw [List.length_drop]
  omega

/-- A write to a file. -/
theorem fileDescriptorWrite_within (f : OpenFile) (src : List (BitVec 8)) :
    ErrorWithin 4096 (fileDescriptorWrite nodeSrc pageSrc f src) := by
  unfold fileDescriptorWrite
  cases f.type with
  | file => exact (writeFrom_within _ _ _).bind fun _ _ => ErrorWithin.ok _
  | socket => exact ErrorWithin.panic _
  | pipe => exact ErrorWithin.panic _
  | folder => exact ErrorWithin.panic _

namespace Vfs

theorem loadBytes_within (h : Heap (BitVec 8)) (p : ℕ) : ∀ (n i : ℕ), i + n ≤ 4096 →
    ErrorWithin 4096 (loadBytes h p n i)
  | 0, _, _ => ErrorWithin.ok _
  | n + 1, i, hle => (ErrorWithin.load h p (by omega)).bind fun _ _ =>
      (loadBytes_within h p n (i + 1) (by omega)).bind fun _ _ => ErrorWithin.ok _

/-- `file_descriptor_write` of at most a page. -/
theorem fileDescriptorWrite_page (env : FsEnv) (s : Vfs) (fd src : BitVec 64) {n : BitVec 64}
    (hn : n.toNat ≤ 4096) : ErrorWithin 4096 (s.fileDescriptorWrite env fd src n) := by
  refine (openFile_within _ _).bind fun f _ => ?_
  refine (loadBytes_within _ _ _ _ (by omega)).bind fun bytes _ => ?_
  refine (fileDescriptorWrite_within f bytes).bind fun r _ => ?_
  exact (setOpenFile_within _ _ _).bind fun _ _ => ErrorWithin.ok _

/-- `kernel_read_user` of at most a page. -/
theorem kernelReadUser_within (env : FsEnv) (s : Vfs) {src size dest : BitVec 64}
    (hsize : readUserRefused src size ∨ size.toNat ≤ 4096) :
    ErrorWithin 4096 (s.kernelReadUser env src size dest) := by
  unfold kernelReadUser
  split_ifs with hrefused
  · exact ErrorWithin.ok _
  · exact (copyFromUser_within _ _ _ _ (by have := hsize.resolve_left hrefused; omega)).bind
      fun _ _ => ErrorWithin.ok _

end Vfs

variable {env : FsEnv}

/-- The loop over whole pieces. -/
theorem writePages_within (fd page : BitVec 64) (proc : ℕ) :
    ∀ (n : ℕ) (curAddr writeSize : BitVec 64) (s : Vfs),
      ErrorWithin 4096 (writePages (fsServices env) fd page proc n curAddr writeSize s)
  | 0, _, _, _ => ErrorWithin.ok _
  | n + 1, curAddr, writeSize, s => by
    rw [writePages]
    refine (Vfs.kernelReadUser_within env s (Or.inr toNat_piece.le)).bind fun r _ => ?_
    obtain ⟨isUserRead, s₁⟩ := r
    simp only
    split_ifs
    · exact ErrorWithin.ok _
    · refine (Vfs.fileDescriptorWrite_page env s₁ fd page toNat_piece.le).bind fun w _ => ?_
      obtain ⟨writeCnt, s₂⟩ := w
      simp only
      split_ifs
      · exact ErrorWithin.ok _
      · exact writePages_within fd page proc n _ _ _

/-- What is left of a size is at most a page, if `kernel_read_user` does not refuse it. -/
theorem srem_le_of_not_refused {size src : BitVec 64}
    (h : ¬readUserRefused src (size.srem 4096)) : (size.srem 4096).toNat ≤ 4096 := by
  have hlt := lt_of_not_readUserRefused h
  exact (srem_cases size).resolve_right (by omega)

theorem not_refused_of_read {size src dest : BitVec 64} {s s' : Vfs}
    (h : s.kernelReadUser env src size dest = .ok (true, s')) : ¬readUserRefused src size := by
  intro hrefused
  rw [Vfs.kernelReadUser, if_pos hrefused] at h
  cases h

/-- The write accesses nothing beyond the page. -/
theorem syscallFsWrite_within (hfree : ∀ p h, ErrorWithin 4096 ((env.alloc false).pgFree p h))
    (trap : TrapData) (s : Vfs) : ErrorWithin 4096 (syscallFsWrite (fsServices env) trap s) := by
  unfold syscallFsWrite
  refine (fdGetLocal_within _ _ _).bind fun fd _ => ?_
  split_ifs
  · exact ErrorWithin.ok _
  refine (pgAlloc_within env s.irqDisable).bind fun r _ => ?_
  obtain ⟨page, s₁⟩ := r
  refine (writePages_within fd page _ _ _ _ _).bind fun r _ => ?_
  obtain ⟨whole, addr, cnt, s₂⟩ := r
  have hend : ∀ (cnt : BitVec 64) (s : Vfs), ErrorWithin 4096 (do
      let s ← (fsServices env).pgFree page ((fsServices env).irqDisable s)
      return (trap.setReturn cnt, (fsServices env).irqEnable s)) := fun cnt s =>
    (pgFree_within hfree s).bind fun _ _ => ErrorWithin.ok _
  cases whole with
  | false => exact hend cnt s₂
  | true =>
    simp only [if_true]
    split_ifs
    · have hread : readUserRefused addr (trap.arg3Reg.srem 4096) ∨
          (trap.arg3Reg.srem 4096).toNat ≤ 4096 := or_iff_not_imp_left.mpr srem_le_of_not_refused
      refine (Vfs.kernelReadUser_within env s₂ hread).bind fun r hr => ?_
      obtain ⟨isUserRead, s₃⟩ := r
      have hn : (if isUserRead = true then trap.arg3Reg.srem 4096 else 0).toNat ≤ 4096 := by
        cases isUserRead with
        | true => exact srem_le_of_not_refused (not_refused_of_read hr)
        | false => exact Nat.zero_le _
      exact (Vfs.fileDescriptorWrite_page env s₃ fd page hn).bind fun w _ => hend _ _
    · exact hend cnt s₂

/-! ## Both calls -/

/-- Both calls access nothing beyond the page exactly if it is no read with a small negative size
of a file with more than a page left. -/
theorem bouncePage_within_iff (hfree : ∀ p h, ErrorWithin 4096 ((env.alloc false).pgFree p h))
    (trap : TrapData) (s : Vfs) :
    ErrorWithin 4096 (syscallFsRead (fsServices env) trap s) ∧
      ErrorWithin 4096 (syscallFsWrite (fsServices env) trap s) ↔ ¬ReadsPast env trap s :=
  ⟨fun h => (syscallFsRead_within_iff hfree trap s).1 h.1,
    fun h => ⟨(syscallFsRead_within_iff hfree trap s).2 h, syscallFsWrite_within hfree trap s⟩⟩

/-- A read and a write of 100 bytes. -/
theorem bouncePage_within_oneFile :
    ErrorWithin 4096 (syscallFsRead (fsServices bumpEnv) (fsReadTrap 100) (oneFileVfs 100)) ∧
      ErrorWithin 4096 (syscallFsWrite (fsServices bumpEnv) (fsReadTrap 100) (oneFileVfs 100)) := by
  refine (bouncePage_within_iff (fun _ _ => ErrorWithin.ok _) _ _).2 ?_
  rintro ⟨fd, f, p, -, -, -, -, -, -, hneg, -⟩
  exact absurd hneg (by decide)

/-- A file of two pages, the second at `0x3000`. -/
def twoPageVfs : Vfs :=
  { oneFileVfs 8192 with
    nodes := fileOnePage.nodes.set 0x1000 1 0x3000
    bytes := (fileOnePage.pages.set 0x2000 0 0x41).push 0x3000 4096 }

@[inherit_doc twoPageVfs]
def twoPageFile : OpenFile :=
  { oneFile 8192 with
    nodes := fileOnePage.nodes.set 0x1000 1 0x3000
    pages := (fileOnePage.pages.set 0x2000 0 0x41).push 0x3000 4096 }

theorem readsPast_twoPage : ReadsPast bumpEnv (fsReadTrap (-1)) twoPageVfs := by
  have hget : fdGetLocal twoPageVfs.tables 0x7000 0 = .ok 0x5000 := by rfl
  refine ⟨0x5000, twoPageFile, 0x4000, hget, by decide, rfl, rfl, by decide, by decide, by decide,
    by decide, fun j hj => ?_⟩
  have hpage : (withPage twoPageFile 0x4000).page ((0 + j) / 4096) = 0x2000 ∨
      (withPage twoPageFile 0x4000).page ((0 + j) / 4096) = 0x3000 := by
    have hj' : (0 + j) / 4096 = 0 ∨ (0 + j) / 4096 = 1 := by omega
    rcases hj' with h | h
    · rw [h]
      exact Or.inl (by decide)
    · rw [h]
      exact Or.inr (by decide)
  change Readable (withPage twoPageFile 0x4000) (0 + j)
  have hmod : (0 + j) % 4096 < 4096 := Nat.mod_lt _ (by decide)
  unfold Readable
  rcases hpage with h | h
  · rw [h]
    exact ⟨by decide, hmod⟩
  · rw [h]
    exact ⟨by decide, hmod⟩

/-- A read of -1 bytes of the file of two pages goes past the page of the call. -/
theorem not_bouncePage_within_twoPage :
    ¬ErrorWithin 4096 (syscallFsRead (fsServices bumpEnv) (fsReadTrap (-1)) twoPageVfs) := fun h =>
  (syscallFsRead_within_iff (fun _ _ => ErrorWithin.ok _) _ _).1 h readsPast_twoPage

end Writes

end Toastium
