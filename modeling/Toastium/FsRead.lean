import Toastium.Vfs

/-!
# `syscall_fs_read`

The call reads a file in pieces of 4096 bytes, and a rest, through a page of its own, and copies
each piece to the buffer of the user. A piece that is not full ends the loop before it is copied,
though it is counted, and `kernel_write_user` copies nothing to address 0.

`syscallFsRead_correct_iff` : the call returns the number of bytes that are left in the file, at
most the size it is asked for, and the buffer has these bytes, if and only if there is a page for
the call, they have their pages, and those are in the buffer already that are not copied : the
first 4096 of a buffer at address 0, and those behind the last whole piece of a file that ends
before the last whole piece of the request.
-/

namespace Toastium

/-! ## What the call should do -/

/-- The number of bytes that are read. -/
def bytesRead (f : OpenFile) (size : ℕ) : ℕ :=
  min size (f.size - f.seekPos)

/-- Byte `i` of the result is not copied to the buffer at `buf`. -/
def NotCopied (f : OpenFile) (buf size i : ℕ) : Prop :=
  buf = 0 ∧ i < 4096 ∨
    f.size - f.seekPos < 4096 * (size / 4096) ∧ 4096 * ((f.size - f.seekPos) / 4096) ≤ i

/-- The call returns the number of bytes read, they are in the buffer, and the rest of the memory
of the user is as it was. -/
def FsReadCorrect (env : FsEnv) (trap : TrapData) (s : Vfs) (f : OpenFile) : Prop :=
  ∃ s', syscallFsRead (fsServices env) trap s =
      .ok (trap.setReturn (BitVec.ofNat 64 (bytesRead f trap.arg3Reg.toNat)), s') ∧
    (∀ i < bytesRead f trap.arg3Reg.toNat,
      s'.user.byte (trap.arg2Reg.toNat + i) = f.byte (f.seekPos + i)) ∧
    ∀ a, (∀ i < bytesRead f trap.arg3Reg.toNat, a ≠ trap.arg2Reg.toNat + i) →
      s'.user.byte a = s.user.byte a

/-! ## The state of the call -/

namespace Vfs

/-- `k` bytes are read of the file `f`, through the page at `page`. -/
structure Reading (f : OpenFile) (fd page k : ℕ) (s : Vfs) : Prop where
  openFile : s.openFile fd = .ok { f with seekPos := f.seekPos + k, pages := s.bytes }
  objs : s.bytes.objs = f.pages.objs
  other : ∀ q, q ≠ page → s.bytes.cell q = f.pages.cell q

theorem openFile_cases {s : Vfs} {fd : ℕ} {f : OpenFile} (h : s.openFile fd = .ok f) :
    ∃ d i, s.desc fd = .ok d ∧ s.inode d.file = .ok i ∧
      f = ⟨i.type, i.size.toNat, i.radixRoots, d.seekPos.toNat, s.nodes, s.bytes⟩ := by
  obtain ⟨d, hd, h⟩ := bind_eq_ok.mp h
  obtain ⟨i, hi, h⟩ := bind_eq_ok.mp h
  cases h
  exact ⟨d, i, hd, hi, rfl⟩

/-- What was written through a descriptor is what is seen through it. -/
theorem setOpenFile_eq {s : Vfs} {fd : ℕ} {f : OpenFile} (h : s.openFile fd = .ok f)
    (f' : OpenFile) (htype : f'.type = f.type) (hroots : f'.radixRoots = f.radixRoots)
    (hsize : f'.size < 2 ^ 64) (hseek : f'.seekPos < 2 ^ 64) :
    ∃ s', s.setOpenFile fd f' = .ok s' ∧ s'.openFile fd = .ok f' ∧ s'.bytes = f'.pages ∧
      s'.user = s.user := by
  obtain ⟨d, i, hd, hi, rfl⟩ := openFile_cases h
  obtain ⟨s', hs', hdesc, hinode, hnodes, hbytes, huser⟩ : ∃ s', s.setOpenFile fd f' = .ok s' ∧
      s'.desc fd = .ok { d with seekPos := BitVec.ofNat 64 f'.seekPos } ∧
      s'.inode d.file = .ok { i with size := BitVec.ofNat 64 f'.size } ∧
      s'.nodes = f'.nodes ∧ s'.bytes = f'.pages ∧ s'.user = s.user := by
    simp only [setOpenFile, hd, hi, ok_bind, pure_eq_ok]
    refine ⟨_, rfl, ?_, ?_, rfl, rfl, rfl⟩
    · simp [desc, setDesc]
    · simp [inode, setDesc, setInode]
  refine ⟨s', hs', ?_, hbytes, huser⟩
  change f'.type = i.type at htype
  change f'.radixRoots = i.radixRoots at hroots
  rw [openFile, hdesc, ok_bind, hinode, ok_bind, pure_eq_ok]
  simp only [hnodes, hbytes, BitVec.toNat_ofNat, Nat.mod_eq_of_lt hsize, Nat.mod_eq_of_lt hseek,
    ← htype, ← hroots]

section Steps

variable {env : FsEnv} {f : OpenFile} {fd page : BitVec 64} {k : ℕ} {s : Vfs}

/-- `file_descriptor_read`, with the allocators for disabled interrupts. -/
theorem fileDescriptorRead_eq {n : BitVec 64} (h : s.openFile fd.toNat = .ok f) :
    s.fileDescriptorRead env fd page n =
      (Toastium.fileDescriptorRead (env.alloc false).nodes (env.alloc false).bytePages f
        page.toNat n.toNat >>= fun r => s.irqDisable.setOpenFile fd.toNat r.2 >>= fun s' =>
          .ok (BitVec.ofNat 64 r.1, s')) := by
  have h' : s.irqDisable.openFile fd.toNat = .ok f := h
  simp only [Vfs.fileDescriptorRead, h', ok_bind]
  rfl

/-- One `file_descriptor_read` of at most a page. -/
theorem Reading.read (env : FsEnv) (h : Reading f fd.toNat page.toNat k s) (htype : f.type = .file)
    (hsize : f.size < 2 ^ 64) (hseek : f.seekPos + k < 2 ^ 64)
    (hlen : f.pages.len page.toNat = 4096) (hapart : ∀ j, f.page j ≠ page.toNat)
    {n : BitVec 64} (hn : n.toNat ≤ 4096)
    (hread : ∀ i < min n.toNat (f.size - (f.seekPos + k)), Readable f (f.seekPos + k + i)) :
    ∃ s', s.fileDescriptorRead env fd page n =
        .ok (BitVec.ofNat 64 (min n.toNat (f.size - (f.seekPos + k))), s') ∧
      Reading f fd.toNat page.toNat (k + min n.toNat (f.size - (f.seekPos + k))) s' ∧
      s'.user = s.user ∧ ∀ i < min n.toNat (f.size - (f.seekPos + k)),
        s'.bytes.cell page.toNat i = f.byte (f.seekPos + k + i) := by
  obtain ⟨h', hrun, hobjs, hother, hcell⟩ := @Toastium.fileDescriptorRead_eq (env.alloc false).nodes
    (env.alloc false).bytePages { f with seekPos := f.seekPos + k, pages := s.bytes } page.toNat
    n.toNat htype hsize (fun i hi => ⟨(hread i hi).setPages h.objs, hapart _⟩)
    (by rw [len_of_objs h.objs, hlen]; exact (Nat.min_le_left _ _).trans hn)
  simp only [] at hrun hobjs hother hcell
  generalize hm : min n.toNat (f.size - (f.seekPos + k)) = m at *
  obtain ⟨s', hset, hopen, hbytes, huser⟩ := setOpenFile_eq (s := s.irqDisable)
    h.openFile { f with seekPos := f.seekPos + k + m, pages := h' } rfl rfl hsize
    (by change f.seekPos + k + m < 2 ^ 64; omega)
  refine ⟨s', ?_, ⟨?_, ?_, fun q hq => ?_⟩, huser, fun i hi => ?_⟩
  · rw [fileDescriptorRead_eq h.openFile, hrun, ok_bind, hset, ok_bind]
  · rw [hopen, hbytes, Nat.add_assoc]
  · rw [hbytes, hobjs, h.objs]
  · rw [hbytes, hother q hq, h.other q hq]
  · rw [hbytes, hcell, if_pos hi]
    exact byte_setPages (f := { f with seekPos := f.seekPos + k }) (hapart _) h.other

/-- A `file_descriptor_read` of at most a page that comes to a hole. -/
theorem Reading.read_error (env : FsEnv) (h : Reading f fd.toNat page.toNat k s)
    (htype : f.type = .file) (hsize : f.size < 2 ^ 64) (hlen : f.pages.len page.toNat = 4096)
    {n : BitVec 64} (hn : n.toNat ≤ 4096) {i : ℕ} (hi : i < min n.toNat (f.size - (f.seekPos + k)))
    (hhole : ¬Readable f (f.seekPos + k + i)) :
    ∃ e, s.fileDescriptorRead env fd page n = .error e := by
  rw [fileDescriptorRead_eq h.openFile]
  have hset : ∀ o, Readable { f with seekPos := f.seekPos + k, pages := s.bytes } o ↔
      Readable f o := fun o => by
    rw [Readable, Readable, len_of_objs h.objs]
    rfl
  obtain ⟨h', -, -, -, hread⟩ | ⟨hlt, -⟩ | ⟨j, -, -, -, e, hrun, -⟩ :=
    @fileDescriptorRead_cases (env.alloc false).nodes (env.alloc false).bytePages
      { f with seekPos := f.seekPos + k, pages := s.bytes } page.toNat htype hsize
      ((len_of_objs h.objs _).trans hlen) n.toNat
  · exact absurd ((hset _).1 (hread i hi)) hhole
  · have := hlt.trans_le (Nat.min_le_left _ _)
    omega
  · rw [hrun]
    exact ⟨e, rfl⟩

/-- One `kernel_write_user` to pages that can be written. -/
theorem kernelWriteUser_eq {dest size src : BitVec 64}
    (hlen : size.toNat ≤ s.bytes.len src.toNat)
    (hw : ∀ i < size.toNat, s.user.writable (dest.toNat + i) = true)
    (hlt : dest.toNat + size.toNat ≤ 0x4000000000) :
    ∃ done sie, s.kernelWriteUser dest size src = .ok (done, { s with
      sie := sie
      user := if dest = 0 then s.user else s.user.withBytes
        (patch (slice (s.bytes.cell src.toNat) 0 size.toNat) dest.toNat s.user.byte) }) := by
  unfold kernelWriteUser
  by_cases hd : dest = 0
  · rw [if_pos ((writeUserRefused_iff hlt).2 hd), if_pos hd]
    exact ⟨_, _, rfl⟩
  · rw [if_neg (mt (writeUserRefused_iff hlt).1 hd), if_neg hd]
    have hcopy := @copyToUser_eq s.bytes src.toNat size.toNat 0 dest.toNat s.user (by omega) hw
    simp only [irqDisable, hcopy, ok_bind]
    exact ⟨_, _, rfl⟩

end Steps

end Vfs

/-! ## The bytes of the user -/

/-- Where the copies start : the first one to address 0 does nothing. -/
def copyStart (buf : ℕ) : ℕ :=
  if buf = 0 then 4096 else 0

/-- The bytes of the user after the first `k` bytes of the file from `seek_pos` on were copied
to `buf`. -/
def copiedTo (f : OpenFile) (buf k : ℕ) (g : ℕ → BitVec 8) : ℕ → BitVec 8 :=
  patch (slice f.byte (f.seekPos + copyStart buf) (k - copyStart buf)) (buf + copyStart buf) g

/-- One more piece. -/
theorem copiedTo_add {f : OpenFile} {buf k m : ℕ} (hk : 4096 ∣ k) (hm : m ≤ 4096)
    (g : ℕ → BitVec 8) :
    (if buf + k = 0 then copiedTo f buf k g
      else patch (slice f.byte (f.seekPos + k) m) (buf + k) (copiedTo f buf k g)) =
      copiedTo f buf (k + m) g := by
  unfold copiedTo copyStart
  obtain ⟨j, rfl⟩ := hk
  split_ifs with h0 hbuf hbuf
  · rw [show 4096 * j - 4096 = 0 by omega, show 4096 * j + m - 4096 = 0 by omega]
  · omega
  · rw [show 4096 * j + m - 4096 = 4096 * j - 4096 + m by omega, slice_append, patch_append,
      length_slice, show f.seekPos + 4096 + (4096 * j - 4096) = f.seekPos + 4096 * j by omega,
      show buf + 4096 + (4096 * j - 4096) = buf + 4096 * j by omega]
  · rw [Nat.sub_zero, Nat.sub_zero, slice_append, patch_append, length_slice, Nat.add_zero,
      Nat.add_zero]

/-! ## The call -/

/-- A read of `f`, opened as `fd`, through the page at `page`, to the `size` bytes from `buf` on
of the memory `u`. -/
structure ReadCall (f : OpenFile) (page : BitVec 64) (buf size : ℕ) (u : UserMemory) : Prop where
  type : f.type = .file
  size_lt : f.size < 2 ^ 64
  seek_lt : f.seekPos < 2 ^ 64
  len : f.pages.len page.toNat = 4096
  apart : ∀ j, f.page j ≠ page.toNat
  buf_le : 0 < size → buf + size ≤ 0x4000000000
  writable : ∀ i < size, u.writable (buf + i) = true

/-- The call has read and copied `k` bytes. -/
structure Copied (f : OpenFile) (fd page : BitVec 64) (buf : ℕ) (u : UserMemory) (k : ℕ)
    (s : Vfs) : Prop extends Vfs.Reading f fd.toNat page.toNat k s where
  user : s.user = u.withBytes (copiedTo f buf k u.byte)

section Call

variable {env : FsEnv} {f : OpenFile} {fd page : BitVec 64} {buf size : ℕ} {u : UserMemory}
  {k : ℕ} {s : Vfs}

/-- A piece that is read and copied. -/
theorem Copied.piece (env : FsEnv) (h : Copied f fd page buf u k s)
    (hc : ReadCall f page buf size u) (hdvd : 4096 ∣ k) (hk : k ≤ f.size - f.seekPos)
    {n curAddr : BitVec 64} (hn : n.toNat ≤ 4096) (hfit : k + n.toNat ≤ size) (hpos : 0 < size)
    (haddr : curAddr.toNat = buf + k)
    (hread : ∀ i < min n.toNat (f.size - (f.seekPos + k)), Readable f (f.seekPos + k + i)) :
    ∃ s₁, s.fileDescriptorRead env fd page n =
        .ok (BitVec.ofNat 64 (min n.toNat (f.size - (f.seekPos + k))), s₁) ∧
      Vfs.Reading f fd.toNat page.toNat (k + min n.toNat (f.size - (f.seekPos + k))) s₁ ∧
      s₁.user = s.user ∧
      ∃ done s₂, s₁.kernelWriteUser curAddr
          (BitVec.ofNat 64 (min n.toNat (f.size - (f.seekPos + k)))) page = .ok (done, s₂) ∧
        Copied f fd page buf u (k + min n.toNat (f.size - (f.seekPos + k))) s₂ := by
  obtain ⟨s₁, hrun, hreading, huser, hcell⟩ := h.toReading.read env hc.type hc.size_lt
    (by have := hc.size_lt; have := hc.seek_lt; omega) hc.len hc.apart hn hread
  have hm := (Nat.min_le_left n.toNat (f.size - (f.seekPos + k))).trans hn
  have hmn := Nat.min_le_left n.toNat (f.size - (f.seekPos + k))
  generalize min n.toNat (f.size - (f.seekPos + k)) = m at *
  refine ⟨s₁, hrun, hreading, huser, ?_⟩
  have hle := hc.buf_le hpos
  have htoNat : (BitVec.ofNat 64 m).toNat = m := by
    rw [BitVec.toNat_ofNat, Nat.mod_eq_of_lt (by omega)]
  obtain ⟨done, sie, hwrite⟩ := @Vfs.kernelWriteUser_eq s₁ curAddr (BitVec.ofNat 64 m) page
    (by rw [htoNat, len_of_objs hreading.objs, hc.len]; exact hm)
    (fun i hi => by
      rw [huser, h.user, haddr, Nat.add_assoc]
      rw [htoNat] at hi
      exact hc.writable (k + i) (by omega))
    (by rw [htoNat, haddr]; omega)
  refine ⟨done, _, hwrite, ⟨⟨hreading.openFile, hreading.objs, hreading.other⟩, ?_⟩⟩
  have hzero : curAddr = 0 ↔ buf + k = 0 := by
    rw [← haddr, ← BitVec.toNat_inj]
    rfl
  have hslice : slice (s₁.bytes.cell page.toNat) 0 m = slice f.byte (f.seekPos + k) m :=
    slice_shift fun i hi => by rw [Nat.zero_add, hcell i hi]
  simp only [htoNat, hslice, huser, h.user, hzero, haddr]
  rw [← copiedTo_add hdvd hm]
  split_ifs <;> rfl

theorem toNat_piece : (4096 : BitVec 64).toNat = 4096 := by
  decide

/-- One whole piece. -/
theorem Copied.wholePiece (env : FsEnv) (h : Copied f fd page buf u k s)
    (hc : ReadCall f page buf size u) (hdvd : 4096 ∣ k)
    (hk : k + 4096 ≤ f.size - f.seekPos) (hfit : k + 4096 ≤ size) {curAddr : BitVec 64}
    (haddr : curAddr.toNat = buf + k) (hread : ∀ i < 4096, Readable f (f.seekPos + k + i)) :
    ∃ s', Copied f fd page buf u (k + 4096) s' ∧ ∀ proc n,
      readPages (fsServices env) fd page proc (n + 1) curAddr (BitVec.ofNat 64 k) s =
        readPages (fsServices env) fd page proc n (curAddr + 4096)
          (BitVec.ofNat 64 (k + 4096)) s' := by
  have hm : min (4096 : BitVec 64).toNat (f.size - (f.seekPos + k)) = 4096 :=
    Nat.min_eq_left (by rw [toNat_piece]; omega)
  obtain ⟨s₁, hrun, -, -, done, s₂, hwrite, hcopied⟩ := h.piece env hc hdvd (by omega)
    toNat_piece.le hfit (by omega) haddr (by rw [hm]; exact hread)
  rw [hm] at hrun hwrite hcopied
  refine ⟨s₂, hcopied, fun proc n => ?_⟩
  have hrun' : (fsServices env).fileDescriptorRead fd page 4096 s = .ok (4096, s₁) := hrun
  have hwrite' : (fsServices env).kernelWriteUser curAddr 4096 page proc s₁ = .ok (done, s₂) :=
    hwrite
  rw [readPages, hrun', ok_bind]
  simp only [toNat_piece, lt_irrefl, if_false, hwrite', ok_bind]
  rw [show BitVec.ofNat 64 k + 4096 = BitVec.ofNat 64 (k + 4096) from (BitVec.ofNat_add _ _).symm]

/-- The loop over whole pieces. It runs to its end, or it ends at a piece that is not full, which
is not copied. -/
theorem readPages_eq (env : FsEnv) (hc : ReadCall f page buf size u) (proc : ℕ) :
    ∀ (n : ℕ) {k : ℕ} {curAddr : BitVec 64} {s : Vfs}, Copied f fd page buf u k s → 4096 ∣ k →
      k ≤ f.size - f.seekPos → k + 4096 * n ≤ size → curAddr.toNat = buf + k →
      (∀ i, k ≤ i → i < k + 4096 * n → i < f.size - f.seekPos → Readable f (f.seekPos + i)) →
      (k + 4096 * n ≤ f.size - f.seekPos ∧ ∃ addr s', addr.toNat = buf + (k + 4096 * n) ∧
        Copied f fd page buf u (k + 4096 * n) s' ∧
        readPages (fsServices env) fd page proc n curAddr (BitVec.ofNat 64 k) s =
          .ok (true, addr, BitVec.ofNat 64 (k + 4096 * n), s')) ∨
      f.size - f.seekPos < k + 4096 * n ∧ ∃ addr s', s'.bytes.objs = f.pages.objs ∧
        s'.user = u.withBytes (copiedTo f buf (4096 * ((f.size - f.seekPos) / 4096)) u.byte) ∧
        readPages (fsServices env) fd page proc n curAddr (BitVec.ofNat 64 k) s =
          .ok (false, addr, BitVec.ofNat 64 (f.size - f.seekPos), s')
  | 0, k, curAddr, s, h, _, hk, _, haddr, _ => Or.inl ⟨hk, curAddr, s, haddr, h, rfl⟩
  | n + 1, k, curAddr, s, h, hdvd, hk, hfit, haddr, hread => by
    have hfit' : k + 4096 ≤ size :=
      (Nat.add_le_add_left (Nat.le_mul_of_pos_right _ (Nat.succ_pos n)) k).trans hfit
    by_cases hfull : k + 4096 ≤ f.size - f.seekPos
    · obtain ⟨s', hcopied, hstep⟩ := h.wholePiece env hc hdvd hfull hfit' haddr
        fun i hi => by
          rw [Nat.add_assoc]
          exact hread (k + i) (by omega) (by omega) ((Nat.add_lt_add_left hi k).trans_le hfull)
      have haddr' : (curAddr + 4096).toNat = buf + (k + 4096) := by
        have := hc.buf_le (by omega)
        rw [BitVec.toNat_add, haddr, toNat_piece, Nat.mod_eq_of_lt (by omega), Nat.add_assoc]
      have hrest := readPages_eq env hc proc n hcopied (Nat.dvd_add hdvd (dvd_refl _)) hfull
        (by omega) haddr' fun i hi hi' => hread i (by omega) (by omega)
      rw [hstep, show k + 4096 * (n + 1) = k + 4096 + 4096 * n by omega]
      exact hrest
    · -- the piece is not full
      right
      have hm : min (4096 : BitVec 64).toNat (f.size - (f.seekPos + k)) =
          f.size - f.seekPos - k := by
        rw [toNat_piece]
        omega
      obtain ⟨s₁, hrun, hreading, huser, -⟩ := h.piece env hc hdvd hk
        toNat_piece.le hfit' (by omega) haddr
        (by
          rw [hm]
          intro i hi
          rw [Nat.add_assoc]
          exact hread (k + i) (by omega) (by omega) (Nat.add_lt_of_lt_sub' hi))
      rw [hm] at hrun
      have hrun' : (fsServices env).fileDescriptorRead fd page 4096 s =
        .ok (BitVec.ofNat 64 (f.size - f.seekPos - k), s₁) := hrun
      have hlast : 4096 * ((f.size - f.seekPos) / 4096) = k := by
        obtain ⟨j, rfl⟩ := hdvd
        omega
      refine ⟨by omega, curAddr, s₁, hreading.objs, by rw [huser, h.user, hlast], ?_⟩
      have hlt : (BitVec.ofNat 64 (f.size - f.seekPos - k)).toNat < 4096 := by
        rw [BitVec.toNat_ofNat, Nat.mod_eq_of_lt (by omega)]
        omega
      rw [readPages, hrun', ok_bind]
      simp only [hlt, if_true, pure_eq_ok]
      rw [← BitVec.ofNat_add, show k + (f.size - f.seekPos - k) = f.size - f.seekPos by omega]

/-- The loop stops at a hole. -/
theorem readPages_error (env : FsEnv) (hc : ReadCall f page buf size u) (proc : ℕ) :
    ∀ (n : ℕ) {k i : ℕ} {curAddr : BitVec 64} {s : Vfs}, Copied f fd page buf u k s → 4096 ∣ k →
      k + 4096 * n ≤ size → curAddr.toNat = buf + k → k ≤ i → i < k + 4096 * n →
      i < f.size - f.seekPos → ¬Readable f (f.seekPos + i) →
      ∃ e, readPages (fsServices env) fd page proc n curAddr (BitVec.ofNat 64 k) s = .error e
  | 0, k, i, curAddr, s, _, _, _, _, hki, hin, _, _ => absurd hki (Nat.not_le.mpr hin)
  | n + 1, k, i, curAddr, s, h, hdvd, hfit, haddr, hki, hin, hleft, hhole => by
    have hfit' : k + 4096 ≤ size :=
      (Nat.add_le_add_left (Nat.le_mul_of_pos_right _ (Nat.succ_pos n)) k).trans hfit
    have hm : min (4096 : BitVec 64).toNat (f.size - (f.seekPos + k)) =
        min 4096 (f.size - f.seekPos - k) := by
      rw [toNat_piece, Nat.sub_sub]
    by_cases hpiece : ∃ j < min 4096 (f.size - f.seekPos - k), ¬Readable f (f.seekPos + k + j)
    · obtain ⟨j, hj, hnot⟩ := hpiece
      obtain ⟨e, he⟩ := h.toReading.read_error env hc.type hc.size_lt hc.len
        toNat_piece.le (hm ▸ hj) hnot
      have he' : (fsServices env).fileDescriptorRead fd page 4096 s = .error e := he
      exact ⟨e, by rw [readPages, he', error_bind]⟩
    · simp only [not_exists, not_and, not_not] at hpiece
      -- the hole is in a later piece
      have hlater : k + 4096 ≤ i := by
        by_contra hlt
        have := hpiece (i - k) (by omega)
        rw [Nat.add_assoc, Nat.add_sub_cancel' hki] at this
        exact hhole this
      obtain ⟨s', hcopied, hstep⟩ := h.wholePiece env hc hdvd (hlater.trans hleft.le) hfit'
        haddr fun j hj => hpiece j (by omega)
      have haddr' : (curAddr + 4096).toNat = buf + (k + 4096) := by
        have := hc.buf_le (by omega)
        rw [BitVec.toNat_add, haddr, toNat_piece, Nat.mod_eq_of_lt (by omega), Nat.add_assoc]
      obtain ⟨e, he⟩ := readPages_error env hc proc n hcopied (Nat.dvd_add hdvd (dvd_refl _))
        (by rw [Nat.add_assoc, Nat.add_comm 4096]; exact hfit) haddr' hlater
        (by rw [Nat.add_assoc, Nat.add_comm 4096]; exact hin) hleft hhole
      exact ⟨e, by rw [hstep, he]⟩

end Call

/-! ## The whole call -/

/-- A call with a descriptor that is open, pages of the user that can be written, and a size that
is not negative. The pages that the file has are in use, and `pg_free` takes back a page that is
in use. -/
structure FsReadRequest (env : FsEnv) (trap : TrapData) (s : Vfs) (f : OpenFile) : Prop where
  size : 0 ≤ trap.arg3Reg.toInt
  descriptor : ∃ fd, fdGetLocal s.tables (s.procs trap.processPtr).fileDescPg
    trap.arg1Reg.toNat = .ok fd ∧ fd ≠ 0 ∧ s.openFile fd.toNat = .ok f
  type : f.type = .file
  pages : ∀ k, f.page k ≠ 0 → f.pages.len (f.page k) = 4096
  buffer : ∀ i < trap.arg3Reg.toNat, s.user.writable (trap.arg2Reg.toNat + i) = true
  frees : ∀ p h, h.len p ≠ 0 → (env.alloc false).pgFree p h = .ok (h.drop p)

theorem msb_eq_false {size : BitVec 64} (h : 0 ≤ size.toInt) : size.msb = false := by
  rw [BitVec.msb_eq_toInt, decide_eq_false (by omega)]

theorem sdiv_piece {size : BitVec 64} (h : 0 ≤ size.toInt) :
    (size.sdiv 4096).toNat = size.toNat / 4096 := by
  rw [BitVec.sdiv_eq, msb_eq_false h]
  rfl

theorem srem_piece {size : BitVec 64} (h : 0 ≤ size.toInt) :
    (size.srem 4096).toNat = size.toNat % 4096 := by
  rw [BitVec.srem_eq, msb_eq_false h]
  rfl

/-- A byte that is left has its page. -/
theorem readable_iff {f : OpenFile} (hpages : ∀ k, f.page k ≠ 0 → f.pages.len (f.page k) = 4096)
    {o : ℕ} : Readable f o ↔ f.page (o / 4096) ≠ 0 :=
  ⟨fun h => h.1, fun h => ⟨h, by rw [hpages _ h]; omega⟩⟩

section Page

variable {env : FsEnv} {s : Vfs} {f : OpenFile} {fd : BitVec 64} {p : ℕ}

/-- The file, with the page of the call. -/
def withPage (f : OpenFile) (p : ℕ) : OpenFile :=
  { f with pages := f.pages.push p 4096 }

theorem page_ne_fresh (src : BytePageSource)
    (hpages : ∀ k, f.page k ≠ 0 → f.pages.len (f.page k) = 4096)
    (hp : src.next f.pages = some p) (k : ℕ) : f.page k ≠ p := fun h => by
  have hne : f.page k ≠ 0 := h ▸ (src.pos hp).ne'
  have hlen := hpages k hne
  rw [h, src.fresh hp] at hlen
  exact absurd hlen (by decide)

theorem readable_withPage (hapart : ∀ k, f.page k ≠ p) {o : ℕ} :
    Readable (withPage f p) o ↔ Readable f o := by
  unfold Readable
  change _ ∧ _ < (f.pages.push p 4096).len (f.page (o / 4096)) ↔ _
  rw [Heap.len_push_of_ne _ _ (hapart _)]
  rfl

theorem byte_withPage (hapart : ∀ k, f.page k ≠ p) : (withPage f p).byte = f.byte := by
  funext o
  exact Heap.cell_push_of_ne _ _ _ (hapart _)

/-- After `pg_alloc`, nothing is read yet. -/
theorem Copied.start (hopen : s.openFile fd.toNat = .ok f) (hlt : p < 2 ^ 64) (buf : ℕ) :
    Copied (withPage f p) fd (BitVec.ofNat 64 p) buf s.user 0
      (Vfs.irqEnable { s.irqDisable with bytes := s.bytes.push p 4096 }) := by
  obtain ⟨d, i, hd, hi, rfl⟩ := Vfs.openFile_cases hopen
  have htoNat : (BitVec.ofNat 64 p).toNat = p := Nat.mod_eq_of_lt hlt
  refine ⟨⟨?_, rfl, fun q hq => rfl⟩, ?_⟩
  · change (s.desc fd.toNat >>= fun d => _) = _
    rw [hd, ok_bind]
    change (s.inode d.file >>= fun i => _) = _
    rw [hi, ok_bind]
    rfl
  · unfold copiedTo
    rw [Nat.zero_sub, slice_zero, patch_nil]
    rfl

/-- The page of the call is none of the file. -/
theorem FsReadRequest.apart {trap : TrapData} (h : FsReadRequest env trap s f)
    (hp : (env.alloc false).bytePages.next s.bytes = some p) (k : ℕ) : f.page k ≠ p := by
  obtain ⟨fd, -, -, hopen⟩ := h.descriptor
  obtain ⟨d, i, -, -, rfl⟩ := Vfs.openFile_cases hopen
  exact page_ne_fresh (env.alloc false).bytePages h.pages hp k

theorem FsReadRequest.readCall {trap : TrapData} (h : FsReadRequest env trap s f)
    (hp : (env.alloc false).bytePages.next s.bytes = some p) :
    ReadCall (withPage f p) (BitVec.ofNat 64 p) trap.arg2Reg.toNat trap.arg3Reg.toNat s.user := by
  obtain ⟨fd, -, -, hopen⟩ := h.descriptor
  obtain ⟨d, i, -, -, hf⟩ := Vfs.openFile_cases hopen
  have hlt := (env.alloc false).bytePages.lt hp
  have htoNat : (BitVec.ofNat 64 p).toNat = p := Nat.mod_eq_of_lt (by omega)
  refine ⟨h.type, ?_, ?_, ?_, fun k => ?_, fun hpos => ?_, h.buffer⟩
  · rw [hf]
    exact i.size.isLt
  · rw [hf]
    exact d.seekPos.isLt
  · rw [htoNat]
    exact Heap.len_push_self _ _ _
  · rw [htoNat]
    exact h.apart hp k
  · have := s.user.mapped_lt _ (Or.inr (h.buffer (trap.arg3Reg.toNat - 1) (by omega)))
    omega

theorem pgAlloc_eq (hp : (env.alloc s.sie).bytePages.next s.bytes = some p) :
    s.pgAlloc env = .ok (BitVec.ofNat 64 p, { s with bytes := s.bytes.push p 4096 }) := by
  rw [Vfs.pgAlloc, Source.alloc_eq_ok.2 ⟨hp, rfl⟩, ok_bind]
  rfl

theorem pgAlloc_eq_panic (h : (env.alloc s.sie).bytePages.next s.bytes = none) :
    s.pgAlloc env = .error (.panic .outOfFreePages) := by
  unfold Vfs.pgAlloc Source.alloc
  rw [h]
  rfl

/-- What the call does after the loop has run to its end : the rest of `size`. -/
def readRest (env : FsEnv) (fd page size curAddr readSize : BitVec 64) (s : Vfs) :
    Except (Fault Panic) (BitVec 64 × Vfs) :=
  if size.srem 4096 = 0 then .ok (readSize, s)
  else do
    let (readCnt, s) ← s.fileDescriptorRead env fd page (size.srem 4096)
    let (_, s) ← s.kernelWriteUser curAddr readCnt page
    return (readSize + readCnt, s)

/-- The call, after `pg_alloc`. -/
theorem syscallFsRead_of_page {trap : TrapData}
    (hget : fdGetLocal s.tables (s.procs trap.processPtr).fileDescPg trap.arg1Reg.toNat = .ok fd)
    (hne : fd ≠ 0) (hp : (env.alloc false).bytePages.next s.bytes = some p) :
    syscallFsRead (fsServices env) trap s =
      (readPages (fsServices env) fd (BitVec.ofNat 64 p) trap.processPtr
        (trap.arg3Reg.sdiv 4096).toNat trap.arg2Reg 0#64
        (Vfs.irqEnable { s.irqDisable with bytes := s.bytes.push p 4096 }) >>= fun r =>
      (if r.1 then readRest env fd (BitVec.ofNat 64 p) trap.arg3Reg r.2.1 r.2.2.1 r.2.2.2
        else .ok r.2.2) >>= fun r =>
      r.2.irqDisable.pgFree env (BitVec.ofNat 64 p) >>= fun s =>
        .ok (trap.setReturn r.1, s.irqEnable)) := by
  have hget' : (fsServices env).fdGetLocal trap.arg1Reg trap.processPtr s = .ok fd := hget
  have halloc : (fsServices env).pgAlloc ((fsServices env).irqDisable s) = _ :=
    pgAlloc_eq (s := s.irqDisable) hp
  rw [syscallFsRead, hget', ok_bind, if_neg hne, halloc, ok_bind]
  refine bind_congr fun r => ?_
  obtain ⟨whole, addr, readSize, s'⟩ := r
  unfold readRest
  cases whole with
  | false => rfl
  | true =>
    by_cases hzero : trap.arg3Reg.srem 4096 = 0
    · simp only [if_true, hzero, ne_eq, not_true_eq_false, if_false]
      rfl
    · simp only [if_true, hzero, ne_eq, not_false_eq_true, if_false, bind_assoc]
      rfl

/-- `pg_free` of the page of the call. -/
theorem pgFree_page (hfrees : ∀ p h, h.len p ≠ 0 → (env.alloc false).pgFree p h = .ok (h.drop p))
    {page : BitVec 64} (hlen : s.bytes.len page.toNat ≠ 0) :
    s.irqDisable.pgFree env page = .ok { s.irqDisable with bytes := s.bytes.drop page.toNat } := by
  change ((env.alloc false).pgFree page.toNat s.bytes >>= fun bytes => _) = _
  rw [hfrees _ _ hlen, ok_bind]
  rfl

variable {trap : TrapData}

/-- The bytes that are counted, up to the last that is copied. -/
def copiedEnd (f : OpenFile) (size : ℕ) : ℕ :=
  if f.size - f.seekPos < 4096 * (size / 4096) then 4096 * ((f.size - f.seekPos) / 4096)
  else bytesRead f size

/-- The rest, after all whole pieces. -/
theorem FsReadRequest.rest (h : FsReadRequest env trap s f)
    (hp : (env.alloc false).bytePages.next s.bytes = some p) {addr : BitVec 64} {s₁ : Vfs}
    (hle : 4096 * (trap.arg3Reg.toNat / 4096) ≤ f.size - f.seekPos)
    (haddr : addr.toNat = trap.arg2Reg.toNat + 4096 * (trap.arg3Reg.toNat / 4096))
    (hcopied : Copied (withPage f p) fd (BitVec.ofNat 64 p) trap.arg2Reg.toNat s.user
      (4096 * (trap.arg3Reg.toNat / 4096)) s₁)
    (hread : ∀ i < bytesRead f trap.arg3Reg.toNat, Readable f (f.seekPos + i)) :
    ∃ s₂, readRest env fd (BitVec.ofNat 64 p) trap.arg3Reg addr
        (BitVec.ofNat 64 (4096 * (trap.arg3Reg.toNat / 4096))) s₁ =
      .ok (BitVec.ofNat 64 (bytesRead f trap.arg3Reg.toNat), s₂) ∧
      Copied (withPage f p) fd (BitVec.ofNat 64 p) trap.arg2Reg.toNat s.user
        (bytesRead f trap.arg3Reg.toNat) s₂ := by
  have hrem := srem_piece h.size
  have hmin : 4096 * (trap.arg3Reg.toNat / 4096) + min (trap.arg3Reg.toNat % 4096)
      (f.size - (f.seekPos + 4096 * (trap.arg3Reg.toNat / 4096))) =
        bytesRead f trap.arg3Reg.toNat := by
    unfold bytesRead
    omega
  unfold readRest
  by_cases hzero : trap.arg3Reg.srem 4096 = 0
  · rw [hzero] at hrem
    have hend : 4096 * (trap.arg3Reg.toNat / 4096) = bytesRead f trap.arg3Reg.toNat := by
      rw [← hmin, ← hrem]
      exact (Nat.min_eq_left (Nat.zero_le _)).symm ▸ rfl
    rw [if_pos hzero, hend]
    exact ⟨s₁, rfl, hend ▸ hcopied⟩
  · have hpos : 0 < trap.arg3Reg.toNat % 4096 := by
      rw [← hrem]
      exact Nat.pos_of_ne_zero fun e => hzero (BitVec.eq_of_toNat_eq e)
    obtain ⟨s₂, hrun, -, -, done, s₃, hwrite, hcopied'⟩ := hcopied.piece env (h.readCall hp)
      (Nat.dvd_mul_right _ _) hle (n := trap.arg3Reg.srem 4096)
      (by omega) (by omega) (by omega) haddr (by
        rw [hrem]
        intro i hi
        rw [readable_withPage (h.apart hp)]
        have := hread (4096 * (trap.arg3Reg.toNat / 4096) + i)
          (hmin ▸ Nat.add_lt_add_left hi _)
        rwa [← Nat.add_assoc] at this)
    rw [hrem] at hrun hwrite hcopied'
    change Copied _ _ _ _ _ (4096 * (trap.arg3Reg.toNat / 4096) + min (trap.arg3Reg.toNat % 4096)
      (f.size - (f.seekPos + 4096 * (trap.arg3Reg.toNat / 4096)))) _ at hcopied'
    rw [hmin] at hcopied'
    refine ⟨s₃, ?_, hcopied'⟩
    rw [if_neg hzero, hrun, ok_bind]
    simp only [hwrite, ok_bind, pure_eq_ok]
    rw [← BitVec.ofNat_add]
    exact congrArg (fun n => Except.ok (BitVec.ofNat 64 n, s₃)) hmin

/-- The call, if all bytes that are left have their pages. -/
theorem FsReadRequest.run (h : FsReadRequest env trap s f)
    (hp : (env.alloc false).bytePages.next s.bytes = some p)
    (hread : ∀ i < bytesRead f trap.arg3Reg.toNat, Readable f (f.seekPos + i)) :
    ∃ s', syscallFsRead (fsServices env) trap s =
        .ok (trap.setReturn (BitVec.ofNat 64 (bytesRead f trap.arg3Reg.toNat)), s') ∧
      s'.user = s.user.withBytes (copiedTo (withPage f p) trap.arg2Reg.toNat
        (copiedEnd f trap.arg3Reg.toNat) s.user.byte) := by
  obtain ⟨fd, hget, hne, hopen⟩ := h.descriptor
  have hlt := (env.alloc false).bytePages.lt hp
  have hc := h.readCall hp
  have hmul := Nat.mul_div_le trap.arg3Reg.toNat 4096
  have hfree : ∀ {s' : Vfs}, s'.bytes.objs = (withPage f p).pages.objs →
      s'.irqDisable.pgFree env (BitVec.ofNat 64 p) =
        .ok { s'.irqDisable with bytes := s'.bytes.drop (BitVec.ofNat 64 p).toNat } :=
    fun hobjs => pgFree_page h.frees (by rw [len_of_objs hobjs, hc.len]; decide)
  rw [syscallFsRead_of_page hget hne hp, sdiv_piece h.size]
  obtain ⟨hle, addr, s₁, haddr, hcopied, hloop⟩ | ⟨hlt', addr, s₁, hobjs, huser, hloop⟩ :=
    readPages_eq env hc trap.processPtr (trap.arg3Reg.toNat / 4096)
      (Copied.start hopen (by omega) _) (Nat.dvd_zero 4096) (Nat.zero_le _) (by omega) rfl
      fun i _ hi hi' => (readable_withPage (h.apart hp)).2
        (hread i (lt_min (by omega) hi'))
  · rw [Nat.zero_add] at hle haddr hcopied hloop
    change _ ≤ f.size - f.seekPos at hle
    obtain ⟨s₂, hrest, hcopied₂⟩ := h.rest hp hle haddr hcopied hread
    have hend : copiedEnd f trap.arg3Reg.toNat = bytesRead f trap.arg3Reg.toNat :=
      if_neg (Nat.not_lt.mpr hle)
    rw [hloop, ok_bind]
    simp only [if_true]
    rw [hrest, ok_bind, hfree hcopied₂.objs, ok_bind]
    exact ⟨_, rfl, by rw [hend]; exact hcopied₂.user⟩
  · rw [Nat.zero_add] at hlt'
    change f.size - f.seekPos < _ at hlt'
    have hend : copiedEnd f trap.arg3Reg.toNat = 4096 * ((f.size - f.seekPos) / 4096) :=
      if_pos hlt'
    have hall : bytesRead f trap.arg3Reg.toNat = f.size - f.seekPos :=
      Nat.min_eq_right (by omega)
    rw [hloop, ok_bind]
    simp only [Bool.false_eq_true, if_false]
    rw [ok_bind, hfree hobjs, ok_bind, hall]
    exact ⟨_, rfl, by rw [hend]; exact huser⟩

/-- The call ends at a hole. -/
theorem FsReadRequest.run_error (h : FsReadRequest env trap s f)
    (hp : (env.alloc false).bytePages.next s.bytes = some p) {i : ℕ}
    (hi : i < bytesRead f trap.arg3Reg.toNat) (hhole : ¬Readable f (f.seekPos + i)) :
    ∃ e, syscallFsRead (fsServices env) trap s = .error e := by
  obtain ⟨fd, hget, hne, hopen⟩ := h.descriptor
  have hlt := (env.alloc false).bytePages.lt hp
  have hc := h.readCall hp
  have hmul := Nat.mul_div_le trap.arg3Reg.toNat 4096
  have hstart := Copied.start (p := p) hopen (by omega) trap.arg2Reg.toNat
  have hileft : i < f.size - f.seekPos := hi.trans_le (Nat.min_le_right _ _)
  rw [syscallFsRead_of_page hget hne hp, sdiv_piece h.size]
  by_cases hpieces : ∃ j < 4096 * (trap.arg3Reg.toNat / 4096), j < f.size - f.seekPos ∧
      ¬Readable f (f.seekPos + j)
  · obtain ⟨j, hj, hjleft, hnot⟩ := hpieces
    obtain ⟨e, hloop⟩ := readPages_error env hc trap.processPtr
      (trap.arg3Reg.toNat / 4096) hstart (Nat.dvd_zero 4096) (by omega) rfl (Nat.zero_le j)
      (by omega) hjleft (mt (readable_withPage (h.apart hp)).1 hnot)
    exact ⟨e, by rw [hloop, error_bind]⟩
  · simp only [not_exists, not_and, not_not] at hpieces
    -- the hole is in the rest
    have hrest : 4096 * (trap.arg3Reg.toNat / 4096) ≤ i :=
      Nat.le_of_not_lt fun hlt => hhole (hpieces i hlt hileft)
    have hisize : i < trap.arg3Reg.toNat := hi.trans_le (Nat.min_le_left _ _)
    have hrem := srem_piece h.size
    obtain ⟨-, addr, s₁, -, hcopied, hloop⟩ | ⟨hlt', -⟩ :=
      readPages_eq env hc trap.processPtr (trap.arg3Reg.toNat / 4096)
        hstart (Nat.dvd_zero 4096) (Nat.zero_le _) (by omega) rfl
        fun j _ hj hj' => (readable_withPage (h.apart hp)).2 (hpieces j (by omega) hj')
    · rw [Nat.zero_add] at hcopied hloop
      have hi' : i - 4096 * (trap.arg3Reg.toNat / 4096) <
          min (trap.arg3Reg.toNat % 4096)
            (f.size - (f.seekPos + 4096 * (trap.arg3Reg.toNat / 4096))) :=
        lt_min (by omega) (by omega)
      have hhole' : ¬Readable (withPage f p) ((withPage f p).seekPos +
          4096 * (trap.arg3Reg.toNat / 4096) + (i - 4096 * (trap.arg3Reg.toNat / 4096))) := by
        rw [Nat.add_assoc, Nat.add_sub_cancel' hrest, readable_withPage (h.apart hp)]
        exact hhole
      obtain ⟨e, he⟩ := hcopied.toReading.read_error env hc.type hc.size_lt hc.len
        (n := trap.arg3Reg.srem 4096) (by omega) (by rw [hrem]; exact hi') hhole'
      have hne' : trap.arg3Reg.srem 4096 ≠ 0 := fun e => by
        rw [e] at hrem
        change 0 = _ at hrem
        omega
      refine ⟨e, ?_⟩
      rw [hloop, ok_bind]
      simp only [if_true]
      rw [readRest, if_neg hne', he, error_bind, error_bind]
    · rw [Nat.zero_add] at hlt'
      exact absurd (hlt'.trans_le hrest) (Nat.not_lt.mpr hileft.le)

/-- A byte of the user after the call. -/
theorem copiedTo_byte (hapart : ∀ k, f.page k ≠ p) (buf size a : ℕ) (g : ℕ → BitVec 8) :
    copiedTo (withPage f p) buf (copiedEnd f size) g a =
      if buf + copyStart buf ≤ a ∧ a < buf + copiedEnd f size then f.byte (f.seekPos + (a - buf))
      else g a := by
  unfold copiedTo
  rw [patch_slice, byte_withPage hapart]
  have hstart : ∀ n, buf + copyStart buf ≤ a →
      (a < buf + copyStart buf + (n - copyStart buf) ↔ a < buf + n) := fun n => by omega
  by_cases hle : buf + copyStart buf ≤ a
  · simp only [hle, true_and, hstart _ hle]
    rw [show (withPage f p).seekPos + copyStart buf + (a - (buf + copyStart buf)) =
      f.seekPos + (a - buf) by change f.seekPos + _ + _ = _; omega]
  · simp only [hle, false_and, if_false]

/-- The bytes that are counted and not copied. -/
theorem notCopied_iff {buf size i : ℕ} (hi : i < bytesRead f size) :
    NotCopied f buf size i ↔
      ¬(buf + copyStart buf ≤ buf + i ∧ buf + i < buf + copiedEnd f size) := by
  unfold NotCopied copyStart copiedEnd
  split_ifs <;> omega

theorem copiedEnd_le (size : ℕ) : copiedEnd f size ≤ bytesRead f size := by
  unfold copiedEnd bytesRead
  split_ifs <;> omega

/-- Without a page for it, the call does not return. -/
theorem FsReadRequest.run_panic (h : FsReadRequest env trap s f)
    (hnone : (env.alloc false).bytePages.next s.bytes = none) :
    syscallFsRead (fsServices env) trap s = .error (.panic .outOfFreePages) := by
  obtain ⟨fd, hget, hne, -⟩ := h.descriptor
  have hget' : (fsServices env).fdGetLocal trap.arg1Reg trap.processPtr s = .ok fd := hget
  have halloc : (fsServices env).pgAlloc ((fsServices env).irqDisable s) = _ :=
    pgAlloc_eq_panic (s := s.irqDisable) hnone
  rw [syscallFsRead, hget', ok_bind, if_neg hne, halloc, error_bind]

/-- The call does what it should exactly if there is a page for it, the bytes that are left have
their pages, and those of them that are not copied are in the buffer already. -/
theorem syscallFsRead_correct_iff (h : FsReadRequest env trap s f) :
    FsReadCorrect env trap s f ↔ (env.alloc false).bytePages.next s.bytes ≠ none ∧
      ∀ i < bytesRead f trap.arg3Reg.toNat, f.page ((f.seekPos + i) / 4096) ≠ 0 ∧
        (NotCopied f trap.arg2Reg.toNat trap.arg3Reg.toNat i →
          s.user.byte (trap.arg2Reg.toNat + i) = f.byte (f.seekPos + i)) := by
  cases hp : (env.alloc false).bytePages.next s.bytes with
  | none =>
    refine ⟨fun hcorrect => ?_, fun hroom => absurd rfl hroom.1⟩
    obtain ⟨s', hrun, -⟩ := hcorrect
    rw [h.run_panic hp] at hrun
    cases hrun
  | some p =>
    have hbyte := copiedTo_byte (h.apart hp) trap.arg2Reg.toNat trap.arg3Reg.toNat
    constructor
    · rintro ⟨s', hrun, hbytes, -⟩
      have hread : ∀ i < bytesRead f trap.arg3Reg.toNat, Readable f (f.seekPos + i) := by
        intro i hi
        by_contra hhole
        obtain ⟨e, he⟩ := h.run_error hp hi hhole
        rw [he] at hrun
        cases hrun
      obtain ⟨s'', hrun', huser⟩ := h.run hp hread
      cases hrun.symm.trans hrun'
      refine ⟨Option.some_ne_none p, fun i hi => ⟨(hread i hi).1, fun hnot => ?_⟩⟩
      have hi' := hbytes i hi
      rwa [huser, UserMemory.byte_withBytes, hbyte, if_neg ((notCopied_iff hi).1 hnot)] at hi'
    · rintro ⟨-, hbytes⟩
      obtain ⟨s', hrun, huser⟩ := h.run hp fun i hi => (readable_iff h.pages).2 (hbytes i hi).1
      refine ⟨s', hrun, fun i hi => ?_, fun a ha => ?_⟩
      · rw [huser, UserMemory.byte_withBytes, hbyte]
        split_ifs with hcopied
        · rw [Nat.add_sub_cancel_left]
        · exact (hbytes i hi).2 ((notCopied_iff hi).2 hcopied)
      · rw [huser, UserMemory.byte_withBytes, hbyte]
        refine if_neg fun hmem => ?_
        have hle := copiedEnd_le (f := f) trap.arg3Reg.toNat
        exact ha (a - trap.arg2Reg.toNat) (by omega) (by omega)

end Page

/-! ## A short file -/

/-- Allocators that hand out pages and nodes in the order of their addresses, without buffers and
descriptors. -/
def bumpAllocators : Allocators where
  tablePages := Source.bump _ _ _ pageBytes_pos
  bytePages := bumpBytePages
  nodes := bumpNodes
  descriptor _ := .error (.panic .outOfFreePages)
  memAlloc _ _ := .error (.panic .outOfFreePages)
  memFree _ h := .ok h
  pgFree p h := .ok (h.drop p)

@[inherit_doc bumpAllocators]
def bumpEnv : FsEnv where
  alloc _ := bumpAllocators
  temp _ := 0
  path := 0x9000
  unknownText _ _ := []
  fuel := 0

/-- A process whose pages can all be written, with one file of `size` bytes, the first of which
is an `A`, in the page at `0x2000`. The descriptor at `0x5000` is in the word that `fd_get_local`
reads for the id 0. -/
def oneFileVfs (size : BitVec 64) : Vfs where
  sie := true
  printed := []
  user := ⟨fun _ => 0, fun a => decide (a < 0x4000000000), fun a => decide (a < 0x4000000000),
    fun a h => by simpa using h⟩
  procs _ := ⟨0x7000, 1, 0⟩
  tables := ((Heap.mk [] fun _ _ => 0).push 0x7000 512).set 0x7000 2 0x5000
  dentries := ⟨⟨[], fun _ _ => 0⟩, fun _ => none, 0⟩
  descs fd := if fd = 0x5000 then some ⟨0x6000, 0⟩ else none
  inodes file := if file = 0x6000 then some ⟨1, .file, size, fun _ => 0x1000⟩ else none
  nodes := fileOnePage.nodes
  bytes := fileOnePage.pages.set 0x2000 0 0x41

/-- The file of `oneFileVfs`. -/
def oneFile (size : BitVec 64) : OpenFile where
  type := .file
  size := size.toNat
  radixRoots _ := 0x1000
  seekPos := 0
  nodes := fileOnePage.nodes
  pages := fileOnePage.pages.set 0x2000 0 0x41

/-- A read of `size` bytes to the buffer at `0x10000`. -/
def fsReadTrap (size : BitVec 64) : TrapData where
  processPtr := 0x8000
  trapType := .exception
  privilege := .user
  code := .syscall
  faultPc := 0
  faultAddr := 0
  arg0Reg := 5
  arg1Reg := 0
  arg2Reg := 0x10000
  arg3Reg := size
  returnReg := 5

theorem fileOnePage_load {i : ℕ} (hi : i < 16) :
    (fileOnePage.nodes.load 0x1000 i : Except (Fault Panic) _) =
      .ok (if i = 0 then 0x2000 else 0) := by
  rw [Heap.load_eq_ok hi]
  simp [fileOnePage, Heap.cell_set]

/-- The tree of `fileOnePage` has one page. -/
theorem fileOnePage_page (k : ℕ) : fileOnePage.page k = 0 ∨ fileOnePage.page k = 0x2000 := by
  have hidx : radixIdx k (radixLevel k) inodeFileRadixLevelDepth < 16 :=
    Nat.mod_lt _ (by decide)
  unfold OpenFile.page
  cases hg : fileOnePage.getPage k with
  | error e => exact Or.inl rfl
  | ok p =>
    change p = 0 ∨ p = 0x2000
    change (fileOnePage.nodes.load 0x1000 _ >>= _) = _ at hg
    rw [fileOnePage_load hidx, ok_bind] at hg
    by_cases h0 : radixIdx k (radixLevel k) inodeFileRadixLevelDepth = 0
    · rw [if_pos h0, if_neg (by decide)] at hg
      cases hl : radixLevel k with
      | zero =>
        rw [hl] at hg
        cases hg
        exact Or.inr rfl
      | succ n =>
        -- the page is not a node
        rw [hl, radixGet] at hg
        obtain ⟨a, ha, -⟩ := bind_eq_ok.mp hg
        rw [Heap.load_eq_wild (Nat.zero_le _)] at ha
        cases ha
    · rw [if_neg h0, if_pos rfl] at hg
      cases hg
      exact Or.inl rfl

theorem oneFile_request {size n : BitVec 64} (hn : n.toNat ≤ 0x2000) :
    FsReadRequest bumpEnv (fsReadTrap n) (oneFileVfs size) (oneFile size) := by
  have hpage : ∀ k, (oneFile size).page k = 0 ∨ (oneFile size).page k = 0x2000 :=
    fileOnePage_page
  have hget : fdGetLocal (oneFileVfs size).tables 0x7000 0 = .ok 0x5000 := by rfl
  refine ⟨?_, ⟨0x5000, hget, by decide, rfl⟩, rfl, fun k hk => ?_, fun i hi => ?_,
    fun p h _ => rfl⟩
  · change 0 ≤ n.toInt
    rw [BitVec.toInt_eq_toNat_of_lt (by omega)]
    exact Int.natCast_nonneg _
  · rw [(hpage k).resolve_left hk]
    rfl
  · change i < n.toNat at hi
    exact decide_eq_true (by change 0x10000 + i < 0x4000000000; omega)

/-- A read of 100 bytes of a file of 100 bytes. -/
theorem syscallFsRead_correct_oneFile :
    FsReadRequest bumpEnv (fsReadTrap 100) (oneFileVfs 100) (oneFile 100) ∧
      FsReadCorrect bumpEnv (fsReadTrap 100) (oneFileVfs 100) (oneFile 100) := by
  have h : FsReadRequest bumpEnv (fsReadTrap 100) (oneFileVfs 100) (oneFile 100) :=
    oneFile_request (by decide)
  refine ⟨h, (syscallFsRead_correct_iff h).2 ⟨by decide, fun i hi => ⟨?_, fun hnot => ?_⟩⟩⟩
  · have hlt : i < 100 := hi.trans_le (Nat.min_le_left _ _)
    change (oneFile 100).page ((0 + i) / 4096) ≠ 0
    rw [show (0 + i) / 4096 = 0 by omega]
    decide
  · rcases hnot with ⟨h0, -⟩ | ⟨hlt, -⟩
    · exact absurd h0 (by decide)
    · exact absurd hlt (by decide)

/-- A read of 4096 bytes of a file of 100 bytes returns 100, and none of them is copied. -/
theorem not_fsReadCorrect_shortFile :
    FsReadRequest bumpEnv (fsReadTrap 4096) (oneFileVfs 100) (oneFile 100) ∧
      ¬FsReadCorrect bumpEnv (fsReadTrap 4096) (oneFileVfs 100) (oneFile 100) := by
  have h : FsReadRequest bumpEnv (fsReadTrap 4096) (oneFileVfs 100) (oneFile 100) :=
    oneFile_request (by decide)
  refine ⟨h, ?_⟩
  rintro ⟨s', hrun, hbytes, -⟩
  have hbyte := hbytes 0 (by decide)
  obtain ⟨p, hp⟩ := Option.ne_none_iff_exists'.mp
    (show (bumpEnv.alloc false).bytePages.next (oneFileVfs 100).bytes ≠ none by decide)
  obtain ⟨s'', hrun', huser⟩ := h.run hp fun i hi => (readable_iff h.pages).2 <| by
    have hlt : i < 100 := hi.trans_le (Nat.min_le_right _ _)
    change (oneFile 100).page ((0 + i) / 4096) ≠ 0
    rw [show (0 + i) / 4096 = 0 by omega]
    decide
  cases hrun.symm.trans hrun'
  rw [huser, UserMemory.byte_withBytes, copiedTo_byte (h.apart hp), if_neg (by decide)] at hbyte
  exact absurd hbyte (by decide)

end Toastium
