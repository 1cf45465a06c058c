import Toastium.UserCopy
import Toastium.FdTable
import Toastium.DentryPath
import Toastium.Syscall

/-!
# The services of the syscalls

What the syscalls call of the kernel, as the code has it : the functions of `file_descriptor.c`,
`user_accses.c` and the table of file descriptors, over a state with the file system, the memory
of the process and `sstatus.SIE` (`Vfs`). `irq_disable` and `irq_enable` set the flag and do not
nest. `file_descriptor_read` and `file_descriptor_write` leave it clear when they return, and so
does `file_open_path` when there is no file.

The allocators are a parameter that depends on the flag (`FsEnv.alloc`), so what they do when
they are called with interrupts enabled can be anything, a panic or a wrong address.
`syscallAsyncHandler_alloc_disabled` : no syscall depends on it, as every call of `pg_alloc`,
`pg_free`, `mem_alloc` and `mem_free` is made while interrupts are disabled.

The access mode and the mapping of a descriptor, and the flag of a process that its memory is
being read, are left out : the functions only set them.
-/

namespace Toastium

/-! ## The state -/

/-- `inode`, of a file. -/
structure Inode where
  linkRefs : BitVec 32
  type : InodeType
  size : BitVec 64
  radixRoots : ℕ → ℕ

/-- `file_descriptor`. -/
structure FileDescriptor where
  file : ℕ
  seekPos : BitVec 64
  deriving DecidableEq, Repr

/-- What a process has of files. -/
structure ProcFiles where
  fileDescPg : ℕ
  fileDescCnt : BitVec 64
  workingDir : ℕ
  deriving DecidableEq, Repr

/-- The state of the kernel that the syscalls reach. `bytes` is the memory that is used as bytes :
the pages of files, buffers, and the local array of `syscall_fs_open`. -/
structure Vfs where
  sie : Bool
  printed : List (BitVec 8)
  user : UserMemory
  procs : ℕ → ProcFiles
  tables : Heap (BitVec 64)
  dentries : Dentries
  descs : ℕ → Option FileDescriptor
  inodes : ℕ → Option Inode
  nodes : Heap (BitVec 64)
  bytes : Heap (BitVec 8)

/-- The allocators. -/
structure Allocators where
  /-- `pg_alloc`, for the table of descriptors. -/
  tablePages : PageSource
  /-- `pg_alloc`, for files and buffers. -/
  bytePages : BytePageSource
  /-- `mem_alloc`, for a node of a radix tree. -/
  nodes : NodeSource inodeFileRadixLevelDepth
  /-- `mem_alloc`, for a file descriptor. -/
  descriptor : (ℕ → Option FileDescriptor) → Except (Fault Panic) ℕ
  /-- `mem_alloc`, for a buffer. -/
  memAlloc : ℕ → Heap (BitVec 8) → Except (Fault Panic) (ℕ × Heap (BitVec 8))
  memFree : ℕ → Heap (BitVec 8) → Except (Fault Panic) (Heap (BitVec 8))
  pgFree : ℕ → Heap (BitVec 8) → Except (Fault Panic) (Heap (BitVec 8))

/-- What the code below depends on : the allocators, for each value of `sstatus.SIE`, the register
`t2` when a copy starts, the address of the local array, the text for an unknown syscall, and how
often a loop is run. -/
structure FsEnv where
  alloc : Bool → Allocators
  temp : Vfs → BitVec 8
  path : BitVec 64
  unknownText : TrapData → Vfs → List (BitVec 8)
  fuel : ℕ

namespace Vfs

/-- `irq_disable`. -/
def irqDisable (s : Vfs) : Vfs :=
  { s with sie := false }

/-- `irq_enable`. -/
def irqEnable (s : Vfs) : Vfs :=
  { s with sie := true }

/-- `*file`. -/
def inode (s : Vfs) (file : ℕ) : Except (Fault Panic) Inode :=
  match s.inodes file with
  | some i => .ok i
  | none => .error (.wild file 0)

/-- `*fd`. -/
def desc (s : Vfs) (fd : ℕ) : Except (Fault Panic) FileDescriptor :=
  match s.descs fd with
  | some d => .ok d
  | none => .error (.wild fd 0)

/-- `*fd = d`. -/
def setDesc (s : Vfs) (fd : ℕ) (d : FileDescriptor) : Vfs :=
  { s with descs := Function.update s.descs fd (some d) }

/-- `*file = i`. -/
def setInode (s : Vfs) (file : ℕ) (i : Inode) : Vfs :=
  { s with inodes := Function.update s.inodes file (some i) }

/-- The descriptor with its file. -/
def openFile (s : Vfs) (fd : ℕ) : Except (Fault Panic) OpenFile := do
  let d ← s.desc fd
  let i ← s.inode d.file
  return ⟨i.type, i.size.toNat, i.radixRoots, d.seekPos.toNat, s.nodes, s.bytes⟩

/-- What a read or a write through the descriptor changes : the position, the size, and the
memory. -/
def setOpenFile (s : Vfs) (fd : ℕ) (f : OpenFile) : Except (Fault Panic) Vfs := do
  let d ← s.desc fd
  let i ← s.inode d.file
  let s := s.setInode d.file { i with size := BitVec.ofNat 64 f.size }
  let s := s.setDesc fd { d with seekPos := BitVec.ofNat 64 f.seekPos }
  return { s with nodes := f.nodes, bytes := f.pages }

/-- `n` bytes from cell 0 of `p` on. -/
def loadBytes (h : Heap (BitVec 8)) (p : ℕ) : ℕ → ℕ → Except (Fault Panic) (List (BitVec 8))
  | 0, _ => .ok []
  | n + 1, i => do
    let b ← h.load p i
    let bs ← loadBytes h p n (i + 1)
    return b :: bs

/-- The byte at an address. -/
def byteAt (h : Heap (BitVec 8)) (a : ℕ) : BitVec 8 :=
  match h.objs.find? fun o => o.1 ≤ a ∧ a < o.1 + o.2 with
  | some o => h.cell o.1 (a - o.1)
  | none => 0

section Services

variable (env : FsEnv)

/-! ## User memory -/

/-- `kernel_read_user`. `dest` is the start of a buffer. -/
def kernelReadUser (src size dest : BitVec 64) (s : Vfs) : Except (Fault Panic) (Bool × Vfs) :=
  if readUserRefused src size then .ok (false, s)
  else do
    let s := s.irqDisable
    let (done, bytes) ←
      copyFromUser s.user dest.toNat size.toNat src.toNat 0 (env.temp s) s.bytes
    return (done, { s with bytes := bytes }.irqEnable)

/-- `kernel_write_user`. `src` is the start of a buffer. -/
def kernelWriteUser (dest size src : BitVec 64) (s : Vfs) : Except (Fault Panic) (Bool × Vfs) :=
  if writeUserRefused dest size then .ok (false, s)
  else do
    let s := s.irqDisable
    let (done, user) ← copyToUser s.bytes src.toNat size.toNat 0 dest.toNat s.user
    return (done, { s with user := user }.irqEnable)

/-! ## Files -/

/-- `file_descriptor_read`. A file is read, or it panics, so it returns with interrupts
disabled. -/
def fileDescriptorRead (fd dest size : BitVec 64) (s : Vfs) :
    Except (Fault Panic) (BitVec 64 × Vfs) := do
  let s := s.irqDisable
  let f ← s.openFile fd.toNat
  let (readSize, f) ← Toastium.fileDescriptorRead (env.alloc s.sie).nodes
    (env.alloc s.sie).bytePages f dest.toNat size.toNat
  let s ← s.setOpenFile fd.toNat f
  return (BitVec.ofNat 64 readSize, s)

/-- `file_descriptor_write`. The bytes of `src` are read before they are written, which makes no
difference as `src` is not a page of a file. -/
def fileDescriptorWrite (fd src size : BitVec 64) (s : Vfs) :
    Except (Fault Panic) (BitVec 64 × Vfs) := do
  let s := s.irqDisable
  let f ← s.openFile fd.toNat
  let bytes ← loadBytes s.bytes src.toNat size.toNat 0
  let (written, f) ← Toastium.fileDescriptorWrite (env.alloc s.sie).nodes
    (env.alloc s.sie).bytePages f bytes
  let s ← s.setOpenFile fd.toNat f
  return (BitVec.ofNat 64 written, s)

/-- `file_descriptor_open`, with `inode_inc_open_cnt`. -/
def fileDescriptorOpen (file : BitVec 64) (s : Vfs) : Except (Fault Panic) (BitVec 64 × Vfs) := do
  let i ← s.inode file.toNat
  let s := s.setInode file.toNat { i with linkRefs := i.linkRefs + 1 }
  if file = 0 then return (0, s)
  let desc ← (env.alloc s.sie).descriptor s.descs
  return (BitVec.ofNat 64 desc, s.setDesc desc ⟨file.toNat, 0⟩)

/-- `file_open_path`, of the path in the array at `path`. -/
def fileOpenPath (proc : ℕ) (path : BitVec 64) (s : Vfs) :
    Except (Fault Panic) (BitVec 64 × Vfs) := do
  let s := s.irqDisable
  let dentry ← dentryGetPath s.dentries env.fuel (s.procs proc).workingDir
    (slice (s.bytes.cell path.toNat) 0 (s.bytes.len path.toNat))
  if dentry = 0 then return (0, s)
  let d ← s.dentries.entry dentry
  if d.type ≠ .other then return (0, s)
  if d.inode = 0 then return (0, s)
  let (fileDesc, s) ← s.fileDescriptorOpen env d.inode
  return (fileDesc, s.irqEnable)

/-- `fd_insert_local`. Interrupts are disabled for `pg_alloc`, and enabled after it. -/
def fdInsertLocal (fd : BitVec 64) (proc : ℕ) (s : Vfs) :
    Except (Fault Panic) (BitVec 64 × Vfs) := do
  let (localId, tables) ← Toastium.fdInsertLocal (env.alloc s.irqDisable.sie).tablePages env.fuel
    s.tables (s.procs proc).fileDescPg fd
  let sie := if tables.objs.length = s.tables.objs.length then s.sie else s.irqEnable.sie
  return (BitVec.ofNat 64 localId, { s with tables := tables, sie := sie })

/-- `fd->seek_pos = seek_pos` of `syscall_fs_seek`. -/
def setSeekPos (fd seekPos : BitVec 64) (s : Vfs) : Except (Fault Panic) Vfs := do
  let d ← s.desc fd.toNat
  return s.setDesc fd.toNat { d with seekPos := seekPos }

/-! ## Memory -/

/-- `pg_alloc`, for a buffer. -/
def pgAlloc (s : Vfs) : Except (Fault Panic) (BitVec 64 × Vfs) := do
  let (page, bytes) ← (env.alloc s.sie).bytePages.alloc Panic.outOfFreePages s.bytes
  return (BitVec.ofNat 64 page, { s with bytes := bytes })

/-- `pg_free`. -/
def pgFree (page : BitVec 64) (s : Vfs) : Except (Fault Panic) Vfs := do
  let bytes ← (env.alloc s.sie).pgFree page.toNat s.bytes
  return { s with bytes := bytes }

/-- `mem_alloc`, for a buffer. -/
def memAlloc (size : BitVec 64) (s : Vfs) : Except (Fault Panic) (BitVec 64 × Vfs) := do
  let (location, bytes) ← (env.alloc s.sie).memAlloc size.toNat s.bytes
  return (BitVec.ofNat 64 location, { s with bytes := bytes })

/-- `mem_free`. -/
def memFree (location : BitVec 64) (s : Vfs) : Except (Fault Panic) Vfs := do
  let bytes ← (env.alloc s.sie).memFree location.toNat s.bytes
  return { s with bytes := bytes }

end Services

end Vfs

/-- The services of the syscalls. -/
def fsServices (env : FsEnv) : SyscallServices Vfs where
  uartPrintChar c s := { s with printed := s.printed ++ [c] }
  uartPrintUnknown trap s := { s with printed := s.printed ++ env.unknownText trap s }
  irqDisable := Vfs.irqDisable
  irqEnable := Vfs.irqEnable
  memAlloc := Vfs.memAlloc env
  memFree := Vfs.memFree env
  pgAlloc := Vfs.pgAlloc env
  pgFree := Vfs.pgFree env
  loadByte a s := Vfs.byteAt s.bytes a.toNat
  path := env.path
  clearPath s := { s with bytes := s.bytes.push env.path.toNat 257 }
  kernelReadUser src size dest _ := Vfs.kernelReadUser env src size dest
  kernelWriteUser dest size src _ := Vfs.kernelWriteUser dest size src
  fileDescCnt proc s := (s.procs proc).fileDescCnt
  setFileDescCnt proc cnt s :=
    { s with procs := Function.update s.procs proc { s.procs proc with fileDescCnt := cnt } }
  fileOpenPath := Vfs.fileOpenPath env
  fdGetLocal localId proc s := fdGetLocal s.tables (s.procs proc).fileDescPg localId.toNat
  fdInsertLocal := Vfs.fdInsertLocal env
  fileDescriptorRead := Vfs.fileDescriptorRead env
  fileDescriptorWrite := Vfs.fileDescriptorWrite env
  setSeekPos := Vfs.setSeekPos

/-! ## Allocators are called with interrupts disabled -/

/-- The same, where a call that is made while interrupts are enabled goes to the allocators `A`. -/
def FsEnv.whenEnabled (env : FsEnv) (A : Allocators) : FsEnv :=
  { env with alloc := fun sie => bif sie then A else env.alloc false }

variable {σ : Type} (svc svc' : SyscallServices σ)

theorem uartPrintBytes_congr (hprint : svc.uartPrintChar = svc'.uartPrintChar)
    (hload : svc.loadByte = svc'.loadByte) : ∀ (location : BitVec 64) (n : ℕ) (s : σ),
      uartPrintBytes svc location n s = uartPrintBytes svc' location n s
  | _, 0, _ => rfl
  | location, n + 1, s => by
    simp only [uartPrintBytes, hprint, hload, uartPrintBytes_congr hprint hload _ n]

theorem readPages_congr (hread : svc.fileDescriptorRead = svc'.fileDescriptorRead)
    (hwrite : svc.kernelWriteUser = svc'.kernelWriteUser) (fd page : BitVec 64) (proc : ℕ) :
    ∀ (n : ℕ) (curAddr readSize : BitVec 64) (s : σ),
      readPages svc fd page proc n curAddr readSize s =
        readPages svc' fd page proc n curAddr readSize s
  | 0, _, _, _ => rfl
  | n + 1, curAddr, readSize, s => by
    simp only [readPages, hread, hwrite, readPages_congr hread hwrite fd page proc n]

theorem writePages_congr (hread : svc.kernelReadUser = svc'.kernelReadUser)
    (hwrite : svc.fileDescriptorWrite = svc'.fileDescriptorWrite) (fd page : BitVec 64)
    (proc : ℕ) : ∀ (n : ℕ) (curAddr writeSize : BitVec 64) (s : σ),
      writePages svc fd page proc n curAddr writeSize s =
        writePages svc' fd page proc n curAddr writeSize s
  | 0, _, _, _ => rfl
  | n + 1, curAddr, writeSize, s => by
    simp only [writePages, hread, hwrite, writePages_congr hread hwrite fd page proc n]

/-! The calls to the allocators in the syscalls themselves directly follow an `irq_disable`, so the
two sides are the same there. -/

section Disabled

variable (env : FsEnv) (A : Allocators)

/-- `file_descriptor_read` disables interrupts before it looks for pages. -/
theorem fileDescriptorRead_whenEnabled :
    (fsServices (env.whenEnabled A)).fileDescriptorRead = (fsServices env).fileDescriptorRead :=
  rfl

/-- `file_descriptor_write` disables interrupts before it looks for pages. -/
theorem fileDescriptorWrite_whenEnabled :
    (fsServices (env.whenEnabled A)).fileDescriptorWrite = (fsServices env).fileDescriptorWrite :=
  rfl

/-- `file_open_path` disables interrupts before it opens the descriptor. -/
theorem fileOpenPath_whenEnabled :
    (fsServices (env.whenEnabled A)).fileOpenPath = (fsServices env).fileOpenPath :=
  rfl

/-- `fd_insert_local` disables interrupts for a page of the table. -/
theorem fdInsertLocal_whenEnabled :
    (fsServices (env.whenEnabled A)).fdInsertLocal = (fsServices env).fdInsertLocal :=
  rfl

variable (trap : TrapData) (s : Vfs)

theorem syscallUart_whenEnabled (async : Bool) :
    syscallUart (fsServices (env.whenEnabled A)) async trap s =
      syscallUart (fsServices env) async trap s := by
  unfold syscallUart uartPrintStr
  simp only [uartPrintBytes_congr (fsServices (env.whenEnabled A)) (fsServices env) rfl rfl]
  rfl

theorem syscallFsOpen_whenEnabled :
    syscallFsOpen (fsServices (env.whenEnabled A)) trap s =
      syscallFsOpen (fsServices env) trap s := by
  unfold syscallFsOpen
  rw [fileOpenPath_whenEnabled, fdInsertLocal_whenEnabled]
  rfl

theorem syscallFsRead_whenEnabled :
    syscallFsRead (fsServices (env.whenEnabled A)) trap s =
      syscallFsRead (fsServices env) trap s := by
  unfold syscallFsRead
  simp only [readPages_congr (fsServices (env.whenEnabled A)) (fsServices env)
    (fileDescriptorRead_whenEnabled env A) rfl]
  rfl

theorem syscallFsWrite_whenEnabled :
    syscallFsWrite (fsServices (env.whenEnabled A)) trap s =
      syscallFsWrite (fsServices env) trap s := by
  unfold syscallFsWrite
  simp only [writePages_congr (fsServices (env.whenEnabled A)) (fsServices env) rfl
    (fileDescriptorWrite_whenEnabled env A)]
  rfl

/-- What a syscall does is the same for all allocators that are called while interrupts are
enabled : none are. -/
theorem syscallAsyncHandler_alloc_disabled :
    syscallAsyncHandler (fsServices (env.whenEnabled A)) trap s =
      syscallAsyncHandler (fsServices env) trap s := by
  unfold syscallAsyncHandler
  simp only [syscallUart_whenEnabled, syscallFsOpen_whenEnabled, syscallFsRead_whenEnabled,
    syscallFsWrite_whenEnabled]
  rfl

end Disabled

end Toastium
