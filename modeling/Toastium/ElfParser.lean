import Toastium.ByteOrder
import Toastium.FileRead
import Toastium.MemoryRegions

/-!
# Parsing ELF files

`parse_header`, `parse_program`, `parse_section` and `parse_elf` of `elf_parser.c`, with the byte
orders of `endian.c`. A field is loaded in the byte order of the machine and converted from that
of the file (`readWord_eq`), so what is parsed does not depend on the machine.

`parseHeader_right_iff` : `parse_header` is right just for the files it rejects and is to reject.
It returns `KEP_IMH` if the magic number is there, and takes the first byte of the version for the
version. `parseElf_same_iff` : `parse_elf` does not look at what `parse_header` returns, so after
a header that is rejected the numbers of its loops are what was on the stack.
-/

namespace Toastium

/-! ## Byte orders -/

/-- `flip_u32`. -/
def flipU32 (input : BitVec 32) : BitVec 32 :=
  (0x000000FF &&& input) <<< (8 * 3) |||
  (0x0000FF00 &&& input) <<< (8 * 1) |||
  (0x00FF0000 &&& input) >>> (8 * 1) |||
  (0xFF000000 &&& input) >>> (8 * 3)

/-- `flip_u16`. -/
def flipU16 (input : BitVec 16) : BitVec 16 :=
  (0x00FF &&& input) <<< (8 * 1) ||| (0xFF00 &&& input) >>> (8 * 1)

/-- The bytes of a `u16` in the memory of a machine. -/
def u16Bytes (machine : ByteOrder) (x : BitVec 16) : List (BitVec 8) :=
  match machine with
  | .big => [x.extractLsb' 8 8, x.extractLsb' 0 8]
  | .little => [x.extractLsb' 0 8, x.extractLsb' 8 8]

/-- `init_endian_conversion` : `endian_type`, from the first byte of a 1. -/
def initEndianConversion (machine : ByteOrder) : ByteOrder :=
  if (u16Bytes machine 1).head? = some 0 then .big else .little

/-- `read_u16`, `read_u32` and `read_u64`. `convert` with the flip of the width and an order is
`big_endian_u16_to_host` and the others. -/
def readWord {w : ℕ} (flip : BitVec w → BitVec w) (n : ℕ) (machine : ByteOrder)
    (isBigEndian : Bool) (mem : ℕ → BitVec 8) (p : ℕ) : BitVec w :=
  let value := machine.word w (slice mem p n)
  let endianType := initEndianConversion machine
  if isBigEndian then convert flip endianType .big value else convert flip endianType .little value

/-- `read_u16`. -/
def readU16 := readWord flipU16 2

/-- `read_u32`. -/
def readU32 := readWord flipU32 4

/-- `read_u64`. -/
def readU64 := readWord flipU64 8

/-- The order of a file, from `is_big_endian`. -/
def orderOf (isBigEndian : Bool) : ByteOrder :=
  if isBigEndian then .big else .little

theorem initEndianConversion_eq (machine : ByteOrder) :
    initEndianConversion machine = machine := by
  cases machine <;> rfl

theorem flipsBytes_flipU16 : FlipsBytes 2 flipU16 := by
  intro x i hi
  unfold flipU16
  interval_cases i <;> simp

theorem flipsBytes_flipU32 : FlipsBytes 4 flipU32 := by
  intro x i hi
  unfold flipU32
  interval_cases i <;> simp

theorem flipsBytes_flipU64 : FlipsBytes 8 flipU64 :=
  fun x _ hi => getLsbD_flipU64 x hi

/-- A field is read in the order of the file, on any machine. -/
theorem readWord_eq {w n : ℕ} {flip : BitVec w → BitVec w} (hflip : FlipsBytes n flip)
    (hw : w = 8 * n) (machine : ByteOrder) (isBigEndian : Bool) (mem : ℕ → BitVec 8) (p : ℕ) :
    readWord flip n machine isBigEndian mem p = (orderOf isBigEndian).word w (slice mem p n) := by
  simp only [readWord, initEndianConversion_eq, convert_word hflip hw _ _ length_slice]
  cases isBigEndian <;> rfl

@[simp] theorem readU16_eq (machine : ByteOrder) (isBigEndian : Bool) (mem : ℕ → BitVec 8)
    (p : ℕ) :
    readU16 machine isBigEndian mem p = (orderOf isBigEndian).word 16 (slice mem p 2) :=
  readWord_eq flipsBytes_flipU16 rfl machine isBigEndian mem p

@[simp] theorem readU32_eq (machine : ByteOrder) (isBigEndian : Bool) (mem : ℕ → BitVec 8)
    (p : ℕ) :
    readU32 machine isBigEndian mem p = (orderOf isBigEndian).word 32 (slice mem p 4) :=
  readWord_eq flipsBytes_flipU32 rfl machine isBigEndian mem p

@[simp] theorem readU64_eq (machine : ByteOrder) (isBigEndian : Bool) (mem : ℕ → BitVec 8)
    (p : ℕ) :
    readU64 machine isBigEndian mem p = (orderOf isBigEndian).word 64 (slice mem p 8) :=
  readWord_eq flipsBytes_flipU64 rfl machine isBigEndian mem p

/-! ## The parser -/

/-- What the parse functions return. -/
inductive Kep
  /-- `KEP_SUCCESS` -/
  | success
  /-- `KEP_IMH` -/
  | imh
  /-- `KEP_IV` -/
  | iv
  /-- `KEP_NSET` -/
  | nset
  /-- `KEP_NSAM` -/
  | nsam
  /-- `KEP_IBF` -/
  | ibf
  /-- `KEP_IOC` -/
  | ioc
  /-- `KEP_RF` -/
  | rf
  deriving DecidableEq, Repr

/-- `OS_CODE`. -/
def osCode : BitVec 8 := 0x54

/-- `ELF_TYPE_EXECUTABLE`. -/
def elfTypeExecutable : BitVec 16 := 0x02

/-- `ELF_MACHINE_RISC_V`. -/
def elfMachineRiscV : BitVec 16 := 0xF3

/-- `elf_header`. -/
structure ElfHeader where
  isBigEndian : Bool
  operatingSystem : BitVec 8
  abi : BitVec 8
  objectType : BitVec 16
  archType : BitVec 16
  entry : BitVec 64
  startProgramHeader : BitVec 64
  startSectionHeader : BitVec 64
  cntProgramHeader : BitVec 64
  cntSectionHeader : BitVec 64
  idxSectionNames : BitVec 64
  archFlags : BitVec 32
  deriving DecidableEq, Repr

/-- `elf_section`. -/
structure ElfSection where
  type : BitVec 32
  flags : BitVec 64
  virtAddr : BitVec 64
  fileLoc : BitVec 64
  size : BitVec 64
  linkedSectionIdx : BitVec 32
  extraInfo : BitVec 32
  alignment : BitVec 64
  entrysSize : BitVec 64
  deriving DecidableEq, Repr

/-- `elf_program`. -/
structure ElfProgram where
  type : BitVec 32
  flags : BitVec 32
  fileLoc : BitVec 64
  virtMemAddr : BitVec 64
  physMemAddr : BitVec 64
  fileSize : BitVec 64
  memSize : BitVec 64
  alignment : BitVec 64
  deriving DecidableEq, Repr

/-- A line or a part of a line on the UART. -/
inductive UartText
  | println (str : String)
  | print (str : String)
  | u8Hex (value : BitVec 8)
  deriving DecidableEq, Repr

/-- A call on the descriptor. -/
inductive FdEvent
  | seek (pos : BitVec 64)
  | read (size : ℕ)
  deriving DecidableEq, Repr

/-- The file, the calls made on it, and what was printed. -/
structure ElfIo where
  file : OpenFile
  events : List FdEvent
  printed : List UartText

/-- A fault, and the calls made before it. -/
abbrev ElfFault := Fault Panic × List FdEvent

/-- The checks of `parse_header`, on the bytes read. -/
def checkHeader (machine : ByteOrder) (readData : ℕ → BitVec 8) (header : ElfHeader) :
    Kep × ElfHeader × List UartText :=
  if readU32 machine header.isBigEndian readData 0x0 = 0x7F454c46 then
    (.imh, header, [.println "ELF_PARSER : Invalid magic header"])
  else if readData 0x04 ≠ 2 then
    (.ibf, header, [.println "ELF_PARSER : Incorrect arch bit format"])
  else
    let header := { header with
      isBigEndian := decide (readData 0x05 = 2)
      operatingSystem := readData 0x07
      abi := readData 0x08 }
    if header.operatingSystem ≠ osCode then
      (.ioc, header, [.print "ELF_PARSER : Invalid OS code (", .u8Hex header.operatingSystem,
        .print ")"])
    else
      let header := { header with
        objectType := readU16 machine header.isBigEndian readData 0x10
        archType := readU16 machine header.isBigEndian readData 0x12 }
      if header.objectType ≠ elfTypeExecutable then
        (.nset, header, [.println "ELF_PARSER : Unsupported elf type"])
      else if header.archType ≠ elfMachineRiscV then
        (.nsam, header, [.println "ELF_PARSER : Unsupported architecture machine"])
      else if readData 0x14 ≠ 1 then
        (.iv, header, [.println "ELF_PARSER : Unsupported elf version"])
      else
        (.success, { header with
          entry := readU64 machine header.isBigEndian readData 0x18
          startProgramHeader := readU64 machine header.isBigEndian readData 0x20
          startSectionHeader := readU64 machine header.isBigEndian readData 0x28
          archFlags := readU32 machine header.isBigEndian readData 0x30
          cntProgramHeader :=
            (readU16 machine header.isBigEndian readData 0x38).setWidth 64
          cntSectionHeader :=
            (readU16 machine header.isBigEndian readData 0x3C).setWidth 64
          idxSectionNames :=
            (readU16 machine header.isBigEndian readData 0x3E).setWidth 64 }, [])

/-- `file_descriptor_seek`. -/
def ElfIo.seek (io : ElfIo) (offset : BitVec 64) : ElfIo :=
  { io with
    file := fileDescriptorSeek io.file offset.toNat
    events := io.events ++ [.seek offset] }

section Parser

variable (nodeSrc : NodeSource inodeFileRadixLevelDepth) (pageSrc : BytePageSource)
  (readData : ℕ) (machine : ByteOrder)

/-- `file_descriptor_read` to the local array `read_data`. -/
def ElfIo.read (io : ElfIo) (size : ℕ) : Except ElfFault (ℕ × ElfIo) :=
  match fileDescriptorRead nodeSrc pageSrc io.file readData size with
  | .error e => .error (e, io.events ++ [.read size])
  | .ok (read, file) => .ok (read, { io with file := file, events := io.events ++ [.read size] })

/-- `parse_header`. -/
def parseHeader (header : ElfHeader) (offset : BitVec 64) (io : ElfIo) :
    Except ElfFault (Kep × ElfHeader × ElfIo) := do
  let header := { header with isBigEndian := true }
  let (read, io) ← (io.seek offset).read nodeSrc pageSrc readData 0x40
  if read < 0x40 then return (.rf, header, io)
  else
    let (kep, header, text) := checkHeader machine (io.file.pages.cell readData) header
    return (kep, header, { io with printed := io.printed ++ text })

/-- `parse_section`. -/
def parseSection (header : ElfSection) (offset : BitVec 64) (mheader : ElfHeader) (io : ElfIo) :
    Except ElfFault (Kep × ElfSection × ElfIo) := do
  let (read, io) ← (io.seek offset).read nodeSrc pageSrc readData 0x40
  if read < 0x40 then return (.rf, header, io)
  else
    let data := io.file.pages.cell readData
    return (.success, {
      type := readU32 machine mheader.isBigEndian data 0x04
      flags := readU64 machine mheader.isBigEndian data 0x08
      virtAddr := readU64 machine mheader.isBigEndian data 0x10
      fileLoc := readU64 machine mheader.isBigEndian data 0x18
      size := readU64 machine mheader.isBigEndian data 0x20
      linkedSectionIdx := readU32 machine mheader.isBigEndian data 0x28
      extraInfo := readU32 machine mheader.isBigEndian data 0x2C
      alignment := readU64 machine mheader.isBigEndian data 0x30
      entrysSize := readU64 machine mheader.isBigEndian data 0x38 }, io)

/-- `parse_program`. -/
def parseProgram (header : ElfProgram) (offset : BitVec 64) (mheader : ElfHeader) (io : ElfIo) :
    Except ElfFault (Kep × ElfProgram × ElfIo) := do
  let (read, io) ← (io.seek offset).read nodeSrc pageSrc readData 0x38
  if read < 0x38 then return (.rf, header, io)
  else
    let data := io.file.pages.cell readData
    return (.success, {
      type := readU32 machine mheader.isBigEndian data 0x0
      flags := readU32 machine mheader.isBigEndian data 0x4
      fileLoc := readU64 machine mheader.isBigEndian data 0x08
      virtMemAddr := readU64 machine mheader.isBigEndian data 0x10
      physMemAddr := readU64 machine mheader.isBigEndian data 0x18
      fileSize := readU64 machine mheader.isBigEndian data 0x20
      memSize := readU64 machine mheader.isBigEndian data 0x28
      alignment := readU64 machine mheader.isBigEndian data 0x30 }, io)

/-- What is on the stack where `parse_elf` has its local variables, for each pass of a loop. -/
structure ElfLocals where
  header : ElfHeader
  program : ℕ → ElfProgram
  sect : ℕ → ElfSection

variable (locals : ElfLocals) (header : ElfHeader)

/-- The first loop of `parse_elf`, `n` passes from number `i` on. -/
def parsePrograms : ℕ → ℕ → ElfIo → Except ElfFault ElfIo
  | 0, _, io => .ok io
  | n + 1, i, io => do
    let offset := header.startProgramHeader + 0x38 * BitVec.ofNat 64 i
    let (_, _, io) ←
      parseProgram nodeSrc pageSrc readData machine (locals.program i) offset header io
    parsePrograms n (i + 1) io

/-- The second loop of `parse_elf`, `n` passes from number `i` on. -/
def parseSections : ℕ → ℕ → ElfIo → Except ElfFault ElfIo
  | 0, _, io => .ok io
  | n + 1, i, io => do
    let offset := header.startSectionHeader + 0x40 * BitVec.ofNat 64 i
    let (_, _, io) ←
      parseSection nodeSrc pageSrc readData machine (locals.sect i) offset header io
    parseSections n (i + 1) io

end Parser

/-- `parse_elf`. -/
def parseElf (nodeSrc : NodeSource inodeFileRadixLevelDepth) (pageSrc : BytePageSource)
    (readData : ℕ) (machine : ByteOrder) (locals : ElfLocals) (io : ElfIo) :
    Except ElfFault (BitVec 64 × ElfIo) := do
  let (_, header, io) ← parseHeader nodeSrc pageSrc readData machine locals.header 0 io
  let io ← parsePrograms nodeSrc pageSrc readData machine locals header
    header.cntProgramHeader.toNat 0 io
  let io ← parseSections nodeSrc pageSrc readData machine locals header
    header.cntSectionHeader.toNat 0 io
  return (1, io)

/-! ## The header -/

section Header

/-- The byte order that a header declares. -/
def headerOrder (data : ℕ → BitVec 8) : ByteOrder :=
  orderOf (decide (data 0x05 = 2))

/-- The ELF64 fields of a header, in its byte order. -/
def decodedHeader (data : ℕ → BitVec 8) : ElfHeader where
  isBigEndian := decide (data 0x05 = 2)
  operatingSystem := data 0x07
  abi := data 0x08
  objectType := (headerOrder data).word 16 (slice data 0x10 2)
  archType := (headerOrder data).word 16 (slice data 0x12 2)
  entry := (headerOrder data).word 64 (slice data 0x18 8)
  startProgramHeader := (headerOrder data).word 64 (slice data 0x20 8)
  startSectionHeader := (headerOrder data).word 64 (slice data 0x28 8)
  archFlags := (headerOrder data).word 32 (slice data 0x30 4)
  cntProgramHeader := ((headerOrder data).word 16 (slice data 0x38 2)).setWidth 64
  cntSectionHeader := ((headerOrder data).word 16 (slice data 0x3C 2)).setWidth 64
  idxSectionNames := ((headerOrder data).word 16 (slice data 0x3E 2)).setWidth 64

/-- The magic number of ELF. -/
def ElfMagic (data : ℕ → BitVec 8) : Prop :=
  slice data 0 4 = [0x7F, 0x45, 0x4C, 0x46]

/-- A 64-bit executable of this OS for RISC-V, by the fields that say so. -/
def RightKind (data : ℕ → BitVec 8) : Prop :=
  data 0x04 = 2 ∧ data 0x07 = osCode ∧
    (headerOrder data).word 16 (slice data 0x10 2) = elfTypeExecutable ∧
    (headerOrder data).word 16 (slice data 0x12 2) = elfMachineRiscV

/-- The version is 1. -/
def VersionOne (data : ℕ → BitVec 8) : Prop :=
  (headerOrder data).word 32 (slice data 0x14 4) = 1

/-- The headers that are to be accepted. -/
def GoodHeader (data : ℕ → BitVec 8) : Prop :=
  ElfMagic data ∧ RightKind data ∧ VersionOne data

/-- The headers that `parse_header` accepts. -/
def TakenHeader (data : ℕ → BitVec 8) : Prop :=
  ¬ElfMagic data ∧ RightKind data ∧ data 0x14 = 1

instance (data : ℕ → BitVec 8) : Decidable (ElfMagic data) :=
  inferInstanceAs (Decidable (_ = _))

instance (data : ℕ → BitVec 8) : Decidable (RightKind data) :=
  inferInstanceAs (Decidable (_ ∧ _))

instance (data : ℕ → BitVec 8) : Decidable (VersionOne data) :=
  inferInstanceAs (Decidable (_ = _))

instance (data : ℕ → BitVec 8) : Decidable (GoodHeader data) :=
  inferInstanceAs (Decidable (_ ∧ _))

instance (data : ℕ → BitVec 8) : Decidable (TakenHeader data) :=
  inferInstanceAs (Decidable (_ ∧ _))

variable {data data' : ℕ → BitVec 8}

/-- The number that the magic number is compared with. -/
theorem elfMagic_iff : ByteOrder.big.word 32 (slice data 0 4) = 0x7F454c46 ↔ ElfMagic data := by
  unfold ElfMagic
  have hbytes : slice data 0 4 = [data 0, data 1, data 2, data 3] := rfl
  have h0 := (data 0).isLt
  have h1 := (data 1).isLt
  have h2 := (data 2).isLt
  have h3 := (data 3).isLt
  rw [hbytes, ← BitVec.toNat_inj]
  simp only [ByteOrder.word, ByteOrder.nat, ofBytes, BitVec.toNat_ofNat, List.cons.injEq,
    and_true, ← BitVec.toNat_inj]
  simp [Nat.ofDigits_cons]
  omega

/-- The counts of a header, by which the loops of `parse_elf` are bounded. -/
def ElfHeader.counts (header : ElfHeader) : BitVec 64 × BitVec 64 :=
  (header.cntProgramHeader, header.cntSectionHeader)

/-- What `parse_header` accepts of the bytes it has read, and what it reads off them. A header
that it rejects keeps its counts. -/
theorem checkHeader_cases (machine : ByteOrder) {header : ElfHeader}
    (hbig : header.isBigEndian = true) :
    (TakenHeader data ∧ checkHeader machine data header = (.success, decodedHeader data, [])) ∨
      (¬TakenHeader data ∧ (checkHeader machine data header).1 ≠ .success ∧
        (checkHeader machine data header).2.1.counts = header.counts) := by
  have hmagic : (orderOf true).word 32 (slice data 0 4) = 0x7F454c46 ↔ ElfMagic data :=
    elfMagic_iff
  unfold checkHeader TakenHeader RightKind headerOrder
  simp only [hbig, readU16_eq, readU32_eq, readU64_eq, hmagic]
  split_ifs with hm h4 h7 ht ha h14
  · exact Or.inr ⟨fun h => h.1 hm, nofun, rfl⟩
  · exact Or.inr ⟨fun h => h4 h.2.1.1, nofun, rfl⟩
  · exact Or.inr ⟨fun h => h7 h.2.1.2.1, nofun, rfl⟩
  · exact Or.inr ⟨fun h => ht h.2.1.2.2.1, nofun, rfl⟩
  · exact Or.inr ⟨fun h => ha h.2.1.2.2.2, nofun, rfl⟩
  · exact Or.inr ⟨fun h => h14 h.2.2, nofun, rfl⟩
  · exact Or.inl ⟨⟨hm, ⟨not_not.mp h4, not_not.mp h7, not_not.mp ht, not_not.mp ha⟩,
      not_not.mp h14⟩, rfl⟩

/-- The checks depend on the 64 bytes of a header. -/
theorem checkHeader_congr (machine : ByteOrder) (header : ElfHeader)
    (h : ∀ i < 0x40, data i = data' i) :
    checkHeader machine data header = checkHeader machine data' header := by
  have hslice : ∀ {p n : ℕ}, p + n ≤ 0x40 → slice data p n = slice data' p n := fun hp =>
    slice_congr fun i _ hi => h i (by omega)
  unfold checkHeader
  simp only [readU16_eq, readU32_eq, readU64_eq]
  rw [h 0x04 (by decide), h 0x05 (by decide), h 0x07 (by decide), h 0x08 (by decide),
    h 0x14 (by decide), @hslice 0x0 4 (by decide), @hslice 0x10 2 (by decide),
    @hslice 0x12 2 (by decide), @hslice 0x18 8 (by decide), @hslice 0x20 8 (by decide),
    @hslice 0x28 8 (by decide), @hslice 0x30 4 (by decide), @hslice 0x38 2 (by decide),
    @hslice 0x3C 2 (by decide), @hslice 0x3E 2 (by decide)]

end Header

section Reading

variable {nodeSrc : NodeSource inodeFileRadixLevelDepth} {pageSrc : BytePageSource}
  {readData : ℕ} {io : ElfIo} {offset : BitVec 64}

/-- The bytes of the file from `offset` on. -/
def ElfIo.bytesAt (io : ElfIo) (offset : BitVec 64) (i : ℕ) : BitVec 8 :=
  io.file.byte (offset.toNat + i)

/-- The bytes that a read at `offset` is about have pages, which are not the local array, and the
array has room for them. -/
structure CanRead (readData : ℕ) (io : ElfIo) (offset : BitVec 64) (size : ℕ) : Prop where
  type : io.file.type = .file
  size_lt : io.file.size < 2 ^ 64
  readable : ∀ i < min size (io.file.size - offset.toNat),
    Readable io.file (offset.toNat + i) ∧ io.file.page ((offset.toNat + i) / 4096) ≠ readData
  room : min size (io.file.size - offset.toNat) ≤ io.file.pages.len readData

theorem ElfIo.read_ok {size read : ℕ} {file : OpenFile}
    (h : fileDescriptorRead nodeSrc pageSrc io.file readData size = .ok (read, file)) :
    io.read nodeSrc pageSrc readData size =
      .ok (read, { io with file := file, events := io.events ++ [.read size] }) := by
  rw [ElfIo.read, h]

theorem ElfIo.read_error {size : ℕ} {e : Fault Panic}
    (h : fileDescriptorRead nodeSrc pageSrc io.file readData size = .error e) :
    io.read nodeSrc pageSrc readData size = .error (e, io.events ++ [.read size]) := by
  rw [ElfIo.read, h]

/-- A seek and a read. -/
theorem ElfIo.seek_read {size : ℕ} (h : CanRead readData io offset size) :
    ∃ io', (io.seek offset).read nodeSrc pageSrc readData size =
        .ok (min size (io.file.size - offset.toNat), io') ∧
      (∀ i < min size (io.file.size - offset.toNat),
        io'.file.pages.cell readData i = io.bytesAt offset i) ∧
      io'.events = io.events ++ [.seek offset, .read size] := by
  obtain ⟨pages, hrun, -, -, hcell⟩ := @fileDescriptorRead_eq nodeSrc pageSrc
    (fileDescriptorSeek io.file offset.toNat) readData size h.type h.size_lt h.readable h.room
  refine ⟨_, ElfIo.read_ok hrun, fun i hi => (hcell i).trans (if_pos hi), ?_⟩
  exact List.append_assoc _ _ _

/-- `parse_header` of bytes that can be read. -/
theorem parseHeader_eq (machine : ByteOrder) (h : CanRead readData io offset 0x40) :
    ∃ io', io'.events = io.events ++ [.seek offset, .read 0x40] ∧
      ∀ header, parseHeader nodeSrc pageSrc readData machine header offset io =
        if io.file.size < offset.toNat + 0x40 then
          .ok (.rf, { header with isBigEndian := true }, io')
        else
          .ok ((checkHeader machine (io.bytesAt offset) { header with isBigEndian := true }).1,
            (checkHeader machine (io.bytesAt offset) { header with isBigEndian := true }).2.1,
            { io' with printed := io'.printed ++
              (checkHeader machine (io.bytesAt offset) { header with isBigEndian := true }).2.2 })
    := by
  obtain ⟨io', hread, hbytes, hevents⟩ := @ElfIo.seek_read nodeSrc pageSrc _ _ _ _ h
  refine ⟨io', hevents, fun header => ?_⟩
  rw [parseHeader, hread, ok_bind]
  dsimp only
  by_cases hshort : io.file.size < offset.toNat + 0x40
  · rw [if_pos (by omega), if_pos hshort]
    rfl
  · rw [if_neg (by omega), if_neg hshort, checkHeader_congr machine _ fun i hi =>
      hbytes i (by omega)]
    rfl

end Reading

/-! ## When `parse_header` is right -/

/-- `parse_header` returns `KEP_SUCCESS` just for the 64 bytes of a header that is to be accepted,
and with its fields. -/
def HeaderRight (nodeSrc : NodeSource inodeFileRadixLevelDepth) (pageSrc : BytePageSource)
    (readData : ℕ) (machine : ByteOrder) (header : ElfHeader) (offset : BitVec 64) (io : ElfIo) :
    Prop :=
  ∃ kep h io', parseHeader nodeSrc pageSrc readData machine header offset io = .ok (kep, h, io') ∧
    (kep = .success ↔ offset.toNat + 0x40 ≤ io.file.size ∧ GoodHeader (io.bytesAt offset)) ∧
    (kep = .success → h = decodedHeader (io.bytesAt offset))

section Right

variable {nodeSrc : NodeSource inodeFileRadixLevelDepth} {pageSrc : BytePageSource}
  {readData : ℕ} {machine : ByteOrder} {header : ElfHeader} {io : ElfIo} {offset : BitVec 64}

/-- What `parse_header` accepts, and that it reads the fields right. A header that it rejects
keeps its counts. -/
theorem parseHeader_cases (machine : ByteOrder) (h : CanRead readData io offset 0x40) :
    (offset.toNat + 0x40 ≤ io.file.size ∧ TakenHeader (io.bytesAt offset) ∧
      ∃ io', io'.events = io.events ++ [.seek offset, .read 0x40] ∧
        ∀ header, parseHeader nodeSrc pageSrc readData machine header offset io =
          .ok (.success, decodedHeader (io.bytesAt offset), io')) ∨
    (¬(offset.toNat + 0x40 ≤ io.file.size ∧ TakenHeader (io.bytesAt offset)) ∧
      ∀ header, ∃ kep h' io', parseHeader nodeSrc pageSrc readData machine header offset io =
          .ok (kep, h', io') ∧
        io'.events = io.events ++ [.seek offset, .read 0x40] ∧ kep ≠ .success ∧
        h'.counts = header.counts) := by
  obtain ⟨io', hevents, hrun⟩ := @parseHeader_eq nodeSrc pageSrc _ _ _ machine h
  by_cases hshort : io.file.size < offset.toNat + 0x40
  · refine Or.inr ⟨fun ht => absurd ht.1 (by omega), fun header => ?_⟩
    have hrun' := hrun header
    rw [if_pos hshort] at hrun'
    exact ⟨_, _, _, hrun', hevents, nofun, rfl⟩
  by_cases htaken : TakenHeader (io.bytesAt offset)
  · refine Or.inl ⟨by omega, htaken, { io' with printed := io'.printed ++ [] }, hevents,
      fun header => ?_⟩
    rcases @checkHeader_cases (io.bytesAt offset) machine { header with isBigEndian := true } rfl
      with ⟨-, hcheck⟩ | ⟨hno, -⟩
    · rw [hrun, if_neg hshort, hcheck]
    · exact absurd htaken hno
  · refine Or.inr ⟨fun ht => htaken ht.2, fun header => ?_⟩
    rcases @checkHeader_cases (io.bytesAt offset) machine { header with isBigEndian := true } rfl
      with ⟨hyes, -⟩ | ⟨-, hkep, hcounts⟩
    · exact absurd hyes htaken
    · have hrun' := hrun header
      rw [if_neg hshort] at hrun'
      exact ⟨_, _, _, hrun', hevents, hkep, hcounts⟩

/-- `parse_header` is right if and only if there are no 64 bytes, or a field has a value that is
wrong in any case, or the magic number is there and the version is wrong, or the magic number is
not there and the first byte of the version is not 1. -/
theorem parseHeader_right_iff (h : CanRead readData io offset 0x40) :
    HeaderRight nodeSrc pageSrc readData machine header offset io ↔
      io.file.size < offset.toNat + 0x40 ∨ ¬RightKind (io.bytesAt offset) ∨
        if ElfMagic (io.bytesAt offset) then ¬VersionOne (io.bytesAt offset)
        else io.bytesAt offset 0x14 ≠ 1 := by
  have hright : HeaderRight nodeSrc pageSrc readData machine header offset io ↔
      (offset.toNat + 0x40 ≤ io.file.size ∧ TakenHeader (io.bytesAt offset) ↔
        offset.toNat + 0x40 ≤ io.file.size ∧ GoodHeader (io.bytesAt offset)) := by
    rcases @parseHeader_cases nodeSrc pageSrc _ _ _ machine h with
      ⟨hsize, htaken, io', -, hrun⟩ | ⟨hno, hrun⟩
    · constructor
      · rintro ⟨kep, h', io'', hrun', hgood, -⟩
        rw [hrun] at hrun'
        cases hrun'
        exact iff_of_true ⟨hsize, htaken⟩ (hgood.mp rfl)
      · intro hiff
        exact ⟨_, _, io', hrun header, iff_of_true rfl (hiff.mp ⟨hsize, htaken⟩), fun _ => rfl⟩
    · obtain ⟨kep, h', io', hrun, -, hkep, -⟩ := hrun header
      constructor
      · rintro ⟨kep', h'', io'', hrun', hgood, -⟩
        rw [hrun] at hrun'
        cases hrun'
        exact iff_of_false hno fun hg => hkep (hgood.mpr hg)
      · intro hiff
        exact ⟨kep, h', io', hrun, iff_of_false hkep fun hg => hno (hiff.mpr hg),
          fun hsuc => absurd hsuc hkep⟩
  rw [hright, ← not_le]
  unfold TakenHeader GoodHeader
  by_cases hm : ElfMagic (io.bytesAt offset)
  · rw [if_pos hm]
    tauto
  · rw [if_neg hm]
    tauto

end Right

/-! ## When `parse_elf` does not depend on the stack -/

section Same

variable {nodeSrc : NodeSource inodeFileRadixLevelDepth} {pageSrc : BytePageSource}
  {readData : ℕ} {machine : ByteOrder} {io : ElfIo}

/-- `parse_elf` does the same for all that may be on the stack. If `parse_header` fails it reads
no more, and otherwise its loops go by what is in the file. -/
structure ElfSame (nodeSrc : NodeSource inodeFileRadixLevelDepth) (pageSrc : BytePageSource)
    (readData : ℕ) (machine : ByteOrder) (io : ElfIo) : Prop where
  same : ∀ locals locals', parseElf nodeSrc pageSrc readData machine locals io =
    parseElf nodeSrc pageSrc readData machine locals' io
  stops : ∀ (locals : ElfLocals) kep h io',
    parseHeader nodeSrc pageSrc readData machine locals.header 0 io = .ok (kep, h, io') →
      kep ≠ .success → parseElf nodeSrc pageSrc readData machine locals io = .ok (1, io')
  decoded : ∀ (locals : ElfLocals) kep h io',
    parseHeader nodeSrc pageSrc readData machine locals.header 0 io = .ok (kep, h, io') →
      kep = .success → h = decodedHeader (io.bytesAt 0)

/-- A byte of the header cannot be read, so that `parse_header` panics. -/
def HeaderUnreadable (f : OpenFile) : Prop :=
  f.type ≠ .file ∨ ∃ i < min 0x40 f.size, ¬Readable f i

/-- The panic does not depend on the header. -/
theorem parseHeader_unreadable (hsize : io.file.size < 2 ^ 64) (h : HeaderUnreadable io.file) :
    ∃ e, ∀ header, parseHeader nodeSrc pageSrc readData machine header 0 io = .error e := by
  obtain ⟨e, he⟩ : ∃ e, fileDescriptorRead nodeSrc pageSrc (fileDescriptorSeek io.file 0) readData
      0x40 = .error e := by
    by_cases htype : io.file.type = .file
    · obtain ⟨i, hi, hread⟩ := h.resolve_left (not_not.mpr htype)
      refine fileDescriptorRead_unreadable htype hsize ?_ ⟨i, hi, ?_⟩
      · change 0 % 4096 + min 0x40 (io.file.size - 0) ≤ 4096
        omega
      · rwa [show (fileDescriptorSeek io.file 0).seekPos + i = i from Nat.zero_add i]
    · unfold fileDescriptorRead fileDescriptorSeek
      cases ht : io.file.type with
      | file => exact absurd ht htype
      | socket => exact ⟨_, rfl⟩
      | pipe => exact ⟨_, rfl⟩
      | folder => exact ⟨_, rfl⟩
  have hread := @ElfIo.read_error nodeSrc pageSrc readData (io.seek 0) 0x40 e he
  exact ⟨_, fun header => by rw [parseHeader, hread, error_bind]⟩

/-- A header that can be read. -/
theorem canRead_header (hsize : io.file.size < 2 ^ 64) (hroom : 0x40 ≤ io.file.pages.len readData)
    (hapart : io.file.page 0 ≠ readData) (h : ¬HeaderUnreadable io.file) :
    CanRead readData io 0 0x40 := by
  obtain ⟨htype, hread⟩ := not_or.mp h
  refine ⟨not_not.mp htype, hsize, fun i hi => ?_, (Nat.min_le_left _ _).trans hroom⟩
  change i < min 0x40 (io.file.size - 0) at hi
  rw [show (0 : BitVec 64).toNat + i = i from Nat.zero_add i]
  constructor
  · by_contra hno
    exact hread ⟨i, hi, hno⟩
  · rwa [show i / 4096 = 0 by omega]

/-- A pass of the first loop is seen in the calls on the descriptor. -/
theorem parseProgram_events {program : ElfProgram} {offset : BitVec 64} {header : ElfHeader}
    {kep : Kep} {program' : ElfProgram} {io' : ElfIo}
    (h : parseProgram nodeSrc pageSrc readData machine program offset header io =
      .ok (kep, program', io')) : io'.events = io.events ++ [.seek offset, .read 0x38] := by
  obtain ⟨⟨read, io₁⟩, hread, h⟩ := bind_eq_ok.mp h
  have hevents : io₁.events = io.events ++ [.seek offset, .read 0x38] := by
    unfold ElfIo.read at hread
    split at hread
    · cases hread
    · cases hread
      exact List.append_assoc _ _ _
  dsimp only at h
  split_ifs at h <;> cases h <;> exact hevents

/-- The first loop does not look at what is where a program header is put. -/
theorem parsePrograms_locals (l l' : ElfLocals) (header : ElfHeader) : ∀ (n i : ℕ) (io : ElfIo),
    parsePrograms nodeSrc pageSrc readData machine l header n i io =
      parsePrograms nodeSrc pageSrc readData machine l' header n i io
  | 0, _, _ => rfl
  | n + 1, i, io => by
    rw [parsePrograms, parsePrograms, parseProgram, parseProgram]
    cases (io.seek (header.startProgramHeader + 0x38 * BitVec.ofNat 64 i)).read nodeSrc pageSrc
      readData 0x38 with
    | error e => rfl
    | ok r =>
      simp only [ok_bind]
      split_ifs
      · exact parsePrograms_locals l l' header n (i + 1) _
      · exact parsePrograms_locals l l' header n (i + 1) _

/-- The second loop does not look at what is where a section header is put. -/
theorem parseSections_locals (l l' : ElfLocals) (header : ElfHeader) : ∀ (n i : ℕ) (io : ElfIo),
    parseSections nodeSrc pageSrc readData machine l header n i io =
      parseSections nodeSrc pageSrc readData machine l' header n i io
  | 0, _, _ => rfl
  | n + 1, i, io => by
    rw [parseSections, parseSections, parseSection, parseSection]
    cases (io.seek (header.startSectionHeader + 0x40 * BitVec.ofNat 64 i)).read nodeSrc pageSrc
      readData 0x40 with
    | error e => rfl
    | ok r =>
      simp only [ok_bind]
      split_ifs
      · exact parseSections_locals l l' header n (i + 1) _
      · exact parseSections_locals l l' header n (i + 1) _

/-- Nothing on the stack. -/
def blankLocals : ElfLocals where
  header := ⟨false, 0, 0, 0, 0, 0, 0, 0, 0, 0, 0, 0⟩
  program _ := ⟨0, 0, 0, 0, 0, 0, 0, 0⟩
  sect _ := ⟨0, 0, 0, 0, 0, 0, 0, 0, 0⟩

/-- A 1 on the stack where the number of program headers is. -/
def staleLocals : ElfLocals :=
  { blankLocals with header := { blankLocals.header with cntProgramHeader := 1 } }

/-- After a header that is rejected, `parse_elf` depends on the stack. -/
theorem parseElf_stale {kep kep' : Kep} {h h' : ElfHeader} {io₁ io₂ : ElfIo}
    (hblank : parseHeader nodeSrc pageSrc readData machine blankLocals.header 0 io =
      .ok (kep, h, io₁)) (hcounts : h.counts = (0, 0))
    (hstale : parseHeader nodeSrc pageSrc readData machine staleLocals.header 0 io =
      .ok (kep', h', io₂)) (hcounts' : h'.counts = (1, 0)) (hevents : io₂.events = io₁.events) :
    parseElf nodeSrc pageSrc readData machine blankLocals io ≠
      parseElf nodeSrc pageSrc readData machine staleLocals io := by
  have hcnt : h.cntProgramHeader = 0 ∧ h.cntSectionHeader = 0 := Prod.mk.inj hcounts
  have hcnt' : h'.cntProgramHeader = 1 ∧ h'.cntSectionHeader = 0 := Prod.mk.inj hcounts'
  have hrun : parseElf nodeSrc pageSrc readData machine blankLocals io = .ok (1, io₁) := by
    rw [parseElf, hblank, ok_bind]
    dsimp only
    rw [hcnt.1, hcnt.2]
    rfl
  rw [hrun]
  intro heq
  rw [parseElf, hstale, ok_bind] at heq
  dsimp only at heq
  rw [hcnt'.1, hcnt'.2] at heq
  obtain ⟨io₃, hloop, heq⟩ := bind_eq_ok.mp heq.symm
  obtain ⟨io₄, hsect, heq⟩ := bind_eq_ok.mp heq
  obtain ⟨⟨kep₁, program, io₅⟩, hprogram, hrest⟩ := bind_eq_ok.mp hloop
  cases hrest
  cases hsect
  cases heq
  -- the two runs would have made the same calls
  have hlen := congrArg List.length ((parseProgram_events hprogram).symm.trans hevents.symm)
  simp at hlen

/-- `parse_elf` does the same whatever is on the stack, and stops at a header that is rejected, if
and only if `parse_header` panics or does not reject the header. -/
theorem parseElf_same_iff (hsize : io.file.size < 2 ^ 64)
    (hroom : 0x40 ≤ io.file.pages.len readData) (hapart : io.file.page 0 ≠ readData) :
    ElfSame nodeSrc pageSrc readData machine io ↔
      HeaderUnreadable io.file ∨ (0x40 ≤ io.file.size ∧ TakenHeader (io.bytesAt 0)) := by
  by_cases hun : HeaderUnreadable io.file
  · -- the panic comes first
    obtain ⟨e, he⟩ := @parseHeader_unreadable nodeSrc pageSrc readData machine io hsize hun
    have hrun : ∀ locals, parseElf nodeSrc pageSrc readData machine locals io = .error e :=
      fun locals => by
        rw [parseElf, he]
        rfl
    refine iff_of_true ⟨fun l l' => (hrun l).trans (hrun l').symm, fun l kep h io' hok => ?_,
      fun l kep h io' hok => ?_⟩ (Or.inl hun)
    · rw [he] at hok
      cases hok
    · rw [he] at hok
      cases hok
  rcases @parseHeader_cases nodeSrc pageSrc _ _ _ machine
    (canRead_header hsize hroom hapart hun) with
    ⟨hlen, htaken, io', -, hrun⟩ | ⟨hno, hrun⟩
  · -- the header is accepted, and what is read off it does not depend on the stack
    have hlen' : 0x40 ≤ io.file.size := by simpa using hlen
    refine iff_of_true ⟨fun l l' => ?_, fun l kep h io'' hok hkep => ?_,
      fun l kep h io'' hok _ => ?_⟩ (Or.inr ⟨hlen', htaken⟩)
    · simp only [parseElf, hrun, ok_bind, parsePrograms_locals l l', parseSections_locals l l']
    · rw [hrun] at hok
      cases hok
      exact absurd rfl hkep
    · rw [hrun] at hok
      cases hok
      rfl
  · -- the header is rejected, and its counts are left as they were
    refine iff_of_false (fun hsame => ?_) (not_or.mpr ⟨hun, fun hyes => hno ?_⟩)
    · obtain ⟨kep, h, io₁, hblank, hevents, -, hcounts⟩ := hrun blankLocals.header
      obtain ⟨kep', h', io₂, hstale, hevents', -, hcounts'⟩ := hrun staleLocals.header
      exact parseElf_stale hblank hcounts hstale hcounts' (hevents'.trans hevents.symm)
        (hsame.same _ _)
    · simpa using hyes

end Same

/-! ## A file of one page -/

/-- A file of one page with the given bytes at its start, and a local array at `0x3000`. -/
def elfFile (bytes : List (BitVec 8)) : ElfIo where
  file := { readOnePage with
    pages := ⟨readOnePage.pages.objs, fun q i => if q = 0x2000 then bytes.getD i 0 else 0⟩ }
  events := []
  printed := []

/-- A header of a little-endian executable, up to the version. The other bytes are zero. -/
def goodBytes : List (BitVec 8) :=
  [0x7F, 0x45, 0x4C, 0x46, 2, 1, 1, 0x54, 0, 0, 0, 0, 0, 0, 0, 0, 2, 0, 0xF3, 0, 1, 0, 0, 0]

theorem elfFile_canRead (bytes : List (BitVec 8)) : CanRead 0x3000 (elfFile bytes) 0 0x40 := by
  have hsize : readOnePage.size < 2 ^ 64 := by decide
  have hroom : min 0x40 (readOnePage.size - 0) ≤ readOnePage.pages.len 0x3000 := by decide
  refine ⟨rfl, hsize, fun i hi => ?_, hroom⟩
  have hlt : i < 0x40 := lt_of_lt_of_le hi (Nat.min_le_left _ _)
  have hpage : (elfFile bytes).file.page 0 = 0x2000 := by rfl
  have hlen : (elfFile bytes).file.pages.len 0x2000 = 4096 := by rfl
  rw [show (0 : BitVec 64).toNat + i = i from Nat.zero_add i, Readable,
    show i / 4096 = 0 by omega, hpage, hlen]
  exact ⟨⟨by decide, by omega⟩, by decide⟩

theorem goodBytes_good : GoodHeader ((elfFile goodBytes).bytesAt 0) := by
  decide +kernel

theorem parseHeader_right_elfFile :
    HeaderRight bumpNodes bumpBytePages 0x3000 .little blankLocals.header 0 (elfFile []) ↔
      (elfFile []).file.size < (0 : BitVec 64).toNat + 0x40 ∨
        ¬RightKind ((elfFile []).bytesAt 0) ∨
        if ElfMagic ((elfFile []).bytesAt 0) then ¬VersionOne ((elfFile []).bytesAt 0)
        else (elfFile []).bytesAt 0 0x14 ≠ 1 :=
  parseHeader_right_iff (elfFile_canRead [])

/-- A header that is to be accepted is rejected. -/
theorem parseHeader_rejects : GoodHeader ((elfFile goodBytes).bytesAt 0) ∧
    ¬HeaderRight bumpNodes bumpBytePages 0x3000 .little blankLocals.header 0
      (elfFile goodBytes) := by
  refine ⟨goodBytes_good, ?_⟩
  rintro ⟨kep, h, io', hrun, hgood, -⟩
  have hsuccess : kep = .success := hgood.mpr ⟨by decide, goodBytes_good⟩
  rcases @parseHeader_cases bumpNodes bumpBytePages _ _ _ .little (elfFile_canRead goodBytes) with
    ⟨-, htaken, -⟩ | ⟨-, hno⟩
  · exact htaken.1 goodBytes_good.1
  · obtain ⟨kep', h', io'', hrun', -, hkep, -⟩ := hno blankLocals.header
    rw [hrun'] at hrun
    cases hrun
    exact hkep hsuccess

theorem parseElf_same_elfFile :
    ElfSame bumpNodes bumpBytePages 0x3000 .little (elfFile goodBytes) ↔
      HeaderUnreadable (elfFile goodBytes).file ∨
        (0x40 ≤ (elfFile goodBytes).file.size ∧ TakenHeader ((elfFile goodBytes).bytesAt 0)) :=
  parseElf_same_iff (by decide) (by decide) (by decide)

/-- After the header that is rejected, two contents of the stack give two runs. -/
theorem parseElf_differs :
    parseElf bumpNodes bumpBytePages 0x3000 .little blankLocals (elfFile goodBytes) ≠
      parseElf bumpNodes bumpBytePages 0x3000 .little staleLocals (elfFile goodBytes) := by
  rcases @parseHeader_cases bumpNodes bumpBytePages _ _ _ .little (elfFile_canRead goodBytes) with
    ⟨-, htaken, -⟩ | ⟨-, hno⟩
  · exact absurd goodBytes_good.1 htaken.1
  · obtain ⟨kep, h, io₁, hblank, hevents, -, hcounts⟩ := hno blankLocals.header
    obtain ⟨kep', h', io₂, hstale, hevents', -, hcounts'⟩ := hno staleLocals.header
    exact parseElf_stale hblank hcounts hstale hcounts' (hevents'.trans hevents.symm)

end Toastium
