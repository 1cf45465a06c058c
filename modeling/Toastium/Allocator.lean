import Toastium.Reach
import Toastium.Layout
import Toastium.Chain
import Toastium.Word

/-!
# The block allocator

`mem_alloc` and `mem_free` of `allocator.c`. Sizes are rounded up to a power of two, and
blocks of one size class come from data pages, whose first 64 bytes are a header : the
size, the number of the page, and the class. A class has chained index pages with, for
each data page, a row of its address and its bitmap, where a set bit marks a block in use.

`mem_alloc` walks the rows from the first one of the index page its hint
`lowest_free_entry` leads to. A row takes as many words as a data page has blocks, and one
more. `mem_free` computes the place of the bit from the header, with a row of one word for
each eight blocks, and one more.

The pages that `new_idx_page` and `new_data_page` returned are recorded in `idxPages` and
`dataPages`.
-/

namespace Toastium

/-- `max_idx_page_bitmap_entrys`. -/
def maxIdxPageBitmapEntrys : ℕ := 511

/-- `max_cnt_per_page`. -/
def maxCntPerPage (size : ℕ) : ℕ :=
  (kernelPageSize - 64) / size

/-- `(ROUND_MOD_UP(cnt, 64) / 8) + 1`, the row size that the hint of `mem_alloc` and
`mem_free` use. -/
def dataPageRowSize (cnt : ℕ) : ℕ :=
  (cnt + 63) / 64 * 64 / 8 + 1

/-- `compressed_size` of `mem_alloc`. `63 - clz(n)` is the binary logarithm. -/
def compressedSize (sizeBytes : ℕ) : ℕ :=
  if 2 ^ Nat.log2 sizeBytes ≠ sizeBytes then Nat.log2 sizeBytes + 1 else Nat.log2 sizeBytes

/-- The state of the allocator, with the memory of its pages. -/
structure Allocator where
  heap : Heap (BitVec 64)
  rootIdxPage : ℕ → ℕ
  lowestFreeEntry : ℕ → ℕ
  idxPages : List ℕ
  dataPages : List ℕ

/-- What `mem_alloc` returns, and the bit of the index pages that it set. -/
structure BlockGrant where
  location : ℕ
  idxPage : ℕ
  idxEntry : ℕ
  bit : ℕ
  deriving DecidableEq, Repr

namespace Allocator

variable (src : PageSource)

/-! ## `mem_alloc` -/

/-- `new_idx_page`. -/
def newIdxPage (s : Allocator) : Except (Fault Panic) (ℕ × Allocator) := do
  let (page, heap) ← src.alloc Panic.outOfFreePages s.heap
  return (page, { s with heap := heap, idxPages := page :: s.idxPages })

/-- `new_data_page`. -/
def newDataPage (s : Allocator) : Except (Fault Panic) (ℕ × Allocator) := do
  let (page, heap) ← src.alloc Panic.outOfFreePages s.heap
  return (page, { s with heap := heap, dataPages := page :: s.dataPages })

/-- `p[i] = v`. -/
def store (s : Allocator) (p i : ℕ) (v : BitVec 64) : Except (Fault Panic) Allocator := do
  let heap ← s.heap.store p i v
  return { s with heap := heap }

/-- `lowest_free_entry[compressed] = v`. -/
def setLowest (s : Allocator) (compressed v : ℕ) : Allocator :=
  { s with lowestFreeEntry := Function.update s.lowestFreeEntry compressed v }

/-- The part of `confirm_idx_page` that links a new page if there is no next one. -/
def linkIdxPage (page : ℕ) (s : Allocator) : Except (Fault Panic) Allocator := do
  if (← s.heap.load page 0) = 0 then
    let (newPage, s) ← s.newIdxPage src
    s.store page 0 (BitVec.ofNat 64 newPage)
  else return s

/-- `confirm_idx_page`. Returns the page and the entry. -/
def confirmIdxPage (page entry : ℕ) (s : Allocator) :
    Except (Fault Panic) ((ℕ × ℕ) × Allocator) := do
  if entry ≥ maxIdxPageBitmapEntrys then
    let s ← s.linkIdxPage src page
    let next ← s.heap.load page 0
    return ((next.toNat, 1), s)
  else return ((page, entry), s)

/-- The part of `fetch_and_confirm_data_page` that creates a data page. -/
def createDataPage (page entry pow2 compressed num : ℕ) (s : Allocator) :
    Except (Fault Panic) Allocator := do
  let (newPage, s) ← s.newDataPage src
  let s ← s.store page entry (BitVec.ofNat 64 newPage)
  let dataPage ← s.heap.load page entry
  let s ← s.store dataPage.toNat 0 (BitVec.ofNat 64 pow2)
  let s ← s.store dataPage.toNat 1 (BitVec.ofNat 64 num)
  s.store dataPage.toNat 2 (BitVec.ofNat 64 compressed)

/-- `fetch_and_confirm_data_page`. -/
def fetchAndConfirmDataPage (page entry pow2 compressed num : ℕ) (s : Allocator) :
    Except (Fault Panic) (ℕ × Allocator) := do
  let s ← if (← s.heap.load page entry) = 0 then
      s.createDataPage src page entry pow2 compressed num
    else pure s
  let dataPage ← s.heap.load page entry
  return (dataPage.toNat, s)

/-- The `for` loop of `mem_alloc`, `m` passes from `i` on : the page and entry it ends at,
and the number of the block if one was found. -/
def findBit (cnt : ℕ) : ℕ → ℕ → ℕ → ℕ → Allocator →
    Except (Fault Panic) ((ℕ × ℕ × Option ℕ) × Allocator)
  | 0, _, page, entry, s => .ok ((page, entry, none), s)
  | m + 1, i, page, entry, s => do
    let ((page, entry), s) ← s.confirmIdxPage src page entry
    let word ← s.heap.load page entry
    if word = BitVec.allOnes 64 then findBit cnt m (i + 1) page (entry + 1) s
    else
      let bit := firstClear word
      let localPageNum := i * 64 + bit
      if localPageNum ≥ cnt then findBit cnt m (i + 1) page (entry + 1) s
      else if word.getLsbD bit then .error (.panic .doubleAcquirePage)
      else
        let s ← s.store page entry (setBit word bit)
        return ((page, entry, some localPageNum), s)

/-- The `while` loop of `mem_alloc`, at most `fuel` times. -/
def findBlock (pow2 compressed cnt : ℕ) : ℕ → ℕ → ℕ → ℕ → Allocator →
    Except (Fault Panic) (BlockGrant × Allocator)
  | 0, _, _, _, _ => .error .fuel
  | fuel + 1, num, page, entry, s => do
    let ((page, entry), s) ← s.confirmIdxPage src page entry
    let (dataPage, s) ← s.fetchAndConfirmDataPage src page entry pow2 compressed num
    let ((page, entry, found), s) ← s.findBit src cnt cnt 0 page (entry + 1)
    match found with
    | none => findBlock pow2 compressed cnt fuel (num + 1) page entry s
    | some localPageNum =>
      let globalNum := cnt * num + localPageNum
      return (⟨dataPage + pow2 * localPageNum + 64, page, entry, localPageNum % 64⟩,
        s.setLowest compressed (max (s.lowestFreeEntry compressed) globalNum))

/-- The loop of `mem_alloc` that follows the links to the index page of the hint. -/
def skipIdxPages : ℕ → ℕ → Allocator → Except (Fault Panic) (ℕ × Allocator)
  | 0, page, s => .ok (page, s)
  | n + 1, page, s => do
    let ((page, _), s) ← s.confirmIdxPage src page 999999999
    skipIdxPages n page s

/-- `idx_entry` of `mem_alloc`, the number of the index page it starts at. -/
def hintIdxEntry (lowest cnt : ℕ) : ℕ :=
  lowest / cnt * dataPageRowSize cnt / maxIdxPageBitmapEntrys

/-- The part of `mem_alloc` that creates the first index page of a class. -/
def rootPage (compressed : ℕ) (s : Allocator) : Except (Fault Panic) Allocator := do
  if s.rootIdxPage compressed = 0 then
    let (page, s) ← s.newIdxPage src
    return { s with rootIdxPage := Function.update s.rootIdxPage compressed page }
  else return s

/-- `mem_alloc`. -/
def memAlloc (fuel sizeBytes : ℕ) (s : Allocator) :
    Except (Fault Panic) (BlockGrant × Allocator) := do
  if sizeBytes = 0 then .error (.panic .attemptAllocateZeroBytes)
  let compressed := compressedSize sizeBytes
  let pow2 := 2 ^ compressed
  if pow2 ≥ kernelPageSize then .error (.panic .attemptAllocateLargerThenPage)
  let s ← s.rootPage src compressed
  let cnt := maxCntPerPage pow2
  let idxEntry := hintIdxEntry (s.lowestFreeEntry compressed) cnt
  let (page, s) ← s.skipIdxPages src idxEntry (s.rootIdxPage compressed)
  s.findBlock src pow2 compressed cnt fuel (s.lowestFreeEntry compressed / cnt) page
    (idxEntry % maxIdxPageBitmapEntrys + 1)

/-! ## `mem_free` -/

/-- The loop of `mem_free` that follows the links to the index page of the bit. -/
def idxTable : ℕ → ℕ → Allocator → Except (Fault Panic) ℕ
  | 0, bitmap, _ => .ok bitmap
  | n + 1, bitmap, s => do
    let next ← s.heap.load bitmap 0
    if next = 0 then .error (.panic .allocatorReleaseNoIdxTableLeaf)
    idxTable n next.toNat s

/-- The header of the data page of a block. -/
structure PageHeader where
  entrySize : ℕ
  pageNum : ℕ
  compressed : ℕ
  deriving DecidableEq, Repr

/-- The address of the header : `ROUND_MOD_DOWN(location, KERNEL_PAGE_SIZE)`. -/
def headerPage (location : ℕ) : ℕ :=
  location / kernelPageSize * kernelPageSize

/-- The header as `mem_free` reads it. -/
def pageHeader (location : ℕ) (s : Allocator) : Except (Fault Panic) PageHeader := do
  let entrySize ← s.heap.load (headerPage location) 0
  let pageNum ← s.heap.load (headerPage location) 1
  let compressed ← s.heap.load (headerPage location) 2
  return ⟨entrySize.toNat, pageNum.toNat, compressed.toNat⟩

/-- `page_entry_num`, the number of the block on its page. -/
def pageEntryNum (location entrySize : ℕ) : ℕ :=
  (location - headerPage location + (2 ^ 64 - 64)) % 2 ^ 64 / entrySize

/-- `bitmap_entry_num`, the place of the block's bitmap word among the index entries. -/
def bitmapEntryNum (location : ℕ) (hd : PageHeader) : ℕ :=
  pageEntryNum location hd.entrySize / 64 +
    hd.pageNum * dataPageRowSize (maxCntPerPage hd.entrySize) + 1

/-- The index page, the entry and the bit that `mem_free` computes. -/
def freeBit (location : ℕ) (s : Allocator) : Except (Fault Panic) (ℕ × ℕ × ℕ) := do
  let hd ← s.pageHeader location
  if hd.compressed ≥ 256 then .error (.wild 0 hd.compressed)
  if s.rootIdxPage hd.compressed = 0 then .error (.panic .allocatorReleaseNoIdxTable)
  let bitmap ← s.idxTable (bitmapEntryNum location hd / maxIdxPageBitmapEntrys)
    (s.rootIdxPage hd.compressed)
  return (bitmap, bitmapEntryNum location hd % maxIdxPageBitmapEntrys + 1,
    pageEntryNum location hd.entrySize % 64)

/-- `mem_free`. -/
def memFree (location : ℕ) (s : Allocator) : Except (Fault Panic) Allocator := do
  let hd ← s.pageHeader location
  let (bitmap, position, bit) ← s.freeBit location
  let word ← s.heap.load bitmap position
  if word.getLsbD bit = false then .error (.panic .allocatorReleaseFree)
  let s ← s.store bitmap position (clearBit word bit)
  let globalNum := maxCntPerPage hd.entrySize * hd.pageNum + pageEntryNum location hd.entrySize
  return s.setLowest hd.compressed (min (s.lowestFreeEntry hd.compressed) globalNum)

end Allocator

end Toastium
