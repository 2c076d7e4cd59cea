import Landbase.Buffer.Frame
import Landbase.Common.Bitmap
import Mathlib.Data.Finset.Card

/-! # The record store

`RecordPageHandler` keeps records of one size in a page: a header, a bitmap of the slots in use, and the slots.
`RecordFileHandler` finds a page with a free slot, through the set `free_pages_` of pages that may have one, and
`RecordFileScanner` walks over the pages of the file and the slots of each page.

A record file is seen through its buffer pool: the pages on disk, and the frames that hold some of them, with their dirty
flags. A frame can always be had. Reading and writing outside a page is undefined; a result `none` stands for that.
-/

namespace Landbase.RecordManager
open Lib Buffer
set_option autoImplicit false

/-! ## Pages of records -/

/-- `sizeof(PageHeader)`. -/
def pageHeaderSize : ℕ := 20

namespace PageHeader

def recordNum (page : Memory) : ℤ := page.getInt32 0
def recordRealSize (page : Memory) : ℤ := page.getInt32 4
def recordSize (page : Memory) : ℤ := page.getInt32 8
def recordCapacity (page : Memory) : ℤ := page.getInt32 12
def firstRecordOffset (page : Memory) : ℤ := page.getInt32 16

def setRecordNum (page : Memory) (x : ℤ) : Memory := page.setInt32 0 x

/-- The assignments to the five fields of a new page. -/
def assign (page : Memory) (num realSize size capacity firstOffset : ℤ) : Memory :=
  ((((page.setInt32 0 num).setInt32 4 realSize).setInt32 8 size).setInt32 12 capacity).setInt32 16 firstOffset

end PageHeader

/-- `align8`. -/
def align8 (size : ℕ) : ℕ := (size + 7) / 8 * 8

/-- `page_record_capacity`. The division by `record_size + 0.125` is exact enough in double precision: a quotient that is
not an integer is at least `1 / (8 * record_size + 1)` away from one. -/
def pageRecordCapacity (pageSize recordSize : ℕ) : ℕ := 8 * (pageSize - pageHeaderSize - 1) / (8 * recordSize + 1)

/-- `page_bitmap_size`. -/
def pageBitmapSize (recordCapacity : ℕ) : ℕ := (recordCapacity + 7) / 8

/-- `RecordPageHandler::fix_record_capacity`: the loop that takes records away while the last one leaves the page. -/
def fixRecordCapacity (firstOffset size : ℕ) : ℕ → ℕ
  | 0 => 0
  | capacity + 1 =>
    if bpPageDataSize < firstOffset + (capacity + 1) * size then fixRecordCapacity firstOffset size capacity
    else capacity + 1

/-- The `first_record_offset` of a page for records of a size. -/
def firstOffset (recordSize : ℕ) : ℕ :=
  align8 (pageHeaderSize + pageBitmapSize (pageRecordCapacity bpPageDataSize (align8 recordSize)))

/-- The `record_capacity` of a page for records of a size. -/
def capacity (recordSize : ℕ) : ℕ :=
  fixRecordCapacity (firstOffset recordSize) (align8 recordSize)
    (pageRecordCapacity bpPageDataSize (align8 recordSize))

/-- What `RecordPageHandler::init_empty_page` writes. -/
def initEmptyPage (page : Memory) (recordSize : ℕ) : Memory :=
  (PageHeader.assign page 0 recordSize (align8 recordSize) (capacity recordSize) (firstOffset recordSize)).copy
    pageHeaderSize (fun _ => 0) (pageBitmapSize (capacity recordSize))

/-- The memory behind a pointer to some bytes. -/
def asMemory (bytes : Bytes) : Memory := fun i => bytes.getD i 0

/-- What the record manager sees of a frame. -/
structure Frame where
  data : Memory
  dirty : Bool

namespace RecordPageHandler

/-- `get_record_data`, as an offset into the page. -/
def getRecordData (page : Memory) (slotNum : ℕ) : ℕ :=
  (PageHeader.firstRecordOffset page + PageHeader.recordSize page * slotNum).toNat

/-- `is_full`. -/
def isFull (page : Memory) : Bool := decide (PageHeader.recordCapacity page ≤ PageHeader.recordNum page)

/-- The bit of a slot. -/
def inUse (page : Memory) (slotNum : ℕ) : Bool := page.getBit pageHeaderSize slotNum

/-- The bytes of the record in a slot. -/
def record (page : Memory) (slotNum : ℕ) : Bytes :=
  page.read (getRecordData page slotNum) (PageHeader.recordRealSize page).toNat

/-- `memcpy(record_data, data, page_header_->record_real_size)`. -/
def setRecord (page : Memory) (slotNum : ℕ) (data : Memory) : Memory :=
  page.copy (getRecordData page slotNum) data (PageHeader.recordRealSize page).toNat

/-- `insert_record`. -/
def insertRecord (frame : Frame) (data : Memory) : Option (RC × Option ℕ × Frame) :=
  if PageHeader.recordNum frame.data = PageHeader.recordCapacity frame.data then some (.recordNomem, none, frame)
  else
    match Bitmap.nextUnsettedBit frame.data pageHeaderSize (PageHeader.recordCapacity frame.data).toNat 0 with
    | none => none
    | some index =>
      let page := frame.data.setBit pageHeaderSize index
      let page := PageHeader.setRecordNum page (PageHeader.recordNum page + 1)
      some (.success, some index, ⟨setRecord page index data, true⟩)

/-- The checks of `update_record`, `delete_record` and `get_record` before they go to the slot. `get_record` has another
code for a slot behind the last one. -/
def checkSlot (outside : RC) (page : Memory) (slotNum : ℤ) : Option RC :=
  if PageHeader.recordCapacity page ≤ slotNum then some outside
  else if slotNum < 0 then none
  else if inUse page slotNum.toNat then some .success
  else some .recordNotExist

/-- `update_record`. -/
def updateRecord (frame : Frame) (data : Memory) (slotNum : ℤ) : Option (RC × Frame) :=
  match checkSlot .invalidArgument frame.data slotNum with
  | none => none
  | some .success => some (.success, ⟨setRecord frame.data slotNum.toNat data, true⟩)
  | some rc => some (rc, frame)

/-- `delete_record`. -/
def deleteRecord (frame : Frame) (slotNum : ℤ) : Option (RC × Frame) :=
  match checkSlot .invalidArgument frame.data slotNum with
  | none => none
  | some .success =>
    let page := frame.data.clearBit pageHeaderSize slotNum.toNat
    some (.success, ⟨PageHeader.setRecordNum page (PageHeader.recordNum page - 1), true⟩)
  | some rc => some (rc, frame)

/-- `get_record`. -/
def getRecord (page : Memory) (slotNum : ℤ) : Option (RC × Option Bytes) :=
  match checkSlot .recordInvalidRid page slotNum with
  | none => none
  | some .success => some (.success, some (record page slotNum.toNat))
  | some rc => some (rc, none)

end RecordPageHandler

/-! ## The buffer pool of a record file -/

/-- The `DiskBufferPool` of a record file: the file on disk and the frames with pages of it. -/
structure DiskBufferPool where
  size : ℕ
  file : PageNum → Memory
  frames : PageNum → Option Frame

namespace DiskBufferPool

/-- A file that `create_file` has made and `open_file` has opened. -/
def create : DiskBufferPool where
  size := 1
  file := Function.update (fun _ _ => 0) bpHeaderPage File.createdHeader
  frames := Function.update (fun _ => none) bpHeaderPage (some ⟨File.createdHeader, false⟩)

/-- What a reader of a page finds. -/
def page (pool : DiskBufferPool) (pageNum : PageNum) : Memory :=
  match pool.frames pageNum with
  | some frame => frame.data
  | none => pool.file pageNum

def setFrame (pool : DiskBufferPool) (pageNum : PageNum) (frame : Frame) : DiskBufferPool :=
  { pool with frames := Function.update pool.frames pageNum (some frame) }

/-- `DiskBufferPool::get_this_page`. -/
def getThisPage (pool : DiskBufferPool) (pageNum : ℤ) : RC × Option Frame × DiskBufferPool :=
  if pageNum < 0 then (.ioerrSeek, none, pool)
  else
    match pool.frames pageNum.toNat with
    | some frame => (.success, some frame, pool)
    | none =>
      if pageNum < pool.size then
        (.success, some ⟨pool.file pageNum.toNat, false⟩, pool.setFrame pageNum.toNat ⟨pool.file pageNum.toNat, false⟩)
      else (.ioerrRead, none, pool)

/-- `DiskBufferPool::flush_page`. -/
def flushPage (pool : DiskBufferPool) (pageNum : PageNum) : DiskBufferPool :=
  { pool with
    size := max pool.size (pageNum + 1)
    file := Function.update pool.file pageNum (pool.page pageNum)
    frames := Function.update pool.frames pageNum (some ⟨pool.page pageNum, false⟩) }

/-- `DiskBufferPool::purge_frame` of a frame that nobody else pins. -/
def purgeFrame (pool : DiskBufferPool) (pageNum : PageNum) : DiskBufferPool :=
  match pool.frames pageNum with
  | none => pool
  | some frame =>
    let pool := if frame.dirty then pool.flushPage pageNum else pool
    { pool with frames := Function.update pool.frames pageNum none }

/-- `DiskBufferPool::allocate_page` after the search for a free page below `page_count`. -/
def allocateFound (pool : DiskBufferPool) : Option PageNum → RC × Option PageNum × DiskBufferPool
  | some i =>
    match (pool.setFrame bpHeaderPage ⟨BPFileHeader.mark (pool.page bpHeaderPage) i, true⟩).getThisPage i with
    | (.success, _, pool) => (.success, some i, pool)
    | (rc, _, pool) => (rc, none, pool)
  | none =>
    if BPFileHeader.full (pool.page bpHeaderPage) then (.bufferpoolNobuf, none, pool)
    else
      let pageNum := (BPFileHeader.pageCount (pool.page bpHeaderPage)).toNat
      let pool := pool.setFrame bpHeaderPage ⟨BPFileHeader.extend (pool.page bpHeaderPage) pageNum, true⟩
      (.success, some pageNum, (pool.setFrame pageNum ⟨fun _ => 0, false⟩).flushPage pageNum)

/-- `DiskBufferPool::allocate_page`. -/
def allocatePage (pool : DiskBufferPool) : RC × Option PageNum × DiskBufferPool :=
  pool.allocateFound (BPFileHeader.freePage (pool.page bpHeaderPage))

end DiskBufferPool

/-! ## Files of records -/

/-- `class RecordFileHandler`. -/
structure RecordFileHandler where
  pool : DiskBufferPool
  freePages : Finset PageNum

namespace RecordFileHandler

/-- A handler of a new file: no page has been allocated but the header. -/
def create : RecordFileHandler := ⟨.create, ∅⟩

/-- The loop of `insert_record` over `free_pages_`: pages that are full leave the set. -/
def findPage : DiskBufferPool → List PageNum → RC × Option PageNum × DiskBufferPool × List PageNum
  | pool, [] => (.success, none, pool, [])
  | pool, pageNum :: rest =>
    match pool.getThisPage pageNum with
    | (.success, some frame, pool) =>
      if RecordPageHandler.isFull frame.data then findPage pool rest
      else (.success, some pageNum, pool, pageNum :: rest)
    | (rc, _, pool) => (rc, none, pool, pageNum :: rest)

/-- The end of `insert_record`, with the page at hand. -/
def insertInto (pool : DiskBufferPool) (freePages : Finset PageNum) (pageNum : PageNum) (data : Memory) :
    Option (RC × Option RID × RecordFileHandler) :=
  let dirty := ((pool.frames pageNum).map Frame.dirty).getD false
  (RecordPageHandler.insertRecord ⟨pool.page pageNum, dirty⟩ data).map fun r =>
    (r.1, r.2.1.map fun slotNum => ⟨pageNum, slotNum⟩, ⟨pool.setFrame pageNum r.2.2, freePages⟩)

/-- The part of `insert_record` behind `allocate_page`, when no page with a free slot was found. -/
def insertNew (freePages : Finset PageNum) (data : Memory) (recordSize : ℕ) :
    RC × Option PageNum × DiskBufferPool → Option (RC × Option RID × RecordFileHandler)
  | (.success, some pageNum, pool) =>
    let pool := (pool.setFrame pageNum ⟨initEmptyPage (pool.page pageNum) recordSize, false⟩).flushPage pageNum
    insertInto pool (insert pageNum freePages) pageNum data
  | (rc, _, pool) => some (rc, none, ⟨pool, freePages⟩)

/-- The part of `insert_record` behind the loop over `free_pages_`. -/
def insertFound (data : Memory) (recordSize : ℕ) :
    RC × Option PageNum × DiskBufferPool × List PageNum → Option (RC × Option RID × RecordFileHandler)
  | (.success, some pageNum, pool, rest) => insertInto pool rest.toFinset pageNum data
  | (.success, none, pool, rest) => insertNew rest.toFinset data recordSize pool.allocatePage
  | (rc, _, pool, rest) => some (rc, none, ⟨pool, rest.toFinset⟩)

/-- `insert_record`. The hash set `free_pages_` is walked through in the order `order`. -/
def insertRecord (s : RecordFileHandler) (data : Memory) (recordSize : ℕ) (order : List PageNum) :
    Option (RC × Option RID × RecordFileHandler) :=
  insertFound data recordSize (findPage s.pool order)

/-- `record_page_handler.init` and, when it succeeds, the rest of a call. -/
def onPage {α : Type} (fail : RC → DiskBufferPool → α) (use : Frame → DiskBufferPool → α) :
    RC × Option Frame × DiskBufferPool → α
  | (.success, some frame, pool) => use frame pool
  | (rc, _, pool) => fail rc pool

/-- `update_record`. -/
def updateRecord (s : RecordFileHandler) (data : Memory) (rid : RID) : Option (RC × RecordFileHandler) :=
  onPage (fun rc pool => some (rc, { s with pool := pool }))
    (fun frame pool => (RecordPageHandler.updateRecord frame data rid.slotNum).map fun r =>
      (r.1, { s with pool := pool.setFrame rid.pageNum.toNat r.2 }))
    (s.pool.getThisPage rid.pageNum)

/-- `delete_record`. -/
def deleteRecord (s : RecordFileHandler) (rid : RID) : Option (RC × RecordFileHandler) :=
  onPage (fun rc pool => some (rc, { s with pool := pool }))
    (fun frame pool => (RecordPageHandler.deleteRecord frame rid.slotNum).map fun r =>
      (r.1, ⟨pool.setFrame rid.pageNum.toNat r.2,
        if r.1 = .success then insert rid.pageNum.toNat s.freePages else s.freePages⟩))
    (s.pool.getThisPage rid.pageNum)

/-- `visit_record`: the bytes that the visitor finds, and what it makes of them in their place. -/
def visitRecord (s : RecordFileHandler) (rid : RID) (visitor : Bytes → Bytes) :
    Option (RC × Option Bytes × RecordFileHandler) :=
  onPage (fun rc pool => some (rc, none, { s with pool := pool }))
    (fun frame pool => (RecordPageHandler.getRecord frame.data rid.slotNum).map fun r =>
      (r.1, r.2, { s with
        pool := r.2.elim pool fun data => pool.setFrame rid.pageNum.toNat
          { frame with
            data := RecordPageHandler.setRecord frame.data rid.slotNum.toNat (asMemory (visitor data)) } }))
    (s.pool.getThisPage rid.pageNum)

end RecordFileHandler

/-! ## Scans -/

/-- A `Record` as a scan hands it out: its place, and the memory that its data pointer shows. -/
structure Record where
  rid : RID
  data : Memory

/-- `class RecordFileScanner`: the page and the size of `bp_iterator_`, the page of `record_page_iterator_` once it is
valid, its next slot, and `next_record_`. The slot number `-1` is none. -/
structure RecordFileScanner where
  currentPageNum : PageNum
  pageCount : ℕ
  pageNum : Option PageNum
  nextSlotNum : Option ℕ
  nextRecord : Option Record

namespace RecordFileScanner

/-- The slot that `RecordPageIterator` comes to next. -/
def nextSlot (page : Memory) (start : ℕ) : Option ℕ :=
  Bitmap.nextSettedBit page pageHeaderSize (PageHeader.recordCapacity page).toNat start

/-- The record that `RecordPageIterator::next` sets. -/
def recordAt (page : Memory) (pageNum : PageNum) (slotNum : ℕ) : Record :=
  ⟨⟨pageNum, slotNum⟩, fun i => page (RecordPageHandler.getRecordData page slotNum + i)⟩

section

variable (filter : Record → Bool) (visit : Record → RC)

/-- `fetch_next_record_in_page`: the code, `next_record_` and the next slot. Without a filter all records pass, without a
transaction a visit succeeds. -/
def fetchNextRecordInPage (page : Memory) (pageNum : PageNum) : ℕ → Option ℕ → RC × Option Record × Option ℕ
  | _, none => (.recordEof, none, none)
  | 0, some slotNum => (.recordEof, none, some slotNum)
  | rounds + 1, some slotNum =>
    let record := recordAt page pageNum slotNum
    let next := nextSlot page (slotNum + 1)
    if !filter record || visit record = .recordInvisible then fetchNextRecordInPage page pageNum rounds next
    else (visit record, some record, next)

/-- `fetch_next_record_in_page` on the page of the iterator: the slots of the page are rounds enough. -/
def fetchInPage (pool : DiskBufferPool) (scanner : RecordFileScanner) (pageNum : PageNum) : RC × RecordFileScanner :=
  let rounds := (PageHeader.recordCapacity (pool.page pageNum)).toNat
  let r := fetchNextRecordInPage filter visit (pool.page pageNum) pageNum rounds scanner.nextSlotNum
  (r.1, { scanner with nextRecord := r.2.1, nextSlotNum := r.2.2 })

/-- The page that `bp_iterator_` comes to next. -/
def nextPage (pool : DiskBufferPool) (scanner : RecordFileScanner) : Option PageNum :=
  Bitmap.nextSettedBit (pool.page bpHeaderPage) 8 scanner.pageCount (scanner.currentPageNum + 1)

/-- The result of a page, or of what comes behind it when the page has come to its end. -/
def orBehind (behind : DiskBufferPool → RecordFileScanner → RC × DiskBufferPool × RecordFileScanner)
    (pool : DiskBufferPool) : RC × RecordFileScanner → RC × DiskBufferPool × RecordFileScanner
  | (.recordEof, scanner) => behind pool scanner
  | (rc, scanner) => (rc, pool, scanner)

/-- A round of the loop of `fetch_next_record`, with the result of `record_page_handler_.init`. -/
def enterPage (behind : DiskBufferPool → RecordFileScanner → RC × DiskBufferPool × RecordFileScanner)
    (scanner : RecordFileScanner) (pageNum : PageNum) :
    RC × Option Frame × DiskBufferPool → RC × DiskBufferPool × RecordFileScanner
  | (.success, some frame, pool) =>
    orBehind behind pool (fetchInPage filter visit pool
      { scanner with currentPageNum := pageNum, pageNum := some pageNum, nextSlotNum := nextSlot frame.data 0 } pageNum)
  | (rc, _, pool) => (rc, pool, { scanner with currentPageNum := pageNum })

/-- The loop of `fetch_next_record` over the pages. -/
def fetchPages : ℕ → DiskBufferPool → RecordFileScanner → RC × DiskBufferPool × RecordFileScanner
  | 0, pool, scanner => (.recordEof, pool, { scanner with nextRecord := none })
  | rounds + 1, pool, scanner =>
    (nextPage pool scanner).elim (.recordEof, pool, { scanner with nextRecord := none }) fun pageNum =>
      enterPage filter visit (fetchPages rounds) scanner pageNum (pool.getThisPage pageNum)

/-- `fetch_next_record`: the pages of the file are rounds enough. -/
def fetchNextRecord (pool : DiskBufferPool) (scanner : RecordFileScanner) : RC × DiskBufferPool × RecordFileScanner :=
  match scanner.pageNum with
  | none => fetchPages filter visit scanner.pageCount pool scanner
  | some pageNum =>
    orBehind (fetchPages filter visit scanner.pageCount) pool (fetchInPage filter visit pool scanner pageNum)

/-- The end of a file is no error for `open_scan` and `next`. -/
def endOk (rc : RC) : RC := if rc = .recordEof then .success else rc

/-- `open_scan`. -/
def openScan (pool : DiskBufferPool) : RC × DiskBufferPool × RecordFileScanner :=
  let pageCount := (BPFileHeader.pageCount (pool.page bpHeaderPage)).toNat
  let r := fetchNextRecord filter visit pool ⟨0, pageCount, none, none, none⟩
  (endOk r.1, r.2)

/-- `next`, after `has_next`. -/
def next (pool : DiskBufferPool) (scanner : RecordFileScanner) : RC × DiskBufferPool × RecordFileScanner :=
  let r := fetchNextRecord filter visit pool scanner
  (endOk r.1, r.2)

/-- `while (scanner.has_next()) scanner.next(record)`, for so many rounds at most: the records, if the scan has come to
its end without an error. -/
def collect : ℕ → RC × DiskBufferPool × RecordFileScanner → Option (List Record)
  | rounds, (.success, pool, scanner) =>
    match rounds, scanner.nextRecord with
    | _, none => some []
    | 0, some _ => none
    | rounds + 1, some record => (collect rounds (next filter visit pool scanner)).map (record :: ·)
  | _, _ => none

/-- A whole scan of a file. -/
def scan (rounds : ℕ) (pool : DiskBufferPool) : Option (List Record) :=
  collect filter visit rounds (openScan filter visit pool)

end

end RecordFileScanner

end Landbase.RecordManager
