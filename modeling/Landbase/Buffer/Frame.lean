import Landbase.Common.Basic
import Landbase.Common.LruCache
import Landbase.Lib.Memory

/-! # Pages, frames and paged files

A page is a block of a file and what a frame holds of it in memory. The first page of every file is its header
`BPFileHeader`: the number of pages, the number of allocated pages, and one bit for each page.
-/

namespace Landbase.Buffer
open Landbase.Lib
set_option autoImplicit false

/-- A file descriptor; `-1` is none. -/
abbrev FileDesc := ℤ

/-- The name under which a file is opened. -/
abbrev FileName := String

/-- The address of a frame. -/
abbrev Ptr := ℕ

/-- `BP_HEADER_PAGE`. -/
def bpHeaderPage : PageNum := 0

/-- `BP_PAGE_DATA_SIZE`: `BP_PAGE_SIZE` less the page number and the log sequence number. -/
def bpPageDataSize : ℕ := 2 ^ 19 - 4 - 4

/-- `struct Page`. -/
structure Page where
  pageNum : PageNum
  lsn : ℤ
  data : Memory

/-- A page of zero bytes, as `memset` leaves it. -/
def Page.zero : Page := ⟨0, 0, fun _ => 0⟩

/-! ## The file header -/

namespace BPFileHeader

/-- `MAX_PAGE_NUM`: the bits that fit behind the two counters. -/
@[irreducible] def maxPageNum : ℕ := (bpPageDataSize - 4 - 4) * 8

/-- `page_count`. -/
def pageCount (header : Memory) : ℤ := header.getInt32 0

/-- `allocated_pages`. -/
def allocatedPages (header : Memory) : ℤ := header.getInt32 4

/-- A bit of `bitmap`. -/
def allocated (header : Memory) (pageNum : PageNum) : Bool := header.getBit 8 pageNum

def setPageCount (header : Memory) (x : ℤ) : Memory := header.setInt32 0 x

def setAllocatedPages (header : Memory) (x : ℤ) : Memory := header.setInt32 4 x

def setAllocated (header : Memory) (pageNum : PageNum) : Memory := header.setBit 8 pageNum

def clearAllocated (header : Memory) (pageNum : PageNum) : Memory := header.clearBit 8 pageNum

/-- The search of `allocate_page` for a free page below `page_count`. -/
def freePage (header : Memory) : Option PageNum :=
  if allocatedPages header < pageCount header then
    (List.range (pageCount header).toNat).find? (fun i => !allocated header i)
  else none

/-- The bitmap has no bit for another page. -/
def full (header : Memory) : Bool := decide ((maxPageNum : ℤ) ≤ pageCount header)

/-- The writes of `allocate_page` that put page `i` to use. -/
def mark (header : Memory) (i : PageNum) : Memory :=
  setAllocated (setAllocatedPages header (allocatedPages header + 1)) i

/-- The writes of `allocate_page` that add page `i` at the end. -/
def extend (header : Memory) (i : PageNum) : Memory :=
  let counted := setAllocatedPages header (allocatedPages header + 1)
  setAllocated (setPageCount counted (pageCount counted + 1)) i

/-- The writes of `dispose_page`. -/
def unmark (header : Memory) (i : PageNum) : Memory :=
  clearAllocated (setAllocatedPages header (allocatedPages header - 1)) i

section

variable {header : Memory} {x : ℤ} {p q : PageNum}

@[simp] theorem pageCount_setAllocatedPages : pageCount (setAllocatedPages header x) = pageCount header :=
  Memory.getInt32_setInt32_of_disjoint (by norm_num) _ _

@[simp] theorem pageCount_setAllocated : pageCount (setAllocated header p) = pageCount header :=
  Memory.getInt32_setBit (by norm_num) _ _

@[simp] theorem pageCount_clearAllocated : pageCount (clearAllocated header p) = pageCount header :=
  Memory.getInt32_clearBit (by norm_num) _ _

@[simp] theorem allocatedPages_setPageCount : allocatedPages (setPageCount header x) = allocatedPages header :=
  Memory.getInt32_setInt32_of_disjoint (by norm_num) _ _

@[simp] theorem allocatedPages_setAllocated : allocatedPages (setAllocated header p) = allocatedPages header :=
  Memory.getInt32_setBit (by norm_num) _ _

@[simp] theorem allocatedPages_clearAllocated : allocatedPages (clearAllocated header p) = allocatedPages header :=
  Memory.getInt32_clearBit (by norm_num) _ _

@[simp] theorem allocated_setPageCount : allocated (setPageCount header x) p = allocated header p :=
  Memory.getBit_setInt32 (by norm_num) _ _ _

@[simp] theorem allocated_setAllocatedPages : allocated (setAllocatedPages header x) p = allocated header p :=
  Memory.getBit_setInt32 (by norm_num) _ _ _

theorem allocated_setAllocated : allocated (setAllocated header p) q = (allocated header q || decide (q = p)) :=
  Memory.getBit_setBit _ _ _ _

theorem allocated_clearAllocated : allocated (clearAllocated header p) q = (allocated header q && decide (q ≠ p)) :=
  Memory.getBit_clearBit _ _ _ _

theorem pageCount_setPageCount (hlo : -2 ^ 31 ≤ x) (hhi : x < 2 ^ 31) : pageCount (setPageCount header x) = x :=
  Memory.getInt32_setInt32 hlo hhi _ _

theorem allocatedPages_setAllocatedPages (hlo : -2 ^ 31 ≤ x) (hhi : x < 2 ^ 31) :
    allocatedPages (setAllocatedPages header x) = x :=
  Memory.getInt32_setInt32 hlo hhi _ _

end

end BPFileHeader

/-! ## Files -/

/-- A file of whole pages. A page that was never written, inside the file or behind its end, is zero. -/
structure File where
  size : ℕ
  pages : PageNum → Page
  blank : ∀ p, size ≤ p → pages p = Page.zero

namespace File

/-- Writing a page at the offset of its own page number; a write behind the end leaves a hole of zeros. -/
def write (file : File) (page : Page) : File where
  size := max file.size (page.pageNum + 1)
  pages := Function.update file.pages page.pageNum page
  blank p hp := by
    have hsize : file.size ≤ p := le_trans (le_max_left _ _) hp
    have hnum : page.pageNum + 1 ≤ p := le_trans (le_max_right _ _) hp
    rw [Function.update_of_ne (Nat.ne_of_gt hnum), file.blank p hsize]

/-- The header page that `create_file` writes: one page, which is the header itself. -/
def createdHeader : Memory :=
  BPFileHeader.setAllocated (BPFileHeader.setPageCount (BPFileHeader.setAllocatedPages Page.zero.data 1) 1) 0

/-- The file that `BufferPoolManager::create_file` makes. -/
def created : File := (⟨0, fun _ => Page.zero, fun _ _ => rfl⟩ : File).write { Page.zero with data := createdHeader }

@[simp] theorem write_pages (file : File) (page : Page) :
    (file.write page).pages = Function.update file.pages page.pageNum page := rfl

@[simp] theorem write_size (file : File) (page : Page) : (file.write page).size = max file.size (page.pageNum + 1) := rfl

end File

/-! ## Frames -/

/-- `class FrameId`. -/
structure FrameId where
  fileDesc : FileDesc
  pageNum : PageNum
  deriving DecidableEq, Repr

/-- `class Frame`, without the latches. -/
structure Frame where
  dirty : Bool
  pinCount : ℕ
  fileDesc : FileDesc
  page : Page

namespace Frame

/-- A frame that has not been used. -/
def init : Frame := ⟨false, 0, -1, Page.zero⟩

/-- `Frame::frame_id`. -/
def frameId (frame : Frame) : FrameId := ⟨frame.fileDesc, frame.page.pageNum⟩

/-- `Frame::can_purge`. -/
def canPurge (frame : Frame) : Bool := frame.pinCount = 0

/-- `Frame::mark_dirty`. -/
def markDirty (frame : Frame) : Frame := { frame with dirty := true }

/-- `Frame::clear_dirty`. -/
def clearDirty (frame : Frame) : Frame := { frame with dirty := false }

/-- `Frame::set_file_desc`. -/
def setFileDesc (frame : Frame) (fd : FileDesc) : Frame := { frame with fileDesc := fd }

/-- `Frame::set_page_num`. -/
def setPageNum (frame : Frame) (pageNum : PageNum) : Frame := { frame with page := { frame.page with pageNum := pageNum } }

/-- `Frame::clear_page`. -/
def clearPage (frame : Frame) : Frame := { frame with page := Page.zero }

/-- A write to the bytes of the page. -/
def setData (frame : Frame) (data : Memory) : Frame := { frame with page := { frame.page with data := data } }

/-- `Frame::pin`. -/
def pin (frame : Frame) : Frame := { frame with pinCount := frame.pinCount + 1 }

/-- The decrement of `Frame::unpin`. -/
def unpin (frame : Frame) : Frame := { frame with pinCount := frame.pinCount - 1 }

end Frame

end Landbase.Buffer
