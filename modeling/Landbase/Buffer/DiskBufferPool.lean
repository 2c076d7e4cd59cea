import Landbase.Buffer.Frame

/-! # The buffer pool

`BPFrameManager` holds the frames that all files share: the frames in use are in an LRU cache under the descriptor and
number of their page, the others wait in the free list of the allocator. `DiskBufferPool` is one open file, whose header
frame stays pinned as long as the file is open. `BufferPoolManager` is all of it, with the files of the disk.

Reads and writes of the disk succeed inside a file. A failed assertion ends the process; `allocate_frame` spins when no
frame can be had, because the loop around `purge_frames` never gives up.
-/

namespace Landbase.Buffer
open Landbase.Lib
set_option autoImplicit false

/-- Why a call does not return. -/
inductive Stop
  | assertion | spinning
  deriving DecidableEq, Repr

/-- `class DiskBufferPool`. -/
structure DiskBufferPool where
  fileName : FileName
  fileDesc : FileDesc
  hdrFrame : Ptr
  deriving DecidableEq, Repr

/-- `class BufferPoolManager` with its `BPFrameManager` (`frames_` and the items and free list of `allocator_`), the
open buffer pools, and the files on disk. -/
structure BufferPoolManager where
  frames : LruCache FrameId Ptr
  memory : Ptr → Frame
  frees : List Ptr
  bufferPools : List DiskBufferPool
  files : FileName → File

namespace BufferPoolManager

/-- A manager of `n` frames that has opened no file. -/
def init (n : ℕ) (files : FileName → File) : BufferPoolManager :=
  ⟨LruCache.empty, fun _ => Frame.init, List.range n, [], files⟩

/-- A change of one frame. -/
def modify (s : BufferPoolManager) (ptr : Ptr) (f : Frame → Frame) : BufferPoolManager :=
  { s with memory := Function.update s.memory ptr (f (s.memory ptr)) }

/-- `Frame::unpin`. -/
def unpin (s : BufferPoolManager) (ptr : Ptr) : Except Stop BufferPoolManager :=
  if 0 < (s.memory ptr).pinCount then .ok (s.modify ptr Frame.unpin) else .error .assertion

/-! ## The frame manager -/

/-- `BPFrameManager::get`. -/
def get (s : BufferPoolManager) (frameId : FrameId) : Option Ptr × BufferPoolManager :=
  match s.frames.get frameId with
  | (some ptr, frames) => (some ptr, { s with frames := frames }.modify ptr Frame.pin)
  | (none, frames) => (none, { s with frames := frames })

/-- `BPFrameManager::alloc`. -/
def alloc (s : BufferPoolManager) (frameId : FrameId) : Except Stop (Option Ptr × BufferPoolManager) :=
  match s.get frameId with
  | (some ptr, s) => .ok (some ptr, s)
  | (none, s) =>
    match s.frees with
    | [] => .ok (none, s)
    | ptr :: frees =>
      if (s.memory ptr).pinCount = 0 then
        .ok (some ptr, { s with frees := frees, frames := s.frames.put frameId ptr }.modify ptr
          fun frame => (frame.setPageNum frameId.pageNum).pin)
      else .error .assertion

/-- `BPFrameManager::free`. -/
def free (s : BufferPoolManager) (frameId : FrameId) (ptr : Ptr) : Except Stop BufferPoolManager :=
  match s.frames.get frameId with
  | (frameSource, frames) =>
    if frameSource = some ptr ∧ (s.memory ptr).pinCount = 1 then
      .ok ({ s with frames := frames.remove frameId, frees := s.frees ++ [ptr] }.modify ptr Frame.unpin)
    else .error .assertion

/-- `BPFrameManager::find_list`. -/
def findList (s : BufferPoolManager) (fd : FileDesc) : List Ptr × BufferPoolManager :=
  let found := (s.frames.nodes.filter (fun node => node.1.fileDesc = fd)).map Prod.snd
  (found, found.foldl (fun s ptr => s.modify ptr Frame.pin) s)

/-! ## Writing pages back -/

/-- `DiskBufferPool::flush_page_internal`. -/
def flushPageInternal (s : BufferPoolManager) (bp : DiskBufferPool) (ptr : Ptr) : BufferPoolManager :=
  { s with files := Function.update s.files bp.fileName ((s.files bp.fileName).write (s.memory ptr).page) }.modify ptr
    Frame.clearDirty

/-- `BufferPoolManager::flush_page`. -/
def flushPage (s : BufferPoolManager) (ptr : Ptr) : RC × BufferPoolManager :=
  match s.bufferPools.find? (fun bp => bp.fileDesc = (s.memory ptr).fileDesc) with
  | some bp => (.success, s.flushPageInternal bp ptr)
  | none => (.internal, s)

/-- The `purger` of `allocate_frame`. -/
def purger (s : BufferPoolManager) (bp : DiskBufferPool) (ptr : Ptr) : RC × BufferPoolManager :=
  if !(s.memory ptr).dirty then (.success, s)
  else if (s.memory ptr).fileDesc = bp.fileDesc then (.success, s.flushPageInternal bp ptr)
  else s.flushPage ptr

/-- The second loop of `BPFrameManager::purge_frames`, over the frames that `purge_finder` has pinned. -/
def purgeLoop (bp : DiskBufferPool) : List Ptr → BufferPoolManager → Except Stop (ℕ × BufferPoolManager)
  | [], s => .ok (0, s)
  | ptr :: rest, s =>
    match s.purger bp ptr with
    | (.success, s) =>
      match s.free (s.memory ptr).frameId ptr with
      | .error stop => .error stop
      | .ok s =>
        match purgeLoop bp rest s with
        | .error stop => .error stop
        | .ok (freed, s) => .ok (freed + 1, s)
    | (_, s) =>
      match s.unpin ptr with
      | .error stop => .error stop
      | .ok s => purgeLoop bp rest s

/-- What `purge_finder` collects: the frames that can be purged, from the least recently used on. -/
def framesCanPurge (s : BufferPoolManager) (count : ℕ) : List Ptr :=
  ((s.frames.nodes.reverse.map Prod.snd).filter (fun ptr => (s.memory ptr).canPurge)).take (max count 1)

/-- `BPFrameManager::purge_frames` with the purger of `bp`; the result is the number of frames it has freed. -/
def purgeFrames (s : BufferPoolManager) (bp : DiskBufferPool) (count : ℕ) : Except Stop (ℕ × BufferPoolManager) :=
  purgeLoop bp (s.framesCanPurge count) ((s.framesCanPurge count).foldl (fun s ptr => s.modify ptr Frame.pin) s)

/-- The first `n` rounds of the loop of `DiskBufferPool::allocate_frame`. -/
def allocateFrameLoop (bp : DiskBufferPool) (pageNum : PageNum) :
    ℕ → BufferPoolManager → Except Stop (Ptr × BufferPoolManager)
  | 0, _ => .error .spinning
  | n + 1, s =>
    match s.alloc ⟨bp.fileDesc, pageNum⟩ with
    | .error stop => .error stop
    | .ok (some ptr, s) => .ok (ptr, s)
    | .ok (none, s) =>
      match s.purgeFrames bp 1 with
      | .error stop => .error stop
      | .ok (_, s) => allocateFrameLoop bp pageNum n s

/-- `DiskBufferPool::allocate_frame`: more than two rounds change nothing (`allocateFrameLoop_eq`). -/
def allocateFrame (s : BufferPoolManager) (bp : DiskBufferPool) (pageNum : PageNum) :
    Except Stop (Ptr × BufferPoolManager) :=
  allocateFrameLoop bp pageNum 2 s

/-- `DiskBufferPool::purge_frame`. A pin it does not like stays where it is. -/
def purgeFrame (s : BufferPoolManager) (bp : DiskBufferPool) (pageNum : PageNum) (ptr : Ptr) :
    Except Stop (RC × BufferPoolManager) :=
  if (s.memory ptr).pinCount ≠ 1 then .ok (.lockedUnlock, s)
  else
    let s := if (s.memory ptr).dirty then s.flushPageInternal bp ptr else s
    match s.free ⟨bp.fileDesc, pageNum⟩ ptr with
    | .error stop => .error stop
    | .ok s => .ok (.success, s)

/-! ## The operations of an open file -/

/-- `DiskBufferPool::load_page`. -/
def loadPage (s : BufferPoolManager) (bp : DiskBufferPool) (pageNum : PageNum) (ptr : Ptr) : RC × BufferPoolManager :=
  if pageNum < (s.files bp.fileName).size then
    (.success, s.modify ptr fun frame => { frame with page := (s.files bp.fileName).pages pageNum })
  else (.ioerrRead, s)

/-- `DiskBufferPool::get_this_page`. -/
def getThisPage (s : BufferPoolManager) (bp : DiskBufferPool) (pageNum : PageNum) :
    Except Stop (RC × Option Ptr × BufferPoolManager) :=
  match s.get ⟨bp.fileDesc, pageNum⟩ with
  | (some ptr, s) => .ok (.success, some ptr, s)
  | (none, s) =>
    match s.allocateFrame bp pageNum with
    | .error stop => .error stop
    | .ok (ptr, s) =>
      match (s.modify ptr (·.setFileDesc bp.fileDesc)).loadPage bp pageNum ptr with
      | (.success, s) => .ok (.success, some ptr, s)
      | (rc, s) =>
        match s.purgeFrame bp pageNum ptr with
        | .error stop => .error stop
        | .ok (_, s) => .ok (rc, none, s)

/-- `file_header_`: the bytes of the header frame. -/
def header (s : BufferPoolManager) (bp : DiskBufferPool) : Memory := (s.memory bp.hdrFrame).page.data

/-- A change of `file_header_`, with the header frame marked dirty. -/
def setHeader (s : BufferPoolManager) (bp : DiskBufferPool) (header : Memory) : BufferPoolManager :=
  s.modify bp.hdrFrame fun frame => (frame.setData header).markDirty

/-- The end of `allocate_page` for a page `pageNum` behind the last one, once it has the frame `ptr`. -/
def extendFile (s : BufferPoolManager) (bp : DiskBufferPool) (pageNum : PageNum) (ptr : Ptr) : BufferPoolManager :=
  ((s.setHeader bp (BPFileHeader.extend (s.header bp) pageNum)).modify ptr
    fun frame => ((frame.setFileDesc bp.fileDesc).clearPage).setPageNum pageNum).flushPageInternal bp ptr

/-- `DiskBufferPool::allocate_page` after the search for a free page below `page_count`. -/
def allocateFound (s : BufferPoolManager) (bp : DiskBufferPool) :
    Option PageNum → Except Stop (RC × Option Ptr × BufferPoolManager)
  | some i => (s.setHeader bp (BPFileHeader.mark (s.header bp) i)).getThisPage bp i
  | none =>
    if BPFileHeader.full (s.header bp) then .ok (.bufferpoolNobuf, none, s)
    else
      match s.allocateFrame bp (BPFileHeader.pageCount (s.header bp)).toNat with
      | .error stop => .error stop
      | .ok (ptr, s') => .ok (.success, some ptr, s'.extendFile bp (BPFileHeader.pageCount (s.header bp)).toNat ptr)

/-- `DiskBufferPool::allocate_page`. -/
def allocatePage (s : BufferPoolManager) (bp : DiskBufferPool) : Except Stop (RC × Option Ptr × BufferPoolManager) :=
  s.allocateFound bp (BPFileHeader.freePage (s.header bp))

/-- `DiskBufferPool::dispose_page`. -/
def disposePage (s : BufferPoolManager) (bp : DiskBufferPool) (pageNum : PageNum) :
    Except Stop (RC × BufferPoolManager) :=
  match s.get ⟨bp.fileDesc, pageNum⟩ with
  | (none, s) => .ok (.notfound, s)
  | (some ptr, s) =>
    match s.free ⟨bp.fileDesc, pageNum⟩ ptr with
    | .error stop => .error stop
    | .ok s => .ok (.success, s.setHeader bp (BPFileHeader.unmark (s.header bp) pageNum))

/-! ## Maintenance -/

/-- `DiskBufferPool::purge_page`. -/
def purgePage (s : BufferPoolManager) (bp : DiskBufferPool) (pageNum : PageNum) :
    Except Stop (RC × BufferPoolManager) :=
  match s.get ⟨bp.fileDesc, pageNum⟩ with
  | (some ptr, s) => s.purgeFrame bp pageNum ptr
  | (none, s) => .ok (.success, s)

/-- The loop of `purge_all_pages`. -/
def purgeAllLoop (bp : DiskBufferPool) : List Ptr → BufferPoolManager → Except Stop BufferPoolManager
  | [], s => .ok s
  | ptr :: rest, s =>
    match s.purgeFrame bp (s.memory ptr).page.pageNum ptr with
    | .error stop => .error stop
    | .ok (_, s) => purgeAllLoop bp rest s

/-- `DiskBufferPool::purge_all_pages`. -/
def purgeAllPages (s : BufferPoolManager) (bp : DiskBufferPool) : Except Stop (RC × BufferPoolManager) :=
  match purgeAllLoop bp (s.findList bp.fileDesc).1 (s.findList bp.fileDesc).2 with
  | .error stop => .error stop
  | .ok s => .ok (.success, s)

/-- The loop of `check_all_pages_unpinned`; the warnings it writes change nothing. -/
def unpinAll : List Ptr → BufferPoolManager → Except Stop BufferPoolManager
  | [], s => .ok s
  | ptr :: rest, s =>
    match s.unpin ptr with
    | .error stop => .error stop
    | .ok s => unpinAll rest s

/-- `DiskBufferPool::check_all_pages_unpinned`. -/
def checkAllPagesUnpinned (s : BufferPoolManager) (bp : DiskBufferPool) : Except Stop (RC × BufferPoolManager) :=
  match unpinAll (s.findList bp.fileDesc).1 (s.findList bp.fileDesc).2 with
  | .error stop => .error stop
  | .ok s => .ok (.success, s)

/-- `DiskBufferPool::flush_all_pages`. The pins that `find_list` takes are not given back. -/
def flushAllPages (s : BufferPoolManager) (bp : DiskBufferPool) : RC × BufferPoolManager :=
  (.success, (s.findList bp.fileDesc).1.foldl (fun s ptr => s.flushPageInternal bp ptr) (s.findList bp.fileDesc).2)

/-- `BufferPoolManager::open_file`, when the operating system gives the descriptor `fd`. -/
def openFile (s : BufferPoolManager) (fileName : FileName) (fd : FileDesc) :
    Except Stop (RC × Option DiskBufferPool × BufferPoolManager) :=
  if s.bufferPools.any (fun bp => bp.fileName = fileName) then .ok (.bufferpoolOpen, none, s)
  else
    match s.allocateFrame ⟨fileName, fd, 0⟩ bpHeaderPage with
    | .error stop => .error stop
    | .ok (ptr, s) =>
      let bp : DiskBufferPool := ⟨fileName, fd, ptr⟩
      match (s.modify ptr (·.setFileDesc fd)).loadPage bp bpHeaderPage ptr with
      | (.success, s) => .ok (.success, some bp, { s with bufferPools := bp :: s.bufferPools })
      | (rc, s) =>
        match s.purgeFrame bp bpHeaderPage ptr with
        | .error stop => .error stop
        | .ok (_, s) => .ok (rc, none, s)

/-- `DiskBufferPool::close_file`, with the pool taken out of the manager. -/
def closeFile (s : BufferPoolManager) (bp : DiskBufferPool) : Except Stop (RC × BufferPoolManager) :=
  match s.unpin bp.hdrFrame with
  | .error stop => .error stop
  | .ok s =>
    match s.purgeAllPages bp with
    | .error stop => .error stop
    | .ok (_, s) => .ok (.success, { s with bufferPools := s.bufferPools.filter (· ≠ bp) })

end BufferPoolManager

end Landbase.Buffer
