import Landbase.Buffer.Operations

/-! # Frames under writes that fail

A round of `allocate_frame` purges the unpinned frame that was used least recently, which is written back first when it is
dirty. Where that frame is not there, cannot be written, or belongs to a file that has been closed, the round leaves the
frames as they were, and the next one does the same. Nobody counts the rounds: `BUFFERPOOL_NOBUF` behind the loop is out
of reach, and the call returns only if its first victim is freed at some time (`returns_iff`).
-/

namespace Landbase.Buffer
open Landbase.Lib
set_option autoImplicit false

/-- What becomes of a write to a file: `none` when it succeeds, else the file that it leaves behind. -/
abbrev Write := Option File

namespace BufferPoolManager

/-- `DiskBufferPool::flush_page_internal`. -/
def flushPageInternalWith (s : BufferPoolManager) (bp : DiskBufferPool) (ptr : Ptr) : Write → RC × BufferPoolManager
  | none => (.success, s.flushPageInternal bp ptr)
  | some file => (.ioerrWrite, { s with files := Function.update s.files bp.fileName file })

/-- `BufferPoolManager::flush_page`. -/
def flushPageWith (s : BufferPoolManager) (ptr : Ptr) (write : Write) : RC × BufferPoolManager :=
  match s.bufferPools.find? (fun bp => bp.fileDesc = (s.memory ptr).fileDesc) with
  | some bp => s.flushPageInternalWith bp ptr write
  | none => (.internal, s)

/-- The `purger` of `allocate_frame`. -/
def purgerWith (bp : DiskBufferPool) (write : Write) (s : BufferPoolManager) (ptr : Ptr) : RC × BufferPoolManager :=
  if !(s.memory ptr).dirty then (.success, s)
  else if (s.memory ptr).fileDesc = bp.fileDesc then s.flushPageInternalWith bp ptr write
  else s.flushPageWith ptr write

/-- The second loop of `BPFrameManager::purge_frames`. -/
def purgeLoopWith (purger : BufferPoolManager → Ptr → RC × BufferPoolManager) :
    List Ptr → BufferPoolManager → Except Stop (ℕ × BufferPoolManager)
  | [], s => .ok (0, s)
  | ptr :: rest, s =>
    match purger s ptr with
    | (.success, s) =>
      match s.free (s.memory ptr).frameId ptr with
      | .error stop => .error stop
      | .ok s =>
        match purgeLoopWith purger rest s with
        | .error stop => .error stop
        | .ok (freed, s) => .ok (freed + 1, s)
    | (_, s) =>
      match s.unpin ptr with
      | .error stop => .error stop
      | .ok s => purgeLoopWith purger rest s

/-- `BPFrameManager::purge_frames`. -/
def purgeFramesWith (s : BufferPoolManager) (count : ℕ) (purger : BufferPoolManager → Ptr → RC × BufferPoolManager) :
    Except Stop (ℕ × BufferPoolManager) :=
  purgeLoopWith purger (s.framesCanPurge count) ((s.framesCanPurge count).foldl (fun s ptr => s.modify ptr Frame.pin) s)

/-- The first rounds of the loop of `DiskBufferPool::allocate_frame`; `writes` is what becomes of the write of each. -/
def allocateFrameWith (bp : DiskBufferPool) (pageNum : PageNum) :
    ℕ → (ℕ → Write) → BufferPoolManager → Except Stop (Ptr × BufferPoolManager)
  | 0, _, _ => .error .spinning
  | n + 1, writes, s =>
    match s.alloc ⟨bp.fileDesc, pageNum⟩ with
    | .error stop => .error stop
    | .ok (some ptr, s) => .ok (ptr, s)
    | .ok (none, s) =>
      match s.purgeFramesWith 1 (purgerWith bp (writes 0)) with
      | .error stop => .error stop
      | .ok (_, s) => allocateFrameWith bp pageNum n (fun k => writes (k + 1)) s

/-- The end of `get_this_page`, for a page that has just got the frame `ptr`. -/
def loadFrame (s : BufferPoolManager) (bp : DiskBufferPool) (pageNum : PageNum) (ptr : Ptr) :
    Except Stop (RC × Option Ptr × BufferPoolManager) :=
  match (s.modify ptr (·.setFileDesc bp.fileDesc)).loadPage bp pageNum ptr with
  | (.success, s) => .ok (.success, some ptr, s)
  | (rc, s) =>
    match s.purgeFrame bp pageNum ptr with
    | .error stop => .error stop
    | .ok (_, s) => .ok (rc, none, s)

/-- `DiskBufferPool::get_this_page`. -/
def getThisPageWith (rounds : ℕ) (writes : ℕ → Write) (s : BufferPoolManager) (bp : DiskBufferPool) (pageNum : PageNum) :
    Except Stop (RC × Option Ptr × BufferPoolManager) :=
  match s.get ⟨bp.fileDesc, pageNum⟩ with
  | (some ptr, s) => .ok (.success, some ptr, s)
  | (none, s) =>
    match allocateFrameWith bp pageNum rounds writes s with
    | .error stop => .error stop
    | .ok (ptr, s) => s.loadFrame bp pageNum ptr

/-- `DiskBufferPool::allocate_page` after the search for a free page below `page_count`. -/
def allocateFoundWith (rounds : ℕ) (writes : ℕ → Write) (s : BufferPoolManager) (bp : DiskBufferPool) :
    Option PageNum → Except Stop (RC × Option Ptr × BufferPoolManager)
  | some i => (s.setHeader bp (BPFileHeader.mark (s.header bp) i)).getThisPageWith rounds writes bp i
  | none =>
    if BPFileHeader.full (s.header bp) then .ok (.bufferpoolNobuf, none, s)
    else
      match allocateFrameWith bp (BPFileHeader.pageCount (s.header bp)).toNat rounds writes s with
      | .error stop => .error stop
      | .ok (ptr, s') => .ok (.success, some ptr, s'.extendFile bp (BPFileHeader.pageCount (s.header bp)).toNat ptr)

/-- `DiskBufferPool::allocate_page`. -/
def allocatePageWith (rounds : ℕ) (writes : ℕ → Write) (s : BufferPoolManager) (bp : DiskBufferPool) :
    Except Stop (RC × Option Ptr × BufferPoolManager) :=
  s.allocateFoundWith rounds writes bp (BPFileHeader.freePage (s.header bp))

/-! ## The frame that a round tries to free -/

/-- The unpinned frame that was used least recently. -/
def victim (s : BufferPoolManager) : Option Ptr :=
  (s.frames.nodes.reverse.map Prod.snd).find? (fun ptr => (s.memory ptr).canPurge)

/-- The file of the frame is open. -/
def FileOpen (s : BufferPoolManager) (ptr : Ptr) : Prop :=
  ∃ bp ∈ s.bufferPools, bp.fileDesc = (s.memory ptr).fileDesc

/-- Some round can free the frame: nobody pins it, and it is clean or can be written back. -/
def Freeable (s : BufferPoolManager) (writes : ℕ → Write) (ptr : Ptr) : Prop :=
  (s.memory ptr).canPurge ∧ ((s.memory ptr).dirty = false ∨ s.FileOpen ptr ∧ ∃ k, writes k = none)

/-- There is a frame for the page, or one to be had. -/
def Available (s : BufferPoolManager) (bp : DiskBufferPool) (writes : ℕ → Write) (pageNum : PageNum) : Prop :=
  (∃ ptr, (⟨bp.fileDesc, pageNum⟩, ptr) ∈ s.frames) ∨ s.frees ≠ [] ∨ ∃ id ptr, (id, ptr) ∈ s.frames ∧ s.Freeable writes ptr

/-- There is a frame for the page, or one that the loop comes to. -/
def Reached (s : BufferPoolManager) (bp : DiskBufferPool) (writes : ℕ → Write) (pageNum : PageNum) : Prop :=
  (∃ ptr, (⟨bp.fileDesc, pageNum⟩, ptr) ∈ s.frames) ∨ s.frees ≠ [] ∨ ∃ ptr, s.victim = some ptr ∧ s.Freeable writes ptr

end BufferPoolManager

/-! ## The two calls -/

/-- The calls that ask for a frame. -/
inductive PageCall
  | getThisPage (pageNum : PageNum)
  | allocatePage
  deriving DecidableEq, Repr

namespace PageCall

/-- The call, with so many rounds for its loop. -/
def run (rounds : ℕ) (writes : ℕ → Write) (s : BufferPoolManager) (bp : DiskBufferPool) :
    PageCall → Except Stop (RC × Option Ptr × BufferPoolManager)
  | getThisPage pageNum => s.getThisPageWith rounds writes bp pageNum
  | allocatePage => s.allocatePageWith rounds writes bp

/-- The page for which the call needs a frame: `allocate_page` needs none when the file is full. -/
def pageNum (header : Memory) : PageCall → Option PageNum
  | getThisPage pageNum => some pageNum
  | allocatePage => (BPFileHeader.freePage header).or
      (if BPFileHeader.full header then none else some (BPFileHeader.pageCount header).toNat)

/-- The call returns after finitely many rounds, with `BUFFERPOOL_NOBUF` where there is no frame to be had. -/
def Returns (s : BufferPoolManager) (bp : DiskBufferPool) (writes : ℕ → Write) (call : PageCall) : Prop :=
  ∃ rounds rc frame s', call.run rounds writes s bp = .ok (rc, frame, s') ∧
    ((∀ p, call.pageNum (s.header bp) = some p → ¬s.Available bp writes p) → rc = .bufferpoolNobuf)

end PageCall

/-! ## Writes that succeed -/

namespace BufferPoolManager

theorem purgerWith_none (bp : DiskBufferPool) (s : BufferPoolManager) (ptr : Ptr) :
    purgerWith bp none s ptr = s.purger bp ptr := rfl

theorem purgeLoopWith_none (bp : DiskBufferPool) (victims : List Ptr) (s : BufferPoolManager) :
    purgeLoopWith (purgerWith bp none) victims s = purgeLoop bp victims s := by
  induction victims generalizing s with
  | nil => rfl
  | cons ptr rest ih =>
    unfold purgeLoopWith
    simp only [purgerWith_none, ih]
    rfl

theorem allocateFrameWith_none (bp : DiskBufferPool) (pageNum : PageNum) (n : ℕ) (s : BufferPoolManager) :
    allocateFrameWith bp pageNum n (fun _ => none) s = allocateFrameLoop bp pageNum n s := by
  induction n generalizing s with
  | zero => rfl
  | succ n ih =>
    unfold allocateFrameWith purgeFramesWith
    simp only [purgeLoopWith_none, ih]
    rfl

theorem getThisPageWith_none (s : BufferPoolManager) (bp : DiskBufferPool) (pageNum : PageNum) :
    s.getThisPageWith 2 (fun _ => none) bp pageNum = s.getThisPage bp pageNum := by
  unfold getThisPageWith
  simp only [allocateFrameWith_none]
  rfl

theorem allocatePageWith_none (s : BufferPoolManager) (bp : DiskBufferPool) :
    s.allocatePageWith 2 (fun _ => none) bp = s.allocatePage bp := by
  unfold allocatePageWith allocatePage
  cases BPFileHeader.freePage (s.header bp) with
  | some i => exact getThisPageWith_none _ bp i
  | none =>
    unfold allocateFoundWith
    simp only [allocateFrameWith_none]
    rfl

/-! ## One round -/

variable {s : BufferPoolManager} {bp : DiskBufferPool} {held : Ptr → ℕ} {ptr : Ptr} {p : PageNum} {write : Write}
  {writes : ℕ → Write}

/-- The state with other files: what a failed round leaves. -/
def withFiles (s : BufferPoolManager) (files : FileName → File) : BufferPoolManager := { s with files := files }

theorem framed_withFiles (h : Framed s s.bufferPools held) (files : FileName → File) :
    Framed (s.withFiles files) (s.withFiles files).bufferPools held :=
  h.congr (fun _ => Iff.rfl) rfl (fun _ => rfl) (fun _ => rfl)

theorem framesCanPurge_one (s : BufferPoolManager) : s.framesCanPurge 1 = s.victim.toList := by
  unfold framesCanPurge victim
  rw [Nat.max_self, List.take_one, List.head?_filter]

theorem victim_spec (hvictim : s.victim = some ptr) :
    (∃ id, (id, ptr) ∈ s.frames) ∧ (s.memory ptr).pinCount = 0 := by
  have hmem := List.mem_of_find?_eq_some hvictim
  have hcan := List.find?_some hvictim
  obtain ⟨node, hnode, rfl⟩ := List.mem_map.mp hmem
  exact ⟨⟨node.1, List.mem_reverse.mp hnode⟩, of_decide_eq_true hcan⟩

theorem purgeFramesWith_of_none (hvictim : s.victim = none) (purger : BufferPoolManager → Ptr → RC × BufferPoolManager) :
    s.purgeFramesWith 1 purger = .ok (0, s) := by
  unfold purgeFramesWith
  rw [framesCanPurge_one, hvictim]
  rfl

/-- The frame can be given back once the write has come to this. -/
def Yields (s : BufferPoolManager) (write : Write) (ptr : Ptr) : Prop :=
  (s.memory ptr).dirty = false ∨ s.FileOpen ptr ∧ write = none

theorem flushPageInternalWith_some (s : BufferPoolManager) (bp : DiskBufferPool) (ptr : Ptr) (hwrite : write ≠ none) :
    ∃ files, s.flushPageInternalWith bp ptr write = (.ioerrWrite, s.withFiles files) := by
  cases write with
  | none => exact absurd rfl hwrite
  | some file => exact ⟨_, rfl⟩

/-- The purger succeeds on frames that yield, and keeps what `free_internal` looks at. -/
theorem purgerWith_of_yields (bp : DiskBufferPool) (h : s.Yields write ptr) :
    ∃ s', purgerWith bp write s ptr = (.success, s') ∧ s'.frames = s.frames ∧ s'.frees = s.frees ∧
      (s'.memory ptr).frameId = (s.memory ptr).frameId ∧ (s'.memory ptr).pinCount = (s.memory ptr).pinCount := by
  have hflush : ∀ pool, ∃ s', s.flushPageInternalWith pool ptr none = (.success, s') ∧ s'.frames = s.frames ∧
      s'.frees = s.frees ∧ (s'.memory ptr).frameId = (s.memory ptr).frameId ∧
      (s'.memory ptr).pinCount = (s.memory ptr).pinCount := by
    intro pool
    have hself : (s.flushPageInternal pool ptr).memory ptr = (s.memory ptr).clearDirty := Function.update_self _ _ _
    exact ⟨s.flushPageInternal pool ptr, rfl, rfl, rfl, by rw [hself]; rfl, by rw [hself]; rfl⟩
  unfold purgerWith
  cases hdirty : (s.memory ptr).dirty with
  | false => exact ⟨s, rfl, rfl, rfl, rfl, rfl⟩
  | true =>
    obtain ⟨⟨pool, hpool, hfd⟩, rfl⟩ := h.resolve_left (by rw [hdirty]; exact Bool.noConfusion)
    rw [if_neg (by decide)]
    by_cases hown : (s.memory ptr).fileDesc = bp.fileDesc
    · rw [if_pos hown]
      exact hflush bp
    · rw [if_neg hown]
      unfold flushPageWith
      cases hfind : s.bufferPools.find? (fun bp => bp.fileDesc = (s.memory ptr).fileDesc) with
      | some pool => exact hflush pool
      | none => exact absurd (decide_eq_true hfd) (List.find?_eq_none.mp hfind pool hpool)

/-- The purger fails on the other frames, and changes the files at most. -/
theorem purgerWith_of_not_yields (hbp : bp ∈ s.bufferPools) (h : ¬s.Yields write ptr) :
    ∃ rc files, rc ≠ .success ∧ purgerWith bp write s ptr = (rc, s.withFiles files) := by
  obtain ⟨hdirty, hshut⟩ := not_or.mp h
  have hfail : ∀ pool ∈ s.bufferPools, pool.fileDesc = (s.memory ptr).fileDesc →
      ∃ rc files, rc ≠ .success ∧ s.flushPageInternalWith pool ptr write = (rc, s.withFiles files) := by
    intro pool hpool hfd
    obtain ⟨files, hfiles⟩ := s.flushPageInternalWith_some pool ptr fun hnone => hshut ⟨⟨pool, hpool, hfd⟩, hnone⟩
    exact ⟨.ioerrWrite, files, by decide, hfiles⟩
  unfold purgerWith
  rw [Bool.eq_true_of_not_eq_false hdirty, if_neg (by decide)]
  by_cases hown : (s.memory ptr).fileDesc = bp.fileDesc
  · rw [if_pos hown]
    exact hfail bp hbp hown.symm
  · rw [if_neg hown]
    unfold flushPageWith
    cases hfind : s.bufferPools.find? (fun bp => bp.fileDesc = (s.memory ptr).fileDesc) with
    | some pool =>
      have hfd := List.find?_some hfind
      exact hfail pool (List.mem_of_find?_eq_some hfind) (of_decide_eq_true hfd)
    | none => exact ⟨.internal, s.files, by decide, rfl⟩

theorem yields_pin : (s.modify ptr Frame.pin).Yields write ptr ↔ s.Yields write ptr := by
  unfold Yields FileOpen
  rw [modify_self]
  rfl

/-- A round that frees its victim. -/
theorem purgeFramesWith_of_yields (h : Framed s s.bufferPools held) (bp : DiskBufferPool)
    (hvictim : s.victim = some ptr) (hyields : s.Yields write ptr) :
    ∃ s', s.purgeFramesWith 1 (purgerWith bp write) = .ok (1, s') ∧ s'.frees = s.frees ++ [ptr] ∧
      (s'.memory ptr).pinCount = 0 ∧ ∀ node ∈ s'.frames, node ∈ s.frames := by
  obtain ⟨⟨id, hmem⟩, hpin⟩ := victim_spec hvictim
  obtain ⟨s1, hpurger, hframes, hfrees, hid, hcount⟩ :=
    purgerWith_of_yields (s := s.modify ptr Frame.pin) bp (yields_pin.mpr hyields)
  rw [modify_self] at hid hcount
  have hid1 : (s1.memory ptr).frameId = id := hid.trans (h.ident id ptr hmem)
  have hcount1 : (s1.memory ptr).pinCount = 1 := hcount.trans (congrArg (· + 1) hpin)
  have hmem1 : (id, ptr) ∈ s1.frames := hframes ▸ hmem
  refine ⟨{ s1 with frames := (s1.frames.put id ptr).remove id, frees := s1.frees ++ [ptr] }.modify ptr Frame.unpin,
    ?_, ?_, ?_, ?_⟩
  · unfold purgeFramesWith
    rw [framesCanPurge_one, hvictim]
    show purgeLoopWith _ [ptr] (s.modify ptr Frame.pin) = _
    unfold purgeLoopWith
    simp only [hpurger, hid1, free_of_mem hmem1 hcount1]
    rfl
  · exact congrArg (· ++ [ptr]) hfrees
  · rw [modify_self]
    show (s1.memory ptr).pinCount - 1 = 0
    rw [hcount1]
  · intro node hnode
    exact hframes ▸ ((mem_remove_put hmem1).mp hnode).1

theorem purgeLoopWith_fail {purger : BufferPoolManager → Ptr → RC × BufferPoolManager} {rc : RC} {s' s'' : BufferPoolManager}
    (hpurger : purger s ptr = (rc, s')) (hrc : rc ≠ .success) (hunpin : s'.unpin ptr = .ok s'') :
    purgeLoopWith purger [ptr] s = .ok (0, s'') := by
  unfold purgeLoopWith
  split
  · next heq =>
    rw [hpurger] at heq
    exact absurd (Prod.mk.inj heq).1 hrc
  · next heq =>
    rw [hpurger] at heq
    rw [← (Prod.mk.inj heq).2, hunpin]
    rfl

/-- A round that does not. -/
theorem purgeFramesWith_of_not_yields (hbp : bp ∈ s.bufferPools) (hvictim : s.victim = some ptr)
    (hyields : ¬s.Yields write ptr) : ∃ files, s.purgeFramesWith 1 (purgerWith bp write) = .ok (0, s.withFiles files) := by
  obtain ⟨rc, files, hrc, hpurger⟩ :=
    purgerWith_of_not_yields (s := s.modify ptr Frame.pin) hbp (fun h => hyields (yields_pin.mp h))
  have hunpin : ((s.modify ptr Frame.pin).withFiles files).unpin ptr = .ok (s.withFiles files) := by
    unfold unpin
    rw [if_pos (by
      show 0 < ((s.modify ptr Frame.pin).memory ptr).pinCount
      rw [modify_self]
      exact Nat.succ_pos _)]
    show Except.ok (((s.withFiles files).modify ptr Frame.pin).modify ptr Frame.unpin) = _
    rw [modify_modify]
    have hsame : (s.withFiles files).modify ptr (fun frame => frame.pin.unpin) = s.withFiles files := by
      unfold modify
      exact congrArg (fun memory => { s.withFiles files with memory := memory }) (Function.update_eq_self ptr _)
    rw [hsame]
  refine ⟨files, ?_⟩
  unfold purgeFramesWith
  rw [framesCanPurge_one, hvictim]
  show purgeLoopWith _ [ptr] (s.modify ptr Frame.pin) = _
  exact purgeLoopWith_fail hpurger hrc hunpin

/-! ## The loop -/

variable {id : FrameId}

theorem alloc_of_mem (hmem : (id, ptr) ∈ s.frames) : ∃ s', s.alloc id = .ok (some ptr, s') ∧ (id, ptr) ∈ s'.frames := by
  unfold alloc
  rw [get_of_mem hmem]
  exact ⟨_, rfl, LruCache.mem_put.mpr (Or.inl rfl)⟩

theorem alloc_of_free {frees : List Ptr} (hnew : ∀ q, (id, q) ∉ s.frames) (hfrees : s.frees = ptr :: frees)
    (hpin : (s.memory ptr).pinCount = 0) : ∃ s', s.alloc id = .ok (some ptr, s') ∧ (id, ptr) ∈ s'.frames := by
  unfold alloc
  rw [get_of_notMem hnew]
  simp only [hfrees]
  rw [if_pos hpin]
  exact ⟨_, rfl, LruCache.mem_put.mpr (Or.inl rfl)⟩

theorem alloc_of_empty (hnew : ∀ q, (id, q) ∉ s.frames) (hempty : s.frees = []) : s.alloc id = .ok (none, s) := by
  unfold alloc
  rw [get_of_notMem hnew]
  simp only [hempty]

/-- The frame that the loop ends with. -/
def Allocates (s : BufferPoolManager) (bp : DiskBufferPool) (writes : ℕ → Write) (p : PageNum) : Prop :=
  ∃ rounds ptr s', allocateFrameWith bp p rounds writes s = .ok (ptr, s') ∧ (⟨bp.fileDesc, p⟩, ptr) ∈ s'.frames

theorem allocates_of_alloc {s' : BufferPoolManager} (halloc : s.alloc ⟨bp.fileDesc, p⟩ = .ok (some ptr, s'))
    (hmem : (⟨bp.fileDesc, p⟩, ptr) ∈ s'.frames) : s.Allocates bp writes p := by
  refine ⟨1, ptr, s', ?_, hmem⟩
  unfold allocateFrameWith
  simp only [halloc]

/-- One round more, in front. -/
theorem allocates_of_purge {n : ℕ} {s' : BufferPoolManager} (halloc : s.alloc ⟨bp.fileDesc, p⟩ = .ok (none, s))
    (hpurge : s.purgeFramesWith 1 (purgerWith bp (writes 0)) = .ok (n, s'))
    (h : s'.Allocates bp (fun k => writes (k + 1)) p) : s.Allocates bp writes p := by
  obtain ⟨rounds, ptr, s'', hloop, hmem⟩ := h
  refine ⟨rounds + 1, ptr, s'', ?_, hmem⟩
  unfold allocateFrameWith
  simp only [halloc, hpurge]
  exact hloop

theorem allocates_of_yields (h : Framed s s.bufferPools held) (hnew : ∀ q, (⟨bp.fileDesc, p⟩, q) ∉ s.frames)
    (hempty : s.frees = []) (hvictim : s.victim = some ptr) (hyields : s.Yields (writes 0) ptr) :
    s.Allocates bp writes p := by
  obtain ⟨s', hpurge, hfrees, hpin, hframes⟩ := purgeFramesWith_of_yields h bp hvictim hyields
  rw [hempty, List.nil_append] at hfrees
  obtain ⟨s'', halloc, hmem⟩ := alloc_of_free (fun q hq => hnew q (hframes _ hq)) hfrees hpin
  exact allocates_of_purge (alloc_of_empty hnew hempty) hpurge (allocates_of_alloc halloc hmem)

/-- The victim is written back by the round `k` at the latest. -/
theorem allocates_of_write (k : ℕ) (h : Framed s s.bufferPools held) (hbp : bp ∈ s.bufferPools)
    (hnew : ∀ q, (⟨bp.fileDesc, p⟩, q) ∉ s.frames) (hempty : s.frees = []) (hvictim : s.victim = some ptr)
    (hopen : s.FileOpen ptr) (hwrite : writes k = none) : s.Allocates bp writes p := by
  induction k generalizing s writes with
  | zero => exact allocates_of_yields h hnew hempty hvictim (Or.inr ⟨hopen, hwrite⟩)
  | succ k ih =>
    by_cases hyields : s.Yields (writes 0) ptr
    · exact allocates_of_yields h hnew hempty hvictim hyields
    · obtain ⟨files, hpurge⟩ := purgeFramesWith_of_not_yields hbp hvictim hyields
      exact allocates_of_purge (alloc_of_empty hnew hempty) hpurge
        (ih (framed_withFiles h files) hbp hnew hempty hvictim hopen hwrite)

theorem allocates_of_reached (h : Framed s s.bufferPools held) (hbp : bp ∈ s.bufferPools)
    (hreached : s.Reached bp writes p) : s.Allocates bp writes p := by
  rcases s.mem_or_notMem ⟨bp.fileDesc, p⟩ with ⟨q, hmem⟩ | hnew
  · obtain ⟨s', halloc, hmem'⟩ := alloc_of_mem hmem
    exact allocates_of_alloc halloc hmem'
  · cases hfrees : s.frees with
    | cons q frees =>
      have hpin := h.frees_pin q (by rw [hfrees]; exact List.mem_cons_self)
      obtain ⟨s', halloc, hmem⟩ := alloc_of_free hnew hfrees hpin
      exact allocates_of_alloc halloc hmem
    | nil =>
      rcases hreached with ⟨q, hmem⟩ | hfree | ⟨ptr, hvictim, -, hclean | ⟨hopen, k, hwrite⟩⟩
      · exact absurd hmem (hnew q)
      · exact absurd hfrees hfree
      · exact allocates_of_yields h hnew hfrees hvictim (Or.inl hclean)
      · exact allocates_of_write k h hbp hnew hfrees hvictim hopen hwrite

/-- Without such a frame every round leaves the frames as they are. -/
theorem allocateFrameWith_spins (hbp : bp ∈ s.bufferPools) (hreached : ¬s.Reached bp writes p) (n : ℕ) :
    allocateFrameWith bp p n writes s = .error .spinning := by
  induction n generalizing s writes with
  | zero => rfl
  | succ n ih =>
    obtain ⟨hnew, hrest⟩ := not_or.mp hreached
    obtain ⟨hempty, hstuck⟩ := not_or.mp hrest
    unfold allocateFrameWith
    simp only [alloc_of_empty (not_exists.mp hnew) (not_not.mp hempty)]
    cases hvictim : s.victim with
    | none =>
      simp only [purgeFramesWith_of_none hvictim]
      refine ih hbp (fun hsome => ?_)
      rcases hsome with hmem | hfree | ⟨ptr, hptr, -⟩
      · exact hnew hmem
      · exact hempty hfree
      · rw [hvictim] at hptr
        cases hptr
    | some ptr =>
      have hfixed : ¬s.Freeable writes ptr := fun hfreeable => hstuck ⟨ptr, hvictim, hfreeable⟩
      have hcan : (s.memory ptr).canPurge = true := decide_eq_true (victim_spec hvictim).2
      have hyields : ¬s.Yields (writes 0) ptr := by
        rintro (hclean | ⟨hopen, hwrite⟩)
        · exact hfixed ⟨hcan, Or.inl hclean⟩
        · exact hfixed ⟨hcan, Or.inr ⟨hopen, 0, hwrite⟩⟩
      obtain ⟨files, hpurge⟩ := purgeFramesWith_of_not_yields hbp hvictim hyields
      simp only [hpurge]
      refine ih hbp (fun hsome => ?_)
      rcases hsome with hmem | hfree | ⟨q, hq, hcan', hclean | ⟨hopen, k, hwrite⟩⟩
      · exact hnew hmem
      · exact hempty hfree
      · exact hstuck ⟨q, hq, hcan', Or.inl hclean⟩
      · exact hstuck ⟨q, hq, hcan', Or.inr ⟨hopen, k + 1, hwrite⟩⟩

/-! ## The calls return -/

theorem purgeFrame_returns (hmem : (⟨bp.fileDesc, p⟩, ptr) ∈ s.frames) : ∃ rc s', s.purgeFrame bp p ptr = .ok (rc, s') := by
  unfold purgeFrame
  by_cases hpin : (s.memory ptr).pinCount = 1
  · rw [if_neg (not_not.mpr hpin)]
    by_cases hdirty : (s.memory ptr).dirty = true
    · have hself : ((s.flushPageInternal bp ptr).memory ptr) = (s.memory ptr).clearDirty := Function.update_self _ _ _
      have hpin' : ((s.flushPageInternal bp ptr).memory ptr).pinCount = 1 := by
        rw [hself]
        exact hpin
      simp only [if_pos hdirty]
      rw [free_of_mem (s := s.flushPageInternal bp ptr) hmem hpin']
      exact ⟨_, _, rfl⟩
    · simp only [if_neg hdirty]
      rw [free_of_mem hmem hpin]
      exact ⟨_, _, rfl⟩
  · rw [if_pos hpin]
    exact ⟨_, _, rfl⟩

theorem loadFrame_returns (hmem : (⟨bp.fileDesc, p⟩, ptr) ∈ s.frames) :
    ∃ rc frame s', s.loadFrame bp p ptr = .ok (rc, frame, s') := by
  unfold loadFrame
  split
  · exact ⟨_, _, _, rfl⟩
  · next rc s' hrc hload =>
    have hframes : s'.frames = s.frames := by
      unfold loadPage at hload
      split at hload
      · rw [← (Prod.mk.inj hload).2]
        rfl
      · rw [← (Prod.mk.inj hload).2]
        rfl
    obtain ⟨rc', s'', hpurge⟩ := purgeFrame_returns (s := s') (hframes ▸ hmem)
    simp only [hpurge]
    exact ⟨_, _, _, rfl⟩

theorem getThisPageWith_returns (h : s.Allocates bp writes p) :
    ∃ rounds rc frame s', s.getThisPageWith rounds writes bp p = .ok (rc, frame, s') := by
  rcases s.mem_or_notMem ⟨bp.fileDesc, p⟩ with ⟨q, hmem⟩ | hnew
  · refine ⟨0, .success, some q, { s with frames := s.frames.put ⟨bp.fileDesc, p⟩ q }.modify q Frame.pin, ?_⟩
    unfold getThisPageWith
    rw [get_of_mem hmem]
  · obtain ⟨rounds, ptr, s', hloop, hmem⟩ := h
    obtain ⟨rc, frame, s'', hload⟩ := loadFrame_returns hmem
    refine ⟨rounds, rc, frame, s'', ?_⟩
    unfold getThisPageWith
    rw [get_of_notMem hnew]
    simp only [hloop, hload]

theorem getThisPageWith_spins (hbp : bp ∈ s.bufferPools) (hreached : ¬s.Reached bp writes p) (n : ℕ) :
    s.getThisPageWith n writes bp p = .error .spinning := by
  unfold getThisPageWith
  rw [get_of_notMem (not_exists.mp (not_or.mp hreached).1)]
  simp only [allocateFrameWith_spins hbp hreached n]

variable (writes p) in
/-- The header frame is pinned, so it is no victim, and it does not matter that `allocate_page` marks it dirty. -/
theorem reached_setHeader (h : Framed s s.bufferPools held) (hbp : bp ∈ s.bufferPools) (header : Memory) :
    (s.setHeader bp header).Reached bp writes p ↔ s.Reached bp writes p := by
  have hpinned : (s.memory bp.hdrFrame).canPurge = false := by
    have hpins := h.pins _ _ (h.hdr bp hbp)
    rw [hdrPin, if_pos (List.mem_map_of_mem hbp)] at hpins
    exact decide_eq_false (by omega)
  have hcan : ∀ q, ((s.setHeader bp header).memory q).canPurge = (s.memory q).canPurge :=
    s.modify_proj _ _ Frame.canPurge fun _ => rfl
  have hvictim : (s.setHeader bp header).victim = s.victim := by
    unfold victim
    simp only [hcan]
    rfl
  have hfreeable : ∀ q, (s.setHeader bp header).Freeable writes q ↔ s.Freeable writes q := by
    intro q
    by_cases hq : q = bp.hdrFrame
    · unfold Freeable
      rw [hcan, hq, hpinned]
      simp
    · have hsame : (s.setHeader bp header).memory q = s.memory q := s.modify_of_ne _ hq
      unfold Freeable FileOpen
      rw [hsame]
      rfl
  unfold Reached
  simp only [hvictim, hfreeable]
  rfl

end BufferPoolManager

namespace PageCall

variable {s : BufferPoolManager} {bp : DiskBufferPool} {held : Ptr → ℕ} {writes : ℕ → Write}

theorem available_of_reached {p : PageNum} (h : s.Reached bp writes p) : s.Available bp writes p := by
  rcases h with hmem | hfree | ⟨ptr, hvictim, hfreeable⟩
  · exact Or.inl hmem
  · exact Or.inr (Or.inl hfree)
  · obtain ⟨⟨id, hmem⟩, -⟩ := BufferPoolManager.victim_spec hvictim
    exact Or.inr (Or.inr ⟨id, ptr, hmem, hfreeable⟩)

theorem returns_iff_of_page {call : PageCall} {p : PageNum} (hpage : call.pageNum (s.header bp) = some p)
    (hreturns : s.Reached bp writes p → ∃ rounds rc frame s', call.run rounds writes s bp = .ok (rc, frame, s'))
    (hspins : ¬s.Reached bp writes p → ∀ rounds, call.run rounds writes s bp = .error .spinning) :
    call.Returns s bp writes ↔ ∀ q, call.pageNum (s.header bp) = some q → s.Reached bp writes q := by
  constructor
  · rintro ⟨rounds, rc, frame, s', hrun, -⟩ q hq
    obtain rfl : p = q := Option.some.inj (hpage.symm.trans hq)
    by_contra hnot
    rw [hspins hnot rounds] at hrun
    cases hrun
  · intro h
    obtain ⟨rounds, rc, frame, s', hrun⟩ := hreturns (h p hpage)
    exact ⟨rounds, rc, frame, s', hrun, fun hnone => absurd (available_of_reached (h p hpage)) (hnone p hpage)⟩

theorem pageNum_allocatePage_some {header : Memory} {i : PageNum} (hfree : BPFileHeader.freePage header = some i) :
    allocatePage.pageNum header = some i := by
  rw [pageNum, hfree, Option.some_or]

theorem pageNum_allocatePage_none {header : Memory} (hfree : BPFileHeader.freePage header = none) :
    allocatePage.pageNum header =
      if BPFileHeader.full header then none else some (BPFileHeader.pageCount header).toNat := by
  rw [pageNum, hfree, Option.none_or]

/-- For every state of the frames and whatever becomes of the writes: a call returns, and says that there is no frame
where there is none to be had, just when it needs no frame or there is one that its loop comes to. -/
theorem returns_iff (h : Framed s s.bufferPools held) (hbp : bp ∈ s.bufferPools) (writes : ℕ → Write) (call : PageCall) :
    call.Returns s bp writes ↔ ∀ p, call.pageNum (s.header bp) = some p → s.Reached bp writes p := by
  cases call with
  | getThisPage p =>
    apply returns_iff_of_page rfl
    · exact fun hreached => BufferPoolManager.getThisPageWith_returns (BufferPoolManager.allocates_of_reached h hbp hreached)
    · exact BufferPoolManager.getThisPageWith_spins hbp
  | allocatePage =>
    cases hfree : BPFileHeader.freePage (s.header bp) with
    | some i =>
      have hrun : ∀ rounds, allocatePage.run rounds writes s bp =
          (s.setHeader bp (BPFileHeader.mark (s.header bp) i)).getThisPageWith rounds writes bp i := by
        intro rounds
        unfold run BufferPoolManager.allocatePageWith
        rw [hfree]
        rfl
      have hframed : Framed (s.setHeader bp (BPFileHeader.mark (s.header bp) i)) s.bufferPools held :=
        h.modify _ _ (fun _ => rfl) (fun _ => rfl)
      have hiff := BufferPoolManager.reached_setHeader i writes h hbp (BPFileHeader.mark (s.header bp) i)
      apply returns_iff_of_page (pageNum_allocatePage_some hfree)
      · intro hreached
        simp only [hrun]
        exact BufferPoolManager.getThisPageWith_returns
          (BufferPoolManager.allocates_of_reached hframed hbp (hiff.mpr hreached))
      · intro hnot rounds
        rw [hrun]
        apply BufferPoolManager.getThisPageWith_spins (s := s.setHeader bp (BPFileHeader.mark (s.header bp) i)) hbp
        exact fun hreached => hnot (hiff.mp hreached)
    | none =>
      have hpage := pageNum_allocatePage_none hfree
      cases hfull : BPFileHeader.full (s.header bp) with
      | true =>
        rw [hfull, if_pos rfl] at hpage
        have hrun : allocatePage.run 0 writes s bp = .ok (.bufferpoolNobuf, none, s) := by
          unfold run BufferPoolManager.allocatePageWith
          rw [hfree, BufferPoolManager.allocateFoundWith, hfull, if_pos rfl]
        constructor
        · intro _ p hp
          rw [hpage] at hp
          cases hp
        · exact fun _ => ⟨0, _, _, _, hrun, fun _ => rfl⟩
      | false =>
        rw [hfull, if_neg Bool.false_ne_true] at hpage
        apply returns_iff_of_page hpage
        · intro hreached
          obtain ⟨rounds, ptr, s', hloop, -⟩ := BufferPoolManager.allocates_of_reached h hbp hreached
          refine ⟨rounds, .success, some ptr, s'.extendFile bp (BPFileHeader.pageCount (s.header bp)).toNat ptr, ?_⟩
          unfold run BufferPoolManager.allocatePageWith
          rw [hfree, BufferPoolManager.allocateFoundWith, hfull, if_neg Bool.false_ne_true]
          simp only [hloop]
        · intro hnot rounds
          unfold run BufferPoolManager.allocatePageWith
          rw [hfree, BufferPoolManager.allocateFoundWith, hfull, if_neg Bool.false_ne_true]
          simp only [BufferPoolManager.allocateFrameWith_spins hbp hnot rounds]

/-! ## A pool of frames that are all pinned -/

/-- The frames of a pool of `n`, each with a page of the file `t` and pinned once. -/
def pinnedFrames (n : ℕ) : LruCache FrameId Ptr where
  nodes := (List.range n).map fun p => (⟨3, p⟩, p)
  nodup := by
    rw [List.map_map]
    exact List.nodup_range.map fun p q h => congrArg FrameId.pageNum h

/-- A pool with one open file, whose first `n` pages fill the pool and are all pinned. -/
def pinnedPool (n : ℕ) : BufferPoolManager where
  frames := pinnedFrames n
  memory p := ⟨false, 1, 3, { Page.zero with pageNum := p }⟩
  frees := []
  bufferPools := [⟨"t", 3, 0⟩]
  files := fun _ => ⟨256, fun _ => Page.zero, fun _ _ => rfl⟩

theorem mem_pinnedFrames {n : ℕ} {id : FrameId} {ptr : Ptr} : (id, ptr) ∈ pinnedFrames n ↔ ptr < n ∧ id = ⟨3, ptr⟩ := by
  show (id, ptr) ∈ (List.range n).map _ ↔ _
  rw [List.mem_map]
  constructor
  · rintro ⟨p, hp, heq⟩
    obtain ⟨rfl, rfl⟩ := Prod.mk.inj heq
    exact ⟨List.mem_range.mp hp, rfl⟩
  · rintro ⟨hp, rfl⟩
    exact ⟨ptr, List.mem_range.mpr hp, rfl⟩

theorem framed_pinnedPool {n : ℕ} (hn : 0 < n) :
    Framed (pinnedPool n) (pinnedPool n).bufferPools (fun p => if p = 0 ∨ n ≤ p then 0 else 1) where
  ident id ptr hmem := (mem_pinnedFrames.mp hmem).2.symm
  frees_nodup := List.nodup_nil
  frees_out ptr hptr := absurd hptr List.not_mem_nil
  frees_pin ptr hptr := absurd hptr List.not_mem_nil
  pins id ptr hmem := by
    have hlt := (mem_pinnedFrames.mp hmem).1
    show 1 = _ + hdrPin [⟨"t", 3, 0⟩] ptr
    unfold hdrPin
    by_cases hzero : ptr = 0
    · subst hzero
      simp
    · rw [if_neg (not_or.mpr ⟨hzero, not_le.mpr hlt⟩), if_neg (by simpa using hzero)]
  held_in ptr hheld := by
    have hlt : ptr < n := by
      by_contra hle
      rw [if_pos (Or.inr (not_lt.mp hle))] at hheld
      exact lt_irrefl _ hheld
    exact ⟨⟨3, ptr⟩, mem_pinnedFrames.mpr ⟨hlt, rfl⟩⟩
  hdr bp hbp := by
    obtain rfl := List.mem_singleton.mp hbp
    exact mem_pinnedFrames.mpr ⟨hn, rfl⟩

theorem victim_pinnedPool (n : ℕ) : (pinnedPool n).victim = none := by
  rw [BufferPoolManager.victim, List.find?_eq_none]
  exact fun ptr _ => Bool.false_ne_true

/-- A pool of 128 frames, the least that the manager has: page 5 is there. -/
theorem returns_iff_pinned : (getThisPage 5).Returns (pinnedPool 128) ⟨"t", 3, 0⟩ (fun _ => none) ↔
    ∀ p, (getThisPage 5).pageNum ((pinnedPool 128).header ⟨"t", 3, 0⟩) = some p →
      (pinnedPool 128).Reached ⟨"t", 3, 0⟩ (fun _ => none) p :=
  returns_iff (framed_pinnedPool (by norm_num)) List.mem_cons_self (fun _ => none) (getThisPage 5)

/-- Page 200 is not, and the call never returns. -/
theorem not_returns_pinned : ¬(getThisPage 200).Returns (pinnedPool 128) ⟨"t", 3, 0⟩ (fun _ => none) := by
  rintro ⟨rounds, rc, frame, s', hrun, -⟩
  have hnot : ¬(pinnedPool 128).Reached ⟨"t", 3, 0⟩ (fun _ => none) 200 := by
    rintro (⟨ptr, hmem⟩ | hfree | ⟨ptr, hvictim, -⟩)
    · obtain ⟨hlt, heq⟩ := mem_pinnedFrames.mp hmem
      obtain rfl : 200 = ptr := congrArg FrameId.pageNum heq
      exact absurd hlt (by norm_num)
    · exact hfree rfl
    · rw [victim_pinnedPool] at hvictim
      cases hvictim
  have hspins := BufferPoolManager.getThisPageWith_spins List.mem_cons_self hnot rounds
  rw [run, hspins] at hrun
  cases hrun

end PageCall

end Landbase.Buffer
