import Landbase.Buffer.DiskBufferPool
import Landbase.Buffer.FileHeader

/-! # What holds of a buffer pool between any two moves

Every operation of the pool is made of a few moves: a frame is pinned, unpinned, written back, freed, or filled with a
page. `Framed` says which frame is where and who pins it; `Coherent` says what the frames and the files hold, compared
with what was last written to each page. Both are kept by every move.

Both are relative to the pools that count as open, because a file is half closed while its pages are purged. `Coherent`
is relative to a `Scope`: the contents that are followed are those of all pages, or those of the header pages alone.
-/

namespace Landbase.Buffer
open Landbase.Lib
set_option autoImplicit false

/-! ## Frames and pins -/

/-- The pin that an open pool keeps on its header frame. -/
def hdrPin (pools : List DiskBufferPool) (ptr : Ptr) : ℕ := if ptr ∈ pools.map DiskBufferPool.hdrFrame then 1 else 0

/-- Which frames are in use, and how often each is pinned: `held` counts the pins beside those of the open pools. -/
structure Framed (s : BufferPoolManager) (pools : List DiskBufferPool) (held : Ptr → ℕ) : Prop where
  ident : ∀ id ptr, (id, ptr) ∈ s.frames → (s.memory ptr).frameId = id
  frees_nodup : s.frees.Nodup
  frees_out : ∀ ptr ∈ s.frees, ∀ id, (id, ptr) ∉ s.frames
  frees_pin : ∀ ptr ∈ s.frees, (s.memory ptr).pinCount = 0
  pins : ∀ id ptr, (id, ptr) ∈ s.frames → (s.memory ptr).pinCount = held ptr + hdrPin pools ptr
  held_in : ∀ ptr, 0 < held ptr → ∃ id, (id, ptr) ∈ s.frames
  hdr : ∀ bp ∈ pools, (⟨bp.fileDesc, bpHeaderPage⟩, bp.hdrFrame) ∈ s.frames

namespace BufferPoolManager

variable (s : BufferPoolManager) (ptr : Ptr) (f : Frame → Frame)

@[simp] theorem modify_frames : (s.modify ptr f).frames = s.frames := rfl
@[simp] theorem modify_frees : (s.modify ptr f).frees = s.frees := rfl
@[simp] theorem modify_bufferPools : (s.modify ptr f).bufferPools = s.bufferPools := rfl
@[simp] theorem modify_files : (s.modify ptr f).files = s.files := rfl

theorem modify_self : (s.modify ptr f).memory ptr = f (s.memory ptr) := Function.update_self _ _ _

variable {ptr} in
theorem modify_of_ne {q : Ptr} (h : q ≠ ptr) : (s.modify ptr f).memory q = s.memory q := Function.update_of_ne h _ _

theorem modify_proj {α : Type} (part : Frame → α) (h : ∀ frame, part (f frame) = part frame) (q : Ptr) :
    part ((s.modify ptr f).memory q) = part (s.memory q) := by
  by_cases hq : q = ptr
  · rw [hq, modify_self, h]
  · rw [modify_of_ne _ _ hq]

end BufferPoolManager

namespace Framed

variable {s s' : BufferPoolManager} {pools : List DiskBufferPool} {held : Ptr → ℕ} {id : FrameId} {ptr : Ptr}

theorem congr (h : Framed s pools held) (hframes : ∀ node, node ∈ s'.frames ↔ node ∈ s.frames)
    (hfrees : s'.frees = s.frees) (hid : ∀ p, (s'.memory p).frameId = (s.memory p).frameId)
    (hpin : ∀ p, (s'.memory p).pinCount = (s.memory p).pinCount) : Framed s' pools held where
  ident id ptr hmem := by rw [hid, h.ident id ptr ((hframes _).mp hmem)]
  frees_nodup := by rw [hfrees]; exact h.frees_nodup
  frees_out ptr hptr id hmem := h.frees_out ptr (hfrees ▸ hptr) id ((hframes _).mp hmem)
  frees_pin ptr hptr := by rw [hpin]; exact h.frees_pin ptr (hfrees ▸ hptr)
  pins id ptr hmem := by rw [hpin, h.pins id ptr ((hframes _).mp hmem)]
  held_in ptr hptr := by
    obtain ⟨id, hid⟩ := h.held_in ptr hptr
    exact ⟨id, (hframes _).mpr hid⟩
  hdr bp hbp := (hframes _).mpr (h.hdr bp hbp)

theorem modify (h : Framed s pools held) (ptr : Ptr) (f : Frame → Frame) (hid : ∀ frame, (f frame).frameId = frame.frameId)
    (hpin : ∀ frame, (f frame).pinCount = frame.pinCount) : Framed (s.modify ptr f) pools held :=
  h.congr (fun _ => Iff.rfl) rfl (s.modify_proj ptr f Frame.frameId hid) (s.modify_proj ptr f Frame.pinCount hpin)

theorem notMem_frees (h : Framed s pools held) (hmem : (id, ptr) ∈ s.frames) : ptr ∉ s.frees :=
  fun hfree => h.frees_out ptr hfree id hmem

theorem key_unique {id' : FrameId} (h : Framed s pools held) (hmem : (id, ptr) ∈ s.frames)
    (hmem' : (id', ptr) ∈ s.frames) : id = id' := by
  rw [← h.ident id ptr hmem, h.ident id' ptr hmem']

theorem repin (h : Framed s pools held) (hmem : (id, ptr) ∈ s.frames) (f : Frame → Frame) (n : ℕ)
    (hid : (f (s.memory ptr)).frameId = (s.memory ptr).frameId)
    (hpin : (f (s.memory ptr)).pinCount = n + hdrPin pools ptr) :
    Framed (s.modify ptr f) pools (Function.update held ptr n) where
  ident id' q hq := by
    by_cases hne : q = ptr
    · rw [hne, s.modify_self, hid]
      exact h.ident id' ptr (hne ▸ hq)
    · rw [s.modify_of_ne f hne]
      exact h.ident id' q hq
  frees_nodup := h.frees_nodup
  frees_out := h.frees_out
  frees_pin q hq := by
    have hne : q ≠ ptr := fun heq => h.notMem_frees hmem (heq ▸ hq)
    rw [s.modify_of_ne f hne]
    exact h.frees_pin q hq
  pins id' q hq := by
    by_cases hne : q = ptr
    · rw [hne, s.modify_self, Function.update_self, hpin]
    · rw [s.modify_of_ne f hne, Function.update_of_ne hne]
      exact h.pins id' q hq
  held_in q hq := by
    by_cases hne : q = ptr
    · rw [hne]
      exact ⟨id, hmem⟩
    · rw [Function.update_of_ne hne] at hq
      exact h.held_in q hq
  hdr := h.hdr

theorem pin (h : Framed s pools held) (hmem : (id, ptr) ∈ s.frames) :
    Framed (s.modify ptr Frame.pin) pools (Function.update held ptr (held ptr + 1)) := by
  apply h.repin hmem
  · rfl
  · show (s.memory ptr).pinCount + 1 = _
    rw [h.pins id ptr hmem]
    omega

theorem unpin (h : Framed s pools held) (hmem : (id, ptr) ∈ s.frames) (hheld : 0 < held ptr) :
    Framed (s.modify ptr Frame.unpin) pools (Function.update held ptr (held ptr - 1)) := by
  apply h.repin hmem
  · rfl
  · show (s.memory ptr).pinCount - 1 = _
    rw [h.pins id ptr hmem]
    omega

theorem free {frames : LruCache FrameId Ptr} (h : Framed s pools held) (hmem : (id, ptr) ∈ s.frames)
    (hframes : ∀ node, node ∈ frames ↔ node ∈ s.frames ∧ node.1 ≠ id) (hheld : held ptr = 1)
    (hpin : (s.memory ptr).pinCount = 1) :
    Framed ({ s with frames := frames, frees := s.frees ++ [ptr] }.modify ptr Frame.unpin) pools
      (Function.update held ptr 0) := by
  have hhdr : hdrPin pools ptr = 0 := by
    have := h.pins id ptr hmem
    omega
  have hother : ∀ id' q, (id', q) ∈ frames → q ≠ ptr := by
    rintro id' q hq rfl
    obtain ⟨hold, hne⟩ := (hframes _).mp hq
    exact hne (h.key_unique hold hmem)
  have hkey : ∀ bp ∈ pools, (⟨bp.fileDesc, bpHeaderPage⟩ : FrameId) ≠ id := by
    intro bp hbp heq
    have hptr : bp.hdrFrame = ptr := LruCache.eq_of_mem (h.hdr bp hbp) (heq ▸ hmem)
    rw [hdrPin, if_pos (List.mem_map.mpr ⟨bp, hbp, hptr⟩)] at hhdr
    cases hhdr
  constructor
  · intro id' q hq
    rw [BufferPoolManager.modify_of_ne _ _ (hother id' q hq)]
    exact h.ident id' q ((hframes _).mp hq).1
  · exact h.frees_nodup.append (List.nodup_singleton ptr)
      (List.disjoint_singleton.mpr (h.notMem_frees hmem))
  · intro q hq id' hq'
    cases List.mem_append.mp hq with
    | inl hq => exact h.frees_out q hq id' ((hframes _).mp hq').1
    | inr hq => exact hother id' q hq' (List.mem_singleton.mp hq)
  · intro q hq
    by_cases hne : q = ptr
    · rw [hne, BufferPoolManager.modify_self]
      show (s.memory ptr).pinCount - 1 = 0
      rw [hpin]
    · rw [BufferPoolManager.modify_of_ne _ _ hne]
      cases List.mem_append.mp hq with
      | inl hq => exact h.frees_pin q hq
      | inr hq => exact absurd (List.mem_singleton.mp hq) hne
  · intro id' q hq
    rw [BufferPoolManager.modify_of_ne _ _ (hother id' q hq), Function.update_of_ne (hother id' q hq)]
    exact h.pins id' q ((hframes _).mp hq).1
  · intro q hq
    by_cases hne : q = ptr
    · rw [hne, Function.update_self] at hq
      cases hq
    · rw [Function.update_of_ne hne] at hq
      obtain ⟨id', hid'⟩ := h.held_in q hq
      refine ⟨id', (hframes _).mpr ⟨hid', ?_⟩⟩
      rintro rfl
      exact hne (LruCache.eq_of_mem hid' hmem)
  · exact fun bp hbp => (hframes _).mpr ⟨h.hdr bp hbp, hkey bp hbp⟩

theorem fill {frees : List Ptr} (h : Framed s pools held) (hfrees : s.frees = ptr :: frees)
    (hnew : ∀ q, (id, q) ∉ s.frames) (f : Frame → Frame) (hid : (f (s.memory ptr)).frameId = id)
    (hpin : (f (s.memory ptr)).pinCount = 1) :
    Framed ({ s with frames := s.frames.put id ptr, frees := frees }.modify ptr f) pools
      (Function.update held ptr 1) := by
  have hout : ∀ id', (id', ptr) ∉ s.frames := h.frees_out ptr (by rw [hfrees]; exact List.mem_cons_self)
  have hnodup := List.nodup_cons.mp (hfrees ▸ h.frees_nodup)
  have hmem : ∀ node, node ∈ s.frames.put id ptr ↔ node = (id, ptr) ∨ node ∈ s.frames := by
    intro node
    rw [LruCache.mem_put]
    apply or_congr_right
    rw [and_iff_left_iff_imp]
    rintro hnode heq
    exact hnew node.2 (heq ▸ hnode)
  have hhdr : hdrPin pools ptr = 0 := by
    apply if_neg
    intro hmem'
    obtain ⟨bp, hbp, heq⟩ := List.mem_map.mp hmem'
    exact hout _ (heq ▸ h.hdr bp hbp)
  constructor
  · intro id' q hq
    cases (hmem _).mp hq with
    | inl heq =>
      rw [(Prod.mk.inj heq).2, (Prod.mk.inj heq).1, BufferPoolManager.modify_self]
      exact hid
    | inr hold =>
      have hne : q ≠ ptr := fun heq => hout id' (heq ▸ hold)
      rw [BufferPoolManager.modify_of_ne _ _ hne]
      exact h.ident id' q hold
  · exact hnodup.2
  · intro q hq id' hq'
    cases (hmem _).mp hq' with
    | inl heq => exact hnodup.1 ((Prod.mk.inj heq).2 ▸ hq)
    | inr hold => exact h.frees_out q (by rw [hfrees]; exact List.mem_cons_of_mem _ hq) id' hold
  · intro q hq
    have hne : q ≠ ptr := fun heq => hnodup.1 (heq ▸ hq)
    rw [BufferPoolManager.modify_of_ne _ _ hne]
    exact h.frees_pin q (by rw [hfrees]; exact List.mem_cons_of_mem _ hq)
  · intro id' q hq
    cases (hmem _).mp hq with
    | inl heq =>
      rw [(Prod.mk.inj heq).2, BufferPoolManager.modify_self, Function.update_self, hhdr]
      exact hpin
    | inr hold =>
      have hne : q ≠ ptr := fun heq => hout id' (heq ▸ hold)
      rw [BufferPoolManager.modify_of_ne _ _ hne, Function.update_of_ne hne]
      exact h.pins id' q hold
  · intro q hq
    by_cases hne : q = ptr
    · exact ⟨id, (hmem _).mpr (Or.inl (by rw [hne]))⟩
    · rw [Function.update_of_ne hne] at hq
      obtain ⟨id', hid'⟩ := h.held_in q hq
      exact ⟨id', (hmem _).mpr (Or.inr hid')⟩
  · exact fun bp hbp => (hmem _).mpr (Or.inr (h.hdr bp hbp))

end Framed

/-! ## Contents -/

/-- What is followed: `all` pages or only the headers, and whether the free frames are known to be `clean`. -/
structure Scope where
  all : Prop
  clean : Prop

/-- The contents of the page are followed. -/
def Scope.Tracked (c : Scope) (p : PageNum) : Prop := c.all ∨ p = bpHeaderPage

/-- What was last written to each page of each file. -/
abbrev Contents := FileName → PageNum → Page

/-- Frames and files hold what was last written. A frame in `unmarked` has been written to and is not yet marked. -/
structure Coherent (c : Scope) (s : BufferPoolManager) (pools : List DiskBufferPool) (content : Contents)
    (unmarked : Ptr → Prop) : Prop where
  fds : (pools.map DiskBufferPool.fileDesc).Nodup
  names : (pools.map DiskBufferPool.fileName).Nodup
  frees_clean : c.clean → ∀ ptr ∈ s.frees, (s.memory ptr).dirty = false
  owner : ∀ id ptr, (id, ptr) ∈ s.frames → c.Tracked id.pageNum → ∃ bp ∈ pools, bp.fileDesc = id.fileDesc
  cached : ∀ bp ∈ pools, ∀ p ptr, (⟨bp.fileDesc, p⟩, ptr) ∈ s.frames → c.Tracked p →
    (s.memory ptr).page = content bp.fileName p ∧ p < (s.files bp.fileName).size ∧
      ((s.memory ptr).dirty = false → ¬unmarked ptr → (s.files bp.fileName).pages p = content bp.fileName p)
  stored : ∀ name p, c.Tracked p → p < (s.files name).size →
    (∀ bp ∈ pools, bp.fileName = name → ∀ ptr, (⟨bp.fileDesc, p⟩, ptr) ∉ s.frames) →
      (s.files name).pages p = content name p
  numbered : ∀ name p, p < (s.files name).size →
    c.Tracked p ∨ (p : ℤ) < BPFileHeader.pageCount (content name bpHeaderPage).data →
      ((s.files name).pages p).pageNum = p
  header : ∀ name, BPFileHeader.Ok (content name bpHeaderPage).data
  extent : ∀ name, BPFileHeader.pageCount (content name bpHeaderPage).data ≤ (s.files name).size

namespace Coherent

variable {c : Scope} {s s' : BufferPoolManager} {pools pinning : List DiskBufferPool} {held : Ptr → ℕ}
  {content : Contents} {unmarked : Ptr → Prop} {bp : DiskBufferPool} {p : PageNum} {id : FrameId} {ptr : Ptr}

theorem pool_of_name (h : Coherent c s pools content unmarked) {bp bp' : DiskBufferPool} (hbp : bp ∈ pools)
    (hbp' : bp' ∈ pools) (heq : bp.fileName = bp'.fileName) : bp = bp' := List.inj_on_of_nodup_map h.names hbp hbp' heq

theorem pool_of_fd (h : Coherent c s pools content unmarked) {bp bp' : DiskBufferPool} (hbp : bp ∈ pools)
    (hbp' : bp' ∈ pools) (heq : bp.fileDesc = bp'.fileDesc) : bp = bp' := List.inj_on_of_nodup_map h.fds hbp hbp' heq

theorem tracked_header (c : Scope) : c.Tracked bpHeaderPage := Or.inr rfl

theorem size_pos (h : Coherent c s pools content unmarked) (name : FileName) : 0 < (s.files name).size := by
  have hpos := (h.header name).pos
  have hle := h.extent name
  omega

/-- A page behind the end of its file is not tracked, or it is tracked with all pages before it. -/
theorem lt_size_of_tracked (h : Coherent c s pools content unmarked) {name : FileName} {q : PageNum}
    (hp : c.Tracked p → p < (s.files name).size) (hq : c.Tracked q) (hle : q ≤ p) : q < (s.files name).size := by
  rcases hq with hall | rfl
  · exact lt_of_le_of_lt hle (hp (Or.inl hall))
  · exact h.size_pos name

theorem congr (h : Coherent c s pools content unmarked) (hframes : ∀ node, node ∈ s'.frames ↔ node ∈ s.frames)
    (hfrees : c.clean → ∀ q ∈ s'.frees, (s'.memory q).dirty = false) (hfiles : s'.files = s.files)
    (hpage : ∀ id q, (id, q) ∈ s.frames → (s'.memory q).page = (s.memory q).page)
    (hdirty : ∀ id q, (id, q) ∈ s.frames → (s'.memory q).dirty = (s.memory q).dirty) :
    Coherent c s' pools content unmarked where
  fds := h.fds
  names := h.names
  frees_clean := hfrees
  owner id q hmem htr := h.owner id q ((hframes _).mp hmem) htr
  cached bp hbp p q hmem htr := by
    have hold := (hframes _).mp hmem
    rw [hpage _ q hold, hdirty _ q hold, hfiles]
    exact h.cached bp hbp p q hold htr
  stored name p htr hp hout := by
    rw [hfiles] at hp ⊢
    exact h.stored name p htr hp fun bp hbp hname q hmem => hout bp hbp hname q ((hframes _).mpr hmem)
  numbered name p hp hor := by
    rw [hfiles] at hp ⊢
    exact h.numbered name p hp hor
  header := h.header
  extent name := by rw [hfiles]; exact h.extent name

theorem modify (h : Coherent c s pools content unmarked) (ptr : Ptr) (f : Frame → Frame)
    (hpage : ∀ frame, (f frame).page = frame.page) (hdirty : ∀ frame, (f frame).dirty = frame.dirty) :
    Coherent c (s.modify ptr f) pools content unmarked := by
  have hfrees : c.clean → ∀ q ∈ s.frees, ((s.modify ptr f).memory q).dirty = false := by
    intro hc q hq
    rw [s.modify_proj ptr f Frame.dirty hdirty]
    exact h.frees_clean hc q hq
  exact h.congr (fun _ => Iff.rfl) hfrees rfl (fun _ q _ => s.modify_proj ptr f Frame.page hpage q)
    (fun _ q _ => s.modify_proj ptr f Frame.dirty hdirty q)

/-- A frame is written back to the file of its pool. A frame whose page is not followed may go to any file. -/
theorem flush (h : Coherent c s pools content unmarked) (hf : Framed s pinning held)
    (hmem : (⟨bp.fileDesc, p⟩, ptr) ∈ s.frames) (hbp : bp ∈ pools ∨ ¬c.Tracked p) {unmarked' : Ptr → Prop}
    (hunmarked : ∀ q, q ≠ ptr → (unmarked q → unmarked' q)) :
    Coherent c (s.flushPageInternal bp ptr) pools content unmarked' := by
  have hnum : (s.memory ptr).page.pageNum = p := congrArg FrameId.pageNum (hf.ident _ _ hmem)
  have hsize : c.Tracked p → p < (s.files bp.fileName).size := by
    intro htr
    cases hbp with
    | inl hbp => exact (h.cached bp hbp p ptr hmem htr).2.1
    | inr hnot => exact absurd htr hnot
  -- the file that is written: page `p` is what the frame holds, the others are as they were
  have hfile : ∀ name, name ≠ bp.fileName → (s.flushPageInternal bp ptr).files name = s.files name :=
    fun name hne => Function.update_of_ne hne _ _
  have hself : (s.flushPageInternal bp ptr).files bp.fileName =
      (s.files bp.fileName).write (s.memory ptr).page := Function.update_self _ _ _
  have hpage : ((s.flushPageInternal bp ptr).files bp.fileName).pages p = (s.memory ptr).page := by
    rw [hself, File.write_pages, hnum, Function.update_self]
  have hrest : ∀ q, q ≠ p →
      ((s.flushPageInternal bp ptr).files bp.fileName).pages q = (s.files bp.fileName).pages q := by
    intro q hq
    rw [hself, File.write_pages, hnum, Function.update_of_ne hq]
  have hlen : ((s.flushPageInternal bp ptr).files bp.fileName).size = max (s.files bp.fileName).size (p + 1) := by
    rw [hself, File.write_size, hnum]
  have hmempage : ∀ q, ((s.flushPageInternal bp ptr).memory q).page = (s.memory q).page :=
    BufferPoolManager.modify_proj _ ptr Frame.clearDirty Frame.page fun _ => rfl
  have hmemdirty : ∀ q, q ≠ ptr → ((s.flushPageInternal bp ptr).memory q).dirty = (s.memory q).dirty := by
    intro q hq
    exact congrArg Frame.dirty (BufferPoolManager.modify_of_ne _ Frame.clearDirty hq)
  refine ⟨h.fds, h.names, ?_, ?_, ?_, ?_, ?_, ?_, ?_⟩
  · intro hc q hq
    have hne : q ≠ ptr := fun heq => hf.notMem_frees hmem (heq ▸ hq)
    rw [hmemdirty q hne]
    exact h.frees_clean hc q hq
  · exact h.owner
  · intro bp' hbp' q q' hmem' htr
    obtain ⟨hc1, hc2, hc3⟩ := h.cached bp' hbp' q q' hmem' htr
    refine ⟨(hmempage q').trans hc1, ?_, ?_⟩
    · by_cases hname : bp'.fileName = bp.fileName
      · rw [hname, hlen]
        exact lt_of_lt_of_le (hname ▸ hc2) (le_max_left _ _)
      · rw [hfile _ hname]
        exact hc2
    · intro hdirty hun
      by_cases hq' : q' = ptr
      · -- the frame that has just been written: its file now holds its page
        have hkey := hf.key_unique hmem (hq' ▸ hmem')
        have hqp : q = p := congrArg FrameId.pageNum hkey.symm
        have hfd : bp'.fileDesc = bp.fileDesc := congrArg FrameId.fileDesc hkey.symm
        have hpool : bp ∈ pools := by
          cases hbp with
          | inl hbp => exact hbp
          | inr hnot => exact absurd (hqp ▸ htr) hnot
        have hsame : bp' = bp := h.pool_of_fd hbp' hpool hfd
        rw [hsame, hqp, hpage, ← hq', hc1, hsame, hqp]
      · have hold := hc3 (by rw [← hmemdirty q' hq']; exact hdirty) fun hu => hun (hunmarked q' hq' hu)
        by_cases hname : bp'.fileName = bp.fileName
        · have hqp : q ≠ p := by
            rintro rfl
            cases hbp with
            | inl hbp =>
              have hsame : bp' = bp := h.pool_of_name hbp' hbp hname
              exact hq' (LruCache.eq_of_mem hmem' (hsame ▸ hmem))
            | inr hnot => exact hnot htr
          rw [hname, hrest q hqp, ← hname]
          exact hold
        · rw [hfile _ hname]
          exact hold
  · intro name q htr hq hout
    by_cases hname : name = bp.fileName
    · subst hname
      have hqp : q ≠ p := by
        rintro rfl
        cases hbp with
        | inl hbp => exact hout bp hbp rfl ptr hmem
        | inr hnot => exact hnot htr
      rw [hrest q hqp]
      apply h.stored _ q htr _ hout
      rw [hlen] at hq
      cases lt_max_iff.mp hq with
      | inl hq => exact hq
      | inr hq => exact h.lt_size_of_tracked hsize htr (Nat.lt_succ_iff.mp hq)
    · rw [hfile name hname] at hq ⊢
      exact h.stored name q htr hq hout
  · intro name q hq hor
    by_cases hname : name = bp.fileName
    · subst hname
      by_cases hqp : q = p
      · rw [hqp, hpage, hnum]
      · rw [hrest q hqp]
        apply h.numbered _ q _ hor
        rw [hlen] at hq
        cases lt_max_iff.mp hq with
        | inl hq => exact hq
        | inr hq =>
          cases hor with
          | inl htr => exact h.lt_size_of_tracked hsize htr (Nat.lt_succ_iff.mp hq)
          | inr hlt =>
            have := h.extent bp.fileName
            exact_mod_cast lt_of_lt_of_le hlt this
    · rw [hfile name hname] at hq ⊢
      exact h.numbered name q hq hor
  · exact h.header
  · intro name
    by_cases hname : name = bp.fileName
    · subst hname
      rw [hlen]
      exact le_trans (h.extent _) (by exact_mod_cast le_max_left _ _)
    · rw [hfile name hname]
      exact h.extent name

theorem free {frames : LruCache FrameId Ptr} {content' : Contents} (h : Coherent c s pools content unmarked)
    (hf : Framed s pinning held) (hmem : (id, ptr) ∈ s.frames)
    (hframes : ∀ node, node ∈ frames ↔ node ∈ s.frames ∧ node.1 ≠ id)
    (hclean : c.clean → (s.memory ptr).dirty = false)
    (hsame : ∀ name q, (∀ bp ∈ pools, bp.fileDesc = id.fileDesc → bp.fileName = name → q ≠ id.pageNum) →
      content' name q = content name q)
    (hhdr : ∀ name, content' name bpHeaderPage = content name bpHeaderPage)
    (hdisk : ∀ bp ∈ pools, bp.fileDesc = id.fileDesc → c.Tracked id.pageNum →
      (s.files bp.fileName).pages id.pageNum = content' bp.fileName id.pageNum) :
    Coherent c ({ s with frames := frames, frees := s.frees ++ [ptr] }.modify ptr Frame.unpin) pools content'
      unmarked := by
  have hother : ∀ id' q, (id', q) ∈ frames → q ≠ ptr := by
    rintro id' q hq rfl
    obtain ⟨hold, hne⟩ := (hframes _).mp hq
    exact hne (hf.key_unique hold hmem)
  refine ⟨h.fds, h.names, ?_, ?_, ?_, ?_, ?_, ?_, ?_⟩
  · intro hc q hq
    rw [BufferPoolManager.modify_proj _ ptr Frame.unpin Frame.dirty fun _ => rfl]
    cases List.mem_append.mp hq with
    | inl hq => exact h.frees_clean hc q hq
    | inr hq =>
      rw [List.mem_singleton.mp hq]
      exact hclean hc
  · exact fun id' q hq htr => h.owner id' q ((hframes _).mp hq).1 htr
  · intro bp hbp q q' hq' htr
    obtain ⟨hold, hne⟩ := (hframes _).mp hq'
    have hcontent : content' bp.fileName q = content bp.fileName q := by
      apply hsame
      intro bp' hbp' hfd hname heq
      apply hne
      rw [h.pool_of_name hbp' hbp hname] at hfd
      show (⟨bp.fileDesc, q⟩ : FrameId) = id
      rw [hfd, heq]
    rw [BufferPoolManager.modify_of_ne _ _ (hother _ q' hq'), hcontent]
    exact h.cached bp hbp q q' hold htr
  · intro name q htr hq hout
    by_cases hgone : ∃ bp ∈ pools, bp.fileDesc = id.fileDesc ∧ bp.fileName = name ∧ q = id.pageNum
    · obtain ⟨bp, hbp, hfd, hname, hqid⟩ := hgone
      rw [hqid] at htr ⊢
      rw [← hname]
      exact hdisk bp hbp hfd htr
    · have hne : ∀ bp ∈ pools, bp.fileDesc = id.fileDesc → bp.fileName = name → q ≠ id.pageNum :=
        fun bp hbp hfd hname heq => hgone ⟨bp, hbp, hfd, hname, heq⟩
      rw [hsame name q hne]
      apply h.stored name q htr hq
      intro bp hbp hname q' hq'
      refine hout bp hbp hname q' ((hframes _).mpr ⟨hq', ?_⟩)
      rintro rfl
      exact hne bp hbp rfl hname rfl
  · intro name q hq hor
    rw [hhdr] at hor
    exact h.numbered name q hq hor
  · intro name
    rw [hhdr]
    exact h.header name
  · intro name
    rw [hhdr]
    exact h.extent name

/-- One page of an open file is read, written or added: the frame `ptr` holds it afterwards, and all other frames, pages
and contents are as they were. -/
structure Assigns (c : Scope) (s s' : BufferPoolManager) (bp : DiskBufferPool) (p : PageNum) (ptr : Ptr)
    (content content' : Contents) (unmarked unmarked' : Ptr → Prop) : Prop where
  frames : ∀ node, node ∈ s'.frames ↔ node = (⟨bp.fileDesc, p⟩, ptr) ∨ node ∈ s.frames
  ptr_eq : ∀ q, (⟨bp.fileDesc, p⟩, q) ∈ s.frames → q = ptr
  key_eq : ∀ id, (id, ptr) ∈ s.frames → id = ⟨bp.fileDesc, p⟩
  frees : ∀ q ∈ s'.frees, q ≠ ptr ∧ q ∈ s.frees
  memory : ∀ q, q ≠ ptr → (s'.memory q).page = (s.memory q).page ∧ (s'.memory q).dirty = (s.memory q).dirty
  files : ∀ name, name ≠ bp.fileName → s'.files name = s.files name
  pages : ∀ q, q ≠ p → (s'.files bp.fileName).pages q = (s.files bp.fileName).pages q
  grow : (s.files bp.fileName).size ≤ (s'.files bp.fileName).size
  size : ∀ q, q < (s'.files bp.fileName).size → q ≠ p → q < (s.files bp.fileName).size
  lt_size : p < (s'.files bp.fileName).size
  num : ((s'.files bp.fileName).pages p).pageNum = p
  page : c.Tracked p → (s'.memory ptr).page = content' bp.fileName p
  disk : c.Tracked p → (s'.memory ptr).dirty = false → ¬unmarked' ptr →
    (s'.files bp.fileName).pages p = content' bp.fileName p
  unmarked_of_ne : ∀ q, q ≠ ptr → unmarked q → unmarked' q
  content_of_ne : ∀ name q, (name = bp.fileName → q ≠ p) → content' name q = content name q
  ok : BPFileHeader.Ok (content' bp.fileName bpHeaderPage).data
  extent : BPFileHeader.pageCount (content' bp.fileName bpHeaderPage).data ≤ (s'.files bp.fileName).size
  numbered : ∀ q : PageNum, q ≠ p → q < (s.files bp.fileName).size →
    (q : ℤ) < BPFileHeader.pageCount (content' bp.fileName bpHeaderPage).data →
      ((s.files bp.fileName).pages q).pageNum = q

theorem assign {content' : Contents} {unmarked' : Ptr → Prop} (h : Coherent c s pools content unmarked)
    (hbp : bp ∈ pools) (ha : Assigns c s s' bp p ptr content content' unmarked unmarked') :
    Coherent c s' pools content' unmarked' := by
  obtain ⟨hframes, hptr, hkey, hfrees, hmem, hfiles, hpages, hgrow, hsize, hp, hnum, hpage, hdisk, hunmarked, hcontent,
    hok, hextent, hcount⟩ := ha
  have hheader : ∀ name, name ≠ bp.fileName → content' name bpHeaderPage = content name bpHeaderPage :=
    fun name hname => hcontent name _ fun heq => absurd heq hname
  refine ⟨h.fds, h.names, ?_, ?_, ?_, ?_, ?_, ?_, ?_⟩
  · intro hc q hq
    rw [(hmem q (hfrees q hq).1).2]
    exact h.frees_clean hc q (hfrees q hq).2
  · intro id q hq htr
    cases (hframes _).mp hq with
    | inl heq =>
      rw [(Prod.mk.inj heq).1]
      exact ⟨bp, hbp, rfl⟩
    | inr hold => exact h.owner id q hold htr
  · intro bp' hbp' q q' hq' htr
    by_cases hnew : q' = ptr
    · have hid : (⟨bp'.fileDesc, q⟩ : FrameId) = ⟨bp.fileDesc, p⟩ := by
        cases (hframes _).mp hq' with
        | inl heq => exact (Prod.mk.inj heq).1
        | inr hold => exact hkey _ (hnew ▸ hold)
      have hqp : q = p := congrArg FrameId.pageNum hid
      have hpool : bp' = bp := h.pool_of_fd hbp' hbp (congrArg FrameId.fileDesc hid)
      subst hqp hpool hnew
      exact ⟨hpage htr, hp, hdisk htr⟩
    · have hold : (⟨bp'.fileDesc, q⟩, q') ∈ s.frames := by
        cases (hframes _).mp hq' with
        | inl heq => exact absurd (Prod.mk.inj heq).2 hnew
        | inr hold => exact hold
      have hqp : bp'.fileName = bp.fileName → q ≠ p := by
        rintro hname rfl
        have hpool : bp' = bp := h.pool_of_name hbp' hbp hname
        exact hnew (hptr q' (hpool ▸ hold))
      obtain ⟨hc1, hc2, hc3⟩ := h.cached bp' hbp' q q' hold htr
      rw [(hmem q' hnew).1, (hmem q' hnew).2, hcontent _ _ hqp]
      by_cases hname : bp'.fileName = bp.fileName
      · rw [hname] at hc1 hc2 hc3 ⊢
        rw [hpages q (hqp hname)]
        exact ⟨hc1, lt_of_lt_of_le hc2 hgrow, fun hd hu => hc3 hd fun hu' => hu (hunmarked q' hnew hu')⟩
      · rw [hfiles _ hname]
        exact ⟨hc1, hc2, fun hd hu => hc3 hd fun hu' => hu (hunmarked q' hnew hu')⟩
  · intro name q htr hq hout
    have hqp : name = bp.fileName → q ≠ p := by
      rintro rfl rfl
      exact hout bp hbp rfl ptr ((hframes _).mpr (Or.inl rfl))
    have hout' : ∀ bp' ∈ pools, bp'.fileName = name → ∀ q', (⟨bp'.fileDesc, q⟩, q') ∉ s.frames :=
      fun bp' hbp' hname q' hq' => hout bp' hbp' hname q' ((hframes _).mpr (Or.inr hq'))
    rw [hcontent _ _ hqp]
    by_cases hname : name = bp.fileName
    · rw [hname] at hq hout' ⊢
      rw [hpages q (hqp hname)]
      exact h.stored _ q htr (hsize q hq (hqp hname)) hout'
    · rw [hfiles _ hname] at hq ⊢
      exact h.stored name q htr hq hout'
  · intro name q hq hor
    by_cases hname : name = bp.fileName
    · rw [hname] at hq hor ⊢
      by_cases hqp : q = p
      · rw [hqp]
        exact hnum
      · rw [hpages q hqp]
        cases hor with
        | inl htr => exact h.numbered _ q (hsize q hq hqp) (Or.inl htr)
        | inr hlt => exact hcount q hqp (hsize q hq hqp) hlt
    · rw [hheader name hname] at hor
      rw [hfiles _ hname] at hq ⊢
      exact h.numbered name q hq hor
  · intro name
    by_cases hname : name = bp.fileName
    · rw [hname]
      exact hok
    · rw [hheader name hname]
      exact h.header name
  · intro name
    by_cases hname : name = bp.fileName
    · rw [hname]
      exact hextent
    · rw [hheader name hname, hfiles _ hname]
      exact h.extent name

end Coherent

end Landbase.Buffer
