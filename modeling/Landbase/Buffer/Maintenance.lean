import Landbase.Buffer.Operations

/-! # Giving pages back, opening and closing files

`purge_frame` is what `purge_page`, `purge_all_pages` and `close_file` have in common. Closing a file turns the pin of
its pool on the header frame into a pin of the purge, frees the frames of the file that nobody else pins, and leaves the
others, which then belong to no file.
-/

namespace Landbase.Buffer
open Landbase.Lib
set_option autoImplicit false

namespace BufferPoolManager

variable {s : BufferPoolManager} {victims : List Ptr}

theorem foldl_pin (hnodup : victims.Nodup) :
    victims.foldl (fun s ptr => s.modify ptr Frame.pin) s =
      { s with memory := fun q => if q ∈ victims then (s.memory q).pin else s.memory q } := by
  induction victims generalizing s with
  | nil => simp
  | cons ptr rest ih =>
    obtain ⟨hnot, hrest⟩ := List.nodup_cons.mp hnodup
    rw [List.foldl_cons, ih hrest]
    have hmemory : (fun q => if q ∈ rest then ((s.modify ptr Frame.pin).memory q).pin else (s.modify ptr Frame.pin).memory q) =
        fun q => if q ∈ ptr :: rest then (s.memory q).pin else s.memory q := by
      funext q
      by_cases hq : q = ptr
      · rw [hq, if_neg hnot, if_pos List.mem_cons_self, modify_self]
      · rw [modify_of_ne _ _ hq]
        by_cases hin : q ∈ rest
        · rw [if_pos hin, if_pos (List.mem_cons_of_mem _ hin)]
        · rw [if_neg hin, if_neg (by rw [List.mem_cons]; tauto)]
    rw [hmemory]
    rfl

theorem unpin_pin (frame : Frame) : frame.pin.unpin = frame := rfl

theorem pin_unpin {frame : Frame} (h : 0 < frame.pinCount) : frame.unpin.pin = frame := by
  obtain ⟨dirty, pinCount, fileDesc, page⟩ := frame
  show (⟨dirty, pinCount - 1 + 1, fileDesc, page⟩ : Frame) = _
  rw [Nat.sub_add_cancel h]

theorem unpinAll_pinned (hnodup : victims.Nodup) :
    unpinAll victims { s with memory := fun q => if q ∈ victims then (s.memory q).pin else s.memory q } = .ok s := by
  induction victims with
  | nil => simp [unpinAll]
  | cons ptr rest ih =>
    obtain ⟨hnot, hrest⟩ := List.nodup_cons.mp hnodup
    have hunpin : ({ s with memory := fun q => if q ∈ ptr :: rest then (s.memory q).pin else s.memory q } :
        BufferPoolManager).unpin ptr =
        .ok { s with memory := fun q => if q ∈ rest then (s.memory q).pin else s.memory q } := by
      unfold unpin
      have hself : (if ptr ∈ ptr :: rest then (s.memory ptr).pin else s.memory ptr) = (s.memory ptr).pin :=
        if_pos List.mem_cons_self
      simp only [hself]
      rw [if_pos (show 0 < (s.memory ptr).pin.pinCount from Nat.succ_pos _)]
      unfold modify
      congr 2
      funext q
      by_cases hq : q = ptr
      · rw [hq, Function.update_self, if_neg hnot]
        show (if ptr ∈ ptr :: rest then (s.memory ptr).pin else s.memory ptr).unpin = _
        rw [hself, unpin_pin]
      · rw [Function.update_of_ne hq]
        show (if q ∈ ptr :: rest then (s.memory q).pin else s.memory q) = _
        by_cases hin : q ∈ rest
        · rw [if_pos hin, if_pos (List.mem_cons_of_mem _ hin)]
        · rw [if_neg hin, if_neg (by rw [List.mem_cons]; tauto)]
    simp only [unpinAll, hunpin]
    exact ih hrest

theorem mem_findList {fd : FileDesc} {ptr : Ptr} : ptr ∈ (s.findList fd).1 ↔ ∃ p, (⟨fd, p⟩, ptr) ∈ s.frames := by
  show ptr ∈ (s.frames.nodes.filter _).map Prod.snd ↔ _
  rw [List.mem_map]
  constructor
  · rintro ⟨⟨id, q⟩, hnode, rfl⟩
    obtain ⟨hmem, hfd⟩ := List.mem_filter.mp hnode
    obtain ⟨fd', p⟩ := id
    have hfd' : fd' = fd := of_decide_eq_true hfd
    exact ⟨p, hfd' ▸ hmem⟩
  · rintro ⟨p, hmem⟩
    exact ⟨(⟨fd, p⟩, ptr), List.mem_filter.mpr ⟨hmem, decide_eq_true rfl⟩, rfl⟩

end BufferPoolManager

namespace Framed

variable {s : BufferPoolManager} {pools : List DiskBufferPool} {held : Ptr → ℕ} {bp : DiskBufferPool} {fd : FileDesc}

theorem nodup_findList (h : Framed s pools held) : (s.findList fd).1.Nodup :=
  (Inv.nodup_ptrs h).sublist (List.filter_sublist.map Prod.snd)

theorem findList_snd (h : Framed s pools held) : (s.findList fd).2 =
    { s with memory := fun q => if q ∈ (s.findList fd).1 then (s.memory q).pin else s.memory q } :=
  BufferPoolManager.foldl_pin h.nodup_findList

theorem checkAllPagesUnpinned (h : Framed s pools held) : s.checkAllPagesUnpinned bp = .ok (.success, s) := by
  unfold BufferPoolManager.checkAllPagesUnpinned
  rw [h.findList_snd, BufferPoolManager.unpinAll_pinned h.nodup_findList]

end Framed

namespace Inv

variable {c : Scope} {s : BufferPoolManager} {pinning pools : List DiskBufferPool} {held : Ptr → ℕ} {content : Contents}
  {unmarked : Ptr → Prop} {bp : DiskBufferPool} {p : PageNum} {id : FrameId} {ptr : Ptr}

/-! ## Purging -/

theorem purgeFrame (h : Inv c s pinning pools held content unmarked) (hmem : (⟨bp.fileDesc, p⟩, ptr) ∈ s.frames)
    (hbp : bp ∈ pools ∨ ¬c.Tracked p) (hheld : held ptr = 1) (hpin : (s.memory ptr).pinCount = 1) (hun : ¬unmarked ptr) :
    ∃ s', s.purgeFrame bp p ptr = .ok (.success, s') ∧
      Inv c s' pinning pools (Function.update held ptr 0) content unmarked ∧ Evicts s s' (· = ptr) ∧ ptr ∈ s'.frees := by
  unfold BufferPoolManager.purgeFrame
  rw [if_neg (by rw [hpin]; exact fun hne => hne rfl)]
  cases hdirty : (s.memory ptr).dirty with
  | false =>
    obtain ⟨s', hfree, hinv, hev, hin⟩ := h.free hmem hheld hpin hdirty hun
    refine ⟨s', ?_, hinv, hev, hin⟩
    simp only [hfree, Bool.false_eq_true, if_false]
  | true =>
    have hflush := h.flush_of_marked hmem hbp hun
    have hpin' : ((s.flushPageInternal bp ptr).memory ptr).pinCount = 1 :=
      (BufferPoolManager.modify_proj _ ptr Frame.clearDirty Frame.pinCount (fun _ => rfl) ptr).trans hpin
    have hdirty' : ((s.flushPageInternal bp ptr).memory ptr).dirty = false :=
      congrArg Frame.dirty (BufferPoolManager.modify_self _ ptr Frame.clearDirty)
    obtain ⟨s', hfree, hinv, hev, hin⟩ := hflush.free hmem hheld hpin' hdirty' hun
    refine ⟨s', ?_, hinv, ?_, hin⟩
    · simp only [hfree, if_true]
    · have hev1 : Evicts s (s.flushPageInternal bp ptr) (· = ptr) :=
        ⟨fun _ hnode => hnode, fun _ hnode _ => hnode, fun q hq => BufferPoolManager.modify_of_ne _ _ hq,
          fun _ hq => hq, rfl, s.size_le_flush bp ptr⟩
      exact hev1.trans hev

theorem purgePage (h : Inv c s pools pools held content unmarked) (hbp : bp ∈ pools)
    (hfree : ∀ ptr, (⟨bp.fileDesc, p⟩, ptr) ∈ s.frames → (s.memory ptr).pinCount = 0) :
    ∃ s', s.purgePage bp p = .ok (.success, s') ∧ Inv c s' pools pools held content unmarked ∧
      Evicts s s' (fun q => (s.memory q).pinCount = 0) := by
  unfold BufferPoolManager.purgePage
  rcases s.mem_or_notMem ⟨bp.fileDesc, p⟩ with ⟨ptr, hmem⟩ | hnew
  · rw [BufferPoolManager.get_of_mem hmem]
    have hpin := hfree ptr hmem
    have hheld : held ptr = 0 := by
      have := h.framed.pins _ _ hmem
      omega
    have hmem' : (⟨bp.fileDesc, p⟩, ptr) ∈
        ({ s with frames := s.frames.put ⟨bp.fileDesc, p⟩ ptr } : BufferPoolManager).frames :=
      (LruCache.mem_put_of_mem hmem).mpr hmem
    obtain ⟨s', heq, hinv, hev, -⟩ := (h.get hmem).purgeFrame hmem' (Or.inl hbp) (by rw [Function.update_self, hheld])
      (by
        rw [BufferPoolManager.modify_self]
        show (s.memory ptr).pinCount + 1 = 1
        rw [hpin])
      (fun hu => by
        have := h.holder ptr hu
        omega)
    refine ⟨s', heq, ?_, ?_⟩
    · rw [Function.update_idem, ← hheld, Function.update_eq_self] at hinv
      exact hinv
    · refine ⟨fun node hnode => ?_, fun node hnode hnot => ?_, fun q hq => ?_, hev.frees, hev.pools, hev.size⟩
      · exact (LruCache.mem_put_of_mem hmem).mp (hev.frames node hnode)
      · exact hev.kept node ((LruCache.mem_put_of_mem hmem).mpr hnode) fun heq' => hnot (heq' ▸ hpin)
      · have hne : q ≠ ptr := fun heq' => hq (heq' ▸ hpin)
        rw [hev.memory q hne, BufferPoolManager.modify_of_ne _ _ hne]
  · rw [BufferPoolManager.get_of_notMem hnew]
    exact ⟨s, rfl, h, Evicts.refl s _⟩

/-- The loop of `purge_all_pages`: a frame with one pin goes, any other keeps the pin that `find_list` took. -/
theorem purgeAllLoop {victims : List Ptr} (h : Inv c s pinning pools held content unmarked) (hnodup : victims.Nodup)
    (hvictims : ∀ ptr ∈ victims, ∃ p, (⟨bp.fileDesc, p⟩, ptr) ∈ s.frames ∧ (bp ∈ pools ∨ ¬c.Tracked p) ∧ 0 < held ptr ∧
      (unmarked ptr → 1 < held ptr)) :
    ∃ s' held', BufferPoolManager.purgeAllLoop bp victims s = .ok s' ∧
      Inv c s' pinning pools held' content unmarked ∧ Evicts s s' (· ∈ victims) ∧
      (∀ ptr ∈ victims, (s.memory ptr).pinCount = 1 → ∀ id, (id, ptr) ∉ s'.frames) ∧
      ∀ q, held' q = if q ∈ victims ∧ (s.memory q).pinCount = 1 then 0 else held q := by
  induction victims generalizing s held with
  | nil =>
    refine ⟨s, held, rfl, h, Evicts.refl s _, fun ptr hptr => absurd hptr List.not_mem_nil, fun q => ?_⟩
    rw [if_neg fun hq => absurd hq.1 List.not_mem_nil]
  | cons ptr rest ih =>
    obtain ⟨hnot, hrest⟩ := List.nodup_cons.mp hnodup
    obtain ⟨p, hmem, hor, hheld, hun⟩ := hvictims ptr List.mem_cons_self
    have hnum : (s.memory ptr).page.pageNum = p := congrArg FrameId.pageNum (h.framed.ident _ _ hmem)
    have hne : ∀ q ∈ rest, q ≠ ptr := fun q hq heq => hnot (heq ▸ hq)
    by_cases hpin : (s.memory ptr).pinCount = 1
    · have hone : held ptr = 1 := by
        have := h.framed.pins _ _ hmem
        omega
      obtain ⟨s1, heq, hinv1, hev1, hin1⟩ := h.purgeFrame hmem hor hone hpin fun hu => by
        have := hun hu
        omega
      obtain ⟨s', held', hloop, hinv', hev', hgone, hheld'⟩ := ih hinv1 hrest (by
        intro q hq
        obtain ⟨p', hmem', hor', hheld', hun'⟩ := hvictims q (List.mem_cons_of_mem _ hq)
        rw [Function.update_of_ne (hne q hq)]
        exact ⟨p', hev1.kept _ hmem' (hne q hq), hor', hheld', hun'⟩)
      refine ⟨s', held', ?_, hinv', ?_, ?_, ?_⟩
      · simp only [BufferPoolManager.purgeAllLoop, hnum, heq]
        exact hloop
      · exact (hev1.mono fun q hq => hq ▸ List.mem_cons_self).trans (hev'.mono fun q hq => List.mem_cons_of_mem _ hq)
      · intro q hq hpin' id hid
        rcases List.mem_cons.mp hq with rfl | hq
        · exact hinv1.framed.frees_out q hin1 id (hev'.frames _ hid)
        · exact hgone q hq (by rw [hev1.memory q (hne q hq)]; exact hpin') id hid
      · intro q
        rw [hheld' q]
        by_cases hq : q = ptr
        · rw [hq, if_neg fun hq' => hnot hq'.1, if_pos ⟨List.mem_cons_self, hpin⟩, Function.update_self]
        · rw [hev1.memory q hq, Function.update_of_ne hq]
          apply if_congr _ rfl rfl
          rw [List.mem_cons]
          tauto
    · obtain ⟨s', held', hloop, hinv', hev', hgone, hheld'⟩ := ih h hrest fun q hq => hvictims q (List.mem_cons_of_mem _ hq)
      refine ⟨s', held', ?_, hinv', hev'.mono fun q hq => List.mem_cons_of_mem _ hq, ?_, ?_⟩
      · simp only [BufferPoolManager.purgeAllLoop, BufferPoolManager.purgeFrame, ne_eq, hpin, not_false_eq_true, if_true]
        exact hloop
      · intro q hq hpin' id
        rcases List.mem_cons.mp hq with rfl | hq
        · exact absurd hpin' hpin
        · exact hgone q hq hpin' id
      · intro q
        rw [hheld' q]
        by_cases hq : q = ptr
        · rw [hq, if_neg fun hq' => hnot hq'.1, if_neg fun hq' => hpin hq'.2]
        · apply if_congr _ rfl rfl
          rw [List.mem_cons]
          tauto

/-! ## Disposing of a page -/

/-- What a file holds of a page is the page, once its frame is given up without being written. -/
def disposal (content : Contents) (s : BufferPoolManager) (name : FileName) (p : PageNum) : Contents :=
  written (written content name p ((s.files name).pages p)) name bpHeaderPage
    { content name bpHeaderPage with data := BPFileHeader.unmark (content name bpHeaderPage).data p }

theorem disposePage (h : Inv c s pools pools held content unmarked) (hbp : bp ∈ pools) (hclean : ¬c.clean)
    (hmax : p < BPFileHeader.maxPageNum) (hbit : BPFileHeader.allocated (s.header bp) p = true)
    (hfree : ∀ ptr, (⟨bp.fileDesc, p⟩, ptr) ∈ s.frames → (s.memory ptr).pinCount = 0) :
    s.disposePage bp p = .ok (.notfound, s) ∨
      ∃ s', s.disposePage bp p = .ok (.success, s') ∧
        Inv c s' pools pools held (disposal content s bp.fileName p) unmarked ∧ Kept s s' ∧ s'.bufferPools = s.bufferPools := by
  unfold BufferPoolManager.disposePage
  rcases s.mem_or_notMem ⟨bp.fileDesc, p⟩ with ⟨ptr, hmem⟩ | hnew
  · right
    have hpin := hfree ptr hmem
    have hheld : held ptr = 0 := by
      have := h.framed.pins _ _ hmem
      omega
    have hp : p ≠ bpHeaderPage := by
      rintro rfl
      have heq : bp.hdrFrame = ptr := LruCache.eq_of_mem (h.framed.hdr bp hbp) hmem
      have hpins := h.framed.pins _ _ hmem
      rw [hdrPin, if_pos (List.mem_map.mpr ⟨bp, hbp, heq⟩)] at hpins
      omega
    rw [BufferPoolManager.get_of_mem hmem]
    set t := ({ s with frames := s.frames.put ⟨bp.fileDesc, p⟩ ptr } : BufferPoolManager).modify ptr Frame.pin with ht
    have hinv := h.get hmem
    have htouch : ∀ node, node ∈ t.frames ↔ node ∈ s.frames := fun node => LruCache.mem_put_of_mem hmem
    have hmem' : (⟨bp.fileDesc, p⟩, ptr) ∈ t.frames := (htouch _).mpr hmem
    have hpin' : (t.memory ptr).pinCount = 1 := by
      rw [ht, BufferPoolManager.modify_self]
      show (s.memory ptr).pinCount + 1 = 1
      rw [hpin]
    have hheader : s.header bp = (content bp.fileName bpHeaderPage).data := congrArg Page.data (h.header_eq hbp)
    have hremove : ∀ node, node ∈ (t.frames.put ⟨bp.fileDesc, p⟩ ptr).remove ⟨bp.fileDesc, p⟩ ↔
        node ∈ t.frames ∧ node.1 ≠ ⟨bp.fileDesc, p⟩ := fun node => BufferPoolManager.mem_remove_put hmem'
    have hone : Function.update held ptr (held ptr + 1) ptr = 1 := by rw [Function.update_self, hheld]
    -- the frame is free; the page is now what the file holds of it
    have hfreed : Inv c ({ t with
        frames := (t.frames.put ⟨bp.fileDesc, p⟩ ptr).remove ⟨bp.fileDesc, p⟩
        frees := t.frees ++ [ptr] }.modify ptr Frame.unpin) pools pools held
        (written content bp.fileName p ((s.files bp.fileName).pages p)) unmarked := by
      refine ⟨?_, ?_, h.holder⟩
      · have hframed := hinv.framed.free hmem' hremove hone hpin'
        rw [Function.update_idem, ← hheld, Function.update_eq_self] at hframed
        exact hframed
      · apply hinv.coherent.free hinv.framed hmem' hremove (fun hc => absurd hc hclean)
        · intro name q hq
          apply written_of_ne
          intro hname
          exact hq bp hbp rfl hname.symm
        · intro name
          exact written_of_ne fun _ => hp.symm
        · intro bp' hbp' hfd _
          rw [h.coherent.pool_of_fd hbp' hbp hfd, written_self]
          rfl
    have hcontent : written content bp.fileName p ((s.files bp.fileName).pages p) bp.fileName bpHeaderPage =
        content bp.fileName bpHeaderPage := written_of_ne fun _ => hp.symm
    have hok := h.coherent.header bp.fileName
    rw [hheader] at hbit
    have hcount : BPFileHeader.pageCount (BPFileHeader.unmark (content bp.fileName bpHeaderPage).data p) =
        BPFileHeader.pageCount (content bp.fileName bpHeaderPage).data := by simp [BPFileHeader.unmark]
    have hset := hfreed.setHeader hbp (hok.unmark hmax hbit hp) (by rw [hcount]; exact h.coherent.extent bp.fileName)
      (by rw [hcount]; exact fun q hq hlt => h.coherent.numbered bp.fileName q hq (Or.inr hlt))
    rw [hcontent] at hset
    have hheader' := congrArg Page.data (hfreed.header_eq hbp)
    rw [hcontent] at hheader'
    refine ⟨_, ?_, hset, ?_, rfl⟩
    · simp only [BufferPoolManager.free_of_mem hmem' hpin']
      unfold BufferPoolManager.header
      rw [hheader']
    · intro node hnode hpos
      refine (hremove node).mpr ⟨(htouch node).mpr hnode, ?_⟩
      intro hkey
      have heq : node.2 = ptr := LruCache.eq_of_mem (show (⟨bp.fileDesc, p⟩, node.2) ∈ s.frames from hkey ▸ hnode) hmem
      rw [heq, hpin] at hpos
      exact lt_irrefl 0 hpos
  · left
    rw [BufferPoolManager.get_of_notMem hnew]

end Inv

/-! ## Opening and closing -/

namespace Framed

variable {s : BufferPoolManager} {pools : List DiskBufferPool} {held : Ptr → ℕ} {bp : DiskBufferPool}

theorem drop (h : Framed s pools held) (hbp : bp ∈ pools)
    (hfds : ∀ bp' ∈ pools, bp'.fileDesc = bp.fileDesc → bp' = bp) :
    Framed s (pools.filter (· ≠ bp)) (Function.update held bp.hdrFrame (held bp.hdrFrame + 1)) := by
  have hmem := h.hdr bp hbp
  have hother : ∀ bp' ∈ pools, bp'.hdrFrame = bp.hdrFrame → bp' = bp := by
    intro bp' hbp' heq
    have hkey := h.key_unique (h.hdr bp' hbp') (heq ▸ hmem)
    exact hfds bp' hbp' (congrArg FrameId.fileDesc hkey)
  have hzero : hdrPin (pools.filter (· ≠ bp)) bp.hdrFrame = 0 := by
    apply if_neg
    intro hin
    obtain ⟨bp', hbp', heq⟩ := List.mem_map.mp hin
    obtain ⟨hin', hne⟩ := List.mem_filter.mp hbp'
    exact of_decide_eq_true hne (hother bp' hin' heq)
  have hsame : ∀ q, q ≠ bp.hdrFrame → hdrPin (pools.filter (· ≠ bp)) q = hdrPin pools q := by
    intro q hq
    apply if_congr _ rfl rfl
    rw [List.mem_map, List.mem_map]
    constructor
    · rintro ⟨bp', hbp', heq⟩
      exact ⟨bp', (List.mem_filter.mp hbp').1, heq⟩
    · rintro ⟨bp', hbp', heq⟩
      refine ⟨bp', List.mem_filter.mpr ⟨hbp', decide_eq_true ?_⟩, heq⟩
      rintro rfl
      exact hq heq.symm
  refine ⟨h.ident, h.frees_nodup, h.frees_out, h.frees_pin, ?_, ?_, ?_⟩
  · intro id q hq
    by_cases hne : q = bp.hdrFrame
    · rw [hne, Function.update_self, hzero, h.pins id _ (hne ▸ hq), hdrPin,
        if_pos (List.mem_map.mpr ⟨bp, hbp, rfl⟩)]
    · rw [Function.update_of_ne hne, hsame q hne]
      exact h.pins id q hq
  · intro q hq
    by_cases hne : q = bp.hdrFrame
    · rw [hne]
      exact ⟨_, hmem⟩
    · rw [Function.update_of_ne hne] at hq
      exact h.held_in q hq
  · exact fun bp' hbp' => h.hdr bp' (List.mem_filter.mp hbp').1

theorem adopt (h : Framed s pools held) (hmem : (⟨bp.fileDesc, bpHeaderPage⟩, bp.hdrFrame) ∈ s.frames)
    (hnew : ∀ bp' ∈ pools, bp'.fileDesc ≠ bp.fileDesc) (hheld : held bp.hdrFrame = 1) :
    Framed s (bp :: pools) (Function.update held bp.hdrFrame 0) := by
  have hother : bp.hdrFrame ∉ pools.map DiskBufferPool.hdrFrame := by
    intro hin
    obtain ⟨bp', hbp', heq⟩ := List.mem_map.mp hin
    exact hnew bp' hbp' (congrArg FrameId.fileDesc (h.key_unique (h.hdr bp' hbp') (heq ▸ hmem)))
  refine ⟨h.ident, h.frees_nodup, h.frees_out, h.frees_pin, ?_, ?_, ?_⟩
  · intro id q hq
    have hpins := h.pins id q hq
    unfold hdrPin at hpins ⊢
    rw [List.map_cons]
    by_cases hne : q = bp.hdrFrame
    · rw [hne] at hpins ⊢
      rw [Function.update_self, if_pos List.mem_cons_self, hpins, hheld, if_neg hother]
    · rw [Function.update_of_ne hne, hpins]
      congr 1
      apply if_congr _ rfl rfl
      rw [List.mem_cons]
      exact ⟨Or.inr, fun hor => hor.resolve_left hne⟩
  · intro q hq
    by_cases hne : q = bp.hdrFrame
    · rw [hne]
      exact ⟨_, hmem⟩
    · rw [Function.update_of_ne hne] at hq
      exact h.held_in q hq
  · intro bp' hbp'
    rcases List.mem_cons.mp hbp' with rfl | hbp'
    · exact hmem
    · exact h.hdr bp' hbp'

end Framed

namespace Coherent

variable {c : Scope} {s : BufferPoolManager} {pools : List DiskBufferPool} {content : Contents} {unmarked : Ptr → Prop}
  {bp : DiskBufferPool}

theorem drop (h : Coherent c s pools content unmarked) (hbp : bp ∈ pools)
    (hnone : ∀ p ptr, (⟨bp.fileDesc, p⟩, ptr) ∈ s.frames → ¬c.Tracked p) :
    Coherent c s (pools.filter (· ≠ bp)) content unmarked := by
  have hsub : ∀ bp' ∈ pools.filter (· ≠ bp), bp' ∈ pools := fun bp' hbp' => (List.mem_filter.mp hbp').1
  refine ⟨h.fds.sublist (List.filter_sublist.map _), h.names.sublist (List.filter_sublist.map _), h.frees_clean, ?_, ?_, ?_,
    h.numbered, h.header, h.extent⟩
  · intro id ptr hmem htr
    obtain ⟨bp', hbp', hfd⟩ := h.owner id ptr hmem htr
    refine ⟨bp', List.mem_filter.mpr ⟨hbp', decide_eq_true ?_⟩, hfd⟩
    rintro rfl
    refine hnone id.pageNum ptr ?_ htr
    rw [hfd]
    exact hmem
  · exact fun bp' hbp' => h.cached bp' (hsub bp' hbp')
  · intro name p htr hp hout
    apply h.stored name p htr hp
    intro bp' hbp' hname ptr hmem
    by_cases heq : bp' = bp
    · exact hnone p ptr (heq ▸ hmem) htr
    · exact hout bp' (List.mem_filter.mpr ⟨hbp', decide_eq_true heq⟩) hname ptr hmem

theorem adopt (h : Coherent c s pools content unmarked) (hfd : ∀ bp' ∈ pools, bp'.fileDesc ≠ bp.fileDesc)
    (hname : ∀ bp' ∈ pools, bp'.fileName ≠ bp.fileName) : Coherent c s (bp :: pools) content unmarked := by
  refine ⟨?_, ?_, h.frees_clean, ?_, ?_, ?_, h.numbered, h.header, h.extent⟩
  · rw [List.map_cons, List.nodup_cons]
    refine ⟨fun hin => ?_, h.fds⟩
    obtain ⟨bp', hbp', heq⟩ := List.mem_map.mp hin
    exact hfd bp' hbp' heq
  · rw [List.map_cons, List.nodup_cons]
    refine ⟨fun hin => ?_, h.names⟩
    obtain ⟨bp', hbp', heq⟩ := List.mem_map.mp hin
    exact hname bp' hbp' heq
  · intro id ptr hmem htr
    obtain ⟨bp', hbp', heq⟩ := h.owner id ptr hmem htr
    exact ⟨bp', List.mem_cons_of_mem _ hbp', heq⟩
  · intro bp' hbp' p ptr hmem htr
    rcases List.mem_cons.mp hbp' with rfl | hbp'
    · obtain ⟨bp'', hbp'', heq⟩ := h.owner _ ptr hmem htr
      exact absurd heq (hfd bp'' hbp'')
    · exact h.cached bp' hbp' p ptr hmem htr
  · exact fun name p htr hp hout => h.stored name p htr hp fun bp' hbp' => hout bp' (List.mem_cons_of_mem _ hbp')

end Coherent

namespace Inv

variable {c : Scope} {s : BufferPoolManager} {pools : List DiskBufferPool} {held : Ptr → ℕ} {content : Contents}
  {unmarked : Ptr → Prop} {bp : DiskBufferPool}

theorem setPools {pinning : List DiskBufferPool} (h : Inv c s pinning pools held content unmarked)
    (bufferPools : List DiskBufferPool) :
    Inv c { s with bufferPools := bufferPools } pinning pools held content unmarked :=
  ⟨h.framed.congr (fun _ => Iff.rfl) rfl (fun _ => rfl) (fun _ => rfl),
    h.coherent.congr (fun _ => Iff.rfl) h.coherent.frees_clean rfl (fun _ _ _ => rfl) (fun _ _ _ => rfl), h.holder⟩

theorem hdr_pinCount (h : Inv c s pools pools held content unmarked) (hbp : bp ∈ pools) :
    (s.memory bp.hdrFrame).pinCount = held bp.hdrFrame + 1 := by
  rw [h.framed.pins _ _ (h.framed.hdr bp hbp), hdrPin, if_pos (List.mem_map.mpr ⟨bp, hbp, rfl⟩)]

/-- The pin that `close_file` gives back on the header frame is the one that `find_list` takes on it. -/
theorem findList_unpin (h : Inv c s pools pools held content unmarked) (hbp : bp ∈ pools) :
    ((s.modify bp.hdrFrame Frame.unpin).findList bp.fileDesc).2 =
      ((s.findList bp.fileDesc).1.filter (· ≠ bp.hdrFrame)).foldl (fun s ptr => s.modify ptr Frame.pin) s := by
  have hnodup : (s.findList bp.fileDesc).1.Nodup := h.framed.nodup_findList
  have hin : bp.hdrFrame ∈ (s.findList bp.fileDesc).1 :=
    BufferPoolManager.mem_findList.mpr ⟨bpHeaderPage, h.framed.hdr bp hbp⟩
  have hlhs : ((s.modify bp.hdrFrame Frame.unpin).findList bp.fileDesc).2 =
      (s.findList bp.fileDesc).1.foldl (fun s ptr => s.modify ptr Frame.pin) (s.modify bp.hdrFrame Frame.unpin) := rfl
  rw [hlhs, BufferPoolManager.foldl_pin hnodup, BufferPoolManager.foldl_pin (hnodup.filter _)]
  have hmemory : (fun q => if q ∈ (s.findList bp.fileDesc).1 then ((s.modify bp.hdrFrame Frame.unpin).memory q).pin
        else (s.modify bp.hdrFrame Frame.unpin).memory q) =
      fun q => if q ∈ (s.findList bp.fileDesc).1.filter (· ≠ bp.hdrFrame) then (s.memory q).pin else s.memory q := by
    funext q
    by_cases hq : q = bp.hdrFrame
    · have hout : bp.hdrFrame ∉ (s.findList bp.fileDesc).1.filter (· ≠ bp.hdrFrame) := by simp
      rw [hq, if_pos hin, if_neg hout, BufferPoolManager.modify_self]
      apply BufferPoolManager.pin_unpin
      rw [h.hdr_pinCount hbp]
      exact Nat.succ_pos _
    · rw [BufferPoolManager.modify_of_ne _ _ hq]
      apply if_congr _ rfl rfl
      rw [List.mem_filter]
      exact ⟨fun hmem => ⟨hmem, decide_eq_true hq⟩, fun hmem => hmem.1⟩
  rw [hmemory]
  rfl

theorem closeFile (h : Inv c s pools pools held content unmarked) (hpools : s.bufferPools = pools) (hbp : bp ∈ pools)
    (hheld : ∀ p ptr, (⟨bp.fileDesc, p⟩, ptr) ∈ s.frames → c.Tracked p → held ptr = 0) :
    ∃ s' held', s.closeFile bp = .ok (.success, s') ∧
      Inv c s' (pools.filter (· ≠ bp)) (pools.filter (· ≠ bp)) held' content unmarked ∧
      s'.bufferPools = pools.filter (· ≠ bp) ∧ (∀ q, held q ≤ held' q) ∧ (c.all → held' = held) ∧
      (∀ p ptr, (⟨bp.fileDesc, p⟩, ptr) ∈ s'.frames → ¬c.Tracked p) ∧
      Evicts s { s' with bufferPools := pools } (· ∈ (s.findList bp.fileDesc).1) := by
  have hhdr := h.framed.hdr bp hbp
  have hpin := h.hdr_pinCount hbp
  have hunpin : s.unpin bp.hdrFrame = .ok (s.modify bp.hdrFrame Frame.unpin) := if_pos (by omega)
  have hfds : ∀ bp' ∈ pools, bp'.fileDesc = bp.fileDesc → bp' = bp := fun bp' hbp' => h.coherent.pool_of_fd hbp' hbp
  -- the pool's own pin on its header is from now on one of those to be given back
  have hdrop : Inv c s (pools.filter (· ≠ bp)) pools (Function.update held bp.hdrFrame (held bp.hdrFrame + 1)) content
      unmarked :=
    ⟨h.framed.drop hbp hfds, h.coherent, fun q hq => lt_of_lt_of_le (h.holder q hq) (le_update_succ held _ q)⟩
  have hvictims : ∀ ptr ∈ (s.findList bp.fileDesc).1.filter (· ≠ bp.hdrFrame), ∃ id, (id, ptr) ∈ s.frames := by
    intro ptr hptr
    obtain ⟨p, hmem⟩ := BufferPoolManager.mem_findList.mp (List.mem_filter.mp hptr).1
    exact ⟨_, hmem⟩
  obtain ⟨s2, heq, hinv2, hframes2, hfrees2, hpools2, hfiles2, hmemory2⟩ :=
    hdrop.pinAll (h.framed.nodup_findList.filter _) hvictims
  have hcount : ∀ p ptr, (⟨bp.fileDesc, p⟩, ptr) ∈ s.frames →
      pinned (Function.update held bp.hdrFrame (held bp.hdrFrame + 1))
        ((s.findList bp.fileDesc).1.filter (· ≠ bp.hdrFrame)) ptr = held ptr + 1 := by
    intro p ptr hmem
    unfold pinned
    by_cases hq : ptr = bp.hdrFrame
    · have hout : bp.hdrFrame ∉ (s.findList bp.fileDesc).1.filter (· ≠ bp.hdrFrame) := by simp
      rw [hq, if_neg hout, Function.update_self]
    · have hin : ptr ∈ (s.findList bp.fileDesc).1.filter (· ≠ bp.hdrFrame) :=
        List.mem_filter.mpr ⟨BufferPoolManager.mem_findList.mpr ⟨p, hmem⟩, decide_eq_true hq⟩
      rw [if_pos hin, Function.update_of_ne hq]
  have hrest : ∀ q, q ∉ (s.findList bp.fileDesc).1 →
      pinned (Function.update held bp.hdrFrame (held bp.hdrFrame + 1))
        ((s.findList bp.fileDesc).1.filter (· ≠ bp.hdrFrame)) q = held q := by
    intro q hq
    have hne : q ≠ bp.hdrFrame := by
      rintro rfl
      exact hq (BufferPoolManager.mem_findList.mpr ⟨bpHeaderPage, hhdr⟩)
    unfold pinned
    rw [if_neg fun hin => hq (List.mem_filter.mp hin).1, Function.update_of_ne hne]
  have hone : ∀ p ptr, (⟨bp.fileDesc, p⟩, ptr) ∈ s.frames → (s2.memory ptr).pinCount = held ptr + 1 := by
    intro p ptr hmem
    have hnone : hdrPin (pools.filter (· ≠ bp)) ptr = 0 := by
      apply if_neg
      intro hin
      obtain ⟨bp', hbp', hptr⟩ := List.mem_map.mp hin
      obtain ⟨hin', hne⟩ := List.mem_filter.mp hbp'
      have hkey := h.framed.key_unique (h.framed.hdr bp' hin') (hptr ▸ hmem)
      exact of_decide_eq_true hne (hfds bp' hin' (congrArg FrameId.fileDesc hkey))
    rw [hinv2.framed.pins _ ptr (by rw [hframes2]; exact hmem), hcount p ptr hmem, hnone, add_zero]
  obtain ⟨s', held', hloop, hinv', hev', hgone, hheld'⟩ := hinv2.purgeAllLoop h.framed.nodup_findList (by
    intro ptr hptr
    obtain ⟨p, hmem⟩ := BufferPoolManager.mem_findList.mp hptr
    refine ⟨p, by rw [hframes2]; exact hmem, Or.inl hbp, ?_, fun hu => ?_⟩
    · rw [hcount p ptr hmem]
      exact Nat.succ_pos _
    · rw [hcount p ptr hmem]
      exact Nat.succ_lt_succ (h.holder ptr hu))
  have hnone : ∀ p ptr, (⟨bp.fileDesc, p⟩, ptr) ∈ s'.frames → ¬c.Tracked p := by
    intro p ptr hmem htr
    have hold : (⟨bp.fileDesc, p⟩, ptr) ∈ s.frames := hframes2 ▸ hev'.frames _ hmem
    refine hgone ptr (BufferPoolManager.mem_findList.mpr ⟨p, hold⟩) ?_ _ hmem
    rw [hone p ptr hold, hheld p ptr hold htr]
  have hpools' : s'.bufferPools = pools := hev'.pools.trans (hpools2.trans hpools)
  refine ⟨{ s' with bufferPools := pools.filter (· ≠ bp) }, held', ?_, ?_, rfl, ?_, ?_, hnone, ?_⟩
  · unfold BufferPoolManager.closeFile BufferPoolManager.purgeAllPages
    rw [hunpin]
    simp only [h.findList_unpin hbp, heq]
    have hlist : ((s.modify bp.hdrFrame Frame.unpin).findList bp.fileDesc).1 = (s.findList bp.fileDesc).1 := rfl
    rw [hlist, hloop]
    simp only [hpools']
  · exact (Inv.mk hinv'.framed (hinv'.coherent.drop hbp hnone) hinv'.holder).setPools _
  · intro q
    rw [hheld' q]
    by_cases hq : q ∈ (s.findList bp.fileDesc).1
    · obtain ⟨p, hmem⟩ := BufferPoolManager.mem_findList.mp hq
      rw [hcount p q hmem, hone p q hmem]
      split
      · next hq' => omega
      · exact Nat.le_succ _
    · rw [if_neg fun hq' => hq hq'.1, hrest q hq]
  · intro hall
    funext q
    rw [hheld' q]
    by_cases hq : q ∈ (s.findList bp.fileDesc).1
    · obtain ⟨p, hmem⟩ := BufferPoolManager.mem_findList.mp hq
      have hzero := hheld p q hmem (Or.inl hall)
      rw [if_pos ⟨hq, by rw [hone p q hmem, hzero]⟩, hzero]
    · rw [if_neg fun hq' => hq hq'.1, hrest q hq]
  · refine ⟨fun node hnode => hframes2 ▸ hev'.frames node hnode, fun node hnode hnot => ?_, fun q hq => ?_,
      fun q hq => hev'.frees q (hfrees2.symm ▸ hq), hpools.symm, fun name => ?_⟩
    · exact hev'.kept node (hframes2.symm ▸ hnode) hnot
    · have hout : q ∉ (s.findList bp.fileDesc).1.filter (· ≠ bp.hdrFrame) := fun hin => hq (List.mem_filter.mp hin).1
      exact (hev'.memory q hq).trans ((hmemory2 q).trans (if_neg hout))
    · have hle := hev'.size name
      rw [hfiles2] at hle
      exact hle

theorem openFile {name : FileName} {fd : FileDesc} (h : Inv c s pools pools held content unmarked)
    (hpools : s.bufferPools = pools) (hname : ∀ bp ∈ pools, bp.fileName ≠ name) (hfd : ∀ bp ∈ pools, bp.fileDesc ≠ fd) :
    (∃ ptr s', s.openFile name fd = .ok (.success, some ⟨name, fd, ptr⟩, s') ∧
        Inv c s' (⟨name, fd, ptr⟩ :: pools) (⟨name, fd, ptr⟩ :: pools) held content unmarked ∧
        s'.bufferPools = ⟨name, fd, ptr⟩ :: pools ∧ Kept s s') ∨
      (s.openFile name fd = .error .spinning ∧ s.frees = []) := by
  have hnot : s.bufferPools.any (fun bp => bp.fileName = name) = false := by
    rw [hpools, List.any_eq_false]
    intro bp hbp
    simpa using hname bp hbp
  have hnone : ∀ id ptr, (id, ptr) ∈ s.frames → id.fileDesc = fd → ¬c.Tracked id.pageNum := by
    intro id ptr hmem hid htr
    obtain ⟨bp, hbp, heq⟩ := h.coherent.owner id ptr hmem htr
    exact hfd bp hbp (heq.trans hid)
  have hnew : ∀ q, (⟨fd, bpHeaderPage⟩, q) ∉ s.frames :=
    fun q hq => hnone _ q hq rfl (Coherent.tracked_header c)
  unfold BufferPoolManager.openFile
  rw [hnot]
  have hevictor : Evictor c s pools ⟨name, fd, 0⟩ := Or.inr hnone
  rcases h.allocateFrame hpools hevictor hnew with ⟨ptr, frees, s1, halloc, hfrees, hinv1, hev, -⟩ | ⟨hspin, hempty, -⟩
  · left
    have hnew1 : ∀ q, (⟨fd, bpHeaderPage⟩, q) ∉ s1.frames := fun q hq => hnew q (hev.frames _ hq)
    have hfree : ptr ∈ s1.frees := by rw [hfrees]; exact List.mem_cons_self
    have hheld := hinv1.held_of_free hfree
    have hsize : bpHeaderPage < (s1.files name).size := hinv1.coherent.size_pos name
    have hadopt : Inv c s1 pools (⟨name, fd, ptr⟩ :: pools) held content unmarked :=
      ⟨hinv1.framed, hinv1.coherent.adopt hfd hname, hinv1.holder⟩
    -- the header page is read, and its pin is the pool's
    have hload : ((taken s1 ⟨fd, bpHeaderPage⟩ ptr frees).modify ptr (·.setFileDesc fd)).loadPage ⟨name, fd, ptr⟩
        bpHeaderPage ptr =
        (.success, { s1 with frames := s1.frames.put ⟨fd, bpHeaderPage⟩ ptr, frees := frees }.modify ptr fun frame =>
          { ((frame.setPageNum bpHeaderPage).pin).setFileDesc fd with page := (s1.files name).pages bpHeaderPage }) := by
      unfold taken BufferPoolManager.loadPage
      rw [BufferPoolManager.modify_modify, BufferPoolManager.modify_files, if_pos hsize, BufferPoolManager.modify_modify]
    have hinv := hadopt.load (List.mem_cons_self) hfrees hnew1 hsize (Or.inr (hinv1.coherent.header name).pos)
      (fun frame => { ((frame.setPageNum bpHeaderPage).pin).setFileDesc fd with
        page := (s1.files name).pages bpHeaderPage }) rfl rfl (by
        show (s1.memory ptr).pinCount + 1 = 1
        rw [hinv1.framed.frees_pin ptr hfree])
    have hput : ∀ node ∈ s1.frames, node ∈ s1.frames.put ⟨fd, bpHeaderPage⟩ ptr := by
      intro node hnode
      exact LruCache.mem_put.mpr (Or.inr ⟨hnode, fun heq => hnew1 node.2 (heq ▸ hnode)⟩)
    have hframed : Framed _ (⟨name, fd, ptr⟩ :: pools) _ :=
      hinv.framed.adopt (LruCache.mem_put.mpr (Or.inl rfl)) hfd (by rw [Function.update_self, hheld])
    rw [Function.update_idem, ← hheld, Function.update_eq_self] at hframed
    have hpools1 : s1.bufferPools = pools := hev.pools.trans hpools
    refine ⟨ptr, _, ?_, (Inv.mk hframed hinv.coherent h.holder).setPools (⟨name, fd, ptr⟩ :: pools), rfl, ?_⟩
    · simp only [halloc, hload, Bool.false_eq_true, if_false]
      rw [BufferPoolManager.modify_bufferPools, hpools1]
    · exact fun node hnode hpin => hput node (kept_of_evicts hev node hnode hpin)
  · right
    simp only [hspin, Bool.false_eq_true, if_false]
    exact ⟨trivial, hempty⟩

end Inv

end Landbase.Buffer
