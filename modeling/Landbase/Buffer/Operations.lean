import Landbase.Buffer.Invariant

/-! # What the operations of the pool do

One lemma for each operation, stated from the invariant: the call returns unless no frame can be had, the invariant
holds afterwards, and no frame that was pinned has left the cache.
-/

namespace Landbase.Buffer
open Landbase.Lib
set_option autoImplicit false

/-- The two halves of the invariant; a frame that is written and not yet marked is held. The pools that pin their header
are those that are open, but for a pool that is being closed. -/
structure Inv (c : Scope) (s : BufferPoolManager) (pinning pools : List DiskBufferPool) (held : Ptr → ℕ)
    (content : Contents) (unmarked : Ptr → Prop) : Prop where
  framed : Framed s pinning held
  coherent : Coherent c s pools content unmarked
  holder : ∀ ptr, unmarked ptr → 0 < held ptr

/-- What evictions may change: only frames in `victims`, which leave the cache for the free list. -/
structure Evicts (s s' : BufferPoolManager) (victims : Ptr → Prop) : Prop where
  frames : ∀ node ∈ s'.frames, node ∈ s.frames
  kept : ∀ node ∈ s.frames, ¬victims node.2 → node ∈ s'.frames
  memory : ∀ q, ¬victims q → s'.memory q = s.memory q
  frees : ∀ q ∈ s.frees, q ∈ s'.frees
  pools : s'.bufferPools = s.bufferPools
  size : ∀ name, (s.files name).size ≤ (s'.files name).size

namespace Evicts

variable {s s' s'' : BufferPoolManager} {victims victims' : Ptr → Prop}

theorem refl (s : BufferPoolManager) (victims : Ptr → Prop) : Evicts s s victims :=
  ⟨fun _ h => h, fun _ h _ => h, fun _ _ => rfl, fun _ h => h, rfl, fun _ => le_refl _⟩

theorem trans (h : Evicts s s' victims) (h' : Evicts s' s'' victims) : Evicts s s'' victims where
  frames node hnode := h.frames node (h'.frames node hnode)
  kept node hnode hnot := h'.kept node (h.kept node hnode hnot) hnot
  memory q hq := by rw [h'.memory q hq, h.memory q hq]
  frees q hq := h'.frees q (h.frees q hq)
  pools := h'.pools.trans h.pools
  size name := (h.size name).trans (h'.size name)

theorem mono (h : Evicts s s' victims) (hle : ∀ q, victims q → victims' q) : Evicts s s' victims' where
  frames := h.frames
  kept node hnode hnot := h.kept node hnode fun hv => hnot (hle _ hv)
  memory q hq := h.memory q fun hv => hq (hle _ hv)
  frees := h.frees
  pools := h.pools
  size := h.size

end Evicts

namespace BufferPoolManager

variable {s s' : BufferPoolManager} {id : FrameId} {ptr : Ptr}

theorem get_of_mem (h : (id, ptr) ∈ s.frames) :
    s.get id = (some ptr, { s with frames := s.frames.put id ptr }.modify ptr Frame.pin) := by
  unfold get LruCache.get
  rw [LruCache.find_eq_some_iff.mpr h]

theorem get_of_notMem (h : ∀ q, (id, q) ∉ s.frames) : s.get id = (none, s) := by
  unfold get LruCache.get
  rw [LruCache.find_eq_none_iff.mpr h]

theorem mem_or_notMem (s : BufferPoolManager) (id : FrameId) : (∃ ptr, (id, ptr) ∈ s.frames) ∨ ∀ q, (id, q) ∉ s.frames := by
  by_cases h : ∃ ptr, (id, ptr) ∈ s.frames
  · exact Or.inl h
  · exact Or.inr (not_exists.mp h)

theorem free_of_mem (h : (id, ptr) ∈ s.frames) (hpin : (s.memory ptr).pinCount = 1) :
    s.free id ptr = .ok ({ s with frames := (s.frames.put id ptr).remove id, frees := s.frees ++ [ptr] }.modify ptr
      Frame.unpin) := by
  unfold free LruCache.get
  rw [LruCache.find_eq_some_iff.mpr h]
  exact if_pos ⟨rfl, hpin⟩

theorem modify_modify (s : BufferPoolManager) (ptr : Ptr) (f g : Frame → Frame) :
    (s.modify ptr f).modify ptr g = s.modify ptr (fun frame => g (f frame)) := by
  simp only [modify, Function.update_self, Function.update_idem]

theorem size_le_flush (s : BufferPoolManager) (bp : DiskBufferPool) (ptr : Ptr) (name : FileName) :
    (s.files name).size ≤ ((s.flushPageInternal bp ptr).files name).size := by
  by_cases hname : name = bp.fileName
  · have hself : (s.flushPageInternal bp ptr).files bp.fileName =
        (s.files bp.fileName).write (s.memory ptr).page := Function.update_self _ _ _
    rw [hname, hself]
    exact le_max_left _ _
  · exact le_of_eq (congrArg File.size (Function.update_of_ne hname _ _).symm)

theorem mem_remove_put {node : FrameId × Ptr} (h : (id, ptr) ∈ s.frames) :
    node ∈ (s.frames.put id ptr).remove id ↔ node ∈ s.frames ∧ node.1 ≠ id := by
  rw [LruCache.mem_remove, LruCache.mem_put_of_mem h]

/-! ## The loop of `allocate_frame` -/

theorem purger_fail {bp : DiskBufferPool} {rc : RC} (h : s.purger bp ptr = (rc, s')) (hrc : rc ≠ .success) : s' = s := by
  unfold purger flushPage at h
  split at h
  · exact absurd (Prod.mk.inj h).1.symm hrc
  · split at h
    · exact absurd (Prod.mk.inj h).1.symm hrc
    · split at h
      · exact absurd (Prod.mk.inj h).1.symm hrc
      · exact (Prod.mk.inj h).2.symm

theorem free_frees (h : s.free id ptr = .ok s') : s'.frees = s.frees ++ [ptr] := by
  unfold free at h
  split at h
  split at h
  · exact congrArg BufferPoolManager.frees (Except.ok.inj h).symm
  · cases h

theorem unpin_ok (h : s.unpin ptr = .ok s') : s' = s.modify ptr Frame.unpin := by
  unfold unpin at h
  split at h
  · exact (Except.ok.inj h).symm
  · cases h

/-- When the purge leaves no free frame, it leaves everything as it was. -/
theorem purgeFrames_stuck {bp : DiskBufferPool} {n : ℕ} (h : s.purgeFrames bp 1 = .ok (n, s')) (hempty : s'.frees = []) :
    s' = s := by
  unfold purgeFrames at h
  have hlength : (s.framesCanPurge 1).length ≤ 1 := List.length_take_le _ _
  match hvictims : s.framesCanPurge 1 with
  | [] =>
    rw [hvictims] at h
    exact (Prod.mk.inj (Except.ok.inj h)).2.symm
  | [ptr] =>
    rw [hvictims, List.foldl_cons, List.foldl_nil] at h
    unfold purgeLoop at h
    split at h
    · next s1 hpurge =>
      split at h
      · cases h
      · next s2 hfree =>
        have hs' : s' = s2 := (Prod.mk.inj (Except.ok.inj h)).2.symm
        rw [hs', free_frees hfree] at hempty
        exact absurd hempty (List.append_ne_nil_of_right_ne_nil _ (List.cons_ne_nil _ _))
    · next rc s1 hrc hpurge =>
      have hs1 : s1 = s.modify ptr Frame.pin := purger_fail hpurge hrc
      split at h
      · cases h
      · next s2 hunpin =>
        have hs' : s' = s2 := (Prod.mk.inj (Except.ok.inj h)).2.symm
        rw [hs', unpin_ok hunpin, hs1, modify_modify]
        unfold modify
        have hsame : (fun frame : Frame => frame.pin.unpin) (s.memory ptr) = s.memory ptr := rfl
        rw [hsame, Function.update_eq_self]
  | _ :: _ :: _ =>
    rw [hvictims] at hlength
    simp at hlength

theorem alloc_none (h : s.alloc id = .ok (none, s')) : s' = s ∧ s.frees = [] := by
  rcases s.mem_or_notMem id with ⟨q, hmem⟩ | hnew
  · unfold alloc at h
    rw [get_of_mem hmem] at h
    cases h
  · unfold alloc at h
    rw [get_of_notMem hnew] at h
    split at h
    · cases h
    · next s1 heq =>
      have hs1 : s1 = s := (Prod.mk.inj heq).2.symm
      subst hs1
      split at h
      · next hfrees => exact ⟨(Prod.mk.inj (Except.ok.inj h)).2.symm, hfrees⟩
      · split at h
        · cases h
        · cases h

theorem allocateFrameLoop_stuck {bp : DiskBufferPool} {p : PageNum} {k : ℕ}
    (halloc : s.alloc ⟨bp.fileDesc, p⟩ = .ok (none, s)) (hpurge : s.purgeFrames bp 1 = .ok (k, s)) (n : ℕ) :
    allocateFrameLoop bp p n s = .error .spinning := by
  induction n with
  | zero => rfl
  | succ n ih =>
    unfold allocateFrameLoop
    simp only [halloc, hpurge, ih]

/-- The loop returns after two rounds, or never. -/
theorem allocateFrameLoop_eq (bp : DiskBufferPool) (p : PageNum) (n : ℕ) (s : BufferPoolManager) :
    allocateFrameLoop bp p (n + 2) s = s.allocateFrame bp p := by
  unfold allocateFrame
  rw [allocateFrameLoop, allocateFrameLoop]
  split
  · rfl
  · rfl
  · next s1 halloc =>
    obtain ⟨rfl, -⟩ := alloc_none halloc
    split
    · rfl
    · next k s2 hpurge =>
      rw [allocateFrameLoop, allocateFrameLoop]
      split
      · rfl
      · rfl
      · next s3 halloc2 =>
        obtain ⟨rfl, hempty⟩ := alloc_none halloc2
        obtain rfl := purgeFrames_stuck hpurge hempty
        simp only [hpurge]
        rw [allocateFrameLoop_stuck halloc hpurge n]
        rfl

end BufferPoolManager

namespace Inv

variable {c : Scope} {s : BufferPoolManager} {pinning pools : List DiskBufferPool} {held : Ptr → ℕ} {content : Contents}
  {unmarked : Ptr → Prop} {bp : DiskBufferPool} {p : PageNum} {id : FrameId} {ptr : Ptr}

/-! ## Pins -/

theorem get (h : Inv c s pinning pools held content unmarked) (hmem : (id, ptr) ∈ s.frames) :
    Inv c ({ s with frames := s.frames.put id ptr }.modify ptr Frame.pin) pinning pools
      (Function.update held ptr (held ptr + 1)) content unmarked where
  framed := by
    have htouch : Framed { s with frames := s.frames.put id ptr } pinning held :=
      h.framed.congr (fun _ => LruCache.mem_put_of_mem hmem) rfl (fun _ => rfl) (fun _ => rfl)
    exact htouch.pin ((LruCache.mem_put_of_mem hmem).mpr hmem)
  coherent := by
    have htouch : Coherent c { s with frames := s.frames.put id ptr } pools content unmarked :=
      h.coherent.congr (fun _ => LruCache.mem_put_of_mem hmem) h.coherent.frees_clean rfl (fun _ _ _ => rfl)
        (fun _ _ _ => rfl)
    exact htouch.modify ptr Frame.pin (fun _ => rfl) (fun _ => rfl)
  holder q hq := by
    by_cases hne : q = ptr
    · rw [hne, Function.update_self]
      exact Nat.succ_pos _
    · rw [Function.update_of_ne hne]
      exact h.holder q hq

theorem pin (h : Inv c s pinning pools held content unmarked) (hmem : (id, ptr) ∈ s.frames) :
    Inv c (s.modify ptr Frame.pin) pinning pools (Function.update held ptr (held ptr + 1)) content unmarked where
  framed := h.framed.pin hmem
  coherent := h.coherent.modify ptr Frame.pin (fun _ => rfl) (fun _ => rfl)
  holder q hq := by
    by_cases hne : q = ptr
    · rw [hne, Function.update_self]
      exact Nat.succ_pos _
    · rw [Function.update_of_ne hne]
      exact h.holder q hq

theorem unpin_eq (h : Inv c s pinning pools held content unmarked) (hheld : 0 < held ptr) :
    s.unpin ptr = .ok (s.modify ptr Frame.unpin) := by
  obtain ⟨id, hmem⟩ := h.framed.held_in ptr hheld
  have hpin := h.framed.pins id ptr hmem
  exact if_pos (by omega)

theorem unpin (h : Inv c s pinning pools held content unmarked) (hheld : 0 < held ptr) (hlast : unmarked ptr → 1 < held ptr) :
    Inv c (s.modify ptr Frame.unpin) pinning pools (Function.update held ptr (held ptr - 1)) content unmarked where
  framed := by
    obtain ⟨id, hmem⟩ := h.framed.held_in ptr hheld
    exact h.framed.unpin hmem hheld
  coherent := h.coherent.modify ptr Frame.unpin (fun _ => rfl) (fun _ => rfl)
  holder q hq := by
    by_cases hne : q = ptr
    · rw [hne] at hq ⊢
      rw [Function.update_self]
      have := hlast hq
      omega
    · rw [Function.update_of_ne hne]
      exact h.holder q hq

/-! ## Writing back and freeing -/

theorem flush (h : Inv c s pinning pools held content unmarked) (hmem : (⟨bp.fileDesc, p⟩, ptr) ∈ s.frames)
    (hbp : bp ∈ pools ∨ ¬c.Tracked p) :
    Inv c (s.flushPageInternal bp ptr) pinning pools held content (fun q => unmarked q ∧ q ≠ ptr) where
  framed := by
    have hmodify := h.framed.modify ptr Frame.clearDirty (fun _ => rfl) (fun _ => rfl)
    exact hmodify.congr (fun _ => Iff.rfl) rfl (fun _ => rfl) (fun _ => rfl)
  coherent := h.coherent.flush h.framed hmem hbp fun _ hq hu => ⟨hu, hq⟩
  holder q hq := h.holder q hq.1

theorem free (h : Inv c s pinning pools held content unmarked) (hmem : (id, ptr) ∈ s.frames) (hheld : held ptr = 1)
    (hpin : (s.memory ptr).pinCount = 1) (hdirty : (s.memory ptr).dirty = false) (hun : ¬unmarked ptr) :
    ∃ s', s.free id ptr = .ok s' ∧ Inv c s' pinning pools (Function.update held ptr 0) content unmarked ∧
      Evicts s s' (· = ptr) ∧ ptr ∈ s'.frees := by
  refine ⟨_, BufferPoolManager.free_of_mem hmem hpin, ⟨?_, ?_, ?_⟩, ⟨?_, ?_, ?_, ?_, rfl, fun _ => le_refl _⟩, ?_⟩
  · exact h.framed.free hmem (fun _ => BufferPoolManager.mem_remove_put hmem) hheld hpin
  · apply h.coherent.free h.framed hmem (fun _ => BufferPoolManager.mem_remove_put hmem) (fun _ => hdirty)
    · exact fun _ _ _ => rfl
    · exact fun _ => rfl
    · intro bp hbp hfd htr
      have hkey : (⟨bp.fileDesc, id.pageNum⟩, ptr) ∈ s.frames := by
        rw [hfd]
        exact hmem
      exact (h.coherent.cached bp hbp id.pageNum ptr hkey htr).2.2 hdirty hun
  · intro q hq
    by_cases hne : q = ptr
    · exact absurd (hne ▸ hq) hun
    · rw [Function.update_of_ne hne]
      exact h.holder q hq
  · exact fun node hnode => ((BufferPoolManager.mem_remove_put hmem).mp hnode).1
  · intro node hnode hne
    refine (BufferPoolManager.mem_remove_put hmem).mpr ⟨hnode, ?_⟩
    rintro rfl
    exact hne (LruCache.eq_of_mem hnode hmem)
  · exact fun q hq => BufferPoolManager.modify_of_ne _ _ hq
  · exact fun q hq => List.mem_append_left _ hq
  · exact List.mem_append_right _ (List.mem_singleton.mpr rfl)

/-! ## Evictions -/

/-- The pool for which a frame is evicted is open, or is being opened and has no page yet whose contents are followed. -/
def Evictor (c : Scope) (s : BufferPoolManager) (pools : List DiskBufferPool) (bp : DiskBufferPool) : Prop :=
  bp ∈ pools ∨ ∀ id ptr, (id, ptr) ∈ s.frames → id.fileDesc = bp.fileDesc → ¬c.Tracked id.pageNum

theorem flush_of_marked (h : Inv c s pinning pools held content unmarked) (hmem : (⟨bp.fileDesc, p⟩, ptr) ∈ s.frames)
    (hbp : bp ∈ pools ∨ ¬c.Tracked p) (hun : ¬unmarked ptr) :
    Inv c (s.flushPageInternal bp ptr) pinning pools held content unmarked := by
  have hflush := h.flush hmem hbp
  have heq : (fun q => unmarked q ∧ q ≠ ptr) = unmarked := by
    funext q
    apply propext
    rw [and_iff_left_iff_imp]
    rintro hq rfl
    exact hun hq
  rw [heq] at hflush
  exact hflush

/-- The purger leaves a clean frame, or it leaves everything as it is because it does not know the file. -/
theorem purger (h : Inv c s pools pools held content unmarked) (hpools : s.bufferPools = pools)
    (hthis : Evictor c s pools bp) (hmem : (id, ptr) ∈ s.frames) (hun : ¬unmarked ptr) :
    ∃ rc s', s.purger bp ptr = (rc, s') ∧ Inv c s' pools pools held content unmarked ∧ s'.frames = s.frames ∧
      s'.frees = s.frees ∧ s'.bufferPools = s.bufferPools ∧ (∀ q, q ≠ ptr → s'.memory q = s.memory q) ∧
      (s'.memory ptr).pinCount = (s.memory ptr).pinCount ∧ (rc = .success → (s'.memory ptr).dirty = false) ∧
      (rc ≠ .success → s' = s ∧ ¬c.all) ∧ ∀ name, (s.files name).size ≤ (s'.files name).size := by
  have hfd : (s.memory ptr).fileDesc = id.fileDesc := congrArg FrameId.fileDesc (h.framed.ident id ptr hmem)
  -- what is common to the two ways of writing the frame back
  have hwrite : ∀ bp' : DiskBufferPool, bp'.fileDesc = id.fileDesc → (bp' ∈ pools ∨ ¬c.Tracked id.pageNum) →
      Inv c (s.flushPageInternal bp' ptr) pools pools held content unmarked := by
    intro bp' hfd' hor
    exact h.flush_of_marked (show (⟨bp'.fileDesc, id.pageNum⟩, ptr) ∈ s.frames by rw [hfd']; exact hmem) hor hun
  have hmemory : ∀ bp' : DiskBufferPool, ∀ q, q ≠ ptr → (s.flushPageInternal bp' ptr).memory q = s.memory q :=
    fun bp' q hq => BufferPoolManager.modify_of_ne _ _ hq
  have hpin : ∀ bp' : DiskBufferPool,
      ((s.flushPageInternal bp' ptr).memory ptr).pinCount = (s.memory ptr).pinCount :=
    fun bp' => BufferPoolManager.modify_proj _ ptr Frame.clearDirty Frame.pinCount (fun _ => rfl) ptr
  have hclean : ∀ bp' : DiskBufferPool, ((s.flushPageInternal bp' ptr).memory ptr).dirty = false :=
    fun bp' => congrArg Frame.dirty (BufferPoolManager.modify_self _ ptr Frame.clearDirty)
  have hsize : ∀ bp' : DiskBufferPool, ∀ name,
      (s.files name).size ≤ ((s.flushPageInternal bp' ptr).files name).size :=
    fun bp' => s.size_le_flush bp' ptr
  unfold BufferPoolManager.purger
  split
  · next hdirty =>
    refine ⟨_, _, rfl, h, rfl, rfl, rfl, fun _ _ => rfl, rfl, fun _ => by simpa using hdirty, ?_, fun _ => le_refl _⟩
    exact fun hne => absurd rfl hne
  · split
    · next heq =>
      have hor : bp ∈ pools ∨ ¬c.Tracked id.pageNum := by
        cases hthis with
        | inl hbp => exact Or.inl hbp
        | inr hnone => exact Or.inr (hnone id ptr hmem (hfd.symm.trans heq))
      refine ⟨_, _, rfl, hwrite bp (heq.symm.trans hfd) hor, rfl, rfl, rfl, hmemory bp, hpin bp, fun _ => hclean bp, ?_,
        hsize bp⟩
      exact fun hne => absurd rfl hne
    · unfold BufferPoolManager.flushPage
      split
      · next bp' hfind =>
        have hfd' : bp'.fileDesc = (s.memory ptr).fileDesc := by simpa using List.find?_some hfind
        have hbp' : bp' ∈ pools := hpools ▸ List.mem_of_find?_eq_some hfind
        refine ⟨_, _, rfl, hwrite bp' (hfd'.trans hfd) (Or.inl hbp'), rfl, rfl, rfl, hmemory bp', hpin bp',
          fun _ => hclean bp', ?_, hsize bp'⟩
        exact fun hne => absurd rfl hne
      · next hfind =>
        refine ⟨_, _, rfl, h, rfl, rfl, rfl, fun _ _ => rfl, rfl, fun hne => (by cases hne), fun _ => ⟨rfl, ?_⟩,
          fun _ => le_refl _⟩
        intro hall
        obtain ⟨bp', hbp', heq⟩ := h.coherent.owner id ptr hmem (Or.inl hall)
        rw [List.find?_eq_none] at hfind
        exact hfind bp' (hpools ▸ hbp') (by simpa using heq.trans hfd.symm)

/-- The frames that `purge_finder` has chosen and pinned. -/
def Chosen (s : BufferPoolManager) (held : Ptr → ℕ) (unmarked : Ptr → Prop) (ptr : Ptr) : Prop :=
  (∃ id, (id, ptr) ∈ s.frames) ∧ held ptr = 1 ∧ (s.memory ptr).pinCount = 1 ∧ ¬unmarked ptr

/-- The pins given back on a list of frames. -/
def released (held : Ptr → ℕ) (victims : List Ptr) : Ptr → ℕ := fun q => if q ∈ victims then 0 else held q

theorem released_cons {victims : List Ptr} (hheld : held ptr = 1) (hnot : ptr ∉ victims) :
    released (Function.update held ptr (held ptr - 1)) victims = released held (ptr :: victims) := by
  funext q
  unfold released
  by_cases hq : q = ptr
  · rw [hq, if_neg hnot, if_pos List.mem_cons_self, Function.update_self, hheld]
  · rw [Function.update_of_ne hq]
    by_cases hmem : q ∈ victims
    · rw [if_pos hmem, if_pos (List.mem_cons_of_mem _ hmem)]
    · rw [if_neg hmem, if_neg (by rw [List.mem_cons]; tauto)]

theorem purgeLoop {victims : List Ptr} (h : Inv c s pools pools held content unmarked) (hpools : s.bufferPools = pools)
    (hthis : Evictor c s pools bp) (hnodup : victims.Nodup) (hchosen : ∀ ptr ∈ victims, Chosen s held unmarked ptr) :
    ∃ n s', BufferPoolManager.purgeLoop bp victims s = .ok (n, s') ∧
      Inv c s' pools pools (released held victims) content unmarked ∧ Evicts s s' (· ∈ victims) ∧
      (0 < n → s'.frees ≠ []) ∧ (c.all → n = victims.length) := by
  induction victims generalizing s held with
  | nil =>
    refine ⟨0, s, rfl, ?_, Evicts.refl s _, fun hn => absurd hn (lt_irrefl 0), fun _ => rfl⟩
    have hrel : released held [] = held := by
      funext q
      exact if_neg List.not_mem_nil
    rw [hrel]
    exact h
  | cons ptr rest ih =>
    obtain ⟨hnot, hrest⟩ := List.nodup_cons.mp hnodup
    obtain ⟨⟨id, hmem⟩, hheld, hpin, hun⟩ := hchosen ptr List.mem_cons_self
    obtain ⟨rc, s1, hpurge, hinv1, hframes1, hfrees1, hpools1, hmem1, hpin1, hclean1, hfail1, hsize1⟩ :=
      h.purger hpools hthis hmem hun
    have hne : ∀ q ∈ rest, q ≠ ptr := fun q hq heq => hnot (heq ▸ hq)
    by_cases hrc : rc = .success
    · -- the frame is freed
      subst hrc
      have hmem1' : (id, ptr) ∈ s1.frames := by rw [hframes1]; exact hmem
      have hident : (s1.memory ptr).frameId = id := hinv1.framed.ident id ptr hmem1'
      obtain ⟨s2, hfree, hinv2, hev2, hin2⟩ :=
        hinv1.free hmem1' hheld (hpin1.trans hpin) (hclean1 rfl) hun
      have hthis2 : Evictor c s2 pools bp := by
        cases hthis with
        | inl hbp => exact Or.inl hbp
        | inr hnone =>
          refine Or.inr fun id' q hq => hnone id' q ?_
          rw [← hframes1]
          exact hev2.frames _ hq
      have hchosen2 : ∀ q ∈ rest, Chosen s2 (Function.update held ptr 0) unmarked q := by
        intro q hq
        obtain ⟨⟨id', hid'⟩, hq1, hq2, hq3⟩ := hchosen q (List.mem_cons_of_mem _ hq)
        refine ⟨⟨id', hev2.kept _ (by rw [hframes1]; exact hid') (hne q hq)⟩, ?_, ?_, hq3⟩
        · rw [Function.update_of_ne (hne q hq)]
          exact hq1
        · rw [hev2.memory q (hne q hq), hmem1 q (hne q hq)]
          exact hq2
      obtain ⟨n, s', hloop, hinv', hev', hpos', hlen'⟩ :=
        ih hinv2 (hev2.pools.trans (hpools1.trans hpools)) hthis2 hrest hchosen2
      refine ⟨n + 1, s', ?_, ?_, ?_, ?_, ?_⟩
      · simp only [BufferPoolManager.purgeLoop, hpurge, hident, hfree, hloop]
      · have hrel := released_cons hheld hnot
        rw [hheld] at hrel
        exact hrel ▸ hinv'
      · have hev1 : Evicts s s1 (· ∈ ptr :: rest) := by
          refine ⟨fun node hnode => hframes1 ▸ hnode, fun node hnode _ => hframes1.symm ▸ hnode, fun q hq => ?_,
            fun q hq => hfrees1.symm ▸ hq, hpools1, hsize1⟩
          exact hmem1 q fun heq => hq (heq ▸ List.mem_cons_self)
        refine hev1.trans ((hev2.mono ?_).trans (hev'.mono ?_))
        · exact fun q hq => hq ▸ List.mem_cons_self
        · exact fun q hq => List.mem_cons_of_mem _ hq
      · intro _ hempty
        have := hev'.frees ptr hin2
        rw [hempty] at this
        exact List.not_mem_nil this
      · intro hall
        rw [List.length_cons, hlen' hall]
    · -- the frame belongs to no open file: it gets its pin back and stays
      obtain ⟨rfl, hall⟩ := hfail1 hrc
      have hpos : 0 < held ptr := by omega
      have hunpin := hinv1.unpin_eq hpos
      have hinv2 := hinv1.unpin hpos fun hu => absurd hu hun
      have hev2 : Evicts s1 (s1.modify ptr Frame.unpin) (· ∈ ptr :: rest) := by
        refine ⟨fun node hnode => hnode, fun node hnode _ => hnode, fun q hq => ?_, fun q hq => hq, rfl,
          fun _ => le_refl _⟩
        exact BufferPoolManager.modify_of_ne _ _ fun heq => hq (heq ▸ List.mem_cons_self)
      have hchosen2 : ∀ q ∈ rest,
          Chosen (s1.modify ptr Frame.unpin) (Function.update held ptr (held ptr - 1)) unmarked q := by
        intro q hq
        obtain ⟨hid', hq1, hq2, hq3⟩ := hchosen q (List.mem_cons_of_mem _ hq)
        refine ⟨hid', ?_, ?_, hq3⟩
        · rw [Function.update_of_ne (hne q hq)]
          exact hq1
        · rw [BufferPoolManager.modify_of_ne _ _ (hne q hq)]
          exact hq2
      obtain ⟨n, s', hloop, hinv', hev', hpos', -⟩ := ih hinv2 hpools hthis hrest hchosen2
      refine ⟨n, s', ?_, ?_, ?_, hpos', fun h => absurd h hall⟩
      · cases rc <;> first
          | exact absurd rfl hrc
          | simp only [BufferPoolManager.purgeLoop, hpurge, hunpin, hloop]
      · exact released_cons hheld hnot ▸ hinv'
      · exact hev2.trans (hev'.mono fun q hq => List.mem_cons_of_mem _ hq)

/-- The pins taken on a list of frames. -/
def pinned (held : Ptr → ℕ) (victims : List Ptr) : Ptr → ℕ := fun q => if q ∈ victims then held q + 1 else held q

theorem pinned_cons {victims : List Ptr} (hnot : ptr ∉ victims) :
    pinned (Function.update held ptr (held ptr + 1)) victims = pinned held (ptr :: victims) := by
  funext q
  unfold pinned
  by_cases hq : q = ptr
  · rw [hq, if_neg hnot, if_pos List.mem_cons_self, Function.update_self]
  · rw [Function.update_of_ne hq]
    by_cases hmem : q ∈ victims
    · rw [if_pos hmem, if_pos (List.mem_cons_of_mem _ hmem)]
    · rw [if_neg hmem, if_neg (by rw [List.mem_cons]; tauto)]

theorem pinAll {victims : List Ptr} (h : Inv c s pinning pools held content unmarked) (hnodup : victims.Nodup)
    (hmem : ∀ ptr ∈ victims, ∃ id, (id, ptr) ∈ s.frames) :
    ∃ s', victims.foldl (fun s ptr => s.modify ptr Frame.pin) s = s' ∧
      Inv c s' pinning pools (pinned held victims) content unmarked ∧ s'.frames = s.frames ∧ s'.frees = s.frees ∧
      s'.bufferPools = s.bufferPools ∧ s'.files = s.files ∧
      (∀ q, s'.memory q = if q ∈ victims then (s.memory q).pin else s.memory q) := by
  induction victims generalizing s held with
  | nil =>
    refine ⟨s, rfl, ?_, rfl, rfl, rfl, rfl, fun q => (if_neg List.not_mem_nil).symm⟩
    have hnil : pinned held [] = held := by
      funext q
      exact if_neg List.not_mem_nil
    rw [hnil]
    exact h
  | cons ptr rest ih =>
    obtain ⟨hnot, hrest⟩ := List.nodup_cons.mp hnodup
    obtain ⟨id, hid⟩ := hmem ptr List.mem_cons_self
    obtain ⟨s', heq, hinv, hframes, hfrees, hpools, hfiles, hmemory⟩ :=
      ih (h.pin hid) hrest fun q hq => hmem q (List.mem_cons_of_mem _ hq)
    refine ⟨s', heq, pinned_cons hnot ▸ hinv, hframes, hfrees, hpools, hfiles, fun q => ?_⟩
    rw [hmemory q]
    by_cases hq : q = ptr
    · rw [hq, if_neg hnot, if_pos List.mem_cons_self, BufferPoolManager.modify_self]
    · rw [BufferPoolManager.modify_of_ne _ _ hq]
      by_cases hin : q ∈ rest
      · rw [if_pos hin, if_pos (List.mem_cons_of_mem _ hin)]
      · rw [if_neg hin, if_neg (by rw [List.mem_cons]; tauto)]

theorem nodup_ptrs (h : Framed s pools held) : (s.frames.nodes.map Prod.snd).Nodup := by
  apply List.Nodup.map_on
  · rintro ⟨id, q⟩ hq ⟨id', q'⟩ hq' heq
    have hqq : q = q' := heq
    subst hqq
    rw [h.key_unique hq hq']
  · exact List.Nodup.of_map _ s.frames.nodup

theorem mem_framesCanPurge {count : ℕ} (hmem : ptr ∈ s.framesCanPurge count) :
    (∃ id, (id, ptr) ∈ s.frames) ∧ (s.memory ptr).pinCount = 0 := by
  obtain ⟨hin, hcan⟩ := List.mem_filter.mp (List.mem_of_mem_take hmem)
  obtain ⟨⟨id, q⟩, hnode, rfl⟩ := List.mem_map.mp hin
  exact ⟨⟨id, List.mem_reverse.mp hnode⟩, of_decide_eq_true hcan⟩

/-- Evictions: only frames that nobody pins go, and one goes when there is one and every file is known. -/
theorem purgeFrames (h : Inv c s pools pools held content unmarked) (hpools : s.bufferPools = pools)
    (hthis : Evictor c s pools bp) (count : ℕ) :
    ∃ n s', s.purgeFrames bp count = .ok (n, s') ∧ Inv c s' pools pools held content unmarked ∧
      Evicts s s' (fun q => (s.memory q).pinCount = 0) ∧ (0 < n → s'.frees ≠ []) ∧
      (c.all → (∃ id ptr, (id, ptr) ∈ s.frames ∧ (s.memory ptr).pinCount = 0) → 0 < n) := by
  have hnodup : (s.framesCanPurge count).Nodup := by
    have hrev : (s.frames.nodes.reverse.map Prod.snd).Nodup := by
      rw [List.map_reverse]
      exact List.nodup_reverse.mpr (nodup_ptrs h.framed)
    exact (hrev.filter _).sublist (List.take_sublist _ _)
  have hheld : ∀ q ∈ s.framesCanPurge count, held q = 0 := by
    intro q hq
    obtain ⟨⟨id, hid⟩, hpin⟩ := mem_framesCanPurge hq
    have := h.framed.pins id q hid
    omega
  obtain ⟨s1, heq, hinv1, hframes1, hfrees1, hpools1, hfiles1, hmemory1⟩ :=
    h.pinAll hnodup fun q hq => (mem_framesCanPurge hq).1
  have hthis1 : Evictor c s1 pools bp := by
    cases hthis with
    | inl hbp => exact Or.inl hbp
    | inr hnone => exact Or.inr fun id' q hq => hnone id' q (hframes1 ▸ hq)
  have hchosen : ∀ q ∈ s.framesCanPurge count, Chosen s1 (pinned held (s.framesCanPurge count)) unmarked q := by
    intro q hq
    obtain ⟨hid, hpin⟩ := mem_framesCanPurge hq
    refine ⟨by rw [hframes1]; exact hid, ?_, ?_, ?_⟩
    · rw [pinned, if_pos hq, hheld q hq]
    · rw [hmemory1 q, if_pos hq]
      show (s.memory q).pinCount + 1 = 1
      rw [hpin]
    · intro hu
      have := h.holder q hu
      rw [hheld q hq] at this
      exact lt_irrefl 0 this
  obtain ⟨n, s', hloop, hinv', hev', hpos, hlen⟩ := hinv1.purgeLoop (hpools1.trans hpools) hthis1 hnodup hchosen
  have hback : released (pinned held (s.framesCanPurge count)) (s.framesCanPurge count) = held := by
    funext q
    unfold released pinned
    by_cases hq : q ∈ s.framesCanPurge count
    · rw [if_pos hq, hheld q hq]
    · rw [if_neg hq, if_neg hq]
  refine ⟨n, s', ?_, hback ▸ hinv', ?_, hpos, ?_⟩
  · unfold BufferPoolManager.purgeFrames
    rw [heq]
    exact hloop
  · have hev1 : Evicts s s1 (fun q => (s.memory q).pinCount = 0) := by
      refine ⟨fun node hnode => hframes1 ▸ hnode, fun node hnode _ => hframes1.symm ▸ hnode, fun q hq => ?_,
        fun q hq => hfrees1.symm ▸ hq, hpools1, fun name => by rw [hfiles1]⟩
      rw [hmemory1 q, if_neg fun hin => hq (mem_framesCanPurge hin).2]
    exact hev1.trans (hev'.mono fun q hq => (mem_framesCanPurge hq).2)
  · rintro hall ⟨id, q, hq, hpin⟩
    rw [hlen hall, List.length_pos_iff]
    intro hempty
    have hfilter : q ∈ (s.frames.nodes.reverse.map Prod.snd).filter (fun ptr => (s.memory ptr).canPurge) := by
      refine List.mem_filter.mpr ⟨List.mem_map.mpr ⟨(id, q), List.mem_reverse.mpr hq, rfl⟩, ?_⟩
      exact decide_eq_true hpin
    unfold BufferPoolManager.framesCanPurge at hempty
    cases List.take_eq_nil_iff.mp hempty with
    | inl hzero => omega
    | inr hnil =>
      rw [hnil] at hfilter
      exact List.not_mem_nil hfilter

/-! ## Frames for new pages -/

/-- The state in which `alloc` has taken the frame `ptr` from the free list for the page `id`. -/
def taken (s : BufferPoolManager) (id : FrameId) (ptr : Ptr) (frees : List Ptr) : BufferPoolManager :=
  { s with frees := frees, frames := s.frames.put id ptr }.modify ptr fun frame => (frame.setPageNum id.pageNum).pin

theorem alloc_eq (h : Inv c s pools pools held content unmarked) (hnew : ∀ q, (id, q) ∉ s.frames) :
    (s.frees = [] ∧ s.alloc id = .ok (none, s)) ∨
      ∃ ptr frees, s.frees = ptr :: frees ∧ s.alloc id = .ok (some ptr, taken s id ptr frees) := by
  unfold BufferPoolManager.alloc
  rw [BufferPoolManager.get_of_notMem hnew]
  cases hfrees : s.frees with
  | nil => exact Or.inl ⟨rfl, by simp only [hfrees]⟩
  | cons ptr frees =>
    have hpin := h.framed.frees_pin ptr (by rw [hfrees]; exact List.mem_cons_self)
    refine Or.inr ⟨ptr, frees, rfl, ?_⟩
    simp only [hfrees]
    exact if_pos hpin

/-- When the free frames are clean they may be known to be. -/
theorem cleaned (h : Inv c s pinning pools held content unmarked) (hclean : ∀ q ∈ s.frees, (s.memory q).dirty = false) :
    Inv ⟨c.all, True⟩ s pinning pools held content unmarked where
  framed := h.framed
  coherent := { h.coherent with frees_clean := fun _ => hclean }
  holder := h.holder

/-- The frame is the one at the front of the free list, or has been evicted, which leaves it clean. -/
theorem allocateFrame (h : Inv c s pools pools held content unmarked) (hpools : s.bufferPools = pools)
    (hthis : Evictor c s pools bp) (hnew : ∀ q, (⟨bp.fileDesc, p⟩, q) ∉ s.frames) :
    (∃ ptr frees s1, s.allocateFrame bp p = .ok (ptr, taken s1 ⟨bp.fileDesc, p⟩ ptr frees) ∧
        s1.frees = ptr :: frees ∧ Inv c s1 pools pools held content unmarked ∧
        Evicts s s1 (fun q => (s.memory q).pinCount = 0) ∧
        ((∀ q, s.frees.head? = some q → (s.memory q).dirty = false) → (s1.memory ptr).dirty = false)) ∨
      (s.allocateFrame bp p = .error .spinning ∧ s.frees = [] ∧
        (c.all → ∀ id ptr, (id, ptr) ∈ s.frames → 0 < (s.memory ptr).pinCount)) := by
  unfold BufferPoolManager.allocateFrame BufferPoolManager.allocateFrameLoop
  rcases h.alloc_eq hnew with ⟨hempty, halloc⟩ | ⟨ptr, frees, hfrees, halloc⟩
  · obtain ⟨n, s1, hpurge, hinv1, hev1, hpos, hsome⟩ := h.purgeFrames hpools hthis 1
    have hnew1 : ∀ q, (⟨bp.fileDesc, p⟩, q) ∉ s1.frames := fun q hq => hnew q (hev1.frames _ hq)
    simp only [halloc, hpurge, BufferPoolManager.allocateFrameLoop]
    rcases hinv1.alloc_eq hnew1 with ⟨hempty1, halloc1⟩ | ⟨ptr, frees, hfrees1, halloc1⟩
    · right
      obtain ⟨n', s2, hpurge1, -⟩ := hinv1.purgeFrames (hev1.pools.trans hpools)
        (hthis.imp_right fun hnone id' q hq => hnone id' q (hev1.frames _ hq)) 1
      simp only [halloc1, hpurge1]
      refine ⟨trivial, hempty, fun hall id q hq => ?_⟩
      by_contra hzero
      exact hpos (hsome hall ⟨id, q, hq, by omega⟩) hempty1
    · left
      have hcleaned := h.cleaned (by simp [hempty])
      obtain ⟨n', s1', hpurge', hinv', -⟩ := hcleaned.purgeFrames hpools hthis 1
      obtain ⟨-, rfl⟩ : n = n' ∧ s1 = s1' := by simpa [hpurge] using hpurge'
      refine ⟨ptr, frees, s1, by simp only [halloc1], hfrees1, hinv1, hev1, fun _ => ?_⟩
      exact hinv'.coherent.frees_clean trivial ptr (by rw [hfrees1]; exact List.mem_cons_self)
  · left
    exact ⟨ptr, frees, s, by simp only [halloc], hfrees, h, Evicts.refl s _, fun hhead => hhead ptr (by rw [hfrees]; rfl)⟩

theorem held_of_free (h : Inv c s pinning pools held content unmarked) (hfree : ptr ∈ s.frees) : held ptr = 0 := by
  by_contra hne
  obtain ⟨id, hid⟩ := h.framed.held_in ptr (by omega)
  exact h.framed.frees_out ptr hfree id hid

theorem load {frees : List Ptr} (h : Inv c s pinning pools held content unmarked) (hbp : bp ∈ pools)
    (hfrees : s.frees = ptr :: frees) (hnew : ∀ q, (⟨bp.fileDesc, p⟩, q) ∉ s.frames)
    (hp : p < (s.files bp.fileName).size)
    (hnum : c.all ∨ (p : ℤ) < BPFileHeader.pageCount (content bp.fileName bpHeaderPage).data) (f : Frame → Frame)
    (hfd : (f (s.memory ptr)).fileDesc = bp.fileDesc) (hpage : (f (s.memory ptr)).page = (s.files bp.fileName).pages p)
    (hpin : (f (s.memory ptr)).pinCount = 1) :
    Inv c ({ s with frames := s.frames.put ⟨bp.fileDesc, p⟩ ptr, frees := frees }.modify ptr f) pinning pools
      (Function.update held ptr (held ptr + 1)) content unmarked := by
  have hfree : ptr ∈ s.frees := by rw [hfrees]; exact List.mem_cons_self
  have hheld := h.held_of_free hfree
  have hnotin : ptr ∉ frees := (List.nodup_cons.mp (hfrees ▸ h.framed.frees_nodup)).1
  have hout : ∀ id, (id, ptr) ∉ s.frames := h.framed.frees_out ptr hfree
  have hpagenum : ((s.files bp.fileName).pages p).pageNum = p :=
    h.coherent.numbered bp.fileName p hp (hnum.imp_left Or.inl)
  have hdisk : c.Tracked p → (s.files bp.fileName).pages p = content bp.fileName p := by
    intro htr
    apply h.coherent.stored bp.fileName p htr hp
    intro bp' hbp' hname q hq
    rw [h.coherent.pool_of_name hbp' hbp hname] at hq
    exact hnew q hq
  refine ⟨?_, ?_, ?_⟩
  · rw [hheld, zero_add]
    apply h.framed.fill hfrees hnew f _ hpin
    rw [Frame.frameId, hfd, hpage, hpagenum]
  · refine h.coherent.assign hbp (show Coherent.Assigns c s _ bp p ptr content content unmarked unmarked from {
      frames := fun node => ?_
      ptr_eq := fun q hq => absurd hq (hnew q)
      key_eq := fun id hid => absurd hid (hout id)
      frees := fun q hq => ⟨fun heq => hnotin (heq ▸ hq), by rw [hfrees]; exact List.mem_cons_of_mem _ hq⟩
      memory := fun q hq => ?_
      files := fun _ _ => rfl
      pages := fun _ _ => rfl
      grow := le_refl _
      size := fun _ hq _ => hq
      lt_size := hp
      num := hpagenum
      page := fun htr => ?_
      disk := fun htr _ _ => hdisk htr
      unmarked_of_ne := fun _ _ hu => hu
      content_of_ne := fun _ _ _ => rfl
      ok := h.coherent.header _
      extent := h.coherent.extent _
      numbered := fun q _ hq hlt => h.coherent.numbered _ q hq (Or.inr hlt) })
    · rw [BufferPoolManager.modify_frames, LruCache.mem_put]
      apply or_congr_right
      rw [and_iff_left_iff_imp]
      rintro hnode heq
      exact hnew node.2 (heq ▸ hnode)
    · rw [BufferPoolManager.modify_of_ne _ _ hq]
      exact ⟨rfl, rfl⟩
    · rw [BufferPoolManager.modify_self, ← hdisk htr]
      exact hpage
  · intro q hq
    by_cases hne : q = ptr
    · rw [hne, Function.update_self]
      exact Nat.succ_pos _
    · rw [Function.update_of_ne hne]
      exact h.holder q hq

/-- No frame that is pinned leaves the cache. -/
def Kept (s s' : BufferPoolManager) : Prop := ∀ node ∈ s.frames, 0 < (s.memory node.2).pinCount → node ∈ s'.frames

theorem kept_of_evicts {s' : BufferPoolManager} (h : Evicts s s' (fun q => (s.memory q).pinCount = 0)) : Kept s s' :=
  fun node hnode hpin => h.kept node hnode (Nat.pos_iff_ne_zero.mp hpin)

theorem taken_setFileDesc (frees : List Ptr) :
    (taken s ⟨bp.fileDesc, p⟩ ptr frees).modify ptr (·.setFileDesc bp.fileDesc) =
      { s with frames := s.frames.put ⟨bp.fileDesc, p⟩ ptr, frees := frees }.modify ptr
        fun frame => ((frame.setPageNum p).pin).setFileDesc bp.fileDesc :=
  BufferPoolManager.modify_modify _ _ _ _

theorem unload {frees : List Ptr} (h : Inv c s pools pools held content unmarked) (hfrees : s.frees = ptr :: frees)
    (hnew : ∀ q, (⟨bp.fileDesc, p⟩, q) ∉ s.frames) (hclean : (s.memory ptr).dirty = false) :
    ∃ s', ((taken s ⟨bp.fileDesc, p⟩ ptr frees).modify ptr (·.setFileDesc bp.fileDesc)).purgeFrame bp p ptr =
        .ok (.success, s') ∧
      Inv c s' pools pools held content unmarked ∧ (∀ node, node ∈ s'.frames ↔ node ∈ s.frames) ∧
      s'.bufferPools = s.bufferPools := by
  rw [taken_setFileDesc]
  set t := ({ s with frames := s.frames.put ⟨bp.fileDesc, p⟩ ptr, frees := frees } : BufferPoolManager).modify ptr
    fun frame => ((frame.setPageNum p).pin).setFileDesc bp.fileDesc with ht
  have hfree : ptr ∈ s.frees := by rw [hfrees]; exact List.mem_cons_self
  have hheld := h.held_of_free hfree
  have hself : t.memory ptr = (((s.memory ptr).setPageNum p).pin).setFileDesc bp.fileDesc :=
    BufferPoolManager.modify_self _ _ _
  have hpin : (t.memory ptr).pinCount = 1 := by
    rw [hself]
    show (s.memory ptr).pinCount + 1 = 1
    rw [h.framed.frees_pin ptr hfree]
  have hdirty : ∀ q, (t.memory q).dirty = (s.memory q).dirty :=
    BufferPoolManager.modify_proj _ ptr _ Frame.dirty fun _ => rfl
  have hclean' : (t.memory ptr).dirty = false := (hdirty ptr).trans hclean
  have hmem : (⟨bp.fileDesc, p⟩, ptr) ∈ t.frames := LruCache.mem_put.mpr (Or.inl rfl)
  have hframed : Framed t pools (Function.update held ptr 1) := by
    apply h.framed.fill hfrees hnew
    · rfl
    · show (s.memory ptr).pinCount + 1 = 1
      rw [h.framed.frees_pin ptr hfree]
  have hiff : ∀ node, node ∈ (t.frames.put ⟨bp.fileDesc, p⟩ ptr).remove ⟨bp.fileDesc, p⟩ ↔ node ∈ s.frames := by
    intro node
    rw [BufferPoolManager.mem_remove_put hmem]
    show node ∈ s.frames.put _ _ ∧ _ ↔ _
    rw [LruCache.mem_put]
    constructor
    · rintro ⟨rfl | ⟨hold, -⟩, hne⟩
      · exact absurd rfl hne
      · exact hold
    · intro hold
      have hne : node.1 ≠ ⟨bp.fileDesc, p⟩ := fun heq => hnew node.2 (heq ▸ hold)
      exact ⟨Or.inr ⟨hold, hne⟩, hne⟩
  refine ⟨{ t with
    frames := (t.frames.put ⟨bp.fileDesc, p⟩ ptr).remove ⟨bp.fileDesc, p⟩
    frees := t.frees ++ [ptr] }.modify ptr Frame.unpin, ?_, ⟨?_, ?_, h.holder⟩, hiff, rfl⟩
  · unfold BufferPoolManager.purgeFrame
    simp only [hpin, ne_eq, not_true_eq_false, if_false, hclean', Bool.false_eq_true]
    rw [BufferPoolManager.free_of_mem hmem hpin]
  · have hback := hframed.free hmem (fun _ => BufferPoolManager.mem_remove_put hmem) (Function.update_self _ _ _) hpin
    rw [Function.update_idem, ← hheld, Function.update_eq_self] at hback
    exact hback
  · apply h.coherent.congr
    · exact hiff
    · intro hc q hq
      rw [BufferPoolManager.modify_proj _ ptr Frame.unpin Frame.dirty fun _ => rfl]
      cases List.mem_append.mp hq with
      | inl hq =>
        have hold : q ∈ s.frees := by
          rw [hfrees]
          exact List.mem_cons_of_mem _ hq
        exact (hdirty q).trans (h.coherent.frees_clean hc q hold)
      | inr hq =>
        rw [List.mem_singleton.mp hq]
        exact hclean'
    · rfl
    · intro id q hq
      have hne : q ≠ ptr := fun heq => h.framed.frees_out ptr hfree id (heq ▸ hq)
      rw [BufferPoolManager.modify_of_ne _ _ hne]
      show (t.memory q).page = (s.memory q).page
      rw [ht, BufferPoolManager.modify_of_ne _ _ hne]
    · intro id q _
      exact (BufferPoolManager.modify_proj _ ptr Frame.unpin Frame.dirty (fun _ => rfl) q).trans (hdirty q)

/-! ## Getting a page -/

/-- What a call for a page does: it finds or reads the page, it fails behind the end of the file, or it waits for a frame
that nobody gives back. -/
theorem getThisPage (h : Inv c s pools pools held content unmarked) (hpools : s.bufferPools = pools) (hbp : bp ∈ pools)
    (hnum : c.all ∨ (p : ℤ) < BPFileHeader.pageCount (content bp.fileName bpHeaderPage).data)
    (hclean : p < (s.files bp.fileName).size ∨ ∀ q, s.frees.head? = some q → (s.memory q).dirty = false) :
    (∃ ptr s', s.getThisPage bp p = .ok (.success, some ptr, s') ∧
        Inv c s' pools pools (Function.update held ptr (held ptr + 1)) content unmarked ∧
        (⟨bp.fileDesc, p⟩, ptr) ∈ s'.frames ∧ Kept s s' ∧ s'.bufferPools = pools) ∨
      (¬p < (s.files bp.fileName).size ∧ ∃ s', s.getThisPage bp p = .ok (.ioerrRead, none, s') ∧
        Inv c s' pools pools held content unmarked ∧ Kept s s' ∧ s'.bufferPools = pools) ∨
      (s.getThisPage bp p = .error .spinning ∧ s.frees = [] ∧ (∀ q, (⟨bp.fileDesc, p⟩, q) ∉ s.frames) ∧
        (c.all → ∀ id ptr, (id, ptr) ∈ s.frames → 0 < (s.memory ptr).pinCount)) := by
  unfold BufferPoolManager.getThisPage
  rcases s.mem_or_notMem ⟨bp.fileDesc, p⟩ with ⟨ptr, hmem⟩ | hnew
  · left
    rw [BufferPoolManager.get_of_mem hmem]
    have htouch : ∀ node, node ∈ s.frames.put ⟨bp.fileDesc, p⟩ ptr ↔ node ∈ s.frames :=
      fun node => LruCache.mem_put_of_mem hmem
    exact ⟨ptr, _, rfl, h.get hmem, (htouch _).mpr hmem, fun node hnode _ => (htouch node).mpr hnode, hpools⟩
  · rw [BufferPoolManager.get_of_notMem hnew]
    rcases h.allocateFrame hpools (Or.inl hbp) hnew with
      ⟨ptr, frees, s1, halloc, hfrees, hinv1, hev, hfront⟩ | ⟨hspin, hempty, hpins⟩
    · have hnew1 : ∀ q, (⟨bp.fileDesc, p⟩, q) ∉ s1.frames := fun q hq => hnew q (hev.frames _ hq)
      have hpools1 : s1.bufferPools = pools := hev.pools.trans hpools
      simp only [halloc]
      by_cases hp : p < (s1.files bp.fileName).size
      · left
        have hload : ((taken s1 ⟨bp.fileDesc, p⟩ ptr frees).modify ptr (·.setFileDesc bp.fileDesc)).loadPage bp p ptr =
            (.success, { s1 with frames := s1.frames.put ⟨bp.fileDesc, p⟩ ptr, frees := frees }.modify ptr fun frame =>
              { ((frame.setPageNum p).pin).setFileDesc bp.fileDesc with page := (s1.files bp.fileName).pages p }) := by
          rw [taken_setFileDesc]
          unfold BufferPoolManager.loadPage
          rw [BufferPoolManager.modify_files, if_pos hp, BufferPoolManager.modify_modify]
        rw [hload]
        refine ⟨ptr, _, rfl, ?_, LruCache.mem_put.mpr (Or.inl rfl), ?_, hpools1⟩
        · apply hinv1.load hbp hfrees hnew1 hp hnum
          · rfl
          · rfl
          · show (s1.memory ptr).pinCount + 1 = 1
            rw [hinv1.framed.frees_pin ptr (by rw [hfrees]; exact List.mem_cons_self)]
        · intro node hnode hpin
          have hold := kept_of_evicts hev node hnode hpin
          exact LruCache.mem_put.mpr (Or.inr ⟨hold, fun heq => hnew1 node.2 (heq ▸ hold)⟩)
      · right; left
        have hp0 : ¬p < (s.files bp.fileName).size := fun hlt => hp (lt_of_lt_of_le hlt (hev.size _))
        have hload : ((taken s1 ⟨bp.fileDesc, p⟩ ptr frees).modify ptr (·.setFileDesc bp.fileDesc)).loadPage bp p ptr =
            (.ioerrRead, (taken s1 ⟨bp.fileDesc, p⟩ ptr frees).modify ptr (·.setFileDesc bp.fileDesc)) := by
          unfold BufferPoolManager.loadPage
          exact if_neg hp
        obtain ⟨s', hunload, hinv', hiff, hpools'⟩ := hinv1.unload hfrees hnew1 (hfront (hclean.resolve_left hp0))
        simp only [hload, hunload]
        refine ⟨hp0, s', rfl, hinv', ?_, hpools'.trans hpools1⟩
        exact fun node hnode hpin => (hiff node).mpr (kept_of_evicts hev node hnode hpin)
    · right; right
      simp only [hspin]
      exact ⟨trivial, hempty, hnew, hpins⟩

/-! ## Allocating a page -/

/-- A page is written. -/
def written (content : Contents) (name : FileName) (p : PageNum) (page : Page) : Contents :=
  Function.update content name (Function.update (content name) p page)

theorem written_self (name : FileName) (p : PageNum) (page : Page) : written content name p page name p = page := by
  unfold written
  rw [Function.update_self, Function.update_self]

theorem written_of_ne {name name' : FileName} {q : PageNum} {page : Page} (h : name' = name → q ≠ p) :
    written content name p page name' q = content name' q := by
  unfold written
  by_cases hname : name' = name
  · rw [hname, Function.update_self, Function.update_of_ne (h hname)]
  · rw [Function.update_of_ne hname]

theorem header_eq (h : Inv c s pools pools held content unmarked) (hbp : bp ∈ pools) :
    (s.memory bp.hdrFrame).page = content bp.fileName bpHeaderPage :=
  (h.coherent.cached bp hbp bpHeaderPage bp.hdrFrame (h.framed.hdr bp hbp) (Coherent.tracked_header c)).1

theorem setHeader (h : Inv c s pools pools held content unmarked) (hbp : bp ∈ pools) {header : Memory}
    (hok : BPFileHeader.Ok header) (hextent : BPFileHeader.pageCount header ≤ (s.files bp.fileName).size)
    (hcount : ∀ q : PageNum, q < (s.files bp.fileName).size → (q : ℤ) < BPFileHeader.pageCount header →
      ((s.files bp.fileName).pages q).pageNum = q) :
    Inv c (s.setHeader bp header) pools pools held
      (written content bp.fileName bpHeaderPage { content bp.fileName bpHeaderPage with data := header })
      unmarked := by
  have hmem := h.framed.hdr bp hbp
  have hcached := h.coherent.cached bp hbp bpHeaderPage bp.hdrFrame hmem (Coherent.tracked_header c)
  refine ⟨h.framed.modify _ _ (fun _ => rfl) (fun _ => rfl), ?_, h.holder⟩
  refine h.coherent.assign hbp (show Coherent.Assigns c s _ bp bpHeaderPage bp.hdrFrame content _ unmarked
      unmarked from {
    frames := fun node => ?_
    ptr_eq := fun q hq => LruCache.eq_of_mem hq hmem
    key_eq := fun id hid => h.framed.key_unique hid hmem
    frees := fun q hq => ⟨fun heq => h.framed.notMem_frees hmem (heq ▸ hq), hq⟩
    memory := fun q hq => ?_
    files := fun _ _ => rfl
    pages := fun _ _ => rfl
    grow := le_refl _
    size := fun _ hq _ => hq
    lt_size := hcached.2.1
    num := h.coherent.numbered _ _ hcached.2.1 (Or.inl (Coherent.tracked_header c))
    page := fun _ => ?_
    disk := fun _ hdirty _ => ?_
    unmarked_of_ne := fun _ _ hu => hu
    content_of_ne := fun _ _ hne => written_of_ne hne
    ok := ?_
    extent := ?_
    numbered := fun q _ hq hlt => ?_ })
  · rw [BufferPoolManager.setHeader, BufferPoolManager.modify_frames]
    constructor
    · exact Or.inr
    · rintro (rfl | hnode)
      · exact hmem
      · exact hnode
  · rw [BufferPoolManager.setHeader, BufferPoolManager.modify_of_ne _ _ hq]
    exact ⟨rfl, rfl⟩
  · rw [BufferPoolManager.setHeader, BufferPoolManager.modify_self, written_self, ← h.header_eq hbp]
    rfl
  · rw [BufferPoolManager.setHeader, BufferPoolManager.modify_self] at hdirty
    cases hdirty
  · rw [written_self]
    exact hok
  · rw [written_self]
    exact hextent
  · rw [written_self] at hlt
    exact hcount q hq hlt

theorem append {s' : BufferPoolManager} {held' : Ptr → ℕ} (h : Inv c s pools pools held content unmarked)
    (hframed : Framed s' pools held') (hbp : bp ∈ pools) (hle : p ≤ (s.files bp.fileName).size) (hp : p ≠ bpHeaderPage)
    (hframes : ∀ node, node ∈ s'.frames ↔ node = (⟨bp.fileDesc, p⟩, ptr) ∨ node ∈ s.frames)
    (hptr : ∀ q, (⟨bp.fileDesc, p⟩, q) ∈ s.frames → q = ptr) (hkey : ∀ id, (id, ptr) ∈ s.frames → id = ⟨bp.fileDesc, p⟩)
    (hfrees : ∀ q ∈ s'.frees, q ≠ ptr ∧ q ∈ s.frees)
    (hmem : ∀ q, q ≠ ptr → (s'.memory q).page = (s.memory q).page ∧ (s'.memory q).dirty = (s.memory q).dirty)
    (hfiles : s'.files = s.files) (hpage : (s'.memory ptr).page = { Page.zero with pageNum := p })
    (hheld : ∀ q, held q ≤ held' q) :
    Inv c (s'.flushPageInternal bp ptr) pools pools held' (written content bp.fileName p { Page.zero with pageNum := p })
      unmarked := by
  have hfile : (s'.flushPageInternal bp ptr).files bp.fileName =
      (s.files bp.fileName).write { Page.zero with pageNum := p } := by
    show Function.update s'.files bp.fileName _ bp.fileName = _
    rw [Function.update_self, hfiles, hpage]
  have hsize : ((s'.flushPageInternal bp ptr).files bp.fileName).size = max (s.files bp.fileName).size (p + 1) := by
    rw [hfile]
    rfl
  have hdisk : ((s'.flushPageInternal bp ptr).files bp.fileName).pages p = { Page.zero with pageNum := p } := by
    rw [hfile]
    exact Function.update_self _ _ _
  have hhdr : written content bp.fileName p { Page.zero with pageNum := p } bp.fileName bpHeaderPage =
      content bp.fileName bpHeaderPage := written_of_ne fun _ => hp.symm
  refine ⟨?_, ?_, fun q hq => lt_of_lt_of_le (h.holder q hq) (hheld q)⟩
  · have hmodify := hframed.modify ptr Frame.clearDirty (fun _ => rfl) (fun _ => rfl)
    exact hmodify.congr (fun _ => Iff.rfl) rfl (fun _ => rfl) (fun _ => rfl)
  refine h.coherent.assign hbp (show Coherent.Assigns c s _ bp p ptr content _ unmarked unmarked from {
    frames := hframes
    ptr_eq := hptr
    key_eq := hkey
    frees := hfrees
    memory := fun q hq => ?_
    files := fun name hname => ?_
    pages := fun q hq => ?_
    grow := by rw [hsize]; exact le_max_left _ _
    size := fun q hq hne => ?_
    lt_size := by rw [hsize]; exact lt_of_lt_of_le (Nat.lt_succ_self p) (le_max_right _ _)
    num := by rw [hdisk]
    page := fun _ => ?_
    disk := fun _ _ _ => by rw [hdisk, written_self]
    unmarked_of_ne := fun _ _ hu => hu
    content_of_ne := fun _ _ hne => written_of_ne hne
    ok := by rw [hhdr]; exact h.coherent.header _
    extent := ?_
    numbered := fun q _ hq hlt => h.coherent.numbered _ q hq (Or.inr (hhdr ▸ hlt)) })
  · have hother : (s'.flushPageInternal bp ptr).memory q = s'.memory q := BufferPoolManager.modify_of_ne _ _ hq
    rw [hother]
    exact hmem q hq
  · show Function.update s'.files bp.fileName _ name = _
    rw [Function.update_of_ne hname, hfiles]
  · rw [hfile]
    exact Function.update_of_ne hq _ _
  · rw [hsize] at hq
    cases lt_max_iff.mp hq with
    | inl hq => exact hq
    | inr hq => exact lt_of_lt_of_le (lt_of_le_of_ne (Nat.lt_succ_iff.mp hq) hne) hle
  · have hself : (s'.flushPageInternal bp ptr).memory ptr = (s'.memory ptr).clearDirty :=
      BufferPoolManager.modify_self _ _ _
    rw [hself, written_self]
    exact hpage
  · rw [hhdr, hsize]
    exact le_trans (h.coherent.extent _) (by exact_mod_cast le_max_left _ _)

/-- What `allocate_page` writes after its search: the header, and the page itself when it is a new one at the end. -/
def allocationFound (content : Contents) (name : FileName) : Option PageNum → Contents
  | some i =>
    written content name bpHeaderPage
      { content name bpHeaderPage with data := BPFileHeader.mark (content name bpHeaderPage).data i }
  | none =>
    let p := (BPFileHeader.pageCount (content name bpHeaderPage).data).toNat
    written (written content name p { Page.zero with pageNum := p }) name bpHeaderPage
      { content name bpHeaderPage with data := BPFileHeader.extend (content name bpHeaderPage).data p }

/-- What `allocate_page` writes. -/
def allocation (content : Contents) (name : FileName) : Contents :=
  allocationFound content name (BPFileHeader.freePage (content name bpHeaderPage).data)

/-- The page that `allocate_page` hands out after its search. -/
def nextPageFound (header : Memory) : Option PageNum → PageNum
  | some i => i
  | none => (BPFileHeader.pageCount header).toNat

/-- The page that `allocate_page` hands out. -/
def nextPage (header : Memory) : PageNum := nextPageFound header (BPFileHeader.freePage header)

theorem setHeader_comm {header : Memory} (hne : bp.hdrFrame ≠ ptr) (f : Frame → Frame) :
    ((s.setHeader bp header).modify ptr f).flushPageInternal bp ptr =
      ((s.modify ptr f).flushPageInternal bp ptr).setHeader bp header := by
  simp only [BufferPoolManager.setHeader, BufferPoolManager.modify, BufferPoolManager.flushPageInternal,
    Function.update_self, Function.update_of_ne hne, Function.update_of_ne hne.symm, Function.update_idem,
    Function.update_comm hne]

theorem allocateFrame_of_mem (hmem : (⟨bp.fileDesc, p⟩, ptr) ∈ s.frames) :
    s.allocateFrame bp p =
      .ok (ptr, { s with frames := s.frames.put ⟨bp.fileDesc, p⟩ ptr }.modify ptr Frame.pin) := by
  simp only [BufferPoolManager.allocateFrame, BufferPoolManager.allocateFrameLoop, BufferPoolManager.alloc,
    BufferPoolManager.get_of_mem hmem]

theorem le_update_succ (held : Ptr → ℕ) (ptr q : Ptr) : held q ≤ Function.update held ptr (held ptr + 1) q := by
  by_cases hne : q = ptr
  · rw [hne, Function.update_self]
    exact Nat.le_succ _
  · rw [Function.update_of_ne hne]

theorem allocateFrame_append (h : Inv c s pools pools held content unmarked) (hpools : s.bufferPools = pools) (hbp : bp ∈ pools)
    (hle : p ≤ (s.files bp.fileName).size) (hp : p ≠ bpHeaderPage) :
    (∃ ptr s1, s.allocateFrame bp p = .ok (ptr, s1) ∧ s1.header bp = s.header bp ∧ bp.hdrFrame ≠ ptr ∧
        Inv c ((s1.modify ptr fun frame => ((frame.setFileDesc bp.fileDesc).clearPage).setPageNum p).flushPageInternal bp
          ptr) pools pools (Function.update held ptr (held ptr + 1))
          (written content bp.fileName p { Page.zero with pageNum := p }) unmarked ∧
        (⟨bp.fileDesc, p⟩, ptr) ∈ s1.frames ∧ Kept s s1 ∧ s1.bufferPools = pools) ∨
      (s.allocateFrame bp p = .error .spinning ∧ s.frees = [] ∧
        (c.all → ∀ id ptr, (id, ptr) ∈ s.frames → 0 < (s.memory ptr).pinCount)) := by
  have hhdr := h.framed.hdr bp hbp
  have hkeyne : (⟨bp.fileDesc, bpHeaderPage⟩ : FrameId) ≠ ⟨bp.fileDesc, p⟩ :=
    fun heq => hp (congrArg FrameId.pageNum heq).symm
  have hpin : 0 < (s.memory bp.hdrFrame).pinCount := by
    have hpins := h.framed.pins _ _ hhdr
    rw [hdrPin, if_pos (List.mem_map.mpr ⟨bp, hbp, rfl⟩)] at hpins
    omega
  rcases s.mem_or_notMem ⟨bp.fileDesc, p⟩ with ⟨ptr, hmem⟩ | hnew
  · left
    have hne : bp.hdrFrame ≠ ptr := fun heq => hkeyne (h.framed.key_unique hhdr (heq ▸ hmem))
    have htouch : ∀ node, node ∈ s.frames.put ⟨bp.fileDesc, p⟩ ptr ↔ node ∈ s.frames :=
      fun node => LruCache.mem_put_of_mem hmem
    refine ⟨ptr, _, allocateFrame_of_mem hmem, ?_, hne, ?_, (htouch _).mpr hmem, fun node hnode _ => (htouch node).mpr hnode,
      hpools⟩
    · exact congrArg (fun frame => frame.page.data) (BufferPoolManager.modify_of_ne _ _ hne)
    · rw [BufferPoolManager.modify_modify]
      have htouched : Framed { s with frames := s.frames.put ⟨bp.fileDesc, p⟩ ptr } pools held :=
        h.framed.congr htouch rfl (fun _ => rfl) (fun _ => rfl)
      have hframed := htouched.repin ((htouch _).mpr hmem)
        (fun frame => ((frame.pin.setFileDesc bp.fileDesc).clearPage).setPageNum p) (held ptr + 1)
        (h.framed.ident _ _ hmem).symm (by
          show (s.memory ptr).pinCount + 1 = _
          rw [h.framed.pins _ _ hmem]
          omega)
      apply h.append hframed hbp hle hp
      · intro node
        rw [BufferPoolManager.modify_frames, htouch node]
        constructor
        · exact Or.inr
        · rintro (rfl | hnode)
          · exact hmem
          · exact hnode
      · exact fun q hq => LruCache.eq_of_mem hq hmem
      · exact fun id hid => h.framed.key_unique hid hmem
      · exact fun q hq => ⟨fun heq => h.framed.notMem_frees hmem (heq ▸ hq), hq⟩
      · intro q hq
        rw [BufferPoolManager.modify_of_ne _ _ hq]
        exact ⟨rfl, rfl⟩
      · rfl
      · rw [BufferPoolManager.modify_self]
        rfl
      · exact le_update_succ held ptr
  · rcases h.allocateFrame hpools (Or.inl hbp) hnew with ⟨ptr, frees, s1, halloc, hfrees, hinv1, hev, -⟩ | hspin
    · left
      have hnew1 : ∀ q, (⟨bp.fileDesc, p⟩, q) ∉ s1.frames := fun q hq => hnew q (hev.frames _ hq)
      have hfree : ptr ∈ s1.frees := by rw [hfrees]; exact List.mem_cons_self
      have hout : ∀ id, (id, ptr) ∉ s1.frames := hinv1.framed.frees_out ptr hfree
      have hne : bp.hdrFrame ≠ ptr := fun heq => hout _ (heq ▸ hinv1.framed.hdr bp hbp)
      have hput : ∀ node, node ∈ s1.frames.put ⟨bp.fileDesc, p⟩ ptr ↔
          node = (⟨bp.fileDesc, p⟩, ptr) ∨ node ∈ s1.frames := by
        intro node
        rw [LruCache.mem_put]
        apply or_congr_right
        rw [and_iff_left_iff_imp]
        rintro hnode heq
        exact hnew1 node.2 (heq ▸ hnode)
      refine ⟨ptr, _, halloc, ?_, hne, ?_, (hput _).mpr (Or.inl rfl), ?_, hev.pools.trans hpools⟩
      · have hmemory : (taken s1 ⟨bp.fileDesc, p⟩ ptr frees).memory bp.hdrFrame = s.memory bp.hdrFrame :=
          (BufferPoolManager.modify_of_ne _ _ hne).trans (hev.memory _ (Nat.pos_iff_ne_zero.mp hpin))
        exact congrArg (fun frame => frame.page.data) hmemory
      · unfold taken
        rw [BufferPoolManager.modify_modify]
        have hframed := hinv1.framed.fill hfrees hnew1
          (fun frame => ((((frame.setPageNum p).pin).setFileDesc bp.fileDesc).clearPage).setPageNum p) rfl (by
            show (s1.memory ptr).pinCount + 1 = 1
            rw [hinv1.framed.frees_pin ptr hfree])
        rw [hinv1.held_of_free hfree, zero_add]
        apply hinv1.append hframed hbp (le_trans hle (hev.size _)) hp
        · exact hput
        · exact fun q hq => absurd hq (hnew1 q)
        · exact fun id hid => absurd hid (hout id)
        · have hnodup := List.nodup_cons.mp (hfrees ▸ hinv1.framed.frees_nodup)
          intro q hq
          exact ⟨fun heq => hnodup.1 (heq ▸ hq), by rw [hfrees]; exact List.mem_cons_of_mem _ hq⟩
        · intro q hq
          rw [BufferPoolManager.modify_of_ne _ _ hq]
          exact ⟨rfl, rfl⟩
        · rfl
        · rw [BufferPoolManager.modify_self]
          rfl
        · have hle := le_update_succ held ptr
          rw [hinv1.held_of_free hfree, zero_add] at hle
          exact hle
      · exact fun node hnode hpin => (hput node).mpr (Or.inr (kept_of_evicts hev node hnode hpin))
    · exact Or.inr hspin

theorem extendFile (h : Inv c s pools pools held content unmarked) (hpools : s.bufferPools = pools) (hbp : bp ∈ pools)
    (hp : (p : ℤ) = BPFileHeader.pageCount (content bp.fileName bpHeaderPage).data) (hroom : p < BPFileHeader.maxPageNum) :
    (∃ ptr s1, s.allocateFrame bp p = .ok (ptr, s1) ∧
        Inv c (s1.extendFile bp p ptr) pools pools (Function.update held ptr (held ptr + 1))
          (written (written content bp.fileName p { Page.zero with pageNum := p }) bp.fileName bpHeaderPage
            { content bp.fileName bpHeaderPage with
              data := BPFileHeader.extend (content bp.fileName bpHeaderPage).data p }) unmarked ∧
        (⟨bp.fileDesc, p⟩, ptr) ∈ (s1.extendFile bp p ptr).frames ∧ Kept s (s1.extendFile bp p ptr) ∧
        (s1.extendFile bp p ptr).bufferPools = pools) ∨
      (s.allocateFrame bp p = .error .spinning ∧ s.frees = [] ∧
        (c.all → ∀ id ptr, (id, ptr) ∈ s.frames → 0 < (s.memory ptr).pinCount)) := by
  have hheader : s.header bp = (content bp.fileName bpHeaderPage).data := congrArg Page.data (h.header_eq hbp)
  have hok := h.coherent.header bp.fileName
  have hextent := h.coherent.extent bp.fileName
  have hpne : p ≠ bpHeaderPage := by
    have hpos := hok.pos
    rintro rfl
    rw [← hp] at hpos
    exact absurd hpos (by decide)
  have hple : p ≤ (s.files bp.fileName).size := by
    rw [← hp] at hextent
    exact_mod_cast hextent
  rcases h.allocateFrame_append hpools hbp hple hpne with
    ⟨ptr, s1, halloc, hheader1, hne, hinv, hmem, hkept, hpools1⟩ | hspin
  · left
    have hgrown : BPFileHeader.pageCount (BPFileHeader.extend (content bp.fileName bpHeaderPage).data p) = p + 1 := by
      rw [hok.pageCount_extend, hp]
    have hfile : ((s1.modify ptr fun frame => ((frame.setFileDesc bp.fileDesc).clearPage).setPageNum p).flushPageInternal
        bp ptr).files bp.fileName = (s1.files bp.fileName).write { Page.zero with pageNum := p } := by
      show Function.update s1.files bp.fileName _ bp.fileName = _
      rw [Function.update_self, BufferPoolManager.modify_self]
      rfl
    have hhdr : written content bp.fileName p { Page.zero with pageNum := p } bp.fileName bpHeaderPage =
        content bp.fileName bpHeaderPage := written_of_ne fun _ => hpne.symm
    have hset := hinv.setHeader hbp (hok.extend hp hroom) (by
        rw [hgrown, hfile, File.write_size]
        exact_mod_cast le_max_right _ _) (by
      intro q hq hlt
      rw [hgrown] at hlt
      by_cases hqp : q = p
      · rw [hqp, hfile, File.write_pages, Function.update_self]
      · apply hinv.coherent.numbered bp.fileName q hq
        right
        rw [hhdr, ← hp]
        have hle : q < p + 1 := by exact_mod_cast hlt
        exact_mod_cast lt_of_le_of_ne (Nat.lt_succ_iff.mp hle) hqp)
    have heq : s1.extendFile bp p ptr = ((s1.modify ptr fun frame =>
        ((frame.setFileDesc bp.fileDesc).clearPage).setPageNum p).flushPageInternal bp ptr).setHeader bp
          (BPFileHeader.extend (content bp.fileName bpHeaderPage).data p) := by
      unfold BufferPoolManager.extendFile
      rw [hheader1, hheader]
      exact setHeader_comm hne _
    rw [hhdr] at hset
    exact ⟨ptr, s1, halloc, by rw [heq]; exact hset, by rw [heq]; exact hmem, by rw [heq]; exact hkept,
      by rw [heq]; exact hpools1⟩
  · exact Or.inr hspin

theorem reusePage {i : PageNum} (h : Inv c s pools pools held content unmarked) (hpools : s.bufferPools = pools)
    (hbp : bp ∈ pools) (hfree : BPFileHeader.freePage (content bp.fileName bpHeaderPage).data = some i) :
    (∃ ptr s', (s.setHeader bp (BPFileHeader.mark (content bp.fileName bpHeaderPage).data i)).getThisPage bp i =
          .ok (.success, some ptr, s') ∧
        Inv c s' pools pools (Function.update held ptr (held ptr + 1)) (written content bp.fileName bpHeaderPage
          { content bp.fileName bpHeaderPage with
            data := BPFileHeader.mark (content bp.fileName bpHeaderPage).data i }) unmarked ∧
        (⟨bp.fileDesc, i⟩, ptr) ∈ s'.frames ∧ Kept s s' ∧ s'.bufferPools = pools) ∨
      ((s.setHeader bp (BPFileHeader.mark (content bp.fileName bpHeaderPage).data i)).getThisPage bp i =
          .error .spinning ∧ s.frees = [] ∧
        (c.all → ∀ id ptr, (id, ptr) ∈ s.frames → 0 < (s.memory ptr).pinCount)) := by
  have hok := h.coherent.header bp.fileName
  have hextent := h.coherent.extent bp.fileName
  obtain ⟨hi, hbit⟩ := BPFileHeader.freePage_spec hfree
  have hcount : BPFileHeader.pageCount (BPFileHeader.mark (content bp.fileName bpHeaderPage).data i) =
      BPFileHeader.pageCount (content bp.fileName bpHeaderPage).data := by simp [BPFileHeader.mark]
  have hset := h.setHeader hbp (hok.mark hi hbit) (by rw [hcount]; exact hextent)
    (by rw [hcount]; exact fun q hq hlt => h.coherent.numbered bp.fileName q hq (Or.inr hlt))
  have hsize : i < (s.files bp.fileName).size := by exact_mod_cast lt_of_lt_of_le hi hextent
  have hlt : (i : ℤ) < BPFileHeader.pageCount (written content bp.fileName bpHeaderPage
      { content bp.fileName bpHeaderPage with
        data := BPFileHeader.mark (content bp.fileName bpHeaderPage).data i } bp.fileName bpHeaderPage).data := by
    rw [written_self, hcount]
    exact hi
  have hpinCount : ∀ q, ((s.setHeader bp (BPFileHeader.mark (content bp.fileName bpHeaderPage).data i)).memory q).pinCount =
      (s.memory q).pinCount := s.modify_proj _ _ Frame.pinCount fun _ => rfl
  rcases hset.getThisPage hpools hbp (Or.inr hlt) (Or.inl hsize) with hget | ⟨hnot, -⟩ | hspin
  · left
    obtain ⟨ptr, s', heq, hinv, hmem, hkept, hpools'⟩ := hget
    refine ⟨ptr, s', heq, hinv, hmem, fun node hnode hpin => ?_, hpools'⟩
    exact hkept node hnode (by rw [hpinCount]; exact hpin)
  · exact absurd hsize hnot
  · right
    obtain ⟨heq, hempty, -, hpins⟩ := hspin
    refine ⟨heq, hempty, fun hall id ptr hmem => ?_⟩
    rw [← hpinCount]
    exact hpins hall id ptr hmem

/-- What a call for a new page does: it hands out a page, or the file is full, or it waits for a frame. -/
theorem allocatePage (h : Inv c s pools pools held content unmarked) (hpools : s.bufferPools = pools) (hbp : bp ∈ pools) :
    (∃ ptr s', s.allocatePage bp = .ok (.success, some ptr, s') ∧
        Inv c s' pools pools (Function.update held ptr (held ptr + 1)) (allocation content bp.fileName) unmarked ∧
        (⟨bp.fileDesc, nextPage (s.header bp)⟩, ptr) ∈ s'.frames ∧ nextPage (s.header bp) < BPFileHeader.maxPageNum ∧
        Kept s s' ∧ s'.bufferPools = pools) ∨
      (s.allocatePage bp = .ok (.bufferpoolNobuf, none, s) ∧ BPFileHeader.full (s.header bp) = true) ∨
      (s.allocatePage bp = .error .spinning ∧ s.frees = [] ∧
        (c.all → ∀ id ptr, (id, ptr) ∈ s.frames → 0 < (s.memory ptr).pinCount)) := by
  have hheader : s.header bp = (content bp.fileName bpHeaderPage).data := congrArg Page.data (h.header_eq hbp)
  have hok := h.coherent.header bp.fileName
  unfold BufferPoolManager.allocatePage nextPage allocation
  rw [hheader]
  cases hfree : BPFileHeader.freePage (content bp.fileName bpHeaderPage).data with
  | some i =>
    have hlt := hok.lt_max (BPFileHeader.freePage_spec hfree).1
    simp only [BufferPoolManager.allocateFound, hheader, nextPageFound, allocationFound]
    rcases h.reusePage hpools hbp hfree with ⟨ptr, s', heq, hinv, hmem, hkept, hpools'⟩ | hspin
    · exact Or.inl ⟨ptr, s', heq, hinv, hmem, hlt, hkept, hpools'⟩
    · exact Or.inr (Or.inr hspin)
  | none =>
    simp only [BufferPoolManager.allocateFound, hheader, nextPageFound, allocationFound]
    by_cases hfull : BPFileHeader.full (content bp.fileName bpHeaderPage).data = true
    · right; left
      rw [if_pos hfull]
      exact ⟨rfl, hfull⟩
    · rw [if_neg hfull]
      have hnonneg : 0 ≤ BPFileHeader.pageCount (content bp.fileName bpHeaderPage).data :=
        le_trans (by norm_num) hok.pos
      have hcast := Int.toNat_of_nonneg hnonneg
      have hroom : (BPFileHeader.pageCount (content bp.fileName bpHeaderPage).data).toNat < BPFileHeader.maxPageNum := by
        rw [BPFileHeader.full, decide_eq_true_eq, ← hcast] at hfull
        exact_mod_cast not_le.mp hfull
      rcases h.extendFile hpools hbp hcast hroom with
        ⟨ptr, s1, halloc, hinv, hmem, hkept, hpools1⟩ | ⟨hspin, hempty, hpins⟩
      · left
        rw [halloc]
        exact ⟨ptr, _, rfl, hinv, hmem, hroom, hkept, hpools1⟩
      · right; right
        rw [hspin]
        exact ⟨rfl, hempty, hpins⟩

end Inv

end Landbase.Buffer
