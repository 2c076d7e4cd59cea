import Landbase.Buffer.Maintenance

/-! # The pool and its callers

A `Client` is the pool together with what its callers have done: the pins they hold, what was last written to each page,
and the frames they have written to and not yet marked dirty. `step` is one call, or a write through a pinned frame;
it is `none` where the callers break their own rules and where the call does not return.
-/

namespace Landbase.Buffer
open Landbase.Lib
set_option autoImplicit false

/-- A call to the pool, or a write of `data` to page `pageNum` of `bp` through the frame `ptr`. -/
inductive Op
  | openFile (fileName : FileName) (fd : FileDesc)
  | closeFile (bp : DiskBufferPool)
  | getThisPage (bp : DiskBufferPool) (pageNum : PageNum)
  | allocatePage (bp : DiskBufferPool)
  | disposePage (bp : DiskBufferPool) (pageNum : PageNum)
  | unpinPage (ptr : Ptr)
  | write (bp : DiskBufferPool) (pageNum : PageNum) (ptr : Ptr) (data : Memory)
  | markDirty (ptr : Ptr)
  | flushPage (bp : DiskBufferPool) (pageNum : PageNum) (ptr : Ptr)
  | purgeFrames (bp : DiskBufferPool) (count : ℕ)
  | purgePage (bp : DiskBufferPool) (pageNum : PageNum)
  | purgeAllPages (bp : DiskBufferPool)
  | checkAllPagesUnpinned (bp : DiskBufferPool)
  | flushAllPages (bp : DiskBufferPool)

/-- The pool and its callers. -/
structure Client where
  pool : BufferPoolManager
  held : Ptr → ℕ
  content : Contents
  unmarked : Ptr → Bool

namespace Client

/-- Before the first call: `n` free frames, and every page is what its file holds. -/
def init (n : ℕ) (files : FileName → File) : Client :=
  ⟨BufferPoolManager.init n files, fun _ => 0, fun name p => (files name).pages p, fun _ => false⟩

/-- The pins of a frame, if the page is in the cache. -/
def pinCount (s : Client) (frameId : FrameId) : ℕ :=
  match s.pool.frames.find frameId with
  | some ptr => (s.pool.memory ptr).pinCount
  | none => 0

/-- The caller holds the frame `ptr`, which is page `pageNum` of `bp`. -/
def holds (s : Client) (bp : DiskBufferPool) (pageNum : PageNum) (ptr : Ptr) : Bool :=
  decide (bp ∈ s.pool.bufferPools) && decide (0 < s.held ptr) &&
    decide (s.pool.frames.find ⟨bp.fileDesc, pageNum⟩ = some ptr)

/-- An allocated page of `bp` that nobody pins. -/
def disposable (s : Client) (bp : DiskBufferPool) (pageNum : PageNum) : Bool :=
  decide (pageNum < BPFileHeader.maxPageNum) && BPFileHeader.allocated (s.pool.header bp) pageNum &&
    decide (s.pinCount ⟨bp.fileDesc, pageNum⟩ = 0)

/-- A caller gets a pin more on the frame that a call returned. -/
def pinned (s : Client) (pool : BufferPoolManager) (ptr : Ptr) : Client :=
  { s with pool := pool, held := Function.update s.held ptr (s.held ptr + 1) }

/-- What a caller has after `allocate_page`. -/
def allocated (s : Client) (bp : DiskBufferPool) : Except Stop (RC × Option Ptr × BufferPoolManager) → Option Client
  | .ok (_, some ptr, pool) => some { s.pinned pool ptr with content := Inv.allocation s.content bp.fileName }
  | .ok (_, none, pool) => some { s with pool := pool }
  | .error _ => none

/-- One step of the callers. -/
def step (s : Client) : Op → Option Client
  | .openFile fileName fd =>
    -- the operating system gives no descriptor twice
    if s.pool.bufferPools.all (fun bp => bp.fileDesc ≠ fd) then
      match s.pool.openFile fileName fd with
      | .ok (_, _, pool) => some { s with pool := pool }
      | .error _ => none
    else none
  | .closeFile bp =>
    if bp ∈ s.pool.bufferPools then
      match s.pool.closeFile bp with
      | .ok (_, pool) => some { s with pool := pool }
      | .error _ => none
    else none
  | .getThisPage bp pageNum =>
    if bp ∈ s.pool.bufferPools then
      match s.pool.getThisPage bp pageNum with
      | .ok (_, some ptr, pool) => some (s.pinned pool ptr)
      | .ok (_, none, pool) => some { s with pool := pool }
      | .error _ => none
    else none
  | .allocatePage bp =>
    if bp ∈ s.pool.bufferPools then s.allocated bp (s.pool.allocatePage bp) else none
  | .disposePage bp pageNum =>
    if bp ∈ s.pool.bufferPools ∧ s.disposable bp pageNum = true then
      match s.pool.disposePage bp pageNum with
      | .ok (.success, pool) =>
        some { s with pool := pool, content := Inv.disposal s.content s.pool bp.fileName pageNum }
      | .ok (_, pool) => some { s with pool := pool }
      | .error _ => none
    else none
  | .unpinPage ptr =>
    -- a caller gives back a pin of its own, the last one only when every write is marked
    if 0 < s.held ptr ∧ (s.unmarked ptr = true → 1 < s.held ptr) then
      match s.pool.unpin ptr with
      | .ok pool => some { s with pool := pool, held := Function.update s.held ptr (s.held ptr - 1) }
      | .error _ => none
    else none
  | .write bp pageNum ptr data =>
    -- the header page is the pool's own
    if s.holds bp pageNum ptr = true ∧ pageNum ≠ bpHeaderPage then
      some { s with
        pool := s.pool.modify ptr (·.setData data)
        content := Inv.written s.content bp.fileName pageNum { (s.pool.memory ptr).page with data := data }
        unmarked := Function.update s.unmarked ptr (s.unmarked ptr || !(s.pool.memory ptr).dirty) }
    else none
  | .markDirty ptr =>
    if 0 < s.held ptr then
      some { s with
        pool := s.pool.modify ptr Frame.markDirty
        unmarked := Function.update s.unmarked ptr false }
    else none
  | .flushPage bp pageNum ptr =>
    if s.holds bp pageNum ptr = true then
      some { s with
        pool := s.pool.flushPageInternal bp ptr
        unmarked := Function.update s.unmarked ptr false }
    else none
  | .purgeFrames bp count =>
    if bp ∈ s.pool.bufferPools then
      match s.pool.purgeFrames bp count with
      | .ok (_, pool) => some { s with pool := pool }
      | .error _ => none
    else none
  | .purgePage bp pageNum =>
    if bp ∈ s.pool.bufferPools then
      match s.pool.purgePage bp pageNum with
      | .ok (_, pool) => some { s with pool := pool }
      | .error _ => none
    else none
  | .purgeAllPages bp =>
    if bp ∈ s.pool.bufferPools then
      match s.pool.purgeAllPages bp with
      | .ok (_, pool) => some { s with pool := pool }
      | .error _ => none
    else none
  | .checkAllPagesUnpinned bp =>
    if bp ∈ s.pool.bufferPools then
      match s.pool.checkAllPagesUnpinned bp with
      | .ok (_, pool) => some { s with pool := pool }
      | .error _ => none
    else none
  | .flushAllPages bp =>
    if bp ∈ s.pool.bufferPools then some { s with pool := (s.pool.flushAllPages bp).2 } else none

/-- A sequence of steps. -/
def run : List Op → Client → Option Client
  | [], s => some s
  | op :: ops, s => (s.step op).bind (run ops)

end Client

/-! ## Writes through pinned frames -/

namespace Inv

variable {c : Scope} {s : BufferPoolManager} {pools : List DiskBufferPool} {held : Ptr → ℕ} {content content' : Contents}
  {unmarked unmarked' : Ptr → Prop} {bp : DiskBufferPool} {p : PageNum} {ptr : Ptr}

theorem modifyPage (h : Inv c s pools pools held content unmarked) (hall : c.all) (hbp : bp ∈ pools)
    (hmem : (⟨bp.fileDesc, p⟩, ptr) ∈ s.frames) (f : Frame → Frame) (hid : ∀ frame, (f frame).frameId = frame.frameId)
    (hpin : ∀ frame, (f frame).pinCount = frame.pinCount)
    (hpage : (f (s.memory ptr)).page = content' bp.fileName p)
    (hdisk : (f (s.memory ptr)).dirty = false → ¬unmarked' ptr →
      (s.files bp.fileName).pages p = content' bp.fileName p)
    (hcontent : ∀ name q, (name = bp.fileName → q ≠ p) → content' name q = content name q)
    (hheader : content' bp.fileName bpHeaderPage = content bp.fileName bpHeaderPage)
    (hun : ∀ q, q ≠ ptr → unmarked q → unmarked' q) (hholder : ∀ q, unmarked' q → 0 < held q) :
    Inv c (s.modify ptr f) pools pools held content' unmarked' := by
  have hcached := h.coherent.cached bp hbp p ptr hmem (Or.inl hall)
  refine ⟨h.framed.modify ptr f hid hpin, ?_, hholder⟩
  refine h.coherent.assign hbp (show Coherent.Assigns c s _ bp p ptr content content' unmarked unmarked' from {
    frames := fun node => ?_
    ptr_eq := fun q hq => LruCache.eq_of_mem hq hmem
    key_eq := fun id hid' => h.framed.key_unique hid' hmem
    frees := fun q hq => ⟨fun heq => h.framed.notMem_frees hmem (heq ▸ hq), hq⟩
    memory := fun q hq => ?_
    files := fun _ _ => rfl
    pages := fun _ _ => rfl
    grow := le_refl _
    size := fun _ hq _ => hq
    lt_size := hcached.2.1
    num := h.coherent.numbered _ p hcached.2.1 (Or.inl (Or.inl hall))
    page := fun _ => by rw [BufferPoolManager.modify_self]; exact hpage
    disk := fun _ hdirty hu => hdisk (by rw [BufferPoolManager.modify_self] at hdirty; exact hdirty) hu
    unmarked_of_ne := hun
    content_of_ne := hcontent
    ok := by rw [hheader]; exact h.coherent.header _
    extent := by rw [hheader]; exact h.coherent.extent _
    numbered := fun q _ hq _ => h.coherent.numbered _ q hq (Or.inl (Or.inl hall)) })
  · rw [BufferPoolManager.modify_frames]
    constructor
    · exact Or.inr
    · rintro (rfl | hnode)
      · exact hmem
      · exact hnode
  · rw [BufferPoolManager.modify_of_ne _ _ hq]
    exact ⟨rfl, rfl⟩

theorem ofPools (h : Inv c s pools pools held content unmarked) (hpools : s.bufferPools = pools) :
    Inv c s s.bufferPools s.bufferPools held content unmarked := by
  rw [hpools]
  exact h

end Inv

namespace Client

variable {c : Scope} {s s' : Client} {bp : DiskBufferPool} {p : PageNum} {ptr : Ptr} {op : Op}

/-- The invariant, for the pins that the callers hold. -/
def Ok (c : Scope) (s : Client) : Prop :=
  Inv c s.pool s.pool.bufferPools s.pool.bufferPools s.held s.content (fun q => s.unmarked q = true)

theorem holds_iff : s.holds bp p ptr = true ↔
    bp ∈ s.pool.bufferPools ∧ 0 < s.held ptr ∧ (⟨bp.fileDesc, p⟩, ptr) ∈ s.pool.frames := by
  unfold holds
  rw [Bool.and_eq_true, Bool.and_eq_true, decide_eq_true_eq, decide_eq_true_eq, decide_eq_true_eq,
    LruCache.find_eq_some_iff, and_assoc]

theorem disposable_iff : s.disposable bp p = true ↔ p < BPFileHeader.maxPageNum ∧
    BPFileHeader.allocated (s.pool.header bp) p = true ∧ s.pinCount ⟨bp.fileDesc, p⟩ = 0 := by
  unfold disposable
  rw [Bool.and_eq_true, Bool.and_eq_true, decide_eq_true_eq, decide_eq_true_eq, and_assoc]

theorem pinCount_eq_zero {id : FrameId} (h : s.pinCount id = 0) :
    ∀ ptr, (id, ptr) ∈ s.pool.frames → (s.pool.memory ptr).pinCount = 0 := by
  intro ptr hmem
  unfold pinCount at h
  rw [LruCache.find_eq_some_iff.mpr hmem] at h
  exact h

theorem ok_write {data : Memory} (hall : c.all) (h : s.Ok c) (hs : s.step (.write bp p ptr data) = some s') : s'.Ok c := by
  unfold step at hs
  simp only at hs
  split at hs
  · next hguard =>
    obtain ⟨hholds, hp⟩ := hguard
    obtain ⟨hbp, hheld, hmem⟩ := holds_iff.mp hholds
    have hs' := (Option.some.inj hs).symm
    subst hs'
    refine h.modifyPage hall hbp hmem (·.setData data) (fun _ => rfl) (fun _ => rfl) ?_ ?_ ?_ ?_ ?_ ?_
    · exact (Inv.written_self bp.fileName p _).symm
    · intro hdirty hu
      refine absurd ?_ hu
      have hclean : (s.pool.memory ptr).dirty = false := hdirty
      show Function.update s.unmarked ptr _ ptr = true
      rw [Function.update_self, hclean, Bool.not_false, Bool.or_true]
    · exact fun name q hne => Inv.written_of_ne hne
    · exact Inv.written_of_ne fun _ => hp.symm
    · intro q hq hu
      show Function.update s.unmarked ptr _ q = true
      rw [Function.update_of_ne hq]
      exact hu
    · intro q hu
      by_cases hq : q = ptr
      · rw [hq]
        exact hheld
      · have hu' : Function.update s.unmarked ptr (s.unmarked ptr || !(s.pool.memory ptr).dirty) q = true := hu
        rw [Function.update_of_ne hq] at hu'
        exact h.holder q hu'
  · cases hs

theorem ok_markDirty (hall : c.all) (h : s.Ok c) (hs : s.step (.markDirty ptr) = some s') : s'.Ok c := by
  unfold step at hs
  simp only at hs
  split at hs
  · next hheld =>
    have hs' := (Option.some.inj hs).symm
    subst hs'
    obtain ⟨id, hid⟩ := h.framed.held_in ptr hheld
    obtain ⟨bp, hbp, hfd⟩ := h.coherent.owner id ptr hid (Or.inl hall)
    have hmem : (⟨bp.fileDesc, id.pageNum⟩, ptr) ∈ s.pool.frames := by
      rw [hfd]
      exact hid
    have hun : ∀ q, q ≠ ptr → Function.update s.unmarked ptr false q = s.unmarked q :=
      fun q hq => Function.update_of_ne hq _ _
    refine h.modifyPage hall hbp hmem _ (fun _ => rfl) (fun _ => rfl) ?_ ?_ ?_ rfl ?_ ?_
    · exact (h.coherent.cached bp hbp id.pageNum ptr hmem (Or.inl hall)).1
    · intro hdirty
      cases hdirty
    · exact fun _ _ _ => rfl
    · intro q hq hu
      show Function.update s.unmarked ptr false q = true
      rw [hun q hq]
      exact hu
    · intro q hu
      have hu' : Function.update s.unmarked ptr false q = true := hu
      by_cases hq : q = ptr
      · rw [hq, Function.update_self] at hu'
        cases hu'
      · rw [hun q hq] at hu'
        exact h.holder q hu'
  · cases hs

theorem ok_flushPage (h : s.Ok c) (hs : s.step (.flushPage bp p ptr) = some s') : s'.Ok c := by
  unfold step at hs
  simp only at hs
  split at hs
  · next hholds =>
    obtain ⟨hbp, -, hmem⟩ := holds_iff.mp hholds
    have hs' := (Option.some.inj hs).symm
    subst hs'
    have hflush := Inv.flush h hmem (Or.inl hbp)
    have heq : (fun q => s.unmarked q = true ∧ q ≠ ptr) = fun q => Function.update s.unmarked ptr false q = true := by
      funext q
      apply propext
      by_cases hq : q = ptr
      · rw [hq, Function.update_self]
        simp
      · rw [Function.update_of_ne hq]
        exact and_iff_left hq
    rw [heq] at hflush
    exact hflush
  · cases hs

/-! ## Every step -/

/-- A file is open already, or a new pool is in front of the others. -/
theorem openFile_cases {held : Ptr → ℕ} {content : Contents} {unmarked : Ptr → Prop}
    (h : Inv c s.pool s.pool.bufferPools s.pool.bufferPools held content unmarked) {name : FileName} {fd : FileDesc}
    (hs : s.step (.openFile name fd) = some s') : s' = s ∨ (∀ bp ∈ s.pool.bufferPools, bp.fileDesc ≠ fd) ∧
      ∃ ptr pool, s' = { s with pool := pool } ∧ pool.bufferPools = ⟨name, fd, ptr⟩ :: s.pool.bufferPools ∧
        Inv c pool (⟨name, fd, ptr⟩ :: s.pool.bufferPools) (⟨name, fd, ptr⟩ :: s.pool.bufferPools) held content unmarked ∧
        Inv.Kept s.pool pool := by
  unfold step at hs
  simp only at hs
  split at hs
  · next hfd =>
    have hfd' : ∀ bp ∈ s.pool.bufferPools, bp.fileDesc ≠ fd := by
      intro bp hbp
      simpa using List.all_eq_true.mp hfd bp hbp
    by_cases hopen : s.pool.bufferPools.any (fun bp => bp.fileName = name) = true
    · have hsame : s.pool.openFile name fd = .ok (.bufferpoolOpen, none, s.pool) := by
        unfold BufferPoolManager.openFile
        rw [if_pos hopen]
      rw [hsame] at hs
      exact Or.inl (Option.some.inj hs).symm
    · have hname : ∀ bp ∈ s.pool.bufferPools, bp.fileName ≠ name := by
        intro bp hbp heq
        exact hopen (List.any_eq_true.mpr ⟨bp, hbp, decide_eq_true heq⟩)
      rcases Inv.openFile h rfl hname hfd' with ⟨ptr, pool, heq, hinv, hpools, hkept⟩ | ⟨hspin, -⟩
      · rw [heq] at hs
        exact Or.inr ⟨hfd', ptr, pool, (Option.some.inj hs).symm, hpools, hinv, hkept⟩
      · rw [hspin] at hs
        cases hs
  · cases hs

theorem step_openFile {name : FileName} {fd : FileDesc} (h : s.Ok c) (hs : s.step (.openFile name fd) = some s') :
    s'.Ok c ∧ Inv.Kept s.pool s'.pool := by
  rcases openFile_cases h hs with rfl | ⟨-, ptr, pool, rfl, hpools, hinv, hkept⟩
  · exact ⟨h, fun node hnode _ => hnode⟩
  · exact ⟨hinv.ofPools hpools, hkept⟩

/-- The frame that a new page gets first is clean. -/
def FrontClean (s : Client) : Prop := ∀ ptr, s.pool.frees.head? = some ptr → (s.pool.memory ptr).dirty = false

theorem Ok.frontClean (h : s.Ok c) (hclean : c.clean) : s.FrontClean :=
  fun ptr hptr => h.coherent.frees_clean hclean ptr (List.mem_of_mem_head? hptr)

theorem step_getThisPage (h : s.Ok c) (hnum : c.all) (hclean : p < (s.pool.files bp.fileName).size ∨ s.FrontClean)
    (hs : s.step (.getThisPage bp p) = some s') : s'.Ok c ∧ Inv.Kept s.pool s'.pool := by
  unfold step at hs
  simp only at hs
  split at hs
  · next hbp =>
    rcases Inv.getThisPage h rfl hbp (Or.inl hnum) hclean with
      ⟨ptr, pool, heq, hinv, -, hkept, hpools⟩ | ⟨-, pool, heq, hinv, hkept, hpools⟩ | ⟨hspin, -⟩
    · rw [heq] at hs
      obtain rfl := Option.some.inj hs
      exact ⟨hinv.ofPools hpools, hkept⟩
    · rw [heq] at hs
      obtain rfl := Option.some.inj hs
      exact ⟨hinv.ofPools hpools, hkept⟩
    · rw [hspin] at hs
      cases hs
  · cases hs

theorem step_allocatePage (h : s.Ok c) (hs : s.step (.allocatePage bp) = some s') : s'.Ok c ∧ Inv.Kept s.pool s'.pool := by
  unfold step at hs
  simp only at hs
  split at hs
  · next hbp =>
    rcases Inv.allocatePage h rfl hbp with
      ⟨ptr, pool, heq, hinv, -, -, hkept, hpools⟩ | ⟨heq, -⟩ | ⟨hspin, -⟩
    · rw [heq] at hs
      obtain rfl := Option.some.inj hs
      exact ⟨hinv.ofPools hpools, hkept⟩
    · rw [heq] at hs
      obtain rfl := Option.some.inj hs
      exact ⟨h, fun node hnode _ => hnode⟩
    · rw [hspin] at hs
      cases hs
  · cases hs

theorem step_disposePage (h : s.Ok c) (hclean : ¬c.clean) (hs : s.step (.disposePage bp p) = some s') :
    s'.Ok c ∧ Inv.Kept s.pool s'.pool := by
  unfold step at hs
  simp only at hs
  split at hs
  · next hguard =>
    obtain ⟨hbp, hdisposable⟩ := hguard
    obtain ⟨hmax, hbit, hpin⟩ := disposable_iff.mp hdisposable
    rcases Inv.disposePage h hbp hclean hmax hbit (pinCount_eq_zero hpin) with heq | ⟨pool, heq, hinv, hkept, hpools⟩
    · rw [heq] at hs
      obtain rfl := Option.some.inj hs
      exact ⟨h, fun node hnode _ => hnode⟩
    · rw [heq] at hs
      obtain rfl := Option.some.inj hs
      exact ⟨hinv.ofPools hpools, hkept⟩
  · cases hs

theorem step_unpinPage (h : s.Ok c) (hs : s.step (.unpinPage ptr) = some s') : s'.Ok c ∧ Inv.Kept s.pool s'.pool := by
  unfold step at hs
  simp only at hs
  split at hs
  · next hguard =>
    rw [Inv.unpin_eq h hguard.1] at hs
    obtain rfl := Option.some.inj hs
    exact ⟨Inv.unpin h hguard.1 hguard.2, fun node hnode _ => hnode⟩
  · cases hs

theorem step_purgeFrames {count : ℕ} (h : s.Ok c) (hs : s.step (.purgeFrames bp count) = some s') :
    s'.Ok c ∧ Inv.Kept s.pool s'.pool := by
  unfold step at hs
  simp only at hs
  split at hs
  · next hbp =>
    obtain ⟨n, pool, heq, hinv, hev, -⟩ := Inv.purgeFrames h rfl (Or.inl hbp) count
    rw [heq] at hs
    obtain rfl := Option.some.inj hs
    exact ⟨hinv.ofPools hev.pools, Inv.kept_of_evicts hev⟩
  · cases hs

theorem step_purgePage (h : s.Ok c) (hpin : s.pinCount ⟨bp.fileDesc, p⟩ = 0) (hs : s.step (.purgePage bp p) = some s') :
    s'.Ok c ∧ Evicts s.pool s'.pool (fun q => (s.pool.memory q).pinCount = 0) := by
  unfold step at hs
  simp only at hs
  split at hs
  · next hbp =>
    obtain ⟨pool, heq, hinv, hev⟩ := Inv.purgePage h hbp (pinCount_eq_zero hpin)
    rw [heq] at hs
    obtain rfl := Option.some.inj hs
    exact ⟨hinv.ofPools hev.pools, hev⟩
  · cases hs

theorem step_checkAllPagesUnpinned (h : s.Ok c) (hs : s.step (.checkAllPagesUnpinned bp) = some s') : s' = s := by
  unfold step at hs
  simp only at hs
  split at hs
  · rw [Framed.checkAllPagesUnpinned h.framed] at hs
    exact (Option.some.inj hs).symm
  · cases hs

theorem step_closeFile (hall : c.all) (h : s.Ok c)
    (hheld : ∀ q ptr, (⟨bp.fileDesc, q⟩, ptr) ∈ s.pool.frames → s.held ptr = 0) (hs : s.step (.closeFile bp) = some s') :
    s'.Ok c ∧ (∀ q ptr, (⟨bp.fileDesc, q⟩, ptr) ∉ s'.pool.frames) ∧
      (∀ node ∈ s'.pool.frames, node ∈ s.pool.frames ∧ s'.pool.memory node.2 = s.pool.memory node.2) := by
  unfold step at hs
  simp only at hs
  split at hs
  · next hbp =>
    obtain ⟨pool, held', heq, hinv, hpools, -, hsame, hgone, hev⟩ :=
      Inv.closeFile h rfl hbp fun q ptr hmem _ => hheld q ptr hmem
    rw [heq] at hs
    obtain rfl := Option.some.inj hs
    refine ⟨?_, fun q ptr hmem => hgone q ptr hmem (Or.inl hall), fun node hnode => ?_⟩
    · exact hsame hall ▸ hinv.ofPools hpools
    · have hold := hev.frames node hnode
      refine ⟨hold, hev.memory node.2 fun hin => ?_⟩
      obtain ⟨q, hmem⟩ := BufferPoolManager.mem_findList.mp hin
      have hkey := h.framed.key_unique hmem hold
      refine hgone q node.2 ?_ (Or.inl hall)
      rw [hkey]
      exact hnode
  · cases hs

end Client

/-! ## Before the first call -/

/-- A file as the pool leaves it: its header is in order and every page carries its own number. -/
structure File.Ok (file : File) : Prop where
  header : BPFileHeader.Ok (file.pages bpHeaderPage).data
  extent : BPFileHeader.pageCount (file.pages bpHeaderPage).data ≤ file.size
  numbered : ∀ p, p < file.size → (file.pages p).pageNum = p

theorem File.ok_created : File.created.Ok := by
  have hpage : File.created.pages bpHeaderPage = { Page.zero with data := File.createdHeader } := by
    unfold File.created
    rw [File.write_pages]
    exact Function.update_self _ _ _
  have hsize : File.created.size = 1 := rfl
  refine ⟨?_, ?_, ?_⟩
  · rw [hpage]
    exact BPFileHeader.ok_created
  · rw [hpage, hsize]
    have hcount : BPFileHeader.pageCount File.createdHeader = 1 := by
      simp only [File.createdHeader, BPFileHeader.pageCount_setAllocated]
      exact BPFileHeader.pageCount_setPageCount (by norm_num) (by norm_num)
    rw [hcount]
    norm_num
  · intro p hp
    rw [hsize] at hp
    have hzero : p = bpHeaderPage := Nat.lt_one_iff.mp hp
    rw [hzero, hpage]
    rfl

namespace Client

theorem ok_init (c : Scope) (n : ℕ) {files : FileName → File} (hfiles : ∀ name, (files name).Ok) : (init n files).Ok c where
  framed := {
    ident := fun id ptr hmem => absurd hmem LruCache.mem_empty
    frees_nodup := List.nodup_range
    frees_out := fun ptr _ id => LruCache.mem_empty
    frees_pin := fun ptr _ => rfl
    pins := fun id ptr hmem => absurd hmem LruCache.mem_empty
    held_in := fun ptr hptr => absurd hptr (lt_irrefl 0)
    hdr := fun bp hbp => absurd hbp List.not_mem_nil }
  coherent := {
    fds := List.nodup_nil
    names := List.nodup_nil
    frees_clean := fun _ ptr _ => rfl
    owner := fun id ptr hmem => absurd hmem LruCache.mem_empty
    cached := fun bp hbp => absurd hbp List.not_mem_nil
    stored := fun name p _ _ _ => rfl
    numbered := fun name p hp _ => (hfiles name).numbered p hp
    header := fun name => (hfiles name).header
    extent := fun name => (hfiles name).extent }
  holder := fun ptr hptr => by cases hptr

/-- A property that every allowed step keeps holds after every run of allowed steps. -/
theorem run_induction {P : Client → Prop} {allowed : Client → Op → Prop}
    (hstep : ∀ s op s', P s → allowed s op → s.step op = some s' → P s') {ops : List Op} {s s' : Client} (h : P s)
    (hallowed : ∀ before op after, ops = before ++ op :: after → ∀ t, run before s = some t → allowed t op)
    (hrun : run ops s = some s') : P s' := by
  induction ops generalizing s with
  | nil => exact Option.some.inj hrun ▸ h
  | cons op ops ih =>
    obtain ⟨t, ht, hrest⟩ := Option.bind_eq_some_iff.mp hrun
    apply ih (hstep s op t h (hallowed [] op ops rfl s rfl) ht) _ hrest
    intro before op' after heq u hu
    apply hallowed (op :: before) op' after (by rw [heq]; rfl) u
    show (s.step op).bind (run before) = some u
    rw [ht]
    exact hu

end Client

end Landbase.Buffer
