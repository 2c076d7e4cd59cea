import Landbase.Buffer.Client

/-! # A page is what was last written to it

Callers get pages, allocate pages, write through the frames they hold and mark them, give their pins back and flush, on
any number of open files, and frames are evicted at any time.
-/

namespace Landbase.Buffer
open Landbase.Lib
set_option autoImplicit false

/-- The calls that read and write pages of open files, and evictions. -/
def Op.paging : Op → Bool
  | .openFile _ _ | .getThisPage _ _ | .allocatePage _ | .unpinPage _ | .write _ _ _ _ | .markDirty _ | .flushPage _ _ _
  | .purgeFrames _ _ => true
  | _ => false

namespace Client

/-- All pages are followed, and a free frame is clean, because no page is disposed of. -/
def paged : Scope := ⟨True, True⟩

theorem step_paging {s s' : Client} {op : Op} (h : s.Ok paged) (hop : op.paging = true) (hs : s.step op = some s') :
    s'.Ok paged ∧ Inv.Kept s.pool s'.pool := by
  have hkept : ∀ pool : BufferPoolManager, pool.frames = s.pool.frames → Inv.Kept s.pool pool :=
    fun pool heq node hnode _ => heq.symm ▸ hnode
  cases op with
  | openFile fileName fd => exact step_openFile h hs
  | getThisPage bp p => exact step_getThisPage h trivial (Or.inr (h.frontClean trivial)) hs
  | allocatePage bp => exact step_allocatePage h hs
  | unpinPage ptr => exact step_unpinPage h hs
  | purgeFrames bp count => exact step_purgeFrames h hs
  | write bp p ptr data =>
    refine ⟨ok_write trivial h hs, ?_⟩
    unfold step at hs
    simp only at hs
    split at hs
    · obtain rfl := Option.some.inj hs
      exact hkept _ rfl
    · cases hs
  | markDirty ptr =>
    refine ⟨ok_markDirty trivial h hs, ?_⟩
    unfold step at hs
    simp only at hs
    split at hs
    · obtain rfl := Option.some.inj hs
      exact hkept _ rfl
    · cases hs
  | flushPage bp p ptr =>
    refine ⟨ok_flushPage h hs, ?_⟩
    unfold step at hs
    simp only at hs
    split at hs
    · obtain rfl := Option.some.inj hs
      exact hkept _ rfl
    · cases hs
  | closeFile bp => cases hop
  | disposePage bp p => cases hop
  | purgePage bp p => cases hop
  | purgeAllPages bp => cases hop
  | checkAllPagesUnpinned bp => cases hop
  | flushAllPages bp => cases hop

theorem run_paging {n : ℕ} {files : FileName → File} {ops : List Op} {s : Client} (hfiles : ∀ name, (files name).Ok)
    (hops : ∀ op ∈ ops, op.paging = true) (hrun : run ops (init n files) = some s) : s.Ok paged := by
  apply run_induction (fun s op s' h hop hs => (step_paging h hop hs).1) (ok_init paged n hfiles) _ hrun
  intro before op after heq t _
  exact hops op (by rw [heq]; exact List.mem_append_right _ List.mem_cons_self)

/-- On any files, with any number of frames and after any calls: a step evicts no frame that is pinned; no page has two
frames; and a call for a page gives what was last written to it, unless the page is behind the end of the file or every
frame is pinned. -/
theorem getThisPage_coherent {n : ℕ} {files : FileName → File} {ops : List Op} {s : Client}
    (hfiles : ∀ name, (files name).Ok) (hops : ∀ op ∈ ops, op.paging = true) (hrun : run ops (init n files) = some s) :
    (∀ op s', op.paging = true → s.step op = some s' →
        ∀ node ∈ s.pool.frames, 0 < (s.pool.memory node.2).pinCount → node ∈ s'.pool.frames) ∧
      (∀ id ptr, (id, ptr) ∈ s.pool.frames → (s.pool.memory ptr).frameId = id) ∧
      (∀ id ptr ptr', (id, ptr) ∈ s.pool.frames → (id, ptr') ∈ s.pool.frames → ptr = ptr') ∧
      ∀ bp ∈ s.pool.bufferPools, ∀ p,
        (∃ ptr pool, s.pool.getThisPage bp p = .ok (.success, some ptr, pool) ∧
            (pool.memory ptr).page = s.content bp.fileName p) ∨
          (¬p < (s.pool.files bp.fileName).size ∧ ∃ pool, s.pool.getThisPage bp p = .ok (.ioerrRead, none, pool)) ∨
          (s.pool.getThisPage bp p = .error .spinning ∧ s.pool.frees = [] ∧
            ∀ id ptr, (id, ptr) ∈ s.pool.frames → 0 < (s.pool.memory ptr).pinCount) := by
  have h := run_paging hfiles hops hrun
  refine ⟨fun op s' hop hs => (step_paging h hop hs).2, h.framed.ident, fun _ _ _ => LruCache.eq_of_mem, ?_⟩
  intro bp hbp p
  rcases Inv.getThisPage h rfl hbp (Or.inl trivial) (Or.inr (h.frontClean trivial)) with
    ⟨ptr, pool, heq, hinv, hmem, -⟩ | ⟨hsize, pool, heq, -⟩ | ⟨hspin, hempty, -, hpins⟩
  · exact Or.inl ⟨ptr, pool, heq, (hinv.coherent.cached bp hbp p ptr hmem (Or.inl trivial)).1⟩
  · exact Or.inr (Or.inl ⟨hsize, pool, heq⟩)
  · exact Or.inr (Or.inr ⟨hspin, hempty, hpins trivial⟩)

/-- Three frames for two files: page 1 of `a` is written, evicted for a page of `b`, and asked for again. -/
theorem getThisPage_coherent_evicted : ∃ s, run [.openFile "a" 3, .openFile "b" 4, .allocatePage ⟨"a", 3, 0⟩,
      .write ⟨"a", 3, 0⟩ 1 2 (fun _ => 7), .markDirty 2, .unpinPage 2, .allocatePage ⟨"b", 4, 1⟩, .unpinPage 2]
      (init 3 fun _ => File.created) = some s ∧
    ∃ ptr pool, s.pool.getThisPage ⟨"a", 3, 0⟩ 1 = .ok (.success, some ptr, pool) ∧ (pool.memory ptr).page.data 0 = 7 := by
  have hsome : ((run [.openFile "a" 3, .openFile "b" 4, .allocatePage ⟨"a", 3, 0⟩,
      .write ⟨"a", 3, 0⟩ 1 2 (fun _ => 7), .markDirty 2, .unpinPage 2, .allocatePage ⟨"b", 4, 1⟩, .unpinPage 2]
      (init 3 fun _ => File.created)).map fun s => (s.pool.bufferPools.contains ⟨"a", 3, 0⟩,
        (s.content "a" 1).data 0, (s.pool.files "a").size, (s.pool.memory 2).pinCount,
        s.pool.frames.find ⟨4, 1⟩)) = some (true, 7, 2, 0, some 2) := by decide +kernel
  obtain ⟨s, hrun, hs⟩ := Option.map_eq_some_iff.mp hsome
  obtain ⟨hbp, hdata, hsize, hpin, hfind⟩ :
      s.pool.bufferPools.contains ⟨"a", 3, 0⟩ = true ∧ (s.content "a" 1).data 0 = 7 ∧ (s.pool.files "a").size = 2 ∧
        (s.pool.memory 2).pinCount = 0 ∧ s.pool.frames.find ⟨4, 1⟩ = some 2 := by
    simpa only [Prod.mk.injEq] using hs
  obtain ⟨-, -, -, hget⟩ := getThisPage_coherent (fun _ => File.ok_created) (by decide) hrun
  refine ⟨s, hrun, ?_⟩
  rcases hget ⟨"a", 3, 0⟩ (List.contains_iff_mem.mp hbp) 1 with ⟨ptr, pool, heq, hpage⟩ | ⟨hout, -⟩ | ⟨-, -, hpins⟩
  · exact ⟨ptr, pool, heq, by rw [hpage, hdata]⟩
  · exact absurd (by rw [hsize]; decide) hout
  · have := hpins ⟨4, 1⟩ 2 (LruCache.find_eq_some_iff.mp hfind)
    omega

end Client

end Landbase.Buffer
