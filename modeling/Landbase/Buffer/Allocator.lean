import Landbase.Buffer.Client

/-! # The page allocator

Pages are allocated and disposed of, on any number of files, and files are closed and opened again. Only the header pages
are followed: a file may be closed while its callers hold pages of it, and the frames that are left behind then say
nothing about the file that gets the descriptor next.
-/

namespace Landbase.Buffer
open Landbase.Lib
set_option autoImplicit false

/-- The calls that change which pages are allocated, and those that open and close the file. -/
def Op.allocating : Op → Bool
  | .openFile _ _ | .closeFile _ | .allocatePage _ | .disposePage _ _ | .unpinPage _ => true
  | _ => false

namespace Inv

theorem allocated_nextPage {header : Memory} (h : BPFileHeader.Ok header) (hmax : nextPage header < BPFileHeader.maxPageNum) :
    BPFileHeader.allocated header (nextPage header) = false := by
  unfold nextPage at hmax ⊢
  cases hfree : BPFileHeader.freePage header with
  | some i =>
    show BPFileHeader.allocated header i = false
    exact (BPFileHeader.freePage_spec hfree).2
  | none =>
    rw [hfree] at hmax
    rw [Bool.eq_false_iff]
    intro hbit
    have hlt := h.below _ hmax hbit
    have hcast : ((nextPageFound header none : ℕ) : ℤ) = BPFileHeader.pageCount header :=
      Int.toNat_of_nonneg (le_trans (by norm_num) h.pos)
    exact absurd hcast (ne_of_lt hlt)

end Inv

namespace Client

variable {s s' : Client} {op : Op}

/-- Only the header pages are followed. -/
def headers : Scope := ⟨False, False⟩

/-- The invariant. `held'` counts the callers' pins and those that a `close_file` left behind; no pin but the pool's own
is on a header. -/
structure Allocating (s : Client) (held' : Ptr → ℕ) : Prop where
  inv : Inv headers s.pool s.pool.bufferPools s.pool.bufferPools held' s.content (fun q => s.unmarked q = true)
  held : ∀ q, s.held q ≤ held' q
  hdr : ∀ bp ∈ s.pool.bufferPools, held' bp.hdrFrame = 0

theorem Allocating.ne_hdrFrame {c : Scope} {pool : BufferPoolManager} {pools : List DiskBufferPool} {held : Ptr → ℕ}
    {content : Contents} {unmarked : Ptr → Prop} (h : Inv c pool pools pools held content unmarked) {id : FrameId} {ptr : Ptr}
    (hmem : (id, ptr) ∈ pool.frames) (hid : id.pageNum ≠ bpHeaderPage) : ∀ bp ∈ pools, bp.hdrFrame ≠ ptr := by
  intro bp hbp heq
  have hhdr := h.framed.hdr bp hbp
  rw [heq] at hhdr
  exact hid (congrArg FrameId.pageNum (h.framed.key_unique hmem hhdr))

theorem Allocating.openFile {held' : Ptr → ℕ} (h : s.Allocating held') {name : FileName} {fd : FileDesc}
    (hs : s.step (.openFile name fd) = some s') : s'.Allocating held' := by
  rcases openFile_cases h.inv hs with rfl | ⟨hfd, ptr, pool, rfl, hpools, hinv, hkept⟩
  · exact h
  · refine ⟨hinv.ofPools hpools, h.held, fun bp hbp => ?_⟩
    have hbp' : bp ∈ (⟨name, fd, ptr⟩ : DiskBufferPool) :: s.pool.bufferPools := hpools ▸ hbp
    rcases List.mem_cons.mp hbp' with rfl | hold
    · -- a frame that somebody held would have stayed under its old key
      by_contra hpos
      have hheld : 0 < held' ptr := Nat.pos_of_ne_zero hpos
      obtain ⟨id, hid⟩ := h.inv.framed.held_in ptr hheld
      have hpins := h.inv.framed.pins id ptr hid
      have hstay := hkept (id, ptr) hid (by show 0 < (s.pool.memory ptr).pinCount; omega)
      have hkey := hinv.framed.key_unique hstay (hinv.framed.hdr _ List.mem_cons_self)
      rw [hkey] at hid
      obtain ⟨bp', hbp', heq'⟩ := h.inv.coherent.owner _ ptr hid (Coherent.tracked_header headers)
      exact hfd bp' hbp' heq'
    · exact h.hdr bp hold

theorem Allocating.closeFile {held' : Ptr → ℕ} (h : s.Allocating held') {bp : DiskBufferPool}
    (hs : s.step (.closeFile bp) = some s') : ∃ held'', s'.Allocating held'' := by
  unfold step at hs
  simp only at hs
  split at hs
  · next hbp =>
    have hheader : ∀ p ptr, (⟨bp.fileDesc, p⟩, ptr) ∈ s.pool.frames → headers.Tracked p → held' ptr = 0 := by
      intro p ptr hmem htr
      rw [htr.resolve_left id] at hmem
      rw [LruCache.eq_of_mem hmem (h.inv.framed.hdr bp hbp)]
      exact h.hdr bp hbp
    obtain ⟨pool, held'', heq, hinv, hpools, hle, -, -, hev⟩ := Inv.closeFile h.inv rfl hbp hheader
    rw [heq] at hs
    obtain rfl := Option.some.inj hs
    refine ⟨held'', ?_, fun q => le_trans (h.held q) (hle q), ?_⟩
    · exact hinv.ofPools hpools
    · intro bp' hbp'
      have hbp'' : bp' ∈ s.pool.bufferPools.filter (· ≠ bp) := hpools ▸ hbp'
      have hold := (List.mem_filter.mp hbp'').1
      have hne : bp' ≠ bp := by simpa using (List.mem_filter.mp hbp'').2
      -- the header of another file was not touched, so its pins are what they were
      have hout : bp'.hdrFrame ∉ (s.pool.findList bp.fileDesc).1 := by
        intro hin
        obtain ⟨p, hmem⟩ := BufferPoolManager.mem_findList.mp hin
        have hkey := h.inv.framed.key_unique hmem (h.inv.framed.hdr bp' hold)
        exact hne (h.inv.coherent.pool_of_fd hold hbp (congrArg FrameId.fileDesc hkey).symm)
      have hmemory : pool.memory bp'.hdrFrame = s.pool.memory bp'.hdrFrame := hev.memory bp'.hdrFrame hout
      have hpins := Inv.hdr_pinCount h.inv hold
      have hpins' := Inv.hdr_pinCount hinv hbp''
      rw [hmemory] at hpins'
      have hzero := h.hdr bp' hold
      omega
  · cases hs

theorem Allocating.allocatePage {held' : Ptr → ℕ} (h : s.Allocating held') {bp : DiskBufferPool}
    (hs : s.step (.allocatePage bp) = some s') : ∃ held'', s'.Allocating held'' := by
  unfold step at hs
  simp only at hs
  split at hs
  · next hbp =>
    rcases Inv.allocatePage h.inv rfl hbp with
      ⟨ptr, pool, heq, hinv, hmem, hmax, -, hpools⟩ | ⟨heq, -⟩ | ⟨hspin, -⟩
    · rw [heq] at hs
      obtain rfl := Option.some.inj hs
      have hok : BPFileHeader.Ok (s.pool.header bp) := by
        rw [show s.pool.header bp = _ from congrArg Page.data (h.inv.header_eq hbp)]
        exact h.inv.coherent.header bp.fileName
      have hne : Inv.nextPage (s.pool.header bp) ≠ bpHeaderPage := by
        intro hzero
        have hbit := Inv.allocated_nextPage hok hmax
        rw [hzero, hok.self] at hbit
        cases hbit
      have hother := Allocating.ne_hdrFrame hinv hmem hne
      refine ⟨Function.update held' ptr (held' ptr + 1), ?_, ?_, ?_⟩
      · exact hinv.ofPools hpools
      · intro q
        show Function.update s.held ptr (s.held ptr + 1) q ≤ _
        by_cases hq : q = ptr
        · rw [hq, Function.update_self, Function.update_self]
          exact Nat.succ_le_succ (h.held ptr)
        · rw [Function.update_of_ne hq, Function.update_of_ne hq]
          exact h.held q
      · intro bp' hbp'
        have hold : bp' ∈ s.pool.bufferPools := hpools ▸ hbp'
        rw [Function.update_of_ne (hother bp' hold)]
        exact h.hdr bp' hold
    · rw [heq] at hs
      obtain rfl := Option.some.inj hs
      exact ⟨held', h⟩
    · rw [hspin] at hs
      cases hs
  · cases hs

theorem Allocating.disposePage {held' : Ptr → ℕ} (h : s.Allocating held') {bp : DiskBufferPool} {p : PageNum}
    (hs : s.step (.disposePage bp p) = some s') : s'.Allocating held' := by
  unfold step at hs
  simp only at hs
  split at hs
  · next hguard =>
    obtain ⟨hbp, hdisposable⟩ := hguard
    obtain ⟨hmax, hbit, hpin⟩ := disposable_iff.mp hdisposable
    rcases Inv.disposePage h.inv hbp id hmax hbit (pinCount_eq_zero hpin) with heq | ⟨pool, heq, hinv, -, hpools⟩
    · rw [heq] at hs
      obtain rfl := Option.some.inj hs
      exact ⟨h.inv, h.held, h.hdr⟩
    · rw [heq] at hs
      obtain rfl := Option.some.inj hs
      exact ⟨hinv.ofPools hpools, h.held, fun bp' hbp' => h.hdr bp' (hpools ▸ hbp')⟩
  · cases hs

theorem Allocating.unpinPage {held' : Ptr → ℕ} (h : s.Allocating held') {ptr : Ptr}
    (hs : s.step (.unpinPage ptr) = some s') : ∃ held'', s'.Allocating held'' := by
  unfold step at hs
  simp only at hs
  split at hs
  · next hguard =>
    have hpos : 0 < held' ptr := lt_of_lt_of_le hguard.1 (h.held ptr)
    rw [Inv.unpin_eq h.inv hpos] at hs
    obtain rfl := Option.some.inj hs
    refine ⟨_, Inv.unpin h.inv hpos fun hu => lt_of_lt_of_le (hguard.2 hu) (h.held ptr), ?_, ?_⟩
    · intro q
      show Function.update s.held ptr (s.held ptr - 1) q ≤ _
      by_cases hq : q = ptr
      · rw [hq, Function.update_self, Function.update_self]
        exact Nat.sub_le_sub_right (h.held ptr) 1
      · rw [Function.update_of_ne hq, Function.update_of_ne hq]
        exact h.held q
    · intro bp hbp
      have hzero := h.hdr bp hbp
      have hne : bp.hdrFrame ≠ ptr := by
        intro heq
        rw [heq] at hzero
        omega
      rw [Function.update_of_ne hne]
      exact hzero
  · cases hs

theorem step_allocating {held' : Ptr → ℕ} (h : s.Allocating held') (hop : op.allocating = true)
    (hs : s.step op = some s') : ∃ held'', s'.Allocating held'' := by
  cases op with
  | openFile name fd => exact ⟨held', h.openFile hs⟩
  | closeFile bp => exact h.closeFile hs
  | allocatePage bp => exact h.allocatePage hs
  | disposePage bp p => exact ⟨held', h.disposePage hs⟩
  | unpinPage ptr => exact h.unpinPage hs
  | getThisPage bp p => cases hop
  | write bp p ptr data => cases hop
  | markDirty ptr => cases hop
  | flushPage bp p ptr => cases hop
  | purgeFrames bp count => cases hop
  | purgePage bp p => cases hop
  | purgeAllPages bp => cases hop
  | checkAllPagesUnpinned bp => cases hop
  | flushAllPages bp => cases hop

/-- After every run of these calls, the header of every open file counts its bits, has none from the page count on, and
its page count is within the bitmap; and the page that the next `allocate_page` hands out was not allocated. -/
theorem allocatePage_fresh {n : ℕ} {files : FileName → File} {ops : List Op} {s : Client}
    (hfiles : ∀ name, (files name).Ok) (hops : ∀ op ∈ ops, op.allocating = true)
    (hrun : run ops (init n files) = some s) :
    ∀ bp ∈ s.pool.bufferPools,
      BPFileHeader.allocatedPages (s.pool.header bp) = (BPFileHeader.allocatedSet (s.pool.header bp)).card ∧
      (∀ p, p < BPFileHeader.maxPageNum → BPFileHeader.allocated (s.pool.header bp) p = true →
        (p : ℤ) < BPFileHeader.pageCount (s.pool.header bp)) ∧
      BPFileHeader.pageCount (s.pool.header bp) ≤ BPFileHeader.maxPageNum ∧
      ∀ rc ptr pool, s.pool.allocatePage bp = .ok (rc, some ptr, pool) →
        rc = .success ∧ (pool.memory ptr).frameId.fileDesc = bp.fileDesc ∧
        (pool.memory ptr).frameId.pageNum < BPFileHeader.maxPageNum ∧
        BPFileHeader.allocated (s.pool.header bp) (pool.memory ptr).frameId.pageNum = false := by
  have h : ∃ held', s.Allocating held' := by
    refine run_induction (P := fun t => ∃ held', t.Allocating held')
      (fun t op t' ht (hop : op.allocating = true) hs => ht.elim fun _ ht => step_allocating ht hop hs)
      ⟨fun _ => 0, ok_init headers n hfiles, fun _ => le_refl _, fun bp hbp => absurd hbp List.not_mem_nil⟩
      (fun before op after heq _ _ => ?_) hrun
    apply hops op
    rw [heq]
    exact List.mem_append_right _ List.mem_cons_self
  obtain ⟨held', h⟩ := h
  intro bp hbp
  have hok : BPFileHeader.Ok (s.pool.header bp) := by
    rw [show s.pool.header bp = _ from congrArg Page.data (h.inv.header_eq hbp)]
    exact h.inv.coherent.header bp.fileName
  refine ⟨hok.count, hok.below, hok.bound, ?_⟩
  intro rc ptr pool hres
  rcases Inv.allocatePage h.inv rfl hbp with
    ⟨ptr', pool', heq, hinv, hmem, hmax, -, -⟩ | ⟨heq, -⟩ | ⟨hspin, -⟩
  · rw [heq] at hres
    cases hres
    have hid := hinv.framed.ident _ _ hmem
    rw [hid]
    exact ⟨rfl, rfl, hmax, Inv.allocated_nextPage hok hmax⟩
  · rw [heq] at hres
    cases hres
  · rw [hspin] at hres
    cases hres

/-- A page is allocated, given back, disposed of, and the file is closed and opened again: the page is handed out anew. -/
theorem allocatePage_fresh_reopened :
    ∃ s, run [.openFile "a" 3, .allocatePage ⟨"a", 3, 0⟩, .unpinPage 1, .disposePage ⟨"a", 3, 0⟩ 1, .closeFile ⟨"a", 3, 0⟩,
        .openFile "a" 3] (init 2 fun _ => File.created) = some s ∧
      ∃ bp ∈ s.pool.bufferPools,
        BPFileHeader.allocatedPages (s.pool.header bp) = (BPFileHeader.allocatedSet (s.pool.header bp)).card ∧
        ∃ rc ptr pool, s.pool.allocatePage bp = .ok (rc, some ptr, pool) ∧ (pool.memory ptr).frameId.pageNum = 1 ∧
          BPFileHeader.allocated (s.pool.header bp) (pool.memory ptr).frameId.pageNum = false := by
  have hsome : ((run [.openFile "a" 3, .allocatePage ⟨"a", 3, 0⟩, .unpinPage 1, .disposePage ⟨"a", 3, 0⟩ 1,
      .closeFile ⟨"a", 3, 0⟩, .openFile "a" 3] (init 2 fun _ => File.created)).any fun s =>
        s.pool.bufferPools.any fun bp => (s.pool.allocatePage bp).toOption.any fun r => r.2.1.any fun ptr =>
          (r.2.2.memory ptr).frameId.pageNum = 1) = true := by
    decide +kernel
  simp only [Option.any_eq_true, decide_eq_true_eq, List.any_eq_true] at hsome
  obtain ⟨s, hrun, bp, hbp, r, hr, ptr, hptr, hpage⟩ := hsome
  have hops : ∀ op ∈ [Op.openFile "a" 3, .allocatePage ⟨"a", 3, 0⟩, .unpinPage 1, .disposePage ⟨"a", 3, 0⟩ 1,
      .closeFile ⟨"a", 3, 0⟩, .openFile "a" 3], op.allocating = true := by
    intro op hop
    simp only [List.mem_cons, List.not_mem_nil, or_false] at hop
    rcases hop with rfl | rfl | rfl | rfl | rfl | rfl <;> rfl
  obtain ⟨hcount, -, -, hfresh⟩ := allocatePage_fresh (fun _ => File.ok_created) hops hrun bp hbp
  cases hres : s.pool.allocatePage bp with
  | error stop =>
    rw [hres] at hr
    cases hr
  | ok r' =>
    rw [hres] at hr
    obtain rfl : r' = r := Option.some.inj hr
    have hok : s.pool.allocatePage bp = .ok (r'.1, some ptr, r'.2.2) := by
      rw [hres]
      exact congrArg Except.ok (Prod.ext rfl (Prod.ext hptr rfl))
    exact ⟨s, hrun, bp, hbp, hcount, r'.1, ptr, r'.2.2, hok, hpage, (hfresh r'.1 ptr r'.2.2 hok).2.2.2⟩

end Client

end Landbase.Buffer
