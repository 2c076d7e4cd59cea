import Landbase.Buffer.Client

/-! # Files do not see each other

`find_list` pins every frame of a file. `check_all_pages_unpinned` gives the pins back and `purge_frame` frees a frame that
has no other pin; but `flush_all_pages` gives back none of them, and `purge_frame` keeps its pin on a frame that somebody
else pins, which the header frame of an open file always is. A frame that is left behind when its file is closed answers
for the next file that gets the descriptor.
-/

namespace Landbase.Buffer
open Landbase.Lib
set_option autoImplicit false

namespace Client

/-- The calls that keep the pins: no `flush_all_pages` and no `purge_all_pages`; `purge_page` only of a page that nobody
pins; a file is closed when its callers have given back their pins; and a page is asked for that the file has, or else
the frame at the front of the free list is clean. -/
def Keeps (s : Client) : Op → Prop
  | .flushAllPages _ | .purgeAllPages _ => False
  | .purgePage bp p => s.pinCount ⟨bp.fileDesc, p⟩ = 0
  | .closeFile bp => ∀ p ptr, (⟨bp.fileDesc, p⟩, ptr) ∈ s.pool.frames → s.held ptr = 0
  | .getThisPage bp p => p < (s.pool.files bp.fileName).size ∨ s.FrontClean
  | _ => True

/-- The maintenance operations. -/
def maintenance : Op → Bool
  | .flushAllPages _ | .purgePage _ _ | .purgeAllPages _ | .checkAllPagesUnpinned _ | .closeFile _ => true
  | _ => false

/-- All pages are followed; a free frame may be dirty, because a page that is disposed of is not written. -/
def followed : Scope := ⟨True, False⟩

theorem step_keeps {s s' : Client} {op : Op} (h : s.Ok followed) (hop : s.Keeps op) (hs : s.step op = some s') :
    s'.Ok followed := by
  cases op with
  | openFile fileName fd => exact (step_openFile h hs).1
  | closeFile bp => exact (step_closeFile trivial h hop hs).1
  | getThisPage bp p => exact (step_getThisPage h trivial hop hs).1
  | allocatePage bp => exact (step_allocatePage h hs).1
  | disposePage bp p => exact (step_disposePage h (fun hc => hc) hs).1
  | unpinPage ptr => exact (step_unpinPage h hs).1
  | write bp p ptr data => exact ok_write trivial h hs
  | markDirty ptr => exact ok_markDirty trivial h hs
  | flushPage bp p ptr => exact ok_flushPage h hs
  | purgeFrames bp count => exact (step_purgeFrames h hs).1
  | purgePage bp p => exact (step_purgePage h hop hs).1
  | purgeAllPages bp => exact hop.elim
  | checkAllPagesUnpinned bp => exact step_checkAllPagesUnpinned h hs ▸ h
  | flushAllPages bp => exact hop.elim

theorem step_maintenance {s s' : Client} {op : Op} (h : s.Ok followed) (hop : s.Keeps op) (hm : maintenance op = true)
    (hs : s.step op = some s') (node : FrameId × Ptr) (hnode : node ∈ s'.pool.frames) :
    node ∈ s.pool.frames ∧ (s'.pool.memory node.2).pinCount = (s.pool.memory node.2).pinCount := by
  cases op with
  | closeFile bp =>
    obtain ⟨hold, hmem⟩ := (step_closeFile trivial h hop hs).2.2 node hnode
    exact ⟨hold, by rw [hmem]⟩
  | purgePage bp p =>
    obtain ⟨hok, hev⟩ := step_purgePage h hop hs
    have hold := hev.frames node hnode
    refine ⟨hold, ?_⟩
    -- a frame that was not a victim is untouched; one that was is no longer in the cache, or has its old pins
    have hpins := h.framed.pins node.1 node.2 hold
    have hpins' := hok.framed.pins node.1 node.2 hnode
    have hheld : s'.held = s.held := by
      unfold step at hs
      simp only at hs
      split at hs
      · split at hs
        · rw [← Option.some.inj hs]
        · cases hs
      · cases hs
    rw [hpins, hpins', hheld, hev.pools]
  | checkAllPagesUnpinned bp =>
    have heq := step_checkAllPagesUnpinned h hs
    subst heq
    exact ⟨hnode, rfl⟩
  | purgeAllPages bp => exact hop.elim
  | flushAllPages bp => exact hop.elim
  | openFile fileName fd => cases hm
  | getThisPage bp p => cases hm
  | allocatePage bp => cases hm
  | disposePage bp p => cases hm
  | unpinPage ptr => cases hm
  | write bp p ptr data => cases hm
  | markDirty ptr => cases hm
  | flushPage bp p ptr => cases hm
  | purgeFrames bp count => cases hm

/-- In a run whose steps all keep the pins: a maintenance operation leaves the pins of every surviving frame as they are,
a closed file leaves no frame behind, and a page that is asked for has what was last written to it in its own file. -/
theorem maintenance_isolated {n : ℕ} {files : FileName → File} {ops : List Op} {s : Client}
    (hfiles : ∀ name, (files name).Ok)
    (hops : ∀ before op after, ops = before ++ op :: after → ∀ t, run before (init n files) = some t → t.Keeps op)
    (hrun : run ops (init n files) = some s) :
    (∀ op s', s.Keeps op → maintenance op = true → s.step op = some s' → ∀ node ∈ s'.pool.frames,
        node ∈ s.pool.frames ∧ (s'.pool.memory node.2).pinCount = (s.pool.memory node.2).pinCount) ∧
      (∀ bp s', s.Keeps (.closeFile bp) → s.step (.closeFile bp) = some s' →
        ∀ p ptr, (⟨bp.fileDesc, p⟩, ptr) ∉ s'.pool.frames) ∧
      (∀ bp ∈ s.pool.bufferPools, ∀ p ptr pool, s.Keeps (.getThisPage bp p) →
        s.pool.getThisPage bp p = .ok (.success, some ptr, pool) → (pool.memory ptr).page = s.content bp.fileName p) := by
  have h : s.Ok followed := run_induction (fun s op s' h hop hs => step_keeps h hop hs) (ok_init followed n hfiles) hops hrun
  refine ⟨fun op s' hop hm hs => step_maintenance h hop hm hs, ?_, ?_⟩
  · exact fun bp s' hop hs => (step_closeFile trivial h hop hs).2.1
  · intro bp hbp p ptr pool hop hget
    rcases Inv.getThisPage h rfl hbp (Or.inl trivial) hop with
      ⟨ptr', pool', heq, hinv, hmem, -⟩ | ⟨-, pool', heq, -⟩ | ⟨hspin, -⟩
    · rw [heq] at hget
      cases hget
      exact (hinv.coherent.cached bp hbp p ptr hmem (Or.inl trivial)).1
    · rw [heq] at hget
      cases hget
    · rw [hspin] at hget
      cases hget

/-! ## Two files under one descriptor -/

instance (s : Client) : Decidable s.FrontClean :=
  decidable_of_iff (∀ ptr ∈ s.pool.frees.head?, (s.pool.memory ptr).dirty = false) Iff.rfl

instance (s : Client) : (op : Op) → Decidable (s.Keeps op)
  | .flushAllPages _ | .purgeAllPages _ => inferInstanceAs (Decidable False)
  | .purgePage bp p => inferInstanceAs (Decidable (s.pinCount ⟨bp.fileDesc, p⟩ = 0))
  | .closeFile bp =>
    decidable_of_iff (∀ node ∈ s.pool.frames.nodes, node.1.fileDesc = bp.fileDesc → s.held node.2 = 0)
      ⟨fun h _ _ hmem => h _ hmem rfl, fun h node hnode hfd => h node.1.pageNum node.2 (hfd ▸ hnode)⟩
  | .getThisPage bp p => inferInstanceAs (Decidable (p < (s.pool.files bp.fileName).size ∨ s.FrontClean))
  | .openFile _ _ | .allocatePage _ | .disposePage _ _ | .unpinPage _ | .write _ _ _ _ | .markDirty _ | .flushPage _ _ _
  | .purgeFrames _ _ | .checkAllPagesUnpinned _ => inferInstanceAs (Decidable True)

/-- Every step of the run keeps the pins. -/
def runKeeps : List Op → Client → Bool
  | [], _ => true
  | op :: ops, s => decide (s.Keeps op) && (s.step op).all (runKeeps ops)

theorem keeps_of_runKeeps {ops : List Op} {s : Client} (h : runKeeps ops s = true) (before : List Op) (op : Op)
    (after : List Op) (hops : ops = before ++ op :: after) (t : Client) (hrun : run before s = some t) : t.Keeps op := by
  induction before generalizing ops s with
  | nil =>
    rw [hops, List.nil_append, runKeeps, Bool.and_eq_true, decide_eq_true_eq] at h
    exact Option.some.inj hrun ▸ h.1
  | cons first before ih =>
    obtain ⟨s₁, hs₁, hrest⟩ := Option.bind_eq_some_iff.mp hrun
    rw [hops, List.cons_append, runKeeps, Bool.and_eq_true, hs₁, Option.all_some] at h
    exact ih h.2 rfl hrest

/-- `b` and `a` each get a page under descriptor 3, one after the other; all pages of `b` are checked to be unpinned and the
page of `a` is purged. When `b` has the descriptor again it is checked and its page is asked for: the page is that of `b`.
Closing `b` leaves no frame of the descriptor. -/
theorem maintenance_isolated_reused :
    let b : DiskBufferPool := ⟨"b", 3, 0⟩
    let a : DiskBufferPool := ⟨"a", 3, 2⟩
    let ops := [Op.openFile "b" 3, .allocatePage b, .write b 1 1 (fun _ => 5), .markDirty 1, .unpinPage 1,
      .checkAllPagesUnpinned b, .closeFile b, .openFile "a" 3, .allocatePage a, .write a 1 3 (fun _ => 7), .markDirty 3,
      .unpinPage 3, .purgePage a 1, .closeFile a, .openFile "b" 3]
    ∃ s t u, run ops (init 4 fun _ => File.created) = some s ∧ ∃ bp ∈ s.pool.bufferPools, bp.fileName = "b" ∧ bp.fileDesc = 3 ∧
      s.step (.checkAllPagesUnpinned bp) = some t ∧
      (∀ node ∈ t.pool.frames, (t.pool.memory node.2).pinCount = (s.pool.memory node.2).pinCount) ∧
      s.step (.closeFile bp) = some u ∧ (∀ p ptr, (⟨3, p⟩, ptr) ∉ u.pool.frames) ∧
      ∃ ptr pool, s.pool.getThisPage bp 1 = .ok (.success, some ptr, pool) ∧
        (pool.memory ptr).page = s.content "b" 1 ∧ (s.content "b" 1).data 0 = 5 := by
  intro b a ops
  have hsome : ((run ops (init 4 fun _ => File.created)).any fun s => s.pool.bufferPools.any fun bp =>
      decide (bp.fileName = "b") && (decide (bp.fileDesc = 3) && (decide (s.Keeps (.closeFile bp)) &&
        (decide (1 < (s.pool.files bp.fileName).size) && (decide ((s.content "b" 1).data 0 = 5) &&
          ((s.step (.checkAllPagesUnpinned bp)).isSome && ((s.step (.closeFile bp)).isSome &&
            (s.pool.getThisPage bp 1).toOption.any fun r => decide (r.1 = .success) && r.2.1.isSome))))))) = true := by
    decide +kernel
  have hkeeps : runKeeps ops (init 4 fun _ => File.created) = true := by decide +kernel
  simp only [Option.any_eq_true, List.any_eq_true, Bool.and_eq_true, decide_eq_true_eq, Option.isSome_iff_exists] at hsome
  obtain ⟨s, hrun, bp, hbp, hname, hfd, hclose, hsize, hcontent, ⟨t, ht⟩, ⟨u, hu⟩, r, hr, hrc, ptr, hptr⟩ := hsome
  obtain ⟨hpins, hclosed, hpage⟩ := maintenance_isolated (fun _ => File.ok_created) (keeps_of_runKeeps hkeeps) hrun
  have hget : s.pool.getThisPage bp 1 = .ok (.success, some ptr, r.2.2) := by
    cases hres : s.pool.getThisPage bp 1 with
    | error stop =>
      rw [hres] at hr
      cases hr
    | ok r' =>
      rw [hres] at hr
      obtain rfl : r' = r := Option.some.inj hr
      exact congrArg Except.ok (Prod.ext hrc (Prod.ext hptr rfl))
  refine ⟨s, t, u, hrun, bp, hbp, hname, hfd, ht, fun node hnode => ?_, hu, ?_, ptr, r.2.2, hget, ?_, hcontent⟩
  · exact (hpins (.checkAllPagesUnpinned bp) t trivial rfl ht node hnode).2
  · exact hfd ▸ hclosed bp u hclose hu
  · exact hname ▸ hpage bp hbp 1 ptr r.2.2 (Or.inl hsize) hget

/-- `b` and `a` each get a page under descriptor 3, one after the other, and the callers give back every pin. After
`flush_all_pages` the frame of the page of `a` stays pinned, outlives `close_file`, and answers for page 1 of `b` when `b`
gets the descriptor again. -/
theorem flushAllPages_leaks :
    ∃ s t u v : Client,
      run [.openFile "b" 3, .allocatePage ⟨"b", 3, 0⟩, .unpinPage 1, .closeFile ⟨"b", 3, 0⟩, .openFile "a" 3,
        .allocatePage ⟨"a", 3, 2⟩, .write ⟨"a", 3, 2⟩ 1 3 (fun _ => 7), .markDirty 3, .unpinPage 3]
        (init 4 fun _ => File.created) = some s ∧
      (∀ node ∈ s.pool.frames.nodes, s.held node.2 = 0) ∧ s.pinCount ⟨3, 1⟩ = 0 ∧
      s.step (.flushAllPages ⟨"a", 3, 2⟩) = some t ∧ t.pinCount ⟨3, 1⟩ = 1 ∧
      t.step (.closeFile ⟨"a", 3, 2⟩) = some u ∧ u.pool.frames.find ⟨3, 1⟩ = some 3 ∧
      u.step (.openFile "b" 3) = some v ∧
      ∃ bp ∈ v.pool.bufferPools, bp.fileName = "b" ∧ ∃ ptr pool,
        v.pool.getThisPage bp 1 = .ok (.success, some ptr, pool) ∧ (pool.memory ptr).page.data 0 = 7 ∧
        (v.content "b" 1).data 0 = 0 := by
  have hsome : ((run [.openFile "b" 3, .allocatePage ⟨"b", 3, 0⟩, .unpinPage 1, .closeFile ⟨"b", 3, 0⟩, .openFile "a" 3,
      .allocatePage ⟨"a", 3, 2⟩, .write ⟨"a", 3, 2⟩ 1 3 (fun _ => 7), .markDirty 3, .unpinPage 3]
      (init 4 fun _ => File.created)).any fun s =>
        s.pool.frames.nodes.all (fun node => s.held node.2 = 0) && decide (s.pinCount ⟨3, 1⟩ = 0) &&
        (s.step (.flushAllPages ⟨"a", 3, 2⟩)).any fun t => decide (t.pinCount ⟨3, 1⟩ = 1) &&
          (t.step (.closeFile ⟨"a", 3, 2⟩)).any fun u => decide (u.pool.frames.find ⟨3, 1⟩ = some 3) &&
            (u.step (.openFile "b" 3)).any fun v => v.pool.bufferPools.any (fun bp => bp.fileName = "b" &&
              (v.pool.getThisPage bp 1).toOption.any fun r => r.1 = .success && r.2.1.any fun ptr =>
                (r.2.2.memory ptr).page.data 0 = 7) && decide ((v.content "b" 1).data 0 = 0)) = true := by
    decide +kernel
  simp only [Option.any_eq_true, Bool.and_eq_true, decide_eq_true_eq, List.any_eq_true, List.all_eq_true] at hsome
  obtain ⟨s, hrun, ⟨hheld, hzero⟩, t, hflush, hpin, u, hclose, hfind, v, hopen, ⟨bp, hbp, hname, r, hget, hr⟩, hcontent⟩ :=
    hsome
  obtain ⟨hrc, ptr, hptr, hdata⟩ := hr
  refine ⟨s, t, u, v, hrun, hheld, hzero, hflush, hpin, hclose, hfind, hopen, bp, hbp, hname, ptr, r.2.2, ?_, hdata, hcontent⟩
  cases hres : v.pool.getThisPage bp 1 with
  | error stop =>
    rw [hres] at hget
    cases hget
  | ok r' =>
    rw [hres] at hget
    obtain rfl : r' = r := Option.some.inj hget
    exact congrArg Except.ok (Prod.ext hrc (Prod.ext hptr rfl))

end Client

end Landbase.Buffer
