import Landbase.Trx.RecordFiles

/-! # Evictions

A reader of a record should not see whether frames were evicted in between. `purge_frame` writes a frame back if it is
marked dirty, and `insert_record`, `update_record` and `delete_record` mark the frame that they change; a visitor of
`visit_record` and a transaction that writes through a `Record` do not. So a run is the same as without its evictions if
and only if no frame is evicted that has changed since it was read or written and is not marked.
-/

namespace Landbase.RecordManager
open Lib Buffer
set_option autoImplicit false

/-! ## One eviction -/

namespace Shows

variable {recordSize : ℕ} {pool : DiskBufferPool} {size : ℕ} {pages : PageNum → Memory}

/-- A frame is dropped, and its page in the file is `data` then. -/
theorem dropFrame (h : Shows recordSize pool size pages) (p : PageNum) (data : Memory) :
    Shows recordSize ⟨pool.size, Function.update pool.file p data, Function.update pool.frames p none⟩ size
      (Function.update pages p data) := by
  refine ⟨h.size_eq, fun q => ?_, fun q hq => ?_, fun q hpos frame hframe hclean => ?_⟩
  · rw [DiskBufferPool.page]
    dsimp only
    by_cases hqp : q = p
    · rw [hqp, Function.update_self, Function.update_self, Function.update_self]
    · rw [Function.update_of_ne hqp, Function.update_of_ne hqp, Function.update_of_ne hqp, ← h.page_eq,
        DiskBufferPool.page]
  · dsimp only
    by_cases hqp : q = p
    · rw [hqp, Function.update_self]
    · rw [Function.update_of_ne hqp, h.framed q hq]
  · dsimp only at hframe ⊢
    by_cases hqp : q = p
    · rw [hqp, Function.update_self] at hframe
      cases hframe
    · rw [Function.update_of_ne hqp] at hframe ⊢
      exact h.clean q hpos frame hframe hclean

theorem purgeFrame_dirty (h : Shows recordSize pool size pages) {p : PageNum} {data : Memory}
    (hframe : pool.frames p = some ⟨data, true⟩) : Shows recordSize (pool.purgeFrame p) size pages := by
  have hpage : pool.page p = data := by rw [DiskBufferPool.page, hframe]
  have hlt : p < size := by
    by_contra hge
    rw [h.framed p (not_lt.mp hge)] at hframe
    cases hframe
  have hsame : Function.update pages p data = pages := by rw [← hpage, h.page_eq, Function.update_eq_self]
  have hdrop := h.dropFrame p data
  rw [hsame, h.size_eq] at hdrop
  rw [DiskBufferPool.purgeFrame, hframe]
  dsimp only
  rw [if_pos rfl, DiskBufferPool.flushPage, hpage]
  dsimp only
  rw [Function.update_idem, h.size_eq, max_eq_left hlt]
  exact hdrop

theorem purgeFrame_clean (h : Shows recordSize pool size pages) {p : PageNum} {data : Memory}
    (hframe : pool.frames p = some ⟨data, false⟩) :
    Shows recordSize (pool.purgeFrame p) size (Function.update pages p (pool.file p)) := by
  have hdrop := h.dropFrame p (pool.file p)
  rw [Function.update_eq_self] at hdrop
  rw [DiskBufferPool.purgeFrame, hframe]
  exact hdrop

/-- What a reader of a record finds depends on the pages alone. -/
theorem getRecord_eq {file : RecordFileHandler} (h : Shows recordSize file.pool size pages) (rid : RID) :
    RecordFiles.getRecord file rid =
      if 0 ≤ rid.pageNum ∧ rid.pageNum < size then
        RecordPageHandler.getRecord (pages rid.pageNum.toNat) rid.slotNum
      else some (if rid.pageNum < 0 then .ioerrSeek else .ioerrRead, none) := by
  rw [RecordFiles.getRecord, RecordFileHandler.visitRecord]
  by_cases hinside : 0 ≤ rid.pageNum ∧ rid.pageNum < size
  · obtain ⟨dirty, pool', hget, -, -⟩ := h.getThisPage_inside hinside.1 hinside.2
    rw [if_pos hinside, hget, RecordFileHandler.onPage, Option.map_map]
    exact Option.map_id'
  · rw [if_neg hinside, DiskBufferPool.getThisPage, h.size_eq]
    by_cases hneg : rid.pageNum < 0
    · rw [if_pos hneg, if_pos hneg]
      rfl
    · rw [if_neg hneg, if_neg hneg, h.framed _ (by omega)]
      dsimp only
      rw [if_neg (by omega)]
      rfl

end Shows

end Landbase.RecordManager

namespace Landbase.RecordFiles
open Lib Buffer RecordManager Trx
set_option autoImplicit false

/-- An eviction of the frame loses what the frame holds: it is not marked dirty, and the file has another page. -/
def Loses (pool : RecordManager.DiskBufferPool) (p : PageNum) : Prop :=
  p ≠ bpHeaderPage ∧ ∃ frame, pool.frames p = some frame ∧ frame.dirty = false ∧ frame.data ≠ pool.file p

/-- At every moment readers find what they find in the run without evictions. -/
def Transparent (tables : ℕ → Layout) (steps : List Step) : Prop :=
  ∀ steps', steps' <+: steps →
    (run tables steps').map Db.contents = (run tables (withoutEvictions steps')).map Db.contents

/-- No frame is evicted that is not marked dirty although its page has changed. -/
def NoLoss (tables : ℕ → Layout) (steps : List Step) : Prop :=
  ∀ steps' table p, steps' ++ [.evict table p] <+: steps →
    ∀ db, run tables steps' = some db → ¬ Loses (db.files table).pool p

/-! ## Two runs -/

/-- Both pools show the same pages, and the pages hold a map. -/
def AlikeFile (recordSize : ℕ) (file file' : RecordFileHandler) : Prop :=
  ∃ size pages store, Shows recordSize file.pool size pages ∧ Shows recordSize file'.pool size pages ∧
    file'.freePages = file.freePages ∧ Valid recordSize size pages file.freePages store

def AlikeFiles (tables : ℕ → Layout) (files files' : ℕ → RecordFileHandler) : Prop :=
  ∀ table, AlikeFile (tables table).recordSize (files table) (files' table)

/-- The states of the run with evictions and of the one without. -/
def Alike (tables : ℕ → Layout) (db db' : Db) : Prop := AlikeFiles tables db.files db'.files ∧ db.kit = db'.kit

section Runs

variable {tables : ℕ → Layout} {files files' : ℕ → RecordFileHandler}

theorem AlikeFiles.update (h : AlikeFiles tables files files') {table : ℕ} {file file' : RecordFileHandler}
    (hfile : AlikeFile (tables table).recordSize file file') :
    AlikeFiles tables (Function.update files table file) (Function.update files' table file') := by
  intro other
  by_cases hother : other = table
  · rw [hother, Function.update_self, Function.update_self]
    exact hfile
  · rw [Function.update_of_ne hother, Function.update_of_ne hother]
    exact h other

theorem alike_create (tables : ℕ → Layout) : Alike tables .create .create := by
  refine ⟨fun table => ?_, rfl⟩
  obtain ⟨size, pages, hshows, hvalid⟩ := keeps_create (tables table).recordSize
  exact ⟨size, pages, _, hshows, hshows, rfl, hvalid⟩

theorem Alike.contents_eq {db db' : Db} (h : Alike tables db db') : db.contents = db'.contents := by
  funext table rid
  obtain ⟨size, pages, -, hshows, hshows', -, -⟩ := h.1 table
  rw [Db.contents, Db.contents, hshows.getRecord_eq, hshows'.getRecord_eq]

/-- A call gives the same answer on both. -/
theorem answer_same (hfits : ∀ table, Fits (tables table).recordSize) (files files' : ℕ → RecordFileHandler)
    (question : ℕ × Call) (h : AlikeFiles tables files files') :
    Option.Rel (Program.Same (AlikeFiles tables)) (answer tables files question) (answer tables files' question) := by
  obtain ⟨table, call⟩ := question
  obtain ⟨size, pages, store, hshows, hshows', hfree, hvalid⟩ := h table
  rw [answer, answer]
  dsimp only
  rw [hfree]
  by_cases hallowed : call.Allowed (files table).freePages
  · obtain ⟨given, size', pages', free', hleads, -, hvalid'⟩ := call_step (hfits table) hvalid hallowed
    obtain ⟨pool₁, hshows₁, hcall⟩ := hleads _ hshows
    obtain ⟨pool₂, hshows₂, hcall'⟩ := hleads _ hshows'
    rw [← hfree] at hcall'
    rw [if_pos hallowed, if_pos hallowed, hcall, hcall']
    exact .some ⟨rfl, h.update ⟨size', pages', _, hshows₁, hshows₂, rfl, hvalid'⟩⟩
  · rw [if_neg hallowed, if_neg hallowed]
    exact .none

/-- A step that is no eviction does the same to both. -/
theorem step_same (hfits : ∀ table, Fits (tables table).recordSize) {db db' : Db} (h : Alike tables db db') (step : Step)
    (hstep : step.isEvict = false) : Option.Rel (Alike tables) (db.step tables step) (db'.step tables step) := by
  cases step with
  | call table call =>
    have hrun := Program.run_same (answer_same hfits) (ask table call) h.1
    rw [Db.step, Db.step]
    generalize (ask table call).run (answer tables) db.files = x at hrun
    generalize (ask table call).run (answer tables) db'.files = y at hrun
    cases hrun with
    | none => exact .none
    | some hsame => exact .some ⟨hsame.2, h.2⟩
  | act session act =>
    have hrun := Program.run_same (answer_same hfits) (act.program tables db.kit session) h.1
    rw [Db.step, Db.step, ← h.2]
    generalize (act.program tables db.kit session).run (answer tables) db.files = x at hrun
    generalize (act.program tables db.kit session).run (answer tables) db'.files = y at hrun
    cases hrun with
    | none => exact .none
    | some hsame => exact .some ⟨hsame.2, congrArg Prod.snd hsame.1⟩
  | evict table p => cases hstep

/-- An eviction that loses nothing. -/
theorem evict_same {db db' : Db} (h : Alike tables db db') {table : ℕ} {p : PageNum}
    (hkept : ¬ Loses (db.files table).pool p) : Alike tables { db with files := evict db.files table p } db' := by
  refine ⟨?_, h.2⟩
  rw [evict]
  by_cases hheader : p = bpHeaderPage
  · rw [if_pos hheader]
    exact h.1
  · obtain ⟨size, pages, store, hshows, hshows', hfree, hvalid⟩ := h.1 table
    rw [if_neg hheader, ← Function.update_eq_self table db'.files]
    refine h.1.update ⟨size, pages, store, ?_, hshows', hfree, hvalid⟩
    cases hframe : (db.files table).pool.frames p with
    | none =>
      rw [DiskBufferPool.purgeFrame, hframe]
      exact hshows
    | some frame =>
      obtain ⟨data, dirty⟩ := frame
      cases dirty with
      | true => exact hshows.purgeFrame_dirty hframe
      | false =>
        have hfile : (db.files table).pool.file p = pages p := by
          by_contra hne
          refine hkept ⟨hheader, _, hframe, rfl, fun heq => hne ?_⟩
          rw [← heq, ← hshows.page_eq, DiskBufferPool.page, hframe]
        have hpurge := hshows.purgeFrame_clean hframe
        rwa [hfile, Function.update_eq_self] at hpurge

/-- A reader sees what another eviction loses. -/
theorem evict_seen {db db' : Db} (h : Alike tables db db') {table : ℕ} {p : PageNum}
    (hloses : Loses (db.files table).pool p) :
    ({ db with files := evict db.files table p } : Db).contents ≠ db'.contents := by
  obtain ⟨hheader, ⟨data, dirty⟩, hframe, hclean, hne⟩ := hloses
  dsimp only at hclean hne
  rw [hclean] at hframe
  obtain ⟨size, pages, store, hshows, hshows', -, hvalid⟩ := h.1 table
  have hpos : 1 ≤ p := Nat.one_le_iff_ne_zero.mpr hheader
  have hlt : p < size := by
    by_contra hge
    rw [hshows.framed p (not_lt.mp hge)] at hframe
    cases hframe
  have hpage : pages p = data := by rw [← hshows.page_eq, DiskBufferPool.page, hframe]
  have hsame := hshows.clean p hpos _ hframe rfl
  dsimp only at hsame
  rw [← hpage] at hsame hne
  obtain ⟨i, hi⟩ := hsame.getRecord_ne (hvalid.1.holds p hpos hlt) (Ne.symm hne)
  intro hcontents
  have hread := congrFun (congrFun hcontents table) ⟨p, i⟩
  have hinside : (0 : ℤ) ≤ p ∧ (p : ℤ) < size := ⟨Int.natCast_nonneg p, Int.ofNat_lt.mpr hlt⟩
  rw [Db.contents, Db.contents, hshows'.getRecord_eq, if_pos hinside, Int.toNat_natCast] at hread
  dsimp only at hread
  rw [evict, if_neg hheader, Function.update_self] at hread
  have hpurge : Shows _ (⟨(db.files table).pool.purgeFrame p, (db.files table).freePages⟩ : RecordFileHandler).pool _ _ :=
    hshows.purgeFrame_clean hframe
  have hafter := hpurge.getRecord_eq ⟨p, i⟩
  rw [if_pos hinside, Int.toNat_natCast, Function.update_self] at hafter
  exact hi (hafter.symm.trans hread)

theorem run_concat (tables : ℕ → Layout) (steps : List Step) (step : Step) :
    run tables (steps ++ [step]) = (run tables steps).bind fun db => db.step tables step := by
  rw [run, List.foldlM_append]
  simp [run]

theorem NoLoss.of_prefix {steps steps' : List Step} (h : NoLoss tables steps) (hsteps : steps' <+: steps) :
    NoLoss tables steps' :=
  fun before table p hbefore => h before table p (hbefore.trans hsteps)

/-- The two runs stay alike. -/
theorem run_same (hfits : ∀ table, Fits (tables table).recordSize) {steps : List Step} (h : NoLoss tables steps) :
    Option.Rel (Alike tables) (run tables steps) (run tables (withoutEvictions steps)) := by
  induction steps using List.reverseRecOn with
  | nil => exact .some (alike_create tables)
  | append_singleton steps step ih =>
    have hrun := ih (h.of_prefix (List.prefix_append _ _))
    rw [run_concat, withoutEvictions, List.filter_append]
    cases hevict : step.isEvict with
    | false =>
      rw [List.filter_singleton, hevict]
      show Option.Rel _ _ (run tables (withoutEvictions steps ++ [step]))
      rw [run_concat]
      generalize run tables steps = x at hrun
      generalize run tables (withoutEvictions steps) = y at hrun
      cases hrun with
      | none => exact .none
      | some halike => exact step_same hfits halike step hevict
    | true =>
      cases step with
      | call table call => cases hevict
      | act session act => cases hevict
      | evict table p =>
        have hkept := h steps table p List.prefix_rfl
        rw [List.filter_singleton, hevict]
        show Option.Rel _ _ (run tables (withoutEvictions steps ++ []))
        rw [List.append_nil]
        generalize run tables steps = x at hrun hkept
        generalize run tables (withoutEvictions steps) = y at hrun
        cases hrun with
        | none => exact .none
        | some halike => exact .some (evict_same halike (hkept _ rfl))

theorem transparent_of_noLoss (hfits : ∀ table, Fits (tables table).recordSize) {steps : List Step}
    (h : NoLoss tables steps) : Transparent tables steps := by
  intro steps' hsteps
  have hrun := run_same hfits (h.of_prefix hsteps)
  generalize run tables steps' = x at hrun ⊢
  generalize run tables (withoutEvictions steps') = y at hrun ⊢
  cases hrun with
  | none => rfl
  | some halike => exact congrArg some halike.contents_eq

theorem noLoss_of_transparent (hfits : ∀ table, Fits (tables table).recordSize) {steps : List Step}
    (h : Transparent tables steps) : NoLoss tables steps := by
  induction steps using List.reverseRecOn with
  | nil =>
    intro before table p hbefore
    exact absurd (List.prefix_nil.mp hbefore) (List.append_ne_nil_of_right_ne_nil _ (List.cons_ne_nil _ _))
  | append_singleton steps step ih =>
    have hbefore := ih fun steps' hsteps => h steps' (hsteps.trans (List.prefix_append _ _))
    intro before table p hprefix db hrun hloses
    cases List.prefix_concat_iff.mp hprefix with
    | inl heq =>
      -- the last step is the first eviction that loses something
      obtain ⟨rfl, hlast⟩ := List.append_inj' heq rfl
      obtain rfl := List.singleton_inj.mp hlast
      have hsame := run_same hfits hbefore
      have hcontents := h _ List.prefix_rfl
      have hevict : withoutEvictions (before ++ [.evict table p]) = withoutEvictions before := by
        rw [withoutEvictions, List.filter_append]
        exact List.append_nil _
      rw [hevict, run_concat, hrun] at hcontents
      rw [hrun] at hsame
      generalize run tables (withoutEvictions before) = y at hsame hcontents
      cases hsame with
      | some halike => exact evict_seen halike hloses (Option.some.inj hcontents)
    | inr hprefix => exact hbefore before table p hprefix db hrun hloses

end Runs

/-! ## The runs that lose nothing -/

/-- A run is the same as without its evictions if and only if no eviction loses what its frame holds. -/
theorem transparent_iff_noLoss (tables : ℕ → Layout) (hfits : ∀ table, Fits (tables table).recordSize)
    (steps : List Step) : Transparent tables steps ↔ NoLoss tables steps :=
  ⟨noLoss_of_transparent hfits, transparent_of_noLoss hfits⟩

/-- A record is inserted and its page is evicted, the transaction commits, and the page is evicted again. -/
def commitLost : List Step :=
  [.act 0 .startIfNeed, .act 0 (.insertRecord 0 (List.replicate 12 7) [] fun _ => .success), .evict 0 1,
    .act 0 (.commit [⟨.insert, 0, ⟨1, 0⟩⟩]), .evict 0 1]

theorem transparent_iff_noLoss_commitLost :
    Transparent (fun _ => ⟨12, 0, 4⟩) commitLost ↔ NoLoss (fun _ => ⟨12, 0, 4⟩) commitLost :=
  transparent_iff_noLoss _ (fun _ => by decide) commitLost

/-- The commit is lost: the record has the begin of the transaction again, not that of the commit. -/
theorem not_transparent_commitLost : ¬ Transparent (fun _ => ⟨12, 0, 4⟩) commitLost := by
  intro h
  have hcontents := congrArg (Option.map fun contents => contents 0 ⟨1, 0⟩) (h commitLost List.prefix_rfl)
  rw [Option.map_map, Option.map_map] at hcontents
  revert hcontents
  decide +kernel

end Landbase.RecordFiles
