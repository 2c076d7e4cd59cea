import Landbase.Clog.Equivalence
import Landbase.Trx.LogBuffer

/-! # Repeated crashes

The log file outlives the process; the records that no commit has written are lost with it. After a crash recovery takes
away in memory what the unfinished transactions have done, but it logs nothing about that: the next recovery replays them
again, beside all that has been logged since.
-/

namespace Landbase.Clog
open Landbase.Storage Landbase.Trx
set_option autoImplicit false

/-! ## Restarts -/

/-- The database after recovery: all sessions are new. -/
def Db.restarted (log : List CLogRecord) (r : Recovery) : Db :=
  ⟨r.tables, r.currentTrxId, log, fun _ => ⟨-1, false, false, .empty⟩⟩

/-- The process stops at any point and starts again over the files, when recovery succeeds. The log file holds what has
been written. -/
def restart (known : ℕ → Bool) (walk : OperationSet → List Operation) (files : ℕ → Table) (db : Db) : Option Db :=
  match recover known walk files (written db.log) with
  | some (.success, r) => some (Db.restarted (written db.log) r)
  | _ => none

theorem restart_eq_some {known : ℕ → Bool} {walk : OperationSet → List Operation} {files : ℕ → Table} {db db' : Db}
    (h : restart known walk files db = some db') :
    ∃ r, recover known walk files (written db.log) = some (.success, r) ∧ db' = Db.restarted (written db.log) r := by
  unfold restart at h
  split at h
  · next r hrecover => exact ⟨r, hrecover, (Option.some.inj h).symm⟩
  · cases h

/-- A record that can be replayed again and again: the slot and the unique keys of a row are those of no row that has not
been rolled back, and a row that is deleted has no deletion that has not been rolled back. -/
def Follows (base : ℕ → Table) (log : List CLogRecord) : CLogRecord → Prop
  | .insert _ table rid record => Unused log (table, rid) ∧ Fresh base log table record.data
  | .delete _ table rid => Undeleted log (table, rid)
  | _ => True

def Repeatable (base : ℕ → Table) (log : List CLogRecord) : Prop :=
  ∀ front record, front ++ [record] <+: log → Follows base front record

/-- One step of a history: a call of some session after which the log can be replayed again and again, or a crash. -/
inductive Turn (walk : OperationSet → List Operation) (base : ℕ → Table) (db db' : Db) : Prop where
  | call (h : Call (fun db s act _ => Checked db.view s act) db db') (hlt : db'.currentTrxId < maxTrxId)
      (hrepeat : Repeatable base db'.log)
  | crash (h : restart (fun _ => true) walk base db = some db')

namespace Repeatable

variable {base : ℕ → Table} {log log' : List CLogRecord}

theorem front (h : Repeatable base log') (hfront : log <+: log') : Repeatable base log :=
  fun front record hrecord => h front record (hrecord.trans hfront)

theorem nil (base : ℕ → Table) : Repeatable base [] := by
  intro front record hfront
  cases (List.append_eq_nil_iff.mp (List.prefix_nil.mp hfront)).2

theorem snoc (h : Repeatable base log) (record : CLogRecord) (hfollows : Follows base log record) :
    Repeatable base (log ++ [record]) := by
  intro front other hfront
  rcases snoc_front_cases hfront with ⟨rfl, rfl⟩ | hfront
  · exact hfollows
  · exact h front other hfront

theorem allAccepted (h : Repeatable base log) {known : ℕ → Bool}
    (hinsert : ∀ t table rid record, .insert t table rid record ∈ log → known table = true)
    (hdelete : ∀ t table rid, .delete t table rid ∈ log → known table = true) : AllAccepted known base log := by
  intro front record hfront
  have hmem : record ∈ log := hfront.subset (by simp)
  have hrecord := h front record hfront
  cases record with
  | insert t table rid record => exact ⟨hinsert _ _ _ _ hmem, hrecord.2⟩
  | delete t table rid => exact hdelete _ _ _ hmem
  | _ => trivial

end Repeatable

/-! ### Checking a log -/

/-- The slots into which rows are inserted. -/
def insertedAddrs (log : List CLogRecord) : List (ℕ × RID) :=
  log.filterMap fun
    | .insert _ table rid _ => some (table, rid)
    | _ => none

theorem mem_insertedAddrs {log : List CLogRecord} {addr : ℕ × RID} {s : Slot} (h : slots log addr = some s) :
    addr ∈ insertedAddrs log := by
  induction log using List.reverseRecOn generalizing s with
  | nil => cases h
  | append_singleton log record ih =>
    rw [insertedAddrs, List.filterMap_append, List.mem_append]
    rw [slots_snoc] at h
    cases record with
    | insert t table rid row =>
      by_cases haddr : addr = (table, rid)
      · exact Or.inr (by simp [haddr])
      · rw [slotStep, Function.update_of_ne haddr] at h
        exact Or.inl (ih h)
    | delete t table rid =>
      left
      by_cases haddr : addr = (table, rid)
      · rw [slotStep, haddr, Function.update_self] at h
        obtain ⟨s', hs', -⟩ := Option.map_eq_some_iff.mp h
        exact ih (haddr ▸ hs')
      · rw [slotStep, Function.update_of_ne haddr] at h
        exact ih h
    | mtrRollback t =>
      obtain ⟨s', hs', -⟩ := Option.bind_eq_some_iff.mp h
      exact Or.inl (ih hs')
    | mtrBegin t => exact Or.inl (ih h)
    | mtrCommit t c => exact Or.inl (ih h)

/-- Who inserts a row into the slot, and who deletes one from it. -/
def inserters (log : List CLogRecord) (addr : ℕ × RID) : List ℤ :=
  log.filterMap fun
    | .insert t table rid _ => if table = addr.1 ∧ rid = addr.2 then some t else none
    | _ => none

def deleters (log : List CLogRecord) (addr : ℕ × RID) : List ℤ :=
  log.filterMap fun
    | .delete t table rid => if table = addr.1 ∧ rid = addr.2 then some t else none
    | _ => none

theorem mem_inserters {log : List CLogRecord} {addr : ℕ × RID} {t : ℤ} :
    t ∈ inserters log addr ↔ ∃ record, .insert t addr.1 addr.2 record ∈ log := by
  unfold inserters
  rw [List.mem_filterMap]
  constructor
  · rintro ⟨record, hmem, h⟩
    cases record with
    | insert t' table rid row =>
      simp only [Option.ite_none_right_eq_some, Option.some.injEq] at h
      obtain ⟨⟨rfl, rfl⟩, rfl⟩ := h
      exact ⟨row, hmem⟩
    | _ => cases h
  · rintro ⟨row, hmem⟩
    exact ⟨_, hmem, if_pos ⟨rfl, rfl⟩⟩

theorem mem_deleters {log : List CLogRecord} {addr : ℕ × RID} {t : ℤ} :
    t ∈ deleters log addr ↔ .delete t addr.1 addr.2 ∈ log := by
  unfold deleters
  rw [List.mem_filterMap]
  constructor
  · rintro ⟨record, hmem, h⟩
    cases record with
    | delete t' table rid =>
      simp only [Option.ite_none_right_eq_some, Option.some.injEq] at h
      obtain ⟨⟨rfl, rfl⟩, rfl⟩ := h
      exact hmem
    | _ => cases h
  · intro hmem
    exact ⟨_, hmem, if_pos ⟨rfl, rfl⟩⟩

instance (log : List CLogRecord) (addr : ℕ × RID) : Decidable (Unused log addr) :=
  decidable_of_iff (∀ t ∈ inserters log addr, .mtrRollback t ∈ log)
    ⟨fun h t record hmem => h t (mem_inserters.mpr ⟨record, hmem⟩), fun h t hmem =>
      let ⟨record, hrecord⟩ := mem_inserters.mp hmem
      h t record hrecord⟩

instance (log : List CLogRecord) (addr : ℕ × RID) : Decidable (Undeleted log addr) :=
  decidable_of_iff (∀ t ∈ deleters log addr, .mtrRollback t ∈ log)
    ⟨fun h t hmem => h t (mem_deleters.mpr hmem), fun h t hmem => h t (mem_deleters.mp hmem)⟩

instance (base : ℕ → Table) (log : List CLogRecord) (table : ℕ) (data : Bytes) : Decidable (Fresh base log table data) :=
  decidable_of_iff (∀ index ∈ (base table).indexes, index.unique = true →
      (base table).hasNull data index.fieldMetas = some false → ∀ addr ∈ insertedAddrs log, addr.1 = table →
        ∀ s ∈ slots log addr, (base table).hasNull s.data index.fieldMetas = some false → index.key s.data ≠ index.key data)
    ⟨fun h index hindex hunique hnull rid s hs =>
        h index hindex hunique hnull (table, rid) (mem_insertedAddrs hs) rfl s hs,
      fun h index hindex hunique hnull addr _ htable s hs => by
        subst htable
        exact h index hindex hunique hnull addr.2 s hs⟩

instance (base : ℕ → Table) (log : List CLogRecord) (record : CLogRecord) : Decidable (Follows base log record) :=
  match record with
  | .insert _ table rid record =>
    inferInstanceAs (Decidable (Unused log (table, rid) ∧ Fresh base log table record.data))
  | .delete _ table rid => inferInstanceAs (Decidable (Undeleted log (table, rid)))
  | .mtrBegin _ | .mtrCommit _ _ | .mtrRollback _ => inferInstanceAs (Decidable True)

instance (base : ℕ → Table) (log : List CLogRecord) : Decidable (Repeatable base log) :=
  decidable_of_iff (∀ i : Fin log.length, Follows base (log.take i) (log.get i)) <| by
    constructor
    · rintro h front record ⟨rest, rfl⟩
      have hi : front.length < (front ++ [record] ++ rest).length := by simp
      have hfollows := h ⟨front.length, hi⟩
      simpa [List.append_assoc] using hfollows
    · intro h i
      refine h _ _ ?_
      rw [List.get_eq_getElem, List.take_append_getElem]
      exact List.take_prefix _ _

/-! ## The log file -/

theorem WellLogged.fits {log front : List CLogRecord} {record : CLogRecord} (h : WellLogged log)
    (hfront : front ++ [record] <+: log) : Fits front record := by
  induction h with
  | nil => cases (List.append_eq_nil_iff.mp (List.prefix_nil.mp hfront)).2
  | snoc _ hfits ih =>
    rcases snoc_front_cases hfront with ⟨rfl, rfl⟩ | hfront
    · exact hfits
    · exact ih hfront

theorem WellLogged.front {log log' : List CLogRecord} (h : WellLogged log) (hfront : log' <+: log) : WellLogged log' := by
  induction log' using List.reverseRecOn with
  | nil => exact .nil
  | append_singleton log' record ih =>
    exact .snoc (ih ((List.prefix_append _ _).trans hfront)) (h.fits hfront)

theorem committed_written {log : List CLogRecord} {t : ℤ} : Committed (written log) t ↔ Committed log t :=
  exists_congr fun _ => mtrCommit_mem_written

/-- What a committed transaction has done has been written. -/
theorem WellLogged.mem_written {log : List CLogRecord} (h : WellLogged log) {record : CLogRecord} (hmem : record ∈ log)
    (hopen : ∀ front, Fits front record → Open front (recordTrxId record)) (hcommitted : Committed log (recordTrxId record)) :
    record ∈ written log := by
  by_contra hlost
  rw [← written_append_waiting log, List.mem_append] at hmem
  obtain ⟨before, after, hwaiting⟩ := List.append_of_mem (hmem.resolve_left hlost)
  have hfits : Fits (written log ++ before) record := by
    refine h.fits ⟨after, ?_⟩
    have hlog := written_append_waiting log
    rw [hwaiting] at hlog
    simpa [List.append_assoc] using hlog
  obtain ⟨c, hc⟩ := committed_written.mpr hcommitted
  exact (hopen _ hfits).2.1 ⟨c, List.mem_append_left _ hc⟩

theorem WellLogged.survives_written {log : List CLogRecord} (h : WellLogged log) {addr : ℕ × RID} {data : Bytes} :
    Survives (written log) addr data ↔ Survives log addr data := by
  have hfront := (written_front log).subset
  constructor
  · rintro ⟨⟨t, record, hinsert, hdata, hcommitted⟩, hdeletes⟩
    refine ⟨⟨t, record, hfront hinsert, hdata, committed_written.mp hcommitted⟩, fun t' hdelete hc => ?_⟩
    exact hdeletes t' (h.mem_written hdelete (fun _ hfits => hfits.1) hc) (committed_written.mpr hc)
  · rintro ⟨⟨t, record, hinsert, hdata, hcommitted⟩, hdeletes⟩
    refine ⟨⟨t, record, h.mem_written hinsert (fun _ hfits => hfits.1) hcommitted, hdata, committed_written.mpr hcommitted⟩, ?_⟩
    exact fun t' hdelete hc => hdeletes t' (hfront hdelete) (committed_written.mp hc)

/-! ## What is kept in every state -/

theorem Tracks.loggable {dead : ℤ → Prop} [DecidablePred dead] {base : ℕ → Table} {db db' : Db} {s : ℕ} {act : Act} {rc : RC}
    (h : Tracks dead db.view db.log) (hpossible : act.Possible db s) (hstep : db.step s act = some (rc, db'))
    (hrepeat : Repeatable base db'.log) : Loggable db.view db.log rc act := by
  have hlog : db'.log = db.log ++ recordsOf db.view s rc act := by
    refine step_log (h.recovering s) ?_ hstep
    rintro table data rid rfl op hop
    exact h.fresh_addr hpossible.1 hpossible.2 hop
  rw [hlog] at hrepeat
  cases act with
  | insertRecord table data rid =>
    rintro rfl
    rw [recordsOf, if_pos rfl] at hrepeat
    exact (hrepeat _ _ (List.prefix_refl _)).1
  | deleteRecord table rid =>
    intro record hrecord hend
    have hmarked : ((db.view.version (table, rid)).any fun record => record.endXid = maxTrxId) = true := by
      rw [hrecord, Option.any_some]
      simpa using hend
    rw [recordsOf, if_pos hmarked] at hrepeat
    exact hrepeat _ _ (List.prefix_refl _)
  | updateRecord table rid newData newRid =>
    rintro rfl
    rw [recordsOf, if_pos rfl, List.append_cons] at hrepeat
    refine ⟨hrepeat _ _ (List.prefix_append _ _), ?_⟩
    intro t record hlogged
    have hrollback := (hrepeat _ _ (List.prefix_refl _)).1 t record (List.mem_append_left _ hlogged)
    simpa using hrollback
  | _ => trivial

theorem maxBegun_nonneg (log : List CLogRecord) : 0 ≤ maxBegun log := by
  induction log using List.reverseRecOn with
  | nil => exact le_refl _
  | append_singleton log record ih =>
    rw [maxBegun_snoc]
    split
    · split <;> omega
    · exact ih

theorem le_maxBegun {log : List CLogRecord} {t : ℤ} (h : .mtrBegin t ∈ log) : t ≤ maxBegun log := by
  induction log using List.reverseRecOn with
  | nil => cases h
  | append_singleton log record ih =>
    rw [maxBegun_snoc]
    rcases (mem_snoc _ _).mp h with h | rfl
    · have hle := ih h
      split
      · split <;> omega
      · exact hle
    · dsimp only
      split <;> omega

theorem maxBegun_le {log : List CLogRecord} {c : ℤ} (hc : 0 ≤ c) (h : ∀ t, .mtrBegin t ∈ log → t ≤ c) : maxBegun log ≤ c := by
  induction log using List.reverseRecOn with
  | nil => exact hc
  | append_singleton log record ih =>
    have hle := ih fun t ht => h t (List.mem_append_left _ ht)
    rw [maxBegun_snoc]
    split
    · next t =>
      have := h t (by simp)
      split <;> omega
    · exact hle

theorem Tracks.restarted {dead : ℤ → Prop} [DecidablePred dead] {v : View} {base : ℕ → Table} {log file : List CLogRecord}
    {r : Recovery} (h : Tracks dead v log) (hfile : file <+: log) (hrecovered : Recovered base file r) :
    Tracks (Open file) (Db.restarted file r).view file := by
  have hidle : ∀ s, ¬ (Db.restarted file r).view.Running s := fun s hs => by cases hs
  have hcurrent : (Db.restarted file r).view.current = maxBegun file := hrecovered.current
  refine ⟨⟨?_, ?_, fun s hs => absurd hs (hidle s), fun s _ hs => absurd hs (hidle s)⟩, fun _ => rfl, h.logged.front hfile,
    ⟨fun t ht => ht, fun addr => ?_, fun t op => ?_⟩, fun s hs => absurd hs (hidle s), fun t ht => ?_⟩
  · rw [hcurrent]
    exact maxBegun_nonneg file
  · rw [hcurrent]
    exact lt_of_le_of_lt (maxBegun_le h.ids.current_nonneg fun t ht => h.begun t (hfile.subset ht)) h.ids.current_lt
  · show Matches True file _ (versionOf r.tables addr)
    rw [hrecovered.version addr]
    cases (slots file addr).bind (Slot.without (Open file)) with
    | none => exact Matches.none_iff.mpr rfl
    | some slot => exact Matches.some_iff.mpr ⟨_, rfl, rfl, rfl, Or.inl rfl⟩
  · constructor
    · rintro ⟨s, hs, -⟩
      exact absurd hs (hidle s)
    · rintro ⟨hopen, hlive, -⟩
      exact absurd hopen hlive
  · rw [hcurrent]
    exact le_maxBegun ht

section Histories

variable {walk : OperationSet → List Operation} {base : ℕ → Table}

theorem tracks_of_turns (hwalk : ∀ set, (walk set).Perm set.toList) (hbase : Empty base) {db : Db}
    (hhistory : Relation.ReflTransGen (Turn walk base) (Db.create base) db) :
    Repeatable base db.log ∧ ∃ dead, ∃ _ : DecidablePred dead, Tracks dead db.view db.log := by
  induction hhistory with
  | refl =>
    refine ⟨Repeatable.nil base, fun _ => False, inferInstance, ?_⟩
    exact Tracks.create fun addr => hbase.records addr.1 addr.2
  | @tail db _ _ hturn ih =>
    obtain ⟨hbefore, dead, hdec, htracks⟩ := ih
    cases hturn with
    | call hcall hlt hrepeat =>
      obtain ⟨s, act, rc, hpossible, hchecked, hstep⟩ := hcall
      refine ⟨hrepeat, dead, hdec, ?_⟩
      exact (htracks.dbStep hpossible hchecked.proper (htracks.loggable hpossible hstep hrepeat) hstep hlt).1
    | crash hrestart =>
      obtain ⟨r, hrecover, rfl⟩ := restart_eq_some hrestart
      have hfile := written_front db.log
      have hrecovered := recovered_of_recover hwalk hbase (htracks.logged.front hfile) hrecover
      exact ⟨hbefore.front hfile, _, _, htracks.restarted hfile hrecovered⟩

/-! ## The rows after the last recovery -/

/-- The rows of the committed transactions are stored, and nothing else. -/
structure Durable (log : List CLogRecord) (r : Recovery) : Prop where
  present : ∀ addr data, Survives log addr data →
    ∃ record, versionOf r.tables addr = some record ∧ record.data = data ∧ record.endXid = maxTrxId
  committed : ∀ addr record, versionOf r.tables addr = some record →
    ∃ t logged, .insert t addr.1 addr.2 logged ∈ log ∧ logged.data = record.data ∧ Committed log t

theorem Recovered.durable {log : List CLogRecord} {r : Recovery} (h : Recovered base log r) (hlog : WellLogged log) :
    Durable log r := by
  have hl := hlog.facts
  refine ⟨fun addr data hsurvives => ?_, fun addr record hrecord => ?_⟩
  · obtain ⟨s, hs, hdata, hc, hd⟩ := hl.survives_iff.mp hsurvives
    exact ⟨_, h.survivor hl hs hc hd, hdata, rfl⟩
  · obtain ⟨s, hs, hc, -, hdata, -⟩ := h.row hl hrecord
    obtain ⟨-, logged, hinsert, hlogged⟩ := hl.writer addr s hs
    exact ⟨s.writer, logged, hinsert, hlogged.trans hdata.symm, hc⟩

/-- Whatever has been committed, rolled back or cut off by any number of crashes, while the log is repeatable: recovery from
what has been written succeeds, all rows of committed transactions are there, and none of the others. -/
theorem recover_durable (hwalk : ∀ set, (walk set).Perm set.toList) (hnew : NewTables base) {db : Db}
    (hhistory : Relation.ReflTransGen (Turn walk base) (Db.create base) db) :
    ∃ r, recover (fun _ => true) walk base (written db.log) = some (.success, r) ∧ Durable db.log r := by
  have hbase := hnew.toEmpty
  obtain ⟨hrepeat, dead, hdec, htracks⟩ := tracks_of_turns hwalk hbase hhistory
  have hfile := written_front db.log
  have hlogged := htracks.logged.front hfile
  have haccepted : AllAccepted (fun _ => true) base (written db.log) :=
    (hrepeat.front hfile).allAccepted (fun _ _ _ _ _ => rfl) (fun _ _ _ _ => rfl)
  obtain ⟨r, hrecover, hrecovered⟩ := recover_isSome hwalk hbase hlogged haccepted
  obtain ⟨hpresent, hcommitted⟩ := hrecovered.durable hlogged
  refine ⟨r, hrecover, fun addr data hsurvives => hpresent addr data (htracks.logged.survives_written.mpr hsurvives), ?_⟩
  intro addr record hrecord
  obtain ⟨t, row, hinsert, hdata, hc⟩ := hcommitted addr record hrecord
  exact ⟨t, row, hfile.subset hinsert, hdata, committed_written.mp hc⟩

end Histories

/-! ## Two histories -/

/-- A sequence of calls and crashes. -/
def runTurns (base : ℕ → Table) : Db → List (Option (ℕ × Act)) → Option Db
  | db, [] => some db
  | db, none :: turns =>
    match restart (fun _ => true) OperationSet.toList base db with
    | none => none
    | some db' => runTurns base db' turns
  | db, some (s, act) :: turns =>
    if act.Possible db s ∧ Checked db.view s act then
      match db.step s act with
      | none => none
      | some (_, db') => if db'.currentTrxId < maxTrxId then runTurns base db' turns else none
    else none

/-- The log is repeatable after each call. -/
def repeatableTurns (base : ℕ → Table) (db : Db) (turns : List (Option (ℕ × Act))) : Bool :=
  (List.range (turns.length + 1)).all fun i => (runTurns base db (turns.take i)).all fun db' => decide (Repeatable base db'.log)

theorem runTurns_cons {base : ℕ → Table} {call : ℕ × Act} {turns : List (Option (ℕ × Act))} {db db' : Db}
    (h : runTurns base db (some call :: turns) = some db') :
    (call.2.Possible db call.1 ∧ Checked db.view call.1 call.2) ∧ ∃ rc db₁, db.step call.1 call.2 = some (rc, db₁) ∧
      db₁.currentTrxId < maxTrxId ∧ runTurns base db₁ turns = some db' := by
  obtain ⟨s, act⟩ := call
  rw [runTurns] at h
  split at h
  · next hcall =>
    split at h
    · cases h
    · next rc db₁ hstep =>
      split at h
      · next hlt => exact ⟨hcall, rc, db₁, hstep, hlt, h⟩
      · cases h
  · cases h

theorem runTurns_turns {base : ℕ → Table} {turns : List (Option (ℕ × Act))} {db db' : Db}
    (h : runTurns base db turns = some db') (hrepeat : repeatableTurns base db turns = true) :
    Relation.ReflTransGen (Turn OperationSet.toList base) db db' := by
  induction turns generalizing db with
  | nil =>
    obtain rfl := Option.some.inj h
    exact Relation.ReflTransGen.refl
  | cons turn turns ih =>
    have hall : ∀ i ≤ turns.length + 1, (runTurns base db ((turn :: turns).take i)).all
        (fun db' => decide (Repeatable base db'.log)) = true := by
      simpa [repeatableTurns] using hrepeat
    -- the states behind the first step
    have hrest : ∀ db₁, (∀ i, runTurns base db ((turn :: turns).take (i + 1)) = runTurns base db₁ (turns.take i)) →
        repeatableTurns base db₁ turns = true := by
      intro db₁ hfirst
      simp only [repeatableTurns, List.all_eq_true, List.mem_range]
      intro i hi
      rw [← hfirst]
      exact hall (i + 1) (by omega)
    cases turn with
    | none =>
      rw [runTurns] at h
      split at h
      · cases h
      · next db₁ hrestart =>
        refine Relation.ReflTransGen.head (.crash hrestart) (ih h (hrest db₁ fun i => ?_))
        rw [List.take_succ_cons, runTurns, hrestart]
    | some call =>
      obtain ⟨hcall, rc, db₁, hstep, hlt, htail⟩ := runTurns_cons h
      have hfirst : ∀ i, runTurns base db ((some call :: turns).take (i + 1)) = runTurns base db₁ (turns.take i) := by
        intro i
        rw [List.take_succ_cons, runTurns, if_pos hcall, hstep]
        exact if_pos hlt
      have hone : Repeatable base db₁.log := by
        have hlog := hall 1 (by omega)
        rw [hfirst 0, List.take_zero, runTurns, Option.all_some, decide_eq_true_eq] at hlog
        exact hlog
      exact Relation.ReflTransGen.head (.call ⟨call.1, call.2, rc, hcall.1, hcall.2, hstep⟩ hlt hone)
        (ih htail (hrest db₁ hfirst))

/-- Session 0 inserts a row, session 1 another one and commits, which writes the records of both; a third row of session 0 is
lost in the crash. The first transaction stays without an end, and the next one uses another slot. -/
theorem recover_durable_other_slot :
    let turns := [some (0, Act.startIfNeed), some (0, .insertRecord 0 [0, 7, 0, 0, 0] ⟨1, 0⟩), some (1, .startIfNeed),
      some (1, .insertRecord 0 [0, 9, 0, 0, 0] ⟨1, 2⟩), some (1, .commit [⟨.insert, 0, ⟨1, 2⟩⟩]),
      some (0, .insertRecord 0 [0, 6, 0, 0, 0] ⟨1, 1⟩), none, some (0, .startIfNeed),
      some (0, .insertRecord 0 [0, 8, 0, 0, 0] ⟨1, 1⟩), some (0, .commit [⟨.insert, 0, ⟨1, 1⟩⟩])]
    ∃ db r, runTurns indexedTable (Db.create indexedTable) turns = some db ∧
      recover (fun _ => true) OperationSet.toList indexedTable (written db.log) = some (.success, r) ∧ Durable db.log r := by
  intro turns
  have hsome : (runTurns indexedTable (Db.create indexedTable) turns).isSome = true := by decide +kernel
  obtain ⟨db, hrun⟩ := Option.isSome_iff_exists.mp hsome
  have hturns := runTurns_turns hrun (by decide +kernel)
  obtain ⟨r, hrecover, hdurable⟩ := recover_durable (fun ops : OperationSet => List.Perm.refl ops.toList)
    indexedTable_new hturns
  exact ⟨db, r, hrun, hrecover, hdurable⟩

/-- The next transaction uses the slot of the unfinished one: the last recovery takes its row away with that one. -/
theorem recover_loses_row :
    let turns := [some (0, Act.startIfNeed), some (0, .insertRecord 0 [0, 7, 0, 0, 0] ⟨1, 0⟩), some (1, .startIfNeed),
      some (1, .insertRecord 0 [0, 9, 0, 0, 0] ⟨1, 2⟩), some (1, .commit [⟨.insert, 0, ⟨1, 2⟩⟩]), none,
      some (0, .startIfNeed), some (0, .insertRecord 0 [0, 8, 0, 0, 0] ⟨1, 0⟩), some (0, .commit [⟨.insert, 0, ⟨1, 0⟩⟩])]
    ∃ db r, runTurns indexedTable (Db.create indexedTable) turns = some db ∧
      recover (fun _ => true) OperationSet.toList indexedTable (written db.log) = some (.success, r) ∧
      ¬ Durable db.log r := by
  intro turns
  obtain ⟨db, hrun, hobserved⟩ := Option.map_eq_some_iff.mp (show (runTurns indexedTable (Db.create indexedTable) turns).map
    (fun db => (db.log, (recover (fun _ => true) OperationSet.toList indexedTable (written db.log)).map fun x =>
      (x.1, versionOf x.2.tables (0, ⟨1, 0⟩)))) =
        some ([.mtrBegin 1, .insert 1 0 ⟨1, 0⟩ ⟨-1, maxTrxId, [0, 7, 0, 0, 0]⟩, .mtrBegin 2,
          .insert 2 0 ⟨1, 2⟩ ⟨-2, maxTrxId, [0, 9, 0, 0, 0]⟩, .mtrCommit 2 3, .mtrBegin 3,
          .insert 3 0 ⟨1, 0⟩ ⟨-3, maxTrxId, [0, 8, 0, 0, 0]⟩, .mtrCommit 3 4], some (.success, none)) by decide +kernel)
  obtain ⟨hlog, hrecover⟩ := Prod.mk.inj hobserved
  obtain ⟨⟨rc, r⟩, hrecover, hstate⟩ := Option.map_eq_some_iff.mp hrecover
  obtain ⟨rfl, hversion⟩ := Prod.mk.inj hstate
  refine ⟨db, r, hrun, hrecover, fun hdurable => ?_⟩
  have hsurvives : Survives db.log (0, ⟨1, 0⟩) [0, 8, 0, 0, 0] := by
    rw [hlog]
    exact ⟨⟨3, ⟨-3, maxTrxId, [0, 8, 0, 0, 0]⟩, by simp, rfl, 4, by simp⟩, by simp⟩
  obtain ⟨record, hrecord, -⟩ := hdurable.present _ _ hsurvives
  rw [hversion] at hrecord
  cases hrecord

end Landbase.Clog
