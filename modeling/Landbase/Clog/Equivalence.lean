import Landbase.Clog.Forward

/-! # What recovery leaves of a run

A run of transactions writes a log, and recovery over the log leaves the rows that the committed ones of them leave. When
these rows are visible afterwards depends on the counter of transaction ids, which recovery sets to the largest id that a
transaction began with; ids of commits are not counted.
-/

namespace Landbase.Clog
open Landbase.Storage Landbase.Trx
set_option autoImplicit false

/-! ## Runs -/

/-- A call of some session that satisfies `P`. -/
def Call (P : Db → ℕ → Act → RC → Prop) (db db' : Db) : Prop :=
  ∃ s act rc, act.Possible db s ∧ P db s act rc ∧ db.step s act = some (rc, db')

theorem Call.current_le {P : Db → ℕ → Act → RC → Prop} {db db' : Db} (h : Call P db db') :
    db.currentTrxId ≤ db'.currentTrxId := by
  obtain ⟨s, act, rc, hpossible, -, hstep⟩ := h
  exact (step_effect hpossible hstep).current_le

/-- A sequence of calls that satisfy `P`. -/
def runCalls (P : Db → ℕ → Act → RC → Prop) [∀ db s act rc, Decidable (P db s act rc)] : Db → List (ℕ × Act) → Option Db
  | db, [] => some db
  | db, (s, act) :: calls =>
    if act.Possible db s then
      match db.step s act with
      | none => none
      | some (rc, db') => if P db s act rc then runCalls P db' calls else none
    else none

theorem runCalls_calls {P : Db → ℕ → Act → RC → Prop} [∀ db s act rc, Decidable (P db s act rc)]
    {calls : List (ℕ × Act)} {db db' : Db} (h : runCalls P db calls = some db') :
    Relation.ReflTransGen (Call P) db db' := by
  induction calls generalizing db with
  | nil =>
    obtain rfl := Option.some.inj h
    exact Relation.ReflTransGen.refl
  | cons call calls ih =>
    obtain ⟨s, act⟩ := call
    rw [runCalls] at h
    split at h
    · next hpossible =>
      split at h
      · cases h
      · next rc db₁ hstep =>
        split at h
        · next hp => exact Relation.ReflTransGen.head ⟨s, act, rc, hpossible, hp, hstep⟩ (ih h)
        · cases h
    · cases h

theorem Tracks.run {base : ℕ → Table} (hbase : Empty base) {P : Db → ℕ → Act → RC → Prop}
    (hproper : ∀ db s act rc, P db s act rc → Proper db.view s act)
    (hloggable : ∀ db s act rc, Tracks (fun _ => False) db.view db.log → act.Possible db s → P db s act rc →
      Loggable db.view db.log rc act)
    {db : Db} (hrun : Relation.ReflTransGen (Call P) (Db.create base) db) (hlt : db.currentTrxId < maxTrxId) :
    Tracks (fun _ => False) db.view db.log := by
  induction hrun with
  | refl => exact Tracks.create fun addr => hbase.records addr.1 addr.2
  | tail _ hcall ih =>
    have hle := hcall.current_le
    obtain ⟨s, act, rc, hpossible, hp, hstep⟩ := hcall
    have htracks := ih (lt_of_le_of_lt hle hlt)
    exact (htracks.dbStep hpossible (hproper _ _ _ _ hp) (hloggable _ _ _ _ htracks hpossible hp) hstep hlt).1

/-! ## Recovered rows -/

namespace Recovered

variable {base : ℕ → Table} {log : List CLogRecord} {r : Recovery} {addr : ℕ × RID} {s : Slot}

theorem survivor (h : Recovered base log r) (hl : LogFacts log) (hs : slots log addr = some s)
    (hc : Committed log s.writer) (hd : ∀ t, s.deleter = some t → ¬ Committed log t) :
    versionOf r.tables addr = some ⟨stamp log s.writer, maxTrxId, s.data⟩ := by
  rw [h.version addr, hs, Option.bind_some, Slot.without_of_not fun hopen : Open log s.writer => hopen.2.1 hc]
  have hnone : (s.deleter.filter fun t => ¬ Open log t) = none := by
    cases hdeleter : s.deleter with
    | none => rfl
    | some t =>
      have hopen : Open log t :=
        ⟨hl.begun_deleter hs hdeleter, hd t hdeleter, (hl.deleter addr s t hs hdeleter).1⟩
      exact filter_dead rfl hopen
  rw [Option.map_some, Slot.record, Slot.endXid_of_none hnone]

theorem row (h : Recovered base log r) (hl : LogFacts log) {record : Record}
    (hrecord : versionOf r.tables addr = some record) :
    ∃ s, slots log addr = some s ∧ Committed log s.writer ∧ record.beginXid = stamp log s.writer ∧
      record.data = s.data ∧ ((record.endXid = maxTrxId ∧ ∀ t, s.deleter = some t → ¬ Committed log t) ∨
        ∃ t, s.deleter = some t ∧ Committed log t ∧ record.endXid = if t = s.writer then -t else stamp log t) := by
  have hversion := h.version addr
  cases hs : slots log addr with
  | none =>
    rw [hrecord, hs] at hversion
    cases hversion
  | some s =>
    have hc : Committed log s.writer := by
      by_contra hc
      have hopen : Open log s.writer := ⟨hl.begun_writer hs, hc, (hl.writer addr s hs).1⟩
      rw [hrecord, hs, Option.bind_some, Slot.without_of_dead hopen] at hversion
      cases hversion
    refine ⟨s, rfl, hc, ?_⟩
    by_cases hd : ∀ t, s.deleter = some t → ¬ Committed log t
    · have hsurvivor := h.survivor hl hs hc hd
      rw [hrecord] at hsurvivor
      obtain rfl := Option.some.inj hsurvivor
      exact ⟨rfl, rfl, Or.inl ⟨rfl, hd⟩⟩
    · push Not at hd
      obtain ⟨t, hdeleter, htc⟩ := hd
      have hkept : (s.deleter.filter fun t => ¬ Open log t) = some t := filter_live hdeleter fun hopen => hopen.2.1 htc
      rw [hrecord, hs, Option.bind_some, Slot.without_of_not fun hopen : Open log s.writer => hopen.2.1 hc,
        Option.map_some, Slot.record] at hversion
      obtain rfl := Option.some.inj hversion
      refine ⟨rfl, rfl, Or.inr ⟨t, hdeleter, htc, ?_⟩⟩
      split
      · next hw => exact Slot.endXid_of_own hkept hw
      · next hw => exact Slot.endXid_of_other hkept hw

end Recovered

/-! ## Logs that have been replayed -/

section Successful

variable {known : ℕ → Bool} {walk : OperationSet → List Operation} {base : ℕ → Table}

theorem Replayed.undeleted {log : List CLogRecord} {r r' : Recovery} (h : Replayed base log r) {t : ℤ} {table : ℕ} {rid : RID}
    (hredo : r.redoRecord known walk (.delete t table rid) = some (.success, r')) : Undeleted log (table, rid) := by
  have hl := h.logged.facts
  have hmax : (0 : ℤ) < maxTrxId := by decide
  rcases redoRecord_cases hredo with ⟨_, heq, -⟩ | ⟨-, i, trx, trx', tables, -, -, hredo, -⟩
  · cases heq
  obtain ⟨-, record, hrecord, hend, -⟩ := redo_delete_success hredo
  rw [h.version, Option.map_eq_some_iff] at hrecord
  obtain ⟨s, hs, rfl⟩ := hrecord
  have hend : s.endXid log = maxTrxId := hend
  rw [hl.undeleted_iff hs, Option.eq_none_iff_forall_ne_some]
  intro t' hd
  have hpos := hl.begins t' (hl.begun_deleter hs hd)
  by_cases hw : t' = s.writer
  · rw [Slot.endXid_of_own hd hw] at hend
    omega
  · rw [Slot.endXid_of_other hd hw] at hend
    by_cases hc : Committed log t'
    · have := hl.stamp_pos hc
      omega
    · have := hl.stamp_neg (hl.begun_deleter hs hd) hc
      omega

theorem redoAll_front {r r' : Recovery} {log log' : List CLogRecord} (hfront : log <+: log')
    (h : r.redoAll known walk log' = some (.success, r')) : ∃ r₁, r.redoAll known walk log = some (.success, r₁) := by
  obtain ⟨more, rfl⟩ := hfront
  rw [redoAll_append, Option.bind_eq_some_iff] at h
  obtain ⟨⟨rc, r₁⟩, hfirst, hrest⟩ := h
  split at hrest
  · next hrc =>
    obtain ⟨rfl, -⟩ := Prod.mk.inj (Option.some.inj hrest)
    exact absurd rfl hrc
  · next hrc =>
    obtain rfl : rc = .success := not_not.mp hrc
    exact ⟨r₁, hfirst⟩

theorem tracks_of_redoAll (hwalk : ∀ set, (walk set).Perm set.toList) (hbase : Empty base) {db : Db}
    (hrun : Relation.ReflTransGen (Call fun db s act _ => Checked db.view s act) (Db.create base) db)
    (hlt : db.currentTrxId < maxTrxId) {r : Recovery}
    (hredo : Recovery.redoAll known walk ⟨base, 0, []⟩ db.log = some (.success, r)) :
    Tracks (fun _ => False) db.view db.log := by
  induction hrun generalizing r with
  | refl => exact Tracks.create fun addr => hbase.records addr.1 addr.2
  | @tail db db' _ hcall ih =>
    have hle := hcall.current_le
    obtain ⟨s, act, rc, hpossible, hchecked, hstep⟩ := hcall
    obtain ⟨r₁, hfirst⟩ := redoAll_front (step_extends hstep) hredo
    have htracks := ih (lt_of_le_of_lt hle hlt) hfirst
    refine (htracks.dbStep hpossible hchecked.proper ?_ hstep hlt).1
    cases act with
    | insertRecord table data rid => exact fun _ => htracks.unused hpossible.2
    | deleteRecord table rid => exact fun record hrecord hend => htracks.undeleted hrecord hend
    | updateRecord table rid newData newRid =>
      rintro rfl
      refine ⟨?_, htracks.unused hpossible.2⟩
      have hlog := step_log (htracks.recovering s) (fun _ _ _ heq => by cases heq) hstep
      simp only [recordsOf, if_true] at hlog
      rw [hlog, List.append_cons] at hredo
      obtain ⟨r₂, hredo, -⟩ := redoAll_snoc hredo
      obtain ⟨r₃, hfirst, hdelete⟩ := redoAll_snoc hredo
      exact (replayed_of_redoAll hwalk hbase htracks.logged hfirst).undeleted hdelete
    | _ => trivial

end Successful

/-! ## The counter -/

/-- Every row that the committed transactions leave is visible to every transaction that starts after recovery. -/
def VisibleAfter (log : List CLogRecord) (r : Recovery) : Prop :=
  ∀ addr data, Survives log addr data → ∀ trxId readonly, r.currentTrxId < trxId → trxId < maxTrxId →
    ∃ record, versionOf r.tables addr = some record ∧ record.data = data ∧ visitRecord trxId record readonly = .success

theorem visit_newest {trxId c : ℤ} {data : Bytes} {readonly : Bool} (hpos : 0 < c) (hlt : trxId < maxTrxId) :
    visitRecord trxId ⟨c, maxTrxId, data⟩ readonly = .success ↔ c ≤ trxId := by
  have hmax : (0 : ℤ) < maxTrxId := by decide
  simp only [visitRecord]
  rw [if_pos ⟨hpos, hmax⟩]
  constructor
  · intro h
    split at h
    · next hle => exact hle.1
    · cases h
  · intro h
    rw [if_pos ⟨h, le_of_lt hlt⟩]

/-- After a recovery that has succeeded, over the log of any run whose transactions delete and update what they see: the
rows of the committed transactions are visible to all that follow, if and only if none of these rows has been committed
under an id that is more than one above the largest id with which a transaction began. -/
theorem visibleAfter_iff {walk : OperationSet → List Operation} (hwalk : ∀ set, (walk set).Perm set.toList)
    {base : ℕ → Table} (hbase : Empty base) {db : Db}
    (hrun : Relation.ReflTransGen (Call fun db s act _ => Checked db.view s act) (Db.create base) db)
    (hlt : db.currentTrxId < maxTrxId) {r : Recovery}
    (hrecover : recover (fun _ => true) walk base db.log = some (.success, r)) :
    VisibleAfter db.log r ↔ ∀ t c table rid record, .insert t table rid record ∈ db.log → .mtrCommit t c ∈ db.log →
      (∀ t', .delete t' table rid ∈ db.log → ¬ Committed db.log t') → c ≤ maxBegun db.log + 1 := by
  obtain ⟨r₁, hredo⟩ := redoAll_of_recover hrecover
  have htracks := tracks_of_redoAll hwalk hbase hrun hlt hredo
  have hl := htracks.logged.facts
  have hrecovered := recovered_of_recover hwalk hbase htracks.logged hrecover
  constructor
  · intro h t c table rid record hlogged hcommit hdeletes
    have hsurvives : Survives db.log (table, rid) record.data := ⟨⟨t, record, hlogged, rfl, c, hcommit⟩, hdeletes⟩
    obtain ⟨s, hs, hw, hdata⟩ := hl.inserted t (table, rid) record hlogged (hl.once t ⟨c, hcommit⟩)
    have hc : Committed db.log s.writer := hw ▸ ⟨c, hcommit⟩
    have hversion := hrecovered.survivor hl hs hc fun t' ht' => hdeletes t' (hl.deleter _ s t' hs ht').2.1
    rw [hw, htracks.logged.stamp_eq hcommit] at hversion
    by_contra hnot
    have hrange := hl.commits t c hcommit
    obtain ⟨stored, hstored, -, hvisit⟩ := h _ _ hsurvives (maxBegun db.log + 1) true
      (by rw [hrecovered.current]; omega) (by omega)
    rw [hversion] at hstored
    obtain rfl := Option.some.inj hstored
    exact hnot ((visit_newest hrange.1 (by omega)).mp hvisit)
  · intro h addr data hsurvives trxId readonly hid hidlt
    obtain ⟨⟨t, record, hlogged, rfl, c, hcommit⟩, hdeletes⟩ := id hsurvives
    obtain ⟨s, hs, hw, hdata⟩ := hl.inserted t addr record hlogged (hl.once t ⟨c, hcommit⟩)
    have hc : Committed db.log s.writer := hw ▸ ⟨c, hcommit⟩
    have hversion := hrecovered.survivor hl hs hc fun t' ht' => hdeletes t' (hl.deleter _ s t' hs ht').2.1
    rw [hw, htracks.logged.stamp_eq hcommit] at hversion
    have hle := h t c addr.1 addr.2 record hlogged hcommit hdeletes
    have hrange := hl.commits t c hcommit
    rw [hrecovered.current] at hid
    exact ⟨_, hversion, hdata, (visit_newest hrange.1 hidlt).mpr (by omega)⟩

instance (v : View) (s : ℕ) (act : Act) : Decidable (Checked v s act) :=
  inferInstanceAs (Decidable (∀ addr ∈ act.target, ∀ record ∈ v.version addr,
    Trx.visitRecord (v.trxId s) record false = .success))

theorem indexedTable_empty : Empty indexedTable := by
  refine ⟨fun table => (indexedTable_sound table).wellFormed, fun _ _ => rfl, fun table index hindex => ?_⟩
  fin_cases hindex
  rfl

theorem indexedTable_new : NewTables indexedTable := ⟨indexedTable_empty, indexedTable_wellKeyed⟩

theorem indexedTable_fresh (log : List CLogRecord) (table : ℕ) (data : Bytes) : Fresh indexedTable log table data := by
  intro index hindex hunique
  fin_cases hindex
  cases hunique

/-- Two transactions, one after the other: the second one deletes the row of the first. Their commits have the next ids
after their begins. -/
theorem visibleAfter_iff_two :
    let calls := [(0, Act.startIfNeed), (0, .insertRecord 0 [0, 7, 0, 0, 0] ⟨1, 0⟩), (0, .commit [⟨.insert, 0, ⟨1, 0⟩⟩]),
      (1, .startIfNeed), (1, .insertRecord 0 [0, 8, 0, 0, 0] ⟨1, 1⟩), (1, .deleteRecord 0 ⟨1, 0⟩),
      (1, .commit [⟨.insert, 0, ⟨1, 1⟩⟩, ⟨.delete, 0, ⟨1, 0⟩⟩])]
    ∃ db r, runCalls (fun db s act _ => Checked db.view s act) (Db.create indexedTable) calls = some db ∧
      recover (fun _ => true) OperationSet.toList indexedTable db.log = some (.success, r) ∧ VisibleAfter db.log r := by
  intro calls
  obtain ⟨db, hrun, hobserved⟩ := Option.map_eq_some_iff.mp (show (runCalls (fun db s act _ => Checked db.view s act)
    (Db.create indexedTable) calls).map (fun db => (db.currentTrxId, db.log,
      (recover (fun _ => true) OperationSet.toList indexedTable db.log).map Prod.fst)) =
        some (4, [.mtrBegin 1, .insert 1 0 ⟨1, 0⟩ ⟨-1, maxTrxId, [0, 7, 0, 0, 0]⟩, .mtrCommit 1 2, .mtrBegin 3,
          .insert 3 0 ⟨1, 1⟩ ⟨-3, maxTrxId, [0, 8, 0, 0, 0]⟩, .delete 3 0 ⟨1, 0⟩, .mtrCommit 3 4], some .success) by
        decide +kernel)
  obtain ⟨hcurrent, hlog, hrecover⟩ := by simpa only [Prod.mk.injEq] using hobserved
  obtain ⟨⟨rc, r⟩, hrecover, rfl⟩ := Option.map_eq_some_iff.mp hrecover
  refine ⟨db, r, hrun, hrecover, ?_⟩
  refine (visibleAfter_iff (fun _ => List.Perm.refl _) indexedTable_empty (runCalls_calls hrun)
    (by rw [hcurrent]; decide) hrecover).mpr fun t c table rid record _ hcommit _ => ?_
  have hbegun : maxBegun db.log = 3 := by
    rw [hlog]
    rfl
  have hle : c ≤ 4 := by
    rw [hlog] at hcommit
    simp at hcommit
    omega
  omega

/-- Two transactions that overlap are committed under the ids 3 and 4; recovery sets the counter to 2, and the transaction
with the id 3 does not see the row of the second one. -/
theorem visibleAfter_overlapping :
    let calls := [(0, Act.startIfNeed), (1, .startIfNeed), (0, .insertRecord 0 [0, 7, 0, 0, 0] ⟨1, 0⟩),
      (1, .insertRecord 0 [0, 8, 0, 0, 0] ⟨1, 1⟩), (0, .commit [⟨.insert, 0, ⟨1, 0⟩⟩]), (1, .commit [⟨.insert, 0, ⟨1, 1⟩⟩])]
    ∃ db r, (Db.create indexedTable).runActs calls = some db ∧
      recover (fun _ => true) OperationSet.toList indexedTable db.log = some (.success, r) ∧ ¬ VisibleAfter db.log r := by
  intro calls
  obtain ⟨db, hrun, hobserved⟩ := Option.map_eq_some_iff.mp (show ((Db.create indexedTable).runActs calls).map
    (fun db => (db.log, (recover (fun _ => true) OperationSet.toList indexedTable db.log).map fun x =>
      (x.1, x.2.currentTrxId, versionOf x.2.tables (0, ⟨1, 1⟩)))) =
        some ([.mtrBegin 1, .mtrBegin 2, .insert 1 0 ⟨1, 0⟩ ⟨-1, maxTrxId, [0, 7, 0, 0, 0]⟩,
          .insert 2 0 ⟨1, 1⟩ ⟨-2, maxTrxId, [0, 8, 0, 0, 0]⟩, .mtrCommit 1 3, .mtrCommit 2 4],
          some (.success, 2, some ⟨4, maxTrxId, [0, 8, 0, 0, 0]⟩)) by decide +kernel)
  obtain ⟨hlog, hrecover⟩ := Prod.mk.inj hobserved
  obtain ⟨⟨rc, r⟩, hrecover, hstate⟩ := Option.map_eq_some_iff.mp hrecover
  obtain ⟨rfl, hcurrent, hversion⟩ := by simpa only [Prod.mk.injEq] using hstate
  refine ⟨db, r, hrun, hrecover, fun hvisible => ?_⟩
  have hsurvives : Survives db.log (0, ⟨1, 1⟩) [0, 8, 0, 0, 0] := by
    rw [hlog]
    exact ⟨⟨2, ⟨-2, maxTrxId, [0, 8, 0, 0, 0]⟩, by simp, rfl, 4, by simp⟩, by simp⟩
  obtain ⟨record, hrecord, -, hvisit⟩ := hvisible _ _ hsurvives 3 true (by rw [hcurrent]; decide) (by decide)
  rw [hversion] at hrecord
  obtain rfl := Option.some.inj hrecord
  exact absurd hvisit (by decide)

/-! ## Rows and index entries -/

/-- Recovery leaves the rows of the committed transactions, visible to every transaction that starts afterwards, and their
index entries. -/
structure Equivalent (log : List CLogRecord) (r : Recovery) : Prop where
  rows : ∀ trxId, r.currentTrxId < trxId → trxId < maxTrxId → ∀ addr data,
    (∃ record, versionOf r.tables addr = some record ∧ record.data = data ∧
      visitRecord trxId record true = .success) ↔ Survives log addr data
  entries : ∀ table, ∀ index ∈ (r.tables table).indexes, ∀ key rid, (key, rid) ∈ index.entries ↔
    ∃ data, Survives log (table, rid) data ∧ (r.tables table).hasNull data index.fieldMetas = some false ∧
      key = index.key data

/-- What a log must not hold: a row that has in a unique index the key of a row stored before, a row that its own
transaction has deleted, a deleted row with index entries, and ids of commits that the recovered counter does not cover. -/
structure Recoverable (base : ℕ → Table) (log : List CLogRecord) : Prop where
  accepted : AllAccepted (fun _ => true) base log
  foreign : ∀ t table rid record, .insert t table rid record ∈ log → .delete t table rid ∈ log → ¬ Committed log t
  unindexed : ∀ t table rid, .delete t table rid ∈ log → Committed log t → ∀ t' record,
    .insert t' table rid record ∈ log → Committed log t' → ∀ index ∈ (base table).indexes,
      (base table).hasNull record.data index.fieldMetas ≠ some false
  insertIds : ∀ t c table rid record, .insert t table rid record ∈ log → .mtrCommit t c ∈ log →
    (∀ t', .delete t' table rid ∈ log → ¬ Committed log t') → c ≤ maxBegun log + 1
  deleteIds : ∀ t c table rid, .delete t table rid ∈ log → .mtrCommit t c ∈ log → c ≤ maxBegun log

section Rows

variable {base : ℕ → Table} {log : List CLogRecord} {r : Recovery}

theorem Recovered.rows (h : Recovered base log r) (hlog : WellLogged log) (hrecoverable : Recoverable base log) {trxId : ℤ}
    (hid : r.currentTrxId < trxId) (hidlt : trxId < maxTrxId) (addr : ℕ × RID) (data : Bytes) :
    (∃ record, versionOf r.tables addr = some record ∧ record.data = data ∧
      visitRecord trxId record true = .success) ↔ Survives log addr data := by
  have hl := hlog.facts
  rw [h.current] at hid
  constructor
  · rintro ⟨record, hrecord, rfl, hvisit⟩
    obtain ⟨s, hs, hc, hbegin, hdata, ⟨-, hd⟩ | ⟨t, hdeleter, htc, hend⟩⟩ := h.row hl hrecord
    · exact hl.survives_iff.mpr ⟨s, hs, hdata.symm, hc, hd⟩
    · -- a deleted row is not visible any more
      obtain ⟨-, logged, hinsert, -⟩ := hl.writer addr s hs
      have hdelete := (hl.deleter addr s t hs hdeleter).2.1
      have hw : t ≠ s.writer := by
        rintro rfl
        exact hrecoverable.foreign _ _ _ logged hinsert hdelete hc
      rw [if_neg hw] at hend
      have hstamp := hl.stamp_pos htc
      have hle := hrecoverable.deleteIds t _ _ _ hdelete (stamp_of_committed htc)
      have hpos := hl.stamp_pos hc
      simp only [visitRecord] at hvisit
      rw [if_pos ⟨by omega, by omega⟩] at hvisit
      split at hvisit
      · omega
      · cases hvisit
  · intro hsurvives
    obtain ⟨s, hs, hdata, hc, hd⟩ := hl.survives_iff.mp hsurvives
    obtain ⟨-, logged, hinsert, -⟩ := hl.writer addr s hs
    have hle := hrecoverable.insertIds _ _ _ _ logged hinsert (stamp_of_committed hc) hsurvives.2
    refine ⟨_, h.survivor hl hs hc hd, hdata, ?_⟩
    exact (visit_newest (hl.stamp_pos hc).1 hidlt).mpr (by omega)

theorem Recovered.entries (h : Recovered base log r) (hlog : WellLogged log) (hrecoverable : Recoverable base log)
    {table : ℕ} {index : Index} (hindex : index ∈ (r.tables table).indexes) (key : IndexKey) (rid : RID) :
    (key, rid) ∈ index.entries ↔ ∃ data, Survives log (table, rid) data ∧
      (r.tables table).hasNull data index.fieldMetas = some false ∧ key = index.key data := by
  have hl := hlog.facts
  obtain ⟨hsound, hschema⟩ := h.kept table
  rw [hsound.consistent index hindex key rid]
  constructor
  · rintro ⟨record, hrecord, hnull, hkey⟩
    have hversion : versionOf r.tables (table, rid) = some record := hrecord
    obtain ⟨s, hs, hc, -, hdata, ⟨-, hd⟩ | ⟨t, hdeleter, htc, -⟩⟩ := h.row hl hversion
    · exact ⟨record.data, hl.survives_iff.mpr ⟨s, hs, hdata.symm, hc, hd⟩, hnull, hkey⟩
    · -- a deleted row has no entries
      obtain ⟨-, logged, hinsert, hlogged⟩ := hl.writer _ s hs
      have hdelete := (hl.deleter _ s t hs hdeleter).2.1
      obtain ⟨index', hindex', hmetas, -⟩ := hschema.exists_index hindex
      rw [hschema.hasNull, hdata, ← hlogged, ← hmetas] at hnull
      exact absurd hnull (hrecoverable.unindexed t table rid hdelete htc s.writer logged hinsert hc index' hindex')
  · rintro ⟨data, hsurvives, hnull, hkey⟩
    obtain ⟨s, hs, hdata, hc, hd⟩ := hl.survives_iff.mp hsurvives
    refine ⟨_, h.survivor hl hs hc hd, ?_, ?_⟩
    · rw [hdata]
      exact hnull
    · rw [hdata]
      exact hkey

end Rows

def isUpdate : Act → Bool
  | .updateRecord _ _ _ _ => true
  | _ => false

/-- A call of a history of insertions and of deletions of visible rows. -/
def Plain (db : Db) (s : ℕ) (act : Act) (_ : RC) : Prop := Checked db.view s act ∧ isUpdate act = false

instance (db : Db) (s : ℕ) (act : Act) (rc : RC) : Decidable (Plain db s act rc) :=
  inferInstanceAs (Decidable (Checked db.view s act ∧ isUpdate act = false))

/-- Recovery over the log of any history of insertions and deletions, whatever has been committed, rolled back or left
open: when the log is recoverable, it succeeds and leaves exactly the rows and the index entries of the committed
transactions. -/
theorem recover_equivalent {walk : OperationSet → List Operation} (hwalk : ∀ set, (walk set).Perm set.toList)
    {base : ℕ → Table} (hnew : NewTables base) {db : Db} (hrun : Relation.ReflTransGen (Call Plain) (Db.create base) db)
    (hlt : db.currentTrxId < maxTrxId) (hrecoverable : Recoverable base db.log) :
    ∃ r, recover (fun _ => true) walk base db.log = some (.success, r) ∧ Equivalent db.log r := by
  have hbase := hnew.toEmpty
  have htracks : Tracks (fun _ => False) db.view db.log := by
    refine Tracks.run hbase (fun db s act rc hp => hp.1.proper) ?_ hrun hlt
    intro db s act rc htracks hpossible hp
    cases act with
    | insertRecord table data rid => exact fun _ => htracks.unused hpossible.2
    | deleteRecord table rid => exact fun record hrecord hend => htracks.undeleted hrecord hend
    | updateRecord table rid newData newRid => exact absurd hp.2 (by simp [isUpdate])
    | _ => trivial
  obtain ⟨r, hrecover, hrecovered⟩ := recover_isSome hwalk hbase htracks.logged hrecoverable.accepted
  refine ⟨r, hrecover, fun trxId hid hidlt => hrecovered.rows htracks.logged hrecoverable hid hidlt, ?_⟩
  intro table index hindex key rid
  exact hrecovered.entries htracks.logged hrecoverable hindex key rid

/-- A row with an index entry that stays, a row without one that is deleted, and a transaction that is still running. -/
theorem recover_equivalent_null :
    let calls := [(0, Act.startIfNeed), (0, .insertRecord 0 [0, 7, 0, 0, 0] ⟨1, 0⟩),
      (0, .insertRecord 0 [2, 0, 0, 0, 0] ⟨1, 1⟩), (0, .commit [⟨.insert, 0, ⟨1, 0⟩⟩, ⟨.insert, 0, ⟨1, 1⟩⟩]),
      (0, .startIfNeed), (0, .deleteRecord 0 ⟨1, 1⟩), (0, .commit [⟨.delete, 0, ⟨1, 1⟩⟩]), (1, .startIfNeed),
      (1, .insertRecord 0 [0, 8, 0, 0, 0] ⟨1, 2⟩)]
    ∃ db r, runCalls Plain (Db.create indexedTable) calls = some db ∧
      recover (fun _ => true) OperationSet.toList indexedTable db.log = some (.success, r) ∧ Equivalent db.log r := by
  intro calls
  obtain ⟨db, hrun, hobserved⟩ := Option.map_eq_some_iff.mp (show (runCalls Plain (Db.create indexedTable) calls).map
    (fun db => (db.currentTrxId, db.log)) = some (5,
      [.mtrBegin 1, .insert 1 0 ⟨1, 0⟩ ⟨-1, maxTrxId, [0, 7, 0, 0, 0]⟩, .insert 1 0 ⟨1, 1⟩ ⟨-1, maxTrxId, [2, 0, 0, 0, 0]⟩,
        .mtrCommit 1 2, .mtrBegin 3, .delete 3 0 ⟨1, 1⟩, .mtrCommit 3 4, .mtrBegin 5,
        .insert 5 0 ⟨1, 2⟩ ⟨-5, maxTrxId, [0, 8, 0, 0, 0]⟩]) by decide +kernel)
  obtain ⟨hcurrent, hlog⟩ := Prod.mk.inj hobserved
  have hrecoverable : Recoverable indexedTable db.log := by
    rw [hlog]
    refine ⟨?_, ?_, ?_, ?_, ?_⟩
    · intro front record _
      cases record with
      | insert t table rid record => exact ⟨rfl, indexedTable_fresh _ _ _⟩
      | delete t table rid => exact rfl
      | _ => trivial
    · intro t table rid record hinsert hdelete
      simp at hinsert hdelete
      omega
    · intro t table rid hdelete _ t' record hinsert _ index hindex
      obtain ⟨rfl, rfl, rfl⟩ : t = 3 ∧ table = 0 ∧ rid = ⟨1, 1⟩ := by simpa using hdelete
      obtain ⟨rfl, rfl⟩ : t' = 1 ∧ record = ⟨-1, maxTrxId, [2, 0, 0, 0, 0]⟩ := by simpa using hinsert
      fin_cases hindex
      decide
    · intro t c table rid record _ hcommit _
      have hc : c = 2 ∨ c = 4 := by
        simp at hcommit
        omega
      have hbegun : maxBegun [.mtrBegin 1, .insert 1 0 ⟨1, 0⟩ ⟨-1, maxTrxId, [0, 7, 0, 0, 0]⟩,
          .insert 1 0 ⟨1, 1⟩ ⟨-1, maxTrxId, [2, 0, 0, 0, 0]⟩, .mtrCommit 1 2, .mtrBegin 3, .delete 3 0 ⟨1, 1⟩,
          .mtrCommit 3 4, .mtrBegin 5, .insert 5 0 ⟨1, 2⟩ ⟨-5, maxTrxId, [0, 8, 0, 0, 0]⟩] = 5 := by decide
      omega
    · intro t c table rid _ hcommit
      have hc : c = 2 ∨ c = 4 := by
        simp at hcommit
        omega
      have hbegun : maxBegun [.mtrBegin 1, .insert 1 0 ⟨1, 0⟩ ⟨-1, maxTrxId, [0, 7, 0, 0, 0]⟩,
          .insert 1 0 ⟨1, 1⟩ ⟨-1, maxTrxId, [2, 0, 0, 0, 0]⟩, .mtrCommit 1 2, .mtrBegin 3, .delete 3 0 ⟨1, 1⟩,
          .mtrCommit 3 4, .mtrBegin 5, .insert 5 0 ⟨1, 2⟩ ⟨-5, maxTrxId, [0, 8, 0, 0, 0]⟩] = 5 := by decide
      omega
  obtain ⟨r, hrecover, hequivalent⟩ := recover_equivalent (fun ops : OperationSet => List.Perm.refl ops.toList)
    indexedTable_new (runCalls_calls hrun) (by rw [hcurrent]; decide) hrecoverable
  exact ⟨db, r, hrun, hrecover, hequivalent⟩

/-- A row is inserted and deleted by committed transactions: recovery leaves its index entry. -/
theorem recover_keeps_entry :
    let calls := [(0, Act.startIfNeed), (0, .insertRecord 0 [0, 7, 0, 0, 0] ⟨1, 0⟩), (0, .commit [⟨.insert, 0, ⟨1, 0⟩⟩]),
      (0, .startIfNeed), (0, .deleteRecord 0 ⟨1, 0⟩), (0, .commit [⟨.delete, 0, ⟨1, 0⟩⟩]), (0, .startIfNeed)]
    ∃ db r, runCalls Plain (Db.create indexedTable) calls = some db ∧
      recover (fun _ => true) OperationSet.toList indexedTable db.log = some (.success, r) ∧ ¬ Equivalent db.log r := by
  intro calls
  obtain ⟨db, hrun, hobserved⟩ := Option.map_eq_some_iff.mp (show (runCalls Plain (Db.create indexedTable) calls).map
    (fun db => (db.log, (recover (fun _ => true) OperationSet.toList indexedTable db.log).map fun x =>
      (x.1, (x.2.tables 0).indexes))) =
        some ([.mtrBegin 1, .insert 1 0 ⟨1, 0⟩ ⟨-1, maxTrxId, [0, 7, 0, 0, 0]⟩, .mtrCommit 1 2, .mtrBegin 3,
          .delete 3 0 ⟨1, 0⟩, .mtrCommit 3 4, .mtrBegin 5],
          some (.success, [⟨[⟨.ints, 1, 4⟩], false, {([Sum.inl 7], ⟨1, 0⟩)}⟩])) by decide +kernel)
  obtain ⟨hlog, hrecover⟩ := Prod.mk.inj hobserved
  obtain ⟨⟨rc, r⟩, hrecover, hstate⟩ := Option.map_eq_some_iff.mp hrecover
  obtain ⟨rfl, hindexes⟩ := Prod.mk.inj hstate
  refine ⟨db, r, hrun, hrecover, fun hequivalent => ?_⟩
  have hmem : (⟨[⟨.ints, 1, 4⟩], false, {([Sum.inl 7], ⟨1, 0⟩)}⟩ : Index) ∈ (r.tables 0).indexes := by
    rw [hindexes]
    exact List.mem_singleton_self _
  obtain ⟨data, ⟨-, hdeletes⟩, -⟩ := (hequivalent.entries 0 _ hmem [Sum.inl 7] ⟨1, 0⟩).mp (Finset.mem_singleton_self _)
  rw [hlog] at hdeletes
  exact hdeletes 3 (by simp) ⟨4, by simp⟩

end Landbase.Clog
