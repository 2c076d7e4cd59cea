import Landbase.Clog.Replay

/-! # Running transactions and their log

The log that running transactions write is well logged, and the versions that they leave agree with it. This is the same
agreement that recovery keeps, up to two things: the versions of transactions that an earlier recovery has undone are gone
(`dead`), and a failed update leaves a mark that is not logged.
-/

namespace Landbase.Clog
open Landbase.Storage Landbase.Trx
set_option autoImplicit false

/-! ## The records of a call -/

/-- What a call that returns this code adds to the log. -/
def recordsOf (v : View) (s : ℕ) (rc : RC) : Act → List CLogRecord
  | .startIfNeed => if (v.trxes s).started then [] else [.mtrBegin (v.current + 1)]
  | .insertRecord table data rid =>
    if rc = .success then [.insert (v.trxId s) table rid ⟨-v.trxId s, maxTrxId, data⟩] else []
  | .deleteRecord table rid =>
    if (v.version (table, rid)).any fun record => record.endXid = maxTrxId then [.delete (v.trxId s) table rid] else []
  | .updateRecord table rid newData newRid =>
    if rc = .success then
      [.delete (v.trxId s) table rid, .insert (v.trxId s) table newRid ⟨-v.trxId s, maxTrxId, newData⟩]
    else []
  | .visitRecord _ _ _ => []
  | .commit _ => [.mtrCommit (v.trxId s) (v.current + 1)]
  | .rollback _ => [.mtrRollback (v.trxId s)]

theorem step_log {db db' : Db} {s : ℕ} {act : Act} {rc : RC} (hrecovering : (db.trxes s).recovering = false)
    (hfresh : ∀ table data rid, act = .insertRecord table data rid → ∀ op ∈ db.view.operations s, op.addr ≠ (table, rid))
    (h : db.step s act = some (rc, db')) : db'.log = db.log ++ recordsOf db.view s rc act := by
  cases act with
  | startIfNeed =>
    simp only [Db.step, Db.startIfNeed] at h
    simp only [recordsOf]
    split at h
    · next hstarted =>
      obtain ⟨rfl, rfl⟩ := Prod.mk.inj (Option.some.inj h)
      rw [show (db.view.trxes s).started = true from hstarted, if_pos rfl, List.append_nil]
    · next hstarted =>
      split at h
      · cases h
      · obtain ⟨rfl, rfl⟩ := Prod.mk.inj (Option.some.inj h)
        have hstarted' : ¬ (db.view.trxes s).started = true := hstarted
        rw [if_neg hstarted']
        rfl
  | insertRecord table data rid =>
    have hrun : db.insertRecord s table data rid = (rc, db') := Option.some.inj h
    have hinserted : ((db.trxes s).operations.insert ⟨.insert, table, rid⟩).1 = true := by
      unfold OperationSet.insert
      rw [dif_neg]
      intro hmem
      obtain ⟨op, hop, haddr⟩ := List.mem_map.mp hmem
      exact hfresh table data rid rfl op hop haddr
    by_cases hrc : ((db.tables table).insertRecord ⟨-(db.trxes s).trxId, maxTrxId, data⟩ rid).1 = .success
    · have hcode : (db.insertRecord s table data rid).1 = .success := by
        unfold Db.insertRecord
        dsimp only
        rw [if_neg (not_not.mpr hrc), hinserted, if_pos rfl]
      have hlog : (db.insertRecord s table data rid).2.log =
          db.log ++ [.insert (db.trxes s).trxId table rid ⟨-(db.trxes s).trxId, maxTrxId, data⟩] := by
        unfold Db.insertRecord
        dsimp only
        rw [if_neg (not_not.mpr hrc)]
        rfl
      rw [hrun] at hcode hlog
      simp only [recordsOf]
      rw [if_pos hcode]
      exact hlog
    · have hrun' : db.insertRecord s table data rid =
          (((db.tables table).insertRecord ⟨-(db.trxes s).trxId, maxTrxId, data⟩ rid).1,
            db.setTable table ((db.tables table).insertRecord ⟨-(db.trxes s).trxId, maxTrxId, data⟩ rid).2) := by
        unfold Db.insertRecord
        dsimp only
        rw [if_pos hrc]
      rw [hrun, Prod.mk.injEq] at hrun'
      obtain ⟨hcode, rfl⟩ := hrun'
      simp only [recordsOf]
      rw [if_neg (hcode ▸ hrc), List.append_nil]
      rfl
  | deleteRecord table rid =>
    simp only [Db.step, Db.deleteRecord, Option.bind_eq_bind, Option.bind_eq_some_iff] at h
    obtain ⟨record, hrecord, h⟩ := h
    have hversion : db.view.version (table, rid) = some record := hrecord
    simp only [recordsOf]
    rw [hversion, Option.any_some]
    split at h
    · cases h
    · split at h
      · next hold =>
        obtain ⟨rfl, rfl⟩ := Prod.mk.inj (Option.some.inj h)
        rw [if_neg (by simpa using hold), List.append_nil]
      · next hnew =>
        obtain ⟨rfl, rfl⟩ := Prod.mk.inj (Option.some.inj h)
        rw [if_pos (by simpa using hnew)]
        rfl
  | updateRecord table rid newData newRid =>
    simp only [Db.step, Db.updateRecord, Option.bind_eq_bind, Option.bind_eq_some_iff] at h
    obtain ⟨record, hrecord, h⟩ := h
    simp only [recordsOf]
    split at h
    · next hvisit =>
      obtain ⟨rfl, rfl⟩ := Prod.mk.inj (Option.some.inj h)
      rw [if_neg hvisit, List.append_nil]
    · split at h
      · next hrc =>
        obtain ⟨rfl, rfl⟩ := Prod.mk.inj (Option.some.inj h)
        rw [if_neg hrc, List.append_nil]
        rfl
      · obtain ⟨rfl, rfl⟩ := Prod.mk.inj (Option.some.inj h)
        rw [if_pos rfl]
        exact List.append_assoc _ _ _
  | visitRecord table rid readonly =>
    simp only [Db.step, Option.bind_eq_bind, Option.bind_eq_some_iff] at h
    obtain ⟨record, -, h⟩ := h
    obtain ⟨rfl, rfl⟩ := Prod.mk.inj (Option.some.inj h)
    exact (List.append_nil _).symm
  | commit order =>
    simp only [Db.step, Db.commit, Db.commitWithTrxId, Option.bind_eq_bind, Option.bind_eq_some_iff] at h
    obtain ⟨tables, -, h⟩ := h
    rw [if_neg (by simp [hrecovering])] at h
    obtain ⟨rfl, rfl⟩ := Prod.mk.inj (Option.some.inj h)
    rfl
  | rollback order =>
    simp only [Db.step, Db.rollback, Option.bind_eq_bind, Option.bind_eq_some_iff] at h
    obtain ⟨tables, -, h⟩ := h
    rw [if_neg (by simp [hrecovering])] at h
    obtain ⟨rfl, rfl⟩ := Prod.mk.inj (Option.some.inj h)
    rfl

/-- The table that a record of the log is about. -/
def recordTable : CLogRecord → Option ℕ
  | .insert _ table _ _ => some table
  | .delete _ table _ => some table
  | _ => none

/-- The table that a call is about. -/
def actTable : Act → Option ℕ
  | .insertRecord table _ _ => some table
  | .deleteRecord table _ => some table
  | .updateRecord table _ _ _ => some table
  | .visitRecord table _ _ => some table
  | _ => none

/-- The log grows by records about the table of the call. -/
def Extends (act : Act) (log log' : List CLogRecord) : Prop :=
  ∃ records, log' = log ++ records ∧ ∀ record ∈ records, ∀ id, recordTable record = some id → actTable act = some id

theorem Extends.refl (act : Act) (log : List CLogRecord) : Extends act log log := ⟨[], by simp⟩

theorem Extends.snoc {act : Act} {log log' : List CLogRecord} {record : CLogRecord} (h : Extends act log log')
    (hrecord : ∀ id, recordTable record = some id → actTable act = some id) : Extends act log (log' ++ [record]) := by
  obtain ⟨records, rfl, hrecords⟩ := h
  refine ⟨records ++ [record], List.append_assoc _ _ _, fun other hmem => ?_⟩
  cases List.mem_append.mp hmem with
  | inl hmem => exact hrecords other hmem
  | inr hmem =>
    rw [List.mem_singleton.mp hmem]
    exact hrecord

theorem step_suffix {db db' : Db} {s : ℕ} {act : Act} {rc : RC} (h : db.step s act = some (rc, db')) :
    Extends act db.log db'.log := by
  cases act with
  | startIfNeed =>
    simp only [Db.step, Db.startIfNeed] at h
    split at h
    · obtain ⟨rfl, rfl⟩ := Prod.mk.inj (Option.some.inj h)
      exact Extends.refl _ _
    · split at h
      · cases h
      · obtain ⟨rfl, rfl⟩ := Prod.mk.inj (Option.some.inj h)
        exact (Extends.refl _ _).snoc fun _ hid => hid
  | insertRecord table data rid =>
    have hrun : db.insertRecord s table data rid = (rc, db') := Option.some.inj h
    have hlog : Extends (.insertRecord table data rid) db.log (db.insertRecord s table data rid).2.log := by
      unfold Db.insertRecord
      dsimp only
      split
      · exact Extends.refl _ _
      · exact (Extends.refl _ _).snoc fun _ hid => hid
    rw [hrun] at hlog
    exact hlog
  | deleteRecord table rid =>
    simp only [Db.step, Db.deleteRecord, Option.bind_eq_bind, Option.bind_eq_some_iff] at h
    obtain ⟨record, -, h⟩ := h
    split at h
    · cases h
    · split at h
      · obtain ⟨rfl, rfl⟩ := Prod.mk.inj (Option.some.inj h)
        exact Extends.refl _ _
      · obtain ⟨rfl, rfl⟩ := Prod.mk.inj (Option.some.inj h)
        exact (Extends.refl _ _).snoc fun _ hid => hid
  | updateRecord table rid newData newRid =>
    simp only [Db.step, Db.updateRecord, Option.bind_eq_bind, Option.bind_eq_some_iff] at h
    obtain ⟨record, -, h⟩ := h
    split at h
    · obtain ⟨rfl, rfl⟩ := Prod.mk.inj (Option.some.inj h)
      exact Extends.refl _ _
    · split at h
      · obtain ⟨rfl, rfl⟩ := Prod.mk.inj (Option.some.inj h)
        exact Extends.refl _ _
      · obtain ⟨rfl, rfl⟩ := Prod.mk.inj (Option.some.inj h)
        refine Extends.snoc ?_ fun _ hid => hid
        exact (Extends.refl _ _).snoc fun _ hid => hid
  | visitRecord table rid readonly =>
    simp only [Db.step, Option.bind_eq_bind, Option.bind_eq_some_iff] at h
    obtain ⟨record, -, h⟩ := h
    obtain ⟨rfl, rfl⟩ := Prod.mk.inj (Option.some.inj h)
    exact Extends.refl _ _
  | commit order =>
    simp only [Db.step, Db.commit, Db.commitWithTrxId, Option.bind_eq_bind, Option.bind_eq_some_iff] at h
    obtain ⟨tables, -, h⟩ := h
    split at h
    · obtain ⟨rfl, rfl⟩ := Prod.mk.inj (Option.some.inj h)
      exact Extends.refl _ _
    · obtain ⟨rfl, rfl⟩ := Prod.mk.inj (Option.some.inj h)
      exact (Extends.refl _ _).snoc fun _ hid => hid
  | rollback order =>
    simp only [Db.step, Db.rollback, Option.bind_eq_bind, Option.bind_eq_some_iff] at h
    obtain ⟨tables, -, h⟩ := h
    split at h
    · obtain ⟨rfl, rfl⟩ := Prod.mk.inj (Option.some.inj h)
      exact Extends.refl _ _
    · obtain ⟨rfl, rfl⟩ := Prod.mk.inj (Option.some.inj h)
      exact (Extends.refl _ _).snoc fun _ hid => hid

theorem step_extends {db db' : Db} {s : ℕ} {act : Act} {rc : RC} (h : db.step s act = some (rc, db')) :
    db.log <+: db'.log := by
  obtain ⟨records, hlog, -⟩ := step_suffix h
  exact ⟨records, hlog.symm⟩

/-! ## Agreement of a running database -/

/-- The operations of the running transactions. -/
def sessionOps (v : View) (t : ℤ) (op : Operation) : Prop := ∃ s, v.Running s ∧ v.trxId s = t ∧ op ∈ v.operations s

structure Tracks (dead : ℤ → Prop) [DecidablePred dead] (v : View) (log : List CLogRecord) : Prop where
  ids : Ids v
  recovering : ∀ s, (v.trxes s).recovering = false
  logged : WellLogged log
  agrees : Agrees True dead log v.version (sessionOps v)
  running : ∀ s, v.Running s → Open log (v.trxId s) ∧ ¬ dead (v.trxId s)
  begun : ∀ t, .mtrBegin t ∈ log → t ≤ v.current

section Sessions

variable {v : View} {s : ℕ}

theorem sessionOps_iff (hids : Ids v) (hs : v.Running s) (op : Operation) :
    sessionOps v (v.trxId s) op ↔ op ∈ v.operations s := by
  refine ⟨fun ⟨s', hs', hid, hop⟩ => ?_, fun hop => ⟨s, hs, rfl, hop⟩⟩
  rw [← hids.distinct s' s hs' hs hid]
  exact hop

theorem notes_addOperation (hids : Ids v) (hs : v.Running s) (op : Operation) :
    Notes (sessionOps v) (v.trxId s) op (sessionOps (v.addOperation s op)) := by
  have hown := sessionOps_iff hids hs
  intro t other
  constructor
  · rintro ⟨s', hs', rfl, hop⟩
    rw [View.addOperation_running] at hs'
    rw [View.addOperation_trxId]
    rcases (View.mem_addOperation v s s' op other).mp hop with hop | ⟨rfl, rfl, hnew⟩
    · exact Or.inl ⟨s', hs', rfl, hop⟩
    · refine Or.inr ⟨rfl, rfl, fun old hold haddr => hnew ?_⟩
      exact List.mem_map.mpr ⟨old, (hown old).mp hold, haddr⟩
  · rintro (⟨s', hs', rfl, hop⟩ | ⟨rfl, rfl, hnew⟩)
    · exact ⟨s', (View.addOperation_running v s s' op).mpr hs', View.addOperation_trxId v s s' op,
        (View.mem_addOperation v s s' op other).mpr (Or.inl hop)⟩
    · refine ⟨s, (View.addOperation_running v s s other).mpr hs, View.addOperation_trxId v s s other,
        (View.mem_addOperation v s s other other).mpr (Or.inr ⟨rfl, rfl, fun hmem => ?_⟩)⟩
      obtain ⟨old, hold, haddr⟩ := List.mem_map.mp hmem
      exact hnew old ((hown old).mpr hold) haddr

theorem forgets_endTrx (hids : Ids v) (hs : v.Running s) (version : ℕ × RID → Option Record) :
    Forgets (sessionOps v) (v.trxId s) (sessionOps (v.endTrx s version)) := by
  intro t op
  constructor
  · rintro ⟨s', hs', rfl, hop⟩
    rw [View.endTrx_running] at hs'
    rw [View.endTrx_operations, if_neg hs'.1] at hop
    rw [View.endTrx_trxId]
    exact ⟨fun heq => hs'.1 (hids.distinct s' s hs'.2 hs heq), s', hs'.2, rfl, hop⟩
  · rintro ⟨hne, s', hs', rfl, hop⟩
    have hne' : s' ≠ s := fun heq => hne (by rw [heq])
    refine ⟨s', (View.endTrx_running v s s' version).mpr ⟨hne', hs'⟩, View.endTrx_trxId v s s' version, ?_⟩
    rw [View.endTrx_operations, if_neg hne']
    exact hop

theorem sessionOps_startTrx (hs : ¬ v.Running s) (hops : v.operations s = []) :
    sessionOps (v.startTrx s) = sessionOps v := by
  funext t op
  rw [eq_iff_iff]
  constructor
  · rintro ⟨s', hs', rfl, hop⟩
    rw [View.startTrx_operations] at hop
    have hne : s' ≠ s := by
      rintro rfl
      rw [hops] at hop
      cases hop
    refine ⟨s', ((View.startTrx_running v s s').mp hs').resolve_left hne, ?_, hop⟩
    rw [View.startTrx_trxId, if_neg hne]
  · rintro ⟨s', hs', rfl, hop⟩
    have hne : s' ≠ s := fun heq => hs (heq ▸ hs')
    refine ⟨s', (View.startTrx_running v s s').mpr (Or.inr hs'), ?_, ?_⟩
    · rw [View.startTrx_trxId, if_neg hne]
    · rw [View.startTrx_operations]
      exact hop

end Sessions

/-! ## Slots and rows of the log -/

/-- Every insertion into the slot has been rolled back. -/
def Unused (log : List CLogRecord) (addr : ℕ × RID) : Prop :=
  ∀ t record, .insert t addr.1 addr.2 record ∈ log → .mtrRollback t ∈ log

/-- Every deletion of the row has been rolled back. -/
def Undeleted (log : List CLogRecord) (addr : ℕ × RID) : Prop := ∀ t, .delete t addr.1 addr.2 ∈ log → .mtrRollback t ∈ log

section Rows

variable {log : List CLogRecord} {addr : ℕ × RID} {t : ℤ}

theorem LogFacts.unused_iff (hl : LogFacts log) : Unused log addr ↔ slots log addr = none := by
  constructor
  · intro h
    rw [Option.eq_none_iff_forall_ne_some]
    intro s hs
    obtain ⟨hnot, record, hlogged, -⟩ := hl.writer addr s hs
    exact hnot (h _ record hlogged)
  · intro h t record hlogged
    by_contra hnot
    obtain ⟨s, hs, -⟩ := hl.inserted t addr record hlogged hnot
    rw [h] at hs
    cases hs

theorem LogFacts.undeleted_iff (hl : LogFacts log) {s : Slot} (hs : slots log addr = some s) :
    Undeleted log addr ↔ s.deleter = none := by
  constructor
  · intro h
    rw [Option.eq_none_iff_forall_ne_some]
    intro t ht
    obtain ⟨hnot, hlogged, -⟩ := hl.deleter addr s t hs ht
    exact hnot (h t hlogged)
  · intro h t hlogged
    by_contra hnot
    obtain ⟨s', hs', hd⟩ := hl.deleted t addr hlogged hnot
    obtain rfl := Option.some.inj (hs.symm.trans hs')
    rw [h] at hd
    cases hd

theorem LogFacts.stamp_pos (hl : LogFacts log) (h : Committed log t) : 0 < stamp log t ∧ stamp log t < maxTrxId :=
  hl.commits t _ (stamp_of_committed h)

theorem LogFacts.stamp_neg (hl : LogFacts log) (hbegun : .mtrBegin t ∈ log) (h : ¬ Committed log t) : stamp log t < 0 := by
  have hpos := hl.begins t hbegun
  rw [stamp_of_not_committed h]
  omega

theorem LogFacts.begun_writer (hl : LogFacts log) {s : Slot} (hs : slots log addr = some s) : .mtrBegin s.writer ∈ log := by
  obtain ⟨-, record, hlogged, -⟩ := hl.writer addr s hs
  exact hl.begun _ hlogged

theorem LogFacts.begun_deleter (hl : LogFacts log) {s : Slot} (hs : slots log addr = some s) (hd : s.deleter = some t) :
    .mtrBegin t ∈ log := hl.begun _ (hl.deleter addr s t hs hd).2.1

end Rows

/-! ## The calls -/

namespace Tracks

variable {dead : ℤ → Prop} [DecidablePred dead] {v : View} {log : List CLogRecord} {s : ℕ}

theorem row (h : Tracks dead v log) {addr : ℕ × RID} {record : Record} (hrecord : v.version addr = some record) :
    ∃ slot, slots log addr = some slot ∧ ¬ dead slot.writer ∧ record.beginXid = stamp log slot.writer ∧
      record.data = slot.data ∧
      (record.endXid = Slot.endXid log { slot with deleter := slot.deleter.filter fun t => ¬ dead t } ∨
        record.endXid < 0) := by
  have hmatch := h.agrees.version addr
  rw [hrecord] at hmatch
  cases hs : slots log addr with
  | none =>
    rw [hs] at hmatch
    cases Matches.none_iff.mp hmatch
  | some slot =>
    rw [hs, Option.bind_some] at hmatch
    by_cases hdead : dead slot.writer
    · rw [Slot.without_of_dead hdead] at hmatch
      cases Matches.none_iff.mp hmatch
    · rw [Slot.without_of_not hdead] at hmatch
      obtain ⟨record', hrecord', hbegin, hdata, hend⟩ := Matches.some_iff.mp hmatch
      obtain rfl := Option.some.inj hrecord'
      exact ⟨slot, rfl, hdead, hbegin, hdata, hend.imp_right And.right⟩

theorem writer_cases (h : Tracks dead v log) {addr : ℕ × RID} {record : Record} {slot : Slot}
    (hslot : slots log addr = some slot) (hbegin : record.beginXid = stamp log slot.writer)
    (hown : record.beginXid < 0 → record.beginXid = -v.trxId s) :
    v.trxId s = slot.writer ∨ Committed log slot.writer := by
  by_cases hc : Committed log slot.writer
  · exact Or.inr hc
  · have hl := h.logged.facts
    have hneg := hl.stamp_neg (hl.begun_writer hslot) hc
    have hid := hown (by omega)
    rw [hbegin, stamp_of_not_committed hc] at hid
    exact Or.inl (by omega)

theorem snoc (h : Tracks dead v log) {v' : View} {record : CLogRecord} (hfits : Fits log record)
    (hbegin : ∀ t, record ≠ .mtrBegin t) (hcommit : ∀ t c, record ≠ .mtrCommit t c)
    (hrollback : ∀ t, record ≠ .mtrRollback t) (hcurrent : v'.current = v.current)
    (hrunning : ∀ s', v'.Running s' ↔ v.Running s') (hid : ∀ s', v'.trxId s' = v.trxId s')
    (hrecovering : ∀ s', (v'.trxes s').recovering = (v.trxes s').recovering)
    (hagrees : Agrees True dead (log ++ [record]) v'.version (sessionOps v')) : Tracks dead v' (log ++ [record]) := by
  refine ⟨?_, fun s' => (hrecovering s').trans (h.recovering s'), h.logged.snoc hfits, hagrees, ?_, ?_⟩
  · exact h.ids.mono (le_of_eq hcurrent.symm) (hcurrent ▸ h.ids.current_lt) (fun s' => (hrunning s').mp) hid
  · intro s' hs'
    rw [hid, open_snoc (hbegin _) (hcommit _) (hrollback _)]
    exact h.running s' ((hrunning s').mp hs')
  · intro t ht
    rw [hcurrent]
    exact h.begun t (((mem_snoc _ _).mp ht).resolve_right (Ne.symm (hbegin t)))

theorem recovering_addOperation (v : View) (s s' : ℕ) (op : Operation) :
    ((v.addOperation s op).trxes s').recovering = (v.trxes s').recovering := by
  unfold View.addOperation View.setTrx
  by_cases h : s' = s
  · subst h
    simp
  · simp [h]

theorem startTrx (h : Tracks dead v log) (hs : ¬ v.Running s) (hops : v.operations s = [])
    (hlt : v.current + 1 < maxTrxId) : Tracks dead (v.startTrx s) (log ++ [.mtrBegin (v.current + 1)]) := by
  have hl := h.logged.facts
  have hnew : .mtrBegin (v.current + 1) ∉ log := by
    intro hmem
    have := h.begun _ hmem
    omega
  have hfits : Fits log (.mtrBegin (v.current + 1)) := by
    have := h.ids.current_nonneg
    exact ⟨by omega, hnew⟩
  have hdead : ¬ dead (v.current + 1) := fun hd => hnew (h.agrees.dead_open _ hd).1
  refine ⟨h.ids.startTrx hlt, ?_, h.logged.snoc hfits, ?_, ?_, ?_⟩
  · intro s'
    unfold View.startTrx View.setTrx
    by_cases heq : s' = s
    · subst heq
      simpa using h.recovering s'
    · simpa [heq] using h.recovering s'
  · rw [sessionOps_startTrx hs hops]
    exact h.agrees.mtrBegin hl hfits
  · intro s' hs'
    rw [View.startTrx_trxId]
    split
    · refine ⟨⟨by simp, ?_, ?_⟩, hdead⟩
      · rw [committed_snoc]
        rintro (⟨c, hc⟩ | ⟨c, hc⟩)
        · exact hnew (hl.begun _ hc)
        · cases hc
      · rw [mem_snoc]
        rintro (hr | hr)
        · exact hnew (hl.begun _ hr)
        · cases hr
    · next hne =>
      have hrunning := ((View.startTrx_running v s s').mp hs').resolve_left hne
      have hid := (h.ids.ids s' hrunning).2
      rw [open_snoc (by rw [ne_eq, CLogRecord.mtrBegin.injEq]; omega) (by simp) (by simp)]
      exact h.running s' hrunning
  · intro t ht
    rw [View.startTrx_current]
    cases (mem_snoc _ _).mp ht with
    | inl ht =>
      have := h.begun t ht
      omega
    | inr ht =>
      rw [CLogRecord.mtrBegin.injEq] at ht
      exact le_of_eq ht

theorem insertVersion (h : Tracks dead v log) (hs : v.Running s) {table : ℕ} {rid : RID}
    (hfree : slots log (table, rid) = none) (data : Bytes) :
    Tracks dead ((v.setVersion (table, rid) ⟨-v.trxId s, maxTrxId, data⟩).addOperation s ⟨.insert, table, rid⟩)
      (log ++ [.insert (v.trxId s) table rid ⟨-v.trxId s, maxTrxId, data⟩]) := by
  obtain ⟨hopen, hlive⟩ := h.running s hs
  have hfits : Fits log (.insert (v.trxId s) table rid ⟨-v.trxId s, maxTrxId, data⟩) := ⟨hopen, hfree, rfl, rfl⟩
  refine h.snoc hfits (by simp) (by simp) (by simp) rfl (fun s' => ?_) (fun s' => ?_) (fun s' => ?_) ?_
  · rw [View.addOperation_running, View.setVersion_running]
  · rw [View.addOperation_trxId, View.setVersion_trxId]
  · exact recovering_addOperation _ _ _ _
  · exact h.agrees.insert hfits hlive (notes_addOperation h.ids hs _)

theorem mark (h : Tracks dead v log) (hs : v.Running s) {table : ℕ} {rid : RID} {record : Record}
    (hrecord : v.version (table, rid) = some record) (hundeleted : Undeleted log (table, rid))
    (hown : record.beginXid < 0 → record.beginXid = -v.trxId s) :
    Tracks dead ((v.setVersion (table, rid) { record with endXid := -v.trxId s }).addOperation s ⟨.delete, table, rid⟩)
      (log ++ [.delete (v.trxId s) table rid]) := by
  obtain ⟨hopen, hlive⟩ := h.running s hs
  obtain ⟨slot, hslot, -, hbegin, -⟩ := h.row hrecord
  have hfits : Fits log (.delete (v.trxId s) table rid) :=
    ⟨hopen, slot, hslot, (h.logged.facts.undeleted_iff hslot).mp hundeleted, h.writer_cases hslot hbegin hown⟩
  refine h.snoc hfits (by simp) (by simp) (by simp) rfl (fun s' => ?_) (fun s' => ?_) (fun s' => ?_) ?_
  · rw [View.addOperation_running, View.setVersion_running]
  · rw [View.addOperation_trxId, View.setVersion_trxId]
  · exact recovering_addOperation _ _ _ _
  · exact h.agrees.delete hfits hlive (notes_addOperation h.ids hs _) hrecord

theorem markLoose (h : Tracks dead v log) (hs : v.Running s) {addr : ℕ × RID} {record : Record}
    (hrecord : v.version addr = some record) : Tracks dead (v.setVersion addr { record with endXid := -v.trxId s }) log := by
  refine ⟨⟨h.ids.current_nonneg, h.ids.current_lt, h.ids.ids, h.ids.distinct⟩, h.recovering, h.logged,
    ⟨h.agrees.dead_open, fun addr' => ?_, h.agrees.ops⟩, h.running, h.begun⟩
  have hmatch := h.agrees.version addr'
  rw [View.setVersion_version]
  by_cases haddr : addr' = addr
  · subst haddr
    rw [Function.update_self]
    rw [hrecord] at hmatch
    cases hslot : (slots log addr').bind (Slot.without dead) with
    | none =>
      rw [hslot] at hmatch
      cases Matches.none_iff.mp hmatch
    | some slot =>
      rw [hslot] at hmatch
      obtain ⟨record', hrecord', hbegin, hdata, -⟩ := Matches.some_iff.mp hmatch
      obtain rfl := Option.some.inj hrecord'
      refine Matches.some_iff.mpr ⟨_, rfl, hbegin, hdata, Or.inr ⟨trivial, ?_⟩⟩
      have := (h.ids.ids s hs).1
      show -v.trxId s < 0
      omega
  · rw [Function.update_of_ne haddr]
    exact hmatch

theorem endTrx (h : Tracks dead v log) (hs : v.Running s) {record : CLogRecord} (hfits : Fits log record)
    (hrecord : record = .mtrRollback (v.trxId s) ∨ ∃ c, record = .mtrCommit (v.trxId s) c) {current : ℤ}
    (hcurrent : v.current ≤ current) (hlt : current < maxTrxId) {version : ℕ × RID → Option Record}
    (hagrees : Agrees True dead (log ++ [record]) version (sessionOps ({ v with current := current }.endTrx s version))) :
    Tracks dead ({ v with current := current }.endTrx s version) (log ++ [record]) := by
  have hid : ∀ s', ({ v with current := current }.endTrx s version).trxId s' = v.trxId s' :=
    fun s' => View.endTrx_trxId _ s s' version
  have hrunning : ∀ s', ({ v with current := current }.endTrx s version).Running s' → s' ≠ s ∧ v.Running s' :=
    fun s' => (View.endTrx_running _ s s' version).mp
  refine ⟨h.ids.mono hcurrent hlt (fun s' hs' => (hrunning s' hs').2) hid, ?_, h.logged.snoc hfits, hagrees, ?_, ?_⟩
  · intro s'
    unfold View.endTrx View.setTrx
    by_cases heq : s' = s
    · subst heq
      simpa using h.recovering s'
    · simpa [heq] using h.recovering s'
  · intro s' hs'
    obtain ⟨hne, hs'⟩ := hrunning s' hs'
    have hne' : v.trxId s' ≠ v.trxId s := fun heq => hne (h.ids.distinct s' s hs' hs heq)
    rw [hid, (Agrees.open_end hrecord).2 _ hne']
    exact h.running s' hs'
  · intro t ht
    have hold : .mtrBegin t ∈ log := by
      rcases (mem_snoc _ _).mp ht with ht | rfl
      · exact ht
      · rcases hrecord with heq | ⟨c, heq⟩ <;> cases heq
    exact le_trans (h.begun t hold) hcurrent

theorem commit (h : Tracks dead v log) (hs : v.Running s) (hlt : v.current + 1 < maxTrxId)
    {version : ℕ × RID → Option Record}
    (hwalk : Walked (commitRecord (v.trxId s) (v.current + 1)) (v.operations s) v.version version) :
    Tracks dead ({ v with current := v.current + 1 }.endTrx s version)
      (log ++ [.mtrCommit (v.trxId s) (v.current + 1)]) := by
  obtain ⟨hopen, hlive⟩ := h.running s hs
  have hnonneg := h.ids.current_nonneg
  have hfits : Fits log (.mtrCommit (v.trxId s) (v.current + 1)) := ⟨hopen, by omega, hlt⟩
  refine h.endTrx hs hfits (Or.inr ⟨_, rfl⟩) (by omega) hlt ?_
  exact h.agrees.mtrCommit h.logged.facts hfits hlive (fun op => (sessionOps_iff h.ids hs op).symm) hwalk
    (forgets_endTrx h.ids hs version)

theorem rollback (h : Tracks dead v log) (hs : v.Running s) {version : ℕ × RID → Option Record}
    (hwalk : Walked (rollbackRecord (v.trxId s)) (v.operations s) v.version version) :
    Tracks dead (v.endTrx s version) (log ++ [.mtrRollback (v.trxId s)]) := by
  obtain ⟨hopen, hlive⟩ := h.running s hs
  have hfits : Fits log (.mtrRollback (v.trxId s)) := hopen
  refine h.endTrx hs hfits (Or.inl rfl) (le_refl _) h.ids.current_lt ?_
  exact h.agrees.mtrRollback h.logged.facts hfits hlive (fun op => (sessionOps_iff h.ids hs op).symm) hwalk
    (forgets_endTrx h.ids hs version)

theorem fresh_addr (h : Tracks dead v log) (hs : v.Running s) {addr : ℕ × RID} (hfree : v.version addr = none)
    {op : Operation} (hop : op ∈ v.operations s) : op.addr ≠ addr := by
  rintro rfl
  obtain ⟨-, hlive, hat⟩ := (h.agrees.ops _ op).mp ((sessionOps_iff h.ids hs op).mpr hop)
  obtain ⟨slot, hslot⟩ := opAt_isSome hat
  rw [opAt_of_eq_some hslot] at hat
  have hwriter : ¬ dead slot.writer := by
    split at hat
    · next hw => exact hw ▸ hlive
    · next hw =>
      split at hat
      · next hd =>
        refine fun hdead => (h.agrees.dead_open _ hdead).2.1 ?_
        exact (h.logged.facts.deleter _ slot _ hslot hd).2.2.resolve_left (Ne.symm hw)
      · cases hat
  obtain ⟨record, hrecord, -⟩ := h.agrees.stored hslot hwriter
  rw [hfree] at hrecord
  cases hrecord

end Tracks

/-- The log allows for what a call is to add to it: the slot of a new version is not used, and the version that is deleted
or updated has not been deleted before. -/
def Loggable (v : View) (log : List CLogRecord) (rc : RC) : Act → Prop
  | .insertRecord table _ rid => rc = .success → Unused log (table, rid)
  | .deleteRecord table rid => ∀ record, v.version (table, rid) = some record → record.endXid = maxTrxId →
      Undeleted log (table, rid)
  | .updateRecord table rid _ newRid => rc = .success → Undeleted log (table, rid) ∧ Unused log (table, newRid)
  | _ => True

namespace Tracks

variable {dead : ℤ → Prop} [DecidablePred dead]

theorem step {v v' : View} {log : List CLogRecord} {s : ℕ} {act : Act} {rc : RC} (h : Tracks dead v log)
    (heffect : Effect v s act rc v') (hproper : Proper v s act) (hloggable : Loggable v log rc act)
    (hlt : v'.current < maxTrxId) : Tracks dead v' (log ++ recordsOf v s rc act) := by
  have hsame : ∀ records, records = [] → Tracks dead v (log ++ records) := by
    rintro _ rfl
    rw [List.append_nil]
    exact h
  cases heffect with
  | running hstarted => exact hsame _ (if_pos hstarted)
  | start hstarted hops =>
    have hrecords : recordsOf v s .success .startIfNeed = [.mtrBegin (v.current + 1)] := if_neg (by simp [hstarted])
    rw [hrecords]
    exact h.startTrx (by simp [View.Running, hstarted]) hops hlt
  | insert hstarted table data rid hfree rc hrc =>
    have hinserted : ((v.trxes s).operations.insert ⟨.insert, table, rid⟩).1 = true := by
      unfold OperationSet.insert
      rw [dif_neg]
      intro hmem
      obtain ⟨op, hop, haddr⟩ := List.mem_map.mp hmem
      exact h.fresh_addr hstarted hfree hop haddr
    rw [hinserted, if_pos rfl] at hrc
    subst hrc
    exact h.insertVersion hstarted (h.logged.facts.unused_iff.mp (hloggable rfl)) data
  | insertRefused table data rid rc hrc => exact hsame _ (if_neg hrc)
  | deleteOld table rid record hrecord hpos hold =>
    refine hsame _ (if_neg ?_)
    rw [hrecord, Option.any_some]
    simpa using hold
  | delete hstarted table rid record hrecord hnew =>
    have hrecords : recordsOf v s .success (.deleteRecord table rid) = [.delete (v.trxId s) table rid] := by
      refine if_pos ?_
      rw [hrecord, Option.any_some]
      simpa using hnew
    rw [hrecords]
    exact h.mark hstarted hrecord (hloggable record hrecord hnew) (hproper record hrecord hnew)
  | updateConflict table rid newData newRid record hrecord hvisit => exact hsame _ (if_neg hvisit)
  | updateRefused hstarted table rid newData newRid record hrecord hvisit rc hrc =>
    have hrecords : recordsOf v s rc (.updateRecord table rid newData newRid) = [] := if_neg hrc
    rw [hrecords, List.append_nil]
    exact h.markLoose hstarted hrecord
  | update hstarted table rid newData newRid record hrecord hfree hvisit =>
    obtain ⟨hundeleted, hunused⟩ := hloggable rfl
    have hown : record.beginXid < 0 → record.beginXid = -v.trxId s := by
      intro hneg
      have hvisit' : visitRecord (v.trxId s) record false = .success := hvisit
      simp only [visitRecord] at hvisit'
      split_ifs at hvisit' <;> omega
    have hmarked := h.mark hstarted hrecord hundeleted hown
    -- the deletion is logged before the insertion
    have hunused' : Unused (log ++ [.delete (v.trxId s) table rid]) (table, newRid) := by
      intro t logged hlogged
      exact List.mem_append_left _ (hunused t logged (by simpa using hlogged))
    have hrunning : View.Running ((v.setVersion (table, rid) { record with endXid := -v.trxId s }).addOperation s
        ⟨.delete, table, rid⟩) s := (View.addOperation_running _ s s _).mpr hstarted
    have hdone := hmarked.insertVersion hrunning (hmarked.logged.facts.unused_iff.mp hunused') newData
    rw [View.addOperation_trxId, View.setVersion_trxId, List.append_assoc] at hdone
    exact hdone
  | visit table rid readonly record hrecord => exact hsame _ rfl
  | commit hstarted order version hwalk => exact h.commit hstarted hlt hwalk
  | rollback hstarted order version hwalk => exact h.rollback hstarted hwalk

theorem dbStep {db db' : Db} {s : ℕ} {act : Act} {rc : RC} (h : Tracks dead db.view db.log)
    (hpossible : act.Possible db s) (hproper : Proper db.view s act) (hloggable : Loggable db.view db.log rc act)
    (hstep : db.step s act = some (rc, db')) (hlt : db'.currentTrxId < maxTrxId) :
    Tracks dead db'.view db'.log ∧ db'.log = db.log ++ recordsOf db.view s rc act := by
  have hlog : db'.log = db.log ++ recordsOf db.view s rc act := by
    refine step_log (h.recovering s) ?_ hstep
    rintro table data rid rfl op hop
    exact h.fresh_addr hpossible.1 hpossible.2 hop
  rw [hlog]
  exact ⟨h.step (step_effect hpossible hstep) hproper hloggable hlt, rfl⟩

theorem create {tables : ℕ → Table} (h : ∀ addr, versionOf tables addr = none) :
    Tracks (fun _ => False) (Db.create tables).view (Db.create tables).log where
  ids := (create_fresh h).inv.toIds
  recovering _ := rfl
  logged := .nil
  agrees := by
    refine ⟨fun t ht => ht.elim, fun addr => Matches.none_iff.mpr (h addr), fun t op => ⟨?_, ?_⟩⟩
    · rintro ⟨s, hs, -⟩
      cases hs
    · rintro ⟨hopen, -⟩
      cases hopen.1
  running s hs := by cases hs
  begun t ht := by cases ht

/-- As long as no recovery has undone transactions, a free slot is unused and a version without a mark is undeleted. -/
theorem unused {v : View} {log : List CLogRecord} (h : Tracks (fun _ => False) v log) {addr : ℕ × RID}
    (hfree : v.version addr = none) : Unused log addr := by
  rw [h.logged.facts.unused_iff, Option.eq_none_iff_forall_ne_some]
  intro slot hslot
  obtain ⟨record, hrecord, -⟩ := h.agrees.stored hslot id
  rw [hfree] at hrecord
  cases hrecord

theorem undeleted {v : View} {log : List CLogRecord} (h : Tracks (fun _ => False) v log) {addr : ℕ × RID} {record : Record}
    (hrecord : v.version addr = some record) (hend : record.endXid = maxTrxId) : Undeleted log addr := by
  have hl := h.logged.facts
  have hmax : (0 : ℤ) < maxTrxId := by decide
  obtain ⟨slot, hslot, -, -, -, hcase⟩ := h.row hrecord
  rw [hl.undeleted_iff hslot, Option.eq_none_iff_forall_ne_some]
  intro t hd
  cases hcase with
  | inl hcase =>
    have hkept : (slot.deleter.filter fun t => ¬ False) = some t := filter_live hd id
    by_cases hw : t = slot.writer
    · rw [Slot.endXid_of_own hkept hw] at hcase
      have := hl.begins t (hl.begun_deleter hslot hd)
      omega
    · rw [Slot.endXid_of_other hkept hw] at hcase
      by_cases hc : Committed log t
      · have := hl.stamp_pos hc
        omega
      · have := hl.stamp_neg (hl.begun_deleter hslot hd) hc
        omega
  | inr hcase => omega

end Tracks

end Landbase.Clog
