import Mathlib.Data.List.DropRight
import Landbase.Clog.LogFile
import Landbase.Trx.Invariant

/-! # The log buffer

`Db.log` is everything that has been appended: the log file, and behind it the records that wait in `CLogBuffer`. Only
`CLogManager::commit_trx` flushes the buffer, so what has been written ends with the last `MTR_COMMIT`; a crash loses the
rest. While the records that wait add up to `CLOG_BUFFER_SIZE` a new one is refused with `LOGBUF_FULL`. `start_if_need`,
`insert_record`, `delete_record` and `update_record` assert that this does not happen, and commit and rollback return the
code.

`Db.step` appends whatever it is given. `Db.stepLogged` is the call with the buffer, and the two are the same as long as the
buffer has room for the records of the call (`stepLogged_eq`).
-/

namespace Landbase.Trx
open Landbase.Storage Landbase.Clog.LogFile
set_option autoImplicit false

/-! ## Records and the buffer -/

/-- The bytes of a record, which begin with the two transaction fields. -/
def recordBytes (record : Record) : Bytes := int32Bytes record.beginXid ++ int32Bytes record.endXid ++ record.data

/-- The record that `CLogManager` builds. -/
def CLogRecord.build : CLogRecord → Clog.LogFile.CLogRecord
  | .mtrBegin trxId => .buildMtrRecord .mtrBegin (.ofInt trxId)
  | .insert trxId table rid record =>
    .buildDataRecord .insert (.ofInt trxId) (.ofInt table) (.ofInt rid.pageNum) (.ofInt rid.slotNum) 0 (recordBytes record)
  | .delete trxId table rid =>
    .buildDataRecord .delete (.ofInt trxId) (.ofInt table) (.ofInt rid.pageNum) (.ofInt rid.slotNum) 0 []
  | .mtrCommit trxId commitXid => .buildCommitRecord (.ofInt trxId) (.ofInt commitXid)
  | .mtrRollback trxId => .buildMtrRecord .mtrRollback (.ofInt trxId)

/-- `CLogRecord::logrec_len`. -/
def CLogRecord.logrecLen (record : CLogRecord) : ℤ := record.build.header.logrecLen

def CLogRecord.isCommit : CLogRecord → Bool
  | .mtrCommit _ _ => true
  | _ => false

/-- What has been written to the log file: everything up to the last commit. -/
def written (log : List CLogRecord) : List CLogRecord := log.rdropWhile fun record => !record.isCommit

/-- What waits in the buffer. -/
def waiting (log : List CLogRecord) : List CLogRecord := log.rtakeWhile fun record => !record.isCommit

/-- The buffer behind a log. -/
def bufferOf (log : List CLogRecord) : CLogBuffer :=
  ⟨(waiting log).map CLogRecord.build, ((waiting log).map CLogRecord.logrecLen).sum⟩

/-- Every one of the records is accepted when those before it have been appended. -/
def accepted : List CLogRecord → List CLogRecord → Bool
  | _, [] => true
  | log, record :: records =>
    decide (((bufferOf log).appendLogRecord record.build).1 = .success) && accepted (log ++ [record]) records

/-- A call with the log buffer. -/
def Db.stepLogged (db : Db) (session : ℕ) (act : Act) : Option (RC × Db) :=
  match db.step session act with
  | none => none
  | some (rc, db') =>
    if accepted db.log (db'.log.drop db.log.length) then some (rc, db')
    else
      match act with
      | .commit _ | .rollback _ => some (.logbufFull, { db' with log := db.log })
      | _ => none

/-- What the records of a call add to the buffer at most. -/
def Act.logSize : Act → ℤ
  | .startIfNeed | .visitRecord _ _ _ | .rollback _ => 0
  | .insertRecord _ data _ => dataHeaderSize + (8 + data.length)
  | .deleteRecord _ _ => dataHeaderSize
  | .updateRecord _ _ newData _ => dataHeaderSize + (dataHeaderSize + (8 + newData.length))
  | .commit _ => commitDataSize

/-- The buffer has room for the records of the call. -/
def Roomy (db : Db) (act : Act) : Prop := (bufferOf db.log).totalSize + act.logSize < clogBufferSize

instance (db : Db) (act : Act) : Decidable (Roomy db act) :=
  inferInstanceAs (Decidable ((bufferOf db.log).totalSize + act.logSize < clogBufferSize))

/-! ## Appending -/

section Appending

variable {log records : List CLogRecord} {record : CLogRecord}

theorem logrecLen_nonneg (record : CLogRecord) : 0 ≤ record.logrecLen := by
  cases record with
  | mtrBegin t => exact le_refl _
  | insert t table rid row => exact Int.add_nonneg (Int.natCast_nonneg _) (Int.natCast_nonneg _)
  | delete t table rid => exact Int.add_nonneg (Int.natCast_nonneg _) (Int.natCast_nonneg _)
  | mtrCommit t c => exact Int.natCast_nonneg _
  | mtrRollback t => exact le_refl _

theorem written_append_waiting (log : List CLogRecord) : written log ++ waiting log = log :=
  List.rdropWhile_append_rtakeWhile

theorem written_front (log : List CLogRecord) : written log <+: log := ⟨_, written_append_waiting log⟩

theorem not_commit_of_waiting (h : record ∈ waiting log) : record.isCommit = false := by
  have hnot := List.mem_rtakeWhile_imp h
  rwa [Bool.not_eq_true'] at hnot

/-- No commit is lost in a crash. -/
theorem mtrCommit_mem_written {t c : ℤ} : .mtrCommit t c ∈ written log ↔ .mtrCommit t c ∈ log := by
  refine ⟨fun h => (written_front log).subset h, fun h => ?_⟩
  rw [← written_append_waiting log, List.mem_append] at h
  exact h.resolve_right fun hwaiting => Bool.noConfusion (not_commit_of_waiting hwaiting)

/-- A commit flushes the buffer; any other record waits behind those that are there. -/
theorem bufferOf_snoc (log : List CLogRecord) (record : CLogRecord) :
    bufferOf (log ++ [record]) = if record.isCommit then .empty else
      ⟨(bufferOf log).logRecords ++ [record.build], (bufferOf log).totalSize + record.logrecLen⟩ := by
  unfold bufferOf waiting
  rw [List.rtakeWhile_concat]
  cases record.isCommit with
  | true => rfl
  | false => simp

theorem totalSize_nonneg (log : List CLogRecord) : 0 ≤ (bufferOf log).totalSize := by
  refine List.sum_nonneg fun len hlen => ?_
  obtain ⟨record, -, rfl⟩ := List.mem_map.mp hlen
  exact logrecLen_nonneg record

theorem totalSize_snoc_le (log : List CLogRecord) (record : CLogRecord) :
    (bufferOf (log ++ [record])).totalSize ≤ (bufferOf log).totalSize + record.logrecLen := by
  rw [bufferOf_snoc]
  split
  · exact Int.add_nonneg (totalSize_nonneg log) (logrecLen_nonneg record)
  · exact le_refl _

theorem accepted_of_room (h : (bufferOf log).totalSize + (records.map CLogRecord.logrecLen).sum < clogBufferSize) :
    accepted log records = true := by
  induction records generalizing log with
  | nil => rfl
  | cons record records ih =>
    rw [List.map_cons, List.sum_cons] at h
    have hrest : 0 ≤ (records.map CLogRecord.logrecLen).sum := by
      refine List.sum_nonneg fun len hlen => ?_
      obtain ⟨other, -, rfl⟩ := List.mem_map.mp hlen
      exact logrecLen_nonneg other
    have hroom : ¬ (bufferOf log).totalSize + record.build.header.logrecLen ≥ clogBufferSize := by
      have : record.logrecLen = record.build.header.logrecLen := rfl
      omega
    have hnext := totalSize_snoc_le log record
    rw [accepted, CLogBuffer.appendLogRecord, if_neg hroom, ih (by omega)]
    rfl

end Appending

/-! ## The records of a call -/

theorem length_recordBytes (record : Record) : (recordBytes record).length = 8 + record.data.length := by
  simp [recordBytes, int32Bytes]
  omega

theorem logrecLen_insert (t : ℤ) (table : ℕ) (rid : RID) (record : Record) :
    (CLogRecord.insert t table rid record).logrecLen = dataHeaderSize + (8 + record.data.length) := by
  show ((dataHeaderSize : ℕ) : ℤ) + ((recordBytes record).length : ℤ) = _
  rw [length_recordBytes]
  push_cast
  rfl

/-- The log grows by the records of the call. -/
theorem step_appends {db db' : Db} {s : ℕ} {act : Act} {rc : RC} (h : db.step s act = some (rc, db')) :
    ∃ records, db'.log = db.log ++ records ∧ (records.map CLogRecord.logrecLen).sum ≤ act.logSize := by
  have hnone : db'.log = db.log → 0 ≤ act.logSize →
      ∃ records, db'.log = db.log ++ records ∧ (records.map CLogRecord.logrecLen).sum ≤ act.logSize :=
    fun hlog hsize => ⟨[], by rw [hlog, List.append_nil], hsize⟩
  have hone : ∀ record : CLogRecord, db'.log = db.log ++ [record] → record.logrecLen ≤ act.logSize →
      ∃ records, db'.log = db.log ++ records ∧ (records.map CLogRecord.logrecLen).sum ≤ act.logSize :=
    fun record hlog hsize => ⟨[record], hlog, by rwa [List.map_singleton, List.sum_singleton]⟩
  cases act with
  | startIfNeed =>
    simp only [Db.step, Db.startIfNeed] at h
    split at h
    · obtain ⟨-, rfl⟩ := Prod.mk.inj (Option.some.inj h)
      exact hnone rfl (le_refl _)
    · split at h
      · cases h
      · obtain ⟨-, rfl⟩ := Prod.mk.inj (Option.some.inj h)
        exact hone _ rfl (le_refl _)
  | insertRecord table data rid =>
    simp only [Db.step, Db.insertRecord] at h
    split at h
    · obtain ⟨-, rfl⟩ := Prod.mk.inj (Option.some.inj h)
      exact hnone rfl (by simp only [Act.logSize]; omega)
    · obtain ⟨-, rfl⟩ := Prod.mk.inj (Option.some.inj h)
      exact hone _ rfl (le_of_eq (logrecLen_insert _ _ _ _))
  | deleteRecord table rid =>
    simp only [Db.step, Db.deleteRecord, Option.bind_eq_bind, Option.bind_eq_some_iff] at h
    obtain ⟨record, -, h⟩ := h
    split at h
    · cases h
    · split at h
      · obtain ⟨-, rfl⟩ := Prod.mk.inj (Option.some.inj h)
        exact hnone rfl (by simp only [Act.logSize]; omega)
      · obtain ⟨-, rfl⟩ := Prod.mk.inj (Option.some.inj h)
        exact hone _ rfl (le_refl _)
  | updateRecord table rid newData newRid =>
    simp only [Db.step, Db.updateRecord, Option.bind_eq_bind, Option.bind_eq_some_iff] at h
    obtain ⟨record, -, h⟩ := h
    split at h
    · obtain ⟨-, rfl⟩ := Prod.mk.inj (Option.some.inj h)
      exact hnone rfl (by simp only [Act.logSize]; omega)
    · split at h
      · obtain ⟨-, rfl⟩ := Prod.mk.inj (Option.some.inj h)
        exact hnone rfl (by simp only [Act.logSize]; omega)
      · obtain ⟨-, rfl⟩ := Prod.mk.inj (Option.some.inj h)
        refine ⟨[_, _], (List.append_assoc _ _ _).trans rfl, ?_⟩
        rw [List.map_cons, List.map_singleton, List.sum_cons, List.sum_singleton, logrecLen_insert]
        exact le_refl _
  | visitRecord table rid readonly =>
    simp only [Db.step, Option.bind_eq_bind, Option.bind_eq_some_iff] at h
    obtain ⟨record, -, h⟩ := h
    obtain ⟨-, rfl⟩ := Prod.mk.inj (Option.some.inj h)
    exact hnone rfl (le_refl _)
  | commit order =>
    simp only [Db.step, Db.commit, Db.commitWithTrxId, Option.bind_eq_bind, Option.bind_eq_some_iff] at h
    obtain ⟨tables, -, h⟩ := h
    split at h
    · obtain ⟨-, rfl⟩ := Prod.mk.inj (Option.some.inj h)
      exact hnone rfl (by simp only [Act.logSize]; omega)
    · obtain ⟨-, rfl⟩ := Prod.mk.inj (Option.some.inj h)
      exact hone _ rfl (le_refl _)
  | rollback order =>
    simp only [Db.step, Db.rollback, Option.bind_eq_bind, Option.bind_eq_some_iff] at h
    obtain ⟨tables, -, h⟩ := h
    split at h
    · obtain ⟨-, rfl⟩ := Prod.mk.inj (Option.some.inj h)
      exact hnone rfl (le_refl _)
    · obtain ⟨-, rfl⟩ := Prod.mk.inj (Option.some.inj h)
      exact hone _ rfl (le_refl _)

/-- With room in the buffer no record is refused. -/
theorem stepLogged_eq {db : Db} {act : Act} (hroom : Roomy db act) (s : ℕ) : db.stepLogged s act = db.step s act := by
  unfold Db.stepLogged
  cases hstep : db.step s act with
  | none => rfl
  | some r =>
    obtain ⟨rc, db'⟩ := r
    obtain ⟨records, hlog, hsize⟩ := step_appends hstep
    have haccepted : accepted db.log (db'.log.drop db.log.length) = true := by
      rw [hlog, List.drop_left]
      unfold Roomy at hroom
      exact accepted_of_room (by omega)
    show (if accepted db.log (db'.log.drop db.log.length) = true then some (rc, db') else _) = _
    rw [if_pos haccepted]

/-! ## Runs -/

/-- One call of some session that finds room in the log buffer. -/
def LoggedStep (P : View → ℕ → Act → Prop) (db db' : Db) : Prop :=
  ∃ s act rc, act.Possible db s ∧ P db.view s act ∧ Roomy db act ∧ db.stepLogged s act = some (rc, db')

theorem LoggedStep.step {P : View → ℕ → Act → Prop} {db db' : Db} (h : LoggedStep P db db') : Step P db db' := by
  obtain ⟨s, act, rc, hpossible, hP, hroom, hstep⟩ := h
  rw [stepLogged_eq hroom] at hstep
  exact ⟨s, act, rc, hpossible, hP, hstep⟩

theorem LoggedStep.run {P : View → ℕ → Act → Prop} {db db' : Db} (h : Relation.ReflTransGen (LoggedStep P) db db') :
    Relation.ReflTransGen (Step P) db db' := by
  induction h with
  | refl => exact Relation.ReflTransGen.refl
  | tail _ hstep ih => exact ih.tail hstep.step

/-- A sequence of calls, each of which finds room. -/
theorem runActs_loggedSteps {P : View → ℕ → Act → Prop} {acts : List (ℕ × Act)} {db db' : Db}
    (hP : ∀ i (hi : i < acts.length) db₁, db.runActs (acts.take i) = some db₁ →
      P db₁.view (acts.get ⟨i, hi⟩).1 (acts.get ⟨i, hi⟩).2 ∧ Roomy db₁ (acts.get ⟨i, hi⟩).2)
    (h : db.runActs acts = some db') : Relation.ReflTransGen (LoggedStep P) db db' := by
  induction acts generalizing db with
  | nil =>
    obtain rfl : db = db' := by simpa [Db.runActs] using h
    exact Relation.ReflTransGen.refl
  | cons call acts ih =>
    obtain ⟨s, act⟩ := call
    obtain ⟨hpossible, rc, db₁, hcall, hrest⟩ := runActs_cons_inv h
    obtain ⟨hfirst, hroom⟩ := hP 0 (Nat.succ_pos _) db rfl
    refine Relation.ReflTransGen.head ⟨s, act, rc, hpossible, hfirst, hroom, ?_⟩ (ih (fun i hi db₂ htake => ?_) hrest)
    · exact (stepLogged_eq hroom s).trans hcall
    · exact hP (i + 1) (Nat.succ_lt_succ hi) db₂ (runActs_cons hpossible hcall htake)

end Landbase.Trx
