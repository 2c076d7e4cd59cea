import Landbase.Clog.Codec
import Landbase.Clog.Recover

/-! # Recovery from a log file

`CLogManager::recover` reads the log and replays each record before it reads the next one. A file that ends inside a record
is the interesting case: an incomplete header counts as the end of the file, an incomplete body is an error, and the bytes
of the incomplete record stay where they are when the next run appends to the file.
-/

namespace Landbase.Clog.LogFile
open Landbase.Index Landbase.Storage
set_option autoImplicit false

/-! ## The records as the transactions see them -/

/-- The record that an `INSERT` stores: `__trx_xid_begin` and `__trx_xid_end` are its first fields. -/
def recordOfPayload (data : Bytes) : Record := ⟨intOfBytes data, intOfBytes (data.drop 4), data⟩

namespace CLogRecord

def isData (record : CLogRecord) : Bool :=
  record.header.type = CLogType.insert.toInteger ∨ record.header.type = CLogType.update.toInteger ∨
    record.header.type = CLogType.delete.toInteger

/-- What `redo` does something for. -/
def toTrx (record : CLogRecord) : Option Trx.CLogRecord :=
  let trxId := record.header.trxId.toInt
  let rid : RID := ⟨record.dataRecord.pageNum.toInt, record.dataRecord.slotNum.toInt⟩
  let table := record.dataRecord.tableId.toInt
  if record.header.type = CLogType.mtrBegin.toInteger then some (.mtrBegin trxId)
  else if record.header.type = CLogType.mtrCommit.toInteger then
    some (.mtrCommit trxId record.commitRecord.commitXid.toInt)
  else if record.header.type = CLogType.mtrRollback.toInteger then some (.mtrRollback trxId)
  else if table < 0 then none
  else if record.header.type = CLogType.insert.toInteger then
    some (.insert trxId table.toNat rid (recordOfPayload record.dataRecord.data))
  else if record.header.type = CLogType.delete.toInteger then some (.delete trxId table.toNat rid)
  else none

end CLogRecord

section Recover

variable (known : ℕ → Bool) (walk : Trx.OperationSet → List Trx.Operation)

/-- One round of the loop of `CLogManager::recover`. A record of another type ends in an `ASSERT`, unless it is about a
table that is not there. -/
def redoLogRecord (r : Recovery) (record : CLogRecord) : Option (RC × Recovery) :=
  match record.toTrx with
  | some record => r.redoRecord known walk record
  | none => do
    let _ ← r.findTrx record.header.trxId.toInt
    let table := record.dataRecord.tableId.toInt
    if record.isData ∧ ¬ (0 ≤ table ∧ known table.toNat) then some (.schemaTableNotExist, r) else none

/-- The end of `CLogManager::recover`, after the last record. -/
def rollbackRest (r : Recovery) : Option (RC × Recovery) := do
  let tables ← rollbackAll walk r.tables r.trxes
  some (.success, { r with tables := tables, trxes := [] })

/-- `CLogManager::recover`, from some record of the file on. -/
def recoverFrom (r : Recovery) : ℕ → Bytes → Option (RC × Recovery)
  | 0, _ => none
  | fuel + 1, file => do
    let (rc, record, file) ← next file
    match record with
    | some record =>
      let (rc, r) ← redoLogRecord known walk r record
      if rc ≠ .success then some (rc, r) else recoverFrom r fuel file
    | none => if rc = .recordEof then rollbackRest walk r else some (rc, r)

/-- `CLogManager::recover` of a log file. -/
def recoverFile (tables : ℕ → Table) (file : Bytes) : Option (RC × Recovery) :=
  recoverFrom known walk ⟨tables, 0, []⟩ (file.length + 1) file

/-- What recovering these records does. -/
def recoverRecords (r : Recovery) : List CLogRecord → Option (RC × Recovery)
  | [] => rollbackRest walk r
  | record :: records => do
    let (rc, r) ← redoLogRecord known walk r record
    if rc ≠ .success then some (rc, r) else recoverRecords r records

end Recover

/-! ## Whole records -/

section Whole

variable {known : ℕ → Bool} {walk : Trx.OperationSet → List Trx.Operation}

theorem redoLogRecord_toTrx {record : CLogRecord} {head : Trx.CLogRecord} (h : record.toTrx = some head) (r : Recovery) :
    redoLogRecord known walk r record = r.redoRecord known walk head := by
  unfold redoLogRecord
  rw [h]

/-- Recovering a log is `recover` of its records. -/
theorem recoverRecords_eq_recover {records : List CLogRecord} {log : List Trx.CLogRecord}
    (h : records.map CLogRecord.toTrx = log.map some) (tables : ℕ → Table) :
    recoverRecords known walk ⟨tables, 0, []⟩ records = recover known walk tables log := by
  suffices hall : ∀ r : Recovery, recoverRecords known walk r records =
      (r.redoAll known walk log).bind fun (rc, r) => if rc ≠ .success then some (rc, r) else rollbackRest walk r from
    hall ⟨tables, 0, []⟩
  induction records generalizing log with
  | nil =>
    intro r
    obtain rfl : log = [] := by simpa using h.symm
    rfl
  | cons record records ih =>
    intro r
    cases log with
    | nil => cases h
    | cons head log =>
      obtain ⟨hhead, htail⟩ := List.cons.inj h
      rw [recoverRecords, redoLogRecord_toTrx hhead, Recovery.redoAll]
      cases r.redoRecord known walk head with
      | none => rfl
      | some result =>
        show (if result.1 ≠ .success then some result else recoverRecords known walk result.2 records) =
          Option.bind (if result.1 ≠ .success then some result else result.2.redoAll known walk log) _
        split
        · rename_i hrc
          exact (if_pos hrc).symm
        · exact ih htail result.2

theorem recoverFrom_framed {record : CLogRecord} (h : Framed record) (r : Recovery) (fuel : ℕ) (file : Bytes) :
    recoverFrom known walk r (fuel + 1) (record.bytes ++ file) =
      (redoLogRecord known walk r record).bind fun (rc, r) =>
        if rc ≠ .success then some (rc, r) else recoverFrom known walk r fuel file := by
  rw [recoverFrom, next_framed h]
  rfl

theorem recoverFrom_fileBytes {records : List CLogRecord} (h : ∀ record ∈ records, Framed record) (r : Recovery)
    (fuel : ℕ) : recoverFrom known walk r (records.length + (fuel + 1)) (fileBytes records) =
      recoverRecords known walk r records := by
  induction records generalizing r with
  | nil =>
    rw [List.length_nil, Nat.zero_add, recoverFrom, next_short (by decide)]
    rfl
  | cons record records ih =>
    have hrest : ∀ r, recoverFrom known walk r (records.length + (fuel + 1)) (fileBytes records) =
        recoverRecords known walk r records := ih fun other hother => h other (List.mem_cons_of_mem _ hother)
    rw [fileBytes, List.map_cons, List.flatten_cons, ← fileBytes, List.length_cons, Nat.add_right_comm,
      recoverFrom_framed (h record List.mem_cons_self), recoverRecords]
    simp only [hrest]
    rfl

theorem recoverFile_fileBytes {records : List CLogRecord} (h : ∀ record ∈ records, Framed record) (tables : ℕ → Table) :
    recoverFile known walk tables (fileBytes records) = recoverRecords known walk ⟨tables, 0, []⟩ records := by
  have hle := length_le_fileBytes h
  obtain ⟨fuel, hfuel⟩ : ∃ fuel, (fileBytes records).length + 1 = records.length + (fuel + 1) :=
    ⟨(fileBytes records).length - records.length, by omega⟩
  rw [recoverFile, hfuel, recoverFrom_fileBytes h]

end Whole

/-! ## The complete records of a prefix -/

/-- The records that end within the first `len` bytes of their file. -/
def completeIn : List CLogRecord → ℕ → List CLogRecord
  | [], _ => []
  | record :: records, len =>
    if record.bytes.length ≤ len then record :: completeIn records (len - record.bytes.length) else []

theorem fileBytes_cons (record : CLogRecord) (records : List CLogRecord) :
    fileBytes (record :: records) = record.bytes ++ fileBytes records := rfl

theorem fileBytes_append (records news : List CLogRecord) :
    fileBytes (records ++ news) = fileBytes records ++ fileBytes news := by
  rw [fileBytes, List.map_append, List.flatten_append, ← fileBytes, ← fileBytes]

theorem mem_completeIn {records : List CLogRecord} {len : ℕ} {record : CLogRecord} (h : record ∈ completeIn records len) :
    record ∈ records := by
  induction records generalizing len with
  | nil => exact h
  | cons head records ih =>
    rw [completeIn] at h
    split at h
    · rcases List.mem_cons.mp h with rfl | h
      · exact List.mem_cons_self
      · exact List.mem_cons_of_mem _ (ih h)
    · cases h

/-- A prefix of the file is its complete records and a part of the next one. -/
theorem prefix_split {records : List CLogRecord} {file : Bytes} (h : file <+: fileBytes records) :
    ∃ torn : Bytes, file = fileBytes (completeIn records file.length) ++ torn ∧
      (torn ≠ [] → ∃ record ∈ records, torn <+: record.bytes ∧ torn.length < record.bytes.length) := by
  induction records generalizing file with
  | nil =>
    obtain rfl : file = [] := List.prefix_nil.mp h
    exact ⟨[], rfl, fun hne => absurd rfl hne⟩
  | cons record records ih =>
    rw [completeIn]
    rw [fileBytes_cons] at h
    split
    · rename_i hle
      obtain ⟨file, rfl⟩ : record.bytes <+: file := List.prefix_of_prefix_length_le (List.prefix_append _ _) h hle
      obtain ⟨torn, hsplit, htorn⟩ := ih ((List.prefix_append_right_inj _).mp h)
      refine ⟨torn, ?_, fun hne => ?_⟩
      · rw [List.length_append, Nat.add_sub_cancel_left, fileBytes_cons, List.append_assoc, ← hsplit]
      · obtain ⟨other, hother, hrest⟩ := htorn hne
        exact ⟨other, List.mem_cons_of_mem _ hother, hrest⟩
    · rename_i hlt
      refine ⟨file, rfl, fun _ => ⟨record, List.mem_cons_self, ?_, by omega⟩⟩
      exact List.prefix_of_prefix_length_le h (List.prefix_append _ _) (by omega)

theorem completeIn_eq_take (records : List CLogRecord) (len : ℕ) : ∃ n, completeIn records len = records.take n := by
  induction records generalizing len with
  | nil => exact ⟨0, rfl⟩
  | cons record records ih =>
    rw [completeIn]
    split
    · obtain ⟨n, hn⟩ := ih (len - record.bytes.length)
      exact ⟨n + 1, by rw [hn, List.take_succ_cons]⟩
    · exact ⟨0, rfl⟩

theorem completeIn_append (done : List CLogRecord) {rest : List CLogRecord} (h : ∀ record ∈ rest, Framed record) :
    completeIn (done ++ rest) (fileBytes done).length = done := by
  induction done with
  | nil =>
    cases rest with
    | nil => rfl
    | cons record rest =>
      have hrecord := h record List.mem_cons_self
      have hlen := hrecord.bytes_length
      have hpos := hrecord.logrecLen_nonneg
      have hsize : headerSize = 16 := rfl
      rw [List.nil_append, completeIn, if_neg]
      show ¬ record.bytes.length ≤ 0
      omega
  | cons record done ih =>
    rw [List.cons_append, completeIn, fileBytes_cons, List.length_append, if_pos (by omega), Nat.add_sub_cancel_left, ih]

/-! ## Appending to a torn file -/

theorem header_of_build {header : CLogRecordHeader} {data : Bytes} {record : CLogRecord}
    (h : CLogRecord.build header data = some record) : record.header = header := by
  unfold CLogRecord.build at h
  split at h
  · rw [← Option.some.inj h]
  · split at h
    · split at h
      · cases h
      · rw [← Option.some.inj h]
    · split at h
      · cases h
      · rw [← Option.some.inj h]

theorem header_of_next {file rest : Bytes} {rc : RC} {record : CLogRecord}
    (h : next file = some (rc, some record, rest)) : record.header = .ofBytes (file.take headerSize) := by
  have hdone : ∀ {header : CLogRecordHeader} {data left : Bytes},
      ((CLogRecord.build header data).bind fun record => some (RC.success, some record, left)) =
        some (rc, some record, rest) → record.header = header := by
    intro header data left heq
    obtain ⟨built, hbuilt, heq⟩ := Option.bind_eq_some_iff.mp heq
    rw [Option.some.injEq, Prod.mk.injEq, Prod.mk.injEq, Option.some.injEq] at heq
    rw [← heq.2.1]
    exact header_of_build hbuilt
  rw [next, read] at h
  by_cases hlen : headerSize ≤ file.length
  · rw [if_pos hlen] at h
    simp only at h
    split at h
    · split at h
      · cases h
      · exact hdone h
    · exact hdone h
  · rw [if_neg hlen] at h
    cases h

theorem byte_of_ofInt {bytes : Bytes} {x : Int32} (h : Int32.ofInt (intOfBytes bytes) = x) :
    ((bytes.getD 0 0).toNat : ℤ) = x.toInt % 256 := by
  have hbyte := (bytes.getD 0 0).toNat_lt
  have hword : x.toInt = (word32 bytes : ℤ).bmod (2 ^ 32) := by
    rw [← h, Int32.toInt_ofInt, intOfBytes, toInt32]
    exact Int.bmod_bmod
  rw [hword, Int.bmod_def, word32]
  push_cast
  split <;> omega

/-- A number whose low byte is not `byte`. -/
def otherTrxId (byte : UInt8) : Int32 := if byte = 0 then 1 else 0

theorem otherTrxId_ne (byte : UInt8) : (byte.toNat : ℤ) ≠ (otherTrxId byte).toInt % 256 := by
  unfold otherTrxId
  split
  · rename_i h
    rw [h]
    decide
  · rename_i h
    intro heq
    have hzero : byte.toNat = 0 := by
      have : (0 : Int32).toInt % 256 = 0 := by decide
      omega
    exact h (UInt8.toNat_inj.mp hzero)

/-- Every header starts with `lsn_ = -1`, so behind at least one byte of a torn record some record is not read as it was
written: the fifth byte of the file does not depend on its `trx_id_`, or is one of the `lsn_`. -/
theorem torn_misread {torn : Bytes} (hne : torn ≠ []) : ∃ new : CLogRecord, Framed new ∧
    ∀ rc rest, next (torn ++ new.bytes) ≠ some (rc, some new, rest) := by
  let new : CLogRecord := .buildMtrRecord .mtrBegin (otherTrxId (torn.getD 4 255))
  have hshort : new.header.logrecLen < 2 ^ 31 := by
    show (0 : ℤ) < 2 ^ 31
    decide
  refine ⟨new, ⟨.mtr .mtrBegin _ (Or.inl rfl), hshort⟩, ?_⟩
  intro rc rest hnext
  have hheader := congrArg CLogRecordHeader.trxId (header_of_next hnext)
  have hbyte := byte_of_ofInt hheader.symm
  have hlsn : ∀ i < 4, new.bytes[i]? = some 255 := by
    have hhead : int32Bytes (-1 : Int32).toInt = [255, 255, 255, 255] := by decide
    have hbytes : ∃ rest, new.bytes = int32Bytes (-1 : Int32).toInt ++ rest := ⟨_, List.append_assoc _ _ _⟩
    intro i hi
    obtain ⟨rest, hbytes⟩ := hbytes
    rw [hbytes, hhead]
    interval_cases i <;> rfl
  have hpos : 0 < torn.length := List.length_pos_of_ne_nil hne
  have hfifth : (((torn ++ new.bytes).take headerSize).drop 4).getD 0 0 = torn.getD 4 255 := by
    rw [List.getD_eq_getElem?_getD, List.getElem?_drop, List.getElem?_take_of_lt (by decide), List.getElem?_append,
      List.getD_eq_getElem?_getD]
    split
    · rename_i hlt
      rw [List.getElem?_eq_getElem hlt]
      rfl
    · rename_i hle
      rw [hlsn _ (by omega), List.getElem?_eq_none (by omega)]
      rfl
  rw [hfifth] at hbyte
  exact otherTrxId_ne _ hbyte

theorem next_of_readAll {file : Bytes} {fuel : ℕ} {rc : RC} {record : CLogRecord} {records : List CLogRecord}
    (h : readAll fuel file = some (rc, record :: records)) : ∃ rc rest, next file = some (rc, some record, rest) := by
  cases fuel with
  | zero => cases h
  | succ fuel =>
    cases hnext : next file with
    | none =>
      rw [readAll, hnext] at h
      cases h
    | some result =>
      obtain ⟨rc', found, rest⟩ := result
      cases found with
      | none =>
        rw [readAll_stop hnext] at h
        cases h
      | some found =>
        rw [readAll_next hnext] at h
        obtain ⟨read, -, heq⟩ := Option.map_eq_some_iff.mp h
        obtain ⟨-, heq⟩ := Prod.mk.inj heq
        exact ⟨rc', rest, by rw [(List.cons.inj heq).1]⟩

/-! ## Prefixes -/

/-- The prefix is recovered like its complete records, and what is appended to it later is read back. -/
def Recovers (records : List CLogRecord) (file : Bytes) : Prop :=
  (∀ known walk tables, recoverFile known walk tables file =
    recoverRecords known walk ⟨tables, 0, []⟩ (completeIn records file.length)) ∧
  ∀ news : List CLogRecord, (∀ record ∈ news, Framed record) →
    iterate (file ++ fileBytes news) = some (.recordEof, completeIn records file.length ++ news)

/-- Exactly the prefixes that end between two records are recovered and can be appended to. -/
theorem torn_log {records : List CLogRecord} (hframed : ∀ record ∈ records, Framed record) {file : Bytes}
    (hfile : file <+: fileBytes records) : Recovers records file ↔ ∃ n, file = fileBytes (records.take n) := by
  have hcomplete : ∀ record ∈ completeIn records file.length, Framed record :=
    fun record hrecord => hframed record (mem_completeIn hrecord)
  constructor
  · rintro ⟨-, happend⟩
    obtain ⟨torn, hsplit, -⟩ := prefix_split hfile
    by_cases hne : torn = []
    · obtain ⟨n, hn⟩ := completeIn_eq_take records file.length
      rw [hne, List.append_nil, hn] at hsplit
      exact ⟨n, hsplit⟩
    · obtain ⟨new, hnew, hmisread⟩ := torn_misread hne
      have hread := happend [new] fun record hrecord => by rwa [List.mem_singleton.mp hrecord]
      generalize completeIn records file.length = done at hcomplete hsplit hread
      subst hsplit
      have hle := length_le_fileBytes hcomplete
      obtain ⟨fuel, hfuel⟩ : ∃ fuel, (fileBytes done ++ torn ++ fileBytes [new]).length + 1 = done.length + fuel :=
        ⟨(fileBytes done ++ torn ++ fileBytes [new]).length + 1 - done.length, by
          simp only [List.length_append]
          omega⟩
      have hone : fileBytes [new] = new.bytes := List.append_nil _
      rw [iterate, hfuel, List.append_assoc, readAll_append hcomplete, hone] at hread
      obtain ⟨⟨rc, read⟩, hread, heq⟩ := Option.map_eq_some_iff.mp hread
      obtain rfl := List.append_cancel_left (Prod.mk.inj heq).2
      obtain ⟨rc', rest, hnext⟩ := next_of_readAll hread
      exact absurd hnext (hmisread rc' rest)
  · rintro ⟨n, rfl⟩
    have hdrop : ∀ record ∈ records.drop n, Framed record :=
      fun record hrecord => hframed record (List.mem_of_mem_drop hrecord)
    have hwhole := completeIn_append (records.take n) hdrop
    rw [List.take_append_drop] at hwhole
    rw [Recovers, hwhole]
    have htake : ∀ record ∈ records.take n, Framed record :=
      fun record hrecord => hframed record (List.mem_of_mem_take hrecord)
    refine ⟨fun known walk tables => recoverFile_fileBytes htake tables, fun news hnews => ?_⟩
    rw [← fileBytes_append]
    apply iterate_fileBytes
    intro record hrecord
    cases List.mem_append.mp hrecord with
    | inl hrecord => exact htake record hrecord
    | inr hrecord => exact hnews record hrecord

/-- A transaction begins and inserts a row. -/
def insertLog : List CLogRecord := [.buildMtrRecord .mtrBegin 1, .buildDataRecord .insert 1 0 1 0 0 [1, 2, 3, 4, 5, 6, 7, 8]]

theorem insertLog_framed : ∀ record ∈ insertLog, Framed record := by
  intro record hrecord
  rcases List.mem_pair.mp hrecord with rfl | rfl
  · exact ⟨.mtr .mtrBegin 1 (Or.inl rfl), by decide⟩
  · exact ⟨.data .insert 1 0 1 0 0 _ (Or.inl rfl), by decide⟩

theorem torn_log_begin : Recovers insertLog (fileBytes (insertLog.take 1)) :=
  (torn_log insertLog_framed ⟨fileBytes (insertLog.drop 1), by rw [← fileBytes_append, List.take_append_drop]⟩).mpr
    ⟨1, rfl⟩

/-- When the log ends inside the row, recovery fails. -/
theorem torn_log_fails : (∀ record ∈ insertLog, Framed record) ∧ (fileBytes insertLog).take 60 <+: fileBytes insertLog ∧
    ¬ Recovers insertLog ((fileBytes insertLog).take 60) := by
  refine ⟨insertLog_framed, List.take_prefix _ _, ?_⟩
  rintro ⟨hrecover, -⟩
  have hcode := congrArg (Option.map Prod.fst) (hrecover (fun _ => true) Trx.OperationSet.toList fun _ => ⟨[], 0, [], fun _ => none⟩)
  revert hcode
  decide +kernel

end Landbase.Clog.LogFile
