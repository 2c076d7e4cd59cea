import Landbase.Clog.LogFile

/-! # Reading back what was written

`next_built` is the framing of one record: what `write_log_record` writes for it is what `next` takes from the file. The
round trip through the buffer and the file follows by induction over the records.
-/

namespace Landbase.Clog.LogFile
open Landbase.Index
set_option autoImplicit false

/-! ## Numbers -/

theorem word32_int32Bytes (x : ℤ) (rest : Bytes) : (word32 (int32Bytes x ++ rest) : ℤ) = x % 2 ^ 32 := by
  have hpos : 0 ≤ x % 2 ^ 32 := Int.emod_nonneg _ (by decide)
  have hlt : x % 2 ^ 32 < 2 ^ 32 := Int.emod_lt_of_pos _ (by decide)
  simp only [word32, int32Bytes, List.cons_append, List.getD_cons_zero, List.getD_cons_succ, UInt8.toNat_ofNat']
  omega

theorem intOfBytes_int32Bytes {x : ℤ} (hlo : -2 ^ 31 ≤ x) (hhi : x < 2 ^ 31) (rest : Bytes) :
    intOfBytes (int32Bytes x ++ rest) = x := by
  have hmod : toInt32 (x % 2 ^ 32) = toInt32 x := Int.emod_bmod x (2 ^ 32)
  rw [intOfBytes, word32_int32Bytes, hmod, toInt32_of_range hlo hhi]

theorem ofInt_intOfBytes {x : Int32} {bytes : Bytes} (rest : Bytes) (h : bytes = int32Bytes x.toInt ++ rest) :
    Int32.ofInt (intOfBytes bytes) = x := by
  rw [h, intOfBytes_int32Bytes x.le_toInt x.toInt_lt, Int32.ofInt_toInt]

/-! ## Headers -/

theorem CLogRecordHeader.bytes_length (header : CLogRecordHeader) : header.bytes.length = headerSize := rfl

theorem CLogRecordHeader.ofBytes_bytes {header : CLogRecordHeader} (hlo : -2 ^ 31 ≤ header.logrecLen)
    (hhi : header.logrecLen < 2 ^ 31) : ofBytes header.bytes = header := by
  obtain ⟨lsn, trxId, type, logrecLen⟩ := header
  have hlen : intOfBytes (int32Bytes logrecLen ++ []) = logrecLen := intOfBytes_int32Bytes hlo hhi []
  unfold ofBytes
  rw [mk.injEq]
  exact ⟨ofInt_intOfBytes _ rfl, ofInt_intOfBytes _ rfl, ofInt_intOfBytes _ rfl, hlen⟩

theorem CLogRecordData.headerBytes_length (dataRecord : CLogRecordData) :
    dataRecord.headerBytes.length = dataHeaderSize := rfl

theorem CLogRecordData.ofBytes_headerBytes {dataRecord : CLogRecordData} (hlo : -2 ^ 31 ≤ dataRecord.dataLen)
    (hhi : dataRecord.dataLen < 2 ^ 31) : ofBytes (dataRecord.headerBytes ++ dataRecord.data) = dataRecord := by
  obtain ⟨tableId, pageNum, slotNum, dataLen, dataOffset, data⟩ := dataRecord
  -- each field stands at the head of what the fields before it leave
  have hlen : ∀ rest : Bytes, intOfBytes (int32Bytes dataLen ++ rest) = dataLen := intOfBytes_int32Bytes hlo hhi
  unfold ofBytes
  rw [mk.injEq]
  exact ⟨ofInt_intOfBytes _ rfl, ofInt_intOfBytes _ rfl, ofInt_intOfBytes _ rfl, hlen _, ofInt_intOfBytes _ rfl, rfl⟩

/-! ## One record -/

theorem read_append (bytes file : Bytes) : read (bytes ++ file) bytes.length = some (bytes, file) := by
  simp [read]

theorem read_short {file : Bytes} {len : ℕ} (h : file.length < len) : read file len = none := by
  rw [read, if_neg (by omega)]

/-- A record as the log manager builds it, of a length that fits in its header. -/
structure Framed (record : CLogRecord) : Prop where
  built : Built record
  short : record.header.logrecLen < 2 ^ 31

namespace Framed

variable {record : CLogRecord}

theorem logrecLen_nonneg (h : Framed record) : 0 ≤ record.header.logrecLen := by
  obtain ⟨hbuilt, -⟩ := h
  cases hbuilt with
  | mtr type trxId h => exact le_refl 0
  | commit trxId commitXid => exact Int.natCast_nonneg _
  | data type trxId tableId pageNum slotNum dataOffset data h =>
    show 0 ≤ (dataHeaderSize : ℤ) + data.length
    omega

theorem ofBytes_bytes (h : Framed record) : CLogRecordHeader.ofBytes record.header.bytes = record.header := by
  have hpos := h.logrecLen_nonneg
  exact CLogRecordHeader.ofBytes_bytes (by omega) h.short

theorem body (h : Framed record) : ∃ body : Bytes, record.bytes = record.header.bytes ++ body ∧
    (body.length : ℤ) = record.header.logrecLen ∧ CLogRecord.build record.header body = some record := by
  obtain ⟨hbuilt, hshort⟩ := h
  cases hbuilt with
  | mtr type trxId h =>
    refine ⟨[], ?_, rfl, rfl⟩
    rcases h with rfl | rfl <;> rfl
  | commit trxId commitXid =>
    refine ⟨int32Bytes commitXid.toInt, rfl, rfl, ?_⟩
    have hxid : Int32.ofInt (intOfBytes (int32Bytes commitXid.toInt)) = commitXid := ofInt_intOfBytes [] (by simp)
    simp only [CLogRecord.build, CLogRecord.buildCommitRecord, hxid]
    rfl
  | data type trxId tableId pageNum slotNum dataOffset data h =>
    have hlt : (dataHeaderSize : ℤ) + data.length < 2 ^ 31 := hshort
    have hread : CLogRecordData.ofBytes (CLogRecordData.headerBytes
        ⟨tableId, pageNum, slotNum, data.length, dataOffset, data⟩ ++ data) =
          ⟨tableId, pageNum, slotNum, data.length, dataOffset, data⟩ :=
      CLogRecordData.ofBytes_headerBytes (by show -2 ^ 31 ≤ (data.length : ℤ); omega)
        (by show (data.length : ℤ) < 2 ^ 31; omega)
    have hdata : data.take (data.length : ℤ).toNat = data := by simp
    have hbegin : ¬ (type.toInteger = CLogType.mtrBegin.toInteger ∨
        type.toInteger = CLogType.mtrRollback.toInteger) := by
      rcases h with rfl | rfl | rfl <;> decide
    have hcommit : type.toInteger ≠ CLogType.mtrCommit.toInteger := by
      rcases h with rfl | rfl | rfl <;> decide
    have hsize : (0 : ℤ) < dataHeaderSize := by decide
    refine ⟨CLogRecordData.headerBytes ⟨tableId, pageNum, slotNum, data.length, dataOffset, data⟩ ++ data, ?_, ?_, ?_⟩
    · simp only [CLogRecord.bytes, CLogRecord.buildDataRecord, if_neg hbegin, if_neg hcommit, hdata]
    · rw [List.length_append, CLogRecordData.headerBytes_length, Nat.cast_add]
      rfl
    · simp only [CLogRecord.build, CLogRecord.buildDataRecord, if_neg hcommit, hread]
      rw [if_neg (by omega), if_neg (by omega)]

end Framed

theorem next_header {header : CLogRecordHeader} (hlo : 0 ≤ header.logrecLen) (hhi : header.logrecLen < 2 ^ 31)
    (file : Bytes) : next (header.bytes ++ file) =
      if file.length < header.logrecLen then some (.ioerrRead, none, [])
      else (CLogRecord.build header (file.take header.logrecLen.toNat)).map fun record =>
        (.success, some record, file.drop header.logrecLen.toNat) := by
  have hread : read (header.bytes ++ file) headerSize = some (header.bytes, file) := read_append header.bytes file
  simp only [next, hread, CLogRecordHeader.ofBytes_bytes (show -2 ^ 31 ≤ header.logrecLen by omega) hhi]
  by_cases hpos : 0 < header.logrecLen
  · rw [if_pos hpos]
    by_cases hlen : file.length < header.logrecLen
    · rw [if_pos hlen, read_short (by omega)]
    · rw [if_neg hlen, read, if_pos (by omega)]
      exact Option.map_eq_bind.symm
  · have hzero : header.logrecLen = 0 := by omega
    rw [if_neg hpos, if_neg (by omega), hzero, Int.toNat_zero, List.take_zero, List.drop_zero]
    exact Option.map_eq_bind.symm

theorem next_framed {record : CLogRecord} (h : Framed record) (file : Bytes) :
    next (record.bytes ++ file) = some (.success, some record, file) := by
  obtain ⟨body, hbytes, hlen, hbuild⟩ := h.body
  have hnat : record.header.logrecLen.toNat = body.length := by omega
  rw [hbytes, List.append_assoc, next_header h.logrecLen_nonneg h.short, hnat, List.take_left, List.drop_left, hbuild]
  rw [if_neg]
  · rfl
  · rw [List.length_append]
    omega

theorem next_short {file : Bytes} (h : file.length < headerSize) : next file = some (.recordEof, none, []) := by
  rw [next, read_short h]

/-! ## Many records -/

/-- The file that holds these records. -/
def fileBytes (records : List CLogRecord) : Bytes := (records.map CLogRecord.bytes).flatten

theorem foldl_writeLogRecord (records : List CLogRecord) (file : Bytes) :
    records.foldl writeLogRecord file = file ++ fileBytes records := by
  induction records generalizing file with
  | nil => simp [fileBytes]
  | cons record records ih => simp [ih, fileBytes, writeLogRecord]

theorem Framed.bytes_length {record : CLogRecord} (h : Framed record) :
    (record.bytes.length : ℤ) = headerSize + record.header.logrecLen := by
  obtain ⟨body, hbytes, hlen, -⟩ := h.body
  rw [hbytes, List.length_append, CLogRecordHeader.bytes_length, Nat.cast_add, hlen]

theorem length_le_fileBytes {records : List CLogRecord} (h : ∀ record ∈ records, Framed record) :
    records.length ≤ (fileBytes records).length := by
  induction records with
  | nil => exact Nat.zero_le _
  | cons record records ih =>
    have hrecord := h record List.mem_cons_self
    have hlen := hrecord.bytes_length
    have hpos := hrecord.logrecLen_nonneg
    have hrest := ih fun other hother => h other (List.mem_cons_of_mem _ hother)
    have hsize : headerSize = 16 := rfl
    rw [fileBytes, List.map_cons, List.flatten_cons, List.length_append, List.length_cons, ← fileBytes]
    omega

theorem readAll_next {file rest : Bytes} {rc : RC} {record : CLogRecord} (h : next file = some (rc, some record, rest))
    (fuel : ℕ) : readAll (fuel + 1) file = (readAll fuel rest).map fun read => (read.1, record :: read.2) := by
  rw [readAll, h]
  cases hread : readAll fuel rest with
  | none => simp [hread]
  | some read => simp [hread]

theorem readAll_stop {file rest : Bytes} {rc : RC} (h : next file = some (rc, none, rest)) (fuel : ℕ) :
    readAll (fuel + 1) file = some (rc, []) := by
  rw [readAll, h]
  rfl

theorem readAll_append {records : List CLogRecord} (h : ∀ record ∈ records, Framed record) (fuel : ℕ) (file : Bytes) :
    readAll (records.length + fuel) (fileBytes records ++ file) =
      (readAll fuel file).map fun read => (read.1, records ++ read.2) := by
  induction records with
  | nil =>
    rw [List.length_nil, Nat.zero_add, fileBytes, List.map_nil, List.flatten_nil, List.nil_append]
    cases readAll fuel file <;> rfl
  | cons record records ih =>
    have hnext := next_framed (h record List.mem_cons_self) (fileBytes records ++ file)
    have hrest := ih fun other hother => h other (List.mem_cons_of_mem _ hother)
    rw [List.length_cons, Nat.add_right_comm, fileBytes, List.map_cons, List.flatten_cons, List.append_assoc, ← fileBytes,
      readAll_next hnext, hrest, Option.map_map]
    rfl

theorem iterate_fileBytes {records : List CLogRecord} (h : ∀ record ∈ records, Framed record) :
    iterate (fileBytes records) = some (.recordEof, records) := by
  have hle := length_le_fileBytes h
  obtain ⟨fuel, hfuel⟩ : ∃ fuel, (fileBytes records).length + 1 = records.length + (fuel + 1) :=
    ⟨(fileBytes records).length - records.length, by omega⟩
  have hread := readAll_append h (fuel + 1) []
  rw [List.append_nil, readAll_stop (next_short (by decide)) fuel] at hread
  rw [iterate, hfuel, hread, Option.map_some, List.append_nil]

/-! ## Through the buffer -/

inductive BufferCall
  | appendLogRecord (record : CLogRecord)
  | flushBuffer

/-- Calls on a buffer and a file, as long as the buffer accepts the records. -/
def runCalls : CLogBuffer → Bytes → List BufferCall → Option (CLogBuffer × Bytes)
  | buffer, file, [] => some (buffer, file)
  | buffer, file, .appendLogRecord record :: calls =>
    let (rc, buffer) := buffer.appendLogRecord record
    if rc ≠ .success then none else runCalls buffer file calls
  | buffer, file, .flushBuffer :: calls =>
    let (buffer, file) := buffer.flushBuffer file
    runCalls buffer file calls

theorem runCalls_append (buffer : CLogBuffer) (file : Bytes) (calls calls' : List BufferCall) :
    runCalls buffer file (calls ++ calls') =
      (runCalls buffer file calls).bind fun state => runCalls state.1 state.2 calls' := by
  induction calls generalizing buffer file with
  | nil => rfl
  | cons call calls ih =>
    cases call with
    | appendLogRecord record =>
      simp only [List.cons_append, runCalls]
      split
      · rfl
      · exact ih _ _
    | flushBuffer => exact ih _ _

def appended : List BufferCall → List CLogRecord
  | [] => []
  | .appendLogRecord record :: calls => record :: appended calls
  | .flushBuffer :: calls => appended calls

/-- The file, followed by what waits in the buffer, is what has been appended; `totalSize` counts what waits. -/
structure Wrote (buffer : CLogBuffer) (file : Bytes) (records : List CLogRecord) : Prop where
  bytes : file ++ fileBytes buffer.logRecords = fileBytes records
  size : buffer.totalSize = (buffer.logRecords.map fun record => record.header.logrecLen).sum
  waiting : ∀ record ∈ buffer.logRecords, record ∈ records
  framed : ∀ record ∈ records, Framed record

theorem foldl_totalSize (records : List CLogRecord) (totalSize : ℤ) :
    records.foldl (fun totalSize record => totalSize - record.header.logrecLen) totalSize =
      totalSize - (records.map fun record => record.header.logrecLen).sum := by
  induction records generalizing totalSize with
  | nil => simp
  | cons record records ih =>
    rw [List.foldl_cons, ih, List.map_cons, List.sum_cons]
    omega

namespace Wrote

variable {buffer : CLogBuffer} {file : Bytes} {records : List CLogRecord}

theorem totalSize_nonneg (h : Wrote buffer file records) : 0 ≤ buffer.totalSize := by
  rw [h.size]
  apply List.sum_nonneg
  intro len hlen
  obtain ⟨record, hrecord, rfl⟩ := List.mem_map.mp hlen
  exact (h.framed record (h.waiting record hrecord)).logrecLen_nonneg

theorem appendLogRecord (h : Wrote buffer file records) {record : CLogRecord} (hbuilt : Built record)
    (hrc : (buffer.appendLogRecord record).1 = .success) :
    Wrote (buffer.appendLogRecord record).2 file (records ++ [record]) := by
  have hpos := h.totalSize_nonneg
  have hfits : ¬ buffer.totalSize + record.header.logrecLen ≥ clogBufferSize := by
    intro hfull
    rw [CLogBuffer.appendLogRecord, if_pos hfull] at hrc
    cases hrc
  have hsize : clogBufferSize = 4194304 := rfl
  rw [CLogBuffer.appendLogRecord, if_neg hfits]
  refine ⟨?_, ?_, ?_, ?_⟩
  · rw [fileBytes, List.map_append, List.flatten_append, ← List.append_assoc, ← fileBytes, h.bytes]
    simp [fileBytes]
  · rw [List.map_append, List.sum_append, h.size]
    simp
  · intro other hother
    cases List.mem_append.mp hother with
    | inl hother => exact List.mem_append_left _ (h.waiting other hother)
    | inr hother => exact List.mem_append_right _ hother
  · intro other hother
    cases List.mem_append.mp hother with
    | inl hother => exact h.framed other hother
    | inr hother =>
      rw [List.mem_singleton.mp hother]
      exact ⟨hbuilt, by omega⟩

theorem flushBuffer (h : Wrote buffer file records) :
    Wrote (buffer.flushBuffer file).1 (buffer.flushBuffer file).2 records := by
  refine ⟨?_, ?_, ?_, h.framed⟩
  · rw [CLogBuffer.flushBuffer, foldl_writeLogRecord]
    simpa [fileBytes] using h.bytes
  · rw [CLogBuffer.flushBuffer, foldl_totalSize, h.size]
    simp
  · intro record hrecord
    cases hrecord

theorem runCalls (h : Wrote buffer file records) {calls : List BufferCall} {buffer' : CLogBuffer} {file' : Bytes}
    (hbuilt : ∀ record ∈ appended calls, Built record) (hrun : runCalls buffer file calls = some (buffer', file')) :
    Wrote buffer' file' (records ++ appended calls) := by
  induction calls generalizing buffer file records with
  | nil =>
    obtain ⟨rfl, rfl⟩ := Prod.mk.inj (Option.some.inj hrun)
    rw [appended, List.append_nil]
    exact h
  | cons call calls ih =>
    cases call with
    | appendLogRecord record =>
      simp only [LogFile.runCalls] at hrun
      split at hrun
      · cases hrun
      · rename_i hrc
        have hnext := h.appendLogRecord (hbuilt record List.mem_cons_self) (not_not.mp hrc)
        have hdone := ih hnext (fun other hother => hbuilt other (List.mem_cons_of_mem _ hother)) hrun
        rwa [List.append_assoc] at hdone
    | flushBuffer => exact ih h.flushBuffer hbuilt hrun

end Wrote

/-- Whatever has been appended when the buffer is flushed is read back from the file, in its order. -/
theorem log_round_trip (calls : List BufferCall) (hbuilt : ∀ record ∈ appended calls, Built record)
    {buffer : CLogBuffer} {file : Bytes}
    (hrun : runCalls .empty [] (calls ++ [.flushBuffer]) = some (buffer, file)) :
    iterate file = some (.recordEof, appended calls) := by
  rw [runCalls_append] at hrun
  obtain ⟨⟨buffer₁, file₁⟩, hrun₁, hflush⟩ := Option.bind_eq_some_iff.mp hrun
  obtain ⟨-, hfile⟩ := Prod.mk.inj (Option.some.inj hflush)
  have hempty : Wrote .empty [] [] := ⟨rfl, rfl, fun _ h => h, fun _ h => absurd h List.not_mem_nil⟩
  have hwrote := (hempty.runCalls hbuilt hrun₁).flushBuffer
  have hbytes := hwrote.bytes
  rw [List.nil_append, show (buffer₁.flushBuffer file₁).2 = file from hfile] at hbytes
  have hnothing : fileBytes (buffer₁.flushBuffer file₁).1.logRecords = [] := rfl
  rw [hnothing, List.append_nil] at hbytes
  rw [hbytes]
  exact iterate_fileBytes hwrote.framed

/-- A begin, an insertion of one byte, a deletion without payload and a commit, in two flushes. -/
theorem log_round_trip_four :
    iterate (fileBytes [.buildMtrRecord .mtrBegin 7, .buildDataRecord .insert 7 1 1 0 0 [42],
      .buildDataRecord .delete 7 1 1 0 0 [], .buildCommitRecord 7 8]) =
        some (.recordEof, [.buildMtrRecord .mtrBegin 7, .buildDataRecord .insert 7 1 1 0 0 [42],
          .buildDataRecord .delete 7 1 1 0 0 [], .buildCommitRecord 7 8]) := by
  refine log_round_trip [.appendLogRecord (.buildMtrRecord .mtrBegin 7),
    .appendLogRecord (.buildDataRecord .insert 7 1 1 0 0 [42]), .flushBuffer,
    .appendLogRecord (.buildDataRecord .delete 7 1 1 0 0 []), .appendLogRecord (.buildCommitRecord 7 8)] ?_ rfl
  intro record hrecord
  simp only [appended, List.mem_cons, List.not_mem_nil, or_false] at hrecord
  rcases hrecord with rfl | rfl | rfl | rfl
  · exact .mtr .mtrBegin 7 (Or.inl rfl)
  · exact .data .insert 7 1 1 0 0 [42] (Or.inl rfl)
  · exact .data .delete 7 1 1 0 0 [] (Or.inr (Or.inr rfl))
  · exact .commit 7 8

end Landbase.Clog.LogFile
