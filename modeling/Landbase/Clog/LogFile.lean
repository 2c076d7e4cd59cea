import Landbase.Index.Key

/-! # Log records, the log buffer and the log file

`CLogRecord`, `CLogBuffer`, `CLogFile` and `CLogRecordIterator` of `storage/clog/clog.cpp`, byte by byte: numbers are
32-bit little-endian words. The lengths are such numbers too, but they are plain integers here, because a length that
overflows has no meaning in the source and none that the buffer accepts does.

The log file is its bytes; a file that is being read is what is left of it. `none` stands for an `ASSERT` that fails and for
a read outside a buffer.
-/

namespace Landbase.Clog.LogFile
open Landbase.Index
set_option autoImplicit false

/-! ## Records -/

/-- `enum class CLogType`. -/
inductive CLogType
  | error | mtrBegin | mtrCommit | mtrRollback | insert | update | delete
  deriving DecidableEq, Repr

/-- `clog_type_to_integer`. -/
def CLogType.toInteger : CLogType → Int32
  | error => 0
  | mtrBegin => 1
  | mtrCommit => 2
  | mtrRollback => 3
  | insert => 4
  | update => 5
  | delete => 6

structure CLogRecordHeader where
  lsn : Int32 := -1
  trxId : Int32 := -1
  type : Int32 := CLogType.error.toInteger
  logrecLen : ℤ := 0
  deriving DecidableEq, Repr

structure CLogRecordCommitData where
  commitXid : Int32 := -1
  deriving DecidableEq, Repr

/-- `CLogRecordData`, where `rid_` is its two components. -/
structure CLogRecordData where
  tableId : Int32 := -1
  pageNum : Int32 := 0
  slotNum : Int32 := 0
  dataLen : ℤ := 0
  dataOffset : Int32 := 0
  data : Bytes := []
  deriving DecidableEq, Repr

structure CLogRecord where
  header : CLogRecordHeader := {}
  dataRecord : CLogRecordData := {}
  commitRecord : CLogRecordCommitData := {}
  deriving DecidableEq, Repr

/-- `sizeof(CLogRecordHeader)`. -/
def headerSize : ℕ := 16

/-- `sizeof(CLogRecordCommitData)`. -/
def commitDataSize : ℕ := 4

/-- `CLogRecordData::HEADER_SIZE`: five numbers, and four bytes so that the pointer behind them is aligned. -/
def dataHeaderSize : ℕ := 24

namespace CLogRecord

/-- `CLogRecord::build_mtr_record`. -/
def buildMtrRecord (type : CLogType) (trxId : Int32) : CLogRecord :=
  { header := { trxId := trxId, type := type.toInteger } }

/-- `CLogRecord::build_commit_record`. -/
def buildCommitRecord (trxId commitXid : Int32) : CLogRecord :=
  { header := { trxId := trxId, type := CLogType.mtrCommit.toInteger, logrecLen := commitDataSize }
    commitRecord := { commitXid := commitXid } }

/-- `CLogRecord::build_data_record`, with the `data_len` bytes at `data`. -/
def buildDataRecord (type : CLogType) (trxId tableId pageNum slotNum dataOffset : Int32) (data : Bytes) : CLogRecord :=
  { header := { trxId := trxId, type := type.toInteger, logrecLen := dataHeaderSize + data.length }
    dataRecord :=
      { tableId := tableId, pageNum := pageNum, slotNum := slotNum, dataLen := data.length, dataOffset := dataOffset
        data := data } }

end CLogRecord

/-- The records that the log manager builds: the one for a commit has a function of its own, and only operations on data
have a table. -/
inductive Built : CLogRecord → Prop
  | mtr (type : CLogType) (trxId : Int32) (h : type = .mtrBegin ∨ type = .mtrRollback) :
    Built (.buildMtrRecord type trxId)
  | commit (trxId commitXid : Int32) : Built (.buildCommitRecord trxId commitXid)
  | data (type : CLogType) (trxId tableId pageNum slotNum dataOffset : Int32) (data : Bytes)
    (h : type = .insert ∨ type = .update ∨ type = .delete) :
    Built (.buildDataRecord type trxId tableId pageNum slotNum dataOffset data)

/-! ## Writing -/

/-- The bytes of a 32-bit number. -/
def int32Bytes (x : ℤ) : Bytes :=
  let word := (x % 2 ^ 32).toNat
  [UInt8.ofNat word, UInt8.ofNat (word / 2 ^ 8), UInt8.ofNat (word / 2 ^ 16), UInt8.ofNat (word / 2 ^ 24)]

def CLogRecordHeader.bytes (header : CLogRecordHeader) : Bytes :=
  int32Bytes header.lsn.toInt ++ int32Bytes header.trxId.toInt ++ int32Bytes header.type.toInt ++
    int32Bytes header.logrecLen

def CLogRecordCommitData.bytes (commitRecord : CLogRecordCommitData) : Bytes := int32Bytes commitRecord.commitXid.toInt

/-- The first `HEADER_SIZE` bytes; a record is zero before its fields are set, and so are the bytes between them. -/
def CLogRecordData.headerBytes (dataRecord : CLogRecordData) : Bytes :=
  int32Bytes dataRecord.tableId.toInt ++ int32Bytes dataRecord.pageNum.toInt ++ int32Bytes dataRecord.slotNum.toInt ++
    int32Bytes dataRecord.dataLen ++ int32Bytes dataRecord.dataOffset.toInt ++ int32Bytes 0

/-- What `CLogBuffer::write_log_record` writes. -/
def CLogRecord.bytes (record : CLogRecord) : Bytes :=
  record.header.bytes ++
    if record.header.type = CLogType.mtrBegin.toInteger ∨ record.header.type = CLogType.mtrRollback.toInteger then []
    else if record.header.type = CLogType.mtrCommit.toInteger then
      record.commitRecord.bytes.take record.header.logrecLen.toNat
    else record.dataRecord.headerBytes ++ record.dataRecord.data.take record.dataRecord.dataLen.toNat

/-- `CLogBuffer::write_log_record`. -/
def writeLogRecord (file : Bytes) (record : CLogRecord) : Bytes := file ++ record.bytes

/-- `CLOG_BUFFER_SIZE`. -/
def clogBufferSize : ℤ := 4 * 1024 * 1024

structure CLogBuffer where
  logRecords : List CLogRecord
  totalSize : ℤ

namespace CLogBuffer

def empty : CLogBuffer := ⟨[], 0⟩

/-- `CLogBuffer::append_log_record`. -/
def appendLogRecord (buffer : CLogBuffer) (record : CLogRecord) : RC × CLogBuffer :=
  if buffer.totalSize + record.header.logrecLen ≥ clogBufferSize then (.logbufFull, buffer)
  else (.success, ⟨buffer.logRecords ++ [record], buffer.totalSize + record.header.logrecLen⟩)

/-- `CLogBuffer::flush_buffer`. -/
def flushBuffer (buffer : CLogBuffer) (file : Bytes) : CLogBuffer × Bytes :=
  (⟨[], buffer.logRecords.foldl (fun totalSize record => totalSize - record.header.logrecLen) buffer.totalSize⟩,
    buffer.logRecords.foldl writeLogRecord file)

end CLogBuffer

/-! ## Reading -/

def CLogRecordHeader.ofBytes (bytes : Bytes) : CLogRecordHeader where
  lsn := .ofInt (intOfBytes bytes)
  trxId := .ofInt (intOfBytes (bytes.drop 4))
  type := .ofInt (intOfBytes (bytes.drop 8))
  logrecLen := intOfBytes (bytes.drop 12)

def CLogRecordData.ofBytes (bytes : Bytes) : CLogRecordData where
  tableId := .ofInt (intOfBytes bytes)
  pageNum := .ofInt (intOfBytes (bytes.drop 4))
  slotNum := .ofInt (intOfBytes (bytes.drop 8))
  dataLen := intOfBytes (bytes.drop 12)
  dataOffset := .ofInt (intOfBytes (bytes.drop 16))
  data := bytes.drop dataHeaderSize

/-- `CLogRecord::build`. -/
def CLogRecord.build (header : CLogRecordHeader) (data : Bytes) : Option CLogRecord :=
  if header.logrecLen ≤ 0 then some { header := header }
  else if header.type = CLogType.mtrCommit.toInteger then
    if header.logrecLen ≠ commitDataSize then none
    else some { header := header, commitRecord := { commitXid := .ofInt (intOfBytes data) } }
  else if header.logrecLen < dataHeaderSize then none
  else some { header := header, dataRecord := .ofBytes data }

/-- `CLogFile::read`: the bytes and what is left, or `none` at the end of the file. -/
def read (file : Bytes) (len : ℕ) : Option (Bytes × Bytes) :=
  if len ≤ file.length then some (file.take len, file.drop len) else none

/-- `CLogRecordIterator::next`: the code, the record if there is one, and what is left of the file. -/
def next (file : Bytes) : Option (RC × Option CLogRecord × Bytes) :=
  match read file headerSize with
  | none => some (.recordEof, none, [])
  | some (bytes, file) =>
    let header := CLogRecordHeader.ofBytes bytes
    if 0 < header.logrecLen then
      match read file header.logrecLen.toNat with
      | none => some (.ioerrRead, none, [])
      | some (data, file) => do
        let record ← CLogRecord.build header data
        some (.success, some record, file)
    else do
      let record ← CLogRecord.build header []
      some (.success, some record, file)

/-- Calls of `next` until there is no record: the last code, and the records. -/
def readAll : ℕ → Bytes → Option (RC × List CLogRecord)
  | 0, _ => none
  | fuel + 1, file => do
    let (rc, record, file) ← next file
    match record with
    | none => some (rc, [])
    | some record =>
      let (rc, records) ← readAll fuel file
      some (rc, record :: records)

/-- Iterating over a file from its start; no file has more records than bytes. -/
def iterate (file : Bytes) : Option (RC × List CLogRecord) := readAll (file.length + 1) file

end Landbase.Clog.LogFile
