import Landbase.Sql.Date

/-! # `PlainCommunicator`

The text protocol of `net/plain_communicator.cpp`. A request is a text ended by a zero byte, and so is a reply: the header
and the rows of a result or one line with its state, then the debug messages, then the zero byte.

All texts of a reply are C strings, so that the only zero byte of a reply is its last one.
-/

namespace Landbase.Net.Plain
open Sql
set_option autoImplicit false

/-! ## Texts -/

/-- The bytes in front of the zero byte that ends a C string. -/
abbrev CString := { text : Bytes // 0 ∉ text }

def ascii (s : String) : Bytes := s.toList.map fun c => c.toNat.toUInt8

/-- The C string that lies at the start of a buffer. -/
def cString (buf : Bytes) : Bytes := buf.takeWhile (· ≠ 0)

theorem ne_zero_of_not_mem {buf : Bytes} (h : 0 ∉ buf) : ∀ b ∈ buf, decide (b ≠ 0) = true := by
  intro b hb
  refine decide_eq_true ?_
  rintro rfl
  exact h hb

theorem cString_append_of_not_mem {buf : Bytes} (h : 0 ∉ buf) (more : Bytes) : cString (buf ++ more) = buf ++ cString more :=
  List.takeWhile_append_of_pos (ne_zero_of_not_mem h)

theorem cString_append_zero {text : Bytes} (h : 0 ∉ text) (more : Bytes) : cString (text ++ 0 :: more) = text := by
  rw [cString_append_of_not_mem h]
  simp [cString]

theorem cString_of_not_mem {buf : Bytes} (h : 0 ∉ buf) : cString buf = buf := by
  have happend := cString_append_of_not_mem h []
  simpa [cString] using happend

theorem eq_cString_append {buf : Bytes} (h : 0 ∈ buf) : ∃ more, buf = cString buf ++ 0 :: more := by
  obtain ⟨text, more, rfl, htext⟩ := List.eq_append_cons_of_mem h
  exact ⟨more, by rw [cString_append_zero htext]⟩

theorem not_mem_cString (buf : Bytes) : 0 ∉ cString buf := by
  by_cases h : 0 ∈ buf
  · obtain ⟨text, more, rfl, htext⟩ := List.eq_append_cons_of_mem h
    rwa [cString_append_zero htext]
  · rwa [cString_of_not_mem h]

/-- `common::is_blank`. -/
def isBlank (s : Bytes) : Bool := (cString s).all isSpace

/-- The string for a return code. -/
def strrc : RC → String
  | .success => "SUCCESS"
  | .invalidArgument => "INVALID_ARGUMENT"
  | .unimplenment => "UNIMPLENMENT"
  | .sqlSyntax => "SQL_SYNTAX"
  | .internal => "INTERNAL"
  | .nomem => "NOMEM"
  | .notfound => "NOTFOUND"
  | .empty => "EMPTY"
  | .bufferpoolOpen => "BUFFERPOOL_OPEN"
  | .bufferpoolNobuf => "BUFFERPOOL_NOBUF"
  | .bufferpoolInvalidPageNum => "BUFFERPOOL_INVALID_PAGE_NUM"
  | .recordOpenned => "RECORD_OPENNED"
  | .recordInvalidRid => "RECORD_INVALID_RID"
  | .recordInvalidKey => "RECORD_INVALID_KEY"
  | .recordDuplicateKey => "RECORD_DUPLICATE_KEY"
  | .recordNomem => "RECORD_NOMEM"
  | .recordEof => "RECORD_EOF"
  | .recordNotExist => "RECORD_NOT_EXIST"
  | .recordInvisible => "RECORD_INVISIBLE"
  | .schemaDbExist => "SCHEMA_DB_EXIST"
  | .schemaDbNotExist => "SCHEMA_DB_NOT_EXIST"
  | .tupleNotExist => "TUPLE_NOT_EXIST"
  | .schemaDbNotOpened => "SCHEMA_DB_NOT_OPENED"
  | .schemaTableNotExist => "SCHEMA_TABLE_NOT_EXIST"
  | .schemaTableExist => "SCHEMA_TABLE_EXIST"
  | .schemaFieldNotExist => "SCHEMA_FIELD_NOT_EXIST"
  | .schemaFieldMissing => "SCHEMA_FIELD_MISSING"
  | .schemaFieldTypeMismatch => "SCHEMA_FIELD_TYPE_MISMATCH"
  | .schemaIndexNameRepeat => "SCHEMA_INDEX_NAME_REPEAT"
  | .ioerrRead => "IOERR_READ"
  | .ioerrWrite => "IOERR_WRITE"
  | .ioerrAccess => "IOERR_ACCESS"
  | .ioerrOpen => "IOERR_OPEN"
  | .ioerrClose => "IOERR_CLOSE"
  | .ioerrSeek => "IOERR_SEEK"
  | .ioerrTooLong => "IOERR_TOO_LONG"
  | .ioerrSync => "IOERR_SYNC"
  | .lockedUnlock => "LOCKED_UNLOCK"
  | .lockedNeedWait => "LOCKED_NEED_WAIT"
  | .lockedConcurrencyConflict => "LOCKED_CONCURRENCY_CONFLICT"
  | .fileExist => "FILE_EXIST"
  | .fileNotExist => "FILE_NOT_EXIST"
  | .fileName => "FILE_NAME"
  | .fileBound => "FILE_BOUND"
  | .fileCreate => "FILE_CREATE"
  | .fileOpen => "FILE_OPEN"
  | .fileNotOpened => "FILE_NOT_OPENED"
  | .fileClose => "FILE_CLOSE"
  | .fileRemove => "FILE_REMOVE"
  | .fileSeek => "FILE_SEEK"
  | .fileRead => "FILE_READ"
  | .fileWrite => "FILE_WRITE"
  | .variableNotExists => "VARIABLE_NOT_EXISTS"
  | .variableNotValid => "VARIABLE_NOT_VALID"
  | .logbufFull => "LOGBUF_FULL"
  | .failure => "FAILURE"
  | .failToDeleteFile => "FAIL_TO_DELETE_FILE"
  | .schemaFieldNotNullable => "SCHEMA_FIELD_NOT_NULLABLE"
  | .needTuple => "NEED_TUPLE"

theorem not_mem_strrc (rc : RC) : 0 ∉ ascii (strrc rc) := by
  cases rc <;> decide

/-! ## Requests -/

/-- `max_packet_size`. -/
def maxPacketSize : ℕ := 70000

/-- One round of the loop of `read_event`, when `data` has come behind what was there: the query, once the end of the
message has come. What comes behind the end is not looked at. -/
def readEvent (buf data : Bytes) : Option Bytes := if 0 ∈ data then some (cString (buf ++ data)) else none

/-! ## Replies -/

/-- What the operator of a result gives: how opening it ends, the aliases of its columns, the cells of the tuples, how the
last call of `next` and how closing it end. -/
structure Operator where
  open_ : RC
  aliases : List CString
  tuples : List (List (Except RC CString))
  next : { rc : RC // rc ≠ .success }
  close : RC

structure SqlResult where
  returnCode : RC
  stateString : CString
  operator_ : Option Operator

/-- What a reply consists of. `cleared` is taken out of the writer again, as far as it has not been sent before. -/
structure Reply where
  cleared : Bytes
  text : Bytes
  needDisconnect : Bool

/-- `write_state`, into a buffer of 2048 bytes. -/
def writeState (rc : RC) (stateString : CString) : Bytes :=
  let state := if stateString.val.isEmpty then (if rc = .success then ascii "SUCCESS" else ascii "FAILURE") ++ ascii "\n"
    else ascii (strrc rc) ++ ascii " > " ++ stateString.val ++ ascii "\n"
  state.take 2047

/-- The cells of a tuple with a delimiter in front of all but the first of them, up to the first that cannot be had. -/
def writeCells (first : Bool) : List (Except RC CString) → Bytes × Bool
  | [] => ([], true)
  | .error _ :: _ => (if first then [] else ascii " | ", false)
  | .ok cell :: cells =>
    let (rest, whole) := writeCells false cells
    ((if first then [] else ascii " | ") ++ cell.val ++ rest, whole)

def writeTuples : List (List (Except RC CString)) → Bytes × Bool
  | [] => ([], true)
  | tuple :: tuples =>
    let (cells, whole) := writeCells true tuple
    if whole then
      let (rest, whole) := writeTuples tuples
      (cells ++ ascii "\n" ++ rest, whole)
    else (cells, false)

def writeHeader (aliases : List CString) : Bytes :=
  (writeCells true (aliases.map .ok)).1 ++ if aliases.isEmpty then [] else ascii "\n"

/-- `write_result_internal`. -/
def writeResultInternal (result : SqlResult) : Reply :=
  match result.operator_ with
  | none => ⟨[], writeState result.returnCode result.stateString, false⟩
  | some oper =>
    if result.returnCode ≠ .success then ⟨[], writeState result.returnCode result.stateString, false⟩
    else if oper.open_ ≠ .success then ⟨[], writeState oper.open_ result.stateString, false⟩
    else
      let (rows, whole) := writeTuples oper.tuples
      let written := writeHeader oper.aliases ++ rows
      if !whole then ⟨[], written, true⟩
      else if oper.next.val ≠ .recordEof then ⟨written, writeState oper.next.val result.stateString, false⟩
      else if oper.aliases.isEmpty then ⟨[], written ++ writeState oper.close result.stateString, false⟩
      else ⟨[], written, false⟩

/-- `write_debug`, with the messages of the request where they are asked for. -/
def writeDebug (debugInfos : List CString) : Bytes := debugInfos.flatMap fun info => ascii "# " ++ info.val ++ ascii "\n"

/-- `write_result`, but for the delimiter at the end. -/
def writeResult (result : SqlResult) (debugInfos : List CString) : Reply :=
  let reply := writeResultInternal result
  if reply.needDisconnect then reply else { reply with text := reply.text ++ writeDebug debugInfos }

/-- The bytes that leave the writer: of what is cleared, those that had left it when it was full. -/
def Reply.Sends (reply : Reply) (text : Bytes) : Prop := ∃ sent, sent <+: reply.cleared ∧ text = sent ++ reply.text

/-! ### There is no zero byte in a reply -/

theorem not_mem_writeState (rc : RC) (stateString : CString) : 0 ∉ writeState rc stateString := by
  have hsuccess : 0 ∉ ascii "SUCCESS" := by decide
  have hfailure : 0 ∉ ascii "FAILURE" := by decide
  have harrow : 0 ∉ ascii " > " := by decide
  have hnewline : 0 ∉ ascii "\n" := by decide
  intro hmem
  have hstate := List.mem_of_mem_take hmem
  split at hstate
  · split at hstate <;> simp_all
  · have hrc := not_mem_strrc rc
    have hstring := stateString.property
    simp_all

theorem not_mem_writeCells (first : Bool) (cells : List (Except RC CString)) : 0 ∉ (writeCells first cells).1 := by
  have hdelim : 0 ∉ ascii " | " := by decide
  induction cells generalizing first with
  | nil => simp [writeCells]
  | cons cell cells ih =>
    cases cell with
    | error rc =>
      cases first
      · exact hdelim
      · exact List.not_mem_nil
    | ok cell =>
      have hrest := ih false
      have hcell := cell.property
      cases first <;> simp_all [writeCells]

theorem not_mem_writeTuples (tuples : List (List (Except RC CString))) : 0 ∉ (writeTuples tuples).1 := by
  have hnewline : 0 ∉ ascii "\n" := by decide
  induction tuples with
  | nil => simp [writeTuples]
  | cons tuple tuples ih =>
    have hcells := not_mem_writeCells true tuple
    rw [writeTuples]
    simp only
    split <;> simp_all

theorem not_mem_writeHeader (aliases : List CString) : 0 ∉ writeHeader aliases := by
  have hnewline : 0 ∉ ascii "\n" := by decide
  have hcells := not_mem_writeCells true (aliases.map .ok)
  rw [writeHeader]
  split <;> simp_all

theorem not_mem_writeDebug (debugInfos : List CString) : 0 ∉ writeDebug debugInfos := by
  have hprefix : 0 ∉ ascii "# " := by decide
  have hnewline : 0 ∉ ascii "\n" := by decide
  intro hmem
  obtain ⟨info, -, hinfo⟩ := List.mem_flatMap.mp hmem
  have hclean := info.property
  simp_all

theorem not_mem_writeResultInternal (result : SqlResult) :
    0 ∉ (writeResultInternal result).cleared ∧ 0 ∉ (writeResultInternal result).text := by
  have hstate := not_mem_writeState
  unfold writeResultInternal
  cases result.operator_ with
  | none => exact ⟨List.not_mem_nil, hstate _ _⟩
  | some oper =>
    have hwritten : 0 ∉ writeHeader oper.aliases ++ (writeTuples oper.tuples).1 := by
      simp [not_mem_writeHeader, not_mem_writeTuples]
    simp only
    split
    · exact ⟨List.not_mem_nil, hstate _ _⟩
    · split
      · exact ⟨List.not_mem_nil, hstate _ _⟩
      · split
        · exact ⟨List.not_mem_nil, hwritten⟩
        · split
          · exact ⟨hwritten, hstate _ _⟩
          · split
            · refine ⟨List.not_mem_nil, fun hmem => ?_⟩
              cases List.mem_append.mp hmem with
              | inl h => exact hwritten h
              | inr h => exact hstate _ _ h
            · exact ⟨List.not_mem_nil, hwritten⟩

theorem not_mem_writeResult (result : SqlResult) (debugInfos : List CString) {text : Bytes}
    (h : (writeResult result debugInfos).Sends text) : 0 ∉ text := by
  obtain ⟨sent, hsent, rfl⟩ := h
  have hinternal := not_mem_writeResultInternal result
  have hdebug := not_mem_writeDebug debugInfos
  have hsent' : 0 ∉ sent := by
    intro hmem
    have hcleared := hsent.subset hmem
    unfold writeResult at hcleared
    simp only at hcleared
    split at hcleared <;> exact hinternal.1 hcleared
  have htext : 0 ∉ (writeResult result debugInfos).text := by
    unfold writeResult
    simp only
    split
    · exact hinternal.2
    · simp [hinternal.2, hdebug]
  simp [hsent', htext]

end Landbase.Net.Plain
