import Landbase.Net.Lenenc
import Mathlib.Data.List.TakeWhile

/-! # The packets that are sent to a MySQL client

`OkPacket`, `EofPacket` and `ErrPacket` of `net/mysql_communicator.cpp`, and the one of them that `write_state` builds
for the outcome of a statement. `encode` takes memory of a fixed size, writes field after field behind the four bytes of
the header, fills in the length, and cuts the memory off behind the last field; `none` is a write outside of it.
-/

namespace Landbase.Net
set_option autoImplicit false

/-! ## The memory of a packet -/

/-- `net_packet`, and `pos`. -/
structure PacketBuffer where
  buf : Bytes
  pos : ℕ

namespace PacketBuffer

/-- `net_packet.resize(size)` of an empty packet, and the three bytes left out for the length. -/
def create (size : ℕ) : PacketBuffer := ⟨List.replicate size 0, 3⟩

/-- `pos += store_...(buf + pos, ...)`: the bytes that are written, and what the function returns. -/
def store (packet : PacketBuffer) (stored : Bytes × ℤ) : Option PacketBuffer :=
  if packet.pos + stored.1.length ≤ packet.buf.length then
    some ⟨packet.buf.take packet.pos ++ stored.1 ++ packet.buf.drop (packet.pos + stored.1.length),
      packet.pos + stored.2.toNat⟩
  else none

/-- `store_int1`, `store_int2`, `store_int3` and `store_int4`, by the number of bytes. -/
def storeInt (n : ℕ) (value : ℤ) : Bytes × ℤ := (lowBytes n (value % 256 ^ n).toNat, n)

def storeInt1 (value : ℤ) : Bytes × ℤ := storeInt 1 value
def storeInt2 (value : ℤ) : Bytes × ℤ := storeInt 2 value
def storeInt3 (value : ℤ) : Bytes × ℤ := storeInt 3 value
def storeInt4 (value : ℤ) : Bytes × ℤ := storeInt 4 value

/-- `store_int3(buf, pos - 4)` and `net_packet.resize(pos)`. -/
def finish (packet : PacketBuffer) : Option Bytes :=
  let length := (storeInt3 (packet.pos - 4)).1
  if length.length ≤ packet.buf.length then some ((length ++ packet.buf.drop length.length).take packet.pos) else none

end PacketBuffer

/-! ## The packets -/

def clientProtocol41 : UInt32 := 512
def clientTransactions : UInt32 := 65535
def clientSessionTrack : UInt32 := (1 : UInt32) <<< 23

/-- The bytes of a `std::string` in front of the first NUL. -/
def cString (s : Bytes) : Bytes := s.takeWhile (· ≠ 0)

open PacketBuffer

structure OkPacket where
  sequenceId : ℤ := 0
  header : ℤ := 0
  affectedRows : ℤ := 0
  lastInsertId : ℤ := 0
  statusFlags : ℤ := 0x22
  warnings : ℤ := 0
  info : Bytes := []

/-- `info`, with its length in front if the client asks for it. -/
def OkPacket.storedInfo (ok : OkPacket) (capabilities : UInt32) : Option (Bytes × ℤ) :=
  if capabilities &&& clientSessionTrack ≠ 0 then storeLenencString (cString ok.info)
  else storeFixLengthString ok.info (toInt32 ok.info.length)

/-- `OkPacket::encode`. -/
def OkPacket.encode (ok : OkPacket) (capabilities : UInt32) : Option Bytes := do
  let packet ← (create 100).store (storeInt1 ok.sequenceId)
  let packet ← packet.store (storeInt1 ok.header)
  let packet ← packet.store (storeLenencInt (UInt64.ofInt ok.affectedRows))
  let packet ← packet.store (storeLenencInt (UInt64.ofInt ok.lastInsertId))
  let packet ←
    if capabilities &&& clientProtocol41 ≠ 0 then do
      let packet ← packet.store (storeInt2 ok.statusFlags)
      packet.store (storeInt2 ok.warnings)
    else if capabilities &&& clientTransactions ≠ 0 then packet.store (storeInt2 ok.statusFlags)
    else some packet
  let packet ← packet.store (← ok.storedInfo capabilities)
  packet.finish

structure EofPacket where
  sequenceId : ℤ := 0
  header : ℤ := 0xFE
  warnings : ℤ := 0
  statusFlags : ℤ := 0x22

/-- `EofPacket::encode`. -/
def EofPacket.encode (eof : EofPacket) (capabilities : UInt32) : Option Bytes := do
  let packet ← (create 10).store (storeInt1 eof.sequenceId)
  let packet ← packet.store (storeInt1 eof.header)
  let packet ←
    if capabilities &&& clientProtocol41 ≠ 0 then do
      let packet ← packet.store (storeInt2 eof.warnings)
      packet.store (storeInt2 eof.statusFlags)
    else some packet
  packet.finish

/-- The text of a literal. -/
def text (s : String) : Bytes := s.toList.map fun c => UInt8.ofNat c.toNat

structure ErrPacket where
  sequenceId : ℤ := 0
  header : ℤ := 0xFF
  errorCode : ℤ := 0
  sqlStateMarker : Bytes := text "#"
  sqlState : Bytes := text "HY000"
  errorMessage : Bytes := []

/-- `ErrPacket::encode`. -/
def ErrPacket.encode (err : ErrPacket) (capabilities : UInt32) : Option Bytes := do
  let packet ← (create 1000).store (storeInt1 err.sequenceId)
  let packet ← packet.store (storeInt1 err.header)
  let packet ← packet.store (storeInt2 err.errorCode)
  let packet ←
    if capabilities &&& clientProtocol41 ≠ 0 then do
      let packet ← packet.store (← storeFixLengthString err.sqlStateMarker 1)
      packet.store (← storeFixLengthString err.sqlState 5)
    else some packet
  let packet ← packet.store (← storeFixLengthString err.errorMessage (toInt32 err.errorMessage.length))
  packet.finish

/-! ## The state of a statement -/

/-- `strrc`. -/
def strrc : RC → String
  | .success => "SUCCESS"
  | .invalidArgument => "INVALID_ARGUMENT"
  | .unimplenment => "UNIMPLENMENT"
  | .sqlSyntax => "SQL_SYNTAX"
  | .internal => "INTERNAL"
  | .nomem => "NOMEM"
  | .notfound => "NOTFOUND"
  | .empty => "EMPTY"
  | .bufferpoolOpen => "BUFFERPOOL_OPEN"
  | .bufferpoolNobuf => "BUFFERPOOL_NOBUF"
  | .bufferpoolInvalidPageNum => "BUFFERPOOL_INVALID_PAGE_NUM"
  | .recordOpenned => "RECORD_OPENNED"
  | .recordInvalidRid => "RECORD_INVALID_RID"
  | .recordInvalidKey => "RECORD_INVALID_KEY"
  | .recordDuplicateKey => "RECORD_DUPLICATE_KEY"
  | .recordNomem => "RECORD_NOMEM"
  | .recordEof => "RECORD_EOF"
  | .recordNotExist => "RECORD_NOT_EXIST"
  | .recordInvisible => "RECORD_INVISIBLE"
  | .schemaDbExist => "SCHEMA_DB_EXIST"
  | .schemaDbNotExist => "SCHEMA_DB_NOT_EXIST"
  | .tupleNotExist => "TUPLE_NOT_EXIST"
  | .schemaDbNotOpened => "SCHEMA_DB_NOT_OPENED"
  | .schemaTableNotExist => "SCHEMA_TABLE_NOT_EXIST"
  | .schemaTableExist => "SCHEMA_TABLE_EXIST"
  | .schemaFieldNotExist => "SCHEMA_FIELD_NOT_EXIST"
  | .schemaFieldMissing => "SCHEMA_FIELD_MISSING"
  | .schemaFieldTypeMismatch => "SCHEMA_FIELD_TYPE_MISMATCH"
  | .schemaIndexNameRepeat => "SCHEMA_INDEX_NAME_REPEAT"
  | .ioerrRead => "IOERR_READ"
  | .ioerrWrite => "IOERR_WRITE"
  | .ioerrAccess => "IOERR_ACCESS"
  | .ioerrOpen => "IOERR_OPEN"
  | .ioerrClose => "IOERR_CLOSE"
  | .ioerrSeek => "IOERR_SEEK"
  | .ioerrTooLong => "IOERR_TOO_LONG"
  | .ioerrSync => "IOERR_SYNC"
  | .lockedUnlock => "LOCKED_UNLOCK"
  | .lockedNeedWait => "LOCKED_NEED_WAIT"
  | .lockedConcurrencyConflict => "LOCKED_CONCURRENCY_CONFLICT"
  | .fileExist => "FILE_EXIST"
  | .fileNotExist => "FILE_NOT_EXIST"
  | .fileName => "FILE_NAME"
  | .fileBound => "FILE_BOUND"
  | .fileCreate => "FILE_CREATE"
  | .fileOpen => "FILE_OPEN"
  | .fileNotOpened => "FILE_NOT_OPENED"
  | .fileClose => "FILE_CLOSE"
  | .fileRemove => "FILE_REMOVE"
  | .fileSeek => "FILE_SEEK"
  | .fileRead => "FILE_READ"
  | .fileWrite => "FILE_WRITE"
  | .variableNotExists => "VARIABLE_NOT_EXISTS"
  | .variableNotValid => "VARIABLE_NOT_VALID"
  | .logbufFull => "LOGBUF_FULL"
  | .failure => "FAILURE"
  | .failToDeleteFile => "FAIL_TO_DELETE_FILE"
  | .schemaFieldNotNullable => "SCHEMA_FIELD_NOT_NULLABLE"
  | .needTuple => "NEED_TUPLE"

/-- What `snprintf` leaves in a buffer of this size, in front of the NUL. -/
def snprintf (size : ℕ) (output : Bytes) : Bytes := output.take (size - 1)

/-- The text that `write_state` sends about a statement. -/
def stateMessage (rc : RC) (stateString : Bytes) : Bytes :=
  snprintf 2048
    (if stateString = [] then if rc = .success then text "SUCCESS" else text "FAILURE"
    else text (strrc rc) ++ text " > " ++ cString stateString)

/-- The packet of `write_state`. -/
def statePacket (capabilities : UInt32) (sequenceId : ℤ) (rc : RC) (stateString : Bytes) : Option Bytes :=
  if rc = .success then
    let ok : OkPacket := { sequenceId := sequenceId, info := stateMessage rc stateString }
    ok.encode capabilities
  else
    let err : ErrPacket :=
      { sequenceId := sequenceId, errorCode := rc.ctorIdx, errorMessage := stateMessage rc stateString }
    err.encode capabilities

/-- The packet is encoded inside of its memory, and the first three bytes are the number of those behind the header. -/
def EncodedInBounds (capabilities : UInt32) (sequenceId : ℤ) (rc : RC) (stateString : Bytes) : Prop :=
  ∃ packet, statePacket capabilities sequenceId rc stateString = some packet ∧
    ofLowBytes (packet.take 3) + 4 = packet.length

/-- What stands in front of the message in an `OkPacket`, together with the header. -/
def okHead (capabilities : UInt32) : ℕ :=
  7 + (if capabilities &&& clientProtocol41 ≠ 0 then 4 else if capabilities &&& clientTransactions ≠ 0 then 2 else 0) +
    if capabilities &&& clientSessionTrack ≠ 0 then 1 else 0

/-- What stands in front of the message in an `ErrPacket`, together with the header. -/
def errHead (capabilities : UInt32) : ℕ := 7 + if capabilities &&& clientProtocol41 ≠ 0 then 6 else 0

/-- There is no state string, or its part in front of a NUL has room in the packet behind the name of the code. -/
def StateFits (capabilities : UInt32) (rc : RC) (stateString : Bytes) : Prop :=
  stateString = [] ∨
    if rc = .success then okHead capabilities + (strrc rc).length + 3 + (cString stateString).length ≤ 100
    else errHead capabilities + (strrc rc).length + 3 + (cString stateString).length ≤ 1000

/-! ## Packets that are filled field by field -/

namespace PacketBuffer

/-- Memory of this size with these bytes in front. -/
def filled (size : ℕ) (written : Bytes) : PacketBuffer :=
  ⟨written ++ List.replicate (size - written.length) 0, written.length⟩

/-- What a `store_` function returns is the number of the bytes. -/
def Counted (stored : Bytes × ℤ) : Prop := stored.2 = stored.1.length

theorem counted_storeInt (n : ℕ) (value : ℤ) : Counted (storeInt n value) := by
  rw [Counted, storeInt, lowBytes_length]

theorem counted_storeLenencInt (value : UInt64) : Counted (storeLenencInt value) := (storeLenencInt_length value).symm

variable {size : ℕ} {written : Bytes} {stored : Bytes × ℤ}

theorem create_eq (h : 3 ≤ size) : create size = filled size [0, 0, 0] := by
  obtain ⟨n, rfl⟩ := Nat.exists_eq_add_of_le' h
  rfl

theorem store_filled (hwritten : written.length ≤ size) (hcounted : Counted stored) :
    (filled size written).store stored =
      if written.length + stored.1.length ≤ size then some (filled size (written ++ stored.1)) else none := by
  have hlength : (filled size written).buf.length = size := by
    simp only [filled, List.length_append, List.length_replicate]
    omega
  rw [store, hlength]
  refine if_congr Iff.rfl (congrArg some ?_) rfl
  have hdrop : (filled size written).buf.drop (written.length + stored.1.length) =
      List.replicate (size - (written ++ stored.1).length) 0 := by
    rw [filled, List.drop_append, List.drop_of_length_le (Nat.le_add_right _ _), List.nil_append, List.drop_replicate,
      List.length_append]
    congr 1
    omega
  have htake : (filled size written).buf.take written.length = written := List.take_left
  show PacketBuffer.mk (_ ++ _ ++ (filled size written).buf.drop (written.length + _)) _ = _
  rw [hdrop]
  show PacketBuffer.mk ((filled size written).buf.take written.length ++ _ ++ _) (written.length + _) = _
  rw [htake, hcounted, Int.toNat_natCast, ← List.length_append]
  rfl

/-- Field after field. -/
def storeAll (packet : PacketBuffer) (fields : List (Bytes × ℤ)) : Option PacketBuffer := fields.foldlM store packet

theorem storeAll_filled {fields : List (Bytes × ℤ)} (hcounted : ∀ stored ∈ fields, Counted stored)
    (hwritten : written.length ≤ size) :
    (filled size written).storeAll fields =
      if written.length + (fields.flatMap Prod.fst).length ≤ size then
        some (filled size (written ++ fields.flatMap Prod.fst)) else none := by
  induction fields generalizing written with
  | nil =>
    rw [List.flatMap_nil, List.append_nil, List.length_nil, Nat.add_zero, if_pos hwritten]
    rfl
  | cons stored fields ih =>
    have hrest : ∀ stored ∈ fields, Counted stored := fun other hmem => hcounted other (List.mem_cons_of_mem _ hmem)
    rw [storeAll, List.foldlM_cons, store_filled hwritten (hcounted stored List.mem_cons_self), List.flatMap_cons,
      List.length_append]
    by_cases hroom : written.length + stored.1.length ≤ size
    · rw [if_pos hroom, Option.bind_eq_bind, Option.bind_some]
      have hlength : (written ++ stored.1).length = written.length + stored.1.length := List.length_append
      have happend := ih hrest (hlength ▸ hroom)
      rw [storeAll] at happend
      rw [happend, hlength, Nat.add_assoc, List.append_assoc]
    · rw [if_neg hroom, if_neg (by omega)]
      rfl

theorem finish_filled (hlo : 4 ≤ written.length) (hhi : written.length ≤ size) (hsize : size < 2 ^ 24) :
    (filled size written).finish = some (lowBytes 3 (written.length - 4) ++ written.drop 3) := by
  have hlength : (filled size written).buf.length = size := by
    simp only [filled, List.length_append, List.length_replicate]
    omega
  have hvalue : (((written.length : ℤ) - 4) % 256 ^ 3).toNat = written.length - 4 := by omega
  have hstored : (storeInt3 ((written.length : ℤ) - 4)).1 = lowBytes 3 (written.length - 4) :=
    congrArg (lowBytes 3) hvalue
  have hdrop : (filled size written).buf.drop 3 = written.drop 3 ++ List.replicate (size - written.length) 0 :=
    List.drop_append_of_le_length (by omega)
  have hpos : (lowBytes 3 (written.length - 4) ++ written.drop 3).length = (filled size written).pos := by
    rw [List.length_append, lowBytes_length, List.length_drop]
    show _ = written.length
    omega
  have hstoredPos : (storeInt3 (((filled size written).pos : ℤ) - 4)).1 = lowBytes 3 (written.length - 4) := hstored
  unfold finish
  rw [hstoredPos, hlength]
  simp only [lowBytes_length]
  rw [if_pos (by omega), hdrop, ← List.append_assoc, ← hpos, List.take_left]

/-- A packet of fields is encoded if they and the header have room. -/
theorem encode_fields {fields : List (Bytes × ℤ)} (hcounted : ∀ stored ∈ fields, Counted stored)
    (hfields : 0 < (fields.flatMap Prod.fst).length) (hlo : 3 ≤ size) (hhi : size < 2 ^ 24) :
    ((create size).storeAll fields).bind finish =
      if 3 + (fields.flatMap Prod.fst).length ≤ size then
        some (lowBytes 3 ((fields.flatMap Prod.fst).length - 1) ++ fields.flatMap Prod.fst) else none := by
  rw [create_eq hlo, storeAll_filled hcounted hlo]
  show (if 3 + _ ≤ _ then _ else _ : Option PacketBuffer).bind _ = _
  split
  case isTrue hroom =>
    have hlength : ([0, 0, 0] ++ fields.flatMap Prod.fst : Bytes).length = 3 + (fields.flatMap Prod.fst).length :=
      List.length_append
    rw [Option.bind_some, finish_filled (by omega) (by omega) hhi, hlength]
    have hcount : 3 + (fields.flatMap Prod.fst).length - 4 = (fields.flatMap Prod.fst).length - 1 := by omega
    rw [hcount]
    rfl
  case isFalse => rfl

/-- The length in the header is that of the payload. -/
theorem encode_fields_iff {fields : List (Bytes × ℤ)} (hcounted : ∀ stored ∈ fields, Counted stored)
    (hfields : 0 < (fields.flatMap Prod.fst).length) (hlo : 3 ≤ size) (hhi : size < 2 ^ 24) :
    (∃ packet, ((create size).storeAll fields).bind finish = some packet ∧
      ofLowBytes (packet.take 3) + 4 = packet.length) ↔ 3 + (fields.flatMap Prod.fst).length ≤ size := by
  rw [encode_fields hcounted hfields hlo hhi]
  constructor
  · intro h
    obtain ⟨packet, hpacket, -⟩ := h
    by_contra hroom
    rw [if_neg hroom] at hpacket
    exact absurd hpacket (Option.some_ne_none packet).symm
  · intro hroom
    rw [if_pos hroom]
    refine ⟨_, rfl, ?_⟩
    rw [List.take_left' (lowBytes_length 3 _), ofLowBytes_lowBytes, List.length_append, lowBytes_length]
    omega

end PacketBuffer

/-! ## The fields of an `OkPacket` -/

def OkPacket.fields (ok : OkPacket) (capabilities : UInt32) (info : Bytes × ℤ) : List (Bytes × ℤ) :=
  [storeInt1 ok.sequenceId, storeInt1 ok.header, storeLenencInt (UInt64.ofInt ok.affectedRows),
      storeLenencInt (UInt64.ofInt ok.lastInsertId)] ++
    (if capabilities &&& clientProtocol41 ≠ 0 then [storeInt2 ok.statusFlags, storeInt2 ok.warnings]
    else if capabilities &&& clientTransactions ≠ 0 then [storeInt2 ok.statusFlags] else []) ++ [info]

theorem OkPacket.encode_eq {ok : OkPacket} {capabilities : UInt32} {info : Bytes × ℤ}
    (h : ok.storedInfo capabilities = some info) :
    ok.encode capabilities = ((create 100).storeAll (ok.fields capabilities info)).bind finish := by
  unfold encode fields storeAll
  rw [h]
  by_cases h41 : capabilities &&& clientProtocol41 ≠ 0
  · simp [h41, Option.bind_assoc]
  · by_cases htransactions : capabilities &&& clientTransactions ≠ 0
    · simp [h41, htransactions, Option.bind_assoc]
    · simp [h41, htransactions, Option.bind_assoc]

theorem OkPacket.counted_fields (ok : OkPacket) (capabilities : UInt32) {info : Bytes × ℤ} (h : Counted info) :
    ∀ stored ∈ ok.fields capabilities info, Counted stored := by
  have hflags : ∀ stored ∈
      (if capabilities &&& clientProtocol41 ≠ 0 then [storeInt2 ok.statusFlags, storeInt2 ok.warnings]
      else if capabilities &&& clientTransactions ≠ 0 then [storeInt2 ok.statusFlags] else []), Counted stored := by
    split_ifs <;> simp [storeInt2, counted_storeInt]
  simp only [fields, List.forall_mem_append, List.forall_mem_cons, List.not_mem_nil, false_implies, implies_true,
    and_true]
  exact ⟨⟨⟨counted_storeInt 1 _, counted_storeInt 1 _, counted_storeLenencInt _, counted_storeLenencInt _⟩, hflags⟩, h⟩

theorem OkPacket.length_fields (ok : OkPacket) (capabilities : UInt32) (info : Bytes × ℤ) :
    3 + ((ok.fields capabilities info).flatMap Prod.fst).length =
      5 + (storeLenencInt (UInt64.ofInt ok.affectedRows)).1.length +
        (storeLenencInt (UInt64.ofInt ok.lastInsertId)).1.length +
        (if capabilities &&& clientProtocol41 ≠ 0 then 4
        else if capabilities &&& clientTransactions ≠ 0 then 2 else 0) + info.1.length := by
  unfold fields
  split_ifs <;> simp [storeInt1, storeInt2, storeInt, lowBytes_length] <;> omega

theorem storeLenencInt_le (value : UInt64) : (storeLenencInt value).1.length ≤ 9 := by
  unfold storeLenencInt
  split_ifs <;> simp [lowBytes_length]

theorem cString_eq_self {s : Bytes} (h : 0 ∉ s) : cString s = s := by
  refine List.takeWhile_eq_self_iff.mpr fun byte hbyte => decide_eq_true fun hzero => h ?_
  rwa [← hzero]

/-- A short length takes one byte. -/
theorem storeLenencInt_short {n : ℕ} (h : n < 251) : (storeLenencInt (UInt64.ofInt n)).1.length = 1 := by
  have hvalue : (UInt64.ofInt n).toNat = n := by
    have hmod : ((n : ℤ) % 2 ^ 64).toNat = n := by omega
    rw [UInt64.ofInt, hmod, UInt64.toNat_ofNat']
    omega
  have hlt : UInt64.ofInt n < 251 := by
    rw [UInt64.lt_iff_toNat_lt, hvalue]
    exact h
  rw [storeLenencInt, if_pos hlt]
  rfl

/-- The message takes its own length, and one byte more if the client asks for the length of a short one. -/
theorem OkPacket.storedInfo_eq (ok : OkPacket) (capabilities : UInt32) (hzero : 0 ∉ ok.info)
    (hlength : ok.info.length ≤ 2047) :
    ∃ info, ok.storedInfo capabilities = some info ∧ Counted info ∧ ok.info.length ≤ info.1.length ∧
      (ok.info.length < 251 →
        info.1.length = (if capabilities &&& clientSessionTrack ≠ 0 then 1 else 0) + ok.info.length) := by
  have hint : toInt32 ok.info.length = ok.info.length := toInt32_of_range (by omega) (by omega)
  rw [storedInfo]
  by_cases htrack : capabilities &&& clientSessionTrack ≠ 0
  · have hcounted := storeLenencInt_length (UInt64.ofInt ok.info.length)
    have hhead := storeLenencInt_le (UInt64.ofInt ok.info.length)
    rw [if_pos htrack, cString_eq_self hzero, storeLenencString_nat hint le_rfl, List.take_length]
    refine ⟨_, rfl, ?_, ?_, ?_⟩
    · rw [Counted, List.length_append, ← hcounted, toInt32_of_range (by omega) (by omega)]
      push_cast
      rfl
    · rw [List.length_append]
      exact Nat.le_add_left _ _
    · intro hshort
      rw [List.length_append, storeLenencInt_short hshort, if_pos htrack]
  · rw [if_neg htrack, hint, storeFixLengthString_nat le_rfl, List.take_length]
    refine ⟨_, rfl, rfl, le_rfl, fun _ => ?_⟩
    rw [if_neg htrack, Nat.zero_add]

/-! ## The fields of an `EofPacket` -/

def EofPacket.fields (eof : EofPacket) (capabilities : UInt32) : List (Bytes × ℤ) :=
  [storeInt1 eof.sequenceId, storeInt1 eof.header] ++
    if capabilities &&& clientProtocol41 ≠ 0 then [storeInt2 eof.warnings, storeInt2 eof.statusFlags] else []

theorem EofPacket.encode_eq (eof : EofPacket) (capabilities : UInt32) :
    eof.encode capabilities = ((create 10).storeAll (eof.fields capabilities)).bind finish := by
  unfold encode fields storeAll
  by_cases h41 : capabilities &&& clientProtocol41 ≠ 0
  · simp [h41, Option.bind_assoc]
  · simp [h41, Option.bind_assoc]

/-! ## The fields of an `ErrPacket` -/

def ErrPacket.fields (err : ErrPacket) (capabilities : UInt32) (message : Bytes × ℤ) : List (Bytes × ℤ) :=
  [storeInt1 err.sequenceId, storeInt1 err.header, storeInt2 err.errorCode] ++
    (if capabilities &&& clientProtocol41 ≠ 0 then [(text "#", 1), (text "HY000", 5)] else []) ++ [message]

theorem ErrPacket.encode_eq (sequenceId errorCode : ℤ) {errorMessage : Bytes} (capabilities : UInt32)
    (hlength : errorMessage.length ≤ 2047) :
    let err : ErrPacket := { sequenceId := sequenceId, errorCode := errorCode, errorMessage := errorMessage }
    err.encode capabilities =
      ((create 1000).storeAll (err.fields capabilities (errorMessage, errorMessage.length))).bind finish := by
  have hint : toInt32 errorMessage.length = errorMessage.length := toInt32_of_range (by omega) (by omega)
  have hmessage : storeFixLengthString errorMessage errorMessage.length =
      some (errorMessage, (errorMessage.length : ℤ)) := by
    rw [storeFixLengthString_nat le_rfl, List.take_length]
  have hmarker : storeFixLengthString (text "#") 1 = some (text "#", 1) := rfl
  have hstate : storeFixLengthString (text "HY000") 5 = some (text "HY000", 5) := rfl
  unfold encode fields storeAll
  by_cases h41 : capabilities &&& clientProtocol41 ≠ 0
  · simp [h41, hint, hmessage, hmarker, hstate, Option.bind_assoc]
  · simp [h41, hint, hmessage, Option.bind_assoc]

theorem ErrPacket.counted_fields (err : ErrPacket) (capabilities : UInt32) {message : Bytes × ℤ} (h : Counted message) :
    ∀ stored ∈ err.fields capabilities message, Counted stored := by
  have hstate : ∀ stored ∈
      (if capabilities &&& clientProtocol41 ≠ 0 then [(text "#", (1 : ℤ)), (text "HY000", 5)] else []),
      Counted stored := by
    split_ifs
    · exact List.forall_mem_cons.mpr ⟨rfl, List.forall_mem_cons.mpr ⟨rfl, List.forall_mem_nil _⟩⟩
    · exact List.forall_mem_nil _
  simp only [fields, List.forall_mem_append, List.forall_mem_cons, List.not_mem_nil, false_implies, implies_true,
    and_true]
  exact ⟨⟨⟨counted_storeInt 1 _, counted_storeInt 1 _, counted_storeInt 2 _⟩, hstate⟩, h⟩

theorem ErrPacket.length_fields (err : ErrPacket) (capabilities : UInt32) (message : Bytes × ℤ) :
    3 + ((err.fields capabilities message).flatMap Prod.fst).length = errHead capabilities + message.1.length := by
  have hmarker : (text "#").length = 1 := rfl
  have hstate : (text "HY000").length = 5 := rfl
  unfold fields errHead
  split_ifs <;> simp [storeInt1, storeInt2, storeInt, lowBytes_length, hmarker, hstate] <;> omega

/-! ## The message -/

theorem strrc_noNul (rc : RC) : 0 ∉ text (strrc rc) := by
  cases rc <;> decide +kernel

theorem stateMessage_noNul (rc : RC) (stateString : Bytes) : 0 ∉ stateMessage rc stateString := by
  intro hmem
  have houtput := List.mem_of_mem_take hmem
  split_ifs at houtput
  · exact absurd houtput (by decide)
  · exact absurd houtput (by decide)
  · rw [List.mem_append, List.mem_append] at houtput
    cases houtput with
    | inl hfront =>
      cases hfront with
      | inl hname => exact strrc_noNul rc hname
      | inr hsep => exact absurd hsep (by decide)
    | inr hstate => simpa using List.mem_takeWhile_imp hstate

theorem stateMessage_le (rc : RC) (stateString : Bytes) : (stateMessage rc stateString).length ≤ 2047 :=
  List.length_take_le _ _

theorem stateMessage_length (rc : RC) (stateString : Bytes) :
    (stateMessage rc stateString).length =
      if stateString = [] then 7 else min 2047 ((strrc rc).length + 3 + (cString stateString).length) := by
  have hsep : (text " > ").length = 3 := rfl
  have hname : (text (strrc rc)).length = (strrc rc).length := by
    rw [text, List.length_map, String.length_toList]
  rw [stateMessage, snprintf, List.length_take]
  split_ifs
  · rfl
  · rfl
  · rw [List.length_append, List.length_append, hname, hsep]

/-! ## When the packet has room -/

theorem statePacket_success_iff (capabilities : UInt32) (sequenceId : ℤ) (stateString : Bytes) :
    EncodedInBounds capabilities sequenceId .success stateString ↔
      okHead capabilities + (stateMessage .success stateString).length ≤ 100 := by
  let ok : OkPacket := { sequenceId := sequenceId, info := stateMessage .success stateString }
  have hlength : ok.info.length ≤ 2047 := stateMessage_le _ _
  obtain ⟨info, hstored, hcounted, hle, hshort⟩ := ok.storedInfo_eq capabilities (stateMessage_noNul _ _) hlength
  have hfields := ok.length_fields capabilities info
  have hzero : (storeLenencInt (UInt64.ofInt 0)).1.length = 1 := rfl
  rw [hzero] at hfields
  have hencode : EncodedInBounds capabilities sequenceId .success stateString ↔
      3 + ((ok.fields capabilities info).flatMap Prod.fst).length ≤ 100 := by
    rw [← encode_fields_iff (ok.counted_fields capabilities hcounted) (by omega) (by omega) (by omega),
      ← OkPacket.encode_eq hstored]
    rfl
  rw [hencode, hfields, okHead]
  show _ ↔ _ + ok.info.length ≤ 100
  by_cases hlong : ok.info.length < 251
  · rw [hshort hlong, ← Nat.add_assoc]
  · exact iff_of_false (by omega) (by omega)

theorem statePacket_failure_iff (capabilities : UInt32) (sequenceId : ℤ) {rc : RC} (hrc : rc ≠ .success)
    (stateString : Bytes) :
    EncodedInBounds capabilities sequenceId rc stateString ↔
      errHead capabilities + (stateMessage rc stateString).length ≤ 1000 := by
  let err : ErrPacket :=
    { sequenceId := sequenceId, errorCode := rc.ctorIdx, errorMessage := stateMessage rc stateString }
  have hfields := err.length_fields capabilities (stateMessage rc stateString, (stateMessage rc stateString).length)
  have hencode := ErrPacket.encode_eq sequenceId rc.ctorIdx capabilities (stateMessage_le rc stateString)
  rw [EncodedInBounds, statePacket, if_neg hrc]
  simp only at hencode ⊢
  have hcounted := err.counted_fields capabilities
    (show Counted (stateMessage rc stateString, ((stateMessage rc stateString).length : ℤ)) from rfl)
  rw [hencode, encode_fields_iff hcounted (by rw [errHead] at hfields; omega) (by omega) (by omega), hfields]

/-- The packet about a statement is encoded inside of its memory and with its length exactly when the message fits. -/
theorem statePacket_iff (capabilities : UInt32) (sequenceId : ℤ) (rc : RC) (stateString : Bytes) :
    EncodedInBounds capabilities sequenceId rc stateString ↔ StateFits capabilities rc stateString := by
  have hok : okHead capabilities ≤ 12 := by
    unfold okHead
    split_ifs <;> omega
  have herr : errHead capabilities ≤ 13 := by
    unfold errHead
    split_ifs <;> omega
  rw [StateFits]
  by_cases hrc : rc = .success
  · rw [if_pos hrc, hrc, statePacket_success_iff, stateMessage_length]
    by_cases hempty : stateString = []
    · rw [if_pos hempty]
      exact iff_of_true (by omega) (Or.inl hempty)
    · rw [if_neg hempty, or_iff_right hempty]
      omega
  · rw [if_neg hrc, statePacket_failure_iff _ _ hrc, stateMessage_length]
    by_cases hempty : stateString = []
    · rw [if_pos hempty]
      exact iff_of_true (by omega) (Or.inl hempty)
    · rw [if_neg hempty, or_iff_right hempty]
      omega

/-- What loading three lines from a file says about itself has no room in the packet of a common client. -/
theorem not_encoded_loaded :
    ¬EncodedInBounds clientProtocol41 1 .success (text
      "SUCCESS. total 3 line(s) handled and 3 record(s) loaded, total cost 0.000123 second(s)\n") := by
  have hnone : statePacket clientProtocol41 1 .success (text
      "SUCCESS. total 3 line(s) handled and 3 record(s) loaded, total cost 0.000123 second(s)\n") = none := by
    decide +kernel
  intro h
  obtain ⟨packet, hpacket, -⟩ := h
  rw [hnone] at hpacket
  exact absurd hpacket (Option.some_ne_none packet).symm

end Landbase.Net
