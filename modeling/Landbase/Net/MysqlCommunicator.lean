import Landbase.Net.BufferedWriter
import Landbase.Net.Packet
import Mathlib.Data.List.Infix

/-! # Requests of a MySQL client

`MysqlCommunicator::read_event` of `net/mysql_communicator.cpp`, on whatever bytes a client sends: the header of a
packet, the payload of the length that it announces, and what is done with it before and after the handshake.

The kernel answers the calls of `::read` from a script, as `Channel` does for `::write`.
-/

namespace Landbase.Net
set_option autoImplicit false

/-- Why a call has no result: the writer waits for the client, a vector of an impossible length is asked for, or memory
outside of a buffer is used. -/
inductive Stop
  | waits | lengthError | outOfBounds
  deriving DecidableEq

/-! ## The bytes that come in -/

/-- What a call of `::read` does: deliver up to `n` bytes, or fail with `EAGAIN`, with `EINTR` or with another error. -/
inductive SysRead
  | deliver (n : ℕ) | again | intr | error (errno : ℕ+)

/-- What the client sends, and the answers of the coming calls. After the last one the connection is closed. -/
structure Incoming where
  bytes : Bytes
  script : List SysRead

/-- The loop of `common::readn`: what it returns, and the bytes that it has stored. -/
def readnLoop : List SysRead → Bytes → ℕ → ℤ × Bytes × Incoming
  | script, bytes, 0 => (0, [], ⟨bytes, script⟩)
  | [], bytes, _ + 1 => (-1, [], ⟨bytes, []⟩)
  | .again :: script, bytes, size + 1 => readnLoop script bytes (size + 1)
  | .intr :: script, bytes, size + 1 => readnLoop script bytes (size + 1)
  | .error errno :: script, bytes, _ + 1 => (errno, [], ⟨bytes, script⟩)
  | .deliver n :: script, bytes, size + 1 =>
    let got := bytes.take (min n (size + 1))
    if got = [] then (-1, [], ⟨bytes, script⟩)
    else
      let (ret, more, incoming) := readnLoop script (bytes.drop got.length) (size + 1 - got.length)
      (ret, got ++ more, incoming)

/-- `common::readn`. -/
def Incoming.readn (incoming : Incoming) (size : ℕ) : ℤ × Bytes × Incoming :=
  readnLoop incoming.script incoming.bytes size

/-- `PacketHeader::payload_length` of four bytes: a signed bit-field. -/
def payloadLength (header : Bytes) : ℤ := (ofLowBytes (header.take 3) : ℤ).bmod (2 ^ 24)

/-- The value an `int8_t` takes. -/
def toInt8 (x : ℤ) : ℤ := x.bmod (2 ^ 8)

/-- `PacketHeader::sequence_id`. -/
def sequenceId (header : Bytes) : ℤ := toInt8 (ofLowBytes (header.drop 3))

/-! ## Packets that only the communicator sends -/

def clientDeprecateEof : UInt32 := (1 : UInt32) <<< 24
def clientOptionalResultsetMetadata : UInt32 := (1 : UInt32) <<< 25

open PacketBuffer

/-- The first packet of `send_column_definition`. -/
def encodeColumnCount (sequenceId : ℤ) (cellNum : ℤ) (capabilities : UInt32) : Option Bytes := do
  let packet ← (create 1024).store (storeInt1 sequenceId)
  let packet ←
    if capabilities &&& clientOptionalResultsetMetadata ≠ 0 then packet.store (storeInt1 1) else some packet
  let packet ← packet.store (storeLenencInt (UInt64.ofInt cellNum))
  packet.finish

/-- The packet of `send_column_definition` for a column with this table name and this alias. -/
def encodeColumnDefinition (sequenceId : ℤ) (tableName name : Bytes) : Option Bytes := do
  let packet ← (create 1024).store (storeInt1 sequenceId)
  let packet ← packet.store (← storeLenencString (text "def"))
  let packet ← packet.store (← storeLenencString (text "sys"))
  let packet ← packet.store (← storeLenencString tableName)
  let packet ← packet.store (← storeLenencString tableName)
  let packet ← packet.store (← storeLenencString name)
  let packet ← packet.store (← storeLenencString name)
  let packet ← packet.store (storeLenencInt 0x0c)
  let packet ← packet.store (storeInt2 33)
  let packet ← packet.store (storeInt4 16384)
  let packet ← packet.store (storeInt1 253)
  let packet ← packet.store (storeInt2 0)
  let packet ← packet.store (storeInt1 0x1f)
  let packet ← packet.store (storeInt2 0)
  packet.finish

/-- The packet of `send_result_rows` for a row. -/
def encodeRow (sequenceId : ℤ) (cells : List Bytes) : Option Bytes := do
  let packet ← (create (4 * 1024 * 1024)).store (storeInt1 sequenceId)
  let packet ← cells.foldlM (fun packet cell => (storeLenencString cell).bind packet.store) packet
  packet.finish

/-! ## The communicator -/

/-- The fields of `MysqlCommunicator` and its descriptor. -/
structure MysqlCommunicator where
  authed : Bool
  clientCapabilitiesFlag : UInt32
  sequenceId : ℤ
  writer : BufferedWriter
  channel : Channel

namespace MysqlCommunicator

/-- What a call of the writer answers. -/
def wrote (comm : MysqlCommunicator) : Option (RC × BufferedWriter × Channel) → Except Stop (RC × MysqlCommunicator)
  | none => .error .waits
  | some (rc, writer, channel) => .ok (rc, { comm with writer := writer, channel := channel })

def flush (comm : MysqlCommunicator) : Except Stop (RC × MysqlCommunicator) :=
  comm.wrote (comm.writer.flush comm.channel)

/-- `send_packet`. -/
def sendPacket (comm : MysqlCommunicator) (encoded : Option Bytes) : Except Stop (RC × MysqlCommunicator) :=
  match encoded with
  | none => .error .outOfBounds
  | some netPacket => comm.wrote (comm.writer.writen comm.channel netPacket netPacket.length)

/-- `sequence_id_++`. -/
def countUp (comm : MysqlCommunicator) : MysqlCommunicator := { comm with sequenceId := toInt8 (comm.sequenceId + 1) }

/-- The loop of `send_column_definition`, over the table names and the aliases of the columns. -/
def sendDefinitions (comm : MysqlCommunicator) : List (Bytes × Bytes) → Except Stop (RC × MysqlCommunicator)
  | [] => .ok (.success, comm)
  | spec :: specs => do
    let (rc, comm) ← comm.countUp.sendPacket (encodeColumnDefinition comm.sequenceId spec.1 spec.2)
    if rc ≠ .success then .ok (rc, comm) else comm.sendDefinitions specs

/-- The packet at the end of `send_column_definition`. What sending it answers is not looked at. -/
def sendMetadataEnd (comm : MysqlCommunicator) : Except Stop (RC × MysqlCommunicator) :=
  if comm.clientCapabilitiesFlag &&& clientDeprecateEof = 0 then do
    let eof : EofPacket := { sequenceId := comm.sequenceId, statusFlags := 0x02 }
    let (_, comm) ← comm.countUp.sendPacket (eof.encode comm.clientCapabilitiesFlag)
    .ok (.success, comm)
  else .ok (.success, comm)

/-- `send_column_definition`. -/
def sendColumnDefinition (comm : MysqlCommunicator) (specs : List (Bytes × Bytes)) :
    Except Stop (RC × MysqlCommunicator) :=
  if specs = [] then .ok (.success, comm)
  else do
    let (rc, comm) ←
      comm.countUp.sendPacket (encodeColumnCount comm.sequenceId specs.length comm.clientCapabilitiesFlag)
    if rc ≠ .success then .ok (rc, comm)
    else do
      let (rc, comm) ← comm.sendDefinitions specs
      if rc ≠ .success then .ok (rc, comm) else comm.sendMetadataEnd

/-- The loop of `send_result_rows`, over rows of strings. -/
def sendRows (comm : MysqlCommunicator) : List (List Bytes) → Except Stop (RC × MysqlCommunicator)
  | [] => .ok (.success, comm)
  | [] :: rows => comm.sendRows rows
  | cells :: rows => do
    let (rc, comm) ← comm.countUp.sendPacket (encodeRow comm.sequenceId cells)
    if rc ≠ .success then .ok (rc, comm) else comm.sendRows rows

/-- `send_result_rows`. -/
def sendResultRows (comm : MysqlCommunicator) (rows : List (List Bytes)) (noColumnDef : Bool) :
    Except Stop (RC × MysqlCommunicator) := do
  let (rc, comm) ← comm.sendRows rows
  if rc ≠ .success then .ok (rc, comm)
  else if comm.clientCapabilitiesFlag &&& clientDeprecateEof ≠ 0 ∨ noColumnDef then
    let ok : OkPacket := { sequenceId := comm.sequenceId, affectedRows := rows.length }
    comm.countUp.sendPacket (ok.encode comm.clientCapabilitiesFlag)
  else
    let eof : EofPacket := { sequenceId := comm.sequenceId }
    comm.countUp.sendPacket (eof.encode comm.clientCapabilitiesFlag)

/-- `write_result`, for an operator that lists rows of strings. What `send_result_rows` answers is kept in a variable
that ends before the return; `closeRc` is what closing the result, with the commit, answers. -/
def writeResult (comm : MysqlCommunicator) (specs : List (Bytes × Bytes)) (rows : List (List Bytes)) (closeRc : RC) :
    Except Stop (RC × MysqlCommunicator) := do
  let (rc, comm) ← comm.sendColumnDefinition specs
  if rc ≠ .success then .ok (rc, comm)
  else do
    let (_, comm) ← comm.sendResultRows rows specs.isEmpty
    let (_, comm) ← comm.flush
    .ok (closeRc, comm)

/-- `handle_version_comment`. -/
def handleVersionComment (comm : MysqlCommunicator) (closeRc : RC) : Except Stop (RC × MysqlCommunicator) :=
  comm.writeResult [([], text "@@version_comment")] [[text "MiniOB"]] closeRc

/-! ## `read_event` -/

/-- `decode_query_packet`. -/
def decodeQueryPacket (netPacket : Bytes) : Except Stop Bytes :=
  if netPacket = [] then .error .lengthError else .ok (netPacket.drop 1 ++ text ";")

/-- The handshake: the first four bytes of the payload are the capabilities. -/
def authenticate (comm : MysqlCommunicator) (buf : Bytes) : Except Stop (RC × MysqlCommunicator) :=
  if buf.length < 4 then .error .outOfBounds
  else do
    let comm := { comm with clientCapabilitiesFlag := UInt32.ofNat (ofLowBytes (buf.take 4)) }
    let ok : OkPacket := { sequenceId := comm.sequenceId }
    let (rc, comm) ← comm.sendPacket (ok.encode comm.clientCapabilitiesFlag)
    let (_, comm) ← comm.flush
    .ok (rc, { comm with authed := true })

/-- A request after the handshake; an event carries the query. -/
def command (comm : MysqlCommunicator) (buf : Bytes) (closeRc : RC) :
    Except Stop ((RC × Option Bytes) × MysqlCommunicator) :=
  match buf with
  | [] => .error .outOfBounds
  | commandType :: _ =>
    if commandType = 3 then do
      let query ← decodeQueryPacket buf
      if text "select @@version_comment" <:+: query then do
        let (rc, comm) ← comm.handleVersionComment closeRc
        .ok ((rc, none), comm)
      else .ok ((.success, some query), comm)
    else do
      let ok : OkPacket := { sequenceId := comm.sequenceId }
      let (rc, comm) ← comm.sendPacket (ok.encode comm.clientCapabilitiesFlag)
      if rc ≠ .success then .ok ((rc, none), comm)
      else do
        let (_, comm) ← comm.flush
        .ok ((rc, none), comm)

/-- What a call of `read_event` leaves behind, with the length of the vector it read the payload into. -/
structure Handled where
  rc : RC
  event : Option Bytes
  buf : Option ℕ
  comm : MysqlCommunicator
  incoming : Incoming

/-- `sequence_id_`, after the header of a request. -/
def received (comm : MysqlCommunicator) (header : Bytes) : MysqlCommunicator :=
  { comm with sequenceId := toInt8 (Net.sequenceId header + 1) }

/-- `MysqlCommunicator::read_event`. -/
def readEvent (comm : MysqlCommunicator) (incoming : Incoming) (closeRc : RC) : Except Stop Handled :=
  match incoming.readn 4 with
  | (ret, header, incoming) =>
    if ret ≠ 0 then .ok ⟨.ioerrRead, none, none, comm, incoming⟩
    else
      let comm := comm.received header
      if payloadLength header < 0 then .error .lengthError
      else
        match incoming.readn (payloadLength header).toNat with
        | (ret, buf, incoming) =>
          let length := (payloadLength header).toNat
          if ret ≠ 0 then .ok ⟨.ioerrRead, none, some length, comm, incoming⟩
          else if comm.authed then do
            let ((rc, event), comm) ← comm.command buf closeRc
            .ok ⟨rc, event, some length, comm, incoming⟩
          else do
            let (rc, comm) ← comm.authenticate buf
            .ok ⟨rc, none, some length, comm, incoming⟩

/-- A new connection. -/
def connected : MysqlCommunicator :=
  { authed := false, clientCapabilitiesFlag := 0, sequenceId := 0, writer := .create 5 16384
    channel := ⟨List.replicate 200 (.accept 1000), []⟩ }

end MysqlCommunicator
end Landbase.Net
