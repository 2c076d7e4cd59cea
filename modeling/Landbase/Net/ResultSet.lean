import Landbase.Net.MysqlCommunicator

/-! # Result sets reach a MySQL client

What `write_result` sends for the tuples of a query, and a client that reads it by the rules of the text protocol: packets with
consecutive numbers, first the number of columns, then a definition for each of them, then the rows, with an `EOF` behind the
definitions and behind the rows. The client finds the columns and the rows, whatever the size of the buffer of the server and
whatever pieces the descriptor accepts; a client that asked for no `EOF` packets never finds the end.
-/

namespace Landbase.Net
open PacketBuffer
set_option autoImplicit false

/-! ## The client -/

/-- The payload of the packet at the front of a stream, and what follows it. The packet must have this number. -/
def takePacket (sequence : ℤ) (stream : Bytes) : Option (Bytes × Bytes) :=
  let length := ofLowBytes (stream.take 3)
  match stream.drop 3 with
  | [] => none
  | number :: rest =>
    if number = UInt8.ofNat (sequence % 256).toNat ∧ length ≤ rest.length then some (rest.take length, rest.drop length)
    else none

def takeStrings : ℕ → Bytes → Option (List Bytes × Bytes)
  | 0, bytes => some ([], bytes)
  | n + 1, bytes => do
    let (s, len) ← lenencString bytes
    let (strings, rest) ← takeStrings n (bytes.drop len)
    some (s :: strings, rest)

/-- The table and the name in the definition of a column. -/
def columnOf (payload : Bytes) : Option (Bytes × Bytes) := do
  let (strings, _) ← takeStrings 6 payload
  match strings with
  | [_, _, table, _, name, _] => some (table, name)
  | _ => none

/-- The definitions of the columns, from the packet with this number on. -/
def takeColumns : ℕ → ℤ → Bytes → Option (List (Bytes × Bytes) × Bytes)
  | 0, _, stream => some ([], stream)
  | n + 1, sequence, stream => do
    let (payload, stream) ← takePacket sequence stream
    let column ← columnOf payload
    let (columns, stream) ← takeColumns n (sequence + 1) stream
    some (column :: columns, stream)

/-- An `EOF` packet, or the packet that stands for it where the client asked for none. -/
def isEnd (capabilities : UInt32) (payload : Bytes) : Bool :=
  payload.head? = some 0xFE && decide (payload.length < if capabilities &&& clientDeprecateEof = 0 then 9 else 0xFFFFFF)

/-- The rows, each with as many cells as there are columns, to the packet that ends them. -/
def takeRows (capabilities : UInt32) (columns : ℕ) : ℕ → ℤ → Bytes → Option (List (List Bytes) × Bytes)
  | 0, _, _ => none
  | fuel + 1, sequence, stream => do
    let (payload, stream) ← takePacket sequence stream
    if isEnd capabilities payload then some ([], stream)
    else do
      let (cells, rest) ← takeStrings columns payload
      if rest ≠ [] then none
      else do
        let (rows, stream) ← takeRows capabilities columns fuel (sequence + 1) stream
        some (cells :: rows, stream)

structure ResultSet where
  columns : List (Bytes × Bytes)
  rows : List (List Bytes)
  deriving DecidableEq, Repr

/-- Where the packet behind the definitions is due, it is taken. -/
def takeMetadataEnd (capabilities : UInt32) (sequence : ℤ) (stream : Bytes) : Option (ℤ × Bytes) :=
  if capabilities &&& clientDeprecateEof = 0 then do
    let (payload, stream) ← takePacket sequence stream
    if isEnd capabilities payload then some (sequence + 1, stream) else none
  else some (sequence, stream)

/-- The result set at the front of a stream, from the packet with this number on, and what follows it. -/
def readResultSet (capabilities : UInt32) (sequence : ℤ) (stream : Bytes) : Option (ResultSet × Bytes) := do
  let (payload, stream) ← takePacket sequence stream
  let (count, _) ← lenencInt (if capabilities &&& clientOptionalResultsetMetadata ≠ 0 then payload.drop 1 else payload)
  let (columns, stream) ← takeColumns count (sequence + 1) stream
  let (sequence, stream) ← takeMetadataEnd capabilities (sequence + 1 + count) stream
  let (rows, stream) ← takeRows capabilities count (stream.length + 1) sequence stream
  some (⟨columns, rows⟩, stream)

/-! ## Packets on the wire -/

def packet (sequence : ℤ) (payload : Bytes) : Bytes :=
  lowBytes 3 payload.length ++ UInt8.ofNat (sequence % 256).toNat :: payload

/-- Packets with consecutive numbers. -/
def numbered : ℤ → List Bytes → Bytes
  | _, [] => []
  | sequence, payload :: payloads => packet sequence payload ++ numbered (sequence + 1) payloads

theorem numbered_append (sequence : ℤ) (first second : List Bytes) :
    numbered sequence (first ++ second) = numbered sequence first ++ numbered (sequence + first.length) second := by
  induction first generalizing sequence with
  | nil => simp [numbered]
  | cons payload first ih =>
    have hnumber : sequence + 1 + (first.length : ℤ) = sequence + ((payload :: first).length : ℤ) := by
      rw [List.length_cons]
      push_cast
      ring
    rw [List.cons_append, numbered, numbered, ih, hnumber, List.append_assoc]

/-- Only the lowest byte of a number is sent. -/
theorem numbered_congr {sequence sequence' : ℤ} (h : sequence % 256 = sequence' % 256) (payloads : List Bytes) :
    numbered sequence payloads = numbered sequence' payloads := by
  induction payloads generalizing sequence sequence' with
  | nil => rfl
  | cons payload payloads ih =>
    have hnext : (sequence + 1) % 256 = (sequence' + 1) % 256 := by omega
    rw [numbered, numbered, ih hnext, packet, packet, h]

theorem takePacket_packet {payload : Bytes} (h : payload.length < 2 ^ 24) (sequence : ℤ) (rest : Bytes) :
    takePacket sequence (packet sequence payload ++ rest) = some (payload, rest) := by
  have htake : (packet sequence payload ++ rest).take 3 = lowBytes 3 payload.length := by
    rw [packet, List.append_assoc, List.take_left' (lowBytes_length 3 _)]
  have hdrop : (packet sequence payload ++ rest).drop 3 = UInt8.ofNat (sequence % 256).toNat :: (payload ++ rest) := by
    rw [packet, List.append_assoc, List.drop_left' (lowBytes_length 3 _)]
    rfl
  have hlength : payload.length % 256 ^ 3 = payload.length := Nat.mod_eq_of_lt h
  unfold takePacket
  rw [htake, hdrop, ofLowBytes_lowBytes, hlength]
  simp

/-- A string with its length in front. -/
def lenencBytes (s : Bytes) : Bytes := (storeLenencInt (UInt64.ofInt s.length)).1 ++ s

/-- A string that is read back as it was. -/
def Readable (s : Bytes) : Prop := s.length < 2 ^ 31 ∧ ¬Truncated s.length

instance : DecidablePred Truncated := fun value =>
  inferInstanceAs (Decidable ((2 ^ 16 ≤ value ∧ value < 2 * 2 ^ 16) ∨ (2 ^ 24 ≤ value ∧ value < 2 * 2 ^ 24)))

instance : DecidablePred Readable := fun s => inferInstanceAs (Decidable (s.length < 2 ^ 31 ∧ ¬Truncated s.length))

theorem ofInt_toNat {n : ℕ} (h : n < 2 ^ 64) : (UInt64.ofInt n).toNat = n := by
  have hmod : ((n : ℤ) % 2 ^ 64).toNat = n := by omega
  rw [UInt64.ofInt, hmod, UInt64.toNat_ofNat']
  omega

theorem lenencString_lenencBytes {s : Bytes} (h : Readable s) (rest : Bytes) :
    lenencString (lenencBytes s ++ rest) = some (s, (lenencBytes s).length) := by
  obtain ⟨hlt, hwhole⟩ := h
  obtain ⟨pos, hread, hpos⟩ := lenencInt_storeLenencInt (UInt64.ofInt s.length) (s ++ rest)
  have hhead : (storeLenencInt (UInt64.ofInt s.length)).1.length = pos := by
    have := storeLenencInt_length (UInt64.ofInt s.length)
    omega
  rw [ofInt_toNat (by omega), (keptLenenc_eq_iff _).2 hwhole] at hread
  have hroom : ¬(s ++ rest).length < s.length := by
    rw [List.length_append]
    omega
  unfold lenencString lenencBytes
  rw [List.append_assoc, hread, Option.bind_some]
  simp only
  rw [← hhead, List.drop_left, if_neg hroom, List.take_left, List.length_append]

theorem takeStrings_lenencBytes {strings : List Bytes} (h : ∀ s ∈ strings, Readable s) (rest : Bytes) :
    takeStrings strings.length (strings.flatMap lenencBytes ++ rest) = some (strings, rest) := by
  induction strings with
  | nil => rfl
  | cons s strings ih =>
    have hread := lenencString_lenencBytes (h s List.mem_cons_self) (strings.flatMap lenencBytes ++ rest)
    rw [List.flatMap_cons, List.append_assoc, List.length_cons, takeStrings, hread]
    simp only [Option.bind_eq_bind, Option.bind_some, List.drop_left]
    rw [ih fun s' hs' => h s' (List.mem_cons_of_mem s hs')]
    rfl

/-! ## What the packets of the server carry -/

theorem storeInt1_eq (sequence : ℤ) : (storeInt1 sequence).1 = [UInt8.ofNat (sequence % 256).toNat] := by
  rw [storeInt1, storeInt, pow_one]
  rfl

theorem storeInt1_length (value : ℤ) : (storeInt1 value).1.length = 1 := rfl

theorem encode_packet {size : ℕ} {fields : List (Bytes × ℤ)} (hcounted : ∀ stored ∈ fields, Counted stored)
    (hroom : 4 + (fields.flatMap Prod.fst).length ≤ size) (hhi : size < 2 ^ 24) (sequence : ℤ) :
    ((create size).storeAll (storeInt1 sequence :: fields)).bind finish =
      some (packet sequence (fields.flatMap Prod.fst)) := by
  have hfields : ((storeInt1 sequence :: fields).flatMap Prod.fst) =
      UInt8.ofNat (sequence % 256).toNat :: fields.flatMap Prod.fst := by
    rw [List.flatMap_cons, storeInt1_eq]
    rfl
  have hall : ∀ stored ∈ storeInt1 sequence :: fields, Counted stored :=
    List.forall_mem_cons.mpr ⟨counted_storeInt 1 _, hcounted⟩
  rw [encode_fields hall (by simp [hfields]) (by omega) hhi, hfields, List.length_cons, if_pos (by omega), packet]
  rfl

/-- The length of a string goes into an `int`, and so does that of what is stored for it. -/
theorem storeLenencString_eq {s : Bytes} (h : s.length ≤ 2 ^ 30) :
    storeLenencString s = some (lenencBytes s, ((lenencBytes s).length : ℤ)) := by
  have hint : toInt32 s.length = s.length := toInt32_of_range (by omega) (by omega)
  have hhead := storeLenencInt_length (UInt64.ofInt s.length)
  have hshort := storeLenencInt_le (UInt64.ofInt s.length)
  rw [storeLenencString_nat hint le_rfl, List.take_length, ← hhead, toInt32_of_range (by omega) (by omega), lenencBytes,
    List.length_append]
  push_cast
  rfl

def columnCountPayload (capabilities : UInt32) (columns : ℕ) : Bytes :=
  (if capabilities &&& clientOptionalResultsetMetadata ≠ 0 then [1] else []) ++ (storeLenencInt (UInt64.ofInt columns)).1

/-- What follows the names in the definition of a column. -/
def columnFlags : List (Bytes × ℤ) :=
  [storeLenencInt 0x0c, storeInt2 33, storeInt4 16384, storeInt1 253, storeInt2 0, storeInt1 0x1f, storeInt2 0]

def columnPayload (spec : Bytes × Bytes) : Bytes :=
  [text "def", text "sys", spec.1, spec.1, spec.2, spec.2].flatMap lenencBytes ++ columnFlags.flatMap Prod.fst

def rowPayload (cells : List Bytes) : Bytes := cells.flatMap lenencBytes

def eofPayload (capabilities : UInt32) (statusFlags : ℤ) : Bytes :=
  0xFE :: if capabilities &&& clientProtocol41 ≠ 0 then (storeInt2 0).1 ++ (storeInt2 statusFlags).1 else []

theorem encodeColumnCount_eq (sequence : ℤ) (columns : ℕ) (capabilities : UInt32) :
    encodeColumnCount sequence columns capabilities = some (packet sequence (columnCountPayload capabilities columns)) := by
  let fields := (if capabilities &&& clientOptionalResultsetMetadata ≠ 0 then [storeInt1 1] else []) ++
    [storeLenencInt (UInt64.ofInt columns)]
  have hencode : encodeColumnCount sequence columns capabilities =
      ((create 1024).storeAll (storeInt1 sequence :: fields)).bind finish := by
    unfold encodeColumnCount storeAll fields
    by_cases hmetadata : capabilities &&& clientOptionalResultsetMetadata ≠ 0
    · simp [hmetadata, Option.bind_assoc]
    · simp [hmetadata, Option.bind_assoc]
  have hcounted : ∀ field ∈ fields, Counted field := by
    unfold fields
    split_ifs <;> simp [storeInt1, counted_storeInt, counted_storeLenencInt]
  have hpayload : fields.flatMap Prod.fst = columnCountPayload capabilities columns := by
    unfold fields columnCountPayload
    split_ifs <;> simp [storeInt1_eq]
  have hcount := storeLenencInt_le (UInt64.ofInt columns)
  have hroom : 4 + (fields.flatMap Prod.fst).length ≤ 1024 := by
    rw [hpayload, columnCountPayload, List.length_append]
    split_ifs <;> simp only [List.length_singleton, List.length_nil] <;> omega
  rw [hencode, encode_packet hcounted hroom (by omega), hpayload]

theorem lenencBytes_length_ge (s : Bytes) : s.length ≤ (lenencBytes s).length := by
  rw [lenencBytes, List.length_append]
  exact Nat.le_add_left _ _

theorem encodeColumnDefinition_eq (sequence : ℤ) (spec : Bytes × Bytes) (h : 4 + (columnPayload spec).length ≤ 1024) :
    encodeColumnDefinition sequence spec.1 spec.2 = some (packet sequence (columnPayload spec)) := by
  have htable := lenencBytes_length_ge spec.1
  have hname := lenencBytes_length_ge spec.2
  have hlength : (lenencBytes spec.1).length ≤ 1024 ∧ (lenencBytes spec.2).length ≤ 1024 := by
    unfold columnPayload at h
    simp only [List.flatMap_cons, List.length_append] at h
    omega
  let names := [text "def", text "sys", spec.1, spec.1, spec.2, spec.2]
  let fields := names.map (fun s => (lenencBytes s, ((lenencBytes s).length : ℤ))) ++ columnFlags
  have hcounted : ∀ field ∈ fields, Counted field := by
    refine List.forall_mem_append.mpr ⟨?_, ?_⟩
    · simp [Counted]
    · simp [columnFlags, storeInt1, storeInt2, storeInt4, counted_storeInt, counted_storeLenencInt]
  have hpayload : fields.flatMap Prod.fst = columnPayload spec := by
    simp [fields, names, columnPayload]
  have hroom : 4 + (fields.flatMap Prod.fst).length ≤ 1024 := hpayload ▸ h
  rw [← hpayload, ← encode_packet hcounted hroom (by omega)]
  have hdef : storeLenencString (text "def") = some (lenencBytes (text "def"), ((lenencBytes (text "def")).length : ℤ)) :=
    storeLenencString_eq (by decide)
  have hsys : storeLenencString (text "sys") = some (lenencBytes (text "sys"), ((lenencBytes (text "sys")).length : ℤ)) :=
    storeLenencString_eq (by decide)
  have htableStored := storeLenencString_eq (show spec.1.length ≤ 2 ^ 30 by omega)
  have hnameStored := storeLenencString_eq (show spec.2.length ≤ 2 ^ 30 by omega)
  simp [encodeColumnDefinition, storeAll, fields, names, columnFlags, hdef, hsys, htableStored, hnameStored, Option.bind_assoc]

theorem encodeRow_eq (sequence : ℤ) (cells : List Bytes) (h : 4 + (rowPayload cells).length ≤ 4 * 1024 * 1024) :
    encodeRow sequence cells = some (packet sequence (rowPayload cells)) := by
  have hcells : ∀ cell ∈ cells, cell.length ≤ 2 ^ 30 := by
    intro cell hcell
    have hle : (lenencBytes cell).length ≤ (rowPayload cells).length :=
      (List.sublist_flatten_of_mem (List.mem_map_of_mem hcell)).length_le
    have := lenencBytes_length_ge cell
    omega
  let fields := cells.map fun s => (lenencBytes s, ((lenencBytes s).length : ℤ))
  have hcounted : ∀ field ∈ fields, Counted field := by simp [fields, Counted]
  have hpayload : fields.flatMap Prod.fst = rowPayload cells := by simp [fields, rowPayload, List.flatMap_map]
  have hloop : ∀ (cells : List Bytes) (packet : PacketBuffer), (∀ cell ∈ cells, cell.length ≤ 2 ^ 30) →
      cells.foldlM (fun packet cell => (storeLenencString cell).bind packet.store) packet =
        packet.storeAll (cells.map fun s => (lenencBytes s, ((lenencBytes s).length : ℤ))) := by
    intro cells
    induction cells with
    | nil => exact fun _ _ => rfl
    | cons cell cells ih =>
      intro packet hcells
      have hrest := fun packet => ih packet fun other hmem => hcells other (List.mem_cons_of_mem cell hmem)
      rw [List.foldlM_cons, storeLenencString_eq (hcells cell List.mem_cons_self), Option.bind_some, storeAll, List.map_cons,
        List.foldlM_cons]
      exact congrArg _ (funext hrest)
  rw [← hpayload, ← encode_packet hcounted (hpayload ▸ h) (by omega), storeAll, List.foldlM_cons, encodeRow]
  simp only [hloop cells _ hcells, storeAll, fields, Option.bind_eq_bind, Option.bind_assoc]

theorem eofPayload_length_le (capabilities : UInt32) (statusFlags : ℤ) : (eofPayload capabilities statusFlags).length ≤ 5 := by
  unfold eofPayload
  split_ifs <;> simp [storeInt2, storeInt, lowBytes_length]

theorem EofPacket.encode_packet (eof : EofPacket) (capabilities : UInt32) (hheader : eof.header = 0xFE)
    (hwarnings : eof.warnings = 0) : eof.encode capabilities
      = some (packet eof.sequenceId (eofPayload capabilities eof.statusFlags)) := by
  let fields := storeInt1 eof.header ::
    if capabilities &&& clientProtocol41 ≠ 0 then [storeInt2 eof.warnings, storeInt2 eof.statusFlags] else []
  have hcounted : ∀ field ∈ fields, Counted field := by
    unfold fields
    split_ifs <;> simp [storeInt1, storeInt2, counted_storeInt]
  have hpayload : fields.flatMap Prod.fst = eofPayload capabilities eof.statusFlags := by
    unfold fields eofPayload
    rw [hheader, hwarnings, List.flatMap_cons, storeInt1_eq]
    split_ifs <;> simp
  have hshort := eofPayload_length_le capabilities eof.statusFlags
  have hroom : 4 + (fields.flatMap Prod.fst).length ≤ 10 := by
    rw [hpayload]
    omega
  rw [EofPacket.encode_eq, ← hpayload, ← Net.encode_packet hcounted hroom (by omega)]
  rfl

/-- The message of an `OkPacket` that has none. -/
def noInfo (capabilities : UInt32) : Bytes × ℤ := if capabilities &&& clientSessionTrack ≠ 0 then ([0], 1) else ([], 0)

/-- Its first byte is not that of an `EOF`. -/
def okPayload (capabilities : UInt32) (affectedRows : ℤ) : Bytes :=
  (({ affectedRows := affectedRows } : OkPacket).fields capabilities (noInfo capabilities)).tail.flatMap Prod.fst

theorem okPayload_head (capabilities : UInt32) (affectedRows : ℤ) : (okPayload capabilities affectedRows).head? = some 0 := rfl

theorem okPayload_length_le (capabilities : UInt32) (affectedRows : ℤ) : (okPayload capabilities affectedRows).length ≤ 24 := by
  have hlength := ({ affectedRows := affectedRows } : OkPacket).length_fields capabilities (noInfo capabilities)
  have hrows := storeLenencInt_le (UInt64.ofInt affectedRows)
  have hid : (storeLenencInt (UInt64.ofInt 0)).1.length = 1 := storeLenencInt_short (Nat.zero_lt_succ 250)
  have hinfo : (noInfo capabilities).1.length ≤ 1 := by
    unfold noInfo
    split_ifs <;> simp
  have hfields : ((({ affectedRows := affectedRows } : OkPacket).fields capabilities
      (noInfo capabilities)).flatMap Prod.fst).length = 1 + (okPayload capabilities affectedRows).length := by
    rw [okPayload, ← storeInt1_length 0, ← List.length_append, ← List.flatMap_cons]
    rfl
  have hflags : (if capabilities &&& clientProtocol41 ≠ 0 then 4
      else if capabilities &&& clientTransactions ≠ 0 then 2 else 0) ≤ 4 := by
    split_ifs <;> omega
  simp only [hid] at hlength
  omega

theorem OkPacket.encode_packet (capabilities : UInt32) (sequence affectedRows : ℤ) :
    ({ sequenceId := sequence, affectedRows := affectedRows } : OkPacket).encode capabilities =
      some (packet sequence (okPayload capabilities affectedRows)) := by
  let ok : OkPacket := { sequenceId := sequence, affectedRows := affectedRows }
  have hlenenc : storeLenencString (cString []) = some ([0], 1) := by decide +kernel
  have hfixed : storeFixLengthString [] (toInt32 (List.length ([] : Bytes))) = some ([], 0) := by decide +kernel
  have hstored : ok.storedInfo capabilities = some (noInfo capabilities) := by
    show (if _ then storeLenencString (cString []) else storeFixLengthString [] (toInt32 (List.length ([] : Bytes)))) = _
    rw [hlenenc, hfixed, noInfo]
    split_ifs <;> rfl
  have hcounted : Counted (noInfo capabilities) := by
    unfold noInfo
    split_ifs <;> rfl
  have hall := ok.counted_fields capabilities hcounted
  have hroom := okPayload_length_le capabilities affectedRows
  have hfields : ok.fields capabilities (noInfo capabilities) = storeInt1 sequence ::
    (ok.fields capabilities (noInfo capabilities)).tail := rfl
  rw [OkPacket.encode_eq hstored, hfields]
  exact Net.encode_packet (fun stored hmem => hall stored (hfields ▸ List.mem_cons_of_mem _ hmem))
    (show 4 + (okPayload capabilities affectedRows).length ≤ 100 by omega) (by omega) sequence

/-! ## Sending -/

namespace MysqlCommunicator
variable {α β : Type} {comm : MysqlCommunicator} {payloads : List Bytes} {result : Except Stop (α × MysqlCommunicator)} {a : α}

/-- A computation that sends these packets and answers `a`: it stops only where the writer waits for the descriptor. -/
structure Delivers (payloads : List Bytes) (comm : MysqlCommunicator) (result : Except Stop (α × MysqlCommunicator)) (a : α) :
    Prop where
  outcome : ∀ c sent q, 1 ≤ c → c ≤ 2 ^ 30 → Sent c comm.writer comm.channel sent q →
    (result = .error .waits ∧ comm.channel.room < (sent ++ numbered comm.sequenceId payloads).length) ∨
      ∃ comm' q', result = .ok (a, comm') ∧ comm'.clientCapabilitiesFlag = comm.clientCapabilitiesFlag ∧
        comm.channel.room ≤ comm'.channel.room ∧ comm'.sequenceId % 256 = (comm.sequenceId + payloads.length) % 256 ∧
        Sent c comm'.writer comm'.channel (sent ++ numbered comm.sequenceId payloads) q'

namespace Delivers

theorem nothing (comm : MysqlCommunicator) (a : α) : Delivers [] comm (.ok (a, comm)) a := by
  constructor
  intro c sent q _ _ hsent
  refine Or.inr ⟨comm, q, rfl, rfl, le_rfl, by simp, ?_⟩
  rw [numbered, List.append_nil]
  exact hsent

theorem bind {payloads' : List Bytes} {b : β} {next : α × MysqlCommunicator → Except Stop (β × MysqlCommunicator)}
    (h : Delivers payloads comm result a)
    (hnext : ∀ comm', comm'.clientCapabilitiesFlag = comm.clientCapabilitiesFlag → Delivers payloads' comm' (next (a, comm')) b) :
    Delivers (payloads ++ payloads') comm (result >>= next) b := by
  constructor
  intro c sent q hpos hc hsent
  have happend : sent ++ numbered comm.sequenceId (payloads ++ payloads') =
      sent ++ numbered comm.sequenceId payloads ++ numbered (comm.sequenceId + payloads.length) payloads' := by
    rw [numbered_append, List.append_assoc]
  rw [happend]
  rcases h.outcome c sent q hpos hc hsent with ⟨hwaits, hroom⟩ | ⟨comm₁, q₁, hok, hflag, hroom, hsequence, hsent₁⟩
  · refine Or.inl ⟨by rw [hwaits]; rfl, ?_⟩
    rw [List.length_append]
    omega
  · rw [← numbered_congr hsequence payloads', hok]
    rcases (hnext comm₁ hflag).outcome c _ q₁ hpos hc hsent₁ with
      ⟨hwaits, hroom'⟩ | ⟨comm₂, q₂, hok', hflag', hroom', hsequence', hsent₂⟩
    · exact Or.inl ⟨hwaits, hroom.trans_lt hroom'⟩
    · refine Or.inr ⟨comm₂, q₂, hok', hflag'.trans hflag, hroom.trans hroom', ?_, hsent₂⟩
      rw [hsequence', List.length_append]
      push_cast
      omega

theorem packet {payload : Bytes} {encoded : Option Bytes} (h : encoded = some (packet comm.sequenceId payload)) :
    Delivers [payload] comm (comm.countUp.sendPacket encoded) RC.success := by
  subst h
  constructor
  intro c sent q hpos hc hsent
  have hwriten := hsent.writen hpos hc (le_refl ((Net.packet comm.sequenceId payload).length : ℤ))
  rw [Int.toNat_natCast, List.take_length] at hwriten
  rw [numbered, numbered, List.append_nil]
  rcases hwriten with ⟨hnone, hroom⟩ | ⟨w, ch, hcall, hroom, q', hsent'⟩
  · refine Or.inl ⟨?_, hroom⟩
    show comm.countUp.wrote (comm.writer.writen comm.channel _ _) = _
    rw [hnone]
    rfl
  · refine Or.inr ⟨{ comm.countUp with writer := w, channel := ch }, q', ?_, rfl, hroom, ?_, hsent'⟩
    · show comm.countUp.wrote (comm.writer.writen comm.channel _ _) = _
      rw [hcall]
      rfl
    · show toInt8 (comm.sequenceId + 1) % 256 = (comm.sequenceId + 1) % 256
      exact Int.bmod_emod

end Delivers

theorem sendDefinitions_delivers (comm : MysqlCommunicator) {specs : List (Bytes × Bytes)}
    (h : ∀ spec ∈ specs, 4 + (columnPayload spec).length ≤ 1024) :
    Delivers (specs.map columnPayload) comm (comm.sendDefinitions specs) RC.success := by
  induction specs generalizing comm with
  | nil => exact Delivers.nothing comm RC.success
  | cons spec specs ih =>
    have hencode := encodeColumnDefinition_eq comm.sequenceId spec (h spec List.mem_cons_self)
    exact (Delivers.packet hencode).bind fun comm' _ => ih comm' fun other hmem => h other (List.mem_cons_of_mem spec hmem)

/-- The packet behind the definitions. -/
def metadataEnd (capabilities : UInt32) : List Bytes :=
  if capabilities &&& clientDeprecateEof = 0 then [eofPayload capabilities 0x02] else []

theorem sendMetadataEnd_delivers (comm : MysqlCommunicator) :
    Delivers (metadataEnd comm.clientCapabilitiesFlag) comm comm.sendMetadataEnd RC.success := by
  unfold metadataEnd sendMetadataEnd
  split
  · have hencode := EofPacket.encode_packet { sequenceId := comm.sequenceId, statusFlags := 0x02 }
      comm.clientCapabilitiesFlag rfl rfl
    exact (Delivers.packet hencode).bind fun comm' _ => Delivers.nothing comm' RC.success
  · exact Delivers.nothing comm RC.success

theorem sendColumnDefinition_delivers (comm : MysqlCommunicator) {specs : List (Bytes × Bytes)} (hspecs : specs ≠ [])
    (h : ∀ spec ∈ specs, 4 + (columnPayload spec).length ≤ 1024) :
    Delivers ([columnCountPayload comm.clientCapabilitiesFlag specs.length] ++
      (specs.map columnPayload ++ metadataEnd comm.clientCapabilitiesFlag)) comm (comm.sendColumnDefinition specs)
        RC.success := by
  unfold sendColumnDefinition
  rw [if_neg hspecs]
  refine (Delivers.packet (encodeColumnCount_eq _ _ _)).bind fun comm₁ hflag₁ => ?_
  refine (sendDefinitions_delivers comm₁ h).bind fun comm₂ hflag₂ => ?_
  rw [← hflag₁, ← hflag₂]
  exact sendMetadataEnd_delivers comm₂

theorem sendRows_delivers (comm : MysqlCommunicator) {rows : List (List Bytes)}
    (h : ∀ cells ∈ rows, cells ≠ [] ∧ 4 + (rowPayload cells).length ≤ 4 * 1024 * 1024) :
    Delivers (rows.map rowPayload) comm (comm.sendRows rows) RC.success := by
  induction rows generalizing comm with
  | nil => exact Delivers.nothing comm RC.success
  | cons cells rows ih =>
    obtain ⟨hcells, hroom⟩ := h cells List.mem_cons_self
    obtain ⟨cell, cells, rfl⟩ := List.exists_cons_of_ne_nil hcells
    exact (Delivers.packet (encodeRow_eq comm.sequenceId _ hroom)).bind fun comm' _ =>
      ih comm' fun other hmem => h other (List.mem_cons_of_mem _ hmem)

/-- The packet behind the rows. -/
def rowsEnd (capabilities : UInt32) (rows : ℕ) : Bytes :=
  if capabilities &&& clientDeprecateEof = 0 then eofPayload capabilities 0x22 else okPayload capabilities rows

theorem sendResultRows_delivers (comm : MysqlCommunicator) {rows : List (List Bytes)}
    (h : ∀ cells ∈ rows, cells ≠ [] ∧ 4 + (rowPayload cells).length ≤ 4 * 1024 * 1024) :
    Delivers (rows.map rowPayload ++ [rowsEnd comm.clientCapabilitiesFlag rows.length]) comm (comm.sendResultRows rows false)
      RC.success := by
  unfold sendResultRows
  refine (sendRows_delivers comm h).bind fun comm' hflag => ?_
  rw [← hflag, rowsEnd]
  show Delivers _ comm' (if RC.success ≠ RC.success then _ else _) _
  rw [if_neg (fun h : RC.success ≠ RC.success => h rfl)]
  by_cases hdeprecate : comm'.clientCapabilitiesFlag &&& clientDeprecateEof = 0
  · rw [if_pos hdeprecate, if_neg (by simp [hdeprecate])]
    exact Delivers.packet (EofPacket.encode_packet _ _ rfl rfl)
  · rw [if_neg hdeprecate, if_pos (by simp [hdeprecate])]
    exact Delivers.packet (OkPacket.encode_packet _ _ _)

/-- All packets of a result set. -/
def resultSetPayloads (capabilities : UInt32) (specs : List (Bytes × Bytes)) (rows : List (List Bytes)) : List Bytes :=
  [columnCountPayload capabilities specs.length] ++ (specs.map columnPayload ++ metadataEnd capabilities) ++
    (rows.map rowPayload ++ [rowsEnd capabilities rows.length])

/-- The columns and the rows have room in the memory for their packets, and no length is cut. -/
structure Fits (specs : List (Bytes × Bytes)) (rows : List (List Bytes)) : Prop where
  columns : specs ≠ []
  count : specs.length < 2 ^ 31 ∧ ¬Truncated specs.length
  definitions : ∀ spec ∈ specs, Readable spec.1 ∧ Readable spec.2 ∧ 4 + (columnPayload spec).length ≤ 1024
  cells : ∀ cells ∈ rows, cells.length = specs.length ∧ (∀ cell ∈ cells, Readable cell) ∧
    4 + (rowPayload cells).length ≤ 4 * 1024 * 1024

theorem Fits.ne_nil {specs : List (Bytes × Bytes)} {rows : List (List Bytes)} (h : Fits specs rows) {cells : List Bytes}
    (hcells : cells ∈ rows) : cells ≠ [] := by
  rintro rfl
  have := (h.cells [] hcells).1
  have := List.length_pos_of_ne_nil h.columns
  simp_all

/-- All packets are sent and the buffer is empty behind them, or the descriptor accepts too little. -/
theorem writeResult_delivers (comm : MysqlCommunicator) {specs : List (Bytes × Bytes)} {rows : List (List Bytes)}
    (h : Fits specs rows) (closeRc : RC) {c : ℕ} {sent q : Bytes} (hpos : 1 ≤ c) (hc : c ≤ 2 ^ 30)
    (hsent : Sent c comm.writer comm.channel sent q) :
    let bytes := numbered comm.sequenceId (resultSetPayloads comm.clientCapabilitiesFlag specs rows)
    (comm.writeResult specs rows closeRc = .error .waits ∧ comm.channel.room < (sent ++ bytes).length) ∨
      ∃ comm', comm.writeResult specs rows closeRc = .ok (closeRc, comm') ∧
        Sent c comm'.writer comm'.channel (sent ++ bytes) [] := by
  intro bytes
  have hcolumns := sendColumnDefinition_delivers comm h.columns fun spec hspec => (h.definitions spec hspec).2.2
  have hempty : specs.isEmpty = false := List.isEmpty_eq_false_iff.mpr h.columns
  have hrows : ∀ cells ∈ rows, cells ≠ [] ∧ 4 + (rowPayload cells).length ≤ 4 * 1024 * 1024 :=
    fun cells hcells => ⟨h.ne_nil hcells, (h.cells cells hcells).2.2⟩
  rcases hcolumns.outcome c sent q hpos hc hsent with ⟨hwaits, hroom⟩ | ⟨comm₁, q₁, hok₁, hflag₁, hroom₁, hsequence, hsent₁⟩
  · refine Or.inl ⟨by rw [writeResult, hwaits]; rfl, ?_⟩
    simp only [bytes, resultSetPayloads, numbered_append, List.length_append] at hroom ⊢
    omega
  have hbytes : sent ++ bytes = sent ++ numbered comm.sequenceId ([columnCountPayload comm.clientCapabilitiesFlag specs.length] ++
      (specs.map columnPayload ++ metadataEnd comm.clientCapabilitiesFlag)) ++
        numbered comm₁.sequenceId (rows.map rowPayload ++ [rowsEnd comm₁.clientCapabilitiesFlag rows.length]) := by
    rw [numbered_congr hsequence, hflag₁, List.append_assoc, ← numbered_append]
    rfl
  have hwrite : comm.writeResult specs rows closeRc =
      comm₁.sendResultRows rows false >>= fun sent => sent.2.flush >>= fun flushed => .ok (closeRc, flushed.2) := by
    rw [writeResult, hok₁, hempty]
    rfl
  rw [hbytes, hwrite]
  rcases (sendResultRows_delivers comm₁ hrows).outcome c _ q₁ hpos hc hsent₁ with
    ⟨hwaits, hroom⟩ | ⟨comm₂, q₂, hok₂, -, hroom₂, -, hsent₂⟩
  · exact Or.inl ⟨by rw [hwaits]; rfl, hroom₁.trans_lt hroom⟩
  rw [hok₂]
  rcases hsent₂.flush hc with ⟨hnone, hroom⟩ | ⟨w, ch, hcall, -, hsent₃⟩
  · refine Or.inl ⟨?_, (hroom₁.trans hroom₂).trans_lt hroom⟩
    show comm₂.wrote (comm₂.writer.flush comm₂.channel) >>= _ = _
    rw [hnone]
    rfl
  · refine Or.inr ⟨{ comm₂ with writer := w, channel := ch }, ?_, hsent₃⟩
    show comm₂.wrote (comm₂.writer.flush comm₂.channel) >>= _ = _
    rw [hcall]
    rfl

end MysqlCommunicator

/-! ## Reading -/

theorem lenencInt_count {columns : ℕ} (hlt : columns < 2 ^ 31) (hwhole : ¬Truncated columns) :
    ∃ n, lenencInt (storeLenencInt (UInt64.ofInt columns)).1 = some (columns, n) := by
  obtain ⟨n, hread, -⟩ := lenencInt_storeLenencInt (UInt64.ofInt columns) []
  rw [List.append_nil, ofInt_toNat (by omega), (keptLenenc_eq_iff _).2 hwhole] at hread
  exact ⟨n, hread⟩

theorem readable_text {s : Bytes} (h : s.length < 251) : Readable s := by
  refine ⟨by omega, ?_⟩
  unfold Truncated
  omega

theorem columnOf_columnPayload {spec : Bytes × Bytes} (htable : Readable spec.1) (hname : Readable spec.2) :
    columnOf (columnPayload spec) = some spec := by
  have hall : ∀ s ∈ [text "def", text "sys", spec.1, spec.1, spec.2, spec.2], Readable s := by
    have hdef : Readable (text "def") := readable_text (by decide)
    have hsys : Readable (text "sys") := readable_text (by decide)
    simp [hdef, hsys, htable, hname]
  have hread := takeStrings_lenencBytes hall (columnFlags.flatMap Prod.fst)
  unfold columnOf columnPayload
  rw [show 6 = [text "def", text "sys", spec.1, spec.1, spec.2, spec.2].length from rfl, hread]
  rfl

theorem takeColumns_numbered {specs : List (Bytes × Bytes)}
    (h : ∀ spec ∈ specs, Readable spec.1 ∧ Readable spec.2 ∧ 4 + (columnPayload spec).length ≤ 1024) (sequence : ℤ)
    (rest : Bytes) : takeColumns specs.length sequence
      (numbered sequence (specs.map columnPayload) ++ rest) = some (specs, rest) := by
  induction specs generalizing sequence with
  | nil => rfl
  | cons spec specs ih =>
    obtain ⟨htable, hname, hroom⟩ := h spec List.mem_cons_self
    have hpacket := takePacket_packet (show (columnPayload spec).length < 2 ^ 24 by omega) sequence
      (numbered (sequence + 1) (specs.map columnPayload) ++ rest)
    rw [List.map_cons, numbered, List.append_assoc, List.length_cons, takeColumns, hpacket]
    simp only [Option.bind_eq_bind, Option.bind_some, columnOf_columnPayload htable hname]
    rw [ih fun other hmem => h other (List.mem_cons_of_mem spec hmem)]
    rfl

theorem isEnd_eofPayload (capabilities : UInt32) (statusFlags : ℤ) :
    isEnd capabilities (eofPayload capabilities statusFlags) = true := by
  have hle := eofPayload_length_le capabilities statusFlags
  have hhead : (eofPayload capabilities statusFlags).head? = some 0xFE := rfl
  unfold isEnd
  rw [hhead]
  split_ifs <;> simp <;> omega

theorem isEnd_of_head {capabilities : UInt32} {payload : Bytes} (h : payload.head? ≠ some 0xFE) :
    isEnd capabilities payload = false := by
  unfold isEnd
  simp [h]

/-- The length in front of a cell does not begin like an `EOF`. -/
theorem rowPayload_head {cells : List Bytes} (hne : cells ≠ []) (hroom : 4 + (rowPayload cells).length ≤ 4 * 1024 * 1024) :
    (rowPayload cells).head? ≠ some 0xFE := by
  obtain ⟨cell, cells, rfl⟩ := List.exists_cons_of_ne_nil hne
  have hcell := lenencBytes_length_ge cell
  have hlength : (rowPayload (cell :: cells)).length = (lenencBytes cell).length + (rowPayload cells).length := by
    rw [rowPayload, List.flatMap_cons, List.length_append]
    rfl
  have hvalue := ofInt_toNat (show cell.length < 2 ^ 64 by omega)
  have hlt : UInt64.ofInt cell.length < (2 : UInt64) <<< 24 := by
    rw [UInt64.lt_iff_toNat_lt, hvalue]
    show cell.length < 33554432
    omega
  rw [rowPayload, List.flatMap_cons, lenencBytes, storeLenencInt]
  split_ifs with hshort
  · have hbyte : (UInt64.ofInt cell.length).toUInt8.toNat < 251 := by
      rw [UInt64.lt_iff_toNat_lt, hvalue] at hshort
      rw [UInt64.toNat_toUInt8, hvalue]
      have : cell.length < 251 := hshort
      omega
    intro hhead
    have hfirst : (UInt64.ofInt cell.length).toUInt8 = 0xFE := by simpa using hhead
    rw [hfirst] at hbyte
    exact absurd hbyte (by decide)
  · simp
  · simp

theorem length_numbered_ge (sequence : ℤ) (payloads : List Bytes) : payloads.length ≤ (numbered sequence payloads).length := by
  induction payloads generalizing sequence with
  | nil => exact Nat.zero_le _
  | cons payload payloads ih =>
    have hrest := ih (sequence + 1)
    rw [numbered, List.length_cons, List.length_append, packet, List.length_append, lowBytes_length]
    omega

section
variable {columns : ℕ} {rows : List (List Bytes)}
  (h : ∀ cells ∈ rows, cells ≠ [] ∧ cells.length = columns ∧ (∀ cell ∈ cells, Readable cell) ∧
    4 + (rowPayload cells).length ≤ 4 * 1024 * 1024)
include h

theorem takeRows_numbered (capabilities : UInt32) {fuel : ℕ} (hfuel : rows.length < fuel) (sequence : ℤ) (rest : Bytes) :
    takeRows capabilities columns fuel sequence
      (numbered sequence (rows.map rowPayload ++ [eofPayload capabilities 0x22]) ++ rest) = some (rows, rest) := by
  induction rows generalizing fuel sequence with
  | nil =>
    obtain ⟨fuel, rfl⟩ := Nat.exists_eq_add_of_lt hfuel
    have hle := eofPayload_length_le capabilities 0x22
    rw [List.map_nil, List.nil_append, numbered, numbered, List.append_nil, takeRows, takePacket_packet (by omega)]
    simp only [Option.bind_eq_bind, Option.bind_some, isEnd_eofPayload, if_true]
  | cons cells rows ih =>
    obtain ⟨fuel, rfl⟩ := Nat.exists_eq_add_of_lt hfuel
    obtain ⟨hne, hcolumns, hread, hroom⟩ := h cells List.mem_cons_self
    have hstrings := takeStrings_lenencBytes hread []
    rw [List.append_nil, hcolumns] at hstrings
    rw [List.map_cons, List.cons_append, numbered, List.append_assoc, takeRows, takePacket_packet (by omega)]
    simp only [Option.bind_eq_bind, Option.bind_some, isEnd_of_head (rowPayload_head hne hroom), Bool.false_eq_true, if_false]
    rw [show takeStrings columns (rowPayload cells) = some (cells, []) from hstrings]
    simp only [Option.bind_some, ne_eq, not_true_eq_false, if_false]
    rw [ih (fun other hmem => h other (List.mem_cons_of_mem cells hmem)) (by rw [List.length_cons]; omega)]
    rfl

/-- The packet that follows the rows of a client without `EOF` packets does not end them. -/
theorem takeRows_endless (capabilities : UInt32) (fuel : ℕ) (sequence affectedRows : ℤ) :
    takeRows capabilities columns fuel sequence
      (numbered sequence (rows.map rowPayload ++ [okPayload capabilities affectedRows])) = none := by
  induction rows generalizing fuel sequence with
  | nil =>
    cases fuel with
    | zero => rfl
    | succ fuel =>
      have hle := okPayload_length_le capabilities affectedRows
      have hhead : (okPayload capabilities affectedRows).head? ≠ some 0xFE := by
        rw [okPayload_head]
        decide
      have hpacket := takePacket_packet (show (okPayload capabilities affectedRows).length < 2 ^ 24 by omega) sequence []
      rw [List.map_nil, List.nil_append, numbered, numbered, takeRows, hpacket]
      simp only [Option.bind_eq_bind, Option.bind_some, isEnd_of_head hhead, Bool.false_eq_true, if_false]
      cases takeStrings columns (okPayload capabilities affectedRows) with
      | none => rfl
      | some taken =>
        cases fuel <;> simp [takeRows, takePacket]
  | cons cells rows ih =>
    cases fuel with
    | zero => rfl
    | succ fuel =>
      obtain ⟨hne, hcolumns, hread, hroom⟩ := h cells List.mem_cons_self
      have hstrings := takeStrings_lenencBytes hread []
      rw [List.append_nil, hcolumns] at hstrings
      rw [List.map_cons, List.cons_append, numbered, takeRows, takePacket_packet (by omega)]
      simp only [Option.bind_eq_bind, Option.bind_some, isEnd_of_head (rowPayload_head hne hroom), Bool.false_eq_true, if_false]
      rw [show takeStrings columns (rowPayload cells) = some (cells, []) from hstrings]
      simp only [Option.bind_some, ne_eq, not_true_eq_false, if_false]
      rw [ih (fun other hmem => h other (List.mem_cons_of_mem cells hmem))]
      rfl

end

open MysqlCommunicator

section
variable {specs : List (Bytes × Bytes)} {rows : List (List Bytes)} (h : Fits specs rows) (capabilities : UInt32) (sequence : ℤ)
include h

theorem row_of_fits {cells : List Bytes} (hcells : cells ∈ rows) : cells ≠ [] ∧ cells.length = specs.length ∧
    (∀ cell ∈ cells, Readable cell) ∧ 4 + (rowPayload cells).length ≤ 4 * 1024 * 1024 :=
  ⟨h.ne_nil hcells, h.cells cells hcells⟩

/-- The number of columns and their definitions are read, and the rows are left. -/
theorem readResultSet_columns (rest : Bytes) :
    readResultSet capabilities sequence (numbered sequence (resultSetPayloads capabilities specs rows) ++ rest) =
      (takeMetadataEnd capabilities (sequence + 1 + specs.length)
        (numbered (sequence + 1 + specs.length)
          (metadataEnd capabilities ++ (rows.map rowPayload ++ [rowsEnd capabilities rows.length])) ++ rest)).bind
        fun (next, stream) => (takeRows capabilities specs.length (stream.length + 1) next stream).map
          fun (rows, stream) => (⟨specs, rows⟩, stream) := by
  have hcount := storeLenencInt_le (UInt64.ofInt specs.length)
  have hshort : (columnCountPayload capabilities specs.length).length < 2 ^ 24 := by
    rw [columnCountPayload, List.length_append]
    split_ifs <;> simp only [List.length_singleton, List.length_nil] <;> omega
  have hmetadata : (if capabilities &&& clientOptionalResultsetMetadata ≠ 0 then
      (columnCountPayload capabilities specs.length).drop 1 else columnCountPayload capabilities specs.length) =
        (storeLenencInt (UInt64.ofInt specs.length)).1 := by
    unfold columnCountPayload
    split_ifs <;> rfl
  obtain ⟨n, hread⟩ := lenencInt_count h.count.1 h.count.2
  have hstream : numbered sequence (resultSetPayloads capabilities specs rows) ++ rest =
      packet sequence (columnCountPayload capabilities specs.length) ++ (numbered (sequence + 1) (specs.map columnPayload) ++
        (numbered (sequence + 1 + specs.length)
          (metadataEnd capabilities ++ (rows.map rowPayload ++ [rowsEnd capabilities rows.length])) ++ rest)) := by
    rw [resultSetPayloads, List.append_assoc, List.append_assoc, List.singleton_append, numbered, numbered_append,
      List.length_map, List.append_assoc, List.append_assoc]
  rw [hstream, readResultSet, takePacket_packet hshort]
  simp only [Option.bind_eq_bind, Option.bind_some]
  rw [hmetadata, hread]
  simp only [Option.bind_some]
  rw [takeColumns_numbered h.definitions]
  simp only [Option.bind_some, Option.map_eq_bind]
  rfl

theorem readResultSet_eof (hdeprecate : capabilities &&& clientDeprecateEof = 0) (rest : Bytes) :
    readResultSet capabilities sequence (numbered sequence (resultSetPayloads capabilities specs rows) ++ rest) =
      some (⟨specs, rows⟩, rest) := by
  have hle := eofPayload_length_le capabilities 0x02
  have hnumbers := length_numbered_ge (sequence + 1 + specs.length + 1) (rows.map rowPayload ++ [eofPayload capabilities 0x22])
  have hfuel : rows.length <
      (numbered (sequence + 1 + specs.length + 1) (rows.map rowPayload ++ [eofPayload capabilities 0x22]) ++ rest).length + 1 := by
    simp only [List.length_append, List.length_map] at hnumbers
    rw [List.length_append]
    omega
  have hrows := takeRows_numbered (fun cells hcells => row_of_fits h hcells) capabilities hfuel
    (sequence + 1 + specs.length + 1) rest
  rw [readResultSet_columns h, metadataEnd, rowsEnd, if_pos hdeprecate, if_pos hdeprecate, takeMetadataEnd, if_pos hdeprecate,
    List.singleton_append, numbered, List.append_assoc, takePacket_packet (by omega)]
  simp only [Option.bind_eq_bind, Option.bind_some, isEnd_eofPayload, if_true]
  rw [hrows]
  rfl

theorem readResultSet_deprecateEof (hdeprecate : capabilities &&& clientDeprecateEof ≠ 0) :
    readResultSet capabilities sequence (numbered sequence (resultSetPayloads capabilities specs rows)) = none := by
  have hcolumns := readResultSet_columns h capabilities sequence []
  rw [List.append_nil, List.append_nil, metadataEnd, rowsEnd, if_neg hdeprecate, if_neg hdeprecate, takeMetadataEnd,
    if_neg hdeprecate, List.nil_append, Option.bind_some] at hcolumns
  rw [hcolumns]
  simp only
  rw [takeRows_endless fun cells hcells => row_of_fits h hcells]
  rfl

end

/-- The bytes of a result set. -/
def resultSetBytes (comm : MysqlCommunicator) (specs : List (Bytes × Bytes)) (rows : List (List Bytes)) : Bytes :=
  numbered comm.sequenceId (resultSetPayloads comm.clientCapabilitiesFlag specs rows)

/-- A client that reads with the number of the request finds the columns and the rows at the front of the stream, and all of
what follows them behind; one that asked for no `EOF` packets waits for more. -/
theorem writeResult_readResultSet (comm : MysqlCommunicator) {specs : List (Bytes × Bytes)} {rows : List (List Bytes)}
    (h : Fits specs rows) (closeRc : RC) {c : ℕ} {sent q : Bytes} (hpos : 1 ≤ c) (hc : c ≤ 2 ^ 30)
    (hsent : Sent c comm.writer comm.channel sent q) :
    (comm.clientCapabilitiesFlag &&& clientDeprecateEof = 0 → ∀ rest,
      readResultSet comm.clientCapabilitiesFlag comm.sequenceId (resultSetBytes comm specs rows ++ rest) =
        some (⟨specs, rows⟩, rest)) ∧
    (comm.clientCapabilitiesFlag &&& clientDeprecateEof ≠ 0 →
      readResultSet comm.clientCapabilitiesFlag comm.sequenceId (resultSetBytes comm specs rows) = none) ∧
    ((comm.writeResult specs rows closeRc = .error .waits ∧
        comm.channel.room < (sent ++ resultSetBytes comm specs rows).length) ∨
      ∃ comm', comm.writeResult specs rows closeRc = .ok (closeRc, comm') ∧
        comm'.channel.accepted = sent ++ resultSetBytes comm specs rows) := by
  refine ⟨readResultSet_eof h _ _, readResultSet_deprecateEof h _ _, ?_⟩
  rcases comm.writeResult_delivers h closeRc hpos hc hsent with hwaits | ⟨comm', hok, hsent'⟩
  · exact Or.inl hwaits
  · exact Or.inr ⟨comm', hok, by rw [← List.append_nil comm'.channel.accepted]; exact hsent'.stream⟩

/-- A row of two columns, for a client that announces nothing. -/
theorem writeResult_readResultSet_row :
    let specs := [(text "t", text "id"), (text "t", text "name")]
    let rows := [[text "1", text "x"]]
    Fits specs rows ∧ ∃ comm', connected.writeResult specs rows .success = .ok (.success, comm') ∧
      readResultSet 0 0 comm'.channel.accepted = some (⟨specs, rows⟩, []) := by
  intro specs rows
  have hfits : Fits specs rows := ⟨by simp [specs], by decide, by decide +kernel, by decide +kernel⟩
  have hsent : Sent 16384 connected.writer connected.channel [] [] :=
    ⟨Represents.create (by omega), by decide, rfl, by decide +kernel⟩
  have hroom : ([] ++ resultSetBytes connected specs rows).length ≤ connected.channel.room := by decide +kernel
  obtain ⟨hread, -, hwaits | ⟨comm', hok, haccepted⟩⟩ :=
    writeResult_readResultSet connected hfits .success (by omega) (by omega) hsent
  · exact absurd hwaits.2 (not_lt.mpr hroom)
  · refine ⟨hfits, comm', hok, ?_⟩
    have hback := hread rfl []
    rw [List.append_nil] at hback
    rw [haccepted]
    exact hback

end Landbase.Net
